import JsonSieve.Machine.Step

/-!
# Instructions that stay in their activation

Most instructions look at nothing but the current activation, the current token, the last case and the
flag, and change nothing else. What such an instruction does is one function of these (`effect`), whatever
the machine around the activation is (`execute_local`). So what is kept by a step has to be proved only for
the instructions that read tokens, call, return or split.
-/

namespace JsonSieve

/-- Does the instruction stay in its activation? -/
def Opcode.isLocal : Opcode → Bool
  | .call | .ret | .split | .splitBits | .token | .consume | .untoken | .unique => false
  | _ => true

namespace Machine

/-- What an instruction that stays in its activation comes to. -/
inductive Effect where
  | stays (top : Activation) (lastCase : Int64) (flag : Bool)
  | fails (d : Defect)

def Effect.on (pc : Nat) (below : List Activation) (m : Machine) : Effect → Stepped
  | .stays top lastCase flag => ⟨{ m with frames := top :: below, lastCase, flag }, [], .run⟩
  | .fails d => .defect m pc d

def Effect.ofStepped (s : Stepped) : Effect :=
  match s.next, s.machine.frames with
  | .run, top :: _ => .stays top s.machine.lastCase s.machine.flag
  | .fail (.malformed _ d), _ => .fails d
  | _, _ => .fails .ranIntoEnd

def solo (top : Activation) (current : Token) (lastCase : Int64) (flag : Bool) : Machine :=
  { frames := [top], current, lastCase, flag }

/-- What an instruction that stays in its activation does there. -/
def effect (exe : Executable) (pc : Nat) (op : Op) (top : Activation) (current : Token)
    (lastCase : Int64) (flag : Bool) : Effect :=
  .ofStepped ((solo top current lastCase flag).execute exe pc op)

section

variable {m : Machine} {top a : Activation} {below : List Activation}

theorem advance_eq (h : m.frames = a :: below) :
    m.advance = { m with frames := { a with pc := a.pc + 1 } :: below } := by
  rw [advance, mapTop, h]

theorem goTo_eq (h : m.frames = a :: below) (pc : Nat) : m.goTo pc = { m with frames := { a with pc } :: below } := by
  rw [goTo, mapTop, h]

theorem setSlot_eq (h : m.frames = a :: below) (i : UInt32) (w : Int64) : m.setSlot i w =
      { m with frames := { a with slots := a.slots.setIfInBounds i.toNat w } :: below } := by
  rw [setSlot, mapTop, h]

/-! ## What the activation sees -/

theorem word_solo (h : m.frames = top :: below) (o : Operand) :
    (solo top m.current m.lastCase m.flag).word o = m.word o := by
  cases o with
  | slot i =>
    rw [word, word, slot, slot, h]
    rfl
  | register r => cases r <;> rfl
  | _ => rfl

theorem real_solo (exe : Executable) (h : m.frames = top :: below) (o : Operand) :
    (solo top m.current m.lastCase m.flag).real exe o = m.real exe o := by
  have hword := word_solo h o
  cases o with
  | float i => rfl
  | register r => cases r <;> rfl
  | _ =>
    show Binary64.ofInt64 <$> (solo top m.current m.lastCase m.flag).word _ = Binary64.ofInt64 <$> m.word _
    rw [hword]

theorem slotIndex_solo (h : m.frames = top :: below) (o : Operand) :
    (solo top m.current m.lastCase m.flag).slotIndex o = m.slotIndex o := by
  cases o with
  | slot i =>
    rw [slotIndex, slotIndex, slot, slot, h]
    rfl
  | _ => rfl

/-- The step of a machine and of its current activation alone come to the same effect. -/
def Matches (pc : Nat) (below : List Activation) (m : Machine) (s alone : Stepped) : Prop :=
  s = (Effect.ofStepped alone).on pc below m

theorem Matches.require {α : Type} (pc : Nat) (below : List Activation) (result : Except Defect α)
    {alone : Machine} {k k' : α → Stepped} (h : ∀ a, Matches pc below m (k a) (k' a)) :
    Matches pc below m (.require m pc result k) (.require alone pc result k') := by
  cases result with
  | ok a => exact h a
  | error d => rfl

theorem setFlag_matches (h : m.frames = top :: below) (pc : Nat) (result : Except Defect Bool) :
    Matches pc below m (m.setFlag pc result)
      ((solo top m.current m.lastCase m.flag).setFlag pc result) := by
  refine Matches.require pc below result fun flag => ?_
  rw [advance_eq (m := { m with flag }) h]
  rfl

theorem advance_matches (h : m.frames = top :: below) (pc : Nat) (lastCase : Int64) :
    Matches pc below m ⟨advance { m with lastCase }, [], .run⟩
      ⟨advance { solo top m.current m.lastCase m.flag with lastCase }, [], .run⟩ := by
  rw [advance_eq (m := { m with lastCase }) h]
  rfl

theorem jump_matches (h : m.frames = top :: below) (pc : Nat) (o : Operand) :
    Matches pc below m (m.jump pc o) ((solo top m.current m.lastCase m.flag).jump pc o) := by
  cases o with
  | address a =>
    rw [jump, goTo_eq h]
    rfl
  | _ => rfl

theorem update_matches (h : m.frames = top :: below) (pc : Nat) (o : Operand) (f : Int64 → Int64) :
    Matches pc below m (m.update pc o f)
      ((solo top m.current m.lastCase m.flag).update pc o f) := by
  rw [update, update, slotIndex_solo h]
  refine Matches.require pc below _ fun i => ?_
  have hslot : (solo top m.current m.lastCase m.flag).slot i = m.slot i := by
    rw [slot, slot, h]
    rfl
  rw [hslot]
  refine Matches.require pc below _ fun word => ?_
  rw [setSlot_eq h, advance_eq rfl]
  rfl

/-- An instruction that stays in its activation does there what it does in any other machine. -/
theorem execute_local (exe : Executable) (pc : Nat) {op : Op} (hlocal : op.code.isLocal = true)
    (h : m.frames = top :: below) :
    m.execute exe pc op = (effect exe pc op top m.current m.lastCase m.flag).on pc below m := by
  show Matches pc below m _ _
  have hwords := word_solo h
  unfold execute
  rw [show (solo top m.current m.lastCase m.flag).flag = m.flag from rfl, hwords op.a, hwords op.b,
    real_solo exe h op.a, real_solo exe h op.b]
  cases hcode : op.code with
  | nop => exact advance_matches h pc m.lastCase
  | compareWords | compareReals | divides | bitTest => exact setFlag_matches h pc _
  | branch => exact jump_matches h pc op.a
  | branchIfSet =>
    dsimp only
    split
    · exact jump_matches h pc op.a
    · exact advance_matches h pc m.lastCase
  | branchIfClear =>
    dsimp only
    split
    · exact advance_matches h pc m.lastCase
    · exact jump_matches h pc op.a
  | matchCase =>
    rw [show (solo top m.current m.lastCase m.flag).current = m.current from rfl]
    cases op.a with
    | matcher i =>
      dsimp only
      split
      · exact advance_matches h pc _
      · exact advance_matches h pc 0
      · rfl
    | _ => rfl
  | move | bitSet | bitClear | bitCount =>
    exact Matches.require pc below _ fun _ => update_matches h pc op.a _
  | incr | decr => exact update_matches h pc op.a _
  | finish => rfl
  | call | ret | split | splitBits | token | consume | untoken | unique =>
    rw [hcode] at hlocal
    cases hlocal

end

/-! ## What an effect can be -/

/-- An instruction that does not fail goes on behind it, or to the place that it names; it keeps the size of
its activation and what was seen there. -/
structure Effect.Proper (op : Op) (top top' : Activation) : Prop where
  proc_eq : top'.proc = top.proc
  seen_eq : top'.seen = top.seen
  size_eq : top'.slots.size = top.slots.size
  pc_eq : op.code ≠ .finish ∧ top'.pc = top.pc + 1 ∨ ∃ a, op.a = .address a ∧ top'.pc = a.toNat

/-- What can be wrong with an instruction that stays in its activation. -/
inductive Effect.Defective (exe : Executable) (op : Op) : Defect → Prop where
  | target (o : Operand) : Defective exe op (.notTarget o)
  | slot (o : Operand) : Defective exe op (.notSlot o)
  | integer (o : Operand) : Defective exe op (.notInteger o)
  | slotRange (i proc : UInt32) : Defective exe op (.slotRange i proc)
  | bitRange (bit : Int64) : Defective exe op (.bitRange bit)
  | needsMatcher : Defective exe op .needsMatcher
  | ranIntoEnd : Defective exe op .ranIntoEnd
  | number (i : UInt32) (h : op.a = .float i ∨ op.b = .float i) (hnone : exe.floats[i.toNat]? = none) :
    Defective exe op (.missingNumber i)
  | matcher (i : UInt32) (h : op.a = .matcher i) (hnone : exe.recognizers[i.toNat]? = none) :
    Defective exe op (.badOperand op.a)

def Effect.Lawful (exe : Executable) (op : Op) (top : Activation) : Effect → Prop
  | .stays top' _ _ => Proper op top top'
  | .fails d => Defective exe op d

section

variable {exe : Executable} {op : Op} {top : Activation} {current : Token} {lastCase : Int64}
  {flag : Bool}

open Effect (Lawful Defective Proper)

variable {pc : Nat} {d : Defect} {o : Operand}

theorem lawful_require {α : Type} {alone : Machine} {result : Except Defect α}
    {k : α → Stepped} (herror : ∀ d, result = .error d → Defective exe op d)
    (h : ∀ a, result = .ok a → Lawful exe op top (.ofStepped (k a))) :
    Lawful exe op top (.ofStepped (.require alone pc result k)) := by
  cases hresult : result with
  | ok a => exact h a hresult
  | error d => exact herror d hresult

theorem slot_defective {i : UInt32} (h : (solo top current lastCase flag).slot i = .error d) : Defective exe op d := by
  rw [slot, solo] at h
  dsimp only at h
  split at h
  · cases h
  · cases h
    exact .slotRange i top.proc

theorem word_defective (h : (solo top current lastCase flag).word o = .error d) : Defective exe op d := by
  cases o with
  | int | register => cases h
  | slot i =>
    rw [word] at h
    exact slot_defective h
  | _ =>
    cases h
    exact .integer _

theorem real_defective (ho : o = op.a ∨ o = op.b)
    (h : (solo top current lastCase flag).real exe o = .error d) : Defective exe op d := by
  have hmap : ∀ x : Except Defect Int64, Binary64.ofInt64 <$> x = .error d → x = .error d := by
    intro x hx
    cases x with
    | ok => cases hx
    | error e =>
      cases hx
      rfl
  cases o with
  | float i =>
    unfold real at h
    dsimp only at h
    split at h
    · cases h
    · next hnone =>
      cases h
      exact .number i (ho.imp Eq.symm Eq.symm) hnone
  | register r =>
    cases r with
    | tokenNumber => cases h
    | _ => cases hmap _ h
  | _ => exact word_defective (hmap _ h)

theorem bit_defective (h : ((solo top current lastCase flag).word o >>= bitIndex) = .error d) : Defective exe op d := by
  cases hword : (solo top current lastCase flag).word o with
  | error e =>
    rw [hword] at h
    cases h
    exact word_defective hword
  | ok bit =>
    rw [hword] at h
    replace h : bitIndex bit = .error d := h
    rw [bitIndex] at h
    split at h
    · cases h
    · cases h
      exact .bitRange bit

theorem setFlag_lawful {result : Except Defect Bool} (hcode : op.code ≠ .finish)
    (h : ∀ d, result = .error d → Defective exe op d) :
    Lawful exe op top (.ofStepped ((solo top current lastCase flag).setFlag pc result)) :=
  lawful_require h fun _ _ => ⟨rfl, rfl, rfl, .inl ⟨hcode, rfl⟩⟩

theorem jump_lawful : Lawful exe op top (.ofStepped ((solo top current lastCase flag).jump pc op.a)) := by
  cases ha : op.a with
  | address a => exact ⟨rfl, rfl, rfl, .inr ⟨a, ha, rfl⟩⟩
  | _ => exact .target _

theorem update_lawful {f : Int64 → Int64} (hcode : op.code ≠ .finish) :
    Lawful exe op top (.ofStepped ((solo top current lastCase flag).update pc op.a f)) := by
  refine lawful_require ?_ fun i hi => lawful_require (fun d => slot_defective) fun word _ => ?_
  · intro d hd
    cases ha : op.a with
    | slot i =>
      rw [ha, slotIndex] at hd
      cases hslot : (solo top current lastCase flag).slot i with
      | ok =>
        rw [hslot] at hd
        cases hd
      | error e =>
        rw [hslot] at hd
        cases hd
        exact slot_defective hslot
    | _ =>
      rw [ha] at hd
      cases hd
      exact .slot _
  · exact ⟨rfl, rfl, Array.size_setIfInBounds, .inl ⟨hcode, rfl⟩⟩

/-- What an instruction that stays in its activation can come to. -/
theorem effect_lawful (exe : Executable) (pc : Nat) (hlocal : op.code.isLocal = true)
    (top : Activation) (current : Token) (lastCase : Int64) (flag : Bool) :
    Lawful exe op top (effect exe pc op top current lastCase flag) := by
  have hnext : op.code ≠ .finish → Proper op top { top with pc := top.pc + 1 } :=
    fun hcode => ⟨rfl, rfl, rfl, .inl ⟨hcode, rfl⟩⟩
  have htwo : ∀ {α β γ : Type} {x : Except Defect α} {y : Except Defect β} {f : α → β → γ} {d : Defect},
      (do let a ← x; let b ← y; pure (f a b) : Except Defect γ) = .error d →
      x = .error d ∨ y = .error d := by
    intro α β γ x y f d h
    cases x with
    | error e =>
      cases h
      exact .inl rfl
    | ok a =>
      cases y with
      | error e =>
        cases h
        exact .inr rfl
      | ok b => cases h
  unfold effect execute
  cases hcode : op.code with
  | nop => exact hnext (by simp [hcode])
  | compareWords c =>
    exact setFlag_lawful (by simp [hcode]) fun d hd => (htwo hd).elim word_defective word_defective
  | compareReals c =>
    exact setFlag_lawful (by simp [hcode]) fun d hd =>
      (htwo hd).elim (real_defective (.inl rfl)) (real_defective (.inr rfl))
  | divides =>
    exact setFlag_lawful (by simp [hcode]) fun d hd =>
      (htwo hd).elim (real_defective (.inl rfl)) (real_defective (.inr rfl))
  | bitTest =>
    refine setFlag_lawful (by simp [hcode]) fun d hd => ?_
    exact (htwo hd).elim bit_defective word_defective
  | branch => exact jump_lawful
  | branchIfSet =>
    dsimp only
    split
    · exact jump_lawful
    · exact hnext (by simp [hcode])
  | branchIfClear =>
    dsimp only
    split
    · exact hnext (by simp [hcode])
    · exact jump_lawful
  | matchCase =>
    cases ha : op.a with
    | matcher i =>
      dsimp only
      split
      · exact hnext (by simp [hcode])
      · exact hnext (by simp [hcode])
      · next hnone =>
        rw [← ha]
        exact .matcher i ha hnone
    | _ => exact .needsMatcher
  | move | bitCount =>
    exact lawful_require (fun d => word_defective) fun _ _ => update_lawful (by simp [hcode])
  | bitSet | bitClear =>
    exact lawful_require (fun d => bit_defective) fun _ _ => update_lawful (by simp [hcode])
  | incr | decr => exact update_lawful (by simp [hcode])
  | finish => exact .ranIntoEnd
  | call | ret | split | splitBits | token | consume | untoken | unique =>
    rw [hcode] at hlocal
    cases hlocal

end

end Machine

end JsonSieve
