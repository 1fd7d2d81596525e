import JsonSieve.Proofs.Machine.Installed
import JsonSieve.Proofs.Number.Quotient
import JsonSieve.Proofs.Running.Graph

/-!
# Statements in a run

Where a machine gets that is in front of a statement of a block, for the statements that run no other
frames. `Came` says what a run of `Running` means for a machine. Operands hold the numbers of their
expressions (`In.intOperand`, `In.numOperand`), conditions set the flag (`In.flag`), and the branches behind
them go where the flag says (`At.branchIf`, `At.branchCase`).
-/

namespace JsonSieve

namespace Assembly

/-! ## Operands -/

variable {floats floats' : List Binary64}

theorem ite_eq_ok {α : Type} {p : Prop} [Decidable p] {a r : α} {e : Defect}
    (h : (if p then pure a else throw e : Assembling α) floats = .ok (r, floats')) :
    p ∧ r = a ∧ floats' = floats := by
  by_cases hp : p
  · rw [if_pos hp] at h
    cases h
    exact ⟨hp, rfl, rfl⟩
  · rw [if_neg hp] at h
    cases h

theorem temp_eq_ok {s : Scope} {t : Nat} {o : Operand} (h : s.temp t floats = .ok (o, floats')) :
    ∃ colour, s.colours[t]? = some colour ∧ o = Scope.slotAt (s.firstTemp + colour) := by
  rw [Scope.temp] at h
  cases hc : s.colours[t]? with
  | none =>
    rw [hc] at h
    cases h
  | some colour =>
    rw [hc] at h
    cases h
    exact ⟨colour, rfl, rfl⟩

theorem floatOperand_eq_ok {x : Binary64} {o : Operand} (h : floatOperand x floats = .ok (o, floats)) :
    ∃ i, o = .float (Word.saturate i) ∧ floats[i]? = some x := by
  rw [floatOperand] at h
  cases hi : floats.findIdx? (· = x) with
  | none =>
    rw [hi] at h
    have hsame : floats ++ [x] = floats := congrArg Prod.snd (Except.ok.inj h)
    simp at hsame
  | some i =>
    rw [hi] at h
    cases h
    obtain ⟨hlt, hx, -⟩ := List.findIdx?_eq_some_iff_getElem.1 hi
    exact ⟨i, rfl, by rw [List.getElem?_eq_getElem hlt]; simpa using hx⟩

end Assembly

namespace Machine

open Assembly Running

/-! ## Ends of frames -/

def Stops (exe : Executable) (m : Machine) : Prop :=
  (m.move exe).next = .finish (.invalid .invalidJson)

def Unwinds (exe : Executable) (code : Int64) (frames : List Activation) (m : Machine) : Prop :=
  ∃ pc, (m.move exe).next = (unwind exe pc code m frames).next ∧
    (m.move exe).machine = (unwind exe pc code m frames).machine

def Ended (G : Ground) : Running.Outcome → Machine → Prop
  | .valid p, m =>
    Reads G.broken G.whole G.splits m p ∧ ∃ a, Unwinds G.exe 0 (a :: G.below) m
  | .invalid reason p, m =>
    Reads G.broken G.whole G.splits m p ∧ ∃ a, Unwinds G.exe reason.word (a :: G.below) m
  | .badText, m | .noValue, m => Stops G.exe m
  | .wrong, _ => True

/-- What a run means for a machine: it has the result, or the frame is about to end. -/
def Came {α : Type} (G : Ground) (P : α → Machine → Prop) : Run α → Machine → Prop
  | .result a, m => P a m
  | .ends o, m => Ended G o m
  | .running, _ => True

section

variable {α β : Type} {G : Ground} {deep : Prop} {m : Machine} {P : α → Machine → Prop}
  {Q : β → Machine → Prop} {r : Run α}

theorem Came.wrong : Came G P .wrong m := trivial

theorem Gets.came (h : Gets G.exe deep m (Came G P r)) {k : α → Run β}
    (hk : ∀ a m', r = .result a → P a m' → Gets G.exe deep m' (Came G Q (k a))) :
    Gets G.exe deep m (Came G Q (r >>= k)) := by
  refine h.bind fun m' hcame => ?_
  cases r with
  | result a => exact hk a m' rfl hcame
  | ends o => exact .here hcame
  | running => exact .here trivial

theorem Gets.came_map (h : Gets G.exe deep m (Came G P r)) {f : α → β}
    (hf : ∀ a m', P a m' → Q (f a) m') : Gets G.exe deep m (Came G Q (f <$> r)) := by
  refine h.mono fun m' hcame => ?_
  cases r with
  | result a => exact hf a m' hcame
  | ends o => exact hcame
  | running => trivial

end

section

variable {G : Ground} {h : Home} {m : Machine} {σ : State} {a : Activation} {k : List Stmt}
  {deep : Prop} {e : Setting}

variable {st : Stmt} {floats : List Binary64} {call : Nat → Position → Option Running.Outcome}

theorem At.one (op : Op) (hat : At G h m σ (st :: k))
    (hst : ∀ next ops, h.scope.stmt next st h.floats = .ok (ops, h.floats) → ops = [op]) :
    ∃ a, In G h m σ a ∧ G.exe.ops[a.pc]? = some (op.placed h.start h.proc) ∧ h.Stands G.exe k (a.pc + 1) := by
  obtain ⟨a, hin, hstands⟩ := hat
  obtain ⟨next, ops, hops, hloads, hrest, -⟩ := hstands.cons
  obtain rfl := hst next ops hops
  exact ⟨a, hin, hloads.head.1, hrest⟩

theorem In.moved (hin : In G h m σ a) {m' : Machine} {p : Position} (hframes : m'.frames = m.frames)
    (hreads : Reads G.broken G.whole G.splits m' p) : In G h m' (σ.moveTo p) a :=
  ⟨hreads, hframes.trans hin.frames_eq, hin.holds.congr a.proc a.pc p⟩

variable {op : Op} {i : Nat} {w : Int64} {o : Operand} {x : Expr} {c : Comparison} {sense : Bool}

theorem In.stops (hin : In G h m σ a) (hop : G.exe.ops[a.pc]? = some op)
    (hexecute : (m.execute G.exe a.pc op).next = .finish (.invalid .invalidJson)) : Stops G.exe m :=
  (move_op hin.started hin.free hin.frames_eq hop).1.trans hexecute

/-! ## Reading -/

def Behind (G : Ground) (h : Home) (k : List Stmt) (σ : State) (m : Machine) : Prop := At G h m σ k

/-- An instruction that reads goes on behind it at the position that it comes to, or it stops the run at bad
text. -/
theorem In.fetches (hin : In G h m σ a) (hop : G.exe.ops[a.pc]? = some op) (hrest : h.Stands G.exe k (a.pc + 1))
    {fetch : Machine × Fetch} {events : Machine → List Event}
    (hexecute : m.execute G.exe a.pc op = .fetched a.pc (fun m => ⟨m.advance, events m, .run⟩) fetch)
    {to? : Option Position} (hready : ∀ {p}, to? = some p → ∃ m', fetch = (m', .ready) ∧
      m'.frames = m.frames ∧ Reads G.broken G.whole G.splits m' p)
    (hbad : to? = none → fetch.2 = .badText) : Gets G.exe deep m (Came G (Behind G h k)
      (Run.ofOption .badText to? >>= fun p => pure (σ.moveTo p))) := by
  cases to? with
  | some p =>
    obtain ⟨m', rfl, hframes, hreads⟩ := hready rfl
    exact hin.step hop hexecute (.here ⟨_, (hin.moved hframes hreads).next, hrest⟩)
  | none =>
    obtain ⟨m', answer⟩ := fetch
    obtain rfl : answer = .badText := hbad rfl
    exact .here (hin.stops hop (by rw [hexecute]; rfl))

theorem At.token [Regex.Engine] (hat : At G h m σ (.token :: k)) :
    Gets G.exe deep m (Came G (Behind G h k) (act e .token σ)) := by
  obtain ⟨a, hin, hop, hrest⟩ := hat.one ⟨.token, .none, .none⟩ fun _ _ hok => by cases hok; rfl
  exact hin.fetches hop hrest rfl hin.toReads.token hin.toReads.token_bad

theorem At.consume [Regex.Engine] (hat : At G h m σ (.consume :: k)) :
    Gets G.exe deep m (Came G (Behind G h k) (act e .consume σ)) := by
  obtain ⟨a, hin, hop, hrest⟩ := hat.one ⟨.consume, .none, .none⟩ fun _ _ hok => by cases hok; rfl
  exact hin.fetches hop hrest rfl hin.toReads.consume hin.toReads.consume_bad

theorem At.untoken [Regex.Engine] (hat : At G h m σ (.untoken :: k)) :
    Gets G.exe deep m (Came G (Behind G h k) (act e .untoken σ)) := by
  obtain ⟨a, hin, hop, hrest⟩ := hat.one ⟨.untoken, .none, .none⟩ fun _ _ hok => by cases hok; rfl
  rw [act]
  cases hunread : σ.position.unread? with
  | none => exact .here Came.wrong
  | some p =>
    obtain ⟨hpos, hreads⟩ := hin.toReads.untoken hunread
    let m' : Machine := { m with cursor := m.cursor - 1 }
    have hin' : In G h m' _ a := hin.moved (show m'.frames = m.frames from rfl) hreads
    have hexecute : m.execute G.exe a.pc (Op.placed h.start h.proc ⟨.untoken, .none, .none⟩) =
        ⟨m'.advance, [], .run⟩ := if_neg (Nat.pos_iff_ne_zero.1 hpos)
    exact hin.step hop hexecute (.here ⟨_, hin'.next, hrest⟩)

/-! ## Slots -/

theorem In.update (hin : In G h m σ a) (hop : G.exe.ops[a.pc]? = some op) {f : Int64 → Int64}
    (hi : i < Nat.pow 2 32) (hw : a.slots[i]? = some w)
    (hexecute : m.execute G.exe a.pc op = m.update a.pc (.slot (Word.saturate i)) f) (σ' : State)
    (hholds : Holds h.scope { a with slots := a.slots.setIfInBounds i (f w) } σ')
    (hposition : σ'.position = σ.position) : Gets G.exe deep m fun m' =>
      In G h m' σ' { a with slots := a.slots.setIfInBounds i (f w), pc := a.pc + 1 } := by
  rw [update_eq hin.frames_eq (by rw [toNat_saturate hi]; exact hw), toNat_saturate hi] at hexecute
  exact hin.step hop hexecute (.here (hin.framed (hholds.to (a.pc + 1)) hposition m.flag m.lastCase))

theorem In.slot_eq (hin : In G h m σ a) (hi : i < Nat.pow 2 32)
    (hw : a.slots[i]? = some w) : m.word (Scope.slotAt i) = .ok w :=
  Machine.slot_eq hin.frames_eq (by rw [toNat_saturate hi]; exact hw)

theorem At.counter {c : Nat} {op : Operand → Op} {f : Int64 → Int64}
    (hat : At G h m σ (st :: k)) (hi : h.Installed G.exe)
    (hst : ∀ next, h.scope.stmt next st = h.scope.counter c >>= fun o => pure [op o])
    (hexecute : ∀ (m : Machine) (pc : Nat) (i : UInt32), m.execute G.exe pc
      ((op (.slot i)).placed h.start h.proc) = m.update pc (.slot i) f) :
    Gets G.exe deep m (Behind G h k (σ.setCount c (f (σ.counts c)))) := by
  obtain ⟨a, hin, hstands⟩ := hat
  obtain ⟨next, ops, hops, hloads, hrest, -⟩ := hstands.cons
  rw [hst] at hops
  obtain ⟨o, floats, ho, hops⟩ := bind_eq_ok hops
  obtain ⟨hc, rfl, -⟩ := ite_eq_ok ho
  cases hops
  obtain ⟨hbv, hu, ht, hle⟩ := h.scope.bounds
  have hslots := hi.slots_lt
  exact (hin.update hloads.head.1 (by omega) (hin.holds.count c hc) (hexecute m a.pc _) _
    (hin.holds.setCount hc _) rfl).mono fun m' hin' => ⟨_, hin', hrest⟩

theorem bitIndex_ofNat {bit : Nat} (hbit : bit < 64) : bitIndex (Int64.ofNat bit) = .ok bit := by
  have hall : ∀ b : Fin 64, bitIndex (Int64.ofNat b.val) = .ok b.val := by decide
  exact hall ⟨bit, hbit⟩

theorem At.bitvec [Regex.Engine] {bv bit : Nat} {code : Opcode} {f : Int64 → Int64 → Int64}
    (hat : At G h m σ (st :: k)) (hi : h.Installed G.exe) (hst : ∀ next, h.scope.stmt next st =
      h.scope.bitvec bv >>= fun o => pure [⟨code, o, .int (Int64.ofNat bit)⟩])
    (hact : act e st σ = Running.bit bit >>= fun w => pure (σ.setWord bv (f w (σ.words bv))))
    (hexecute : ∀ (m : Machine) (pc : Nat) (i : UInt32), m.execute G.exe pc
      ⟨code, .slot i, .int (Int64.ofNat bit)⟩ = .require m pc (.ok (Int64.ofNat bit) >>= bitIndex)
        fun bit => m.update pc (.slot i) (f (bitWord bit))) :
    Gets G.exe deep m (Came G (Behind G h k) (act e st σ)) := by
  rw [hact]
  by_cases hbit : bit < 64
  · have hword : Running.bit bit = .result (bitWord bit) := if_pos hbit
    rw [hword, Run.result_bind]
    obtain ⟨a, hin, hstands⟩ := hat
    obtain ⟨next, ops, hops, hloads, hrest, -⟩ := hstands.cons
    rw [hst] at hops
    obtain ⟨o, floats, ho, hops⟩ := bind_eq_ok hops
    obtain ⟨hbv, rfl, -⟩ := ite_eq_ok ho
    cases hops
    obtain ⟨hfirst, hu, ht, hle⟩ := h.scope.bounds
    have hslots := hi.slots_lt
    refine (hin.update hloads.head.1 (by omega) (hin.holds.word bv hbv) ?_ _
      (hin.holds.setWord hbv _) rfl).mono fun m' hin' => ⟨_, hin', hrest⟩
    refine (hexecute m a.pc _).trans ?_
    rw [show (Except.ok (Int64.ofNat bit) >>= bitIndex) = .ok bit from bitIndex_ofNat hbit]
    rfl
  · rw [Running.bit, if_neg hbit]
    exact .here Came.wrong

/-! ## Operands -/

/-- The word of an integer operand is the number of the expression, unless that makes no sense. As a
binary64 number it is converted. -/
theorem In.intOperand [Regex.Engine] (hin : In G h m σ a) (hi : h.Installed G.exe)
    (ho : h.scope.intOperand x h.floats = .ok (o, floats)) : ∃ w, m.word (o.placed h.start h.proc) = .ok w ∧
      m.real G.exe (o.placed h.start h.proc) = Binary64.ofInt64 <$> m.word (o.placed h.start h.proc) ∧
      (number e σ x = .result (.word w) ∨ number e σ x = .wrong) := by
  obtain ⟨hbv, hu, ht, hle⟩ := h.scope.bounds
  have hslots := hi.slots_lt
  have hnat : ∀ n : Nat, n < Nat.pow 2 63 → Number.word (Int64.ofNat n) = .int n :=
    fun n hn => by rw [Number.word, Int64.toInt_ofNat_of_lt hn]
  cases x with
  | size n =>
    obtain ⟨hn, rfl, -⟩ := ite_eq_ok ho
    exact ⟨_, rfl, rfl, .inl (by rw [hnat n hn]; rfl)⟩
  | int i =>
    cases ho
    exact ⟨_, rfl, rfl, .inl rfl⟩
  | bool b =>
    cases ho
    exact ⟨_, rfl, rfl, .inl (by cases b <;> rfl)⟩
  | count c =>
    obtain ⟨hc, rfl, -⟩ := ite_eq_ok ho
    exact ⟨_, hin.slot_eq (by omega) (hin.holds.count c hc), rfl, .inl rfl⟩
  | temp t =>
    obtain ⟨colour, hcolour, rfl⟩ := temp_eq_ok ho
    have hlt := Scope.temp_lt hcolour
    cases htemp : σ.temps t with
    | some w =>
      refine ⟨w, hin.slot_eq (by omega) (hin.holds.temp t colour w hcolour htemp), rfl, .inl ?_⟩
      rw [number, htemp]
      rfl
    | none =>
      have hsize : h.scope.firstTemp + colour < a.slots.size := by
        rw [hin.holds.size_eq]
        exact hlt
      refine ⟨_, hin.slot_eq (by omega) (Array.getElem?_eq_getElem hsize), rfl, .inr ?_⟩
      rw [number, htemp]
      rfl
  | tokenKind =>
    cases ho
    refine ⟨_, rfl, rfl, .inl ?_⟩
    rw [register, hin.current, hnat _ (by cases σ.position.current.kind <;> decide)]
    rfl
  | tokenLength =>
    cases ho
    refine ⟨_, rfl, rfl, .inl ?_⟩
    have hlt : min σ.position.current.length (Nat.pow 2 63 - 1) < Nat.pow 2 63 :=
      Nat.lt_of_le_of_lt (Nat.min_le_right _ _) (by decide)
    rw [register, hin.current, hnat _ hlt]
    rfl
  | tokenComplete =>
    cases ho
    exact ⟨_, rfl, rfl, .inl rfl⟩
  | _ => cases ho

/-- The binary64 number of an operand is the number of the expression, unless that makes no sense. -/
theorem In.numOperand [Regex.Engine] (hin : In G h m σ a) (hi : h.Installed G.exe)
    (ho : h.scope.numOperand x h.floats = .ok (o, h.floats)) :
    ∃ v, m.real G.exe (o.placed h.start h.proc) = .ok v ∧ ((∃ n : Number, number e σ x = .result n ∧ n.toReal = v ∧
        (Scope.isReal x = true → n = .real v)) ∨ number e σ x = .wrong) := by
  by_cases hnum : ∃ y, x = .num y
  · obtain ⟨y, rfl⟩ := hnum
    obtain ⟨i, rfl, hy⟩ := floatOperand_eq_ok ho
    have hlt := (List.getElem?_eq_some_iff.1 hy).1
    refine ⟨y, ?_, .inl ⟨.real y, rfl, rfl, fun _ => rfl⟩⟩
    have hfloat : G.exe.floats[(Word.saturate i).toNat]? = some y := by
      rw [toNat_saturate (Nat.lt_trans hlt hi.floats_lt), hi.floats_eq]
      simp [hy]
    show m.real G.exe (.float (Word.saturate i)) = .ok y
    unfold real
    dsimp only
    rw [hfloat]
  · by_cases hnumber : x = .tokenNumber
    · subst hnumber
      cases ho
      refine ⟨σ.position.current.numeric, ?_, .inl ⟨_, rfl, rfl, fun _ => rfl⟩⟩
      show Except.ok m.current.numeric = _
      rw [hin.current]
    · have hnum : ∀ y, x ≠ .num y := fun y hy => hnum ⟨y, hy⟩
      have hreal : Scope.isReal x = false := by
        cases x <;> first | rfl | exact absurd rfl (hnum _) | exact absurd rfl hnumber
      rw [Scope.numOperand.eq_3 _ _ hnum hnumber] at ho
      obtain ⟨w, hw, hconverted, hn⟩ := hin.intOperand (e := e) hi ho
      refine ⟨.ofInt64 w, by rw [hconverted, hw]; rfl, hn.imp_left fun hn => ?_⟩
      refine ⟨.word w, hn, ?_, fun h' => ?_⟩
      · rw [Number.word, Number.toReal, Int64.ofInt_toInt]
      · rw [hreal] at h'
        cases h'

/-! ## Conditions -/

theorem In.setFlag (hin : In G h m σ a) (hop : G.exe.ops[a.pc]? = some op)
    {result : Except JsonSieve.Defect Bool} {flag : Bool}
    (hexecute : m.execute G.exe a.pc op = m.setFlag a.pc result) (hresult : result = .ok flag) :
    Gets G.exe deep m fun m' => In G h m' σ { a with pc := a.pc + 1 } ∧ m'.flag = flag := by
  rw [hresult] at hexecute
  refine hin.step hop hexecute (.here ?_)
  rw [advance_eq (m := { m with flag }) hin.frames_eq]
  exact ⟨hin.framed (hin.holds.to _) rfl flag m.lastCase, rfl⟩

theorem In.compareWords (hin : In G h m σ a) {x y : Operand}
    (hop : G.exe.ops[a.pc]? = some ⟨.compareWords c, x, y⟩) {v : Int64} (hx : m.word x = .ok v)
    (hy : m.word y = .ok w) : Gets G.exe deep m fun m' =>
      In G h m' σ { a with pc := a.pc + 1 } ∧ m'.flag = c.word v w := by
  refine hin.setFlag hop rfl ?_
  rw [hx, hy]
  rfl

theorem word_kind (kind kind' : Token.Kind) : Comparison.word .eq (Int64.ofNat kind.code)
    (Int64.ofNat kind'.code) = decide (kind = kind') := by
  cases kind <;> cases kind' <;> decide

/-- What the flag says about the answer to a condition; `sense` is what a set flag means. -/
def Flagged (G : Ground) (h : Home) (pc : Nat) (sense : Bool) (answer : Bool × State) (m : Machine) :
    Prop :=
  (∃ a, In G h m answer.2 a ∧ a.pc = pc) ∧ m.flag = (answer.1 == sense)

theorem Flagged.of_in {b : Bool} (h' : In G h m σ a ∧ m.flag = b) : Flagged G h a.pc true (b, σ) m :=
  ⟨⟨a, h'.1, rfl⟩, by rw [h'.2]; cases b <;> rfl⟩

theorem In.unique [Regex.Engine] (hin : In G h m σ a) (hi : h.Installed G.exe) {u : Nat}
    (hu : u < h.scope.decls.uniques) (hop : G.exe.ops[a.pc]? = some ⟨.unique, Scope.slotAt (h.scope.firstUnique + u), .none⟩) :
    Gets G.exe deep m (Came G (Flagged G h (a.pc + 1) true) (test e (.unique u) σ)) := by
  obtain ⟨hbv, hfirst, ht, hle⟩ := h.scope.bounds
  have hslots := hi.slots_lt
  have hexecute : m.execute G.exe a.pc ⟨.unique, Scope.slotAt (h.scope.firstUnique + u), .none⟩ =
      markUnique a.pc (Word.saturate (h.scope.firstUnique + u)) m := rfl
  have hbad : (∀ v, σ.position.ahead ≠ .value v) → Stops G.exe m := by
    intro hv
    refine hin.stops hop ?_
    rw [hexecute, markUnique]
    have hbad := hin.toReads.value_bad hv
    rcases hscan : m.scan with ⟨m', answer⟩
    rw [hscan] at hbad
    cases hbad
    rfl
  rw [test]
  cases hahead : σ.position.ahead with
  | badText | nothing => exact .here (hbad (by rw [hahead]; rintro _ ⟨⟩))
  | value v =>
    obtain ⟨m', hscan, hframes, hreads⟩ := hin.toReads.value hahead
    have hin' : In G h m' (σ.moveTo σ.position) a := hin.moved hframes hreads
    obtain ⟨w, hw⟩ : ∃ w, a.slots[h.scope.firstUnique + u]? = some w := by
      have hlt : h.scope.firstUnique + u < a.slots.size := by
        rw [hin.holds.size_eq]
        omega
      exact ⟨_, Array.getElem?_eq_getElem hlt⟩
    obtain ⟨hnew, hholds, hpc⟩ := hin.holds.mark hu hslots v
    have hmarked : markUnique a.pc (Word.saturate (h.scope.firstUnique + u)) m = ⟨{ m' with
          frames := { (Activation.insertSeen (Word.saturate (h.scope.firstUnique + u)) v a).1 with
            pc := a.pc + 1 } :: G.below, flag := !(σ.seen u).contains v }, [], .run⟩ := by
      rw [markUnique, hscan]
      dsimp only
      rw [Machine.slot_eq (w := w) hin'.frames_eq (by rw [toNat_saturate (by omega)]; exact hw)]
      dsimp only [Stepped.require]
      rw [hin'.frames_eq]
      dsimp only
      rw [advance_eq rfl, hnew, hpc]
    refine hin.step hop (hexecute.trans hmarked) (.here ?_)
    refine ⟨⟨_, ⟨?_, rfl, hholds.to (a.pc + 1)⟩, rfl⟩, by dsimp only; cases (σ.seen u).contains v <;> rfl⟩
    have hposition : (σ.mark u v).position = σ.position := by
      rw [State.mark]
      split <;> rfl
    show Reads G.broken G.whole G.splits _ (σ.mark u v).position
    rw [hposition]
    exact hreads.flagged _ _

theorem compare_of_real {n n' : Number} {v v' : Binary64} (hn : n.toReal = v)
    (hn' : n'.toReal = v') (h : n = .real v ∨ n' = .real v') : n.compare c n' = c.real v v' := by
  rcases h with rfl | rfl
  · cases n' <;> rw [Number.compare, hn'] <;> first | rfl | rintro _ _ ⟨⟩
  · cases n with
    | int i =>
      rw [← hn]
      rfl
    | real x =>
      cases hn
      rfl

theorem not_condition {c : Expr} (hok : h.scope.condition (.not c) h.floats = .ok ((op, sense), floats)) :
    ∃ sense', h.scope.condition c h.floats = .ok ((op, sense'), floats) ∧ sense = !sense' := by
  rw [Scope.condition] at hok
  obtain ⟨⟨op', sense'⟩, floats', hcond, hok⟩ := bind_eq_ok hok
  cases hok
  exact ⟨sense', hcond, rfl⟩

theorem In.compare [Regex.Engine] (hin : In G h m σ a) (hi : h.Installed G.exe) {y : Expr}
    (hcond : h.scope.condition (.compare c x y) h.floats = .ok ((op, sense), h.floats))
    (hop : G.exe.ops[a.pc]? = some (op.placed h.start h.proc)) :
    Gets G.exe deep m (Came G (Flagged G h (a.pc + 1) sense) (test e (.compare c x y) σ)) := by
  rw [Scope.condition] at hcond
  rw [test]
  by_cases hreal : (Scope.isReal x || Scope.isReal y) = true
  · rw [if_pos hreal] at hcond
    obtain ⟨o, ho, hcond⟩ := (h.scope.emits_numOperand x).stable.bind_eq_ok
      (fun _ => (h.scope.emits_numOperand y).stable.bind fun _ => .pure _) hcond
    obtain ⟨o', ho', hcond⟩ := (h.scope.emits_numOperand y).stable.bind_eq_ok (fun _ => .pure _) hcond
    cases hcond
    obtain ⟨v, hv, hn⟩ := hin.numOperand (e := e) hi ho
    obtain ⟨v', hv', hn'⟩ := hin.numOperand (e := e) hi ho'
    rcases hn with ⟨n, hn, hconverted, hsame⟩ | hn
    · rcases hn' with ⟨n', hn', hconverted', hsame'⟩ | hn'
      · rw [hn, hn', Run.result_bind, Run.result_bind, compare_of_real hconverted hconverted'
          ((Bool.or_eq_true _ _ ▸ hreal).imp hsame hsame')]
        refine (@In.setFlag G h m σ a deep _ hin hop _ (c.real v v') rfl ?_).mono fun m' h' => Flagged.of_in h'
        show (m.real G.exe (o.placed h.start h.proc) >>= fun a =>
          m.real G.exe (o'.placed h.start h.proc) >>= fun b => pure (c.real a b)) = _
        rw [hv, hv']
        rfl
      · rw [hn, hn']
        exact .here Came.wrong
    · rw [hn]
      exact .here Came.wrong
  · rw [if_neg hreal] at hcond
    obtain ⟨o, ho, hcond⟩ := (h.scope.emits_intOperand x).stable.bind_eq_ok
      (fun _ => (h.scope.emits_intOperand y).stable.bind fun _ => .pure _) hcond
    obtain ⟨o', ho', hcond⟩ := (h.scope.emits_intOperand y).stable.bind_eq_ok (fun _ => .pure _) hcond
    cases hcond
    obtain ⟨w, hw, -, hn⟩ := hin.intOperand (e := e) hi ho
    obtain ⟨w', hw', -, hn'⟩ := hin.intOperand (e := e) hi ho'
    rcases hn with hn | hn
    · rcases hn' with hn' | hn'
      · rw [hn, hn', Run.result_bind, Run.result_bind, compare_int]
        exact (hin.compareWords hop hw hw').mono fun m' h' => Flagged.of_in h'
      · rw [hn, hn']
        exact .here Came.wrong
    · rw [hn]
      exact .here Came.wrong

theorem In.divides [Regex.Engine] (hin : In G h m σ a) (hi : h.Installed G.exe) {d : Binary64}
    (hcond : (h.scope.numOperand x >>= fun a => floatOperand d >>= fun d =>
      pure ((⟨.divides, a, d⟩ : Op), true)) h.floats = .ok ((op, sense), h.floats))
    (hop : G.exe.ops[a.pc]? = some (op.placed h.start h.proc)) :
    Gets G.exe deep m (Came G (Flagged G h (a.pc + 1) sense) (test e (.isMultiple x d) σ)) := by
  obtain ⟨o, ho, hcond⟩ := (h.scope.emits_numOperand x).stable.bind_eq_ok
    (fun _ => (stable_floatOperand d).bind fun _ => .pure _) hcond
  obtain ⟨o', ho', hcond⟩ := (stable_floatOperand d).bind_eq_ok (fun _ => .pure _) hcond
  cases hcond
  obtain ⟨v, hv, hn⟩ := hin.numOperand (e := e) hi ho
  obtain ⟨v', hv', hn'⟩ := hin.numOperand (x := .num d) (e := e) hi ho'
  obtain rfl : v' = d := by
    rcases hn' with ⟨n', hn', hconverted, -⟩ | hn'
    · cases hn'
      exact hconverted.symm
    · cases hn'
  rw [test]
  rcases hn with ⟨n, hn, rfl, -⟩ | hn
  · rw [hn, Run.result_bind]
    refine (@In.setFlag G h m σ a deep _ hin hop _ (n.toReal.div v').isIntegral rfl ?_).mono
      fun m' h' => Flagged.of_in h'
    show (m.real G.exe (o.placed h.start h.proc) >>= fun a =>
      m.real G.exe (o'.placed h.start h.proc) >>= fun b => pure (a.div b).isIntegral) = _
    rw [hv, hv']
    rfl
  · rw [hn]
    exact .here Came.wrong

theorem In.truth [Regex.Engine] (hin : In G h m σ a) (hw : m.word o = .ok w)
    (hn : number e σ x = .result (.word w) ∨ number e σ x = .wrong)
    (hop : G.exe.ops[a.pc]? = some ⟨.compareWords .ne, o, .int 0⟩) :
    Gets G.exe deep m (Came G (Flagged G h (a.pc + 1) true) (test.truth e x σ)) := by
  rw [test.truth]
  rcases hn with hn | hn
  · rw [hn, Run.result_bind, show Number.int 0 = Number.word 0 from rfl, compare_int]
    exact (hin.compareWords hop hw rfl).mono fun m' h' => Flagged.of_in h'
  · rw [hn]
    exact .here Came.wrong

theorem bitvec_eq_ok (op : Operand → Op) {bv : Nat} {op' : Op}
    (hok : (h.scope.bitvec bv >>= fun o => pure (op o, true)) h.floats = .ok ((op', sense), h.floats)) :
    bv < h.scope.decls.bitvecs.length ∧ op' = op (Scope.slotAt (h.scope.firstBitvec + bv)) ∧ sense = true := by
  obtain ⟨o, floats, ho, hops⟩ := bind_eq_ok hok
  obtain ⟨hbv, rfl, -⟩ := ite_eq_ok ho
  cases hops
  exact ⟨hbv, rfl, rfl⟩

theorem In.bitvec_word (hin : In G h m σ a) (hi : h.Installed G.exe) {bv : Nat}
    (hbv : bv < h.scope.decls.bitvecs.length) :
    m.word (Scope.slotAt (h.scope.firstBitvec + bv)) = .ok (σ.words bv) := by
  obtain ⟨hfirst, hfirst', ht, hle⟩ := h.scope.bounds
  have hslots := hi.slots_lt
  exact hin.slot_eq (by omega) (hin.holds.word bv hbv)

theorem In.flag [Regex.Engine] (hin : In G h m σ a) (hi : h.Installed G.exe)
    (hsize : ∀ bv, e.size bv = (h.scope.decls.bitvecs[bv]?).map (·.size)) :
    ∀ {c : Expr} {op : Op} {sense : Bool}, h.scope.condition c h.floats = .ok ((op, sense), h.floats) →
      G.exe.ops[a.pc]? = some (op.placed h.start h.proc) →
      Gets G.exe deep m (Came G (Flagged G h (a.pc + 1) sense) (test e c σ))
  | .not c, op, sense, hcond, hop => by
    obtain ⟨sense', hcond', rfl⟩ := not_condition hcond
    rw [test]
    refine (In.flag hin hi hsize hcond' hop).came fun r m' _ hf => .here ⟨hf.1, hf.2.trans ?_⟩
    cases r.1 <;> cases sense' <;> rfl
  | .compare c x y, op, sense, hcond, hop => hin.compare hi hcond hop
  | .isMultiple x d, op, sense, hcond, hop => hin.divides hi hcond hop
  | .isInteger x, op, sense, hcond, hop => by
    have hsame : test e (.isInteger x) σ = test e (.isMultiple x .one) σ := by
      rw [test, test]
      simp only [Binary64.isIntegral_div_one]
    rw [hsame]
    exact hin.divides hi hcond hop
  | .isToken kind, op, sense, hcond, hop => by
    cases hcond
    refine (hin.compareWords hop rfl rfl).mono fun m' h' => ?_
    rw [show m.register .tokenKind = Int64.ofNat σ.position.current.kind.code by
      rw [register, hin.current], word_kind] at h'
    exact Flagged.of_in h'
  | .bitTest bv n, op, sense, hcond, hop => by
    obtain ⟨hbv, rfl, rfl⟩ := bitvec_eq_ok (fun o => ⟨.bitTest, o, .int (Int64.ofNat n)⟩) hcond
    rw [test]
    by_cases hn : n < 64
    · have hbit : Running.bit n = .result (bitWord n) := if_pos hn
      rw [hbit, Run.result_bind]
      refine (hin.setFlag hop rfl ?_).mono fun m' h' => Flagged.of_in h'
      show ((Except.ok (Int64.ofNat n) >>= bitIndex) >>= fun bit =>
        m.word (Scope.slotAt (h.scope.firstBitvec + bv)) >>= fun word =>
          pure ((word &&& bitWord bit) != 0)) = _
      rw [show (Except.ok (Int64.ofNat n) >>= bitIndex) = .ok n from bitIndex_ofNat hn, hin.bitvec_word hi hbv]
      rfl
    · rw [Running.bit, if_neg hn]
      exact .here Came.wrong
  | .bitsAll bv, op, sense, hcond, hop => by
    obtain ⟨hbv, rfl, rfl⟩ := bitvec_eq_ok (fun o => ⟨.compareWords .eq, o, .int (Scope.fullMask
      ((h.scope.decls.bitvecs[bv]?.map fun decl : BitvecDecl => decl.size).getD 0))⟩) hcond
    rw [test, hsize, List.getElem?_eq_getElem hbv]
    rw [List.getElem?_eq_getElem hbv] at hop
    exact (hin.compareWords hop (hin.bitvec_word hi hbv) rfl).mono fun m' h' => Flagged.of_in h'
  | .bitsAny bv, op, sense, hcond, hop => by
    obtain ⟨hbv, rfl, rfl⟩ := bitvec_eq_ok (fun o => ⟨.compareWords .ne, o, .int 0⟩) hcond
    exact (hin.compareWords hop (hin.bitvec_word hi hbv) rfl).mono fun m' h' => Flagged.of_in h'
  | .unique u, op, sense, hcond, hop => by
    rw [Scope.condition] at hcond
    obtain ⟨o, floats, ho, hcond⟩ := bind_eq_ok hcond
    obtain ⟨hu, rfl, -⟩ := ite_eq_ok ho
    cases hcond
    exact hin.unique hi hu hop
  | .bool b, op, sense, hcond, hop => by
    cases hcond
    refine (hin.compareWords hop rfl rfl).mono fun m' h' => ?_
    rw [show Comparison.word .ne (if b then 1 else 0) 0 = b by cases b <;> rfl] at h'
    exact Flagged.of_in h'
  | .temp t, op, sense, hcond, hop => by
    rw [Scope.condition] at hcond
    obtain ⟨o, ho, hcond⟩ := (h.scope.emits_temp t).stable.bind_eq_ok (fun _ => .pure _) hcond
    cases hcond
    obtain ⟨w, hw, -, hn⟩ := hin.intOperand (x := .temp t) (e := e) hi ho
    exact hin.truth hw hn hop
  | .tokenComplete, op, sense, hcond, hop => by
    cases hcond
    exact hin.truth (x := .tokenComplete) rfl (.inl rfl) hop
  | .num _, _, _, hcond, _ | .int _, _, _, hcond, _ | .size _, _, _, hcond, _
  | .tokenKind, _, _, hcond, _ | .tokenNumber, _, _, hcond, _ | .tokenLength, _, _, hcond, _
  | .count _, _, _, hcond, _ | .bitCount _, _, _, hcond, _ | .and .., _, _, hcond, _
  | .or .., _, _, hcond, _ | .split _, _, _, hcond, _ | .matchCase _, _, _, hcond, _
  | .seq .., _, _, hcond, _ => by cases hcond

/-! ## Branches -/

/-- Where a statement of a block sends the machine. -/
def Sent (G : Ground) (h : Home) (k : List Stmt) : Move → Machine → Prop
  | .next σ, m => At G h m σ k
  | .jump b σ, m => At G h m σ (h.code b)

theorem At.branch {j : Nat} (hat : At G h m σ (.branch j :: k)) (hi : h.Installed G.exe) :
    Gets G.exe deep m fun m' => At G h m' σ (h.code j) := by
  obtain ⟨a, hin, hstands⟩ := hat
  obtain ⟨next, ops, hops, hloads, -, -⟩ := hstands.cons
  cases hops
  exact hin.branch hi hloads

theorem At.branchIf [Regex.Engine] {c : Expr} {yes no : Nat}
    (hat : At G h m σ (.branchIf c yes no :: k)) (hi : h.Installed G.exe)
    (hsize : ∀ bv, e.size bv = (h.scope.decls.bitvecs[bv]?).map (·.size)) :
    Gets G.exe deep m (Came G (Sent G h k) (Running.step e call (.branchIf c yes no) σ)) := by
  obtain ⟨a, hin, hstands⟩ := hat
  obtain ⟨next, ops, hops, hloads, -, hnext⟩ := hstands.cons
  rw [Scope.stmt] at hops
  obtain ⟨⟨op, sense⟩, hcond, hops⟩ := (h.scope.emits_condition c).stable.bind_eq_ok (fun _ => .pure _) hops
  cases hops
  obtain ⟨hop, -, hbranches⟩ := hloads.head
  refine (hin.flag hi hsize hcond hop).came fun r m' _ hflagged => ?_
  obtain ⟨b, σ'⟩ := r
  obtain ⟨⟨a', hin', hpc⟩, hflag⟩ := hflagged
  rw [← hpc] at hbranches
  refine (hin'.flagBranches hi hbranches ?_).mono fun m'' h'' => ?_
  · intro b' hb'
    obtain ⟨hlt, haddress⟩ := hnext rfl b' hb'
    refine ⟨hlt, ?_⟩
    rw [hpc, ← haddress, List.length_cons]
    omega
  · rw [hflag] at h''
    cases b <;> cases sense <;> exact h''

/-- Sorting by keys keeps the first of the entries with a key. -/
theorem find?_mergeSort (list : List (UInt32 × Nat)) (p : UInt32 × Nat → Bool)
    (hp : ∀ a b, p a = true → p b = true → a.1 = b.1) :
    (list.mergeSort fun a b => a.1 ≤ b.1).find? p = list.find? p := by
  have hsub : (list.filter p).Sublist (list.mergeSort fun a b => a.1 ≤ b.1) := by
    apply List.sublist_mergeSort
    · intro a b c hab hbc
      simp only [decide_eq_true_eq] at hab hbc ⊢
      exact UInt32.le_trans hab hbc
    · intro a b
      simp only [Bool.or_eq_true, decide_eq_true_eq]
      exact UInt32.le_total a.1 b.1
    · rw [List.pairwise_filter]
      refine List.pairwise_of_forall fun a b ha hb => ?_
      rw [decide_eq_true_eq, hp a b ha hb]
      exact UInt32.le_refl _
    · exact List.filter_sublist
  have hfiltered : list.filter p = (list.mergeSort fun a b => a.1 ≤ b.1).filter p := by
    have hself : (list.filter p).filter p = list.filter p := by simp
    have hsub' := hsub.filter p
    rw [hself] at hsub'
    exact hsub'.eq_of_length ((List.mergeSort_perm list _).filter _).length_eq.symm
  rw [← List.head?_filter, ← List.head?_filter, hfiltered]

theorem In.caseBranches (hi : h.Installed G.exe) {last : List Op}
    (hlt : i < Nat.pow 2 32) {P : Machine → Prop} (list : List (UInt32 × Nat)) :
    ∀ {m : Machine} {a : Activation}, In G h m σ a → a.slots[i]? = some w →
      h.Loads G.exe (list.flatMap (fun (k, block) =>
        [⟨.compareWords .eq, Scope.slotAt i, .int (Int64.ofNat k.toNat)⟩,
          ⟨.branchIfSet, Scope.label block, .none⟩]) ++ last) a.pc →
      (∀ b m', (list.find? fun c => caseWord c.1 = w).map (·.2) = some b → At G h m' σ (h.code b) → P m') →
      ((list.find? fun c => caseWord c.1 = w) = none → ∀ m' a', In G h m' σ a' →
        h.Loads G.exe last a'.pc → Gets G.exe deep m' P) →
      Gets G.exe deep m P := by
  induction list with
  | nil =>
    intro m a hin _ hloads _ hnone
    exact hnone rfl m a hin hloads
  | cons entry list ih =>
    intro m a hin hw hloads hsome hnone
    obtain ⟨k, block⟩ := entry
    rw [List.flatMap_cons, List.append_assoc] at hloads
    obtain ⟨hop, -, hloads⟩ := Home.Loads.head hloads
    refine (hin.compareWords hop (hin.slot_eq hlt hw) rfl).bind fun m1 ⟨hin1, hflag⟩ => ?_
    have hkey : Comparison.word .eq w (Int64.ofNat k.toNat) = decide (caseWord k = w) := by
      show (w == Int64.ofNat k.toNat) = _
      rw [Bool.eq_iff_iff, decide_eq_true_iff, beq_iff_eq, caseWord]
      exact eq_comm
    rw [hkey] at hflag
    refine (hin1.branchIfSet hi hloads).bind fun m2 h2 => ?_
    rw [hflag] at h2
    by_cases hk : caseWord k = w
    · rw [if_pos (decide_eq_true hk)] at h2
      exact .here (hsome block m2 (by rw [List.find?_cons_of_pos (by simpa using hk)]; rfl) h2)
    · rw [if_neg (by simpa using hk)] at h2
      rw [List.find?_cons_of_neg (by simpa using hk)] at hsome hnone
      exact ih h2 hw hloads.head.2.2 hsome hnone

theorem In.returns (hin : In G h m σ a) {code : Int64}
    (hop : G.exe.ops[a.pc]? = some ((Scope.returnOp code).placed h.start h.proc)) :
    Reads G.broken G.whole G.splits m σ.position ∧ ∃ a, Unwinds G.exe code (a :: G.below) m := by
  obtain ⟨hnext, hmachine⟩ := move_op hin.started hin.free hin.frames_eq hop
  have hexecute : m.execute G.exe a.pc (Op.placed h.start h.proc (Scope.returnOp code)) =
      unwind G.exe a.pc code m m.frames := rfl
  rw [hexecute, hin.frames_eq] at hnext hmachine
  exact ⟨hin.toReads, a, a.pc, hnext, hmachine⟩

theorem At.returns {code : Int64} (hat : At G h m σ (st :: k))
    (hst : ∀ next, h.scope.stmt next st = pure [Scope.returnOp code]) :
    Reads G.broken G.whole G.splits m σ.position ∧ ∃ a, Unwinds G.exe code (a :: G.below) m := by
  obtain ⟨a, hin, hop, -⟩ := hat.one (Scope.returnOp code) fun next ops hok => by
    rw [hst] at hok
    cases hok
    rfl
  exact hin.returns hop

theorem At.branchCase [Regex.Engine] {t : Nat} {cases : List (UInt32 × Nat)} {otherwise : Option Nat}
    (hat : At G h m σ (.branchCase t cases otherwise :: k)) (hi : h.Installed G.exe) : Gets G.exe deep m
      (Came G (Sent G h k) (Running.step e call (.branchCase t cases otherwise) σ)) := by
  obtain ⟨a, hin, hstands⟩ := hat
  obtain ⟨next, ops, hops, hloads, -, -⟩ := hstands.cons
  obtain ⟨o, floats, ho, hops⟩ := bind_eq_ok hops
  obtain ⟨colour, hcolour, rfl⟩ := temp_eq_ok ho
  cases hops
  have hlt := Scope.temp_lt hcolour
  have hslots := hi.slots_lt
  rw [Running.step]
  cases htemp : σ.temps t with
  | none => exact .here Came.wrong
  | some w =>
    have hkeys : ∀ a b : UInt32 × Nat, decide (caseWord a.1 = w) = true →
        decide (caseWord b.1 = w) = true → a.1 = b.1 := by
      intro a b ha hb
      rw [decide_eq_true_iff] at ha hb
      exact caseWord_inj.1 (ha.trans hb.symm)
    have hsort := find?_mergeSort cases (fun c => caseWord c.1 = w) hkeys
    refine In.caseBranches hi (by omega) _ hin (hin.holds.temp t colour w hcolour htemp) hloads ?_ ?_
    · intro b m' hfound hat
      rw [hsort] at hfound
      have htarget : target w cases otherwise = some b := by rw [target, hfound]; rfl
      show Came G (Sent G h k) (Run.ofOption _ (target w cases otherwise) >>= _) m'
      rw [htarget]
      exact hat
    · intro hnone m' a' hin' hloads'
      rw [hsort] at hnone
      have htarget : target w cases otherwise = otherwise := by rw [target, hnone]; rfl
      show Gets G.exe deep m' (Came G (Sent G h k) (Run.ofOption _ (target w cases otherwise) >>= _))
      rw [htarget]
      cases otherwise with
      | some b => exact hin'.branch hi hloads'
      | none => exact .here (hin'.returns hloads'.head.1)

end

end Machine

end JsonSieve
