import JsonSieve.Proofs.Assembly.Flags
import JsonSieve.Proofs.Machine.Nested
import JsonSieve.Proofs.Machine.Positions
import JsonSieve.Proofs.Machine.Strict

/-!
# Splits look ahead

The branches of a split run on top of the activations that were there. What they do there is what each
procedure does alone (`Absolute.step_lifts`), as long as no activation looks at a flag that another one has
left behind (`Absolute.Alike`). So from inside of a branch a split comes to its end with the votes of the
procedures that return 0 when they are called alone (`Absolute.Inside.completes`).
-/

namespace JsonSieve

namespace Machine

variable {exe : Executable} {op : Op} {top : Activation} {current : Token} {lastCase : Int64}

theorem word_flag (flag flag' : Bool) (o : Operand) :
    (solo top current lastCase flag).word o = (solo top current lastCase flag').word o := by
  cases o with
  | register r => cases r <;> rfl
  | _ => rfl

theorem real_flag (flag flag' : Bool) (o : Operand) :
    (solo top current lastCase flag).real exe o = (solo top current lastCase flag').real exe o := by
  cases o with
  | register r => cases r <;> rfl
  | _ => rfl

/-- An effect that keeps the flag as it was, unless the instruction sets it. -/
def Effect.keeping (sets flag : Bool) : Effect → Effect
  | .stays top lastCase set => .stays top lastCase (if sets then set else flag)
  | .fails d => .fails d

theorem keeping_require {α : Type} {sets flag : Bool} {pc : Nat} {alone alone' : Machine}
    (result : Except Defect α) {k k' : α → Stepped}
    (h : ∀ x, Effect.ofStepped (k' x) = (Effect.ofStepped (k x)).keeping sets flag) :
    Effect.ofStepped (.require alone' pc result k') =
      (Effect.ofStepped (.require alone pc result k)).keeping sets flag := by
  cases result with
  | ok x => exact h x
  | error d => rfl

theorem effect_flag (hlocal : op.code.isLocal = true) (hasks : op.code.asksFlag = false) (pc : Nat)
    (flag flag' : Bool) : effect exe pc op top current lastCase flag' =
      (effect exe pc op top current lastCase flag).keeping op.code.setsFlag flag' := by
  unfold effect execute
  rw [word_flag flag' flag op.a, word_flag flag' flag op.b, real_flag flag' flag op.a, real_flag flag' flag op.b]
  cases hcode : op.code with
  | nop | finish => rfl
  | compareWords | compareReals | divides | bitTest => exact keeping_require _ fun _ => rfl
  | branch => cases op.a <;> rfl
  | matchCase =>
    cases op.a with
    | matcher i =>
      dsimp only
      cases exe.recognizers[i.toNat]? with
      | none => rfl
      | some r => cases current <;> rfl
    | _ => rfl
  | move | bitSet | bitClear | bitCount =>
    exact keeping_require _ fun _ => keeping_require _ fun _ => keeping_require _ fun _ => rfl
  | incr | decr => exact keeping_require _ fun _ => keeping_require _ fun _ => rfl
  | branchIfSet | branchIfClear =>
    rw [hcode] at hasks
    cases hasks
  | call | ret | split | splitBits | token | consume | untoken | unique =>
    rw [hcode] at hlocal
    cases hlocal

end Machine

namespace Absolute

open Machine (Nested)

/-! ## On top of other activations -/

def raise (k : Nat) (s : Split) : Split := { s with depth := s.depth + k }

/-- The state on top of other activations, inside of other splits. -/
def under (below : List Activation) (outer : List Split) (a : Absolute) : Absolute :=
  { a with frames := a.frames ++ below, splits := a.splits.map (raise below.length) ++ outer }

/-- What an outcome becomes on top of other activations. Where the last activation would have returned, a
branch of the innermost of the other splits ends. -/
def Outcome.under (exe : Executable) (below : List Activation) (outer : List Split) (flag : Bool) :
    Outcome → Outcome
  | .run a => .run (a.under below outer)
  | .returns pc code => finishBranch exe pc code { frames := below, splits := outer, flag }
  | .badText => .badText
  | .fails pc d => .fails pc d

/-- There is an activation, and every split has one below it and one of its branches above. -/
structure Grounded (a : Absolute) : Prop where
  frames_ne : a.frames ≠ []
  nested : Nested a.frames.length a.splits

def Outcome.Grounded : Outcome → Prop
  | .run a => a.Grounded
  | _ => True

section

variable {exe : Executable} {a : Absolute} {below : List Activation} {outer : List Split}

/-- On top of other activations an outcome becomes what `under` says, and it is grounded. -/
def Lifts (exe : Executable) (below : List Activation) (outer : List Split) (flag : Bool)
    (alone raised : Outcome) : Prop :=
  raised = alone.under exe below outer flag ∧ alone.Grounded

theorem enter_lifts (h : Nested (a.frames.length + 1) a.splits) (flag : Bool) (pc : Nat) (proc : UInt32) :
    Lifts exe below outer flag (a.enter exe pc proc) ((a.under below outer).enter exe pc proc) := by
  unfold enter
  split
  · exact ⟨rfl, trivial⟩
  · exact ⟨rfl, List.cons_ne_nil _ _, h⟩

theorem store_lifts (hne : a.frames ≠ []) (h : Nested a.frames.length a.splits) (flag : Bool) (pc : Nat)
    (target : UInt32) (word : Int64) :
    Lifts exe below outer flag (a.store pc target word) ((a.under below outer).store pc target word) := by
  obtain ⟨top, frames, hframes⟩ := List.exists_cons_of_ne_nil hne
  rw [hframes] at h
  unfold store under
  dsimp only
  rw [hframes, List.cons_append]
  dsimp only
  split
  · exact ⟨rfl, List.cons_ne_nil _ _, h⟩
  · exact ⟨rfl, trivial⟩

def back (s : Split) (splits : List Split) (a : Absolute) : Absolute :=
  { a with splits, position := s.cursor, current := s.token, lastCase := s.lastCase }

variable {s : Split} {inner : List Split} {frames : List Activation}

theorem finishBranch_eq (hsplits : a.splits = s :: inner) (pc : Nat) (code : Int64) : a.finishBranch exe pc code =
      match (exe.splits[s.split.toNat]?).bind (·[s.branch + 1]?) with
      | some proc => (a.back s (Machine.Split.returned s code :: inner)).enter exe pc proc
      | none => (a.back s inner).store pc s.target (Machine.Split.returned s code).result := by
  unfold finishBranch
  rw [hsplits]
  rfl

theorem returned_raise (k : Nat) (s : Split) (code : Int64) :
    Machine.Split.returned (raise k s) code = raise k (Machine.Split.returned s code) := rfl

theorem finishBranch_lifts (hsplits : a.splits = s :: inner) (hne : a.frames ≠ [])
    (hdepth : s.depth = a.frames.length) (h : Nested (a.frames.length + 1) a.splits) (flag : Bool) (pc : Nat)
    (code : Int64) : Lifts exe below outer flag (a.finishBranch exe pc code)
      ((a.under below outer).finishBranch exe pc code) := by
  have hunder : (a.under below outer).splits = raise below.length s :: (inner.map (raise below.length) ++ outer) := by
    rw [under, hsplits]
    rfl
  rw [finishBranch_eq hunder, finishBranch_eq hsplits, returned_raise]
  rw [hsplits] at h
  show Lifts exe below outer flag _
    (match (exe.splits[s.split.toNat]?).bind (·[s.branch + 1]?) with | some proc => _ | none => _)
  cases (exe.splits[s.split.toNat]?).bind (·[s.branch + 1]?) with
  | some proc => exact @enter_lifts exe (a.back s (Machine.Split.returned s code :: inner)) below outer h flag pc proc
  | none => exact @store_lifts exe (a.back s inner) below outer hne (hdepth ▸ h.2.2) flag pc _ _

theorem unwind_cons (pc : Nat) (code : Int64) (x : Activation) (rest : List Activation) :
    unwind exe pc code a (x :: rest) =
      if a.splits.head?.any (·.depth = rest.length) then finishBranch exe pc code { a with frames := rest }
      else if rest = [] then .returns pc code
      else if code = 0 then .run { a with frames := rest }
      else unwind exe pc code { a with frames := rest } rest := by
  rw [unwind.eq_def]
  dsimp only
  cases rest with
  | nil => rfl
  | cons y rest => rw [if_neg (List.cons_ne_nil y rest)]

theorem nested_of_skipped {frames : Nat} {splits : List Split} (h : Nested (frames + 1) splits)
    (hhead : splits.head?.any (·.depth = frames) = false) : Nested frames splits := by
  cases splits with
  | nil => trivial
  | cons s inner =>
    have hne : s.depth ≠ frames := by simpa using hhead
    have := h.2.1
    exact ⟨h.1, by omega, h.2.2⟩

variable {outer' : List Split}

theorem unwind_lifts (houter : outer = s :: outer') (hdepth : s.depth = below.length) (pc : Nat) (code : Int64)
    (hne : frames ≠ []) (h : Nested frames.length a.splits) :
    Lifts exe below outer a.flag (unwind exe pc code a frames)
      (unwind exe pc code (a.under below outer) (frames ++ below)) := by
  induction frames generalizing a with
  | nil => exact absurd rfl hne
  | cons x rest ih =>
    rw [List.cons_append, unwind_cons, unwind_cons]
    cases hrest : rest with
    | nil =>
      -- A split would have an activation below it.
      have hsplits : a.splits = [] := by
        cases hsplits : a.splits with
        | nil => rfl
        | cons s' inner =>
          rw [hsplits, hrest] at h
          have := h.1
          have : s'.depth < 1 := h.2.1
          omega
      have hhere : (a.under below outer).splits.head?.any (·.depth = ([] ++ below).length) = true := by
        rw [under, hsplits, houter]
        simp [hdepth]
      rw [if_pos hhere, hsplits]
      refine ⟨?_, trivial⟩
      show finishBranch exe pc code { a with frames := below, splits := _ ++ outer } = finishBranch exe pc code _
      rw [hsplits, houter]
      rw [finishBranch_eq rfl, finishBranch_eq rfl]
      rfl
    | cons y rest' =>
      rw [← hrest]
      have hrest_ne : rest ≠ [] := by
        rw [hrest]
        exact List.cons_ne_nil _ _
      have hhead : (a.under below outer).splits.head?.any (·.depth = (rest ++ below).length) =
          a.splits.head?.any (·.depth = rest.length) := by
        have hpos := List.length_pos_of_ne_nil hrest_ne
        rw [under, houter, List.length_append]
        cases a.splits with
        | nil =>
          show decide (s.depth = rest.length + below.length) = false
          rw [hdepth, decide_eq_false_iff_not]
          omega
        | cons s' inner =>
          show decide (s'.depth + below.length = rest.length + below.length) = decide (s'.depth = rest.length)
          exact decide_eq_decide.2 Nat.add_right_cancel_iff
      rw [hhead, if_neg hrest_ne, if_neg (List.append_ne_nil_of_left_ne_nil hrest_ne _)]
      by_cases hany : a.splits.head?.any (·.depth = rest.length) = true
      · rw [if_pos hany, if_pos hany]
        obtain ⟨s', inner, hsplits⟩ : ∃ s' inner, a.splits = s' :: inner :=
          List.exists_cons_of_ne_nil fun hnil => by
            rw [hnil] at hany
            cases hany
        have hhere : s'.depth = rest.length := by simpa [hsplits] using hany
        exact @finishBranch_lifts exe { a with frames := rest } below outer s' inner hsplits hrest_ne hhere h
          a.flag pc code
      · have hnested := nested_of_skipped h (Bool.eq_false_iff.2 hany)
        rw [if_neg hany, if_neg hany]
        split
        · exact ⟨rfl, hrest_ne, hnested⟩
        · exact @ih { a with frames := rest } hrest_ne hnested

theorem startSplit_lifts {top : Activation} (h : Nested (frames.length + 1) a.splits) (flag : Bool) (pc : Nat)
    (bits : Bool) (split target : UInt32) :
    Lifts exe below outer flag (a.startSplit exe pc bits split target top frames)
      ((a.under below outer).startSplit exe pc bits split target top (frames ++ below)) := by
  unfold startSplit
  split
  · exact ⟨rfl, trivial⟩
  · dsimp only
    split
    · exact ⟨rfl, trivial⟩
    · cases ((exe.splits[split.toNat]?).getD #[])[0]? with
      | none =>
        exact @store_lifts exe { a with frames := { top with pc := top.pc + 1 } :: frames } below outer
          (List.cons_ne_nil _ _) h flag pc target 0
      | some proc =>
        have hdepth : (frames ++ below).length + 1 = frames.length + 1 + below.length := by
          rw [List.length_append]
          omega
        rw [hdepth]
        exact @enter_lifts exe { a with
          frames := { top with pc := top.pc + 1 } :: frames
          splits := {
            split, bits, target, depth := frames.length + 1, cursor := a.position, token := a.current
            lastCase := a.lastCase } :: a.splits } below outer ⟨Nat.succ_pos _, Nat.lt_succ_self _, h⟩ flag pc proc

variable {stream : Stream} {op : Op} {top : Activation} {frames : List Activation}

theorem execute_lifts (houter : outer = s :: outer')
    (hdepth : s.depth = below.length) (h : Nested (top :: frames).length a.splits) :
    Lifts exe below outer a.flag (a.execute exe stream op top frames)
      ((a.under below outer).execute exe stream op top (frames ++ below)) := by
  cases hlocal : op.code.isLocal with
  | true =>
    rw [execute_local exe stream hlocal, execute_local exe stream hlocal]
    dsimp only [under]
    cases Machine.effect exe top.pc op top a.current a.lastCase a.flag with
    | stays => exact ⟨rfl, List.cons_ne_nil _ _, h⟩
    | fails => exact ⟨rfl, trivial⟩
  | false =>
    unfold execute
    dsimp only
    cases hcode : op.code with
    | call =>
      cases op.a with
      | proc p =>
        exact @enter_lifts exe { a with
          frames := { top with pc := top.pc + 1 } :: frames } below outer
          (h.mono (Nat.le_succ _)) a.flag top.pc p
      | _ => exact ⟨rfl, trivial⟩
    | ret =>
      dsimp only [under]
      cases (Machine.solo top a.current a.lastCase a.flag).word op.a with
      | ok code => exact unwind_lifts houter hdepth top.pc code (List.cons_ne_nil _ _) h
      | error d => exact ⟨rfl, trivial⟩
    | split | splitBits =>
      dsimp only
      split
      · exact startSplit_lifts h a.flag top.pc _ _ _
      · exact ⟨rfl, trivial⟩
    | token =>
      dsimp only [under]
      split
      · exact ⟨rfl, List.cons_ne_nil _ _, h⟩
      · exact ⟨rfl, trivial⟩
    | untoken =>
      show Lifts _ _ _ _ (if a.position = 0 then _ else _) (if a.position = 0 then _ else _)
      split
      · exact ⟨rfl, trivial⟩
      · exact ⟨rfl, List.cons_ne_nil _ _, h⟩
    | consume =>
      show Lifts _ _ _ _ (if a.current.kind.opens then _ else _) (if a.current.kind.opens then _ else _)
      dsimp only [under]
      split
      · split
        · exact ⟨rfl, List.cons_ne_nil _ _, h⟩
        · exact ⟨rfl, trivial⟩
      · exact ⟨rfl, List.cons_ne_nil _ _, h⟩
    | unique =>
      dsimp only [under]
      split
      · split
        · exact ⟨rfl, trivial⟩
        · split
          · exact ⟨rfl, List.cons_ne_nil _ _, h⟩
          · exact ⟨rfl, trivial⟩
      · exact ⟨rfl, trivial⟩
    | _ =>
      rw [hcode] at hlocal
      cases hlocal

theorem step_lifts (houter : outer = s :: outer') (hdepth : s.depth = below.length) (h : a.Grounded) :
    Lifts exe below outer a.flag (a.step exe stream) ((a.under below outer).step exe stream) := by
  obtain ⟨top, frames, hframes⟩ := List.exists_cons_of_ne_nil h.frames_ne
  have hnested := h.nested
  rw [hframes] at hnested
  unfold step
  rw [show (a.under below outer).frames = top :: (frames ++ below) by rw [under, hframes]; rfl, hframes]
  dsimp only
  cases exe.ops[top.pc]? with
  | none => exact ⟨rfl, trivial⟩
  | some op => exact execute_lifts houter hdepth hnested

/-! ## The flag -/

/-- Nothing looks at the flag where the activations go on. -/
def Quiets (exe : Executable) (frames : List Activation) : Prop := ∀ x ∈ frames, exe.Quiet x.pc

/-- The states differ in the flag at most, and only if nothing looks at it before it is set. -/
structure Alike (exe : Executable) (a b : Absolute) : Prop where
  eq : b = { a with flag := b.flag }
  flag : b.flag = a.flag ∨ Quiets exe a.frames
  below : Quiets exe a.frames.tail

def Outcome.Alike (exe : Executable) (o : Outcome) : Outcome → Prop
  | .run b => ∃ a, o = .run a ∧ a.Alike exe b
  | o' => o = o'

theorem Outcome.Alike.of_quiets (h : Quiets exe a.frames) (flag : Bool) :
    Outcome.Alike exe (.run a) (.run { a with flag }) :=
  ⟨a, rfl, rfl, .inr h, fun x hx => h x (List.mem_of_mem_tail hx)⟩

variable (hexe : exe.Led)

include hexe in
theorem enter_alike (h : Quiets exe a.frames) (flag : Bool) (pc : Nat) (proc : UInt32) :
    Outcome.Alike exe (a.enter exe pc proc) (({ a with flag } : Absolute).enter exe pc proc) := by
  unfold enter
  cases hp : exe.procs[proc.toNat]? with
  | none => rfl
  | some p =>
    refine @Outcome.Alike.of_quiets exe { a with frames := _ :: a.frames } (fun x hx => ?_) flag
    rcases List.mem_cons.1 hx with rfl | hx
    · exact hexe.entry hp
    · exact h x hx

theorem store_alike (h : Quiets exe a.frames) (flag : Bool) (pc : Nat) (target : UInt32) (word : Int64) :
    Outcome.Alike exe (a.store pc target word) (({ a with flag } : Absolute).store pc target word) := by
  unfold store
  dsimp only
  cases hframes : a.frames with
  | nil => rfl
  | cons top below =>
    dsimp only
    split
    · refine @Outcome.Alike.of_quiets exe { a with frames := _ :: below } (fun x hx => ?_) flag
      rw [hframes] at h
      rcases List.mem_cons.1 hx with rfl | hx
      · exact h top (.head _)
      · exact h x (.tail _ hx)
    · rfl

include hexe in
theorem finishBranch_alike (h : Quiets exe a.frames) (flag : Bool) (pc : Nat) (code : Int64) :
    Outcome.Alike exe (a.finishBranch exe pc code) (({ a with flag } : Absolute).finishBranch exe pc code) := by
  rcases hsplits : a.splits with _ | ⟨s, inner⟩
  · unfold finishBranch
    rw [hsplits]
    rfl
  · rw [← hsplits, finishBranch_eq hsplits, @finishBranch_eq exe { a with flag } s inner hsplits]
    cases (exe.splits[s.split.toNat]?).bind (·[s.branch + 1]?) with
    | some proc =>
      exact @enter_alike exe (a.back s (Machine.Split.returned s code :: inner)) hexe h flag pc proc
    | none => exact @store_alike exe (a.back s inner) h flag pc _ _

include hexe in
theorem unwind_alike (flag : Bool) (pc : Nat) (code : Int64) (h : Quiets exe frames.tail) :
    Outcome.Alike exe (unwind exe pc code a frames) (unwind exe pc code { a with flag } frames) := by
  induction frames generalizing a with
  | nil => rfl
  | cons x rest ih =>
    rw [unwind_cons, unwind_cons]
    split
    · exact @finishBranch_alike exe { a with frames := rest } hexe h flag pc code
    · split
      · rfl
      · split
        · exact @Outcome.Alike.of_quiets exe { a with frames := rest } h flag
        · exact @ih { a with frames := rest } fun y hy => h y (List.mem_of_mem_tail hy)

include hexe in
theorem startSplit_alike (hquiets : Quiets exe ({ top with pc := top.pc + 1 } :: frames)) (flag : Bool)
    (pc : Nat) (bits : Bool) (split target : UInt32) :
    Outcome.Alike exe (a.startSplit exe pc bits split target top frames)
      (({ a with flag } : Absolute).startSplit exe pc bits split target top frames) := by
  unfold startSplit
  split
  · rfl
  · dsimp only
    split
    · rfl
    · cases ((exe.splits[split.toNat]?).getD #[])[0]? with
      | none =>
        exact @store_alike exe { a with frames := { top with pc := top.pc + 1 } :: frames } hquiets flag pc target 0
      | some proc =>
        exact @enter_alike exe { a with
          frames := { top with pc := top.pc + 1 } :: frames
          splits := {
            split, bits, target, depth := frames.length + 1, cursor := a.position, token := a.current
            lastCase := a.lastCase } :: a.splits } hexe hquiets flag pc proc

include hexe in
/-- The activations go on quietly behind an instruction that does not set the flag. -/
theorem quiets_next (hop : exe.ops[top.pc]? = some op) (hsets : op.code.setsFlag = false)
    (hbelow : Quiets exe frames) {top' : Activation} (hpc : top'.pc = top.pc + 1) :
    Quiets exe (top' :: frames) := by
  intro x hx
  rcases List.mem_cons.1 hx with rfl | hx
  · rw [hpc]
    exact hexe.next hop hsets
  · exact hbelow x hx

include hexe in
theorem execute_alike {flag : Bool} (hop : exe.ops[top.pc]? = some op) (hbelow : Quiets exe frames)
    (hflag : flag = a.flag ∨ exe.Quiet top.pc) : Outcome.Alike exe (a.execute exe stream op top frames)
      (({ a with flag } : Absolute).execute exe stream op top frames) := by
  cases hasks : op.code.asksFlag with
  | true =>
    have hsame : flag = a.flag := by
      refine hflag.resolve_right fun hquiet => ?_
      rw [hquiet op hop] at hasks
      cases hasks
    subst hsame
    have hlocal : op.code.isLocal = true := by
      cases hcode : op.code with
      | branchIfSet | branchIfClear => rfl
      | _ =>
        rw [hcode] at hasks
        cases hasks
    rw [execute_local exe stream hlocal]
    cases Machine.effect exe top.pc op top a.current a.lastCase a.flag with
    | stays top' lastCase flag => exact ⟨_, rfl, rfl, .inl rfl, hbelow⟩
    | fails d => rfl
  | false =>
    cases hlocal : op.code.isLocal with
    | true =>
      rw [execute_local exe stream hlocal, execute_local exe stream hlocal]
      dsimp only
      have hlawful := Machine.effect_lawful exe top.pc hlocal top a.current a.lastCase a.flag
      rw [Machine.effect_flag hlocal hasks top.pc a.flag flag]
      cases heffect : Machine.effect exe top.pc op top a.current a.lastCase a.flag with
      | fails d => rfl
      | stays top' lastCase set =>
        rw [heffect] at hlawful
        refine ⟨_, rfl, rfl, ?_, hbelow⟩
        cases hsets : op.code.setsFlag with
        | true => exact .inl rfl
        | false =>
          refine .inr ?_
          rcases hlawful.pc_eq with ⟨-, hpc⟩ | ⟨target, htarget, hpc⟩
          · exact quiets_next hexe hop hsets hbelow hpc
          · intro x hx
            rcases List.mem_cons.1 hx with rfl | hx
            · rw [hpc]
              exact hexe.target hop htarget
            · exact hbelow x hx
    | false =>
      have hquiets : op.code.setsFlag = false → Quiets exe ({ top with pc := top.pc + 1 } :: frames) :=
        fun hsets => quiets_next hexe hop hsets hbelow rfl
      unfold execute
      dsimp only
      cases hcode : op.code with
      | call =>
        rw [hcode] at hquiets
        cases op.a with
        | proc p =>
          exact @enter_alike exe { a with frames := { top with pc := top.pc + 1 } :: frames } hexe (hquiets rfl)
            flag top.pc p
        | _ => rfl
      | ret =>
        dsimp only
        rw [Machine.word_flag flag a.flag]
        cases (Machine.solo top a.current a.lastCase a.flag).word op.a with
        | ok code => exact unwind_alike hexe flag top.pc code hbelow
        | error d => rfl
      | split | splitBits =>
        rw [hcode] at hquiets
        dsimp only
        split
        · exact startSplit_alike hexe (hquiets rfl) flag top.pc _ _ _
        · rfl
      | token =>
        rw [hcode] at hquiets
        dsimp only
        split
        · exact ⟨_, rfl, rfl, .inr (hquiets rfl), hbelow⟩
        · rfl
      | untoken =>
        rw [hcode] at hquiets
        dsimp only
        split
        · rfl
        · exact ⟨_, rfl, rfl, .inr (hquiets rfl), hbelow⟩
      | consume =>
        rw [hcode] at hquiets
        dsimp only
        split
        · split
          · exact ⟨_, rfl, rfl, .inr (hquiets rfl), hbelow⟩
          · rfl
        · exact ⟨_, rfl, rfl, .inr (hquiets rfl), hbelow⟩
      | unique =>
        dsimp only
        split
        · split
          · rfl
          · split
            · exact ⟨_, rfl, rfl, .inl rfl, hbelow⟩
            · rfl
        · rfl
      | _ =>
        rw [hcode] at hlocal
        cases hlocal

include hexe in
theorem Alike.step {b : Absolute} (h : a.Alike exe b) : Outcome.Alike exe (a.step exe stream) (b.step exe stream) := by
  obtain ⟨heq, hflag, hbelow⟩ := h
  rw [heq]
  unfold Absolute.step
  dsimp only
  cases hframes : a.frames with
  | nil => rfl
  | cons top frames =>
    dsimp only
    rw [hframes] at hflag hbelow
    cases hop : exe.ops[top.pc]? with
    | none => rfl
    | some op =>
      rw [← hframes]
      exact execute_alike hexe hop hbelow (hflag.imp_right fun h => h top (.head _))

/-! ## Procedures alone -/

inductive Returns (exe : Executable) (stream : Stream) : Absolute → Int64 → Prop where
  | now {a : Absolute} {pc : Nat} {code : Int64} (h : a.step exe stream = .returns pc code) :
    Returns exe stream a code
  | later {a b : Absolute} {code : Int64} (h : a.step exe stream = .run b) (hb : Returns exe stream b code) :
    Returns exe stream a code

theorem Returns.unique {code code' : Int64} (h : Returns exe stream a code) (h' : Returns exe stream a code') :
    code = code' := by
  induction h with
  | now h =>
    cases h' with
    | now h' =>
      rw [h] at h'
      cases h'
      rfl
    | later h' =>
      rw [h] at h'
      cases h'
  | later h _ ih =>
    cases h' with
    | now h' =>
      rw [h] at h'
      cases h'
    | later h' hb =>
      rw [h] at h'
      cases h'
      exact ih hb

/-- A procedure that is called alone, where the state stands in the stream, returns with a code. -/
def ReturnsAlone (exe : Executable) (stream : Stream) (a : Absolute) (proc : UInt32) (code : Int64) : Prop :=
  ∃ b, enter exe 0 proc { a with frames := [], splits := [] } = .run b ∧ Returns exe stream b code

theorem ReturnsAlone.unique {proc : UInt32} {code code' : Int64} (h : ReturnsAlone exe stream a proc code)
    (h' : ReturnsAlone exe stream a proc code') : code = code' := by
  obtain ⟨b, hb, hcode⟩ := h
  obtain ⟨b', hb', hcode'⟩ := h'
  rw [hb] at hb'
  cases hb'
  exact hcode.unique hcode'

/-! ## Branches -/

/-- A state inside of a branch of a split, and the state of its procedure alone. -/
def Inside (exe : Executable) (below : List Activation) (outer : List Split) (e b : Absolute) : Prop :=
  b.Grounded ∧ ∃ c, b.Alike exe c ∧ e = c.under below outer

include hexe in
theorem inside_enter {e : Absolute} {pc : Nat} {proc : UInt32}
    (h : enter exe pc proc { a with frames := below, splits := outer } = .run e) (flag : Bool) :
    ∃ b, enter exe 0 proc { a with frames := [], splits := [], flag } = .run b ∧ Inside exe below outer e b := by
  unfold enter at h ⊢
  cases hp : exe.procs[proc.toNat]? with
  | none =>
    rw [hp] at h
    cases h
  | some p =>
    rw [hp] at h
    cases h
    refine ⟨_, rfl, ⟨nofun, trivial⟩, ⟨_, [], a.position, a.current, a.lastCase, a.flag⟩, ⟨rfl, .inr ?_, nofun⟩, rfl⟩
    intro x hx
    cases List.mem_singleton.1 hx
    exact hexe.entry hp

variable {s : Split} {e b : Absolute}

include hexe in
/-- A step inside of a branch is a step of its procedure alone. Where the procedure returns, the branch
ends. -/
theorem Inside.step (h : Inside exe below (s :: outer) e b) (hdepth : s.depth = below.length) :
    (∃ b' e', b.step exe stream = .run b' ∧ e.step exe stream = .run e' ∧ Inside exe below (s :: outer) e' b') ∨
    (∃ pc code flag, b.step exe stream = .returns pc code ∧
      e.step exe stream = finishBranch exe pc code { frames := below, splits := s :: outer, flag }) ∨
    ∀ e', e.step exe stream ≠ .run e' := by
  obtain ⟨hgrounded, c, halike, rfl⟩ := h
  have hgrounded' : c.Grounded := by
    rw [halike.eq]
    exact ⟨hgrounded.frames_ne, hgrounded.nested⟩
  have hstep : Outcome.Alike exe (b.step exe stream) (c.step exe stream) := halike.step hexe
  have hnext : (b.step exe stream).Grounded := (step_lifts (rfl : s :: outer = _) hdepth hgrounded).2
  rw [(step_lifts rfl hdepth hgrounded').1]
  cases hc : c.step exe stream with
  | run c' =>
    rw [hc] at hstep
    obtain ⟨b', hb', halike'⟩ := hstep
    rw [hb'] at hnext
    exact .inl ⟨b', _, hb', rfl, hnext, c', halike', rfl⟩
  | returns pc code =>
    rw [hc] at hstep
    exact .inr (.inl ⟨pc, code, c.flag, hstep, rfl⟩)
  | badText | fails => exact .inr (.inr nofun)

theorem Inside.splits_length (h : Inside exe below (s :: outer) e b) : outer.length < e.splits.length := by
  obtain ⟨-, c, -, rfl⟩ := h
  rw [under]
  simp only [List.length_append, List.length_cons]
  omega

/-- The state behind a split: where the split began, with a result in its slot. -/
def behindSplit (s : Split) (outer : List Split) (caller : Activation) (below : List Activation) (result : Int64)
    (flag : Bool) : Absolute where
  frames := { caller with slots := caller.slots.setIfInBounds s.target.toNat result } :: below
  splits := outer
  position := s.cursor
  current := s.token
  lastCase := s.lastCase
  flag

def ofSplit (s : Split) (flag : Bool) : Absolute where
  position := s.cursor
  current := s.token
  lastCase := s.lastCase
  flag

variable {caller : Activation} {branches : Array UInt32}

include hexe in
/-- Behind a branch the next one begins, or the result is stored. -/
theorem finishBranch_run (hbranches : exe.splits[s.split.toNat]? = some branches) {pc : Nat} {code : Int64}
    {flag : Bool}
    (h : finishBranch exe pc code { frames := caller :: below, splits := s :: outer, flag } = .run e)
    (flag' : Bool) :
    (∃ proc b, branches[s.branch + 1]? = some proc ∧ enter exe 0 proc (ofSplit s flag') = .run b ∧
      Inside exe (caller :: below) (Machine.Split.returned s code :: outer) e b) ∨
    (branches[s.branch + 1]? = none ∧
      e = behindSplit s outer caller below (Machine.Split.returned s code).result flag) := by
  rw [finishBranch_eq rfl, hbranches, Option.bind_some] at h
  cases hproc : branches[s.branch + 1]? with
  | some proc =>
    rw [hproc] at h
    obtain ⟨b, hb, hinside⟩ := @inside_enter exe (ofSplit s flag) _ _ hexe e pc proc h flag'
    exact .inl ⟨proc, b, rfl, hb, hinside⟩
  | none =>
    rw [hproc] at h
    refine .inr ⟨rfl, ?_⟩
    replace h : (if s.target.toNat < caller.slots.size then _ else _) = Outcome.run e := h
    split at h
    · cases h
      rfl
    · cases h

/-- A step that leaves more splits in progress than there were. -/
def Deepens (exe : Executable) (stream : Stream) (splits : Nat) (a b : Absolute) : Prop :=
  a.step exe stream = .run b ∧ splits < b.splits.length

def vote (code : Int64) : Bool := decide (code = 0)

theorem tally_returned (code : Int64) (votes : List Bool) :
    Machine.tally s.bits (s.branch + 1) votes (Machine.Split.returned s code).result =
      Machine.tally s.bits s.branch (vote code :: votes) s.result := by
  rw [Machine.tally, vote, Machine.Split.returned]
  by_cases hcode : code = 0
  · rw [hcode]
    rfl
  · simp [hcode]

include hexe in
/-- From inside of a branch the split ends with the votes of this branch and of all that follow. -/
theorem Inside.completes (flag : Bool) {x e' : Absolute}
    (hrun : Relation.ReflTransGen (Deepens exe stream outer.length) e x)
    (hlast : x.step exe stream = .run e') (hdone : e'.splits.length ≤ outer.length) :
    ∀ {s : Split} {b : Absolute}, Inside exe (caller :: below) (s :: outer) e b → s.depth = below.length + 1 →
      exe.splits[s.split.toNat]? = some branches →
      ∃ code codes flag', Returns exe stream b code ∧
        List.Forall₂ (ReturnsAlone exe stream (ofSplit s flag)) (branches.toList.drop (s.branch + 1)) codes ∧
        e' = behindSplit s outer caller below
          (Machine.tally s.bits s.branch ((code :: codes).map vote) s.result) flag' := by
  have hends : ∀ {e e' : Absolute} {s : Split} {b : Absolute}, e.step exe stream = .run e' →
      Inside exe (caller :: below) (s :: outer) e b → s.depth = below.length + 1 →
      exe.splits[s.split.toNat]? = some branches →
      (∃ b', b.step exe stream = .run b' ∧ Inside exe (caller :: below) (s :: outer) e' b') ∨
      (∃ code proc b', Returns exe stream b code ∧ branches[s.branch + 1]? = some proc ∧
        enter exe 0 proc (ofSplit s flag) = .run b' ∧
        Inside exe (caller :: below) (Machine.Split.returned s code :: outer) e' b') ∨
      (∃ code flag', Returns exe stream b code ∧ branches[s.branch + 1]? = none ∧
        e' = behindSplit s outer caller below (Machine.Split.returned s code).result flag') := by
    intro e e' s b hstep hinside hdepth hbranches
    rcases hinside.step hexe hdepth with ⟨b', e'', hb', he'', hinside'⟩ | ⟨pc, code, flag', hb, he⟩ | hno
    · rw [hstep] at he''
      cases he''
      exact .inl ⟨b', hb', hinside'⟩
    · rw [hstep] at he
      rcases finishBranch_run hexe hbranches he.symm flag with ⟨proc, b', hproc, hb', hinside'⟩ | ⟨hnone, heq⟩
      · exact .inr (.inl ⟨code, proc, b', .now hb, hproc, hb', hinside'⟩)
      · exact .inr (.inr ⟨code, flag', .now hb, hnone, heq⟩)
    · exact absurd hstep (hno e')
  induction hrun using Relation.ReflTransGen.head_induction_on with
  | refl =>
    intro s b hinside hdepth hbranches
    rcases hends hlast hinside hdepth hbranches with
      ⟨b', -, hinside'⟩ | ⟨code, proc, b', -, -, -, hinside'⟩ | ⟨code, flag', hcode, hnone, heq⟩
    · have := hinside'.splits_length
      omega
    · have := hinside'.splits_length
      omega
    · refine ⟨code, [], flag', hcode, ?_, heq.trans ?_⟩
      · rw [List.drop_eq_nil_of_le]
        · exact .nil
        · rw [Array.length_toList]
          exact Array.getElem?_eq_none_iff.1 hnone
      · exact congrArg (behindSplit s outer caller below · flag') (tally_returned code [])
  | head hstep _ ih =>
    intro s b hinside hdepth hbranches
    obtain ⟨hstep, hdeep⟩ := hstep
    rcases hends hstep hinside hdepth hbranches with
      ⟨b', hb', hinside'⟩ | ⟨code, proc, b', hcode, hproc, hb', hinside'⟩ | ⟨code, flag', hcode, hnone, heq⟩
    · obtain ⟨code, codes, flag', hcode, hcodes, heq⟩ := ih hinside' hdepth hbranches
      exact ⟨code, codes, flag', .later hb' hcode, hcodes, heq⟩
    · obtain ⟨code', codes, flag', hcode', hcodes, heq⟩ := ih hinside' hdepth hbranches
      refine ⟨code, code' :: codes, flag', hcode, ?_, heq.trans ?_⟩
      · have hdrop : branches.toList.drop (s.branch + 1) = proc :: branches.toList.drop (s.branch + 2) := by
          rw [← Array.getElem?_toList] at hproc
          obtain ⟨hlt, rfl⟩ := List.getElem?_eq_some_iff.1 hproc
          exact List.drop_eq_getElem_cons hlt
        rw [hdrop]
        exact .cons ⟨b', hb', hcode'⟩ hcodes
      · exact congrArg (behindSplit s outer caller below · flag') (@tally_returned s code ((code' :: codes).map vote))
    · rw [heq] at hdeep
      exact absurd hdeep (Nat.lt_irrefl _)

end

end Absolute

end JsonSieve
