import Mathlib.Data.List.Forall2
import JsonSieve.Proofs.Graph.Laying
import JsonSieve.Proofs.Running.Basic

/-!
# Running graphs

An activation of a graph frame begins with block 0 and runs the statements of a block until a terminator
goes to another block or ends the activation. Calls and split lists name frames of the program. Fuel comes
in two kinds: `steps` is how many statements one activation may run, `depth` is how deep activations may
nest. More fuel does not change the outcome of a run that has one (`runGraph_mono`).
-/

namespace JsonSieve.Running

/-- Where control is behind a statement of a block. -/
inductive Move where
  | next (σ : State)
  | jump (block : Nat) (σ : State)

/-- The block for a word, or the one for all others. -/
def target (w : Int64) (cases : List (UInt32 × Nat)) (otherwise : Option Nat) : Option Nat :=
  ((cases.find? fun c => caseWord c.1 = w).map (·.2)).or otherwise

def step [Regex.Engine] (e : Setting) (call : Nat → Position → Option Outcome) : Stmt → State → Run Move
  | .valid, σ => .ends (.valid σ.position)
  | .invalid reason, σ => .ends (.invalid reason σ.position)
  | .branch b, σ => .result (.jump b σ)
  | .branchIf condition yes no, σ => do
    let (holds, σ) ← test e condition σ
    pure (.jump (if holds then yes else no) σ)
  | .branchCase t cases otherwise, σ => do
    let w ← Run.ofOption .wrong (σ.temps t)
    let b ← Run.ofOption (.invalid .invalidMatchCase σ.position) (target w cases otherwise)
    pure (.jump b σ)
  | .call i, σ => do
    let p ← resume (call i σ.position)
    pure (.next (σ.moveTo p))
  | s, σ => Move.next <$> act e s σ

/-- Runs what remains of a block, and the blocks behind it. -/
def walk [Regex.Engine] (e : Setting) (call : Nat → Position → Option Outcome) (code : Nat → List Stmt) :
    Nat → List Stmt → State → Option Outcome
  | 0, _, _ => none
  | _ + 1, [], _ => some .wrong
  | n + 1, s :: rest, σ =>
    match step e call s σ with
    | .result (.next σ) => walk e call code n rest σ
    | .result (.jump b σ) => walk e call code n (code b) σ
    | .ends o => some o
    | .running => none

/-- What the statements of a graph frame refer to, if this is how frames are run. -/
def settingOf (call : Nat → Position → Option Outcome) (d : Decls) : Setting where
  matcher m := d.matchers[m]?
  size bv := (d.bitvecs[bv]?).map (·.size)
  branches i := (d.splits[i]?).map (·.map call)

/-- Runs a frame of a graph: an activation that knows nothing yet, from a position to its outcome. -/
def runGraph [Regex.Engine] (g : Graph) (steps : Nat) : Nat → Nat → Position → Option Outcome
  | 0, _, _ => none
  | depth + 1, i, p =>
    match g[i]? with
    | none => some .wrong
    | some f =>
      walk (settingOf (runGraph g steps depth) f.decls) (runGraph g steps depth) (Graph.codeOf f.body) steps
        (Graph.codeOf f.body 0) (.start (some 0) p)

/-! ## More fuel -/

/-- The second run goes on where the first one has no more fuel. -/
def Run.Le {α : Type} (r r' : Run α) : Prop := r = .running ∨ r = r'

namespace Run.Le

variable {α β : Type} {r r' : Run α}

theorem refl (r : Run α) : r.Le r := .inr rfl

theorem bind (h : r.Le r') {k k' : α → Run β} (hk : ∀ a, (k a).Le (k' a)) : (r >>= k).Le (r' >>= k') := by
  rcases h with rfl | rfl
  · exact .inl rfl
  · cases r with
    | result a => exact hk a
    | ends o => exact .inr rfl
    | running => exact .inl rfl

theorem map (h : r.Le r') (f : α → β) : (f <$> r).Le (f <$> r') := by
  rcases h with rfl | rfl
  · exact .inl rfl
  · exact .inr rfl

end Run.Le

/-- The second run of a frame goes on where the first one has no more fuel. -/
def Longer (run run' : Position → Option Outcome) : Prop :=
  ∀ p o, run p = some o → run' p = some o

section

variable {e e' : Setting} {call call' : Nat → Position → Option Outcome}

theorem resume_le {r r' : Option Outcome} (h : ∀ o, r = some o → r' = some o) : (resume r).Le (resume r') := by
  cases r with
  | none => exact .inl rfl
  | some o =>
    rw [h o rfl]
    exact Run.Le.refl _

theorem poll_le (p : Position) {branches branches' : List (Position → Option Outcome)}
    (h : List.Forall₂ Longer branches branches') : (poll p branches).Le (poll p branches') := by
  induction h with
  | nil => exact Run.Le.refl _
  | @cons branch branch' branches branches' hbranch _ ih =>
    rw [poll, poll]
    cases hrun : branch p with
    | none => exact .inl rfl
    | some o =>
      rw [hbranch p o hrun]
      cases o with
      | valid | invalid => exact ih.map _
      | badText | noValue | wrong => exact Run.Le.refl _

/-- The second setting is the first one with more fuel for its branches. -/
structure Setting.Le (e e' : Setting) : Prop where
  matcher_eq : e'.matcher = e.matcher
  size_eq : e'.size = e.size
  branches : ∀ i, (e.branches i = none ∧ e'.branches i = none) ∨
    ∃ branches branches', e.branches i = some branches ∧ e'.branches i = some branches' ∧
      List.Forall₂ Longer branches branches'

theorem votes_le (h : e.Le e') (i : Nat) (p : Position) : (e.votes i p).Le (e'.votes i p) := by
  rw [Setting.votes, Setting.votes]
  rcases h.branches i with ⟨hnone, hnone'⟩ | ⟨branches, branches', hsome, hsome', hlonger⟩
  · rw [hnone, hnone']
    exact Run.Le.refl _
  · rw [hsome, hsome']
    exact poll_le p hlonger

theorem number_le [Regex.Engine] (h : e.Le e') (σ : State) (a : Expr) : (number e σ a).Le (number e' σ a) := by
  cases a with
  | split i => exact (votes_le h i σ.position).bind fun _ => Run.Le.refl _
  | matchCase m =>
    rw [number, number, h.matcher_eq]
    exact Run.Le.refl _
  | _ => exact Run.Le.refl _

theorem truth_le [Regex.Engine] (h : e.Le e') (a : Expr) (σ : State) : (test.truth e a σ).Le (test.truth e' a σ) :=
  (number_le h σ a).bind fun _ => Run.Le.refl _

theorem test_le [Regex.Engine] (h : e.Le e') (a : Expr) (σ : State) : (test e a σ).Le (test e' a σ) := by
  cases a with
  | not a => exact (test_le h a σ).bind fun _ => Run.Le.refl _
  | and a b =>
    refine (test_le h a σ).bind ?_
    rintro ⟨_ | _, σ⟩
    · exact Run.Le.refl _
    · exact test_le h b σ
  | or a b =>
    refine (test_le h a σ).bind ?_
    rintro ⟨_ | _, σ⟩
    · exact test_le h b σ
    · exact Run.Le.refl _
  | compare c a b => exact (number_le h σ a).bind fun _ => (number_le h σ b).bind fun _ => Run.Le.refl _
  | isInteger a | isMultiple a _ => exact (number_le h σ a).bind fun _ => Run.Le.refl _
  | bitsAll bv =>
    rw [test, test, h.size_eq]
    exact Run.Le.refl _
  | temp | tokenComplete | split | matchCase | bitCount => exact truth_le h _ σ
  | _ => exact Run.Le.refl _

theorem act_le [Regex.Engine] (h : e.Le e') (s : Stmt) (σ : State) : (act e s σ).Le (act e' s σ) := by
  cases s with
  | splitBits bv i => exact (votes_le h i σ.position).bind fun _ => Run.Le.refl _
  | move t a => exact (number_le h σ a).bind fun _ => Run.Le.refl _
  | _ => exact Run.Le.refl _

theorem step_le [Regex.Engine] (h : e.Le e') (hcall : ∀ i, Longer (call i) (call' i)) (s : Stmt) (σ : State) :
    (step e call s σ).Le (step e' call' s σ) := by
  cases s with
  | branchIf condition yes no => exact (test_le h condition σ).bind fun _ => Run.Le.refl _
  | call i =>
    exact (resume_le fun o => hcall i σ.position o).bind fun _ => Run.Le.refl _
  | valid | invalid | branch | branchCase => exact Run.Le.refl _
  | _ => exact (act_le h _ σ).map _

/-- An activation with more fuel goes on in the same way. -/
theorem walk_mono [Regex.Engine] (h : e.Le e') (hcall : ∀ i, Longer (call i) (call' i)) {code : Nat → List Stmt}
    {n n' : Nat} (hn : n ≤ n') {k : List Stmt} {σ : State} {o : Outcome}
    (hwalk : walk e call code n k σ = some o) : walk e' call' code n' k σ = some o := by
  induction n generalizing n' k σ with
  | zero => cases hwalk
  | succ n ih =>
    obtain ⟨n', rfl⟩ : ∃ m, n' = m + 1 := ⟨n' - 1, by omega⟩
    cases k with
    | nil => exact hwalk
    | cons s rest =>
      rw [walk] at hwalk ⊢
      rcases step_le h hcall s σ with hrunning | hsame
      · rw [hrunning] at hwalk
        cases hwalk
      · rw [← hsame]
        cases hstep : step e call s σ with
        | result move =>
          rw [hstep] at hwalk
          cases move with
          | next σ' => exact ih (by omega) hwalk
          | jump b σ' => exact ih (by omega) hwalk
        | ends o' =>
          rw [hstep] at hwalk
          exact hwalk
        | running =>
          rw [hstep] at hwalk
          cases hwalk

theorem forall₂_longer {ids : List Nat} (hcall : ∀ i, Longer (call i) (call' i)) :
    List.Forall₂ Longer (ids.map call) (ids.map call') := by
  induction ids with
  | nil => exact .nil
  | cons i ids ih => exact .cons (hcall i) ih

theorem settingOf_le (hcall : ∀ i, Longer (call i) (call' i)) (d : Decls) :
    (settingOf call d).Le (settingOf call' d) where
  matcher_eq := rfl
  size_eq := rfl
  branches i := by
    rw [settingOf, settingOf]
    dsimp only
    cases d.splits[i]? with
    | none => exact .inl ⟨rfl, rfl⟩
    | some ids => exact .inr ⟨_, _, rfl, rfl, forall₂_longer hcall⟩

end

/-- More fuel of either kind does not change an outcome. -/
theorem runGraph_mono [Regex.Engine] {g : Graph} {steps steps' depth depth' : Nat} (hsteps : steps ≤ steps')
    (hdepth : depth ≤ depth') {i : Nat} {p : Position} {o : Outcome}
    (h : runGraph g steps depth i p = some o) : runGraph g steps' depth' i p = some o := by
  induction depth generalizing depth' i p o with
  | zero => cases h
  | succ depth ih =>
    obtain ⟨depth', rfl⟩ : ∃ m, depth' = m + 1 := ⟨depth' - 1, by omega⟩
    have hcall : ∀ i, Longer (runGraph g steps depth i) (runGraph g steps' depth' i) :=
      fun i p o => ih (by omega)
    rw [runGraph] at h ⊢
    cases hf : g[i]? with
    | none =>
      rw [hf] at h
      exact h
    | some f =>
      rw [hf] at h
      exact walk_mono (settingOf_le hcall f.decls) hcall hsteps h

theorem runGraph_unique [Regex.Engine] {g : Graph} {steps steps' depth depth' i : Nat} {p : Position} {o o' : Outcome}
    (h : runGraph g steps depth i p = some o) (h' : runGraph g steps' depth' i p = some o') : o = o' := by
  have hmax := runGraph_mono (Nat.le_max_left steps steps') (Nat.le_max_left depth depth') h
  have hmax' := runGraph_mono (Nat.le_max_right steps steps') (Nat.le_max_right depth depth') h'
  rw [hmax] at hmax'
  exact Option.some.inj hmax'

end JsonSieve.Running
