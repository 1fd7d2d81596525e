import JsonSieve.Proofs.Graph.Numbered
import JsonSieve.Proofs.Running.Simulation
import JsonSieve.Regex.Builtin

/-!
# Trees and their graphs run alike

The graph of a tame tree reaches the same outcome as the tree, from every position, and it reaches none if
the tree reaches none (`runGraph_iff_runTree`). The proof follows the places at which statements stand
(`Graph.Spans`): one lemma for expressions that have been moved into temporaries, one for the branches of
conditions, one for statements (`simulates_exec`), and an induction over the nesting of frames.

Trees know no temporaries. A state of the graph `Holds` a state of the tree if they differ in these only.
-/

namespace JsonSieve.Running

open JsonSieve.Graph

/-! ## States without temporaries -/

namespace State

def holding (temps : Nat → Option Int64) (σ : State) : State := { σ with temps }

def Bare (σ : State) : Prop := ∀ t, σ.temps t = none

/-- Two states agree up to temporaries, of which the first has none. -/
def Held (σ τ : State) : Prop := σ.Bare ∧ ∃ temps, τ = σ.holding temps

end State

/-! ## What a frame refers to -/

/-- The runs of a frame end as one run with `bound` fuel does. Nothing is said if that goes wrong. -/
def Follows (bound : Nat) (f : Nat → Nat → Option Outcome) : Option Outcome → Prop
  | none => ∀ m ≤ bound, ∀ d, f m d = none
  | some .wrong => True
  | some o => (∃ m0 d0, ∀ m ≥ m0, ∀ d ≥ d0, f m d = some o) ∧ ∀ m d, f m d = none ∨ f m d = some o

variable {bound : Nat} {α : Type}

theorem Tends.tracks {f : Nat → Nat → Run α} {r : Run α} (h : Tends f r) : Tracks bound f r := by
  cases r with
  | running => exact fun m _ d => (h.2 m d).elim id id
  | ends o =>
    cases o with
    | wrong => trivial
    | _ => exact h
  | result a => exact h

theorem Follows.tracks {f : Nat → Nat → Option Outcome} {o : Option Outcome}
    (h : Follows bound f o) {F : Option Outcome → Run α} (hnone : F none = .running)
    (hwrong : F (some .wrong) = .wrong) : Tracks bound (fun m d => F (f m d)) (F o) := by
  have htends : ∀ o, ((∃ m0 d0, ∀ m ≥ m0, ∀ d ≥ d0, f m d = some o) ∧
      ∀ m d, f m d = none ∨ f m d = some o) → Tends (fun m d => F (f m d)) (F (some o)) := by
    rintro o ⟨⟨m0, d0, hlate⟩, hall⟩
    refine ⟨⟨m0, d0, fun m hm d hd => congrArg F (hlate m hm d hd)⟩, fun m d => ?_⟩
    rcases hall m d with heq | heq
    · exact .inl ((congrArg F heq).trans hnone)
    · exact .inr (congrArg F heq)
  cases o with
  | none =>
    rw [hnone]
    exact fun m hm d => (congrArg F (h m hm d)).trans hnone
  | some o =>
    cases o with
    | wrong =>
      rw [hwrong]
      trivial
    | _ => exact (htends _ h).tracks

/-- What a frame of a tree refers to is what the runs of its graph refer to. -/
structure Agrees (bound : Nat) (e : Setting) (e' : Nat → Nat → Setting) : Prop where
  matcher : ∀ i m, e.matcher i = some m → ∀ n d, (e' n d).matcher i = some m
  size : ∀ i s, e.size i = some s → ∀ n d, (e' n d).size i = some s
  branches : ∀ i branches, e.branches i = some branches → ∃ runs : List (Nat → Nat → Position → Option Outcome),
      (∀ n d, (e' n d).branches i = some (runs.map fun run => run n d)) ∧
      List.Forall₂ (fun branch run => ∀ p, Follows bound (fun n d => run n d p) (branch p)) branches runs

section

variable {bound : Nat} {e : Setting} {e' : Nat → Nat → Setting}

theorem poll_tracks (p : Position) {branches : List (Position → Option Outcome)}
    {runs : List (Nat → Nat → Position → Option Outcome)}
    (h : List.Forall₂ (fun branch run => ∀ p, Follows bound (fun n d => run n d p) (branch p)) branches
      runs) : Tracks bound (fun n d => poll p (runs.map fun run => run n d)) (poll p branches) := by
  induction h with
  | nil => exact Tracks.const _
  | cons hbranch _ ih =>
    simp only [List.map_cons, poll_cons]
    exact ((hbranch p).tracks rfl rfl).bind fun _ _ => ih.bind fun _ _ => Tracks.const _

theorem votes_tracks (h : Agrees bound e e') (i : Nat) (p : Position) :
    Tracks bound (fun n d => (e' n d).votes i p) (e.votes i p) := by
  rw [Setting.votes]
  cases hbranches : e.branches i with
  | none => trivial
  | some branches =>
    obtain ⟨runs, hruns, hfollows⟩ := h.branches i branches hbranches
    simp only [Setting.votes, hruns]
    exact poll_tracks p hfollows

/-! ## Expressions -/

variable [Regex.Engine] {σ : State} (temps : Nat → Option Int64)

/-- A number is the same in the graph, as far as the tree knows it. -/
theorem number_tracks (h : Agrees bound e e') (hσ : σ.Bare) (a : Expr) :
    Tracks bound (fun n d => number (e' n d) (σ.holding temps) a) (number e σ a) := by
  cases a with
  | split i => exact (votes_tracks h i σ.position).bind fun _ _ => Tracks.const _
  | matchCase i =>
    simp only [number]
    cases hm : e.matcher i with
    | none => trivial
    | some m =>
      simp only [h.matcher i m hm]
      exact Tracks.const _
  | temp t =>
    simp only [number]
    rw [hσ t]
    trivial
  | _ => exact Tracks.const _

theorem test_tracks (h : Agrees bound e e') (hσ : σ.Bare) {a : Expr} (ha : Stays a = true) :
    Tracks bound (fun n d => test (e' n d) a (σ.holding temps))
      ((fun r : Bool × State => (r.1, r.2.holding temps)) <$> test e a σ) := by
  cases a with
  | bitTest bv n =>
    simp only [test]
    cases bit n with
    | ends o => exact Tracks.const (.ends o)
    | running => exact Tracks.const .running
    | result w => exact Tracks.const _
  | bitsAll bv =>
    simp only [test]
    cases hsize : e.size bv with
    | none => trivial
    | some size =>
      simp only [h.size bv size hsize]
      exact Tracks.const _
  | unique u =>
    have hmark : ∀ v, (σ.holding temps).mark u v = (σ.mark u v).holding temps := fun v => by
      by_cases hseen : (σ.seen u).contains v = true <;> simp [State.mark, State.holding, hseen]
    have hposition : (σ.holding temps).position = σ.position := rfl
    simp only [test, hposition]
    cases σ.position.ahead with
    | value v =>
      simp only [hmark]
      exact Tracks.const _
    | badText => exact Tracks.const (.ends _)
    | nothing => exact Tracks.const (.ends _)
  | temp t =>
    simp only [test, test.truth, number]
    rw [hσ t]
    trivial
  | tokenComplete => exact Tracks.const _
  | bool | isToken | bitsAny => exact Tracks.const _
  | num | int | size | tokenKind | tokenNumber | tokenLength | count => trivial
  | _ => cases ha

theorem temps_of_test {a : Expr} (ha : Stays a = true) {holds : Bool} {σ' : State}
    (htest : test e a σ = .result (holds, σ')) : σ'.temps = σ.temps := by
  cases a with
  | bitTest bv n =>
    rw [test] at htest
    cases hbit : bit n with
    | result w =>
      rw [hbit] at htest
      cases htest
      rfl
    | ends | running =>
      rw [hbit] at htest
      cases htest
  | bitsAll bv =>
    rw [test] at htest
    cases hsize : e.size bv with
    | none =>
      rw [hsize] at htest
      cases htest
    | some size =>
      rw [hsize] at htest
      cases htest
      rfl
  | unique u =>
    rw [test] at htest
    split at htest
    · cases htest
      rw [State.mark]
      split <;> rfl
    · cases htest
    · cases htest
  | temp t =>
    rw [test, test.truth, number] at htest
    cases htemp : σ.temps t with
    | none =>
      rw [htemp] at htest
      cases htest
    | some w =>
      rw [htemp] at htest
      cases htest
      rfl
  | bool | isToken | bitsAny | tokenComplete =>
    cases htest
    rfl
  | num | int | size | tokenKind | tokenNumber | tokenLength | count => cases htest
  | _ => cases ha

end

/-- What looks ahead, reads a matcher or counts bits is a word. -/
theorem word_of_looks [Regex.Engine] {e : Setting} {σ : State} {a : Expr} (ha : Looks a = true) {x : Number}
    (h : number e σ a = .result x) : ∃ w, x = .word w := by
  cases a with
  | split i =>
    rw [number] at h
    cases hvotes : e.votes i σ.position with
    | result votes =>
      rw [hvotes] at h
      cases h
      exact ⟨_, rfl⟩
    | ends | running =>
      rw [hvotes] at h
      cases h
  | matchCase m =>
    rw [number] at h
    cases hm : e.matcher m with
    | none =>
      rw [hm] at h
      cases h
    | some m =>
      rw [hm] at h
      cases h
      exact ⟨_, rfl⟩
  | bitCount bv =>
    cases h
    exact ⟨_, rfl⟩
  | _ => cases ha

/-- A number without operands is read in every setting, and it does not depend on temporaries. -/
theorem number_of_stays [Regex.Engine] {e : Setting} {σ : State} (hσ : σ.Bare) {a : Expr} (ha : Stays a = true) :
    number e σ a = .wrong ∨ ∃ x, number e σ a = .result x ∧ ∀ e' temps, number e' (σ.holding temps) a = .result x := by
  cases a with
  | temp t =>
    rw [number, hσ t]
    exact .inl rfl
  | num | int | size | bool | tokenKind | tokenNumber | tokenComplete | tokenLength | count =>
    exact .inr ⟨_, rfl, fun _ _ => rfl⟩
  | isToken | bitTest | bitsAll | bitsAny | unique => exact .inl rfl
  | _ => cases ha

namespace Fueled

variable [Regex.Engine] {w : Fueled} {bound : Nat} {e : Setting}

/-- The expression that a number has become reads this number, as long as the temporaries below `n` stay
as they are. -/
def Reads (w : Fueled) (σ : State) (a : Expr) (n : Nat) (temps : Nat → Option Int64) (x : Number) : Prop :=
  ∀ temps', (∀ t < n, temps' t = temps t) → ∀ m d, number (w.setting m d) (σ.holding temps') a = .result x

variable {a : Expr} {k k' : List Stmt} {σ τ : State} {no yes : Nat} {s : Stmt}

theorem simulates_number (hagrees : Agrees bound e w.setting) {n n' : Nat} {a' : Expr}
    (h : Hoists n a k n' a' k') (hσ : σ.Bare) (temps : Nat → Option Int64) :
    w.Simulates bound k (σ.holding temps) (fun x k1 τ => k1 = k' ∧ ∃ temps', τ = σ.holding temps' ∧
      (∀ t < n, temps' t = temps t) ∧ w.Reads σ a' n' temps' x) (number e σ a) := by
  cases h with
  | moved ha =>
    have hstep : Tracks bound (w.step (.move n a) (σ.holding temps)) (do
        let x ← number e σ a
        let v ← Run.ofOption .wrong x.toWord?
        pure (Move.next ((σ.holding temps).setTemp n v))) := by
      have hsame : w.step (.move n a) (σ.holding temps) = fun m d => (do
          let x ← number (w.setting m d) (σ.holding temps) a
          let v ← Run.ofOption .wrong x.toWord?
          pure (Move.next ((σ.holding temps).setTemp n v))) := by
        funext m d
        simp only [step, Running.step, act, map_bind, map_pure]
      rw [hsame]
      exact (number_tracks temps hagrees hσ a).bind fun _ _ => Tracks.const _
    cases hx : number e σ a with
    | running =>
      rw [hx] at hstep
      exact simulates_step hstep
    | ends o =>
      rw [hx] at hstep
      cases o with
      | wrong => trivial
      | _ => exact simulates_step hstep
    | result x =>
      obtain ⟨v, rfl⟩ := word_of_looks ha hx
      rw [hx] at hstep
      simp only [Run.result_bind, Number.toWord?_word, Run.ofOption, Run.pure_eq] at hstep
      refine ⟨k', (σ.holding temps).setTemp n v, ⟨rfl, Function.update temps n (some v), rfl, ?_, ?_⟩,
        leads_of_tends hstep ⟨rfl, rfl⟩⟩
      · exact fun t ht => Function.update_of_ne (Nat.ne_of_lt ht) _ _
      · intro temps' htemps m d
        rw [number]
        show (do
          let v ← Run.ofOption .wrong (temps' n)
          pure (Number.word v)) = _
        rw [htemps n (Nat.lt_succ_self n), Function.update_self]
        rfl
  | stays ha =>
    rcases number_of_stays (e := e) hσ ha with hwrong | ⟨x, hx, hread⟩
    · rw [hwrong]
      trivial
    · rw [hx]
      exact .pure ⟨rfl, temps, rfl, fun _ _ => rfl, fun temps' _ m d => hread _ temps'⟩
  | isInteger | isMultiple | not | compare | and | or => trivial

/-! ## Conditions -/

/-- Control is at the branch that a condition selects. -/
def Chosen (w : Fueled) (yes no : Nat) (r : Bool × State) (k : List Stmt) (τ : State) : Prop :=
  k = w.code (if r.1 then yes else no) ∧ r.2.Held τ

theorem leads_branchIf {holds : Bool} (h : ∀ m d, test (w.setting m d) a τ = .result (holds, τ)) :
    w.Leads (.branchIf a yes no :: k) τ (w.code (if holds then yes else no)) τ := by
  have hstep : w.step (.branchIf a yes no) τ = fun _ _ => .result (.jump (if holds then yes else no) τ) := by
    funext m d
    rw [step, Running.step, h m d]
    rfl
  have htends := Tends.const (Run.result (Move.jump (if holds then yes else no) τ))
  rw [← hstep] at htends
  exact leads_of_tends htends ⟨rfl, rfl⟩

variable {temps : Nat → Option Int64} {exits : Nat → Option Nat} {cases : List (UInt32 × Stmt)}
  {targets : List (UInt32 × Nat)}

theorem simulates_branchIf {holds : Bool} (hσ : σ.Bare) (hk : k' = .branchIf a yes no :: k)
    (h : ∀ m d, test (w.setting m d) a (σ.holding temps) = .result (holds, σ.holding temps)) :
    w.Simulates bound k' (σ.holding temps) (w.Chosen yes no) (.result (holds, σ)) := by
  rw [hk]
  exact ⟨_, σ.holding temps, ⟨rfl, hσ, temps, rfl⟩, leads_branchIf h⟩

theorem simulates_decides_test (hagrees : Agrees bound e w.setting) {n n' : Nat} {a' : Expr}
    (hconnects : Connects a = false) (h : Hoists n a k n' a' (.branchIf a' yes no :: k'))
    (hσ : σ.Bare) (temps : Nat → Option Int64) :
    w.Simulates bound k (σ.holding temps) (w.Chosen yes no) (test e a σ) := by
  -- a number that has become `a'` in front of the branch
  have hnumber := fun {n n' a a' k1 k2} (h : Hoists n a k1 n' a' k2) temps =>
    simulates_number (w := w) hagrees h hσ temps
  cases h with
  | moved ha =>
    have htruth : test e a σ = (do
        let x ← number e σ a
        pure (x.compare .ne (.int 0), σ)) := by
      cases a with
      | split | matchCase | bitCount => rfl
      | _ => cases ha
    rw [htruth]
    refine (hnumber (.moved ha) temps).bind ?_
    rintro x k1 τ - ⟨hk, temps', rfl, -, hread⟩
    refine simulates_branchIf hσ hk fun m d => ?_
    rw [test, test.truth, hread temps' (fun _ _ => rfl) m d]
    rfl
  | stays ha =>
    have hstep : Tracks bound (w.step (.branchIf a yes no) (σ.holding temps))
        ((fun r : Bool × State => Move.jump (if r.1 then yes else no) (r.2.holding temps)) <$>
          test e a σ) := by
      have hsame : w.step (.branchIf a yes no) (σ.holding temps) = fun m d =>
          (fun r : Bool × State => Move.jump (if r.1 then yes else no) r.2) <$>
            test (w.setting m d) a (σ.holding temps) := by
        funext m d
        rw [step, Running.step, map_eq_pure_bind]
      have hmap := (test_tracks temps hagrees hσ ha).map fun r : Bool × State => Move.jump (if r.1 then yes else no) r.2
      rw [hsame]
      rwa [← comp_map] at hmap
    refine (Simulates.of_map (simulates_step hstep)).mono ?_
    rintro ⟨holds, σ'⟩ k1 τ htest ⟨rfl, rfl⟩
    exact ⟨rfl, fun t => (congrFun (temps_of_test ha htest) t).trans (hσ t), temps, rfl⟩
  | isInteger h =>
    rw [test]
    refine (hnumber h temps).bind ?_
    rintro x k1 τ - ⟨hk, temps', rfl, -, hread⟩
    refine simulates_branchIf hσ hk fun m d => ?_
    rw [test, hread temps' (fun _ _ => rfl) m d]
    rfl
  | isMultiple h =>
    rw [test]
    refine (hnumber h temps).bind ?_
    rintro x k1 τ - ⟨hk, temps', rfl, -, hread⟩
    refine simulates_branchIf hσ hk fun m d => ?_
    rw [test, hread temps' (fun _ _ => rfl) m d]
    rfl
  | compare ha hb =>
    rw [test]
    refine (hnumber ha temps).bind ?_
    rintro x k1 τ - ⟨rfl, temps1, rfl, -, hreadA⟩
    refine (hnumber hb temps1).bind ?_
    rintro y k2 τ - ⟨hk, temps2, rfl, hkept, hreadB⟩
    refine simulates_branchIf hσ hk fun m d => ?_
    -- the second operand has left the temporaries of the first one alone
    rw [test, hreadA temps2 hkept m d, Run.result_bind, hreadB temps2 (fun _ _ => rfl) m d]
    rfl
  | not | and | or => cases hconnects

/-- The branches of a condition are taken as the tree takes them. -/
theorem simulates_decides (hagrees : Agrees bound e w.setting) (h : Decides w.code a k yes no) (hτ : σ.Held τ) :
    w.Simulates bound k τ (w.Chosen yes no) (test e a σ) := by
  induction h generalizing σ τ with
  | bool => exact ⟨_, τ, ⟨rfl, hτ⟩, leads_branch ..⟩
  | not _ ih =>
    rw [test]
    refine (ih hτ).bind ?_
    rintro ⟨holds, σ'⟩ k' τ' - ⟨rfl, hheld⟩
    refine .pure ⟨?_, hheld⟩
    cases holds <;> rfl
  | and _ _ iha ihb =>
    rw [test]
    refine (iha hτ).bind ?_
    rintro ⟨holds, σ'⟩ k' τ' - ⟨rfl, hheld⟩
    cases holds with
    | true => exact ihb hheld
    | false => exact .pure ⟨rfl, hheld⟩
  | or _ _ iha ihb =>
    rw [test]
    refine (iha hτ).bind ?_
    rintro ⟨holds, σ'⟩ k' τ' - ⟨rfl, hheld⟩
    cases holds with
    | true => exact .pure ⟨rfl, hheld⟩
    | false => exact ihb hheld
  | test hconnects h =>
    obtain ⟨hσ, temps, rfl⟩ := hτ
    exact simulates_decides_test hagrees hconnects h hσ temps

/-! ## Statements -/

/-- Control is where it should be behind a statement: at the place `k'`, or where a loop is left to. -/
def Flows (w : Fueled) (exits : Nat → Option Nat) (k' : Option (List Stmt)) :
    Flow → List Stmt → State → Prop
  | .next σ, k, τ => k' = some k ∧ σ.Held τ
  | .leave loop σ, k, τ => (∃ exit, exits loop = some exit ∧ k = w.code exit) ∧ σ.Held τ

/-- Control goes on where several branches meet. -/
theorem Simulates.joins {r : Run Flow} {k1 k2 : Option (List Stmt)} (h : w.Simulates bound k τ (w.Flows exits k1) r)
    (hjoins : Joins w.code k1 k2) : w.Simulates bound k τ (w.Flows exits k2) r := by
  rw [← bind_pure r]
  refine h.bind fun flow k' τ' _ hflow => ?_
  cases flow with
  | leave loop σ => exact .pure hflow
  | next σ =>
    obtain ⟨rfl, hheld⟩ := hflow
    cases hjoins with
    | same => exact .pure ⟨rfl, hheld⟩
    | jump => exact .of_leads (leads_branch ..) (.pure ⟨rfl, hheld⟩)

theorem act_holding (e : Setting) (hs : Simple s = true) (σ : State)
    (temps : Nat → Option Int64) : act e s (σ.holding temps) = State.holding temps <$> act e s σ := by
  have hposition : (σ.holding temps).position = σ.position := rfl
  cases s with
  | token =>
    rw [act, act, hposition]
    cases σ.position.read? <;> rfl
  | consume =>
    rw [act, act, hposition]
    cases σ.position.skip? <;> rfl
  | untoken =>
    rw [act, act, hposition]
    cases σ.position.unread? <;> rfl
  | bitSet bv n | bitClear bv n =>
    rw [act, act]
    cases bit n <;> rfl
  | splitBits bv i =>
    rw [act, act, hposition]
    cases e.votes i σ.position with
    | result votes =>
      simp only [Run.result_bind]
      split <;> rfl
    | ends | running => rfl
  | incr | decr => rfl
  | _ => cases hs

theorem step_simple (w : Fueled) (hs : Simple s = true) (τ : State) (m d : Nat) :
    w.step s τ m d = Move.next <$> act (w.setting m d) s τ := by
  cases s with
  | token | consume | untoken | incr | decr | bitSet | bitClear | splitBits => rfl
  | _ => cases hs

theorem act_tracks (hagrees : Agrees bound e w.setting) (hs : Simple s = true) (σ : State) :
    Tracks bound (fun m d => act (w.setting m d) s σ) (act e s σ) := by
  cases s with
  | splitBits bv i => exact (votes_tracks hagrees i σ.position).bind fun _ _ => Tracks.const _
  | token | consume | untoken | incr | decr | bitSet | bitClear => exact Tracks.const _
  | _ => cases hs

theorem bare_of_act (hs : Simple s = true) {σ' : State} (hσ : σ.Bare) (h : act e s σ = .result σ') : σ'.Bare := by
  -- the statement does the same to the state with no temporaries, which is the state itself
  have hsame : σ.holding (fun _ => none) = σ := by
    rw [State.holding, show (fun _ => none) = σ.temps from funext fun t => (hσ t).symm]
  have hact := act_holding e hs σ fun _ => none
  rw [hsame, h] at hact
  injection hact with hact
  intro t
  rw [hact]
  rfl

/-- A simple statement does the same in the graph. -/
theorem simulates_simple (hagrees : Agrees bound e w.setting) (hs : Simple s = true) (hτ : σ.Held τ)
    (exits : Nat → Option Nat) (k : List Stmt) :
    w.Simulates bound (s :: k) τ (w.Flows exits (some k)) (Flow.next <$> act e s σ) := by
  obtain ⟨hσ, temps, rfl⟩ := hτ
  have hstep : Tracks bound (w.step s (σ.holding temps))
      ((fun σ' : State => Move.next (σ'.holding temps)) <$> act e s σ) := by
    have hsame : w.step s (σ.holding temps) = fun m d =>
        (fun σ' : State => Move.next (σ'.holding temps)) <$> act (w.setting m d) s σ := by
      funext m d
      rw [step_simple w hs, act_holding _ hs, ← comp_map]
      rfl
    rw [hsame]
    exact (act_tracks hagrees hs σ).map _
  rw [map_eq_pure_bind]
  refine (Simulates.of_map (simulates_step hstep)).bind ?_
  rintro σ' k1 τ hact ⟨rfl, rfl⟩
  exact .pure ⟨rfl, bare_of_act hs hσ hact, temps, rfl⟩

theorem simulates_frame {body : Stmt} {f : Nat}
    (hcall : ∀ p, Follows bound (fun m d => w.call m d f p) (runTree bound body p))
    (hτ : σ.Held τ) (exits : Nat → Option Nat) (k : List Stmt) :
    w.Simulates bound (.call f :: k) τ (w.Flows exits (some k)) (exec bound e (.frame body) σ) := by
  obtain ⟨hσ, temps, rfl⟩ := hτ
  have hexec : exec bound e (.frame body) σ = (do
      let p ← resume (runTree bound body σ.position)
      pure (.next (σ.moveTo p))) := by
    rw [exec, runTree]
  have hstep : Tracks bound (w.step (.call f) (σ.holding temps))
      ((fun p => Move.next ((σ.moveTo p).holding temps)) <$> resume (runTree bound body σ.position)) := by
    have hsame : w.step (.call f) (σ.holding temps) = fun m d =>
        (fun p => Move.next ((σ.moveTo p).holding temps)) <$> resume (w.call m d f σ.position) := by
      funext m d
      rw [step, Running.step, map_eq_pure_bind]
      rfl
    rw [hsame]
    exact ((hcall σ.position).tracks rfl rfl).map _
  rw [hexec]
  refine (Simulates.of_map (simulates_step hstep)).bind ?_
  rintro p k1 τ - ⟨rfl, rfl⟩
  exact .pure ⟨rfl, hσ, temps, rfl⟩

/-! ## Loops -/

section Loop

variable {loop header : Nat} {exit : Option Nat} {exits : Nat → Option Nat} {body : State → Run Flow}
  {bodyEnd : Option (List Stmt)}

/-- Without enough fuel for its loop the tree does not come to an end, and no more does the graph with the
same fuel: it takes at least one step for every time around. -/
theorem iterate_stalls (hbody : ∀ {σ τ}, σ.Held τ → w.Simulates bound (w.code header) τ
      (w.Flows (Function.update exits loop exit) bodyEnd) (body σ))
    (hback : ∀ k', bodyEnd = some k' → ∃ k'', k' = .branch header :: k'') {n : Nat} (hn : n ≤ bound)
    (hτ : σ.Held τ) (h : iterate loop body n σ = .running) :
    ∀ m ≤ bound, ∀ d, ∀ j ≤ n, w.walk m d j (w.code header) τ = none := by
  induction n generalizing σ τ with
  | zero =>
    intro m _ d j hj
    obtain rfl : j = 0 := Nat.le_zero.1 hj
    rfl
  | succ n ih =>
    intro m hm d j hj
    have hsim := hbody hτ
    rw [iterate] at h
    cases hrun : body σ with
    | running =>
      rw [hrun] at hsim
      exact hsim m hm d j (Nat.le_trans hj hn)
    | ends o =>
      rw [hrun] at h
      cases h
    | result flow =>
      rw [hrun] at h hsim
      cases flow with
      | leave left σ' => cases h
      | next σ' =>
        obtain ⟨k', τ', ⟨hend, hheld⟩, hleads⟩ := hsim
        obtain ⟨k'', rfl⟩ := hback k' hend
        cases hwalk : w.walk m d j (w.code header) τ with
        | none => rfl
        | some o =>
          obtain ⟨j', hj', hwalk'⟩ := hleads.back m d j o hwalk
          obtain ⟨j'', rfl, hwalk''⟩ := walk_branch hwalk'
          rw [ih (Nat.le_of_succ_le hn) hheld h m hm d j'' (by omega)] at hwalk''
          cases hwalk''

theorem simulates_iterate (hbody : ∀ {σ τ}, σ.Held τ → w.Simulates bound (w.code header) τ
      (w.Flows (Function.update exits loop exit) bodyEnd) (body σ))
    (hback : ∀ k', bodyEnd = some k' → ∃ k'', k' = .branch header :: k'') (n : Nat)
    (hτ : σ.Held τ) (h : iterate loop body n σ ≠ .running) :
    w.Simulates bound (w.code header) τ (w.Flows exits (exit.map w.code)) (iterate loop body n σ) := by
  induction n generalizing σ τ with
  | zero => exact absurd rfl h
  | succ n ih =>
    have hsim := hbody hτ
    rw [iterate] at h ⊢
    cases hrun : body σ with
    | running =>
      rw [hrun] at h
      exact absurd rfl h
    | ends o =>
      rw [hrun] at hsim
      cases o with
      | wrong => trivial
      | _ => exact hsim
    | result flow =>
      rw [hrun] at h hsim
      cases flow with
      | next σ' =>
        obtain ⟨k', τ', ⟨hend, hheld⟩, hleads⟩ := hsim
        obtain ⟨k'', rfl⟩ := hback k' hend
        exact (ih hheld h).of_leads (hleads.trans (leads_branch ..))
      | leave left σ' =>
        obtain ⟨k', τ', ⟨⟨x, hexit, rfl⟩, hheld⟩, hleads⟩ := hsim
        refine ⟨_, τ', ?_, hleads⟩
        by_cases hleft : left = loop
        · rw [if_pos hleft]
          rw [hleft, Function.update_self] at hexit
          exact ⟨by rw [hexit]; rfl, hheld⟩
        · rw [if_neg hleft]
          rw [Function.update_of_ne hleft] at hexit
          exact ⟨⟨x, hexit, rfl⟩, hheld⟩

end Loop

/-! ## Dispatches -/

/-- The first case with a key is found among the blocks as among the statements. -/
theorem target_cases {key : UInt32}
    (hkeys : targets.map (·.1) = cases.map (·.1)) (steps : Nat) (e : Setting) (σ : State)
    (otherwise : Option Nat) :
    (execCase steps e key cases σ = none ∧ target (caseWord key) targets otherwise = otherwise) ∨
    ∃ (j : Nat) (c : UInt32 × Stmt) (t : UInt32 × Nat), cases[j]? = some c ∧ targets[j]? = some t ∧
      execCase steps e key cases σ = some (exec steps e c.2 σ) ∧
      target (caseWord key) targets otherwise = some t.2 := by
  induction cases generalizing targets with
  | nil =>
    obtain rfl : targets = [] := List.map_eq_nil_iff.1 hkeys
    exact .inl ⟨by rw [execCase], rfl⟩
  | cons c cases ih =>
    obtain ⟨t, targets, rfl, ht, htargets⟩ := List.map_eq_cons_iff.1 hkeys
    obtain ⟨k, s⟩ := c
    have hcase : (decide (caseWord t.1 = caseWord key)) = decide (k = key) := by
      rw [decide_eq_decide, caseWord_inj, ht]
    simp only [target, List.find?_cons, hcase, execCase]
    by_cases hk : k = key
    · refine .inr ⟨0, (k, s), t, rfl, rfl, ?_⟩
      simp [hk]
    · rw [if_neg hk, decide_eq_false hk]
      rcases ih htargets with hnone | ⟨j, c, t', hc, ht', hfound⟩
      · exact .inl hnone
      · exact .inr ⟨j + 1, c, t', hc, ht', hfound⟩

theorem leads_dispatch (hagrees : Agrees bound e w.setting) {i t b : Nat} {m : Matcher} (hm : e.matcher i = some m)
    {otherwise : Option Nat}
    (hb : target (caseWord (caseOf m σ.position.current)) targets otherwise = some b) (k : List Stmt) :
    w.Leads (.move t (.matchCase i) :: .branchCase t targets otherwise :: k) (σ.holding temps) (w.code b)
      (σ.holding (Function.update temps t (some (caseWord (caseOf m σ.position.current))))) := by
  have hmove : w.step (.move t (.matchCase i)) (σ.holding temps) = fun _ _ => .result (.next (σ.holding
      (Function.update temps t (some (caseWord (caseOf m σ.position.current)))))) := by
    funext n d
    simp only [step, Running.step, act, number, hagrees.matcher i m hm n d, Run.ofOption, Run.result_bind,
      Run.pure_eq, map_bind]
    rw [show (σ.holding temps).position = σ.position from rfl, Number.toWord?_word]
    rfl
  have hbranch : w.step (.branchCase t targets otherwise) (σ.holding (Function.update temps t
      (some (caseWord (caseOf m σ.position.current))))) = fun _ _ => .result (.jump b (σ.holding
      (Function.update temps t (some (caseWord (caseOf m σ.position.current)))))) := by
    funext n d
    rw [step, Running.step]
    simp only [State.holding, Function.update_self, Run.ofOption, Run.result_bind, hb, Run.pure_eq]
  have hfirst := Tends.const (Run.result (Move.next (σ.holding
    (Function.update temps t (some (caseWord (caseOf m σ.position.current)))))))
  rw [← hmove] at hfirst
  have hsecond := Tends.const (Run.result (Move.jump b (σ.holding
    (Function.update temps t (some (caseWord (caseOf m σ.position.current)))))))
  rw [← hbranch] at hsecond
  exact (leads_of_tends hfirst ⟨rfl, rfl⟩).trans (leads_of_tends hsecond ⟨rfl, rfl⟩)

/-! ## All statements -/

omit [Regex.Engine] in
theorem tame_of_mem (h : Stmt.tameCases cases = true) : ∀ c ∈ cases, c.2.tame = true := by
  induction cases with
  | nil => simp
  | cons c cases ih =>
    rw [Stmt.tameCases, Bool.and_eq_true] at h
    exact List.forall_mem_cons.2 ⟨h.1, ih h.2⟩

theorem exec_simple (steps : Nat) (e : Setting) (hs : Simple s = true) (σ : State) :
    exec steps e s σ = Flow.next <$> act e s σ := by
  cases s with
  | token | consume | untoken | incr | decr | bitSet | bitClear | splitBits => rw [exec]
  | _ => cases hs

theorem exec_inert (steps : Nat) (e : Setting) (hs : Inert s = true) (σ : State) :
    exec steps e s σ = .result (.next σ) := by
  cases s with
  | nop | counter | matcher | bitvec | splitList | uniqueSet => rw [exec]
  | _ => cases hs

/-- A statement that stands in a graph does there what it does in the tree. The frames nested in it are
smaller than `size`. -/
theorem simulates_exec {frameAt : Nat → Stmt → Prop} {size : Nat} (hagrees : Agrees bound e w.setting)
    (hcall : ∀ (f : Nat) (body : Stmt), sizeOf body < size → body.tame = true →
      frameAt f body.simplified → ∀ p, Follows bound (fun m d => w.call m d f p) (runTree bound body p))
    {k' : Option (List Stmt)}
    (h : Spans frameAt w.code exits s k k') (htame : s.tame = true) (hsize : sizeOf s ≤ size) (hτ : σ.Held τ) :
    w.Simulates bound k τ (w.Flows exits k') (exec bound e s σ) := by
  induction h generalizing σ τ with
  | inert hs =>
    rw [exec_inert _ _ hs]
    exact .pure ⟨rfl, hτ⟩
  | simple hs =>
    rw [exec_simple _ _ hs]
    exact simulates_simple hagrees hs hτ _ _
  | valid =>
    obtain ⟨-, temps, rfl⟩ := hτ
    rw [exec]
    exact ends_of_step fun _ _ => rfl
  | invalid =>
    obtain ⟨-, temps, rfl⟩ := hτ
    rw [exec]
    exact ends_of_step fun _ _ => rfl
  | @frame _ body f _ hframe =>
    rw [Stmt.frame.sizeOf_spec] at hsize
    exact simulates_frame (hcall f body (by omega) htame hframe) hτ _ _
  | @leave _ loop exit _ hexit =>
    rw [exec]
    exact ⟨_, τ, ⟨⟨exit, hexit, rfl⟩, hτ⟩, leads_branch ..⟩
  | nil =>
    rw [exec, execAll]
    exact .pure ⟨rfl, hτ⟩
  | @cons _ s list _ _ _ _ _ ih ihrest =>
    simp only [Stmt.tame, Stmt.tameAll, Bool.and_eq_true] at htame
    simp only [Stmt.seq.sizeOf_spec, List.cons.sizeOf_spec] at hsize
    rw [exec, execAll]
    refine (ih htame.1 (by omega) hτ).bind ?_
    rintro (σ' | ⟨loop, σ'⟩) k1 τ' - hflow
    · obtain ⟨hk, hheld⟩ := hflow
      cases hk
      have hrest := ihrest htame.2 (by rw [Stmt.seq.sizeOf_spec]; omega) hheld
      rwa [exec] at hrest
    · exact .pure hflow
  | @last _ s list _ _ ih =>
    simp only [Stmt.tame, Stmt.tameAll, Bool.and_eq_true] at htame
    simp only [Stmt.seq.sizeOf_spec, List.cons.sizeOf_spec] at hsize
    rw [exec, execAll]
    refine (ih htame.1 (by omega) hτ).bind ?_
    rintro (σ' | ⟨loop, σ'⟩) k1 τ' - hflow
    · cases hflow.1
    · exact .pure hflow
  | @decided _ condition holds yes no _ _ hfold _ ih =>
    simp only [Stmt.tame, Bool.and_eq_true] at htame
    rw [Stmt.ite.sizeOf_spec] at hsize
    rw [exec]
    by_cases hwrong : test e condition σ = .wrong
    · rw [hwrong]
      trivial
    · rw [← test_fold htame.1 hwrong, hfold, test, Run.result_bind]
      cases holds with
      | true => exact ih htame.2.1 (by simp only [if_true]; omega) hτ
      | false => exact ih htame.2.2 (by simp only [Bool.false_eq_true, if_false]; omega) hτ
  | @ite _ condition yes no _ first second _ _ _ hdecides _ _ hfirst hsecond ihyes ihno =>
    simp only [Stmt.tame, Bool.and_eq_true] at htame
    rw [Stmt.ite.sizeOf_spec] at hsize
    rw [exec]
    by_cases hwrong : test e condition σ = .wrong
    · rw [hwrong]
      trivial
    · rw [← test_fold htame.1 hwrong]
      refine (simulates_decides hagrees hdecides hτ).bind ?_
      rintro ⟨holds, σ'⟩ k1 τ' - ⟨rfl, hheld⟩
      cases holds with
      | true => exact (ihyes htame.2.1 (by omega) hheld).joins hfirst
      | false => exact (ihno htame.2.2 (by omega) hheld).joins hsecond
  | @loop _ id name body _ header exit bodyEnd _ hback ih =>
    rw [Stmt.loop.sizeOf_spec] at hsize
    have hbody : ∀ {σ τ}, State.Held σ τ → w.Simulates bound (w.code header) τ _ (exec bound e body σ) :=
      fun hheld => ih htame (by omega) hheld
    rw [exec]
    refine Simulates.of_leads (leads_branch ..) ?_
    by_cases hrunning : iterate id (exec bound e body) bound σ = .running
    · rw [hrunning]
      exact iterate_stalls hbody hback (Nat.le_refl bound) hτ hrunning
    · exact simulates_iterate hbody hback bound hτ hrunning
  | @dispatch _ i t rest cases otherwise targets ends k restEnd k' hkeys hlength _ _ hends hrestEnd ihcases
      ihrest =>
    simp only [Stmt.tame, Bool.and_eq_true] at htame
    rw [Stmt.dispatch.sizeOf_spec] at hsize
    rw [exec]
    cases hm : e.matcher i with
    | none => trivial
    | some m =>
      obtain ⟨hσ, temps, rfl⟩ := hτ
      have hheld : ∀ temps', σ.Held (σ.holding temps') := fun temps' => ⟨hσ, temps', rfl⟩
      rw [Run.ofOption, Run.result_bind]
      rcases target_cases hkeys bound e σ (some rest) with ⟨hnone, htarget⟩ | ⟨j, c, t, hc, ht, hexec, htarget⟩
      · rw [hnone]
        exact ((ihrest htame.2 (by omega) (hheld _)).joins hrestEnd).of_leads (leads_dispatch hagrees hm htarget k)
      · rw [hexec]
        have hmem := List.mem_of_getElem? hc
        have hlt := (List.getElem?_eq_some_iff.1 hc).1
        obtain ⟨he, hend⟩ : ∃ e, ends[j]? = some e := ⟨_, List.getElem?_eq_getElem (hlength ▸ hlt)⟩
        have hsizec := List.sizeOf_lt_of_mem hmem
        have hsizes : sizeOf c.2 < sizeOf c := by
          obtain ⟨key, s⟩ := c
          show sizeOf s < 1 + sizeOf key + sizeOf s
          omega
        refine ((ihcases j c t he hc ht hend ?_ (by omega) (hheld _)).joins
          (hends he (List.mem_of_getElem? hend))).of_leads (leads_dispatch hagrees hm htarget k)
        exact tame_of_mem htame.1 c hmem

end Fueled

/-! ## Declarations -/

/-- What is noted, with its split lists run as frames. -/
def declaredBy [Regex.Engine] (steps : Nat) (d : Notes) : Declared where
  matchers := d.matchers
  bitvecs := d.bitvecs
  splits := d.splits.map fun (i, frames) => (i, frames.map (runTree steps))

theorem declaredBy_append [Regex.Engine] (steps : Nat) (a b : Notes) :
    declaredBy steps (a.append b) = (declaredBy steps a).append (declaredBy steps b) := by
  simp [declaredBy, Notes.append, Declared.append]

theorem branchesOf_eq [Regex.Engine] (steps : Nat) (frames : List Stmt) :
    branchesOf steps frames = frames.map (runTree steps) := by
  induction frames with
  | nil => rw [branchesOf, List.map_nil]
  | cons body frames ih =>
    rw [branchesOf, List.map_cons, ih]
    rfl

mutual

theorem declared_eq [Regex.Engine] (steps : Nat) : ∀ s : Stmt, declared steps s = declaredBy steps s.notes
  | .matcher .. | .bitvec .. => by
    rw [declared, Stmt.notes]
    rfl
  | .splitList id frames => by
    rw [declared, Stmt.notes, branchesOf_eq]
    rfl
  | .seq list => by rw [declared, Stmt.notes, declaredAll_eq]
  | .ite condition yes no => by
    rw [declared, Stmt.notes, declared_eq steps yes, declared_eq steps no, ← declaredBy_append]
    cases condition.fold with
    | bool holds => cases holds <;> rfl
    | _ => rfl
  | .loop _ _ body => by rw [declared, Stmt.notes, declared_eq]
  | .dispatch _ cases otherwise => by
    rw [declared, Stmt.notes, declaredCases_eq, declared_eq, declaredBy_append]
  | .nop | .valid | .invalid _ | .leave _ | .token | .consume | .untoken | .frame _ | .counter ..
  | .uniqueSet _ | .bitSet .. | .bitClear .. | .incr _ | .decr _ | .splitBits .. | .block _ | .branch _
  | .branchIf .. | .move .. | .call _ | .branchCase .. => by
    simp only [declared, Stmt.notes]
    rfl

theorem declaredAll_eq [Regex.Engine] (steps : Nat) :
    ∀ list : List Stmt, declaredAll steps list = declaredBy steps (Stmt.notesOf list)
  | [] => by
    rw [declaredAll, Stmt.notesOf]
    rfl
  | s :: rest => by
    rw [declaredAll, Stmt.notesOf, declared_eq, declaredAll_eq, declaredBy_append]

theorem declaredCases_eq [Regex.Engine] (steps : Nat) :
    ∀ cases : List (UInt32 × Stmt), declaredCases steps cases = declaredBy steps (Stmt.notesOfCases cases)
  | [] => by
    rw [declaredCases, Stmt.notesOfCases]
    rfl
  | (_, s) :: rest => by
    rw [declaredCases, Stmt.notesOfCases, declared_eq, declaredCases_eq, declaredBy_append]

end

theorem tameAll_mem {list : List Stmt} (h : Stmt.tameAll list = true) : ∀ s ∈ list, s.tame = true := by
  induction list with
  | nil => simp
  | cons s list ih =>
    rw [Stmt.tameAll, Bool.and_eq_true] at h
    exact List.forall_mem_cons.2 ⟨h.1, ih h.2⟩

def Smaller (n : Nat) (splits : List (Nat × List Stmt)) : Prop :=
  ∀ p ∈ splits, ∀ body ∈ p.2, sizeOf body < n ∧ body.tame = true

theorem Smaller.mono {m n : Nat} {splits : List (Nat × List Stmt)} (h : Smaller m splits) (hle : m ≤ n) :
    Smaller n splits := fun p hp body hbody =>
  ⟨Nat.lt_of_lt_of_le (h p hp body hbody).1 hle, (h p hp body hbody).2⟩

theorem Smaller.append {n : Nat} {splits splits' : List (Nat × List Stmt)} (h : Smaller n splits)
    (h' : Smaller n splits') : Smaller n (splits ++ splits') :=
  List.forall_mem_append.2 ⟨h, h'⟩

mutual

/-- The frames of split lists are smaller than the statement that declares them, and tame with it. -/
theorem notes_smaller (s : Stmt) (htame : s.tame = true) : Smaller (sizeOf s) s.notes.splits := by
  cases s with
  | splitList id frames =>
    rw [Stmt.notes, Stmt.splitList.sizeOf_spec]
    refine List.forall_mem_singleton.2 fun body hbody => ?_
    have hlt : sizeOf body < sizeOf frames := List.sizeOf_lt_of_mem hbody
    exact ⟨by omega, tameAll_mem htame body hbody⟩
  | seq list =>
    rw [Stmt.notes, Stmt.seq.sizeOf_spec]
    exact (notesOf_smaller list htame).mono (by omega)
  | ite condition yes no =>
    simp only [Stmt.tame, Bool.and_eq_true] at htame
    have hyes := notes_smaller yes htame.2.1
    have hno := notes_smaller no htame.2.2
    rw [Stmt.notes, Stmt.ite.sizeOf_spec]
    split
    · exact hyes.mono (by omega)
    · exact hno.mono (by omega)
    · exact (hyes.mono (by omega)).append (hno.mono (by omega))
  | loop _ _ body =>
    rw [Stmt.notes, Stmt.loop.sizeOf_spec]
    exact (notes_smaller body htame).mono (by omega)
  | dispatch _ cases otherwise =>
    simp only [Stmt.tame, Bool.and_eq_true] at htame
    rw [Stmt.notes, Stmt.dispatch.sizeOf_spec]
    exact ((notesOfCases_smaller cases htame.1).mono (by omega)).append
      ((notes_smaller otherwise htame.2).mono (by omega))
  | _ =>
    simp only [Stmt.notes]
    exact List.forall_mem_nil _

theorem notesOf_smaller (list : List Stmt) (htame : Stmt.tameAll list = true) :
    Smaller (sizeOf list) (Stmt.notesOf list).splits := by
  cases list with
  | nil => exact List.forall_mem_nil _
  | cons s rest =>
    rw [Stmt.tameAll, Bool.and_eq_true] at htame
    rw [Stmt.notesOf, List.cons.sizeOf_spec]
    exact ((notes_smaller s htame.1).mono (by omega)).append ((notesOf_smaller rest htame.2).mono (by omega))

theorem notesOfCases_smaller (cases : List (UInt32 × Stmt)) (htame : Stmt.tameCases cases = true) :
    Smaller (sizeOf cases) (Stmt.notesOfCases cases).splits := by
  cases cases with
  | nil => exact List.forall_mem_nil _
  | cons c rest =>
    obtain ⟨k, s⟩ := c
    rw [Stmt.tameCases, Bool.and_eq_true] at htame
    rw [Stmt.notesOfCases, List.cons.sizeOf_spec, Prod.mk.sizeOf_spec]
    exact ((notes_smaller s htame.1).mono (by omega)).append ((notesOfCases_smaller rest htame.2).mono (by omega))

end

/-- Things that are found under a number in two lists with the same numbers. -/
theorem lookup_forall₂ {β : Type} (R : α → β → Prop) {xs : List (Nat × α)} {ys : List (Nat × β)}
    (h : List.Forall₂ (fun a b => a.1 = b.1 ∧ R a.2 b.2) xs ys) {i : Nat} {b : β}
    (hb : ys.lookup i = some b) : (i, b) ∈ ys ∧ ∃ a, xs.lookup i = some a ∧ R a b := by
  induction h with
  | nil => cases hb
  | @cons x y xs ys hxy _ ih =>
    obtain ⟨j, x⟩ := x
    obtain ⟨j', y⟩ := y
    obtain ⟨rfl, hxy⟩ : j = j' ∧ R x y := hxy
    rw [List.lookup_cons] at hb ⊢
    by_cases hi : i = j
    · subst hi
      rw [beq_self_eq_true] at hb ⊢
      cases hb
      exact ⟨List.mem_cons_self .., x, rfl, hxy⟩
    · rw [beq_false_of_ne hi] at hb ⊢
      obtain ⟨hmem, a, ha⟩ := ih hb
      exact ⟨List.mem_cons_of_mem _ hmem, a, ha⟩

theorem lookup_map {β : Type} (f : α → β) (xs : List (Nat × α)) (i : Nat) :
    (xs.map fun (j, a) => (j, f a)).lookup i = (xs.lookup i).map f := by
  induction xs with
  | nil => rfl
  | cons x xs ih =>
    rw [List.map_cons, List.lookup_cons, List.lookup_cons, ih]
    cases i == x.1 <;> rfl

section

variable [Regex.Engine] {frameAt : Nat → Stmt → Prop}

theorem forall₂_follows {call : Nat → Nat → Nat → Position → Option Outcome} {frames : List Stmt} {ids : List Nat}
    (hids : List.Forall₂ frameAt ids (Stmt.simplifiedAll frames))
    (hframes : ∀ body ∈ frames, ∀ f, frameAt f body.simplified →
      ∀ p, Follows bound (fun m d => call m d f p) (runTree bound body p)) :
    List.Forall₂ (fun branch run => ∀ p, Follows bound (fun n d => run n d p) (branch p))
      (frames.map (runTree bound)) (ids.map fun f n d => call n d f) := by
  induction frames generalizing ids with
  | nil =>
    cases hids
    exact .nil
  | cons body frames ih =>
    rw [Stmt.simplifiedAll] at hids
    obtain ⟨f, ids', hf, hids', rfl⟩ := List.forall₂_cons_right_iff.1 hids
    exact .cons (hframes body (.head _) f hf) (ih hids' fun body' hbody' => hframes body' (.tail _ hbody'))

theorem agrees_of_registers (call : Nat → Nat → Nat → Position → Option Outcome) {body : Stmt} {decls : Decls}
    (htame : body.tame = true) (hregisters : Registers frameAt body.notes {} decls)
    (hcall : ∀ (f : Nat) (b : Stmt), sizeOf b < sizeOf body → b.tame = true → frameAt f b.simplified →
      ∀ p, Follows bound (fun m d => call m d f p) (runTree bound b p)) :
    Agrees bound (declared bound body).setting fun m d => settingOf (call m d) decls := by
  rw [declared_eq]
  refine ⟨fun i m hm n d => ?_, fun i s hs n d => ?_, fun i branches hbranches => ?_⟩
  · rw [← hm]
    exact (hregisters.matchers.lookup i).symm
  · have hlookup := hregisters.bitvecs.lookup i
    rw [List.getElem?_map] at hlookup
    exact hlookup.symm.trans hs
  · obtain ⟨ids, hids, hrel⟩ := hregisters.splits
    have hlookup : (body.notes.splits.lookup i).map (List.map (runTree bound)) = some branches :=
      (lookup_map _ _ i).symm.trans hbranches
    obtain ⟨frames, hframes, rfl⟩ := Option.map_eq_some_iff.1 hlookup
    obtain ⟨hmem, list, hlist, hforall⟩ :=
      lookup_forall₂ (fun list frames => List.Forall₂ frameAt list (Stmt.simplifiedAll frames)) hrel hframes
    rw [hids.lookup] at hlist
    refine ⟨list.map fun f n d => call n d f, fun n d => ?_, forall₂_follows hforall fun b hb f hf => ?_⟩
    · show (decls.splits[i]?).map _ = _
      rw [hlist, List.map_map]
      rfl
    · obtain ⟨hlt, htame'⟩ := notes_smaller body htame _ hmem b hb
      exact hcall f b hlt htame' hf

/-! ## Frames -/

/-- A frame of the graph runs as the body from which it has been laid out. The induction is on the size of
the body: nested frames and the frames of split lists are smaller. -/
theorem runTree_follows {bodies : List Stmt} {g : Graph} (hnumbered : Numbered 0 bodies g) (bound : Nat)
    (body : Stmt) (htame : body.tame = true) (i : Nat) (hi : bodies[i]? = some body.simplified)
    (p : Position) : Follows bound (fun m d => runGraph g m d i p) (runTree bound body p) := by
  induction hsize : sizeOf body using Nat.strongRecOn generalizing body i p with
  | _ size ih =>
  have hcall : ∀ (f : Nat) (b : Stmt), sizeOf b < sizeOf body → b.tame = true → bodies[f]? = some b.simplified →
      ∀ p, Follows bound (fun m d => runGraph g m d f p) (runTree bound b p) :=
    fun f b hlt htame' hf p => ih (sizeOf b) (hsize ▸ hlt) b htame' f hf p rfl
  obtain ⟨frame, hframe⟩ : ∃ frame, g[i]? = some frame :=
    ⟨_, List.getElem?_eq_getElem (hnumbered.length_eq ▸ (List.getElem?_eq_some_iff.1 hi).1)⟩
  obtain ⟨next, nested, hlay, -, hnested⟩ := hnumbered.frame i _ frame hi hframe
  have hlaid := layFrame_spans htame hlay
  have hframes : ∀ k b, nested[k]? = some b → bodies[next + k]? = some b :=
    fun k b hk => (hnested k b hk).2
  have hagrees := agrees_of_registers (fun m d => runGraph g m d) htame
    (hlaid.registers (fun f b => bodies[f]? = some b) hframes) hcall
  let w : Fueled := {
    setting := fun m d => settingOf (runGraph g m d) frame.decls
    call := fun m d => runGraph g m d
    code := codeOf frame.body }
  have hheld : (State.start none p).Held (State.start (some 0) p) := ⟨fun _ => rfl, _, rfl⟩
  have hsim : w.Simulates bound _ _ _ _ := w.simulates_exec hagrees hcall
    (hlaid.spans (fun f b => bodies[f]? = some b) hframes) htame (Nat.le_refl _) hheld
  -- an activation is a walk from its first block
  have hrun : ∀ m d, runGraph g m (d + 1) i p = w.walk m d m (codeOf frame.body 0) (.start (some 0) p) :=
    fun m d => by
      rw [runGraph, hframe]
      rfl
  rw [runTree]
  cases hexec : exec bound (declared bound body).setting body (.start none p) with
  | running =>
    rw [hexec] at hsim
    intro m hm d
    cases d with
    | zero => rfl
    | succ d => exact (hrun m d).trans (hsim m hm d m hm)
  | result flow => trivial
  | ends o =>
    rw [hexec] at hsim
    have hends : w.Ends (codeOf frame.body 0) (.start (some 0) p) o →
        Follows bound (fun m d => runGraph g m d i p) (some o) := by
      rintro ⟨j, m0, d0, hlate⟩
      have hlate' : ∀ m ≥ max j m0, ∀ d ≥ d0 + 1, runGraph g m d i p = some o := by
        intro m hm d hd
        obtain ⟨d, rfl⟩ : ∃ d', d = d' + 1 := ⟨d - 1, by omega⟩
        rw [hrun]
        exact hlate m (by omega) d (by omega) m (by omega)
      have hall : ∀ m d, runGraph g m d i p = none ∨ runGraph g m d i p = some o := by
        intro m d
        cases hother : runGraph g m d i p with
        | none => exact .inl rfl
        | some o' => exact .inr (congrArg some (runGraph_unique hother
            (hlate' _ (Nat.le_refl _) _ (Nat.le_refl _))))
      cases o with
      | wrong => trivial
      | _ => exact ⟨⟨_, _, hlate'⟩, hall⟩
    cases o with
    | wrong => trivial
    | _ => exact hends hsim

omit [Regex.Engine] in
theorem getElem?_simplifiedAll {list : List Stmt} {i : Nat} {s : Stmt} (h : list[i]? = some s) :
    (Stmt.simplifiedAll list)[i]? = some s.simplified := by
  induction list generalizing i with
  | nil => cases h
  | cons t list ih =>
    rw [Stmt.simplifiedAll]
    cases i with
    | zero =>
      cases h
      rfl
    | succ i => exact ih h

/-- The graph of a tame tree reaches from every position the outcome that the tree reaches, and none if the
tree reaches none: no amount of fuel lets the one come to an end if the other does not. Programs that make
no sense at this position are left out. -/
theorem runGraph_iff_runTree {t : Tree} {g : Graph} (h : ofTree t = .ok g) (htame : Stmt.tameAll t = true)
    {i : Nat} {body : Stmt} (hbody : t[i]? = some body) (p : Position)
    (hsense : ∀ steps, runTree steps body p ≠ some .wrong) (o : Outcome) :
    (∃ steps depth, runGraph g steps depth i p = some o) ↔ ∃ steps, runTree steps body p = some o := by
  obtain ⟨bodies, hprefix, hnumbered⟩ := ofTree_numbered htame h
  have hi : bodies[i]? = some body.simplified := by
    have hsimplified := getElem?_simplifiedAll hbody
    obtain ⟨more, rfl⟩ := hprefix
    rw [List.getElem?_append_left (List.getElem?_eq_some_iff.1 hsimplified).1, hsimplified]
  have hfollows := fun steps => runTree_follows hnumbered steps body
    (tameAll_mem htame body (List.mem_of_getElem? hbody)) i hi p
  constructor
  · rintro ⟨steps, depth, hrun⟩
    have hfollow := hfollows steps
    refine ⟨steps, ?_⟩
    cases htree : runTree steps body p with
    | none =>
      rw [htree] at hfollow
      have hnone : runGraph g steps depth i p = none := hfollow steps (Nat.le_refl _) depth
      rw [hrun] at hnone
      cases hnone
    | some o' =>
      rw [htree] at hfollow
      have hsame : ∀ m d, runGraph g m d i p = none ∨ runGraph g m d i p = some o' := by
        cases o' with
        | wrong => exact absurd htree (hsense steps)
        | _ => exact hfollow.2
      rcases hsame steps depth with hnone | hsome
      · rw [hrun] at hnone
        cases hnone
      · rw [hrun] at hsome
        exact hsome.symm
  · rintro ⟨steps, htree⟩
    have hfollow := hfollows steps
    rw [htree] at hfollow
    have hlate : ∃ m0 d0, ∀ m ≥ m0, ∀ d ≥ d0, runGraph g m d i p = some o := by
      cases o with
      | wrong => exact absurd htree (hsense steps)
      | _ => exact hfollow.1
    obtain ⟨m, d, hlate⟩ := hlate
    exact ⟨m, d, hlate m (Nat.le_refl m) d (Nat.le_refl d)⟩

end

/-- Accepts arrays of at least two nulls: every item is looked at by a frame of a split list and skipped by
a nested frame. -/
def twoNulls : Stmt := .seq [ .counter 0 "items",
  .splitList 0 [.seq [.token, .ite (.isToken .null) .valid (.invalid .unexpectedToken)]], .token,
  .ite (.not (.isToken .arrayBegin)) (.invalid .unexpectedToken) .nop, .loop 0 "array" (.seq [ .token,
    .ite (.isToken .arrayEnd) (.leave 0) .nop, .untoken,
    .ite (.compare .eq (.split 0) (.size 1)) (.frame (.seq [.token, .consume, .valid]))
      (.invalid .invalidSplitCondition), .incr 0]),
  .ite (.compare .ge (.count 0) (.size 2)) .valid (.invalid .tooFewItems)]

def beforeNulls : Position := ⟨.none, none, [.arrayBegin, .null, .null, .arrayEnd], false⟩

theorem runGraph_twoNulls : ∃ g, ofTree [twoNulls] = .ok g ∧ Stmt.tameAll [twoNulls] = true ∧
    (∀ steps, runTree steps twoNulls beforeNulls ≠ some .wrong) ∧
    ∃ steps depth, runGraph g steps depth 0 beforeNulls = some (.valid ⟨.arrayEnd, some .arrayEnd, [], false⟩) := by
  obtain ⟨g, hg⟩ : ∃ g, ofTree [twoNulls] = .ok g := by
    have hok : (ofTree [twoNulls]).toBool = true := by cbv
    cases h : ofTree [twoNulls] with
    | ok g => exact ⟨g, rfl⟩
    | error e =>
      rw [h] at hok
      cases hok
  have htame : Stmt.tameAll [twoNulls] = true := by decide
  -- two times around the loop for the items, a third time for the end
  have hruns : ∀ steps, runTree (steps + 3) twoNulls beforeNulls =
      some (.valid ⟨.arrayEnd, some .arrayEnd, [], false⟩) := fun _ => rfl
  have hsense : ∀ steps, runTree steps twoNulls beforeNulls ≠ some .wrong := by
    intro steps
    rcases steps with _ | _ | _ | steps
    · rintro ⟨⟩
    · rintro ⟨⟩
    · rintro ⟨⟩
    · rw [hruns]
      rintro ⟨⟩
  exact ⟨g, hg, htame, hsense, (runGraph_iff_runTree hg htame rfl beforeNulls hsense _).2 ⟨3, hruns 0⟩⟩

end JsonSieve.Running
