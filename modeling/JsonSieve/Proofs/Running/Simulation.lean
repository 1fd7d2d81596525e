import JsonSieve.Proofs.Running.Graph

/-!
# Runs with more and more fuel

Means to compare one run, which has some fuel for its loops, with the runs of a graph, one for each amount of
fuel. `Tracks` compares single steps: the runs of the graph come to the same end when they have enough
fuel, and they come to none if the first run does not and they have no more fuel than it. `Simulates`
compares what remains to be done: it is closed under sequencing (`Simulates.bind`), and one step of a
block is one instance of it (`simulates_step`).
-/

namespace JsonSieve.Running

variable {α β γ : Type}

/-! ## Steps -/

/-- All runs that come to an end come to the same end, and they do so with enough fuel. -/
def Tends (f : Nat → Nat → Run α) (r : Run α) : Prop :=
  (∃ m0 d0, ∀ m ≥ m0, ∀ d ≥ d0, f m d = r) ∧ ∀ m d, f m d = .running ∨ f m d = r

/-- The runs `f` go as `r`, which has `bound` fuel. Nothing is said if `r` goes wrong. -/
def Tracks (bound : Nat) (f : Nat → Nat → Run α) : Run α → Prop
  | .running => ∀ m ≤ bound, ∀ d, f m d = .running
  | .ends .wrong => True
  | r => Tends f r

theorem Tends.const (r : Run α) : Tends (fun _ _ => r) r :=
  ⟨⟨0, 0, fun _ _ _ _ => rfl⟩, fun _ _ => .inr rfl⟩

theorem Tends.bind {f : Nat → Nat → Run α} {r : Run α} (h : Tends f r) {k : Nat → Nat → α → Run β}
    (k' : α → Run β) (hk : ∀ a, r = .result a → Tends (fun m d => k m d a) (k' a)) :
    Tends (fun m d => f m d >>= k m d) (r >>= k') := by
  obtain ⟨⟨m1, d1, h1⟩, hall⟩ := h
  have hall' : ∀ m d, f m d >>= k m d = .running ∨ f m d >>= k m d = r >>= k m d := fun m d => by
    rcases hall m d with hrunning | hsame
    · rw [hrunning]
      exact .inl rfl
    · rw [hsame]
      exact .inr rfl
  cases r with
  | result a =>
    obtain ⟨⟨m2, d2, h2⟩, hall2⟩ := hk a rfl
    refine ⟨⟨max m1 m2, max d1 d2, fun m hm d hd => ?_⟩, fun m d => ?_⟩
    · have hfirst := h1 m (Nat.le_trans (Nat.le_max_left ..) hm) d (Nat.le_trans (Nat.le_max_left ..) hd)
      dsimp only
      rw [hfirst]
      exact h2 m (Nat.le_trans (Nat.le_max_right ..) hm) d (Nat.le_trans (Nat.le_max_right ..) hd)
    · rcases hall' m d with hrunning | hsame
      · exact .inl hrunning
      · rcases hall2 m d with hrunning | hsame2
        · exact .inl (hsame.trans hrunning)
        · exact .inr (hsame.trans hsame2)
  | ends o => exact ⟨⟨m1, d1, fun m hm d hd => by dsimp only; rw [h1 m hm d hd]; rfl⟩, hall'⟩
  | running => exact ⟨⟨m1, d1, fun m hm d hd => by dsimp only; rw [h1 m hm d hd]; rfl⟩, hall'⟩

namespace Tracks

variable {bound : Nat}

theorem const (r : Run α) : Tracks bound (fun _ _ => r) r := by
  unfold Tracks
  split
  · exact fun _ _ _ => rfl
  · trivial
  · exact Tends.const r

theorem bind {f : Nat → Nat → Run α} {r : Run α} (h : Tracks bound f r) {k : Nat → Nat → α → Run β}
    {k' : α → Run β} (hk : ∀ a, r = .result a → Tracks bound (fun m d => k m d a) (k' a)) :
    Tracks bound (fun m d => f m d >>= k m d) (r >>= k') := by
  cases r with
  | running =>
    intro m hm d
    dsimp only
    rw [h m hm d]
    rfl
  | ends o =>
    cases o with
    | wrong => trivial
    | _ => exact Tends.bind h k' fun a ha => nomatch ha
  | result a =>
    have hk := hk a rfl
    rw [Run.result_bind]
    cases hr : k' a with
    | running =>
      rw [hr] at hk
      intro m hm d
      dsimp only
      rcases h.2 m d with hrunning | hsame
      · rw [hrunning]
        rfl
      · rw [hsame]
        exact hk m hm d
    | ends o =>
      rw [hr] at hk
      cases o with
      | wrong => trivial
      | _ => exact Tends.bind h (fun _ => _) fun b hb => by cases hb; exact hk
    | result b =>
      rw [hr] at hk
      exact Tends.bind h (fun _ => .result b) fun b hb => by cases hb; exact hk

theorem map {f : Nat → Nat → Run α} {r : Run α} (h : Tracks bound f r) (g : α → β) :
    Tracks bound (fun m d => g <$> f m d) (g <$> r) :=
  h.bind fun _ _ => const _

end Tracks

/-! ## Places -/

/-- How the activations of a frame are run with any amount of fuel. -/
structure Fueled where
  setting : Nat → Nat → Setting
  call : Nat → Nat → Nat → Position → Option Outcome
  code : Nat → List Stmt

namespace Fueled

variable [Regex.Engine]

/-- What an activation comes to from a place on. -/
def walk (w : Fueled) (m d : Nat) : Nat → List Stmt → State → Option Outcome :=
  Running.walk (w.setting m d) (w.call m d) w.code

def step (w : Fueled) (s : Stmt) (τ : State) (m d : Nat) : Run Move :=
  Running.step (w.setting m d) (w.call m d) s τ

structure Leads (w : Fueled) (k : List Stmt) (τ : State) (k' : List Stmt) (τ' : State) : Prop where
  forth : ∃ j m0 d0, ∀ m ≥ m0, ∀ d ≥ d0, ∀ n, w.walk m d (n + j) k τ = w.walk m d n k' τ'
  back : ∀ m d n o, w.walk m d n k τ = some o → ∃ n' ≤ n, w.walk m d n' k' τ' = some o

def Ends (w : Fueled) (k : List Stmt) (τ : State) (o : Outcome) : Prop :=
  ∃ j m0 d0, ∀ m ≥ m0, ∀ d ≥ d0, ∀ n ≥ j, w.walk m d n k τ = some o

def Stalls (w : Fueled) (bound : Nat) (k : List Stmt) (τ : State) : Prop :=
  ∀ m ≤ bound, ∀ d, ∀ n ≤ bound, w.walk m d n k τ = none

/-- The activations go from a place as a run does, which has `bound` fuel: to a place that is right for its
result, to its end, or not to an end. -/
def Simulates (w : Fueled) (bound : Nat) (k : List Stmt) (τ : State)
    (post : α → List Stmt → State → Prop) : Run α → Prop
  | .running => w.Stalls bound k τ
  | .ends .wrong => True
  | .ends o => w.Ends k τ o
  | .result a => ∃ k' τ', post a k' τ' ∧ w.Leads k τ k' τ'

variable {w : Fueled} {bound : Nat} {k k' k'' : List Stmt} {τ τ' τ'' : State} {o : Outcome}

namespace Leads

theorem refl (k : List Stmt) (τ : State) : w.Leads k τ k τ :=
  ⟨⟨0, 0, 0, fun _ _ _ _ _ => rfl⟩, fun _ _ n _ h => ⟨n, Nat.le_refl n, h⟩⟩

theorem trans (h : w.Leads k τ k' τ') (h' : w.Leads k' τ' k'' τ'') : w.Leads k τ k'' τ'' := by
  refine ⟨?_, fun m d n o hwalk => ?_⟩
  · obtain ⟨j1, m1, d1, h1⟩ := h.forth
    obtain ⟨j2, m2, d2, h2⟩ := h'.forth
    refine ⟨j2 + j1, max m1 m2, max d1 d2, fun m hm d hd n => ?_⟩
    rw [← Nat.add_assoc, h1 m (Nat.le_trans (Nat.le_max_left ..) hm) d (Nat.le_trans (Nat.le_max_left ..) hd),
      h2 m (Nat.le_trans (Nat.le_max_right ..) hm) d (Nat.le_trans (Nat.le_max_right ..) hd)]
  · obtain ⟨n1, hle1, hwalk1⟩ := h.back m d n o hwalk
    obtain ⟨n2, hle2, hwalk2⟩ := h'.back m d n1 o hwalk1
    exact ⟨n2, Nat.le_trans hle2 hle1, hwalk2⟩

theorem ends (h : w.Leads k τ k' τ') (hends : w.Ends k' τ' o) : w.Ends k τ o := by
  obtain ⟨j1, m1, d1, h1⟩ := h.forth
  obtain ⟨j2, m2, d2, h2⟩ := hends
  refine ⟨j2 + j1, max m1 m2, max d1 d2, fun m hm d hd n hn => ?_⟩
  obtain ⟨n', rfl⟩ : ∃ n', n = n' + j1 := ⟨n - j1, by omega⟩
  rw [h1 m (Nat.le_trans (Nat.le_max_left ..) hm) d (Nat.le_trans (Nat.le_max_left ..) hd),
    h2 m (Nat.le_trans (Nat.le_max_right ..) hm) d (Nat.le_trans (Nat.le_max_right ..) hd) n' (by omega)]

theorem stalls (h : w.Leads k τ k' τ') (hstalls : w.Stalls bound k' τ') : w.Stalls bound k τ := by
  intro m hm d n hn
  cases hwalk : w.walk m d n k τ with
  | none => rfl
  | some o =>
    obtain ⟨n', hle, hwalk'⟩ := h.back m d n o hwalk
    rw [hstalls m hm d n' (Nat.le_trans hle hn)] at hwalk'
    cases hwalk'

end Leads

namespace Simulates

variable {post : α → List Stmt → State → Prop} {post' : β → List Stmt → State → Prop} {r : Run α}

theorem of_leads (hleads : w.Leads k τ k' τ') (h : w.Simulates bound k' τ' post r) : w.Simulates bound k τ post r := by
  cases r with
  | running => exact hleads.stalls h
  | ends o =>
    cases o with
    | wrong => trivial
    | _ => exact hleads.ends h
  | result a =>
    obtain ⟨k'', τ'', hpost, hleads'⟩ := h
    exact ⟨k'', τ'', hpost, hleads.trans hleads'⟩

theorem bind (h : w.Simulates bound k τ post r) {f : α → Run β}
    (hf : ∀ a k' τ', r = .result a → post a k' τ' → w.Simulates bound k' τ' post' (f a)) :
    w.Simulates bound k τ post' (r >>= f) := by
  cases r with
  | running => exact h
  | ends o =>
    cases o with
    | wrong => trivial
    | _ => exact h
  | result a =>
    obtain ⟨k', τ', hpost, hleads⟩ := h
    exact (hf a k' τ' rfl hpost).of_leads hleads

theorem pure {a : α} (h : post a k τ) : w.Simulates bound k τ post (.result a) :=
  ⟨k, τ, h, .refl k τ⟩

theorem mono {post' : α → List Stmt → State → Prop} (h : w.Simulates bound k τ post r)
    (himp : ∀ a k' τ', r = .result a → post a k' τ' → post' a k' τ') : w.Simulates bound k τ post' r := by
  rw [← bind_pure r]
  exact h.bind fun a k' τ' hr hpost => .pure (himp a k' τ' hr hpost)

theorem of_map {f : α → β} (h : w.Simulates bound k τ post' (f <$> r)) :
    w.Simulates bound k τ (fun a => post' (f a)) r := by
  cases r with
  | running => exact h
  | ends o =>
    cases o with
    | wrong => trivial
    | _ => exact h
  | result a => exact h

end Simulates

def Goes (w : Fueled) (rest : List Stmt) (move : Move) (k : List Stmt) (τ : State) : Prop :=
  match move with
  | .next τ' => k = rest ∧ τ = τ'
  | .jump b τ' => k = w.code b ∧ τ = τ'

variable {d m n : Nat} {rest : List Stmt} {s : Stmt}

theorem walk_result {move : Move} (hstep : w.step s τ m d = .result move) (hgoes : w.Goes rest move k' τ') :
    w.walk m d (n + 1) (s :: rest) τ = w.walk m d n k' τ' := by
  rw [walk, Running.walk]
  rw [step] at hstep
  rw [hstep]
  cases move <;> (obtain ⟨rfl, rfl⟩ := hgoes; rfl)

theorem walk_ends (hstep : w.step s τ m d = .ends o) : w.walk m d (n + 1) (s :: rest) τ = some o := by
  rw [walk, Running.walk]
  rw [step] at hstep
  rw [hstep]

theorem walk_running (hstep : w.step s τ m d = .running) : w.walk m d n (s :: rest) τ = none := by
  cases n with
  | zero => rfl
  | succ n =>
    rw [walk, Running.walk]
    rw [step] at hstep
    rw [hstep]

theorem leads_of_tends {move : Move} (h : Tends (w.step s τ) (.result move))
    (hgoes : w.Goes rest move k' τ') : w.Leads (s :: rest) τ k' τ' := by
  obtain ⟨⟨m0, d0, hstep⟩, hall⟩ := h
  refine ⟨⟨1, m0, d0, fun m hm d hd n => walk_result (hstep m hm d hd) hgoes⟩, fun m d n o hwalk => ?_⟩
  rcases hall m d with hrunning | hresult
  · rw [walk_running hrunning] at hwalk
    cases hwalk
  · cases n with
    | zero => cases hwalk
    | succ n =>
      rw [walk_result hresult hgoes] at hwalk
      exact ⟨n, Nat.le_succ n, hwalk⟩

theorem ends_of_tends (h : Tends (w.step s τ) (.ends o)) : w.Ends (s :: rest) τ o := by
  obtain ⟨⟨m0, d0, hstep⟩, -⟩ := h
  refine ⟨1, m0, d0, fun m hm d hd n hn => ?_⟩
  obtain ⟨n, rfl⟩ : ∃ n', n = n' + 1 := ⟨n - 1, by omega⟩
  exact walk_ends (hstep m hm d hd)

theorem ends_of_step (h : ∀ m d, w.step s τ m d = .ends o) : w.Ends (s :: rest) τ o :=
  ends_of_tends ⟨⟨0, 0, fun m _ d _ => h m d⟩, fun m d => .inr (h m d)⟩

theorem simulates_step {r : Run Move} (h : Tracks bound (w.step s τ) r) :
    w.Simulates bound (s :: rest) τ (w.Goes rest) r := by
  cases r with
  | running => exact fun m hm d n _ => walk_running (h m hm d)
  | ends o =>
    cases o with
    | wrong => trivial
    | _ => exact ends_of_tends h
  | result move =>
    cases move with
    | next τ' => exact ⟨rest, τ', ⟨rfl, rfl⟩, leads_of_tends h ⟨rfl, rfl⟩⟩
    | jump b τ' => exact ⟨w.code b, τ', ⟨rfl, rfl⟩, leads_of_tends h ⟨rfl, rfl⟩⟩

theorem leads_branch (b : Nat) (rest : List Stmt) (τ : State) : w.Leads (.branch b :: rest) τ (w.code b) τ :=
  leads_of_tends (Tends.const _) ⟨rfl, rfl⟩

theorem walk_branch {b : Nat} (h : w.walk m d n (.branch b :: rest) τ = some o) :
    ∃ n', n = n' + 1 ∧ w.walk m d n' (w.code b) τ = some o := by
  cases n with
  | zero => cases h
  | succ n => exact ⟨n, rfl, h⟩

end Fueled

end JsonSieve.Running
