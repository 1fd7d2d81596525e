import JsonSieve.Proofs.Graph.Laying
import JsonSieve.Proofs.Session.Chunking
import JsonSieve.Schema
import JsonSieve.Regex.Builtin

/-!
# Sessions with limits

A call that exceeds a limit answers with an error and leaves the session at a point of the run over the
whole text: a later call goes on from there. So the statuses of a limited session are those of the free
session (`status_of_limited`). The depth of calls is the exception: the error comes when the
instruction that calls has already been passed, and a session that is used after it goes on behind
the call, as if the call had succeeded (`status_after_deep_call`).
-/

namespace JsonSieve

/-! ## Programs of graphs -/

namespace Constraint

def assemblyOf (shareSlots : Bool) (graph : Graph) : Except CompileError Assembly := do
  let flat ← (Flat.ofGraph graph).mapError .flat
  let facts ← Tree.sharing shareSlots flat
  (Assembly.ofFlat flat facts).mapError .assembly

variable [Regex.Engine] {c : Constraint} {tree : Tree} {graph : Graph}

def assembly (c : Constraint) (shareSlots : Bool) : Except CompileError Assembly := do
  let tree ← c.toTree.mapError .badPattern
  let graph ← (Graph.ofTree tree).mapError .graph
  assemblyOf shareSlots graph

theorem toImage_eq (c : Constraint) (shareSlots : Bool) : c.toImage shareSlots = (do
    let a ← c.assembly shareSlots
    (Image.ofAssembly a).mapError .image) := by
  simp only [toImage, Tree.toImage, assembly, assemblyOf, bind_assoc]

theorem compile_eq (c : Constraint) (shareSlots : Bool) : c.compile shareSlots = (do
    let a ← c.assembly shareSlots
    let image ← (Image.ofAssembly a).mapError .image
    (Executable.ofImage image).mapError .rejected) := by
  simp only [compile, toImage_eq, bind_assoc]

theorem assembly_of_graph (shareSlots : Bool) (htree : c.toTree = .ok tree) (hgraph : Graph.ofTree tree = .ok graph) :
    c.assembly shareSlots = assemblyOf shareSlots graph := by
  rw [assembly, htree]
  show ((Graph.ofTree tree).mapError CompileError.graph >>= _) = _
  rw [hgraph]
  rfl

/-- What the program of a constraint does is told by the program of its graph. -/
theorem exists_compile (htree : c.toTree = .ok tree) (hgraph : Graph.ofTree tree = .ok graph) {α : Type}
    {f : Executable → α} {a : α} (h : (do
      let assembly ← assemblyOf true graph
      let image ← (Image.ofAssembly assembly).mapError CompileError.image
      (Executable.ofImage image).mapError CompileError.rejected).toOption.map f = some a) :
    ∃ exe, c.compile = .ok exe ∧ f exe = a := by
  rw [← assembly_of_graph true htree hgraph, ← compile_eq] at h
  cases hexe : c.compile with
  | error e =>
    rw [hexe] at h
    cases h
  | ok exe =>
    rw [hexe] at h
    exact ⟨exe, rfl, Option.some.inj h⟩

end Constraint

open Executable (unobserved)
open Machine (Ends Last)

namespace Session

def atTime {σ : Type} (elapsed : Nat) (s : Session σ) : Session σ :=
  { s with machine := { s.machine with meter := s.machine.meter.atTime elapsed } }

/-- The answers to the chunks, each taken at its time, and last the answer to the end of the document.
A call that fails does not end the session. -/
def answers (exe : Executable) (fuel ending : Nat) :
    List (Nat × List UInt8) → Session Unit → List Answer
  | [], s => [((s.atTime ending).close exe unobserved fuel).2]
  | (time, chunk) :: calls, s =>
    let (s, answer) := (s.atTime time).more exe unobserved fuel chunk
    answer :: answers exe fuel ending calls s

/-- A session that has seen nothing of its document, and that counts what it takes. -/
def metered (meter : Meter) : Session Unit := { machine := { meter }, seen := () }

def textUpTo : List (Nat × List UInt8) → Nat → List UInt8
  | [], _ => []
  | (_, chunk) :: _, 0 => chunk
  | (_, chunk) :: calls, i + 1 => chunk ++ textUpTo calls i

def closedAt : List (Nat × List UInt8) → Nat → Bool
  | [], _ => true
  | _ :: _, 0 => false
  | _ :: calls, i + 1 => closedAt calls i

section

variable {E : Easing} {exe : Executable} {fuel ending : Nat} {rest : List UInt8} {final : Bool}
  {whole : Machine} {before : List Event} {s : Session Unit}

theorem Tracked.atTime (elapsed : Nat) (h : Tracked E exe rest final whole before s) :
    Tracked E exe rest final whole before (s.atTime elapsed) := by
  cases h with
  | running f htrailing hverdict hfollows hcontinues =>
    obtain ⟨input, meter, hawaits, hmeter, rfl⟩ := hfollows
    exact .running _ htrailing hverdict ⟨input, meter, hawaits, E.clock hmeter elapsed, rfl⟩ hcontinues
  | judged n v u hverdict hends hjudged => exact .judged n v u hverdict hends hjudged

theorem metered_tracked (exe : Executable) (rest : List UInt8) (final : Bool) {meter meter' : Meter}
    (h : E.rel meter meter') : Tracked E exe rest final
      { input := Lexer.extend rest final Lexer.empty, meter := meter' } [] (metered meter) :=
  .running _ rfl rfl ⟨_, meter', Lexer.Awaits.extended Lexer.Sound.empty, h, rfl⟩ (.refl exe _)

/-! ## What the whole run says -/

def Decided (exe : Executable) (whole : Machine) (known : Status) : Prop :=
  ∃ n events r u, Ends exe n whole events r u ∧ conclusion u r = .status known

variable {known : Status} {calls : List (Nat × List UInt8)}

theorem Decided.conclusion_eq (h : Decided exe whole known) {n : Nat}
    {events : List Event} {r : Reply} {u : Machine} (hends : Ends exe n whole events r u) :
    conclusion u r = .status known := by
  obtain ⟨n', events', r', u', hends', hdecided⟩ := h
  obtain ⟨-, rfl, rfl⟩ := hends.unique hends'
  exact hdecided

theorem Decided.unique {known' : Status} (h : Decided exe whole known)
    (h' : Decided exe whole known') : known = known' := by
  obtain ⟨n, events, r, u, hends, hdecided⟩ := h
  have hsame := (h'.conclusion_eq hends).symm.trans hdecided
  cases hsame
  rfl

theorem Decided.not_failed (h : Decided exe whole known) {n : Nat} {events : List Event}
    {e : RunError} {u : Machine} : ¬ Ends exe n whole events (.failed e) u := by
  intro hends
  cases h.conclusion_eq hends

/-- The status of a call with nothing more to come is what the whole run says. -/
theorem advance_decided (h : Tracked E exe [] false whole before s)
    (hanswer : (s.advance exe unobserved fuel).2 = .status known) :
    Decided exe whole known ∨ ¬ E.Exact ∧ ∃ n events e u, Ends exe n whole events (.failed e) u := by
  have hrunning : (s.advance exe unobserved fuel).2 ≠ .running := by
    rw [hanswer]
    nofun
  cases advance_tracked unobserved fuel h hrunning with
  | goes _ told pre _ _ _ _ hlast =>
    obtain ⟨n, r, u, hends, hconclusion, -⟩ := hlast ⟨rfl, rfl⟩
    exact .inl ⟨n, _, r, u, hends, hconclusion.symm.trans hanswer⟩
  | fails e told hfailed =>
    rw [hanswer] at hfailed
    cases hfailed
  | limit e hloose hfailed =>
    rw [hanswer] at hfailed
    cases hfailed
  | deep hloose limit depth hdeep =>
    rcases hdeep with hfailed | ⟨n, events, u, hends⟩
    · rw [hanswer] at hfailed
      cases hfailed
    · exact .inr ⟨hloose, n, events, _, u, hends⟩

theorem closing_status {answer : Answer} (h : closing answer = .status known) : answer = .status known := by
  rcases answer with ⟨_ | _ | _⟩ | _ | _
  · cases h
  all_goals exact h

/-! ## Call after call -/

def taking {σ : Type} (time : Nat) (chunk : List UInt8) (s : Session σ) : Session σ :=
  { s.atTime time with machine := (s.atTime time).machine.feed chunk }

def ended {σ : Type} (time : Nat) (s : Session σ) : Session σ :=
  { s.atTime time with closed := true, machine := (s.atTime time).machine.close }

theorem answers_cons (hclosed : s.closed = false) (time : Nat) (chunk : List UInt8)
    (calls : List (Nat × List UInt8)) : answers exe fuel ending ((time, chunk) :: calls) s =
      ((s.taking time chunk).advance exe unobserved fuel).2 ::
        answers exe fuel ending calls
          ((s.taking time chunk).advance exe unobserved fuel).1 := by
  rw [answers, more_eq (show (s.atTime time).closed = false from hclosed)]
  rfl

theorem answers_nil : answers exe fuel ending [] s =
    [closing ((s.ended ending).advance exe unobserved fuel).2] := by
  rw [answers, close_eq]
  rfl

theorem Tracked.taking {chunk : List UInt8} (time : Nat) (h : Tracked E exe (chunk ++ rest) final whole before s) :
    Tracked E exe rest final whole before (s.taking time chunk) :=
  (h.atTime time).feed chunk

theorem Tracked.ended (time : Nat) (h : Tracked E exe [] true whole before s) :
    Tracked E exe [] false whole before (s.ended time) :=
  (h.atTime time).close

/-- A session stands between the calls where the run over the text up to a call has it. -/
abbrev TrackedUpTo (E : Easing) (exe : Executable) (calls : List (Nat × List UInt8)) (i : Nat)
    (whole : Machine) (before : List Event) (s : Session Unit) : Prop :=
  Tracked E exe (textUpTo calls i) (closedAt calls i) whole before s

theorem TrackedUpTo.decided_next (h : TrackedUpTo E exe calls 0 whole before s) (hclosed : s.closed = false)
    (hanswer : (answers exe fuel ending calls s)[0]? = some (.status known)) :
    Decided exe whole known ∨ ¬ E.Exact ∧ ∃ n events e u, Ends exe n whole events (.failed e) u := by
  cases calls with
  | nil =>
    rw [answers_nil] at hanswer
    exact advance_decided (Tracked.ended ending h) (closing_status (Option.some.inj hanswer))
  | cons call calls =>
    rcases call with ⟨time, chunk⟩
    rw [answers_cons hclosed] at hanswer
    have htracked : Tracked E exe (chunk ++ []) false whole before s := by
      rw [List.append_nil]
      exact h
    exact advance_decided (htracked.taking time) (Option.some.inj hanswer)

/-- A session with the limits of the whole run whose calls all give a status: the last one is what the run
over the text up to that call says. -/
theorem decided_of_exact (hexact : E.Exact) {i : Nat}
    (h : TrackedUpTo E exe calls i whole before s) (hclosed : s.closed = false)
    (hgood : ∀ j ≤ i, ∃ known, (answers exe fuel ending calls s)[j]? = some (.status known))
    (hanswer : (answers exe fuel ending calls s)[i]? = some (.status known)) :
    Decided exe whole known := by
  induction i generalizing calls s before with
  | zero =>
    rcases h.decided_next hclosed hanswer with hdecided | ⟨hloose, -⟩
    · exact hdecided
    · exact absurd hexact hloose
  | succ i ih =>
    cases calls with
    | nil =>
      rw [answers_nil] at hanswer
      cases hanswer
    | cons call calls =>
      rcases call with ⟨time, chunk⟩
      rw [answers_cons hclosed] at hanswer hgood
      obtain ⟨known', hfirst⟩ := hgood 0 (Nat.zero_le _)
      have hfirst := Option.some.inj hfirst
      have hrunning : ((s.taking time chunk).advance exe unobserved fuel).2 ≠ .running := by
        rw [hfirst]
        nofun
      have hclosed' := (advance_closed (s.taking time chunk) :
        ((s.taking time chunk).advance exe unobserved fuel).1.closed = _).trans hclosed
      cases advance_tracked unobserved fuel (Tracked.taking time h) hrunning with
      | goes _ told pre _ _ _ hon =>
        exact ih hon hclosed' (fun j hj => hgood (j + 1) (Nat.succ_le_succ hj)) hanswer
      | fails e told hfailed =>
        rw [hfirst] at hfailed
        cases hfailed
      | limit e hloose | deep hloose => exact absurd hexact hloose

/-- A session with limits goes on where it was when a limit is exceeded, unless it was the depth of
calls. -/
theorem decided_of_limited (hopen : E.Open) {i : Nat}
    (h : TrackedUpTo E exe calls i whole before s) (hclosed : s.closed = false)
    {known' : Status} (hdecided : Decided exe whole known)
    (hcalls : ∀ j < i, ∀ answer, (answers exe fuel ending calls s)[j]? = some answer →
      answer ≠ .running ∧ ∀ limit depth, answer ≠ .failed (.limit (.callDepth limit depth)))
    (hanswer : (answers exe fuel ending calls s)[i]? = some (.status known')) : known' = known := by
  induction i generalizing calls s before with
  | zero =>
    rcases h.decided_next hclosed hanswer with hdecided' | ⟨-, n, events, e, u, hends⟩
    · exact hdecided'.unique hdecided
    · exact absurd hends hdecided.not_failed
  | succ i ih =>
    cases calls with
    | nil =>
      rw [answers_nil] at hanswer
      cases hanswer
    | cons call calls =>
      rcases call with ⟨time, chunk⟩
      rw [answers_cons hclosed] at hanswer hcalls
      obtain ⟨hrunning, hshallow⟩ := hcalls 0 (Nat.succ_pos i) _ rfl
      have hclosed' := (advance_closed (s.taking time chunk) :
        ((s.taking time chunk).advance exe unobserved fuel).1.closed = _).trans hclosed
      have hlater := fun j hj => hcalls (j + 1) (Nat.succ_lt_succ hj)
      cases advance_tracked unobserved fuel (Tracked.taking time h) hrunning with
      | goes _ told pre _ _ _ hon => exact ih hon hclosed' hlater hanswer
      | fails e told hfailed _ _ hconcludes =>
        obtain ⟨n, r, u, hends, hanswer, -⟩ := hconcludes
        rw [hfailed, hdecided.conclusion_eq hends] at hanswer
        cases hanswer
      | limit e _ _ hon =>
        obtain ⟨pre, hon⟩ := hon hopen
        exact ih hon hclosed' hlater hanswer
      | deep _ limit depth hdeep =>
        rcases hdeep with hfailed | ⟨n, events, u, hends⟩
        · exact absurd hfailed (hshallow limit depth)
        · exact absurd hends hdecided.not_failed

end

/-- The statuses of a session with limits are those of the free session, as long as no call has exceeded
the depth of calls: a call after another error answers what it would have answered without limits, or
exceeds a limit itself. -/
theorem status_of_limited (exe : Executable) (limits : Limits) (calls : List (Nat × List UInt8))
    (ending fuel fuel' i : Nat) (hfree : ∀ j ≤ i, ∃ known,
      (answers exe fuel ending calls (metered .free))[j]? = some (.status known)) (hcalls : ∀ j < i, ∀ answer,
      (answers exe fuel' ending calls (metered (.ofLimits limits)))[j]? = some answer →
        answer ≠ .running ∧ ∀ limit depth, answer ≠ .failed (.limit (.callDepth limit depth)))
    (known : Status) (hknown : (answers exe fuel' ending calls (metered (.ofLimits limits)))[i]? =
      some (.status known)) : (answers exe fuel ending calls (metered .free))[i]? = some (.status known) := by
  obtain ⟨known', hanswer⟩ := hfree i (Nat.le_refl i)
  have hlevel : Easing.uncounted.rel .free .free := ⟨rfl, nofun⟩
  have hdecided := decided_of_exact Easing.uncounted_exact
    (metered_tracked exe (textUpTo calls i) (closedAt calls i) hlevel) rfl hfree hanswer
  rw [hanswer, decided_of_limited Easing.free_open
    (metered_tracked exe (textUpTo calls i) (closedAt calls i) rfl) rfl hdecided hcalls hknown]

/-- A program that counts for a while before it accepts every value. -/
def slowStart : Executable where
  image := default
  ops := #[⟨.incr, .slot 0, .none⟩, ⟨.compareWords .lt, .slot 0, .int 341⟩,
    ⟨.branchIfSet, .address 0, .none⟩, ⟨.token, .none, .none⟩, ⟨.consume, .none, .none⟩,
    ⟨.ret, .int 0, .none⟩]
  procs := #[{ entry := 0, slots := 1 }]
  floats := #[]
  splits := #[]
  recognizers := #[]

/-- The first call takes too long; the end of the document answers as if it had not. -/
theorem status_of_limited_after_time :
    (answers slowStart 2000 5 [(4, [0x31])] (metered (.ofLimits { time := some 3 })))[0]? =
      some (.failed (.limit (.time 3 4))) ∧
    (answers slowStart 2000 5 [(4, [0x31])] (metered .free))[1]? = some (.status .valid) := by
  have hlimited : answers slowStart 2000 5 [(4, [0x31])] (metered (.ofLimits { time := some 3 })) =
      [.failed (.limit (.time 3 4)), .status .valid] := by decide +kernel
  have hfree : answers slowStart 2000 5 [(4, [0x31])] (metered .free) =
      [.status .needMore, .status .valid] := by decide +kernel
  refine ⟨by rw [hlimited]; rfl, status_of_limited slowStart { time := some 3 } [(4, [0x31])] 5 2000
    2000 1 ?_ ?_ .valid (by rw [hlimited]; rfl)⟩
  · intro j hj
    rw [hfree]
    match j, hj with
    | 0, _ => exact ⟨_, rfl⟩
    | 1, _ => exact ⟨_, rfl⟩
  · intro j hj answer hanswer
    rw [hlimited] at hanswer
    match j, hj, hanswer with
    | 0, _, hanswer =>
      cases hanswer
      exact ⟨nofun, nofun⟩

/-! ## After a call that is too deep -/

def acceptTree : Stmt := .seq [.seq [.token, .consume, .valid]]

/-- The frame that accepts the values that the other one rejects, as a tree. -/
def rejectTree : Stmt := .seq [.splitList 0 [acceptTree], .seq
  [.rejectIf (.not (.compare .eq (.split 0) (.size 0))) .invalidSplitCondition, .token, .consume, .valid]]

def rejectGraph : Graph := [ ⟨{ splits := [[1]], temps := 1 }, [
    ⟨0, "entry", [.move 0 (.split 0), .branchIf (.compare .eq (.temp 0) (.size 0)) 2 1]⟩,
    ⟨1, "then", [.invalid .invalidSplitCondition]⟩, ⟨2, "join", [.token, .consume, .valid]⟩]⟩,
  ⟨{}, [⟨0, "entry", [.token, .consume, .valid]⟩]⟩]

theorem ofTree_acceptTree : Graph.ofTree [acceptTree] = .ok [⟨{}, [⟨0, "entry", [.token, .consume, .valid]⟩]⟩] := by
  cbv

theorem ofTree_rejectTree : Graph.ofTree [rejectTree] = .ok rejectGraph := by cbv

/-- After a call that was too deep the session goes on behind it. The program rejects every value; with
one activation allowed, the first call exceeds the depth and the second accepts the document. -/
theorem status_after_deep_call : ∃ exe, Constraint.compile (.not .valid) = .ok exe ∧
    answers exe 20 0 [(0, [0x31])] (metered .free) = [.status .needMore, .status (.invalid .invalidSplitCondition)] ∧
    answers exe 20 0 [(0, [0x31])] (metered (.ofLimits { callDepth := some 1 })) =
      [.failed (.limit (.callDepth 1 2)), .status .valid] := by
  have hanswers := Constraint.exists_compile (show Constraint.toTree (.not .valid) = _ from rfl) ofTree_rejectTree
    (f := fun exe => (answers exe 20 0 [(0, [0x31])] (metered .free),
      answers exe 20 0 [(0, [0x31])] (metered (.ofLimits { callDepth := some 1 }))))
    (a := ([.status .needMore, .status (.invalid .invalidSplitCondition)],
      [.failed (.limit (.callDepth 1 2)), .status .valid])) (by decide +kernel)
  obtain ⟨exe, hexe, hboth⟩ := hanswers
  exact ⟨exe, hexe, Prod.mk.inj hboth⟩

end Session

end JsonSieve
