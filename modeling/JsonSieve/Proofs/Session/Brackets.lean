import JsonSieve.Proofs.Session.Counting
import JsonSieve.Proofs.Session.Visited

/-!
# Brackets in a trace

The events of a run open and close activations and splits like brackets. `Brackets.step` checks a trace event by
event and keeps what is open on a stack; a trace is `Balanced` if it ends when the first activation has ended.
The stack is that of the machine (`Stacked`), and every step keeps it so (`step_told`). A session whose entry
procedure returns has therefore told a balanced trace (`record_balanced`).
-/

namespace JsonSieve

open Record (add)

/-- Something open in a trace: an activation, or a split with the number of its branches and the codes of those
that have ended, the last one first. -/
inductive Opened where
  | activation
  | split (split : UInt32) (branches : Nat) (codes : List Int64)
  deriving DecidableEq

/-- Where a trace stands. Behind a failure every activation has to end with the same code, up to a split. -/
inductive Brackets where
  | inside (stack : List Opened)
  | failing (code : Int64) (stack : List Opened)
  | done (code : Int64)
  deriving DecidableEq

namespace Brackets

def depth (stack : List Opened) : Nat := stack.count .activation

/-- The bits of the branches that have returned 0. -/
def mask : List Int64 → Int64
  | [] => 0
  | code :: codes => if code = 0 then mask codes ||| (1 : Int64) <<< Int64.ofNat codes.length else mask codes

/-- How many branches have returned 0, or the bits of those that have. -/
def votes (bits : Bool) (codes : List Int64) : Int64 :=
  if bits then mask codes else Int64.ofNat (codes.count 0)

/-- A split has another branch to begin. -/
def begins : List Opened → Bool
  | .split _ branches codes :: _ => codes.length < branches
  | _ => true

def close (code : Int64) : List Opened → Brackets
  | [] => .done code
  | .split split branches codes :: outer => .inside (.split split branches (code :: codes) :: outer)
  | .activation :: outer => if code = 0 then .inside (.activation :: outer) else .failing code (.activation :: outer)

def step : Brackets → Event → Option Brackets
  | .inside stack, .call _ d =>
    if d = depth stack + 1 ∧ begins stack then some (.inside (.activation :: stack)) else none
  | .inside (.activation :: stack), .ret code d => if d = depth stack then some (close code stack) else none
  | .failing failed (.activation :: stack), .ret code d =>
    if code = failed ∧ d = depth stack then some (close code stack) else none
  | .inside (.activation :: stack), .splitStart split branches =>
    some (.inside (.split split branches [] :: .activation :: stack))
  | .inside (.split split branches codes :: stack), .splitEnd ended result =>
    if ended = split ∧ codes.length = branches ∧ (result = votes false codes ∨ result = votes true codes) then
      some (.inside stack)
    else none
  | .inside (.activation :: stack), .instruction _ _ d =>
    if d = depth stack + 1 then some (.inside (.activation :: stack)) else none
  | .inside (.activation :: stack), .token _ | .inside (.activation :: stack), .suspend _ =>
    some (.inside (.activation :: stack))
  | _, _ => none

def replay (events : List Event) : Option Brackets := events.foldlM step (.inside [])

/-- The first activation is opened and closed, and whatever is opened in it is closed in it. -/
def Balanced (events : List Event) : Prop := ∃ code, replay events = some (.done code)

theorem votes_cons (bits : Bool) (code : Int64) (codes : List Int64) : votes bits (code :: codes) =
    if code ≠ 0 then votes bits codes
    else if bits then votes bits codes ||| (1 : Int64) <<< Int64.ofNat codes.length
    else votes bits codes + 1 := by
  by_cases hcode : code = 0
  · cases bits <;> simp [votes, mask, hcode, Int64.ofNat_add]
  · cases bits <;> simp [votes, mask, hcode]

end Brackets

namespace Machine

open Brackets (votes begins replay Balanced)

def branchesOf (exe : Executable) (split : UInt32) : Array UInt32 := (exe.splits[split.toNat]?).getD #[]

/-- The activations and splits of a machine are those that are open in a trace. -/
inductive Stacked (exe : Executable) : Nat → List Split → List Opened → Prop
  | start : Stacked exe 0 [] []
  | activation {d : Nat} {splits : List Split} {stack : List Opened} (h : Stacked exe d splits stack) :
    Stacked exe (d + 1) splits (.activation :: stack)
  | split {d : Nat} {splits : List Split} {stack : List Opened} {s : Split} {codes : List Int64}
    (h : Stacked exe d splits (.activation :: stack)) (hdepth : s.depth = d) (hbranch : s.branch = codes.length)
    (hlt : codes.length < (branchesOf exe s.split).size) (hresult : s.result = votes s.bits codes) :
    Stacked exe d (s :: splits) (.split s.split (branchesOf exe s.split).size codes :: .activation :: stack)

section

variable {exe : Executable} {d pc : Nat} {splits : List Split} {stack : List Opened} {m : Machine}
  {q q' : Brackets} {code : Int64}

theorem Stacked.depth_eq (h : Stacked exe d splits stack) : Brackets.depth stack = d := by
  induction h with
  | start => rfl
  | activation _ ih => simpa [Brackets.depth] using ih
  | split _ _ _ _ _ ih => simpa [Brackets.depth] using ih

theorem Stacked.depth_le (h : Stacked exe d splits stack) : ∀ s ∈ splits, s.depth ≤ d := by
  induction h with
  | start => exact fun s hs => absurd hs List.not_mem_nil
  | activation _ ih => exact fun s hs => Nat.le_succ_of_le (ih s hs)
  | split _ hdepth _ _ _ ih => exact List.forall_mem_cons.2 ⟨Nat.le_of_eq hdepth, ih⟩

theorem Stacked.inner (h : Stacked exe (d + 1) splits (.activation :: stack)) : Stacked exe d splits stack := by
  cases h
  assumption

/-- The events of a step are those of its activations and splits. -/
def Stepped.Told (exe : Executable) (q : Brackets) (s : Stepped) : Prop :=
  match s.next with
  | .run | .suspend => ∃ stack, s.events.foldlM Brackets.step q = some (.inside (.activation :: stack)) ∧
      Stacked exe s.machine.depth s.machine.splits (.activation :: stack)
  | .finish v => v = .invalid .invalidJson ∨ ∃ code, s.events.foldlM Brackets.step q = some (.done code)
  | .fail _ => True

open Stepped (Told)

theorem Stepped.Told.after {s : Stepped} {e : Event} (h : Told exe q' s) (he : q.step e = some q') :
    Told exe q (s.after e) := by
  have hfold : (s.after e).events.foldlM Brackets.step q = s.events.foldlM Brackets.step q' := by
    rw [Stepped.after, List.foldlM_cons, he]
    rfl
  unfold Told
  rw [hfold]
  exact h

theorem Stepped.Told.require {α : Type} {result : Except Defect α} {k : α → Stepped}
    (h : ∀ a, Told exe q (k a)) : Told exe q (.require m pc result k) := by
  cases result with
  | ok a => exact h a
  | error d => trivial

theorem enter_told (proc : UInt32) (h : Stacked exe m.depth m.splits stack) (hbegins : begins stack = true) :
    Told exe (.inside stack) (m.enter exe pc proc) := by
  unfold enter
  split
  · trivial
  · split
    · trivial
    · refine ⟨stack, ?_, h.activation⟩
      simp [Brackets.step, h.depth_eq, hbegins]

theorem mapTop_depth (m : Machine) (change : Activation → Activation) : (m.mapTop change).depth = m.depth := by
  rcases m with ⟨_, _, _ | ⟨top, below⟩, _⟩ <;> rfl

theorem mapTop_splits (m : Machine) (change : Activation → Activation) : (m.mapTop change).splits = m.splits := by
  rcases m with ⟨_, _, _ | ⟨top, below⟩, _⟩ <;> rfl

theorem Stacked.mapTop (h : Stacked exe m.depth m.splits stack) (change : Activation → Activation) :
    Stacked exe (m.mapTop change).depth (m.mapTop change).splits stack := by
  rwa [mapTop_depth, mapTop_splits]

theorem mapTop_told {events : List Event} (h : Stacked exe m.depth m.splits (.activation :: stack))
    (hevents : events.foldlM Brackets.step q = some (.inside (.activation :: stack)))
    (change : Activation → Activation) : Told exe q ⟨m.mapTop change, events, .run⟩ :=
  ⟨stack, hevents, h.mapTop change⟩

theorem finishBranch_told {s : Split} {codes : List Int64} (hsplits : m.splits = s :: splits)
    (h : Stacked exe m.depth splits (.activation :: stack)) (hdepth : s.depth = m.depth)
    (hbranch : s.branch = codes.length) (hlt : codes.length < (branchesOf exe s.split).size)
    (hresult : s.result = votes s.bits codes) :
    Told exe (.inside (.split s.split (branchesOf exe s.split).size (code :: codes) :: .activation :: stack))
      (m.finishBranch exe pc code) := by
  have hresult' : (Split.returned s code).result = votes s.bits (code :: codes) := by
    rw [Brackets.votes_cons, ← hresult, ← hbranch]
    rfl
  have hnext : (exe.splits[(Split.returned s code).split.toNat]?).bind (·[(Split.returned s code).branch]?) =
      (branchesOf exe s.split)[codes.length + 1]? := by
    rw [← hbranch, branchesOf]
    show (exe.splits[s.split.toNat]?).bind (·[s.branch + 1]?) = _
    cases exe.splits[s.split.toNat]? <;> simp
  rw [finishBranch_cons exe pc hsplits, hnext]
  split
  · next proc hproc =>
    have hlt' := (Array.getElem?_eq_some_iff.1 hproc).1
    have hstacked : Stacked exe m.depth (Split.returned s code :: splits)
        (.split s.split (branchesOf exe s.split).size (code :: codes) :: .activation :: stack) :=
      .split h hdepth (congrArg (· + 1) hbranch) hlt' hresult'
    exact enter_told (m := m.restore _ _) proc hstacked (decide_eq_true hlt')
  · next hnone =>
    have hsize := Array.getElem?_eq_none_iff.1 hnone
    refine Told.after (.require fun _ => ?_) (?_ : _ = some (.inside (.activation :: stack)))
    · exact mapTop_told (m := m.restore _ splits) h rfl _
    · rw [hresult']
      have hbits : votes s.bits (code :: codes) = votes false (code :: codes) ∨
          votes s.bits (code :: codes) = votes true (code :: codes) := by
        cases s.bits
        · exact .inl rfl
        · exact .inr rfl
      exact if_pos ⟨rfl, Nat.le_antisymm hlt hsize, hbits⟩

/-- Activations end up to the one that goes on, up to a split, or up to the first one. -/
theorem unwind_told (frames : List Activation)
    (hq : q = .inside (.activation :: stack) ∨ q = .failing code (.activation :: stack))
    (h : Stacked exe frames.length m.splits (.activation :: stack)) :
    Told exe q (unwind exe pc code m frames) := by
  induction frames generalizing m stack q with
  | nil => trivial
  | cons top rest ih =>
    have hrest := h.inner
    have hret : q.step (.ret code rest.length) = some (.close code stack) := by
      rcases hq with rfl | rfl <;> simp [Brackets.step, hrest.depth_eq]
    rw [unwind.eq_def]
    dsimp only
    generalize hd : rest.length = d at hrest hret
    generalize m.splits = splits at hrest
    cases hrest with
    | start =>
      obtain rfl := List.length_eq_zero_iff.1 hd
      rw [if_neg (by simp)]
      exact Told.after (.require fun v => .inr ⟨code, rfl⟩) hret
    | @activation d splits stack hbelow =>
      have hnone : ¬ splits.head?.any (·.depth = d + 1) = true := by
        cases splits with
        | nil => exact Bool.false_ne_true
        | cons s splits =>
          have hle := hbelow.depth_le s List.mem_cons_self
          simp only [List.head?_cons, Option.any_some, decide_eq_true_eq]
          omega
      rw [if_neg hnone]
      obtain ⟨below, rest, rfl⟩ := List.exists_cons_of_length_eq_add_one hd
      have hstacked : Stacked exe (below :: rest).length splits (.activation :: stack) := by
        rw [hd]
        exact hbelow.activation
      dsimp only
      split
      · next hcode =>
        rw [Brackets.close, if_pos hcode] at hret
        refine ⟨stack, ?_, hstacked⟩
        rw [List.foldlM_cons, hret]
        rfl
      · next hcode =>
        rw [Brackets.close, if_neg hcode] at hret
        exact (ih (m := { m with frames := below :: rest, splits }) (.inr rfl) hstacked).after hret
    | @split _ splits stack s codes hbelow hdepth hbranch hlt hresult =>
      rw [if_pos (by simp [hdepth])]
      refine Told.after (finishBranch_told (m := { m with frames := rest, splits := s :: splits }) rfl ?_ ?_
        hbranch hlt hresult) hret
      · rw [← hd] at hbelow
        exact hbelow
      · exact hdepth.trans hd.symm

theorem startSplit_told (bits : Bool) (split target : UInt32)
    (h : Stacked exe m.depth m.splits (.activation :: stack)) :
    Told exe (.inside (.activation :: stack)) (m.startSplit exe pc bits split target) := by
  refine Told.require fun _ => ?_
  dsimp only
  split
  · trivial
  · have hmoved := h.mapTop fun a => { a with pc := a.pc + 1 }
    split
    · next hnone =>
      refine mapTop_told hmoved ?_ _
      have hsize : (branchesOf exe split).size = 0 := Nat.le_zero.1 (Array.getElem?_eq_none_iff.1 hnone)
      show List.foldlM Brackets.step _ [.splitStart split (branchesOf exe split).size, .splitEnd split 0] = _
      simp [Brackets.step, hsize, votes]
    · next proc hproc =>
      have hlt := (Array.getElem?_eq_some_iff.1 hproc).1
      have hbegins : begins (.split split (branchesOf exe split).size [] :: .activation :: stack) = true :=
        decide_eq_true hlt
      refine Told.after (enter_told (m := { m.advance with splits := _ :: m.advance.splits }) proc ?_ hbegins) rfl
      exact .split hmoved rfl rfl hlt (by cases bits <;> rfl)

theorem fetched_told {ready : Machine → Stepped} {fetch : Machine × Fetch} (hkept : Kept m fetch.1)
    (h : Stacked exe m.depth m.splits (.activation :: stack))
    (hready : Stacked exe fetch.1.depth fetch.1.splits (.activation :: stack) →
      Told exe (.inside (.activation :: stack)) (ready fetch.1)) :
    Told exe (.inside (.activation :: stack)) (.fetched pc ready fetch) := by
  obtain ⟨m', answer⟩ := fetch
  have hstacked : Stacked exe m'.depth m'.splits (.activation :: stack) := by
    rwa [depth, hkept.frames_eq, hkept.splits_eq]
  cases answer with
  | ready => exact hready hstacked
  | needMore => exact ⟨stack, rfl, hstacked⟩
  | badText => exact .inl rfl
  | limit e => trivial

theorem markUnique_told (slot : UInt32) (h : Stacked exe m.depth m.splits (.activation :: stack)) :
    Told exe (.inside (.activation :: stack)) (m.markUnique pc slot) := by
  have hkept := scan_kept m
  rw [markUnique_eq]
  generalize m.scan = scanned at hkept
  obtain ⟨m', answer⟩ := scanned
  have hstacked : Stacked exe m'.depth m'.splits (.activation :: stack) := by
    rwa [depth, hkept.frames_eq, hkept.splits_eq]
  cases answer with
  | needMore => exact ⟨stack, rfl, hstacked⟩
  | badText => exact .inl rfl
  | limit e => trivial
  | value v =>
    refine Told.require fun _ => ?_
    dsimp only
    split
    · trivial
    · next top below hframes =>
      rw [depth, hframes] at hstacked
      exact ⟨stack, rfl, hstacked⟩

theorem execute_told {op : Op} {top : Activation} {below : List Activation} (hframes : m.frames = top :: below)
    (h : Stacked exe m.depth m.splits (.activation :: stack)) :
    Told exe (.inside (.activation :: stack)) (m.execute exe pc op) := by
  by_cases hlocal : op.code.isLocal = true
  · rw [execute_local exe pc hlocal hframes]
    cases effect exe pc op top m.current m.lastCase m.flag with
    | stays top' =>
      rw [depth, hframes] at h
      exact ⟨stack, rfl, h⟩
    | fails d => trivial
  unfold execute
  cases hcode : op.code with
  | call =>
    dsimp only
    split
    · exact enter_told _ (h.mapTop _) rfl
    · trivial
  | ret => exact Told.require fun code => unwind_told m.frames (.inl rfl) h
  | split | splitBits =>
    dsimp only
    split
    · exact startSplit_told _ _ _ h
    · trivial
  | token => exact fetched_told (readToken_kept m) h fun h => mapTop_told h rfl _
  | consume => exact fetched_told (consume_kept m) h fun h => mapTop_told h rfl _
  | untoken =>
    dsimp only
    split
    · trivial
    · exact mapTop_told (m := { m with cursor := m.cursor - 1 }) h rfl _
  | unique =>
    dsimp only
    split
    · exact markUnique_told _ h
    · trivial
  | _ =>
    rw [hcode] at hlocal
    exact absurd rfl hlocal

/-- A step keeps the trace with the machine. -/
theorem step_told (h : Stacked exe m.depth m.splits (.activation :: stack)) :
    Told exe (.inside (.activation :: stack)) (m.step exe) := by
  refine step_cases exe m (fun _ _ => trivial) (fun _ => trivial) fun top below op hframes _ => ?_
  refine (execute_told (m := m.ticked) hframes h).after ?_
  have hdepth := h.depth_eq
  simp only [Brackets.depth, List.count_cons_self] at hdepth
  simp [Brackets.step, Brackets.depth, hdepth]

/-! ## Runs -/

/-- What the trace of a machine has come to. -/
structure Traced (exe : Executable) (m : Machine) (r : Record) : Prop where
  limit_eq : r.limit = none
  going : m.verdict = none → ∃ stack, replay r.events.toList = some (.inside stack) ∧
    Stacked exe m.depth m.splits stack ∧ if m.started then ∃ outer, stack = .activation :: outer else stack = []
  ended : ∀ v, m.verdict = some v → v = .invalid .invalidJson ∨ Balanced r.events.toList

theorem move_told (h : Stacked exe m.depth m.splits stack)
    (hstack : if m.started then ∃ outer, stack = .activation :: outer else stack = []) :
    Told exe (.inside stack) (m.move exe) := by
  unfold move
  split at hstack
  · next hstarted =>
    obtain ⟨outer, rfl⟩ := hstack
    rw [if_pos hstarted]
    exact step_told h
  · next hstarted =>
    subst hstack
    rw [if_neg hstarted]
    exact enter_told 0 h rfl

variable {r : Record}

/-- A move that does not fail keeps the trace with the machine. -/
theorem Traced.move (h : Traced exe m r) (hverdict : m.verdict = none) (hnext : ∀ e, (m.move exe).next ≠ .fail e) :
    Traced exe (m.move exe).machine (Observer.observe add r (m.move exe).events) := by
  obtain ⟨stack, hreplay, hstacked, hstack⟩ := h.going hverdict
  have htold := move_told hstacked hstack
  obtain ⟨hstarted, hverdict', -⟩ := move_settles exe m
  rw [hverdict] at hverdict'
  have hevents : replay (Observer.observe add r (m.move exe).events).events.toList =
      (m.move exe).events.foldlM Brackets.step (.inside stack) := by
    rw [Session.observe_record _ _ h.limit_eq, replay, List.foldlM_append]
    exact congrArg (· >>= _) hreplay
  refine ⟨(observe_limit _ r).trans h.limit_eq, fun hnone => ?_, fun v hv => ?_⟩
  · rw [hevents, hstarted]
    unfold Told at htold
    cases hto : (m.move exe).next with
    | run | suspend =>
      rw [hto] at htold
      obtain ⟨outer, hfold, houter⟩ := htold
      exact ⟨_, hfold, houter, outer, rfl⟩
    | finish v =>
      rw [hverdict', hto] at hnone
      cases hnone
    | fail e => exact absurd hto (hnext e)
  · unfold Told at htold
    cases hto : (m.move exe).next with
    | finish v' =>
      rw [hto] at htold hverdict'
      cases hverdict'.symm.trans hv
      exact htold.imp_right fun ⟨code, hdone⟩ => ⟨code, hevents.trans hdone⟩
    | run | suspend =>
      rw [hverdict', hto] at hv
      cases hv
    | fail e => exact absurd hto (hnext e)

theorem Traced.run (h : Traced exe m r) (fuel : Nat) : (∃ e, (m.run exe add fuel r).2.2 = .failed e) ∨
      Traced exe (m.run exe add fuel r).1 (m.run exe add fuel r).2.1 := by
  refine run_induction add exe (I := Traced exe) (Q := fun m r reply => (∃ e, reply = .failed e) ∨ Traced exe m r)
    .inr (fun h _ => .inr h) (fun h hverdict hnext => h.move hverdict fun e he => ?_) ?_ h fuel
  · rw [hnext] at he
    cases he
  intro m r reply h hverdict hreply
  cases hnext : (m.move exe).next with
  | fail e =>
    rw [hnext] at hreply
    cases hreply
    exact .inl ⟨e, rfl⟩
  | run | suspend | finish =>
    refine .inr (h.move hverdict fun e he => ?_)
    rw [hnext] at he
    cases he

end

end Machine

namespace Session

open Machine (Traced)

variable {exe : Executable} {s : Session Record}

theorem advance_traced (h : Traced exe s.machine s.seen) {fuel : Nat}
    (hanswer : ∀ e, (s.advance exe add fuel).2 = .failed e → e = .closed) :
    Traced exe (s.advance exe add fuel).1.machine (s.advance exe add fuel).1.seen := by
  cases htrailing : s.trailing with
  | true => rwa [advance_trailing add fuel htrailing]
  | false =>
    have hwilling := Machine.run_willing exe add fuel s.machine s.seen
    have hran := h.run fuel
    rcases hrun : s.machine.run exe add fuel s.seen with ⟨m, seen, r⟩
    rw [advance_of_run add fuel htrailing hrun] at hanswer ⊢
    rw [hrun] at hran hwilling
    rcases r with _ | ⟨_ | _⟩ | e | _
    case failed =>
      cases hanswer e rfl
      exact absurd rfl hwilling
    all_goals
      obtain ⟨e, he⟩ | ⟨hlimit, hgoing, hended⟩ := hran
      · cases he
      · exact ⟨hlimit, hgoing, hended⟩

theorem turn_traced (h : Traced exe s.machine s.seen) {t : Turn}
    (hanswer : ∀ e, (s.turn exe add t).2 = .failed e → e = .closed) :
    Traced exe (s.turn exe add t).1.machine (s.turn exe add t).1.seen := by
  rcases turn_cases exe add t s with ⟨-, -, hturn⟩ | ⟨-, hturn⟩
  · rw [hturn]
    exact ⟨h.limit_eq, h.going, h.ended⟩
  · have htaken : Traced exe (s.taken t).machine (s.taken t).seen := by
      unfold taken
      cases t.call <;> exact ⟨h.limit_eq, h.going, h.ended⟩
    rw [hturn] at hanswer ⊢
    refine advance_traced htaken fun e he => hanswer e ?_
    rw [he]
    cases t.call <;> rfl

theorem after_traced {turns : List Turn} (h : Traced exe s.machine s.seen)
    (hcalm : Calm (replies exe add turns s)) :
    Traced exe (s.after exe add turns).machine (s.after exe add turns).seen := by
  induction turns generalizing s with
  | nil => exact h
  | cons t turns ih =>
    refine ih (turn_traced h fun e he => hcalm e ?_) fun e he => hcalm e (List.mem_cons_of_mem _ he)
    exact he ▸ List.mem_cons_self

/-- A session of which no call fails, and whose entry procedure returns: its trace is balanced. -/
theorem record_balanced (exe : Executable) (meter : Meter) (turns : List Turn) {v : Verdict}
    (hcalm : Calm (replies exe add turns (start meter {})))
    (hverdict : ((start meter {}).after exe add turns).machine.verdict = some v)
    (hjson : v ≠ .invalid .invalidJson) :
    Brackets.Balanced ((start meter {}).after exe add turns).seen.events.toList := by
  have hstart : Traced exe (start meter ({} : Record)).machine {} :=
    ⟨rfl, fun _ => ⟨[], rfl, .start, rfl⟩, fun _ h => by cases h⟩
  exact ((after_traced hstart hcalm).ended v hverdict).resolve_left hjson

/-- The entry procedure asks two others, of which the second one rejects, and accepts. -/
def twoBranches : Executable where
  image := default
  ops := #[⟨.split, .split 0, .slot 0⟩, ⟨.ret, .int 0, .none⟩, ⟨.ret, .int 0, .none⟩, ⟨.ret, .int 1, .none⟩]
  procs := #[{ entry := 0, slots := 1 }, { entry := 2, slots := 0 }, { entry := 3, slots := 0 }]
  floats := #[]
  splits := #[#[1, 2]]
  recognizers := #[]

theorem record_balanced_two_branches : Brackets.Balanced
    ((start .free {}).after twoBranches add [⟨.more [], 9, 0⟩]).seen.events.toList := by
  have hreplies : replies twoBranches add [⟨.more [], 9, 0⟩] (start .free {}) = [.status .valid] := by
    decide +kernel
  refine record_balanced twoBranches .free [⟨.more [], 9, 0⟩] (v := .valid) ?_ (by decide +kernel) (by decide)
  rw [hreplies]
  intro e he
  simp at he

end Session

end JsonSieve
