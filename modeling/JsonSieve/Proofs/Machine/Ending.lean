import JsonSieve.Machine.Run
import JsonSieve.Proofs.Machine.Following

/-!
# Runs to their end

`Ends` says how a run ends, with the number of its moves, its events in order and the machine at the end.
A run with enough fuel is such a run (`Ends.run`, `exists_ends`). A run with part of the text ends like the
run with more of it, or it stops at a point from which the other run goes on (`Ends.follow`); if both are
limited alike, it never takes longer (`Ends.within`).
-/

namespace JsonSieve

namespace Event

def begins : Event → Bool
  | .instruction .. => true
  | _ => false

def waits : Event → Bool
  | .suspend _ => true
  | _ => false

end Event

namespace Machine

/-! ## The verdict -/

namespace Stepped

def verdictAfter (before : Option Verdict) : Next → Option Verdict
  | .finish v => some v
  | _ => before

/-- The step finds a verdict and ends the run, or it leaves the verdict as it was. It tells of waiting
only if it waits. -/
structure Settles (verdict : Option Verdict) (started : Bool) (s : Stepped) : Prop where
  started_eq : s.machine.started = started
  verdict_eq : s.machine.verdict = verdictAfter verdict s.next
  waits : ∀ pc, .suspend pc ∈ s.events → s.next = .suspend

/-- What every instruction does: besides, it tells of no instruction that begins, and does not refuse. -/
structure Proceeds (verdict : Option Verdict) (started : Bool) (s : Stepped) : Prop
    extends Settles verdict started s where
  plain : s.events.countP Event.begins = 0
  willing : s.next ≠ .fail .closed

variable {verdict : Option Verdict} {started : Bool}

theorem Settles.after {s : Stepped} (h : Settles verdict started s) {e : Event}
    (he : e.waits = false) : Settles verdict started (s.after e) := by
  refine ⟨h.started_eq, h.verdict_eq, fun pc hmem => ?_⟩
  rcases List.mem_cons.1 hmem with rfl | hmem
  · cases he
  · exact h.waits pc hmem

theorem Proceeds.after {s : Stepped} (h : Proceeds verdict started s) {e : Event}
    (he : e.waits = false) (hplain : e.begins = false) : Proceeds verdict started (s.after e) := by
  refine ⟨h.toSettles.after he, ?_, h.willing⟩
  rw [Stepped.after, List.countP_cons, hplain]
  exact h.plain

variable {m : Machine}

theorem Proceeds.silent {next : Next} (hstarted : m.started = started)
    (hverdict : m.verdict = verdictAfter verdict next) (h : next ≠ .fail .closed) :
    Proceeds verdict started ⟨m, [], next⟩ :=
  ⟨⟨hstarted, hverdict, fun _ hmem => absurd hmem List.not_mem_nil⟩, rfl, h⟩

theorem Proceeds.defect (pc : Nat) (d : Defect) (hstarted : m.started = started)
    (hverdict : m.verdict = verdict) : Proceeds verdict started (.defect m pc d) :=
  .silent hstarted hverdict fun h => by cases h

theorem Proceeds.limit (e : LimitError) (hstarted : m.started = started)
    (hverdict : m.verdict = verdict) : Proceeds verdict started ⟨m, [], .fail (.limit e)⟩ :=
  .silent hstarted hverdict fun h => by cases h

theorem Proceeds.require {α : Type} (pc : Nat) (result : Except Defect α)
    {k : α → Stepped} (hstarted : m.started = started) (hverdict : m.verdict = verdict)
    (h : ∀ a, Proceeds verdict started (k a)) : Proceeds verdict started (.require m pc result k) := by
  cases result with
  | ok a => exact h a
  | error d => exact .defect pc d hstarted hverdict

end Stepped

section

variable (exe : Executable) (pc : Nat) (m : Machine)

open Stepped (Settles Proceeds)

theorem enter_proceeds (proc : UInt32) : Proceeds m.verdict m.started (m.enter exe pc proc) := by
  unfold enter
  split
  · exact .limit _ rfl rfl
  · split
    · exact .defect _ _ rfl rfl
    · exact ⟨⟨rfl, rfl, by simp⟩, rfl, fun h => by cases h⟩

theorem mapTop_proceeds (change : Activation → Activation) (events : List Event)
    (hevents : ∀ e ∈ events, e.waits = false ∧ e.begins = false) :
    Proceeds m.verdict m.started ⟨m.mapTop change, events, .run⟩ := by
  have hwaits : ∀ pc, .suspend pc ∈ events → Next.run = .suspend := fun pc hmem => by cases (hevents _ hmem).1
  have hplain : events.countP Event.begins = 0 := List.countP_eq_zero.2 fun e he => by simp [(hevents e he).2]
  rcases m with ⟨_, _, _ | ⟨top, rest⟩, _⟩ <;> exact ⟨⟨rfl, rfl, hwaits⟩, hplain, fun h => by cases h⟩

theorem advance_proceeds : Proceeds m.verdict m.started ⟨m.advance, [], .run⟩ :=
  mapTop_proceeds m _ [] (List.forall_mem_nil _)

theorem finishBranch_proceeds (code : Int64) : Proceeds m.verdict m.started (m.finishBranch exe pc code) := by
  cases hsplits : m.splits with
  | nil =>
    unfold finishBranch
    rw [hsplits]
    exact .defect _ _ rfl rfl
  | cons s outer =>
    rw [finishBranch_cons exe pc hsplits]
    split
    · exact enter_proceeds exe pc (m.restore _ _) _
    · refine Proceeds.after (e := .splitEnd _ _) ?_ rfl rfl
      refine Proceeds.require (m := m.restore _ outer) pc _ rfl rfl fun _ => ?_
      exact mapTop_proceeds (m.restore _ outer) _ [] (List.forall_mem_nil _)

theorem unwind_proceeds (code : Int64) (frames : List Activation) :
    Proceeds m.verdict m.started (unwind exe pc code m frames) := by
  induction frames generalizing m with
  | nil => exact .defect _ _ rfl rfl
  | cons top rest ih =>
    rw [unwind.eq_def]
    dsimp only
    split
    · exact Proceeds.after (finishBranch_proceeds exe pc { m with frames := rest } code) rfl rfl
    · cases rest with
      | nil =>
        refine Proceeds.after (Proceeds.require (m := { m with frames := [] }) pc _ rfl rfl ?_) rfl rfl
        exact fun v => .silent rfl rfl fun h => by cases h
      | cons below rest =>
        dsimp only
        split
        · exact ⟨⟨rfl, rfl, by simp⟩, rfl, fun h => by cases h⟩
        · exact Proceeds.after (ih { m with frames := below :: rest }) rfl rfl

theorem advance_settled : m.advance.verdict = m.verdict ∧ m.advance.started = m.started := by
  rcases m with ⟨_, _, _ | ⟨top, rest⟩, _⟩ <;> exact ⟨rfl, rfl⟩

theorem startSplit_proceeds (bits : Bool) (split target : UInt32) :
    Proceeds m.verdict m.started (m.startSplit exe pc bits split target) := by
  unfold startSplit
  refine Proceeds.require pc _ rfl rfl fun _ => ?_
  obtain ⟨hverdict, hstarted⟩ := m.advance_settled
  dsimp only
  rw [← hverdict, ← hstarted]
  split
  · exact .defect _ _ hstarted.symm hverdict.symm
  · split
    · exact mapTop_proceeds m.advance _ _ (by simp [Event.waits, Event.begins])
    · exact Proceeds.after (enter_proceeds exe pc { m.advance with splits := _ :: _ } _) rfl rfl

theorem fetched_proceeds {ready : Machine → Stepped} (fetch : Machine × Fetch) (hkept : Kept m fetch.1)
    (hready : ∀ m : Machine, Proceeds m.verdict m.started (ready m)) :
    Proceeds m.verdict m.started (.fetched pc ready fetch) := by
  obtain ⟨m', answer⟩ := fetch
  have hverdict := hkept.verdict_eq
  have hstarted := hkept.started_eq
  dsimp only at hverdict hstarted
  cases answer with
  | ready => exact hverdict ▸ hstarted ▸ hready m'
  | needMore => exact ⟨⟨hstarted, hverdict, fun _ _ => rfl⟩, rfl, fun h => by cases h⟩
  | badText => exact .silent hstarted rfl fun h => by cases h
  | limit e => exact .limit e hstarted hverdict

theorem markUnique_proceeds (slot : UInt32) : Proceeds m.verdict m.started (m.markUnique pc slot) := by
  have hkept := scan_kept m
  rw [markUnique_eq]
  rcases hscan : m.scan with ⟨m', answer⟩
  rw [hscan] at hkept
  have hverdict := hkept.verdict_eq
  have hstarted := hkept.started_eq
  cases answer with
  | needMore => exact ⟨⟨hstarted, hverdict, fun _ _ => rfl⟩, rfl, fun h => by cases h⟩
  | badText => exact .silent hstarted rfl fun h => by cases h
  | limit e => exact .limit e hstarted hverdict
  | value v =>
    refine Proceeds.require pc _ hstarted hverdict fun _ => ?_
    rw [← hverdict, ← hstarted]
    dsimp only
    cases m'.frames with
    | nil => exact .defect _ _ rfl rfl
    | cons top below => exact advance_proceeds { m' with frames := _ :: below, flag := _ }

theorem execute_proceeds (op : Op) {top : Activation} {below : List Activation} (h : m.frames = top :: below) :
    Proceeds m.verdict m.started (m.execute exe pc op) := by
  by_cases hlocal : op.code.isLocal = true
  · rw [execute_local exe pc hlocal h]
    cases effect exe pc op top m.current m.lastCase m.flag with
    | stays => exact .silent rfl rfl fun h => by cases h
    | fails d => exact .defect pc d rfl rfl
  unfold execute
  cases hcode : op.code with
  | call =>
    obtain ⟨hverdict, hstarted⟩ := m.advance_settled
    dsimp only
    split
    · rw [← hverdict, ← hstarted]
      exact enter_proceeds exe pc m.advance _
    · exact .defect _ _ rfl rfl
  | ret => exact Proceeds.require pc _ rfl rfl fun code => unwind_proceeds exe pc m code m.frames
  | split | splitBits =>
    dsimp only
    split
    · exact startSplit_proceeds exe pc m _ _ _
    · exact .defect _ _ rfl rfl
  | token =>
    exact fetched_proceeds pc m _ (readToken_kept m) fun m =>
      mapTop_proceeds m _ _ (by simp [Event.waits, Event.begins])
  | consume => exact fetched_proceeds pc m _ (consume_kept m) advance_proceeds
  | untoken =>
    dsimp only
    split
    · exact .defect _ _ rfl rfl
    · exact advance_proceeds { m with cursor := m.cursor - 1 }
  | unique =>
    dsimp only
    split
    · exact markUnique_proceeds pc m _
    · exact .defect _ _ rfl rfl
  | _ =>
    rw [hcode] at hlocal
    exact absurd rfl hlocal

theorem step_settles : Settles m.verdict m.started (m.step exe) := by
  refine step_cases exe m (fun _ _ => ⟨rfl, rfl, nofun⟩) (fun _ => ⟨rfl, rfl, nofun⟩) ?_
  exact fun top below op hframes _ => (execute_proceeds exe top.pc m.ticked op hframes).toSettles.after rfl

theorem move_settles : Settles m.verdict true (m.move exe) := by
  unfold move
  split
  · next hstarted =>
    have hstep := step_settles exe m
    rwa [hstarted] at hstep
  · exact (enter_proceeds exe 0 { m with started := true } 0).toSettles

end

/-! ## Endings -/

/-- What a run has come to if it does not go on. -/
def Next.reply? : Next → Option Reply
  | .run => none
  | .suspend => some .needMore
  | .finish v => some (.done v)
  | .fail e => some (.failed e)

/-- The run of a machine without a verdict ends after a number of moves, with these events, this reply
and this machine. -/
inductive Ends (exe : Executable) : Nat → Machine → List Event → Reply → Machine → Prop where
  | stop {m : Machine} {r : Reply} (hreply : (m.move exe).next.reply? = some r) :
    Ends exe 1 m (m.move exe).events r (m.move exe).machine
  | run {n : Nat} {m u : Machine} {events : List Event} {r : Reply}
    (hnext : (m.move exe).next = .run) (h : Ends exe n (m.move exe).machine events r u) :
    Ends exe (n + 1) m ((m.move exe).events ++ events) r u

section

variable {exe : Executable} {n n' : Nat} {m u u' : Machine} {events events' : List Event}
  {r r' : Reply}

theorem Ends.unique (h : Ends exe n m events r u) (h' : Ends exe n' m events' r' u') :
    events = events' ∧ r = r' ∧ u = u' := by
  induction h generalizing n' events' with
  | stop hreply =>
    cases h' with
    | stop hreply' =>
      rw [hreply] at hreply'
      cases hreply'
      exact ⟨rfl, rfl, rfl⟩
    | run hnext _ =>
      rw [hnext] at hreply
      cases hreply
  | run hnext _ ih =>
    cases h' with
    | stop hreply' =>
      rw [hnext] at hreply'
      cases hreply'
    | run _ h' =>
      obtain ⟨hevents, hr, hu⟩ := ih h'
      exact ⟨by rw [hevents], hr, hu⟩

variable {σ : Type} (observer : Observer σ)

theorem observe_append (seen : σ) (before after : List Event) :
    observer.observe seen (before ++ after) = observer.observe (observer.observe seen before) after :=
  List.foldl_append

theorem move_started (h : m.started = true) : m.move exe = m.step exe := by
  rw [move, if_pos h]

variable {fuel : Nat}

theorem Ends.loop (h : Ends exe n m events r u) (hstarted : m.started)
    (hfuel : n ≤ fuel) (seen : σ) : m.loop exe observer fuel seen = (u, observer.observe seen events, r) := by
  induction h generalizing fuel seen with
  | @stop m r hreply =>
    obtain ⟨fuel, rfl⟩ : ∃ k, fuel = k + 1 := ⟨fuel - 1, by omega⟩
    have hmove : m.move exe = m.step exe := move_started hstarted
    rw [hmove] at hreply ⊢
    rw [Machine.loop]
    cases hnext : (m.step exe).next <;> rw [hnext] at hreply <;> cases hreply <;> rfl
  | @run n m u events r hnext h ih =>
    obtain ⟨fuel, rfl⟩ : ∃ k, fuel = k + 1 := ⟨fuel - 1, by omega⟩
    have hmove : m.move exe = m.step exe := move_started hstarted
    have hstill := (move_settles exe m).started_eq
    rw [hmove] at hnext hstill ih ⊢
    rw [Machine.loop, observe_append, ← ih hstill (Nat.le_of_succ_le_succ hfuel)]
    simp only [hnext]

theorem enter_next (exe : Executable) (pc : Nat) (proc : UInt32) (m : Machine) :
    (m.enter exe pc proc).next = .run ∨ ∃ e, (m.enter exe pc proc).next = .fail e := by
  unfold enter
  split
  · exact .inr ⟨_, rfl⟩
  · split
    · exact .inr ⟨_, rfl⟩
    · exact .inl rfl

theorem run_started (hverdict : m.verdict = none) (hstarted : m.started = true) (fuel : Nat)
    (seen : σ) : m.run exe observer fuel seen = m.loop exe observer fuel seen := by
  rw [Machine.run, hverdict, hstarted]
  rfl

theorem run_unstarted (hverdict : m.verdict = none) (hstarted : m.started = false) (fuel : Nat)
    (seen : σ) : m.run exe observer fuel seen = match (m.move exe).next with
      | .fail e => ((m.move exe).machine, observer.observe seen (m.move exe).events, .failed e)
      | _ => (m.move exe).machine.loop exe observer fuel
        (observer.observe seen (m.move exe).events) := by
  rcases m
  cases hverdict
  cases hstarted
  rfl

theorem move_unstarted (exe : Executable) (hstarted : m.started = false) :
    (m.move exe).next = .run ∨ ∃ e, (m.move exe).next = .fail e := by
  rw [move, hstarted]
  exact enter_next exe 0 0 _

theorem Ends.run_eq (h : Ends exe n m events r u) (hverdict : m.verdict = none)
    (hfuel : n ≤ fuel) (seen : σ) : m.run exe observer fuel seen = (u, observer.observe seen events, r) := by
  cases hstarted : m.started with
  | true =>
    rw [run_started observer hverdict hstarted]
    exact h.loop observer hstarted hfuel seen
  | false =>
    rw [run_unstarted observer hverdict hstarted]
    cases h with
    | stop hreply =>
      rcases move_unstarted exe hstarted with hnext | ⟨e, hnext⟩
      · rw [hnext] at hreply
        cases hreply
      · rw [hnext] at hreply ⊢
        cases hreply
        rfl
    | run hnext h =>
      rw [hnext, observe_append]
      exact h.loop observer (move_settles exe m).started_eq (by omega) _

/-- What every move of a run keeps holds where the run stops. -/
theorem run_induction (exe : Executable) {I : Machine → σ → Prop} {Q : Machine → σ → Reply → Prop}
    (running : ∀ {m seen}, I m seen → Q m seen .running)
    (done : ∀ {m seen v}, I m seen → m.verdict = some v → Q m seen (.done v))
    (next : ∀ {m seen}, I m seen → m.verdict = none → (m.move exe).next = .run →
      I (m.move exe).machine (observer.observe seen (m.move exe).events))
    (stop : ∀ {m seen r}, I m seen → m.verdict = none → (m.move exe).next.reply? = some r →
      Q (m.move exe).machine (observer.observe seen (m.move exe).events) r) {seen : σ} (h : I m seen) (fuel : Nat) :
    Q (m.run exe observer fuel seen).1 (m.run exe observer fuel seen).2.1 (m.run exe observer fuel seen).2.2 := by
  have hloop : ∀ fuel {m : Machine} {seen}, I m seen → m.verdict = none → m.started = true →
      Q (m.loop exe observer fuel seen).1 (m.loop exe observer fuel seen).2.1 (m.loop exe observer fuel seen).2.2 := by
    intro fuel
    induction fuel with
    | zero => exact fun h _ _ => running h
    | succ fuel ih =>
      intro m seen h hverdict hstarted
      obtain ⟨hstarted', hverdict', -⟩ := move_settles exe m
      rw [Machine.loop, ← move_started hstarted]
      cases hnext : (m.move exe).next with
      | run =>
        rw [hnext] at hverdict'
        exact ih (next h hverdict hnext) (hverdict'.trans hverdict) hstarted'
      | suspend | finish | fail => exact stop h hverdict (by rw [hnext]; rfl)
  cases hverdict : m.verdict with
  | some v =>
    rw [Machine.run, hverdict]
    exact done h hverdict
  | none =>
    cases hstarted : m.started with
    | true =>
      rw [run_started observer hverdict hstarted]
      exact hloop fuel h hverdict hstarted
    | false =>
      obtain ⟨hstarted', hverdict', -⟩ := move_settles exe m
      rw [run_unstarted observer hverdict hstarted]
      rcases move_unstarted exe hstarted with hnext | ⟨e, hnext⟩
      · rw [hnext] at hverdict' ⊢
        exact hloop fuel (next h hverdict hnext) (hverdict'.trans hverdict) hstarted'
      · rw [hnext]
        exact stop h hverdict (by rw [hnext]; rfl)

theorem exists_ends {seen seen' : σ}
    (h : m.run exe observer fuel seen = (u, seen', r)) (hr : r ≠ .running) (hverdict : m.verdict = none) :
    ∃ n events, Ends exe n m events r u ∧ seen' = observer.observe seen events := by
  -- the moves so far stand in front of the end of any run from here
  let I : Machine → σ → Prop := fun k seen' => k.verdict = none ∧ ∃ before, seen' = observer.observe seen before ∧
      ∀ {n events r u}, Ends exe n k events r u → ∃ n, Ends exe n m (before ++ events) r u
  let Q : Machine → σ → Reply → Prop := fun u seen' r =>
    r ≠ .running → ∃ n events, Ends exe n m events r u ∧ seen' = observer.observe seen events
  have hstart : I m seen := ⟨hverdict, [], rfl, fun h => ⟨_, h⟩⟩
  have hrun := run_induction observer exe (I := I) (Q := Q) (fun _ hr => absurd rfl hr) ?_ ?_ ?_ hstart fuel
  · rw [h] at hrun
    exact hrun hr
  · rintro m seen v ⟨hnone, -⟩ hv
    rw [hnone] at hv
    cases hv
  · rintro k _ ⟨hnone, before, rfl, hends⟩ - hnext
    refine ⟨?_, before ++ (k.move exe).events, (observe_append observer seen before _).symm, fun hlater => ?_⟩
    · rw [(move_settles exe k).verdict_eq, hnext]
      exact hnone
    · rw [List.append_assoc]
      exact hends (.run hnext hlater)
  · rintro k _ r ⟨-, before, rfl, hends⟩ - hreply -
    obtain ⟨n, hn⟩ := hends (.stop hreply)
    exact ⟨n, _, hn, (observe_append observer seen before _).symm⟩

/-! ## Runs with part of the text -/

/-- The run of `f` goes on as the run of `f'`, after some events. -/
structure Continues (exe : Executable) (f : Machine) (before : List Event) (f' : Machine) : Prop where
  verdict_eq : f'.verdict = f.verdict
  forth {n : Nat} {events : List Event} {r : Reply} {u : Machine} :
    Ends exe n f events r u → ∃ k events', k ≤ n ∧ events = before ++ events' ∧ Ends exe k f' events' r u
  back {n : Nat} {events : List Event} {r : Reply} {u : Machine} :
    Ends exe n f' events r u → ∃ k, Ends exe k f (before ++ events) r u

namespace Continues

variable {f f' : Machine} {before : List Event}

theorem of_move (hverdict : f'.verdict = f.verdict) (hmove : f'.move exe = f.move exe) : Continues exe f [] f' := by
  have hends : ∀ {f f' : Machine}, f'.move exe = f.move exe → ∀ {n events r u},
      Ends exe n f events r u → Ends exe n f' events r u := by
    intro f f' hmove n events r u h
    cases h with
    | stop hreply =>
      rw [← hmove] at hreply ⊢
      exact .stop hreply
    | run hnext h =>
      rw [← hmove] at hnext h ⊢
      exact .run hnext h
  exact ⟨hverdict, fun {n} {events} _ _ h => ⟨n, events, Nat.le_refl n, rfl, hends hmove h⟩,
    fun h => ⟨_, hends hmove.symm h⟩⟩

theorem refl (exe : Executable) (f : Machine) : Continues exe f [] f := of_move rfl rfl

theorem run (hnext : (f.move exe).next = .run) (h : Continues exe (f.move exe).machine before f') :
    Continues exe f ((f.move exe).events ++ before) f' := by
  have hverdict : (f.move exe).machine.verdict = f.verdict := by
    have hsettles := (move_settles exe f).verdict_eq
    rwa [hnext] at hsettles
  refine ⟨h.verdict_eq.trans hverdict, fun hends => ?_, fun hends => ?_⟩
  · cases hends with
    | stop hreply =>
      rw [hnext] at hreply
      cases hreply
    | run _ hends =>
      obtain ⟨k, events', hk, rfl, hon⟩ := h.forth hends
      exact ⟨k, events', by omega, by rw [List.append_assoc], hon⟩
  · obtain ⟨k, hends⟩ := h.back hends
    rw [List.append_assoc]
    exact ⟨k + 1, .run hnext hends⟩

theorem trans {f'' : Machine} {before' : List Event} (h : Continues exe f before f')
    (h' : Continues exe f' before' f'') : Continues exe f (before ++ before') f'' := by
  refine ⟨h'.verdict_eq.trans h.verdict_eq, fun hends => ?_, fun hends => ?_⟩
  · obtain ⟨k, events, hk, rfl, hon⟩ := h.forth hends
    obtain ⟨k', events', hk', rfl, hon'⟩ := h'.forth hon
    exact ⟨k', events', by omega, by rw [List.append_assoc], hon'⟩
  · obtain ⟨k, hends⟩ := h'.back hends
    rw [List.append_assoc]
    exact h.back hends

end Continues

def Quiet (events : List Event) : Prop := ∀ pc, .suspend pc ∉ events

theorem Quiet.append {before after : List Event} (hbefore : Quiet before) (hafter : Quiet after) :
    Quiet (before ++ after) := fun pc hmem =>
  (List.mem_append.1 hmem).elim (hbefore pc) (hafter pc)

theorem move_quiet (h : (m.move exe).next ≠ .suspend) : Quiet (m.move exe).events :=
  fun pc hmem => h ((move_settles exe m).waits pc hmem)

/-- What the end of a run with part of the text has to do with the run with more of it. -/
inductive Followed (P : Pairing) (exe : Executable) (f : Machine) (events : List Event) (r : Reply) (m' : Machine) : Prop where
  | same (n : Nat) (u : Machine) (hreply : r ≠ .needMore) (hquiet : Quiet events)
    (hends : Ends exe n f events r u) (hfollows : Follows P m' u)
  | waits (before : List Event) (pc : Nat) (code : Opcode) (depth : Nat) (f' : Machine)
    (hreply : r = .needMore) (hquiet : Quiet before)
    (hevents : events = before ++ [.instruction pc code depth, .suspend pc])
    (hfollows : Follows P m' f') (hcontinues : Continues exe f before f')
    (hlast : P.last → ∃ n u, Ends exe n f events r u ∧ Follows P m' u)
  | limit (e : LimitError) (hloose : ¬ P.Exact) (hreply : r = .failed (.limit e))
    (hagain : P.Open → ∃ before f', Follows P m' f' ∧ Continues exe f before f')
  | deep (hloose : ¬ P.Exact) (limit depth : Nat)
    (hdeep : r = .failed (.limit (.callDepth limit depth)) ∨
      ∃ n events u, Ends exe n f events (.failed (.limit (.callDepth limit depth))) u)

variable {P : Pairing} {f m' : Machine}

theorem followed_of_stop (hpatient : P.patient) (h : Follows P m f) (hreply : (m.move exe).next.reply? = some r) :
    Followed P exe f (m.move exe).events r (m.move exe).machine := by
  have hagrees : Stepped.Agrees P (m.move exe) (f.move exe) → Ends exe 1 f (m.move exe).events r (f.move exe).machine ∧
        Follows P (m.move exe).machine (f.move exe).machine := by
    rintro ⟨hevents, hnext, hfollows⟩
    refine ⟨?_, hfollows⟩
    rw [← hevents]
    exact .stop (by rwa [hnext])
  obtain ⟨pc, code, depth, houtcome⟩ := move_outcome h exe
  cases houtcome with
  | agree hnext hsame =>
    have hreply' : r ≠ .needMore := by
      rintro rfl
      cases hm : (m.move exe).next <;> rw [hm] at hreply hnext <;> cases hreply
      exact hnext rfl
    exact .same 1 _ hreply' (move_quiet hnext) (hagrees hsame).1 (hagrees hsame).2
  | wait hnext hevents hagain hlast =>
    obtain ⟨f', hfollows, hkept, hmove⟩ := hagain hpatient
    rw [hnext] at hreply
    cases hreply
    exact .waits [] pc code depth f' rfl nofun hevents hfollows
      (Continues.of_move hkept.verdict_eq hmove) fun hl => ⟨1, _, hagrees (hlast hl)⟩
  | limit e hdrops hnext hagain =>
    rw [hnext] at hreply
    cases hreply
    refine .limit e (fun hexact => hexact.keeps e hdrops) rfl fun hopen => ?_
    obtain ⟨f', hfollows, hkept, hmove⟩ := hagain hopen hpatient
    exact ⟨[], f', hfollows, Continues.of_move hkept.verdict_eq hmove⟩
  | deep hrel hdeep =>
    rcases hdeep with ⟨hlt, depth, hnext⟩ | ⟨hlt, depth, hnext⟩
    · rw [hnext] at hreply
      cases hreply
      exact .deep (fun hexact => Nat.ne_of_lt hlt (hexact.depth hrel)) _ depth (.inl rfl)
    · exact .deep (fun hexact => Nat.ne_of_gt hlt (hexact.depth hrel)) _ depth
        (.inr ⟨1, _, _, .stop (by rw [hnext]; rfl)⟩)

/-- A run with part of the text follows the run with more of it. -/
theorem Ends.follow (hpatient : P.patient) (hends : Ends exe n m events r m') (h : Follows P m f) :
    Followed P exe f events r m' := by
  induction hends generalizing f with
  | stop hreply => exact followed_of_stop hpatient h hreply
  | @run n m m' events r hnext hends ih =>
    obtain ⟨pc, code, depth, houtcome⟩ := move_outcome h exe
    cases houtcome with
    | agree _ hsame =>
      obtain ⟨hevents, hsame, hfollows⟩ := hsame
      have hfnext : (f.move exe).next = .run := hsame.trans hnext
      have hrun : Quiet (f.move exe).events := move_quiet (by rw [hfnext]; nofun)
      rw [← hevents]
      cases ih hfollows with
      | same n u hreply hquiet hon hfollows =>
        exact .same (n + 1) u hreply (hrun.append hquiet) (.run hfnext hon) hfollows
      | waits before pc code depth f' hreply hquiet hwaiting hfollows hcontinues hlast =>
        refine .waits ((f.move exe).events ++ before) pc code depth f' hreply (hrun.append hquiet)
          (by rw [hwaiting, List.append_assoc]) hfollows (hcontinues.run hfnext) fun hl => ?_
        obtain ⟨n, u, hon, hfollows⟩ := hlast hl
        exact ⟨n + 1, u, .run hfnext hon, hfollows⟩
      | limit e hloose hreply hagain =>
        refine .limit e hloose hreply fun hopen => ?_
        obtain ⟨before, f', hfollows, hcontinues⟩ := hagain hopen
        exact ⟨(f.move exe).events ++ before, f', hfollows, hcontinues.run hfnext⟩
      | deep hloose limit depth hdeep =>
        refine .deep hloose limit depth (hdeep.imp_right ?_)
        rintro ⟨n, events, u, hon⟩
        exact ⟨n + 1, _, u, .run hfnext hon⟩
    | wait hsuspend =>
      rw [hnext] at hsuspend
      cases hsuspend
    | limit e _ hfail =>
      rw [hnext] at hfail
      cases hfail
    | deep hrel hdeep =>
      rcases hdeep with ⟨-, depth, hfail⟩ | ⟨hlt, depth, hfail⟩
      · rw [hnext] at hfail
        cases hfail
      · exact .deep (fun hexact => Nat.ne_of_gt hlt (hexact.depth hrel)) _ depth
          (.inr ⟨1, _, _, .stop (by rw [hfail]; rfl)⟩)

/-- With the same limits, a run with part of the text takes no longer than the run with more of it. -/
theorem Ends.within (hends : Ends exe n f events r u) (h : Follows P m f)
    (hexact : P.Exact) : ∃ k events' r' m', k ≤ n ∧ Ends exe k m events' r' m' := by
  have hmove : ∀ {m f : Machine}, Follows P m f →
      Stepped.Agrees P (m.move exe) (f.move exe) ∨ (m.move exe).next = .suspend := by
    intro m f h
    obtain ⟨pc, code, depth, houtcome⟩ := move_outcome h exe
    cases houtcome with
    | agree _ hsame => exact .inl hsame
    | wait hsuspend => exact .inr hsuspend
    | limit e hdrops => exact absurd hdrops (hexact.keeps e)
    | deep hrel hdeep =>
      have heq := hexact.depth hrel
      omega
  induction hends generalizing m with
  | @stop f r hreply =>
    rcases hmove h with hsame | hsuspend
    · exact ⟨1, _, r, _, Nat.le_refl 1, .stop (by rw [← hsame.2.1]; exact hreply)⟩
    · exact ⟨1, _, .needMore, _, Nat.le_refl 1, .stop (by rw [hsuspend]; rfl)⟩
  | @run n f u events r hnext hends ih =>
    rcases hmove h with ⟨-, hsame, hfollows⟩ | hsuspend
    · obtain ⟨k, events', r', m', hk, hon⟩ := ih hfollows
      exact ⟨k + 1, _, r', m', by omega, .run (by rw [← hsame, hnext]) hon⟩
    · exact ⟨1, _, .needMore, _, by omega, .stop (by rw [hsuspend]; rfl)⟩

def verdictAfter (before : Option Verdict) : Reply → Option Verdict
  | .done v => some v
  | _ => before

theorem Ends.verdict_eq (hends : Ends exe n m events r u) : u.verdict = verdictAfter m.verdict r := by
  induction hends with
  | @stop m r hreply =>
    have hsettles := (move_settles exe m).verdict_eq
    cases hnext : (m.move exe).next <;> rw [hnext] at hreply hsettles <;> cases hreply <;>
      exact hsettles
  | @run _ m _ _ r hnext _ ih =>
    have hsettles := (move_settles exe m).verdict_eq
    rw [hnext] at hsettles
    rw [ih, hsettles]
    rfl

theorem Ends.reply_ne_running (hends : Ends exe n m events r u) : r ≠ .running := by
  induction hends with
  | @stop m r hreply =>
    rintro rfl
    cases hnext : (m.move exe).next <;> rw [hnext] at hreply <;> cases hreply
  | run _ _ ih => exact ih

end

end Machine

end JsonSieve
