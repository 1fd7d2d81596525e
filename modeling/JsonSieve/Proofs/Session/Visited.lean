import Mathlib.Order.Nat
import JsonSieve.Proofs.Machine.Reached
import JsonSieve.Proofs.Session.Forward

/-!
# The states of a session

As long as no call of a session fails, its machine is in states that a machine can reach, between the calls
(`after_going`) and while a call runs (`Visits.reaches_after`); and a call fails only where the machine fails
in such a state (`turn_failed_after`). So what holds in every state of a machine holds in every session.
-/

namespace JsonSieve.Session

open Machine (Reaches Goes)

variable {σ : Type} {exe : Executable} {observer : Observer σ} {meter : Meter} {s : Session σ}
  {text : List UInt8}

/-- The text that calls give: the chunks up to the first end of the document. -/
def fed : List Turn → List UInt8
  | [] => []
  | t :: turns =>
    match t.call with
    | .more bytes => bytes ++ fed turns
    | .close => []

/-- No call has failed, but for chunks that were refused after the end. -/
def Calm (answers : List Answer) : Prop := ∀ e, .failed e ∈ answers → e = .closed

/-- The machine is in this state at some time while a call runs. -/
def Visits (exe : Executable) (s : Session σ) (t : Turn) (m : Machine) : Prop :=
  (s.closed = true → t.call = .close) ∧ s.machine.verdict = none ∧
    Relation.ReflTransGen (Goes exe) (s.taken t).machine m

/-- The session goes on, and its machine is in a state that can be reached with the text at hand; or the
machine has found its verdict. -/
structure Going (exe : Executable) (meter : Meter) (text : List UInt8) (s : Session σ) : Prop where
  reaches : s.machine.verdict = none → ∃ n, Reaches exe meter n text s.machine
  trailing_eq : s.machine.verdict = none → s.trailing = false
  sound : s.machine.input.Sound
  closed_eq : s.machine.input.closed = s.closed

def textWith (s : Session σ) (text : List UInt8) (t : Turn) : List UInt8 :=
  if s.closed then text else text ++ fed [t]

theorem Going.start (exe : Executable) (meter : Meter) (seen : σ) : Going exe meter [] (start meter seen) :=
  ⟨fun _ => ⟨0, .start⟩, fun _ => rfl, Lexer.Sound.empty, rfl⟩

theorem taken_machine (s : Session σ) (t : Turn) : (s.taken t).machine = match t.call with
    | .more bytes => ({ s.machine with meter := s.machine.meter.atTime t.time } : Machine).feed bytes
    | .close => ({ s.machine with meter := s.machine.meter.atTime t.time } : Machine).close := by
  rw [taken]
  cases t.call <;> rfl

theorem taken_verdict (s : Session σ) (t : Turn) : (s.taken t).machine.verdict = s.machine.verdict := by
  rw [taken_machine]
  cases t.call <;> rfl

theorem taken_trailing (s : Session σ) (t : Turn) : (s.taken t).trailing = s.trailing := by
  rw [taken]
  cases t.call <;> rfl

theorem Going.taken (h : Going exe meter text s) {t : Turn} (ht : s.closed = true → t.call = .close) :
    Going exe meter (s.textWith text t) (s.taken t) where
  reaches hverdict := by
    rw [taken_verdict] at hverdict
    obtain ⟨n, hreaches⟩ := h.reaches hverdict
    have hclock := hreaches.clock t.time
    refine ⟨n, ?_⟩
    rw [taken_machine, textWith]
    cases hcall : t.call with
    | more bytes =>
      have hopen : s.closed = false := by
        cases hclosed : s.closed with
        | false => rfl
        | true =>
          rw [hcall] at ht
          cases ht hclosed
      rw [hopen, fed, hcall]
      have hfeed := hclock.feed (h.closed_eq.trans hopen) bytes
      simpa [fed] using hfeed
    | close =>
      have hfed : fed [t] = [] := by simp [fed, hcall]
      rw [hfed, List.append_nil, ite_self]
      exact hclock.close
  trailing_eq hverdict := by
    rw [taken_verdict] at hverdict
    exact (taken_trailing s t).trans (h.trailing_eq hverdict)
  sound := taken_sound h.sound t
  closed_eq := by
    rw [taken_machine, Session.taken]
    cases hcall : t.call with
    | more bytes =>
      have hfeed : (s.machine.input.feed bytes).closed = s.machine.input.closed := by
        unfold Lexer.feed
        split <;> rfl
      exact hfeed.trans h.closed_eq
    | close => rfl

theorem Visits.reaches (h : Going exe meter text s) {t : Turn} {m : Machine} (hvisits : Visits exe s t m) :
    ∃ n, Reaches exe meter n (s.textWith text t) m := by
  obtain ⟨ht, hverdict, hgoes⟩ := hvisits
  obtain ⟨n, hreaches⟩ := (h.taken ht).reaches ((taken_verdict s t).trans hverdict)
  exact hreaches.of_goes hgoes

/-! ## One call -/

theorem report_verdict (s : Session σ) (r : Reply) : (s.report r).1.machine.verdict = s.machine.verdict := by
  rcases r with _ | ⟨_ | _⟩ | _ | _ <;> rfl

theorem advance_verdict {v : Verdict} (hverdict : s.machine.verdict = some v) (fuel : Nat) :
    (s.advance exe observer fuel).1.machine.verdict = some v := by
  cases htrailing : s.trailing with
  | true => rwa [advance_trailing observer fuel htrailing]
  | false =>
    rwa [advance_of_run observer fuel htrailing (run_verdict observer fuel hverdict s.seen), report_verdict]

/-- A call before the verdict stops where its machine can come to, or its machine finds the verdict or fails
there. -/
theorem Going.advance_cases (h : Going exe meter text s) (observer : Observer σ)
    (hverdict : s.machine.verdict = none) (fuel : Nat) :
    ((∃ n, Reaches exe meter n text (s.advance exe observer fuel).1.machine) ∧
        (s.advance exe observer fuel).1.trailing = false) ∨
      (∃ v, (s.advance exe observer fuel).1.machine.verdict = some v) ∨
      ∃ e, (s.advance exe observer fuel).2 = .failed e := by
  obtain ⟨n, hreaches⟩ := h.reaches hverdict
  have htrailing := h.trailing_eq hverdict
  have hstopped := hreaches.of_run observer fuel s.seen
  rcases hrun : s.machine.run exe observer fuel s.seen with ⟨m, seen, r⟩
  rw [hrun] at hstopped
  rw [advance_of_run observer fuel htrailing hrun]
  cases r with
  | needMore | running => exact .inl ⟨hstopped, htrailing⟩
  | done v => exact .inr (.inl ⟨v, (report_verdict _ _).trans hstopped⟩)
  | failed e => exact .inr (.inr ⟨e, rfl⟩)

/-- A call fails only where its machine does. -/
theorem Going.advance_failed (h : Going exe meter text s) {fuel : Nat} {e : RunError}
    (hanswer : (s.advance exe observer fuel).2 = .failed e) :
    ∃ n m, Reaches exe meter n text m ∧ (m.move exe).next = .fail e := by
  cases htrailing : s.trailing with
  | true =>
    rw [advance_trailing observer fuel htrailing] at hanswer
    cases hanswer
  | false =>
    rcases hrun : s.machine.run exe observer fuel s.seen with ⟨m, seen, r⟩
    rw [advance_of_run observer fuel htrailing hrun] at hanswer
    rcases r with _ | ⟨_ | _⟩ | _ | _
    case failed e' =>
      cases hanswer
      cases hverdict : s.machine.verdict with
      | some v =>
        rw [run_verdict observer fuel hverdict] at hrun
        cases hrun
      | none =>
        obtain ⟨n, hreaches⟩ := h.reaches hverdict
        have hstopped := hreaches.of_run observer fuel s.seen
        rwa [hrun] at hstopped
    all_goals cases hanswer

theorem Going.advance (h : Going exe meter text s) (fuel : Nat)
    (hanswer : ∀ e, (s.advance exe observer fuel).2 ≠ .failed e) :
    Going exe meter text (s.advance exe observer fuel).1 := by
  have honward := advance_onward exe observer fuel h.sound
  have hrun : (s.advance exe observer fuel).1.machine.verdict = none →
      (∃ n, Reaches exe meter n text (s.advance exe observer fuel).1.machine) ∧
        (s.advance exe observer fuel).1.trailing = false := by
    intro hnone
    cases hverdict : s.machine.verdict with
    | some v =>
      rw [advance_verdict hverdict] at hnone
      cases hnone
    | none =>
      rcases h.advance_cases observer hverdict fuel with hgoes | ⟨v, hv⟩ | ⟨e, he⟩
      · exact hgoes
      · rw [hv] at hnone
        cases hnone
      · exact absurd he (hanswer e)
  exact ⟨fun hnone => (hrun hnone).1, fun hnone => (hrun hnone).2, honward.sound h.sound,
    (honward.closed_eq h.sound).trans (h.closed_eq.trans (advance_closed s).symm)⟩

theorem Going.atTime (h : Going exe meter text s) (time : Nat) : Going exe meter text (s.atTime time) where
  reaches hverdict := by
    obtain ⟨n, hreaches⟩ := h.reaches hverdict
    exact ⟨n, hreaches.clock time⟩
  trailing_eq := h.trailing_eq
  sound := h.sound
  closed_eq := h.closed_eq

theorem textWith_refused (hclosed : s.closed = true) (t : Turn) : s.textWith text t = text := by
  rw [textWith, if_pos hclosed]

theorem Going.turn (h : Going exe meter text s) (observer : Observer σ) (t : Turn)
    (hanswer : ∀ e, (s.turn exe observer t).2 = .failed e → e = .closed) :
    Going exe meter (s.textWith text t) (s.turn exe observer t).1 := by
  rcases turn_cases exe observer t s with ⟨-, hclosed, hturn⟩ | ⟨ht, hturn⟩
  · rw [hturn, textWith_refused hclosed]
    exact h.atTime t.time
  · rw [hturn] at hanswer ⊢
    refine (h.taken ht).advance t.fuel fun e he => ?_
    have hends : t.call.ends ((s.taken t).advance exe observer t.fuel).2 = .failed e := by
      rw [he]
      cases t.call <;> rfl
    obtain ⟨n, m, -, hfail⟩ := (h.taken ht).advance_failed he
    rw [hanswer e hends] at hfail
    exact Machine.move_willing exe m hfail

theorem Going.turn_failed (h : Going exe meter text s) {t : Turn} {e : RunError}
    (hanswer : (s.turn exe observer t).2 = .failed e) : e = .closed ∨ e = .malformed 0 .stillWaiting ∨
      ∃ n m, Reaches exe meter n (s.textWith text t) m ∧ (m.move exe).next = .fail e := by
  rcases turn_cases exe observer t s with ⟨-, hclosed, hturn⟩ | ⟨ht, hturn⟩
  · rw [hturn] at hanswer
    cases hanswer
    exact .inl rfl
  · rw [hturn] at hanswer
    rcases Call.ends_failed hanswer with hwaiting | hfailed
    · refine .inr (.inl ?_)
      rw [hwaiting] at hanswer
      cases hcall : t.call with
      | more bytes =>
        rw [hcall] at hanswer
        cases hanswer
      | close =>
        rw [hcall] at hanswer
        cases hanswer
        rfl
    · exact .inr (.inr ((h.taken ht).advance_failed hfailed))

/-! ## Call after call -/

theorem turn_closed (exe : Executable) (observer : Observer σ) (t : Turn) (s : Session σ) :
    (s.turn exe observer t).1.closed = (s.closed || t.call = .close) := by
  cases hcall : t.call with
  | more bytes =>
    rcases turn_cases exe observer t s with ⟨-, -, hturn⟩ | ⟨-, hturn⟩
    · rw [hturn]
      simp [Session.atTime]
    · rw [hturn, advance_closed, Session.taken, hcall]
      simp [taking, Session.atTime]
  | close =>
    rw [turn_of_close hcall, advance_closed]
    simp [ended]

/-- A session whose calls have not failed goes on, with the text of its chunks. -/
theorem Going.after {turns : List Turn} (h : Going exe meter text s) (hcalm : Calm (replies exe observer turns s)) :
    Going exe meter (if s.closed then text else text ++ fed turns) (s.after exe observer turns) := by
  induction turns generalizing s text with
  | nil =>
    rw [fed, List.append_nil, ite_self]
    exact h
  | cons t turns ih =>
    have hturn := h.turn observer t fun e he => hcalm e (he ▸ List.mem_cons_self ..)
    have hlater := ih hturn fun e he => hcalm e (.tail _ he)
    rw [turn_closed, textWith] at hlater
    show Going exe meter _ ((s.turn exe observer t).1.after exe observer turns)
    cases hclosed : s.closed with
    | true => simpa [hclosed] using hlater
    | false =>
      cases hcall : t.call with
      | more bytes => simpa [hclosed, hcall, fed] using hlater
      | close => simpa [hclosed, hcall, fed] using hlater

theorem after_going {turns : List Turn} {seen : σ} (hcalm : Calm (replies exe observer turns (start meter seen))) :
    Going exe meter (fed turns) ((start meter seen).after exe observer turns) :=
  (Going.start exe meter seen).after hcalm

theorem textWith_after (exe : Executable) (observer : Observer σ) (turns : List Turn) (t : Turn)
    (hopen : s.closed = false) (before : List UInt8) :
    (s.after exe observer turns).textWith (before ++ fed turns) t = before ++ fed (turns ++ [t]) := by
  have hended : ∀ {turns : List Turn} {s : Session σ}, s.closed = true →
      (s.after exe observer turns).closed = true := by
    intro turns
    induction turns with
    | nil => exact id
    | cons u turns ih =>
      intro s hclosed
      exact ih ((turn_closed exe observer u s).trans (by rw [hclosed, Bool.true_or]))
  induction turns generalizing s before with
  | nil =>
    rw [show s.after exe observer [] = s from rfl, textWith, hopen]
    simp [fed]
  | cons u turns ih =>
    show ((s.turn exe observer u).1.after exe observer turns).textWith _ t = _
    have hclosed := turn_closed exe observer u s
    cases hcall : u.call with
    | more bytes =>
      have hfed : ∀ rest, fed (u :: rest) = bytes ++ fed rest := fun rest => by simp [fed, hcall]
      rw [List.cons_append, hfed, hfed, ← List.append_assoc, ← List.append_assoc]
      exact ih (by simpa [hopen, hcall] using hclosed) (before ++ bytes)
    | close =>
      have hfed : ∀ rest, fed (u :: rest) = [] := fun rest => by simp [fed, hcall]
      rw [List.cons_append, hfed, hfed, textWith_refused]
      exact hended (by simpa [hcall] using hclosed)

section

variable {turns : List Turn} {seen : σ} {t : Turn}
  (hcalm : Calm (replies exe observer turns (start meter seen)))

include hcalm

theorem Visits.reaches_after {m : Machine} (hvisits : Visits exe ((start meter seen).after exe observer turns) t m) :
    ∃ n, Reaches exe meter n (fed (turns ++ [t])) m := by
  have htext : ((start meter seen).after exe observer turns).textWith (fed turns) t = fed (turns ++ [t]) :=
    textWith_after exe observer turns t rfl []
  rw [← htext]
  exact hvisits.reaches (after_going hcalm)

/-- The first call that fails does so where its machine does, unless it is refused or the document ends too
early for the machine. -/
theorem turn_failed_after {e : RunError}
    (hanswer : (((start meter seen).after exe observer turns).turn exe observer t).2 = .failed e) :
    e = .closed ∨ e = .malformed 0 .stillWaiting ∨
      ∃ n m, Reaches exe meter n (fed (turns ++ [t])) m ∧ (m.move exe).next = .fail e := by
  have htext : ((start meter seen).after exe observer turns).textWith (fed turns) t = fed (turns ++ [t]) :=
    textWith_after exe observer turns t rfl []
  rw [← htext]
  exact (after_going hcalm).turn_failed hanswer

end

end JsonSieve.Session
