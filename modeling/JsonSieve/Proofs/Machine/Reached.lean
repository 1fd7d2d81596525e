import JsonSieve.Proofs.Machine.Progress

/-!
# The states of a machine

`Reaches` describes the states that the machine of a session comes to as long as nothing fails: it begins,
runs instructions, waits, gets more of the text, and time passes. What is kept by each of these holds in
every state. `Reaches.of_goes` and `Reaches.of_run` put runs together from single instructions.
-/

namespace JsonSieve.Machine

/-- A machine comes to a state: it has run so many instructions, not counting those that had to wait and
are run again, and it has been given this text. -/
inductive Reaches (exe : Executable) (meter : Meter) : Nat → List UInt8 → Machine → Prop where
  | start : Reaches exe meter 0 [] { meter }
  | begins {n : Nat} {text : List UInt8} {m : Machine} (h : Reaches exe meter n text m)
    (hstarted : m.started = false) (hnext : (m.move exe).next = .run) :
    Reaches exe meter n text (m.move exe).machine
  | steps {n : Nat} {text : List UInt8} {m : Machine} (h : Reaches exe meter n text m)
    (hstarted : m.started = true) (hnext : (m.step exe).next = .run) :
    Reaches exe meter (n + 1) text (m.step exe).machine
  | waits {n : Nat} {text : List UInt8} {m : Machine} (h : Reaches exe meter n text m)
    (hstarted : m.started = true) (hnext : (m.step exe).next = .suspend) :
    Reaches exe meter n text (m.step exe).machine
  | feed {n : Nat} {text : List UInt8} {m : Machine} (h : Reaches exe meter n text m)
    (hopen : m.input.closed = false) (bytes : List UInt8) :
    Reaches exe meter n (text ++ bytes) (m.feed bytes)
  | close {n : Nat} {text : List UInt8} {m : Machine} (h : Reaches exe meter n text m) :
    Reaches exe meter n text m.close
  | clock {n : Nat} {text : List UInt8} {m : Machine} (h : Reaches exe meter n text m) (time : Nat) :
    Reaches exe meter n text { m with meter := m.meter.atTime time }

section

variable {exe : Executable} {meter : Meter} {n : Nat} {text : List UInt8} {m m' : Machine}

namespace Reaches

theorem frames_nil (h : Reaches exe meter n text m) (hstarted : m.started = false) : m.frames = [] := by
  induction h with
  | start => rfl
  | begins h _ hnext ih =>
    rw [(move_settles exe _).started_eq] at hstarted
    cases hstarted
  | steps h hstarted' hnext ih | waits h hstarted' hnext ih =>
    rw [(step_settles exe _).started_eq, hstarted'] at hstarted
    cases hstarted
  | feed h hopen bytes ih => exact ih hstarted
  | close h ih => exact ih hstarted
  | clock h time ih => exact ih hstarted

theorem goes (h : Reaches exe meter n text m) (hgoes : Goes exe m m') : ∃ k, Reaches exe meter k text m' := by
  obtain ⟨hnext, rfl⟩ := hgoes
  cases hstarted : m.started with
  | false => exact ⟨n, h.begins hstarted hnext⟩
  | true =>
    rw [move_started hstarted] at hnext ⊢
    exact ⟨n + 1, h.steps hstarted hnext⟩

theorem of_goes (h : Reaches exe meter n text m) (hgoes : Relation.ReflTransGen (Goes exe) m m') :
    ∃ k, Reaches exe meter k text m' := by
  induction hgoes with
  | refl => exact ⟨n, h⟩
  | tail _ hstep ih =>
    obtain ⟨k, hk⟩ := ih
    exact hk.goes hstep

/-- What a run comes to: it stops in a state that is reached, or it fails there, or it has found a
verdict. -/
def Stopped (exe : Executable) (meter : Meter) (text : List UInt8) (m : Machine) : Reply → Prop
  | .needMore | .running => ∃ n, Reaches exe meter n text m
  | .done v => m.verdict = some v
  | .failed e => ∃ n m', Reaches exe meter n text m' ∧ (m'.move exe).next = .fail e

variable {σ : Type}

theorem of_run (h : Reaches exe meter n text m) (observer : Observer σ) (fuel : Nat) (seen : σ) :
    Stopped exe meter text (m.run exe observer fuel seen).1 (m.run exe observer fuel seen).2.2 := by
  refine run_induction observer exe (I := fun m _ => ∃ n, Reaches exe meter n text m)
    (Q := fun m _ => Stopped exe meter text m) id (fun _ hverdict => hverdict) ?_ ?_ ⟨n, h⟩ fuel
  · rintro m _ ⟨n, h⟩ - hnext
    exact h.goes ⟨hnext, rfl⟩
  · rintro m _ r ⟨n, h⟩ - hreply
    have hverdict := (move_settles exe m).verdict_eq
    cases hnext : (m.move exe).next with
    | run =>
      rw [hnext] at hreply
      cases hreply
    | suspend =>
      rw [hnext] at hreply
      cases hreply
      cases hstarted : m.started with
      | false =>
        rcases move_unstarted exe hstarted with hrun | ⟨e, hfail⟩
        · cases hnext.symm.trans hrun
        · cases hnext.symm.trans hfail
      | true =>
        rw [move_started hstarted] at hnext ⊢
        exact ⟨n, h.waits hstarted hnext⟩
    | finish v =>
      rw [hnext] at hreply hverdict
      cases hreply
      exact hverdict
    | fail e =>
      rw [hnext] at hreply
      cases hreply
      exact ⟨n, m, h, hnext⟩

end Reaches

end

end JsonSieve.Machine
