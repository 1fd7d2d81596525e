import JsonSieve.Proofs.Machine.Ending

/-!
# Wider limits

Two machines do the same over the same text, but the second one has wider limits (`Limits.Within`). As long
as the first one exceeds no limit that the second one does not have too, they move together: every run gives
the same, and the same number of instructions is counted (`run_together`).
-/

namespace JsonSieve

/-! ## Limits -/

namespace Limits

def Sets (l : Limits) : LimitError → Prop
  | .instructions limit _ => l.instructions = some limit
  | .time limit _ => l.time = some limit
  | .buffer limit _ => l.bufferedTokens = some limit
  | .callDepth limit _ => l.callDepth.getD defaultCallDepth = limit

/-- Every limit is at least as wide in the second limits, and neither of them limits time. -/
structure Within (l l' : Limits) : Prop where
  instructions : ∀ n' ∈ l'.instructions, ∃ n ∈ l.instructions, n ≤ n'
  bufferedTokens : ∀ n' ∈ l'.bufferedTokens, ∃ n ∈ l.bufferedTokens, n ≤ n'
  callDepth : l.callDepth.getD defaultCallDepth ≤ l'.callDepth.getD defaultCallDepth
  time : l.time = none ∧ l'.time = none

def Drops (l l' : Limits) (e : LimitError) : Prop := l.Sets e ∧ ¬ l'.Sets e

end Limits

namespace Meter

variable {l l' : Limits} {a b : Meter}

def Paired (l l' : Limits) (a b : Meter) : Prop :=
  ∃ count elapsed elapsed', a = .limited l count elapsed ∧ b = .limited l' count elapsed'

theorem Paired.tick (h : Paired l l' a b) : Paired l l' a.tick.1 b.tick.1 := by
  obtain ⟨count, elapsed, elapsed', rfl, rfl⟩ := h
  exact ⟨count + 1, elapsed, elapsed', rfl, rfl⟩

theorem Paired.atTime (h : Paired l l' a b) (time time' : Nat) : Paired l l' (a.atTime time) (b.atTime time') := by
  obtain ⟨count, elapsed, elapsed', rfl, rfl⟩ := h
  exact ⟨count, time, time', rfl, rfl⟩

theorem Paired.count_eq (h : Paired l l' a b) : b.count? = a.count? := by
  obtain ⟨count, elapsed, elapsed', rfl, rfl⟩ := h
  rfl

/-- What exceeds the narrower limit and is reported exceeds the wider one too, or is not reported by it. -/
theorem exceeds_eased {limit limit' : Option Nat} (h : ∀ n' ∈ limit', ∃ n ∈ limit, n ≤ n') (value : Nat)
    (report : Nat → LimitError) : (limit'.bind fun max => if max < value then some (report max) else none) =
        (limit.bind fun max => if max < value then some (report max) else none) ∨
      ∃ max, (limit.bind fun max => if max < value then some (report max) else none) =
        some (report max) ∧ limit = some max ∧ limit' ≠ some max := by
  cases limit with
  | none =>
    cases limit' with
    | none => exact .inl rfl
    | some n' =>
      obtain ⟨n, hn, -⟩ := h n' rfl
      cases hn
  | some max =>
    by_cases hover : max < value
    · by_cases hsame : limit' = some max
      · exact .inl (by rw [hsame])
      · exact .inr ⟨max, if_pos hover, rfl, hsame⟩
    · refine .inl ?_
      cases limit' with
      | none => exact (if_neg hover).symm
      | some n' =>
        obtain ⟨n, hn, hle⟩ := h n' rfl
        cases hn
        exact (if_neg (by omega)).trans (if_neg hover).symm

variable (hl : l.Within l')

include hl

theorem Paired.checkBuffer_eased (h : Paired l l' a b) (n : Nat) :
    b.checkBuffer n = a.checkBuffer n ∨ ∃ e, a.checkBuffer n = some e ∧ l.Drops l' e := by
  obtain ⟨count, elapsed, elapsed', rfl, rfl⟩ := h
  have hbind : ∀ (k : Limits) count elapsed, (Meter.limited k count elapsed).checkBuffer n =
      k.bufferedTokens.bind fun max => if max < n then some (.buffer max n) else none := by
    intro k count elapsed
    rw [checkBuffer]
    cases k.bufferedTokens <;> rfl
  rw [hbind, hbind]
  refine (exceeds_eased hl.bufferedTokens n (.buffer · n)).imp_right ?_
  rintro ⟨max, hmax, hother⟩
  exact ⟨_, hmax, hother⟩

theorem Paired.tick_eased (h : Paired l l' a b) : b.tick.2 = a.tick.2 ∨ ∃ e, a.tick.2 = some e ∧ l.Drops l' e := by
  obtain ⟨count, elapsed, elapsed', rfl, rfl⟩ := h
  have hbind : ∀ (k : Limits) elapsed, k.time = none → (Meter.limited k count elapsed).tick.2 =
      k.instructions.bind fun max =>
        if max < count + 1 then some (.instructions max (count + 1)) else none := by
    intro k elapsed htime
    simp only [Meter.tick, Meter.tick.overCount, Meter.tick.overTime, htime, Option.or_none]
    cases k.instructions <;> rfl
  rw [hbind l _ hl.time.1, hbind l' _ hl.time.2]
  refine (exceeds_eased hl.instructions (count + 1) (.instructions · (count + 1))).imp_right ?_
  rintro ⟨max, hmax, hother⟩
  exact ⟨_, hmax, hother⟩

end Meter

/-- Two machines over the same text, of which the second one has wider limits. -/
def Limits.Within.pairing {l l' : Limits} (hl : l.Within l') : Pairing where
  rel := Meter.Paired l l'
  drops := l.Drops l'
  buffer h n := h.checkBuffer_eased hl n
  tick h := ⟨h.tick, h.tick_eased hl⟩
  texts a b := a.Sound ∧ b = a
  patient := False
  last := True
  sound := by
    rintro a _ ⟨h, rfl⟩
    exact ⟨h, h⟩
  next := by
    rintro a _ ⟨h, rfl⟩
    split
    · next hmore => exact ⟨False.elim, fun _ => ⟨hmore, h.next, rfl⟩⟩
    · exact ⟨rfl, h.next, rfl⟩
  wait := False.elim

namespace Machine

section

variable {l l' : Limits} (hl : l.Within l') {m m' : Machine}

/-- The second step is the first one with wider limits, or the first one exceeds a limit that the wider limits
do not have. -/
def Stepped.Eases (s t : Stepped) : Prop :=
  Stepped.Agrees hl.pairing s t ∨ ∃ e, s.next = .fail (.limit e) ∧ l.Drops l' e

theorem Outcome.eases {waiting : List Event} {act : Machine → Stepped}
    (h : Outcome hl.pairing waiting act m m') : Stepped.Eases hl (act m) (act m') := by
  cases h with
  | agree _ hsame => exact .inl hsame
  | wait _ _ _ hlast => exact .inl (hlast trivial)
  | limit e hdrops hnext => exact .inr ⟨e, hnext, hdrops⟩
  | deep hrel hdeep =>
    obtain ⟨count, elapsed, elapsed', rfl, rfl⟩ := hrel
    rcases hdeep with ⟨hlt, depth, hnext⟩ | ⟨hlt, -⟩
    · exact .inr ⟨_, hnext, rfl, fun hsets => Nat.ne_of_lt hlt hsets.symm⟩
    · exact absurd hlt (Nat.not_lt.2 hl.callDepth)

/-! ## Runs -/

/-- Both runs give the same, or the first one exceeds a limit that the wider limits do not have. -/
def Together {σ : Type} (r r' : Machine × σ × Reply) : Prop :=
  (r'.2 = r.2 ∧ Follows hl.pairing r.1 r'.1) ∨ ∃ e, r.2.2 = .failed (.limit e) ∧ l.Drops l' e

variable {σ : Type} (exe : Executable) (observer : Observer σ)

theorem loop_together (h : Follows hl.pairing m m') (fuel : Nat) (seen : σ) :
    Together hl (m.loop exe observer fuel seen) (m'.loop exe observer fuel seen) := by
  induction fuel generalizing m m' seen with
  | zero => exact .inl ⟨rfl, h⟩
  | succ fuel ih =>
    obtain ⟨_, _, _, houtcome⟩ := step_outcome h exe
    rw [loop, loop]
    rcases houtcome.eases with ⟨hevents, hnext, hmachine⟩ | ⟨e, hlimit, hother⟩
    · rw [hevents, hnext]
      cases (m.step exe).next with
      | run => exact ih hmachine _
      | suspend | finish | fail => exact .inl ⟨rfl, hmachine⟩
    · rw [hlimit]
      exact .inr ⟨e, rfl, hother⟩

theorem run_together (h : Follows hl.pairing m m') (fuel : Nat) (seen : σ) :
    Together hl (m.run exe observer fuel seen) (m'.run exe observer fuel seen) := by
  obtain ⟨hverdict, hstarted⟩ : m'.verdict = m.verdict ∧ m'.started = m.started := by
    obtain ⟨_, _, -, -, rfl⟩ := h
    exact ⟨rfl, rfl⟩
  cases hm : m.verdict with
  | some v =>
    rw [run, run, hverdict, hm]
    exact .inl ⟨rfl, h⟩
  | none =>
    cases hs : m.started with
    | true =>
      rw [run_started observer hm hs, run_started observer (hverdict.trans hm) (hstarted.trans hs)]
      exact loop_together hl exe observer h fuel seen
    | false =>
      obtain ⟨_, _, _, houtcome⟩ := move_outcome h exe
      rw [run_unstarted observer hm hs, run_unstarted observer (hverdict.trans hm) (hstarted.trans hs)]
      rcases houtcome.eases with ⟨hevents, hnext, hmachine⟩ | ⟨e, hlimit, hother⟩
      · rw [hevents, hnext]
        cases (m.move exe).next with
        | fail e => exact .inl ⟨rfl, hmachine⟩
        | run | suspend | finish => exact loop_together hl exe observer hmachine fuel _
      · rw [hlimit]
        exact .inr ⟨e, rfl, hother⟩

end

end Machine

end JsonSieve
