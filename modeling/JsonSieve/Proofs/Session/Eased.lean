import JsonSieve.Proofs.Machine.Eased
import JsonSieve.Proofs.Session.Forward

/-!
# Sessions with wider limits

Two sessions are called alike, and the second one has wider limits. They answer the same and count the same
until the first one exceeds a limit that the second one does not have (`replies_eased`). Such a call leaves
the first session behind the second one, and what they answer later need not agree: the second session can
exceed a limit of its own in the same call, and go on (`replies_after_narrow`).
-/

namespace JsonSieve

namespace Session

variable {σ : Type}

section

variable {l l' : Limits} (hl : l.Within l') {s s' : Session σ}

def Eased (s s' : Session σ) : Prop :=
  ∃ machine, Machine.Follows hl.pairing s.machine machine ∧ s' = { s with machine }

def Together (r r' : Session σ × Answer) : Prop :=
  (r'.2 = r.2 ∧ Eased hl r.1 r'.1) ∨ ∃ e, r.2 = .failed (.limit e) ∧ l.Drops l' e

theorem start_eased (seen : σ) : Eased hl (start (.ofLimits l) seen) (start (.ofLimits l') seen) :=
  ⟨_, ⟨_, _, ⟨Lexer.Sound.empty, rfl⟩, ⟨0, 0, 0, rfl, rfl⟩, rfl⟩, rfl⟩

variable {hl}

theorem Eased.count_eq (h : Eased hl s s') : s'.machine.meter.count? = s.machine.meter.count? := by
  obtain ⟨_, ⟨_, _, -, hpaired, rfl⟩, rfl⟩ := h
  exact hpaired.count_eq

theorem Eased.seen_eq (h : Eased hl s s') : s'.seen = s.seen := by
  obtain ⟨_, -, rfl⟩ := h
  rfl

theorem Eased.lexerError_eq (h : Eased hl s s') : s'.lexerError = s.lexerError := by
  obtain ⟨_, ⟨_, _, ⟨-, rfl⟩, -, rfl⟩, rfl⟩ := h
  rfl

theorem Eased.atTime (h : Eased hl s s') (time : Nat) : Eased hl (s.atTime time) (s'.atTime time) := by
  obtain ⟨_, ⟨_, _, htexts, hpaired, rfl⟩, rfl⟩ := h
  exact ⟨_, ⟨_, _, htexts, hpaired.atTime time time, rfl⟩, rfl⟩

theorem Eased.feed (h : Eased hl s s') (bytes : List UInt8) :
    Eased hl { s with machine := s.machine.feed bytes } { s' with machine := s'.machine.feed bytes } := by
  obtain ⟨_, ⟨_, _, ⟨hsound, rfl⟩, hpaired, rfl⟩, rfl⟩ := h
  exact ⟨_, ⟨_, _, ⟨hsound.feed bytes, rfl⟩, hpaired, rfl⟩, rfl⟩

theorem Eased.close (h : Eased hl s s') : Eased hl { s with closed := true, machine := s.machine.close }
      { s' with closed := true, machine := s'.machine.close } := by
  obtain ⟨_, ⟨_, _, ⟨hsound, rfl⟩, hpaired, rfl⟩, rfl⟩ := h
  exact ⟨_, ⟨_, _, ⟨hsound.close, rfl⟩, hpaired, rfl⟩, rfl⟩

theorem lookBehind_together (h : Eased hl s s') : Together hl s.lookBehind s'.lookBehind := by
  obtain ⟨_, ⟨_, _, ⟨hsound, rfl⟩, hpaired, rfl⟩, rfl⟩ := h
  exact .inl ⟨rfl, _, ⟨_, _, ⟨(drainAll_onward hsound).sound hsound, rfl⟩, hpaired, rfl⟩, rfl⟩

variable (hl) (exe : Executable) (observer : Observer σ)

theorem advance_together (h : Eased hl s s') (fuel : Nat) :
    Together hl (s.advance exe observer fuel) (s'.advance exe observer fuel) := by
  obtain ⟨machine, hmachine, rfl⟩ := h
  unfold advance
  dsimp only
  split
  · exact .inl ⟨rfl, machine, hmachine, rfl⟩
  · have hrun := Machine.run_together hl exe observer hmachine fuel s.seen
    generalize machine.run exe observer fuel s.seen = r' at hrun ⊢
    generalize s.machine.run exe observer fuel s.seen = r at hrun ⊢
    obtain ⟨m', seen', reply'⟩ := r'
    obtain ⟨m, seen, reply⟩ := r
    rcases hrun with ⟨hsame, heased⟩ | ⟨e, hlimit, hdrops⟩
    · cases hsame
      have hnext : Eased hl { s with machine := m, seen := seen' }
          { s with machine := m', seen := seen' } := ⟨m', heased, rfl⟩
      rcases reply' with _ | ⟨_ | _⟩ | _ | _
      case done.valid => exact lookBehind_together hnext
      all_goals exact .inl ⟨rfl, hnext⟩
    · cases hlimit
      exact .inr ⟨e, rfl, hdrops⟩

theorem more_together (h : Eased hl s s') (fuel : Nat) (bytes : List UInt8) :
    Together hl (s.more exe observer fuel bytes) (s'.more exe observer fuel bytes) := by
  have hclosed : s'.closed = s.closed := by
    obtain ⟨_, -, rfl⟩ := h
    rfl
  cases hs : s.closed with
  | true =>
    rw [more, more, hclosed, hs]
    exact .inl ⟨rfl, h⟩
  | false =>
    rw [more_eq hs, more_eq (hclosed.trans hs)]
    exact advance_together hl exe observer (h.feed bytes) fuel

theorem close_together (h : Eased hl s s') (fuel : Nat) :
    Together hl (s.close exe observer fuel) (s'.close exe observer fuel) := by
  rw [close_eq, close_eq]
  rcases advance_together hl exe observer h.close fuel with ⟨hsame, heased⟩ | ⟨e, hlimit, hdrops⟩
  · exact .inl ⟨congrArg closing hsame, heased⟩
  · refine .inr ⟨e, ?_, hdrops⟩
    rw [hlimit]
    rfl

theorem turn_together (h : Eased hl s s') (t : Turn) :
    Together hl (s.turn exe observer t) (s'.turn exe observer t) := by
  unfold turn
  cases t.call with
  | more bytes => exact more_together hl exe observer (h.atTime t.time) t.fuel bytes
  | close => exact close_together hl exe observer (h.atTime t.time) t.fuel

/-- The calls give the same as long as no limit is exceeded that only the first session has. -/
theorem replies_together (turns : List Turn) (h : Eased hl s s')
    (hshared : ∀ e, .failed (.limit e) ∈ replies exe observer turns s → l'.Sets e) :
    replies exe observer turns s' = replies exe observer turns s ∧
      Eased hl (s.after exe observer turns) (s'.after exe observer turns) := by
  induction turns generalizing s s' with
  | nil => exact ⟨rfl, h⟩
  | cons t turns ih =>
    rcases turn_together hl exe observer h t with ⟨hsame, heased⟩ | ⟨e, hlimit, hdrops⟩
    · obtain ⟨hlater, hafter⟩ := ih heased fun e he => hshared e (.tail _ he)
      exact ⟨by rw [replies, replies, hsame, hlater], hafter⟩
    · exact absurd (hshared e (by rw [replies, hlimit]; exact (.head _))) hdrops.2

end

/-- A session with wider limits, called alike. If the session with the narrower limits exceeds none of them,
every answer is the same and the same number of instructions is counted. More generally all answers before a
call are the same, if none of them reports a limit that only the narrower limits have; and then the answer to
the call is the same too, or the narrower session exceeds such a limit. -/
theorem replies_eased (exe : Executable) (observer : Observer σ) (seen : σ) {l l' : Limits}
    (hl : l.Within l') (turns : List Turn) :
    ((∀ e, .failed (.limit e) ∉ replies exe observer turns (start (.ofLimits l) seen)) →
      replies exe observer turns (start (.ofLimits l') seen) = replies exe observer turns (start (.ofLimits l) seen) ∧
      ((start (.ofLimits l') seen).after exe observer turns).machine.meter.count? =
        ((start (.ofLimits l) seen).after exe observer turns).machine.meter.count?) ∧
    ∀ before t later, turns = before ++ t :: later →
      (∀ e, .failed (.limit e) ∈ replies exe observer before (start (.ofLimits l) seen) → l'.Sets e) →
      replies exe observer before (start (.ofLimits l') seen) = replies exe observer before (start (.ofLimits l) seen) ∧
      ((start (.ofLimits l') seen).after exe observer before).machine.meter.count? =
        ((start (.ofLimits l) seen).after exe observer before).machine.meter.count? ∧
      ((((start (.ofLimits l') seen).after exe observer before).turn exe observer t).2 =
          (((start (.ofLimits l) seen).after exe observer before).turn exe observer t).2 ∨
        ∃ e, (((start (.ofLimits l) seen).after exe observer before).turn exe observer t).2 =
          .failed (.limit e) ∧ l.Drops l' e) := by
  have hstart := start_eased hl seen
  refine ⟨fun hnone => ?_, fun before t later _ hshared => ?_⟩
  · obtain ⟨hsame, heased⟩ := replies_together hl exe observer turns hstart fun e he => absurd he (hnone e)
    exact ⟨hsame, heased.count_eq⟩
  · obtain ⟨hsame, heased⟩ := replies_together hl exe observer before hstart hshared
    exact ⟨hsame, heased.count_eq, (turn_together hl exe observer heased t).imp_left And.left⟩

theorem replies_eased_three_instructions : (({ instructions := some 3 } : Limits).Within {}) ∧
    replies acceptAll Executable.unobserved [⟨.more [0x31, 0x20], 5, 0⟩, ⟨.close, 5, 0⟩]
      (start (.ofLimits {}) ()) = [.status .valid, .status .valid] := by
  have hwithin : ({ instructions := some 3 } : Limits).Within {} :=
    ⟨nofun, nofun, Nat.le_refl _, rfl, rfl⟩
  have hnarrow : replies acceptAll Executable.unobserved [⟨.more [0x31, 0x20], 5, 0⟩, ⟨.close, 5, 0⟩]
      (start (.ofLimits { instructions := some 3 }) ()) = [.status .valid, .status .valid] := by
    decide +kernel
  refine ⟨hwithin, ?_⟩
  rw [← hnarrow]
  refine ((replies_eased acceptAll Executable.unobserved () hwithin _).1 fun e he => ?_).1
  rw [hnarrow] at he
  simp at he

/-- The document `[1]` under two limits for the tokens that are kept. Both sessions exceed their limit with
the first chunk and report it differently; then only the narrower one exceeds its limit again. -/
theorem replies_after_narrow : ({ bufferedTokens := some 1 } : Limits).Within { bufferedTokens := some 2 } ∧
    replies acceptAll Executable.unobserved [⟨.more [0x5b, 0x31, 0x5d], 5, 0⟩, ⟨.close, 5, 0⟩]
      (start (.ofLimits { bufferedTokens := some 1 }) ()) =
        [.failed (.limit (.buffer 1 2)), .failed (.limit (.buffer 1 3))] ∧
    replies acceptAll Executable.unobserved [⟨.more [0x5b, 0x31, 0x5d], 5, 0⟩, ⟨.close, 5, 0⟩]
      (start (.ofLimits { bufferedTokens := some 2 }) ()) = [.failed (.limit (.buffer 2 3)), .status .valid] := by
  refine ⟨⟨nofun, ?_, Nat.le_refl _, rfl, rfl⟩, by decide +kernel, by decide +kernel⟩
  intro wide hwide
  cases hwide
  exact ⟨1, rfl, by decide⟩

end Session

end JsonSieve
