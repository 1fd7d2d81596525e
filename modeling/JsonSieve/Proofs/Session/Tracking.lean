import JsonSieve.Proofs.Machine.Ending
import JsonSieve.Session

/-!
# Sessions and the whole text

A session gets its document in chunks. It is compared with one run over the whole document (`Tracked`):
between two calls it either stands at a point of that run, or that run has ended and the session has its
verdict. Each call keeps this, or ends as the whole run ends (`advance_tracked`); a call with nothing more
to come answers what the whole run says (`advance_last`).
-/

namespace JsonSieve

open Machine (Follows Ends Continues Last Quiet)

namespace Session

/-! ## Behind the accepted value -/

def drainAll (l : Lexer) : Lexer × Bool := drain (l.pending.length + 1) l

theorem drain_succ (n : Nat) (l : Lexer) : drain (n + 1) l = match l.next.2 with
    | .token _ => drain n l.next.1
    | .error _ => (l.next.1, false)
    | .needMore | .eof => (l.next.1, true) := by
  rw [drain]
  rcases l.next with ⟨l', answer⟩
  cases answer <;> rfl

theorem drain_fuel {l : Lexer} (h : l.Sound) {n k : Nat} (hn : l.pending.length < n)
    (hk : l.pending.length < k) : drain n l = drain k l := by
  induction n generalizing l k with
  | zero => omega
  | succ n ih =>
    obtain ⟨k, rfl⟩ : ∃ k', k = k' + 1 := ⟨k - 1, by omega⟩
    rw [drain_succ, drain_succ]
    cases hnext : l.next.2 with
    | token t =>
      have hlt := Lexer.next_token_lt h (show l.next = (l.next.1, .token t) by rw [← hnext])
      exact ih h.next (by omega) (by omega)
    | error | needMore | eof => rfl

theorem drainAll_eq {l : Lexer} (h : l.Sound) : drainAll l = match l.next.2 with
    | .token _ => drainAll l.next.1
    | .error _ => (l.next.1, false)
    | .needMore | .eof => (l.next.1, true) := by
  rw [drainAll, drain_succ]
  cases hnext : l.next.2 with
  | token t =>
    have hlt := Lexer.next_token_lt h (show l.next = (l.next.1, .token t) by rw [← hnext])
    exact drain_fuel h.next hlt (Nat.lt_succ_self _)
  | error | needMore | eof => rfl

section

variable {rest : List UInt8} {final : Bool} {a b : Lexer}

theorem drainAll_agree (h : Lexer.Awaits rest final a b) (hend : (drainAll a).2 = false ∨ Last rest final) :
    (drainAll b).2 = (drainAll a).2 ∧ Lexer.Awaits rest final (drainAll a).1 (drainAll b).1 := by
  induction hn : a.pending.length using Nat.strongRecOn generalizing a b with
  | _ n ih =>
  have hnext := h.next
  rw [drainAll_eq h.sound_left] at hend ⊢
  rw [drainAll_eq h.sound_right]
  cases ha : a.next.2 with
  | token t =>
    rw [ha, if_neg (by simp)] at hnext
    rw [ha] at hend
    have hlt := Lexer.next_token_lt h.sound_left (show a.next = (a.next.1, .token t) by rw [← ha])
    rw [hnext.1]
    exact ih _ (hn ▸ hlt) hnext.2 hend rfl
  | error e =>
    rw [ha, if_neg (by simp)] at hnext
    rw [hnext.1]
    exact ⟨rfl, hnext.2⟩
  | eof =>
    rw [ha, if_neg (by simp)] at hnext
    rw [hnext.1]
    exact ⟨rfl, hnext.2⟩
  | needMore =>
    rw [ha] at hend
    obtain ⟨rfl, rfl⟩ : Last rest final := hend.resolve_left nofun
    obtain ⟨hb, hawaits⟩ := h.needMore ha
    rw [hb]
    exact ⟨rfl, hawaits⟩

/-- If nothing bad is found, the lexer with more of the text can look on. -/
theorem drainAll_resumes (h : Lexer.Awaits rest final a b) (hgood : (drainAll a).2 = true) :
    ∃ b', Lexer.Awaits rest final (drainAll a).1 b' ∧ drainAll b' = drainAll b := by
  induction hn : a.pending.length using Nat.strongRecOn generalizing a b with
  | _ n ih =>
  have hnext := h.next
  rw [drainAll_eq h.sound_left] at hgood ⊢
  cases ha : a.next.2 with
  | token t =>
    rw [ha, if_neg (by simp)] at hnext
    rw [ha] at hgood
    have hlt := Lexer.next_token_lt h.sound_left (show a.next = (a.next.1, .token t) by rw [← ha])
    rw [drainAll_eq h.sound_right, hnext.1]
    exact ih _ (hn ▸ hlt) hnext.2 hgood rfl
  | error e =>
    rw [ha] at hgood
    cases hgood
  | eof =>
    rw [ha, if_neg (by simp)] at hnext
    refine ⟨b.next.1, hnext.2, ?_⟩
    have heof := Lexer.next_eof h.sound_right (show b.next = (b.next.1, .eof) by rw [← hnext.1])
    rw [drainAll_eq h.sound_right.next, drainAll_eq h.sound_right, heof, hnext.1]
  | needMore =>
    rw [ha, if_pos rfl] at hnext
    exact ⟨b, hnext, rfl⟩

end

/-! ## Between two calls -/

/-- How the text at hand goes with a verdict. A rejected document is not read on. Behind an accepted value
the text is read on, and `trailing` says whether it has been found bad; `last` is the lexer of the whole
run at its end. -/
def Judged (rest : List UInt8) (final : Bool) (last a : Lexer) : Bool → Verdict → Prop
  | trailing, .invalid _ => trailing = false ∧ a.failed = last.failed
  | true, .valid => (drainAll last).2 = false ∧ a.failed = (drainAll last).1.failed
  | false, .valid => ∃ b, Lexer.Awaits rest final a b ∧ drainAll b = drainAll last

/-- A session between two calls, compared with the run of `whole` over the whole text; `before` are the
events of that run so far. -/
inductive Tracked {σ : Type} (E : Easing) (exe : Executable) (rest : List UInt8) (final : Bool) (whole : Machine)
    (before : List Event) (s : Session σ) : Prop where
  | running (f : Machine) (htrailing : s.trailing = false) (hverdict : s.machine.verdict = none)
    (hfollows : Follows (E.over rest final) s.machine f) (hcontinues : Continues exe whole before f)
  | judged (n : Nat) (v : Verdict) (u : Machine) (hverdict : s.machine.verdict = some v)
    (hends : Ends exe n whole before (.done v) u)
    (hjudged : Judged rest final u.input s.machine.input s.trailing v)

section

variable {σ : Type} {E : Easing} {exe : Executable} {rest : List UInt8} {final : Bool} {whole : Machine}
  {before : List Event} {s : Session σ}

theorem Judged.feed {last a : Lexer} {trailing : Bool} {v : Verdict} (bytes : List UInt8)
    (h : Judged (bytes ++ rest) final last a trailing v) :
    Judged rest final last (a.feed bytes) trailing v := by
  have hfailed : (a.feed bytes).failed = a.failed := by
    unfold Lexer.feed
    split <;> rfl
  cases v with
  | invalid reason => exact ⟨h.1, hfailed.trans h.2⟩
  | valid =>
    cases trailing with
    | true => exact ⟨h.1, hfailed.trans h.2⟩
    | false =>
      obtain ⟨b, hawaits, hsame⟩ := h
      exact ⟨b, hawaits.feed, hsame⟩

theorem Judged.close {last a : Lexer} {trailing : Bool} {v : Verdict}
    (h : Judged [] true last a trailing v) : Judged [] false last a.close trailing v := by
  cases v with
  | invalid reason => exact h
  | valid =>
    cases trailing with
    | true => exact h
    | false =>
      obtain ⟨b, hawaits, hsame⟩ := h
      exact ⟨b, hawaits.close, hsame⟩

theorem Tracked.feed (bytes : List UInt8) (h : Tracked E exe (bytes ++ rest) final whole before s) :
    Tracked E exe rest final whole before { s with machine := s.machine.feed bytes } := by
  cases h with
  | running f htrailing hverdict hfollows hcontinues =>
    refine .running f htrailing hverdict ?_ hcontinues
    obtain ⟨input, meter, hawaits, hmeter, rfl⟩ := hfollows
    exact ⟨input, meter, hawaits.feed, hmeter, rfl⟩
  | judged n v u hverdict hends hjudged => exact .judged n v u hverdict hends (hjudged.feed bytes)

theorem Tracked.close (h : Tracked E exe [] true whole before s) : Tracked E exe [] false whole before
      { s with closed := true, machine := s.machine.close } := by
  cases h with
  | running f htrailing hverdict hfollows hcontinues =>
    refine .running f htrailing hverdict ?_ hcontinues
    obtain ⟨input, meter, hawaits, hmeter, rfl⟩ := hfollows
    exact ⟨input, meter, hawaits.close, hmeter, rfl⟩
  | judged n v u hverdict hends hjudged => exact .judged n v u hverdict hends hjudged.close

/-! ## One call -/

/-- What the end of the whole run says about the document. -/
def conclusion (u : Machine) : Reply → Answer
  | .done .valid => .status (if (drainAll u.input).2 then .valid else .invalid .invalidJson)
  | r => r.answer

def errorFound (u : Machine) : Reply → Option LexError
  | .done .valid => (drainAll u.input).1.failed
  | _ => u.input.failed

/-- The session has come to what the end of the whole run says. -/
def Concludes (exe : Executable) (whole : Machine) (events : List Event) (s : Session σ)
    (answer : Answer) : Prop :=
  ∃ n r u, Ends exe n whole events r u ∧ answer = conclusion u r ∧ s.lexerError = errorFound u r

/-- Events as a session tells them: those of the whole run, and at the end those of an instruction that
waits. -/
def Tells (told pre : List Event) : Prop :=
  Quiet pre ∧ (told = pre ∨ ∃ pc code depth, told = pre ++ [.instruction pc code depth, .suspend pc])

inductive Advanced (E : Easing) (exe : Executable) (observer : Observer σ) (rest : List UInt8) (final : Bool)
    (whole : Machine) (before : List Event) (s s' : Session σ) (answer : Answer) : Prop where
  | goes (known : Status) (told pre : List Event) (hanswer : answer = .status known)
    (hseen : s'.seen = observer.observe s.seen told) (htells : Tells told pre)
    (htracked : Tracked E exe rest final whole (before ++ pre) s')
    (hlast : Last rest final → Concludes exe whole (before ++ told) s' answer)
  | fails (e : RunError) (told : List Event) (hanswer : answer = .failed e)
    (hseen : s'.seen = observer.observe s.seen told) (hquiet : Quiet told)
    (hconcludes : Concludes exe whole (before ++ told) s' answer)
  | limit (e : LimitError) (hloose : ¬ E.Exact) (hanswer : answer = .failed (.limit e))
    (htracked : E.Open → ∃ pre, Tracked E exe rest final whole (before ++ pre) s')
  | deep (hloose : ¬ E.Exact) (limit depth : Nat)
    (hdeep : answer = .failed (.limit (.callDepth limit depth)) ∨
      ∃ n events u, Ends exe n whole events (.failed (.limit (.callDepth limit depth))) u)

theorem lookBehind_eq (s : Session σ) : s.lookBehind = ({ s with
        machine := { s.machine with input := (drainAll s.machine.input).1 }
        trailing := !(drainAll s.machine.input).2 },
      .status (if (drainAll s.machine.input).2 then .valid else .invalid .invalidJson)) := rfl

theorem lookBehind_judged {last : Lexer} (h : Judged rest final last s.machine.input false .valid) :
    Judged rest final last s.lookBehind.1.machine.input s.lookBehind.1.trailing .valid ∧
      (Last rest final → s.lookBehind.2 = .status (if (drainAll last).2 then .valid else .invalid .invalidJson) ∧
        s.lookBehind.1.lexerError = (drainAll last).1.failed) := by
  obtain ⟨b, hawaits, hsame⟩ := h
  rw [lookBehind_eq]
  unfold lexerError
  dsimp only
  refine ⟨?_, fun hlast => ?_⟩
  · cases hgood : (drainAll s.machine.input).2 with
    | true =>
      obtain ⟨b', hawaits', hsame'⟩ := drainAll_resumes hawaits hgood
      exact ⟨b', hawaits', hsame'.trans hsame⟩
    | false =>
      obtain ⟨hbad, hawaits'⟩ := drainAll_agree hawaits (.inl hgood)
      rw [hsame] at hbad hawaits'
      exact ⟨hbad.trans hgood, hawaits'.failed_eq⟩
  · obtain ⟨hgood, hawaits'⟩ := drainAll_agree hawaits (.inr hlast)
    rw [hsame] at hgood hawaits'
    exact ⟨by rw [hgood], hawaits'.failed_eq⟩

variable (observer : Observer σ) (fuel : Nat)

theorem advance_trailing (h : s.trailing = true) :
    s.advance exe observer fuel = (s, .status (.invalid .invalidJson)) := by
  rw [advance, if_pos h]

def report (s : Session σ) : Reply → Session σ × Answer
  | .done .valid => s.lookBehind
  | r => (s, r.answer)

variable {m u : Machine} {v : Verdict}

theorem advance_of_run (h : s.trailing = false) {seen : σ} {r : Reply}
    (hrun : s.machine.run exe observer fuel s.seen = (m, seen, r)) :
    s.advance exe observer fuel = report { s with machine := m, seen } r := by
  rw [advance, if_neg (by simp [h]), hrun]
  rfl

theorem run_verdict (h : m.verdict = some v) (seen : σ) : m.run exe observer fuel seen = (m, seen, .done v) := by
  rw [Machine.run, h]

theorem advance_judged {n : Nat} (hverdict : s.machine.verdict = some v) (hends : Ends exe n whole before (.done v) u)
    (hjudged : Judged rest final u.input s.machine.input s.trailing v) :
    Advanced E exe observer rest final whole before s (s.advance exe observer fuel).1
      (s.advance exe observer fuel).2 := by
  have hquiet : Tells [] [] := ⟨nofun, .inl rfl⟩
  have hnone : before ++ [] = before := List.append_nil before
  cases htrailing : s.trailing with
  | true =>
    rw [advance_trailing observer fuel htrailing]
    cases v with
    | invalid reason =>
      rw [htrailing] at hjudged
      cases hjudged.1
    | valid =>
      refine .goes (.invalid .invalidJson) [] [] rfl rfl hquiet ?_ fun _ => ?_
      · rw [hnone]
        exact .judged n .valid u hverdict hends hjudged
      · rw [htrailing] at hjudged
        rw [hnone]
        refine ⟨n, .done .valid, u, hends, ?_, hjudged.2⟩
        simp only [conclusion, hjudged.1]
        rfl
  | false =>
    have hrun : s.machine.run exe observer fuel s.seen = _ :=
      run_verdict observer fuel hverdict s.seen
    rw [advance_of_run observer fuel htrailing hrun]
    cases v with
    | invalid reason =>
      refine .goes (.invalid reason) [] [] rfl rfl hquiet ?_ fun _ => ?_
      · rw [hnone]
        exact .judged n (.invalid reason) u hverdict hends hjudged
      · rw [hnone]
        exact ⟨n, .done (.invalid reason), u, hends, rfl, hjudged.2⟩
    | valid =>
      rw [htrailing] at hjudged
      obtain ⟨hbehind, hlast⟩ := lookBehind_judged hjudged
      refine .goes _ [] [] rfl rfl hquiet ?_ fun hl => ?_
      · rw [hnone]
        exact .judged n .valid u hverdict hends hbehind
      · rw [hnone]
        exact ⟨n, .done .valid, u, hends, hlast hl⟩

theorem failed_of_follows (h : Follows (E.over rest final) m u) : m.input.failed = u.input.failed := by
  obtain ⟨input, meter, hawaits, -, rfl⟩ := h
  exact hawaits.failed_eq

theorem advance_done (htrailing : s.trailing = false) {k : Nat}
    {events : List Event} (hverdict : m.verdict = some v) (hquiet : Quiet events)
    (hends : Ends exe k whole (before ++ events) (.done v) u) (hfollows : Follows (E.over rest final) m u) :
    Advanced E exe observer rest final whole before s
      (report { s with machine := m, seen := observer.observe s.seen events } (.done v)).1
      (report { s with machine := m, seen := observer.observe s.seen events } (.done v)).2 := by
  have htells : Tells events events := ⟨hquiet, .inl rfl⟩
  cases v with
  | invalid reason =>
    have hfailed := failed_of_follows hfollows
    refine .goes (.invalid reason) events events rfl rfl htells ?_ fun _ => ?_
    · exact .judged k (.invalid reason) u hverdict hends ⟨htrailing, hfailed⟩
    · exact ⟨k, .done (.invalid reason), u, hends, rfl, hfailed⟩
  | valid =>
    have hjudged : Judged rest final u.input m.input false .valid := by
      obtain ⟨input, meter, hawaits, -, rfl⟩ := hfollows
      exact ⟨input, hawaits, rfl⟩
    obtain ⟨hbehind, hlast⟩ := lookBehind_judged
      (s := { s with machine := m, seen := observer.observe s.seen events }) hjudged
    refine .goes _ events events rfl rfl htells ?_ fun hl => ?_
    · exact .judged k .valid u hverdict hends hbehind
    · exact ⟨k, .done .valid, u, hends, hlast hl⟩

theorem advance_running {f : Machine} (htrailing : s.trailing = false)
    (hverdict : s.machine.verdict = none) (hfollows : Follows (E.over rest final) s.machine f)
    (hcontinues : Continues exe whole before f) (hrunning : (s.advance exe observer fuel).2 ≠ .running) :
    Advanced E exe observer rest final whole before s (s.advance exe observer fuel).1
      (s.advance exe observer fuel).2 := by
  rcases hrun : s.machine.run exe observer fuel s.seen with ⟨m, seen, r⟩
  rw [advance_of_run observer fuel htrailing hrun] at hrunning ⊢
  have hr : r ≠ .running := by
    rintro rfl
    exact hrunning rfl
  obtain ⟨n, events, hends, rfl⟩ := Machine.exists_ends observer hrun hr hverdict
  cases hends.follow trivial hfollows with
  | same k u hreply hquiet hon hfollows =>
    obtain ⟨k, hwhole⟩ := hcontinues.back hon
    cases r with
    | done v => exact advance_done observer htrailing hends.verdict_eq hquiet hwhole hfollows
    | failed e =>
      exact .fails e events rfl rfl hquiet ⟨k, .failed e, u, hwhole, rfl, failed_of_follows hfollows⟩
    | needMore => exact absurd rfl hreply
    | running => exact absurd rfl hr
  | waits pre pc code depth f' hreply hquiet hevents hfollows hon hlast =>
    subst hreply
    refine .goes .needMore events pre rfl rfl ⟨hquiet, .inr ⟨pc, code, depth, hevents⟩⟩
      (.running f' htrailing (hends.verdict_eq.trans hverdict) hfollows (hcontinues.trans hon)) ?_
    intro hl
    obtain ⟨k, u, hon, hfollows⟩ := hlast hl
    obtain ⟨k, hwhole⟩ := hcontinues.back hon
    exact ⟨k, .needMore, u, hwhole, rfl, failed_of_follows hfollows⟩
  | limit e hloose hreply hagain =>
    subst hreply
    refine .limit e hloose rfl fun hopen => ?_
    obtain ⟨pre, f', hfollows, hon⟩ := hagain hopen
    exact ⟨pre, .running f' htrailing (hends.verdict_eq.trans hverdict) hfollows (hcontinues.trans hon)⟩
  | deep hloose limit depth hdeep =>
    refine .deep hloose limit depth ?_
    rcases hdeep with rfl | ⟨k, events', u, hon⟩
    · exact .inl rfl
    · obtain ⟨k', hwhole⟩ := hcontinues.back hon
      exact .inr ⟨k', _, u, hwhole⟩

/-- A call keeps a session at a point of the whole run, or ends it as that run ends. -/
theorem advance_tracked (h : Tracked E exe rest final whole before s)
    (hrunning : (s.advance exe observer fuel).2 ≠ .running) :
    Advanced E exe observer rest final whole before s (s.advance exe observer fuel).1
      (s.advance exe observer fuel).2 := by
  cases h with
  | running f htrailing hverdict hfollows hcontinues =>
    exact advance_running observer fuel htrailing hverdict hfollows hcontinues hrunning
  | judged n v u hverdict hends hjudged =>
    exact advance_judged observer fuel hverdict hends hjudged

end

end Session

end JsonSieve
