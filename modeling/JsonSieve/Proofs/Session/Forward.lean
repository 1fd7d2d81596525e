import JsonSieve.Proofs.Machine.Onward
import JsonSieve.Proofs.Session.Limits

/-!
# Sessions move forward

A session is called in any order: chunks, the end of the document, chunks after the end, further ends.
What it knows of the document only grows. It waits, then it rejects for good, or it accepts and can still
find bad text behind the value (`Status.Leads`); and once the document has ended the verdict stays and no
chunk is taken (`Final`). `replies_forward` puts this together for all sequences of calls in which the
machine does not fail, under any limits.
-/

namespace JsonSieve

namespace Session

inductive Call where
  | more (bytes : List UInt8)
  | close
  deriving DecidableEq, Repr

/-- A call as it is made: at a time, and with fuel for its run. -/
structure Turn where
  call : Call
  fuel : Nat
  time : Nat := 0

variable {σ : Type}

def start (meter : Meter) (seen : σ) : Session σ := { machine := { meter }, seen }

def turn (exe : Executable) (observer : Observer σ) (t : Turn) (s : Session σ) : Session σ × Answer :=
  match t.call with
  | .more bytes => (s.atTime t.time).more exe observer t.fuel bytes
  | .close => (s.atTime t.time).close exe observer t.fuel

def after (exe : Executable) (observer : Observer σ) (s : Session σ) (turns : List Turn) : Session σ :=
  turns.foldl (fun s t => (s.turn exe observer t).1) s

def replies (exe : Executable) (observer : Observer σ) : List Turn → Session σ → List Answer
  | [], _ => []
  | t :: turns, s => (s.turn exe observer t).2 :: replies exe observer turns (s.turn exe observer t).1

/-- Every answer is a status, but for the refusal of chunks after the end. -/
def Faultless (answers : List Answer) : Prop :=
  ∀ a ∈ answers, (∃ known, a = .status known) ∨ a = .failed .closed

def statuses (answers : List Answer) : List Status := answers.filterMap fun
  | .status known => some known
  | _ => none

end Session

/-! ## What a status can become -/

/-- What can be known after a status is known: the same; anything, after waiting; and that bad text follows
the accepted value. -/
inductive Status.Leads : Status → Status → Prop where
  | same (known : Status) : Leads known known
  | found (known : Status) : Leads .needMore known
  | spoiled : Leads .valid (.invalid .invalidJson)

/-- Waiting, and then one rejection for good, or acceptance and possibly the rejection of what follows. -/
def Status.Forward (statuses : List Status) : Prop :=
  ∃ waiting decided, (∃ reason, statuses =
      List.replicate waiting .needMore ++ List.replicate decided (.invalid reason)) ∨
    ∃ spoiled, statuses = List.replicate waiting .needMore ++ (List.replicate decided .valid ++
      List.replicate spoiled (.invalid .invalidJson))

namespace Status

variable {statuses : List Status}

theorem replicate_of_rejected {reason : Reason} (h : List.IsChain Leads (.invalid reason :: statuses)) :
    statuses = List.replicate statuses.length (.invalid reason) := by
  induction statuses with
  | nil => rfl
  | cons known statuses ih =>
    rw [List.isChain_cons_cons] at h
    obtain ⟨hleads, hrest⟩ := h
    cases hleads
    rw [List.length_cons, List.replicate_succ, ← ih hrest]

theorem replicate_of_accepted (h : List.IsChain Leads (.valid :: statuses)) : ∃ decided spoiled, statuses =
      List.replicate decided .valid ++ List.replicate spoiled (.invalid .invalidJson) := by
  induction statuses with
  | nil => exact ⟨0, 0, rfl⟩
  | cons known statuses ih =>
    rw [List.isChain_cons_cons] at h
    obtain ⟨hleads, hrest⟩ := h
    cases hleads with
    | same =>
      obtain ⟨decided, spoiled, heq⟩ := ih hrest
      exact ⟨decided + 1, spoiled, by rw [heq, List.replicate_succ, List.cons_append]⟩
    | spoiled =>
      refine ⟨0, statuses.length + 1, ?_⟩
      rw [List.replicate_succ, ← replicate_of_rejected hrest]
      rfl

theorem forward_of_chain (h : List.IsChain Leads (.needMore :: statuses)) : Forward statuses := by
  induction statuses with
  | nil => exact ⟨0, 0, .inr ⟨0, rfl⟩⟩
  | cons known statuses ih =>
    rw [List.isChain_cons_cons] at h
    cases known with
    | needMore =>
      obtain ⟨waiting, decided, hshape⟩ := ih h.2
      refine ⟨waiting + 1, decided, hshape.imp ?_ ?_⟩
      · rintro ⟨reason, rfl⟩
        exact ⟨reason, rfl⟩
      · rintro ⟨spoiled, rfl⟩
        exact ⟨spoiled, rfl⟩
    | valid =>
      obtain ⟨decided, spoiled, rfl⟩ := replicate_of_accepted h.2
      exact ⟨0, decided + 1, .inr ⟨spoiled, rfl⟩⟩
    | invalid reason =>
      refine ⟨0, statuses.length + 1, .inl ⟨reason, ?_⟩⟩
      rw [List.replicate_succ, ← replicate_of_rejected h.2]
      rfl

end Status

namespace Session

variable {σ : Type} {exe : Executable} {observer : Observer σ} {fuel : Nat} {s : Session σ}

/-! ## Behind the end of the text -/

variable {l : Lexer} {known v : Status} {e : RunError} {reason : Reason} {t : Turn}

theorem drainAll_onward (h : l.Sound) : l.Onward (drainAll l).1 := by
  induction hn : l.pending.length using Nat.strongRecOn generalizing l with
  | _ n ih =>
  rw [drainAll_eq h]
  cases hnext : l.next.2 with
  | token t =>
    have hlt := Lexer.next_token_lt h (show l.next = (l.next.1, .token t) by rw [← hnext])
    exact (Lexer.Onward.next l).trans (ih _ (hn ▸ hlt) h.next rfl)
  | error | needMore | eof => exact Lexer.Onward.next l

theorem drainAll_end (h : l.Sound) (hclosed : l.closed = true)
    (hgood : (drainAll l).2 = true) : (drainAll l).1.next = ((drainAll l).1, .eof) := by
  induction hn : l.pending.length using Nat.strongRecOn generalizing l with
  | _ n ih =>
  rw [drainAll_eq h] at hgood ⊢
  cases hnext : l.next.2 with
  | token t =>
    rw [hnext] at hgood
    have hlt := Lexer.next_token_lt h (show l.next = (l.next.1, .token t) by rw [← hnext])
    exact ih _ (hn ▸ hlt) h.next ((Lexer.next_closed h).trans hclosed) hgood rfl
  | error e =>
    rw [hnext] at hgood
    cases hgood
  | needMore => exact absurd hnext (Lexer.next_ne_needMore h hclosed)
  | eof => exact Lexer.next_eof h (show l.next = (l.next.1, .eof) by rw [← hnext])

/-! ## One call -/

theorem report_input (hsound : s.machine.input.Sound) (r : Reply) :
    s.machine.input.Onward (s.report r).1.machine.input := by
  rcases r with _ | ⟨_ | _⟩ | _ | _
  case done.valid => exact drainAll_onward hsound
  all_goals exact Lexer.Onward.refl _

theorem advance_onward (exe : Executable) (observer : Observer σ) (fuel : Nat) (hsound : s.machine.input.Sound) :
    s.machine.input.Onward (s.advance exe observer fuel).1.machine.input := by
  cases htrailing : s.trailing with
  | true =>
    rw [advance_trailing observer fuel htrailing]
    exact Lexer.Onward.refl _
  | false =>
    have hrun := Machine.run_onward exe observer fuel s.machine s.seen
    rcases hreply : s.machine.run exe observer fuel s.seen with ⟨m, seen, r⟩
    rw [hreply] at hrun
    rw [advance_of_run observer fuel htrailing hreply]
    exact hrun.trans (report_input (s := { s with machine := m, seen }) (hrun.sound hsound) r)

/-- Where a call finds a document acceptable that has ended, the end of its text has been read. -/
theorem advance_end (hsound : s.machine.input.Sound) (hclosed : s.machine.input.closed = true)
    (hanswer : (s.advance exe observer fuel).2 = .status .valid) :
    (s.advance exe observer fuel).1.machine.input.next = ((s.advance exe observer fuel).1.machine.input, .eof) := by
  cases htrailing : s.trailing with
  | true =>
    rw [advance_trailing observer fuel htrailing] at hanswer
    cases hanswer
  | false =>
    have hrun := Machine.run_onward exe observer fuel s.machine s.seen
    rcases hreply : s.machine.run exe observer fuel s.seen with ⟨m, seen, r⟩
    rw [hreply] at hrun
    rw [advance_of_run observer fuel htrailing hreply] at hanswer ⊢
    rcases r with _ | ⟨_ | _⟩ | _ | _
    case done.valid =>
      rw [report, lookBehind_eq] at hanswer ⊢
      cases hgood : (drainAll m.input).2 with
      | true => exact drainAll_end (hrun.sound hsound) ((hrun.closed_eq hsound).trans hclosed) hgood
      | false =>
        rw [hgood] at hanswer
        cases hanswer
    all_goals cases hanswer

inductive Knows (s : Session σ) : Status → Prop where
  | waiting (htrailing : s.trailing = false) (hverdict : s.machine.verdict = none) :
    Knows s .needMore
  | accepted (htrailing : s.trailing = false) (hverdict : s.machine.verdict = some .valid) :
    Knows s .valid
  | rejected (reason : Reason) (htrailing : s.trailing = false)
    (hverdict : s.machine.verdict = some (.invalid reason)) : Knows s (.invalid reason)
  | spoiled (htrailing : s.trailing = true) : Knows s (.invalid .invalidJson)

theorem lookBehind_knows (hverdict : s.machine.verdict = some .valid)
    (hanswer : s.lookBehind.2 = .status known) : s.lookBehind.1.Knows known ∧ Status.Leads .valid known := by
  rw [lookBehind_eq] at hanswer ⊢
  cases hgood : (drainAll s.machine.input).2 with
  | true =>
    rw [hgood] at hanswer
    cases hanswer
    exact ⟨.accepted rfl hverdict, .same .valid⟩
  | false =>
    rw [hgood] at hanswer
    cases hanswer
    exact ⟨.spoiled rfl, .spoiled⟩

theorem Knows.advance {known' : Status} (h : s.Knows known)
    (hanswer : (s.advance exe observer fuel).2 = .status known') :
    (s.advance exe observer fuel).1.Knows known' ∧ known.Leads known' := by
  cases h with
  | spoiled htrailing =>
    rw [advance_trailing observer fuel htrailing] at hanswer ⊢
    cases hanswer
    exact ⟨.spoiled htrailing, .same _⟩
  | rejected reason htrailing hverdict =>
    rw [advance_of_run observer fuel htrailing (run_verdict observer fuel hverdict s.seen)] at hanswer ⊢
    cases hanswer
    exact ⟨.rejected reason htrailing hverdict, .same _⟩
  | accepted htrailing hverdict =>
    rw [advance_of_run observer fuel htrailing (run_verdict observer fuel hverdict s.seen)] at hanswer ⊢
    exact lookBehind_knows hverdict hanswer
  | waiting htrailing hverdict =>
    refine ⟨?_, .found known'⟩
    rcases hrun : s.machine.run exe observer fuel s.seen with ⟨m, seen, r⟩
    rw [advance_of_run observer fuel htrailing hrun] at hanswer ⊢
    have hr : r ≠ .running := by
      rintro rfl
      cases hanswer
    obtain ⟨n, events, hends, -⟩ := Machine.exists_ends observer hrun hr hverdict
    have hafter := hends.verdict_eq
    rcases r with _ | ⟨_ | reason⟩ | _ | _
    case done.valid => exact (lookBehind_knows hafter hanswer).1
    all_goals cases hanswer
    · exact .waiting htrailing (hafter.trans hverdict)
    · exact .rejected reason htrailing hafter

theorem Knows.advance_failed (h : s.Knows known) (hanswer : (s.advance exe observer fuel).2 = .failed e) :
    (s.advance exe observer fuel).1.Knows known := by
  cases h with
  | spoiled htrailing =>
    rw [advance_trailing observer fuel htrailing] at hanswer
    cases hanswer
  | rejected reason htrailing hverdict | accepted htrailing hverdict =>
    rw [advance_of_run observer fuel htrailing (run_verdict observer fuel hverdict s.seen)] at hanswer
    cases hanswer
  | waiting htrailing hverdict =>
    rcases hrun : s.machine.run exe observer fuel s.seen with ⟨m, seen, r⟩
    rw [advance_of_run observer fuel htrailing hrun] at hanswer ⊢
    have hr : r ≠ .running := by
      rintro rfl
      cases hanswer
    obtain ⟨n, events, hends, -⟩ := Machine.exists_ends observer hrun hr hverdict
    rcases r with _ | ⟨_ | _⟩ | _ | _
    case failed => exact .waiting htrailing (hends.verdict_eq.trans hverdict)
    all_goals cases hanswer

theorem Knows.advance_rejected (h : s.Knows (.invalid reason)) :
    s.advance exe observer fuel = (s, .status (.invalid reason)) := by
  cases h with
  | spoiled htrailing => exact advance_trailing observer fuel htrailing
  | rejected _ htrailing hverdict =>
    exact advance_of_run observer fuel htrailing (run_verdict observer fuel hverdict s.seen)

/-- Only the verdict and what stands behind the value matter. -/
theorem Knows.congr {s' : Session σ} (h : s.Knows known) (htrailing' : s'.trailing = s.trailing)
    (hverdict' : s'.machine.verdict = s.machine.verdict) : s'.Knows known := by
  cases h with
  | spoiled htrailing => exact .spoiled (htrailing'.trans htrailing)
  | rejected reason htrailing hverdict =>
    exact .rejected reason (htrailing'.trans htrailing) (hverdict'.trans hverdict)
  | accepted htrailing hverdict => exact .accepted (htrailing'.trans htrailing) (hverdict'.trans hverdict)
  | waiting htrailing hverdict => exact .waiting (htrailing'.trans htrailing) (hverdict'.trans hverdict)

theorem Knows.atTime (h : s.Knows known) (time : Nat) : (s.atTime time).Knows known := h.congr rfl rfl

theorem Knows.ended (h : s.Knows known) (time : Nat) : (s.ended time).Knows known := h.congr rfl rfl

/-- A session as a call finds it when it goes on with the text. -/
def taken (t : Turn) (s : Session σ) : Session σ :=
  match t.call with
  | .more bytes => s.taking t.time bytes
  | .close => s.ended t.time

theorem Knows.taken (h : s.Knows known) (t : Turn) : (s.taken t).Knows known := by
  unfold Session.taken
  cases t.call with
  | more | close => exact h.congr rfl rfl

theorem taken_sound (h : s.machine.input.Sound) (t : Turn) : (s.taken t).machine.input.Sound := by
  unfold taken
  cases t.call with
  | more bytes => exact h.feed bytes
  | close => exact h.close

def Call.ends : Call → Answer → Answer
  | .more _, answer => answer
  | .close, answer => closing answer

/-- A call is refused, or it goes on with the text. -/
theorem turn_cases (exe : Executable) (observer : Observer σ) (t : Turn) (s : Session σ) :
    ((∃ bytes, t.call = .more bytes) ∧ s.closed = true ∧
      s.turn exe observer t = (s.atTime t.time, .failed .closed)) ∨ ((s.closed = true → t.call = .close) ∧
      s.turn exe observer t = (((s.taken t).advance exe observer t.fuel).1,
        t.call.ends ((s.taken t).advance exe observer t.fuel).2)) := by
  unfold turn taken
  cases hcall : t.call with
  | more bytes =>
    cases hclosed : s.closed with
    | true =>
      refine .inl ⟨⟨bytes, rfl⟩, rfl, ?_⟩
      dsimp only
      rw [more, if_pos (show (s.atTime t.time).closed = true from hclosed)]
    | false =>
      refine .inr ⟨(fun h => by cases h), ?_⟩
      dsimp only
      rw [more_eq (show (s.atTime t.time).closed = false from hclosed)]
      rfl
  | close => exact .inr ⟨fun _ => rfl, close_eq _⟩

theorem turn_of_close (ht : t.call = .close) (s : Session σ) :
    s.turn exe observer t = (((s.ended t.time).advance exe observer t.fuel).1,
      closing ((s.ended t.time).advance exe observer t.fuel).2) := by
  rw [turn, ht]
  exact close_eq _

theorem Call.ends_status {c : Call} {answer : Answer} (h : c.ends answer = .status known) : answer = .status known := by
  cases c with
  | more bytes => exact h
  | close => exact closing_status h

theorem Call.ends_failed {c : Call} {answer : Answer}
    (h : c.ends answer = .failed e) : answer = .status .needMore ∨ answer = .failed e := by
  cases c with
  | more bytes => exact .inr h
  | close =>
    rcases answer with ⟨_ | _ | _⟩ | _ | _
    · exact .inl rfl
    all_goals exact .inr h

theorem Call.ends_rejected (c : Call) (reason : Reason) :
    c.ends (.status (.invalid reason)) = .status (.invalid reason) := by
  cases c <;> rfl

theorem Knows.turn {known' : Status} (h : s.Knows known) (hanswer : (s.turn exe observer t).2 = .status known') :
    (s.turn exe observer t).1.Knows known' ∧ known.Leads known' := by
  rcases turn_cases exe observer t s with ⟨-, -, hturn⟩ | ⟨-, hturn⟩
  · rw [hturn] at hanswer
    cases hanswer
  · rw [hturn] at hanswer ⊢
    exact (h.taken t).advance (Call.ends_status hanswer)

theorem Knows.turn_failed (h : s.Knows known)
    (hanswer : (s.turn exe observer t).2 = .failed e) : (s.turn exe observer t).1.Knows known := by
  rcases turn_cases exe observer t s with ⟨-, -, hturn⟩ | ⟨-, hturn⟩
  · rw [hturn]
    exact h.atTime t.time
  · rw [hturn] at hanswer ⊢
    rcases Call.ends_failed hanswer with hwaiting | hfailed
    · obtain ⟨hknows, hleads⟩ := (h.taken t).advance hwaiting
      cases hleads with
      | same | found => exact hknows
    · exact (h.taken t).advance_failed hfailed

theorem Knows.turn_rejected (h : s.Knows (.invalid reason)) (t : Turn) :
    (s.turn exe observer t).1.Knows (.invalid reason) ∧ ((s.turn exe observer t).2 = .status (.invalid reason) ∨
        (∃ bytes, t.call = .more bytes) ∧ s.closed = true ∧ (s.turn exe observer t).2 = .failed .closed) := by
  rcases turn_cases exe observer t s with ⟨hmore, hclosed, hturn⟩ | ⟨-, hturn⟩
  · rw [hturn]
    exact ⟨h.atTime t.time, .inr ⟨hmore, hclosed, rfl⟩⟩
  · rw [hturn, (h.taken t).advance_rejected]
    exact ⟨h.taken t, .inl (t.call.ends_rejected reason)⟩

theorem turn_sound (h : s.machine.input.Sound) (t : Turn) : (s.turn exe observer t).1.machine.input.Sound := by
  rcases turn_cases exe observer t s with ⟨-, -, hturn⟩ | ⟨-, hturn⟩
  · rw [hturn]
    exact h
  · rw [hturn]
    exact (advance_onward exe observer t.fuel (taken_sound h t)).sound (taken_sound h t)

theorem turn_close_willing (ht : t.call = .close) (s : Session σ) : (s.turn exe observer t).2 ≠ .failed .closed := by
  intro hclosed
  rw [turn_of_close ht] at hclosed
  have hanswer : ((s.ended t.time).advance exe observer t.fuel).2 = .failed .closed := by
    rcases hadvance : ((s.ended t.time).advance exe observer t.fuel).2 with ⟨_ | _ | _⟩ | _ | _ <;>
      rw [hadvance] at hclosed <;> first | exact hclosed | cases hclosed
  cases htrailing : s.trailing with
  | true =>
    rw [advance_trailing observer t.fuel (show (s.ended t.time).trailing = true from htrailing)] at hanswer
    cases hanswer
  | false =>
    have hrun := Machine.run_willing exe observer t.fuel (s.ended t.time).machine s.seen
    rcases hreply : (s.ended t.time).machine.run exe observer t.fuel s.seen with ⟨m, seen, r⟩
    rw [hreply] at hrun
    rw [advance_of_run observer t.fuel (show (s.ended t.time).trailing = false from htrailing) hreply] at hanswer
    rcases r with _ | ⟨_ | _⟩ | _ | _
    case failed e =>
      cases hanswer
      exact hrun rfl
    all_goals cases hanswer

/-! ## After the end -/

/-- The document has ended, and this is the verdict. -/
inductive Final (s : Session σ) : Status → Prop where
  | rejected (reason : Reason) (hclosed : s.closed = true) (h : s.Knows (.invalid reason)) :
    Final s (.invalid reason)
  | accepted (hclosed : s.closed = true) (h : s.Knows .valid)
    (hinput : s.machine.input.closed = true)
    (hend : s.machine.input.next = (s.machine.input, .eof)) : Final s .valid

theorem Final.closed (h : s.Final v) : s.closed = true := by
  cases h with
  | rejected reason hclosed => exact hclosed
  | accepted hclosed => exact hclosed

theorem drainAll_of_eof (h : l.next = (l, .eof)) : drainAll l = (l, true) := by
  rw [drainAll, drain_succ, h]

theorem Final.turn_close (h : s.Final v) (ht : t.call = .close) :
    (s.turn exe observer t).1.Final v ∧ (s.turn exe observer t).2 = .status v := by
  rw [turn_of_close ht]
  cases h with
  | rejected reason hclosed hknows =>
    rw [(hknows.ended t.time).advance_rejected]
    exact ⟨.rejected reason rfl (hknows.ended t.time), rfl⟩
  | accepted hclosed hknows hinput hend =>
    have hlexer : s.machine.input.close = s.machine.input := by
      rw [Lexer.close, ← hinput]
    have hbehind : drainAll (s.ended t.time).machine.input = (s.machine.input, true) :=
      (congrArg drainAll hlexer).trans (drainAll_of_eof hend)
    cases hknows with
    | accepted htrailing hverdict =>
      rw [advance_of_run observer t.fuel (show (s.ended t.time).trailing = false from htrailing)
        (run_verdict observer t.fuel (show (s.ended t.time).machine.verdict = _ from hverdict) _),
        report, lookBehind_eq, hbehind]
      exact ⟨.accepted rfl (.accepted rfl hverdict) hinput hend, rfl⟩

theorem turn_more_of_closed (h : s.closed = true) {bytes : List UInt8} (ht : t.call = .more bytes) :
    s.turn exe observer t = (s.atTime t.time, .failed .closed) := by
  rcases turn_cases exe observer t s with ⟨-, -, hturn⟩ | ⟨hclose, -⟩
  · exact hturn
  · rw [ht] at hclose
    cases hclose h

theorem Final.atTime (h : s.Final v) (time : Nat) : (s.atTime time).Final v := by
  cases h with
  | rejected reason hclosed hknows => exact .rejected reason hclosed (hknows.atTime time)
  | accepted hclosed hknows hinput hend => exact .accepted hclosed (hknows.atTime time) hinput hend

theorem Final.turn (h : s.Final v) (t : Turn) : (s.turn exe observer t).1.Final v := by
  cases ht : t.call with
  | more bytes =>
    rw [turn_more_of_closed h.closed ht]
    exact h.atTime t.time
  | close => exact (h.turn_close ht).1

theorem Final.after (h : s.Final v) (turns : List Turn) : (s.after exe observer turns).Final v := by
  induction turns generalizing s with
  | nil => exact h
  | cons t turns ih => exact ih (h.turn t)

/-- The end of the document, if it is answered with a status, gives a final verdict. -/
theorem Knows.turn_close (h : s.Knows known) (hsound : s.machine.input.Sound) (ht : t.call = .close)
    (hanswer : (s.turn exe observer t).2 = .status v) :
    (s.turn exe observer t).1.Final v := by
  have hknows := (h.turn hanswer).1
  have hclosed : (s.turn exe observer t).1.closed = true := by
    rw [turn_of_close ht, advance_closed]
    rfl
  cases v with
  | invalid reason => exact .rejected reason hclosed hknows
  | needMore =>
    rw [turn_of_close ht] at hanswer
    rw [closing_status hanswer] at hanswer
    cases hanswer
  | valid =>
    rw [turn_of_close ht] at hanswer hknows hclosed ⊢
    have hended : (s.ended t.time).machine.input.Sound := hsound.close
    have honward := advance_onward exe observer t.fuel hended
    exact .accepted hclosed hknows (honward.closed_eq hended) (advance_end hended rfl (closing_status hanswer))

/-! ## Call after call -/

theorem Knows.start (meter : Meter) (seen : σ) : (start meter seen).Knows .needMore :=
  .waiting rfl rfl

theorem after_append (s : Session σ) (before later : List Turn) :
    s.after exe observer (before ++ later) = (s.after exe observer before).after exe observer later :=
  List.foldl_append

theorem replies_append (before later : List Turn) (s : Session σ) : replies exe observer (before ++ later) s =
      replies exe observer before s ++ replies exe observer later (s.after exe observer before) := by
  induction before generalizing s with
  | nil => rfl
  | cons t before ih => exact congrArg (_ :: ·) (ih _)

theorem after_sound (h : s.machine.input.Sound) (turns : List Turn) :
    (s.after exe observer turns).machine.input.Sound := by
  induction turns generalizing s with
  | nil => exact h
  | cons t turns ih => exact ih (turn_sound h t)

theorem Knows.replies (h : s.Knows known) {turns : List Turn} (hfaultless : Faultless (replies exe observer turns s)) :
    List.IsChain Status.Leads (known :: statuses (Session.replies exe observer turns s)) ∧
      ∃ last, (s.after exe observer turns).Knows last := by
  induction turns generalizing s known with
  | nil => exact ⟨.singleton known, known, h⟩
  | cons t turns ih =>
    have hrest : Faultless (Session.replies exe observer turns (s.turn exe observer t).1) :=
      fun a ha => hfaultless a (.tail _ ha)
    rcases hfaultless _ (.head _) with ⟨known', hanswer⟩ | hclosed
    · obtain ⟨hknows, hleads⟩ := h.turn hanswer
      obtain ⟨hchain, hlast⟩ := ih hknows hrest
      refine ⟨?_, hlast⟩
      rw [Session.replies, hanswer]
      exact List.isChain_cons_cons.2 ⟨hleads, hchain⟩
    · obtain ⟨hchain, hlast⟩ := ih (h.turn_failed hclosed) hrest
      refine ⟨?_, hlast⟩
      rw [Session.replies, hclosed]
      exact hchain

theorem Knows.after_rejected (h : s.Knows (.invalid reason)) (turns : List Turn) :
    (s.after exe observer turns).Knows (.invalid reason) := by
  induction turns generalizing s with
  | nil => exact h
  | cons t turns ih => exact ih (h.turn_rejected t).1

/-- A session only moves forward. If no call fails, the statuses are waiting, and then one rejection for
good, or acceptance and possibly the rejection of what follows. The end of the document is answered with
a verdict; from then on every end is answered with the same one, and every chunk is refused and leaves the
session as it is. A rejection is final, whatever the calls after it are. -/
theorem replies_forward (exe : Executable) (observer : Observer σ) (meter : Meter) (seen : σ)
    (turns : List Turn) (h : Faultless (replies exe observer turns (start meter seen))) :
    Status.Forward (statuses (replies exe observer turns (start meter seen))) ∧
    (∀ before t later, turns = before ++ t :: later → t.call = .close →
      ∃ v, (((start meter seen).after exe observer before).turn exe observer t).2 = .status v ∧
        v ≠ .needMore ∧ ∀ between u, let s := (start meter seen).after exe observer (before ++ t :: between)
          (u.call = .close → (s.turn exe observer u).2 = .status v) ∧ ∀ bytes, u.call = .more bytes →
            s.turn exe observer u = (s.atTime u.time, .failed .closed)) ∧
    ∀ before t later reason, turns = before ++ t :: later →
      (((start meter seen).after exe observer before).turn exe observer t).2 = .status (.invalid reason) →
      ∀ between u, let s := (start meter seen).after exe observer (before ++ t :: between)
        (s.turn exe observer u).2 = .status (.invalid reason) ∨ (∃ bytes, u.call = .more bytes) ∧ s.closed = true ∧
            (s.turn exe observer u).2 = .failed .closed := by
  have hstart := Knows.start meter seen
  have hsound : (start meter seen).machine.input.Sound := Lexer.Sound.empty
  -- What is known before a call, and that the call does not fail.
  have hbefore : ∀ before t later, turns = before ++ t :: later →
      (∃ known, ((start meter seen).after exe observer before).Knows known) ∧
        ((∃ known, (((start meter seen).after exe observer before).turn exe observer t).2 = .status known) ∨
        (((start meter seen).after exe observer before).turn exe observer t).2 = .failed .closed) := by
    rintro before t later rfl
    rw [replies_append] at h
    refine ⟨(hstart.replies fun a ha => h a (List.mem_append_left _ ha)).2, ?_⟩
    exact h _ (List.mem_append_right _ (.head _))
  refine ⟨Status.forward_of_chain (hstart.replies h).1, ?_, ?_⟩
  · intro before t later hturns ht
    obtain ⟨⟨known, hknown⟩, hanswer⟩ := hbefore before t later hturns
    obtain ⟨v, hv⟩ := hanswer.resolve_right (turn_close_willing ht _)
    have hfinal := hknown.turn_close (after_sound hsound before) ht hv
    refine ⟨v, hv, ?_, fun between u => ?_⟩
    · rintro rfl
      cases hfinal
    · have hbetween : (Session.after exe observer _ between).Final v := hfinal.after between
      rw [after_append]
      exact ⟨fun hu => (hbetween.turn_close hu).2, fun bytes hu => turn_more_of_closed hbetween.closed hu⟩
  · intro before t later reason hturns hanswer between u
    obtain ⟨⟨known, hknown⟩, -⟩ := hbefore before t later hturns
    have hrejected : (Session.after exe observer _ between).Knows (.invalid reason) :=
      (hknown.turn hanswer).1.after_rejected between
    rw [after_append]
    exact (hrejected.turn_rejected u).2

/-- The document `[1]` in two chunks, a chunk after its end, and whatever comes then: a further end is
always answered with the same verdict. -/
theorem replies_forward_chunk_after_end :
    replies acceptAll Executable.unobserved [⟨.more [0x5b, 0x31], 9, 0⟩, ⟨.more [0x5d], 9, 0⟩, ⟨.close, 9, 0⟩,
      ⟨.more [0x78], 9, 0⟩] (start .free ()) = [.status .needMore, .status .valid, .status .valid, .failed .closed] ∧
    ∀ between, (((start .free ()).after acceptAll Executable.unobserved
      ([⟨.more [0x5b, 0x31], 9, 0⟩, ⟨.more [0x5d], 9, 0⟩] ++ ⟨.close, 9, 0⟩ :: between)).turn acceptAll
        Executable.unobserved ⟨.close, 9, 0⟩).2 = .status .valid := by
  have hreplies : replies acceptAll Executable.unobserved [⟨.more [0x5b, 0x31], 9, 0⟩,
      ⟨.more [0x5d], 9, 0⟩, ⟨.close, 9, 0⟩, ⟨.more [0x78], 9, 0⟩] (start .free ()) =
        [.status .needMore, .status .valid, .status .valid, .failed .closed] := by decide +kernel
  refine ⟨hreplies, fun between => ?_⟩
  obtain ⟨-, hends, -⟩ := replies_forward acceptAll Executable.unobserved .free () _
    (by rw [hreplies]; simp [Faultless])
  obtain ⟨v, hv, -, hlater⟩ := hends [⟨.more [0x5b, 0x31], 9, 0⟩, ⟨.more [0x5d], 9, 0⟩] ⟨.close, 9, 0⟩
    [⟨.more [0x78], 9, 0⟩] rfl rfl
  have hvalid : Answer.status v = .status .valid := by
    rw [← hv]
    exact congrArg (fun answers => answers.getD 2 .running) hreplies
  rw [(hlater between ⟨.close, 9, 0⟩).1 rfl, hvalid]

end Session

end JsonSieve
