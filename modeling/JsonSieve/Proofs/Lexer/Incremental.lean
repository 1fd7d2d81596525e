import JsonSieve.Proofs.Lexer.Extension

/-!
# Calls in any order

A lexer is fed, asked and closed in any order. The tokens that it hands out on the way and the ones that
are left at the end are the tokens of the whole text, and the last answer is that of the whole text
(`drain_calls`). The invariant is `Awaits`: between two calls the lexer stands behind the tokens that it
has handed out, and the lexer of the whole text, behind as many, answers what it will answer.
-/

namespace JsonSieve.Lexer

inductive Call where
  | feed (bytes : List UInt8)
  | close
  | next
  deriving DecidableEq, Repr

def call (l : Lexer) : Call → Lexer
  | .feed bytes => l.feed bytes
  | .close => l.close
  | .next => l.next.1

def after (l : Lexer) (calls : List Call) : Lexer := calls.foldl call l

def answers : List Call → Lexer → List Lexed
  | [], _ => []
  | .next :: calls, l => l.next.2 :: answers calls l.next.1
  | c :: calls, l => answers calls (l.call c)

def tokensIn (answers : List Lexed) : List Token := answers.filterMap fun
  | .token t => some t
  | _ => none

/-- The text that calls give: the bytes up to the first end of the text. -/
def textOf : List Call → List UInt8
  | [] | .close :: _ => []
  | .feed bytes :: calls => bytes ++ textOf calls
  | .next :: calls => textOf calls

/-- The tokens that a lexer hands out, no more than a number of them, and its last answer. -/
def drainWithin : Nat → Lexer → List Token × Lexed
  | 0, _ => ([], .needMore)
  | n + 1, l =>
    match l.next with
    | (l, .token t) => (t :: (drainWithin n l).1, (drainWithin n l).2)
    | (_, answer) => ([], answer)

/-- The tokens that a lexer hands out until something that is no token, and that last answer. Every token
takes a byte. -/
def drain (l : Lexer) : List Token × Lexed := drainWithin (l.pending.length + 1) l

def whole (text : List UInt8) : Lexer := (empty.feed text).close

/-! ## Draining -/

theorem drainWithin_succ (n : Nat) (l : Lexer) : drainWithin (n + 1) l = match l.next.2 with
    | .token t => (t :: (drainWithin n l.next.1).1, (drainWithin n l.next.1).2)
    | answer => ([], answer) := by
  rw [drainWithin]
  rcases l.next with ⟨l', answer⟩
  cases answer <;> rfl

variable {l : Lexer}

theorem drainWithin_fuel (h : l.Sound) {n k : Nat} (hn : l.pending.length < n)
    (hk : l.pending.length < k) : drainWithin n l = drainWithin k l := by
  induction n generalizing l k with
  | zero => omega
  | succ n ih =>
    obtain ⟨k, rfl⟩ : ∃ k', k = k' + 1 := ⟨k - 1, by omega⟩
    rw [drainWithin_succ, drainWithin_succ]
    cases hnext : l.next.2 with
    | token t =>
      have hlt := next_token_lt h (show l.next = (l.next.1, .token t) by rw [← hnext])
      dsimp only
      rw [ih h.next (by omega) (show _ < k by omega)]
    | error | needMore | eof => rfl

theorem drain_eq (h : l.Sound) : l.drain = match l.next.2 with
    | .token t => (t :: l.next.1.drain.1, l.next.1.drain.2)
    | answer => ([], answer) := by
  rw [drain, drainWithin_succ]
  cases hnext : l.next.2 with
  | token t =>
    have hlt := next_token_lt h (show l.next = (l.next.1, .token t) by rw [← hnext])
    dsimp only
    rw [drainWithin_fuel h.next hlt (Nat.lt_succ_self _)]
    rfl
  | error | needMore | eof => rfl

theorem drain_token (h : l.Sound) {t : Token} (hnext : l.next.2 = .token t) :
    l.drain = (t :: l.next.1.drain.1, l.next.1.drain.2) := by
  rw [drain_eq h, hnext]

theorem drain_next (h : l.Sound) (htoken : ∀ t, l.next.2 ≠ .token t)
    (hmore : l.next.2 ≠ .needMore) : l.next.1.drain = l.drain := by
  have hagain : l.next.1.next.2 = l.next.2 := by
    cases hnext : l.next.2 with
    | token t => exact absurd hnext (htoken t)
    | needMore => exact absurd hnext hmore
    | eof => rw [next_eof h (show l.next = (l.next.1, .eof) by rw [← hnext])]
    | error e => rw [next_of_failed (next_failed h hnext)]
  rw [drain_eq h.next, drain_eq h, hagain]
  cases hnext : l.next.2 with
  | token t => exact absurd hnext (htoken t)
  | error | needMore | eof => rfl

theorem Same.drain_eq {a b : Lexer} (ha : a.Sound) (hb : b.Sound) (h : Same a b) : a.drain = b.drain := by
  induction hn : a.pending.length using Nat.strongRecOn generalizing a b with
  | _ n ih =>
  rw [Lexer.drain_eq ha, Lexer.drain_eq hb, ← h.answer_eq]
  cases hnext : a.next.2 with
  | token t =>
    have hlt := next_token_lt ha (show a.next = (a.next.1, .token t) by rw [← hnext])
    dsimp only
    rw [ih _ (hn ▸ hlt) ha.next hb.next (h.next ha hb) rfl]
  | error | needMore | eof => rfl

/-- A lexer that has the whole text ends with the end of the text or with an error. -/
theorem drain_closed (h : l.Sound) (hclosed : l.closed) : l.drain.2 = .eof ∨ ∃ e, l.drain.2 = .error e := by
  induction hn : l.pending.length using Nat.strongRecOn generalizing l with
  | _ n ih =>
  rw [drain_eq h]
  cases hnext : l.next.2 with
  | token t =>
    have hlt := next_token_lt h (show l.next = (l.next.1, .token t) by rw [← hnext])
    exact ih _ (hn ▸ hlt) h.next ((next_closed h).trans hclosed) rfl
  | needMore => exact absurd hnext (next_ne_needMore h hclosed)
  | eof => exact .inl rfl
  | error e => exact .inr ⟨e, rfl⟩

/-! ## Calls -/

theorem tokensIn_cons (answer : Lexed) (answers : List Lexed) :
    tokensIn (answer :: answers) = tokensIn [answer] ++ tokensIn answers := by
  cases answer <;> rfl

/-- The lexer of the whole text hands out what the calls hand out and then what is left. -/
theorem Awaits.drain_eq {calls : List Call} {a b : Lexer} (h : Awaits (textOf calls) true a b) :
    ∃ b', Awaits [] true (a.after calls) b' ∧ b.drain = (tokensIn (answers calls a) ++ b'.drain.1, b'.drain.2) := by
  induction calls generalizing a b with
  | nil => exact ⟨b, h, rfl⟩
  | cons c calls ih =>
    cases c with
    | feed bytes => exact ih h.feed
    | close =>
      -- What is fed behind the end of the text changes nothing, so nothing more is awaited.
      have hclosed : Awaits (textOf calls) true a.close b := by
        refine ⟨h.close.sound_left, h.close.sound_right, ?_⟩
        have hsame := h.close.same
        rwa [extend_closed rfl] at hsame ⊢
      exact ih hclosed
    | next =>
      have hnext := h.next
      by_cases hmore : a.next.2 = .needMore
      · rw [if_pos hmore] at hnext
        obtain ⟨b', hawaits, hdrain⟩ := ih hnext
        refine ⟨b', hawaits, ?_⟩
        rw [answers, tokensIn_cons, hmore]
        exact hdrain
      · rw [if_neg hmore] at hnext
        obtain ⟨hanswer, hnext⟩ := hnext
        obtain ⟨b', hawaits, hdrain⟩ := ih hnext
        refine ⟨b', hawaits, ?_⟩
        rw [answers, tokensIn_cons]
        cases ha : a.next.2 with
        | token t =>
          rw [drain_token h.sound_right (hanswer.trans ha), hdrain]
          rfl
        | needMore => exact absurd ha hmore
        | eof | error =>
          rw [← drain_next h.sound_right (by simp [hanswer, ha]) (by simp [hanswer, ha]), hdrain]
          rfl

theorem Sound.call (h : l.Sound) (c : Call) : (l.call c).Sound := by
  cases c with
  | feed bytes => exact h.feed bytes
  | close => exact h.close
  | next => exact h.next

theorem Sound.after (h : l.Sound) (calls : List Call) : (l.after calls).Sound := by
  induction calls generalizing l with
  | nil => exact h
  | cons c calls ih => exact ih (h.call c)

theorem after_append (l : Lexer) (before later : List Call) :
    l.after (before ++ later) = (l.after before).after later :=
  List.foldl_append

theorem answers_append (before later : List Call) (l : Lexer) :
    answers (before ++ later) l = answers before l ++ answers later (l.after before) := by
  induction before generalizing l with
  | nil => rfl
  | cons c before ih => cases c <;> simp [answers, after, ih, call]

theorem closed_call (h : l.Sound) (c : Call) : (l.call c).closed = (l.closed || c = .close) := by
  cases c with
  | feed bytes =>
    simp only [call, feed]
    split <;> simp
  | close => simp [call, close]
  | next => simp [call, next_closed h]

/-- A lexer is closed exactly if it was closed before or one of the calls has closed it. -/
theorem closed_after (h : l.Sound) (calls : List Call) :
    (l.after calls).closed = (l.closed || decide (.close ∈ calls)) := by
  induction calls generalizing l with
  | nil => simp [after]
  | cons c calls ih =>
    show ((l.call c).after calls).closed = _
    rw [ih (h.call c), closed_call h]
    cases c <;> simp

theorem failed_after (h : l.Sound) {e : LexError} {calls : List Call}
    (herror : l.failed = some e ∨ .error e ∈ answers calls l) : (l.after calls).failed = some e := by
  induction calls generalizing l with
  | nil => exact herror.resolve_right nofun
  | cons c calls ih =>
    refine ih (h.call c) ?_
    cases c with
    | feed bytes =>
      refine herror.imp_left fun hfailed => ?_
      simp only [call, feed]
      split <;> exact hfailed
    | close => exact herror
    | next =>
      rcases herror with hfailed | herror
      · rw [call, next_of_failed hfailed]
        exact .inl hfailed
      · rcases List.mem_cons.1 herror with hanswer | herror
        · exact .inl (next_failed h hanswer.symm)
        · exact .inr herror

/-- The order of calls does not matter: the tokens that they hand out and the ones that are left are the tokens of
the text as a whole, and the last answer is its end or its error. -/
theorem drain_calls (calls : List Call) : tokensIn (answers calls empty) ++ (empty.after calls).close.drain.1 =
      (whole (textOf calls)).drain.1 ∧ (empty.after calls).close.drain.2 = (whole (textOf calls)).drain.2 ∧
    ((whole (textOf calls)).drain.2 = .eof ∨ ∃ e, (whole (textOf calls)).drain.2 = .error e) := by
  have hwhole : Awaits (textOf calls) true empty (whole (textOf calls)) := Awaits.extended Sound.empty
  obtain ⟨b, hawaits, hdrain⟩ := hwhole.drain_eq
  have hend := hawaits.close
  have hsame := hend.same
  rw [extend_nil] at hsame
  rw [hdrain, hsame.drain_eq hend.sound_left hend.sound_right]
  refine ⟨rfl, rfl, ?_⟩
  rw [← hsame.drain_eq hend.sound_left hend.sound_right]
  exact drain_closed hend.sound_left rfl

end JsonSieve.Lexer
