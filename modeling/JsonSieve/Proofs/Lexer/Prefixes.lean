import JsonSieve.Proofs.Lexer.Acceptance

/-!
# The tokens of an unfinished text

Whatever a lexer is fed, and however its text goes on, the tokens that it has handed out are the beginning of
the tokens of a value (`tokens_prefix`). Behind the place that has been reached, the text can be exchanged for
one that closes everything that is open (`Reached.accepts`, `exists_accepts`); the text made so is a document,
and its tokens begin with those that have been handed out.
-/

namespace JsonSieve

namespace Grammar

variable {p p' q : Place} {t : Token} {tokens : List Token} {stack : List Container} {e : Expect}

/-- The text does not begin with a byte that would continue a number. -/
def Breaks (text : List UInt8) : Prop := ∀ b ∈ text.head?, Lexer.isNumberByte b = false

/-- A token depends on its own bytes only, but that no number may go on behind a number. -/
theorem first_front (h : First p t p') : ∃ front, p.text = front ++ p'.text ∧ ∀ rest,
    (Breaks p'.text → Breaks rest) → First ⟨p.stack, p.expect, front ++ rest⟩ t ⟨p'.stack, p'.expect, rest⟩ := by
  cases h with
  | word he h => exact ⟨_, rfl, fun _ _ => .word he h⟩
  | number he h hl hrest => exact ⟨_, rfl, fun _ hbreaks => .number he h hl (hbreaks hrest)⟩
  | string he h => exact ⟨_, rfl, fun _ _ => .string he h⟩
  | name he h => exact ⟨_, rfl, fun _ _ => .name he h⟩
  | begin he c => exact ⟨[c.openByte], rfl, fun _ _ => .begin he c⟩
  | finish c he => exact ⟨[c.closeByte], rfl, fun _ _ => .finish c he⟩

theorem step_front (h : Step p t p') : ∃ front, p.text = front ++ p'.text ∧ ∀ rest,
    (Breaks p'.text → Breaks rest) → Step ⟨p.stack, p.expect, front ++ rest⟩ t ⟨p'.stack, p'.expect, rest⟩ := by
  obtain ⟨q, hlead, hfirst⟩ := h
  obtain ⟨front, htext, hfront⟩ := first_front hfirst
  cases hlead with
  | @blanks _ _ gap rest hgap =>
    obtain rfl : rest = front ++ p'.text := htext
    refine ⟨gap ++ front, (List.append_assoc ..).symm, fun rest hrest => ?_⟩
    rw [List.append_assoc]
    exact ⟨_, .blanks hgap, hfront rest hrest⟩
  | @colon _ gap gap' rest hgap hgap' =>
    obtain rfl : rest = front ++ p'.text := htext
    refine ⟨gap ++ 0x3a :: (gap' ++ front), by simp, fun rest hrest => ?_⟩
    simp only [List.append_assoc, List.cons_append]
    exact ⟨_, .colon hgap hgap', hfront rest hrest⟩
  | @comma _ _ gap gap' rest hgap hgap' =>
    obtain rfl : rest = front ++ p'.text := htext
    refine ⟨gap ++ 0x2c :: (gap' ++ front), by simp, fun rest hrest => ?_⟩
    simp only [List.append_assoc, List.cons_append]
    exact ⟨_, .comma hgap hgap', hfront rest hrest⟩

inductive Reached : Place → List Token → Place → Prop where
  | refl {p : Place} : Reached p [] p
  | step {p p' q : Place} {t : Token} {tokens : List Token} (h : Step p t p') (hrest : Reached p' tokens q) :
    Reached p (t :: tokens) q

theorem Reached.accepts (h : Reached p tokens q) : ∃ front, p.text = front ++ q.text ∧ ∀ rest more,
    Breaks rest → Accepts ⟨q.stack, q.expect, rest⟩ more →
      Accepts ⟨p.stack, p.expect, front ++ rest⟩ (tokens ++ more) := by
  induction h with
  | refl => exact ⟨[], rfl, fun _ _ _ haccepts => haccepts⟩
  | step h _ ih =>
    obtain ⟨front, htext, hfront⟩ := step_front h
    obtain ⟨front', htext', hfront'⟩ := ih
    refine ⟨front ++ front', by rw [htext, htext', List.append_assoc], fun rest more hrest haccepts => ?_⟩
    rw [List.append_assoc]
    -- a number is ended by the first byte of the next token, or by the new text
    refine .step (hfront _ fun hbreaks => ?_) (hfront' rest more hrest haccepts)
    cases front' with
    | nil => exact hrest
    | cons b front' =>
      rw [htext'] at hbreaks
      exact hbreaks

theorem accepts_closing (stack : List Container) :
    Accepts ⟨stack, behind stack, stack.map Container.closeByte⟩ (stack.map Container.finish) := by
  induction stack with
  | nil => exact .done fun _ h => by cases h
  | cons c stack ih => exact .step ⟨_, @Lead.blanks _ _ [] _ (fun _ h => by cases h), .finish c (.inl rfl)⟩ ih

/-- Every place in a text can be brought to an end. -/
theorem exists_accepts (h : e = .commaOrEnd → stack ≠ []) :
    ∃ rest more, Breaks rest ∧ Accepts ⟨stack, e, rest⟩ more := by
  have hclosing := accepts_closing stack
  have hnone : Blanks [] := fun _ h => by cases h
  cases e with
  | value =>
    exact ⟨_, _, by rintro b ⟨⟩; rfl, accepts_value .null (.inl rfl) (.blanks hnone) hclosing⟩
  | itemOrEnd =>
    exact ⟨_, _, by rintro b ⟨⟩; rfl, accepts_value .null (.inr rfl) (.blanks hnone) hclosing⟩
  | colon =>
    exact ⟨_, _, by rintro b ⟨⟩; rfl, accepts_value .null (.inl rfl) (.colon hnone hnone) hclosing⟩
  | name | nameOrEnd =>
    refine ⟨_, _, ?_, .step ⟨_, .blanks hnone, .name (by simp [TakesName]) (.quotes .nil)⟩
      (accepts_value .null (.inl rfl) (.colon hnone hnone) hclosing)⟩
    rintro b ⟨⟩
    rfl
  | commaOrEnd =>
    obtain ⟨c, stack, rfl⟩ := List.exists_cons_of_ne_nil (h rfl)
    exact ⟨_, _, hclosing.head_behind, hclosing⟩
  | done => exact ⟨[], [], by simp [Breaks], .done hnone⟩

end Grammar

namespace Lexer

open Grammar

variable {l : Lexer}

/-- What a lexer hands out of a whole text leads to a place in the text, where it hands out the rest. -/
theorem reached_of_prefix {tokens : List Token} (hs : l.Sound) (h : l.Ready) (htokens : tokens <+: l.drain.1) :
    ∃ l' : Lexer, l'.Sound ∧ l'.Ready ∧ l'.fed = l.fed ∧ Reached l.place tokens l'.place ∧
      l.drain = (tokens ++ l'.drain.1, l'.drain.2) := by
  induction tokens generalizing l with
  | nil => exact ⟨l, hs, h, rfl, .refl, rfl⟩
  | cons t tokens ih =>
    have hdrain := drain_eq hs
    obtain ⟨heof, -⟩ | ⟨-, ⟨t', ht, hready⟩ | ⟨e, he⟩⟩ := next_cases hs h
    · rw [hdrain, heof] at htokens
      cases List.prefix_nil.1 htokens
    · rw [ht] at hdrain
      rw [hdrain] at htokens
      obtain ⟨rfl, hprefix⟩ := List.cons_prefix_cons.1 htokens
      obtain ⟨l', hs', hready', hfed, hreached, hrest⟩ := ih hs.next hready hprefix
      refine ⟨l', hs', hready', hfed.trans (next_fed hs), .step ((next_token_iff h).1 ⟨ht, rfl⟩) hreached, ?_⟩
      rw [hdrain, hrest]
      rfl
    · rw [hdrain, he] at htokens
      cases List.prefix_nil.1 htokens

theorem rise_token (t : Token) :
    rise (.token t) = (if t.kind.opens then 1 else 0 : Nat) - (if t.kind.closes then 1 else 0 : Nat) := by
  cases t <;> rfl

theorem depth_after (h : l.Sound) (calls : List Call) :
    (l.after calls).depth + (tokensIn (answers calls l)).countP (·.kind.closes) =
      l.depth + (tokensIn (answers calls l)).countP (·.kind.opens) := by
  induction calls generalizing l with
  | nil => rfl
  | cons c calls ih =>
    have hcalls := ih (h.call c)
    cases c with
    | feed bytes =>
      have hdepth : (l.feed bytes).depth = l.depth := by
        unfold Lexer.feed
        split <;> rfl
      rwa [call, hdepth] at hcalls
    | close => exact hcalls
    | next =>
      have hdepth := next_depth h
      rw [answers, tokensIn_cons, List.countP_append, List.countP_append]
      rw [call] at hcalls
      rw [after, List.foldl_cons, ← after, call]
      cases hanswer : l.next.2 with
      | token t =>
        rw [hanswer] at hdepth
        rw [rise_token] at hdepth
        rw [show tokensIn [.token t] = [t] from rfl, List.countP_singleton, List.countP_singleton]
        omega
      | needMore | eof | error =>
        rw [hanswer] at hdepth
        simp only [rise, Int.add_zero, Int.ofNat_inj] at hdepth
        rw [← hdepth]
        simpa [tokensIn] using hcalls

/-- However a lexer is called and whatever its text is, the tokens that it has handed out are the beginning of
the tokens of some value. Its nesting is the number of opening brackets less the number of closing ones among
them. It tells that the text has ended only when they are all tokens of a value. -/
theorem tokens_prefix (calls : List Call) : (∃ v : Json Binary64, tokensIn (answers calls empty) <+: v.tokens) ∧
    (empty.after calls).depth + (tokensIn (answers calls empty)).countP (·.kind.closes) =
      (tokensIn (answers calls empty)).countP (·.kind.opens) ∧
    ((empty.after calls).next.2 = .eof → ∃ v : Json Binary64, tokensIn (answers calls empty) = v.tokens) := by
  have hwhole : Awaits (textOf calls) true empty (whole (textOf calls)) := .extended Sound.empty
  obtain ⟨b, hawaits, hdrain⟩ := hwhole.drain_eq
  have hs := whole_sound (textOf calls)
  have h := whole_ready (textOf calls)
  refine ⟨?_, ?_, fun heof => ?_⟩
  · obtain ⟨l, -, hready, -, hreached, -⟩ := reached_of_prefix hs h ⟨b.drain.1, (congrArg Prod.fst hdrain).symm⟩
    obtain ⟨rest, more, hrest, haccepts⟩ := exists_accepts hready.comma
    obtain ⟨front, -, hfront⟩ := hreached.accepts
    obtain ⟨v, -, hv⟩ := accepts_iff.1 (hfront rest more hrest haccepts)
    exact ⟨v, more, hv⟩
  · have hdepth := depth_after Sound.empty calls
    rwa [show empty.depth = 0 from rfl, Nat.zero_add] at hdepth
  · have hnext := hawaits.next
    rw [heof, if_neg (by simp)] at hnext
    rw [drain_eq hawaits.sound_right, hnext.1, List.append_nil] at hdrain
    obtain ⟨v, -, hv⟩ := accepts_iff.1 ((drain_iff_accepts hs h).1 hdrain)
    exact ⟨v, hv⟩

end Lexer

end JsonSieve
