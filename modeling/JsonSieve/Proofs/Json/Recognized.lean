import JsonSieve.Json.Lexer
import JsonSieve.Proofs.Number.Literals

/-!
# The grammar, token by token

A text can be read one token at a time with a stack of the containers that are open and a note of what
may come next (`Step`). The texts that are read to their end this way (`Accepts`) are the documents of
the grammar, and what is read are the tokens of the value (`accepts_iff`).
-/

namespace JsonSieve

namespace Container

def openByte : Container → UInt8
  | .object => 0x7b
  | .array => 0x5b

def closeByte : Container → UInt8
  | .object => 0x7d
  | .array => 0x5d

def begin : Container → Token
  | .object => .objectBegin
  | .array => .arrayBegin

def finish : Container → Token
  | .object => .objectEnd
  | .array => .arrayEnd

/-- What may come right behind the opening bracket. -/
def inside : Container → Expect
  | .object => .nameOrEnd
  | .array => .itemOrEnd

def next : Container → Expect
  | .object => .name
  | .array => .value

end Container

open Container (finish begin inside openByte closeByte)

namespace Grammar

/-- A position in a text: the open containers, the innermost first, what may come next, and the rest of
the text. -/
structure Place where
  stack : List Container
  expect : Expect
  text : List UInt8

def behind (stack : List Container) : Expect := if stack.isEmpty then .done else .commaOrEnd

def TakesValue (e : Expect) : Prop := e = .value ∨ e = .itemOrEnd

def TakesName (e : Expect) : Prop := e = .name ∨ e = .nameOrEnd

def words : List (List UInt8 × Token) := [
  ([0x74, 0x72, 0x75, 0x65], .true), ([0x66, 0x61, 0x6c, 0x73, 0x65], .false),
  ([0x6e, 0x75, 0x6c, 0x6c], .null)]

/-- A token that begins with the first byte of the text. A number is as long as it can be. -/
inductive First : Place → Token → Place → Prop where
  | word {stack : List Container} {e : Expect} {word rest : List UInt8} {t : Token}
    (he : TakesValue e) (h : (word, t) ∈ words) :
    First ⟨stack, e, word ++ rest⟩ t ⟨stack, behind stack, rest⟩
  | number {stack : List Container} {e : Expect} {text rest : List UInt8} {l : Literal}
    (he : TakesValue e) (h : Number text) (hl : Literal.parse? text = some l)
    (hrest : ∀ b ∈ rest.head?, Lexer.isNumberByte b = false) :
    First ⟨stack, e, text ++ rest⟩ (.number l.toBinary64) ⟨stack, behind stack, rest⟩
  | string {stack : List Container} {e : Expect} {text rest : List UInt8} {s : String}
    (he : TakesValue e) (h : Quoted text s) :
    First ⟨stack, e, text ++ rest⟩ (.string s) ⟨stack, behind stack, rest⟩
  | name {stack : List Container} {e : Expect} {text rest : List UInt8} {s : String}
    (he : TakesName e) (h : Quoted text s) :
    First ⟨stack, e, text ++ rest⟩ (.string s) ⟨stack, .colon, rest⟩
  | begin {stack : List Container} {e : Expect} {rest : List UInt8} (he : TakesValue e)
    (c : Container) : First ⟨stack, e, c.openByte :: rest⟩ c.begin ⟨c :: stack, c.inside, rest⟩
  | finish {stack : List Container} {e : Expect} {rest : List UInt8} (c : Container)
    (he : e = .commaOrEnd ∨ e = c.inside) :
    First ⟨c :: stack, e, c.closeByte :: rest⟩ c.finish ⟨stack, behind stack, rest⟩

/-- What stands in front of a token: blanks, and a separator where there has to be one. -/
inductive Lead : Place → Place → Prop where
  | blanks {stack : List Container} {e : Expect} {gap rest : List UInt8} (h : Blanks gap) :
    Lead ⟨stack, e, gap ++ rest⟩ ⟨stack, e, rest⟩
  | colon {stack : List Container} {gap gap' rest : List UInt8} (h : Blanks gap) (h' : Blanks gap') :
    Lead ⟨stack, .colon, gap ++ 0x3a :: (gap' ++ rest)⟩ ⟨stack, .value, rest⟩
  | comma {c : Container} {stack : List Container} {gap gap' rest : List UInt8} (h : Blanks gap)
    (h' : Blanks gap') :
    Lead ⟨c :: stack, .commaOrEnd, gap ++ 0x2c :: (gap' ++ rest)⟩ ⟨c :: stack, c.next, rest⟩

def Step (p : Place) (t : Token) (p' : Place) : Prop := ∃ q, Lead p q ∧ First q t p'

/-- The rest of a text is read to its end and consists of these tokens. -/
inductive Accepts : Place → List Token → Prop where
  | done {stack : List Container} {text : List UInt8} (h : Blanks text) : Accepts ⟨stack, .done, text⟩ []
  | step {p p' : Place} {t : Token} {tokens : List Token} (h : Step p t p') (hrest : Accepts p' tokens) :
    Accepts p (t :: tokens)

variable {p p' : Place} {t : Token} {tokens : List Token} {text : List UInt8}
  {stack : List Container} {e : Expect}

theorem Accepts.uncons (h : Accepts p (t :: tokens)) : ∃ p', Step p t p' ∧ Accepts p' tokens := by
  cases h with
  | step h hrest => exact ⟨_, h, hrest⟩

/-- The bytes that tokens begin with, closing brackets apart. -/
def Starts (b : UInt8) : Prop := b ∈ [0x22, 0x2d, 0x5b, 0x66, 0x6e, 0x74, 0x7b] ∨ Digit b

instance : DecidablePred Starts := fun b =>
  inferInstanceAs (Decidable (b ∈ [0x22, 0x2d, 0x5b, 0x66, 0x6e, 0x74, 0x7b] ∨ Digit b))

theorem number_head (h : Number text) : ∃ b tail, text = b :: tail ∧ (b = 0x2d ∨ Digit b) := by
  obtain ⟨hsign, hwhole, -, -⟩ := h
  obtain ⟨b, tail, rfl, hb⟩ := Literal.whole_head hwhole
  obtain rfl | rfl := hsign
  · exact ⟨b, _, rfl, .inr hb⟩
  · exact ⟨0x2d, _, rfl, .inl rfl⟩

/-- A token is a closing bracket, or it is not and does not begin like one. -/
theorem first_cases (h : First p t p') :
    (∃ b rest, p.text = b :: rest ∧ Starts b ∧ (TakesValue p.expect ∨ TakesName p.expect) ∧
      ∀ c : Container, t ≠ c.finish) ∨
    ∃ c stack rest, p.stack = c :: stack ∧ (p.expect = .commaOrEnd ∨ p.expect = c.inside) ∧
      p.text = c.closeByte :: rest ∧ t = c.finish ∧ p' = ⟨stack, behind stack, rest⟩ := by
  cases h with
  | word he h =>
    simp only [words, List.mem_cons, Prod.mk.injEq, List.not_mem_nil, or_false] at h
    obtain ⟨rfl, rfl⟩ | ⟨rfl, rfl⟩ | ⟨rfl, rfl⟩ := h
    all_goals
      exact .inl ⟨_, _, rfl, by decide, .inl he, fun c => by cases c <;> simp [finish]⟩
  | number he h =>
    obtain ⟨b, tail, rfl, hb⟩ := number_head h
    refine .inl ⟨b, _, rfl, ?_, .inl he, fun c => by cases c <;> simp [finish]⟩
    obtain rfl | hb := hb
    · decide
    · exact .inr hb
  | string he h =>
    cases h
    exact .inl ⟨_, _, rfl, by decide, .inl he, fun c => by cases c <;> simp [finish]⟩
  | name he h =>
    cases h
    exact .inl ⟨_, _, rfl, by decide, .inr he, fun c => by cases c <;> simp [finish]⟩
  | begin he c =>
    refine .inl ⟨_, _, rfl, by cases c <;> decide, .inl he, fun c' => ?_⟩
    cases c <;> cases c' <;> simp [finish, begin]
  | finish c he => exact .inr ⟨c, _, _, rfl, he, rfl, rfl, rfl⟩

/-- Where neither a value nor a name may come, the only tokens are the closing brackets behind an item
or a member. -/
theorem first_commaOrEnd (h : First p t p') (he : p.expect = .done ∨ p.expect = .colon ∨ p.expect = .commaOrEnd) :
    p.expect = .commaOrEnd ∧ ∃ c stack rest, p.stack = c :: stack ∧ p.text = c.closeByte :: rest ∧
      t = c.finish ∧ p' = ⟨stack, behind stack, rest⟩ := by
  obtain ⟨b, rest, -, -, htakes, -⟩ | ⟨c, stack, rest, hstack, hc, htext, ht, hp⟩ := first_cases h
  · obtain (hv | hv) | (hv | hv) := htakes <;> rw [hv] at he <;> simp at he
  · refine ⟨hc.resolve_right fun hc => ?_, c, stack, rest, hstack, htext, ht, hp⟩
    rw [hc] at he
    cases c <;> simp [inside] at he

/-! ## What stands in front -/

theorem lead_of_takes {q : Place} (h : Lead p q) (hcolon : p.expect ≠ .colon) (hcomma : p.expect ≠ .commaOrEnd) :
    ∃ gap rest, Blanks gap ∧ p.text = gap ++ rest ∧ q = ⟨p.stack, p.expect, rest⟩ := by
  cases h with
  | blanks h => exact ⟨_, _, h, rfl, rfl⟩
  | colon => exact absurd rfl hcolon
  | comma => exact absurd rfl hcomma

theorem not_step_done : ¬ Step ⟨stack, .done, text⟩ t p := by
  rintro ⟨q, hlead, hfirst⟩
  obtain ⟨gap, rest, -, -, rfl⟩ := lead_of_takes hlead (by simp) (by simp)
  cases (first_commaOrEnd hfirst (.inl rfl)).1

/-- Behind a member or an item there is a closing bracket, or a comma and the next one. -/
theorem step_commaOrEnd {c : Container} (h : Step ⟨c :: stack, .commaOrEnd, text⟩ t p) :
    (∃ gap rest, Blanks gap ∧ text = gap ++ c.closeByte :: rest ∧ t = c.finish ∧ p = ⟨stack, behind stack, rest⟩) ∨
    ∃ gap gap' rest, Blanks gap ∧ Blanks gap' ∧ text = gap ++ 0x2c :: (gap' ++ rest) ∧
      First ⟨c :: stack, c.next, rest⟩ t p := by
  obtain ⟨q, hlead, hfirst⟩ := h
  cases hlead with
  | blanks hgap =>
    obtain ⟨-, c', stack', rest, hstack, rfl, rfl, rfl⟩ := first_commaOrEnd hfirst (.inr (.inr rfl))
    cases hstack
    exact .inl ⟨_, _, hgap, rfl, rfl, rfl⟩
  | comma hgap hgap' => exact .inr ⟨_, _, _, hgap, hgap', rfl, hfirst⟩

theorem step_colon (h : Step ⟨stack, .colon, text⟩ t p) :
    ∃ gap gap' rest, Blanks gap ∧ Blanks gap' ∧ text = gap ++ 0x3a :: (gap' ++ rest) ∧
      First ⟨stack, .value, rest⟩ t p := by
  obtain ⟨q, hlead, hfirst⟩ := h
  cases hlead with
  | blanks => cases (first_commaOrEnd hfirst (.inr (.inl rfl))).1
  | colon hgap hgap' => exact ⟨_, _, _, hgap, hgap', rfl, hfirst⟩

/-! ## Documents are accepted -/

theorem isNumberByte_of_blank {b : UInt8} (h : Blank b) : Lexer.isNumberByte b = false := by
  obtain rfl | rfl | rfl | rfl := h <;> rfl

theorem isNumberByte_head {gap rest : List UInt8} (hgap : Blanks gap) {c : UInt8}
    (hc : Lexer.isNumberByte c = false) : ∀ b ∈ (gap ++ c :: rest).head?, Lexer.isNumberByte b = false := by
  cases gap with
  | nil =>
    intro b hb
    cases hb
    exact hc
  | cons g gap =>
    intro b hb
    cases hb
    exact isNumberByte_of_blank (hgap g (.head _))

theorem Accepts.head_behind (h : Accepts ⟨stack, behind stack, text⟩ tokens) :
    ∀ b ∈ text.head?, Lexer.isNumberByte b = false := by
  cases stack with
  | nil =>
    cases h with
    | done h => exact fun b hb => isNumberByte_of_blank (h b (List.mem_of_mem_head? hb))
    | step h _ => exact absurd h not_step_done
  | cons c stack =>
    cases h with
    | step h _ =>
      obtain ⟨gap, rest, hgap, rfl, -⟩ | ⟨gap, gap', rest, hgap, -, rfl, -⟩ := step_commaOrEnd h
      · exact isNumberByte_head hgap (by cases c <;> rfl)
      · exact isNumberByte_head hgap rfl

mutual

theorem accepts_value {text : List UInt8} {v : Json Binary64} (h : Value text v) {p : Place}
    {stack : List Container} {e : Expect} {rest : List UInt8} {tokens : List Token}
    (he : TakesValue e) (hlead : Lead p ⟨stack, e, text ++ rest⟩)
    (hrest : Accepts ⟨stack, behind stack, rest⟩ tokens) : Accepts p (v.tokens ++ tokens) := by
  cases h with
  | null => exact .step ⟨_, hlead, .word he (by simp [words])⟩ hrest
  | true => exact .step ⟨_, hlead, .word he (by simp [words])⟩ hrest
  | false => exact .step ⟨_, hlead, .word he (by simp [words])⟩ hrest
  | number h hl => exact .step ⟨_, hlead, .number he h hl hrest.head_behind⟩ hrest
  | string h => exact .step ⟨_, hlead, .string he h⟩ hrest
  | emptyArray hgap =>
    rw [List.cons_append, List.append_assoc] at hlead
    refine .step ⟨_, hlead, .begin he .array⟩ (.step ⟨_, .blanks hgap, .finish .array ?_⟩ hrest)
    exact .inr rfl
  | array h =>
    rw [List.cons_append, List.append_assoc] at hlead
    rw [Json.tokens, List.cons_append, List.append_assoc]
    refine .step ⟨_, hlead, .begin he .array⟩ ?_
    exact accepts_items h (.inr rfl) (fun hgap heq => heq ▸ .blanks hgap) hrest
  | emptyObject hgap =>
    rw [List.cons_append, List.append_assoc] at hlead
    refine .step ⟨_, hlead, .begin he .object⟩ (.step ⟨_, .blanks hgap, .finish .object ?_⟩ hrest)
    exact .inr rfl
  | object h =>
    rw [List.cons_append, List.append_assoc] at hlead
    rw [Json.tokens, List.cons_append, List.append_assoc]
    refine .step ⟨_, hlead, .begin he .object⟩ ?_
    exact accepts_members h (.inr rfl) (fun hgap heq => heq ▸ .blanks hgap) hrest

theorem accepts_items {inside : List UInt8} {items : List (Json Binary64)} (h : Items inside items)
    {p : Place} {stack : List Container} {e : Expect} {rest : List UInt8} {tokens : List Token}
    (he : TakesValue e)
    (hlead : ∀ {gap body : List UInt8}, Blanks gap → inside ++ 0x5d :: rest = gap ++ body →
      Lead p ⟨.array :: stack, e, body⟩) (hrest : Accepts ⟨stack, behind stack, rest⟩ tokens) :
    Accepts p (Json.itemTokens items ++ .arrayEnd :: tokens) := by
  cases h with
  | one hbefore h hafter =>
    rw [Json.itemTokens, Json.itemTokens, List.append_nil]
    refine accepts_value h he (hlead hbefore (by simp only [List.append_assoc]; rfl)) ?_
    exact .step ⟨_, .blanks hafter, .finish .array (.inl rfl)⟩ hrest
  | more hbefore h hafter hmore =>
    rw [Json.itemTokens, List.append_assoc]
    refine accepts_value h he (hlead hbefore (by simp only [List.append_assoc, List.cons_append]; rfl)) ?_
    refine accepts_items hmore (.inl rfl) (fun hgap heq => ?_) hrest
    rw [heq]
    exact .comma hafter hgap

theorem accepts_members {inside : List UInt8} {members : List (String × Json Binary64)}
    (h : Members inside members) {p : Place} {stack : List Container} {e : Expect}
    {rest : List UInt8} {tokens : List Token} (he : TakesName e)
    (hlead : ∀ {gap body : List UInt8}, Blanks gap → inside ++ 0x7d :: rest = gap ++ body →
      Lead p ⟨.object :: stack, e, body⟩) (hrest : Accepts ⟨stack, behind stack, rest⟩ tokens) :
    Accepts p (Json.memberTokens members ++ .objectEnd :: tokens) := by
  cases h with
  | one hbefore hname hgap hgap' h hafter =>
    rw [Json.memberTokens, Json.memberTokens, List.append_nil]
    refine .step ⟨_, hlead hbefore (by simp only [List.append_assoc, List.cons_append]; rfl), .name he hname⟩ ?_
    refine accepts_value h (.inl rfl) (.colon hgap hgap') ?_
    exact .step ⟨_, .blanks hafter, .finish .object (.inl rfl)⟩ hrest
  | more hbefore hname hgap hgap' h hafter hmore =>
    rw [Json.memberTokens, List.cons_append, List.append_assoc]
    refine .step ⟨_, hlead hbefore (by simp only [List.append_assoc, List.cons_append]; rfl), .name he hname⟩ ?_
    refine accepts_value h (.inl rfl) (.colon hgap hgap') ?_
    refine accepts_members hmore (.inl rfl) (fun hgap heq => ?_) hrest
    rw [heq]
    exact .comma hafter hgap

end

/-! ## What is accepted is a document -/

/-- The text at a place, which begins with the token `t`, begins with a value; the tokens behind `t`
are the rest of its tokens and what is accepted behind the value. -/
def BeginsValue (stack : List Container) (text : List UInt8) (t : Token) (tokens : List Token) : Prop :=
  ∃ body rest v tokens', text = body ++ rest ∧ Value body v ∧ t :: tokens = v.tokens ++ tokens' ∧
    Accepts ⟨stack, behind stack, rest⟩ tokens'

/-- Before a bound on the number of tokens, what is accepted where a value may come begins with one. -/
def ValuesUpTo (n : Nat) : Prop :=
  ∀ {stack : List Container} {e : Expect} {text : List UInt8} {t : Token} {p : Place}
    {tokens : List Token}, tokens.length < n → TakesValue e → t ≠ .arrayEnd →
    First ⟨stack, e, text⟩ t p → Accepts p tokens → BeginsValue stack text t tokens

theorem tokens_ne_nil (v : Json Binary64) : v.tokens ≠ [] := by
  cases v with
  | bool b => cases b <;> simp [Json.tokens]
  | _ => simp [Json.tokens]

theorem first_finish (h : First p t p') (c : Container) (ht : t = c.finish) :
    ∃ stack rest, p.stack = c :: stack ∧ (p.expect = .commaOrEnd ∨ p.expect = c.inside) ∧
      p.text = c.closeByte :: rest ∧ p' = ⟨stack, behind stack, rest⟩ := by
  obtain ⟨b, rest, -, -, -, hne⟩ | ⟨c', stack, rest, hstack, he, htext, ht', rfl⟩ := first_cases h
  · exact absurd ht (hne c)
  · obtain rfl : c' = c := by
      rw [ht] at ht'
      cases c <;> cases c' <;> first | rfl | cases ht'
    exact ⟨stack, rest, hstack, he, htext, rfl⟩

theorem first_ne_finish (h : First p t p')
    (he : p.expect = .value ∨ p.expect = .name) (c : Container) : t ≠ c.finish := by
  intro ht
  obtain ⟨-, -, -, he', -⟩ := first_finish h c ht
  cases c <;> simp only [inside] at he' <;> obtain he | he := he <;>
    obtain he' | he' := he' <;> exact absurd (he.symm.trans he') (by simp)

theorem accepts_inside {c : Container} (h : Accepts ⟨c :: stack, c.inside, text⟩ tokens) :
    ∃ gap rest t tokens' p, Blanks gap ∧ text = gap ++ rest ∧ tokens = t :: tokens' ∧
      First ⟨c :: stack, c.inside, rest⟩ t p ∧ Accepts p tokens' := by
  have hstep : ∀ {p : Place} {tokens : List Token}, Accepts p tokens → p.expect ≠ .done →
      ∃ t tokens' p', tokens = t :: tokens' ∧ Step p t p' ∧ Accepts p' tokens' := by
    rintro p tokens (_ | ⟨hstep, h⟩) hne
    · exact absurd rfl hne
    · exact ⟨_, _, _, rfl, hstep, h⟩
  obtain ⟨t, tokens', p, rfl, ⟨q, hlead, hfirst⟩, h⟩ := hstep h (by cases c <;> simp [inside])
  obtain ⟨gap, rest, hgap, htext, rfl⟩ := lead_of_takes hlead
    (by cases c <;> simp [inside]) (by cases c <;> simp [inside])
  exact ⟨gap, rest, t, tokens', p, hgap, htext, rfl, hfirst, h⟩

/-- Where a name may come there is one, unless the object ends there. -/
theorem first_name (h : First ⟨.object :: stack, e, text⟩ t p) (he : TakesName e) (ht : t ≠ .objectEnd) :
    ∃ quoted name rest, text = quoted ++ rest ∧ Quoted quoted name ∧ t = .string name ∧
      p = ⟨.object :: stack, .colon, rest⟩ := by
  cases h with
  | word hv | number hv | string hv | begin hv =>
    obtain rfl | rfl := he <;> obtain hv | hv := hv <;> cases hv
  | name _ h => exact ⟨_, _, _, rfl, h, rfl, rfl⟩
  | finish => exact absurd rfl ht

theorem items_of_accepts {n : Nat} (hn : ValuesUpTo n) (hlt : tokens.length < n)
    (he : TakesValue e) (ht : t ≠ .arrayEnd) (hfirst : First ⟨.array :: stack, e, text⟩ t p)
    (h : Accepts p tokens) : ∃ inside items rest tokens', text = inside ++ 0x5d :: rest ∧
      (∀ gap, Blanks gap → Items (gap ++ inside) items) ∧
      t :: tokens = Json.itemTokens items ++ .arrayEnd :: tokens' ∧
      Accepts ⟨stack, behind stack, rest⟩ tokens' := by
  induction hlength : tokens.length using Nat.strong_induction_on generalizing e text t p tokens with
  | _ length ih =>
  obtain ⟨body, rest, v, tokens', rfl, hvalue, heq, haccepts⟩ := hn hlt he ht hfirst h
  have hpos := List.length_pos_iff.2 (tokens_ne_nil v)
  have hsum := congrArg List.length heq
  rw [List.length_cons, List.length_append] at hsum
  cases haccepts with
  | @step _ p' t' tokens' hstep haccepts =>
  rw [List.length_cons] at hsum
  obtain ⟨after, rest, hafter, rfl, rfl, rfl⟩ | ⟨after, before, rest, hafter, hbefore, rfl, hnext⟩ :=
    step_commaOrEnd hstep
  · refine ⟨body ++ after, [v], rest, tokens', by rw [List.append_assoc]; rfl, fun gap hgap => ?_, ?_, haccepts⟩
    · exact .one hgap hvalue hafter
    · rw [Json.itemTokens, Json.itemTokens, List.append_nil]
      exact heq
  · obtain ⟨inside, items, rest, tokens'', rfl, hitems, heq', haccepts⟩ := ih tokens'.length (by omega)
      (by omega) (.inl rfl) (first_ne_finish hnext (.inl rfl) .array) hnext haccepts rfl
    refine ⟨body ++ (after ++ 0x2c :: (before ++ inside)), v :: items, rest, tokens'', ?_,
      fun gap hgap => ?_, ?_, haccepts⟩
    · simp only [List.append_assoc, List.cons_append]
    · exact .more hgap hvalue hafter (hitems before hbefore)
    · rw [heq, heq', Json.itemTokens, List.append_assoc]

theorem members_of_accepts {n : Nat} (hn : ValuesUpTo n) (hlt : tokens.length < n)
    (he : TakesName e) (ht : t ≠ .objectEnd) (hfirst : First ⟨.object :: stack, e, text⟩ t p)
    (h : Accepts p tokens) : ∃ inside members rest tokens', text = inside ++ 0x7d :: rest ∧
      (∀ gap, Blanks gap → Members (gap ++ inside) members) ∧
      t :: tokens = Json.memberTokens members ++ .objectEnd :: tokens' ∧
      Accepts ⟨stack, behind stack, rest⟩ tokens' := by
  induction hlength : tokens.length using Nat.strong_induction_on generalizing e text t p tokens with
  | _ length ih =>
  obtain ⟨quoted, name, text, rfl, hname, rfl, rfl⟩ := first_name hfirst he ht
  cases h with
  | @step _ p' t' tokens hstep h =>
  rw [List.length_cons] at hlt hlength
  obtain ⟨gap, gap', text, hgap, hgap', rfl, hfirst'⟩ := step_colon hstep
  obtain ⟨body, rest, v, tokens', rfl, hvalue, heq, haccepts⟩ :=
    hn (by omega) (.inl rfl) (first_ne_finish hfirst' (.inl rfl) .array) hfirst' h
  have hpos := List.length_pos_iff.2 (tokens_ne_nil v)
  have hsum := congrArg List.length heq
  rw [List.length_cons, List.length_append] at hsum
  cases haccepts with
  | @step _ p' t' tokens' hstep haccepts =>
  rw [List.length_cons] at hsum
  obtain ⟨after, rest, hafter, rfl, rfl, rfl⟩ | ⟨after, before, rest, hafter, hbefore, rfl, hnext⟩ :=
    step_commaOrEnd hstep
  · refine ⟨quoted ++ (gap ++ 0x3a :: (gap' ++ (body ++ after))), [(name, v)], rest, tokens', ?_,
      fun before hbefore => ?_, ?_, haccepts⟩
    · simp only [List.append_assoc, List.cons_append]
      rfl
    · exact .one hbefore hname hgap hgap' hvalue hafter
    · rw [Json.memberTokens, Json.memberTokens, List.append_nil, heq]
      rfl
  · obtain ⟨inside, members, rest, tokens'', rfl, hmembers, heq', haccepts⟩ := ih tokens'.length
      (by omega) (by omega) (.inl rfl) (first_ne_finish hnext (.inr rfl) .object) hnext haccepts rfl
    refine ⟨quoted ++ (gap ++ 0x3a :: (gap' ++ (body ++ (after ++ 0x2c :: (before ++ inside))))),
      (name, v) :: members, rest, tokens'', ?_, fun first hfirst => ?_, ?_, haccepts⟩
    · simp only [List.append_assoc, List.cons_append]
    · exact .more hfirst hname hgap hgap' hvalue hafter (hmembers before hbefore)
    · rw [heq, heq', Json.memberTokens, List.cons_append, List.append_assoc]

theorem valuesUpTo (n : Nat) : ValuesUpTo n := by
  induction n with
  | zero => exact fun hlt => absurd hlt (Nat.not_lt_zero _)
  | succ n ih =>
    intro stack e text t p tokens hlt he ht hfirst h
    cases hfirst with
    | @word _ _ _ rest _ _ hword =>
      simp only [words, List.mem_cons, Prod.mk.injEq, List.not_mem_nil, or_false] at hword
      obtain ⟨rfl, rfl⟩ | ⟨rfl, rfl⟩ | ⟨rfl, rfl⟩ := hword
      · exact ⟨_, rest, _, tokens, rfl, .true, rfl, h⟩
      · exact ⟨_, rest, _, tokens, rfl, .false, rfl, h⟩
      · exact ⟨_, rest, _, tokens, rfl, .null, rfl, h⟩
    | number _ hnumber hl _ => exact ⟨_, _, _, tokens, rfl, .number hnumber hl, rfl, h⟩
    | string _ hs => exact ⟨_, _, _, tokens, rfl, .string hs, rfl, h⟩
    | name hname => obtain rfl | rfl := he <;> obtain he | he := hname <;> cases he
    | finish c hc =>
      obtain rfl | rfl := he <;> obtain hc | hc := hc
      · cases hc
      · cases c <;> cases hc
      · cases hc
      · cases c with
        | object => cases hc
        | array => exact absurd rfl ht
    | @begin _ _ text _ c =>
      obtain ⟨gap, rest, t, tokens, p, hgap, rfl, rfl, hfirst, haccepts⟩ := accepts_inside h
      rw [List.length_cons] at hlt
      cases c with
      | array =>
        by_cases hend : t = .arrayEnd
        · obtain ⟨stack, rest, heq, -, rfl, rfl⟩ := first_finish hfirst .array hend
          cases heq
          subst hend
          refine ⟨0x5b :: (gap ++ [0x5d]), rest, .array [], tokens, ?_, .emptyArray hgap, rfl, haccepts⟩
          simp [openByte, closeByte]
        · obtain ⟨inside, items, rest, tokens', rfl, hitems, heq, haccepts⟩ :=
            items_of_accepts ih (by omega) (.inr rfl) hend hfirst haccepts
          refine ⟨0x5b :: (gap ++ inside ++ [0x5d]), rest, .array items, tokens', ?_,
            .array (hitems gap hgap), ?_, haccepts⟩
          · simp [openByte]
          · rw [heq, Json.tokens]
            simp [begin]
      | object =>
        by_cases hend : t = .objectEnd
        · obtain ⟨stack, rest, heq, -, rfl, rfl⟩ := first_finish hfirst .object hend
          cases heq
          subst hend
          refine ⟨0x7b :: (gap ++ [0x7d]), rest, .object [], tokens, ?_, .emptyObject hgap, rfl, haccepts⟩
          simp [openByte, closeByte]
        · obtain ⟨inside, members, rest, tokens', rfl, hmembers, heq, haccepts⟩ :=
            members_of_accepts ih (by omega) (.inr rfl) hend hfirst haccepts
          refine ⟨0x7b :: (gap ++ inside ++ [0x7d]), rest, .object members, tokens', ?_,
            .object (hmembers gap hgap), ?_, haccepts⟩
          · simp [openByte]
          · rw [heq, Json.tokens]
            simp [begin]

/-- A text is accepted as a value between blanks exactly when it is a document, and then as the tokens
of its value. -/
theorem accepts_iff : Accepts ⟨[], .value, text⟩ tokens ↔ ∃ v, Document text v ∧ tokens = v.tokens := by
  constructor
  · intro h
    cases h with
    | step hstep h =>
    obtain ⟨q, hlead, hfirst⟩ := hstep
    obtain ⟨before, rest, hbefore, htext, rfl⟩ := lead_of_takes hlead (by simp) (by simp)
    obtain rfl : text = before ++ rest := htext
    obtain ⟨body, after, v, tokens', rfl, hvalue, heq, haccepts⟩ :=
      valuesUpTo _ (Nat.lt_succ_self _) (.inl rfl)
        (first_ne_finish hfirst (.inl rfl) .array) hfirst h
    cases haccepts with
    | done hafter => exact ⟨v, .padded hbefore hvalue hafter, by rw [heq, List.append_nil]⟩
    | step hstep _ => exact absurd hstep not_step_done
  · rintro ⟨v, ⟨hbefore, h, hafter⟩, rfl⟩
    have hdone : Accepts ⟨[], behind [], _⟩ [] := .done hafter
    have haccepts := accepts_value h (.inl rfl) (.blanks hbefore) hdone
    rwa [List.append_nil] at haccepts

end Grammar

end JsonSieve
