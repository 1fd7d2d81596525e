import JsonSieve.Proofs.Json.Recognized
import JsonSieve.Proofs.Lexer.Incremental
import JsonSieve.Proofs.Lexer.Strings

/-!
# The lexer accepts the documents

A lexer that has a whole text reads it to its end without an error exactly when the text is a document of
the grammar, and the tokens that it hands out are those of the document's value (`drain_eq_eof_iff`). One
answer of the lexer is one `Grammar.Step` (`next_iff_step`).
-/

namespace JsonSieve.Lexer

open Grammar

def place (l : Lexer) : Place := ⟨l.stack, l.expect, l.pending⟩

variable {e : Expect} {l : Lexer} {stack : List Container} {text rest inside : List UInt8}
  {p : Place} {t : Token}

theorem place_eq : l.place = ⟨stack, e, text⟩ ↔ l.stack = stack ∧ l.expect = e ∧ l.pending = text := by
  simp [place]

/-- A lexer that has a whole text and no error, and stands between two tokens. -/
structure Ready (l : Lexer) : Prop where
  closed : l.closed = true
  failed : l.failed = none
  scanned : l.scanned = 0
  /-- A comma can only come inside of a container. -/
  comma : l.expect = .commaOrEnd → l.stack ≠ []

/-- The answer of a reader is a token, and it stands at a place then. -/
def Hands (r : Except LexError (Lexer × Lexed)) (t : Token) (p : Place) : Prop :=
  ∃ l, r = .ok (l, .token t) ∧ l.place = p

/-! ## Readers -/

theorem Ready.moved (h : l.Ready) (n : Nat) (stack : List Container) (expect : Expect)
    (hcomma : expect = .commaOrEnd → stack ≠ []) : Ready { l.advance n with stack, expect } :=
  ⟨h.closed, h.failed, h.scanned, hcomma⟩

theorem openContainer_eq (l : Lexer) (c : Container) : l.openContainer c =
    ({ l.advance 1 with stack := c :: l.stack, expect := c.inside }, .token c.begin) := by
  cases c <;> rfl

theorem closeContainer_iff {c : Container} (hp : l.pending = c.closeByte :: rest) : Hands (l.closeContainer c) t p ↔
      ∃ stack, l.stack = c :: stack ∧ t = c.finish ∧ p = ⟨stack, behind stack, rest⟩ := by
  unfold closeContainer
  constructor
  · rintro ⟨l', heq, rfl⟩
    split at heq
    · next top stack hstack =>
      split at heq
      · next htop =>
        cases heq
        refine ⟨stack, by rw [hstack, htop], by cases c <;> rfl, ?_⟩
        simp [place, Lexer.valueDone, behind, hp]
      · cases heq
    · cases heq
  · rintro ⟨stack, hstack, rfl, rfl⟩
    simp only [hstack, if_pos]
    refine ⟨_, by cases c <;> rfl, ?_⟩
    simp [place, Lexer.valueDone, behind, hp]

theorem matchWord_full_iff {word bytes : List UInt8} : matchWord word bytes = .full ↔ ∃ rest, bytes = word ++ rest := by
  constructor
  · intro h
    fun_induction matchWord word bytes with
    | case1 bytes => exact ⟨bytes, rfl⟩
    | case2 => cases h
    | case3 w word bytes ih =>
      obtain ⟨rest, rfl⟩ := ih h
      exact ⟨rest, rfl⟩
    | case4 => cases h
  · rintro ⟨rest, rfl⟩
    induction word with
    | nil => rfl
    | cons w word ih => rw [List.cons_append, matchWord, if_pos rfl, ih]

theorem readWord_iff (h : l.Ready) {word : List UInt8} {t0 : Token} : Hands (l.readWord word t0) t p ↔
      t = t0 ∧ ∃ rest, l.pending = word ++ rest ∧ p = ⟨l.stack, behind l.stack, rest⟩ := by
  unfold readWord
  constructor
  · rintro ⟨l', heq, rfl⟩
    split at heq
    · next hfull =>
      cases heq
      obtain ⟨rest, hp⟩ := matchWord_full_iff.1 hfull
      refine ⟨rfl, rest, hp, ?_⟩
      simp [place, Lexer.valueDone, behind, hp]
    · rw [if_pos h.closed] at heq
      cases heq
    · cases heq
  · rintro ⟨rfl, rest, hp, rfl⟩
    rw [matchWord_full_iff.2 ⟨rest, hp⟩]
    refine ⟨_, rfl, ?_⟩
    simp [place, Lexer.valueDone, behind, hp]

theorem isNumberByte_of_number (h : Number text) : ∀ b ∈ text, isNumberByte b = true := by
  have hdigit : ∀ {b : UInt8}, Digit b → isNumberByte b = true := fun hb => by
    simp [isNumberByte, Literal.isDigit_iff.2 hb]
  intro b hb
  obtain ⟨hsign, hwhole, hfraction, hexponent⟩ := h
  simp only [List.mem_append] at hb
  obtain hb | hb | hb | hb := hb
  · obtain rfl | rfl := hsign
    · cases hb
    · obtain rfl := List.mem_singleton.1 hb
      rfl
  · obtain rfl | ⟨⟨-, hdigits⟩, -⟩ := hwhole
    · obtain rfl := List.mem_singleton.1 hb
      rfl
    · exact hdigit (hdigits b hb)
  · cases hfraction with
    | absent => cases hb
    | point h =>
      obtain rfl | hb := List.mem_cons.1 hb
      · rfl
      · exact hdigit (h.2 b hb)
  · cases hexponent with
    | absent => cases hb
    | mark he hsign h =>
      simp only [List.mem_cons, List.mem_append] at hb
      obtain rfl | hb | hb := hb
      · obtain rfl | rfl := he <;> rfl
      · obtain rfl | rfl | rfl := hsign
        · cases hb
        · obtain rfl := List.mem_singleton.1 hb
          rfl
        · obtain rfl := List.mem_singleton.1 hb
          rfl
      · exact hdigit (h.2 b hb)

theorem readNumber_iff (h : l.Ready) :
    Hands l.readNumber t p ↔ ∃ text rest literal, l.pending = text ++ rest ∧ Number text ∧
      Literal.parse? text = some literal ∧ (∀ b ∈ rest.head?, isNumberByte b = false) ∧
      t = .number literal.toBinary64 ∧ p = ⟨l.stack, behind l.stack, rest⟩ := by
  constructor
  · rintro ⟨l', heq, rfl⟩
    cases hspan : l.pending.span isNumberByte with
    | mk text rest =>
    obtain ⟨hp, -, hrest⟩ := Literal.of_span_eq hspan
    simp only [readNumber, hspan, h.closed, Bool.not_true, Bool.and_false, Bool.false_eq_true, if_false] at heq
    cases hparse : Literal.parse? text with
    | none =>
      rw [hparse] at heq
      cases heq
    | some literal =>
      rw [hparse] at heq
      cases heq
      refine ⟨text, rest, literal, hp, Literal.parse?_isSome_iff.1 ⟨literal, hparse⟩, hparse, hrest, rfl, ?_⟩
      simp [place, Lexer.valueDone, behind, hp]
  · rintro ⟨text, rest, literal, hp, hnumber, hparse, hrest, rfl, rfl⟩
    have hspan : l.pending.span isNumberByte = (text, rest) := by
      rw [hp]
      exact Literal.span_append (fun b hb => isNumberByte_of_number hnumber b hb) hrest
    refine ⟨(l.advance text.length).valueDone, ?_, ?_⟩
    · simp only [readNumber, hspan, h.closed, Bool.not_true, Bool.and_false, Bool.false_eq_true, if_false, hparse]
    · simp [place, Lexer.valueDone, behind, hp]

theorem quoted_head {s : String} (h : Quoted text s) (rest : List UInt8) : ∃ inside, text ++ rest = 0x22 :: inside := by
  cases h
  exact ⟨_, rfl⟩

theorem readString_iff (h : l.Ready) (hp : l.pending = 0x22 :: inside) {l' : Lexer} :
    l.readString = .ok (l', .token t) ↔ ∃ text s rest, l.pending = text ++ rest ∧ Quoted text s ∧
      t = .string s ∧ l' = l.advance text.length := by
  have hadvance : ∀ n, { l.advance n with scanned := 0 } = l.advance n := fun n => by
    rw [← h.scanned]
    rfl
  rw [readString_eq hp, h.scanned, List.drop_zero]
  constructor
  · intro heq
    split at heq
    · rw [if_pos h.closed] at heq
      cases heq
    · next n hscan =>
      obtain ⟨raw, rest, rfl, rfl, hclear⟩ := scan_closed hscan
      rw [Nat.zero_add, List.take_left] at heq
      split at heq
      · next s htext =>
        cases heq
        obtain ⟨chars, hchars, rfl⟩ := (stringText_eq_ok_iff hclear).1 htext
        refine ⟨0x22 :: (raw ++ [0x22]), _, rest, by rw [hp]; simp, .quotes hchars, rfl, ?_⟩
        rw [hadvance]
        simp
      · cases heq
  · rintro ⟨text, s, rest, hp', ⟨hchars⟩, rfl, rfl⟩
    rename_i raw chars
    have hclear := ((@characters_iff 0 _ _).1 hchars).1
    obtain rfl : inside = raw ++ 0x22 :: rest := by
      rw [hp, List.cons_append, List.append_assoc] at hp'
      exact (List.cons.inj hp').2
    rw [hclear.scan_eq]
    simp only [List.take_left, (stringText_eq_ok_iff hclear).2 ⟨chars, hchars, rfl⟩, hadvance]
    simp

theorem onString_iff (h : l.Ready) (hp : l.pending = 0x22 :: inside) (f : Lexer → Lexer) (expect : Expect)
    (hf : ∀ n, f (l.advance n) = { l.advance n with expect }) :
    Hands (onToken f <$> l.readString) t p ↔ ∃ text s rest, l.pending = text ++ rest ∧ Quoted text s ∧
      t = .string s ∧ p = ⟨l.stack, expect, rest⟩ := by
  have hplace : ∀ {text rest : List UInt8}, l.pending = text ++ rest →
      ({ l.advance text.length with expect } : Lexer).place = ⟨l.stack, expect, rest⟩ := fun hp => by
    simp [place, hp]
  constructor
  · rintro ⟨l', heq, rfl⟩
    cases hread : l.readString with
    | error e =>
      rw [hread] at heq
      cases heq
    | ok answer =>
      obtain ⟨l1, answer⟩ := answer
      rw [hread] at heq
      cases answer with
      | token t' =>
        cases heq
        obtain ⟨text, s, rest, hp', hs, rfl, rfl⟩ := (readString_iff h hp).1 hread
        exact ⟨text, s, rest, hp', hs, rfl, by rw [hf, hplace hp']⟩
      | needMore | eof | error => cases heq
  · rintro ⟨text, s, rest, hp', hs, rfl, rfl⟩
    refine ⟨{ l.advance text.length with expect }, ?_, hplace hp'⟩
    rw [(readString_iff h hp).2 ⟨text, s, rest, hp', hs, rfl, rfl⟩, ← hf]
    rfl

/-! ## Tokens -/

theorem not_hands_fail {cause : LexError.Cause} : ¬ Hands (l.fail cause) t p := by
  rintro ⟨l', heq, -⟩
  cases heq

theorem not_hands_atEnd (h : l.Ready) : ¬ Hands l.atEnd t p := by
  rintro ⟨l', heq, -⟩
  unfold atEnd at heq
  rw [h.closed] at heq
  simp only [Bool.not_true, Bool.false_eq_true, if_false] at heq
  split at heq
  · cases heq
  · split at heq <;> cases heq

/-- Where a value may come, the reader of values takes what the grammar takes, brackets that close
apart. -/
theorem readValue_iff (h : l.Ready) (he : TakesValue l.expect)
    (hend : l.expect = .itemOrEnd → l.pending.head? ≠ some 0x5d) :
    Hands l.readValue t p ↔ First l.place t p := by
  constructor
  · intro hhands
    cases hp : l.pending with
    | nil =>
      rw [readValue_nil hp] at hhands
      exact absurd hhands (not_hands_atEnd h)
    | cons b rest =>
      have hplace : l.place = ⟨l.stack, l.expect, b :: rest⟩ := by rw [place, hp]
      rw [hplace]
      simp only [readValue, hp] at hhands
      have hword : ∀ {word : List UInt8} {t0 : Token}, (word, t0) ∈ words →
          Hands (l.readWord word t0) t p → First ⟨l.stack, l.expect, b :: rest⟩ t p := by
        intro word t0 hmem hhands
        obtain ⟨rfl, rest', hp', rfl⟩ := (readWord_iff h).1 hhands
        rw [← hp, hp']
        exact .word he hmem
      have hopen : ∀ c : Container, b = c.openByte → Hands (.ok (l.openContainer c)) t p →
          First ⟨l.stack, l.expect, b :: rest⟩ t p := by
        rintro c rfl ⟨l', heq, rfl⟩
        rw [openContainer_eq] at heq
        cases heq
        rw [place, advance_pending, hp]
        exact .begin he c
      split at hhands
      · next hb => exact hopen .object hb hhands
      split at hhands
      · next hb => exact hopen .array hb hhands
      split at hhands
      · next hb =>
        subst hb
        obtain ⟨text, s, rest', hp', hs, rfl, rfl⟩ := (onString_iff h hp valueDone
          (behind l.stack) fun _ => rfl).1 hhands
        rw [← hp, hp']
        exact .string he hs
      split at hhands
      · exact hword (by simp [words]) hhands
      split at hhands
      · exact hword (by simp [words]) hhands
      split at hhands
      · exact hword (by simp [words]) hhands
      split at hhands
      · obtain ⟨text, rest', literal, hp', hnumber, hparse, hrest, rfl, rfl⟩ :=
          (readNumber_iff h).1 hhands
        rw [← hp, hp']
        exact .number he hnumber hparse hrest
      · exact absurd hhands not_hands_fail
  · intro hfirst
    generalize hq : l.place = q at hfirst
    cases hfirst with
    | @word _ _ word rest t _ hmem =>
      obtain ⟨rfl, -, hp⟩ := place_eq.1 hq
      have hhands := (readWord_iff h).2 ⟨Eq.refl t, rest, hp, rfl⟩
      simp only [words, List.mem_cons, Prod.mk.injEq, List.not_mem_nil, or_false] at hmem
      obtain ⟨rfl, rfl⟩ | ⟨rfl, rfl⟩ | ⟨rfl, rfl⟩ := hmem
      all_goals simpa [readValue, hp] using hhands
    | @number _ _ text rest literal _ hnumber hparse hrest =>
      obtain ⟨rfl, -, hp⟩ := place_eq.1 hq
      have hhands := (readNumber_iff h).2 ⟨text, rest, literal, hp, hnumber, hparse, hrest, rfl, rfl⟩
      obtain ⟨b, tail, rfl, hb⟩ := number_head hnumber
      have hne : ∀ {c : UInt8}, ¬ (c = 0x2d ∨ Digit c) → b ≠ c := by
        rintro c hc rfl
        exact hc hb
      have hdispatch : (decide (b = 0x2d) || Literal.isDigit b) = true := by
        obtain rfl | hb := hb
        · rfl
        · rw [Literal.isDigit_iff.2 hb, Bool.or_true]
      simpa only [readValue, hp, List.cons_append, hdispatch, if_true, if_neg (hne (c := 0x7b) (by decide)),
        if_neg (hne (c := 0x5b) (by decide)), if_neg (hne (c := 0x22) (by decide)),
        if_neg (hne (c := 0x74) (by decide)), if_neg (hne (c := 0x66) (by decide)),
        if_neg (hne (c := 0x6e) (by decide))] using hhands
    | @string _ _ text rest s _ hs =>
      obtain ⟨rfl, -, hp⟩ := place_eq.1 hq
      obtain ⟨inside, hinside⟩ := quoted_head hs rest
      have hhands := (onString_iff h (hp.trans hinside) valueDone (behind l.stack)
        fun _ => rfl).2 ⟨text, s, rest, hp, hs, rfl, rfl⟩
      simpa [readValue, hp.trans hinside] using hhands
    | name hname =>
      obtain ⟨-, rfl, -⟩ := place_eq.1 hq
      obtain he | he := he <;> obtain hname | hname := hname <;> rw [he] at hname <;> cases hname
    | @begin _ _ rest _ c =>
      obtain ⟨rfl, -, hp⟩ := place_eq.1 hq
      refine ⟨{ l.advance 1 with stack := c :: l.stack, expect := c.inside }, ?_, ?_⟩
      · cases c <;> simp [readValue, hp, Container.openByte, openContainer_eq]
      · simp [place, hp]
    | @finish _ _ rest c hc =>
      obtain ⟨-, rfl, hp⟩ := place_eq.1 hq
      obtain he | he := he
      · rw [he] at hc
        obtain hc | hc := hc <;> cases c <;> cases hc
      · cases c with
        | object =>
          rw [he] at hc
          obtain hc | hc := hc <;> cases hc
        | array =>
          refine absurd ?_ (hend he)
          rw [hp]
          rfl

/-- Where a name may come, the reader of names takes what the grammar takes, brackets that close
apart. -/
theorem readName_iff (h : l.Ready) (he : TakesName l.expect)
    (hend : l.expect = .nameOrEnd → l.pending.head? ≠ some 0x7d) :
    Hands l.readName t p ↔ First l.place t p := by
  have hstring : ∀ {inside : List UInt8}, l.pending = 0x22 :: inside →
      (Hands l.readName t p ↔ ∃ text s rest, l.pending = text ++ rest ∧ Quoted text s ∧
        t = .string s ∧ p = ⟨l.stack, .colon, rest⟩) := fun hp => by
    simp only [readName, hp, if_true]
    rw [← hp]
    exact onString_iff h hp ({ · with expect := .colon }) .colon fun _ => rfl
  constructor
  · intro hhands
    cases hp : l.pending with
    | nil =>
      rw [readName_nil hp] at hhands
      exact absurd hhands (not_hands_atEnd h)
    | cons b rest =>
      by_cases hb : b = 0x22
      · subst hb
        obtain ⟨text, s, rest', hp', hs, rfl, rfl⟩ := (hstring hp).1 hhands
        rw [place, hp']
        exact .name he hs
      · simp only [readName, hp, if_neg hb] at hhands
        exact absurd hhands not_hands_fail
  · intro hfirst
    generalize hq : l.place = q at hfirst
    cases hfirst with
    | word hv | number hv | string hv | begin hv =>
      obtain ⟨-, rfl, -⟩ := place_eq.1 hq
      obtain he | he := he <;> obtain hv | hv := hv <;> rw [he] at hv <;> cases hv
    | @name _ _ text rest s _ hs =>
      obtain ⟨rfl, -, hp⟩ := place_eq.1 hq
      obtain ⟨inside, hinside⟩ := quoted_head hs rest
      exact (hstring (hp.trans hinside)).2 ⟨text, s, rest, hp, hs, rfl, rfl⟩
    | @finish _ _ rest c hc =>
      obtain ⟨-, rfl, hp⟩ := place_eq.1 hq
      obtain he | he := he
      · rw [he] at hc
        obtain hc | hc := hc <;> cases c <;> cases hc
      · cases c with
        | array =>
          rw [he] at hc
          obtain hc | hc := hc <;> cases hc
        | object =>
          refine absurd ?_ (hend he)
          rw [hp]
          rfl

/-- A closing bracket is taken only where its container can end. -/
theorem first_close_iff {c : Container} (he : e = .commaOrEnd ∨ e = c.inside) :
    First ⟨stack, e, c.closeByte :: rest⟩ t p ↔
      ∃ stack', stack = c :: stack' ∧ t = c.finish ∧ p = ⟨stack', behind stack', rest⟩ := by
  constructor
  · intro h
    obtain ⟨b, rest', hcons, hb, -⟩ | ⟨c', stack', rest', hstack, -, hcons, rfl, rfl⟩ := first_cases h
    · obtain ⟨rfl, -⟩ := List.cons.inj hcons
      exact absurd hb (by cases c <;> decide)
    · obtain ⟨hbyte, rfl⟩ := List.cons.inj hcons
      obtain rfl : c = c' := by cases c <;> cases c' <;> first | rfl | cases hbyte
      exact ⟨stack', hstack, rfl, rfl⟩
  · rintro ⟨stack', rfl, rfl, rfl⟩
    exact .finish c he

/-- Behind blanks and separators the reader takes the tokens of the grammar. -/
theorem readHere_iff (h : l.Ready) (hcolon : l.expect ≠ .colon)
    (hcomma : l.expect = .commaOrEnd → l.pending.head? ≠ some 0x2c) :
    Hands l.readHere t p ↔ First l.place t p := by
  cases hp : l.pending with
  | nil =>
    simp only [readHere, hp]
    refine ⟨fun hhands => absurd hhands (not_hands_atEnd h), fun hfirst => ?_⟩
    obtain ⟨b, rest, hcons, -⟩ | ⟨c, stack, rest, -, -, hcons, -⟩ := first_cases hfirst
    · rw [place, hp] at hcons
      cases hcons
    · rw [place, hp] at hcons
      cases hcons
  | cons b rest =>
    have hclose : ∀ c : Container, b = c.closeByte → (l.expect = .commaOrEnd ∨ l.expect = c.inside) →
        (Hands (l.closeContainer c) t p ↔ First l.place t p) := by
      rintro c rfl he
      rw [closeContainer_iff hp, place, hp, first_close_iff he]
    have hhead : ∀ {c : UInt8}, b ≠ c → l.pending.head? ≠ some c := fun hne heq => by
      rw [hp] at heq
      exact hne (Option.some.inj heq)
    cases hexpect : l.expect with
    | done =>
      simp only [readHere, hp, hexpect]
      refine ⟨fun hhands => absurd hhands not_hands_fail, fun hfirst => ?_⟩
      have hcontra := (first_commaOrEnd hfirst (.inl hexpect)).1
      rw [place, hexpect] at hcontra
      cases hcontra
    | colon => exact absurd hexpect hcolon
    | commaOrEnd =>
      have hb : b ≠ 0x2c := fun hb => hcomma hexpect (by rw [hp, hb]; rfl)
      simp only [readHere, hp, hexpect, if_neg hb]
      split
      · next hb => exact hclose .object hb (.inl hexpect)
      split
      · next hb => exact hclose .array hb (.inl hexpect)
      · next hobject harray =>
        refine ⟨fun hhands => absurd hhands not_hands_fail, fun hfirst => ?_⟩
        obtain ⟨-, c, -, rest', -, htext, -⟩ := first_commaOrEnd hfirst (.inr (.inr hexpect))
        rw [place, hp] at htext
        obtain ⟨rfl, -⟩ := List.cons.inj htext
        cases c with
        | object => exact absurd rfl hobject
        | array => exact absurd rfl harray
    | itemOrEnd =>
      simp only [readHere, hp, hexpect]
      split
      · next hb => exact hclose .array hb (.inr hexpect)
      · next hb => exact readValue_iff h (.inr hexpect) fun _ => hhead hb
    | nameOrEnd =>
      simp only [readHere, hp, hexpect]
      split
      · next hb => exact hclose .object hb (.inr hexpect)
      · next hb => exact readName_iff h (.inr hexpect) fun _ => hhead hb
    | name =>
      rw [readHere_of_name hexpect]
      exact readName_iff h (.inl hexpect) fun heq => by rw [hexpect] at heq; cases heq
    | value =>
      rw [readHere_of_value hexpect]
      exact readValue_iff h (.inl hexpect) fun heq => by rw [hexpect] at heq; cases heq

/-! ## Answers -/

theorem isBlank_iff {b : UInt8} : isBlank b = true ↔ Blank b := by
  simp [isBlank, Blank, or_assoc]

theorem dropWhile_blanks {gap : List UInt8} (hgap : Blanks gap)
    (hrest : ∀ b ∈ rest.head?, ¬ Blank b) : (gap ++ rest).dropWhile isBlank = rest := by
  rw [List.dropWhile_append_of_pos fun b hb => isBlank_iff.2 (hgap b hb)]
  cases rest with
  | nil => rfl
  | cons b rest => rw [List.dropWhile_cons_of_neg (mt isBlank_iff.1 (hrest b rfl))]

theorem exists_blanks (text : List UInt8) : ∃ gap, Blanks gap ∧ text = gap ++ text.dropWhile isBlank :=
  ⟨text.takeWhile isBlank, fun _ hb => isBlank_iff.1 (List.mem_takeWhile_imp hb), List.takeWhile_append_dropWhile.symm⟩

theorem Ready.skipBlanks (h : l.Ready) : l.skipBlanks.Ready :=
  h.moved _ l.stack l.expect h.comma

theorem first_head {p' : Place} (h : First p t p') :
    ∃ b rest, p.text = b :: rest ∧ ¬ Blank b ∧ b ≠ 0x2c ∧ b ≠ 0x3a := by
  obtain ⟨b, rest, htext, hb, -⟩ | ⟨c, stack, rest, -, -, htext, -⟩ := first_cases h
  · refine ⟨b, rest, htext, ?_, ?_, ?_⟩
    · rintro (rfl | rfl | rfl | rfl) <;> exact absurd hb (by decide)
    · rintro rfl
      exact absurd hb (by decide)
    · rintro rfl
      exact absurd hb (by decide)
  · exact ⟨_, rest, htext, by cases c <;> decide⟩

theorem dropWhile_first {gap : List UInt8} (hgap : Blanks gap) (h : First ⟨stack, e, rest⟩ t p) :
    (gap ++ rest).dropWhile isBlank = rest := by
  obtain ⟨b, rest, rfl, hb, -⟩ := first_head h
  exact dropWhile_blanks hgap fun _ heq => Option.some.inj heq ▸ hb

/-- What stands in front of a token is found by dropping blanks. -/
theorem step_iff : Step ⟨stack, e, text⟩ t p ↔ First ⟨stack, e, text.dropWhile isBlank⟩ t p ∨
      (e = .colon ∧ ∃ rest, text.dropWhile isBlank = 0x3a :: rest ∧ First ⟨stack, .value, rest.dropWhile isBlank⟩ t p) ∨
      (e = .commaOrEnd ∧ ∃ c stack' rest, stack = c :: stack' ∧
        text.dropWhile isBlank = 0x2c :: rest ∧ First ⟨stack, c.next, rest.dropWhile isBlank⟩ t p) := by
  constructor
  · rintro ⟨q, hlead, hfirst⟩
    cases hlead with
    | blanks hgap =>
      rw [dropWhile_first hgap hfirst]
      exact .inl hfirst
    | @colon _ gap gap' rest hgap hgap' =>
      refine .inr (.inl ⟨rfl, gap' ++ rest, dropWhile_blanks hgap ?_, ?_⟩)
      · exact fun _ heq => Option.some.inj heq ▸ by decide
      · rwa [dropWhile_first hgap' hfirst]
    | @comma c stack gap gap' rest hgap hgap' =>
      refine .inr (.inr ⟨rfl, c, stack, gap' ++ rest, rfl, dropWhile_blanks hgap ?_, ?_⟩)
      · exact fun _ heq => Option.some.inj heq ▸ by decide
      · rwa [dropWhile_first hgap' hfirst]
  · obtain ⟨gap, hgap, htext⟩ := exists_blanks text
    rintro (hfirst | ⟨rfl, rest, hrest, hfirst⟩ | ⟨rfl, c, stack, rest, rfl, hrest, hfirst⟩)
    · rw [htext]
      exact ⟨_, .blanks hgap, hfirst⟩
    · obtain ⟨gap', hgap', hrest'⟩ := exists_blanks rest
      rw [htext, hrest, hrest']
      exact ⟨_, .colon hgap hgap', hfirst⟩
    · obtain ⟨gap', hgap', hrest'⟩ := exists_blanks rest
      rw [htext, hrest, hrest']
      exact ⟨_, .comma hgap hgap', hfirst⟩

theorem afterSeparator_iff (h : l.Ready) {b : UInt8} (hp : l.pending = b :: rest) (he : e = .value ∨ e = .name)
    {read : Lexer → Except LexError (Lexer × Lexed)}
    (hread : ∀ k : Lexer, k.expect = e → k.readHere = read k) :
    Hands (l.afterSeparator e read) t p ↔ First ⟨l.stack, e, rest.dropWhile isBlank⟩ t p := by
  have hne : e ≠ .commaOrEnd ∧ e ≠ .colon := by obtain rfl | rfl := he <;> simp
  have hready := (h.moved 1 l.stack e fun heq => absurd heq hne.1).skipBlanks
  have hplace : ({ l.advance 1 with expect := e } : Lexer).skipBlanks.place = ⟨l.stack, e, rest.dropWhile isBlank⟩ := by
    rw [place, skipBlanks_pending]
    simp [skipBlanks_eq, advance, hp]
  rw [afterSeparator, ← hread _ rfl, ← hplace]
  exact readHere_iff hready hne.2 fun heq => absurd heq hne.1

theorem read_iff (h : l.Ready) : Hands l.read t p ↔ Step l.place t p := by
  have hk := h.skipBlanks
  have hkp := skipBlanks_pending l
  have hplace : l.skipBlanks.place = ⟨l.stack, l.expect, l.pending.dropWhile isBlank⟩ := by
    rw [place, hkp]
    rfl
  rw [read_eq, place, step_iff, ← hplace, ← hkp]
  by_cases hcolon : l.expect = .colon
  · have hexpect : l.skipBlanks.expect = .colon := hcolon
    have hnot : ¬ First l.skipBlanks.place t p := fun hfirst => by
      have hcontra := (first_commaOrEnd hfirst (.inr (.inl hcolon))).1
      rw [place, hexpect] at hcontra
      cases hcontra
    simp only [hnot, hcolon, true_and, false_or, reduceCtorEq, false_and, or_false]
    cases hp : l.skipBlanks.pending with
    | nil =>
      simp only [readHere, hp, reduceCtorEq, false_and, exists_false, iff_false]
      exact not_hands_atEnd hk
    | cons b rest =>
      simp only [readHere, hp, hexpect, List.cons.injEq]
      split
      · next hb =>
        rw [afterSeparator_iff hk hp (.inl rfl) fun _ => readHere_of_value]
        simp [hb, skipBlanks_eq]
      · next hb => simp [hb, not_hands_fail]
  · by_cases hcomma : l.expect = .commaOrEnd ∧ l.skipBlanks.pending.head? = some 0x2c
    · obtain ⟨hexpect, hhead⟩ := hcomma
      have hkexpect : l.skipBlanks.expect = .commaOrEnd := hexpect
      obtain ⟨rest, hp⟩ : ∃ rest, l.skipBlanks.pending = 0x2c :: rest := by
        cases hp : l.skipBlanks.pending with
        | nil => simp [hp] at hhead
        | cons b rest =>
          rw [hp] at hhead
          exact ⟨rest, by rw [Option.some.inj hhead]⟩
      obtain ⟨c, stack, hstack⟩ := List.exists_cons_of_ne_nil (h.comma hexpect)
      have hkstack : l.skipBlanks.stack = c :: stack := hstack
      have hnot : ¬ First l.skipBlanks.place t p := fun hfirst => by
        obtain ⟨b, tail, hcons, -, hb, -⟩ := first_head hfirst
        rw [place, hp] at hcons
        exact hb (List.cons.inj hcons).1.symm
      simp only [hnot, hexpect, hstack, hp, List.cons.injEq, true_and, false_or, reduceCtorEq, false_and]
      have hhands : Hands l.skipBlanks.readHere t p ↔ First ⟨c :: stack, c.next, rest.dropWhile isBlank⟩ t p := by
        rw [← hkstack]
        cases c with
        | object =>
          have hread : l.skipBlanks.readHere = l.skipBlanks.afterSeparator .name readName := by
            simp only [readHere, hp, hkexpect, hkstack, if_true]
          rw [hread]
          exact afterSeparator_iff hk hp (.inr rfl) fun _ => readHere_of_name
        | array =>
          have hread : l.skipBlanks.readHere = l.skipBlanks.afterSeparator .value readValue := by
            simp only [readHere, hp, hkexpect, hkstack, if_true]
          rw [hread]
          exact afterSeparator_iff hk hp (.inl rfl) fun _ => readHere_of_value
      rw [hhands]
      constructor
      · exact fun hfirst => ⟨c, stack, rest, ⟨rfl, rfl⟩, rfl, hfirst⟩
      · rintro ⟨_, _, _, ⟨rfl, rfl⟩, rfl, hfirst⟩
        exact hfirst
    · rw [readHere_iff hk hcolon fun he hhead => hcomma ⟨he, hhead⟩]
      refine ⟨Or.inl, ?_⟩
      rintro (hfirst | ⟨heq, -⟩ | ⟨heq, c, stack, rest, -, hrest, -⟩)
      · exact hfirst
      · exact absurd heq hcolon
      · exact absurd ⟨heq, by rw [hrest]; rfl⟩ hcomma

/-! ## Answers of a ready lexer -/

/-- A ready lexer finds the end of its text exactly behind the value and blanks; otherwise it hands out a
token or fails. -/
theorem next_cases (hs : l.Sound) (h : l.Ready) : (l.next.2 = .eof ∧ l.expect = .done ∧ Blanks l.pending) ∨
    (¬ (l.expect = .done ∧ Blanks l.pending) ∧
      ((∃ t, l.next.2 = .token t ∧ l.next.1.Ready) ∨ ∃ e, l.next.2 = .error e)) := by
  have hblanks : l.skipBlanks.pending = [] ↔ Blanks l.pending := by
    rw [skipBlanks_pending, List.dropWhile_eq_nil_iff]
    exact ⟨fun h b hb => isBlank_iff.1 (h b hb), fun h b hb => isBlank_iff.2 (h b hb)⟩
  -- where nothing but the end may come, the next byte decides
  have hdone : l.expect = .done → l.next.2 = .eof ∧ Blanks l.pending ∨
      ¬ Blanks l.pending ∧ ∃ e, l.next.2 = .error e := fun hdone => by
    have hexpect : l.skipBlanks.expect = .done := hdone
    have hclosed : l.skipBlanks.closed = true := h.closed
    rw [next_eq h.failed, read_eq, readHere, ← hblanks]
    cases hp : l.skipBlanks.pending with
    | nil => exact .inl ⟨by simp [atEnd, hclosed, hexpect], rfl⟩
    | cons b rest => exact .inr ⟨List.cons_ne_nil _ _, by simp [hexpect, Lexer.fail]⟩
  obtain ⟨e, he⟩ | ⟨-, hgiven⟩ := next_given hs
  · refine .inr ⟨fun hend => ?_, .inr ⟨e, by rw [he]⟩⟩
    obtain ⟨heof, -⟩ | ⟨hnot, -⟩ := hdone hend.1
    · rw [he] at heof
      cases heof
    · exact hnot hend.2
  · have hmeans := hgiven.means
    cases hanswer : l.next.2 with
    | token t =>
      rw [hanswer] at hmeans
      refine .inr ⟨fun hend => ?_, .inl ⟨t, rfl, hgiven.closed.trans h.closed,
        hgiven.failed.trans h.failed, hmeans.2.1, hmeans.2.2⟩⟩
      obtain ⟨heof, -⟩ | ⟨hnot, -⟩ := hdone hend.1
      · rw [hanswer] at heof
        cases heof
      · exact hnot hend.2
    | needMore => exact absurd hanswer (next_ne_needMore hs h.closed)
    | eof =>
      rw [hanswer] at hmeans
      obtain ⟨-, hall⟩ | ⟨-, e, he⟩ := hdone hmeans.2.2.2
      · exact .inl ⟨rfl, hmeans.2.2.2, hall⟩
      · rw [hanswer] at he
        cases he
    | error e =>
      rw [hanswer] at hmeans
      exact hmeans.elim

theorem next_token_iff (h : l.Ready) : (l.next.2 = .token t ∧ l.next.1.place = p) ↔ Step l.place t p := by
  rw [← read_iff h, Hands, next_eq h.failed]
  cases l.read with
  | error e => simp
  | ok answer =>
    obtain ⟨l', answer⟩ := answer
    constructor
    · rintro ⟨rfl, hplace⟩
      exact ⟨l', rfl, hplace⟩
    · rintro ⟨l', heq, hplace⟩
      cases heq
      exact ⟨rfl, hplace⟩

/-! ## Documents -/

/-- The tokens of a lexer that comes to the end are those that the grammar accepts. -/
theorem drain_iff_accepts (hs : l.Sound) (h : l.Ready) {tokens : List Token} :
    l.drain = (tokens, .eof) ↔ Accepts l.place tokens := by
  induction tokens generalizing l with
  | nil =>
    rw [drain_eq hs]
    obtain ⟨heof, hdone, hall⟩ | ⟨hend, hanswer⟩ := next_cases hs h
    · rw [heof, place, hdone]
      exact ⟨fun _ => .done hall, fun _ => rfl⟩
    · refine ⟨fun heq => ?_, fun haccepts => ?_⟩
      · obtain ⟨t, ht, -⟩ | ⟨e, he⟩ := hanswer
        · rw [ht] at heq
          cases heq
        · rw [he] at heq
          cases heq
      · generalize hq : l.place = q at haccepts
        cases haccepts with
        | done hall =>
          obtain ⟨-, hdone, rfl⟩ := place_eq.1 hq
          exact absurd ⟨hdone, hall⟩ hend
  | cons t tokens ih =>
    constructor
    · intro heq
      rw [drain_eq hs] at heq
      obtain ⟨heof, -⟩ | ⟨-, ⟨t', ht, hready⟩ | ⟨e, he⟩⟩ := next_cases hs h
      · rw [heof] at heq
        cases heq
      · rw [ht] at heq
        simp only [Prod.mk.injEq, List.cons.injEq] at heq
        obtain ⟨⟨rfl, htokens⟩, hlast⟩ := heq
        refine .step ((next_token_iff h).1 ⟨ht, rfl⟩) ((ih hs.next hready).1 ?_)
        rw [← htokens, ← hlast]
      · rw [he] at heq
        cases heq
    · intro haccepts
      obtain ⟨p, hstep, haccepts⟩ := haccepts.uncons
      obtain ⟨hnext, rfl⟩ := (next_token_iff h).2 hstep
      obtain ⟨heof, -⟩ | ⟨-, ⟨t', -, hready⟩ | ⟨e, he⟩⟩ := next_cases hs h
      · rw [hnext] at heof
        cases heof
      · rw [drain_token hs hnext, (ih hs.next hready).2 haccepts]
      · rw [hnext] at he
        cases he

theorem whole_sound (text : List UInt8) : (whole text).Sound := (Sound.empty.feed text).close

theorem whole_ready (text : List UInt8) : (whole text).Ready := ⟨rfl, rfl, rfl, fun h => nomatch h⟩

def codePoints : Token → Nat
  | .string s => s.toList.length
  | _ => 0

theorem length_eq_codePoints (t : Token) : t.length = codePoints t := by
  cases t with
  | string s => exact String.length_toList.symm
  | _ => rfl

/-- A text is read to its end without an error exactly when it is a document, one value of the grammar
between blanks. The tokens handed out are then those of the value, and the length of a token is the number
of code points of its text. -/
theorem drain_whole_iff (text : List UInt8) (tokens : List Token) : (whole text).drain = (tokens, .eof) ↔
      ∃ v, Document text v ∧ tokens = v.tokens ∧ tokens.map Token.length = v.tokens.map codePoints := by
  rw [drain_iff_accepts (whole_sound text) (whole_ready text)]
  refine accepts_iff.trans ⟨?_, ?_⟩
  · rintro ⟨v, hv, rfl⟩
    exact ⟨v, hv, rfl, List.map_congr_left fun t _ => length_eq_codePoints t⟩
  · rintro ⟨v, hv, heq, -⟩
    exact ⟨v, hv, heq⟩

end JsonSieve.Lexer
