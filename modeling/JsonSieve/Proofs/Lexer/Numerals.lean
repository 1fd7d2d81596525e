import JsonSieve.Proofs.Lexer.Prefixes

/-!
# The numbers of a document

`Surrounds before after` says that a value of a document can stand between two texts. Every number of a document
stands at such a place (`numeral_of_value`), and what follows there does not continue it (`Surrounds.breaks`). So
the longest run of bytes that occur in numbers is the number itself, and a lexer that has come to a number takes
all of it or waits for its end (`readNumber_in_document`).
-/

namespace JsonSieve

namespace Grammar

/-- What an entry of a container has before its value. -/
inductive Heads : Container → List UInt8 → Prop where
  | item {gap : List UInt8} (h : Blanks gap) : Heads .array gap
  | member {before quoted gap gap' : List UInt8} {name : String} (hbefore : Blanks before)
    (hname : Quoted quoted name) (hgap : Blanks gap) (hgap' : Blanks gap') :
    Heads .object (before ++ (quoted ++ (gap ++ 0x3a :: gap')))

/-- Entries of a container, each with a comma behind it. -/
inductive Earlier (c : Container) : List UInt8 → Prop where
  | none : Earlier c []
  | entry {earlier head text after : List UInt8} {v : Json Binary64} (h : Earlier c earlier)
    (hhead : Heads c head) (hvalue : Value text v) (hafter : Blanks after) :
    Earlier c (earlier ++ (head ++ (text ++ (after ++ [0x2c]))))

/-- Nothing, or a comma and entries of a container. -/
inductive Later : Container → List UInt8 → Prop where
  | none {c : Container} : Later c []
  | items {rest : List UInt8} {items : List (Json Binary64)} (h : Items rest items) : Later .array (0x2c :: rest)
  | members {rest : List UInt8} {members : List (String × Json Binary64)} (h : Members rest members) :
    Later .object (0x2c :: rest)

/-- The texts before and behind a value of a document. -/
inductive Surrounds : List UInt8 → List UInt8 → Prop where
  | document {before after : List UInt8} (hbefore : Blanks before) (hafter : Blanks after) : Surrounds before after
  | entry {c : Container} {before after earlier head gap later : List UInt8} (h : Surrounds before after)
    (hearlier : Earlier c earlier) (hhead : Heads c head) (hgap : Blanks gap) (hlater : Later c later) :
    Surrounds (before ++ c.openByte :: (earlier ++ head)) (gap ++ (later ++ c.closeByte :: after))

variable {before number after : List UInt8}

theorem Surrounds.breaks (h : Surrounds before after) : Breaks after := by
  cases h with
  | document _ hafter => exact fun b hb => isNumberByte_of_blank (hafter b (List.mem_of_mem_head? hb))
  | @entry c _ _ _ _ _ _ _ _ _ hgap hlater =>
    cases hlater with
    | none => exact isNumberByte_head hgap (by cases c <;> rfl)
    | items | members => exact isNumberByte_head hgap rfl

/-- At one of the places of a text where values stand there is a number, and it denotes `x`. -/
def Numeral (text : List UInt8) (x : Binary64) : Prop :=
  ∃ before number after l, text = before ++ (number ++ after) ∧ Surrounds before after ∧ Number number ∧
    Literal.parse? number = some l ∧ x = l.toBinary64

mutual

theorem numeral_of_value {text before after : List UInt8} {v : Json Binary64} {x : Binary64} (h : Value text v)
    (hs : Surrounds before after) (hx : .number x ∈ v.tokens) : Numeral (before ++ (text ++ after)) x := by
  cases h with
  | number h hl => exact ⟨_, _, _, _, rfl, hs, h, hl, by simpa [Json.tokens] using hx⟩
  | array h =>
    simpa [Json.tokens] using numeral_of_items h hs .none (by simpa [Json.tokens] using hx)
  | object h =>
    simpa [Json.tokens] using numeral_of_members h hs .none (by simpa [Json.tokens] using hx)
  | _ => simp [Json.tokens, Json.itemTokens, Json.memberTokens] at hx

theorem numeral_of_items {inside before after earlier : List UInt8} {items : List (Json Binary64)} {x : Binary64}
    (h : Items inside items) (hs : Surrounds before after) (hearlier : Earlier .array earlier)
    (hx : .number x ∈ Json.itemTokens items) :
    Numeral (before ++ 0x5b :: (earlier ++ (inside ++ 0x5d :: after))) x := by
  cases h with
  | one hbefore h hafter =>
    rw [Json.itemTokens, Json.itemTokens, List.append_nil] at hx
    simpa [Container.openByte, Container.closeByte] using
      numeral_of_value h (.entry hs hearlier (.item hbefore) hafter .none) hx
  | more hbefore h hafter hrest =>
    rw [Json.itemTokens, List.mem_append] at hx
    obtain hx | hx := hx
    · simpa [Container.openByte, Container.closeByte] using
        numeral_of_value h (.entry hs hearlier (.item hbefore) hafter (.items hrest)) hx
    · simpa using numeral_of_items hrest hs (hearlier.entry (.item hbefore) h hafter) hx

theorem numeral_of_members {inside before after earlier : List UInt8} {members : List (String × Json Binary64)}
    {x : Binary64} (h : Members inside members) (hs : Surrounds before after) (hearlier : Earlier .object earlier)
    (hx : .number x ∈ Json.memberTokens members) :
    Numeral (before ++ 0x7b :: (earlier ++ (inside ++ 0x7d :: after))) x := by
  cases h with
  | one hbefore hname hgap hgap' h hafter =>
    rw [Json.memberTokens, Json.memberTokens, List.append_nil] at hx
    simpa [Container.openByte, Container.closeByte] using numeral_of_value h
      (.entry hs hearlier (.member hbefore hname hgap hgap') hafter .none) (by simpa using hx)
  | more hbefore hname hgap hgap' h hafter hrest =>
    have hhead := Heads.member hbefore hname hgap hgap'
    rw [Json.memberTokens, List.mem_cons, List.mem_append] at hx
    obtain hx | hx | hx := hx
    · cases hx
    · simpa [Container.openByte, Container.closeByte] using
        numeral_of_value h (.entry hs hearlier hhead hafter (.members hrest)) hx
    · simpa using numeral_of_members hrest hs (hearlier.entry hhead h hafter) hx

end

end Grammar

namespace Lexer

open Grammar

variable {before number after : List UInt8} {l : Lexer}

/-- Of the bytes of a number and what follows it, a lexer that has only some waits until it has seen where the
number ends. -/
theorem readNumber_of_breaks {literal : Literal} (hbreaks : Breaks after) (hnumber : Number number)
    (hparse : Literal.parse? number = some literal) (hp : l.pending <+: number ++ after)
    (hclosed : l.closed = true → l.pending = number ++ after) :
    l.readNumber = .ok (if l.closed = false ∧ l.pending.length ≤ number.length then (l, .needMore)
      else ((l.advance number.length).valueDone, .token (.number literal.toBinary64))) := by
  have hbytes := isNumberByte_of_number hnumber
  by_cases hpart : l.closed = false ∧ l.pending.length ≤ number.length
  · have hall : ∀ b ∈ l.pending, isNumberByte b = true := fun b hb =>
      hbytes b ((List.prefix_of_prefix_length_le hp (List.prefix_append ..) hpart.2).subset hb)
    have hspan : l.pending.span isNumberByte = (l.pending, []) := by
      simpa using @Literal.span_append [] _ _ hall (by simp)
    rw [if_pos hpart]
    simp only [readNumber, hspan, hpart.1, List.isEmpty_nil, Bool.not_false, Bool.and_self, if_true]
  · have hlong : number <+: l.pending := by
      refine List.prefix_of_prefix_length_le (List.prefix_append ..) hp ?_
      cases hc : l.closed with
      | false => exact (Nat.lt_of_not_le fun hle => hpart ⟨hc, hle⟩).le
      | true => simp [hclosed hc]
    obtain ⟨rest, hrest⟩ := hlong
    have hprefix : rest <+: after := by rwa [← hrest, List.prefix_append_right_inj] at hp
    have hends : ∀ b ∈ rest.head?, isNumberByte b = false := by
      obtain ⟨more, rfl⟩ := hprefix
      cases rest with
      | nil => simp
      | cons b rest => exact hbreaks
    have hspan : l.pending.span isNumberByte = (number, rest) := by
      rw [← hrest, Literal.span_append hbytes hends]
    have hwait : (rest.isEmpty && !l.closed) = false := by
      cases hc : l.closed with
      | true => simp
      | false =>
        have hlt : number.length < l.pending.length := Nat.lt_of_not_le fun hle => hpart ⟨hc, hle⟩
        cases rest with
        | nil => simp [← hrest] at hlt
        | cons b rest => rfl
    rw [if_neg hpart]
    simp only [readNumber, hspan, hwait, Bool.false_eq_true, if_false, hparse]

/-- The literals are the numbers of the grammar. Where a number stands in a document, the longest run of bytes
that occur in numbers is the number, and with any part of the text a lexer takes the number or waits. -/
theorem readNumber_in_document : (∀ text, (Literal.parse? text).isSome = true ↔ Number text) ∧
    ∀ text v, Document text v → (∀ x, .number x ∈ v.tokens → Numeral text x) ∧
      ∀ before number after, text = before ++ (number ++ after) → Surrounds before after → Number number →
        (number ++ after).takeWhile isNumberByte = number ∧
        ∃ literal, Literal.parse? number = some literal ∧ ∀ l : Lexer, l.pending <+: number ++ after →
          (l.closed = true → l.pending = number ++ after) →
          l.readNumber = .ok (if l.closed = false ∧ l.pending.length ≤ number.length then (l, .needMore)
            else ((l.advance number.length).valueDone, .token (.number literal.toBinary64))) := by
  refine ⟨fun text => by rw [Option.isSome_iff_exists, Literal.parse?_isSome_iff], fun text v h => ⟨?_, ?_⟩⟩
  · obtain ⟨hbefore, h, hafter⟩ := h
    exact fun x hx => numeral_of_value h (.document hbefore hafter) hx
  · intro before number after _ hs hnumber
    obtain ⟨literal, hparse⟩ := Literal.parse?_isSome_iff.2 hnumber
    refine ⟨?_, literal, hparse, fun l hp hclosed => readNumber_of_breaks hs.breaks hnumber hparse hp hclosed⟩
    have hspan := Literal.span_append (isNumberByte_of_number hnumber) hs.breaks
    rw [List.span_eq_takeWhile_dropWhile] at hspan
    exact congrArg Prod.fst hspan

/-- In `[0,-2E+3]` the second number is `-2E+3`, also for a lexer that does not know the end of the text. -/
theorem readNumber_second_item : Document [0x5b, 0x30, 0x2c, 0x2d, 0x32, 0x45, 0x2b, 0x33, 0x5d]
      (.array [.number (Literal.toBinary64 ⟨false, 0, 0, true⟩), .number (Literal.toBinary64 ⟨true, 2, 3, false⟩)]) ∧
    [0x2d, 0x32, 0x45, 0x2b, 0x33, 0x5d].takeWhile isNumberByte = [0x2d, 0x32, 0x45, 0x2b, 0x33] ∧
    ∀ closed, readNumber { pending := [0x2d, 0x32, 0x45, 0x2b, 0x33, 0x5d], closed } =
      .ok (({ pending := [0x5d], offset := 5, closed } : Lexer).valueDone,
        .token (.number (Literal.toBinary64 ⟨true, 2, 3, false⟩))) := by
  have hnone : Blanks [] := fun _ h => by cases h
  have hzero : Value [0x30] (.number (Literal.toBinary64 ⟨false, 0, 0, true⟩)) :=
    .number (Literal.parse?_isSome_iff.1 ⟨_, rfl⟩) rfl
  have hnumber : Number [0x2d, 0x32, 0x45, 0x2b, 0x33] := Literal.parse?_isSome_iff.1 ⟨_, rfl⟩
  have hdocument := Document.padded hnone
    (.array (.more hnone hzero hnone (.one hnone (.number hnumber rfl) hnone))) hnone
  have hs : Surrounds [0x5b, 0x30, 0x2c] [0x5d] := Surrounds.entry (.document hnone hnone)
    (.entry .none (.item hnone) hzero hnone) (.item hnone) hnone .none
  obtain ⟨hrun, literal, hparse, h⟩ :=
    (readNumber_in_document.2 _ _ hdocument).2 [0x5b, 0x30, 0x2c] _ [0x5d] rfl hs hnumber
  obtain rfl : _ = literal := Option.some.inj hparse
  refine ⟨hdocument, hrun, fun closed => ?_⟩
  rw [h _ (List.prefix_refl _) fun _ => rfl, if_neg (by simp)]
  rfl

end Lexer

end JsonSieve
