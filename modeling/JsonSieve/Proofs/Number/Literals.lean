import JsonSieve.Proofs.Json.Grammar
import Mathlib.Data.List.TakeDrop
import Mathlib.Data.List.TakeWhile

/-!
# Which texts are decimal literals

`Literal.parse?` reads exactly the numbers of the grammar (`parse?_isSome_iff`). It takes the parts of a
number one after the other, each as long as it can be; the part behind another one always begins with a
byte that cannot continue it.
-/

namespace JsonSieve.Literal

open Grammar

/-! ## Runs -/

variable {rest run text whole part : List UInt8}

/-- A run is taken as a whole when what follows does not continue it. -/
theorem span_append {p : UInt8 → Bool} (hrun : ∀ b ∈ run, p b = true)
    (hrest : ∀ b ∈ rest.head?, p b = false) : (run ++ rest).span p = (run, rest) := by
  have hhead : ∀ b ∈ rest.head?, ¬ p b = true := fun b hb => by simp [hrest b hb]
  have htake : rest.takeWhile p = [] := by
    cases rest with
    | nil => rfl
    | cons b rest => rw [List.takeWhile_cons_of_neg (hhead b rfl)]
  have hdrop : rest.dropWhile p = rest := by
    cases rest with
    | nil => rfl
    | cons b rest => rw [List.dropWhile_cons_of_neg (hhead b rfl)]
  rw [List.span_eq_takeWhile_dropWhile, List.takeWhile_append_of_pos hrun,
    List.dropWhile_append_of_pos hrun, htake, hdrop, List.append_nil]

/-- A run ends where a byte does not continue it. -/
theorem of_span_eq {p : UInt8 → Bool} (h : text.span p = (run, rest)) :
    text = run ++ rest ∧ (∀ b ∈ run, p b = true) ∧ ∀ b ∈ rest.head?, p b = false := by
  rw [List.span_eq_takeWhile_dropWhile, Prod.mk.injEq] at h
  obtain ⟨rfl, rfl⟩ := h
  refine ⟨List.takeWhile_append_dropWhile.symm, fun b hb => List.mem_takeWhile_imp hb, ?_⟩
  intro b hb
  have hhead := List.head?_dropWhile_not p text
  rw [Option.mem_def.1 hb] at hhead
  simpa using hhead

theorem isDigit_iff {b : UInt8} : isDigit b = true ↔ Digit b := by
  simp [isDigit, Digit]

def NoDigit (text : List UInt8) : Prop := ∀ b ∈ text.head?, isDigit b = false

theorem digits_append (hrun : ∀ b ∈ run, Digit b) (hrest : NoDigit rest) : digits (run ++ rest) = (run, rest) :=
  span_append (fun b hb => isDigit_iff.2 (hrun b hb)) hrest

theorem of_digits_eq (h : digits text = (run, rest)) : text = run ++ rest ∧ ∀ b ∈ run, Digit b := by
  obtain ⟨happend, hrun, -⟩ := of_span_eq h
  exact ⟨happend, fun b hb => isDigit_iff.1 (hrun b hb)⟩

/-! ## The parts -/

theorem of_sign_eq {negative : Bool} (h : sign text = (negative, rest)) :
    ∃ mark, (mark = [] ∨ mark = [0x2d]) ∧ text = mark ++ rest := by
  unfold sign at h
  split at h
  · cases h
    exact ⟨[0x2d], .inr rfl, rfl⟩
  · cases h
    exact ⟨[], .inl rfl, rfl⟩

theorem of_integerPart?_eq (h : integerPart? text = some (whole, rest)) : text = whole ++ rest ∧ Whole whole := by
  unfold integerPart? at h
  split at h
  · cases h
  · next b tail =>
    split at h
    · next hb =>
      cases h
      exact ⟨rfl, .inl (by rw [hb])⟩
    · next hb =>
      split at h
      · next hdigit =>
        obtain ⟨happend, hdigits⟩ := of_digits_eq (Option.some.inj h)
        cases whole with
        | nil =>
          have hspan := (of_span_eq (Option.some.inj h)).2.2 b (by rw [← List.nil_append rest, ← happend]; rfl)
          rw [hdigit] at hspan
          cases hspan
        | cons c whole =>
          rw [List.cons_append, List.cons.injEq] at happend
          obtain ⟨rfl, rfl⟩ := happend
          refine ⟨rfl, .inr ⟨⟨by simp, hdigits⟩, ?_⟩⟩
          simpa using hb
      · cases h

theorem of_fraction?_eq {fraction : List UInt8} (h : fraction? text = some (fraction, rest)) :
    ∃ part, Fraction part ∧ text = part ++ rest := by
  unfold fraction? at h
  split at h
  · next tail =>
    split at h
    · cases h
    · next run hne =>
      obtain ⟨rfl, hdigits⟩ := of_digits_eq (Option.some.inj h)
      refine ⟨0x2e :: fraction, .point ⟨?_, hdigits⟩, rfl⟩
      rintro rfl
      exact hne rest (Option.some.inj h)
  · cases h
    exact ⟨[], .absent, rfl⟩

theorem of_exponentSign_eq {negative : Bool} (h : exponentSign text = (negative, rest)) :
    ∃ mark, (mark = [] ∨ mark = [0x2b] ∨ mark = [0x2d]) ∧ text = mark ++ rest := by
  unfold exponentSign at h
  split at h
  · cases h
    exact ⟨[0x2b], .inr (.inl rfl), rfl⟩
  · cases h
    exact ⟨[0x2d], .inr (.inr rfl), rfl⟩
  · cases h
    exact ⟨[], .inl rfl, rfl⟩

theorem of_exponent?_eq {value : Option Int}
    (h : exponent? text = some (value, rest)) : ∃ part, Exponent part ∧ text = part ++ rest := by
  unfold exponent? at h
  split at h
  · cases h
    exact ⟨[], .absent, rfl⟩
  · next b tail =>
    split at h
    · next hb =>
      cases hsign : exponentSign tail with
      | mk negative text =>
      obtain ⟨mark, hmark, rfl⟩ := of_exponentSign_eq hsign
      cases hrun : digits text with
      | mk run rest' =>
      obtain ⟨rfl, hdigits⟩ := of_digits_eq hrun
      cases run with
      | nil =>
        simp only [hsign, hrun] at h
        cases h
      | cons c run =>
        simp only [hsign, hrun] at h
        cases h
        exact ⟨b :: (mark ++ c :: run), .mark hb hmark ⟨by simp, hdigits⟩, by simp⟩
    · cases h
      exact ⟨[], .absent, rfl⟩

/-! ## The whole text -/

theorem noDigit_exponent (h : Exponent part) : NoDigit part := by
  cases h with
  | absent => exact fun _ h => nomatch h
  | mark he _ _ =>
    intro b hb
    cases hb
    rcases he with rfl | rfl <;> rfl

theorem noDigit_fraction (h : Fraction part) (hrest : NoDigit rest) : NoDigit (part ++ rest) := by
  cases h with
  | absent => exact hrest
  | point h =>
    intro b hb
    cases hb
    rfl

theorem integerPart?_append (h : Whole whole) (hrest : NoDigit rest) :
    integerPart? (whole ++ rest) = some (whole, rest) := by
  obtain rfl | ⟨⟨hne, hdigits⟩, hzero⟩ := h
  · rfl
  · cases whole with
    | nil => exact absurd rfl hne
    | cons b whole =>
      have hb : b ≠ 0x30 := by simpa using hzero
      have hdigit := isDigit_iff.2 (hdigits b (.head _))
      rw [List.cons_append, integerPart?, if_neg hb, if_pos hdigit, ← List.cons_append, digits_append hdigits hrest]

theorem fraction?_append (h : Fraction part) (hrest : Exponent rest) :
    ∃ fraction, fraction? (part ++ rest) = some (fraction, rest) := by
  cases h with
  | absent =>
    refine ⟨[], ?_⟩
    cases hrest with
    | absent => rfl
    | mark he _ _ => rcases he with rfl | rfl <;> rfl
  | @point run h =>
    refine ⟨run, ?_⟩
    have hrun := digits_append h.2 (noDigit_exponent hrest)
    rw [List.cons_append, fraction?, hrun]
    cases run with
    | nil => exact absurd rfl h.1
    | cons b run => rfl

theorem exponentSign_append {mark : List UInt8} (hmark : mark = [] ∨ mark = [0x2b] ∨ mark = [0x2d])
    (hrun : Digits run) : ∃ negative, exponentSign (mark ++ run) = (negative, run) := by
  obtain rfl | rfl | rfl := hmark
  · refine ⟨false, ?_⟩
    unfold exponentSign
    rw [List.nil_append]
    split
    · exact absurd (hrun.2 0x2b (.head _)) (by decide)
    · exact absurd (hrun.2 0x2d (.head _)) (by decide)
    · rfl
  · exact ⟨false, rfl⟩
  · exact ⟨true, rfl⟩

theorem exponent?_eq (h : Exponent part) : ∃ value, exponent? part = some (value, []) := by
  cases h with
  | absent => exact ⟨none, rfl⟩
  | @mark e mark run he hmark h =>
    obtain ⟨negative, hsign⟩ := exponentSign_append hmark h
    have hrun := digits_append h.2 (fun _ h => nomatch h : NoDigit [])
    rw [List.append_nil] at hrun
    simp only [exponent?, if_pos he, hsign, hrun]
    cases run with
    | nil => exact absurd rfl h.1
    | cons b run => exact ⟨_, rfl⟩

theorem sign_append {mark : List UInt8} (hmark : mark = [] ∨ mark = [0x2d])
    (hrest : rest.head? ≠ some 0x2d) : ∃ negative, sign (mark ++ rest) = (negative, rest) := by
  obtain rfl | rfl := hmark
  · refine ⟨false, ?_⟩
    unfold sign
    rw [List.nil_append]
    split
    · exact absurd rfl hrest
    · rfl
  · exact ⟨true, rfl⟩

theorem whole_head (h : Whole whole) : ∃ b tail, whole = b :: tail ∧ Digit b := by
  obtain rfl | ⟨⟨hne, hdigits⟩, -⟩ := h
  · exact ⟨0x30, [], rfl, by decide⟩
  · obtain ⟨b, tail, rfl⟩ := List.exists_cons_of_ne_nil hne
    exact ⟨b, tail, rfl, hdigits b (.head _)⟩

theorem parse?_isSome_iff : (∃ l, parse? text = some l) ↔ Number text := by
  constructor
  · rintro ⟨l, h⟩
    cases hsign : sign text with
    | mk negative text =>
    obtain ⟨mark, hmark, rfl⟩ := of_sign_eq hsign
    simp only [parse?, hsign, Option.bind_eq_bind, Option.bind_eq_some_iff] at h
    obtain ⟨⟨whole, text⟩, hwhole, ⟨fraction, text⟩, hfraction, ⟨exponent, text⟩, hexponent, h⟩ := h
    split at h
    · next hempty =>
      rw [List.isEmpty_iff] at hempty
      subst hempty
      obtain ⟨rfl, h1⟩ := of_integerPart?_eq hwhole
      obtain ⟨_, h2, rfl⟩ := of_fraction?_eq hfraction
      obtain ⟨_, h3, rfl⟩ := of_exponent?_eq hexponent
      rw [List.append_nil]
      exact .parts hmark h1 h2 h3
    · cases h
  · rintro @⟨mark, whole, fraction, exponent, hmark, hwhole, hfraction, hexponent⟩
    have hhead : (whole ++ (fraction ++ exponent)).head? ≠ some 0x2d := by
      obtain ⟨b, tail, rfl, hb⟩ := whole_head hwhole
      rintro ⟨⟩
      exact absurd hb (by decide)
    obtain ⟨negative, hsign⟩ := sign_append hmark hhead
    have hinteger := integerPart?_append hwhole (noDigit_fraction hfraction (noDigit_exponent hexponent))
    obtain ⟨run, hfraction⟩ := fraction?_append hfraction hexponent
    obtain ⟨value, hexponent⟩ := exponent?_eq hexponent
    simp only [parse?, hsign, hinteger, hfraction, hexponent, Option.bind_eq_bind, Option.bind_some,
      List.isEmpty_nil, if_true]
    exact ⟨_, rfl⟩

end JsonSieve.Literal
