import JsonSieve.Proofs.Json.Grammar
import JsonSieve.Proofs.Lexer.Extension
import JsonSieve.Proofs.Text.Utf8
import Mathlib.Tactic.IntervalCases

/-!
# String literals

What the lexer reads as a string literal is what the grammar takes for one. The search for the closing
quote stops behind the first bytes that are complete by themselves (`scan_closed_iff`), and these bytes
have a text exactly when they spell characters (`stringText_eq_ok_iff`).
-/

namespace JsonSieve

open Grammar

namespace Lexer

/-! ## The closing quote -/

/-- The search for a closing quote passes all of these bytes and does not stop inside of an escape. -/
def Clear (raw : List UInt8) : Prop := ∀ count, scan count raw = .unfinished (count + raw.length)

theorem Clear.nil : Clear [] := fun _ => rfl

theorem Clear.append {a b : List UInt8} (ha : Clear a) (hb : Clear b) : Clear (a ++ b) := by
  intro count
  rw [scan_append, ha count]
  simp only [Nat.add_sub_cancel_left, List.drop_length, List.nil_append]
  rw [hb, List.length_append, Nat.add_assoc]

/-- Where a search begins does not matter to what it finds. -/
theorem scan_add (count k : Nat) (raw : List UInt8) : scan (count + k) raw = match scan k raw with
      | .closed n => .closed (count + n)
      | .unfinished n => .unfinished (count + n) := by
  fun_induction scan k raw with
  | case1 k => rfl
  | case2 k rest => exact scan_quote _ _
  | case3 k => rfl
  | case4 k b rest _ ih => rw [scan_escape, Nat.add_assoc, ih]
  | case5 k b rest hquote hback ih => rw [scan_plain _ hquote hback, Nat.add_assoc, ih]

variable {raw : List UInt8} {b : UInt8} {n : Nat}

theorem clear_of_scan {count : Nat} (h : scan count raw = .unfinished (count + raw.length)) : Clear raw := by
  intro count'
  have hzero := scan_add count 0 raw
  rw [Nat.add_zero, h] at hzero
  cases hs : scan 0 raw with
  | closed n =>
    rw [hs] at hzero
    cases hzero
  | unfinished n =>
    rw [hs] at hzero
    simp only [Scan.unfinished.injEq, Nat.add_left_cancel_iff] at hzero
    have hcount := scan_add count' 0 raw
    rwa [Nat.add_zero, hs, ← hzero] at hcount

theorem Clear.of_append {a b : List UInt8} (h : Clear (a ++ b)) (ha : Clear a) : Clear b := by
  have hscan := h 0
  rw [scan_append, ha 0] at hscan
  simp only [Nat.zero_add, Nat.sub_zero, List.drop_length, List.nil_append, List.length_append] at hscan
  exact clear_of_scan hscan

theorem Clear.ne_quote (h : Clear (b :: raw)) : b ≠ 0x22 := by
  rintro rfl
  have hscan := h 0
  rw [scan_quote] at hscan
  cases hscan

theorem Clear.plain (hquote : b ≠ 0x22) (hback : b ≠ 0x5c) : Clear [b] := fun count => by
  rw [scan_plain count hquote hback]
  rfl

theorem Clear.escape (b : UInt8) : Clear [0x5c, b] := fun count => by
  rw [scan_escape]
  rfl

theorem clear_of_forall (h : ∀ b ∈ raw, b ≠ 0x22 ∧ b ≠ 0x5c) : Clear raw := by
  induction raw with
  | nil => exact .nil
  | cons b raw ih =>
    obtain ⟨⟨hquote, hback⟩, hraw⟩ := List.forall_mem_cons.1 h
    exact (Clear.plain hquote hback).append (ih hraw)

theorem Clear.scan_eq (h : Clear raw) (rest : List UInt8) : scan 0 (raw ++ 0x22 :: rest) = .closed raw.length := by
  rw [scan_append, h 0]
  simp only [Nat.zero_add, Nat.sub_zero, List.drop_length, List.nil_append]
  exact scan_quote _ _

theorem scan_closed {count : Nat} {inside : List UInt8} (h : scan count inside = .closed n) :
    ∃ raw rest, inside = raw ++ 0x22 :: rest ∧ n = count + raw.length ∧ Clear raw := by
  fun_induction scan count inside with
  | case1 => cases h
  | case2 count rest =>
    cases h
    exact ⟨[], rest, rfl, rfl, .nil⟩
  | case3 => cases h
  | case4 count b rest _ ih =>
    obtain ⟨raw, rest, rfl, rfl, hclear⟩ := ih h
    exact ⟨0x5c :: b :: raw, rest, rfl, by simp; omega, (Clear.escape b).append hclear⟩
  | case5 count b rest hquote hback ih =>
    obtain ⟨raw, rest, rfl, rfl, hclear⟩ := ih h
    exact ⟨b :: raw, rest, rfl, by simp; omega, (Clear.plain hquote hback).append hclear⟩

/-! ## Escapes -/

theorem hexDigit?_iff : hexDigit? b = some n ↔ HexDigit b n := by
  constructor
  · intro h
    have hb : b = UInt8.ofNat b.toNat := by simp
    unfold hexDigit? at h
    simp only [UInt8.le_iff_toNat_le, UInt8.reduceToNat] at h
    split at h
    · next hrange =>
      obtain ⟨hlow, hhigh⟩ := hrange
      cases h
      refine ⟨_, List.mem_cons_self .., ?_⟩
      interval_cases b.toNat <;> rw [hb] <;> rfl
    · split at h
      · next hrange =>
        obtain ⟨hlow, hhigh⟩ := hrange
        cases h
        refine ⟨_, List.mem_cons_self .., ?_⟩
        interval_cases b.toNat <;> rw [hb] <;> rfl
      · split at h
        · next hrange =>
          obtain ⟨hlow, hhigh⟩ := hrange
          cases h
          refine ⟨_, List.mem_cons_of_mem _ (.head _), ?_⟩
          interval_cases b.toNat <;> rw [hb] <;> rfl
        · cases h
  · rintro ⟨row, hrow, h⟩
    have hlt : n < row.length := (List.getElem?_eq_some_iff.1 h).1
    simp only [hexDigits, List.mem_cons, List.not_mem_nil, or_false] at hrow
    rcases hrow with rfl | rfl
    all_goals
      simp only [List.length_cons, List.length_nil] at hlt
      interval_cases n <;> cases h <;> rfl

theorem hex4?_iff {a c d : UInt8} : hex4? a b c d = some n ↔ Hex4 [a, b, c, d] n := by
  unfold hex4?
  constructor
  · intro h
    simp only [Option.bind_eq_bind, Option.bind_eq_some_iff, Option.some_inj] at h
    obtain ⟨w, ha, x, hb, y, hc, z, hd, rfl⟩ := h
    rw [hexDigit?_iff] at ha hb hc hd
    have hsum : 4096 * w + 256 * x + 16 * y + z = ((w * 16 + x) * 16 + y) * 16 + z := by omega
    rw [hsum]
    exact .digits ha hb hc hd
  · rintro (⟨ha, hb, hc, hd⟩)
    rw [hexDigit?_iff.2 ha, hexDigit?_iff.2 hb, hexDigit?_iff.2 hc, hexDigit?_iff.2 hd]
    simp only [Option.bind_eq_bind, Option.bind_some, Option.some_inj]
    omega

theorem not_hexDigit (hb : hexDigit? b = none) : ¬ HexDigit b n := fun h => by
  rw [hexDigit?_iff.2 h] at hb
  cases hb

end Lexer

namespace Grammar

theorem HexDigit.lt {b : UInt8} {n : Nat} (h : HexDigit b n) : n < 16 := by
  obtain ⟨row, hrow, hn⟩ := h
  have hlength : ∀ row ∈ hexDigits, row.length = 16 := by decide
  rw [← hlength row hrow]
  exact (List.getElem?_eq_some_iff.1 hn).1

theorem Hex4.lt {digits : List UInt8} {n : Nat} (h : Hex4 digits n) : n < 0x10000 := by
  obtain ⟨ha, hb, hc, hd⟩ := h
  have := ha.lt
  have := hb.lt
  have := hc.lt
  have := hd.lt
  omega

end Grammar

namespace Lexer

variable {n offset : Nat} {b : UInt8} {raw : List UInt8}

theorem hex4_clear {digits : List UInt8} (h : Hex4 digits n) : Clear digits := by
  have hdigit : ∀ {b : UInt8} {n : Nat}, HexDigit b n → b ≠ 0x22 ∧ b ≠ 0x5c := by
    intro b n hb
    constructor
    · rintro rfl
      exact not_hexDigit rfl hb
    · rintro rfl
      exact not_hexDigit rfl hb
  obtain ⟨ha, hb, hc, hd⟩ := h
  refine clear_of_forall ?_
  simp only [List.forall_mem_cons]
  exact ⟨hdigit ha, hdigit hb, hdigit hc, hdigit hd, fun _ h => nomatch h⟩

theorem hex4_digits {digits : List UInt8} (h : Hex4 digits n) :
    ∃ a b c d, digits = [a, b, c, d] ∧ hex4? a b c d = some n := by
  obtain ⟨ha, hb, hc, hd⟩ := h
  exact ⟨_, _, _, _, rfl, hex4?_iff.2 (.digits ha hb hc hd)⟩

theorem shortEscape?_iff {letter : UInt8} {x : UInt8} :
    shortEscape? letter = some x ↔ ∃ c, (letter, c) ∈ shortEscapes ∧ Utf8.encode c = [x] := by
  constructor
  · intro h
    refine ⟨Char.ofNat x.toNat, ?_⟩
    unfold shortEscape? at h
    repeat' split at h
    all_goals cases h
    all_goals
      next heq =>
        subst heq
        decide
  · rintro ⟨c, hc, h⟩
    simp only [shortEscapes, List.mem_cons, List.not_mem_nil, or_false, Prod.mk.injEq] at hc
    rcases hc with ⟨rfl, rfl⟩ | ⟨rfl, rfl⟩ | ⟨rfl, rfl⟩ | ⟨rfl, rfl⟩ | ⟨rfl, rfl⟩ | ⟨rfl, rfl⟩ |
      ⟨rfl, rfl⟩ | ⟨rfl, rfl⟩
    all_goals
      cases h
      rfl

theorem unescape_plain (hlow : ¬ b < 0x20) (hback : b ≠ 0x5c) (offset : Nat) (rest : List UInt8) :
    unescape offset (b :: rest) = (b :: ·) <$> unescape (offset + 1) rest := by
  rw [unescape.eq_def]
  simp only [if_neg hlow, if_pos hback]

theorem unescape_short {e x : UInt8} (h : shortEscape? e = some x) (offset : Nat) (rest : List UInt8) :
    unescape offset (0x5c :: e :: rest) = (x :: ·) <$> unescape (offset + 2) rest := by
  have he : e ≠ 0x75 := by
    rintro rfl
    cases h
  rw [unescape.eq_def]
  simp [he, h]

theorem unescape_numbered {a c d : UInt8} (h : hex4? a b c d = some n)
    (hn : n < 0xd800 ∨ 0xe000 ≤ n) (offset : Nat) (rest : List UInt8) :
    unescape offset (0x5c :: 0x75 :: a :: b :: c :: d :: rest)
      = (Utf8.encode (Char.ofNat n) ++ ·) <$> unescape (offset + 6) rest := by
  rw [unescape.eq_def]
  simp [h, hn]

theorem unescape_pair {a c d a' b' c' d' : UInt8} {m : Nat} (hm : hex4? a b c d = some m)
    (hn : hex4? a' b' c' d' = some n) (hhigh : 0xd800 ≤ m ∧ m < 0xdc00)
    (hlow : 0xdc00 ≤ n ∧ n < 0xe000) (offset : Nat) (rest : List UInt8) : unescape offset
        (0x5c :: 0x75 :: a :: b :: c :: d :: 0x5c :: 0x75 :: a' :: b' :: c' :: d' :: rest)
      = (Utf8.encode (Char.ofNat (0x10000 + (m - 0xd800) * 1024 + (n - 0xdc00))) ++ ·)
        <$> unescape (offset + 12) rest := by
  have hnot : ¬ (m < 0xd800 ∨ 0xe000 ≤ m) := by omega
  have hnot' : ¬ 0xdc00 ≤ m := by omega
  rw [unescape.eq_def]
  simp [hm, hn, hnot, hnot', hlow]

theorem map_eq_ok {α β : Type} {f : α → β} {r : Except LexError α} {y : β} (h : f <$> r = .ok y) :
    ∃ x, r = .ok x ∧ y = f x := by
  cases r with
  | error e => cases h
  | ok x =>
    cases h
    exact ⟨x, rfl, rfl⟩

/-- What bytes with a meaning begin with: a byte that stands for itself or an escape. -/
theorem unescape_cases {bytes : List UInt8} (h : unescape offset raw = .ok bytes) : (raw = [] ∧ bytes = []) ∨
    (∃ b rest out, raw = b :: rest ∧ ¬ b < 0x20 ∧ b ≠ 0x5c ∧ unescape (offset + 1) rest = .ok out ∧ bytes = b :: out) ∨
    ∃ escape c rest out, raw = escape ++ rest ∧ Character escape c ∧ Clear escape ∧ escape ≠ [] ∧
      unescape (offset + escape.length) rest = .ok out ∧ bytes = Utf8.encode c ++ out := by
  revert h
  fun_cases unescape offset raw with
  | case1 =>
    intro h
    cases h
    exact .inl ⟨rfl, rfl⟩
  | case3 b rest hlow hback =>
    intro h
    obtain ⟨out, hrest, rfl⟩ := map_eq_ok h
    exact .inr (.inl ⟨b, rest, out, rfl, hlow, hback, hrest, rfl⟩)
  | case6 b _ hb d1 d2 d3 d4 rest n hn hscalar =>
    intro h
    obtain rfl := Classical.not_not.1 hb
    obtain ⟨out, hrest, rfl⟩ := map_eq_ok h
    have hhex := hex4?_iff.1 hn
    have hlt := hhex.lt
    refine .inr (.inr ⟨[0x5c, 0x75, d1, d2, d3, d4], _, rest, out, rfl, .numbered ?_,
      (Clear.escape 0x75).append (hex4_clear hhex), by simp, hrest, rfl⟩)
    rwa [Utf8.toNat_ofNat (by omega)]
  | case9 b _ hb d1 d2 d3 d4 m hm hpair hhigh e1 e2 e3 e4 rest n hn hlow c =>
    intro h
    obtain rfl := Classical.not_not.1 hb
    obtain ⟨out, hrest, hbytes⟩ := map_eq_ok h
    rw [hex4?_iff] at hm hn
    refine .inr (.inr ⟨[0x5c, 0x75, d1, d2, d3, d4, 0x5c, 0x75, e1, e2, e3, e4], c, rest, out, rfl,
      .pair hm hn (by omega) hlow (Utf8.toNat_ofNat (by omega)), ?_, by simp, hrest, hbytes⟩)
    exact ((Clear.escape 0x75).append (hex4_clear hm)).append ((Clear.escape 0x75).append (hex4_clear hn))
  | case14 b _ hb letter rest _ x hx =>
    intro h
    obtain rfl := Classical.not_not.1 hb
    obtain ⟨out, hrest, rfl⟩ := map_eq_ok h
    obtain ⟨c, hc, hencode⟩ := shortEscape?_iff.1 hx
    refine .inr (.inr ⟨[0x5c, letter], c, rest, out, rfl, .short hc, .escape letter, by simp, hrest, ?_⟩)
    rw [hencode, List.singleton_append]
  | _ => exact fun h => nomatch h

theorem unescape_continuations {tail out : List UInt8} (htail : ∀ b ∈ tail, Utf8.isContinuation b = true)
    (h : unescape offset raw = .ok (tail ++ out)) :
    ∃ offset' rest, raw = tail ++ rest ∧ unescape offset' rest = .ok out := by
  induction tail generalizing offset raw with
  | nil => exact ⟨offset, raw, rfl, h⟩
  | cons b tail ih =>
    obtain ⟨hb, htail⟩ := List.forall_mem_cons.1 htail
    obtain ⟨-, hnil⟩ | ⟨b', rest, out', rfl, -, -, hrest, heq⟩ |
      ⟨escape, c, rest, out', rfl, -, -, -, hrest, heq⟩ := unescape_cases h
    · cases hnil
    · rw [List.cons_append, List.cons.injEq] at heq
      obtain ⟨rfl, rfl⟩ := heq
      obtain ⟨offset', rest, rfl, hout⟩ := ih htail hrest
      exact ⟨offset', rest, rfl, hout⟩
    · obtain ⟨a, t, hencode, hfirst, -⟩ := Utf8.encode_cons c
      rw [hencode, List.cons_append, List.cons_append, List.cons.injEq] at heq
      rw [heq.1, hfirst] at hb
      cases hb

/-! ## Characters -/

theorem plain_iff (b : UInt8) : (¬ b < 0x20 ∧ b ≠ 0x22 ∧ b ≠ 0x5c) ↔
    0x20 ≤ b.toNat ∧ b.toNat ≠ 0x22 ∧ b.toNat ≠ 0x5c := by
  rw [UInt8.lt_iff_toNat_lt, ne_eq, ne_eq, ← UInt8.toNat_inj, ← UInt8.toNat_inj, Nat.not_lt]
  rfl

theorem plain_of_isContinuation (h : Utf8.isContinuation b = true) : ¬ b < 0x20 ∧ b ≠ 0x22 ∧ b ≠ 0x5c := by
  rw [Utf8.isContinuation_iff] at h
  rw [plain_iff]
  omega

/-- A character stands for itself exactly when its bytes do. -/
theorem encode_plain (c : Char) : (0x20 ≤ c.toNat ∧ c ≠ '"' ∧ c ≠ '\\') ↔
    ∀ b ∈ Utf8.encode c, ¬ b < 0x20 ∧ b ≠ 0x22 ∧ b ≠ 0x5c := by
  have hquote : c = '"' ↔ c.toNat = 0x22 := Char.toNat_inj.symm
  have hback : c = '\\' ↔ c.toNat = 0x5c := Char.toNat_inj.symm
  rw [ne_eq, ne_eq, hquote, hback]
  obtain ⟨hascii, hencode⟩ | ⟨hhigh, hencode⟩ := Utf8.encode_ascii_or c
  · rw [hencode, List.forall_mem_singleton, plain_iff, UInt8.toNat_ofNat', Nat.mod_eq_of_lt (by omega)]
  · constructor
    · intro _ b hb
      have := hencode b hb
      rw [plain_iff]
      omega
    · intro _
      omega

theorem clear_of_character {c : Char} (h : Character raw c) : Clear raw := by
  cases h with
  | plain hlow hquote hback =>
    rw [← Utf8.encode_eq_utf8EncodeChar]
    exact clear_of_forall fun b hb => ((encode_plain _).1 ⟨hlow, hquote, hback⟩ b hb).2
  | short h => exact .escape _
  | numbered h => exact (Clear.escape 0x75).append (hex4_clear h)
  | pair hhigh hlow _ _ _ =>
    exact ((Clear.escape 0x75).append (hex4_clear hhigh)).append ((Clear.escape 0x75).append (hex4_clear hlow))

theorem unescape_plains {text : List UInt8} (h : ∀ b ∈ text, ¬ b < 0x20 ∧ b ≠ 0x5c) (offset : Nat) (rest : List UInt8) :
    unescape offset (text ++ rest) = (text ++ ·) <$> unescape (offset + text.length) rest := by
  induction text generalizing offset with
  | nil =>
    rw [List.nil_append, List.length_nil, Nat.add_zero]
    cases unescape offset rest <;> rfl
  | cons b text ih =>
    obtain ⟨⟨hlow, hback⟩, htext⟩ := List.forall_mem_cons.1 h
    rw [List.cons_append, unescape_plain hlow hback, ih htext, List.length_cons,
      Nat.add_comm text.length 1, ← Nat.add_assoc]
    cases unescape (offset + 1 + text.length) rest <;> rfl

theorem unescape_character {first : List UInt8} {c : Char} (h : Character first c) (offset : Nat)
    (rest : List UInt8) : unescape offset (first ++ rest)
      = (Utf8.encode c ++ ·) <$> unescape (offset + first.length) rest := by
  have hscalar := Utf8.toNat_scalar c
  cases h with
  | plain hlow hquote hback =>
    rw [← Utf8.encode_eq_utf8EncodeChar]
    refine unescape_plains (fun b hb => ?_) offset rest
    have hplain := (encode_plain c).1 ⟨hlow, hquote, hback⟩ b hb
    exact ⟨hplain.1, hplain.2.2⟩
  | @short letter c h =>
    have hencode : ∀ p ∈ shortEscapes, Utf8.encode p.2 = [UInt8.ofNat p.2.toNat] := by decide
    rw [hencode _ h]
    exact unescape_short (shortEscape?_iff.2 ⟨c, h, hencode _ h⟩) offset rest
  | numbered h =>
    obtain ⟨d1, d2, d3, d4, rfl, hn⟩ := hex4_digits h
    have heq := unescape_numbered hn (by omega) offset rest
    rwa [Char.ofNat_toNat] at heq
  | pair hhigh hlow hm hn hc =>
    obtain ⟨d1, d2, d3, d4, rfl, hd⟩ := hex4_digits hhigh
    obtain ⟨e1, e2, e3, e4, rfl, he⟩ := hex4_digits hlow
    have heq := unescape_pair hd he hm hn offset rest
    rwa [← hc, Char.ofNat_toNat] at heq

/-- Where the bytes of a literal stand for a character, they begin with what it is written as. -/
theorem unescape_encode {c : Char} {out : List UInt8} (hclear : Clear raw)
    (h : unescape offset raw = .ok (Utf8.encode c ++ out)) : ∃ first rest offset', raw = first ++ rest ∧
      Character first c ∧ Clear rest ∧ unescape offset' rest = .ok out := by
  obtain ⟨a, tail, hencode, -, htail⟩ := Utf8.encode_cons c
  obtain ⟨-, hnil⟩ | ⟨b, rest, out', rfl, hlow, hback, hrest, heq⟩ |
    ⟨escape, d, rest, out', rfl, hchar, hescape, -, hrest, heq⟩ := unescape_cases h
  · rw [hencode] at hnil
    cases hnil
  · rw [hencode, List.cons_append, List.cons.injEq] at heq
    obtain ⟨rfl, rfl⟩ := heq
    obtain ⟨offset', rest, rfl, hout⟩ := unescape_continuations htail hrest
    have hplain : ∀ x ∈ Utf8.encode c, ¬ x < 0x20 ∧ x ≠ 0x22 ∧ x ≠ 0x5c := by
      rw [hencode, List.forall_mem_cons]
      exact ⟨⟨hlow, hclear.ne_quote, hback⟩, fun x hx => plain_of_isContinuation (htail x hx)⟩
    have hchar : Character (a :: tail) c := by
      obtain ⟨hlow, hquote, hback⟩ := (encode_plain c).2 hplain
      rw [← hencode, Utf8.encode_eq_utf8EncodeChar]
      exact .plain hlow hquote hback
    exact ⟨a :: tail, rest, offset', rfl, hchar, hclear.of_append (a := a :: tail) (clear_of_character hchar), hout⟩
  · obtain ⟨rfl, rfl⟩ := Utf8.encode_append_inj heq
    exact ⟨escape, rest, _, rfl, hchar, hclear.of_append hescape, hrest⟩

theorem unescape_characters {chars : List Char} {out : List UInt8} (hclear : Clear raw)
    (h : unescape offset raw = .ok (chars.flatMap Utf8.encode ++ out)) : ∃ spelled rest offset',
      raw = spelled ++ rest ∧ Characters spelled chars ∧ unescape offset' rest = .ok out := by
  induction chars generalizing offset raw with
  | nil => exact ⟨[], raw, offset, rfl, .nil, h⟩
  | cons c chars ih =>
    rw [List.flatMap_cons, List.append_assoc] at h
    obtain ⟨first, rest, offset', rfl, hfirst, hclear, hrest⟩ := unescape_encode hclear h
    obtain ⟨spelled, rest, offset', rfl, hspelled, hout⟩ := ih hclear hrest
    exact ⟨first ++ spelled, rest, offset', (List.append_assoc ..).symm, .cons hfirst hspelled, hout⟩

/-- The inside of a string literal spells characters exactly when the search for a closing quote
passes it and it stands for the encodings of the characters. -/
theorem characters_iff {chars : List Char} :
    Characters raw chars ↔ Clear raw ∧ unescape offset raw = .ok (chars.flatMap Utf8.encode) := by
  constructor
  · intro h
    induction h generalizing offset with
    | nil => exact ⟨.nil, rfl⟩
    | cons h _ ih =>
      refine ⟨(clear_of_character h).append (@ih 0).1, ?_⟩
      rw [unescape_character h, ih.2]
      rfl
  · rintro ⟨hclear, h⟩
    rw [← List.append_nil (chars.flatMap Utf8.encode)] at h
    obtain ⟨spelled, rest, offset', rfl, hspelled, hrest⟩ := unescape_characters hclear h
    obtain ⟨rfl, -⟩ | ⟨b, _, _, -, -, -, -, hnil⟩ | ⟨_, c, _, _, -, -, -, -, -, hnil⟩ := unescape_cases hrest
    · rwa [List.append_nil]
    · cases hnil
    · obtain ⟨a, tail, hencode, -⟩ := Utf8.encode_cons c
      rw [hencode] at hnil
      cases hnil

/-- A string literal has a text exactly when its inside spells the characters of the text. -/
theorem stringText_eq_ok_iff {text : String} (hclear : Clear raw) :
    stringText offset raw = .ok text ↔ ∃ chars, Characters raw chars ∧ text = String.ofList chars := by
  constructor
  · intro h
    unfold stringText at h
    cases hbytes : unescape offset raw with
    | error e =>
      rw [hbytes] at h
      cases h
    | ok bytes =>
      simp only [hbytes, bind, Except.bind] at h
      cases hchars : Utf8.decode bytes with
      | error valid =>
        rw [hchars] at h
        cases h
      | ok chars =>
        rw [hchars] at h
        cases h
        rw [Utf8.decode_eq_ok_iff] at hchars
        exact ⟨chars, characters_iff.2 ⟨hclear, hchars ▸ hbytes⟩, rfl⟩
  · rintro ⟨chars, hchars, rfl⟩
    have hbytes := (@characters_iff offset _ _).1 hchars
    have hdecode := Utf8.decode_eq_ok_iff.2 (Eq.refl (chars.flatMap Utf8.encode))
    simp only [stringText, hbytes.2, bind, Except.bind, hdecode]

end Lexer

end JsonSieve
