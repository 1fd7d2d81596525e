import JsonSieve.Proofs.Lexer.Incremental
import JsonSieve.Proofs.Lexer.Strings

/-!
# Two passes over a string literal

A string literal is searched for its closing quote, possibly in several goes, and then its inside is decoded.
The search stops at the first quote that is not escaped, however the text is cut (`Sound.search_agrees`). The
decoder visits only backslashes at which the search has found an escape, so that there is always a byte behind
them: `unescape?` is the decoder with that access checked.
-/

namespace JsonSieve.Lexer

/-! ## Quotes -/

def slashes (raw : List UInt8) : Nat := (raw.reverse.takeWhile (· = 0x5c)).length

/-- A quote that is not escaped: an even number of backslashes stands in front of it. -/
def Closes (inside : List UInt8) (k : Nat) : Prop :=
  inside[k]? = some 0x22 ∧ slashes (inside.take k) % 2 = 0

theorem slashes_slash (raw : List UInt8) : slashes (raw ++ [0x5c]) = slashes raw + 1 := by simp [slashes]

theorem slashes_other (raw : List UInt8) {b : UInt8} (h : b ≠ 0x5c) : slashes (raw ++ [b]) = 0 := by
  simp [slashes, h]

/-- Where a search may stop that begins at `low`. -/
def Stops (inside : List UInt8) (low : Nat) : Scan → Prop
  | .closed n => Closes inside n ∧ ∀ k, low ≤ k → k < n → ¬ Closes inside k
  | .unfinished _ => ∀ k, low ≤ k → ¬ Closes inside k

variable {inside : List UInt8}

theorem Stops.step {low : Nat} {s : Scan} (h : Stops inside (low + 1) s)
    (hlow : ¬ Closes inside low) : Stops inside low s := by
  have hstep : ∀ k, low ≤ k → (low + 1 ≤ k → ¬ Closes inside k) → ¬ Closes inside k := by
    intro k hk hnot
    rcases Nat.lt_or_eq_of_le hk with hlt | rfl
    · exact hnot hlt
    · exact hlow
  cases s with
  | closed n => exact ⟨h.1, fun k hk hlt => hstep k hk fun hle => h.2 k hle hlt⟩
  | unfinished n => exact fun k hk => hstep k hk (h k)

theorem not_closes_of_ne {before rest : List UInt8} {b : UInt8} (h : b ≠ 0x22) :
    ¬ Closes (before ++ b :: rest) before.length := by
  rintro ⟨hquote, -⟩
  rw [List.getElem?_append_right (Nat.le_refl _), Nat.sub_self] at hquote
  exact h (Option.some.inj hquote)

/-- Behind an even number of backslashes the search stops at the first quote that is not escaped. -/
theorem scan_stops {count : Nat} {rest : List UInt8} (before : List UInt8) (hlength : before.length = count)
    (heven : slashes before % 2 = 0) : Stops (before ++ rest) count (scan count rest) := by
  fun_induction scan count rest generalizing before with
  | case1 count =>
    rintro k hk ⟨hquote, -⟩
    rw [List.append_nil, List.getElem?_eq_none_iff.2 (by omega)] at hquote
    cases hquote
  | case2 count rest =>
    subst hlength
    refine ⟨⟨?_, ?_⟩, fun k hk hlt => absurd hk (Nat.not_le.2 hlt)⟩
    · rw [List.getElem?_append_right (Nat.le_refl _), Nat.sub_self]
      rfl
    · rwa [List.take_left]
  | case3 count =>
    subst hlength
    refine Stops.step (fun k hk hcloses => ?_) (not_closes_of_ne (by decide))
    have hlt := (List.getElem?_eq_some_iff.1 hcloses.1).1
    rw [List.length_append, List.length_singleton] at hlt
    omega
  | case4 count b rest _ ih =>
    subst hlength
    have heq : before ++ 0x5c :: b :: rest = (before ++ [0x5c]) ++ b :: rest := by simp
    have hnext : Stops (before ++ 0x5c :: b :: rest) (before.length + 2) (scan (before.length + 2) rest) := by
      rw [heq, List.append_cons]
      refine ih _ (by simp) ?_
      by_cases hb : b = 0x5c
      · rw [hb, slashes_slash, slashes_slash]
        omega
      · rw [slashes_other _ hb]
    refine (hnext.step ?_).step (not_closes_of_ne (by decide))
    rintro ⟨-, hparity⟩
    rw [heq, List.take_left' (by simp), slashes_slash] at hparity
    omega
  | case5 count b rest hquote hback ih =>
    subst hlength
    have hnext := ih (before ++ [b]) (by simp) (by rw [slashes_other _ hback])
    rw [← List.append_cons] at hnext
    exact hnext.step (not_closes_of_ne hquote)

theorem scan_eq_closed_iff {n : Nat} : scan 0 inside = .closed n ↔ Closes inside n ∧ ∀ k < n, ¬ Closes inside k := by
  have hstops : Stops inside 0 (scan 0 inside) := scan_stops [] rfl rfl
  constructor
  · intro h
    rw [h] at hstops
    exact ⟨hstops.1, fun k => hstops.2 k (Nat.zero_le k)⟩
  · rintro ⟨hcloses, hfirst⟩
    cases hscan : scan 0 inside with
    | unfinished m =>
      rw [hscan] at hstops
      exact absurd hcloses (hstops n (Nat.zero_le n))
    | closed m =>
      rw [hscan] at hstops
      rcases Nat.lt_trichotomy m n with hlt | rfl | hlt
      · exact absurd hstops.1 (hfirst m hlt)
      · rfl
      · exact absurd hcloses (hstops.2 n (Nat.zero_le n) hlt)

/-! ## Escapes -/

/-- Goes on behind `n` bytes; the places of backslashes are counted from here. -/
def onward (n : Nat) (here : List Nat) (out : List UInt8) (later : Option (List Nat × Except LexError (List UInt8))) :
    Option (List Nat × Except LexError (List UInt8)) :=
  later.map fun (places, result) => (here ++ places.map (n + ·), (out ++ ·) <$> result)

/-- `unescape` with the access behind a backslash checked: `none` if there is no byte. It also tells at which
backslashes it has been. -/
def unescape? (offset : Nat) : List UInt8 → Option (List Nat × Except LexError (List UInt8))
  | [] => some ([], .ok [])
  | b :: rest =>
    if b < 0x20 then some ([], .error ⟨.controlCharacter, offset⟩)
    else if b ≠ 0x5c then onward 1 [] [b] (unescape? (offset + 1) rest)
    else
      match rest with
      | [] => none
      | e :: rest =>
        if e = 0x75 then
          match rest with
          | h1 :: h2 :: h3 :: h4 :: rest =>
            match hex4? h1 h2 h3 h4 with
            | none => some ([0], .error ⟨.invalidUnicodeEscape, offset⟩)
            | some high =>
              if high < 0xd800 ∨ 0xe000 ≤ high then
                onward 6 [0] (Utf8.encode (Char.ofNat high)) (unescape? (offset + 6) rest)
              else if 0xdc00 ≤ high then some ([0], .error ⟨.loneLowSurrogate, offset⟩)
              else
                match rest with
                | 0x5c :: 0x75 :: rest =>
                  match rest with
                  | l1 :: l2 :: l3 :: l4 :: rest =>
                    match hex4? l1 l2 l3 l4 with
                    | none => some ([0], .error ⟨.invalidUnicodeEscape, offset⟩)
                    | some low =>
                      if 0xdc00 ≤ low ∧ low < 0xe000 then
                        let c := Char.ofNat (0x10000 + (high - 0xd800) * 1024 + (low - 0xdc00))
                        onward 12 [0] (Utf8.encode c) (unescape? (offset + 12) rest)
                      else some ([0], .error ⟨.loneHighSurrogate, offset⟩)
                  | _ => some ([0], .error ⟨.invalidUnicodeEscape, offset⟩)
                | _ => some ([0], .error ⟨.loneHighSurrogate, offset⟩)
          | _ => some ([0], .error ⟨.invalidUnicodeEscape, offset⟩)
        else
          match shortEscape? e with
          | some c => onward 2 [0] [c] (unescape? (offset + 2) rest)
          | none => some ([0], .error ⟨.unknownEscape, offset⟩)

/-- The search finds an escape at this place, and there is a byte behind the backslash. -/
structure Found (raw : List UInt8) (k : Nat) : Prop where
  slash : raw[k]? = some 0x5c
  arrives : Clear (raw.take k)
  behind : k + 1 < raw.length

/-- The decoder gets through, and the search has found an escape at every backslash it visits. -/
def Agrees (raw : List UInt8) (result : Except LexError (List UInt8))
    (visit : Option (List Nat × Except LexError (List UInt8))) : Prop :=
  ∃ places, visit = some (places, result) ∧ ∀ k ∈ places, Found raw k

theorem found_here (e : UInt8) (rest : List UInt8) : ∀ k ∈ [0], Found (0x5c :: e :: rest) k := by
  simpa using ⟨rfl, .nil, by simp⟩

theorem Agrees.onward {first rest out : List UInt8} {result : Except LexError (List UInt8)}
    {later : Option (List Nat × Except LexError (List UInt8))} {here : List Nat} (hclear : Clear first)
    (hhere : ∀ k ∈ here, Found (first ++ rest) k) (h : Agrees rest result later) :
    Agrees (first ++ rest) ((out ++ ·) <$> result) (onward first.length here out later) := by
  obtain ⟨places, rfl, hplaces⟩ := h
  refine ⟨_, rfl, List.forall_mem_append.2 ⟨hhere, fun k hk => ?_⟩⟩
  obtain ⟨k, hmem, rfl⟩ := List.mem_map.1 hk
  obtain ⟨hslash, harrives, hbehind⟩ := hplaces k hmem
  refine ⟨?_, ?_, by rw [List.length_append]; omega⟩
  · rwa [List.getElem?_append_right (Nat.le_add_right _ _), Nat.add_sub_cancel_left]
  · rw [List.take_length_add_append]
    exact hclear.append harrives

/-- Where the search passes, the decoder never looks behind the end. -/
theorem unescape?_agrees {raw : List UInt8} (hclear : Clear raw) (offset : Nat) :
    Agrees raw (unescape offset raw) (unescape? offset raw) := by
  fun_induction unescape? offset raw with
  | case1 => exact ⟨[], rfl, by simp⟩
  | case2 offset b rest hlow => exact ⟨[], by rw [unescape.eq_def]; simp [hlow], by simp⟩
  | case3 offset b rest hlow hback ih =>
    have hfirst := Clear.plain hclear.ne_quote hback
    rw [unescape_plain hlow hback]
    exact (ih (hclear.of_append hfirst)).onward hfirst (by simp)
  | case4 offset b _ hback =>
    obtain rfl := Decidable.not_not.1 hback
    cases hclear 0
  | case6 offset b hlow hback h1 h2 h3 h4 rest n hn hplain ih =>
    obtain rfl := Decidable.not_not.1 hback
    have hfirst := (Clear.escape 0x75).append (hex4_clear (hex4?_iff.1 hn))
    rw [unescape_numbered hn hplain]
    exact (ih (hclear.of_append hfirst)).onward hfirst (found_here _ _)
  | case9 offset b hlow hback h1 h2 h3 h4 m hm hplain hlow' l1 l2 l3 l4 rest n hn hpair c ih =>
    obtain rfl := Decidable.not_not.1 hback
    have hfirst := ((Clear.escape 0x75).append (hex4_clear (hex4?_iff.1 hm))).append
      ((Clear.escape 0x75).append (hex4_clear (hex4?_iff.1 hn)))
    rw [unescape_pair hm hn (by omega) hpair]
    exact (ih (hclear.of_append hfirst)).onward hfirst (found_here _ _)
  | case14 offset b hlow hback e rest _ x hx ih =>
    obtain rfl := Decidable.not_not.1 hback
    have hfirst := Clear.escape e
    rw [unescape_short hx]
    exact (ih (hclear.of_append hfirst)).onward hfirst (found_here _ _)
  | case5 | case7 | case8 | case10 | case11 | case12 | case13 | case15 =>
    obtain rfl := Decidable.not_not.1 ‹¬ _ ≠ (0x5c : UInt8)›
    exact ⟨[0], by rw [unescape.eq_def]; simp [*], found_here _ _⟩

/-! ## Where a literal is read -/

/-- A literal is next, perhaps behind blanks and separators: what was passed of it is passed for good. -/
theorem Sound.passed_ahead {l k : Lexer} (h : l.Sound) (hk : l.Ahead k)
    (hp : k.pending = 0x22 :: inside) : Passed inside k.scanned := by
  obtain ⟨gap, hgap, hpending⟩ := hk.gap
  rw [hk.scanned]
  rcases h.resumes with hzero | ⟨⟨inside', hp', hpassed⟩, -⟩
  · rw [hzero]
    exact .zero inside
  · rw [hp', hp] at hpending
    cases gap with
    | nil =>
      cases hpending
      exact hpassed
    | cons b gap =>
      cases hpending
      exact absurd (hgap 0x22 (.head _)) (by decide)

/-- A literal that is read ends at its first quote that is not escaped, and the decoder stays inside of it: it
visits only escapes that the search has found. -/
theorem Sound.search_agrees {l k : Lexer} (h : l.Sound) (hk : l.Ahead k) (hp : k.pending = 0x22 :: inside) (n : Nat) :
    (scan k.scanned (inside.drop k.scanned) = .closed n ↔ Closes inside n ∧ ∀ i < n, ¬ Closes inside i) ∧
    (scan k.scanned (inside.drop k.scanned) = .closed n →
      Agrees (inside.take n) (unescape (k.offset + 1) (inside.take n)) (unescape? (k.offset + 1) (inside.take n))) := by
  have hsame := (h.passed_ahead hk hp).same []
  rw [List.append_nil, List.append_nil] at hsame
  rw [hsame]
  refine ⟨scan_eq_closed_iff, fun hclosed => ?_⟩
  obtain ⟨raw, rest, rfl, rfl, hclear⟩ := scan_closed hclosed
  rw [Nat.zero_add, List.take_left]
  exact unescape?_agrees hclear _

end JsonSieve.Lexer
