import JsonSieve.Proofs.Lexer.Prefixes

/-!
# Where ill-formed text is reported

A string literal whose bytes are no text is refused at an offset. The offset counts the bytes that the escapes
of the literal leave, and these are fewer than the bytes of the literal: it is the place of the first sequence
that is not well formed exactly when no escape stands in front of that sequence (`invalidUtf8_offset`).
-/

namespace JsonSieve.Lexer

open Grammar

variable {l : Lexer} {raw spelled : List UInt8} {chars : List Char} {offset : Nat}

/-! ## What is written in front of the sequence -/

theorem ascii_of_hexDigit {b : UInt8} {n : Nat} (h : HexDigit b n) : b.toNat < 0x80 := by
  obtain ⟨row, hrow, hn⟩ := h
  have hascii : ∀ row ∈ hexDigits, ∀ b ∈ row, b.toNat < 0x80 := by simp [hexDigits]
  exact hascii row hrow b (List.mem_of_getElem? hn)

theorem ascii_of_hex4 {digits : List UInt8} {n : Nat} (h : Hex4 digits n) :
    digits.length = 4 ∧ ∀ b ∈ digits, b.toNat < 0x80 := by
  obtain ⟨ha, hb, hc, hd⟩ := h
  simp only [List.forall_mem_cons]
  exact ⟨rfl, ascii_of_hexDigit ha, ascii_of_hexDigit hb, ascii_of_hexDigit hc, ascii_of_hexDigit hd, by simp⟩

theorem encoded_of_ascii (h : ∀ b ∈ raw, b.toNat < 0x80) : ∃ chars : List Char, raw = chars.flatMap Utf8.encode := by
  induction raw with
  | nil => exact ⟨[], rfl⟩
  | cons b raw ih =>
    obtain ⟨hb, hraw⟩ := List.forall_mem_cons.1 h
    obtain ⟨chars, rfl⟩ := ih hraw
    exact ⟨Char.ofNat b.toNat :: chars, by rw [List.flatMap_cons, Utf8.one_iff.1 ⟨hb, rfl⟩]; rfl⟩

/-- A character stands for itself, or it is written as an escape: longer, and in ASCII. -/
theorem character_cases {c : Char} (h : Character raw c) : (0x5c ∉ raw ∧ raw = Utf8.encode c) ∨
    (0x5c ∈ raw ∧ (Utf8.encode c).length < raw.length ∧ ∀ b ∈ raw, b.toNat < 0x80) := by
  have hlength := Utf8.encode_length_le c
  cases h with
  | plain hlow hquote hback =>
    rw [← Utf8.encode_eq_utf8EncodeChar]
    exact .inl ⟨fun hmem => ((encode_plain c).1 ⟨hlow, hquote, hback⟩ _ hmem).2.2 rfl, rfl⟩
  | @short letter c h =>
    have hshort : ∀ p ∈ shortEscapes, (Utf8.encode p.2).length < 2 ∧ p.1.toNat < 0x80 := by decide
    obtain ⟨hone, hletter⟩ := hshort _ h
    exact .inr ⟨by simp, hone, by simpa using hletter⟩
  | numbered h =>
    obtain ⟨hfour, hascii⟩ := ascii_of_hex4 h
    exact .inr ⟨by simp, by simp only [List.length_cons, hfour]; omega, by simpa using hascii⟩
  | pair hhigh hlow _ _ _ =>
    obtain ⟨hfour, hascii⟩ := ascii_of_hex4 hhigh
    obtain ⟨hfour', hascii'⟩ := ascii_of_hex4 hlow
    refine .inr ⟨by simp, by simp only [List.length_cons, List.length_append, hfour, hfour']; omega, ?_⟩
    simpa [or_imp, forall_and] using ⟨hascii, hascii'⟩

/-- What characters are written as is a text itself, and longer than the characters where there are escapes. -/
theorem characters_length (h : Characters spelled chars) : (∃ text : List Char, spelled = text.flatMap Utf8.encode) ∧
    (chars.flatMap Utf8.encode).length ≤ spelled.length ∧
    ((chars.flatMap Utf8.encode).length = spelled.length ↔ 0x5c ∉ spelled) := by
  induction h with
  | nil => exact ⟨⟨[], rfl⟩, by simp⟩
  | @cons first rest c chars h _ ih =>
    obtain ⟨⟨text, rfl⟩, hle, hiff⟩ := ih
    simp only [List.flatMap_cons, List.length_append, List.mem_append, not_or]
    obtain ⟨hnot, rfl⟩ | ⟨hmem, hlt, hascii⟩ := character_cases h
    · exact ⟨⟨c :: text, rfl⟩, by omega, by simp only [hnot, not_false_eq_true, true_and, ← hiff]; omega⟩
    · obtain ⟨front, rfl⟩ := encoded_of_ascii hascii
      exact ⟨⟨front ++ text, by simp⟩, by omega, by simp only [hmem, not_true, false_and, iff_false]; omega⟩

/-- The escapes of a literal leave ill-formed bytes where the literal itself is ill-formed. -/
theorem decodeFrom_of_unescape {out : List UInt8} (h : unescape offset raw = .ok out) (hne : out ≠ [])
    (hout : ∀ c tail, out ≠ Utf8.encode c ++ tail) (base : Nat) : Utf8.decodeFrom base raw = .error base := by
  obtain ⟨-, rfl⟩ | ⟨b, rest, out, rfl, -, -, hrest, rfl⟩ | ⟨_, c, _, _, -, -, -, -, -, heq⟩ := unescape_cases h
  · exact absurd rfl hne
  · refine Utf8.decodeFrom_eq_error (by simp) (fun c tail heq => ?_) base
    obtain ⟨a, more, hencode, -, hmore⟩ := Utf8.encode_cons c
    rw [hencode, List.cons_append, List.cons.injEq] at heq
    obtain ⟨rfl, rfl⟩ := heq
    rw [unescape_plains fun x hx => (plain_of_isContinuation (hmore x hx)).imp_right And.right] at hrest
    obtain ⟨out, -, rfl⟩ := map_eq_ok hrest
    exact hout c out (by rw [hencode]; rfl)
  · exact absurd heq (hout c _)

theorem unescape_cause {e : LexError} (h : unescape offset raw = .error e) : e.cause ≠ .invalidUtf8 := by
  have hmap : ∀ {f : List UInt8 → List UInt8} {r : Except LexError (List UInt8)}, f <$> r = .error e → r = .error e := by
    rintro f (e | out) heq
    · exact heq
    · cases heq
  fun_induction unescape offset raw with
  | case1 => cases h
  | case3 _ _ _ _ _ ih => exact ih (hmap h)
  | case6 _ _ _ _ _ _ _ _ _ _ _ _ ih => exact ih (hmap h)
  | case9 _ _ _ _ _ _ _ _ _ _ _ _ _ _ _ _ _ _ _ _ _ ih => exact ih (hmap h)
  | case14 _ _ _ _ _ _ _ _ _ ih => exact ih (hmap h)
  | _ => cases h; simp

/-- The place where a literal is refused, and the place of the sequence that is not well formed. -/
theorem stringText_invalidUtf8 {start : Nat} (hclear : Clear raw)
    (h : stringText start raw = .error ⟨.invalidUtf8, offset⟩) : ∃ spelled bad chars, raw = spelled ++ bad ∧
      Characters spelled chars ∧ Utf8.decode raw = .error spelled.length ∧
      offset = start + (chars.flatMap Utf8.encode).length := by
  unfold stringText at h
  cases hbytes : unescape start raw with
  | error e =>
    rw [hbytes] at h
    cases h
    exact absurd rfl (unescape_cause hbytes)
  | ok bytes =>
    simp only [hbytes, bind, Except.bind] at h
    split at h
    · cases h
    · next valid hdecode =>
      cases h
      obtain ⟨chars, out, rfl, rfl, hne, hout⟩ := Utf8.exists_of_decodeFrom_eq_error hdecode
      obtain ⟨spelled, bad, start', rfl, hspelled, hbad⟩ := unescape_characters hclear hbytes
      refine ⟨spelled, bad, chars, rfl, hspelled, ?_, by rw [Nat.zero_add]⟩
      obtain ⟨⟨text, rfl⟩, -⟩ := characters_length hspelled
      rw [Utf8.decode, Utf8.decodeFrom_append, decodeFrom_of_unescape hbad hne hout, Nat.zero_add]
      rfl

/-! ## Where the literal stands -/

theorem read_of_drain {e : LexError} (hs : l.Sound) (h : l.Ready) (hdrain : l.drain = ([], .error e)) :
    l.read = .error e := by
  rw [drain_eq hs, next_eq h.failed] at hdrain
  cases hread : l.read with
  | error e' =>
    rw [hread] at hdrain
    cases hdrain
    rfl
  | ok answer =>
    obtain ⟨l', answer⟩ := answer
    have hmeans := ((reads_read hs).given _ _ hread).means
    rw [hread] at hdrain
    cases answer with
    | error => exact hmeans.elim
    | token | needMore | eof => cases hdrain

/-- However a lexer is called, it refuses a string literal as no text at an offset that counts the bytes of the
characters in front of the first ill-formed sequence, from the beginning of the literal. The literal is what
comes next behind the tokens that have been handed out. The offset is the place of the sequence in the text
exactly when no escape stands between the beginning of the literal and the sequence. -/
theorem invalidUtf8_offset {calls : List Call} {offset : Nat}
    (h : .error ⟨.invalidUtf8, offset⟩ ∈ answers calls empty) :
    ∃ p : Place, Reached ⟨[], .value, textOf calls⟩ (tokensIn (answers calls empty)) p ∧
      ∃ before gap spelled bad rest chars, textOf calls = before ++ p.text ∧
        p.text = gap ++ 0x22 :: (spelled ++ bad ++ 0x22 :: rest) ∧ (∀ b ∈ gap, isGap b = true) ∧
        Clear (spelled ++ bad) ∧ Characters spelled chars ∧
        Utf8.decode (spelled ++ bad) = .error spelled.length ∧
        offset = (before ++ gap).length + 1 + (chars.flatMap Utf8.encode).length ∧
        (offset = (before ++ gap).length + 1 + spelled.length ↔ 0x5c ∉ spelled) := by
  have hwhole : Awaits (textOf calls) true empty (whole (textOf calls)) := .extended Sound.empty
  obtain ⟨b, hawaits, hdrain⟩ := hwhole.drain_eq
  have hanswer : b.next.2 = .error ⟨.invalidUtf8, offset⟩ := by
    have hnext := hawaits.next
    rw [next_of_failed (failed_after Sound.empty (.inr h)), if_neg (by simp)] at hnext
    exact hnext.1
  have hlast : b.drain = ([], .error ⟨.invalidUtf8, offset⟩) := by rw [drain_eq hawaits.sound_right, hanswer]
  rw [hlast, List.append_nil] at hdrain
  have htokens : tokensIn (answers calls empty) <+: (whole (textOf calls)).drain.1 :=
    ⟨[], by rw [List.append_nil, hdrain]⟩
  obtain ⟨l, hs, hready, hfed, hreached, hrest⟩ := reached_of_prefix (whole_sound _) (whole_ready _) htokens
  have hend : l.drain = ([], .error ⟨.invalidUtf8, offset⟩) := by
    have heq := Prod.mk.inj (hdrain.symm.trans hrest)
    exact Prod.ext (List.self_eq_append_right.1 heq.1) heq.2.symm
  obtain ⟨k, hahead, inside, count, hp, hcount, htext⟩ := (reads_read hs).refused _ (read_of_drain hs hready hend)
  rw [hahead.scanned, hready.scanned, List.drop_zero] at hcount
  obtain ⟨raw, rest, rfl, rfl, hclear⟩ := scan_closed hcount
  rw [Nat.zero_add, List.take_left] at htext
  obtain ⟨spelled, bad, chars, rfl, hspelled, hdecode, hoffset⟩ := stringText_invalidUtf8 hclear htext
  obtain ⟨front, hfront, -⟩ := hreached.accepts
  obtain ⟨gap, hgap, hpending⟩ := hahead.gap
  have hstart : (front ++ gap).length = k.offset := by
    have htotal : k.fed = (textOf calls).length := hahead.fed.trans (hfed.trans (Nat.zero_add _))
    have hlength : (textOf calls).length = front.length + l.pending.length := by
      rw [← List.length_append]
      exact congrArg List.length hfront
    rw [hpending, List.length_append] at hlength
    have := hahead.fed_eq
    rw [List.length_append]
    omega
  refine ⟨l.place, hreached, front, gap, spelled, bad, rest, chars, hfront, hp ▸ hpending, hgap, hclear, hspelled,
    hdecode, by rw [hoffset, hstart], ?_⟩
  rw [← (characters_length hspelled).2.2, hoffset, hstart]
  omega

/-- A literal in two parts, with a character of two bytes in front of the sequence. -/
theorem invalidUtf8_offset_halves :
    .error ⟨.invalidUtf8, 4⟩ ∈ answers [.feed [0x5b, 0x22, 0xc3], .next, .next, .feed [0xa9, 0xff, 0x22], .next] empty ∧
    ∃ p : Place, Reached ⟨[], .value, [0x5b, 0x22, 0xc3, 0xa9, 0xff, 0x22]⟩ [.arrayBegin] p ∧
      ∃ before gap spelled bad rest chars, [0x5b, 0x22, 0xc3, 0xa9, 0xff, 0x22] = before ++ p.text ∧
        p.text = gap ++ 0x22 :: (spelled ++ bad ++ 0x22 :: rest) ∧ (∀ b ∈ gap, isGap b = true) ∧
        Clear (spelled ++ bad) ∧ Characters spelled chars ∧
        Utf8.decode (spelled ++ bad) = .error spelled.length ∧
        4 = (before ++ gap).length + 1 + (chars.flatMap Utf8.encode).length ∧
        (4 = (before ++ gap).length + 1 + spelled.length ↔ 0x5c ∉ spelled) :=
  ⟨by decide, @invalidUtf8_offset [.feed [0x5b, 0x22, 0xc3], .next, .next, .feed [0xa9, 0xff, 0x22], .next] 4 (by decide)⟩

/-- An escape in front of the sequence moves the offset: the third byte inside of the literal is no text, and
the offset is that of the second. -/
theorem invalidUtf8_behind_escape :
    answers [.feed [0x22, 0x5c, 0x6e, 0xff, 0x22], .close, .next] empty = [.error ⟨.invalidUtf8, 2⟩] ∧
    Utf8.decode [0x5c, 0x6e, 0xff] = .error 2 := by decide

end JsonSieve.Lexer
