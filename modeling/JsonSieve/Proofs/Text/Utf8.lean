import JsonSieve.Text.Utf8
import Mathlib.Data.Char

/-!
# Decoding undoes encoding

Bytes decode to characters exactly when they are the encodings of these characters, one after the other
(`decode_eq_ok_iff`). A sequence is at most four bytes long, and only behind its first byte are there
continuation bytes (`encode_cons`).
-/

namespace JsonSieve.Utf8

/-! ## The sequence of one character -/

theorem isContinuation_iff (b : UInt8) : isContinuation b = true ↔ 0x80 ≤ b.toNat ∧ b.toNat ≤ 0xbf := by
  simp [isContinuation, UInt8.le_iff_toNat_le]

theorem toNat_scalar (c : Char) : c.toNat < 0xd800 ∨ 0xdfff < c.toNat ∧ c.toNat < 0x110000 :=
  c.valid

theorem toNat_ofNat {n : Nat} (h : n < 0xd800 ∨ 0xdfff < n ∧ n < 0x110000) : (Char.ofNat n).toNat = n := by
  have hvalid : n.isValidChar := h
  rw [Char.ofNat, dif_pos hvalid]
  rfl

theorem eq_ofNat_iff {n : Nat} (h : n < 0xd800 ∨ 0xdfff < n ∧ n < 0x110000) (c : Char) :
    Char.ofNat n = c ↔ c.toNat = n := by
  constructor
  · rintro rfl
    exact toNat_ofNat h
  · rintro rfl
    exact Char.ofNat_toNat c

theorem encode_eq (c : Char) : encode c = if c.toNat < 0x80 then [UInt8.ofNat c.toNat] else if c.toNat < 0x800 then
      [UInt8.ofNat (0xc0 + c.toNat / 64), UInt8.ofNat (0x80 + c.toNat / 1 % 64)]
    else if c.toNat < 0x10000 then
      [UInt8.ofNat (0xe0 + c.toNat / 4096), UInt8.ofNat (0x80 + c.toNat / 64 % 64),
        UInt8.ofNat (0x80 + c.toNat / 1 % 64)]
    else
      [UInt8.ofNat (0xf0 + c.toNat / 262144), UInt8.ofNat (0x80 + c.toNat / 4096 % 64),
        UInt8.ofNat (0x80 + c.toNat / 64 % 64), UInt8.ofNat (0x80 + c.toNat / 1 % 64)] := rfl

variable {a b c : UInt8} {ch : Char} {chars : List Char}

theorem one_iff {c : Char} : (a.toNat < 0x80 ∧ Char.ofNat a.toNat = c) ↔ encode c = [a] := by
  have hc := toNat_scalar c
  rw [encode_eq]
  constructor
  · rintro ⟨ha, h⟩
    rw [eq_ofNat_iff (by omega)] at h
    simp [h, ha]
  · intro h
    split at h
    · obtain rfl : UInt8.ofNat c.toNat = a := by simpa using h
      rw [UInt8.toNat_ofNat', Nat.mod_eq_of_lt (by omega)]
      exact ⟨by omega, Char.ofNat_toNat c⟩
    · split at h
      · simp at h
      · split at h <;> simp at h

/-- A reader takes bytes in certain ranges, whose number is then that of a character. -/
theorem read_iff {p : Prop} [Decidable p] {n : Nat} (h : p → n < 0xd800 ∨ 0xdfff < n ∧ n < 0x110000) :
    (if p then some (Char.ofNat n) else none) = some ch ↔ p ∧ ch.toNat = n := by
  rw [Option.ite_none_right_eq_some, Option.some_inj]
  exact and_congr_right fun hp => eq_ofNat_iff (h hp) ch

theorem two?_iff : two? a b = some ch ↔ encode ch = [a, b] := by
  have hch := toNat_scalar ch
  have hb : b.toNat < 256 := b.toNat_lt
  unfold two?
  simp only [isContinuation_iff, UInt8.le_iff_toNat_le, UInt8.reduceToNat]
  rw [read_iff (by unfold payload; omega), encode_eq]
  unfold payload
  split_ifs <;> simp only [List.cons.injEq, ← UInt8.toNat_inj, UInt8.toNat_ofNat', reduceCtorEq, and_true, and_false,
    iff_false] <;> omega

theorem three?_iff : three? a b c = some ch ↔ encode ch = [a, b, c] := by
  have hch := toNat_scalar ch
  have hb : b.toNat < 256 := b.toNat_lt
  unfold three?
  simp only [isContinuation_iff, UInt8.le_iff_toNat_le, ← UInt8.toNat_inj, UInt8.reduceToNat]
  rw [read_iff (by unfold payload; omega), encode_eq]
  unfold payload
  split_ifs <;> simp only [List.cons.injEq, ← UInt8.toNat_inj, UInt8.toNat_ofNat', reduceCtorEq, and_true, and_false,
    iff_false] <;> omega

theorem four?_iff {d : UInt8} : four? a b c d = some ch ↔ encode ch = [a, b, c, d] := by
  have hch := toNat_scalar ch
  have hb : b.toNat < 256 := b.toNat_lt
  unfold four?
  simp only [isContinuation_iff, UInt8.le_iff_toNat_le, ← UInt8.toNat_inj, UInt8.reduceToNat]
  rw [read_iff (by unfold payload; omega), encode_eq]
  unfold payload
  split_ifs <;> simp only [List.cons.injEq, ← UInt8.toNat_inj, UInt8.toNat_ofNat', reduceCtorEq, and_true, and_false,
    iff_false] <;> omega

/-- A first byte that is no continuation byte, and then continuation bytes. -/
theorem encode_cons (c : Char) : ∃ a tail, encode c = a :: tail ∧ isContinuation a = false ∧
    ∀ b ∈ tail, isContinuation b = true := by
  have hc := toNat_scalar c
  have hfirst : ∀ {n : Nat}, n < 256 → ¬ (0x80 ≤ n ∧ n ≤ 0xbf) →
      isContinuation (UInt8.ofNat n) = false := fun {n} hlt hn => by
    rw [← Bool.not_eq_true, isContinuation_iff, UInt8.toNat_ofNat', Nat.mod_eq_of_lt hlt]
    exact hn
  have htail : ∀ k : Nat, isContinuation (UInt8.ofNat (0x80 + k % 64)) = true := fun k => by
    rw [isContinuation_iff, UInt8.toNat_ofNat']
    omega
  have hnil : ∀ b ∈ ([] : List UInt8), isContinuation b = true := fun _ h => nomatch h
  rw [encode_eq]
  split
  · exact ⟨_, _, rfl, hfirst (by omega) (by omega), hnil⟩
  · split
    · exact ⟨_, _, rfl, hfirst (by omega) (by omega), List.forall_mem_cons.2 ⟨htail _, hnil⟩⟩
    · split
      · exact ⟨_, _, rfl, hfirst (by omega) (by omega), List.forall_mem_cons.2 ⟨htail _,
          List.forall_mem_cons.2 ⟨htail _, hnil⟩⟩⟩
      · exact ⟨_, _, rfl, hfirst (by omega) (by omega), List.forall_mem_cons.2 ⟨htail _,
          List.forall_mem_cons.2 ⟨htail _, List.forall_mem_cons.2 ⟨htail _, hnil⟩⟩⟩⟩

/-- An ASCII character is one byte of its own; the bytes of others are no ASCII characters. -/
theorem encode_ascii_or (c : Char) : (c.toNat < 0x80 ∧ encode c = [UInt8.ofNat c.toNat]) ∨
    (0x80 ≤ c.toNat ∧ ∀ b ∈ encode c, 0x80 ≤ b.toNat) := by
  have hc := toNat_scalar c
  by_cases h : c.toNat < 0x80
  · exact .inl ⟨h, by rw [encode_eq, if_pos h]⟩
  · refine .inr ⟨Nat.not_lt.1 h, ?_⟩
    rw [encode_eq, if_neg h]
    split
    · simp only [List.forall_mem_cons, UInt8.toNat_ofNat']
      exact ⟨by omega, by omega, fun _ h => nomatch h⟩
    · split
      · simp only [List.forall_mem_cons, UInt8.toNat_ofNat']
        exact ⟨by omega, by omega, by omega, fun _ h => nomatch h⟩
      · simp only [List.forall_mem_cons, UInt8.toNat_ofNat']
        exact ⟨by omega, by omega, by omega, by omega, fun _ h => nomatch h⟩

theorem encode_eq_utf8EncodeChar (c : Char) : encode c = String.utf8EncodeChar c := by
  have hc := toNat_scalar c
  have hval : c.val.toNat = c.toNat := rfl
  have hbyte : ∀ {m n : Nat}, m = n → UInt8.ofNat m = UInt8.ofNat n := fun h => h ▸ rfl
  rw [encode_eq, String.utf8EncodeChar]
  simp only [hval, Nat.div_one]
  split
  · rw [if_pos (show c.toNat ≤ 0x7f by omega)]
  · rw [if_neg (show ¬ c.toNat ≤ 0x7f by omega)]
    split
    · rw [if_pos (show c.toNat ≤ 0x7ff by omega), Nat.add_comm 0x80,
        hbyte (by omega : 0xc0 + c.toNat / 64 = c.toNat / 64 % 32 + 0xc0)]
    · rw [if_neg (show ¬ c.toNat ≤ 0x7ff by omega)]
      split
      · rw [if_pos (show c.toNat ≤ 0xffff by omega), Nat.add_comm 0x80, Nat.add_comm 0x80,
          hbyte (by omega : 0xe0 + c.toNat / 4096 = c.toNat / 4096 % 16 + 0xe0)]
      · rw [if_neg (show ¬ c.toNat ≤ 0xffff by omega), Nat.add_comm 0x80, Nat.add_comm 0x80,
          Nat.add_comm 0x80, hbyte (by omega : 0xf0 + c.toNat / 262144 = c.toNat / 262144 % 8 + 0xf0)]

/-! ## Texts -/

theorem first_of_two {c : Char} (h : two? a b = some c) : 0xc2 ≤ a.toNat ∧ a.toNat ≤ 0xdf := by
  simp only [two?, Option.ite_none_right_eq_some, UInt8.le_iff_toNat_le] at h
  exact ⟨h.1.1, h.1.2.1⟩

theorem first_of_three (h : three? a b c = some ch) : 0xe0 ≤ a.toNat ∧ a.toNat ≤ 0xef := by
  simp only [three?, Option.ite_none_right_eq_some, UInt8.le_iff_toNat_le] at h
  exact ⟨h.1.1, h.1.2.1⟩

theorem first_of_four {d : UInt8} (h : four? a b c d = some ch) : 0xf0 ≤ a.toNat := by
  simp only [four?, Option.ite_none_right_eq_some, UInt8.le_iff_toNat_le] at h
  exact h.1.1

/-- Which of the readers takes a sequence is settled by its first byte. -/
theorem two?_eq_none (h : 0xe0 ≤ a.toNat) : two? a b = none := by
  refine Option.eq_none_iff_forall_ne_some.2 fun c hc => ?_
  have := first_of_two hc
  omega

theorem three?_eq_none (h : 0xf0 ≤ a.toNat) : three? a b c = none := by
  refine Option.eq_none_iff_forall_ne_some.2 fun c hc => ?_
  have := first_of_three hc
  omega

theorem ascii_iff (a : UInt8) : a < 0x80 ↔ a.toNat < 0x80 := UInt8.lt_iff_toNat_lt

theorem encode_length_le (c : Char) : (encode c).length ≤ 4 := by
  rw [encode_eq]
  split
  · simp
  · split
    · simp
    · split <;> simp

theorem decodeFrom_encode_append (offset : Nat) (c : Char) (rest : List UInt8) : decodeFrom offset (encode c ++ rest)
      = (c :: ·) <$> decodeFrom (offset + (encode c).length) rest := by
  have hle := encode_length_le c
  rcases hlist : encode c with _ | ⟨a, _ | ⟨b, _ | ⟨d, _ | ⟨e, _ | ⟨f, tail⟩⟩⟩⟩⟩
  · obtain ⟨a, tail, h, -⟩ := encode_cons c
    rw [hlist] at h
    cases h
  · obtain ⟨ha, rfl⟩ := one_iff.2 hlist
    rw [List.cons_append, decodeFrom.eq_def]
    simp only [if_pos ((ascii_iff a).2 ha), List.nil_append, List.length_singleton]
  · have htwo := two?_iff.2 hlist
    have ha := first_of_two htwo
    rw [List.cons_append, decodeFrom.eq_def]
    simp only [if_neg (mt (ascii_iff a).1 (by omega)), List.cons_append, htwo,
      List.nil_append, List.length_cons, List.length_nil]
  · have hthree := three?_iff.2 hlist
    have ha := first_of_three hthree
    rw [List.cons_append, decodeFrom.eq_def]
    simp only [if_neg (mt (ascii_iff a).1 (by omega)), List.cons_append,
      two?_eq_none ha.1, hthree, List.nil_append, List.length_cons, List.length_nil]
  · have hfour := four?_iff.2 hlist
    have ha := first_of_four hfour
    rw [List.cons_append, decodeFrom.eq_def]
    simp only [if_neg (mt (ascii_iff a).1 (by omega)), List.cons_append,
      two?_eq_none (by omega : 0xe0 ≤ a.toNat), three?_eq_none ha, hfour, List.nil_append,
      List.length_cons, List.length_nil]
  · rw [hlist] at hle
    simp only [List.length_cons] at hle
    omega

variable {bytes : List UInt8}

theorem decodeFrom_eq_ok_iff {offset : Nat} : decodeFrom offset bytes = .ok chars ↔ bytes = chars.flatMap encode := by
  have hmap : ∀ {r : Except Nat (List Char)} {c : Char} {chars : List Char},
      (c :: ·) <$> r = .ok chars → ∃ rest, r = .ok rest ∧ chars = c :: rest := by
    rintro (_ | rest) c chars h
    · cases h
    · cases h
      exact ⟨rest, rfl, rfl⟩
  constructor
  · intro h
    fun_induction decodeFrom offset bytes generalizing chars with
    | case1 offset =>
      cases h
      rfl
    | case2 offset a rest ha ih =>
      obtain ⟨chars, hrest, rfl⟩ := hmap h
      have hone := one_iff.1 ⟨(ascii_iff a).1 ha, rfl⟩
      rw [List.flatMap_cons, hone, ← ih hrest, List.singleton_append]
    | case4 offset a _ b rest c htwo ih =>
      obtain ⟨chars, hrest, rfl⟩ := hmap h
      rw [List.flatMap_cons, two?_iff.1 htwo, ← ih hrest]
      rfl
    | case6 offset a _ b c _ rest ch hthree ih =>
      obtain ⟨chars, hrest, rfl⟩ := hmap h
      rw [List.flatMap_cons, three?_iff.1 hthree, ← ih hrest]
      rfl
    | case8 offset a _ b c _ _ d rest ch hfour ih =>
      obtain ⟨chars, hrest, rfl⟩ := hmap h
      rw [List.flatMap_cons, four?_iff.1 hfour, ← ih hrest]
      rfl
    | case3 | case5 | case7 | case9 => cases h
  · rintro rfl
    induction chars generalizing offset with
    | nil => rfl
    | cons c chars ih =>
      rw [List.flatMap_cons, decodeFrom_encode_append, ih]
      rfl

theorem decode_eq_ok_iff : decode bytes = .ok chars ↔ bytes = chars.flatMap encode :=
  decodeFrom_eq_ok_iff

theorem of_encode_append {c d : Char} {rest : List UInt8}
    (h : encode c ++ rest = (d :: chars).flatMap encode) : c = d ∧ rest = chars.flatMap encode := by
  have hdecode : decodeFrom 0 (encode c ++ rest) = .ok (d :: chars) := decodeFrom_eq_ok_iff.2 h
  rw [decodeFrom_encode_append] at hdecode
  cases hrest : decodeFrom (0 + (encode c).length) rest with
  | error e =>
    rw [hrest] at hdecode
    cases hdecode
  | ok chars' =>
    rw [hrest] at hdecode
    cases hdecode
    exact ⟨rfl, decodeFrom_eq_ok_iff.1 hrest⟩

theorem encode_append_inj {c d : Char} {rest rest' : List UInt8} (h : encode c ++ rest = encode d ++ rest') :
    c = d ∧ rest = rest' := by
  have hone : ∀ {c d : Char} {tail : List UInt8}, encode d = encode c ++ tail → c = d ∧ tail = [] :=
    fun {c d tail} heq => @of_encode_append [] c d tail (by simpa using heq.symm)
  obtain ⟨tail, hencode, hrest⟩ | ⟨tail, hencode, hrest⟩ := List.append_eq_append_iff.1 h
  · obtain ⟨rfl, rfl⟩ := hone hencode
    exact ⟨rfl, hrest⟩
  · obtain ⟨rfl, rfl⟩ := hone hencode
    exact ⟨rfl, hrest.symm⟩

/-- Bytes that do not begin with a character are refused where they begin. -/
theorem decodeFrom_eq_error (hne : bytes ≠ []) (h : ∀ c rest, bytes ≠ encode c ++ rest)
    (offset : Nat) : decodeFrom offset bytes = .error offset := by
  revert hne h
  fun_cases decodeFrom offset bytes with
  | case1 => exact fun hne => absurd rfl hne
  | case2 a rest ha => exact fun _ h => absurd (by rw [one_iff.1 ⟨(ascii_iff a).1 ha, rfl⟩]; rfl) (h _ rest)
  | case4 a _ b rest c htwo => exact fun _ h => absurd (by rw [two?_iff.1 htwo]; rfl) (h c rest)
  | case6 a _ b c _ rest ch hthree => exact fun _ h => absurd (by rw [three?_iff.1 hthree]; rfl) (h ch rest)
  | case8 a _ b c _ _ d rest ch hfour => exact fun _ h => absurd (by rw [four?_iff.1 hfour]; rfl) (h ch rest)
  | case3 | case5 | case7 | case9 => exact fun _ _ => rfl

theorem decodeFrom_append (offset : Nat) (chars : List Char) (rest : List UInt8) :
    decodeFrom offset (chars.flatMap encode ++ rest)
      = (chars ++ ·) <$> decodeFrom (offset + (chars.flatMap encode).length) rest := by
  induction chars generalizing offset with
  | nil => cases hrest : decodeFrom offset rest <;> simp [hrest, Functor.map, Except.map]
  | cons c chars ih =>
    rw [List.flatMap_cons, List.append_assoc, decodeFrom_encode_append, ih, List.length_append, Nat.add_assoc]
    cases decodeFrom (offset + ((encode c).length + (chars.flatMap encode).length)) rest <;> rfl

/-- Bytes that are refused are characters up to the place where they are refused. -/
theorem exists_of_decodeFrom_eq_error {offset valid : Nat}
    (h : decodeFrom offset bytes = .error valid) : ∃ (chars : List Char) (rest : List UInt8),
      bytes = chars.flatMap encode ++ rest ∧ valid = offset + (chars.flatMap encode).length ∧ rest ≠ [] ∧
      ∀ c tail, rest ≠ encode c ++ tail := by
  induction hlength : bytes.length using Nat.strong_induction_on generalizing offset bytes with
  | _ length ih =>
  by_cases hfirst : ∃ c rest, bytes = encode c ++ rest
  · obtain ⟨c, rest, rfl⟩ := hfirst
    obtain ⟨a, tail, hencode, -⟩ := encode_cons c
    rw [decodeFrom_encode_append] at h
    cases hrest : decodeFrom (offset + (encode c).length) rest with
    | ok chars =>
      rw [hrest] at h
      cases h
    | error valid' =>
      rw [hrest] at h
      cases h
      obtain ⟨chars, bad, rfl, rfl, hbad⟩ := ih rest.length (by
        rw [← hlength, hencode, List.length_append, List.length_cons]; omega) hrest rfl
      refine ⟨c :: chars, bad, by rw [List.flatMap_cons, List.append_assoc], ?_, hbad⟩
      rw [List.flatMap_cons, List.length_append, Nat.add_assoc]
  · have hne : bytes ≠ [] := by
      rintro rfl
      cases h
    have hno : ∀ c rest, bytes ≠ encode c ++ rest := fun c rest heq => hfirst ⟨c, rest, heq⟩
    rw [decodeFrom_eq_error hne hno] at h
    cases h
    exact ⟨[], bytes, rfl, rfl, hne, hno⟩

end JsonSieve.Utf8
