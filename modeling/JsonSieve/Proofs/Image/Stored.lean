import JsonSieve.Proofs.Image.Encoded
import JsonSieve.Proofs.Image.Resolved
import JsonSieve.Proofs.Session.Limits
import JsonSieve.Proofs.Text.Utf8
import JsonSieve.Regex.Builtin

/-!
# Stored images

Every reader takes exactly the bytes that its writer has written, whatever follows them (`Restores`). The
property is closed under lists and records, so it holds of whole images: a stored image is read back bit
by bit, with any bytes behind it (`load_dump`), and a stored schema judges every document as before.

Lengths are written as words of 64 bits. An image whose lists and texts are not longer than that is
`Storable`.
-/

namespace JsonSieve

namespace Codec

/-- The reader takes what the writer has written, and leaves what follows. -/
def Restores {α : Type} (get : Reader α) (put : α → List UInt8) (a : α) : Prop :=
  ∀ rest, get (put a ++ rest) = .ok (a, rest)

/-! ## Numbers -/

theorem putVarint_small {n : Nat} (h : n < 128) : putVarint n = [UInt8.ofNat n] := by
  rw [putVarint, if_pos h]

theorem putVarint_large {n : Nat} (h : ¬ n < 128) :
    putVarint n = UInt8.ofNat (128 + n % 128) :: putVarint (n / 128) := by
  rw [putVarint, if_neg h]

/-- The groups of a number are read back if there are not too many of them, and the last one may be as
large as it is. -/
theorem getVarint_putVarint {last k n : Nat} (hlast : last < 128) (h : n < (last + 1) * 128 ^ k)
    (rest : List UInt8) : getVarint last (k + 1) (putVarint n ++ rest) = .ok (n, rest) := by
  induction k generalizing n with
  | zero =>
    have hn : n ≤ last := by simpa [Nat.lt_succ_iff] using h
    have hbyte : (UInt8.ofNat n).toNat = n := UInt8.toNat_ofNat_of_lt'
      (Nat.lt_of_le_of_lt hn (Nat.lt_trans hlast (by decide)))
    have hsmall : UInt8.ofNat n < 128 := by
      rw [UInt8.lt_iff_toNat_lt, hbyte]
      exact Nat.lt_of_le_of_lt hn hlast
    rw [putVarint_small (by omega), List.cons_append, getVarint, if_pos hsmall, hbyte,
      if_neg (fun hbad => Nat.not_lt.2 hn hbad.2)]
    rfl
  | succ k ih =>
    by_cases hn : n < 128
    · have hbyte : (UInt8.ofNat n).toNat = n := UInt8.toNat_ofNat_of_lt' (Nat.lt_trans hn (by decide))
      have hsmall : UInt8.ofNat n < 128 := by rwa [UInt8.lt_iff_toNat_lt, hbyte]
      rw [putVarint_small hn, List.cons_append, getVarint, if_pos hsmall, hbyte,
        if_neg (fun hbad => Nat.succ_ne_zero k hbad.1)]
      rfl
    · have hbyte : (UInt8.ofNat (128 + n % 128)).toNat = 128 + n % 128 :=
        UInt8.toNat_ofNat_of_lt' (show 128 + n % 128 < 256 by omega)
      have hlarge : ¬ UInt8.ofNat (128 + n % 128) < 128 := by
        rw [UInt8.lt_iff_toNat_lt, hbyte]
        exact Nat.not_lt.2 (Nat.le_add_right 128 _)
      have hhigh : n / 128 < (last + 1) * 128 ^ k := by
        rw [Nat.pow_succ, ← Nat.mul_assoc] at h
        exact Nat.div_lt_of_lt_mul (by rwa [Nat.mul_comm])
      rw [putVarint_large hn, List.cons_append, getVarint, if_neg hlarge, ih hhigh, hbyte]
      simp only [Except.ok.injEq, Prod.mk.injEq, and_true]
      omega

theorem restores_word (w : UInt32) : Restores getWord putWord w := by
  intro rest
  have hword : getVarint 15 5 (putVarint w.toNat ++ rest) = .ok (w.toNat, rest) :=
    getVarint_putVarint (by decide) (Nat.lt_of_lt_of_le w.toNat_lt (by decide)) rest
  rw [putWord, getWord, hword]
  exact congrArg (fun w => Except.ok (w, rest)) UInt32.ofNat_toNat

def Countable64 (n : Nat) : Prop := n < 2 ^ 64

instance (n : Nat) : Decidable (Countable64 n) := inferInstanceAs (Decidable (n < 2 ^ 64))

theorem restores_length {n : Nat} (h : Countable64 n) : Restores getLength putVarint n :=
  getVarint_putVarint (by decide) (Nat.lt_of_lt_of_le h (by decide))

theorem restores_real (x : Binary64) : Restores getReal putReal x := by
  intro rest
  have hlength : (putReal x).length = 8 := Word.length_bytes 8 _
  have hword : Word.ofBytes (putReal x) = x.bits.toNat :=
    Word.ofBytes_bytes (Nat.lt_of_lt_of_le x.bits.toNat_lt (by decide))
  have hbytes : getBytes 8 (putReal x ++ rest) = .ok (putReal x, rest) := by
    rw [getBytes, if_pos (by rw [List.length_append, hlength]; exact Nat.le_add_right 8 _),
      List.take_left' hlength, List.drop_left' hlength]
  rw [getReal, hbytes]
  show Except.ok ((⟨UInt64.ofNat (Word.ofBytes (putReal x))⟩ : Binary64), rest) = _
  rw [hword, UInt64.ofNat_toNat]

/-! ## Lists and texts -/

theorem getEntries_flatMap {α : Type} {get : Reader α} {put : α → List UInt8} {list : List α}
    (h : ∀ a ∈ list, Restores get put a) (rest : List UInt8) :
    getEntries get list.length (list.flatMap put ++ rest) = .ok (list, rest) := by
  induction list with
  | nil => rfl
  | cons a list ih =>
    obtain ⟨ha, hlist⟩ := List.forall_mem_cons.1 h
    rw [List.length_cons, List.flatMap_cons, List.append_assoc, getEntries, ha]
    show (getEntries get list.length (list.flatMap put ++ rest) >>= _) = _
    rw [ih hlist]
    rfl

theorem restores_list {α : Type} {get : Reader α} {put : α → List UInt8} {list : List α}
    (hlength : Countable64 list.length) (h : ∀ a ∈ list, Restores get put a) :
    Restores (getList get) (putList put) list := by
  intro rest
  rw [putList, List.append_assoc, getList, restores_length hlength]
  exact getEntries_flatMap h rest

theorem getByteList_append {bytes : List UInt8} (h : Countable64 bytes.length) (rest : List UInt8) :
    getByteList (putVarint bytes.length ++ bytes ++ rest) = .ok (bytes, rest) := by
  have hbytes : getBytes bytes.length (bytes ++ rest) = .ok (bytes, rest) := by
    rw [getBytes, if_pos (by rw [List.length_append]; exact Nat.le_add_right _ _), List.take_left, List.drop_left]
  rw [List.append_assoc, getByteList, restores_length h]
  exact hbytes

theorem restores_text {text : String} (h : Countable64 (Utf8.encodeText text).length) :
    Restores getText putText text := by
  intro rest
  have hdecode : Utf8.decode (Utf8.encodeText text) = .ok text.toList := Utf8.decode_eq_ok_iff.2 rfl
  rw [putText, getText, getByteList_append h]
  simp only [bind, Except.bind, hdecode]
  exact congrArg (fun text => Except.ok (text, rest)) String.ofList_toList

end Codec

open Codec (Countable64 Restores)

/-- The text of a pattern is not longer than a length can tell. -/
def NamePattern.Storable : NamePattern → Prop
  | .literal text | .regex text => Countable64 (Utf8.encodeText text).length

structure Matcher.Storable (m : Matcher) : Prop where
  patterns : Countable64 m.patterns.length
  texts : ∀ p ∈ m.patterns, p.Storable
  cases : Countable64 m.cases.length
  indices : ∀ list ∈ m.cases, Countable64 list.length

structure Image.Storable (image : Image) : Prop where
  procs : Countable64 image.procs.length
  floats : Countable64 image.floats.length
  matchers : Countable64 image.matchers.length
  each : ∀ m ∈ image.matchers, m.Storable
  splits : Countable64 image.splits.length
  branches : ∀ list ∈ image.splits, Countable64 list.length
  code : Countable64 image.code.length

instance : (p : NamePattern) → Decidable p.Storable
  | .literal text | .regex text =>
    inferInstanceAs (Decidable (Countable64 (Utf8.encodeText text).length))

instance (m : Matcher) : Decidable m.Storable :=
  decidable_of_iff (Countable64 m.patterns.length ∧ (∀ p ∈ m.patterns, p.Storable) ∧
      Countable64 m.cases.length ∧ ∀ list ∈ m.cases, Countable64 list.length)
    ⟨fun ⟨hpatterns, htexts, hcases, hindices⟩ => ⟨hpatterns, htexts, hcases, hindices⟩,
      fun h => ⟨h.patterns, h.texts, h.cases, h.indices⟩⟩

instance (image : Image) : Decidable image.Storable :=
  decidable_of_iff (Countable64 image.procs.length ∧ Countable64 image.floats.length ∧
      Countable64 image.matchers.length ∧ (∀ m ∈ image.matchers, m.Storable) ∧
      Countable64 image.splits.length ∧ (∀ list ∈ image.splits, Countable64 list.length) ∧
      Countable64 image.code.length)
    ⟨fun ⟨hprocs, hfloats, hmatchers, heach, hsplits, hbranches, hcode⟩ =>
        ⟨hprocs, hfloats, hmatchers, heach, hsplits, hbranches, hcode⟩,
      fun h => ⟨h.procs, h.floats, h.matchers, h.each, h.splits, h.branches, h.code⟩⟩

namespace Codec

theorem restores_pattern {p : NamePattern} (h : p.Storable) : Restores getPattern putPattern p := by
  intro rest
  cases p with
  | literal name =>
    have hchoice : getWord (putVarint 0 ++ (putText name ++ rest)) = .ok (0, putText name ++ rest) :=
      restores_word 0 _
    rw [putPattern, List.append_assoc, getPattern, hchoice]
    show (getText (putText name ++ rest) >>= _) = _
    rw [restores_text h]
    rfl
  | regex source =>
    have hchoice : getWord (putVarint 1 ++ (putText source ++ rest)) = .ok (1, putText source ++ rest) :=
      restores_word 1 _
    rw [putPattern, List.append_assoc, getPattern, hchoice]
    show (getText (putText source ++ rest) >>= _) = _
    rw [restores_text h]
    rfl

theorem restores_words {list : List UInt32} (h : Countable64 list.length) :
    Restores (getList getWord) (putList putWord) list :=
  restores_list h fun w _ => restores_word w

theorem restores_matcher {m : Matcher} (h : m.Storable) : Restores getMatcher putMatcher m := by
  intro rest
  have hpatterns := restores_list h.patterns fun p hp => restores_pattern (h.texts p hp)
  have hcases := restores_list h.cases fun list hlist => restores_words (h.indices list hlist)
  rw [putMatcher, List.append_assoc, getMatcher, hpatterns]
  show (getList (getList getWord) (putList (putList putWord) m.cases ++ rest) >>= _) = _
  rw [hcases]
  rfl

theorem restores_entry (p : ProcEntry) : Restores getEntry putEntry p := by
  intro rest
  rw [putEntry, List.append_assoc, getEntry, restores_word]
  show (getWord (putWord p.entry ++ rest) >>= _) = _
  rw [restores_word]
  rfl

end Codec

namespace Image

open Codec

theorem Storable.load_append {image : Image} (h : image.Storable) (rest : List UInt8) :
    load (image.dump ++ rest) = .ok image := by
  have hprocs := restores_list h.procs fun p _ => restores_entry p
  have hfloats := restores_list h.floats fun x _ => restores_real x
  have hmatchers := restores_list h.matchers fun m hm => restores_matcher (h.each m hm)
  have hsplits := restores_list h.splits fun list hlist => restores_words (h.branches list hlist)
  have hcode := getByteList_append h.code rest
  simp only [dump, List.append_assoc] at hcode ⊢
  simp only [load, hprocs (_ : List UInt8), hfloats (_ : List UInt8), hmatchers (_ : List UInt8),
    hsplits (_ : List UInt8), hcode, bind, Except.bind, pure, Except.pure]

end Image

namespace Executable

/-- A schema that has been compiled, or restored from bytes. -/
inductive Obtained [Regex.Engine] (exe : Executable) : Prop where
  | compiled (c : Constraint) (shareSlots : Bool) (h : c.compile shareSlots = .ok exe)
  | loaded (bytes : List UInt8) (h : load bytes = .ok exe)

theorem image_of_ofImage [Regex.Engine] {image : Image} {exe : Executable} (h : ofImage image = .ok exe) :
    exe.image = image := by
  obtain ⟨ops, -, h⟩ := except_bind_eq_ok.1 h
  cases hdefect : defect? image ops with
  | some e =>
    rw [hdefect] at h
    cases h
  | none =>
    rw [hdefect] at h
    obtain ⟨recognizers, -, h⟩ := except_bind_eq_ok.1 h
    cases h
    rfl

theorem Obtained.ofImage_eq [Regex.Engine] {exe : Executable} (h : exe.Obtained) : ofImage exe.image = .ok exe := by
  have hown : ∀ {image : Image}, ofImage image = .ok exe → ofImage exe.image = .ok exe := by
    intro image himage
    rwa [image_of_ofImage himage]
  cases h with
  | compiled c shareSlots h =>
    obtain ⟨image, -, h⟩ := except_bind_eq_ok.1 h
    exact hown (mapError_eq_ok.1 h)
  | loaded bytes h =>
    obtain ⟨image, -, h⟩ := except_bind_eq_ok.1 h
    exact hown (mapError_eq_ok.1 h)

end Executable

/-- A stored image is read back as it was, whatever stands behind it. So a schema that is stored can be
restored, and judges every document as before. -/
theorem Image.load_dump [Regex.Engine] (image : Image) (h : image.Storable) (rest : List UInt8) :
    Image.load (image.dump ++ rest) = .ok image ∧ ∀ exe : Executable, exe.Obtained → exe.image = image →
      ∃ restored, Executable.load (exe.dump ++ rest) = .ok restored ∧ ∀ fuel document meter,
          restored.validate fuel document meter = exe.validate fuel document meter := by
  have hload := h.load_append rest
  refine ⟨hload, ?_⟩
  rintro exe hexe rfl
  refine ⟨exe, ?_, fun _ _ _ => rfl⟩
  rw [Executable.load, Executable.dump, hload]
  exact mapError_eq_ok.2 hexe.ofImage_eq

/-- An image with a number that is none, the largest word, a length of two bytes, and texts that are
empty or not ASCII. -/
def Image.motley : Image where
  procs := [⟨0xffffffff, 128⟩]
  floats := [⟨0x7ff8000000000001⟩, ⟨0x8000000000000000⟩]
  matchers := [⟨[.regex "é€𝄞", .literal ""], [[0, 1], []]⟩]
  splits := [[], [300, 0]]
  code := List.replicate 200 0xff

/-- The compiled schema that rejects every value, stored and restored. -/
theorem Image.load_dump_rejecting :
    Image.motley.Storable ∧ Image.load (Image.motley.dump ++ [0x80]) = .ok Image.motley ∧
    ∃ exe, Constraint.compile (.not .valid) = .ok exe ∧ exe.image.Storable ∧
      ∃ restored, Executable.load (exe.dump ++ [0x80]) = .ok restored ∧
        restored.validate 20 [0x31] = .status (.invalid .invalidSplitCondition) := by
  have hmotley : Image.motley.Storable := by decide +kernel
  have hchecked := Constraint.exists_compile (show Constraint.toTree (.not .valid) = _ from rfl)
    Session.ofTree_rejectTree (f := fun exe => decide (exe.image.Storable ∧
      exe.validate 20 [0x31] = .status (.invalid .invalidSplitCondition))) (a := true) (by decide +kernel)
  obtain ⟨exe, hexe, hchecked⟩ := hchecked
  obtain ⟨hstorable, hanswer⟩ := of_decide_eq_true hchecked
  obtain ⟨restored, hrestored, hsame⟩ :=
    (Image.load_dump exe.image hstorable [0x80]).2 exe (.compiled _ true hexe) rfl
  exact ⟨hmotley, (Image.load_dump _ hmotley _).1, exe, hexe, hstorable, restored, hrestored,
    (hsame 20 [0x31] .free).trans hanswer⟩

end JsonSieve
