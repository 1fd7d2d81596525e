import JsonSieve.Proofs.Lexer.Sound

/-!
# More of the text

What a lexer answers before the whole text is at hand is what it would answer with the whole text at
hand (`Awaits.next`): a token stays the same token, an error stays the same error, and a lexer that asks
for more has only moved over bytes that it would have moved over anyway. `Same` collects what two lexers
have in common that give the same answers from now on.
-/

namespace JsonSieve.Lexer

/-- The lexer after more of the text; `final` says whether the text ends there. -/
def extend (rest : List UInt8) (final : Bool) (l : Lexer) : Lexer :=
  if final then (l.feed rest).close else l.feed rest

variable {l : Lexer}

theorem extend_open (h : l.closed = false) (rest : List UInt8) (final : Bool) : l.extend rest final =
      { l with pending := l.pending ++ rest, fed := l.fed + rest.length, closed := final } := by
  cases final <;> simp [extend, feed, close, h]

theorem extend_closed (h : l.closed) (rest : List UInt8) (final : Bool) : l.extend rest final = l := by
  cases final <;> simp [extend, feed, close, h]
  cases l
  simp_all

theorem extend_nil (l : Lexer) : l.extend [] false = l := by
  cases hc : l.closed with
  | true => exact extend_closed hc [] false
  | false => simp [extend, feed]

theorem Sound.extend (h : l.Sound) (rest : List UInt8) (final : Bool) : (l.extend rest final).Sound := by
  cases final with
  | false => exact h.feed rest
  | true => exact (h.feed rest).close

section Open

variable {l : Lexer} (ho : l.closed = false) (rest : List UInt8) (final : Bool)

include ho

theorem extend_advance {n : Nat} (hn : n ≤ l.pending.length) :
    (l.extend rest final).advance n = (l.advance n).extend rest final := by
  rw [extend_open ho, extend_open (l := l.advance n) ho]
  simp [advance, List.drop_append_of_le_length hn]

theorem extend_atToken (hat : l.AtToken) (hp : l.pending ≠ []) : (l.extend rest final).AtToken := by
  intro b hb
  rw [extend_open ho] at hb
  refine hat b ?_
  cases hl : l.pending with
  | nil => exact absurd hl hp
  | cons c cs => simpa [hl] using hb

theorem extend_skipBlanks : (l.extend rest final).skipBlanks = (l.skipBlanks.extend rest final).skipBlanks := by
  by_cases hp : l.skipBlanks.pending = []
  · have hall : l.pending.takeWhile isBlank = l.pending := by
      have hsplit := List.takeWhile_append_dropWhile (p := isBlank) (l := l.pending)
      rwa [← skipBlanks_pending, hp, List.append_nil] at hsplit
    have hfirst : (l.pending ++ rest).takeWhile isBlank = l.pending ++ rest.takeWhile isBlank := by
      rw [List.takeWhile_append, hall, if_pos rfl]
    have hlen : l.blanks = l.pending.length := by rw [blanks, hall]
    rw [skipBlanks_eq l, hlen, ← extend_advance ho rest final (Nat.le_refl _)]
    simp only [skipBlanks, extend_open ho, advance, hfirst, List.length_append, List.drop_left,
      ← List.drop_drop, Nat.add_assoc]
  · have hat := extend_atToken (l := l.skipBlanks) ho rest final l.skipBlanks_atToken hp
    rw [hat.skipBlanks, skipBlanks_eq, skipBlanks_eq, ← extend_advance ho rest final (blanks_le l)]
    congr 1
    rw [extend_open ho]
    unfold blanks
    rw [List.takeWhile_append]
    split
    · next heq =>
      refine absurd ?_ hp
      rw [skipBlanks_eq, advance_pending, List.drop_eq_nil_iff]
      exact Nat.le_of_eq heq.symm
    · rfl

end Open

/-! ## Readers -/

/-- What a reader gives for a part of the text against what it gives for more of it: a token and an
error stay, and a reader that asks for more can be run again. -/
def Extends (rest : List UInt8) (final : Bool)
    (reader : Lexer → Except LexError (Lexer × Lexed)) (l : Lexer) : Prop :=
  match reader l with
  | .ok (l', .token t) => reader (l.extend rest final) = .ok (l'.extend rest final, .token t)
  | .ok (l', .needMore) =>
    (∃ n, l' = { l with scanned := n }) ∧ reader (l.extend rest final) = reader (l'.extend rest final)
  | .ok (_, .eof) | .ok (_, .error _) => False
  | .error e => reader (l.extend rest final) = .error e

variable {reader : Lexer → Except LexError (Lexer × Lexed)}

theorem extends_needMore (rest : List UInt8) (final : Bool) (h : reader l = .ok (l, .needMore)) :
    Extends rest final reader l := by
  unfold Extends
  rw [h]
  exact ⟨⟨l.scanned, rfl⟩, rfl⟩

section Readers

variable {l : Lexer} (ho : l.closed = false) (rest : List UInt8) (final : Bool)

include ho

variable {reader : Lexer → Except LexError (Lexer × Lexed)} {b : UInt8}

theorem extends_fail (cause : LexError.Cause) (h : reader l = l.fail cause)
    (hrest : reader (l.extend rest final) = (l.extend rest final).fail cause) :
    Extends rest final reader l := by
  unfold Extends
  rw [h, hrest, extend_open ho]
  rfl

theorem extends_atEnd (h : reader l = l.atEnd) : Extends rest final reader l := by
  refine extends_needMore rest final ?_
  rw [h]
  simp [atEnd, ho]

/-- Setting what is expected and consuming bytes at hand does not depend on the text behind them. -/
theorem extend_token {n : Nat} (hn : n ≤ l.pending.length) (stack : List Container) (expect : Expect) :
    { (l.extend rest final).advance n with stack, expect } =
      ({ l.advance n with stack, expect } : Lexer).extend rest final := by
  rw [extend_advance ho rest final hn, extend_open (l := l.advance n) ho,
    extend_open (l := { l.advance n with stack, expect }) ho]

theorem extend_stack : (l.extend rest final).stack = l.stack := by rw [extend_open ho]

theorem extend_scanned : (l.extend rest final).scanned = l.scanned := by rw [extend_open ho]

theorem extend_pending : (l.extend rest final).pending = l.pending ++ rest := by
  rw [extend_open ho]

theorem extend_offset : (l.extend rest final).offset = l.offset := by rw [extend_open ho]

theorem extend_expect : (l.extend rest final).expect = l.expect := by rw [extend_open ho]

theorem extends_openContainer (c : Container) (hp : l.pending ≠ []) :
    Extends rest final (fun l => .ok (l.openContainer c)) l := by
  have hone : 1 ≤ l.pending.length := List.length_pos_iff.2 hp
  cases c with
  | object =>
    have htoken := extend_token ho rest final hone (.object :: l.stack) .nameOrEnd
    simp only [Extends, openContainer, extend_stack ho]
    exact congrArg (fun k => Except.ok (k, Lexed.token .objectBegin)) htoken
  | array =>
    have htoken := extend_token ho rest final hone (.array :: l.stack) .itemOrEnd
    simp only [Extends, openContainer, extend_stack ho]
    exact congrArg (fun k => Except.ok (k, Lexed.token .arrayBegin)) htoken

theorem extend_valueDone {n : Nat} (hn : n ≤ l.pending.length) (stack : List Container) :
    { (l.extend rest final).advance n with stack }.valueDone =
      ({ l.advance n with stack } : Lexer).valueDone.extend rest final :=
  extend_token ho rest final hn stack (if stack.isEmpty then .done else .commaOrEnd)

theorem extends_closeContainer (c : Container) (hp : l.pending ≠ []) :
    Extends rest final (fun l => l.closeContainer c) l := by
  have hone : 1 ≤ l.pending.length := List.length_pos_iff.2 hp
  cases hstack : l.stack with
  | nil =>
    refine extends_fail ho rest final .mismatchedBracket ?_ ?_
    · simp only [closeContainer, hstack]
    · simp only [closeContainer, extend_stack ho, hstack]
  | cons top stack =>
    by_cases hc : top = c
    · simp only [Extends, closeContainer, extend_stack ho, hstack, hc, if_true]
      rw [extend_valueDone ho rest final hone stack]
    · refine extends_fail ho rest final .mismatchedBracket ?_ ?_
      · simp only [closeContainer, hstack, hc, if_false]
      · simp only [closeContainer, extend_stack ho, hstack, hc, if_false]

omit ho in
theorem matchWord_append : ∀ {word bytes : List UInt8}, matchWord word bytes ≠ .part →
    matchWord word (bytes ++ rest) = matchWord word bytes
  | [], _, _ => rfl
  | _ :: _, [], h => absurd rfl h
  | w :: word, b :: bytes, h => by
    simp only [matchWord, List.cons_append] at h ⊢
    split
    · next heq => exact matchWord_append (by simpa [heq] using h)
    · rfl

theorem extends_readWord (word : List UInt8) (t : Token) : Extends rest final (fun l => l.readWord word t) l := by
  cases hm : matchWord word l.pending with
  | full =>
    have hrest := (matchWord_append rest (by rw [hm]; decide)).trans hm
    simp only [Extends, readWord, extend_pending ho, hm, hrest]
    rw [show ((l.extend rest final).advance word.length).valueDone = _ from
      extend_valueDone ho rest final (matchWord_full_length hm) (l.extend rest final).stack, extend_stack ho]
    rfl
  | part =>
    refine extends_needMore rest final ?_
    simp [readWord, hm, ho]
  | differs =>
    have hrest := (matchWord_append rest (by rw [hm]; decide)).trans hm
    refine extends_fail ho rest final .invalidLiteral ?_ ?_
    · simp only [readWord, hm]
    · simp only [readWord, extend_pending ho, hrest]

theorem extends_readNumber : Extends rest final readNumber l := by
  by_cases hend : l.pending.dropWhile isNumberByte = []
  · refine extends_needMore rest final ?_
    simp [readNumber, List.span_eq_takeWhile_dropWhile, hend, ho]
  · have htake : (l.pending ++ rest).takeWhile isNumberByte = l.pending.takeWhile isNumberByte := by
      rw [List.takeWhile_append, if_neg]
      intro hlen
      refine hend ?_
      rw [← drop_takeWhile_length, hlen, List.drop_length]
    have hdrop : (l.pending ++ rest).dropWhile isNumberByte = l.pending.dropWhile isNumberByte ++ rest := by
      rw [List.dropWhile_append, if_neg (by simpa using hend)]
    have hlen := (List.takeWhile_sublist isNumberByte (l := l.pending)).length_le
    have hne : (l.pending.dropWhile isNumberByte).isEmpty = false := by simpa using hend
    have hne' : (l.pending.dropWhile isNumberByte ++ rest).isEmpty = false := by
      simp [hend]
    cases hparse : Literal.parse? (l.pending.takeWhile isNumberByte) with
    | some literal =>
      simp only [Extends, readNumber, List.span_eq_takeWhile_dropWhile, extend_pending ho, htake,
        hdrop, hne, hne', hparse, Bool.false_and, Bool.false_eq_true, if_false]
      rw [show ((l.extend rest final).advance _).valueDone = _ from
        extend_valueDone ho rest final hlen (l.extend rest final).stack, extend_stack ho]
      rfl
    | none =>
      refine extends_fail ho rest final .malformedNumber ?_ ?_
      · simp [readNumber, List.span_eq_takeWhile_dropWhile, hne, hparse]
      · simp [readNumber, List.span_eq_takeWhile_dropWhile, extend_pending ho, htake, hdrop, hend, hparse]

theorem extends_readString {inside : List UInt8} (hp : l.pending = 0x22 :: inside)
    (hscan : l.scanned ≤ inside.length) : Extends rest final readString l := by
  have hbound := scan_bound (inside.drop l.scanned) l.scanned
  rw [List.length_drop] at hbound
  have hp' : (l.extend rest final).pending = 0x22 :: (inside ++ rest) := by
    rw [extend_pending ho, hp, List.cons_append]
  have hsearch : (inside ++ rest).drop l.scanned = inside.drop l.scanned ++ rest :=
    List.drop_append_of_le_length hscan
  have happend := scan_append l.scanned (inside.drop l.scanned) rest
  unfold Extends
  rw [readString_eq hp, readString_eq hp', extend_scanned ho, hsearch, happend]
  cases hs : scan l.scanned (inside.drop l.scanned) with
  | unfinished count =>
    rw [hs] at hbound
    simp only at hbound ⊢
    rw [if_neg (by rw [ho]; decide)]
    refine ⟨⟨count, rfl⟩, ?_⟩
    have hagain : ({ l with scanned := count }.extend rest final).pending = 0x22 :: (inside ++ rest) := by
      rw [extend_pending (by exact ho), hp, List.cons_append]
    rw [readString_eq hagain, extend_scanned (by exact ho), List.drop_drop,
      show l.scanned + (count - l.scanned) = count by omega,
      show (inside ++ rest).drop count = inside.drop count ++ rest from
        List.drop_append_of_le_length (by omega)]
    rw [extend_open ho, extend_open (by exact ho)]
    rfl
  | closed count =>
    rw [hs] at hbound
    simp only at hbound ⊢
    rw [List.take_append_of_le_length (by omega), extend_offset ho]
    cases stringText (l.offset + 1) (inside.take count) with
    | error e => rfl
    | ok text =>
      have hlen : count + 2 ≤ l.pending.length := by
        rw [hp, List.length_cons]
        omega
      simp only
      rw [extend_advance ho rest final hlen, extend_open (l := l.advance (count + 2)) ho,
        extend_open (l := { l.advance (count + 2) with scanned := 0 }) ho]

omit ho in
/-- Changing what is expected behind a token does not depend on the text behind it. -/
theorem extends_onToken
    (h : Extends rest final reader l) (hopen : ∀ k t, reader l = .ok (k, .token t) → k.closed = false)
    (f : Lexer → Lexer)
    (hf : ∀ k : Lexer, k.closed = false → f (k.extend rest final) = (f k).extend rest final) :
    Extends rest final (fun l => onToken f <$> reader l) l := by
  unfold Extends at h ⊢
  dsimp only
  rcases hr : reader l with e | ⟨k, answer⟩
  · rw [hr] at h
    show onToken f <$> reader _ = _
    rw [h]
    rfl
  · rw [hr] at h
    cases answer with
    | token t =>
      show onToken f <$> reader _ = _
      rw [h]
      exact congrArg (fun k => Except.ok (k, Lexed.token t)) (hf k (hopen k t hr))
    | needMore => exact ⟨h.1, congrArg (onToken f <$> ·) h.2⟩
    | eof => exact h
    | error e => exact h

omit ho in
theorem valueDone_extend {k : Lexer} (hk : k.closed = false) :
    (k.extend rest final).valueDone = k.valueDone.extend rest final := by
  rw [extend_open hk, extend_open (l := k.valueDone) hk]
  rfl

omit ho in
theorem expect_extend (expect : Expect) {k : Lexer} (hk : k.closed = false) :
    { k.extend rest final with expect } = ({ k with expect } : Lexer).extend rest final := by
  rw [extend_open hk, extend_open (l := { k with expect }) hk]

theorem extend_cons {tail : List UInt8} (hp : l.pending = b :: tail) :
    (l.extend rest final).pending = b :: (tail ++ rest) := by
  rw [extend_pending ho, hp, List.cons_append]

theorem extends_onString (hs : l.Sound) {inside : List UInt8} (hp : l.pending = 0x22 :: inside) (f : Lexer → Lexer)
    (hf : ∀ k : Lexer, k.closed = false → f (k.extend rest final) = (f k).extend rest final) :
    Extends rest final (fun l => onToken f <$> l.readString) l := by
  have hscan : l.scanned ≤ inside.length := (hs.passed hp).le
  refine extends_onToken rest final (extends_readString ho rest final hp hscan) ?_ f hf
  intro k t hk
  rw [readString_eq hp] at hk
  split at hk
  · split at hk <;> cases hk
  · split at hk <;> cases hk
    exact ho

/-- A reader that looks at the first byte only does what the reader for that byte does. -/
theorem extends_congr {other : Lexer → Except LexError (Lexer × Lexed)} {tail : List UInt8} (hp : l.pending = b :: tail)
    (hother : ∀ (k : Lexer) (tail : List UInt8), k.pending = b :: tail → reader k = other k)
    (h : Extends rest final other l) : Extends rest final reader l := by
  unfold Extends at h ⊢
  rw [hother l tail hp, hother _ _ (extend_cons ho rest final hp)]
  rcases hr : other l with e | ⟨k, answer⟩
  · rw [hr] at h
    exact h
  · rw [hr] at h
    cases answer with
    | token t => exact h
    | needMore =>
      obtain ⟨⟨n, rfl⟩, hagain⟩ := h
      refine ⟨⟨n, rfl⟩, ?_⟩
      rw [hother _ (tail ++ rest)]
      · exact hagain
      · exact extend_cons (by exact ho) rest final (by exact hp)
    | eof => exact h
    | error e => exact h

theorem extends_readValue (hs : l.Sound) : Extends rest final readValue l := by
  cases hp : l.pending with
  | nil =>
    refine extends_atEnd ho rest final ?_
    simp only [readValue, hp]
  | cons b tail =>
    have hne : l.pending ≠ [] := by simp [hp]
    by_cases h7b : b = 0x7b
    · refine extends_congr ho rest final hp ?_ (extends_openContainer ho rest final .object hne)
      intro k t hk
      simp only [readValue, hk, h7b, if_true]
    by_cases h5b : b = 0x5b
    · refine extends_congr ho rest final hp ?_ (extends_openContainer ho rest final .array hne)
      intro k t hk
      simp [readValue, hk, h5b]
    by_cases h22 : b = 0x22
    · refine extends_congr ho rest final hp ?_
        (extends_onString ho rest final hs (h22 ▸ hp) valueDone fun k => valueDone_extend rest final)
      intro k t hk
      simp [readValue, hk, h22]
    by_cases h74 : b = 0x74
    · refine extends_congr ho rest final hp ?_ (extends_readWord ho rest final [0x74, 0x72, 0x75, 0x65] .true)
      intro k t hk
      simp [readValue, hk, h74]
    by_cases h66 : b = 0x66
    · refine extends_congr ho rest final hp ?_ (extends_readWord ho rest final [0x66, 0x61, 0x6c, 0x73, 0x65] .false)
      intro k t hk
      simp [readValue, hk, h66]
    by_cases h6e : b = 0x6e
    · refine extends_congr ho rest final hp ?_ (extends_readWord ho rest final [0x6e, 0x75, 0x6c, 0x6c] .null)
      intro k t hk
      simp [readValue, hk, h6e]
    by_cases hnum : b = 0x2d ∨ Literal.isDigit b
    · refine extends_congr ho rest final hp ?_ (extends_readNumber ho rest final)
      intro k t hk
      simp [readValue, hk, h7b, h5b, h22, h74, h66, h6e, hnum]
    · have hfail : ∀ (k : Lexer) (t : List UInt8), k.pending = b :: t →
          k.readValue = k.fail (.unexpectedCharacter b) := by
        intro k t hk
        simp [readValue, hk, h7b, h5b, h22, h74, h66, h6e, hnum]
      exact extends_fail ho rest final _ (hfail l tail hp) (hfail _ _ (extend_cons ho rest final hp))

theorem extends_readName (hs : l.Sound) : Extends rest final readName l := by
  cases hp : l.pending with
  | nil =>
    refine extends_atEnd ho rest final ?_
    simp only [readName, hp]
  | cons b tail =>
    by_cases h22 : b = 0x22
    · refine extends_congr ho rest final hp ?_
        (extends_onString ho rest final hs (h22 ▸ hp) ({ · with expect := .colon }) fun k =>
          expect_extend rest final .colon)
      intro k t hk
      simp [readName, hk, h22]
    · have hfail : ∀ (k : Lexer) (t : List UInt8), k.pending = b :: t → k.readName = k.fail .expectedName := by
        intro k t hk
        simp [readName, hk, h22]
      exact extends_fail ho rest final _ (hfail l tail hp) (hfail _ _ (extend_cons ho rest final hp))

end Readers

/-! ## Answers -/

/-- What is read of a part of the text against what is read of more of it. -/
def Continues (rest : List UInt8) (final : Bool) (part whole : Except LexError (Lexer × Lexed)) :
    Prop :=
  match part with
  | .ok (l', .token t) => whole = .ok (l'.extend rest final, .token t)
  | .ok (l', .needMore) => whole = (l'.extend rest final).read
  | .ok (_, .eof) | .ok (_, .error _) => False
  | .error e => whole = .error e

theorem Extends.continues {rest : List UInt8} {final : Bool} (h : Extends rest final reader l)
    (hagain : ∀ n, reader (({ l with scanned := n } : Lexer).extend rest final) =
      (({ l with scanned := n } : Lexer).extend rest final).read) :
    Continues rest final (reader l) (reader (l.extend rest final)) := by
  unfold Extends at h
  unfold Continues
  rcases hr : reader l with e | ⟨k, answer⟩
  · rw [hr] at h
    exact h
  · rw [hr] at h
    cases answer with
    | token t => exact h
    | needMore =>
      obtain ⟨⟨n, rfl⟩, hrest⟩ := h
      exact hrest.trans (hagain n)
    | eof => exact h
    | error e => exact h

section Reading

variable {l : Lexer} (ho : l.closed = false) (rest : List UInt8) (final : Bool)

include ho

variable {reader : Lexer → Except LexError (Lexer × Lexed)}

/-- A lexer that stands at a byte reads the same behind any more text. -/
theorem read_extend_here {b : UInt8} {tail : List UInt8} (hp : l.pending = b :: tail) (hat : l.AtToken)
    (hreader : ∀ (k : Lexer) (t : List UInt8), k.pending = b :: t → k.expect = l.expect →
      k.stack = l.stack → k.readHere = reader k) (h : Extends rest final reader l) :
    Continues rest final l.readHere (l.extend rest final).readHere := by
  have hagain : ∀ n, reader (({ l with scanned := n } : Lexer).extend rest final) =
      (({ l with scanned := n } : Lexer).extend rest final).read := by
    intro n
    have hat' : (({ l with scanned := n } : Lexer).extend rest final).AtToken :=
      extend_atToken (by exact ho) rest final (by exact hat) (by simp [hp])
    rw [read_eq, hat'.skipBlanks, hreader _ (tail ++ rest)]
    · exact extend_cons (by exact ho) rest final (by exact hp)
    · exact extend_expect (by exact ho) rest final
    · exact extend_stack (by exact ho) rest final
  rw [hreader l tail hp rfl rfl, hreader _ _ (extend_cons ho rest final hp)
    (extend_expect ho rest final) (extend_stack ho rest final)]
  exact h.continues hagain

/-- Behind a separator, too. If nothing stands behind it yet, the separator is not read again. -/
theorem read_extend_separator {b : UInt8} {tail : List UInt8} (hs : l.Sound)
    (hp : l.pending = b :: tail) (hscan : l.scanned = 0) (expect : Expect)
    (hreader : ∀ k : Lexer, k.expect = expect → k.readHere = reader k)
    (hempty : ∀ k : Lexer, k.pending = [] → reader k = k.atEnd)
    (hextends : ∀ k : Lexer, k.closed = false → k.Sound → Extends rest final reader k) :
    Continues rest final (l.afterSeparator expect reader)
      ((l.extend rest final).afterSeparator expect reader) := by
  have hone : 1 ≤ l.pending.length := by simp [hp]
  let k : Lexer := { l.advance 1 with expect }
  have hk : k.closed = false := ho
  have hmove : { (l.extend rest final).advance 1 with expect } = k.extend rest final := by
    rw [extend_advance ho rest final hone, extend_open (l := l.advance 1) ho, extend_open hk]
  have hsound : k.Sound := ⟨advance_fed_eq hs.fed_eq hone, .inl hscan⟩
  have hagain : (k.skipBlanks.extend rest final).read = reader (k.skipBlanks.extend rest final).skipBlanks :=
    hreader _ (extend_expect (l := k.skipBlanks) hk rest final)
  unfold afterSeparator
  rw [hmove, extend_skipBlanks hk]
  show Continues rest final (reader k.skipBlanks) _
  cases hempty' : k.skipBlanks.pending with
  | nil =>
    have hopen : k.skipBlanks.atEnd = .ok (k.skipBlanks, .needMore) := by
      simp [atEnd, show k.skipBlanks.closed = false from hk]
    rw [hempty _ hempty', hopen]
    exact hagain.symm
  | cons c cs =>
    have hne : k.skipBlanks.pending ≠ [] := by simp [hempty']
    have hat := extend_atToken (l := k.skipBlanks) hk rest final k.skipBlanks_atToken hne
    rw [hat.skipBlanks]
    refine (hextends k.skipBlanks hk hsound.skipBlanks).continues fun n => ?_
    have hat' : (({ k.skipBlanks with scanned := n } : Lexer).extend rest final).AtToken :=
      extend_atToken (by exact hk) rest final (by exact k.skipBlanks_atToken) (by exact hne)
    rw [read_eq, hat'.skipBlanks, hreader]
    exact extend_expect (by exact hk) rest final

variable {k : Lexer}

omit ho in
theorem readValue_nil (hk : k.pending = []) : k.readValue = k.atEnd := by
  simp only [readValue, hk]

omit ho in
theorem readName_nil (hk : k.pending = []) : k.readName = k.atEnd := by
  simp only [readName, hk]

omit ho in
theorem readHere_of_value (hk : k.expect = .value) : k.readHere = k.readValue := by
  simp only [readHere, hk]
  cases hkp : k.pending <;> simp [readValue, hkp]

omit ho in
theorem readHere_of_name (hk : k.expect = .name) : k.readHere = k.readName := by
  simp only [readHere, hk]
  cases hkp : k.pending <;> simp [readName, hkp]

theorem readHere_extend (hs : l.Sound) (hat : l.AtToken) (hne : l.pending ≠ []) :
    Continues rest final l.readHere (l.extend rest final).readHere := by
  obtain ⟨b, tail, hp⟩ := List.exists_cons_of_ne_nil hne
  have hfail : ∀ cause, (∀ (k : Lexer) (t : List UInt8), k.pending = b :: t →
      k.expect = l.expect → k.stack = l.stack → k.readHere = k.fail cause) →
      Continues rest final l.readHere (l.extend rest final).readHere := fun cause hreader =>
    read_extend_here ho rest final hp hat hreader (extends_fail ho rest final cause rfl rfl)
  have hclose : ∀ c, (∀ (k : Lexer) (t : List UInt8), k.pending = b :: t →
      k.expect = l.expect → k.stack = l.stack → k.readHere = k.closeContainer c) →
      Continues rest final l.readHere (l.extend rest final).readHere := fun c hreader =>
    read_extend_here ho rest final hp hat hreader (extends_closeContainer ho rest final c hne)
  have hvalue : (∀ (k : Lexer) (t : List UInt8), k.pending = b :: t →
      k.expect = l.expect → k.stack = l.stack → k.readHere = k.readValue) →
      Continues rest final l.readHere (l.extend rest final).readHere := fun hreader =>
    read_extend_here ho rest final hp hat hreader (extends_readValue ho rest final hs)
  have hname : (∀ (k : Lexer) (t : List UInt8), k.pending = b :: t →
      k.expect = l.expect → k.stack = l.stack → k.readHere = k.readName) →
      Continues rest final l.readHere (l.extend rest final).readHere := fun hreader =>
    read_extend_here ho rest final hp hat hreader (extends_readName ho rest final hs)
  -- A separator is consumed before the rest is read, so it needs the lemma of its own.
  have hafter : ∀ expect reader, takesString l.expect = false →
      (∀ k : Lexer, k.expect = expect → k.readHere = reader k) →
      (∀ k : Lexer, k.pending = [] → reader k = k.atEnd) →
      (∀ k : Lexer, k.closed = false → k.Sound → Extends rest final reader k) →
      (∀ (k : Lexer) (t : List UInt8), k.pending = b :: t → k.expect = l.expect →
        k.stack = l.stack → k.readHere = k.afterSeparator expect reader) →
      Continues rest final l.readHere (l.extend rest final).readHere := by
    intro expect reader hstring hreader hempty hextends hsep
    rw [hsep l tail hp rfl rfl, hsep _ _ (extend_cons ho rest final hp)
      (extend_expect ho rest final) (extend_stack ho rest final)]
    exact read_extend_separator ho rest final hs hp (hs.scanned_eq_zero_of_expect hstring) expect
      hreader hempty hextends
  have hafterValue := fun hstring => hafter .value readValue hstring
    (fun _ => readHere_of_value) (fun _ => readValue_nil)
    (fun _ hk => extends_readValue hk rest final)
  have hafterName := fun hstring => hafter .name readName hstring (fun _ => readHere_of_name) (fun _ => readName_nil)
    (fun _ hk => extends_readName hk rest final)
  cases he : l.expect with
  | done => exact hfail .trailing fun k t hk hke _ => by simp [readHere, hk, hke, he]
  | colon =>
    by_cases hb : b = 0x3a
    · refine hafterValue (by rw [he]; rfl) fun k t hk hke _ => ?_
      simp [readHere, hk, hke, he, hb]
    · exact hfail .expectedColon fun k t hk hke _ => by simp [readHere, hk, hke, he, hb]
  | commaOrEnd =>
    by_cases hb : b = 0x2c
    · by_cases hstack : l.stack.head? = some .object
      · obtain ⟨outer, ho'⟩ : ∃ outer, l.stack = .object :: outer := by
          cases hl : l.stack with
          | nil => simp [hl] at hstack
          | cons c outer => exact ⟨outer, by simpa [hl] using hstack⟩
        refine hafterName (by rw [he]; rfl) fun k t hk hke hks => ?_
        simp [readHere, hk, hke, he, hb, hks, ho']
      · refine hafterValue (by rw [he]; rfl) fun k t hk hke hks => ?_
        cases hl : l.stack with
        | nil => simp [readHere, hk, hke, he, hb, hks, hl]
        | cons c outer =>
          cases c with
          | object => simp [hl] at hstack
          | array => simp [readHere, hk, hke, he, hb, hks, hl]
    by_cases h7d : b = 0x7d
    · exact hclose .object fun k t hk hke _ => by simp [readHere, hk, hke, he, h7d]
    by_cases h5d : b = 0x5d
    · exact hclose .array fun k t hk hke _ => by simp [readHere, hk, hke, he, h5d]
    · exact hfail .expectedComma fun k t hk hke _ => by simp [readHere, hk, hke, he, hb, h7d, h5d]
  | itemOrEnd =>
    by_cases h5d : b = 0x5d
    · exact hclose .array fun k t hk hke _ => by simp [readHere, hk, hke, he, h5d]
    · exact hvalue fun k t hk hke _ => by simp [readHere, hk, hke, he, h5d]
  | nameOrEnd =>
    by_cases h7d : b = 0x7d
    · exact hclose .object fun k t hk hke _ => by simp [readHere, hk, hke, he, h7d]
    · exact hname fun k t hk hke _ => by simp [readHere, hk, hke, he, h7d]
  | name => exact hname fun k t hk hke _ => by simp [readHere, hk, hke, he]
  | value => exact hvalue fun k t hk hke _ => by simp [readHere, hk, hke, he]

theorem read_extend (hs : l.Sound) : Continues rest final l.read (l.extend rest final).read := by
  have hskip : (l.extend rest final).read = (l.skipBlanks.extend rest final).read := by
    rw [read_eq, read_eq, extend_skipBlanks ho]
  by_cases hp : l.skipBlanks.pending = []
  · have hend : l.read = .ok (l.skipBlanks, .needMore) := by
      simp [read_eq, readHere, hp, atEnd, show l.skipBlanks.closed = false from ho]
    rw [hend]
    exact hskip
  · have hat := extend_atToken (l := l.skipBlanks) ho rest final l.skipBlanks_atToken hp
    rw [hskip, read_eq, read_eq, hat.skipBlanks]
    exact readHere_extend (l := l.skipBlanks) ho rest final hs.skipBlanks l.skipBlanks_atToken hp

end Reading

/-! ## Lexers that give the same answers -/

/-- Both have failed alike, and both answer alike. A lexer that fails does not move, so that two of
them need not have the same bytes left. -/
def Same (a b : Lexer) : Prop :=
  a.failed = b.failed ∧ (a.next = b.next ∨ ∃ e, a.next.2 = .error e ∧ b.next.2 = .error e)

namespace Same

theorem refl (a : Lexer) : Same a a := ⟨rfl, .inl rfl⟩

theorem trans {a b c : Lexer} (hab : Same a b) (hbc : Same b c) : Same a c := by
  refine ⟨hab.1.trans hbc.1, ?_⟩
  rcases hab.2 with hnext | ⟨e, ha, hb⟩
  · rw [hnext]
    exact hbc.2
  · rcases hbc.2 with hnext | ⟨e', hb', hc⟩
    · exact .inr ⟨e, ha, hnext ▸ hb⟩
    · rw [hb] at hb'
      cases hb'
      exact .inr ⟨e, ha, hc⟩

theorem answer_eq {a b : Lexer} (h : Same a b) : a.next.2 = b.next.2 := by
  rcases h.2 with hnext | ⟨e, ha, hb⟩
  · rw [hnext]
  · rw [ha, hb]

end Same

theorem next_of_failed {e : LexError} (h : l.failed = some e) : l.next = (l, .error e) := by
  simp only [next, h]

/-- Lexers that answer alike still answer alike afterwards. -/
theorem Same.next {a b : Lexer} (ha : a.Sound) (hb : b.Sound) (h : Same a b) : Same a.next.1 b.next.1 := by
  rcases h.2 with hnext | ⟨e, hae, hbe⟩
  · rw [hnext]
    exact refl _
  · have hfa := next_failed ha hae
    have hfb := next_failed hb hbe
    refine ⟨hfa.trans hfb.symm, .inr ⟨e, ?_, ?_⟩⟩
    · rw [next_of_failed hfa]
    · rw [next_of_failed hfb]

theorem Same.of_read {a b : Lexer} (ha : a.failed = none) (hb : b.failed = none) (h : a.read = b.read) : Same a b := by
  refine ⟨ha.trans hb.symm, ?_⟩
  rw [next_eq ha, next_eq hb, h]
  cases b.read with
  | ok answer => exact .inl rfl
  | error e => exact .inr ⟨e, rfl, rfl⟩

theorem extend_failed (l : Lexer) (rest : List UInt8) (final : Bool) : (l.extend rest final).failed = l.failed := by
  cases hc : l.closed with
  | true => rw [extend_closed hc]
  | false => rw [extend_open hc]

/-- The lexer `b` answers now what `a` will answer when the rest of the text has come. -/
structure Awaits (rest : List UInt8) (final : Bool) (a b : Lexer) : Prop where
  sound_left : a.Sound
  sound_right : b.Sound
  same : Same (a.extend rest final) b

namespace Awaits

variable {rest : List UInt8} {final : Bool} {a b : Lexer}

theorem extended (h : a.Sound) : Awaits rest final a (a.extend rest final) :=
  ⟨h, h.extend rest final, Same.refl _⟩

theorem failed_eq (h : Awaits rest final a b) : a.failed = b.failed :=
  (extend_failed a rest final).symm.trans h.same.1

/-- Lexers that answer alike now, and the one on the left has the whole text. -/
theorem of_same (ha : a.Sound) (hb : b.Sound) (hclosed : a.closed) (h : Same a b) : Awaits rest final a b :=
  ⟨ha, hb, by rw [extend_closed hclosed]; exact h⟩

theorem next (h : Awaits rest final a b) : if a.next.2 = .needMore then Awaits rest final a.next.1 b
    else b.next.2 = a.next.2 ∧ Awaits rest final a.next.1 b.next.1 := by
  have hsa := h.sound_left.next
  have hsb := h.sound_right.next
  cases hclosed : a.closed with
  | true =>
    have hsame : Same a b := by
      have := h.same
      rwa [extend_closed hclosed] at this
    rw [if_neg (next_ne_needMore h.sound_left hclosed)]
    refine ⟨hsame.answer_eq.symm, of_same hsa hsb ?_ (hsame.next h.sound_left h.sound_right)⟩
    rw [next_closed h.sound_left, hclosed]
  | false =>
    cases hf : a.failed with
    | some e =>
      have hfb := h.failed_eq.symm.trans hf
      rw [next_of_failed hf, next_of_failed hfb]
      exact ⟨rfl, h⟩
    | none =>
      have hfe : (a.extend rest final).failed = none := (extend_failed a rest final).trans hf
      have hread := read_extend hclosed rest final h.sound_left
      have hanswer := h.same.answer_eq
      have hafter := h.same.next (h.sound_left.extend rest final) h.sound_right
      rw [next_eq hfe] at hanswer hafter
      rw [next_eq hf] at hsa ⊢
      rcases hr : a.read with e | ⟨a', answer⟩
      · rw [hr] at hread
        rw [show (a.extend rest final).read = .error e from hread] at hanswer hafter
        rw [hr] at hsa
        refine ⟨hanswer.symm, hsa, hsb, ?_⟩
        have herror : ({ a with failed := some e } : Lexer).extend rest final =
            { a.extend rest final with failed := some e } := by
          rw [extend_open hclosed, extend_open (by exact hclosed)]
        rw [herror]
        exact hafter
      · rw [hr] at hread hsa
        cases answer with
        | token t =>
          rw [show (a.extend rest final).read = _ from hread] at hanswer hafter
          exact ⟨hanswer.symm, hsa, hsb, hafter⟩
        | needMore =>
          have hfa' : (a'.extend rest final).failed = none :=
            (extend_failed a' rest final).trans (((reads_read h.sound_left).given _ _ hr).failed.trans hf)
          exact ⟨hsa, h.sound_right, (Same.of_read hfa' hfe hread.symm).trans h.same⟩
        | eof => exact absurd hread id
        | error e => exact absurd hread id

theorem feed {bytes : List UInt8} (h : Awaits (bytes ++ rest) final a b) : Awaits rest final (a.feed bytes) b := by
  refine ⟨h.sound_left.feed bytes, h.sound_right, ?_⟩
  have heq : (a.feed bytes).extend rest final = a.extend (bytes ++ rest) final := by
    cases hc : a.closed with
    | true => simp only [Lexer.feed, hc, if_true, extend_closed hc]
    | false =>
      rw [extend_open hc, extend_open (by simp [Lexer.feed, hc])]
      simp [Lexer.feed, hc, Nat.add_assoc]
  rw [heq]
  exact h.same

theorem close (h : Awaits [] true a b) : Awaits [] false a.close b := by
  refine ⟨h.sound_left.close, h.sound_right, ?_⟩
  have heq : a.close.extend [] false = a.extend [] true := by
    rw [extend_closed rfl]
    cases hc : a.closed <;> simp [extend, Lexer.feed, Lexer.close, hc]
  rw [heq]
  exact h.same

theorem needMore (h : Awaits [] false a b) (hnext : a.next.2 = .needMore) :
    b.next.2 = .needMore ∧ Awaits [] false a.next.1 b.next.1 := by
  have hsame := h.same
  rw [extend_nil] at hsame
  refine ⟨hsame.answer_eq.symm.trans hnext, h.sound_left.next, h.sound_right.next, ?_⟩
  rw [extend_nil]
  exact hsame.next h.sound_left h.sound_right

end Awaits

end JsonSieve.Lexer
