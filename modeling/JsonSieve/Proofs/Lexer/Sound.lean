import JsonSieve.Json.Lexer
import Mathlib.Data.List.TakeDrop

/-!
# What a lexer keeps true of itself

A lexer accounts for every byte it was fed (`Sound.fed_eq`), and it remembers a position inside a string
literal only while that literal is the next thing to be read (`Sound.resumes`). Every answer keeps both
(`Sound.next`), and every token takes at least one byte (`next_token_lt`), so that the bytes at hand bound
how many tokens there can be.
-/

namespace JsonSieve.Lexer

/-! ## Closing quotes -/

/-- The search for the closing quote goes forward and stays inside the bytes. -/
theorem scan_bound : ∀ (bytes : List UInt8) (count : Nat), match scan count bytes with
    | .closed n => count ≤ n ∧ n < count + bytes.length
    | .unfinished n => count ≤ n ∧ n ≤ count + bytes.length := by
  intro bytes count
  fun_induction scan count bytes with
  | case1 count => simp
  | case2 count rest => simp
  | case3 count => simp
  | case4 count b rest _ ih =>
    revert ih
    cases scan (count + 2) rest <;> simp only [List.length_cons] <;> omega
  | case5 count b rest _ _ ih =>
    revert ih
    cases scan (count + 1) rest <;> simp only [List.length_cons] <;> omega

theorem scan_quote (count : Nat) (tail : List UInt8) : scan count (0x22 :: tail) = .closed count := by
  rw [scan.eq_def]
  rfl

theorem scan_escape (count : Nat) (b : UInt8) (tail : List UInt8) :
    scan count (0x5c :: b :: tail) = scan (count + 2) tail := by
  rw [scan.eq_def]
  rfl

variable {b : UInt8} {n : Nat} {l' : Lexer} {stack : List Container} {t : Token} {rest : List UInt8}

theorem scan_plain (count : Nat) (hquote : b ≠ 0x22) (hback : b ≠ 0x5c) (tail : List UInt8) :
    scan count (b :: tail) = scan (count + 1) tail := by
  rw [scan.eq_def]
  simp only [if_neg hquote, if_neg hback]

/-- The search for the closing quote can stop where the bytes end and go on from there. -/
theorem scan_append (count : Nat) (bytes rest : List UInt8) : scan count (bytes ++ rest) = match scan count bytes with
      | .closed n => .closed n
      | .unfinished n => scan n (bytes.drop (n - count) ++ rest) := by
  fun_induction scan count bytes with
  | case1 count => simp
  | case2 count tail => rw [List.cons_append, scan_quote]
  | case3 count => simp
  | case4 count b tail _ ih =>
    have hbound := scan_bound tail (count + 2)
    rw [List.cons_append, List.cons_append, scan_escape, ih]
    cases hs : scan (count + 2) tail with
    | closed n => rfl
    | unfinished n =>
      rw [hs] at hbound
      simp only at hbound ⊢
      rw [show n - count = (n - (count + 2)) + 2 by omega]
      rfl
  | case5 count b tail hquote hback ih =>
    have hbound := scan_bound tail (count + 1)
    rw [List.cons_append, scan_plain count hquote hback, ih]
    cases hs : scan (count + 1) tail with
    | closed n => rfl
    | unfinished n =>
      rw [hs] at hbound
      simp only at hbound ⊢
      rw [show n - count = (n - (count + 1)) + 1 by omega]
      rfl

/-- The search for the closing quote has passed `n` bytes: behind them it finds what a search of all bytes
finds, whatever follows. -/
structure Passed (inside : List UInt8) (n : Nat) : Prop where
  le : n ≤ inside.length
  same : ∀ more, scan n (inside.drop n ++ more) = scan 0 (inside ++ more)

theorem Passed.zero (inside : List UInt8) : Passed inside 0 := ⟨Nat.zero_le _, fun _ => rfl⟩

theorem Passed.append {inside : List UInt8} (h : Passed inside n) (bytes : List UInt8) :
    Passed (inside ++ bytes) n := by
  refine ⟨by rw [List.length_append]; exact Nat.le_add_right_of_le h.le, fun more => ?_⟩
  rw [List.drop_append_of_le_length h.le, List.append_assoc, List.append_assoc, h.same]

theorem Passed.further {inside : List UInt8} {count : Nat} (h : Passed inside n)
    (hscan : scan n (inside.drop n) = .unfinished count) : Passed inside count := by
  have hle := h.le
  have hbound := scan_bound (inside.drop n) n
  rw [hscan, List.length_drop] at hbound
  simp only at hbound
  refine ⟨by omega, fun more => ?_⟩
  rw [← h.same, scan_append n, hscan]
  dsimp only
  rw [List.drop_drop, Nat.add_sub_cancel' hbound.1]

/-! ## Sound lexers -/

/-- The states in which a string literal can be the next thing to be read. -/
def takesString : Expect → Bool
  | .value | .itemOrEnd | .nameOrEnd | .name => true
  | .colon | .commaOrEnd | .done => false

structure Sound (l : Lexer) : Prop where
  fed_eq : l.fed = l.offset + l.pending.length
  resumes : l.scanned = 0 ∨ (∃ inside, l.pending = 0x22 :: inside ∧ Passed inside l.scanned) ∧ takesString l.expect

/-- The part of `read` behind the blanks. -/
def readHere (l : Lexer) : Except LexError (Lexer × Lexed) :=
  match l.pending with
  | [] => l.atEnd
  | b :: _ =>
    match l.expect with
    | .done => l.fail .trailing
    | .colon => if b = 0x3a then l.afterSeparator .value readValue else l.fail .expectedColon
    | .commaOrEnd =>
      if b = 0x2c then
        match l.stack with
        | .object :: _ => l.afterSeparator .name readName
        | _ => l.afterSeparator .value readValue
      else if b = 0x7d then l.closeContainer .object
      else if b = 0x5d then l.closeContainer .array
      else l.fail .expectedComma
    | .itemOrEnd => if b = 0x5d then l.closeContainer .array else l.readValue
    | .nameOrEnd => if b = 0x7d then l.closeContainer .object else l.readName
    | .name => l.readName
    | .value => l.readValue

theorem read_eq (l : Lexer) : l.read = l.skipBlanks.readHere := rfl

/-! ## Moving on -/

@[simp] theorem advance_pending (l : Lexer) (n : Nat) : (l.advance n).pending = l.pending.drop n := rfl

@[simp] theorem advance_stack (l : Lexer) (n : Nat) : (l.advance n).stack = l.stack := rfl

theorem advance_zero (l : Lexer) : l.advance 0 = l := by
  simp [advance]

variable {l : Lexer} {inside : List UInt8}

theorem advance_fed_eq (h : l.fed = l.offset + l.pending.length) (hn : n ≤ l.pending.length) :
    (l.advance n).fed = (l.advance n).offset + (l.advance n).pending.length := by
  simp only [advance, List.length_drop]
  omega

def blanks (l : Lexer) : Nat := (l.pending.takeWhile isBlank).length

theorem skipBlanks_eq (l : Lexer) : l.skipBlanks = l.advance l.blanks := rfl

theorem drop_takeWhile_length {α : Type} (p : α → Bool) (list : List α) :
    list.drop (list.takeWhile p).length = list.dropWhile p := by
  induction list with
  | nil => rfl
  | cons a rest ih =>
    cases h : p a with
    | true => simpa [h] using ih
    | false => simp [h]

theorem skipBlanks_pending (l : Lexer) : l.skipBlanks.pending = l.pending.dropWhile isBlank :=
  drop_takeWhile_length isBlank l.pending

theorem blanks_le (l : Lexer) : l.blanks ≤ l.pending.length :=
  (List.takeWhile_sublist isBlank).length_le

/-- Behind the blanks there is nothing, or a byte that is no blank. -/
def AtToken (l : Lexer) : Prop := ∀ b ∈ l.pending.head?, isBlank b = false

theorem skipBlanks_atToken (l : Lexer) : l.skipBlanks.AtToken := by
  intro b hb
  rw [skipBlanks_pending] at hb
  have hhead := List.head?_dropWhile_not isBlank l.pending
  rw [Option.mem_def.1 hb] at hhead
  simpa using hhead

theorem AtToken.skipBlanks (h : l.AtToken) : l.skipBlanks = l := by
  have hzero : l.blanks = 0 := by
    unfold blanks
    cases hp : l.pending with
    | nil => rfl
    | cons b rest =>
      have hb : isBlank b = false := h b (by simp [hp])
      simp [hb]
  rw [skipBlanks_eq, hzero, advance_zero]

/-- Skipping blanks keeps a lexer sound: a literal that was begun has no blank in front of it. -/
theorem Sound.skipBlanks (h : l.Sound) : l.skipBlanks.Sound := by
  refine ⟨advance_fed_eq h.fed_eq (blanks_le l), ?_⟩
  rcases h.resumes with hzero | ⟨⟨inside, hp, hle⟩, hexpect⟩
  · exact .inl hzero
  · have hat : l.AtToken := by
      intro b hb
      rw [hp] at hb
      obtain rfl : 0x22 = b := by simpa using hb
      decide
    rw [hat.skipBlanks]
    exact .inr ⟨⟨inside, hp, hle⟩, hexpect⟩

/-! ## Answers -/

/-- By how much the nesting of containers rises with an answer. -/
def rise : Lexed → Int
  | .token t => if t.kind.opens then 1 else if t.kind.closes then -1 else 0
  | _ => 0

/-- A lexer stands between two tokens; a comma can only come inside of a container. -/
def Between (l : Lexer) : Prop := l.scanned = 0 ∧ (l.expect = .commaOrEnd → l.stack ≠ [])

def Means (l l' : Lexer) : Lexed → Prop
  | .token _ => l'.pending.length < l.pending.length ∧ l'.Between
  | .needMore => l.closed = false ∧ l'.pending.length ≤ l.pending.length
  | .eof => l.closed = true ∧ l'.pending = [] ∧ l'.expect = .done ∧ l.expect = .done
  | .error _ => False

/-- What a lexer behind an answer has to do with the lexer that was asked. -/
structure Given (l l' : Lexer) (answer : Lexed) : Prop where
  sound : l'.Sound
  fed : l'.fed = l.fed
  closed : l'.closed = l.closed
  failed : l'.failed = l.failed
  depth : (l'.depth : Int) = l.depth + rise answer
  means : l.Means l' answer

/-- Is the byte one of those that stand between tokens? -/
def isGap (b : UInt8) : Bool := isBlank b || b == 0x3a || b == 0x2c

/-- A lexer stands behind blanks and separators that come next. -/
structure Ahead (l k : Lexer) : Prop where
  fed : k.fed = l.fed
  fed_eq : k.fed = k.offset + k.pending.length
  scanned : k.scanned = l.scanned
  gap : ∃ gap, (∀ b ∈ gap, isGap b = true) ∧ l.pending = gap ++ k.pending

theorem Ahead.trans {k k' : Lexer} (h : l.Ahead k) (h' : k.Ahead k') : l.Ahead k' := by
  obtain ⟨gap, hgap, hpending⟩ := h.gap
  obtain ⟨gap', hgap', hpending'⟩ := h'.gap
  refine ⟨h'.fed.trans h.fed, h'.fed_eq, h'.scanned.trans h.scanned, gap ++ gap',
    List.forall_mem_append.2 ⟨hgap, hgap'⟩, ?_⟩
  rw [hpending, hpending', List.append_assoc]

theorem ahead_skipBlanks (h : l.fed = l.offset + l.pending.length) : l.Ahead l.skipBlanks := by
  refine ⟨rfl, advance_fed_eq h (blanks_le l), rfl, l.pending.takeWhile isBlank, fun b hb => ?_, ?_⟩
  · simp [isGap, List.all_eq_true.1 List.all_takeWhile b hb]
  · rw [skipBlanks_pending, List.takeWhile_append_dropWhile]

/-- The lexer stands at a string literal that is no text. -/
def Refuses (l : Lexer) (offset : Nat) : Prop := ∃ inside count, l.pending = 0x22 :: inside ∧
  scan l.scanned (inside.drop l.scanned) = .closed count ∧
  stringText (l.offset + 1) (inside.take count) = .error ⟨.invalidUtf8, offset⟩

/-- What is read is an answer, or an error; that a literal is no text is an error of the next token. -/
structure Reads (l : Lexer) (r : Except LexError (Lexer × Lexed)) : Prop where
  given : ∀ l' answer, r = .ok (l', answer) → l.Given l' answer
  refused : ∀ offset, r = .error ⟨.invalidUtf8, offset⟩ → ∃ k, l.Ahead k ∧ k.Refuses offset

theorem reads_fail {cause : LexError.Cause} (h : cause ≠ .invalidUtf8) : l.Reads (l.fail cause) where
  given := fun _ _ heq => by cases heq
  refused := fun _ heq => by
    cases heq
    exact absurd rfl h

theorem Given.reads {answer : Lexed} (h : l.Given l' answer) : l.Reads (.ok (l', answer)) where
  given := fun _ _ heq => by
    cases heq
    exact h
  refused := fun _ heq => by cases heq

theorem Reads.mono {k : Lexer} {r : Except LexError (Lexer × Lexed)} (h : k.Reads r)
    (hahead : l.Ahead k) (hclosed : k.closed = l.closed) (hfailed : k.failed = l.failed)
    (hstack : k.stack = l.stack) (hexpect : k.expect = l.expect ∨ k.expect ≠ .done) : l.Reads r := by
  refine ⟨fun l' answer heq => ?_, fun offset heq => ?_⟩
  case refine_2 =>
    obtain ⟨k', hahead', hrefuses⟩ := h.refused offset heq
    exact ⟨k', hahead.trans hahead', hrefuses⟩
  have hle : k.pending.length ≤ l.pending.length := by
    obtain ⟨gap, -, hpending⟩ := hahead.gap
    simp [hpending]
  obtain ⟨hsound, hbytes, hc, hf, hdepth, hmeans⟩ := h.given l' answer heq
  refine ⟨hsound, hbytes.trans hahead.fed, hc.trans hclosed, hf.trans hfailed, by rw [hdepth, depth, depth, hstack], ?_⟩
  cases answer with
  | token => exact ⟨Nat.lt_of_lt_of_le hmeans.1 hle, hmeans.2⟩
  | needMore => exact ⟨hclosed ▸ hmeans.1, Nat.le_trans hmeans.2 hle⟩
  | eof =>
    obtain ⟨hend, hp, hdone, hk⟩ := hmeans
    exact ⟨hclosed ▸ hend, hp, hdone, hexpect.elim (fun heq => heq ▸ hk) fun hne => absurd hk hne⟩
  | error => exact hmeans

theorem reads_needMore (h : l.Sound) (hopen : l.closed = false) : l.Reads (.ok (l, .needMore)) :=
  Given.reads ⟨h, rfl, rfl, rfl, (Int.add_zero _).symm, hopen, Nat.le_refl _⟩

theorem reads_atEnd (h : l.Sound) (hp : l.pending = []) : l.Reads l.atEnd := by
  unfold atEnd
  split
  · next hopen => exact reads_needMore h (by simpa using hopen)
  · next hclosed =>
    split
    · next hdone =>
      exact Given.reads ⟨h, rfl, rfl, rfl, (Int.add_zero _).symm, by simpa using hclosed, hp, hdone, hdone⟩
    · split <;> exact reads_fail (by simp)

/-- A token takes bytes, and behind it the lexer stands between two tokens. -/
theorem reads_token (h : l.Sound) (hscan : l.scanned = 0) (hpos : 0 < n) (hn : n ≤ l.pending.length)
    {expect : Expect} (hdepth : (stack.length : Int) = l.stack.length + rise (.token t))
    (hcomma : expect = .commaOrEnd → stack ≠ []) :
    l.Reads (.ok ({ l.advance n with stack, expect }, .token t)) := by
  refine Given.reads ⟨⟨advance_fed_eq h.fed_eq hn, .inl hscan⟩, rfl, rfl, rfl, hdepth, ?_, hscan, hcomma⟩
  show (l.pending.drop n).length < _
  rw [List.length_drop]
  omega

theorem behind_ne_nil (h : (if stack.isEmpty then Expect.done else .commaOrEnd) = .commaOrEnd) : stack ≠ [] := by
  rintro rfl
  cases h

theorem reads_openContainer (h : l.Sound) (hscan : l.scanned = 0)
    (hp : l.pending ≠ []) (c : Container) : l.Reads (.ok (l.openContainer c)) := by
  have hone : 1 ≤ l.pending.length := List.length_pos_iff.2 hp
  cases c with
  | object => exact reads_token h hscan Nat.one_pos hone rfl (by simp)
  | array => exact reads_token h hscan Nat.one_pos hone rfl (by simp)

theorem reads_closeContainer (h : l.Sound) (hscan : l.scanned = 0)
    (hp : l.pending ≠ []) (c : Container) : l.Reads (l.closeContainer c) := by
  have hone : 1 ≤ l.pending.length := List.length_pos_iff.2 hp
  unfold closeContainer
  split
  · next top stack hstack =>
    split
    · refine reads_token h hscan Nat.one_pos hone ?_ behind_ne_nil
      have hrise : ((top :: stack).length : Int) + -1 = stack.length := by
        rw [List.length_cons]
        omega
      rw [hstack, ← hrise]
      cases c <;> rfl
    · exact reads_fail (by simp)
  · exact reads_fail (by simp)

def Plain (t : Token) : Prop := t.kind.opens = false ∧ t.kind.closes = false

theorem reads_valueDone (h : l.Sound) (hscan : l.scanned = 0) (hpos : 0 < n)
    (hn : n ≤ l.pending.length) (ht : Plain t) : l.Reads (.ok ((l.advance n).valueDone, .token t)) :=
  reads_token h hscan hpos hn (by simp [rise, ht.1, ht.2]) behind_ne_nil

theorem Sound.scanned_eq_zero (h : l.Sound) (hp : l.pending = b :: rest) (hb : b ≠ 0x22) : l.scanned = 0 := by
  rcases h.resumes with hzero | ⟨⟨inside, hq, -⟩, -⟩
  · exact hzero
  · rw [hp] at hq
    exact absurd (List.cons.inj hq).1 hb

theorem Sound.passed (h : l.Sound) (hp : l.pending = 0x22 :: inside) : Passed inside l.scanned := by
  rcases h.resumes with hzero | ⟨⟨inside', hq, hpassed⟩, -⟩
  · rw [hzero]
    exact .zero inside
  · rw [hp] at hq
    rw [(List.cons.inj hq).2]
    exact hpassed

theorem matchWord_full_length : ∀ {word bytes : List UInt8}, matchWord word bytes = .full → word.length ≤ bytes.length
  | [], _, _ => Nat.zero_le _
  | _ :: _, [], h => by simp [matchWord] at h
  | w :: word, b :: bytes, h => by
    simp only [matchWord] at h
    split at h
    · have := matchWord_full_length h
      simp only [List.length_cons]
      omega
    · cases h

theorem reads_readWord (h : l.Sound) (hscan : l.scanned = 0) {word : List UInt8}
    (hword : word ≠ []) (ht : Plain t) : l.Reads (l.readWord word t) := by
  unfold readWord
  split
  · next hfull =>
    exact reads_valueDone h hscan (List.length_pos_iff.2 hword) (matchWord_full_length hfull) ht
  · split
    · exact reads_fail (by simp)
    · next hopen => exact reads_needMore h (by simpa using hopen)
  · exact reads_fail (by simp)

theorem reads_readNumber (h : l.Sound) (hscan : l.scanned = 0)
    (hp : l.pending = b :: rest) (hb : isNumberByte b) : l.Reads l.readNumber := by
  unfold readNumber
  rw [List.span_eq_takeWhile_dropWhile]
  simp only
  split
  · next hopen =>
    simp only [Bool.and_eq_true, Bool.not_eq_true'] at hopen
    exact reads_needMore h hopen.2
  · split
    · have hlen := (List.takeWhile_sublist isNumberByte (l := l.pending)).length_le
      have hpos : 0 < (l.pending.takeWhile isNumberByte).length := by
        simp [hp, hb]
      exact reads_valueDone h hscan hpos hlen ⟨rfl, rfl⟩
    · exact reads_fail (by simp)

theorem readString_eq (hp : l.pending = 0x22 :: inside) : l.readString =
      match scan l.scanned (inside.drop l.scanned) with
      | .unfinished count =>
        if l.closed then l.fail .unterminatedString
        else .ok ({ l with scanned := count }, .needMore)
      | .closed count =>
        match stringText (l.offset + 1) (inside.take count) with
        | .ok text => .ok ({ l.advance (count + 2) with scanned := 0 }, .token (.string text))
        | .error e => .error e := by
  have hinside : l.pending.drop 1 = inside := by rw [hp, List.drop_one, List.tail_cons]
  unfold readString
  simp only [hinside]
  cases scan l.scanned (inside.drop l.scanned) with
  | unfinished count => rfl
  | closed count =>
    dsimp only
    cases stringText (l.offset + 1) (inside.take count) <;> rfl

theorem reads_onString (h : l.Sound) (hp : l.pending = 0x22 :: inside) (hexpect : takesString l.expect)
    (f : Lexer → Lexer) (hf : ∀ k, ∃ expect, f k = { k with expect } ∧ (expect = .commaOrEnd → k.stack ≠ [])) :
    l.Reads (onToken f <$> l.readString) := by
  have hscan := (h.passed hp).le
  have hbound := scan_bound (inside.drop l.scanned) l.scanned
  rw [List.length_drop] at hbound
  rw [readString_eq hp]
  split
  · next count heq =>
    split
    · exact reads_fail (by simp)
    · next hopen =>
      exact Given.reads ⟨⟨h.fed_eq, .inr ⟨⟨inside, hp, (h.passed hp).further heq⟩, hexpect⟩⟩, rfl, rfl, rfl,
        (Int.add_zero _).symm, by simpa using hopen, Nat.le_refl _⟩
  · next count heq =>
    rw [heq] at hbound
    split
    · next text _ =>
      have hlen : count + 2 ≤ l.pending.length := by
        rw [hp, List.length_cons]
        simp only at hbound
        omega
      obtain ⟨expect, he, hcomma⟩ := hf { l.advance (count + 2) with scanned := 0 }
      show l.Reads (.ok (f { l.advance (count + 2) with scanned := 0 }, .token (.string text)))
      rw [he]
      refine Given.reads ⟨⟨advance_fed_eq h.fed_eq hlen, .inl rfl⟩, rfl, rfl, rfl, (Int.add_zero _).symm, ?_,
        rfl, hcomma⟩
      show (l.pending.drop (count + 2)).length < _
      rw [List.length_drop]
      omega
    · next e htext =>
      refine ⟨fun _ _ hok => (by cases hok), fun offset hoffset => ?_⟩
      cases hoffset
      exact ⟨l, ⟨rfl, h.fed_eq, rfl, [], by simp, rfl⟩, inside, count, hp, heq, htext⟩

theorem reads_readValue (h : l.Sound) (hexpect : takesString l.expect) : l.Reads l.readValue := by
  unfold readValue
  split
  · next hp => exact reads_atEnd h hp
  · next b rest hp =>
    have hne : l.pending ≠ [] := by simp [hp]
    by_cases hquote : b = 0x22
    · subst hquote
      simpa using reads_onString h hp hexpect valueDone fun k => ⟨_, rfl, behind_ne_nil⟩
    · have hscan := h.scanned_eq_zero hp hquote
      split
      · exact reads_openContainer h hscan hne _
      split
      · exact reads_openContainer h hscan hne _
      split
      · exact reads_readWord h hscan (by simp) ⟨rfl, rfl⟩
      split
      · exact reads_readWord h hscan (by simp) ⟨rfl, rfl⟩
      split
      · exact reads_readWord h hscan (by simp) ⟨rfl, rfl⟩
      split
      · next hnum =>
        refine reads_readNumber h hscan hp ?_
        simp only [Bool.or_eq_true, decide_eq_true_eq] at hnum
        rcases hnum with rfl | hdigit
        · decide
        · simp [isNumberByte, hdigit]
      · exact reads_fail (by simp)

theorem reads_readName (h : l.Sound) (hexpect : takesString l.expect) : l.Reads l.readName := by
  unfold readName
  split
  · next hp => exact reads_atEnd h hp
  · next b rest hp =>
    split
    · next hquote =>
      subst hquote
      exact reads_onString h hp hexpect _ fun k => ⟨_, rfl, by simp⟩
    · exact reads_fail (by simp)

theorem reads_afterSeparator (h : l.Sound) (hscan : l.scanned = 0) (hp : l.pending = b :: rest) (hb : isGap b = true)
    {expect : Expect} (hdone : expect ≠ .done) {read : Lexer → Except LexError (Lexer × Lexed)}
    (hread : ∀ k : Lexer, k.Sound → k.expect = expect → k.Reads (read k)) :
    l.Reads (l.afterSeparator expect read) := by
  have hone := advance_fed_eq h.fed_eq (n := 1) (by simp [hp])
  have hsound : Sound { l.advance 1 with expect } := ⟨hone, .inl hscan⟩
  have hahead : l.Ahead { l.advance 1 with expect } :=
    ⟨rfl, hone, rfl, [b], by simpa using hb, by simp [advance, hp]⟩
  exact Reads.mono (hread _ hsound.skipBlanks rfl) (hahead.trans (ahead_skipBlanks hone)) rfl rfl rfl (.inr hdone)

theorem Sound.scanned_eq_zero_of_expect (h : l.Sound) (hexpect : takesString l.expect = false) : l.scanned = 0 := by
  rcases h.resumes with hzero | ⟨-, hstring⟩
  · exact hzero
  · rw [hexpect] at hstring
    cases hstring

theorem reads_readHere (h : l.Sound) : l.Reads l.readHere := by
  unfold readHere
  split
  · next hp => exact reads_atEnd h hp
  · next b rest hp =>
    have hne : l.pending ≠ [] := by simp [hp]
    have hvalue : ∀ k : Lexer, k.Sound → k.expect = .value → k.Reads k.readValue :=
      fun k hk he => reads_readValue hk (by rw [he]; rfl)
    have hname : ∀ k : Lexer, k.Sound → k.expect = .name → k.Reads k.readName :=
      fun k hk he => reads_readName hk (by rw [he]; rfl)
    split
    · exact reads_fail (by simp)
    · next he =>
      have hscan := h.scanned_eq_zero_of_expect (by rw [he]; rfl)
      split
      · next hb => exact reads_afterSeparator h hscan hp (by rw [hb]; rfl) (by simp) hvalue
      · exact reads_fail (by simp)
    · next he =>
      have hscan := h.scanned_eq_zero_of_expect (by rw [he]; rfl)
      split
      · next hb =>
        split
        · exact reads_afterSeparator h hscan hp (by rw [hb]; rfl) (by simp) hname
        · exact reads_afterSeparator h hscan hp (by rw [hb]; rfl) (by simp) hvalue
      split
      · exact reads_closeContainer h hscan hne _
      split
      · exact reads_closeContainer h hscan hne _
      · exact reads_fail (by simp)
    · next he =>
      split
      · next hb => exact reads_closeContainer h (h.scanned_eq_zero hp (by simp [hb])) hne _
      · exact reads_readValue h (by rw [he]; rfl)
    · next he =>
      split
      · next hb => exact reads_closeContainer h (h.scanned_eq_zero hp (by simp [hb])) hne _
      · exact reads_readName h (by rw [he]; rfl)
    · next he => exact reads_readName h (by rw [he]; rfl)
    · next he => exact reads_readValue h (by rw [he]; rfl)

theorem reads_read (h : l.Sound) : l.Reads l.read := by
  rw [read_eq]
  exact Reads.mono (reads_readHere h.skipBlanks) (ahead_skipBlanks h.fed_eq) rfl rfl rfl (.inl rfl)

/-! ## Calls -/

theorem Sound.empty : Sound empty := ⟨rfl, .inl rfl⟩

theorem Sound.feed (h : l.Sound) (bytes : List UInt8) : (l.feed bytes).Sound := by
  unfold Lexer.feed
  split
  · exact h
  · refine ⟨?_, ?_⟩
    · simp only [List.length_append, h.fed_eq]
      omega
    · rcases h.resumes with hzero | ⟨⟨inside, hp, hpassed⟩, hexpect⟩
      · exact .inl hzero
      · exact .inr ⟨⟨inside ++ bytes, by simp [hp], hpassed.append bytes⟩, hexpect⟩

theorem Sound.close (h : l.Sound) : l.close.Sound := ⟨h.fed_eq, h.resumes⟩

theorem next_eq (h : l.failed = none) : l.next = match l.read with
    | .ok answer => answer
    | .error e => ({ l with failed := some e }, .error e) := by
  unfold Lexer.next
  split
  · next e heq =>
    rw [h] at heq
    cases heq
  · cases l.read <;> rfl

/-- A lexer keeps what it knows when it fails, and else it gives an answer. -/
theorem next_given (h : l.Sound) : (∃ e, l.next = ({ l with failed := some e }, .error e)) ∨
    l.failed = none ∧ l.Given l.next.1 l.next.2 := by
  cases hf : l.failed with
  | some e =>
    refine .inl ⟨e, ?_⟩
    simp only [Lexer.next, hf]
    rw [← hf]
  | none =>
    rw [next_eq hf]
    cases hr : l.read with
    | error e => exact .inl ⟨e, rfl⟩
    | ok answer => exact .inr ⟨rfl, (reads_read h).given _ _ hr⟩

theorem Sound.next (h : l.Sound) : l.next.1.Sound := by
  obtain ⟨e, he⟩ | ⟨-, hgiven⟩ := next_given h
  · rw [he]
    exact ⟨h.fed_eq, h.resumes⟩
  · exact hgiven.sound

theorem next_fed (h : l.Sound) : l.next.1.fed = l.fed := by
  obtain ⟨e, he⟩ | ⟨-, hgiven⟩ := next_given h
  · rw [he]
  · exact hgiven.fed

/-- The nesting of containers changes with the tokens only. -/
theorem next_depth (h : l.Sound) : (l.next.1.depth : Int) = l.depth + rise l.next.2 := by
  obtain ⟨e, he⟩ | ⟨-, hgiven⟩ := next_given h
  · rw [he]
    exact (Int.add_zero _).symm
  · exact hgiven.depth

theorem next_token_lt (h : l.Sound) (hnext : l.next = (l', .token t)) : l'.pending.length < l.pending.length := by
  obtain ⟨e, he⟩ | ⟨-, hgiven⟩ := next_given h
  · rw [he] at hnext
    cases hnext
  · rw [hnext] at hgiven
    exact hgiven.means.1

theorem next_pending_le (h : l.Sound) : l.next.1.pending.length ≤ l.pending.length := by
  obtain ⟨e, he⟩ | ⟨-, hgiven⟩ := next_given h
  · exact Nat.le_of_eq (congrArg (fun answer => answer.1.pending.length) he)
  · have hmeans := hgiven.means
    cases hanswer : l.next.2 <;> rw [hanswer] at hmeans
    case token => exact Nat.le_of_lt hmeans.1
    case needMore => exact hmeans.2
    case eof =>
      rw [hmeans.2.1]
      exact Nat.zero_le _
    case error => exact hmeans.elim

@[simp] theorem next_closed (h : l.Sound) : l.next.1.closed = l.closed := by
  obtain ⟨e, he⟩ | ⟨-, hgiven⟩ := next_given h
  · rw [he]
  · exact hgiven.closed

theorem next_ne_needMore (h : l.Sound) (hclosed : l.closed) : l.next.2 ≠ .needMore := by
  intro hmore
  obtain ⟨e, he⟩ | ⟨-, hgiven⟩ := next_given h
  · rw [he] at hmore
    cases hmore
  · rw [hmore] at hgiven
    rw [hgiven.means.1] at hclosed
    cases hclosed

theorem next_ne_eof (h : l.Sound) (hopen : l.closed = false) : l.next.2 ≠ .eof := by
  intro heof
  obtain ⟨e, he⟩ | ⟨-, hgiven⟩ := next_given h
  · rw [he] at heof
    cases heof
  · rw [heof] at hgiven
    rw [hgiven.means.1] at hopen
    cases hopen

theorem next_failed {e : LexError} (h : l.Sound) (herror : l.next.2 = .error e) : l.next.1.failed = some e := by
  obtain ⟨e', he⟩ | ⟨-, hgiven⟩ := next_given h
  · rw [he] at herror ⊢
    cases herror
    rfl
  · rw [herror] at hgiven
    exact hgiven.means.elim

theorem next_eof (h : l.Sound) (hnext : l.next = (l', .eof)) : l'.next = (l', .eof) := by
  obtain ⟨e, he⟩ | ⟨hf, hgiven⟩ := next_given h
  · rw [he] at hnext
    cases hnext
  · rw [hnext] at hgiven
    have hclosed : l'.closed = l.closed := hgiven.closed
    obtain ⟨hend, hp, hdone, -⟩ : l.closed = true ∧ l'.pending = [] ∧ l'.expect = .done ∧ _ := hgiven.means
    have hblanks : l'.skipBlanks = l' := by
      rw [skipBlanks, hp]
      exact advance_zero l'
    have hread : l'.read = .ok (l', .eof) := by
      simp only [read, hblanks, hp, atEnd, hclosed, hend, hdone]
      rfl
    rw [next_eq (hgiven.failed.trans hf), hread]

end JsonSieve.Lexer
