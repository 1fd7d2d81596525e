import JsonSieve.Json.Buffered
import JsonSieve.Proofs.Lexer.Escapes
import JsonSieve.Proofs.Session.Forward

/-!
# Reading from a buffer

A lexer over a buffer does what the lexer without one does that has the same bytes before it
(`next_view`), also when what has been read is dropped from the buffer (`feed_view`). So the
tokens of a text do not depend on where it is cut (`drain_after`), and a search that goes on at a saved
place of the buffer ends at the first quote that is not escaped (`readString_agrees`). The lexer of a
session stands where a lexer over a buffer stands (`Session.exists_buffered`).
-/

namespace JsonSieve

namespace Buffered

open Lexer (Call Sound textOf tokensIn)

variable {b : Buffered} {n : Nat}

/-- The lexer that has the unread bytes before it. -/
def view (b : Buffered) : Lexer where
  pending := b.unread
  offset := b.consumed + b.pos
  fed := b.consumed + b.buf.length
  scanned := b.scan - (b.pos + 1)
  stack := b.stack
  expect := b.expect
  closed := b.closed
  failed := b.failed

@[simp]
theorem view_pending (b : Buffered) : b.view.pending = b.unread := rfl

@[simp]
theorem view_stack (b : Buffered) : b.view.stack = b.stack := rfl

@[simp]
theorem view_expect (b : Buffered) : b.view.expect = b.expect := rfl

@[simp]
theorem view_closed (b : Buffered) : b.view.closed = b.closed := rfl

@[simp]
theorem view_failed (b : Buffered) : b.view.failed = b.failed := rfl

def shown (answer : Buffered × Lexed) : Lexer × Lexed := (answer.1.view, answer.2)

/-- No search is to go on behind the position. -/
def Fresh (b : Buffered) : Prop := b.scan ≤ b.pos + 1

theorem fresh_iff : b.Fresh ↔ b.view.scanned = 0 := Nat.sub_eq_zero_iff_le.symm

theorem Fresh.advance (h : b.Fresh) (n : Nat) : (b.advance n).Fresh := by
  simp only [Fresh, Buffered.advance] at h ⊢
  omega

theorem Fresh.view_advance (h : b.Fresh) (n : Nat) : (b.advance n).view = b.view.advance n := by
  have hscanned : b.scan - (b.pos + n + 1) = b.scan - (b.pos + 1) := by
    unfold Fresh at h
    omega
  simp only [view, Buffered.advance, Lexer.advance, unread, List.drop_drop, Nat.add_assoc] at hscanned ⊢
  rw [hscanned]

theorem Fresh.skipBlanks_view (h : b.Fresh) : b.skipBlanks.view = b.view.skipBlanks := h.view_advance _

/-! ## Readers -/

theorem atEnd_view (b : Buffered) : shown <$> b.atEnd = b.view.atEnd := by
  unfold atEnd Lexer.atEnd
  show _ = if !b.closed then _ else if b.expect = .done then _ else
    if b.stack.isEmpty && b.expect = .value then _ else _
  split_ifs <;> rfl

theorem Fresh.openContainer_view (h : b.Fresh) (container : Container) :
    shown (b.openContainer container) = b.view.openContainer container := by
  cases container <;> simp only [openContainer, Lexer.openContainer, ← h.view_advance] <;> rfl

theorem Fresh.closeContainer_view (h : b.Fresh) (container : Container) :
    shown <$> b.closeContainer container = b.view.closeContainer container := by
  unfold closeContainer Lexer.closeContainer
  rw [view_stack]
  cases b.stack with
  | nil => rfl
  | cons top stack =>
    dsimp only
    split
    · rw [← h.view_advance]
      rfl
    · rfl

theorem Fresh.readWord_view (h : b.Fresh) (word : List UInt8) (token : Token) :
    shown <$> b.readWord word token = b.view.readWord word token := by
  unfold readWord Lexer.readWord
  rw [← h.view_advance, view_pending, view_closed]
  cases Lexer.matchWord word b.unread with
  | full | differs => rfl
  | part =>
    dsimp only
    split <;> rfl

theorem Fresh.readNumber_view (h : b.Fresh) : shown <$> b.readNumber = b.view.readNumber := by
  unfold readNumber Lexer.readNumber
  rw [view_pending, view_closed]
  dsimp only
  split
  · rfl
  · cases Literal.parse? (b.unread.span Lexer.isNumberByte).1 with
    | none => rfl
    | some literal =>
      dsimp only
      rw [← h.view_advance]
      rfl

/-- The search finds what the search behind the opening quote finds, counted from the buffer on. -/
theorem search_eq (b : Buffered) : b.search =
    match Lexer.scan b.view.scanned ((b.view.pending.drop 1).drop b.view.scanned) with
    | .closed n => .closed (b.pos + 1 + n)
    | .unfinished n => .unfinished (b.pos + 1 + n) := by
  have hplace : max b.scan (b.pos + 1) = b.pos + 1 + b.view.scanned := by
    simp only [view]
    omega
  have hbytes : b.buf.drop (b.pos + 1 + b.view.scanned) = (b.view.pending.drop 1).drop b.view.scanned := by
    simp [view, unread, Nat.add_assoc]
  rw [search, hplace, hbytes]
  exact Lexer.scan_add _ _ _

theorem inside_eq (b : Buffered) (n : Nat) : b.inside (b.pos + 1 + n) = (b.view.pending.drop 1).take n := by
  simp [inside, view, unread, List.drop_take]

theorem readString_view {f : Buffered → Buffered} {g : Lexer → Lexer} (h : ∀ b, (f b).view = g b.view)
    (b : Buffered) : shown <$> b.readString f = Lexer.onToken g <$> b.view.readString := by
  unfold readString Lexer.readString
  rw [search_eq, view_closed]
  dsimp only
  cases Lexer.scan b.view.scanned ((b.view.pending.drop 1).drop b.view.scanned) with
  | unfinished n =>
    dsimp only
    split
    · rfl
    · simp [shown, view, unread, Lexer.onToken]
  | closed n =>
    dsimp only
    rw [inside_eq, ← Nat.add_assoc]
    show _ = Lexer.onToken g <$> (Lexer.stringText (b.consumed + b.pos + 1) _ >>= _)
    cases Lexer.stringText (b.consumed + b.pos + 1) ((b.view.pending.drop 1).take n) with
    | error e => rfl
    | ok text =>
      have hview : ({ b with pos := b.pos + (n + 2), scan := 0 } : Buffered).view =
          { b.view.advance (n + 2) with scanned := 0 } := by
        simp [view, unread, Lexer.advance, ← Nat.add_assoc]
      have hpos : b.pos + 1 + n + 1 = b.pos + (n + 2) := by omega
      show Except.ok ((f { b with pos := b.pos + 1 + n + 1, scan := 0 }).view, _) = Except.ok (g _, _)
      rw [hpos, h, hview]

/-- Only the search for the end of a string literal goes on at a saved place. -/
def Ready (b : Buffered) : Prop := ∀ c bytes, b.unread = c :: bytes → c ≠ 0x22 → b.Fresh

theorem Ready.readValue_view (h : b.Ready) : shown <$> b.readValue = b.view.readValue := by
  unfold readValue Lexer.readValue
  rw [view_pending]
  cases hunread : b.unread with
  | nil => exact atEnd_view b
  | cons c bytes =>
    dsimp only
    by_cases hquote : c = 0x22
    · subst hquote
      exact readString_view (fun _ => rfl) b
    · have hfresh := h c bytes hunread hquote
      split_ifs
      · exact congrArg Except.ok (hfresh.openContainer_view .object)
      · exact congrArg Except.ok (hfresh.openContainer_view .array)
      · exact hfresh.readWord_view _ _
      · exact hfresh.readWord_view _ _
      · exact hfresh.readWord_view _ _
      · exact hfresh.readNumber_view
      · rfl

theorem readName_view (b : Buffered) : shown <$> b.readName = b.view.readName := by
  unfold readName Lexer.readName
  rw [view_pending]
  cases b.unread with
  | nil => exact atEnd_view b
  | cons c bytes =>
    dsimp only
    split
    · exact readString_view (fun _ => rfl) b
    · rfl

theorem Fresh.afterSeparator_view (h : b.Fresh) (expect : Expect)
    {read : Buffered → Except LexError (Buffered × Lexed)} {read' : Lexer → Except LexError (Lexer × Lexed)}
    (hread : ∀ b : Buffered, b.Fresh → shown <$> read b = read' b.view) :
    shown <$> b.afterSeparator expect read = b.view.afterSeparator expect read' := by
  have hbehind : ({ b.advance 1 with expect } : Buffered).Fresh := h.advance 1
  have hview : ({ b.advance 1 with expect } : Buffered).view = { b.view.advance 1 with expect } := by
    rw [← h.view_advance]
    rfl
  have hblanks := hbehind.skipBlanks_view.trans (congrArg Lexer.skipBlanks hview)
  exact (hread _ (hbehind.advance _)).trans (congrArg read' hblanks)

theorem Ready.readHere_view (h : b.Ready) (hexpect : Lexer.takesString b.expect = false → b.Fresh) :
    shown <$> b.readHere = b.view.readHere := by
  unfold readHere Lexer.readHere
  simp only [view_pending, view_expect, view_stack]
  have hvalue : ∀ b : Buffered, b.Fresh → shown <$> b.readValue = b.view.readValue := fun _ hb =>
    Ready.readValue_view fun _ _ _ _ => hb
  cases hunread : b.unread with
  | nil => exact atEnd_view b
  | cons c bytes =>
    dsimp only
    cases hx : b.expect with
    | done => rfl
    | colon =>
      have hfresh := hexpect (by rw [hx]; rfl)
      dsimp only
      split
      · exact hfresh.afterSeparator_view _ hvalue
      · rfl
    | commaOrEnd =>
      have hfresh := hexpect (by rw [hx]; rfl)
      dsimp only
      split
      · rcases b.stack with _ | ⟨_ | _, _⟩
        · exact hfresh.afterSeparator_view _ hvalue
        · exact hfresh.afterSeparator_view _ fun b _ => readName_view b
        · exact hfresh.afterSeparator_view _ hvalue
      · split_ifs
        · exact hfresh.closeContainer_view _
        · exact hfresh.closeContainer_view _
        · rfl
    | itemOrEnd =>
      dsimp only
      split
      · next hc => exact (h c bytes hunread (by rw [hc]; decide)).closeContainer_view _
      · exact h.readValue_view
    | nameOrEnd =>
      dsimp only
      split
      · next hc => exact (h c bytes hunread (by rw [hc]; decide)).closeContainer_view _
      · exact readName_view b
    | name => exact readName_view b
    | value => exact h.readValue_view

/-! ## Calls -/

theorem skipBlanks_view (h : b.view.Sound) : b.skipBlanks.view = b.view.skipBlanks := by
  rcases h.resumes with hzero | ⟨⟨inside, hp, -⟩, -⟩
  · exact (fresh_iff.2 hzero).skipBlanks_view
  · -- a literal that was begun has no blank in front of it
    have hp' : b.unread = 0x22 :: inside := hp
    rw [skipBlanks, Lexer.skipBlanks, hp, hp']
    exact (Lexer.advance_zero b.view).symm

theorem read_view (h : b.view.Sound) : shown <$> b.read = b.view.read := by
  have hsound := h.skipBlanks
  rw [← skipBlanks_view h] at hsound
  rw [read, Lexer.read_eq, ← skipBlanks_view h]
  refine Ready.readHere_view (fun c bytes hunread hc => ?_) fun hexpect => ?_
  · exact fresh_iff.2 (hsound.scanned_eq_zero hunread hc)
  · exact fresh_iff.2 (hsound.scanned_eq_zero_of_expect hexpect)

theorem next_view (h : b.view.Sound) : shown b.next = b.view.next := by
  unfold next Lexer.next
  rw [view_failed]
  cases b.failed with
  | some e => rfl
  | none =>
    dsimp only
    rw [← read_view h]
    cases b.read <;> rfl

theorem pos_le (h : b.view.Sound) : b.pos ≤ b.buf.length := by
  have hfed : b.consumed + b.buf.length = b.consumed + b.pos + (b.buf.drop b.pos).length := h.fed_eq
  rw [List.length_drop] at hfed
  omega

theorem compact_view (h : b.view.Sound) : b.compact.view = b.view := by
  have hle := pos_le h
  have hlength : b.pos + (b.buf.length - b.pos) = b.buf.length := by omega
  have hscan : b.scan - b.pos - 1 = b.scan - (b.pos + 1) := by omega
  simp [view, compact, unread, hlength, hscan, Nat.add_assoc]

/-- Feeding a buffer adds to the bytes that are to be read, whether or not others are dropped. -/
theorem feed_view (h : b.view.Sound) (bytes : List UInt8) : (b.feed bytes).view = b.view.feed bytes := by
  have hadd : ∀ b : Buffered, b.view.Sound → ({ b with buf := b.buf ++ bytes } : Buffered).view =
      { b.view with pending := b.view.pending ++ bytes, fed := b.view.fed + bytes.length } := fun b hb => by
    simp [view, unread, List.drop_append_of_le_length (pos_le hb), Nat.add_assoc]
  unfold feed Lexer.feed
  show _ = if b.closed then _ else _
  split
  · rfl
  · dsimp only
    split
    · rw [hadd _ ((compact_view h).symm ▸ h), compact_view h]
    · exact hadd b h

def call (b : Buffered) : Call → Buffered
  | .feed bytes => b.feed bytes
  | .close => b.close
  | .next => b.next.1

def after (b : Buffered) (calls : List Call) : Buffered := calls.foldl call b

def answers : List Call → Buffered → List Lexed
  | [], _ => []
  | .next :: calls, b => b.next.2 :: answers calls b.next.1
  | c :: calls, b => answers calls (b.call c)

def drainWithin : Nat → Buffered → List Token × Lexed
  | 0, _ => ([], .needMore)
  | n + 1, b =>
    match b.next with
    | (b, .token t) => (t :: (drainWithin n b).1, (drainWithin n b).2)
    | (_, answer) => ([], answer)

def drain (b : Buffered) : List Token × Lexed := drainWithin (b.unread.length + 1) b

def whole (text : List UInt8) : Buffered := (empty.feed text).close

theorem call_view (h : b.view.Sound) (c : Call) : (b.call c).view = b.view.call c := by
  cases c with
  | feed bytes => exact feed_view h bytes
  | close => rfl
  | next => exact congrArg Prod.fst (next_view h)

/-- Any calls lead to the same place in the text. -/
theorem after_view (h : b.view.Sound) (calls : List Call) : (b.after calls).view = b.view.after calls := by
  induction calls generalizing b with
  | nil => rfl
  | cons c calls ih =>
    have hcall := call_view h c
    show ((b.call c).after calls).view = (b.view.call c).after calls
    rw [ih (hcall ▸ h.call c), hcall]

/-- Any calls have the same answers. -/
theorem answers_view (h : b.view.Sound) (calls : List Call) : answers calls b = Lexer.answers calls b.view := by
  induction calls generalizing b with
  | nil => rfl
  | cons c calls ih =>
    have hcall := call_view h c
    have hrest := ih (hcall ▸ h.call c)
    rw [hcall] at hrest
    cases c with
    | feed | close => exact hrest
    | next => exact congrArg₂ List.cons (congrArg Prod.snd (next_view h)) hrest

theorem drainWithin_view (h : b.view.Sound) : drainWithin n b = Lexer.drainWithin n b.view := by
  induction n generalizing b with
  | zero => rfl
  | succ n ih =>
    have hnext := next_view h
    have hsound := h.next
    rw [← hnext] at hsound
    rw [drainWithin, Lexer.drainWithin, ← hnext]
    rcases hn : b.next with ⟨b', answer⟩
    rw [hn] at hsound
    cases answer with
    | token t =>
      dsimp only [shown]
      rw [ih hsound]
    | needMore | eof | error => rfl

theorem drain_view (h : b.view.Sound) : b.drain = b.view.drain := drainWithin_view h

theorem empty_sound : empty.view.Sound := Sound.empty

theorem after_sound (calls : List Call) : (empty.after calls).view.Sound := by
  rw [after_view empty_sound]
  exact Sound.empty.after calls

theorem next_after (calls : List Call) : (empty.after calls).next.2 = (Lexer.empty.after calls).next.2 := by
  have hnext := congrArg Prod.snd (next_view (after_sound calls))
  rw [after_view empty_sound] at hnext
  exact hnext

theorem drain_close (calls : List Call) : (empty.after calls).close.drain = (Lexer.empty.after calls).close.drain := by
  have hsound : (empty.after calls).close.view.Sound := (after_sound calls).close
  rw [drain_view hsound, show (empty.after calls).close.view = (empty.after calls).view.close from rfl,
    after_view empty_sound]
  rfl

/-- The order of calls does not matter, nor when bytes are dropped from the buffer. Whatever the calls are, the
tokens that they hand out and the ones that are handed out after them are the tokens of the text as a whole,
and the last answer is the one for the text as a whole: its end, or its error. Until the text has ended an
answer is a token, an error or that more is needed; after that no more is needed; an error is repeated; and
bytes after the end of the text have no effect. -/
theorem drain_after (calls : List Call) : (tokensIn (answers calls empty) ++ (empty.after calls).close.drain.1 =
        (whole (textOf calls)).drain.1 ∧ (empty.after calls).close.drain.2 = (whole (textOf calls)).drain.2 ∧
      ((whole (textOf calls)).drain.2 = .eof ∨ ∃ e, (whole (textOf calls)).drain.2 = .error e)) ∧
    (∀ before later, calls = before ++ .next :: later → (.close ∉ before → (empty.after before).next.2 = .needMore ∨
        (∃ t, (empty.after before).next.2 = .token t) ∨ ∃ e, (empty.after before).next.2 = .error e) ∧
      (.close ∈ before → (empty.after before).next.2 ≠ .needMore) ∧
      ∀ e, .error e ∈ answers before empty → (empty.after before).next.2 = .error e) ∧
    ∀ before bytes later, calls = before ++ .feed bytes :: later → .close ∈ before →
      empty.after calls = empty.after (before ++ later) ∧ answers calls empty = answers (before ++ later) empty := by
  have hanswers : ∀ calls, answers calls empty = Lexer.answers calls Lexer.empty := answers_view empty_sound
  have hwhole : (whole (textOf calls)).drain = (Lexer.whole (textOf calls)).drain := drain_close [.feed (textOf calls)]
  have hclosed : ∀ before, (Lexer.empty.after before).closed = decide (.close ∈ before) := fun before =>
    Lexer.closed_after Sound.empty before
  refine ⟨?_, ?_, ?_⟩
  · rw [hanswers, drain_close, hwhole]
    exact Lexer.drain_calls calls
  · rintro before later -
    rw [next_after, hanswers]
    have hsound := Sound.empty.after before
    refine ⟨fun hopen => ?_, fun hend => ?_, fun e he => ?_⟩
    · have hne := Lexer.next_ne_eof hsound (by rw [hclosed]; simpa using hopen)
      cases hanswer : (Lexer.empty.after before).next.2 with
      | token t => exact .inr (.inl ⟨t, rfl⟩)
      | needMore => exact .inl rfl
      | eof => exact absurd hanswer hne
      | error e => exact .inr (.inr ⟨e, rfl⟩)
    · exact Lexer.next_ne_needMore hsound (by rw [hclosed]; simpa using hend)
    · rw [Lexer.next_of_failed (Lexer.failed_after Sound.empty (.inr he))]
  · rintro before bytes later rfl hend
    have hend' := (hclosed before).trans (decide_eq_true hend)
    constructor
    · have hshut : (empty.after before).closed = true := (congrArg Lexer.closed (after_view empty_sound _)).trans hend'
      rw [after, after, List.foldl_append, List.foldl_append, List.foldl_cons]
      show ((empty.after before).feed bytes).after later = (empty.after before).after later
      rw [feed, if_pos hshut]
    · rw [hanswers, hanswers, Lexer.answers_append, Lexer.answers_append]
      show _ ++ Lexer.answers later ((Lexer.empty.after before).feed bytes) = _
      rw [Lexer.feed, if_pos hend']

/-! ## Saved places -/

/-- The position is moved over blanks and separators. -/
structure Ahead (b k : Buffered) : Prop where
  buf : k.buf = b.buf
  consumed : k.consumed = b.consumed
  scan : k.scan = b.scan
  gap : ∃ gap, (∀ c ∈ gap, Lexer.isGap c = true) ∧ b.unread = gap ++ k.unread ∧ k.pos = b.pos + gap.length

theorem Ahead.refl (b : Buffered) : b.Ahead b := ⟨rfl, rfl, rfl, [], by simp, rfl, rfl⟩

theorem Ahead.view {k : Buffered} (h : b.Ahead k) (hb : b.view.Sound) : b.view.Ahead k.view := by
  obtain ⟨gap, hgap, hunread, hpos⟩ := h.gap
  have hle := pos_le hb
  have hlength : b.unread.length = gap.length + k.unread.length := by rw [hunread, List.length_append]
  have hbytes : b.unread.length = b.buf.length - b.pos := List.length_drop
  refine ⟨?_, ?_, ?_, gap, hgap, hunread⟩
  · simp only [Buffered.view, h.consumed, h.buf]
  · simp only [Buffered.view, h.consumed, h.buf]
    omega
  · simp only [Buffered.view, h.scan]
    rcases hb.resumes with hzero | ⟨⟨inside, hp, -⟩, -⟩
    · have hfresh := fresh_iff.2 hzero
      unfold Fresh at hfresh
      omega
    · cases gap with
      | nil => rw [hpos, List.length_nil, Nat.add_zero]
      | cons c gap =>
        cases (show 0x22 :: inside = c :: gap ++ k.unread from hp.symm.trans hunread)
        exact absurd (hgap 0x22 (.head _)) (by decide)

/-- Whatever calls came before, and whatever was dropped from the buffer on the way: the search of a literal ends
at its first quote that is not escaped, and the decoder stays inside of it and visits only escapes that
the search has found. -/
theorem readString_agrees (calls : List Call) {k : Buffered} {bytes : List UInt8}
    (hk : (empty.after calls).Ahead k) (hquote : k.unread = 0x22 :: bytes) (place : Nat) :
    (k.search = .closed place ↔ k.pos < place ∧ Lexer.Closes bytes (place - (k.pos + 1)) ∧
      ∀ i < place - (k.pos + 1), ¬ Lexer.Closes bytes i) ∧
    (k.search = .closed place → Lexer.Agrees (k.inside place)
      (Lexer.unescape (k.consumed + (k.pos + 1)) (k.inside place))
      (Lexer.unescape? (k.consumed + (k.pos + 1)) (k.inside place))) := by
  have hagrees := (after_sound calls).search_agrees (hk.view (after_sound calls)) hquote
  have hbytes : k.view.pending.drop 1 = bytes := congrArg (List.drop 1) hquote
  have hsearch := search_eq k
  rw [hbytes] at hsearch
  by_cases hlt : k.pos < place
  · obtain ⟨n, rfl⟩ : ∃ n, place = k.pos + 1 + n := ⟨place - (k.pos + 1), by omega⟩
    have hplace : k.search = .closed (k.pos + 1 + n) ↔
        Lexer.scan k.view.scanned (bytes.drop k.view.scanned) = .closed n := by
      rw [hsearch]
      cases Lexer.scan k.view.scanned (bytes.drop k.view.scanned) <;> simp
    rw [hplace, Nat.add_sub_cancel_left, inside_eq, hbytes, ← Nat.add_assoc]
    exact ⟨(hagrees n).1.trans (and_iff_right hlt).symm, (hagrees n).2⟩
  · have hne : k.search ≠ .closed place := by
      rw [hsearch]
      cases Lexer.scan k.view.scanned (bytes.drop k.view.scanned) <;> simp
      omega
    exact ⟨iff_of_false hne fun h => hlt h.1, fun h => absurd h hne⟩

/-- Blanks fill the buffer, so that they are dropped while the search waits behind a backslash. -/
def cutBehindBlanks : List Call :=
  [.feed (List.replicate compactThreshold 0x20 ++ [0x22, 0x61, 0x5c]), .next, .feed [0x22, 0x22]]

theorem after_cutBehindBlanks :
    empty.after cutBehindBlanks = { buf := [0x22, 0x61, 0x5c, 0x22, 0x22], consumed := 4096, scan := 2 } := by
  decide +kernel

theorem readString_agrees_cut : let k := empty.after cutBehindBlanks
    k.consumed = 4096 ∧ k.scan = 2 ∧ Lexer.Closes [0x61, 0x5c, 0x22, 0x22] 3 ∧
      Lexer.Agrees [0x61, 0x5c, 0x22] (.ok [0x61, 0x22]) (some ([1], .ok [0x61, 0x22])) := by
  have h := @readString_agrees cutBehindBlanks _ [0x61, 0x5c, 0x22, 0x22] (.refl _)
    (by rw [after_cutBehindBlanks]; rfl) 4
  rw [after_cutBehindBlanks] at h ⊢
  exact ⟨rfl, rfl, (h.1.1 (by decide)).2.1, h.2 (by decide)⟩

end Buffered

/-! ## Sessions -/

namespace Session

variable {σ : Type} {exe : Executable} {observer : Observer σ}

theorem turn_calls {s : Session σ} {calls : List Lexer.Call} (h : s.machine.input = Lexer.empty.after calls) (t : Turn) :
    ∃ calls', (s.turn exe observer t).1.machine.input = Lexer.empty.after calls' := by
  have hsound : s.machine.input.Sound := h ▸ Lexer.Sound.empty.after calls
  rcases turn_cases exe observer t s with ⟨-, -, hturn⟩ | ⟨-, hturn⟩ <;> rw [hturn]
  · exact ⟨calls, h⟩
  · have htaken : ∃ c, (s.taken t).machine.input = s.machine.input.call c := by
      unfold taken
      cases t.call with
      | more bytes => exact ⟨.feed bytes, rfl⟩
      | close => exact ⟨.close, rfl⟩
    obtain ⟨c, hc⟩ := htaken
    obtain ⟨n, hn⟩ := advance_onward exe observer t.fuel (taken_sound hsound t)
    rw [hc, h] at hn
    exact ⟨calls ++ c :: List.replicate n .next, by rw [hn, Lexer.after_append]; rfl⟩

theorem after_calls {s : Session σ} {calls : List Lexer.Call} (h : s.machine.input = Lexer.empty.after calls)
    (turns : List Turn) : ∃ calls', (s.after exe observer turns).machine.input = Lexer.empty.after calls' := by
  induction turns generalizing s calls with
  | nil => exact ⟨calls, h⟩
  | cons t turns ih =>
    obtain ⟨calls', h'⟩ := turn_calls h t
    exact ih h'

/-- Whatever is done with a session, its lexer is one over a buffer after some calls. -/
theorem exists_buffered (meter : Meter) (seen : σ) (turns : List Turn) : ∃ calls,
    ((start meter seen).after exe observer turns).machine.input = (Buffered.empty.after calls).view := by
  obtain ⟨calls, h⟩ := @after_calls _ exe observer (start meter seen) [] rfl turns
  exact ⟨calls, by rw [h, Buffered.after_view Buffered.empty_sound]; rfl⟩

end Session

end JsonSieve
