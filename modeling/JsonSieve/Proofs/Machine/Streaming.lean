import JsonSieve.Proofs.Lexer.Incremental
import JsonSieve.Proofs.Machine.Reading
import JsonSieve.Proofs.Running.Basic

/-!
# The tokens of a machine

The buffer of a machine and the tokens that its lexer will still hand out are one stream. Looking ahead
moves tokens from the lexer to the buffer and leaves the stream as it is, except that empty tokens are read
behind the end of the text (`Refills`). Reading, skipping and looking at a value do with the stream what
`Running` says of tokens that come: `readToken_some`, `skipAll_passes` and `scan_look`; behind the last
token of a bad text they find that it is bad. All this is about machines without limits that have the whole
text.
-/

namespace JsonSieve

namespace Running

/-! ## Empty tokens -/

def tokenAt (broken : Bool) (tokens : List Token) (i : Nat) : Option Token :=
  tokens[i]?.or (if broken then none else some .none)

/-- The second list is the first one with empty tokens behind it; none, if the text is bad. -/
def Pads (broken : Bool) (a b : List Token) : Prop :=
  ∃ k, b = a ++ List.replicate k .none ∧ (broken = true → k = 0)

variable {broken : Bool} {a b c : List Token}

theorem tokenAt_of_some {i : Nat} {t : Token} (h : a[i]? = some t) : tokenAt broken a i = some t := by
  rw [tokenAt, h]
  rfl

namespace Pads

theorem refl (broken : Bool) (a : List Token) : Pads broken a a := ⟨0, by simp, fun _ => rfl⟩

theorem trans (h : Pads broken a b) (h' : Pads broken b c) : Pads broken a c := by
  obtain ⟨k, rfl, hk⟩ := h
  obtain ⟨k', rfl, hk'⟩ := h'
  refine ⟨k + k', by rw [List.append_assoc, List.replicate_append_replicate], fun hbroken => ?_⟩
  rw [hk hbroken, hk' hbroken]

theorem push (a : List Token) : Pads false a (a ++ [.none]) := ⟨1, rfl, nofun⟩

theorem drop (h : Pads broken a b) (i : Nat) : Pads broken (a.drop i) (b.drop i) := by
  obtain ⟨k, rfl, hk⟩ := h
  refine ⟨k - (i - a.length), ?_, fun hbroken => by rw [hk hbroken, Nat.zero_sub]⟩
  rw [List.drop_append, List.drop_replicate]

theorem getElem?_eq (h : Pads broken a b) {i : Nat} {t : Token} (ht : a[i]? = some t) : b[i]? = some t := by
  obtain ⟨k, rfl, -⟩ := h
  rw [List.getElem?_append_left (List.getElem?_eq_some_iff.1 ht).1, ht]

theorem tokenAt_eq (h : Pads broken a b) (i : Nat) : tokenAt broken b i = tokenAt broken a i := by
  obtain ⟨k, rfl, hk⟩ := h
  by_cases hi : i < a.length
  · rw [tokenAt, tokenAt, List.getElem?_append_left hi]
  · have hnone : a[i]? = none := List.getElem?_eq_none (Nat.le_of_not_lt hi)
    rw [tokenAt, tokenAt, List.getElem?_append_right (Nat.le_of_not_lt hi), hnone]
    cases broken with
    | true =>
      rw [hk rfl]
      rfl
    | false =>
      by_cases hk' : i - a.length < k
      · rw [List.getElem?_replicate_of_lt hk']
        rfl
      · rw [List.getElem?_eq_none (by simpa using Nat.le_of_not_lt hk')]

end Pads

/-- What can be at a position: the tokens that come are not empty, and an empty token is the last one only
behind the end of the text. -/
structure Position.Sane (p : Position) : Prop where
  solid : ∀ t ∈ p.coming, t ≠ .none
  behind : p.last = some .none → p.coming = [] ∧ p.broken = false

theorem passed_sane {depth : Nat} {coming rest : List Token} {t : Token}
    (hsolid : ∀ t ∈ coming, t ≠ .none) (h : passed broken depth coming = some (t, rest)) :
    (∀ t ∈ rest, t ≠ .none) ∧ (t = .none → rest = [] ∧ broken = false) := by
  induction coming generalizing depth with
  | nil =>
    cases broken with
    | true => cases h
    | false =>
      cases h
      exact ⟨nofun, fun _ => ⟨rfl, rfl⟩⟩
  | cons t' coming ih =>
    have hrest : ∀ t ∈ coming, t ≠ .none := fun t ht => hsolid t (.tail _ ht)
    rw [passed] at h
    split at h
    · cases h
      exact ⟨hrest, fun hnone => absurd hnone (hsolid _ (.head _))⟩
    · exact ih hrest h

end Running

namespace Machine

open Running

/-- The tokens in the buffer and those that are still to be read. -/
def stream (m : Machine) : List Token := m.buffer.toList ++ m.input.drain.1

/-- What the lexer says behind the last token. -/
def ending (m : Machine) : Lexed := m.input.drain.2

/-- The text ends behind the last token, or it is bad there. -/
def Concludes : Bool → Lexed → Prop
  | true, e => ∃ error, e = .error error
  | false, e => e = .eof

/-- Some tokens have been moved to the buffer. -/
structure Refills (broken : Bool) (m m' : Machine) : Prop where
  grows : Grows m m'
  sound : m'.input.Sound
  pads : Pads broken m.stream m'.stream
  ending_eq : m'.ending = m.ending

variable {broken : Bool}

namespace Refills

variable {m : Machine}

theorem refl (h : m.input.Sound) : Refills broken m m := ⟨.refl m, h, .refl broken _, rfl⟩

theorem trans {a b c : Machine} (h : Refills broken a b) (h' : Refills broken b c) : Refills broken a c :=
  ⟨h.grows.trans h'.grows, h'.sound, h.pads.trans h'.pads, h'.ending_eq.trans h.ending_eq⟩

theorem meter_eq {m' : Machine} (h : Refills broken m m') : m'.meter = m.meter := by
  obtain ⟨input, tokens, rfl⟩ := h.grows
  rfl

theorem current_eq {m' : Machine} (h : Refills broken m m') : m'.current = m.current := by
  obtain ⟨input, tokens, rfl⟩ := h.grows
  rfl

end Refills

section

variable {m : Machine}

/-! ## Reading into the buffer -/

/-- The text of a machine without limits has an end that is bad or not. -/
structure Flowing (broken : Bool) (m : Machine) : Prop where
  sound : m.input.Sound
  concludes : Concludes broken m.ending
  free : m.meter = .free

theorem Refills.flowing {m' : Machine} (h : Refills broken m m') (hm : m.Flowing broken) : m'.Flowing broken :=
  ⟨h.sound, by rw [h.ending_eq]; exact hm.concludes, h.meter_eq.trans hm.free⟩

/-- A token at hand is read, unless there are too many. -/
theorem fetch_held (h : m.input.Sound) {t : Token} {rest : List Token} (hdrain : m.input.drain.1 = t :: rest) :
    m.fetch.1.stream = m.stream ∧ m.fetch.1.ending = m.ending ∧ m.fetch.1.input.drain.1 = rest ∧
      (m.fetch.2 = .ready ∨ m.meter ≠ .free ∧ ∃ e, m.fetch.2 = .limit e) := by
  rw [Lexer.drain_eq h] at hdrain
  cases hnext : m.input.next.2 with
  | token t' =>
    rw [hnext] at hdrain
    cases hdrain
    rw [fetch_of (show m.input.next = (m.input.next.1, .token t) by rw [← hnext]), receive, keep_eq]
    refine ⟨?_, ?_, rfl, ?_⟩
    · simp [stream, Lexer.drain_eq h, hnext]
    · simp [ending, Lexer.drain_eq h, hnext]
    · dsimp only
      split
      next hover =>
        refine .inr ⟨fun hfree => ?_, _, rfl⟩
        rw [hfree] at hover
        cases hover
      · exact .inl rfl
  | needMore | eof | error =>
    rw [hnext] at hdrain
    cases hdrain

theorem fetch_token (hsound : m.input.Sound) (hfree : m.meter = .free) {t : Token} {rest : List Token}
    (h : m.input.drain.1 = t :: rest) :
    ∃ m', m.fetch = (m', .ready) ∧ Refills broken m m' ∧ m'.input.drain.1 = rest := by
  obtain ⟨hstream, hending, hrest, hready⟩ := fetch_held hsound h
  refine ⟨m.fetch.1, Prod.ext rfl (hready.resolve_right fun hlimit => hlimit.1 hfree),
    ⟨fetch_grows m, fetch_sound hsound, ?_, hending⟩, hrest⟩
  rw [hstream]
  exact .refl broken _

theorem fetch_end (hsound : m.input.Sound) (hfree : m.meter = .free) (hnil : m.input.drain.1 = [])
    (hends : Concludes false m.ending) :
    ∃ m', m.fetch = (m', .ready) ∧ Refills false m m' ∧ m'.input.drain.1 = [] := by
  have hdrain := Lexer.drain_eq hsound
  have hends : m.input.drain.2 = .eof := hends
  rw [hdrain] at hends hnil
  cases hnext : m.input.next.2 with
  | eof =>
    have hagain := Lexer.drain_next hsound (by simp [hnext]) (by simp [hnext])
    have hfetch : m.fetch = ({ m with input := m.input.next.1, buffer := m.buffer.push .none }, .ready) := by
      rw [fetch_of (show m.input.next = (m.input.next.1, .eof) by rw [← hnext]), receive, keep_eq]
      simp only [hfree]
      rfl
    rw [hnext] at hdrain
    have hnil' : m.input.next.1.drain.1 = [] := by rw [hagain, hdrain]
    refine ⟨_, hfetch, ⟨⟨m.input.next.1, #[.none], by simp⟩, hsound.next, ?_, ?_⟩, hnil'⟩
    · rw [stream, stream, hdrain, hnil', List.append_nil, List.append_nil, Array.toList_push]
      exact .push _
    · exact congrArg Prod.snd hagain
  | token t =>
    rw [hnext] at hnil
    cases hnil
  | needMore | error =>
    rw [hnext] at hends
    cases hends

theorem fetch_bad (hsound : m.input.Sound) (hnil : m.input.drain.1 = [])
    (hends : Concludes true m.ending) : m.fetch.2 = .badText := by
  obtain ⟨error, herror⟩ := hends
  have hdrain := Lexer.drain_eq hsound
  rw [ending, hdrain] at herror
  rw [hdrain] at hnil
  cases hnext : m.input.next.2 with
  | token t =>
    rw [hnext] at hnil
    cases hnil
  | error e =>
    rw [fetch_of (show m.input.next = (m.input.next.1, .error e) by rw [← hnext])]
    rfl
  | needMore | eof =>
    rw [hnext] at herror
    cases herror

theorem fill_filled (hm : m.Flowing broken) {n : Nat} (h : broken = true → n ≤ m.input.drain.1.length) :
    ∃ m', fill n m = (m', .ready) ∧ Refills broken m m' := by
  induction n generalizing m with
  | zero => exact ⟨m, rfl, .refl hm.sound⟩
  | succ n ih =>
    obtain ⟨m1, hfetch, hrefills, hlength⟩ : ∃ m1, m.fetch = (m1, .ready) ∧ Refills broken m m1 ∧
        (broken = true → n ≤ m1.input.drain.1.length) := by
      cases hl : m.input.drain.1 with
      | cons t rest =>
        obtain ⟨m1, hfetch, hrefills, hdrain⟩ := fetch_token hm.sound hm.free hl
        refine ⟨m1, hfetch, hrefills, fun hbroken => ?_⟩
        have := h hbroken
        rw [hl] at this
        rw [hdrain]
        exact Nat.le_of_succ_le_succ this
      | nil =>
        cases broken with
        | true =>
          have := h rfl
          rw [hl] at this
          cases this
        | false =>
          obtain ⟨m1, hfetch, hrefills, -⟩ := fetch_end hm.sound hm.free hl hm.concludes
          exact ⟨m1, hfetch, hrefills, nofun⟩
    obtain ⟨m', hfill, hrefills'⟩ := ih (hrefills.flowing hm) hlength
    refine ⟨m', ?_, hrefills.trans hrefills'⟩
    rw [fill_succ, hfetch]
    exact hfill

theorem fill_bad (hm : m.Flowing true) {n : Nat} (h : m.input.drain.1.length < n) : (fill n m).2 = .badText := by
  induction n generalizing m with
  | zero => cases h
  | succ n ih =>
    rw [fill_succ]
    cases hrest : m.input.drain.1 with
    | nil =>
      have hbad := fetch_bad hm.sound hrest hm.concludes
      rw [if_neg (by rw [hbad]; nofun), hbad]
    | cons t rest =>
      obtain ⟨m1, hfetch, hrefills, hdrain⟩ := @fetch_token true m hm.sound hm.free t rest hrest
      rw [hfetch]
      refine ih (hrefills.flowing hm) ?_
      rw [hdrain]
      rw [hrest] at h
      exact Nat.lt_of_succ_lt_succ h

theorem length_stream (m : Machine) : m.stream.length = m.buffer.size + m.input.drain.1.length := by
  rw [stream, List.length_append, Array.length_toList]

theorem ensure_some (hm : m.Flowing broken) {place : Nat} {t : Token}
    (h : Running.tokenAt broken m.stream place = some t) :
    ∃ m', m.ensure place = (m', .ready) ∧ Refills broken m m' ∧ place < m'.buffer.size ∧
      m'.tokenAt place = t ∧ m'.stream[place]? = some t := by
  have hplace : broken = true → place + 1 - m.buffer.size ≤ m.input.drain.1.length := by
    rintro rfl
    have hlt : place < m.stream.length := by
      rw [Running.tokenAt, if_pos rfl, Option.or_none] at h
      exact (List.getElem?_eq_some_iff.1 h).1
    rw [length_stream] at hlt
    omega
  obtain ⟨m', hfill, hrefills⟩ := fill_filled hm hplace
  have hensure : m.ensure place = (m', .ready) := hfill
  have hsize : place < m'.buffer.size := by
    have hlt := @ensure_size m place (by rw [hensure])
    rwa [hensure] at hlt
  have hbuffer : m'.stream[place]? = m'.buffer[place]? := by
    rw [stream, List.getElem?_append_left (by simpa using hsize), Array.getElem?_toList]
  obtain ⟨t', ht'⟩ : ∃ t', m'.buffer[place]? = some t' := ⟨_, Array.getElem?_eq_getElem hsize⟩
  rw [← hrefills.pads.tokenAt_eq, tokenAt_of_some (hbuffer.trans ht')] at h
  cases h
  refine ⟨m', hensure, hrefills, hsize, ?_, hbuffer.trans ht'⟩
  rw [tokenAt, ht']
  rfl

theorem ensure_none (hm : m.Flowing broken) {place : Nat} (h : Running.tokenAt broken m.stream place = none) :
    (m.ensure place).2 = .badText := by
  cases broken with
  | false => simp [Running.tokenAt] at h
  | true =>
    rw [Running.tokenAt, if_pos rfl, Option.or_none, List.getElem?_eq_none_iff, length_stream] at h
    exact fill_bad hm (by omega)

/-! ## Moving on -/

/-- What the stream looks like behind the cursor. -/
def upcoming (m : Machine) : List Token := m.stream.drop m.cursor

theorem tokenAt_upcoming (m : Machine) :
    Running.tokenAt broken m.stream m.cursor = Running.tokenAt broken m.upcoming 0 := by
  rw [Running.tokenAt, Running.tokenAt, upcoming, List.getElem?_drop, Nat.add_zero]

/-- One machine comes from another by moving over tokens: activations and splits stay, and so does the
stream as long as there are splits. -/
structure Advances (broken : Bool) (m m' : Machine) : Prop where
  frames_eq : m'.frames = m.frames
  splits_eq : m'.splits = m.splits
  meter_eq : m'.meter = m.meter
  started_eq : m'.started = m.started
  verdict_eq : m'.verdict = m.verdict
  sound : m'.input.Sound
  ending_eq : m'.ending = m.ending
  pads : m.splits ≠ [] → Pads broken m.stream m'.stream

theorem Refills.advances {m' : Machine} (h : Refills broken m m') : Advances broken m m' := by
  obtain ⟨⟨input, tokens, rfl⟩, hsound, hpads, hending⟩ := h
  exact ⟨rfl, rfl, rfl, rfl, rfl, hsound, hending, fun _ => hpads⟩

theorem Advances.trans {a b c : Machine} (h : Advances broken a b) (h' : Advances broken b c) :
    Advances broken a c where
  frames_eq := h'.frames_eq.trans h.frames_eq
  splits_eq := h'.splits_eq.trans h.splits_eq
  meter_eq := h'.meter_eq.trans h.meter_eq
  started_eq := h'.started_eq.trans h.started_eq
  verdict_eq := h'.verdict_eq.trans h.verdict_eq
  sound := h'.sound
  ending_eq := h'.ending_eq.trans h.ending_eq
  pads hne := (h.pads hne).trans (h'.pads (by rwa [h.splits_eq]))

theorem Advances.flowing {m' : Machine} (h : Advances broken m m') (hm : m.Flowing broken) : m'.Flowing broken :=
  ⟨h.sound, by rw [h.ending_eq]; exact hm.concludes, h.meter_eq.trans hm.free⟩

theorem compact_advances (hsound : m.input.Sound) (hcursor : m.cursor ≤ m.buffer.size) :
    Advances broken m m.compact ∧ m.compact.upcoming = m.upcoming ∧
      m.compact.stream[m.compact.cursor - 1]? = m.stream[m.cursor - 1]? ∧
      (0 < m.cursor → 0 < m.compact.cursor) ∧ m.compact.current = m.current ∧
      m.compact.skipDepth = m.skipDepth := by
  unfold compact
  split
  · next h =>
    have hstream : ({ m with
        buffer := m.buffer.extract (m.cursor - 1) m.buffer.size, cursor := 1 } : Machine).stream =
        m.stream.drop (m.cursor - 1) := by
      rw [stream, stream, List.drop_append_of_le_length (by simp; omega)]
      congr 1
      simp [List.take_of_length_le]
    have hnil : m.splits = [] := List.isEmpty_iff.1 h.1
    refine ⟨⟨rfl, rfl, rfl, rfl, rfl, hsound, rfl, fun hne => absurd hnil hne⟩, ?_, ?_,
      fun _ => Nat.zero_lt_one, rfl, rfl⟩
    · rw [upcoming, hstream, List.drop_drop, upcoming]
      congr 1
      show m.cursor - 1 + 1 = m.cursor
      omega
    · rw [hstream, List.getElem?_drop]
      rfl
  · exact ⟨⟨rfl, rfl, rfl, rfl, rfl, hsound, rfl, fun _ => .refl broken _⟩, rfl, rfl, id, rfl, rfl⟩

/-- The token behind the cursor has been brought into the buffer and passed. -/
structure Passes (broken : Bool) (m m' : Machine) (t : Token) : Prop extends Advances broken m m' where
  upcoming : Pads broken (m.upcoming.drop 1) m'.upcoming
  cursor_pos : 0 < m'.cursor
  last : m'.stream[m'.cursor - 1]? = some t

variable {t : Token} {coming : List Token} {place : Nat}

theorem readToken_some (hm : m.Flowing broken) (h : Running.tokenAt broken m.upcoming 0 = some t) :
    ∃ m', m.readToken = (m', .ready) ∧ Passes broken m m' t ∧ m'.current = t ∧ m'.skipDepth = m.skipDepth := by
  rw [← tokenAt_upcoming] at h
  obtain ⟨m1, hensure, hrefills, hsize, hat, hstream⟩ := ensure_some hm h
  have hcursor : m1.cursor = m.cursor := hrefills.grows.cursor_eq
  let m2 : Machine := { m1 with current := m1.tokenAt m1.cursor, cursor := m1.cursor + 1 }
  have hmoved : Advances broken m1 m2 :=
    ⟨rfl, rfl, rfl, rfl, rfl, hrefills.sound, rfl, fun _ => .refl broken _⟩
  obtain ⟨hadvances, hahead, hlast, hpos, hcurrent, hdepth⟩ :=
    @compact_advances broken m2 hrefills.sound (show m1.cursor + 1 ≤ m1.buffer.size by omega)
  refine ⟨m2.compact, ?_, ⟨(hrefills.advances.trans hmoved).trans hadvances, ?_, ?_, ?_⟩, ?_, ?_⟩
  · rw [readToken_eq, hensure]
    rfl
  · rw [hahead, upcoming, upcoming, List.drop_drop]
    show Pads broken _ (m1.stream.drop (m1.cursor + 1))
    rw [hcursor]
    exact hrefills.pads.drop _
  · exact hpos (Nat.succ_pos _)
  · rw [hlast]
    show m1.stream[m1.cursor + 1 - 1]? = some t
    rw [hcursor, Nat.add_sub_cancel, hstream]
  · rw [hcurrent]
    show m1.tokenAt m1.cursor = t
    rw [hcursor, hat]
  · rw [hdepth]
    exact hrefills.grows.skipDepth_eq

theorem readToken_none (hm : m.Flowing broken) (h : Running.tokenAt broken m.upcoming 0 = none) :
    m.readToken.2 = .badText := by
  rw [← tokenAt_upcoming] at h
  have hbad := ensure_none hm h
  rw [readToken_eq, if_neg (by rw [hbad]; nofun), hbad]

/-! ## Skipping -/

theorem pass_some (hm : m.Flowing broken) (hdepth : m.skipDepth ≠ 0)
    (h : Running.tokenAt broken m.upcoming 0 = some t) :
    ∃ m', m.skipAll = m'.skipAll ∧ Passes broken m m' t ∧ m'.current = m.current ∧
      m'.skipDepth = openAfter t.kind m.skipDepth ∧ m'.cursor ≤ m'.buffer.size := by
  rw [← tokenAt_upcoming] at h
  obtain ⟨m1, hensure, hrefills, hsize, hat, hstream⟩ := ensure_some hm h
  have hcursor : m1.cursor = m.cursor := hrefills.grows.cursor_eq
  have hmoved : Advances broken m1 m1.pass :=
    ⟨rfl, rfl, rfl, rfl, rfl, hrefills.sound, rfl, fun _ => .refl broken _⟩
  refine ⟨m1.pass, ?_, ⟨hrefills.advances.trans hmoved, ?_, Nat.succ_pos _, ?_⟩, hrefills.current_eq, ?_, ?_⟩
  · rw [skipAll_eq hm.sound, if_neg hdepth, hensure]
    rfl
  · rw [upcoming, upcoming, List.drop_drop]
    show Pads broken _ (m1.stream.drop (m1.cursor + 1))
    rw [hcursor]
    exact hrefills.pads.drop _
  · show m1.stream[m1.cursor + 1 - 1]? = some t
    rw [hcursor, Nat.add_sub_cancel, hstream]
  · rw [pass, hcursor, hat]
    show openAfter t.kind m1.skipDepth = _
    rw [hrefills.grows.skipDepth_eq]
  · show m1.cursor + 1 ≤ m1.buffer.size
    omega

theorem Passes.over {m' : Machine} {rest : List Token} (h : Passes broken m m' t)
    (hrest : Pads broken rest m'.upcoming) (hdepth : m'.skipDepth = 0)
    (hcursor : m'.cursor ≤ m'.buffer.size) :
    ∃ m'', m'.skipAll = (m'', .ready) ∧ Advances broken m m'' ∧ Pads broken rest m''.upcoming ∧
      0 < m''.cursor ∧ m''.stream[m''.cursor - 1]? = some t ∧ m''.current = m'.current ∧
      m''.skipDepth = 0 := by
  obtain ⟨hadvances, hahead, hlast, hpos, hcurrent, hskip⟩ := @compact_advances broken m' h.sound hcursor
  exact ⟨m'.compact, skipAll_over hdepth, h.toAdvances.trans hadvances, by rw [hahead]; exact hrest,
    hpos h.cursor_pos, hlast.trans h.last, hcurrent, hskip.trans hdepth⟩

/-- A skip goes as far as the containers that are open, if the text does. -/
theorem skipAll_passes (hm : m.Flowing broken) (hdepth : m.skipDepth ≠ 0) (hcoming : Pads broken coming m.upcoming) :
    match passed broken m.skipDepth coming with
    | some (t, rest) => ∃ m', m.skipAll = (m', .ready) ∧ Advances broken m m' ∧ Pads broken rest m'.upcoming ∧
        0 < m'.cursor ∧ m'.stream[m'.cursor - 1]? = some t ∧ m'.current = m.current ∧ m'.skipDepth = 0
    | none => m.skipAll.2 = .badText := by
  induction coming generalizing m with
  | nil =>
    cases broken with
    | true =>
      have hbad := @ensure_none true m hm m.cursor (by
        rw [tokenAt_upcoming, hcoming.tokenAt_eq]
        rfl)
      show m.skipAll.2 = .badText
      rw [skipAll_eq hm.sound, if_neg hdepth, if_neg (by rw [hbad]; nofun), hbad]
    | false =>
      have htoken : Running.tokenAt false m.upcoming 0 = some .none := by
        rw [hcoming.tokenAt_eq]
        rfl
      obtain ⟨m1, hskip, hpasses, hcurrent, hopen, hcursor⟩ := pass_some hm hdepth htoken
      obtain ⟨m', hover, h'⟩ := hpasses.over ((hcoming.drop 1).trans hpasses.upcoming) hopen hcursor
      rw [hcurrent] at h'
      exact ⟨m', hskip.trans hover, h'⟩
  | cons t' coming ih =>
    have htoken : Running.tokenAt broken m.upcoming 0 = some t' := by
      rw [hcoming.tokenAt_eq]
      rfl
    obtain ⟨m1, hskip, hpasses, hcurrent, hopen, hcursor⟩ := pass_some hm hdepth htoken
    have hcoming' : Pads broken coming m1.upcoming := (hcoming.drop 1).trans hpasses.upcoming
    rw [passed]
    by_cases hzero : openAfter t'.kind m.skipDepth = 0
    · obtain ⟨m', hover, h'⟩ := hpasses.over hcoming' (hopen.trans hzero) hcursor
      rw [hcurrent] at h'
      rw [if_pos hzero]
      exact ⟨m', hskip.trans hover, h'⟩
    · have hrest := ih (hpasses.flowing hm) (by rwa [hopen]) hcoming'
      rw [hopen] at hrest
      rw [if_neg hzero, hskip]
      split at hrest
      · obtain ⟨m', hall, hadvances, hahead, hpos, hlast, hsame, hover⟩ := hrest
        exact ⟨m', hall, hpasses.toAdvances.trans hadvances, hahead, hpos, hlast, hsame.trans hcurrent, hover⟩
      · exact hrest

/-! ## Looking at a value -/

theorem tokenAt_drop {list : List Token} (h : Pads broken coming (list.drop place)) :
    Running.tokenAt broken list place = Running.tokenAt broken coming 0 := by
  rw [← h.tokenAt_eq, Running.tokenAt, Running.tokenAt, List.getElem?_drop, Nat.add_zero]

theorem Refills.pads_next (h : Refills broken m m') {t : Token}
    (hcoming : Pads broken (t :: coming) (m.stream.drop place)) :
    Pads broken coming (m'.stream.drop (place + 1)) := by
  have hdrop := hcoming.drop 1
  rw [List.drop_drop] at hdrop
  exact Pads.trans hdrop (h.pads.drop _)

/-- The value that is found ahead is the one with which the tokens go on. -/
theorem scanAll_look (hm : m.Flowing broken) {stack : List Partial}
    (hcoming : Pads broken coming (m.stream.drop place)) :
    match look broken stack coming with
    | .value v => ∃ m', m.scanAll place stack = (m', .value v) ∧ Refills broken m m'
    | _ => (m.scanAll place stack).2 = .badText := by
  induction coming generalizing m place stack with
  | nil =>
    cases broken with
    | true =>
      have hbad := @ensure_none true m hm place (by rw [tokenAt_drop hcoming]; rfl)
      show (m.scanAll place stack).2 = .badText
      rw [scanAll_eq hm.sound, hbad]
    | false =>
      obtain ⟨m1, hensure, -, -, hat, -⟩ := @ensure_some false m hm place .none (by rw [tokenAt_drop hcoming]; rfl)
      show (m.scanAll place stack).2 = .badText
      rw [scanAll_eq hm.sound, hensure]
      dsimp only
      rw [hat, step_none]
  | cons t coming ih =>
    obtain ⟨m1, hensure, hrefills, -, hat, -⟩ := ensure_some hm
      (show Running.tokenAt broken m.stream place = some t by rw [tokenAt_drop hcoming]; rfl)
    rw [look, scanAll_eq hm.sound, hensure]
    dsimp only
    rw [hat]
    cases hstep : Reading.step stack t with
    | more stack' =>
      have hrest := @ih m1 (place + 1) (hrefills.flowing hm) stack' (hrefills.pads_next hcoming)
      dsimp only
      split at hrest
      · obtain ⟨m', hscan, hrefills'⟩ := hrest
        exact ⟨m', hscan, hrefills.trans hrefills'⟩
      · exact hrest
    | value w => exact ⟨m1, rfl, hrefills⟩
    | bad => rfl

theorem scan_look (hm : m.Flowing broken) (hcoming : Pads broken coming m.upcoming) : match look broken [] coming with
    | .value v => ∃ m', m.scan = (m', .value v) ∧ Refills broken m m'
    | _ => m.scan.2 = .badText := by
  rw [scan_eq hm.sound]
  exact scanAll_look hm hcoming

end

end Machine

end JsonSieve
