import JsonSieve.Machine.Tokens
import JsonSieve.Proofs.Lexer.Extension

/-!
# Reading with part of the text

A machine that has part of the text is compared with a machine that has more of the text and a meter that
lets pass at least as much, and is the same otherwise (`Follows`). Whatever the first one reads, the second
one reads too. Where the first one has to stop, for more of the text or because of a limit, it has done a
part of what the second one does, and can go on from there (`Tracks`). Skipping and looking ahead are bounded
by the text at hand, and the bound is never reached (`skip_fuel`, `scanFrom_fuel`).
-/

namespace JsonSieve

/-! ## Meters -/

/-- How the meter of one machine is compared with the meter of another: the second one reports what the first
one reports, unless that is a limit that it `drops`. -/
structure Metering where
  rel : Meter → Meter → Prop
  drops : LimitError → Prop
  buffer {a b : Meter} (h : rel a b) (n : Nat) :
    b.checkBuffer n = a.checkBuffer n ∨ ∃ e, a.checkBuffer n = some e ∧ drops e
  tick {a b : Meter} (h : rel a b) : rel a.tick.1 b.tick.1 ∧ (b.tick.2 = a.tick.2 ∨ ∃ e, a.tick.2 = some e ∧ drops e)

/-- The meters compare also when only the first one has counted an instruction or looked at the clock. -/
structure Easing extends Metering where
  wait {a b : Meter} (h : rel a b) : rel a.tick.1 b
  clock {a b : Meter} (h : rel a b) (elapsed : Nat) : rel (a.atTime elapsed) b

/-- What the meter limits, if it limits anything but the depth of calls. -/
def Meter.limits? : Meter → Option Limits
  | .free => none
  | .limited limits _ _ => some limits

theorem Meter.tick_of_uncounted {limits : Limits} {count elapsed : Nat} (h : limits.instructions = none)
    (h' : limits.time = none) : (Meter.limited limits count elapsed).tick.2 = none := by
  simp only [tick, tick.overCount, tick.overTime, h, h']
  rfl

namespace Metering

/-- The second meter lets any number of tokens be kept. -/
def Open (E : Metering) : Prop := ∀ ⦃a b : Meter⦄, E.rel a b → ∀ n, b.checkBuffer n = none

/-- Both meters let the same pass. -/
structure Exact (E : Metering) : Prop where
  keeps (e : LimitError) : ¬ E.drops e
  depth {a b : Meter} (h : E.rel a b) : a.maxDepth = b.maxDepth

end Metering

namespace Easing

def free : Easing where
  rel _ b := b = .free
  drops _ := True
  buffer {a b} h n := by
    rw [h]
    cases a.checkBuffer n with
    | none => exact .inl rfl
    | some e => exact .inr ⟨e, rfl, trivial⟩
  tick {a b} h := by
    rw [h]
    cases a.tick.2 with
    | none => exact ⟨rfl, .inl rfl⟩
    | some e => exact ⟨rfl, .inr ⟨e, rfl, trivial⟩⟩
  wait h := h
  clock h _ := h

theorem free_open : free.Open := by
  rintro _ _ rfl n
  rfl

/-- The two meters have the same limits, and neither instructions nor time are limited. -/
def uncounted : Easing where
  rel a b := a.limits? = b.limits? ∧ ∀ l ∈ a.limits?, l.instructions = none ∧ l.time = none
  drops _ := False
  buffer {a b} h n := by
    cases a <;> cases b <;> cases h.1 <;> exact .inl rfl
  tick {a b} h := by
    obtain ⟨hsame, hnone⟩ := h
    cases a with
    | free =>
      cases b <;> cases hsame
      exact ⟨⟨rfl, nofun⟩, .inl rfl⟩
    | limited limits count elapsed =>
      cases b <;> cases hsame
      obtain ⟨hinstructions, htime⟩ := hnone limits rfl
      refine ⟨⟨rfl, hnone⟩, .inl ?_⟩
      rw [Meter.tick_of_uncounted hinstructions htime, Meter.tick_of_uncounted hinstructions htime]
  wait {a b} h := by
    cases a <;> exact h
  clock {a b} h elapsed := by
    cases a <;> exact h

theorem uncounted_exact : uncounted.Exact where
  keeps _ := id
  depth {a b} h := by
    cases a <;> cases b <;> cases h.1 <;> rfl

end Easing

/-- How two machines are compared: by their meters, and by their texts. If `patient`, the second machine has
more of the text and can wait where the first one asks for more; `last` says that nothing more comes. -/
structure Pairing extends Metering where
  texts : Lexer → Lexer → Prop
  patient : Prop
  last : Prop
  sound {a b : Lexer} (h : texts a b) : a.Sound ∧ b.Sound
  next {a b : Lexer} (h : texts a b) : if a.next.2 = .needMore then
      (patient → texts a.next.1 b) ∧ (last → b.next.2 = .needMore ∧ texts a.next.1 b.next.1)
    else b.next.2 = a.next.2 ∧ texts a.next.1 b.next.1
  wait (hpatient : patient) {a b : Meter} (h : rel a b) : rel a.tick.1 b

/-- Nothing more comes, and the text stays open. -/
def Machine.Last (rest : List UInt8) (final : Bool) : Prop := rest = [] ∧ final = false

/-- The second machine has the rest of the text too. -/
def Easing.over (E : Easing) (rest : List UInt8) (final : Bool) : Pairing where
  toMetering := E.toMetering
  texts := Lexer.Awaits rest final
  patient := True
  last := Machine.Last rest final
  sound h := ⟨h.sound_left, h.sound_right⟩
  next {a b} h := by
    have hnext := h.next
    split
    · next hmore =>
      rw [if_pos hmore] at hnext
      refine ⟨fun _ => hnext, ?_⟩
      rintro ⟨rfl, rfl⟩
      exact h.needMore hmore
    · next hmore => rwa [if_neg hmore] at hnext
  wait _ := E.wait

namespace Machine

def relabel (input : Lexer) (meter : Meter) (m : Machine) : Machine := { m with input, meter }

/-- The machine `f` is `m` with more of the text and an easier meter. -/
def Follows (P : Pairing) (m f : Machine) : Prop :=
  ∃ input meter, P.texts m.input input ∧ P.rel m.meter meter ∧ f = m.relabel input meter

/-- Both machines get the same answer and go on alike. -/
def Agree {α : Type} (P : Pairing) (ask : Machine → Machine × α) (m f : Machine) : Prop :=
  (ask f).2 = (ask m).2 ∧ Follows P (ask m).1 (ask f).1

/-- The first machine has done a part of what the second one does, and can ask again. -/
def Resumes {α : Type} (P : Pairing) (ask : Machine → Machine × α) (m f : Machine) : Prop :=
  ∃ f', Follows P (ask m).1 f' ∧ ask f' = ask f

/-- An answer that both machines get: to wait is one if nothing more comes, and to exceed a limit is one if
the second machine has it too. -/
def Fetch.Shared (P : Pairing) : Fetch → Prop
  | .ready | .badText => True
  | .needMore => P.last
  | .limit e => ¬ P.drops e

/-- An answer after which the machine can ask again; after a limit, if the second machine has none. -/
def Fetch.Stops (P : Pairing) : Fetch → Prop
  | .ready | .badText => False
  | .needMore => P.patient
  | .limit _ => P.Open

/-- What looking at a value comes to, without the value. -/
def Scan.fetch : Scan → Fetch
  | .value _ => .ready
  | .needMore => .needMore
  | .badText => .badText
  | .limit e => .limit e

/-- What asking for tokens with part of the text has to do with asking with more of it; `kind` says
what an answer comes to. -/
structure Tracks {α : Type} (kind : α → Fetch) (P : Pairing)
    (ask : Machine → Machine × α) (m f : Machine) : Prop where
  agree : (kind (ask m).2).Shared P → Agree P ask m f
  resumes : (kind (ask m).2).Stops P → Resumes P ask m f

section

variable {P : Pairing} {m f : Machine}

namespace Follows

theorem buffer_eq (h : Follows P m f) : f.buffer = m.buffer := by
  obtain ⟨input, meter, -, -, rfl⟩ := h
  rfl

theorem cursor_eq (h : Follows P m f) : f.cursor = m.cursor := by
  obtain ⟨input, meter, -, -, rfl⟩ := h
  rfl

theorem skipDepth_eq (h : Follows P m f) : f.skipDepth = m.skipDepth := by
  obtain ⟨input, meter, -, -, rfl⟩ := h
  rfl

theorem sound_left (h : Follows P m f) : m.input.Sound := by
  obtain ⟨input, meter, hin, hmeter, rfl⟩ := h
  exact (P.sound hin).1

theorem sound_right (h : Follows P m f) : f.input.Sound := by
  obtain ⟨input, meter, hin, hmeter, rfl⟩ := h
  exact (P.sound hin).2

/-- Changing what does not belong to the text and the meter keeps the two machines together. -/
theorem map (h : Follows P m f) (change : Machine → Machine)
    (hinput : ∀ m : Machine, (change m).input = m.input) (hkept : ∀ m : Machine, (change m).meter = m.meter)
    (hrelabel : ∀ (m : Machine) (input : Lexer) (meter : Meter),
      change (m.relabel input meter) = (change m).relabel input meter) :
    Follows P (change m) (change f) := by
  obtain ⟨input, meter, hin, hmeter, rfl⟩ := h
  exact ⟨input, meter, by rw [hinput]; exact hin, by rw [hkept]; exact hmeter, hrelabel m input meter⟩

end Follows

/-! ## Tokens -/

theorem tokenAt_follows (h : Follows P m f) (place : Nat) : f.tokenAt place = m.tokenAt place := by
  unfold tokenAt
  rw [h.buffer_eq]

theorem keep_eq (t : Token) (m : Machine) : keep t m = ({ m with buffer := m.buffer.push t },
      match m.meter.checkBuffer (m.buffer.push t).size with
      | some e => .limit e
      | none => .ready) := by
  cases h : m.meter.checkBuffer (m.buffer.push t).size <;> simp only [keep, h]

/-- A token is kept, whether or not there are too many of them. -/
theorem keep_follows (h : Follows P m f) (t : Token) : ((keep t m).2.Shared P → Agree P (keep t) m f) ∧
    ((keep t m).2.Stops P → (keep t f).2 = .ready ∧ Follows P (keep t m).1 (keep t f).1) := by
  obtain ⟨input, meter, hin, hmeter, rfl⟩ := h
  unfold Agree
  simp only [keep_eq, relabel]
  refine ⟨fun hshared => ⟨?_, input, meter, hin, hmeter, rfl⟩, fun hstops => ⟨?_, input, meter, hin, hmeter, rfl⟩⟩
  · rcases P.buffer hmeter (m.buffer.push t).size with hsame | ⟨e, hlimit, hdrops⟩
    · rw [hsame]
    · rw [hlimit] at hshared
      exact absurd hdrops hshared
  · cases hkeep : m.meter.checkBuffer (m.buffer.push t).size with
    | none =>
      rw [hkeep] at hstops
      exact hstops.elim
    | some e =>
      rw [hkeep] at hstops
      rw [hstops hmeter]

def receive (input : Lexer) (m : Machine) : Lexed → Machine × Fetch
  | .token t => keep t { m with input }
  | .eof => keep .none { m with input }
  | .needMore => ({ m with input }, .needMore)
  | .error _ => ({ m with input }, .badText)

theorem fetch_of {input : Lexer} {answer : Lexed}
    (h : m.input.next = (input, answer)) : m.fetch = m.receive input answer := by
  unfold fetch receive
  rw [h]
  cases answer <;> rfl

/-- Reading a token: both machines get it, or the first one has to wait, or only the first one is limited. -/
theorem fetch_follows (h : Follows P m f) : (m.fetch.2.Shared P → Agree P fetch m f) ∧
    (m.fetch.2.Stops P → Follows P m.fetch.1 f ∨ f.fetch.2 = .ready ∧ Follows P m.fetch.1 f.fetch.1) := by
  obtain ⟨input, meter, hin, hmeter, rfl⟩ := h
  have hnext := P.next hin
  rcases ha : m.input.next with ⟨a, answer⟩
  rcases hb : input.next with ⟨b, answer'⟩
  have hmoved : P.texts a b → Follows P { m with input := a } { m.relabel input meter with input := b } :=
    fun hab => ⟨b, meter, hab, hmeter, rfl⟩
  unfold Agree
  rw [fetch_of ha, fetch_of (show (m.relabel input meter).input.next = _ from hb)]
  rw [ha, hb] at hnext
  cases answer with
  | needMore =>
    refine ⟨fun hlast => ?_, fun hpatient => .inl ⟨input, meter, hnext.1 hpatient, hmeter, rfl⟩⟩
    obtain ⟨rfl, htexts⟩ := hnext.2 hlast
    exact ⟨rfl, hmoved htexts⟩
  | error e =>
    obtain ⟨rfl, htexts⟩ := hnext
    exact ⟨fun _ => ⟨rfl, hmoved htexts⟩, False.elim⟩
  | eof =>
    obtain ⟨rfl, htexts⟩ := hnext
    exact (keep_follows (hmoved htexts) .none).imp_right fun h hstops => .inr (h hstops)
  | token t =>
    obtain ⟨rfl, htexts⟩ := hnext
    exact (keep_follows (hmoved htexts) t).imp_right fun h hstops => .inr (h hstops)

theorem fetch_size (h : m.fetch.2 = .ready) : m.fetch.1.buffer.size = m.buffer.size + 1 := by
  unfold fetch at h ⊢
  rcases hn : m.input.next with ⟨input, answer⟩
  rw [hn] at h
  cases answer with
  | token t => simp only [keep_eq, Array.size_push]
  | eof => simp only [keep_eq, Array.size_push]
  | needMore => cases h
  | error e => cases h

theorem fill_succ (n : Nat) (m : Machine) :
    fill (n + 1) m = if m.fetch.2 = .ready then fill n m.fetch.1 else m.fetch := by
  rw [fill]
  rcases m.fetch with ⟨m', answer⟩
  cases answer <;> rfl

/-- The first machine has read some of several tokens, and the second one can read the others. -/
def FillsOn (P : Pairing) (n : Nat) (m f : Machine) : Prop :=
  ∃ f' k, Follows P (fill n m).1 f' ∧ fill k f' = fill n f ∧ f'.buffer.size + k = f.buffer.size + n

theorem fill_follows (h : Follows P m f) (n : Nat) : ((fill n m).2.Shared P → Agree P (fill n) m f) ∧
    ((fill n m).2.Stops P → FillsOn P n m f) := by
  induction n generalizing m f with
  | zero => exact ⟨fun _ => ⟨rfl, h⟩, False.elim⟩
  | succ n ih =>
    obtain ⟨hagree, hresumes⟩ := fetch_follows h
    unfold Agree FillsOn at *
    rw [fill_succ n m, fill_succ n f]
    by_cases hm : m.fetch.2 = .ready
    · obtain ⟨hf, hfollows⟩ := hagree (by rw [hm]; trivial)
      have hsize : f.fetch.1.buffer.size + n = f.buffer.size + (n + 1) := by
        rw [fetch_size (hf.trans hm)]
        omega
      rw [if_pos hm, if_pos (hf.trans hm), ← hsize]
      exact ih hfollows
    · rw [if_neg hm]
      refine ⟨fun hshared => ?_, fun hstops => ?_⟩
      · obtain ⟨hf, hfollows⟩ := hagree hshared
        rw [if_neg (by rwa [hf])]
        exact ⟨hf, hfollows⟩
      · rcases hresumes hstops with hwaits | ⟨hf, hfollows⟩
        · exact ⟨f, n + 1, hwaits, fill_succ n f, rfl⟩
        · refine ⟨f.fetch.1, n, hfollows, by rw [if_pos hf], ?_⟩
          rw [fetch_size hf]
          omega

theorem ensure_tracks (h : Follows P m f) (place : Nat) : Tracks id P (ensure place) m f := by
  have hsize : f.buffer.size = m.buffer.size := by rw [h.buffer_eq]
  obtain ⟨hagree, hresumes⟩ := fill_follows h (place + 1 - m.buffer.size)
  refine ⟨fun hshared => ?_, fun hstops => ?_⟩
  · have hfill := hagree hshared
    unfold Agree ensure at *
    rwa [hsize]
  · obtain ⟨f', k, hfollows, hfill, hk⟩ := hresumes hstops
    have hleft : place + 1 - m.buffer.size ≠ 0 := by
      intro hzero
      unfold ensure at hstops
      rw [hzero] at hstops
      exact hstops
    refine ⟨f', hfollows, ?_⟩
    unfold ensure
    rw [show place + 1 - f'.buffer.size = k by omega, hfill, hsize]

/-! ## What reading changes -/

/-- What reading one token does to a machine is done by reading any number of them. -/
structure Fetches (R : Machine → Machine → Prop) : Prop where
  refl (m : Machine) : R m m
  trans {m1 m2 m3 : Machine} (h1 : R m1 m2) (h2 : R m2 m3) : R m1 m3
  fetch (m : Machine) : R m m.fetch.1

namespace Fetches

variable {R : Machine → Machine → Prop}

theorem fill (h : Fetches R) (n : Nat) (m : Machine) : R m (fill n m).1 := by
  induction n generalizing m with
  | zero => exact h.refl m
  | succ n ih =>
    rw [fill_succ]
    split
    · exact h.trans (h.fetch m) (ih m.fetch.1)
    · exact h.fetch m

theorem ensure (h : Fetches R) (place : Nat) (m : Machine) : R m (m.ensure place).1 := h.fill _ m

end Fetches

/-- Tokens have been added to the buffer, and nothing else has changed but the text. -/
def Grows (m m' : Machine) : Prop :=
  ∃ input tokens, m' = { m with input, buffer := m.buffer ++ tokens }

namespace Grows

theorem refl (m : Machine) : Grows m m := ⟨m.input, #[], by simp⟩

theorem trans {m1 m2 m3 : Machine} (h1 : Grows m1 m2) (h2 : Grows m2 m3) : Grows m1 m3 := by
  obtain ⟨input1, tokens1, rfl⟩ := h1
  obtain ⟨input2, tokens2, rfl⟩ := h2
  exact ⟨input2, tokens1 ++ tokens2, by simp⟩

variable {m' : Machine}

theorem cursor_eq (h : Grows m m') : m'.cursor = m.cursor := by
  obtain ⟨input, tokens, rfl⟩ := h
  rfl

theorem skipDepth_eq (h : Grows m m') : m'.skipDepth = m.skipDepth := by
  obtain ⟨input, tokens, rfl⟩ := h
  rfl

theorem lt_size (h : Grows m m') {place : Nat} (hplace : place < m.buffer.size) : place < m'.buffer.size := by
  obtain ⟨input, tokens, rfl⟩ := h
  rw [Array.size_append]
  omega

end Grows

theorem keep_grows (t : Token) (m : Machine) (input : Lexer) : Grows m (keep t { m with input }).1 := by
  rw [keep_eq]
  exact ⟨input, #[t], by simp⟩

theorem fetch_grows (m : Machine) : Grows m m.fetch.1 := by
  unfold fetch
  rcases m.input.next with ⟨input, answer⟩
  cases answer with
  | token t => exact keep_grows t m input
  | eof => exact keep_grows .none m input
  | needMore => exact ⟨input, #[], by simp⟩
  | error e => exact ⟨input, #[], by simp⟩

theorem fetches_grows : Fetches Grows := ⟨Grows.refl, Grows.trans, fetch_grows⟩

theorem ensure_grows (place : Nat) (m : Machine) : Grows m (m.ensure place).1 := fetches_grows.ensure place m

/-! ## How much there is to read -/

/-- No more tokens than that can be read from a place of the buffer on before the text at hand ends. -/
def ahead (m : Machine) (place : Nat) : Nat := m.buffer.size - place + m.input.pending.length

theorem lookahead_eq (h : m.input.Sound) : m.lookahead = m.ahead m.cursor + 2 := by
  have hfed := h.fed_eq
  unfold lookahead ahead
  omega

theorem fetch_sound (h : m.input.Sound) : m.fetch.1.input.Sound := by
  have hnext := h.next
  unfold fetch
  rcases hn : m.input.next with ⟨input, answer⟩
  rw [hn] at hnext
  cases answer <;> simpa only [keep_eq] using hnext

/-- A token that is read takes bytes, unless it is the empty one behind the end. -/
theorem fetch_ready (h : m.input.Sound) (hready : m.fetch.2 = .ready) : m.fetch.1.tokenAt m.buffer.size = .none ∨
      m.fetch.1.input.pending.length < m.input.pending.length := by
  unfold fetch at hready ⊢
  rcases hn : m.input.next with ⟨input, answer⟩
  rw [hn] at hready
  cases answer with
  | token t => exact .inr (by simpa only [keep_eq] using Lexer.next_token_lt h hn)
  | eof => exact .inl (by simp [keep_eq, tokenAt])
  | needMore => cases hready
  | error e => cases hready

theorem fetch_pending_le (h : m.input.Sound) : m.fetch.1.input.pending.length ≤ m.input.pending.length := by
  have hnext := Lexer.next_pending_le h
  unfold fetch
  rcases hn : m.input.next with ⟨input, answer⟩
  rw [hn] at hnext
  cases answer <;> simpa only [keep_eq] using hnext

theorem fetches_sound : Fetches fun m m' => m.input.Sound → m'.input.Sound :=
  ⟨fun _ h => h, fun h1 h2 h => h2 (h1 h), fun _ => fetch_sound⟩

theorem ensure_sound (h : m.input.Sound) (place : Nat) : (ensure place m).1.input.Sound :=
  fetches_sound.ensure place m h

/-- The last of several tokens that are read takes bytes, unless it is the empty one. -/
theorem fill_ready (h : m.input.Sound) (n : Nat) (hready : (fill (n + 1) m).2 = .ready) :
    (fill (n + 1) m).1.buffer.size = m.buffer.size + (n + 1) ∧
    ((fill (n + 1) m).1.tokenAt (m.buffer.size + n) = .none ∨
      (fill (n + 1) m).1.input.pending.length < m.input.pending.length) := by
  induction n generalizing m with
  | zero =>
    rw [fill_succ] at hready ⊢
    split at hready
    · next hf =>
      rw [if_pos hf]
      exact ⟨fetch_size hf, fetch_ready h hf⟩
    · next hf => exact absurd hready hf
  | succ n ih =>
    rw [fill_succ] at hready ⊢
    split at hready
    · next hf =>
      obtain ⟨hsize, hlast⟩ := ih (fetch_sound h) hready
      have hfetched := fetch_size hf
      rw [if_pos hf]
      refine ⟨by omega, ?_⟩
      rw [show m.buffer.size + (n + 1) = m.fetch.1.buffer.size + n by omega]
      exact hlast.imp_right fun hlt => Nat.lt_of_lt_of_le hlt (fetch_pending_le h)
    · next hf => exact absurd hready hf

variable {place n : Nat}

theorem ensure_ready (h : m.input.Sound) (hready : (ensure place m).2 = .ready) :
    (ensure place m).1.tokenAt place = .none ∨ (ensure place m).1.ahead (place + 1) < m.ahead place := by
  unfold ensure at hready ⊢
  cases hn : place + 1 - m.buffer.size with
  | zero =>
    refine .inr ?_
    show m.ahead (place + 1) < m.ahead place
    unfold ahead
    omega
  | succ n =>
    rw [hn] at hready
    obtain ⟨hsize, hlast⟩ := fill_ready h n hready
    rw [show m.buffer.size + n = place by omega] at hlast
    refine hlast.imp_right fun hlt => ?_
    unfold ahead
    omega

/-! ## Reading the next token -/

theorem compact_relabel (m : Machine) (input : Lexer) (meter : Meter) :
    compact (m.relabel input meter) = (compact m).relabel input meter := by
  unfold compact relabel
  split <;> rfl

theorem compact_input (m : Machine) : (compact m).input = m.input := by
  unfold compact
  split <;> rfl

theorem compact_meter (m : Machine) : (compact m).meter = m.meter := by
  unfold compact
  split <;> rfl

theorem compact_follows (h : Follows P m f) : Follows P m.compact f.compact :=
  h.map compact compact_input compact_meter compact_relabel

/-- The token at the cursor becomes the current one. -/
def take (m : Machine) : Machine :=
  compact { m with current := m.tokenAt m.cursor, cursor := m.cursor + 1 }

theorem readToken_eq (m : Machine) : m.readToken =
    if (m.ensure m.cursor).2 = .ready then ((m.ensure m.cursor).1.take, .ready) else m.ensure m.cursor := by
  unfold readToken
  rcases m.ensure m.cursor with ⟨m', answer⟩
  cases answer <;> rfl

theorem take_follows (h : Follows P m f) : Follows P m.take f.take := by
  obtain ⟨input, meter, hin, hmeter, rfl⟩ := h
  exact compact_follows ⟨input, meter, hin, hmeter, rfl⟩

theorem readToken_tracks (h : Follows P m f) : Tracks id P readToken m f := by
  have hensure := ensure_tracks h m.cursor
  refine ⟨fun hshared => ?_, fun hstops => ?_⟩
  · unfold Agree
    rw [readToken_eq m] at hshared ⊢
    rw [readToken_eq f, h.cursor_eq]
    by_cases hm : (m.ensure m.cursor).2 = .ready
    · obtain ⟨hf, hfollows⟩ := hensure.agree (by rw [hm]; trivial)
      rw [if_pos hm, if_pos (hf.trans hm)]
      exact ⟨rfl, take_follows hfollows⟩
    · rw [if_neg hm] at hshared
      obtain ⟨hf, hfollows⟩ := hensure.agree hshared
      rw [if_neg hm, if_neg (by rwa [hf])]
      exact ⟨hf, hfollows⟩
  · unfold Resumes
    rw [readToken_eq m] at hstops ⊢
    by_cases hm : (m.ensure m.cursor).2 = .ready
    · rw [if_pos hm] at hstops
      exact hstops.elim
    · rw [if_neg hm] at hstops ⊢
      obtain ⟨f', hfollows, hsame⟩ := hensure.resumes hstops
      have hcursor : f'.cursor = m.cursor := by
        rw [hfollows.cursor_eq, (ensure_grows m.cursor m).cursor_eq]
      refine ⟨f', hfollows, ?_⟩
      rw [readToken_eq f', readToken_eq f, hcursor, h.cursor_eq, hsame]

/-! ## Skipping -/

def pass (m : Machine) : Machine :=
  { m with skipDepth := openAfter (m.tokenAt m.cursor).kind m.skipDepth, cursor := m.cursor + 1 }

theorem skip_succ (n : Nat) (m : Machine) : skip (n + 1) m = if m.skipDepth = 0 then (m.compact, .ready)
    else if (m.ensure m.cursor).2 = .ready then skip n (m.ensure m.cursor).1.pass else m.ensure m.cursor := by
  rw [skip]
  split
  · rfl
  · rcases m.ensure m.cursor with ⟨m', answer⟩
    cases answer <;> rfl

theorem pass_follows (h : Follows P m f) : Follows P m.pass f.pass := by
  obtain ⟨input, meter, hin, hmeter, rfl⟩ := h
  exact ⟨input, meter, hin, hmeter, rfl⟩

/-- After one more token the skip is over or there is less to read. -/
theorem pass_ahead (h : m.input.Sound) (hready : (m.ensure m.cursor).2 = .ready) :
    (m.ensure m.cursor).1.pass.skipDepth = 0 ∨
      (m.ensure m.cursor).1.pass.ahead (m.ensure m.cursor).1.pass.cursor < m.ahead m.cursor := by
  have hcursor := (ensure_grows m.cursor m).cursor_eq
  rcases ensure_ready h hready with hnone | hlt
  · refine .inl ?_
    simp only [pass, hcursor, hnone]
    rfl
  · refine .inr ?_
    simp only [pass, hcursor]
    exact hlt

theorem skip_fuel (h : m.input.Sound) {k : Nat} (hn : m.ahead m.cursor + 1 < n)
    (hk : m.ahead m.cursor + 1 < k) : skip n m = skip k m := by
  induction n generalizing m k with
  | zero => omega
  | succ n ih =>
    obtain ⟨k, rfl⟩ : ∃ k', k = k' + 1 := ⟨k - 1, by omega⟩
    have hsound : (m.ensure m.cursor).1.pass.input.Sound := ensure_sound h m.cursor
    rw [skip_succ, skip_succ]
    by_cases hready : (m.ensure m.cursor).2 = .ready
    · rcases pass_ahead h hready with hover | hlt
      · obtain ⟨n, rfl⟩ : ∃ n', n = n' + 1 := ⟨n - 1, by omega⟩
        obtain ⟨k, rfl⟩ : ∃ k', k = k' + 1 := ⟨k - 1, by omega⟩
        rw [skip_succ n, skip_succ k, if_pos hover, if_pos hover]
      · rw [ih (k := k) hsound (by omega) (by omega)]
    · rw [if_neg hready, if_neg hready]

/-- Skips until all containers are closed, as far as the text goes. -/
def skipAll (m : Machine) : Machine × Fetch := skip m.lookahead m

theorem skipAll_over (h : m.skipDepth = 0) : m.skipAll = (m.compact, .ready) := by
  rw [skipAll, show m.lookahead = m.buffer.size - m.cursor + (m.input.fed - m.input.offset) + 1 + 1
    from rfl, skip_succ, if_pos h]

theorem skip_eq_skipAll (h : m.input.Sound) (hn : m.ahead m.cursor + 1 < n) : skip n m = m.skipAll :=
  skip_fuel h hn (by rw [lookahead_eq h]; omega)

theorem skipAll_eq (h : m.input.Sound) : m.skipAll = if m.skipDepth = 0 then (m.compact, .ready)
    else if (m.ensure m.cursor).2 = .ready then (m.ensure m.cursor).1.pass.skipAll
    else m.ensure m.cursor := by
  have hsound : (m.ensure m.cursor).1.pass.input.Sound := ensure_sound h m.cursor
  rw [skipAll, lookahead_eq h, skip_succ]
  by_cases hready : (m.ensure m.cursor).2 = .ready
  · rcases pass_ahead h hready with hover | hlt
    · rw [skipAll, lookahead_eq hsound, skip_succ, skip_succ, if_pos hover, if_pos hover]
    · rw [skip_eq_skipAll hsound (by omega)]
  · rw [if_neg hready, if_neg hready]

theorem skipAll_follows (h : Follows P m f) : (m.skipAll.2.Shared P → Agree P skipAll m f) ∧
    (m.skipAll.2.Stops P → ∃ f', Follows P m.skipAll.1 f' ∧ f'.skipDepth ≠ 0 ∧ f'.skipAll = f.skipAll) := by
  induction hn : m.ahead m.cursor using Nat.strongRecOn generalizing m f with
  | _ n ih =>
  unfold Agree at ih ⊢
  rw [skipAll_eq h.sound_left, skipAll_eq h.sound_right, h.cursor_eq, h.skipDepth_eq]
  by_cases hover : m.skipDepth = 0
  · rw [if_pos hover, if_pos hover]
    exact ⟨fun _ => ⟨rfl, compact_follows h⟩, False.elim⟩
  rw [if_neg hover, if_neg hover]
  have hensure := ensure_tracks h m.cursor
  by_cases hm : (m.ensure m.cursor).2 = .ready
  · obtain ⟨hf, hfollows⟩ := hensure.agree (by rw [hm]; trivial)
    have hpass := pass_follows hfollows
    rw [if_pos hm, if_pos (hf.trans hm)]
    rcases pass_ahead h.sound_left hm with hover | hlt
    · rw [skipAll_over hover, skipAll_over (hpass.skipDepth_eq.trans hover)]
      exact ⟨fun _ => ⟨rfl, compact_follows hpass⟩, False.elim⟩
    · exact ih _ (hn ▸ hlt) hpass rfl
  · rw [if_neg hm]
    refine ⟨fun hshared => ?_, fun hstops => ?_⟩
    · obtain ⟨hf, hfollows⟩ := hensure.agree hshared
      rw [if_neg (by rwa [hf])]
      exact ⟨hf, hfollows⟩
    · obtain ⟨f', hfollows, hsame⟩ := hensure.resumes hstops
      have hgrows := ensure_grows m.cursor m
      have hcursor : f'.cursor = m.cursor := by rw [hfollows.cursor_eq, hgrows.cursor_eq]
      have hdepth : f'.skipDepth = m.skipDepth := by rw [hfollows.skipDepth_eq, hgrows.skipDepth_eq]
      refine ⟨f', hfollows, by rwa [hdepth], ?_⟩
      rw [skipAll_eq hfollows.sound_right, hcursor, hdepth, hsame, if_neg hover]

def beginSkip (m : Machine) : Machine :=
  { m with skipDepth := if m.skipDepth = 0 then 1 else m.skipDepth }

theorem beginSkip_of_open (h : m.skipDepth ≠ 0) : m.beginSkip = m := by
  unfold beginSkip
  rw [if_neg h]

theorem consume_eq (m : Machine) : m.consume =
    if m.skipDepth = 0 ∧ m.current.kind.opens = false then (m, .ready) else m.beginSkip.skipAll := by
  unfold consume skipAll beginSkip
  by_cases hdepth : m.skipDepth = 0
  · by_cases hopens : m.current.kind.opens <;> simp [hdepth, hopens, lookahead]
  · simp [hdepth]

theorem consume_tracks (h : Follows P m f) : Tracks id P consume m f := by
  have hbegin : Follows P m.beginSkip f.beginSkip := by
    obtain ⟨input, meter, hin, hmeter, rfl⟩ := h
    exact ⟨input, meter, hin, hmeter, rfl⟩
  have hcurrent : f.current = m.current := by
    obtain ⟨input, meter, -, -, rfl⟩ := h
    rfl
  by_cases hnothing : m.skipDepth = 0 ∧ m.current.kind.opens = false
  · have hm : m.consume = (m, .ready) := by rw [consume_eq, if_pos hnothing]
    have hf : f.consume = (f, .ready) := by
      rw [consume_eq, h.skipDepth_eq, hcurrent, if_pos hnothing]
    refine ⟨fun _ => ?_, fun hstops => ?_⟩
    · unfold Agree
      rw [hm, hf]
      exact ⟨rfl, h⟩
    · rw [hm] at hstops
      exact hstops.elim
  · have hm : m.consume = m.beginSkip.skipAll := by rw [consume_eq, if_neg hnothing]
    have hf : f.consume = f.beginSkip.skipAll := by
      rw [consume_eq, h.skipDepth_eq, hcurrent, if_neg hnothing]
    obtain ⟨hagree, hresumes⟩ := skipAll_follows hbegin
    refine ⟨fun hshared => ?_, fun hstops => ?_⟩
    · have hskip := hagree (hm ▸ hshared)
      unfold Agree at *
      rwa [hm, hf]
    · obtain ⟨f', hfollows, hopen, hsame⟩ := hresumes (hm ▸ hstops)
      refine ⟨f', by rwa [hm], ?_⟩
      rw [hf, consume_eq f', if_neg (fun hc => hopen hc.1), beginSkip_of_open hopen, hsame]

/-! ## Looking at a value -/

theorem scanFrom_succ [NumberText] (n place : Nat) (stack : List Partial) (m : Machine) :
    scanFrom (n + 1) place stack m = match (m.ensure place).2 with
      | .ready =>
        match Reading.step stack ((m.ensure place).1.tokenAt place) with
        | .more stack => scanFrom n (place + 1) stack (m.ensure place).1
        | .value v => ((m.ensure place).1, .value v)
        | .bad => ((m.ensure place).1, .badText)
      | .needMore => ((m.ensure place).1, .needMore)
      | .badText => ((m.ensure place).1, .badText)
      | .limit e => ((m.ensure place).1, .limit e) := by
  rw [scanFrom]
  rcases m.ensure place with ⟨m', answer⟩
  cases answer <;> rfl

theorem step_none [NumberText] (stack : List Partial) : Reading.step stack .none = .bad := rfl

/-- The bound on looking ahead is never reached. -/
theorem scanFrom_fuel [NumberText] (h : m.input.Sound) {k : Nat} (stack : List Partial)
    (hn : m.ahead place < n) (hk : m.ahead place < k) :
    scanFrom n place stack m = scanFrom k place stack m := by
  induction n generalizing m k place stack with
  | zero => omega
  | succ n ih =>
    obtain ⟨k, rfl⟩ : ∃ k', k = k' + 1 := ⟨k - 1, by omega⟩
    rw [scanFrom_succ, scanFrom_succ]
    cases hready : (m.ensure place).2 with
    | ready =>
      rcases ensure_ready h hready with hnone | hlt
      · simp only [hnone, step_none]
      · have hrest : ∀ stack, scanFrom n (place + 1) stack (m.ensure place).1 =
            scanFrom k (place + 1) stack (m.ensure place).1 :=
          fun stack => ih (ensure_sound h place) stack (by omega) (by omega)
        simp only [hrest]
    | needMore | badText | limit => rfl

/-- Reads the tokens of a value from a place on, as far as the text goes. -/
def scanAll [NumberText] (place : Nat) (stack : List Partial) (m : Machine) : Machine × Scan :=
  scanFrom (m.ahead place + 1) place stack m

theorem scan_eq [NumberText] (h : m.input.Sound) : m.scan = m.scanAll m.cursor [] := by
  rw [scan, lookahead_eq h]
  exact scanFrom_fuel h [] (by omega) (by omega)

theorem scanAll_eq [NumberText] (h : m.input.Sound) (place : Nat) (stack : List Partial) : m.scanAll place stack =
      match (m.ensure place).2 with
      | .ready =>
        match Reading.step stack ((m.ensure place).1.tokenAt place) with
        | .more stack => (m.ensure place).1.scanAll (place + 1) stack
        | .value v => ((m.ensure place).1, .value v)
        | .bad => ((m.ensure place).1, .badText)
      | .needMore => ((m.ensure place).1, .needMore)
      | .badText => ((m.ensure place).1, .badText)
      | .limit e => ((m.ensure place).1, .limit e) := by
  rw [scanAll, scanFrom_succ]
  cases hready : (m.ensure place).2 with
  | ready =>
    rcases ensure_ready h hready with hnone | hlt
    · simp only [hnone, step_none]
    · simp only [scanAll, fun stack => scanFrom_fuel (n := m.ahead place)
        (k := (m.ensure place).1.ahead (place + 1) + 1) (ensure_sound h place) stack hlt (by omega)]
  | needMore | badText | limit => rfl

theorem Fetches.scanFrom [NumberText] {R : Machine → Machine → Prop} (h : Fetches R) (n place : Nat)
    (stack : List Partial) (m : Machine) : R m (scanFrom n place stack m).1 := by
  induction n generalizing m place stack with
  | zero => exact h.refl m
  | succ n ih =>
    have hensure := h.ensure place m
    rw [scanFrom_succ]
    cases (m.ensure place).2 with
    | ready =>
      dsimp only
      cases Reading.step stack ((m.ensure place).1.tokenAt place) with
      | more stack => exact h.trans hensure (ih (place + 1) stack _)
      | value | bad => exact hensure
    | needMore | badText | limit => exact hensure

theorem scanFrom_grows [NumberText] (n place : Nat) (stack : List Partial) (m : Machine) :
    Grows m (scanFrom n place stack m).1 := fetches_grows.scanFrom n place stack m

theorem fill_size (h : (fill n m).2 = .ready) : (fill n m).1.buffer.size = m.buffer.size + n := by
  induction n generalizing m with
  | zero => rfl
  | succ n ih =>
    rw [fill_succ] at h ⊢
    split at h
    · next hf =>
      rw [if_pos hf, ih h, fetch_size hf]
      omega
    · next hf => exact absurd h hf

theorem ensure_size (h : (m.ensure place).2 = .ready) : place < (m.ensure place).1.buffer.size := by
  have hsize := fill_size h
  unfold ensure
  omega

theorem Grows.ensure_eq {m' : Machine} (h : Grows m m') (hplace : place < m.buffer.size) :
    m'.ensure place = (m', .ready) ∧ m'.tokenAt place = m.tokenAt place := by
  obtain ⟨input, tokens, rfl⟩ := h
  refine ⟨?_, ?_⟩
  · unfold ensure
    rw [Nat.sub_eq_zero_of_le (by simp only [Array.size_append]; omega)]
    rfl
  · simp only [tokenAt, Array.getElem?_append_left hplace]

theorem scanAll_more {stack stack' : List Partial} {k k' : Machine}
    (hsound : k.input.Sound) (hready : k.ensure place = (k', .ready))
    (hstep : Reading.step stack (k'.tokenAt place) = .more stack') :
    k.scanAll place stack = k'.scanAll (place + 1) stack' := by
  rw [scanAll_eq hsound, hready]
  simp only [hstep]

theorem scanAll_tracks (h : Follows P m f) (place : Nat) (stack : List Partial) :
    Tracks Scan.fetch P (scanAll place stack) m f := by
  induction hn : m.ahead place using Nat.strongRecOn generalizing m f place stack with
  | _ n ih =>
  have hensure := ensure_tracks h place
  cases hm : (m.ensure place).2 with
  | ready =>
    obtain ⟨hf, hfollows⟩ := hensure.agree (by rw [hm]; trivial)
    have hreadm : m.ensure place = ((m.ensure place).1, .ready) := by rw [← hm]
    have hreadf : f.ensure place = ((f.ensure place).1, .ready) := by rw [← hm, ← hf]
    have htoken := tokenAt_follows hfollows place
    cases hstep : Reading.step stack ((m.ensure place).1.tokenAt place) with
    | more stack' =>
      have hscanm := scanAll_more h.sound_left hreadm hstep
      have hscanf := scanAll_more h.sound_right hreadf (by rwa [htoken])
      rcases ensure_ready h.sound_left hm with hnone | hlt
      · rw [hnone] at hstep
        cases hstep
      have hrest := ih _ (hn ▸ hlt) hfollows (place + 1) stack' rfl
      refine ⟨fun hshared => ?_, fun hstops => ?_⟩
      · unfold Agree
        rw [hscanm] at hshared ⊢
        rw [hscanf]
        exact hrest.agree hshared
      rw [hscanm] at hstops
      obtain ⟨f', hfollows', hsame⟩ := hrest.resumes hstops
      -- the second machine finds in its buffer the tokens that the first one has passed
      have hgrows : Grows (m.ensure place).1 ((m.ensure place).1.scanAll (place + 1) stack').1 :=
        scanFrom_grows _ _ _ _
      have hplace : place < f'.buffer.size := by
        rw [hfollows'.buffer_eq]
        exact hgrows.lt_size (ensure_size hm)
      refine ⟨f', by rwa [hscanm], ?_⟩
      rw [scanAll_more hfollows'.sound_right ((Grows.refl f').ensure_eq hplace).1, hsame, hscanf]
      rw [tokenAt_follows hfollows', (hgrows.ensure_eq (ensure_size hm)).2]
      exact hstep
    | value | bad =>
      refine ⟨fun _ => ?_, fun hstops => ?_⟩
      · unfold Agree
        rw [scanAll_eq h.sound_left, scanAll_eq h.sound_right, hf, hm]
        simp only [htoken, hstep]
        exact ⟨trivial, hfollows⟩
      · rw [scanAll_eq h.sound_left, hm] at hstops
        simp only [hstep] at hstops
        exact hstops.elim
  | needMore | badText | limit =>
    refine ⟨fun hshared => ?_, fun hstops => ?_⟩
    · rw [scanAll_eq h.sound_left, hm] at hshared
      obtain ⟨hf, hfollows⟩ := hensure.agree (by rw [hm]; exact hshared)
      unfold Agree
      rw [scanAll_eq h.sound_left, scanAll_eq h.sound_right, hf, hm]
      exact ⟨rfl, hfollows⟩
    · rw [scanAll_eq h.sound_left, hm] at hstops
      obtain ⟨f', hfollows, hsame⟩ := hensure.resumes (by rw [hm]; exact hstops)
      refine ⟨f', by rwa [scanAll_eq h.sound_left, hm], ?_⟩
      rw [scanAll_eq hfollows.sound_right, scanAll_eq h.sound_right, hsame]

theorem scan_tracks (h : Follows P m f) : Tracks Scan.fetch P scan m f := by
  have hm := scan_eq h.sound_left
  have hf := scan_eq h.sound_right
  rw [h.cursor_eq] at hf
  have htracks := scanAll_tracks h m.cursor []
  refine ⟨fun hshared => ?_, fun hstops => ?_⟩
  · have hagree := htracks.agree (hm ▸ hshared)
    unfold Agree at *
    rwa [hm, hf]
  · obtain ⟨f', hfollows, hsame⟩ := htracks.resumes (hm ▸ hstops)
    have hgrows : Grows m (m.scanAll m.cursor []).1 := scanFrom_grows _ _ _ _
    refine ⟨f', by rwa [hm], ?_⟩
    rw [hf, scan_eq hfollows.sound_right, hfollows.cursor_eq, hgrows.cursor_eq, hsame]

/-! ## What reading keeps -/

/-- What belongs to the run and not to its place in the text is the same. -/
structure Kept (m m' : Machine) : Prop where
  meter_eq : m'.meter = m.meter
  frames_eq : m'.frames = m.frames
  started_eq : m'.started = m.started
  verdict_eq : m'.verdict = m.verdict
  splits_eq : m'.splits = m.splits

namespace Kept

theorem refl (m : Machine) : Kept m m := ⟨rfl, rfl, rfl, rfl, rfl⟩

theorem trans {m1 m2 m3 : Machine} (h1 : Kept m1 m2) (h2 : Kept m2 m3) : Kept m1 m3 :=
  ⟨h2.meter_eq.trans h1.meter_eq, h2.frames_eq.trans h1.frames_eq,
    h2.started_eq.trans h1.started_eq, h2.verdict_eq.trans h1.verdict_eq, h2.splits_eq.trans h1.splits_eq⟩

end Kept

theorem Grows.kept {m' : Machine} (h : Grows m m') : Kept m m' := by
  obtain ⟨input, tokens, rfl⟩ := h
  exact ⟨rfl, rfl, rfl, rfl, rfl⟩

/-- Moving in the buffer does no more than reading. -/
structure Moves (R : Machine → Machine → Prop) : Prop extends Fetches R where
  shift (m : Machine) (buffer : Array Token) (cursor : Nat) (current : Token) (skipDepth : Nat) :
    R m { m with buffer, cursor, current, skipDepth }

namespace Moves

variable {R : Machine → Machine → Prop} (h : Moves R)

include h

theorem compact (m : Machine) : R m m.compact := by
  unfold Machine.compact
  split
  · exact h.shift m _ _ _ _
  · exact h.refl m

theorem readToken (m : Machine) : R m m.readToken.1 := by
  have hensure := h.ensure m.cursor m
  rw [readToken_eq]
  split
  · exact h.trans hensure (h.trans (h.shift _ _ _ _ _) (h.compact _))
  · exact hensure

theorem skip (n : Nat) (m : Machine) : R m (skip n m).1 := by
  induction n generalizing m with
  | zero => exact h.refl m
  | succ n ih =>
    have hensure := h.ensure m.cursor m
    rw [skip_succ]
    split
    · exact h.compact m
    · split
      · exact h.trans hensure (h.trans (h.shift _ _ _ _ _) (ih _))
      · exact hensure

theorem consume (m : Machine) : R m m.consume.1 := by
  rw [consume_eq]
  split
  · exact h.refl m
  · exact h.trans (h.shift _ _ _ _ _) (h.skip _ m.beginSkip)

end Moves

theorem moves_kept : Moves Kept :=
  ⟨⟨Kept.refl, Kept.trans, fun m => (fetch_grows m).kept⟩, fun _ _ _ _ _ => ⟨rfl, rfl, rfl, rfl, rfl⟩⟩

theorem readToken_kept (m : Machine) : Kept m m.readToken.1 := moves_kept.readToken m

theorem consume_kept (m : Machine) : Kept m m.consume.1 := moves_kept.consume m

theorem scan_kept (m : Machine) : Kept m m.scan.1 := (scanFrom_grows _ _ _ m).kept

end

end Machine

end JsonSieve
