import JsonSieve.Proofs.Session.Tracking
import JsonSieve.Trace.Record

/-!
# Chunks

It does not matter how a document is cut into chunks. A session that takes the chunks one by one ends as
the session that takes the whole document at once: with the same first error, or with the same verdict and
the same error in the text (`play_flatten`). The events are the same too, apart from the instructions that
were begun, had to wait for more of the text, and were run again later (`Event.settled`).
-/

namespace JsonSieve

open Machine (Follows Ends Continues Last Quiet)

/-- The events without the instructions that had to wait: every pair of an instruction and a wait at the
same place is left out. -/
def Event.settled : List Event → List Event
  | [] => []
  | .instruction pc code depth :: .suspend pc' :: rest =>
    if pc = pc' then settled rest else .instruction pc code depth :: settled (.suspend pc' :: rest)
  | e :: rest => e :: settled rest

namespace Session

/-! ## Events that wait -/

def Begins (events : List Event) : Prop := ∀ pc, events.head? ≠ some (.suspend pc)

variable {rest before told : List Event}

theorem settled_cons (e : Event) (h : Begins rest) : Event.settled (e :: rest) = e :: Event.settled rest := by
  cases e with
  | instruction pc code depth =>
    cases rest with
    | nil => rfl
    | cons e' rest =>
      cases e' with
      | suspend pc' => exact absurd rfl (h pc')
      | _ => rfl
  | _ => rfl

theorem Begins.append {quiet : List Event} (hquiet : Quiet quiet) (hrest : Begins rest) : Begins (quiet ++ rest) := by
  cases quiet with
  | nil => exact hrest
  | cons e quiet =>
    intro pc h
    cases h
    exact hquiet pc (.head _)

theorem settled_append {quiet : List Event} (hquiet : Quiet quiet) (hrest : Begins rest) :
    Event.settled (quiet ++ rest) = quiet ++ Event.settled rest := by
  induction quiet with
  | nil => rfl
  | cons e quiet ih =>
    have htail : Quiet quiet := fun pc hmem => hquiet pc (List.mem_cons_of_mem e hmem)
    rw [List.cons_append, settled_cons e (Begins.append htail hrest), ih htail, List.cons_append]

theorem settled_waiting (pc : Nat) (code : Opcode) (depth : Nat) (rest : List Event) :
    Event.settled (.instruction pc code depth :: .suspend pc :: rest) = Event.settled rest := by
  rw [Event.settled, if_pos rfl]

/-- What has been told so far, without what had to wait, are the events so far. -/
def Heard (told before : List Event) : Prop :=
  Quiet before ∧ ∀ tail, Begins tail → Event.settled (told ++ tail) = before ++ Event.settled tail

theorem heard_nil : Heard [] [] := ⟨nofun, fun _ _ => rfl⟩

theorem Heard.append {told' pre : List Event} (h : Heard told before)
    (htells : Tells told' pre) : Heard (told ++ told') (before ++ pre) := by
  obtain ⟨hquiet, htells⟩ := htells
  refine ⟨h.1.append hquiet, fun tail htail => ?_⟩
  rcases htells with rfl | ⟨pc, code, depth, rfl⟩
  · rw [List.append_assoc, h.2 _ (Begins.append hquiet htail), settled_append hquiet htail, List.append_assoc]
  · have hwaiting : Begins ([.instruction pc code depth, .suspend pc] ++ tail) := nofun
    rw [List.append_assoc, List.append_assoc, h.2 _ (Begins.append hquiet hwaiting),
      settled_append hquiet hwaiting, List.append_assoc]
    exact congrArg (fun rest => before ++ (pre ++ rest)) (settled_waiting pc code depth tail)

theorem Heard.of_quiet (h : Quiet before) : Heard before before :=
  ⟨h, fun _ htail => settled_append h htail⟩

theorem Heard.settled (h : Heard told before) : Event.settled told = before := by
  have hnil := h.2 [] nofun
  rwa [List.append_nil, Event.settled, List.append_nil] at hnil

theorem Heard.settled_eq {heard pre : List Event} (h : Heard heard before) (htells : Tells told pre) :
    Event.settled (heard ++ told) = Event.settled (before ++ told) := by
  rw [(h.append htells).settled, ((Heard.of_quiet h.1).append htells).settled]

/-! ## Chunk by chunk -/

variable {σ : Type}

/-- Takes the chunks of a document one by one and then ends the document. The first error ends the
session. -/
def play (exe : Executable) (observer : Observer σ) (fuel : Nat) :
    List (List UInt8) → Session σ → Session σ × Answer
  | [], s => s.close exe observer fuel
  | chunk :: chunks, s =>
    match s.more exe observer fuel chunk with
    | (s, .status _) => play exe observer fuel chunks s
    | answered => answered

/-- The answer when the document has ended: nobody waits any longer. -/
def closing : Answer → Answer
  | .status .needMore => .failed (.malformed 0 .stillWaiting)
  | answer => answer

section

variable {E : Easing} {exe : Executable} {observer : Observer σ} {fuel : Nat} {s : Session σ}
  {whole : Machine} {before : List Event} {rest : List UInt8} {final : Bool}

theorem close_eq (s : Session σ) : s.close exe observer fuel =
    ((advance exe observer fuel { s with closed := true, machine := s.machine.close }).1,
      closing (advance exe observer fuel { s with closed := true, machine := s.machine.close }).2) := by
  rw [close]
  rcases advance exe observer fuel { s with closed := true, machine := s.machine.close } with ⟨s', answer⟩
  cases answer with
  | status known => cases known <;> rfl
  | failed e => rfl
  | running => rfl

theorem more_eq (h : s.closed = false) (bytes : List UInt8) : s.more exe observer fuel bytes =
    advance exe observer fuel { s with machine := s.machine.feed bytes } := by
  rw [more, if_neg (by simp [h])]

theorem advance_closed (s : Session σ) : (s.advance exe observer fuel).1.closed = s.closed := by
  unfold advance
  split
  · rfl
  · rcases s.machine.run exe observer fuel s.seen with ⟨m, seen, r⟩
    rcases r with _ | ⟨_ | _⟩ | _ | _ <;> rfl

variable {r : Reply}

theorem report_running {s : Session σ} (h : (s.report r).2 = .running) : r = .running := by
  rcases r with _ | ⟨_ | _⟩ | _ | _ <;> first | rfl | cases h

theorem closing_running {answer : Answer} (h : closing answer = .running) : answer = .running := by
  rcases answer with ⟨_ | _ | _⟩ | _ | _ <;> first | rfl | cases h

theorem advance_returns (hexact : E.Exact) (h : Tracked E exe rest final whole before s) {n : Nat}
    {events : List Event} {u : Machine} (hends : Ends exe n whole events r u)
    (hfuel : n ≤ fuel) : (s.advance exe observer fuel).2 ≠ .running := by
  cases h with
  | running f htrailing hverdict hfollows hcontinues =>
    obtain ⟨k, _, hk, _, hon⟩ := hcontinues.forth hends
    obtain ⟨j, events', r', m', hj, hm⟩ := hon.within hfollows hexact
    have hrun := hm.run_eq observer hverdict (Nat.le_trans hj (Nat.le_trans hk hfuel)) s.seen
    rw [advance_of_run observer fuel htrailing hrun]
    exact fun hrunning => hm.reply_ne_running (report_running hrunning)
  | judged n v u hverdict hends hjudged =>
    cases htrailing : s.trailing with
    | true =>
      rw [advance_trailing observer fuel htrailing]
      nofun
    | false =>
      rw [advance_of_run observer fuel htrailing (run_verdict observer fuel hverdict s.seen)]
      exact fun hrunning => nomatch report_running hrunning

/-- The session has come to what the whole run says, and has told its events. -/
def Ended (exe : Executable) (observer : Observer σ) (whole : Machine) (before : List Event)
    (s s' : Session σ) (answer : Answer) : Prop :=
  ∃ n r u events told, Ends exe n whole events r u ∧ answer = closing (conclusion u r) ∧
    s'.lexerError = errorFound u r ∧ s'.seen = observer.observe s.seen told ∧
    ∀ heard, Heard heard before → Event.settled (heard ++ told) = Event.settled events

theorem Concludes.ended {answer : Answer} {s' : Session σ} {pre : List Event}
    (h : Concludes exe whole (before ++ told) s' answer) (htells : Tells told pre)
    (hseen : s'.seen = observer.observe s.seen told) :
    Ended exe observer whole before s s' (closing answer) := by
  obtain ⟨n, r, u, hends, rfl, herror⟩ := h
  exact ⟨n, r, u, _, told, hends, rfl, herror, hseen, fun heard hheard => hheard.settled_eq htells⟩

theorem play_cons (hclosed : s.closed = false) (chunk : List UInt8) (chunks : List (List UInt8)) :
    play exe observer fuel (chunk :: chunks) s =
      match advance exe observer fuel { s with machine := s.machine.feed chunk } with
      | (s, .status _) => play exe observer fuel chunks s
      | answered => answered := by
  rw [play, more_eq hclosed]

/-- A session that returns has come to what the run over the whole document says. -/
theorem play_ended (hexact : E.Exact) (chunks : List (List UInt8)) (hclosed : s.closed = false)
    (h : Tracked E exe chunks.flatten true whole before s)
    (hreturns : (play exe observer fuel chunks s).2 ≠ .running) :
    Ended exe observer whole before s (play exe observer fuel chunks s).1
      (play exe observer fuel chunks s).2 := by
  induction chunks generalizing s before with
  | nil =>
    rw [play, close_eq] at hreturns ⊢
    have hrunning : (advance exe observer fuel { s with closed := true, machine := s.machine.close }).2 ≠ .running := by
      intro hrunning
      rw [hrunning] at hreturns
      exact hreturns rfl
    cases advance_tracked observer fuel h.close hrunning with
    | goes known told pre hanswer hseen htells htracked hlast =>
      exact (hlast ⟨rfl, rfl⟩).ended htells hseen
    | fails e told hanswer hseen hquiet hconcludes =>
      exact hconcludes.ended ⟨hquiet, .inl rfl⟩ hseen
    | limit e hloose | deep hloose => exact absurd hexact hloose
  | cons chunk chunks ih =>
    rw [List.flatten_cons] at h
    rw [play_cons hclosed] at hreturns ⊢
    have hrunning : (advance exe observer fuel { s with machine := s.machine.feed chunk }).2 ≠ .running := by
      intro hrunning
      rcases hadvance : advance exe observer fuel { s with machine := s.machine.feed chunk } with
        ⟨s', answer⟩
      rw [hadvance] at hrunning hreturns
      cases hrunning
      exact hreturns rfl
    have hclosed' : (advance exe observer fuel { s with machine := s.machine.feed chunk }).1.closed = false :=
      (advance_closed _).trans hclosed
    have hadvanced := advance_tracked observer fuel (h.feed chunk) hrunning
    rcases hadvance : advance exe observer fuel { s with machine := s.machine.feed chunk } with
      ⟨s', answer⟩
    rw [hadvance] at hreturns hclosed' hadvanced
    cases hadvanced with
    | goes known told pre hanswer hseen htells htracked hlast =>
      subst hanswer
      obtain ⟨n, r, u, events, told', hends, hanswer, herror, hseen', hsettled⟩ :=
        ih hclosed' htracked hreturns
      refine ⟨n, r, u, events, told ++ told', hends, hanswer, herror, ?_, fun heard hheard => ?_⟩
      · rw [hseen', hseen, Machine.observe_append]
      · rw [← List.append_assoc]
        exact hsettled _ (hheard.append htells)
    | fails e told hanswer hseen hquiet hconcludes =>
      subst hanswer
      exact hconcludes.ended ⟨hquiet, .inl rfl⟩ hseen
    | limit e hloose | deep hloose => exact absurd hexact hloose

theorem play_returns (hexact : E.Exact) (chunks : List (List UInt8)) (hclosed : s.closed = false)
    (h : Tracked E exe chunks.flatten true whole before s)
    {n : Nat} {events : List Event} {u : Machine} (hends : Ends exe n whole events r u)
    (hfuel : n ≤ fuel) : (play exe observer fuel chunks s).2 ≠ .running := by
  induction chunks generalizing s before with
  | nil =>
    rw [play, close_eq]
    exact fun hrunning => advance_returns hexact h.close hends hfuel (closing_running hrunning)
  | cons chunk chunks ih =>
    rw [List.flatten_cons] at h
    rw [play_cons hclosed]
    have hrunning : (advance exe observer fuel { s with machine := s.machine.feed chunk }).2 ≠ .running :=
      advance_returns hexact (h.feed chunk) hends hfuel
    have hclosed' : (advance exe observer fuel { s with machine := s.machine.feed chunk }).1.closed = false :=
      (advance_closed _).trans hclosed
    have hadvanced := advance_tracked observer fuel (h.feed chunk) hrunning
    rcases hadvance : advance exe observer fuel { s with machine := s.machine.feed chunk } with
      ⟨s', answer⟩
    rw [hadvance] at hclosed' hadvanced
    cases hadvanced with
    | goes known told pre hanswer _ _ htracked =>
      subst hanswer
      exact ih hclosed' htracked
    | fails e told hanswer =>
      subst hanswer
      nofun
    | limit e hloose | deep hloose => exact absurd hexact hloose

/-- Two sessions that are compared with the same run end alike, if one of them returns: with the same answer,
the same error in the text, and the same events but for the instructions that had to wait. -/
theorem play_agree (hexact : E.Exact) {chunks chunks' : List (List UInt8)} {s' : Session σ}
    (hclosed : s.closed = false) (hclosed' : s'.closed = false)
    (h : Tracked E exe chunks.flatten true whole [] s) (h' : Tracked E exe chunks'.flatten true whole [] s')
    (hreturns : (play exe observer fuel chunks s).2 ≠ .running) : ∃ bound, ∀ fuel', bound ≤ fuel' →
      (play exe observer fuel' chunks' s').2 = (play exe observer fuel chunks s).2 ∧
      (play exe observer fuel' chunks' s').1.lexerError = (play exe observer fuel chunks s).1.lexerError ∧
      ∃ told told', (play exe observer fuel chunks s).1.seen = observer.observe s.seen told ∧
        (play exe observer fuel' chunks' s').1.seen = observer.observe s'.seen told' ∧
        Event.settled told' = Event.settled told := by
  obtain ⟨n, r, u, events, told, hends, hanswer, herror, hseen, hsettled⟩ :=
    play_ended hexact chunks hclosed h hreturns
  refine ⟨n, fun fuel' hfuel => ?_⟩
  obtain ⟨n', r', u', events', told', hends', hanswer', herror', hseen', hsettled'⟩ :=
    play_ended hexact chunks' hclosed' h' (play_returns hexact chunks' hclosed' h' hends hfuel :
      (play exe observer fuel' chunks' s').2 ≠ .running)
  obtain ⟨rfl, rfl, rfl⟩ := hends.unique hends'
  exact ⟨hanswer'.trans hanswer.symm, herror'.trans herror.symm, told, told', hseen, hseen',
    (hsettled' [] heard_nil).trans (hsettled [] heard_nil).symm⟩

end

def fresh (seen : σ) : Session σ := { seen }

def wholeMachine (document : List UInt8) : Machine :=
  { input := (Lexer.empty.feed document).close }

theorem fresh_tracked (exe : Executable) (document : List UInt8) (seen : σ) :
    Tracked .uncounted exe document true (wholeMachine document) [] (fresh seen) :=
  .running (wholeMachine document) rfl rfl
    ⟨_, .free, Lexer.Awaits.extended Lexer.Sound.empty, ⟨rfl, nofun⟩, rfl⟩ (Continues.refl exe _)

theorem observe_record (events : List Event) (r : Record) (h : r.limit = none) :
    (Observer.observe Record.add r events).events.toList = r.events.toList ++ events := by
  induction events generalizing r with
  | nil => exact (List.append_nil _).symm
  | cons e events ih =>
    have hadd : Record.add r e = { r with events := r.events.push e } := by
      rw [Record.add, h]
    show (Observer.observe Record.add (Record.add r e) events).events.toList = _
    rw [hadd, ih { r with events := r.events.push e } h, Array.toList_push, List.append_assoc]
    rfl

/-- A session that takes a document in chunks ends as the session that takes it at once, if that one
returns: with the same answer, the same error in the text, and the same events but for the
instructions that had to wait. -/
theorem play_flatten (exe : Executable) (chunks : List (List UInt8)) (fuel : Nat)
    (hreturns : (play exe Record.add fuel [chunks.flatten] (fresh {})).2 ≠ .running) :
    ∃ bound, ∀ fuel', bound ≤ fuel' → (play exe Record.add fuel' chunks (fresh {})).2 =
        (play exe Record.add fuel [chunks.flatten] (fresh {})).2 ∧
      (play exe Record.add fuel' chunks (fresh {})).1.lexerError =
        (play exe Record.add fuel [chunks.flatten] (fresh {})).1.lexerError ∧
      Event.settled (play exe Record.add fuel' chunks (fresh {})).1.seen.events.toList = Event.settled
          (play exe Record.add fuel [chunks.flatten] (fresh {})).1.seen.events.toList := by
  have hchunks := fresh_tracked exe chunks.flatten ({} : Record)
  have hone : Tracked .uncounted exe [chunks.flatten].flatten true (wholeMachine chunks.flatten) []
      (fresh ({} : Record)) := by
    rw [List.flatten_singleton]
    exact hchunks
  obtain ⟨bound, hbound⟩ := play_agree Easing.uncounted_exact rfl rfl hone hchunks hreturns
  refine ⟨bound, fun fuel' hfuel => ?_⟩
  obtain ⟨hanswer, herror, told, told', hseen, hseen', hsettled⟩ := hbound fuel' hfuel
  refine ⟨hanswer, herror, ?_⟩
  rw [hseen, hseen', observe_record _ _ rfl, observe_record _ _ rfl]
  exact hsettled

/-- A program that accepts every value: it reads a token and skips what belongs to it. -/
def acceptAll : Executable where
  image := default
  ops := #[⟨.token, .none, .none⟩, ⟨.consume, .none, .none⟩, ⟨.ret, .int 0, .none⟩]
  procs := #[{ entry := 0, slots := 0 }]
  floats := #[]
  splits := #[]
  recognizers := #[]

/-- The document `[true]x`, cut inside of the word and before the bad byte. -/
theorem play_flatten_cut_word : (play acceptAll Record.add 3 [[[0x5b, 0x74, 0x72], [0x75, 0x65, 0x5d], [0x78]].flatten]
      (fresh {})).2 ≠ .running ∧ ∃ bound, ∀ fuel', bound ≤ fuel' →
      (play acceptAll Record.add fuel' [[0x5b, 0x74, 0x72], [0x75, 0x65, 0x5d], [0x78]]
        (fresh {})).2 = .status (.invalid .invalidJson) := by
  have hreturns : (play acceptAll Record.add 3
      [[[0x5b, 0x74, 0x72], [0x75, 0x65, 0x5d], [0x78]].flatten] (fresh {})).2 =
        .status (.invalid .invalidJson) := by decide +kernel
  obtain ⟨bound, hbound⟩ := play_flatten acceptAll [[0x5b, 0x74, 0x72], [0x75, 0x65, 0x5d], [0x78]] 3
    (by rw [hreturns]; nofun)
  exact ⟨by rw [hreturns]; nofun, bound, fun fuel' hfuel => (hbound fuel' hfuel).1.trans hreturns⟩

end Session

end JsonSieve
