import JsonSieve.Proofs.Machine.Statements

/-!
# Calls and splits in a run

A frame that another one calls, or that is a branch of a split, is an activation on top of the caller's.
`Simulates` says that the machine does with such activations what a function says that frames do. From that
follows where a machine gets that is in front of a call (`At.call`) or of a split (`In.split`): behind a
call the caller goes on, or has ended as well, and behind a split it goes on where it was, with the votes of
the branches in a slot.
-/

namespace JsonSieve.Machine

open Assembly Running

/-! ## Ends of frames -/

/-- The innermost split around a frame has begun below it. -/
def Ground.Low (G : Ground) : Prop := ∀ s ∈ G.splits.head?, s.depth ≤ G.below.length

theorem word_ne_zero (reason : Reason) : reason.word ≠ 0 := by
  cases reason <;> decide

section

variable {exe : Executable} {m : Machine} {code : Int64} {a b : Activation} {below : List Activation}

theorem not_any_of_low (hlow : ∀ s ∈ m.splits.head?, s.depth ≤ below.length) :
    ¬ (m.splits.head?.any fun s => s.depth = (b :: below).length) = true := by
  cases hhead : m.splits.head? with
  | none => simp
  | some s =>
    have hle := hlow s hhead
    simp only [Option.any_some, decide_eq_true_eq, List.length_cons]
    omega

theorem Unwinds.returned (h : Unwinds exe 0 (a :: b :: below) m) (hlow : ∀ s ∈ m.splits.head?, s.depth ≤ below.length) :
    (m.move exe).next = .run ∧ (m.move exe).machine = { m with frames := b :: below } := by
  obtain ⟨pc, hnext, hmachine⟩ := h
  rw [unwind, if_neg (not_any_of_low hlow)] at hnext hmachine
  exact ⟨hnext, hmachine⟩

theorem unwind_framed (pc : Nat) (frames : List Activation) :
    unwind exe pc code { m with frames } (a :: below) = unwind exe pc code m (a :: below) := by
  cases below <;> rfl

theorem Unwinds.passed (h : Unwinds exe code (a :: b :: below) m) (hcode : code ≠ 0)
    (hlow : ∀ s ∈ m.splits.head?, s.depth ≤ below.length) : Unwinds exe code (b :: below) m := by
  obtain ⟨pc, hnext, hmachine⟩ := h
  rw [unwind, if_neg (not_any_of_low hlow), if_neg hcode] at hnext hmachine
  rw [unwind_framed] at hnext hmachine
  exact ⟨pc, hnext, hmachine⟩

theorem Unwinds.branch {s : Split} {outer : List Split} (h : Unwinds exe code (a :: below) m)
    (hsplits : m.splits = s :: outer) (hdepth : s.depth = below.length) :
    ∃ pc, (m.move exe).next = ({ m with frames := below }.finishBranch exe pc code).next ∧
      (m.move exe).machine = ({ m with frames := below }.finishBranch exe pc code).machine := by
  obtain ⟨pc, hnext, hmachine⟩ := h
  have hany : (m.splits.head?.any fun s => s.depth = below.length) = true := by
    rw [hsplits]
    simpa using hdepth
  cases below <;> rw [unwind, if_pos hany] at hnext hmachine <;> exact ⟨pc, hnext, hmachine⟩

end

/-! ## Beginnings of frames -/

/-- A step leads a machine to where something holds, unless that holds anyway, or if it may be deep, to a
call that is too deep. -/
def Leads (exe : Executable) (deep : Prop) (s : Stepped) (P : Machine → Prop) : Prop :=
  (∀ m, P m) ∨ (s.next = .run ∧ Gets exe deep s.machine P) ∨
    deep ∧ ∃ limit depth, s.next = .fail (.limit (.callDepth limit depth))

/-- An activation of frame `i` that has just begun. -/
def Entered (exe : Executable) (i : Nat) (a : Activation) : Prop :=
  ∃ p, exe.procs[(Word.saturate i).toNat]? = some p ∧
    a = ⟨Word.saturate i, p.entry.toNat, Array.replicate p.slots.toNat 0, []⟩

section

variable {exe : Executable} {deep : Prop} {m : Machine} {P Q : Machine → Prop} {s : Stepped}

theorem Leads.mono (h : Leads exe deep s P) (hP : ∀ m', P m' → Q m') : Leads exe deep s Q :=
  h.imp (fun h m' => hP m' (h m')) fun h => h.imp (fun h => ⟨h.1, h.2.mono hP⟩) id

theorem Leads.gets (h : Leads exe deep s P) (hnext : (m.move exe).next = s.next)
    (hmachine : (m.move exe).machine = s.machine) : Gets exe deep m P := by
  rcases h with htrue | ⟨hrun, hgets⟩ | ⟨hdeep, limit, depth, hfail⟩
  · exact .here (htrue m)
  · exact .step (hnext.trans hrun) hmachine hgets
  · exact .sink hdeep (hnext.trans hfail)

theorem Leads.after (h : Leads exe deep s P) (e : Event) : Leads exe deep (s.after e) P := h

theorem enter_leads {i : Nat} {a : Activation} (hfree : m.meter = .free) (ha : Entered exe i a)
    (pc : Nat) (hdeep : Limits.defaultCallDepth ≤ m.depth → deep)
    (h : Gets exe deep { m with frames := a :: m.frames } P) :
    Leads exe deep (m.enter exe pc (Word.saturate i)) P := by
  obtain ⟨p, hp, rfl⟩ := ha
  rw [enter, show m.meter.checkDepth m.depth = Meter.free.checkDepth m.depth by rw [hfree], Meter.checkDepth]
  by_cases hlimit : Meter.free.maxDepth ≤ m.depth
  · rw [if_pos hlimit]
    exact .inr (.inr ⟨hdeep hlimit, _, _, rfl⟩)
  · rw [if_neg hlimit]
    simp only [hp]
    exact .inr (.inl ⟨rfl, h⟩)

end

/-- The machine does with activations of frames what a function says, `n` levels of activations being
enough. -/
structure Simulates (exe : Executable) (n : Nat) (run : Nat → Position → Option Running.Outcome) :
    Prop where
  pos : ∀ {i p o}, run i p = some o → 0 < n
  entered : ∀ {i p o}, run i p = some o → o ≠ .wrong → ∃ a, Entered exe i a
  gets : ∀ {G : Ground} {i p o m a}, G.exe = exe → G.Low → run i p = some o →
    Reads G.broken G.whole G.splits m p → m.frames = a :: G.below → Entered exe i a →
    Gets exe (Limits.defaultCallDepth < G.below.length + n) m (Ended G o)

section

variable {G : Ground} {h : Home} {m : Machine} {σ : State} {a : Activation} {k : List Stmt} {n : Nat}
  {run : Nat → Position → Option Running.Outcome}

theorem Simulates.enter_leads (hsim : Simulates G.exe n run) (hlow : G.Low) {below : Activation}
    {rest : List Activation} (hbelow : G.below = below :: rest) {i : Nat} {o : Running.Outcome}
    {p : Position} (hcall : run i p = some o) (hne : o ≠ .wrong)
    (hreads : Reads G.broken G.whole G.splits m p) (hframes : m.frames = G.below) {P : Machine → Prop}
    (hon : ∀ m', Ended G o m' → Gets G.exe (Limits.defaultCallDepth < rest.length + 1 + n) m' P)
    (pc : Nat) : Leads G.exe (Limits.defaultCallDepth < rest.length + 1 + n)
      (m.enter G.exe pc (Word.saturate i)) P := by
  obtain ⟨x, hx⟩ := hsim.entered hcall hne
  have hlength : G.below.length = rest.length + 1 := by
    rw [hbelow]
    rfl
  have hgets := hsim.gets rfl hlow hcall (hreads.framed (x :: m.frames)) (by rw [hframes]) hx
  rw [hlength] at hgets
  refine Machine.enter_leads hreads.free hx pc ?_ (hgets.bind hon)
  have hpos := hsim.pos hcall
  rw [depth, hframes, hlength]
  omega

theorem At.call {i : Nat} (hat : At G h m σ (.call i :: k)) (hlow : G.Low) (hsim : Simulates G.exe n run) :
    Gets G.exe (Limits.defaultCallDepth < G.below.length + 1 + n) m
      (Came G (Behind G h k) (Running.resume (run i σ.position) >>= fun p => pure (σ.moveTo p))) := by
  cases hcall : run i σ.position with
  | none => exact .here trivial
  | some o =>
    by_cases hne : o = .wrong
    · subst hne
      exact .here Came.wrong
    obtain ⟨a, hin, hop, hrest⟩ := hat.one ⟨.call, .proc (Word.saturate i), .none⟩ fun _ _ hok =>
      (ite_eq_ok hok).2.1
    have hnext := hin.next
    -- the frame runs on top of the caller, which waits behind the call
    let G' : Ground := { G with below := { a with pc := a.pc + 1 } :: G.below }
    have hlow' : G'.Low := fun s hs => Nat.le_succ_of_le (hlow s hs)
    obtain ⟨hmove, hmachine⟩ := move_op hin.started hin.free hin.frames_eq hop
    refine (@Simulates.enter_leads G' m.advance n run hsim hlow' _ _ rfl i o σ.position hcall hne
      hnext.toReads hnext.frames_eq _ (fun m' hended => ?_) a.pc).gets hmove hmachine
    cases o with
    | valid p =>
      obtain ⟨hreads, y, hunwinds⟩ := hended
      have hlow'' : ∀ s ∈ m'.splits.head?, s.depth ≤ G.below.length := by
        rw [hreads.splits_eq]
        exact hlow
      obtain ⟨hmove, hmachine⟩ := hunwinds.returned hlow''
      exact .step hmove hmachine (.here ⟨_, ⟨hreads.framed _, rfl, hin.holds.congr a.proc (a.pc + 1) p⟩, hrest⟩)
    | invalid reason p =>
      obtain ⟨hreads, y, hunwinds⟩ := hended
      have hlow'' : ∀ s ∈ m'.splits.head?, s.depth ≤ G.below.length := by
        rw [hreads.splits_eq]
        exact hlow
      exact .here ⟨hreads, _, hunwinds.passed (word_ne_zero reason) hlow''⟩
    | badText | noValue => exact .here hended
    | wrong => exact absurd rfl hne

/-! ## Splits -/

/-- What the votes of branches add to a word. -/
def tally (bits : Bool) : Nat → List Bool → Int64 → Int64
  | _, [], w => w
  | i, vote :: votes, w => tally bits (i + 1) votes
    (if vote then if bits then w ||| bitWord i else w + 1 else w)

theorem tally_bits (i : Nat) (votes : List Bool) (w : Int64) : tally true i votes w = votesWord i votes w := by
  induction votes generalizing i w with
  | nil => rfl
  | cons vote votes ih => exact ih _ _

theorem tally_count (i : Nat) (votes : List Bool) (c : Nat) :
    tally false i votes (Int64.ofNat c) = Int64.ofNat (c + votes.count true) := by
  induction votes generalizing i c with
  | nil => rfl
  | cons vote votes ih =>
    cases vote with
    | true =>
      have hsucc : Int64.ofNat c + 1 = Int64.ofNat (c + 1) := by
        rw [Int64.ofNat_add]
        rfl
      show tally false (i + 1) votes (Int64.ofNat c + 1) = _
      rw [hsucc, ih, List.count_cons_self]
      congr 1
      omega
    | false =>
      show tally false (i + 1) votes (Int64.ofNat c) = _
      rw [ih, List.count_cons_of_ne (by decide)]

/-- Begins the next branch of a split or stores the result. -/
def resume (exe : Executable) (pc : Nat) (s : Split) (outer : List Split) (m : Machine) : Stepped :=
  match (exe.splits[s.split.toNat]?).bind (·[s.branch]?) with
  | some proc => m.enter exe pc proc
  | none => .after (.splitEnd s.split s.result)
    (.require { m with splits := outer } pc ({ m with splits := outer }.slot s.target) fun _ =>
      ⟨{ m with splits := outer }.setSlot s.target s.result, [], .run⟩)

structure Between (G : Ground) (whole : List Token) (p : Position) (a : Activation) (s : Split)
    (m : Machine) : Prop extends Reads G.broken whole (s :: G.splits) m p where
  frames_eq : m.frames = a :: G.below
  stream_eq : Pads G.broken whole m.stream
  cursor_eq : m.cursor = s.cursor
  token_eq : m.current = s.token
  depth_eq : s.depth = G.below.length + 1
  around : G.splits ≠ [] → Pads G.broken G.whole whole
  start : Pads G.broken p.coming (whole.drop s.cursor)
  before : ∀ t, p.last = some t → 0 < s.cursor ∧ whole[s.cursor - 1]? = some t

/-- The votes of the remaining branches have been added to the result of a split. -/
def Voted (G : Ground) (p : Position) (a : Activation) (s : Split) (votes : List Bool) (m : Machine) :
    Prop :=
  Reads G.broken G.whole G.splits m p ∧ m.frames = { a with
    slots := a.slots.setIfInBounds s.target.toNat (tally s.bits s.branch votes s.result) } :: G.below

variable {whole : List Token} {p : Position} {s : Split} {deep : Prop} {P : Machine → Prop}

theorem Voted.cons {code : Int64} {votes : List Bool} (hvoted : Voted G p a (Split.returned s code) votes m) :
    Voted G p a s (decide (code = 0) :: votes) m := by
  obtain ⟨hreads, hframes⟩ := hvoted
  refine ⟨hreads, hframes.trans ?_⟩
  by_cases hcode : code = 0
  · rw [hcode]
    rfl
  · simp [Split.returned, tally, hcode]

theorem Between.ended (hm : Between G whole p a s m) {code : Int64} {x : Activation} {m' : Machine}
    (hsteady : Steady G.broken whole (s :: G.splits) m')
    (hunwinds : Unwinds G.exe code (x :: a :: G.below) m')
    (hleads : ∀ pc m'', Between G whole p a (Split.returned s code) m'' →
      Leads G.exe deep (resume G.exe pc (Split.returned s code) G.splits m'') P) : Gets G.exe deep m' P := by
  obtain ⟨pc, hnext, hmachine⟩ := hunwinds.branch hsteady.splits_eq hm.depth_eq
  let m'' : Machine := { m' with frames := a :: G.below }.restore (Split.returned s code)
    (Split.returned s code :: G.splits)
  have hfinish : { m' with frames := a :: G.below }.finishBranch G.exe pc code =
      resume G.exe pc (Split.returned s code) G.splits m'' :=
    finishBranch_cons (m := { m' with frames := a :: G.below }) G.exe pc hsteady.splits_eq code
  have hstream : Pads G.broken whole m''.stream := hsteady.kept (List.cons_ne_nil _ _)
  rw [hfinish] at hnext hmachine
  refine (hleads pc m'' ?_).gets hnext hmachine
  refine ⟨⟨⟨⟨hsteady.sound, hsteady.concludes, hsteady.free⟩, hsteady.started, hsteady.verdict, rfl,
    fun _ => hstream⟩, hm.broken_eq, ?_, ?_, ?_, rfl, hm.sane⟩, rfl, hstream, rfl, rfl, hm.depth_eq,
    hm.around, hm.start, hm.before⟩
  · exact hm.start.trans (hstream.drop s.cursor)
  · rw [← hm.current, hm.token_eq]
    rfl
  · intro t ht
    obtain ⟨hpos, hlast⟩ := hm.before t ht
    exact ⟨hpos, hstream.getElem?_eq hlast⟩

theorem Between.leads {branches : Array UInt32} {w : Int64} (hsim : Simulates G.exe n run)
    {ids : List Nat} : ∀ {s : Split} {m : Machine}, Between G whole p a s m →
      a.slots[s.target.toNat]? = some w → G.exe.splits[s.split.toNat]? = some branches →
      branches.toList.drop s.branch = ids.map Word.saturate → ∀ pc,
      Leads G.exe (Limits.defaultCallDepth < G.below.length + 1 + n) (resume G.exe pc s G.splits m)
        (Came G (Voted G p a s) (poll p (ids.map run))) := by
  induction ids with
  | nil =>
    intro s m hm hw hbranches hdrop pc
    have hnone : branches[s.branch]? = none := by
      rw [← Array.getElem?_toList, ← List.head?_drop, hdrop]
      rfl
    rw [resume, hbranches, Option.bind_some, hnone]
    have hframes : ({ m with splits := G.splits } : Machine).frames = a :: G.below := hm.frames_eq
    dsimp only
    rw [slot_eq hframes hw, setSlot_eq hframes]
    refine .inr (.inl ⟨rfl, .here ⟨?_, rfl⟩⟩)
    refine ⟨⟨⟨hm.sound, hm.concludes, hm.free⟩, hm.started, hm.verdict, rfl, fun hne => ?_⟩, hm.broken_eq,
      hm.coming, hm.current, hm.last, hm.idle, hm.sane⟩
    exact (hm.around hne).trans hm.stream_eq
  | cons i ids ih =>
    intro s m hm hw hbranches hdrop pc
    have hrest : branches.toList.drop (s.branch + 1) = ids.map Word.saturate := by
      rw [← List.drop_drop, hdrop]
      rfl
    have hnumber : branches[s.branch]? = some (Word.saturate i) := by
      rw [← Array.getElem?_toList, ← List.head?_drop, hdrop]
      rfl
    rw [resume, hbranches, Option.bind_some, hnumber, List.map_cons, poll_cons]
    cases hcall : run i p with
    | none => exact .inl fun _ => trivial
    | some o =>
      by_cases hne : o = .wrong
      · subst hne
        exact .inl fun _ => trivial
      -- the branch runs on top of the activation with the split, which waits
      let G' : Ground := { G with whole, splits := s :: G.splits, below := a :: G.below }
      have hlow' : G'.Low := fun s' hs' => by
        cases hs'
        exact Nat.le_of_eq hm.depth_eq
      have hnext : ∀ (code : Int64) (m' : Machine) (x : Activation) (p' : Position),
          Reads G.broken whole (s :: G.splits) m' p' → Unwinds G.exe code (x :: a :: G.below) m' →
          Gets G.exe (Limits.defaultCallDepth < G.below.length + 1 + n) m'
            (Came G (Voted G p a s) (poll p (ids.map run) >>= fun votes =>
              pure (decide (code = 0) :: votes))) := by
        intro code m' x p' hreads hunwinds
        refine hm.ended hreads.toSteady hunwinds fun pc m'' hm'' => ?_
        refine (ih hm'' hw hbranches hrest pc).mono fun m''' hcame => ?_
        cases hpoll : poll p (ids.map run) with
        | result votes =>
          rw [hpoll] at hcame
          exact Voted.cons hcame
        | ends o =>
          rw [hpoll] at hcame
          exact hcame
        | running => trivial
      refine @Simulates.enter_leads G' m n run hsim hlow' a G.below rfl i o p hcall hne hm.toReads
        hm.frames_eq _ (fun m' hended => ?_) pc
      cases o with
      | valid p' =>
        obtain ⟨hreads, x, hunwinds⟩ := hended
        exact hnext 0 m' x p' hreads hunwinds
      | invalid reason p' =>
        obtain ⟨hreads, x, hunwinds⟩ := hended
        have hgets := hnext reason.word m' x p' hreads hunwinds
        rw [decide_eq_false (word_ne_zero reason)] at hgets
        exact hgets
      | badText | noValue => exact .here hended
      | wrong => exact absurd rfl hne

/-- A split: the frame goes on with the votes of its branches in a slot. -/
theorem In.split (hin : In G h m σ a) (hsim : Simulates G.exe n run) {op : Op}
    (hop : G.exe.ops[a.pc]? = some op) {bits : Bool} {split : UInt32} {target : Nat} {w : Int64}
    (htarget : target < Nat.pow 2 32) (hexecute : m.execute G.exe a.pc op =
      m.startSplit G.exe a.pc bits split (Word.saturate target))
    (hw : a.slots[target]? = some w) {ids : List Nat}
    (hbranches : G.exe.splits[split.toNat]? = some (ids.map Word.saturate).toArray)
    (hsize : bits = true → ids.length ≤ 64) : Gets G.exe (Limits.defaultCallDepth < G.below.length + 1 + n) m
      (Came G (fun votes m' => Reads G.broken G.whole G.splits m' σ.position ∧ m'.frames = { a with
          pc := a.pc + 1, slots := a.slots.setIfInBounds target (tally bits 0 votes 0) } :: G.below)
        (poll σ.position (ids.map run))) := by
  obtain ⟨hmove, hmachine⟩ := move_op hin.started hin.free hin.frames_eq hop
  have hnext := hin.next
  have hw' : a.slots[(Word.saturate target).toNat]? = some w := by rw [toNat_saturate htarget]; exact hw
  have hsmall : ¬ (bits = true ∧ 64 < (ids.map Word.saturate).toArray.size) := fun hbig => by
    have := hsize hbig.1
    simp at hbig
    omega
  rw [hexecute, startSplit, Machine.slot_eq hin.frames_eq hw', Stepped.require, hbranches] at hmove hmachine
  dsimp only [Option.getD_some] at hmove hmachine
  rw [if_neg hsmall] at hmove hmachine
  cases ids with
  | nil =>
    rw [setSlot_eq hnext.frames_eq, toNat_saturate htarget] at hmachine
    exact .step hmove hmachine (.here ⟨hnext.toReads.framed _, rfl⟩)
  | cons i ids =>
    let s : Split := {
      split, bits, target := Word.saturate target, depth := m.advance.depth
      cursor := m.advance.cursor, token := m.advance.current, lastCase := m.advance.lastCase }
    have hresume : resume G.exe a.pc s G.splits { m.advance with splits := s :: m.advance.splits } =
        enter G.exe a.pc (Word.saturate i) { m.advance with splits := s :: m.advance.splits } := by
      rw [resume, hbranches]
      rfl
    have hm : Between G m.advance.stream σ.position { a with pc := a.pc + 1 } s
        { m.advance with splits := s :: m.advance.splits } := by
      refine ⟨⟨⟨⟨hnext.sound, hnext.concludes, hnext.free⟩, hnext.started, hnext.verdict, ?_,
        fun _ => .refl _ _⟩, hnext.broken_eq, hnext.coming, hnext.current, hnext.last, hnext.idle,
        hnext.sane⟩, hnext.frames_eq, .refl _ _, rfl, rfl, ?_, hnext.kept, hnext.coming, hnext.last⟩
      · rw [hnext.splits_eq]
      · show m.advance.frames.length = _
        rw [hnext.frames_eq]
        rfl
    have hleads := Between.leads hsim hm hw' hbranches (List.drop_zero ..) a.pc
    rw [hresume] at hleads
    refine (hleads.after (.splitStart split _)).gets hmove hmachine |>.mono fun m' hcame => ?_
    cases hpoll : poll σ.position ((i :: ids).map run) with
    | result votes =>
      rw [hpoll] at hcame
      obtain ⟨hreads, hframes⟩ := hcame
      refine ⟨hreads, hframes.trans ?_⟩
      show ({ a with
        pc := a.pc + 1
        slots := a.slots.setIfInBounds (Word.saturate target).toNat (tally bits 0 votes 0) } :: G.below) = _
      rw [toNat_saturate htarget]
    | ends o =>
      rw [hpoll] at hcame
      exact hcame
    | running => trivial

end

end JsonSieve.Machine
