import JsonSieve.Proofs.Machine.Local
import JsonSieve.Proofs.Machine.Reading

/-!
# Steps with part of the text

A step of a machine with part of the text and a meter is compared with the step of a machine with more of
the text and an easier meter. Instructions that read nothing do the same in both (`execute_alike`), except
that calls may be limited differently. An instruction that reads does the same in both, or the first
machine waits or exceeds a limit and can run the instruction again (`step_outcome`).
-/

namespace JsonSieve

def Opcode.reads : Opcode → Bool
  | .token | .consume | .unique => true
  | _ => false

namespace Machine

/-! ## Instructions that read nothing -/

namespace Stepped

def relabel (input : Lexer) (meter : Meter) (s : Stepped) : Stepped :=
  { s with machine := s.machine.relabel input meter }

/-- The step fails because no more calls are allowed. -/
def Deep (limit : Nat) (s : Stepped) : Prop :=
  ∃ depth, s.next = .fail (.limit (.callDepth limit depth))

/-- The steps do not wait. The second one is the first one with another text and another meter, or
one of them has failed because it allows fewer calls; `most` are allowed in the first one. -/
def Alike (input : Lexer) (meter : Meter) (most : Nat) (s t : Stepped) : Prop :=
  s.next ≠ .suspend ∧ t = s.relabel input meter ∨
    most < meter.maxDepth ∧ s.Deep most ∨ meter.maxDepth < most ∧ t.Deep meter.maxDepth

variable {input : Lexer} {meter : Meter} {most : Nat}

theorem Alike.of_eq {s t : Stepped} (hnext : s.next ≠ .suspend) (h : t = s.relabel input meter) :
    Alike input meter most s t := .inl ⟨hnext, h⟩

theorem Alike.after {s t : Stepped} (h : Alike input meter most s t) (e : Event) :
    Alike input meter most (s.after e) (t.after e) :=
  h.imp_left fun ⟨hnext, heq⟩ => ⟨hnext, by rw [heq]; rfl⟩

theorem Alike.eq_relabel {s t : Stepped} (h : Alike input meter meter.maxDepth s t) :
    s.next ≠ .suspend ∧ t = s.relabel input meter := by
  rcases h with h | ⟨hlt, -⟩ | ⟨hlt, -⟩
  · exact h
  · exact absurd hlt (Nat.lt_irrefl _)
  · exact absurd hlt (Nat.lt_irrefl _)

theorem Alike.require {α : Type} (m : Machine) (pc : Nat) (result : Except Defect α)
    {k k' : α → Stepped} (h : ∀ a, Alike input meter most (k a) (k' a)) :
    Alike input meter most (.require m pc result k)
      (.require (m.relabel input meter) pc result k') := by
  cases result with
  | ok a => exact h a
  | error d => exact Alike.of_eq nofun rfl

end Stepped

section

variable (exe : Executable) (pc : Nat) (input : Lexer) (meter : Meter)

open Stepped (Alike)

theorem enter_alike (proc : UInt32) (m : Machine) : Alike input meter m.meter.maxDepth (m.enter exe pc proc)
      ((m.relabel input meter).enter exe pc proc) := by
  have hdepth : (m.relabel input meter).depth = m.depth := rfl
  have hmeter : (m.relabel input meter).meter = meter := rfl
  unfold enter Meter.checkDepth
  rw [hdepth, hmeter]
  by_cases hleft : m.meter.maxDepth ≤ m.depth
  · by_cases hright : meter.maxDepth ≤ m.depth
    · rw [if_pos hleft, if_pos hright]
      rcases Nat.lt_trichotomy m.meter.maxDepth meter.maxDepth with hlt | heq | hlt
      · exact .inr (.inl ⟨hlt, _, rfl⟩)
      · rw [heq]
        exact Alike.of_eq (fun h => by cases h) rfl
      · exact .inr (.inr ⟨hlt, _, rfl⟩)
    · rw [if_pos hleft]
      exact .inr (.inl ⟨by omega, _, rfl⟩)
  · by_cases hright : meter.maxDepth ≤ m.depth
    · rw [if_pos hright]
      exact .inr (.inr ⟨by omega, _, rfl⟩)
    · rw [if_neg hleft, if_neg hright]
      cases exe.procs[proc.toNat]? <;> exact Alike.of_eq (fun h => by cases h) rfl

theorem mapTop_relabel (change : Activation → Activation) (m : Machine) :
    (m.relabel input meter).mapTop change = (m.mapTop change).relabel input meter := by
  rcases m with ⟨_, _, _ | ⟨top, rest⟩, _⟩ <;> rfl

/-- What a branch of a split does not keep becomes what it was. -/
def restore (s : Split) (splits : List Split) (m : Machine) : Machine :=
  { m with cursor := s.cursor, current := s.token, lastCase := s.lastCase, skipDepth := 0, splits }

theorem finishBranch_cons {s : Split} {outer : List Split} {m : Machine} (h : m.splits = s :: outer) (code : Int64) :
    m.finishBranch exe pc code = match (exe.splits[(Split.returned s code).split.toNat]?).bind
        (·[(Split.returned s code).branch]?) with
      | some proc =>
        (m.restore (Split.returned s code) (Split.returned s code :: outer)).enter exe pc proc
      | none => .after (.splitEnd (Split.returned s code).split (Split.returned s code).result)
        (.require (m.restore (Split.returned s code) outer) pc
          ((m.restore (Split.returned s code) outer).slot (Split.returned s code).target) fun _ =>
            ⟨(m.restore (Split.returned s code) outer).setSlot (Split.returned s code).target
              (Split.returned s code).result, [], .run⟩) := by
  unfold finishBranch
  rw [h]
  rfl

theorem finishBranch_alike (code : Int64) (m : Machine) :
    Alike input meter m.meter.maxDepth (m.finishBranch exe pc code)
      ((m.relabel input meter).finishBranch exe pc code) := by
  cases hsplits : m.splits with
  | nil =>
    unfold finishBranch
    rw [show (m.relabel input meter).splits = [] from hsplits, hsplits]
    exact Alike.of_eq (fun h => by cases h) rfl
  | cons s outer =>
    rw [finishBranch_cons exe pc hsplits, finishBranch_cons exe pc (m := m.relabel input meter) hsplits]
    cases (exe.splits[(Split.returned s code).split.toNat]?).bind
        (·[(Split.returned s code).branch]?) with
    | some proc => exact enter_alike exe pc input meter proc (m.restore _ _)
    | none =>
      refine Alike.after (Alike.require (m.restore _ outer) pc _ fun _ => ?_) _
      exact Alike.of_eq (fun h => by cases h)
        (congrArg (Stepped.mk · [] .run) (mapTop_relabel input meter _ (m.restore _ outer)))

theorem unwind_alike (code : Int64) (frames : List Activation) (m : Machine) :
    Alike input meter m.meter.maxDepth (unwind exe pc code m frames)
      (unwind exe pc code (m.relabel input meter) frames) := by
  induction frames generalizing m with
  | nil => exact Alike.of_eq nofun rfl
  | cons top rest ih =>
    rw [unwind.eq_def, unwind.eq_def exe pc code (m.relabel input meter)]
    dsimp only
    rw [show (m.relabel input meter).splits = m.splits from rfl]
    split
    · exact Alike.after (finishBranch_alike exe pc input meter code { m with frames := rest }) _
    · cases rest with
      | nil =>
        refine Alike.after (Alike.require { m with frames := [] } pc (verdictOf code) fun v => ?_) _
        exact Alike.of_eq nofun rfl
      | cons below rest =>
        dsimp only
        split
        · exact Alike.of_eq nofun rfl
        · exact Alike.after (ih { m with frames := below :: rest }) _

theorem mapTop_alike (change : Activation → Activation) (events : List Event) (m : Machine)
    (most : Nat) : Alike input meter most ⟨m.mapTop change, events, .run⟩
      ⟨(m.relabel input meter).mapTop change, events, .run⟩ :=
  Alike.of_eq nofun (congrArg (Stepped.mk · events .run) (mapTop_relabel input meter change m))

theorem startSplit_alike (bits : Bool) (split target : UInt32) (m : Machine) :
    Alike input meter m.meter.maxDepth (m.startSplit exe pc bits split target)
      ((m.relabel input meter).startSplit exe pc bits split target) := by
  unfold startSplit
  refine Alike.require m pc (m.slot target) fun _ => ?_
  dsimp only
  split
  · exact Alike.of_eq nofun rfl
  · rw [show (m.relabel input meter).advance = m.advance.relabel input meter from
      mapTop_relabel input meter _ m]
    cases hfirst : ((exe.splits[split.toNat]?).getD #[])[0]? with
    | none => exact mapTop_alike input meter _ _ m.advance _
    | some proc =>
      have hmeter : m.advance.meter = m.meter := by
        rcases m with ⟨_, _, _ | ⟨top, rest⟩, _⟩ <;> rfl
      refine Alike.after ?_ _
      rw [← hmeter]
      exact enter_alike exe pc input meter proc { m.advance with splits := _ :: m.advance.splits }

theorem execute_alike (op : Op) (hreads : op.code.reads = false) {m : Machine} {top : Activation}
    {below : List Activation} (h : m.frames = top :: below) :
    Alike input meter m.meter.maxDepth (m.execute exe pc op) ((m.relabel input meter).execute exe pc op) := by
  by_cases hlocal : op.code.isLocal = true
  · rw [execute_local exe pc hlocal h, execute_local exe pc hlocal (m := m.relabel input meter) h]
    refine Alike.of_eq ?_ ?_ <;> cases hto : effect exe pc op top m.current m.lastCase m.flag
    · nofun
    · nofun
    · exact congrArg (Effect.on pc below (m.relabel input meter)) hto
    · exact congrArg (Effect.on pc below (m.relabel input meter)) hto
  unfold execute
  cases hcode : op.code with
  | call =>
    cases hop : op.a with
    | proc p =>
      have hmeter : m.advance.meter = m.meter := by rw [advance_eq h]
      rw [← hmeter]
      dsimp only
      rw [show (m.relabel input meter).advance = m.advance.relabel input meter from
        mapTop_relabel input meter _ m]
      exact enter_alike exe pc input meter p m.advance
    | _ => exact Alike.of_eq (fun h => by cases h) rfl
  | ret => exact Alike.require m pc _ fun code => unwind_alike exe pc input meter code m.frames m
  | split | splitBits =>
    dsimp only
    split
    · exact startSplit_alike exe pc input meter _ _ _ m
    · exact Alike.of_eq (fun h => by cases h) rfl
  | untoken =>
    dsimp only
    rw [show (m.relabel input meter).cursor = m.cursor from rfl]
    split
    · exact Alike.of_eq (fun h => by cases h) rfl
    · exact mapTop_alike input meter _ [] { m with cursor := m.cursor - 1 } _
  | token | consume | unique =>
    rw [hcode] at hreads
    cases hreads
  | _ =>
    rw [hcode] at hlocal
    exact absurd rfl hlocal

end

/-! ## Outcomes -/

/-- The two steps are the same but for the text and the meter. -/
def Stepped.Agrees (P : Pairing) (s t : Stepped) : Prop :=
  t.events = s.events ∧ t.next = s.next ∧ Follows P s.machine t.machine

/-- The first machine has not got through the action, but the second one can act again from there with
the same result. -/
def Again (P : Pairing) (act : Machine → Stepped) (m f : Machine) : Prop :=
  P.patient → ∃ f', Follows P (act m).machine f' ∧ Kept f f' ∧ act f' = act f

/-- What an action of a machine with part of the text has to do with the action of a machine with
more of it; `waiting` are the events of an action that has to wait. -/
inductive Outcome (P : Pairing) (waiting : List Event)
    (act : Machine → Stepped) (m f : Machine) : Prop where
  | agree (hnext : (act m).next ≠ .suspend) (h : Stepped.Agrees P (act m) (act f))
  | wait (hnext : (act m).next = .suspend) (hevents : (act m).events = waiting)
    (hagain : Again P act m f)
    (hlast : P.last → Stepped.Agrees P (act m) (act f))
  | limit (e : LimitError) (hdrops : P.drops e) (hnext : (act m).next = .fail (.limit e))
    (hagain : P.Open → Again P act m f)
  | deep {a b : Meter} (hrel : P.rel a b) (hdeep : a.maxDepth < b.maxDepth ∧ (act m).Deep a.maxDepth ∨
      b.maxDepth < a.maxDepth ∧ (act f).Deep b.maxDepth)

section

variable {P : Pairing} {m f : Machine}

variable {act : Machine → Stepped}

/-- An action that does not look at the text keeps it, and the meter. -/
theorem relabel_of_alike (halike : ∀ input meter, Stepped.Alike input meter m.meter.maxDepth (act m)
      (act (m.relabel input meter))) : (act m).machine.input = m.input ∧ (act m).machine.meter = m.meter := by
  have hself : act m = (act m).relabel m.input m.meter := (halike m.input m.meter).eq_relabel.2
  rw [hself]
  exact ⟨rfl, rfl⟩

theorem Follows.outcome_of_alike (h : Follows P m f) (waiting : List Event)
    (halike : ∀ input meter, Stepped.Alike input meter m.meter.maxDepth (act m)
      (act (m.relabel input meter))) : Outcome P waiting act m f := by
  obtain ⟨input, meter, hin, hmeter, rfl⟩ := h
  obtain ⟨hinput, hkept⟩ := relabel_of_alike halike
  rcases halike input meter with ⟨hnext, heq⟩ | hdeep
  · refine .agree hnext ?_
    rw [heq]
    exact ⟨rfl, rfl, input, meter, by rwa [hinput], by rwa [hkept], rfl⟩
  · exact .deep hmeter hdeep

theorem Resumes.again {α : Type} {ask : Machine → Machine × α} (hresumes : P.patient → Resumes P ask m f)
    (h : Follows P m f) (hkept : ∀ m, Kept m (ask m).1)
    {k : Machine × α → Stepped} (hact : ∀ m, act m = k (ask m))
    (hmachine : (k (ask m)).machine = (ask m).1) : Again P act m f := by
  intro hpatient
  obtain ⟨f', hfollows, hsame⟩ := hresumes hpatient
  have hmeter : f'.meter = f.meter := by
    rw [← (hkept f').meter_eq, hsame, (hkept f).meter_eq]
  refine ⟨f', by rwa [hact, hmachine], ?_, by rw [hact, hact, hsame]⟩
  obtain ⟨input, meter, -, -, rfl⟩ := h
  obtain ⟨input', meter', -, -, rfl⟩ := hfollows
  exact ⟨hmeter, (hkept m).frames_eq, (hkept m).started_eq, (hkept m).verdict_eq, (hkept m).splits_eq⟩

theorem finish_agrees (h : Follows P m f) (v : Verdict) : Stepped.Agrees P (.finish m v) (.finish f v) := by
  obtain ⟨input, meter, hin, hmeter, rfl⟩ := h
  exact ⟨rfl, rfl, input, meter, hin, hmeter, rfl⟩

/-- An action that asks for something and goes on with the answer. -/
theorem asked_outcome (h : Follows P m f) (pc : Nat) {α : Type} {kind : α → Fetch}
    {ask : Machine → Machine × α} (htracks : Tracks kind P ask m f) (hkept : ∀ m, Kept m (ask m).1)
    {k : Machine × α → Stepped} (hk : ∀ m a, k (m, a) = .fetched pc (fun m => k (m, a)) (m, kind a))
    (hnext : ∀ m a, kind a = .ready → (k (m, a)).next ≠ .suspend)
    (hready : ∀ {m f a}, kind a = .ready → Follows P m f → Stepped.Agrees P (k (m, a)) (k (f, a))) :
    Outcome P [.suspend pc] (fun m => k (ask m)) m f := by
  have hact : ∀ {n : Machine} {answer : Fetch}, kind (ask n).2 = answer →
      k (ask n) = .fetched pc (fun m => k (m, (ask n).2)) ((ask n).1, answer) := by
    intro n answer hn
    rw [← hn]
    exact hk _ _
  cases hm : kind (ask m).2 with
  | ready =>
    obtain ⟨hf, hfollows⟩ := htracks.agree (by rw [hm]; trivial)
    refine .agree (hnext _ _ hm) ?_
    show Stepped.Agrees P (k (_, (ask m).2)) (k (_, (ask f).2))
    rw [hf]
    exact hready hm hfollows
  | badText =>
    obtain ⟨hf, hfollows⟩ := htracks.agree (by rw [hm]; trivial)
    refine .agree (by rw [hact hm]; nofun) ?_
    rw [hact hm, hact ((congrArg kind hf).trans hm)]
    exact finish_agrees hfollows _
  | needMore =>
    have hresumes : P.patient → Resumes P ask m f := fun hpatient => htracks.resumes (by rw [hm]; exact hpatient)
    refine .wait (by rw [hact hm]; rfl) (by rw [hact hm]; rfl)
      (Resumes.again hresumes h hkept (fun _ => rfl) (by rw [hact hm]; rfl)) fun hlast => ?_
    obtain ⟨hf, hfollows⟩ := htracks.agree (by rw [hm]; exact hlast)
    rw [hact hm, hact ((congrArg kind hf).trans hm)]
    exact ⟨rfl, rfl, hfollows⟩
  | limit e =>
    by_cases hdrops : P.drops e
    · refine .limit e hdrops (by rw [hact hm]; rfl) fun hopen => ?_
      have hresumes := htracks.resumes (by rw [hm]; exact hopen)
      exact Resumes.again (fun _ => hresumes) h hkept (fun _ => rfl) (by rw [hact hm]; rfl)
    · obtain ⟨hf, hfollows⟩ := htracks.agree (by rw [hm]; exact hdrops)
      refine .agree (by rw [hact hm]; nofun) ?_
      rw [hact hm, hact ((congrArg kind hf).trans hm)]
      exact ⟨rfl, rfl, hfollows⟩

variable {ready : Machine → Stepped} {below : List Activation}

theorem fetched_outcome (h : Follows P m f) (pc : Nat) {ask : Machine → Machine × Fetch}
    (htracks : Tracks id P ask m f) (hkept : ∀ m, Kept m (ask m).1)
    (hnext : ∀ m, (ready m).next ≠ .suspend) (hready : ∀ {m f : Machine}, Follows P m f →
      Stepped.Agrees P (ready m) (ready f)) :
    Outcome P [.suspend pc] (fun m => .fetched pc ready (ask m)) m f := by
  refine asked_outcome h pc htracks hkept (fun m a => ?_) (fun m a ha => ?_) fun {m f a} ha h => ?_
  · cases a <;> rfl
  · cases ha
    exact hnext m
  · cases ha
    exact hready h

theorem advance_agrees (h : Follows P m f) (events : List Event) :
    Stepped.Agrees P ⟨m.advance, events, .run⟩ ⟨f.advance, events, .run⟩ := by
  obtain ⟨input, meter, hin, hmeter, rfl⟩ := h
  refine ⟨rfl, rfl, input, meter, ?_, ?_, mapTop_relabel input meter _ m⟩
  · rcases m with ⟨_, _, _ | ⟨top, rest⟩, _⟩ <;> exact hin
  · rcases m with ⟨_, _, _ | ⟨top, rest⟩, _⟩ <;> exact hmeter

/-- What `markUnique` does with the coming value. -/
def mark (pc : Nat) (slot : UInt32) : Machine × Scan → Stepped
  | (m, .needMore) => .suspend m pc
  | (m, .badText) => .finish m (.invalid .invalidJson)
  | (m, .limit e) => ⟨m, [], .fail (.limit e)⟩
  | (m, .value v) =>
    .require m pc (m.slot slot) fun _ =>
      match m.frames with
      | [] => .defect m 0 .noActivation
      | top :: rest =>
        let (top, new) := Activation.insertSeen slot v top
        ⟨advance { m with frames := top :: rest, flag := new }, [], .run⟩

theorem markUnique_eq (pc : Nat) (slot : UInt32) (m : Machine) : m.markUnique pc slot = mark pc slot m.scan := by
  unfold markUnique mark
  rcases m.scan with ⟨m', answer⟩
  cases answer <;> rfl

theorem mark_value (h : Follows P m f) (pc : Nat) (slot : UInt32) (v : String) :
    Stepped.Agrees P (mark pc slot (m, .value v)) (mark pc slot (f, .value v)) := by
  obtain ⟨input, meter, hin, hmeter, rfl⟩ := h
  unfold mark
  dsimp only
  rw [show (m.relabel input meter).slot slot = m.slot slot from rfl]
  cases m.slot slot with
  | error d => exact ⟨rfl, rfl, input, meter, hin, hmeter, rfl⟩
  | ok word =>
    dsimp only [Stepped.require]
    rw [show (m.relabel input meter).frames = m.frames from rfl]
    cases m.frames with
    | nil => exact ⟨rfl, rfl, input, meter, hin, hmeter, rfl⟩
    | cons top below =>
      exact advance_agrees (m := { m with frames := _ :: below, flag := _ }) ⟨input, meter, hin, hmeter, rfl⟩ []

theorem mark_next (m : Machine) (pc : Nat) (slot : UInt32) (v : String) :
    (mark pc slot (m, .value v)).next ≠ .suspend := by
  unfold mark Stepped.require
  dsimp only
  split
  · split <;> nofun
  · nofun

theorem markUnique_outcome (h : Follows P m f) (pc : Nat) (slot : UInt32) :
    Outcome P [.suspend pc] (markUnique pc slot) m f := by
  rw [funext (markUnique_eq pc slot)]
  refine asked_outcome h pc (scan_tracks h) scan_kept (fun m a => ?_) (fun m a ha => ?_) fun {m f a} ha h => ?_
  · cases a <;> rfl
  · cases a <;> cases ha
    exact mark_next m pc slot _
  · cases a <;> cases ha
    exact mark_value h pc slot _

theorem execute_outcome (h : Follows P m f) (exe : Executable) (pc : Nat) (op : Op)
    (hframes : m.frames = top :: below) :
    Outcome P [.suspend pc] (execute exe pc op) m f := by
  cases hreads : op.code.reads with
  | false =>
    exact h.outcome_of_alike _ fun input meter => execute_alike exe pc input meter op hreads hframes
  | true =>
    cases hcode : op.code with
    | token =>
      have hexecute : execute exe pc op =
          fun m => .fetched pc (fun m => ⟨m.advance, [.token m.current.kind], .run⟩) m.readToken := by
        funext m
        rw [execute, hcode]
      rw [hexecute]
      refine fetched_outcome h pc (readToken_tracks h) readToken_kept (by simp) ?_
      intro m f h
      have hcurrent : f.current = m.current := by
        obtain ⟨input, meter, -, -, rfl⟩ := h
        rfl
      rw [hcurrent]
      exact advance_agrees h _
    | consume =>
      have hexecute : execute exe pc op = fun m => .fetched pc (fun m => ⟨m.advance, [], .run⟩) m.consume := by
        funext m
        rw [execute, hcode]
      rw [hexecute]
      exact fetched_outcome h pc (consume_tracks h) consume_kept (by simp) fun h => advance_agrees h []
    | unique =>
      cases hop : op.a with
      | slot i =>
        have hexecute : execute exe pc op = markUnique pc i := by
          funext m
          rw [execute, hcode, hop]
        rw [hexecute]
        exact markUnique_outcome h pc i
      | _ =>
        refine h.outcome_of_alike _ fun input meter => Stepped.Alike.of_eq ?_ ?_
        · rw [execute, hcode, hop]
          rintro ⟨⟩
        · rw [execute, execute, hcode, hop]
          rfl
    | _ =>
      rw [hcode] at hreads
      cases hreads

/-! ## Moves -/

def ticked (m : Machine) : Machine := { m with meter := m.meter.tick.1 }

theorem step_nil (exe : Executable) (h : m.frames = []) : m.step exe = .defect m 0 .noActivation := by
  rw [step, h]

theorem step_pastEnd (exe : Executable) {top : Activation}
    (h : m.frames = top :: below) (hop : exe.ops[top.pc]? = none) :
    m.step exe = .defect m top.pc .pastEnd := by
  rw [step, h]
  simp only [hop]

theorem step_op (exe : Executable) {top : Activation}
    (h : m.frames = top :: below) {op : Op} (hop : exe.ops[top.pc]? = some op) :
    m.step exe = match m.meter.tick.2 with
      | some e => ⟨m.ticked, [], .fail (.limit e)⟩
      | none => .after (.instruction top.pc op.code m.depth) (m.ticked.execute exe top.pc op) := by
  rw [step, h]
  simp only [hop]
  rcases ht : m.meter.tick with ⟨meter, _ | e⟩ <;> simp only [ticked, ht, h]

/-- A step fails, or it is counted and runs an instruction of the current activation. -/
theorem step_cases {motive : Stepped → Prop} (exe : Executable) (m : Machine)
    (defect : ∀ pc d, motive (.defect m pc d)) (limit : ∀ e, motive ⟨m.ticked, [], .fail (.limit e)⟩)
    (execute : ∀ top below op, m.frames = top :: below → exe.ops[top.pc]? = some op →
      motive (.after (.instruction top.pc op.code m.depth) (m.ticked.execute exe top.pc op))) :
    motive (m.step exe) := by
  cases hframes : m.frames with
  | nil =>
    rw [step_nil exe hframes]
    exact defect 0 _
  | cons top below =>
    cases hop : exe.ops[top.pc]? with
    | none =>
      rw [step_pastEnd exe hframes hop]
      exact defect top.pc _
    | some op =>
      rw [step_op exe hframes hop]
      split
      · exact limit _
      · exact execute top below op hframes hop

theorem ticked_free (h : m.meter = .free) : m.ticked = m := by
  unfold ticked
  rw [h]
  rcases m
  cases h
  rfl

theorem mapTop_meter (m : Machine) (change : Activation → Activation) : (m.mapTop change).meter = m.meter := by
  rcases m with ⟨_, _, _ | ⟨top, below⟩, _⟩ <;> rfl

theorem fetched_meter (pc : Nat) (fetch : Machine × Fetch) (hready : ∀ m : Machine, (ready m).machine.meter = m.meter) :
    (Stepped.fetched pc ready fetch).machine.meter = fetch.1.meter := by
  obtain ⟨m, answer⟩ := fetch
  cases answer with
  | ready => exact hready m
  | needMore | badText | limit => rfl

theorem mark_meter (pc : Nat) (slot : UInt32) (scanned : Machine × Scan) :
    (mark pc slot scanned).machine.meter = scanned.1.meter := by
  obtain ⟨m, answer⟩ := scanned
  cases answer with
  | needMore | badText | limit => rfl
  | value v =>
    unfold mark Stepped.require
    dsimp only
    split
    · split
      · rfl
      · exact mapTop_meter _ _
    · rfl

/-- An instruction is counted before it runs, and no other way. -/
theorem execute_meter (exe : Executable) (pc : Nat) (op : Op) (hframes : m.frames = top :: below) :
    (m.execute exe pc op).machine.meter = m.meter := by
  cases hreads : op.code.reads with
  | false =>
    exact (relabel_of_alike fun input meter => execute_alike exe pc input meter op hreads hframes).2
  | true =>
    unfold execute
    cases hcode : op.code with
    | token =>
      exact (fetched_meter pc _ fun m => mapTop_meter m _).trans (readToken_kept m).meter_eq
    | consume =>
      exact (fetched_meter pc _ fun m => mapTop_meter m _).trans (consume_kept m).meter_eq
    | unique =>
      dsimp only
      split
      · rw [markUnique_eq, mark_meter]
        exact (scan_kept m).meter_eq
      · rfl
    | _ =>
      rw [hcode] at hreads
      cases hreads

/-- Waiting with an instruction that has been counted: the second machine has not begun it. -/
theorem Again.unticked (hpatient : P.patient) (hrel : P.rel m.meter f.meter) (hmeter : (act m.ticked).machine.meter = m.ticked.meter)
    (h : Again P act m.ticked f.ticked) :
    ∃ f', Follows P (act m.ticked).machine f' ∧ Kept f f' ∧ act f'.ticked = act f.ticked := by
  obtain ⟨g, ⟨input, meter, hin, -, rfl⟩, hkept, hsame⟩ := h hpatient
  have hticked : meter = f.meter.tick.1 := hkept.meter_eq
  refine ⟨(act m.ticked).machine.relabel input f.meter,
    ⟨input, f.meter, hin, by rw [hmeter]; exact P.wait hpatient hrel, rfl⟩,
    ⟨rfl, hkept.frames_eq, hkept.started_eq, hkept.verdict_eq, hkept.splits_eq⟩, ?_⟩
  rw [← hsame, hticked]
  rfl

/-- An event in front of the events of an action, behind the count of an instruction. -/
theorem Outcome.after {waiting : List Event} {act' : Machine → Stepped} {e : Event}
    (hrel : P.rel m.meter f.meter) (hmeter : (act m.ticked).machine.meter = m.ticked.meter)
    (h : Outcome P waiting act m.ticked f.ticked) (hleft : act' m = (act m.ticked).after e)
    (hright : ∀ f', Kept f f' → act' f' = (act f'.ticked).after e) :
    Outcome P (e :: waiting) act' m f := by
  have hf := hright f (Kept.refl f)
  have hagrees : Stepped.Agrees P (act m.ticked) (act f.ticked) → Stepped.Agrees P (act' m) (act' f) := by
    rintro ⟨hevents, hnext, hfollows⟩
    rw [hleft, hf]
    exact ⟨congrArg (e :: ·) hevents, hnext, hfollows⟩
  have hagain : Again P act m.ticked f.ticked → Again P act' m f := by
    intro hwait hpatient
    obtain ⟨f', hfollows, hkept, hsame⟩ := hwait.unticked hpatient hrel hmeter
    exact ⟨f', by rwa [hleft], hkept, by rw [hright f' hkept, hf, hsame]⟩
  cases h with
  | agree hnext h => exact .agree (by rwa [hleft]) (hagrees h)
  | wait hnext hevents hwait hlast =>
    exact .wait (by rwa [hleft]) (by rw [hleft]; exact congrArg (e :: ·) hevents) (hagain hwait)
      fun hl => hagrees (hlast hl)
  | limit error hdrops hnext hwait =>
    exact .limit error hdrops (by rwa [hleft]) fun hopen => hagain (hwait hopen)
  | deep hrel hdeep =>
    refine .deep hrel ?_
    rw [hleft, hf]
    exact hdeep

theorem step_outcome (h : Follows P m f) (exe : Executable) : ∃ pc code depth,
      Outcome P [.instruction pc code depth, .suspend pc] (step exe) m f := by
  have hframes : f.frames = m.frames := by
    obtain ⟨input, meter, -, -, rfl⟩ := h
    rfl
  have hrel : P.rel m.meter f.meter := by
    obtain ⟨input, meter, -, hmeter, rfl⟩ := h
    exact hmeter
  cases hm : m.frames with
  | nil =>
    refine ⟨0, .nop, 0, .agree (by rw [step_nil exe hm]; nofun) ?_⟩
    rw [step_nil exe hm, step_nil exe (hframes.trans hm)]
    exact ⟨rfl, rfl, h⟩
  | cons top below =>
    cases hop : exe.ops[top.pc]? with
    | none =>
      refine ⟨0, .nop, 0, .agree (by rw [step_pastEnd exe hm hop]; nofun) ?_⟩
      rw [step_pastEnd exe hm hop, step_pastEnd exe (hframes.trans hm) hop]
      exact ⟨rfl, rfl, h⟩
    | some op =>
      refine ⟨top.pc, op.code, m.depth, ?_⟩
      obtain ⟨hrel', htick⟩ := P.tick hrel
      have hticked : Follows P m.ticked f.ticked := by
        obtain ⟨input, meter, hin, -, rfl⟩ := h
        exact ⟨input, meter.tick.1, hin, hrel', rfl⟩
      cases ht : m.meter.tick.2 with
      | some e =>
        have hleft : m.step exe = ⟨m.ticked, [], .fail (.limit e)⟩ := by
          rw [step_op exe hm hop, ht]
        rcases htick with hsame | ⟨_, he, hdrops⟩
        · refine .agree (by rw [hleft]; nofun) ?_
          rw [hleft, step_op exe (hframes.trans hm) hop, hsame, ht]
          exact ⟨rfl, rfl, hticked⟩
        cases ht.symm.trans he
        refine .limit e hdrops (by rw [hleft]) fun _ hpatient => ⟨f, ?_, Kept.refl f, rfl⟩
        obtain ⟨input, meter, hin, hmeter, rfl⟩ := h
        rw [hleft]
        exact ⟨input, meter, hin, P.wait hpatient hmeter, rfl⟩
      | none =>
        have hpasses : f.meter.tick.2 = none := by
          rcases htick with hsame | ⟨_, he, -⟩
          · exact hsame.trans ht
          · cases ht.symm.trans he
        refine (execute_outcome hticked exe top.pc op hm).after hrel (execute_meter exe top.pc op hm) ?_ ?_
        · rw [step_op exe hm hop, ht]
        · intro f' hkept
          have hframes' : f'.frames = m.frames := hkept.frames_eq.trans hframes
          rw [step_op exe (hframes'.trans hm) hop, hkept.meter_eq, hpasses, depth, depth, hframes']

/-- The next thing that a run without a verdict does: it begins, or it goes on. -/
def move (exe : Executable) (m : Machine) : Stepped :=
  if m.started then m.step exe else enter exe 0 0 { m with started := true }

theorem Outcome.congr {waiting : List Event} {act' : Machine → Stepped}
    (h : Outcome P waiting act m f) (hleft : act' m = act m)
    (hright : ∀ f', Kept f f' → act' f' = act f') : Outcome P waiting act' m f := by
  have hf := hright f (Kept.refl f)
  have hagain : Again P act m f → Again P act' m f := by
    intro hwait hpatient
    obtain ⟨f', hfollows, hkept, hsame⟩ := hwait hpatient
    exact ⟨f', by rwa [hleft], hkept, by rw [hright f' hkept, hf, hsame]⟩
  cases h with
  | agree hnext h => exact .agree (by rwa [hleft]) (by rwa [hleft, hf])
  | wait hnext hevents hwait hlast =>
    exact .wait (by rwa [hleft]) (by rwa [hleft]) (hagain hwait) (by rwa [hleft, hf])
  | limit error hdrops hnext hwait =>
    exact .limit error hdrops (by rwa [hleft]) fun hopen => hagain (hwait hopen)
  | deep hrel hdeep => exact .deep hrel (by rwa [hleft, hf])

theorem move_outcome (h : Follows P m f) (exe : Executable) :
    ∃ pc code depth, Outcome P [.instruction pc code depth, .suspend pc] (move exe) m f := by
  have hstarted : f.started = m.started := by
    obtain ⟨input, meter, -, -, rfl⟩ := h
    rfl
  cases hm : m.started with
  | true =>
    obtain ⟨pc, code, depth, hstep⟩ := step_outcome h exe
    refine ⟨pc, code, depth, hstep.congr (by rw [move, if_pos hm]) fun f' hkept => ?_⟩
    rw [move, if_pos (hkept.started_eq.trans (hstarted.trans hm))]
  | false =>
    have henter : Outcome P [.instruction 0 .nop 0, .suspend 0]
        (fun m => enter exe 0 0 { m with started := true }) m f :=
      h.outcome_of_alike _ fun input meter =>
        enter_alike exe 0 input meter 0 { m with started := true }
    refine ⟨0, .nop, 0, henter.congr (by rw [move, hm]; rfl) fun f' hkept => ?_⟩
    rw [move, hkept.started_eq, hstarted, hm]
    rfl

end

end Machine

end JsonSieve
