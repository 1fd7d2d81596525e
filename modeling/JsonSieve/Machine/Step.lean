import JsonSieve.Machine.Tokens

/-!
# One instruction

A step runs the instruction of the current activation. It gives the next state, the events in their
order, and how the run goes on. A step that fails keeps what it has changed until then.

Splits run their branches one after another as activations on top of the current one. A return to the
depth at which a split began ends a branch: the place in the text, the current token and the last case
become what they were, and the next branch begins or the result is stored. Any other return with a
code that is not zero ends the caller with the same code.
-/

namespace JsonSieve.Machine

inductive Next where
  | run
  /-- The instruction is to be run again when there is more of the text. -/
  | suspend
  | finish (v : Verdict)
  | fail (e : RunError)
  deriving DecidableEq, Repr, Inhabited

structure Stepped where
  machine : Machine
  events : List Event := []
  next : Next := .run

namespace Stepped

def after (e : Event) (s : Stepped) : Stepped := { s with events := e :: s.events }

def defect (m : Machine) (pc : Nat) (d : Defect) : Stepped := ⟨m, [], .fail (.malformed pc d)⟩

/-- A step that needs a result and fails without it. -/
def require {α : Type} (m : Machine) (pc : Nat) (result : Except Defect α) (k : α → Stepped) :
    Stepped :=
  match result with
  | .ok a => k a
  | .error d => defect m pc d

def suspend (m : Machine) (pc : Nat) : Stepped := ⟨m, [.suspend pc], .suspend⟩

def finish (m : Machine) (v : Verdict) : Stepped :=
  ⟨{ m with verdict := some v, frames := [], splits := [] }, [], .finish v⟩

def fetched (pc : Nat) (ready : Machine → Stepped) : Machine × Fetch → Stepped
  | (m, .ready) => ready m
  | (m, .needMore) => suspend m pc
  | (m, .badText) => finish m (.invalid .invalidJson)
  | (m, .limit e) => ⟨m, [], .fail (.limit e)⟩

end Stepped

/-! ## Calls and splits -/

/-- Begins an activation of a procedure with all slots zero. -/
def enter (exe : Executable) (pc : Nat) (proc : UInt32) (m : Machine) : Stepped :=
  match m.meter.checkDepth m.depth with
  | some e => ⟨m, [], .fail (.limit e)⟩
  | none =>
    match exe.procs[proc.toNat]? with
    | none => .defect m pc (.missingProcedure proc)
    | some p =>
      let a : Activation := {
        proc, pc := p.entry.toNat, slots := Array.replicate p.slots.toNat 0 }
      ⟨{ m with frames := a :: m.frames }, [.call proc (m.depth + 1)], .run⟩

def verdictOf (code : Int64) : Except Defect Verdict :=
  if code = 0 then .ok .valid
  else match Reason.ofWord? code with
    | some reason => .ok (.invalid reason)
    | none => .error (.unknownCode code)

def Split.returned (s : Split) (code : Int64) : Split :=
  let result :=
    if code ≠ 0 then s.result
    else if s.bits then s.result ||| ((1 : Int64) <<< Int64.ofNat s.branch)
    else s.result + 1
  { s with result, branch := s.branch + 1 }

/-- Ends a branch of the innermost split, and begins the next one or stores the result. -/
def finishBranch (exe : Executable) (pc : Nat) (code : Int64) (m : Machine) : Stepped :=
  match m.splits with
  | [] => .defect m pc .noSplit
  | s :: outer =>
    let s := Split.returned s code
    let m := { m with
      cursor := s.cursor, current := s.token, lastCase := s.lastCase, skipDepth := 0
      splits := s :: outer }
    match (exe.splits[s.split.toNat]?).bind (·[s.branch]?) with
    | some proc => m.enter exe pc proc
    | none =>
      let m := { m with splits := outer }
      .after (.splitEnd s.split s.result)
        (.require m pc (m.slot s.target) fun _ => ⟨m.setSlot s.target s.result, [], .run⟩)

/-- Ends activations with a code, the current one first. -/
def unwind (exe : Executable) (pc : Nat) (code : Int64) (m : Machine) : List Activation → Stepped
  | [] => .defect m 0 .noActivation
  | _ :: rest =>
    let m := { m with frames := rest }
    let ended := Event.ret code rest.length
    if m.splits.head?.any (·.depth = rest.length) then
      .after ended (m.finishBranch exe pc code)
    else match rest with
      | [] => .after ended (.require m pc (verdictOf code) fun v => .finish m v)
      | _ :: _ =>
        if code = 0 then ⟨m, [ended], .run⟩
        else .after ended (unwind exe pc code m rest)

def startSplit (exe : Executable) (pc : Nat) (bits : Bool) (split target : UInt32) (m : Machine) :
    Stepped :=
  .require m pc (m.slot target) fun _ =>
    let branches := (exe.splits[split.toNat]?).getD #[]
    if bits ∧ 64 < branches.size then .defect m pc (.tooManyBranches branches.size)
    else
      let m := m.advance
      match branches[0]? with
      | none =>
        ⟨m.setSlot target 0, [.splitStart split branches.size, .splitEnd split 0], .run⟩
      | some proc =>
        let s : Split := {
          split, bits, target, depth := m.depth, cursor := m.cursor, token := m.current
          lastCase := m.lastCase }
        .after (.splitStart split branches.size)
          (enter exe pc proc { m with splits := s :: m.splits })

/-! ## Instructions -/

/-- Puts the text of a value into the unique set of a slot; tells whether it was new. -/
def Activation.insertSeen (slot : UInt32) (text : String) (a : Activation) : Activation × Bool :=
  let seen := (a.seen.lookup slot).getD .empty
  if seen.contains text then (a, false)
  else ({ a with seen := (slot, seen.insert text) :: a.seen.filter (·.1 ≠ slot) }, true)

/-- Marks the coming value as seen and sets the flag if it was new. -/
def markUnique (pc : Nat) (slot : UInt32) (m : Machine) : Stepped :=
  match m.scan with
  | (m, .needMore) => .suspend m pc
  | (m, .badText) => .finish m (.invalid .invalidJson)
  | (m, .limit e) => ⟨m, [], .fail (.limit e)⟩
  | (m, .value v) =>
    .require m pc (m.slot slot) fun _ =>
      match m.frames with
      | [] => .defect m 0 .noActivation
      | top :: rest =>
        let (top, new) := Activation.insertSeen slot v top
        ⟨advance { m with frames := top :: rest, flag := new }, [], .run⟩

def update (pc : Nat) (target : Operand) (f : Int64 → Int64) (m : Machine) : Stepped :=
  .require m pc (m.slotIndex target) fun i =>
    .require m pc (m.slot i) fun word => ⟨(m.setSlot i (f word)).advance, [], .run⟩

def setFlag (pc : Nat) (result : Except Defect Bool) (m : Machine) : Stepped :=
  .require m pc result fun flag => ⟨advance { m with flag }, [], .run⟩

def jump (pc : Nat) (m : Machine) : Operand → Stepped
  | .address a => ⟨m.goTo a.toNat, [], .run⟩
  | o => .defect m pc (.notTarget o)

def bitWord (bit : Nat) : Int64 := (1 : Int64) <<< Int64.ofNat bit

def popCount (word : Int64) : Int64 :=
  Int64.ofNat (Word.popCount 64 word.toUInt64.toNat)

def execute (exe : Executable) (pc : Nat) (op : Op) (m : Machine) : Stepped :=
  match op.code with
  | .nop => ⟨m.advance, [], .run⟩
  | .compareWords c => m.setFlag pc do
      let a ← m.word op.a
      let b ← m.word op.b
      pure (c.word a b)
  | .compareReals c => m.setFlag pc do
      let a ← m.real exe op.a
      let b ← m.real exe op.b
      pure (c.real a b)
  | .divides => m.setFlag pc do
      let a ← m.real exe op.a
      let b ← m.real exe op.b
      pure (a.div b).isIntegral
  | .branch => m.jump pc op.a
  | .branchIfSet => if m.flag then m.jump pc op.a else ⟨m.advance, [], .run⟩
  | .branchIfClear => if m.flag then ⟨m.advance, [], .run⟩ else m.jump pc op.a
  | .call =>
    match op.a with
    | .proc p => m.advance.enter exe pc p
    | _ => .defect m pc .needsProcedure
  | .ret => .require m pc (m.word op.a) fun code => unwind exe pc code m m.frames
  | .split =>
    match op.a, op.b with
    | .split s, .slot target => m.startSplit exe pc false s target
    | _, _ => .defect m pc .needsListAndSlot
  | .splitBits =>
    match op.a, op.b with
    | .split s, .slot target => m.startSplit exe pc true s target
    | _, _ => .defect m pc .needsListAndSlot
  | .token => .fetched pc (fun m => ⟨m.advance, [.token m.current.kind], .run⟩) m.readToken
  | .consume => .fetched pc (fun m => ⟨m.advance, [], .run⟩) m.consume
  | .untoken =>
    if m.cursor = 0 then .defect m pc .nothingToPushBack
    else ⟨advance { m with cursor := m.cursor - 1 }, [], .run⟩
  | .unique =>
    match op.a with
    | .slot i => m.markUnique pc i
    | _ => .defect m pc .needsSetSlot
  | .matchCase =>
    match op.a with
    | .matcher i =>
      match exe.recognizers[i.toNat]?, m.current with
      | some r, .string text =>
        ⟨advance { m with lastCase := Int64.ofNat (r.caseOf text).toNat }, [], .run⟩
      | some _, _ => ⟨advance { m with lastCase := 0 }, [], .run⟩
      | none, _ => .defect m pc (.badOperand op.a)
    | _ => .defect m pc .needsMatcher
  | .move => .require m pc (m.word op.b) fun word => m.update pc op.a fun _ => word
  | .incr => m.update pc op.a (· + 1)
  | .decr => m.update pc op.a (· - 1)
  | .bitSet => .require m pc (m.word op.b >>= bitIndex) fun bit =>
      m.update pc op.a (· ||| bitWord bit)
  | .bitClear => .require m pc (m.word op.b >>= bitIndex) fun bit =>
      m.update pc op.a (· &&& ~~~ bitWord bit)
  | .bitTest => m.setFlag pc do
      let bit ← m.word op.b >>= bitIndex
      let word ← m.word op.a
      pure ((word &&& bitWord bit) != 0)
  | .bitCount => .require m pc (m.word op.b) fun word => m.update pc op.a fun _ => popCount word
  | .finish => .defect m pc .ranIntoEnd

def step (exe : Executable) (m : Machine) : Stepped :=
  match m.frames with
  | [] => .defect m 0 .noActivation
  | top :: _ =>
    match exe.ops[top.pc]? with
    | none => .defect m top.pc .pastEnd
    | some op =>
      match m.meter.tick with
      | (meter, some e) => ⟨{ m with meter }, [], .fail (.limit e)⟩
      | (meter, none) =>
        .after (.instruction top.pc op.code m.depth) ({ m with meter }.execute exe top.pc op)

end JsonSieve.Machine
