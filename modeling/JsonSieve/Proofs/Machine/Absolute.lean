import JsonSieve.Proofs.Machine.Loops
import JsonSieve.Proofs.Machine.Streaming

/-!
# A machine with the whole stream of tokens

The buffer of a machine begins somewhere in the stream of all tokens of its text, and what is dropped from it
moves this beginning. The absolute machine has the whole stream and a position in it instead: it has no
buffer, waits for nothing and has no limits. Its steps are what the instructions mean.
-/

namespace JsonSieve

/-- The tokens of a text, and whether the text is bad behind them. -/
structure Stream where
  tokens : List Token
  broken : Bool

namespace Stream

def ofText (text : List UInt8) : Stream where
  tokens := (Lexer.whole text).drain.1
  broken := decide ((Lexer.whole text).drain.2 ≠ .eof)

variable {s : Stream}

/-- The token at a position. Behind the last one there are only empty tokens; `none` where the text is
bad. -/
def tokenAt (s : Stream) (p : Nat) : Option Token := Running.tokenAt s.broken s.tokens p

/-- How many tokens there are until so many containers are closed; the end of the text closes all of
them. -/
def closing (broken : Bool) : Nat → List Token → Option Nat
  | 0, _ => some 0
  | _ + 1, [] => if broken then none else some 1
  | depth + 1, t :: rest => (closing broken (Machine.openAfter t.kind (depth + 1)) rest).map (· + 1)

/-- The position behind the tokens that close so many containers. -/
def behind (s : Stream) (depth p : Nat) : Option Nat :=
  (closing s.broken depth (s.tokens.drop p)).map (p + ·)

/-- The value at a position, behind the beginnings of containers. -/
def value? (s : Stream) (stack : List Machine.Partial) (p : Nat) : Option String :=
  match Running.look s.broken stack (s.tokens.drop p) with
  | .value v => some v
  | _ => none

theorem tokenAt_of_drop {p : Nat} {t : Token} {rest : List Token} (h : s.tokens.drop p = t :: rest) :
    s.tokenAt p = some t ∧ s.tokens.drop (p + 1) = rest := by
  have ht : s.tokens[p]? = some t := by
    rw [← List.head?_drop, h]
    rfl
  refine ⟨Running.tokenAt_of_some ht, ?_⟩
  rw [← List.drop_drop, h]
  rfl

theorem tokenAt_of_drop_nil {p : Nat} (h : s.tokens.drop p = []) :
    s.tokenAt p = if s.broken then none else some .none := by
  have hnone : s.tokens[p]? = none := by
    rw [← List.head?_drop, h]
    rfl
  rw [tokenAt, Running.tokenAt, hnone]
  rfl

theorem behind_zero (s : Stream) (p : Nat) : s.behind 0 p = some p := by
  unfold behind
  rw [closing]
  rfl

theorem behind_of_ne_zero (s : Stream) {depth : Nat} (hdepth : depth ≠ 0) (p : Nat) :
    s.behind depth p = (s.tokenAt p).bind fun t => s.behind (Machine.openAfter t.kind depth) (p + 1) := by
  obtain ⟨depth, rfl⟩ := Nat.exists_eq_succ_of_ne_zero hdepth
  cases hdrop : s.tokens.drop p with
  | nil =>
    rw [tokenAt_of_drop_nil hdrop, behind, hdrop]
    cases s.broken with
    | true => rfl
    | false =>
      show some (p + 1) = s.behind 0 (p + 1)
      rw [behind_zero]
  | cons t rest =>
    obtain ⟨ht, hrest⟩ := tokenAt_of_drop hdrop
    rw [ht, behind, hdrop, Option.bind_some, behind, hrest, closing, Option.map_map]
    congr 1
    funext n
    show p + (n + 1) = p + 1 + n
    omega

theorem value?_eq (s : Stream) (stack : List Machine.Partial) (p : Nat) : s.value? stack p = (s.tokenAt p).bind fun t =>
      match Machine.Reading.step stack t with
      | .more stack => s.value? stack (p + 1)
      | .value v => some v
      | .bad => none := by
  cases hdrop : s.tokens.drop p with
  | nil =>
    rw [tokenAt_of_drop_nil hdrop, value?, hdrop, Running.look]
    cases s.broken with
    | true => rfl
    | false => rfl
  | cons t rest =>
    obtain ⟨ht, hrest⟩ := tokenAt_of_drop hdrop
    rw [ht, value?, hdrop, Option.bind_some, Running.look]
    cases Machine.Reading.step stack t with
    | more stack' =>
      dsimp only
      rw [value?, hrest]
    | value v => rfl
    | bad => rfl

end Stream

/-- A machine with a position in the stream. The cursor of a split is a position too. -/
structure Absolute where
  frames : List Activation := []
  splits : List Split := []
  position : Nat := 0
  current : Token := .none
  lastCase : Int64 := 0
  flag : Bool := false

namespace Absolute

inductive Outcome where
  | run (a : Absolute)
  | returns (pc : Nat) (code : Int64)
  | badText
  | fails (pc : Nat) (d : Defect)

def Outcome.next : Outcome → Machine.Next
  | .run _ => .run
  | .returns pc code =>
    match Machine.verdictOf code with
    | .ok v => .finish v
    | .error d => .fail (.malformed pc d)
  | .badText => .finish (.invalid .invalidJson)
  | .fails pc d => .fail (.malformed pc d)

/-! ## Calls and splits -/

def enter (exe : Executable) (pc : Nat) (proc : UInt32) (a : Absolute) : Outcome :=
  match exe.procs[proc.toNat]? with
  | none => .fails pc (.missingProcedure proc)
  | some p => .run { a with frames :=
      { proc, pc := p.entry.toNat, slots := Array.replicate p.slots.toNat 0 } :: a.frames }

def store (pc : Nat) (target : UInt32) (word : Int64) (a : Absolute) : Outcome :=
  match a.frames with
  | [] => .fails pc .noActivation
  | top :: below =>
    if target.toNat < top.slots.size then
      .run { a with frames := { top with slots := top.slots.setIfInBounds target.toNat word } :: below }
    else .fails pc (.slotRange target top.proc)

/-- Ends a branch of the innermost split at the position where the split began. -/
def finishBranch (exe : Executable) (pc : Nat) (code : Int64) (a : Absolute) : Outcome :=
  match a.splits with
  | [] => .fails pc .noSplit
  | s :: outer =>
    let s := Machine.Split.returned s code
    let a := { a with position := s.cursor, current := s.token, lastCase := s.lastCase }
    match (exe.splits[s.split.toNat]?).bind (·[s.branch]?) with
    | some proc => enter exe pc proc { a with splits := s :: outer }
    | none => store pc s.target s.result { a with splits := outer }

def unwind (exe : Executable) (pc : Nat) (code : Int64) (a : Absolute) : List Activation → Outcome
  | [] => .fails 0 .noActivation
  | _ :: rest =>
    let a := { a with frames := rest }
    if a.splits.head?.any (·.depth = rest.length) then finishBranch exe pc code a
    else match rest with
      | [] => .returns pc code
      | _ :: _ => if code = 0 then .run a else unwind exe pc code a rest

def startSplit (exe : Executable) (pc : Nat) (bits : Bool) (split target : UInt32) (top : Activation)
    (below : List Activation) (a : Absolute) : Outcome :=
  if top.slots.size ≤ target.toNat then .fails pc (.slotRange target top.proc)
  else
    let branches := (exe.splits[split.toNat]?).getD #[]
    if bits ∧ 64 < branches.size then .fails pc (.tooManyBranches branches.size)
    else
      let a := { a with frames := { top with pc := top.pc + 1 } :: below }
      match branches[0]? with
      | none => store pc target 0 a
      | some proc =>
        let s : Split := {
          split, bits, target, depth := below.length + 1, cursor := a.position, token := a.current
          lastCase := a.lastCase }
        enter exe pc proc { a with splits := s :: a.splits }

/-! ## Instructions -/

def execute (exe : Executable) (stream : Stream) (op : Op) (top : Activation) (below : List Activation)
    (a : Absolute) : Outcome :=
  let on (a : Absolute) : Outcome := .run { a with frames := { top with pc := top.pc + 1 } :: below }
  match op.code with
  | .call =>
    match op.a with
    | .proc p => enter exe top.pc p { a with frames := { top with pc := top.pc + 1 } :: below }
    | _ => .fails top.pc .needsProcedure
  | .ret =>
    match (Machine.solo top a.current a.lastCase a.flag).word op.a with
    | .ok code => unwind exe top.pc code a (top :: below)
    | .error d => .fails top.pc d
  | .split =>
    match op.a, op.b with
    | .split s, .slot target => a.startSplit exe top.pc false s target top below
    | _, _ => .fails top.pc .needsListAndSlot
  | .splitBits =>
    match op.a, op.b with
    | .split s, .slot target => a.startSplit exe top.pc true s target top below
    | _, _ => .fails top.pc .needsListAndSlot
  | .token =>
    match stream.tokenAt a.position with
    | some t => on { a with current := t, position := a.position + 1 }
    | none => .badText
  | .untoken =>
    if a.position = 0 then .fails top.pc .nothingToPushBack
    else on { a with position := a.position - 1 }
  | .consume =>
    if a.current.kind.opens then
      match stream.behind 1 a.position with
      | some position => on { a with position }
      | none => .badText
    else on a
  | .unique =>
    match op.a with
    | .slot i =>
      match stream.value? [] a.position with
      | none => .badText
      | some v =>
        if i.toNat < top.slots.size then
          let (top, new) := Machine.Activation.insertSeen i v top
          .run { a with frames := { top with pc := top.pc + 1 } :: below, flag := new }
        else .fails top.pc (.slotRange i top.proc)
    | _ => .fails top.pc .needsSetSlot
  | _ =>
    match Machine.effect exe top.pc op top a.current a.lastCase a.flag with
    | .stays top lastCase flag => .run { a with frames := top :: below, lastCase, flag }
    | .fails d => .fails top.pc d

theorem execute_local (exe : Executable) (stream : Stream) {op : Op} (hlocal : op.code.isLocal = true)
    (top : Activation) (below : List Activation) (a : Absolute) :
    a.execute exe stream op top below = match Machine.effect exe top.pc op top a.current a.lastCase a.flag with
      | .stays top lastCase flag => .run { a with frames := top :: below, lastCase, flag }
      | .fails d => .fails top.pc d := by
  unfold execute
  dsimp only
  split
  case h_9 => rfl
  all_goals
    next hcode =>
    rw [hcode] at hlocal
    cases hlocal

def step (exe : Executable) (stream : Stream) (a : Absolute) : Outcome :=
  match a.frames with
  | [] => .fails 0 .noActivation
  | top :: below =>
    match exe.ops[top.pc]? with
    | none => .fails top.pc .pastEnd
    | some op => a.execute exe stream op top below

/-- The state after a number of steps from the beginning of procedure 0, if it runs so far. -/
def after (exe : Executable) (stream : Stream) : Nat → Option Absolute
  | 0 =>
    match enter exe 0 0 {} with
    | .run a => some a
    | _ => none
  | n + 1 =>
    match after exe stream n with
    | some a =>
      match a.step exe stream with
      | .run a => some a
      | _ => none
    | none => none

end Absolute

end JsonSieve
