import JsonSieve.Graph.Check
import JsonSieve.Graph.Fold

/-!
# From trees to graphs

Structured statements become blocks joined by branches:

* a condition whose second branch does nothing goes to a block for the first branch and to a join,
* any other condition goes to a block for each branch; the ends that are still open meet in a join,
* a loop has a header to which its body returns, and an exit made by the first statement that leaves,
* a dispatch moves the case into a temporary and goes to a block for each case.

Connectives become branches of their own. What looks ahead or reads a matcher is moved into a
temporary first, so that conditions only compare registers. Nested frames get the next free number in
the order in which they are met and are laid out after the frames before them.
-/

namespace JsonSieve.Graph

structure LoopScope where
  id : Nat
  name : String
  exit : Option Nat := none

structure Layout where
  decls : Decls := {}
  blocks : Array Block := #[]
  /-- The block that takes statements, unless control has ended. -/
  current : Option Nat := none
  loops : List LoopScope := []
  nextFrame : Nat
  nested : List Stmt := []

abbrev Laying := StateT Layout (Except Fault)

namespace Layout

def newBlock (name : String) : Laying Nat := fun l =>
  .ok (l.blocks.size, { l with blocks := l.blocks.push ⟨l.blocks.size, name, []⟩ })

def goTo (block : Option Nat) : Laying Unit := fun l => .ok ((), { l with current := block })

def position : Laying (Option Nat) := fun l => .ok (l.current, l)

def emit (s : Stmt) : Laying Unit := fun l =>
  match l.current with
  | none => .error (.afterTerminator s)
  | some b => .ok ((), { l with
      blocks := l.blocks.modify b fun block => { block with stmts := block.stmts ++ [s] }
      current := if s.isTerminator then none else some b })

def newTemp : Laying Nat := fun l =>
  .ok (l.decls.temps, { l with decls := { l.decls with temps := l.decls.temps + 1 } })

def hoist (body : Stmt) : Laying Nat := fun l =>
  .ok (l.nextFrame, { l with nextFrame := l.nextFrame + 1, nested := l.nested ++ [body] })

def declare (kind : Declared) (id : Nat) (size : Decls → Nat) (add : Decls → Decls) :
    Laying Unit := fun l =>
  if id = size l.decls then .ok ((), { l with decls := add l.decls })
  else .error (.outOfOrder kind)

/-- Branches to a block if control has not ended. -/
def branchOn (target : Nat) : Laying Unit := do
  match ← position with
  | some _ => emit (.branch target)
  | none => pure ()

/-- Joins the open ends in a new block; without open ends control has ended. -/
def join (ends : List (Option Nat)) (name : String) : Laying Unit := do
  let live := ends.filterMap id
  if live.isEmpty then goTo none
  else
    let join ← newBlock name
    live.forM fun b => do
      goTo (some b)
      emit (.branch join)
    goTo (some join)

def enter (id : Nat) (name : String) : Laying Unit := fun l =>
  .ok ((), { l with loops := ⟨id, name, none⟩ :: l.loops })

/-- Ends the innermost loop; control goes on at its exit, if it has one. -/
def leaveLoop : Laying Unit := fun l =>
  match l.loops with
  | [] => .ok ((), l)
  | scope :: loops => .ok ((), { l with loops, current := scope.exit })

def setExit (id exit : Nat) : List LoopScope → List LoopScope
  | [] => []
  | scope :: rest =>
    if scope.id = id then { scope with exit := some exit } :: rest
    else scope :: setExit id exit rest

/-- The exit of the innermost loop of a number, made when it is first asked for. -/
def exitOf (id : Nat) : Laying Nat := fun l =>
  match l.loops.find? (·.id = id) with
  | none => .error (.unknownLoop id)
  | some scope =>
    match scope.exit with
    | some exit => .ok (exit, l)
    | none =>
      let exit := l.blocks.size
      .ok (exit, { l with
        blocks := l.blocks.push ⟨exit, scope.name ++ "_exit", []⟩
        loops := setExit id exit l.loops })

end Layout

open Layout

mutual

def layStmt : Stmt → Laying Unit
  | .nop => pure ()
  | .seq list => layAll list
  | .counter id name =>
    declare .counter id (·.counters.length) fun d => { d with counters := d.counters ++ [name] }
  | .matcher id m =>
    declare .matcher id (·.matchers.length) fun d => { d with matchers := d.matchers ++ [m] }
  | .bitvec id name size =>
    declare .bitvec id (·.bitvecs.length) fun d => { d with bitvecs := d.bitvecs ++ [⟨name, size⟩] }
  | .splitList id frames => do
    let ids ← frames.mapM hoist
    declare .splitList id (·.splits.length) fun d => { d with splits := d.splits ++ [ids] }
  | .uniqueSet id => declare .uniqueSet id (·.uniques) fun d => { d with uniques := d.uniques + 1 }
  | .frame body => do
    let id ← hoist body
    emit (.call id)
  | .ite condition yes no =>
    if no.isNop then do
      let first ← newBlock "then"
      let join ← newBlock "join"
      layCondition first join condition
      goTo (some first)
      layStmt yes
      branchOn join
      goTo (some join)
    else do
      let first ← newBlock "then"
      let second ← newBlock "else"
      layCondition first second condition
      goTo (some first)
      layStmt yes
      let firstEnd ← position
      goTo (some second)
      layStmt no
      let secondEnd ← position
      join [firstEnd, secondEnd] "join"
  | .loop id name body => do
    let header ← newBlock name
    emit (.branch header)
    enter id name
    goTo (some header)
    layStmt body
    branchOn header
    leaveLoop
  | .leave loop => do
    let exit ← exitOf loop
    emit (.branch exit)
  | .dispatch m cases otherwise => do
    let t ← newTemp
    emit (.move t (.matchCase m))
    let targets ← cases.mapM fun (k, _) => do
      let block ← newBlock "case"
      pure (k, block)
    let rest ← newBlock "default"
    emit (.branchCase t targets (some rest))
    let ends ← layCases (targets.map (·.2)) cases
    goTo (some rest)
    layStmt otherwise
    let restEnd ← position
    join (ends ++ [restEnd]) "match_join"
  | .valid => emit .valid
  | .invalid reason => emit (.invalid reason)
  | .token => emit .token
  | .consume => emit .consume
  | .untoken => emit .untoken
  | .bitSet bv bit => emit (.bitSet bv bit)
  | .bitClear bv bit => emit (.bitClear bv bit)
  | .incr c => emit (.incr c)
  | .decr c => emit (.decr c)
  | .splitBits bv s => emit (.splitBits bv s)
  | s => throw (.notOfTree s)

def layAll : List Stmt → Laying Unit
  | [] => pure ()
  | s :: rest => do
    layStmt s
    layAll rest

/-- Lays out the cases of a dispatch in their blocks and gives where each of them ends. -/
def layCases : List Nat → List (UInt32 × Stmt) → Laying (List (Option Nat))
  | target :: targets, (_, s) :: rest => do
    goTo (some target)
    layStmt s
    let finish ← position
    let others ← layCases targets rest
    pure (finish :: others)
  | _, _ => pure []

def layCondition (yes no : Nat) : Expr → Laying Unit
  | .bool true => emit (.branch yes)
  | .bool false => emit (.branch no)
  | .not e => layCondition no yes e
  | .and a b => do
    let middle ← newBlock "and"
    layCondition middle no a
    goTo (some middle)
    layCondition yes no b
  | .or a b => do
    let middle ← newBlock "or"
    layCondition yes middle a
    goTo (some middle)
    layCondition yes no b
  | e => do
    let condition ← layExpr e
    emit (.branchIf condition yes no)

/-- Moves what looks ahead, reads a matcher or counts bits into temporaries. -/
def layExpr : Expr → Laying Expr
  | .split s => do
    let t ← newTemp
    emit (.move t (.split s))
    pure (.temp t)
  | .matchCase m => do
    let t ← newTemp
    emit (.move t (.matchCase m))
    pure (.temp t)
  | .bitCount bv => do
    let t ← newTemp
    emit (.move t (.bitCount bv))
    pure (.temp t)
  | .seq s e => do
    layStmt s
    layExpr e
  | .compare c a b => do
    let a ← layExpr a
    let b ← layExpr b
    pure (.compare c a b)
  | .isInteger e => .isInteger <$> layExpr e
  | .isMultiple e d => (.isMultiple · d) <$> layExpr e
  | .and a b => do
    let a ← layExpr a
    let b ← layExpr b
    pure (.and a b)
  | .or a b => do
    let a ← layExpr a
    let b ← layExpr b
    pure (.or a b)
  | .not e => .not <$> layExpr e
  | e => pure e

end

/-- The graph of a frame whose nested frames are numbered from `next`, and the nested frames. -/
def layFrame (next : Nat) (body : Stmt) : Except Fault (Frame (List Block) × List Stmt) := do
  let laying : Laying Unit := do
    let entry ← newBlock "entry"
    goTo (some entry)
    layStmt body
  let ((), l) ← laying.run { nextFrame := next }
  match l.current with
  | some _ => throw .fallsThrough
  | none => pure (⟨l.decls, l.blocks.toList⟩, l.nested)

/-- The graphs of the pending frames and of the frames nested in them; every step takes one frame,
and nested frames are numbered from `next`. -/
def layFrames : Nat → Nat → List Stmt → Except Fault Graph
  | 0, _, _ => .ok []
  | _ + 1, _, [] => .ok []
  | fuel + 1, next, body :: pending => do
    let (frame, nested) ← layFrame next body
    let rest ← layFrames fuel (next + nested.length) (pending ++ nested)
    pure (frame :: rest)

/-- The well-formed graph of a tree. Every frame of the tree is laid out once. -/
def ofTree (t : Tree) : Except Fault Graph := do
  let bodies := Stmt.simplifiedAll t
  let graph ← layFrames (bodies.length + Stmt.framesOf bodies) bodies.length bodies
  check graph
  pure graph

end JsonSieve.Graph
