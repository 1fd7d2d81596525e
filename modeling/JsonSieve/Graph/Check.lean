import JsonSieve.Graph.Fault

/-!
# Well-formed graphs

In a well-formed graph every block stands at the position of its number and ends in its only
terminator, every target and every frame that is named exists, temporaries are declared, and every
block can be reached from block 0.
-/

namespace JsonSieve.Graph

def blockSuccessors (b : Block) : List Nat :=
  match b.stmts.getLast? with
  | some s => s.successors
  | none => []

/-- The blocks that can be reached from the pending ones besides those already reached; every step
takes one pending block. -/
def reachFrom (blocks : List Block) : Nat → List Nat → List Nat → List Nat
  | 0, _, reached => reached
  | _ + 1, [], reached => reached
  | fuel + 1, b :: pending, reached =>
    if reached.contains b then reachFrom blocks fuel pending reached
    else
      let next := (blocks[b]?.map blockSuccessors).getD []
      reachFrom blocks fuel (next ++ pending) (b :: reached)

/-- The blocks that can be reached from block 0. Every block is entered once, so that the number of
branches bounds the walk. -/
def reachable (blocks : List Block) : List Nat :=
  reachFrom blocks (1 + blocks.foldl (fun n b => n + (blockSuccessors b).length) 0) [0] []

def stmtDefect? (frames temps : Nat) : Stmt → Option Defect
  | .call frame => if frame < frames then none else some (.missingCallee frame)
  | .move t _ => if t < temps then none else some (.undeclaredTemp t)
  | .branchCase t _ _ => if t < temps then none else some (.undeclaredTemp t)
  | _ => none

def blockDefect? (frames temps size : Nat) (position : Nat) (b : Block) : Option Defect :=
  if b.id ≠ position then some (.misplaced b.id position)
  else match b.stmts.getLast? with
    | none => some (.empty b.id)
    | some last =>
      if !last.isTerminator then some (.openEnd b.id)
      else if b.stmts.dropLast.any Stmt.isTerminator then some (.terminatorInside b.id)
      else match last.successors.find? fun target => !decide (target < size) with
        | some target => some (.missingTarget b.id target)
        | none => b.stmts.findSome? (stmtDefect? frames temps)

def frameDefect? (frames : Nat) (f : Frame (List Block)) : Option Defect :=
  if f.body.isEmpty then some .noBlocks
  else
    let blocks := f.body.zipIdx.findSome? fun (b, i) =>
      blockDefect? frames f.decls.temps f.body.length i b
    let branches := f.decls.splits.findSome? fun split =>
      (split.find? fun frame => !decide (frame < frames)).map Defect.missingBranch
    let reached := reachable f.body
    let stray := ((List.range f.body.length).find? fun b => !reached.contains b).map
      Defect.unreachable
    (blocks.or branches).or stray

def fault? (g : Graph) : Option Fault :=
  g.zipIdx.findSome? fun (f, i) => (frameDefect? g.length f).map (Fault.defect i)

def check (g : Graph) : Except Fault Unit :=
  match fault? g with
  | some fault => .error fault
  | none => .ok ()

end JsonSieve.Graph
