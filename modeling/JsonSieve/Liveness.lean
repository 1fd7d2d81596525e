import JsonSieve.Flat
import JsonSieve.Sorted

/-!
# Liveness

Which variables of a frame may still be read, at the beginning and at the end of each block. It is the
least solution of

* live at the end: live at the beginning of a successor,
* live at the beginning: read before it is written in the block, or live at the end and not written.

Two temporaries that live at the same time cannot share a slot; `Liveness.colours` assigns slots
greedily in the order of the temporaries.
-/

namespace JsonSieve

/-- A variable of a frame. The registers of the current token count as one. -/
inductive Var where
  | token
  | temp (id : Nat)
  | counter (id : Nat)
  | bitvec (id : Nat)
  deriving DecidableEq, Ord, Repr, Inhabited

def Expr.reads : Expr → List Var
  | .tokenKind | .tokenNumber | .tokenComplete | .tokenLength | .isToken _ => [.token]
  | .split _ | .matchCase _ | .unique _ => [.token]
  | .count c => [.counter c]
  | .bitTest bv _ | .bitsAll bv | .bitsAny bv | .bitCount bv => [.bitvec bv]
  | .temp t => [.temp t]
  | .isInteger e | .isMultiple e _ | .not e | .seq _ e => e.reads
  | .and a b | .or a b | .compare _ a b => a.reads ++ b.reads
  | .num _ | .int _ | .size _ | .bool _ => []

def Stmt.reads : Stmt → List Var
  | .consume | .untoken | .call _ | .splitBits _ _ => [.token]
  | .incr c | .decr c => [.counter c]
  | .bitSet bv _ | .bitClear bv _ => [.bitvec bv]
  | .move _ source => source.reads
  | .branchIf condition _ _ => condition.reads
  | .branchCase t _ _ => [.temp t]
  | _ => []

def Stmt.writes : Stmt → Option Var
  | .token | .consume | .untoken | .call _ => some .token
  | .incr c | .decr c => some (.counter c)
  | .bitSet bv _ | .bitClear bv _ | .splitBits bv _ => some (.bitvec bv)
  | .move t _ => some (.temp t)
  | _ => none

namespace Liveness

structure BlockFacts where
  predecessors : List Nat := []
  successors : List Nat := []
  /-- Read before any write in the block. -/
  uses : List Var := []
  /-- Written in the block. -/
  defs : List Var := []
  liveIn : List Var := []
  liveOut : List Var := []
  deriving DecidableEq, Repr, Inhabited

/-- Each temporary that is written, or that lives while another one is written, with the temporaries
that live at the same time. -/
abbrev Interference := List (Nat × List Nat)

structure FrameFacts where
  blocks : List BlockFacts := []
  interference : Interference := []
  deriving DecidableEq, Repr, Inhabited

inductive Defect where
  | outOfOrder (block : Nat)
  | noMarker
  | missingTarget (block target : Nat)
  deriving DecidableEq, Repr, Inhabited

structure Fault where
  frame : Nat
  defect : Defect
  deriving DecidableEq, Repr, Inhabited

def Fault.message (f : Fault) : String :=
  match f.defect with
  | .outOfOrder block => s!"frame{f.frame}: b{block} out of order"
  | .noMarker => s!"frame{f.frame}: body does not open with a block marker"
  | .missingTarget block target => s!"frame{f.frame}: b{block} branches to missing b{target}"

/-! ## Blocks -/

def blocksOf (body : FlatBody) : Except Defect (List (List Stmt)) :=
  let (before, blocks) := Flat.split body.stmts
  match blocks.zipIdx.find? fun ((id, _), i) => id ≠ i with
  | some ((id, _), _) => .error (.outOfOrder id)
  | none =>
    if !before.isEmpty || blocks.isEmpty then .error .noMarker
    else .ok (blocks.map (·.2))

def successorsOf (stmts : List Stmt) : List Nat := (stmts.getLast?.map Stmt.successors).getD []

def missingTarget? (blocks : List (List Stmt)) : Option Defect :=
  blocks.zipIdx.findSome? fun (stmts, i) =>
    ((successorsOf stmts).find? fun target => !decide (target < blocks.length)).map
      (.missingTarget i)

/-- The blocks that can go to a block, once for each branch, given the successors of all blocks. -/
def predecessorsOf (successors : List (List Nat)) (block : Nat) : List Nat :=
  successors.zipIdx.flatMap fun (targets, i) => (targets.filter (· = block)).map fun _ => i

def usesAndDefs (stmts : List Stmt) : List Var × List Var :=
  stmts.foldl (fun (uses, defs) s =>
    ((s.reads.filter fun v => !defs.contains v).foldl (fun set v => Sorted.insert v set) uses,
      s.writes.toList.foldl (fun set v => Sorted.insert v set) defs)) ([], [])

/-! ## The least solution -/

def outOf (liveIn : Array (List Var)) (successors : List Nat) : List Var :=
  successors.foldr (fun s set => Sorted.union (liveIn[s]?.getD []) set) []

def inOf (uses defs out : List Var) : List Var :=
  Sorted.union uses (out.filter fun v => !defs.contains v)

/-- Improves what is live at the beginning of every block, the last block first. -/
def sweep (blocks : List (BlockFacts × Nat)) (liveIn : Array (List Var)) : Array (List Var) :=
  blocks.foldr (fun (b, i) live => live.setIfInBounds i (inOf b.uses b.defs (outOf live b.successors)))
    liveIn

def sweeps (blocks : List (BlockFacts × Nat)) : Nat → Array (List Var) → Array (List Var)
  | 0, liveIn => liveIn
  | n + 1, liveIn =>
    let next := sweep blocks liveIn
    if next = liveIn then liveIn else sweeps blocks n next

/-- Fills in what is live. Every sweep but the last adds a variable somewhere. -/
def solve (blocks : List BlockFacts) : List BlockFacts :=
  let vars := blocks.foldr (fun b set => Sorted.union b.uses set) []
  let rounds := blocks.length * vars.length + 1
  let liveIn := sweeps blocks.zipIdx rounds (Array.replicate blocks.length [])
  blocks.zipIdx.map fun (b, i) =>
    { b with liveIn := liveIn[i]?.getD [], liveOut := outOf liveIn b.successors }

/-! ## Interference -/

def connect (t : Nat) (neighbours : List Nat) : Interference → Interference
  | [] => [(t, neighbours)]
  | (k, set) :: rest =>
    match compare t k with
    | .lt => (t, neighbours) :: (k, set) :: rest
    | .eq => (k, Sorted.union neighbours set) :: rest
    | .gt => (k, set) :: connect t neighbours rest

def tempsOf (vars : List Var) : List Nat :=
  vars.filterMap fun
    | .temp t => some t
    | _ => none

/-- One statement, seen from its end: what it writes interferes with what lives behind it. -/
def interfere (s : Stmt) (live : List Var) (graph : Interference) : Interference :=
  match s.writes with
  | some (.temp t) =>
    let others := (tempsOf live).filter (· ≠ t)
    others.foldl (fun g u => connect u [t] g) (connect t others graph)
  | _ => graph

def liveBefore (s : Stmt) (live : List Var) : List Var :=
  let kept := match s.writes with
    | some v => live.filter (· ≠ v)
    | none => live
  s.reads.foldl (fun set v => Sorted.insert v set) kept

def interfereBlock (stmts : List Stmt) (liveOut : List Var) (graph : Interference) :
    Interference :=
  (stmts.foldr (fun s (live, graph) => (liveBefore s live, interfere s live graph))
    (liveOut, graph)).2

/-! ## Frames -/

def ofBody (body : FlatBody) : Except Defect FrameFacts := do
  let blocks ← blocksOf body
  match missingTarget? blocks with
  | some defect => throw defect
  | none =>
    let successors := blocks.map successorsOf
    let facts := solve (blocks.zipIdx.map fun (stmts, i) =>
      let (uses, defs) := usesAndDefs stmts
      { predecessors := predecessorsOf successors i, successors := successorsOf stmts, uses, defs })
    let interference := (blocks.zip facts).foldl
      (fun graph (stmts, b) => interfereBlock stmts b.liveOut graph) []
    pure ⟨facts, interference⟩

def ofFlat (program : Flat) : Except Fault (List FrameFacts) :=
  program.zipIdx.mapM fun (f, i) => (ofBody f.body).mapError (⟨i, ·⟩)

namespace FrameFacts

def interferes (f : FrameFacts) (a b : Nat) : Bool :=
  match f.interference.lookup a with
  | some set => set.contains b
  | none => false

def firstFree (taken : List Nat) : Nat :=
  ((List.range (taken.length + 1)).find? fun c => !taken.contains c).getD 0

def nextColour (f : FrameFacts) (colours : List Nat) : Nat :=
  firstFree ((colours.zipIdx.filter fun (_, u) => f.interferes colours.length u).map (·.1))

/-- Colours the first temporaries of a frame so that no two interfering ones have the same colour:
each takes the smallest colour that is free. -/
def colours (f : FrameFacts) : Nat → List Nat
  | 0 => []
  | n + 1 =>
    let before := f.colours n
    before ++ [f.nextColour before]

end FrameFacts

end Liveness

end JsonSieve
