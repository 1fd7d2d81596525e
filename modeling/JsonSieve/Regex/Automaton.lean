import JsonSieve.Regex.ByteRange
import JsonSieve.Regex.Form
import Std.Data.HashMap

/-!
# The size of the automata of an expression

A search runs on two automata over the bytes of a text, one that reads the expression forwards and one
that reads it backwards. Each of them may take at most `Automaton.sizeLimit` bytes: a state takes 32
bytes, an arc of a state with a list of arcs takes 8, and an alternative of a branching state takes 4.
What is counted is the plainest automaton, in which every copy of a repetition has states of its own:

* `r*` and `r+` add a branching state, `r{m,n}` one for each optional copy and a joint end;
* a choice adds a branching state and a joint end; a choice between texts is a tree of their bytes;
* a class is an end and a tree of byte ranges. Forwards, equal ends of the tree are shared; backwards,
  every sequence of byte ranges is a chain, and chains share what they begin with.

States are shared through tables of a fixed number of places. A place holds the last state that was
put there, so that a state is built again when another one has taken its place.

The states themselves are not kept: a state is its number, and what an automaton takes is its `Usage`.
-/

namespace JsonSieve

open Text (CharRanges)

namespace Automaton

structure Usage where
  states : Nat := 0
  extra : Nat := 0
  deriving DecidableEq, Repr, Inhabited

def Usage.bytes (u : Usage) : Nat := 32 * u.states + u.extra

def sizeLimit : Nat := 10 * Nat.pow 2 20

/-- Building an automaton; nothing comes of it if it gets too large. -/
structure Build (α : Type) where
  run : Usage → Option (α × Usage)

instance : Monad Build where
  pure a := ⟨fun u => some (a, u)⟩
  bind x f := ⟨fun u =>
    match x.run u with
    | some (a, u) => (f a).run u
    | none => none⟩

def spend (states extra : Nat) : Build Unit := ⟨fun u =>
  let u : Usage := ⟨u.states + states, u.extra + extra⟩
  if u.bytes ≤ sizeLimit then some ((), u) else none⟩

def nextState : Build Nat := ⟨fun u => some (u.states, u)⟩

def state (extra : Nat) : Build Nat := do
  let id ← nextState
  spend 1 extra
  pure id

/-- How a part of an automaton ends: in a state with one way on, or in a branching state, to which
every way on is an alternative. -/
inductive End where
  | plain
  | branching
  deriving DecidableEq, Repr, Inhabited

def link : End → Build Unit
  | .plain => pure ()
  | .branching => spend 0 4

/-! ## Classes -/

structure Arc where
  range : ByteRange
  target : Nat
  deriving DecidableEq, Repr, Inhabited

/-- Mixes a number into a hash value (FNV-1a). -/
def mix (h : UInt64) (n : Nat) : UInt64 := (h ^^^ UInt64.ofNat n) * 1099511628211

def hashBasis : UInt64 := 14695981039346656037

/-- A table of shared states: at each place, what the state stands for and its number. -/
abbrev Table (α : Type) := Std.HashMap Nat (α × Nat)

/-- The state for `key` at a place of the table; it is built unless the table holds it. -/
def share {α : Type} [DecidableEq α] (table : Table α) (slot : Nat) (key : α) (build : Build Nat) :
    Build (Nat × Table α) := do
  match table.get? slot with
  | some (key', id) =>
    if key' = key then return (id, table)
    let id ← build
    pure (id, table.insert slot (key, id))
  | none =>
    let id ← build
    pure (id, table.insert slot (key, id))

/-- A state of a tree of byte ranges that is still being read: its arcs, the last one first, and the
byte range whose target is not known yet. -/
structure OpenNode where
  arcs : List Arc := []
  pending : Option ByteRange := none

def OpenNode.settle (n : OpenNode) (target : Nat) : OpenNode :=
  match n.pending with
  | some range => { arcs := ⟨range, target⟩ :: n.arcs }
  | none => n

def arcPlace (arcs : List Arc) : Nat :=
  let h := arcs.foldl (fun h a => mix (mix (mix h a.range.low.toNat) a.range.high.toNat) a.target)
    hashBasis
  (h % 10000).toNat

def arcState (table : Table (List Arc)) (arcs : List Arc) : Build (Nat × Table (List Arc)) :=
  share table (arcPlace arcs) arcs (state (8 * arcs.length))

/-- Closes all open nodes but the outermost `keep + 1`; the innermost one stands first, and `target` is
where it leads. -/
def closeNodes (keep : Nat) (target : Nat) (table : Table (List Arc)) :
    List OpenNode → Build (List OpenNode × Table (List Arc))
  | [] => pure ([], table)
  | node :: outer =>
    if keep < outer.length then do
      let (id, table) ← arcState table (node.settle target).arcs.reverse
      closeNodes keep id table outer
    else pure (node.settle target :: outer, table)

/-- Opens nodes for the byte ranges of a sequence, the first of them in the innermost open node. -/
def openNodes (nodes : List OpenNode) : List ByteRange → List OpenNode
  | [] => nodes
  | first :: rest =>
    match nodes with
    | [] => []
    | node :: outer =>
      rest.foldl (fun nodes range => { pending := some range } :: nodes)
        ({ node with pending := some first } :: outer)

/-- How many byte ranges of a sequence lie on the open path; `nodes` are given from the outermost. -/
def openLength : List ByteRange → List OpenNode → Nat
  | range :: sequence, node :: nodes =>
    if node.pending = some range then openLength sequence nodes + 1 else 0
  | _, _ => 0

def addSequence (target : Nat) (sequence : List ByteRange)
    (tree : List OpenNode × Table (List Arc)) : Build (List OpenNode × Table (List Arc)) := do
  let (nodes, table) := tree
  let keep := openLength sequence nodes.reverse
  let (nodes, table) ← closeNodes keep target table nodes
  pure (openNodes nodes (sequence.drop keep), table)

def classSequences (ranges : CharRanges) : List (List ByteRange) :=
  ranges.flatMap fun (low, high) => ByteRange.sequences low high

def forwardClass (sequences : List (List ByteRange)) : Build Unit := do
  let target ← state 0
  let tree ← sequences.foldlM (fun tree sequence => addSequence target sequence tree) ([{}], {})
  let (nodes, table) ← closeNodes 0 target tree.2 tree.1
  match nodes with
  | root :: _ => discard (arcState table root.arcs.reverse)
  | [] => pure ()

def rangePlace (target : Nat) (range : ByteRange) : Nat :=
  (mix (mix (mix hashBasis target) range.low.toNat) range.high.toNat % 1000).toNat

/-- Adds the chain of a sequence, from its first byte range on, in front of the state `target`. -/
def addChain (target : Nat) (table : Table (Nat × ByteRange)) :
    List ByteRange → Build (Table (Nat × ByteRange))
  | [] => pure table
  | range :: rest => do
    let (id, table) ← share table (rangePlace target range) (target, range) (state 0)
    addChain id table rest

def backwardClass (sequences : List (List ByteRange)) : Build Unit := do
  spend 1 0
  let target ← state 0
  let _ ← sequences.foldlM (fun table sequence => do
    let table ← addChain target table sequence
    spend 0 4
    pure table) ({} : Table (Nat × ByteRange))
  pure ()

/-- A class, given by its sequences. Classes of ASCII characters have one list of arcs. -/
def charClass (backward : Bool) (sequences : List (List ByteRange)) : Build End := do
  if sequences.all fun sequence => sequence.length == 1 then spend 2 (8 * sequences.length)
  else if backward then backwardClass sequences
  else forwardClass sequences
  pure .plain

/-! ## Choices between texts -/

/-- A tree of texts by their bytes. A node remembers which of its branches had been there when a text
ended in it: `chunks` are the branches between two such ends, the last chunk first. -/
inductive TextTree where
  | node (chunks : List (List (UInt8 × TextTree)))
  deriving Inhabited

namespace TextTree

def empty : TextTree := .node [[]]

def isLeaf : TextTree → Bool
  | .node chunks => chunks.all List.isEmpty

def finish : TextTree → TextTree
  | .node chunks =>
    if chunks.all List.isEmpty && decide (1 < chunks.length) then .node chunks
    else .node ([] :: chunks)

/-- A branch for `byte`, changed by `f`; branches are in ascending order. -/
def withBranch (byte : UInt8) (f : TextTree → TextTree) :
    List (UInt8 × TextTree) → List (UInt8 × TextTree)
  | [] => [(byte, f empty)]
  | (b, t) :: rest =>
    if byte < b then (byte, f empty) :: (b, t) :: rest
    else if byte = b then (b, f t) :: rest
    else (b, t) :: withBranch byte f rest

def insert : List UInt8 → TextTree → TextTree
  | [], t => t.finish
  | byte :: rest, .node chunks =>
    match chunks with
    | [] => .node [withBranch byte (insert rest) []]
    | chunk :: older => .node (withBranch byte (insert rest) chunk :: older)

mutual

/-- The states of the branches of a node: each chunk that is not empty is a state, and the node is a
branching state between its chunks and the ends between them. -/
def build : TextTree → Build Unit
  | .node chunks => do
    let alternatives ← buildChunks chunks
    spend 1 (4 * (alternatives + (chunks.length - 1)))

/-- The states of the chunks of a node, the oldest chunk first, and how many chunks are not empty. -/
def buildChunks : List (List (UInt8 × TextTree)) → Build Nat
  | [] => pure 0
  | chunk :: older => do
    let count ← buildChunks older
    buildBranches chunk
    match chunk with
    | [] => pure count
    | [_] => do spend 1 0; pure (count + 1)
    | _ => do spend 1 (8 * chunk.length); pure (count + 1)

def buildBranches : List (UInt8 × TextTree) → Build Unit
  | [] => pure ()
  | (_, t) :: rest => do
    if t.isLeaf then pure () else t.build
    buildBranches rest

end

end TextTree

def readBytes (backward : Bool) (chars : List Char) : List UInt8 :=
  let bytes := chars.flatMap Utf8.encode
  if backward then bytes.reverse else bytes

def text? : Form → Option (List Char)
  | .text chars => some chars
  | _ => none

def textChoice (backward : Bool) (texts : List (List Char)) : Build End := do
  let tree := texts.foldl (fun tree chars => tree.insert (readBytes backward chars)) TextTree.empty
  spend 1 0
  tree.build
  pure .plain

/-! ## Expressions -/

def copies (part : Build End) : Nat → End → Usage → Option (End × Usage)
  | 0, e, u => some (e, u)
  | n + 1, e, u =>
    match (do let next ← part; link e; pure next : Build End).run u with
    | some (next, u) => copies part n next u
    | none => none

def exactly (part : Build End) : Nat → Build End
  | 0 => do spend 1 0; pure .plain
  | n + 1 => do
    let e ← part
    ⟨copies part n e⟩

/-- Optional copies of a part, each with a branching state in front of it. -/
def optionals (part : Build End) (n : Nat) (e : End) : Build End :=
  ⟨copies (do spend 1 8; part) n e⟩

/-- A repetition; `skips` says whether the part can match the empty text. -/
def repetition (part : Build End) (skips : Bool) : Nat → Option Nat → Build End
  | 0, some 1 => do
    spend 1 8
    let e ← part
    spend 1 0
    link e
    pure .plain
  | 0, none =>
    if skips then do
      let e ← part
      spend 1 8
      link e
      spend 2 8
      pure .plain
    else do
      spend 1 4
      let e ← part
      link e
      pure .branching
  | 1, none => do
    let e ← part
    spend 1 4
    link e
    pure .branching
  | least + 2, none => do
    let first ← exactly part (least + 1)
    let e ← part
    spend 1 4
    link first
    link e
    pure .branching
  | least, some most => do
    let first ← exactly part least
    if least = most then return first
    spend 1 0
    let e ← optionals part (most - least) first
    link e
    pure .plain

def chain (first : End) : List (Build End) → Build End
  | [] => pure first
  | part :: rest => do
    let next ← part
    link first
    chain next rest

def inOrder (backward : Bool) (parts : List (Build End)) : Build End :=
  match if backward then parts.reverse else parts with
  | [] => do spend 1 0; pure .plain
  | part :: rest => do chain (← part) rest

def branch (part : Build End) : Build Unit := do
  let e ← part
  spend 0 4
  link e

/-- Parts to choose from: a branching state and a joint end, which come after the second part. -/
def choice : List (Build End) → Build End
  | [] => do spend 1 0; pure .plain
  | [part] => part
  | first :: second :: rest => do
    branch first
    branch second
    spend 2 0
    rest.forM branch
    pure .plain

def captured (part : Build End) : Build End := do
  spend 1 0
  let e ← part
  spend 1 0
  link e
  pure .plain

mutual

/-- The part of a form. Groups have a state at either end where `captures` says so. -/
def part (backward captures : Bool) : Form → Build End
  | .empty => do spend 1 0; pure .plain
  | .text chars => do spend (Form.byteLength chars) 0; pure .plain
  | .oneOf ranges => charClass backward (classSequences ranges)
  | .guard _ => do spend 1 0; pure .plain
  | .repeated r least most _ =>
    repetition (part backward captures r) (r.shortest.all (· = 0)) least most
  | .group r =>
    if captures then captured (part backward captures r) else part backward captures r
  | .seq rs => inOrder backward (parts backward captures rs)
  | .either rs =>
    match rs.mapM text? with
    | some texts => textChoice backward texts
    | none => choice (parts backward captures rs)

def parts (backward captures : Bool) : List Form → List (Build End)
  | [] => []
  | r :: rest => part backward captures r :: parts backward captures rest

end

/-- The automaton that finds which of several expressions match. Unless all of them are anchored where
reading begins, it begins with a loop over all bytes. -/
def whole (backward captures : Bool) (forms : List Form) : Build Unit := do
  if forms.all (Form.isAnchored backward) then spend 1 0
  else spend 3 16
  discard <| choice <| (parts backward captures forms).map fun part => do
    let e ← if captures then captured part else part
    link e
    spend 1 0
    pure .plain

/-- Do the automata of several expressions stay within the limit? Only the one that reads forwards has
states for groups. -/
def fits (captures : Bool) (forms : List Form) : Bool :=
  ((whole false captures forms).run {}).isSome && ((whole true false forms).run {}).isSome

end Automaton

end JsonSieve
