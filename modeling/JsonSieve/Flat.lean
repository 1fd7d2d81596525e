import JsonSieve.Stmt.Basic

/-!
# From graphs to flat bodies

The blocks of a frame one after another, each behind a marker with its number.
-/

namespace JsonSieve.Flat

/-- A block that does not stand at the position of its number. -/
structure Fault where
  frame : Nat
  block : Nat
  position : Nat
  deriving DecidableEq, Repr, Inhabited

def Fault.message (f : Fault) : String :=
  s!"frame{f.frame}: b{f.block} stored at position {f.position}"

def markedStmts (blocks : List Block) : List Stmt :=
  blocks.flatMap fun b => .block b.id :: b.stmts

def ofBlocks (frame : Nat) (blocks : List Block) : Except Fault FlatBody :=
  match blocks.zipIdx.find? fun (b, i) => b.id ≠ i with
  | some (b, i) => .error ⟨frame, b.id, i⟩
  | none => .ok ⟨markedStmts blocks, blocks.map (·.name)⟩

def ofGraph (g : Graph) : Except Fault Flat :=
  g.zipIdx.mapM fun (f, i) => do
    let body ← ofBlocks i f.body
    pure ⟨f.decls, body⟩

/-- Cuts statements at the markers: the statements before the first marker, and each marked block. -/
def split : List Stmt → List Stmt × List (Nat × List Stmt)
  | [] => ([], [])
  | .block id :: rest =>
    let (body, blocks) := split rest
    ([], (id, body) :: blocks)
  | s :: rest =>
    let (body, blocks) := split rest
    (s :: body, blocks)

end JsonSieve.Flat
