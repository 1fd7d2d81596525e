import JsonSieve.Assembly.OfFlat
import JsonSieve.Flat
import JsonSieve.Graph.Layout
import JsonSieve.Image.Codec
import JsonSieve.Image.OfAssembly
import JsonSieve.Machine.Executable
import JsonSieve.Tree.Lower

/-!
# Compiled schemas

A constraint is compiled once and then checks any number of documents. It becomes a tree of
statements, a graph of blocks, a flat body, an assembly and an image; the image is checked like one
that is loaded.
-/

namespace JsonSieve

/-- Why a constraint cannot be compiled. Only a bad pattern is a fault of the constraint. -/
inductive CompileError where
  | badPattern (p : BadPattern)
  | graph (f : Graph.Fault)
  | flat (f : Flat.Fault)
  | liveness (f : Liveness.Fault)
  | assembly (f : Assembly.Fault)
  | image (f : Image.Fault)
  | rejected (e : RunError)

namespace CompileError

def internal (step message : String) : String := s!"internal compiler error in {step}: {message}"

def message : CompileError → String
  | .badPattern p => p.message
  | .graph f => internal "linearize" f.message
  | .flat f => internal "flatten" f.message
  | .liveness f => internal "liveness" f.message
  | .assembly f => internal "assemble" f.message
  | .image f => internal "encode" f.message
  | .rejected e => internal "encode" s!"encoded program rejected: {e.message}{e.detail}"

end CompileError

namespace Tree

def sharing (shareSlots : Bool) (flat : Flat) :
    Except CompileError (Option (List Liveness.FrameFacts)) :=
  if shareSlots then
    match Liveness.ofFlat flat with
    | .ok facts => .ok (some facts)
    | .error f => .error (.liveness f)
  else .ok none

def toImage (tree : Tree) (shareSlots : Bool) : Except CompileError Image := do
  let graph ← (Graph.ofTree tree).mapError .graph
  let flat ← (Flat.ofGraph graph).mapError .flat
  let facts ← sharing shareSlots flat
  let assembly ← (Assembly.ofFlat flat facts).mapError .assembly
  (Image.ofAssembly assembly).mapError .image

end Tree

namespace Constraint

def toImage [Regex.Engine] (c : Constraint) (shareSlots : Bool := true) : Except CompileError Image := do
  let tree ← c.toTree.mapError .badPattern
  Tree.toImage tree shareSlots

def compile [Regex.Engine] (c : Constraint) (shareSlots : Bool := true) : Except CompileError Executable := do
  let image ← c.toImage shareSlots
  (Executable.ofImage image).mapError .rejected

end Constraint

inductive LoadError where
  | decode (e : DecodeError)
  | program (e : RunError)
  deriving DecidableEq, Repr, Inhabited

def LoadError.message : LoadError → String
  | .decode e => s!"cannot decode program: {e.message}"
  | .program e => e.message

namespace Executable

def dump (exe : Executable) : List UInt8 := exe.image.dump

def load [Regex.Engine] (bytes : List UInt8) : Except LoadError Executable := do
  let image ← (Image.load bytes).mapError .decode
  (ofImage image).mapError .program

end Executable

end JsonSieve
