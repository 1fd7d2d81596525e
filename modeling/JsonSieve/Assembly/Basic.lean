import JsonSieve.Assembly.Op
import JsonSieve.Number.Decimal
import JsonSieve.Text.Column

/-!
# Assemblies

One procedure per frame, with slots in place of variables. Branches still name blocks; the tables of
numbers, matchers and split lists are shared by all procedures.
-/

namespace JsonSieve

structure Procedure where
  slots : UInt32
  ops : List Op
  labels : List Nat
  deriving DecidableEq, Repr, Inhabited

structure Assembly where
  procs : List Procedure
  floats : List Binary64 := []
  matchers : List Matcher := []
  splits : List (List UInt32) := []
  deriving DecidableEq, Repr, Inhabited

/-- A part of a listing: a heading and a line for every entry, or nothing without entries. -/
def listTable {α : Type} (heading : String) (line : α → String) (entries : List α) : String :=
  if entries.isEmpty then ""
  else heading ++ "\n"
    ++ String.join (entries.zipIdx.map fun (a, i) => s!"  {i}: {line a}\n")

def listWords (words : List UInt32) : String :=
  "[" ++ Text.joined ", " (words.map toString) ++ "]"

def Procedure.listing (p : Procedure) : String :=
  let labelled := p.labels.zipIdx
  String.join (p.ops.zipIdx.map fun (op, i) =>
    String.join ((labelled.filter (·.1 = i)).map fun (_, b) => s!"  b{b}:\n")
      ++ s!"    {op.text}\n")

def Assembly.listing (a : Assembly) : String :=
  listTable ".FLOATS" Binary64.listing a.floats
    ++ listTable ".DFA" (fun m => s!"{m.patterns.length} patterns, {m.cases.length} cases") a.matchers
    ++ listTable ".SPLITS" listWords a.splits
    ++ String.join (a.procs.zipIdx.map fun (p, i) =>
        s!".PROC {i} slots={p.slots}\n" ++ p.listing)

end JsonSieve
