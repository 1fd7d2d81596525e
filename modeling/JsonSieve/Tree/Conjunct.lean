import JsonSieve.Constraint.Basic
import JsonSieve.Stmt.Basic

/-!
# Conjunctions

A frame checks a conjunction of constraints. `Constraint.conjuncts` lists its parts, looking through
nested conjunctions; `Constraint.conjunction` forms one again. For a value of a known type, switches
stand for the arm of that type and leaves of other types say nothing.
-/

namespace JsonSieve.Constraint

mutual

/-- The parts of a constraint, or `none` if one of them allows nothing. With a type given, these are
the parts that matter for values of that type. -/
def conjuncts (type : Option ValueType) : Constraint → Option (List Constraint)
  | .valid => some []
  | .invalid => none
  | .allOf parts => conjunctsOf type parts
  | .switch arms =>
    match type with
    | some t => (arms t).conjuncts type
    | none => some [.switch arms]
  | c =>
    match type, c.leafType with
    | some t, some leaf => if t = leaf then some [c] else some []
    | _, _ => some [c]

def conjunctsOf (type : Option ValueType) : List Constraint → Option (List Constraint)
  | [] => some []
  | c :: cs =>
    match c.conjuncts type, conjunctsOf type cs with
    | some a, some b => some (a ++ b)
    | _, _ => none

end

/-- The conjunction of two constraints; constraints that allow everything leave no trace. -/
def both : Constraint → Constraint → Constraint
  | .valid, c => c
  | c, .valid => c
  | .allOf a, .allOf b => .allOf (a ++ b)
  | .allOf a, c => .allOf (a ++ [c])
  | a, b => .allOf [a, b]

def conjunction (parts : List Constraint) : Constraint := parts.foldl both .valid

/-- A choice among parts: how the number of parts that accept is compared with a bound. -/
structure Choice where
  parts : List Constraint
  comparison : Comparison
  bound : Nat

def choice? : Constraint → Option Choice
  | .anyOf parts => some ⟨parts, .ge, 1⟩
  | .oneOf parts => some ⟨parts, .eq, 1⟩
  | .not part => some ⟨[part], .eq, 0⟩
  | _ => none

/-- What a frame has to check: choices on the whole value, and a constraint for each type if any
part speaks about types. -/
structure Outline where
  choices : List Choice := []
  arms : Option (ValueType → Constraint) := none

namespace Outline

def addArms (o : Outline) (arms : ValueType → Constraint) : Outline :=
  let before := o.arms.getD fun _ => .valid
  { o with arms := some fun t => both (before t) (arms t) }

def addLeaf (o : Outline) (type : ValueType) (leaf : Constraint) : Outline :=
  let before := o.arms.getD fun _ => .valid
  { o with arms := some fun t => if t = type then both (before t) leaf else before t }

def add (o : Outline) (part : Constraint) : Outline :=
  match part with
  | .switch arms => o.addArms arms
  | part =>
    match part.choice?, part.leafType with
    | some choice, _ => { o with choices := o.choices ++ [choice] }
    | none, some type => o.addLeaf type part
    | none, none => o

def ofParts (parts : List Constraint) : Outline := parts.foldl add {}

end Outline

/-- The items of an array under several constraints at once: the entry for each position, and the
constraint for the positions behind them. -/
def mergeItems (all : List (List Constraint × Constraint)) : List Constraint × Constraint :=
  let size := all.foldl (fun n (tuple, _) => max n tuple.length) 0
  let entry (i : Nat) : Constraint :=
    conjunction (all.map fun (tuple, additional) => tuple[i]?.getD additional)
  ((List.range size).map entry, conjunction (all.map (·.2)))

end JsonSieve.Constraint
