import JsonSieve.Number.Binary64

/-!
# Constraints

A constraint says which JSON values are allowed. It is a boolean combination of leaves; a leaf speaks
about the values of one type and allows every value of another type, as the keywords of JSON Schema do.
-/

namespace JsonSieve

inductive ValueType where
  | null
  | boolean
  | number
  | string
  | object
  | array
  deriving DecidableEq, Repr, Inhabited

namespace ValueType

/-- All types, in the order in which programs ask for them. -/
def all : List ValueType := [.null, .boolean, .number, .string, .object, .array]

def name : ValueType → String
  | .null => "null"
  | .boolean => "boolean"
  | .number => "number"
  | .string => "string"
  | .object => "object"
  | .array => "array"

def isContainer : ValueType → Bool
  | .object | .array => true
  | _ => false

end ValueType

structure CountRange where
  min : Nat := 0
  max : Option Nat := none
  deriving DecidableEq, Repr, Inhabited

structure NumRange where
  min : Option Binary64 := none
  exclusiveMin : Bool := false
  max : Option Binary64 := none
  exclusiveMax : Bool := false
  deriving DecidableEq, Repr, Inhabited

inductive NamePattern where
  | literal (name : String)
  /-- The names in which the regular expression finds a match. -/
  | regex (source : String)
  deriving DecidableEq, Repr, Inhabited

inductive Constraint where
  | valid
  | invalid
  | allOf (parts : List Constraint)
  | anyOf (parts : List Constraint)
  | oneOf (parts : List Constraint)
  | not (part : Constraint)
  /-- The constraint of the value's own type. -/
  | switch (arms : ValueType → Constraint)
  | numRange (range : NumRange)
  | integer
  | multipleOf (divisor : Binary64)
  /-- Bounds on the number of code points. -/
  | length (range : CountRange)
  | pattern (source : String)
  /-- Every rule whose pattern matches a member's name holds of its value; where no rule matches,
  `additional` holds. -/
  | properties (rules : List (NamePattern × Constraint)) (additional : Constraint)
  | propertyCount (range : CountRange)
  | required (names : List String)
  /-- Items of the array stand under the entries of `tuple` in turn, the remaining ones under
  `additional`. -/
  | items (tuple : List Constraint) (additional : Constraint)
  | itemCount (range : CountRange)
  | uniqueItems
  | contains (part : Constraint)
  deriving Inhabited

namespace Constraint

def leafType : Constraint → Option ValueType
  | .numRange _ | .integer | .multipleOf _ => some .number
  | .length _ | .pattern _ => some .string
  | .properties .. | .propertyCount _ | .required _ => some .object
  | .items .. | .itemCount _ | .uniqueItems | .contains _ => some .array
  | .valid | .invalid | .allOf _ | .anyOf _ | .oneOf _ | .not _ | .switch _ => none

/-- Does the constraint need lookahead over the whole value? -/
def isCombinator : Constraint → Bool
  | .anyOf _ | .oneOf _ | .not _ => true
  | _ => false

def only (type : ValueType) (arm : Constraint) : Constraint :=
  .switch fun t => if t = type then arm else .invalid

mutual

/-- The size of a constraint, conjunctions and the two constants not counted. Whatever a frame of the
compiled program leaves to other frames has a smaller weight than the constraint of the frame. -/
def weight : Constraint → Nat
  | .valid | .invalid => 0
  | .allOf parts => weights parts
  | .anyOf parts | .oneOf parts => 2 + weights parts
  | .not part => 2 + part.weight
  | .switch arms =>
    1 + ((arms .null).weight + (arms .boolean).weight + (arms .number).weight
      + (arms .string).weight + (arms .object).weight + (arms .array).weight)
  | .properties rules additional => 1 + ruleWeights rules + additional.weight
  | .items tuple additional => 1 + weights tuple + additional.weight
  | .contains part => 1 + part.weight
  | .numRange _ | .integer | .multipleOf _ | .length _ | .pattern _ | .propertyCount _
  | .required _ | .itemCount _ | .uniqueItems => 1

def weights : List Constraint → Nat
  | [] => 0
  | part :: parts => part.weight + weights parts

def ruleWeights : List (NamePattern × Constraint) → Nat
  | [] => 0
  | (_, part) :: rules => part.weight + ruleWeights rules

end

/-! ## Equality of constraints as data -/

/-- Equality of optional bounds as numbers: the two zeros are equal and NaN equals nothing. -/
def sameBound : Option Binary64 → Option Binary64 → Bool
  | none, none => true
  | some x, some y => x.same y
  | _, _ => false

def sameRange (a b : NumRange) : Bool :=
  sameBound a.min b.min && a.exclusiveMin == b.exclusiveMin && sameBound a.max b.max
    && a.exclusiveMax == b.exclusiveMax

mutual

/-- Are two constraints written alike? Numbers are compared by value. -/
def same : Constraint → Constraint → Bool
  | .valid, .valid | .invalid, .invalid | .integer, .integer | .uniqueItems, .uniqueItems => true
  | .allOf a, .allOf b | .anyOf a, .anyOf b | .oneOf a, .oneOf b => sameList a b
  | .not a, .not b | .contains a, .contains b => same a b
  | .switch a, .switch b =>
    same (a .null) (b .null) && same (a .boolean) (b .boolean) && same (a .number) (b .number)
      && same (a .string) (b .string) && same (a .object) (b .object) && same (a .array) (b .array)
  | .numRange a, .numRange b => sameRange a b
  | .multipleOf a, .multipleOf b => a.same b
  | .length a, .length b | .propertyCount a, .propertyCount b | .itemCount a, .itemCount b => a == b
  | .pattern a, .pattern b => a == b
  | .required a, .required b => a == b
  | .properties a x, .properties b y => sameRules a b && same x y
  | .items a x, .items b y => sameList a b && same x y
  | _, _ => false

def sameList : List Constraint → List Constraint → Bool
  | [], [] => true
  | a :: as, b :: bs => same a b && sameList as bs
  | _, _ => false

def sameRules : List (NamePattern × Constraint) → List (NamePattern × Constraint) → Bool
  | [], [] => true
  | (p, a) :: as, (q, b) :: bs => p == q && same a b && sameRules as bs
  | _, _ => false

end

end Constraint

end JsonSieve
