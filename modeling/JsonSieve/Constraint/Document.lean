import JsonSieve.Regex.Builtin
import JsonSieve.Constraint.Basic
import JsonSieve.Json.Tree

/-!
# Constraints as JSON documents

A constraint without parts is written as its name, any other as an object with its name as the only
member. Records are objects whose unknown members are ignored, or arrays of their fields in order;
fields with a default may be left out, in an array only at the end. `Constraint.ofJson?` reads such
documents, `Constraint.toJson` writes them with every field present.
-/

namespace JsonSieve.Constraint

/-! ## Reading -/

abbrev Written := Json Literal

structure Field (α : Type) where
  name : String
  read : Written → Option α
  missing : Option α := none

/-- The fields of a record by position: a member of an object, or an entry of an array. -/
inductive Fields where
  | members (list : List (String × Written))
  | entries (list : List Written)

def Fields.of? (size : Nat) : Written → Option Fields
  | .object list => some (.members list)
  | .array list => if list.length ≤ size then some (.entries list) else none
  | _ => none

def Fields.field? {α : Type} (r : Fields) (position : Nat) (field : Field α) : Option α :=
  let value := match r with
    | .members list => Json.get? field.name list
    | .entries list => list[position]?
  match value with
  | some value => field.read value
  | none => field.missing

/-- An integer from zero to the largest 64-bit word, written without a point or an exponent. -/
def readCount : Written → Option Nat
  | .number literal =>
    if literal.plain && !literal.negative && decide (literal.coefficient < Nat.pow 2 64) then
      some literal.coefficient
    else none
  | _ => none

def readReal : Written → Option Binary64
  | .number literal => some literal.toBinary64
  | _ => none

def readBool : Written → Option Bool
  | .bool b => some b
  | _ => none

def readText : Written → Option String
  | .string text => some text
  | _ => none

def readOptional {α : Type} (read : Written → Option α) : Written → Option (Option α)
  | .null => some none
  | value => some <$> read value

def readList {α : Type} (read : Written → Option α) : Written → Option (List α)
  | .array list => list.mapM read
  | _ => none

def readCountRange (value : Written) : Option CountRange := do
  let r ← Fields.of? 2 value
  let min ← r.field? 0 { name := "min", read := readCount, missing := some 0 }
  let max ← r.field? 1 { name := "max", read := readOptional readCount, missing := some none }
  some { min, max }

def readNumRange (value : Written) : Option NumRange := do
  let r ← Fields.of? 4 value
  let min ← r.field? 0 { name := "min", read := readOptional readReal, missing := some none }
  let exclusiveMin ← r.field? 1 { name := "exclusive_min", read := readBool, missing := some false }
  let max ← r.field? 2 { name := "max", read := readOptional readReal, missing := some none }
  let exclusiveMax ← r.field? 3 { name := "exclusive_max", read := readBool, missing := some false }
  some { min, exclusiveMin, max, exclusiveMax }

def readPattern : Written → Option NamePattern
  | .object [("Literal", .string name)] => some (.literal name)
  | .object [("Regex", .string source)] => some (.regex source)
  | _ => none

section Parts

/-! The readers below read the parts of a constraint with `read`. -/

variable (read : Written → Option Constraint)

def readRule (value : Written) : Option (NamePattern × Constraint) := do
  let r ← Fields.of? 2 value
  let pattern ← r.field? 0 { name := "pattern", read := readPattern }
  let constraint ← r.field? 1 { name := "constraint", read }
  some (pattern, constraint)

def readSwitch (value : Written) : Option Constraint := do
  let r ← Fields.of? 6 value
  let arm (position : Nat) (type : ValueType) : Option Constraint :=
    r.field? position { name := type.name, read, missing := some .invalid }
  let null ← arm 0 .null
  let boolean ← arm 1 .boolean
  let number ← arm 2 .number
  let string ← arm 3 .string
  let object ← arm 4 .object
  let array ← arm 5 .array
  some (.switch fun
    | .null => null
    | .boolean => boolean
    | .number => number
    | .string => string
    | .object => object
    | .array => array)

def readProperties (value : Written) : Option Constraint := do
  let r ← Fields.of? 2 value
  let rules ← r.field? 0 { name := "rules", read := readList (readRule read) }
  let additional ← r.field? 1 { name := "additional", read }
  some (.properties rules additional)

def readItems (value : Written) : Option Constraint := do
  let r ← Fields.of? 2 value
  let tuple ← r.field? 0 { name := "tuple", read := readList read, missing := some [] }
  let additional ← r.field? 1 { name := "additional", read }
  some (.items tuple additional)

def readUnit? : String → Option Constraint
  | "Valid" => some .valid
  | "Invalid" => some .invalid
  | "Integer" => some .integer
  | "UniqueItems" => some .uniqueItems
  | _ => none

def readNamed (name : String) (value : Written) : Option Constraint :=
  match name with
  | "And" => .allOf <$> readList read value
  | "Or" => .anyOf <$> readList read value
  | "Xor" => .oneOf <$> readList read value
  | "Not" => .not <$> read value
  | "Switch" => readSwitch read value
  | "NumRange" => .numRange <$> readNumRange value
  | "MultipleOf" => .multipleOf <$> readReal value
  | "Length" => .length <$> readCountRange value
  | "Pattern" => .pattern <$> readText value
  | "Properties" => readProperties read value
  | "PropertyCount" => .propertyCount <$> readCountRange value
  | "Required" => .required <$> readList readText value
  | "Items" => readItems read value
  | "ItemCount" => .itemCount <$> readCountRange value
  | "Contains" => .contains <$> read value
  | name =>
    match value with
    | .null => readUnit? name
    | _ => none

def readNode : Written → Option Constraint
  | .string name => readUnit? name
  | .object [(name, value)] => readNamed read name value
  | _ => none

end Parts

/-- Reads documents that are nested less than `fuel` levels deep. -/
def ofJsonWithin : Nat → Written → Option Constraint
  | 0, _ => none
  | fuel + 1, value => readNode (ofJsonWithin fuel) value

def ofJson? (value : Written) : Option Constraint := ofJsonWithin (value.depth + 1) value

/-! ## Writing -/

abbrev Unwritten := Json Scalar

def writeOptional {α : Type} (write : α → Unwritten) : Option α → Unwritten
  | none => .null
  | some value => write value

def writeCount (n : Nat) : Unwritten := .number (.count n)

def writeReal (x : Binary64) : Unwritten := .number (.real x)

def writeCountRange (r : CountRange) : Unwritten :=
  .object [("min", writeCount r.min), ("max", writeOptional writeCount r.max)]

def writeNumRange (r : NumRange) : Unwritten :=
  .object [("min", writeOptional writeReal r.min), ("exclusive_min", .bool r.exclusiveMin),
    ("max", writeOptional writeReal r.max), ("exclusive_max", .bool r.exclusiveMax)]

def writePattern : NamePattern → Unwritten
  | .literal name => .object [("Literal", .string name)]
  | .regex source => .object [("Regex", .string source)]

mutual

def toJson : Constraint → Unwritten
  | .valid => .string "Valid"
  | .invalid => .string "Invalid"
  | .integer => .string "Integer"
  | .uniqueItems => .string "UniqueItems"
  | .allOf parts => .object [("And", .array (listToJson parts))]
  | .anyOf parts => .object [("Or", .array (listToJson parts))]
  | .oneOf parts => .object [("Xor", .array (listToJson parts))]
  | .not part => .object [("Not", toJson part)]
  | .switch arms => .object [("Switch", .object [
      ("null", toJson (arms .null)), ("boolean", toJson (arms .boolean)),
      ("number", toJson (arms .number)), ("string", toJson (arms .string)),
      ("object", toJson (arms .object)), ("array", toJson (arms .array))])]
  | .numRange range => .object [("NumRange", writeNumRange range)]
  | .multipleOf divisor => .object [("MultipleOf", writeReal divisor)]
  | .length range => .object [("Length", writeCountRange range)]
  | .pattern source => .object [("Pattern", .string source)]
  | .properties rules additional => .object [("Properties", .object [
      ("rules", .array (rulesToJson rules)), ("additional", toJson additional)])]
  | .propertyCount range => .object [("PropertyCount", writeCountRange range)]
  | .required names => .object [("Required", .array (names.map .string))]
  | .items tuple additional => .object [("Items", .object [
      ("tuple", .array (listToJson tuple)), ("additional", toJson additional)])]
  | .itemCount range => .object [("ItemCount", writeCountRange range)]
  | .contains part => .object [("Contains", toJson part)]

def listToJson : List Constraint → List Unwritten
  | [] => []
  | part :: parts => toJson part :: listToJson parts

def rulesToJson : List (NamePattern × Constraint) → List Unwritten
  | [] => []
  | (name, part) :: rules =>
    .object [("pattern", writePattern name), ("constraint", toJson part)] :: rulesToJson rules

end

/-- Does a constraint come back when it is written and read again? -/
def isStable (c : Constraint) : Bool :=
  match ofJson? (c.toJson.mapNumbers Scalar.toLiteral) with
  | some read => c.same read
  | none => false

end JsonSieve.Constraint
