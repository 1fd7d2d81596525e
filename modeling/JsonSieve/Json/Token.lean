import JsonSieve.Number.Binary64

/-!
# Tokens

A JSON text is read as a stream of tokens: literals, numbers, strings and brackets. Names of object
members are string tokens; commas and colons are no tokens. `Token.none` stands for what follows the
last token of a document.
-/

namespace JsonSieve

inductive Token.Kind where
  | none
  | null
  | true
  | false
  | string
  | number
  | objectBegin
  | objectEnd
  | arrayBegin
  | arrayEnd
  deriving DecidableEq, Repr, Inhabited

namespace Token.Kind

def all : List Kind := [
  .none, .null, .true, .false, .string, .number, .objectBegin, .objectEnd, .arrayBegin, .arrayEnd]

def code : Kind → Nat
  | .none => 0
  | .null => 1
  | .true => 2
  | .false => 3
  | .string => 4
  | .number => 5
  | .objectBegin => 6
  | .objectEnd => 7
  | .arrayBegin => 8
  | .arrayEnd => 9

def name : Kind → String
  | .none => "NONE"
  | .null => "NULL"
  | .true => "TRUE"
  | .false => "FALSE"
  | .string => "STRING"
  | .number => "NUMBER"
  | .objectBegin => "OBJECT_BEG"
  | .objectEnd => "OBJECT_END"
  | .arrayBegin => "ARRAY_BEG"
  | .arrayEnd => "ARRAY_END"

def ofName? (name : String) : Option Kind := all.find? (·.name = name)

def opens : Kind → Bool
  | .objectBegin | .arrayBegin => Bool.true
  | _ => Bool.false

def closes : Kind → Bool
  | .objectEnd | .arrayEnd => Bool.true
  | _ => Bool.false

end Token.Kind

inductive Token where
  | none
  | null
  | true
  | false
  | string (text : String)
  | number (value : Binary64)
  | objectBegin
  | objectEnd
  | arrayBegin
  | arrayEnd
  deriving DecidableEq, Repr, Inhabited

namespace Token

def kind : Token → Kind
  | .none => .none
  | .null => .null
  | .true => .true
  | .false => .false
  | .string _ => .string
  | .number _ => .number
  | .objectBegin => .objectBegin
  | .objectEnd => .objectEnd
  | .arrayBegin => .arrayBegin
  | .arrayEnd => .arrayEnd

/-- The value of a number token; zero for the others. -/
def numeric : Token → Binary64
  | .number value => value
  | _ => .zero

/-- The number of code points of a string token; zero for the others. -/
def length : Token → Nat
  | .string text => text.length
  | _ => 0

end Token

end JsonSieve
