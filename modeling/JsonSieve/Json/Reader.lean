import JsonSieve.Json.Lexer
import JsonSieve.Json.Tree

/-!
# Reading JSON trees

`Json.read?` reads a whole text into a tree that keeps its literals as they were written. The other
readers give what they have read and the bytes behind it.
-/

namespace JsonSieve.Json

def skipBlanks (bytes : List UInt8) : List UInt8 := bytes.dropWhile Lexer.isBlank

def readString (bytes : List UInt8) : Option (String × List UInt8) :=
  match Lexer.scan 0 bytes with
  | .unfinished _ => none
  | .closed count =>
    match Lexer.stringText 0 (bytes.take count) with
    | .ok text => some (text, bytes.drop (count + 1))
    | .error _ => none

def readNumber (bytes : List UInt8) : Option (Json Literal × List UInt8) :=
  let (run, rest) := bytes.span Lexer.isNumberByte
  (Literal.parse? run).map fun literal => (.number literal, rest)

def readWord : List UInt8 → Option (Json Literal × List UInt8)
  | 0x6e :: 0x75 :: 0x6c :: 0x6c :: rest => some (.null, rest)
  | 0x74 :: 0x72 :: 0x75 :: 0x65 :: rest => some (.bool true, rest)
  | 0x66 :: 0x61 :: 0x6c :: 0x73 :: 0x65 :: rest => some (.bool false, rest)
  | _ => none

mutual

/-- A value. Every level and every entry takes fuel. -/
def readValue : Nat → List UInt8 → Option (Json Literal × List UInt8)
  | 0, _ => none
  | fuel + 1, bytes =>
    match skipBlanks bytes with
    | [] => none
    | b :: rest =>
      if b = 0x22 then (readString rest).map fun (text, rest) => (.string text, rest)
      else if b = 0x5b then
        match skipBlanks rest with
        | 0x5d :: rest => some (.array [], rest)
        | rest => (readItems fuel rest).map fun (items, rest) => (.array items, rest)
      else if b = 0x7b then
        match skipBlanks rest with
        | 0x7d :: rest => some (.object [], rest)
        | rest => (readMembers fuel rest).map fun (members, rest) => (.object members, rest)
      else if b = 0x2d || Literal.isDigit b then readNumber (b :: rest)
      else readWord (b :: rest)

def readItems : Nat → List UInt8 → Option (List (Json Literal) × List UInt8)
  | 0, _ => none
  | fuel + 1, bytes => do
    let (item, rest) ← readValue fuel bytes
    match skipBlanks rest with
    | 0x5d :: rest => some ([item], rest)
    | 0x2c :: rest =>
      let (items, rest) ← readItems fuel rest
      some (item :: items, rest)
    | _ => none

def readMembers : Nat → List UInt8 → Option (List (String × Json Literal) × List UInt8)
  | 0, _ => none
  | fuel + 1, bytes =>
    match skipBlanks bytes with
    | 0x22 :: rest => do
      let (name, rest) ← readString rest
      match skipBlanks rest with
      | 0x3a :: rest =>
        let (value, rest) ← readValue fuel rest
        match skipBlanks rest with
        | 0x7d :: rest => some ([(name, value)], rest)
        | 0x2c :: rest =>
          let (members, rest) ← readMembers fuel rest
          some ((name, value) :: members, rest)
        | _ => none
      | _ => none
    | _ => none

end

def read? (bytes : List UInt8) : Option (Json Literal) := do
  let (value, rest) ← readValue (bytes.length + 1) bytes
  if (skipBlanks rest).isEmpty then some value else none

end JsonSieve.Json
