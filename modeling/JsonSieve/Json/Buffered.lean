import JsonSieve.Json.Lexer

/-!
# Lexers over a buffer

Here the bytes of a text stand in a buffer, and all positions are places in it. What has been read stays in
the buffer until there is enough of it (`Buffered.compactThreshold`); then the next bytes that are fed take its
place, and the positions move with the bytes. Each reader does at a position what the reader of the same name
does with the pending bytes of a `Lexer`.
-/

namespace JsonSieve

structure Buffered where
  buf : List UInt8 := []
  /-- How much of the buffer has been read. -/
  pos : Nat := 0
  /-- The place of the buffer in the whole text. -/
  consumed : Nat := 0
  /-- Where the search for the end of a string literal goes on. -/
  scan : Nat := 0
  stack : List Container := []
  expect : Expect := .value
  closed : Bool := false
  failed : Option LexError := none
  deriving DecidableEq, Repr, Inhabited

namespace Buffered

open Lexer (isBlank isNumberByte matchWord stringText)

def compactThreshold : Nat := 4096

variable (b : Buffered)

def unread : List UInt8 := b.buf.drop b.pos

def advance (count : Nat) : Buffered := { b with pos := b.pos + count }

def fail (cause : LexError.Cause) : Except LexError (Buffered × Lexed) := .error ⟨cause, b.consumed + b.pos⟩

def skipBlanks : Buffered := b.advance (b.unread.takeWhile isBlank).length

def valueDone : Buffered := { b with expect := if b.stack.isEmpty then .done else .commaOrEnd }

def atEnd : Except LexError (Buffered × Lexed) :=
  if !b.closed then .ok (b, .needMore)
  else if b.expect = .done then .ok (b, .eof)
  else if b.stack.isEmpty && b.expect = .value then b.fail .emptyDocument
  else b.fail .unexpectedEnd

def openContainer : Container → Buffered × Lexed
  | .object => ({ b.advance 1 with stack := .object :: b.stack, expect := .nameOrEnd }, .token .objectBegin)
  | .array => ({ b.advance 1 with stack := .array :: b.stack, expect := .itemOrEnd }, .token .arrayBegin)

def closeContainer (container : Container) : Except LexError (Buffered × Lexed) :=
  match b.stack with
  | top :: stack =>
    if top = container then
      let token := match container with
        | .object => Token.objectEnd
        | .array => Token.arrayEnd
      .ok ({ b.advance 1 with stack }.valueDone, .token token)
    else b.fail .mismatchedBracket
  | [] => b.fail .mismatchedBracket

def readWord (word : List UInt8) (token : Token) : Except LexError (Buffered × Lexed) :=
  match matchWord word b.unread with
  | .full => .ok ((b.advance word.length).valueDone, .token token)
  | .part => if b.closed then b.fail .truncatedLiteral else .ok (b, .needMore)
  | .differs => b.fail .invalidLiteral

def readNumber : Except LexError (Buffered × Lexed) :=
  let (run, rest) := b.unread.span isNumberByte
  if rest.isEmpty && !b.closed then .ok (b, .needMore)
  else
    match Literal.parse? run with
    | some literal => .ok ((b.advance run.length).valueDone, .token (.number literal.toBinary64))
    | none => b.fail .malformedNumber

/-- Searches for the closing quote of the literal that begins at the position, from where the last search of
it has stopped. -/
def search : Lexer.Scan :=
  let place := max b.scan (b.pos + 1)
  Lexer.scan place (b.buf.drop place)

/-- What stands between the opening quote and a place. -/
def inside (place : Nat) : List UInt8 := (b.buf.take place).drop (b.pos + 1)

/-- Reads a string literal and goes on behind it as told. -/
def readString (behind : Buffered → Buffered) : Except LexError (Buffered × Lexed) :=
  match b.search with
  | .unfinished place =>
    if b.closed then b.fail .unterminatedString else .ok ({ b with scan := place }, .needMore)
  | .closed place => do
    let text ← stringText (b.consumed + (b.pos + 1)) (b.inside place)
    .ok (behind { b with pos := place + 1, scan := 0 }, .token (.string text))

def readValue : Except LexError (Buffered × Lexed) :=
  match b.unread with
  | [] => b.atEnd
  | c :: _ =>
    if c = 0x7b then .ok (b.openContainer .object)
    else if c = 0x5b then .ok (b.openContainer .array)
    else if c = 0x22 then b.readString valueDone
    else if c = 0x74 then b.readWord [0x74, 0x72, 0x75, 0x65] .true
    else if c = 0x66 then b.readWord [0x66, 0x61, 0x6c, 0x73, 0x65] .false
    else if c = 0x6e then b.readWord [0x6e, 0x75, 0x6c, 0x6c] .null
    else if c = 0x2d || Literal.isDigit c then b.readNumber
    else b.fail (.unexpectedCharacter c)

def readName : Except LexError (Buffered × Lexed) :=
  match b.unread with
  | [] => b.atEnd
  | c :: _ =>
    if c = 0x22 then b.readString ({ · with expect := .colon })
    else b.fail .expectedName

def afterSeparator (expect : Expect) (read : Buffered → Except LexError (Buffered × Lexed)) :
    Except LexError (Buffered × Lexed) :=
  read { b.advance 1 with expect }.skipBlanks

def readHere : Except LexError (Buffered × Lexed) :=
  match b.unread with
  | [] => b.atEnd
  | c :: _ =>
    match b.expect with
    | .done => b.fail .trailing
    | .colon => if c = 0x3a then b.afterSeparator .value readValue else b.fail .expectedColon
    | .commaOrEnd =>
      if c = 0x2c then
        match b.stack with
        | .object :: _ => b.afterSeparator .name readName
        | _ => b.afterSeparator .value readValue
      else if c = 0x7d then b.closeContainer .object
      else if c = 0x5d then b.closeContainer .array
      else b.fail .expectedComma
    | .itemOrEnd => if c = 0x5d then b.closeContainer .array else b.readValue
    | .nameOrEnd => if c = 0x7d then b.closeContainer .object else b.readName
    | .name => b.readName
    | .value => b.readValue

def read : Except LexError (Buffered × Lexed) := b.skipBlanks.readHere

/-! ## Use -/

def empty : Buffered := {}

/-- Drops the bytes that have been read. -/
def compact : Buffered :=
  { b with buf := b.unread, pos := 0, consumed := b.consumed + b.pos, scan := b.scan - b.pos }

def feed (bytes : List UInt8) : Buffered :=
  if b.closed then b
  else
    let b := if compactThreshold ≤ b.pos then b.compact else b
    { b with buf := b.buf ++ bytes }

def close : Buffered := { b with closed := true }

def next : Buffered × Lexed :=
  match b.failed with
  | some e => (b, .error e)
  | none =>
    match b.read with
    | .ok answer => answer
    | .error e => ({ b with failed := some e }, .error e)

end Buffered

end JsonSieve
