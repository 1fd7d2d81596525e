import JsonSieve.Json.Token
import JsonSieve.Number.Literal
import JsonSieve.Text.Quoted
import JsonSieve.Text.Utf8

/-!
# The lexer

A lexer is fed the bytes of a JSON text in chunks and hands out its tokens. `Lexer.next` gives a token
as soon as its bytes are complete; a number at the end of the bytes is complete only once another byte
or the end of the text shows that it has ended. The structure of the text is checked on the way:
separators, nesting, and that there is a single value. The first error is final.

`pending` holds the bytes that have not been consumed; there are `fed - offset` of them. While a
string literal is incomplete, `scanned` counts the bytes behind its opening quote that have been
searched for the closing one, so that the search goes on where it stopped.
-/

namespace JsonSieve

inductive LexError.Cause where
  | trailing
  | expectedColon
  | expectedComma
  | mismatchedBracket
  | expectedName
  | unexpectedCharacter (byte : UInt8)
  | invalidLiteral
  | truncatedLiteral
  | malformedNumber
  | unterminatedString
  | controlCharacter
  | unknownEscape
  | invalidUnicodeEscape
  | loneLowSurrogate
  | loneHighSurrogate
  | invalidUtf8
  | emptyDocument
  | unexpectedEnd
  deriving DecidableEq, Repr, Inhabited

structure LexError where
  cause : LexError.Cause
  offset : Nat
  deriving DecidableEq, Repr, Inhabited

namespace LexError

def message (e : LexError) : String :=
  match e.cause with
  | .trailing => "trailing characters after the document"
  | .expectedColon => "expected ':' after member name"
  | .expectedComma => "expected ',' or a closing bracket"
  | .mismatchedBracket => "mismatched closing bracket"
  | .expectedName => "expected a member name"
  | .unexpectedCharacter byte => "unexpected character " ++ Text.quotedChar (Char.ofNat byte.toNat)
  | .invalidLiteral => "invalid literal"
  | .truncatedLiteral => "truncated literal"
  | .malformedNumber => "malformed number"
  | .unterminatedString => "unterminated string"
  | .controlCharacter => "control character in string"
  | .unknownEscape => "unknown escape sequence"
  | .invalidUnicodeEscape => "invalid unicode escape"
  | .loneLowSurrogate => "unpaired low surrogate"
  | .loneHighSurrogate => "unpaired high surrogate"
  | .invalidUtf8 => "invalid UTF-8 in string"
  | .emptyDocument => "empty document"
  | .unexpectedEnd => "unexpected end of input"

def text (e : LexError) : String := s!"invalid JSON at byte {e.offset}: {e.message}"

end LexError

inductive Container where
  | object
  | array
  deriving DecidableEq, Repr, Inhabited

inductive Expect where
  | value
  /-- Right after `[`. -/
  | itemOrEnd
  /-- Right after an opening brace. -/
  | nameOrEnd
  /-- After a comma inside an object. -/
  | name
  | colon
  | commaOrEnd
  | done
  deriving DecidableEq, Repr, Inhabited

inductive Lexed where
  | token (t : Token)
  /-- The bytes at hand hold no complete token. -/
  | needMore
  /-- The text is closed and complete. -/
  | eof
  | error (e : LexError)
  deriving DecidableEq, Repr, Inhabited

structure Lexer where
  pending : List UInt8 := []
  /-- The place of the first pending byte in the whole text. -/
  offset : Nat := 0
  fed : Nat := 0
  scanned : Nat := 0
  stack : List Container := []
  expect : Expect := .value
  closed : Bool := false
  failed : Option LexError := none
  deriving DecidableEq, Repr, Inhabited

namespace Lexer

/-! ## Strings -/

/-- Where the search for the closing quote of a string literal stops. -/
inductive Scan where
  /-- This many bytes stand before the closing quote. -/
  | closed (count : Nat)
  /-- The bytes ran out; the search goes on behind this many. -/
  | unfinished (count : Nat)
  deriving DecidableEq, Repr

/-- Searches for the first quote that is not escaped; `count` bytes have been passed before. -/
def scan (count : Nat) : List UInt8 → Scan
  | [] => .unfinished count
  | b :: rest =>
    if b = 0x22 then .closed count
    else if b = 0x5c then
      match rest with
      | [] => .unfinished count
      | _ :: rest => scan (count + 2) rest
    else scan (count + 1) rest

def shortEscape? (b : UInt8) : Option UInt8 :=
  if b = 0x22 then some 0x22
  else if b = 0x5c then some 0x5c
  else if b = 0x2f then some 0x2f
  else if b = 0x62 then some 0x08
  else if b = 0x66 then some 0x0c
  else if b = 0x6e then some 0x0a
  else if b = 0x72 then some 0x0d
  else if b = 0x74 then some 0x09
  else none

def hexDigit? (b : UInt8) : Option Nat :=
  if 0x30 ≤ b ∧ b ≤ 0x39 then some (b.toNat - 0x30)
  else if 0x61 ≤ b ∧ b ≤ 0x66 then some (b.toNat - 0x57)
  else if 0x41 ≤ b ∧ b ≤ 0x46 then some (b.toNat - 0x37)
  else none

def hex4? (a b c d : UInt8) : Option Nat := do
  let a ← hexDigit? a
  let b ← hexDigit? b
  let c ← hexDigit? c
  let d ← hexDigit? d
  some (4096 * a + 256 * b + 16 * c + d)

/-- The bytes that the inside of a string literal stands for; `offset` is its place in the text.
Numbered escapes stand for the UTF-8 bytes of their character; two of them that form a surrogate
pair stand for one character. -/
def unescape (offset : Nat) : List UInt8 → Except LexError (List UInt8)
  | [] => .ok []
  | b :: rest =>
    if b < 0x20 then .error ⟨.controlCharacter, offset⟩
    else if b ≠ 0x5c then (b :: ·) <$> unescape (offset + 1) rest
    else
      match rest with
      | [] => .error ⟨.unknownEscape, offset⟩
      | e :: rest =>
        if e = 0x75 then
          match rest with
          | h1 :: h2 :: h3 :: h4 :: rest =>
            match hex4? h1 h2 h3 h4 with
            | none => .error ⟨.invalidUnicodeEscape, offset⟩
            | some high =>
              if high < 0xd800 ∨ 0xe000 ≤ high then
                (Utf8.encode (Char.ofNat high) ++ ·) <$> unescape (offset + 6) rest
              else if 0xdc00 ≤ high then .error ⟨.loneLowSurrogate, offset⟩
              else
                match rest with
                | 0x5c :: 0x75 :: rest =>
                  match rest with
                  | l1 :: l2 :: l3 :: l4 :: rest =>
                    match hex4? l1 l2 l3 l4 with
                    | none => .error ⟨.invalidUnicodeEscape, offset⟩
                    | some low =>
                      if 0xdc00 ≤ low ∧ low < 0xe000 then
                        let c := Char.ofNat (0x10000 + (high - 0xd800) * 1024 + (low - 0xdc00))
                        (Utf8.encode c ++ ·) <$> unescape (offset + 12) rest
                      else .error ⟨.loneHighSurrogate, offset⟩
                  | _ => .error ⟨.invalidUnicodeEscape, offset⟩
                | _ => .error ⟨.loneHighSurrogate, offset⟩
          | _ => .error ⟨.invalidUnicodeEscape, offset⟩
        else
          match shortEscape? e with
          | some c => (c :: ·) <$> unescape (offset + 2) rest
          | none => .error ⟨.unknownEscape, offset⟩

/-- The text of a string literal whose inside begins at `offset`. Escapes are checked first, from left
to right, and then the bytes they leave. -/
def stringText (offset : Nat) (inside : List UInt8) : Except LexError String := do
  let bytes ← unescape offset inside
  match Utf8.decode bytes with
  | .ok chars => .ok (String.ofList chars)
  | .error valid => .error ⟨.invalidUtf8, offset + valid⟩

/-! ## Moving on -/

def advance (l : Lexer) (count : Nat) : Lexer :=
  { l with pending := l.pending.drop count, offset := l.offset + count }

def fail (l : Lexer) (cause : LexError.Cause) : Except LexError (Lexer × Lexed) :=
  .error ⟨cause, l.offset⟩

def isBlank (b : UInt8) : Bool := b == 0x20 || b == 0x09 || b == 0x0a || b == 0x0d

def skipBlanks (l : Lexer) : Lexer := l.advance (l.pending.takeWhile isBlank).length

def valueDone (l : Lexer) : Lexer :=
  { l with expect := if l.stack.isEmpty then .done else .commaOrEnd }

def atEnd (l : Lexer) : Except LexError (Lexer × Lexed) :=
  if !l.closed then .ok (l, .needMore)
  else if l.expect = .done then .ok (l, .eof)
  else if l.stack.isEmpty && l.expect = .value then l.fail .emptyDocument
  else l.fail .unexpectedEnd

/-! ## Tokens -/

def openContainer (l : Lexer) : Container → Lexer × Lexed
  | .object =>
    ({ l.advance 1 with stack := .object :: l.stack, expect := .nameOrEnd }, .token .objectBegin)
  | .array =>
    ({ l.advance 1 with stack := .array :: l.stack, expect := .itemOrEnd }, .token .arrayBegin)

/-- Closes the innermost container, which has to be of the given kind; the bracket is the first
pending byte. -/
def closeContainer (l : Lexer) (container : Container) : Except LexError (Lexer × Lexed) :=
  match l.stack with
  | top :: stack =>
    if top = container then
      let token := match container with
        | .object => Token.objectEnd
        | .array => Token.arrayEnd
      .ok ({ l.advance 1 with stack }.valueDone, .token token)
    else l.fail .mismatchedBracket
  | [] => l.fail .mismatchedBracket

/-- How the pending bytes compare with a word: they begin with it, they are a part of its beginning,
or they differ. -/
inductive WordMatch where
  | full
  | part
  | differs
  deriving DecidableEq, Repr

def matchWord : List UInt8 → List UInt8 → WordMatch
  | [], _ => .full
  | _ :: _, [] => .part
  | w :: word, b :: bytes => if w = b then matchWord word bytes else .differs

def readWord (l : Lexer) (word : List UInt8) (token : Token) :
    Except LexError (Lexer × Lexed) :=
  match matchWord word l.pending with
  | .full => .ok ((l.advance word.length).valueDone, .token token)
  | .part => if l.closed then l.fail .truncatedLiteral else .ok (l, .needMore)
  | .differs => l.fail .invalidLiteral

def isNumberByte (b : UInt8) : Bool :=
  Literal.isDigit b || b == 0x2d || b == 0x2b || b == 0x2e || b == 0x65 || b == 0x45

/-- Reads a number: the longest run of bytes that occur in numbers has to be a literal. -/
def readNumber (l : Lexer) : Except LexError (Lexer × Lexed) :=
  let (run, rest) := l.pending.span isNumberByte
  if rest.isEmpty && !l.closed then .ok (l, .needMore)
  else
    match Literal.parse? run with
    | some literal => .ok ((l.advance run.length).valueDone, .token (.number literal.toBinary64))
    | none => l.fail .malformedNumber

/-- Reads a string literal; its opening quote is the first pending byte. The lexer after it still
expects what it expected before. -/
def readString (l : Lexer) : Except LexError (Lexer × Lexed) :=
  let inside := l.pending.drop 1
  match scan l.scanned (inside.drop l.scanned) with
  | .unfinished count =>
    if l.closed then l.fail .unterminatedString
    else .ok ({ l with scanned := count }, .needMore)
  | .closed count => do
    let text ← stringText (l.offset + 1) (inside.take count)
    .ok ({ l.advance (count + 2) with scanned := 0 }, .token (.string text))

def onToken (f : Lexer → Lexer) : Lexer × Lexed → Lexer × Lexed
  | (l, .token t) => (f l, .token t)
  | answer => answer

def readValue (l : Lexer) : Except LexError (Lexer × Lexed) :=
  match l.pending with
  | [] => l.atEnd
  | b :: _ =>
    if b = 0x7b then .ok (l.openContainer .object)
    else if b = 0x5b then .ok (l.openContainer .array)
    else if b = 0x22 then onToken valueDone <$> l.readString
    else if b = 0x74 then l.readWord [0x74, 0x72, 0x75, 0x65] .true
    else if b = 0x66 then l.readWord [0x66, 0x61, 0x6c, 0x73, 0x65] .false
    else if b = 0x6e then l.readWord [0x6e, 0x75, 0x6c, 0x6c] .null
    else if b = 0x2d || Literal.isDigit b then l.readNumber
    else l.fail (.unexpectedCharacter b)

def readName (l : Lexer) : Except LexError (Lexer × Lexed) :=
  match l.pending with
  | [] => l.atEnd
  | b :: _ =>
    if b = 0x22 then onToken ({ · with expect := .colon }) <$> l.readString
    else l.fail .expectedName

/-- Reads behind a separator, which is the first pending byte. -/
def afterSeparator (l : Lexer) (expect : Expect)
    (read : Lexer → Except LexError (Lexer × Lexed)) : Except LexError (Lexer × Lexed) :=
  read { l.advance 1 with expect }.skipBlanks

def read (l : Lexer) : Except LexError (Lexer × Lexed) :=
  let l := l.skipBlanks
  match l.pending with
  | [] => l.atEnd
  | b :: _ =>
    match l.expect with
    | .done => l.fail .trailing
    | .colon => if b = 0x3a then l.afterSeparator .value readValue else l.fail .expectedColon
    | .commaOrEnd =>
      if b = 0x2c then
        match l.stack with
        | .object :: _ => l.afterSeparator .name readName
        | _ => l.afterSeparator .value readValue
      else if b = 0x7d then l.closeContainer .object
      else if b = 0x5d then l.closeContainer .array
      else l.fail .expectedComma
    | .itemOrEnd => if b = 0x5d then l.closeContainer .array else l.readValue
    | .nameOrEnd => if b = 0x7d then l.closeContainer .object else l.readName
    | .name => l.readName
    | .value => l.readValue

/-! ## Use -/

def empty : Lexer := {}

def feed (l : Lexer) (bytes : List UInt8) : Lexer :=
  if l.closed then l
  else { l with pending := l.pending ++ bytes, fed := l.fed + bytes.length }

def close (l : Lexer) : Lexer := { l with closed := true }

def depth (l : Lexer) : Nat := l.stack.length

/-- The next answer. After an error every answer is that error. -/
def next (l : Lexer) : Lexer × Lexed :=
  match l.failed with
  | some e => (l, .error e)
  | none =>
    match l.read with
    | .ok answer => answer
    | .error e => ({ l with failed := some e }, .error e)

end Lexer

end JsonSieve
