import JsonSieve.Image.Basic
import JsonSieve.Text.Utf8

/-!
# Stored images

The bytes of a stored image: the tables and the code one after another. Words and lengths are written
in groups of seven bits, the lowest first, with the high bit set in every byte but the last. Numbers
are eight bytes, the least significant first. A list is its length and its entries, a text the list
of its UTF-8 bytes, and a choice its number and what belongs to it.

Reading gives the image and ignores the bytes behind it.
-/

namespace JsonSieve

inductive DecodeError where
  | endOfBytes
  | badVarint
  | badUtf8
  | badChoice
  deriving DecidableEq, Repr, Inhabited

def DecodeError.message : DecodeError → String
  | .endOfBytes => "Hit the end of buffer, expected more data"
  | .badVarint =>
    "Found a varint that didn't terminate. Is the usize too big for this platform?"
  | .badUtf8 => "Tried to parse invalid utf-8"
  | .badChoice => "Serde Deserialization Error"

namespace Codec

/-! ## Writing -/

def putVarint (n : Nat) : List UInt8 :=
  if n < 128 then [UInt8.ofNat n]
  else UInt8.ofNat (128 + n % 128) :: putVarint (n / 128)
termination_by n

def putWord (w : UInt32) : List UInt8 := putVarint w.toNat

def putList {α : Type} (put : α → List UInt8) (list : List α) : List UInt8 :=
  putVarint list.length ++ list.flatMap put

def putText (text : String) : List UInt8 :=
  let bytes := Utf8.encodeText text
  putVarint bytes.length ++ bytes

def putReal (x : Binary64) : List UInt8 := Word.bytes 8 x.bits.toNat

def putPattern : NamePattern → List UInt8
  | .literal name => putVarint 0 ++ putText name
  | .regex source => putVarint 1 ++ putText source

def putMatcher (m : Matcher) : List UInt8 :=
  putList putPattern m.patterns ++ putList (putList putWord) m.cases

def putEntry (p : ProcEntry) : List UInt8 := putWord p.slots ++ putWord p.entry

/-! ## Reading -/

/-- A reader gives what it has read and the bytes behind it. -/
abbrev Reader (α : Type) := List UInt8 → Except DecodeError (α × List UInt8)

/-- A number in at most `n` bytes, of which the last holds at most `last`. -/
def getVarint (last : Nat) : Nat → Reader Nat
  | 0, _ => .error .badVarint
  | _ + 1, [] => .error .endOfBytes
  | n + 1, b :: rest =>
    if b < 128 then
      if n = 0 ∧ last < b.toNat then .error .badVarint else .ok (b.toNat, rest)
    else
      match getVarint last n rest with
      | .ok (high, rest) => .ok (b.toNat % 128 + 128 * high, rest)
      | .error e => .error e

def getWord : Reader UInt32 := fun bytes => do
  let (n, rest) ← getVarint 15 5 bytes
  pure (UInt32.ofNat n, rest)

def getLength : Reader Nat := getVarint 1 10

def getBytes (n : Nat) : Reader (List UInt8) := fun bytes =>
  if n ≤ bytes.length then .ok (bytes.take n, bytes.drop n) else .error .endOfBytes

def getEntries {α : Type} (get : Reader α) : Nat → Reader (List α)
  | 0, bytes => .ok ([], bytes)
  | n + 1, bytes => do
    let (a, rest) ← get bytes
    let (list, rest) ← getEntries get n rest
    pure (a :: list, rest)

def getList {α : Type} (get : Reader α) : Reader (List α) := fun bytes => do
  let (n, rest) ← getLength bytes
  getEntries get n rest

def getByteList : Reader (List UInt8) := fun bytes => do
  let (n, rest) ← getLength bytes
  getBytes n rest

def getText : Reader String := fun bytes => do
  let (utf8, rest) ← getByteList bytes
  match Utf8.decode utf8 with
  | .ok chars => pure (String.ofList chars, rest)
  | .error _ => throw .badUtf8

def getReal : Reader Binary64 := fun bytes => do
  let (word, rest) ← getBytes 8 bytes
  pure (⟨UInt64.ofNat (Word.ofBytes word)⟩, rest)

def getPattern : Reader NamePattern := fun bytes => do
  let (choice, rest) ← getWord bytes
  if choice = 0 then
    let (name, rest) ← getText rest
    pure (.literal name, rest)
  else if choice = 1 then
    let (source, rest) ← getText rest
    pure (.regex source, rest)
  else throw .badChoice

def getMatcher : Reader Matcher := fun bytes => do
  let (patterns, rest) ← getList getPattern bytes
  let (cases, rest) ← getList (getList getWord) rest
  pure (⟨patterns, cases⟩, rest)

def getEntry : Reader ProcEntry := fun bytes => do
  let (slots, rest) ← getWord bytes
  let (entry, rest) ← getWord rest
  pure (⟨slots, entry⟩, rest)

end Codec

namespace Image

open Codec

def dump (image : Image) : List UInt8 :=
  putList putEntry image.procs ++ putList putReal image.floats ++ putList putMatcher image.matchers
    ++ putList (putList putWord) image.splits ++ putVarint image.code.length ++ image.code

def load (bytes : List UInt8) : Except DecodeError Image := do
  let (procs, rest) ← getList getEntry bytes
  let (floats, rest) ← getList getReal rest
  let (matchers, rest) ← getList getMatcher rest
  let (splits, rest) ← getList (getList getWord) rest
  let (code, _) ← getByteList rest
  pure { procs, floats, matchers, splits, code }

end Image

end JsonSieve
