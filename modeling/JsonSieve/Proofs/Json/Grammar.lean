import JsonSieve.Json.Token
import JsonSieve.Json.Tree

/-!
# The grammar of JSON

`Grammar.Document` is the grammar of RFC 8259 over the bytes of a text, in UTF-8: one value between
optional blanks. It relates a text to the value that it denotes. Unescaped characters of a string are
whole UTF-8 sequences, and numbered escapes stand for one character each, by themselves or as a
surrogate pair. What binary64 number a decimal number becomes is left to `Literal`.

`Json.tokens` is the sequence of tokens of a value.
-/

namespace JsonSieve

namespace Grammar

/-- A space, a tab, a line feed or a carriage return. -/
def Blank (b : UInt8) : Prop := b = 0x20 ∨ b = 0x09 ∨ b = 0x0a ∨ b = 0x0d

instance : DecidablePred Blank := fun b =>
  inferInstanceAs (Decidable (b = 0x20 ∨ b = 0x09 ∨ b = 0x0a ∨ b = 0x0d))

def Blanks (text : List UInt8) : Prop := ∀ b ∈ text, Blank b

/-! ## Numbers -/

def Digit (b : UInt8) : Prop := 0x30 ≤ b ∧ b ≤ 0x39

instance : DecidablePred Digit := fun b => inferInstanceAs (Decidable (0x30 ≤ b ∧ b ≤ 0x39))

def Digits (text : List UInt8) : Prop := text ≠ [] ∧ ∀ b ∈ text, Digit b

/-- A zero, or digits that do not begin with a zero. -/
def Whole (text : List UInt8) : Prop := text = [0x30] ∨ Digits text ∧ text.head? ≠ some 0x30

inductive Fraction : List UInt8 → Prop where
  | absent : Fraction []
  | point {digits : List UInt8} (h : Digits digits) : Fraction (0x2e :: digits)

/-- Nothing, or a mark, an optional sign and digits. -/
inductive Exponent : List UInt8 → Prop where
  | absent : Exponent []
  | mark {e : UInt8} {sign digits : List UInt8} (he : e = 0x65 ∨ e = 0x45)
    (hsign : sign = [] ∨ sign = [0x2b] ∨ sign = [0x2d]) (h : Digits digits) :
    Exponent (e :: (sign ++ digits))

/-- A number: an optional minus sign, a whole part, a fraction and an exponent. -/
inductive Number : List UInt8 → Prop where
  | parts {sign whole fraction exponent : List UInt8} (hsign : sign = [] ∨ sign = [0x2d])
    (hwhole : Whole whole) (hfraction : Fraction fraction) (hexponent : Exponent exponent) :
    Number (sign ++ (whole ++ (fraction ++ exponent)))

/-! ## Strings -/

def hexDigits : List (List UInt8) := [
  [0x30, 0x31, 0x32, 0x33, 0x34, 0x35, 0x36, 0x37, 0x38, 0x39, 0x61, 0x62, 0x63, 0x64, 0x65, 0x66],
  [0x30, 0x31, 0x32, 0x33, 0x34, 0x35, 0x36, 0x37, 0x38, 0x39, 0x41, 0x42, 0x43, 0x44, 0x45, 0x46]]

def HexDigit (b : UInt8) (n : Nat) : Prop := ∃ row ∈ hexDigits, row[n]? = some b

inductive Hex4 : List UInt8 → Nat → Prop where
  | digits {a b c d : UInt8} {m n o p : Nat} (ha : HexDigit a m) (hb : HexDigit b n)
    (hc : HexDigit c o) (hd : HexDigit d p) :
    Hex4 [a, b, c, d] (((m * 16 + n) * 16 + o) * 16 + p)

def shortEscapes : List (UInt8 × Char) := [
  (0x22, '"'), (0x5c, '\\'), (0x2f, '/'), (0x62, '\x08'), (0x66, '\x0c'), (0x6e, '\n'),
  (0x72, '\r'), (0x74, '\t')]

/-- A text that stands for one character inside of a string. -/
inductive Character : List UInt8 → Char → Prop where
  | plain {c : Char} (h : 0x20 ≤ c.toNat) (hquote : c ≠ '"') (hback : c ≠ '\\') :
    Character (String.utf8EncodeChar c) c
  | short {letter : UInt8} {c : Char} (h : (letter, c) ∈ shortEscapes) : Character [0x5c, letter] c
  | numbered {digits : List UInt8} {c : Char} (h : Hex4 digits c.toNat) :
    Character (0x5c :: 0x75 :: digits) c
  | pair {high low : List UInt8} {m n : Nat} {c : Char} (hhigh : Hex4 high m) (hlow : Hex4 low n)
    (hm : 0xd800 ≤ m ∧ m < 0xdc00) (hn : 0xdc00 ≤ n ∧ n < 0xe000)
    (hc : c.toNat = 0x10000 + (m - 0xd800) * 0x400 + (n - 0xdc00)) :
    Character (0x5c :: 0x75 :: (high ++ 0x5c :: 0x75 :: low)) c

inductive Characters : List UInt8 → List Char → Prop where
  | nil : Characters [] []
  | cons {first rest : List UInt8} {c : Char} {chars : List Char} (h : Character first c)
    (hrest : Characters rest chars) : Characters (first ++ rest) (c :: chars)

inductive Quoted : List UInt8 → String → Prop where
  | quotes {inside : List UInt8} {chars : List Char} (h : Characters inside chars) :
    Quoted (0x22 :: (inside ++ [0x22])) (String.ofList chars)

/-! ## Values -/

mutual

inductive Value : List UInt8 → Json Binary64 → Prop where
  | null : Value [0x6e, 0x75, 0x6c, 0x6c] .null
  | true : Value [0x74, 0x72, 0x75, 0x65] (.bool true)
  | false : Value [0x66, 0x61, 0x6c, 0x73, 0x65] (.bool false)
  | number {text : List UInt8} {l : Literal} (h : Number text) (hl : Literal.parse? text = some l) :
    Value text (.number l.toBinary64)
  | string {text : List UInt8} {s : String} (h : Quoted text s) : Value text (.string s)
  | emptyArray {gap : List UInt8} (h : Blanks gap) : Value (0x5b :: (gap ++ [0x5d])) (.array [])
  | array {inside : List UInt8} {items : List (Json Binary64)} (h : Items inside items) :
    Value (0x5b :: (inside ++ [0x5d])) (.array items)
  | emptyObject {gap : List UInt8} (h : Blanks gap) : Value (0x7b :: (gap ++ [0x7d])) (.object [])
  | object {inside : List UInt8} {members : List (String × Json Binary64)}
    (h : Members inside members) : Value (0x7b :: (inside ++ [0x7d])) (.object members)

/-- Values between blanks, separated by commas. -/
inductive Items : List UInt8 → List (Json Binary64) → Prop where
  | one {before text after : List UInt8} {v : Json Binary64} (hbefore : Blanks before)
    (h : Value text v) (hafter : Blanks after) : Items (before ++ (text ++ after)) [v]
  | more {before text after rest : List UInt8} {v : Json Binary64} {items : List (Json Binary64)}
    (hbefore : Blanks before) (h : Value text v) (hafter : Blanks after) (hrest : Items rest items) :
    Items (before ++ (text ++ (after ++ 0x2c :: rest))) (v :: items)

/-- Names and values with a colon between them, between blanks, separated by commas. -/
inductive Members : List UInt8 → List (String × Json Binary64) → Prop where
  | one {before quoted gap gap' text after : List UInt8} {name : String} {v : Json Binary64}
    (hbefore : Blanks before) (hname : Quoted quoted name) (hgap : Blanks gap)
    (hgap' : Blanks gap') (h : Value text v) (hafter : Blanks after) :
    Members (before ++ (quoted ++ (gap ++ 0x3a :: (gap' ++ (text ++ after))))) [(name, v)]
  | more {before quoted gap gap' text after rest : List UInt8} {name : String} {v : Json Binary64}
    {members : List (String × Json Binary64)}
    (hbefore : Blanks before) (hname : Quoted quoted name) (hgap : Blanks gap)
    (hgap' : Blanks gap') (h : Value text v) (hafter : Blanks after)
    (hrest : Members rest members) :
    Members (before ++ (quoted ++ (gap ++ 0x3a :: (gap' ++ (text ++ (after ++ 0x2c :: rest))))))
      ((name, v) :: members)

end

inductive Document : List UInt8 → Json Binary64 → Prop where
  | padded {before text after : List UInt8} {v : Json Binary64} (hbefore : Blanks before)
    (h : Value text v) (hafter : Blanks after) : Document (before ++ (text ++ after)) v

end Grammar

namespace Json

mutual

/-- The tokens of a value. Names of members are strings; commas and colons are no tokens. -/
def tokens : Json Binary64 → List Token
  | .null => [.null]
  | .bool true => [.true]
  | .bool false => [.false]
  | .number x => [.number x]
  | .string text => [.string text]
  | .array items => .arrayBegin :: (itemTokens items ++ [.arrayEnd])
  | .object members => .objectBegin :: (memberTokens members ++ [.objectEnd])

def itemTokens : List (Json Binary64) → List Token
  | [] => []
  | item :: items => item.tokens ++ itemTokens items

def memberTokens : List (String × Json Binary64) → List Token
  | [] => []
  | (name, value) :: members => .string name :: (value.tokens ++ memberTokens members)

end

end Json

end JsonSieve
