import JsonSieve.Text.Class.Hidden

/-!
# Quoted text

Listings and messages show names, patterns and characters in quotes. The quote in use and the
backslash are escaped, tab, newline, return and NUL have short escapes, and every other character
without a visible form of its own is written by number.
-/

namespace JsonSieve.Text

/-- An escape by number: the code point in lower-case hexadecimal digits between braces. -/
def numbered (c : Char) : List Char :=
  '\\' :: 'u' :: Char.ofNat 0x7b :: Nat.toDigits 16 c.toNat ++ [Char.ofNat 0x7d]

def quoteChar (quote : Char) (c : Char) : List Char :=
  if c = quote ∨ c = '\\' then ['\\', c]
  else if c = '\t' then ['\\', 't']
  else if c = '\n' then ['\\', 'n']
  else if c = '\r' then ['\\', 'r']
  else if c = Char.ofNat 0 then ['\\', '0']
  else if 0x20 ≤ c.toNat ∧ c.toNat < 0x7f then [c]
  else if isHidden c then numbered c
  else [c]

def quoted (text : String) : String :=
  String.ofList ('"' :: text.toList.flatMap (quoteChar '"') ++ ['"'])

def quotedChar (c : Char) : String :=
  String.ofList ('\'' :: quoteChar '\'' c ++ ['\''])

end JsonSieve.Text
