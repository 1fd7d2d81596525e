import JsonSieve.Number.Decimal
import JsonSieve.Text.Quoted
import Std.Data.TreeSet.Basic

/-!
# Canonical texts

A value is compared with others by its canonical text. Strings stand there in quotes, both zeros are written
alike, and the members of an object stand in the order of their texts. How other numbers are written is left
open (`NumberText`); programs run with the shortest text that reads back.
-/

namespace JsonSieve

/-- How numbers other than zero are written. -/
class NumberText where
  write (x : Binary64) : String

instance shortestText : NumberText where
  write x := x.written Decimal.text

namespace Canonical

def number [NumberText] (x : Binary64) : String := if x.isZero then "0" else NumberText.write x

def joined : List String → String
  | [] => ""
  | [text] => text
  | text :: rest => text ++ "," ++ joined rest

def array (items : List String) : String := "[" ++ joined items ++ "]"

/-- Members stand in the order of their names, and those of one name in the order of their values. -/
def before (a b : String × String) : Bool := decide (a.1 < b.1 ∨ a.1 = b.1 ∧ a.2 ≤ b.2)

def member (m : String × String) : String := m.1 ++ ":" ++ m.2

def object (members : List (String × String)) : String :=
  "\x7b" ++ joined ((members.mergeSort before).map member) ++ "\x7d"

end Canonical

/-- A set of values, which are told apart by their canonical texts. -/
abbrev ValueSet := Std.TreeSet String

end JsonSieve
