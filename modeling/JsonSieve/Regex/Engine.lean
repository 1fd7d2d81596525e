/-!
# Engines for regular expressions

What an expression means is left to an engine. It prepares a single expression, or a list of expressions that it
then looks for all at once. These are two searches, and all that is ever assumed of them is that they agree
(`Engine.Agrees`).
-/

namespace JsonSieve.Regex

/-- What is wrong with a list of expressions; if one of them cannot be read, the reason is not told. -/
inductive Error where
  | unreadable
  | tooLarge (limit : Nat)
  deriving DecidableEq, Repr, Inhabited

def Error.detail : Error → String
  | .unreadable => ""
  | .tooLarge limit => s!"Compiled regex exceeds size limit of {limit} bytes."

class Engine where
  /-- Prepares an expression: is there a match in a text? -/
  compile? (source : String) : Option (String → Bool)
  /-- Prepares a list of expressions: is there a match in a text of the one at a position? -/
  compileSet (sources : List String) : Except Error (String → Nat → Bool)

/-- An expression in a list matches the texts that it matches on its own. -/
def Engine.Agrees [Engine] : Prop :=
  ∀ sources search, compileSet sources = .ok search → ∀ k source isMatch, sources[k]? = some source →
    compile? source = some isMatch → ∀ text, search text k = isMatch text

end JsonSieve.Regex
