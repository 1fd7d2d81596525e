import JsonSieve.Json.Tree

/-!
# Equality of JSON values

Two values are the same if they have the same type and the same content. Numbers are compared by
value, so that both zeros are the same; the members of objects are compared without regard to their
order, repeated members as often as they occur.
-/

namespace JsonSieve.Json

mutual

def same : Json Binary64 → Json Binary64 → Bool
  | .null, .null => true
  | .bool a, .bool b => a == b
  | .number a, .number b => a.same b
  | .string a, .string b => a == b
  | .array a, .array b => sameItems a b
  | .object a, .object b => sameMembers a b
  | _, _ => false

def sameItems : List (Json Binary64) → List (Json Binary64) → Bool
  | [], [] => true
  | a :: as, b :: bs => a.same b && sameItems as bs
  | _, _ => false

/-- Are the members of two objects the same up to their order? Each member of the first takes away a
member of the second. -/
def sameMembers :
    List (String × Json Binary64) → List (String × Json Binary64) → Bool
  | [], bs => bs.isEmpty
  | (name, value) :: as, bs =>
    match bs.findIdx? fun b => b.1 == name && value.same b.2 with
    | some i => sameMembers as (bs.eraseIdx i)
    | none => false

end

end JsonSieve.Json
