/-!
# Sorted sets

Sets as strictly increasing lists.
-/

namespace JsonSieve.Sorted

variable {α : Type} [Ord α]

def insert (a : α) : List α → List α
  | [] => [a]
  | b :: rest =>
    match compare a b with
    | .lt => a :: b :: rest
    | .eq => b :: rest
    | .gt => b :: insert a rest

def union : List α → List α → List α
  | [], b => b
  | a, [] => a
  | x :: a, y :: b =>
    match compare x y with
    | .lt => x :: union a (y :: b)
    | .eq => x :: union a b
    | .gt => y :: union (x :: a) b
termination_by a b => a.length + b.length

def ofList (list : List α) : List α := list.foldr insert []

end JsonSieve.Sorted
