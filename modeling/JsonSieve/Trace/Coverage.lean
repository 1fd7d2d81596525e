import JsonSieve.Sorted
import JsonSieve.Trace.Event

/-!
# Coverage

Which instructions have run.
-/

namespace JsonSieve

/-- The indices of the instructions that have run, in ascending order. -/
structure Coverage where
  pcs : List Nat := []
  deriving DecidableEq, Repr, Inhabited

def Coverage.add : Observer Coverage := fun c e =>
  match e with
  | .instruction pc _ _ => { c with pcs := Sorted.insert pc c.pcs }
  | _ => c

end JsonSieve
