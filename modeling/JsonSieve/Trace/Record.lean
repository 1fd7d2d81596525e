import JsonSieve.Trace.Event

/-!
# Records

The list of all events of a run, or of the first ones.
-/

namespace JsonSieve

def Event.line : Event → String
  | .instruction pc code depth => s!"instr {pc} {code.name} {depth}"
  | .call proc depth => s!"call {proc} {depth}"
  | .ret code depth => s!"return {code.toInt} {depth}"
  | .splitStart split branches => s!"split {split} {branches}"
  | .splitEnd split result => s!"endsplit {split} {result.toInt}"
  | .token kind => s!"token {kind.name}"
  | .suspend pc => s!"suspend {pc}"

/-- Events in the order in which they happened, up to a limit. -/
structure Record where
  events : Array Event := #[]
  limit : Option Nat := none
  deriving DecidableEq, Repr, Inhabited

def Record.add : Observer Record := fun r e =>
  match r.limit with
  | none => { r with events := r.events.push e }
  | some limit => if r.events.size < limit then { r with events := r.events.push e } else r

end JsonSieve
