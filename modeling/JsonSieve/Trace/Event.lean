import JsonSieve.Assembly.Op

/-!
# Events

What can be observed of a run, in the order in which it happens.
-/

namespace JsonSieve

inductive Event where
  | instruction (pc : Nat) (code : Opcode) (depth : Nat)
  /-- An activation has begun; it is counted. -/
  | call (proc : UInt32) (depth : Nat)
  /-- An activation has ended; it is not counted. -/
  | ret (code : Int64) (depth : Nat)
  | splitStart (split : UInt32) (branches : Nat)
  | splitEnd (split : UInt32) (result : Int64)
  | token (kind : Token.Kind)
  /-- The run waits for more of the text. -/
  | suspend (pc : Nat)
  deriving DecidableEq, Repr, Inhabited

abbrev Observer (σ : Type) := σ → Event → σ

def Observer.observe {σ : Type} (o : Observer σ) (seen : σ) (events : List Event) : σ :=
  events.foldl o seen

end JsonSieve
