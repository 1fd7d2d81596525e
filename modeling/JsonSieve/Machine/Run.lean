import JsonSieve.Machine.Step

/-!
# Runs

A run goes on until the program ends, fails, or needs more of the text than there is. Fuel bounds the
number of instructions; a run that has used it up can go on from where it is.
-/

namespace JsonSieve

inductive Reply where
  | needMore
  | done (v : Verdict)
  | failed (e : RunError)
  /-- The fuel is used up. -/
  | running
  deriving DecidableEq, Repr, Inhabited

namespace Machine

variable {σ : Type}

def loop (exe : Executable) (observer : Observer σ) : Nat → Machine → σ → Machine × σ × Reply
  | 0, m, seen => (m, seen, .running)
  | fuel + 1, m, seen =>
    let s := m.step exe
    let seen := observer.observe seen s.events
    match s.next with
    | .run => loop exe observer fuel s.machine seen
    | .suspend => (s.machine, seen, .needMore)
    | .finish v => (s.machine, seen, .done v)
    | .fail e => (s.machine, seen, .failed e)

/-- Runs over the text at hand. The first run begins with procedure 0; after the verdict there is
nothing left to run. -/
def run (exe : Executable) (observer : Observer σ) (fuel : Nat) (m : Machine) (seen : σ) :
    Machine × σ × Reply :=
  match m.verdict with
  | some v => (m, seen, .done v)
  | none =>
    if m.started then loop exe observer fuel m seen
    else
      let s := enter exe 0 0 { m with started := true }
      let seen := observer.observe seen s.events
      match s.next with
      | .fail e => (s.machine, seen, .failed e)
      | _ => loop exe observer fuel s.machine seen

def feed (bytes : List UInt8) (m : Machine) : Machine := { m with input := m.input.feed bytes }

def close (m : Machine) : Machine := { m with input := m.input.close }

end Machine

end JsonSieve
