import JsonSieve.Number.Decimal
import JsonSieve.Text.Column
import JsonSieve.Trace.Event

/-!
# Profiles

How often each opcode runs, how deep calls go, and how many calls, splits, tokens and suspensions there
are.
-/

namespace JsonSieve

structure Profile where
  counts : List (Opcode × Nat) := []
  instructions : Nat := 0
  maxDepth : Nat := 0
  calls : Nat := 0
  splits : Nat := 0
  tokens : Nat := 0
  suspensions : Nat := 0
  deriving DecidableEq, Repr, Inhabited

namespace Profile

def bump (code : Opcode) : List (Opcode × Nat) → List (Opcode × Nat)
  | [] => [(code, 1)]
  | (c, n) :: rest => if c = code then (c, n + 1) :: rest else (c, n) :: bump code rest

def add : Observer Profile := fun p e =>
  match e with
  | .instruction _ code _ =>
    { p with counts := bump code p.counts, instructions := p.instructions + 1 }
  | .call _ depth => { p with calls := p.calls + 1, maxDepth := max p.maxDepth depth }
  | .splitStart _ _ => { p with splits := p.splits + 1 }
  | .token _ => { p with tokens := p.tokens + 1 }
  | .suspend _ => { p with suspensions := p.suspensions + 1 }
  | .ret _ _ | .splitEnd _ _ => p

/-- The opcodes that have run, the most frequent first, and by their numbers where equally
frequent. -/
def ranking (p : Profile) : List (Opcode × Nat) :=
  p.counts.mergeSort fun a b => decide (b.2 < a.2) || (a.2 == b.2 && decide (a.1.code ≤ b.1.code))

def percent (part whole : Nat) : Binary64 :=
  ((Binary64.ofInt part).div (Binary64.ofInt whole)).mul (Binary64.ofInt 100)

def report (p : Profile) : String :=
  let line (entry : Opcode × Nat) : String :=
    let name := Text.padRight 8 entry.1.name
    let count := Text.padLeft 10 (toString entry.2)
    let share := Text.padLeft 5 (percent entry.2 p.instructions).onePlace
    s!"  {name} {count}  ({share}%)\n"
  "=== VM Profiling Report ===\n"
    ++ s!"Total instructions: {p.instructions}\n"
    ++ s!"Total calls:        {p.calls}\n"
    ++ s!"Max call depth:     {p.maxDepth}\n"
    ++ s!"Splits:             {p.splits}\n"
    ++ s!"Tokens read:        {p.tokens}\n"
    ++ s!"Suspensions:        {p.suspensions}\n"
    ++ "\n--- Opcode Frequency ---\n"
    ++ String.join (p.ranking.map line)

end Profile

end JsonSieve
