/-!
# Limits

A run can be limited in the number of instructions, in time, in the tokens kept for reading them
again, and in the depth of calls. A meter counts instructions and says when a limit is exceeded. A free
meter only limits the depth of calls.

The clock is not read here: `elapsed` is the time since the start, as the caller last saw it.
-/

namespace JsonSieve

/-- What can be limited. `none` means no limit, and for the depth of calls the default. -/
structure Limits where
  instructions : Option Nat := none
  /-- In nanoseconds. -/
  time : Option Nat := none
  bufferedTokens : Option Nat := none
  callDepth : Option Nat := none
  deriving DecidableEq, Repr, Inhabited

def Limits.defaultCallDepth : Nat := 1000

def Limits.standard : Limits := { callDepth := some defaultCallDepth }

inductive LimitError where
  | instructions (limit count : Nat)
  | time (limit elapsed : Nat)
  | buffer (limit buffered : Nat)
  | callDepth (limit depth : Nat)
  deriving DecidableEq, Repr, Inhabited

def LimitError.message : LimitError → String
  | .instructions limit count => s!"instruction limit exceeded: {count} > {limit}"
  | .time limit elapsed => s!"time limit exceeded: {elapsed}ns > {limit}ns"
  | .buffer limit buffered => s!"token buffer limit exceeded: {buffered} > {limit}"
  | .callDepth _ _ => "maximum call depth exceeded"

inductive Meter where
  | free
  | limited (limits : Limits) (count elapsed : Nat)
  deriving DecidableEq, Repr, Inhabited

namespace Meter

def ofLimits (limits : Limits) : Meter := .limited limits 0 0

def count? : Meter → Option Nat
  | .free => none
  | .limited _ count _ => some count

def atTime (elapsed : Nat) : Meter → Meter
  | .free => .free
  | .limited limits count _ => .limited limits count elapsed

def timeCheckInterval : Nat := 1024

/-- Counts an instruction. The meter counts also the instruction that exceeds the limit. -/
def tick : Meter → Meter × Option LimitError
  | .free => (.free, none)
  | .limited limits count elapsed =>
    let count := count + 1
    (.limited limits count elapsed, (overCount limits count).or (overTime limits count elapsed))
where
  overCount (limits : Limits) (count : Nat) : Option LimitError :=
    match limits.instructions with
    | some max => if max < count then some (.instructions max count) else none
    | none => none
  overTime (limits : Limits) (count elapsed : Nat) : Option LimitError :=
    match limits.time with
    | some max =>
      if count % timeCheckInterval = 0 ∧ max < elapsed then some (.time max elapsed) else none
    | none => none

def maxDepth : Meter → Nat
  | .free => Limits.defaultCallDepth
  | .limited limits _ _ => limits.callDepth.getD Limits.defaultCallDepth

def checkDepth (m : Meter) (depth : Nat) : Option LimitError :=
  if m.maxDepth ≤ depth then some (.callDepth m.maxDepth (depth + 1)) else none

def checkBuffer (m : Meter) (buffered : Nat) : Option LimitError :=
  match m with
  | .free => none
  | .limited limits _ _ =>
    match limits.bufferedTokens with
    | some max => if max < buffered then some (.buffer max buffered) else none
    | none => none

end Meter

end JsonSieve
