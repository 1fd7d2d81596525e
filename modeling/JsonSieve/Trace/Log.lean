import JsonSieve.Text.Column
import JsonSieve.Trace.Event

/-!
# Logs

A log of a run for people. It stops after a number of instructions, if it is limited.
-/

namespace JsonSieve

structure Log where
  lines : Array String := #[]
  limit : Option Nat := none
  count : Nat := 0
  stopped : Bool := false
  deriving DecidableEq, Repr, Inhabited

namespace Log

def line : Event → String
  | .instruction pc code depth => s!"[{Text.padLeft 5 (toString pc)}] {code.name}  depth={depth}"
  | .call proc depth => s!"  >>> CALL proc{proc}  depth={depth}"
  | .ret code depth => s!"  <<< RETURN {code.toInt}  depth={depth}"
  | .splitStart split branches => s!"  +++ SPLIT split{split}  branches={branches}"
  | .splitEnd split result => s!"  --- SPLIT split{split}  result={result.toInt}"
  | .token kind => s!"  --- token {kind.name}"
  | .suspend pc => s!"  ... need more input at {pc}"

def lastLine (limit : Nat) : String := s!"--- trace limit reached ({limit} instructions) ---"

/-- Counts an instruction; the log stops when the limit is reached. -/
def counted (log : Log) : Log :=
  let log := { log with count := log.count + 1 }
  match log.limit with
  | some limit =>
    if limit ≤ log.count then { log with lines := log.lines.push (lastLine limit), stopped := true }
    else log
  | none => log

def add : Observer Log := fun log e =>
  if log.stopped then log
  else
    let log := { log with lines := log.lines.push (line e) }
    match e with
    | .instruction .. => log.counted
    | _ => log

def text (log : Log) : String := String.join (log.lines.toList.map (· ++ "\n"))

end Log

end JsonSieve
