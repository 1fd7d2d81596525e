import JsonSieve.Machine.Run

/-!
# Sessions

A session checks one document that comes in chunks. After each chunk it reports what is known:
`needMore`, or that the value is complete and accepted, or why the document is rejected. After the end
of the document the status is final. Once the value is accepted, nothing but blanks may follow.
-/

namespace JsonSieve

inductive Status where
  | needMore
  | valid
  | invalid (reason : Reason)
  deriving DecidableEq, Repr, Inhabited

def Verdict.status : Verdict → Status
  | .valid => .valid
  | .invalid reason => .invalid reason

inductive Answer where
  | status (s : Status)
  | failed (e : RunError)
  /-- The fuel is used up. -/
  | running
  deriving DecidableEq, Repr, Inhabited

def Reply.answer : Reply → Answer
  | .needMore => .status .needMore
  | .done v => .status v.status
  | .failed e => .failed e
  | .running => .running

/-- The check of one document; `seen` belongs to an observer. -/
structure Session (σ : Type) where
  machine : Machine := {}
  seen : σ
  closed : Bool := false
  /-- Has bad text been found behind the accepted value? -/
  trailing : Bool := false

namespace Session

variable {σ : Type}

/-- Reads all tokens at hand; tells whether the text is still JSON. -/
def drain : Nat → Lexer → Lexer × Bool
  | 0, l => (l, true)
  | n + 1, l =>
    match l.next with
    | (l, .token _) => drain n l
    | (l, .error _) => (l, false)
    | (l, _) => (l, true)

def lookBehind (s : Session σ) : Session σ × Answer :=
  let input := s.machine.input
  let (input, good) := drain (input.pending.length + 1) input
  let s := { s with machine := { s.machine with input }, trailing := !good }
  (s, .status (if good then .valid else .invalid .invalidJson))

def advance (exe : Executable) (observer : Observer σ) (fuel : Nat) (s : Session σ) :
    Session σ × Answer :=
  if s.trailing then (s, .status (.invalid .invalidJson))
  else
    let (machine, seen, reply) := s.machine.run exe observer fuel s.seen
    let s := { s with machine, seen }
    match reply with
    | .done .valid => s.lookBehind
    | reply => (s, reply.answer)

def more (exe : Executable) (observer : Observer σ) (fuel : Nat) (bytes : List UInt8)
    (s : Session σ) : Session σ × Answer :=
  if s.closed then (s, .failed .closed)
  else advance exe observer fuel { s with machine := s.machine.feed bytes }

def close (exe : Executable) (observer : Observer σ) (fuel : Nat) (s : Session σ) :
    Session σ × Answer :=
  match advance exe observer fuel { s with closed := true, machine := s.machine.close } with
  | (s, .status .needMore) => (s, .failed (.malformed 0 .stillWaiting))
  | answered => answered

def lexerError (s : Session σ) : Option LexError := s.machine.input.failed

end Session

namespace Executable

def unobserved : Observer Unit := fun seen _ => seen

/-- Checks a whole document. The first error ends the check. -/
def validate (exe : Executable) (fuel : Nat) (document : List UInt8) (meter : Meter := .free) :
    Answer :=
  let start : Session Unit := { machine := { meter }, seen := () }
  match start.more exe unobserved fuel document with
  | (s, .status _) => (s.close exe unobserved fuel).2
  | (_, answer) => answer

end Executable

end JsonSieve
