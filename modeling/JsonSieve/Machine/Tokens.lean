import JsonSieve.Machine.State

/-!
# Tokens of a run

Reading tokens into the buffer, reading the next token, skipping the rest of a value, and looking at the
whole coming value without moving.
-/

namespace JsonSieve

namespace Machine

inductive Fetch where
  | ready
  | needMore
  | badText
  | limit (error : LimitError)
  deriving DecidableEq, Repr, Inhabited

def keep (t : Token) (m : Machine) : Machine × Fetch :=
  let m := { m with buffer := m.buffer.push t }
  match m.meter.checkBuffer m.buffer.size with
  | some e => (m, .limit e)
  | none => (m, .ready)

/-- Reads a token into the buffer; behind the end of the text there are only empty tokens. -/
def fetch (m : Machine) : Machine × Fetch :=
  match m.input.next with
  | (input, .token t) => keep t { m with input }
  | (input, .eof) => keep .none { m with input }
  | (input, .needMore) => ({ m with input }, .needMore)
  | (input, .error _) => ({ m with input }, .badText)

def fill : Nat → Machine → Machine × Fetch
  | 0, m => (m, .ready)
  | n + 1, m =>
    match m.fetch with
    | (m, .ready) => fill n m
    | stopped => stopped

def ensure (place : Nat) (m : Machine) : Machine × Fetch := fill (place + 1 - m.buffer.size) m

def tokenAt (m : Machine) (place : Nat) : Token := m.buffer[place]?.getD .none

/-- Drops the tokens that cannot be read again: outside of splits, all but the last one read. -/
def compact (m : Machine) : Machine :=
  if m.splits.isEmpty ∧ 1 < m.cursor then
    { m with buffer := m.buffer.extract (m.cursor - 1) m.buffer.size, cursor := 1 }
  else m

def readToken (m : Machine) : Machine × Fetch :=
  match m.ensure m.cursor with
  | (m, .ready) =>
    (compact { m with current := m.tokenAt m.cursor, cursor := m.cursor + 1 }, .ready)
  | stopped => stopped

/-- More than the number of tokens that can be read before the text at hand ends: every token in
the buffer, one for each byte, and an empty one at the end. -/
def lookahead (m : Machine) : Nat := m.buffer.size - m.cursor + (m.input.fed - m.input.offset) + 2

/-! ## Skipping -/

/-- How many containers remain to be closed behind a token. -/
def openAfter (kind : Token.Kind) (depth : Nat) : Nat :=
  if kind.opens then depth + 1
  else if kind.closes then depth - 1
  else if kind = .none then 0
  else depth

/-- Skips tokens until all containers are closed. -/
def skip : Nat → Machine → Machine × Fetch
  | 0, m => (m, .needMore)
  | n + 1, m =>
    if m.skipDepth = 0 then (m.compact, .ready)
    else
      match m.ensure m.cursor with
      | (m, .ready) =>
        skip n { m with
          skipDepth := openAfter (m.tokenAt m.cursor).kind m.skipDepth, cursor := m.cursor + 1 }
      | stopped => stopped

/-- Skips the rest of the value that begins with the current token. A skip that was stopped goes on
where it was. -/
def consume (m : Machine) : Machine × Fetch :=
  if m.skipDepth = 0 then
    if m.current.kind.opens then skip m.lookahead { m with skipDepth := 1 }
    else (m, .ready)
  else skip m.lookahead m

/-! ## Looking at a value -/

/-- A container whose end has not been seen; the texts of what it holds stand in reverse. -/
inductive Partial where
  | array (items : List String)
  | object (members : List (String × String)) (name : Option String)

inductive Reading where
  | more (stack : List Partial)
  | value (text : String)
  | bad

def Reading.place (text : String) : List Partial → Reading
  | [] => .value text
  | .array items :: stack => .more (.array (text :: items) :: stack)
  | .object members (some name) :: stack => .more (.object ((name, text) :: members) none :: stack)
  | .object _ none :: _ => .bad

def Reading.step [NumberText] (stack : List Partial) : Token → Reading
  | .objectBegin => .more (.object [] none :: stack)
  | .arrayBegin => .more (.array [] :: stack)
  | .objectEnd =>
    match stack with
    | .object members _ :: stack => place (Canonical.object members.reverse) stack
    | _ => .bad
  | .arrayEnd =>
    match stack with
    | .array items :: stack => place (Canonical.array items.reverse) stack
    | _ => .bad
  | .string text =>
    match stack with
    | .object members none :: stack => .more (.object members (some (Text.quoted text)) :: stack)
    | stack => place (Text.quoted text) stack
  | .number x => place (Canonical.number x) stack
  | .null => place "null" stack
  | .true => place "true" stack
  | .false => place "false" stack
  | .none => .bad

inductive Scan where
  | value (text : String)
  | needMore
  | badText
  | limit (error : LimitError)

def scanFrom [NumberText] : Nat → Nat → List Partial → Machine → Machine × Scan
  | 0, _, _, m => (m, .needMore)
  | n + 1, place, stack, m =>
    match m.ensure place with
    | (m, .ready) =>
      match Reading.step stack (m.tokenAt place) with
      | .more stack => scanFrom n (place + 1) stack m
      | .value text => (m, .value text)
      | .bad => (m, .badText)
    | (m, .needMore) => (m, .needMore)
    | (m, .badText) => (m, .badText)
    | (m, .limit e) => (m, .limit e)

/-- The canonical text of the coming value. Only the buffer and the input change. -/
def scan [NumberText] (m : Machine) : Machine × Scan := scanFrom m.lookahead m.cursor [] m

end Machine

end JsonSieve
