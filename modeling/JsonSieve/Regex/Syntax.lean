import JsonSieve.Regex.Basic

/-!
# The syntax of regular expressions

`Regex.parse?` reads the text of an expression: literals, `.`, anchors, alternation with empty
branches, groups, counted and uncounted repetition with an optional lazy mark, bracketed classes with
ranges, nesting and set operations, and escapes. Anything else, look-around and back-references among
it, is refused.
-/

namespace JsonSieve.Regex

open Text (CharRanges)

inductive Escape where
  | literal (c : Char)
  | set (s : CharRanges)
  | guard (g : Guard)
  deriving DecidableEq, Repr

def hexDigit? (c : Char) : Option Nat :=
  if '0' ≤ c ∧ c ≤ '9' then some (c.toNat - 48)
  else if 'a' ≤ c ∧ c ≤ 'f' then some (c.toNat - 87)
  else if 'A' ≤ c ∧ c ≤ 'F' then some (c.toNat - 55)
  else none

def hexValue? (digits : List Char) : Option Nat :=
  if digits.isEmpty then none
  else digits.foldlM (fun n c => (16 * n + ·) <$> hexDigit? c) 0

def character? (n : Nat) : Option Char :=
  if n.isValidChar then some (Char.ofNat n) else none

/-- A character by number: `count` digits, or any number of them between braces. -/
def numbered? (count : Nat) (text : List Char) : Option (Char × List Char) :=
  match text with
  | c :: rest =>
    if c = Char.ofNat 0x7b then do
      let (digits, rest) := rest.span (· ≠ Char.ofNat 0x7d)
      let value ← hexValue? digits
      let char ← character? value
      if rest.isEmpty then none else some (char, rest.drop 1)
    else do
      let digits := (c :: rest).take count
      if digits.length < count then none
      let value ← hexValue? digits
      let char ← character? value
      some (char, (c :: rest).drop count)
  | [] => none

/-- ASCII punctuation, blanks and control characters can be escaped; letters and digits cannot, and the
two angle brackets have a meaning of their own. -/
def isEscapable (c : Char) : Bool :=
  decide (c.toNat < 128) && !c.isAlphanum && c != '<' && c != '>'

def namedBoundary? : String → Option Guard
  | "start" => some .wordStart
  | "end" => some .wordEnd
  | "start-half" => some .wordStartHalf
  | "end-half" => some .wordEndHalf
  | _ => none

/-- A word boundary, behind its letter. Braces whose content begins with a letter or a hyphen hold the
name of a special boundary; any others belong to a counted repetition. -/
def boundary? (text : List Char) : Option (Escape × List Char) :=
  let isNameChar (c : Char) : Bool := c.isAlpha || c == '-'
  match text with
  | brace :: first :: rest =>
    if brace = Char.ofNat 0x7b ∧ isNameChar first then
      match (first :: rest).span isNameChar with
      | (name, close :: rest) =>
        if close = Char.ofNat 0x7d then
          (namedBoundary? (String.ofList name)).map fun g => (.guard g, rest)
        else none
      | _ => none
    else some (.guard .wordBoundary, text)
  | _ => some (.guard .wordBoundary, text)

/-- The escape whose text begins right after the backslash. -/
def escape? : List Char → Option (Escape × List Char)
  | [] => none
  | c :: rest =>
    match c with
    | 'd' => some (.set Text.digitRanges, rest)
    | 'D' => some (.set Text.digitRanges.complement, rest)
    | 'w' => some (.set Text.wordRanges, rest)
    | 'W' => some (.set Text.wordRanges.complement, rest)
    | 's' => some (.set Text.blankRanges, rest)
    | 'S' => some (.set Text.blankRanges.complement, rest)
    | 'b' => boundary? rest
    | 'B' => some (.guard .notWordBoundary, rest)
    | '<' => some (.guard .wordStart, rest)
    | '>' => some (.guard .wordEnd, rest)
    | 'A' => some (.guard .start, rest)
    | 'z' => some (.guard .finish, rest)
    | 'a' => some (.literal (Char.ofNat 7), rest)
    | 'f' => some (.literal (Char.ofNat 12), rest)
    | 't' => some (.literal '\t', rest)
    | 'n' => some (.literal '\n', rest)
    | 'r' => some (.literal '\r', rest)
    | 'v' => some (.literal (Char.ofNat 11), rest)
    | 'x' => (fun (c, rest) => (.literal c, rest)) <$> numbered? 2 rest
    | 'u' => (fun (c, rest) => (.literal c, rest)) <$> numbered? 4 rest
    | 'U' => (fun (c, rest) => (.literal c, rest)) <$> numbered? 8 rest
    | c => if isEscapable c then some (.literal c, rest) else none

/-! ## Bracketed classes -/

def namedSet? (name : String) : Option CharRanges :=
  let r (low high : Char) : CharRanges := .between low high
  let lower := r 'a' 'z'
  let upper := r 'A' 'Z'
  let decimal := r '0' '9'
  let alnum := decimal ++ upper ++ lower
  match name with
  | "alnum" => some alnum
  | "alpha" => some (upper ++ lower)
  | "ascii" => some (r (Char.ofNat 0) (Char.ofNat 127))
  | "blank" => some (r '\t' '\t' ++ r ' ' ' ')
  | "cntrl" => some (r (Char.ofNat 0) (Char.ofNat 31) ++ .single (Char.ofNat 127))
  | "digit" => some decimal
  | "graph" => some (r '!' '~')
  | "lower" => some lower
  | "print" => some (r ' ' '~')
  | "punct" => some (r '!' '/' ++ r ':' '@' ++ r '[' (Char.ofNat 0x60) ++ r (Char.ofNat 0x7b) '~')
  | "space" => some (r '\t' '\r' ++ r ' ' ' ')
  | "upper" => some upper
  | "word" => some (decimal ++ upper ++ r '_' '_' ++ lower)
  | "xdigit" => some (decimal ++ r 'A' 'F' ++ r 'a' 'f')
  | _ => none

/-- A named class; the text begins right after its opening bracket. -/
def named? : List Char → Option (CharSet × List Char)
  | ':' :: rest =>
    let (negated, rest) := match rest with
      | '^' :: rest => (true, rest)
      | rest => (false, rest)
    let (name, rest) := rest.span (· ≠ ':')
    match rest with
    | ':' :: ']' :: rest =>
      (namedSet? (String.ofList name)).map fun set =>
        (.plain (if negated then set.complement else set), rest)
    | _ => none
  | _ => none

def item? : List Char → Option (Escape × List Char)
  | [] => none
  | '\\' :: rest => escape? rest
  | c :: rest => some (.literal c, rest)

def Escape.toSet? : Escape → Option CharSet
  | .literal c => some (.single c)
  | .set s => some (.plain s)
  | .guard _ => none

def rangeItem? (text : List Char) : Option (CharSet × List Char) := do
  let (first, rest) ← item? text
  match rest with
  | [] => none
  | '-' :: next :: _ =>
    if next = ']' ∨ next = '-' then
      let set ← first.toSet?
      some (set, rest)
    else
      let (second, after) ← item? (rest.drop 1)
      match first, second with
      | .literal low, .literal high =>
        if low ≤ high then some (.plain (.between low high), after) else none
      | _, _ => none
  | ['-'] => none
  | _ =>
    let set ← first.toSet?
    some (set, rest)

/-- What a class has read: the operation that waits for its right side, and the items of the union in
progress, the last one first. -/
structure ClassDraft where
  pending : Option (SetOperation × CharSet) := none
  items : List CharSet := []

namespace ClassDraft

def add (d : ClassDraft) (set : CharSet) : ClassDraft := { d with items := set :: d.items }

def close (d : ClassDraft) : CharSet :=
  let union := CharSet.ofItems d.items.reverse
  match d.pending with
  | none => union
  | some (op, left) => .combined op left union

/-- Begins the right side of an operation; operations associate to the left. -/
def operate (d : ClassDraft) (op : SetOperation) : ClassDraft :=
  { pending := some (op, d.close) }

end ClassDraft

/-- Hyphens at the beginning of a class are literal, and so is a bracket that comes first. -/
def classLead (text : List Char) : ClassDraft × List Char :=
  match text.span (· == '-') with
  | ([], ']' :: rest) => (({} : ClassDraft).add (.single ']'), rest)
  | (hyphens, rest) => ({ items := hyphens.map .single }, rest)

mutual

/-- A bracketed class; the text begins right after its opening bracket. -/
def class? : Nat → List Char → Option (CharSet × List Char)
  | 0, _ => none
  | fuel + 1, '^' :: rest => do
    let (draft, rest) := classLead rest
    let (set, rest) ← classItems? fuel draft rest
    some (.bracketed true set, rest)
  | fuel + 1, text => do
    let (draft, rest) := classLead text
    let (set, rest) ← classItems? fuel draft rest
    some (.bracketed false set, rest)

def classItems? : Nat → ClassDraft → List Char → Option (CharSet × List Char)
  | 0, _, _ => none
  | _ + 1, _, [] => none
  | _ + 1, draft, ']' :: rest => some (draft.close, rest)
  | fuel + 1, draft, '[' :: rest =>
    match named? rest with
    | some (set, rest) => classItems? fuel (draft.add set) rest
    | none => do
      let (set, rest) ← class? fuel rest
      classItems? fuel (draft.add set) rest
  | fuel + 1, draft, '&' :: '&' :: rest => classItems? fuel (draft.operate .intersection) rest
  | fuel + 1, draft, '-' :: '-' :: rest => classItems? fuel (draft.operate .difference) rest
  | fuel + 1, draft, '~' :: '~' :: rest =>
    classItems? fuel (draft.operate .symmetricDifference) rest
  | fuel + 1, draft, text => do
    let (set, rest) ← rangeItem? text
    classItems? fuel (draft.add set) rest

end

/-! ## Repetition -/

/-- A decimal number below `2 ^ 32`, with optional blanks around it. -/
def count? (text : List Char) : Option Nat × List Char :=
  let text := text.dropWhile Text.isBlank
  let (digits, rest) := text.span Char.isDigit
  let rest := rest.dropWhile Text.isBlank
  let value : Nat := digits.foldl (fun n c => 10 * n + (c.toNat - 48)) 0
  (if digits.isEmpty || decide (Nat.pow 2 32 ≤ value) then none else some value, rest)

def closeBrace? : List Char → Option (List Char)
  | c :: rest => if c = Char.ofNat 0x7d then some rest else none
  | [] => none

/-- The bounds of a counted repetition; the text begins right after its opening brace. -/
def bounds? (text : List Char) : Option ((Nat × Option Nat) × List Char) := do
  let (least, rest) := count? text
  match rest with
  | ',' :: rest =>
    match closeBrace? rest with
    | some after => some ((← least, none), after)
    | none =>
      let least ← least
      let (most, rest) := count? rest
      let most ← most
      let after ← closeBrace? rest
      if least ≤ most then some ((least, some most), after) else none
  | rest =>
    let least ← least
    let after ← closeBrace? rest
    some ((least, some least), after)

def operator? : List Char → Option (Option ((Nat × Option Nat) × List Char))
  | '*' :: rest => some (some ((0, none), rest))
  | '+' :: rest => some (some ((1, none), rest))
  | '?' :: rest => some (some ((0, some 1), rest))
  | c :: rest => if c = Char.ofNat 0x7b then (bounds? rest).map some else some none
  | [] => some none

/-- The mark of a lazy repetition, if there is one: is the repetition greedy, and what follows? -/
def greed : List Char → Bool × List Char
  | '?' :: rest => (false, rest)
  | text => (true, text)

/-! ## Groups and the whole expression -/

def isNameChar (c : Char) : Bool :=
  c == '_' || c == '.' || c == '[' || c == ']' || (c.isAlphanum)

/-- The name of a group, up to its closing angle bracket. -/
def groupName? (text : List Char) : Option (List Char) :=
  let (name, rest) := text.span (· ≠ '>')
  match name, rest with
  | first :: _, '>' :: rest =>
    if (first == '_' || first.isAlpha) && name.all isNameChar then some rest else none
  | _, _ => none

/-- Does a group capture, and where does its body begin? The text begins right after the opening
parenthesis. Look-around and flags are refused. -/
def groupBody? : List Char → Option (Bool × List Char)
  | '?' :: ':' :: rest => some (false, rest)
  | '?' :: 'P' :: '<' :: rest => (groupName? rest).map fun rest => (true, rest)
  | '?' :: '<' :: rest => (groupName? rest).map fun rest => (true, rest)
  | '?' :: _ => none
  | rest => some (true, rest)

def anyCharacter : CharSet := .plain (CharRanges.single '\n').complement

mutual

def branches? : Nat → List Char → Option (List Regex × List Char)
  | 0, _ => none
  | fuel + 1, text => do
    let (first, rest) ← sequence? fuel [] text
    match rest with
    | '|' :: rest =>
      let (others, rest) ← branches? fuel rest
      some (first :: others, rest)
    | rest => some ([first], rest)

/-- One branch; `done` holds the expressions read so far, the last one first. -/
def sequence? : Nat → List Regex → List Char → Option (Regex × List Char)
  | 0, _, _ => none
  | _ + 1, done, [] => some (ofSequence done.reverse, [])
  | _ + 1, done, '|' :: rest => some (ofSequence done.reverse, '|' :: rest)
  | _ + 1, done, ')' :: rest => some (ofSequence done.reverse, ')' :: rest)
  | fuel + 1, done, '(' :: rest => do
    let (captures, body) ← groupBody? rest
    let (branches, rest) ← branches? fuel body
    match rest with
    | ')' :: rest => sequence? fuel (.group captures (ofBranches branches) :: done) rest
    | _ => none
  | fuel + 1, done, '[' :: rest => do
    let (set, rest) ← class? fuel rest
    sequence? fuel (.one set :: done) rest
  | fuel + 1, done, '.' :: rest => sequence? fuel (.one anyCharacter :: done) rest
  | fuel + 1, done, '^' :: rest => sequence? fuel (.guard .start :: done) rest
  | fuel + 1, done, '$' :: rest => sequence? fuel (.guard .finish :: done) rest
  | fuel + 1, done, '\\' :: rest => do
    let (escape, rest) ← escape? rest
    let r : Regex := match escape with
      | .literal c => .one (.single c)
      | .set s => .one (.plain s)
      | .guard g => .guard g
    sequence? fuel (r :: done) rest
  | fuel + 1, done, c :: rest => do
    match ← operator? (c :: rest) with
    | some ((least, most), rest) =>
      match done with
      | [] => none
      | r :: done =>
        let (greedy, rest) := greed rest
        sequence? fuel (.repeated r least most greedy :: done) rest
    | none => sequence? fuel (.one (.single c) :: done) rest

end

/-- Reads an expression that does not nest too deep. Every call passes at least one character or ends a
branch, so twice the length of the text is fuel enough. -/
def parse? (text : String) : Option Regex :=
  let chars := text.toList
  match branches? (2 * chars.length + 2) chars with
  | some (branches, []) =>
    let r := ofBranches branches
    if r.depth ≤ nestingLimit then some r else none
  | _ => none

end JsonSieve.Regex
