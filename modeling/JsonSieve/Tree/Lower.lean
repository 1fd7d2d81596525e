import JsonSieve.Tree.Conjunct
import JsonSieve.Tree.Draft

/-!
# From constraints to trees

Every frame checks one value and begins before the first token of the value.

* Choices on the whole value are decided first: each runs its parts as frames of a split over the
  coming value and compares how many accept.
* Then the token is read and its kind selects the arm of its type.
* In an arm the first token has been read; choices inside an arm push it back, run their splits and
  read it again.
* Objects and arrays loop over their members and items; the values inside are left to frames of their
  own, called or run ahead in splits.

The functions below take `build`, which makes the frames for the constraints inside; `frameWithin`
closes the circle. Constraints inside weigh less than the constraint of the frame, so the weight of a
constraint bounds how deep its frames nest.
-/

namespace JsonSieve.Constraint

open Draft

variable [Regex.Engine]

def bitvecWidth : Nat := 64

/-- Cuts a list into pieces that fit a bit vector. -/
def chunked {α : Type} (list : List α) : List (List α) := go list.length list
where
  go : Nat → List α → List (List α)
    | 0, _ => []
    | n + 1, list =>
      if list.isEmpty then []
      else list.take bitvecWidth :: go n (list.drop bitvecWidth)

/-- Declares bit vectors that hold one bit per entry of the list and gives the number of the first
one; they are numbered one after another. -/
def bitvecsFor {α : Type} (name : String) (list : List α) : Lowering Nat := fun d =>
  match (chunked list).mapM (fun piece => bitvec name piece.length) d with
  | .ok (_, d') => .ok (d.bitvecs, d')
  | .error e => .error e

def bitAt (base i : Nat) : Nat × Nat := (base + i / bitvecWidth, i % bitvecWidth)

def firstToken : ValueType → Expr
  | .null => .isToken .null
  | .boolean => .or (.isToken .true) (.isToken .false)
  | .number => .isToken .number
  | .string => .isToken .string
  | .object => .isToken .objectBegin
  | .array => .isToken .arrayBegin

def countChecks (value : Expr) (range : CountRange) (short long : Reason) : List Stmt :=
  (if range.min = 0 then []
    else [.rejectIf (.compare .lt value (.size range.min)) short])
  ++ (match range.max with
    | none => []
    | some max => [.rejectIf (.compare .gt value (.size max)) long])

/-! ## Numbers and strings -/

def rangeChecks (range : NumRange) : List Stmt :=
  (match range.min with
    | none => []
    | some min =>
      let below : Comparison := if range.exclusiveMin then .le else .lt
      [.rejectIf (.compare below .tokenNumber (.num min)) .numberOutOfRange])
  ++ (match range.max with
    | none => []
    | some max =>
      let above : Comparison := if range.exclusiveMax then .ge else .gt
      [.rejectIf (.compare above .tokenNumber (.num max)) .numberOutOfRange])

def numberChecks : Constraint → List Stmt
  | .integer => [.rejectIf (.not (.isInteger .tokenNumber)) .notInteger]
  | .multipleOf d => [.rejectIf (.not (.isMultiple .tokenNumber d)) .notMultiple]
  | .numRange range => rangeChecks range
  | _ => []

def stringChecks : Constraint → Lowering (List Stmt)
  | .length range => pure (countChecks .tokenLength range .lengthTooShort .lengthTooLong)
  | .pattern source => do
    let m ← quietly (Matcher.build [.regex source])
    let id ← matcher m
    pure [.dispatch id [(1, .nop)] (.invalid .patternMismatch)]
  | _ => pure []

section Frames

variable (build : Constraint → Except BadPattern Stmt)

/-- The coming value under a constraint: it is skipped, rejected, or left to a frame. -/
def valueAction (c : Constraint) (reject : Reason) : Except BadPattern Stmt :=
  match c.conjuncts none with
  | none => .ok (.invalid reject)
  | some [] => .ok (.seq [.token, .consume])
  | some _ => .frame <$> build c

/-- Checks the coming value without reading it. A value that fails is then checked for real, so that
the failure has the reason of the constraint. -/
def checkAhead (c : Constraint) (reject : Reason) : Lowering Stmt :=
  match c.conjuncts none with
  | none => pure (.invalid reject)
  | some [] => pure .nop
  | some _ => do
    let ahead ← quietly (build c)
    let s ← split [ahead]
    let again ← quietly (build c)
    pure (.ite (.compare .eq (.split s) (.size 0))
      (.seq [.frame again, .invalid reject]) .nop)

/-- The condition of a choice. Inside an arm its parts speak about values of the arm's type. -/
def choiceCondition (type : Option ValueType) (choice : Choice) : Lowering Expr := do
  let part (c : Constraint) : Constraint := match type with
    | some t => only t c
    | none => c
  let frames ← quietly (choice.parts.mapM fun c => build (part c))
  let s ← split frames
  pure (.compare choice.comparison (.split s) (.size choice.bound))

def choiceChecks (type : Option ValueType) (choices : List Choice) : Lowering (List Stmt) :=
  choices.mapM fun choice => do
    let condition ← choiceCondition build type choice
    pure (.rejectIf (.not condition) .invalidSplitCondition)

/-! ## Objects -/

structure ObjectLeaves where
  /-- Rules and the constraint for all other names, of each group of rules. -/
  groups : List (List (NamePattern × Constraint) × Constraint)
  counts : List CountRange
  /-- Required names, each of them once. -/
  required : List String

def ObjectLeaves.of (leaves : List Constraint) : ObjectLeaves where
  groups := leaves.filterMap fun
    | .properties rules additional => some (rules, additional)
    | _ => none
  counts := leaves.filterMap fun
    | .propertyCount range => some range
    | _ => none
  required := (leaves.flatMap fun
    | .required names => names
    | _ => []).eraseDups

/-- The patterns by which members are told apart: those of the rules, then the required names. -/
def ObjectLeaves.patterns (l : ObjectLeaves) : List NamePattern :=
  (l.groups.flatMap (fun (rules, _) => rules.map (·.1))
    ++ l.required.map NamePattern.literal).eraseDups

/-- The constraints for a member: of every group the rules that apply, or else the constraint for
all other names. -/
def ObjectLeaves.applying (l : ObjectLeaves) (applies : NamePattern → Bool) : List Constraint :=
  l.groups.flatMap fun (rules, additional) =>
    match rules.filter fun (p, _) => applies p with
    | [] => [additional]
    | chosen => chosen.map (·.2)

/-- What is done for a member whose name matches just the patterns that apply; `mask` is the first
bit vector of the required names. -/
def memberBody (l : ObjectLeaves) (mask : Nat) (applies : NamePattern → Bool) :
    Except BadPattern Stmt := do
  let marks := (l.required.zipIdx.filter fun (name, _) => applies (.literal name)).map
    fun (_, i) => let (bv, bit) := bitAt mask i; Stmt.bitSet bv bit
  let action ← valueAction build (conjunction (l.applying applies)) .badPropertyName
  pure (.seq (marks ++ [action]))


/-- Sets the bit of every regular expression by whether it matches the name; `mask` is the first bit
vector of the expressions, and `i` counts them. -/
def nameBits (mask : Nat) : Nat → List NamePattern → Lowering (List Stmt)
  | _, [] => pure []
  | i, expression :: rest => do
    let m ← quietly (Matcher.build [expression])
    let id ← matcher m
    let (bv, bit) := bitAt mask i
    let others ← nameBits mask (i + 1) rest
    pure (.dispatch id [(1, .bitSet bv bit)] (.bitClear bv bit) :: others)

def nameBit (mask i : Nat) : Expr :=
  let (bv, bit) := bitAt mask i
  .bitTest bv bit

def anyOfThem : List Expr → Option Expr
  | [] => none
  | e :: es => some (es.foldl .or e)

/-- The constraint of a group for all other names, where no rule of the group applies. -/
def additionalCheck (expressions : List NamePattern) (mask : Nat)
    (group : List (NamePattern × Constraint) × Constraint) : Lowering (List Stmt) := do
  let check ← checkAhead build group.2 .badPropertyName
  if check.isNop then pure []
  else
    let bits := group.1.filterMap fun (p, _) =>
      (expressions.findIdx? (· = p)).map (nameBit mask)
    match anyOfThem bits with
    | some applies => pure [.ite applies .nop check]
    | none => pure [check]

/-- The rules of one regular expression in all groups; `i` counts the expressions. -/
def expressionChecks (l : ObjectLeaves) (mask : Nat) : Nat → List NamePattern →
    Lowering (List Stmt)
  | _, [] => pure []
  | i, expression :: rest => do
    let rules := l.groups.flatMap fun (rules, _) => rules.filter fun (p, _) => p = expression
    let check ← checkAhead build (conjunction (rules.map (·.2))) .badPropertyName
    let others ← expressionChecks l mask (i + 1) rest
    if check.isNop then pure others
    else pure (.ite (nameBit mask i) check .nop :: others)

/-- What is done for a member whose name is no literal and may match any number of regular
expressions: each of them sets a bit, each rule that applies checks the value ahead, and then the
value is skipped. -/
def mixedMember (l : ObjectLeaves) (expressions : List NamePattern) : Lowering Stmt := do
  let mask ← bitvecsFor "name_match" expressions
  let bits ← nameBits mask 0 expressions
  let additional ← l.groups.mapM (additionalCheck build expressions mask)
  let rules ← expressionChecks build l mask 0 expressions
  pure (.seq (bits ++ additional.flatten ++ rules ++ [.token, .consume]))

def caseBodies (l : ObjectLeaves) (mask : Nat) (m : Matcher) :
    Nat → List (List UInt32) → Except BadPattern (List (UInt32 × Stmt))
  | _, [] => .ok []
  | k, set :: rest => do
    let body ← memberBody build l mask (m.patternsAt set).contains
    let others ← caseBodies l mask m (k + 1) rest
    pure ((Word.saturate k, body) :: others)

def isExpression : NamePattern → Bool
  | .regex _ => true
  | .literal _ => false

def onMember (l : ObjectLeaves) (mask : Nat) : Lowering Stmt :=
  if l.patterns.isEmpty then quietly (memberBody build l mask fun _ => false)
  else do
    let m ← quietly (Matcher.build l.patterns)
    let cases ← quietly (caseBodies build l mask m 1 m.cases)
    let expressions := l.patterns.filter isExpression
    let otherwise ←
      if 1 < expressions.length then mixedMember build l expressions
      else quietly (memberBody build l mask fun _ => false)
    let id ← matcher m
    pure (.dispatch id cases otherwise)

def untilEnd (loop : Nat) (name : String) (final : Token.Kind) (body : List Stmt) : Stmt :=
  .loop loop name (.seq [.token, .ite (.isToken final) (.leave loop) (.seq body)])

def objectChecks (leaves : List Constraint) : Lowering (List Stmt) := do
  let l := ObjectLeaves.of leaves
  let count ← if l.counts.isEmpty then pure none else some <$> counter "num_props"
  let mask ← bitvecsFor "reqmask" l.required
  let member ← onMember build l mask
  let body := (count.map Stmt.incr).toList ++ [member]
  let loop ← loop
  let counts := match count with
    | none => []
    | some c => l.counts.flatMap fun range =>
      countChecks (.count c) range .tooFewProperties .tooManyProperties
  let masks := (List.range (chunked l.required).length).map fun i =>
    Stmt.rejectIf (.not (.bitsAll (mask + i))) .missingRequiredProperties
  pure (untilEnd loop "props" .objectEnd body :: counts ++ masks)

/-! ## Arrays -/

structure ArrayLeaves where
  items : List (List Constraint × Constraint)
  counts : List CountRange
  unique : Bool
  contains : List Constraint

def ArrayLeaves.of (leaves : List Constraint) : ArrayLeaves where
  items := leaves.filterMap fun
    | .items tuple additional => some (tuple, additional)
    | _ => none
  counts := leaves.filterMap fun
    | .itemCount range => some range
    | _ => none
  unique := leaves.any fun
    | .uniqueItems => true
    | _ => false
  contains := leaves.filterMap fun
    | .contains part => some part
    | _ => none

/-- Runs the frames of one piece of the `contains` constraints on an item and keeps the bits of those
that accept. Gives the statements, the bit vector and its size. -/
def containsPiece (piece : List Constraint) : Lowering (List Stmt × Nat × Nat) := do
  let frames ← quietly (piece.mapM build)
  let kept ← bitvec "contains" piece.length
  let scratch ← bitvec "contains_split" piece.length
  let s ← split frames
  let keep (bit : Nat) : Stmt := .ite (.bitTest scratch bit) (.bitSet kept bit) .nop
  pure (.splitBits scratch s :: (List.range piece.length).map keep, kept, piece.length)

/-- Selects the action for an item by its position, which the counter holds; entries are given with
their positions, the last one first. -/
def selectItem (count : Nat) (action : Stmt) :
    List (Constraint × Nat) → Except BadPattern Stmt
  | [] => .ok action
  | (entry, i) :: rest => do
    let this ← valueAction build entry .unexpectedToken
    selectItem count (.ite (.compare .eq (.count count) (.size (i + 1))) this action) rest

def arrayChecks (leaves : List Constraint) : Lowering (List Stmt) := do
  let l := ArrayLeaves.of leaves
  let (tuple, additional) := mergeItems l.items
  let count ←
    if l.counts.isEmpty && tuple.isEmpty then pure none else some <$> counter "num_items"
  let distinct ←
    if l.unique then do
      let u ← unique
      pure [Stmt.rejectIf (.not (.unique u)) .arrayNotUnique]
    else pure []
  let pieces ← (chunked l.contains).mapM (containsPiece build)
  let last ← quietly (valueAction build additional .tooManyItems)
  let action ← match count with
    | none => pure last
    | some c => quietly (selectItem build c last tuple.zipIdx.reverse)
  let body := .untoken :: distinct ++ pieces.flatMap (·.1) ++ (count.map Stmt.incr).toList ++ [action]
  let loop ← loop
  let counts := match count with
    | none => []
    | some c => l.counts.flatMap fun range =>
      countChecks (.count c) range .tooFewItems .tooManyItems
  let found := pieces.map fun (_, kept, size) =>
    Stmt.rejectIf (.compare .ne (.bitCount kept) (.size size)) .containsUnsatisfied
  pure (untilEnd loop "items" .arrayEnd body :: counts ++ found)

/-! ## Frames -/

def leafChecks (type : ValueType) (leaves : List Constraint) : Lowering (List Stmt) :=
  match type with
  | .null | .boolean => pure []
  | .number => pure (leaves.flatMap numberChecks)
  | .string => List.flatten <$> leaves.mapM stringChecks
  | .object => objectChecks build leaves
  | .array => arrayChecks build leaves

/-- The arm of a type, given the parts of its constraint; the first token of the value has been
read. -/
def arm (type : ValueType) (parts : List Constraint) : Lowering Stmt := do
  let choices := parts.filterMap choice?
  let leaves := parts.filter fun c => !c.isCombinator
  let ahead ←
    if choices.isEmpty then pure []
    else do
      let checks ← choiceChecks build (some type) choices
      pure (.untoken :: checks ++ [.token])
  let checks ←
    if leaves.isEmpty then pure (if type.isContainer then [.consume] else [])
    else leafChecks build type leaves
  pure (.seq (ahead ++ checks ++ [.valid]))

/-- Selects the arm of the current token among the given types; types whose constraint allows
nothing have no arm. -/
def selectArm (arms : ValueType → Constraint) : List ValueType → Lowering Stmt
  | [] => pure (.invalid .unexpectedToken)
  | type :: types =>
    match (arms type).conjuncts (some type) with
    | none => selectArm arms types
    | some parts => do
      let this ← arm build type parts
      let others ← selectArm arms types
      pure (.ite (firstToken type) this others)

def frameBody (c : Constraint) : Lowering Stmt :=
  match c.conjuncts none with
  | none => pure (.invalid .unexpectedToken)
  | some parts => do
    let outline := Outline.ofParts parts
    let checks ← choiceChecks build none outline.choices
    match outline.arms with
    | none => pure (.seq (checks ++ [.token, .consume, .valid]))
    | some arms => do
      let selected ← selectArm build arms ValueType.all
      pure (.seq (checks ++ [.token, selected]))

end Frames

/-- The frame of a constraint, nested less than `fuel` levels deep. -/
def frameWithin : Nat → Constraint → Except BadPattern Stmt
  | 0, _ => .ok (.invalid .unexpectedToken)
  | fuel + 1, c => finish (frameBody (frameWithin fuel) c)

def frame (c : Constraint) : Except BadPattern Stmt := frameWithin (c.weight + 1) c

/-- The tree program of a constraint: its frame is the entry, all others are nested in it. -/
def toTree (c : Constraint) : Except BadPattern Tree := (fun s => [s]) <$> c.frame

end JsonSieve.Constraint
