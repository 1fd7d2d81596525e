import Mathlib.Logic.Function.Basic
import JsonSieve.Assembly.OfFlat
import JsonSieve.Machine.Step

/-!
# Running statements

What expressions and simple statements mean, told over the tokens that are still to come. A `Position` is
where reading stands, a `State` is what one activation of a frame knows, and an `Outcome` is how an
activation ends. Nothing is said about blocks, slots or buffers here. `Running.Tree` and `Running.Graph`
run trees and graphs on top of this, so that both read numbers, conditions and simple statements in the
same way.

A number is a mathematical integer or a binary64 number; comparing one of each converts the integer. What
is neither a number nor a condition, such as a comparison of a comparison, has no meaning: it goes wrong,
and so does naming something that is not declared or pushing back a token twice.
-/

namespace JsonSieve.Running

/-! ## Positions -/

structure Position where
  current : Token
  /-- The token that can be pushed back. -/
  last : Option Token
  coming : List Token
  /-- Is the text bad behind the tokens that come? Otherwise it ends there. -/
  broken : Bool
  deriving DecidableEq

/-- The tokens that come when a token is pushed back. What is read behind the end is not kept. -/
def pushed : Token → List Token → List Token
  | .none, coming => coming
  | t, coming => t :: coming

/-- The token that closes the last of `depth` containers, and what comes behind it; `none` where the text
is bad. The end of the text closes all containers. -/
def passed (broken : Bool) : Nat → List Token → Option (Token × List Token)
  | _, [] => if broken then none else some (.none, [])
  | depth, t :: rest =>
    if Machine.openAfter t.kind depth = 0 then some (t, rest)
    else passed broken (Machine.openAfter t.kind depth) rest

/-- What is found when a coming value is looked at. -/
inductive Look where
  | value (text : String)
  | badText
  | nothing

/-- The value with which tokens go on, behind the beginnings of containers. -/
def look [NumberText] (broken : Bool) : List Machine.Partial → List Token → Look
  | _, [] => if broken then .badText else .nothing
  | stack, t :: rest =>
    match Machine.Reading.step stack t with
    | .more stack => look broken stack rest
    | .value v => .value v
    | .bad => .nothing

namespace Position

/-- Behind one more token; `none` where the text is bad. Behind the end there are only empty tokens. -/
def read? (p : Position) : Option Position :=
  match p.coming with
  | t :: rest => some { p with current := t, last := some t, coming := rest }
  | [] => if p.broken then none else some { p with current := .none, last := some .none }

/-- In front of the last token, if that can be pushed back. -/
def unread? (p : Position) : Option Position :=
  p.last.map fun t => { p with last := none, coming := pushed t p.coming }

/-- Behind the value that begins with the current token; `none` where the text is bad. -/
def skip? (p : Position) : Option Position :=
  if p.current.kind.opens then
    (passed p.broken 1 p.coming).map fun (t, rest) => { p with last := some t, coming := rest }
  else some p

def ahead (p : Position) : Look := look p.broken [] p.coming

end Position

/-! ## States -/

structure State where
  position : Position
  counts : Nat → Int64
  words : Nat → Int64
  seen : Nat → ValueSet
  temps : Nat → Option Int64

namespace State

def start (temp : Option Int64) (p : Position) : State where
  position := p
  counts _ := 0
  words _ := 0
  seen _ := .empty
  temps _ := temp

def moveTo (p : Position) (σ : State) : State := { σ with position := p }

def setCount (c : Nat) (w : Int64) (σ : State) : State :=
  { σ with counts := Function.update σ.counts c w }

def setWord (bv : Nat) (w : Int64) (σ : State) : State :=
  { σ with words := Function.update σ.words bv w }

def setTemp (t : Nat) (w : Int64) (σ : State) : State :=
  { σ with temps := Function.update σ.temps t (some w) }

def mark (u : Nat) (text : String) (σ : State) : State :=
  if (σ.seen u).contains text then σ
  else { σ with seen := Function.update σ.seen u ((σ.seen u).insert text) }

end State

/-! ## Runs -/

inductive Outcome where
  | valid (p : Position)
  | invalid (reason : Reason) (p : Position)
  | badText
  | noValue
  | wrong
  deriving DecidableEq

/-- What a run has come to: a result, the end of the activation, or the end of its fuel. -/
inductive Run (α : Type) where
  | result (a : α)
  | ends (o : Outcome)
  | running

namespace Run

variable {α β : Type}

def bind : Run α → (α → Run β) → Run β
  | .result a, k => k a
  | .ends o, _ => .ends o
  | .running, _ => .running

instance : Monad Run where
  pure := .result
  bind := bind

instance : LawfulMonad Run :=
  LawfulMonad.mk' Run (fun r => by cases r <;> rfl) (fun _ _ => rfl) (fun r _ _ => by cases r <;> rfl)

@[simp] theorem pure_eq (a : α) : (pure a : Run α) = .result a := rfl

@[simp] theorem result_bind (a : α) (k : α → Run β) : (Run.result a >>= k) = k a := rfl

@[simp] theorem ends_bind (o : Outcome) (k : α → Run β) : (Run.ends o >>= k) = .ends o := rfl

@[simp] theorem running_bind (k : α → Run β) : (Run.running >>= k) = .running := rfl

def wrong : Run α := .ends .wrong

def ofOption (otherwise : Outcome) : Option α → Run α
  | some a => .result a
  | none => .ends otherwise

end Run

/-- The activation of a nested frame, seen from the one around it. -/
def resume : Option Outcome → Run Position
  | some (.valid p) => .result p
  | some o => .ends o
  | none => .running

def poll (p : Position) : List (Position → Option Outcome) → Run (List Bool)
  | [] => .result []
  | branch :: branches =>
    match branch p with
    | some (.valid _) => (true :: ·) <$> poll p branches
    | some (.invalid ..) => (false :: ·) <$> poll p branches
    | some o => .ends o
    | none => .running

def ballot : Option Outcome → Run Bool
  | some (.valid _) => .result true
  | some (.invalid ..) => .result false
  | some o => .ends o
  | none => .running

theorem poll_cons (p : Position) (branch : Position → Option Outcome)
    (branches : List (Position → Option Outcome)) : poll p (branch :: branches) = (do
      let vote ← ballot (branch p)
      let votes ← poll p branches
      pure (vote :: votes)) := by
  rw [poll]
  rcases branch p with _ | _ | _ | _ | _ | _ <;> rfl

theorem length_of_poll {p : Position} {branches : List (Position → Option Outcome)} {votes : List Bool}
    (h : poll p branches = .result votes) : votes.length = branches.length := by
  induction branches generalizing votes with
  | nil =>
    cases h
    rfl
  | cons branch branches ih =>
    rw [poll_cons] at h
    cases hballot : ballot (branch p) with
    | result vote =>
      cases hpoll : poll p branches with
      | result rest =>
        rw [hballot, hpoll] at h
        cases h
        rw [List.length_cons, List.length_cons, ih hpoll]
      | ends | running =>
        rw [hballot, hpoll] at h
        cases h
    | ends | running =>
      rw [hballot] at h
      cases h

/-- What the statements of a frame refer to. -/
structure Setting where
  matcher : Nat → Option Matcher
  size : Nat → Option Nat
  branches : Nat → Option (List (Position → Option Outcome))

/-- Which branches of a split list accept what comes. -/
def Setting.votes (e : Setting) (i : Nat) (p : Position) : Run (List Bool) := do
  let branches ← Run.ofOption .wrong (e.branches i)
  poll p branches

/-- The word whose bits tell which branches of a split accept, the first one at bit `i`. -/
def votesWord : Nat → List Bool → Int64 → Int64
  | _, [], w => w
  | i, vote :: votes, w => votesWord (i + 1) votes (if vote then w ||| Machine.bitWord i else w)

/-! ## Expressions -/

inductive Number where
  | int (i : Int)
  | real (x : Binary64)

namespace Number

def word (w : Int64) : Number := .int w.toInt

def toReal : Number → Binary64
  | .int i => .ofInt64 (Int64.ofInt i)
  | .real x => x

def toWord? : Number → Option Int64
  | .int i => some (Int64.ofInt i)
  | .real _ => none

def compare (c : Comparison) : Number → Number → Bool
  | .int i, .int j => c.holds (fun i j => decide (i < j)) (· == ·) i j
  | x, y => c.real x.toReal y.toReal

theorem toWord?_word (w : Int64) : (word w).toWord? = some w := by
  rw [word, toWord?, Int64.ofInt_toInt]

end Number

theorem compare_int (c : Comparison) (v w : Int64) : (Number.word v).compare c (Number.word w) = c.word v w := by
  have hlt : ∀ v w : Int64, decide (v.toInt < w.toInt) = decide (v < w) := fun v w => by
    rw [decide_eq_decide, Int64.lt_iff_toInt_lt]
  have heq : ∀ v w : Int64, (v.toInt == w.toInt) = (v == w) := fun v w => by
    rw [Bool.eq_iff_iff, beq_iff_eq, beq_iff_eq, Int64.toInt_inj]
  cases c <;> simp only [Number.word, Number.compare, Comparison.word, Comparison.holds, hlt, heq]

theorem compare_size (c : Comparison) (m n : Nat) : (Number.int m).compare c (Number.int n) = c.nat m n := by
  have heq : ∀ m n : Nat, ((m : Int) == n) = (m == n) := fun m n => by
    rw [Bool.eq_iff_iff, beq_iff_eq, beq_iff_eq, Int.ofNat_inj]
  cases c <;> simp only [Number.compare, Comparison.nat, Comparison.holds, Int.ofNat_lt, heq]

/-- The recognizer of a matcher; if its expressions cannot be searched for, none is found. -/
def recognizerOf [Regex.Engine] (m : Matcher) : Recognizer :=
  m.recognizerWith ((Regex.Engine.compileSet m.sources).toOption.getD fun _ _ => false)

def caseOf [Regex.Engine] (m : Matcher) : Token → UInt32
  | .string text => (recognizerOf m).caseOf text
  | _ => 0

def caseWord (k : UInt32) : Int64 := Int64.ofNat k.toNat

theorem caseWord_inj {k k' : UInt32} : caseWord k = caseWord k' ↔ k = k' := by
  refine ⟨fun h => ?_, fun h => h ▸ rfl⟩
  have hlt := k.toNat_lt
  have hlt' := k'.toNat_lt
  have hint := congrArg Int64.toInt h
  rw [caseWord, caseWord, Int64.toInt_ofNat_of_lt (by omega), Int64.toInt_ofNat_of_lt (by omega)] at hint
  exact UInt32.toNat_inj.1 (by omega)

section

variable [Regex.Engine] (e : Setting)

def number (σ : State) : Expr → Run Number
  | .num x => .result (.real x)
  | .int i => .result (.word i)
  | .size n => .result (.int n)
  | .bool b => .result (.int (if b then 1 else 0))
  | .tokenKind => .result (.int σ.position.current.kind.code)
  | .tokenNumber => .result (.real σ.position.current.numeric)
  | .tokenComplete => .result (.int 1)
  | .tokenLength => .result (.int (min σ.position.current.length (Nat.pow 2 63 - 1) : Nat))
  | .count c => .result (.word (σ.counts c))
  | .bitCount bv => .result (.word (Machine.popCount (σ.words bv)))
  | .split i => do
    let votes ← e.votes i σ.position
    pure (.word (Int64.ofNat (votes.count true)))
  | .matchCase m => do
    let m ← Run.ofOption .wrong (e.matcher m)
    pure (.word (caseWord (caseOf m σ.position.current)))
  | .temp t => do
    let w ← Run.ofOption .wrong (σ.temps t)
    pure (.word w)
  | _ => .wrong

def bit (n : Nat) : Run Int64 := if n < 64 then .result (Machine.bitWord n) else .wrong

/-- Does a condition hold? A condition can mark a value as seen. -/
def test : Expr → State → Run (Bool × State)
  | .bool b, σ => .result (b, σ)
  | .not a, σ => do
    let (holds, σ) ← test a σ
    pure (!holds, σ)
  | .and a b, σ => do
    let (holds, σ) ← test a σ
    if holds then test b σ else pure (false, σ)
  | .or a b, σ => do
    let (holds, σ) ← test a σ
    if holds then pure (true, σ) else test b σ
  | .compare c a b, σ => do
    let a ← number e σ a
    let b ← number e σ b
    pure (a.compare c b, σ)
  | .isToken kind, σ => .result (decide (σ.position.current.kind = kind), σ)
  | .isInteger a, σ => do
    let a ← number e σ a
    pure (a.toReal.isIntegral, σ)
  | .isMultiple a d, σ => do
    let a ← number e σ a
    pure ((a.toReal.div d).isIntegral, σ)
  | .bitTest bv n, σ => do
    let w ← bit n
    pure ((σ.words bv &&& w) != 0, σ)
  | .bitsAll bv, σ => do
    let size ← Run.ofOption .wrong (e.size bv)
    pure (σ.words bv == Assembly.Scope.fullMask size, σ)
  | .bitsAny bv, σ => .result (σ.words bv != 0, σ)
  | .unique u, σ =>
    match σ.position.ahead with
    | .value v => .result (!(σ.seen u).contains v, σ.mark u v)
    | .badText => .ends .badText
    | .nothing => .ends .noValue
  | .temp t, σ => truth (.temp t) σ
  | .tokenComplete, σ => truth .tokenComplete σ
  | .split i, σ => truth (.split i) σ
  | .matchCase m, σ => truth (.matchCase m) σ
  | .bitCount bv, σ => truth (.bitCount bv) σ
  | _, _ => .wrong
where
  truth (a : Expr) (σ : State) : Run (Bool × State) := do
    let a ← number e σ a
    pure (a.compare .ne (.int 0), σ)

theorem test_not (a : Expr) (σ : State) : test e (.not a) σ = (fun p : Bool × State => (!p.1, p.2)) <$> test e a σ := by
  rw [test]
  rfl

/-! ## Simple statements -/

/-- What a statement does that neither branches nor runs a nested frame in place. -/
def act : Stmt → State → Run State
  | .nop, σ => .result σ
  | .token, σ => do
    let p ← Run.ofOption .badText σ.position.read?
    pure (σ.moveTo p)
  | .consume, σ => do
    let p ← Run.ofOption .badText σ.position.skip?
    pure (σ.moveTo p)
  | .untoken, σ => do
    let p ← Run.ofOption .wrong σ.position.unread?
    pure (σ.moveTo p)
  | .incr c, σ => .result (σ.setCount c (σ.counts c + 1))
  | .decr c, σ => .result (σ.setCount c (σ.counts c - 1))
  | .bitSet bv n, σ => do
    let w ← bit n
    pure (σ.setWord bv (σ.words bv ||| w))
  | .bitClear bv n, σ => do
    let w ← bit n
    pure (σ.setWord bv (σ.words bv &&& ~~~ w))
  | .splitBits bv i, σ => do
    let votes ← e.votes i σ.position
    if votes.length ≤ 64 then pure (σ.setWord bv (votesWord 0 votes 0)) else .wrong
  | .move t a, σ => do
    let a ← number e σ a
    let w ← Run.ofOption .wrong a.toWord?
    pure (σ.setTemp t w)
  | _, _ => .wrong

end

end JsonSieve.Running
