import Mathlib.Data.List.Forall2
import JsonSieve.Proofs.Constraint.Inside
import JsonSieve.Proofs.Tree.Legal

/-!
# Lowered constraints

What a constraint is lowered to, without the drafts in between: a relation for each kind of statement that
a frame is made of, over the declarations `D` of the finished frame. Nested frames are told by `build`.
Every step of the lowering gives statements in its relation (`frameBody_gives` at the end), for every
draft to which the draft behind the step can grow. A step fails only if a regular expression cannot be read
or a nested frame cannot be built.
-/

namespace JsonSieve

def NamePattern.Readable [Regex.Engine] : NamePattern → Prop
  | .literal _ => True
  | .regex source => (Regex.Engine.compile? source).isSome

/-! ## Drafts -/

namespace Draft

variable {α β : Type}

variable {d d' : Draft}

theorem bind_eq_ok {x : Lowering α} {f : α → Lowering β} {d'' : Draft} {b : β} :
    (x >>= f) d = .ok (b, d'') ↔ ∃ a d', x d = .ok (a, d') ∧ f a d' = .ok (b, d'') := by
  show (x d >>= fun r => f r.1 r.2) = _ ↔ _
  cases h : x d with
  | error e => exact ⟨nofun, fun ⟨_, _, h', _⟩ => nomatch h'⟩
  | ok r =>
    constructor
    · exact fun h' => ⟨r.1, r.2, rfl, h'⟩
    · rintro ⟨a, d', h', hf⟩
      cases h'
      exact hf

structure Le (d d' : Draft) : Prop where
  decls : ∀ s ∈ d.decls, s ∈ d'.decls
  counters : d.counters ≤ d'.counters
  matchers : d.matchers ≤ d'.matchers
  bitvecs : d.bitvecs ≤ d'.bitvecs
  splits : d.splits ≤ d'.splits
  uniques : d.uniques ≤ d'.uniques

theorem Le.refl (d : Draft) : d.Le d :=
  ⟨fun _ => id, Nat.le_refl _, Nat.le_refl _, Nat.le_refl _, Nat.le_refl _, Nat.le_refl _⟩

theorem Le.trans {a b c : Draft} (h : a.Le b) (h' : b.Le c) : a.Le c :=
  ⟨fun s hs => h'.decls s (h.decls s hs), Nat.le_trans h.counters h'.counters, Nat.le_trans h.matchers h'.matchers,
    Nat.le_trans h.bitvecs h'.bitvecs, Nat.le_trans h.splits h'.splits, Nat.le_trans h.uniques h'.uniques⟩

structure Grows (frame : Stmt → Prop) (d d' : Draft) : Prop where
  le : d.Le d'
  declares : Legal.Declares frame d → Legal.Declares frame d'

theorem Grows.refl (frame : Stmt → Prop) (d : Draft) : Grows frame d d := ⟨.refl d, id⟩

theorem Grows.trans {frame : Stmt → Prop} {a b c : Draft} (h : Grows frame a b)
    (h' : Grows frame b c) : Grows frame a c :=
  ⟨h.le.trans h'.le, fun hd => h'.declares (h.declares hd)⟩

/-- A split list is declared, and its frames are nested in the declaration. -/
def Lists (D : Draft) (i : Nat) (frames : List Stmt) : Prop :=
  i < D.splits ∧ ∀ f ∈ frames, f ∈ Stmt.innerAll D.decls

end Draft

/-! ## Steps that may fail -/

section

variable {ok : Prop} {α β : Type} {step : Except BadPattern α} {P : α → Prop} {Q : β → Prop}

/-- The result is as `P` says. If all is well, there is one. -/
def Fine (ok : Prop) (step : Except BadPattern α) (P : α → Prop) : Prop :=
  match step with
  | .ok a => P a
  | .error _ => ¬ ok

namespace Fine

theorem of_exists (h : ok → ∃ a, step = .ok a) : Fine ok step (step = .ok ·) := by
  cases step with
  | ok a => rfl
  | error e =>
    intro hok
    obtain ⟨a, ha⟩ := h hok
    cases ha

theorem mono {P' : α → Prop} (h : Fine ok step P) (himp : ∀ a, P a → P' a) : Fine ok step P' := by
  cases step with
  | ok a => exact himp a h
  | error e => exact h

theorem map {f : α → β} (h : Fine ok step P) (himp : ∀ a, P a → Q (f a)) : Fine ok (f <$> step) Q := by
  cases step with
  | ok a => exact himp a h
  | error e => exact h

theorem bind {f : α → Except BadPattern β} (h : Fine ok step P) (hf : ∀ a, P a → Fine ok (f a) Q) :
    Fine ok (step >>= f) Q := by
  cases step with
  | ok a => exact hf a h
  | error e => exact h

theorem mapM {f : α → Except BadPattern β} {R : α → β → Prop} {list : List α}
    (h : ∀ a ∈ list, Fine ok (f a) (R a)) : Fine ok (list.mapM f) (List.Forall₂ R list) := by
  induction list with
  | nil => exact .nil
  | cons a list ih =>
    rw [List.mapM_cons]
    exact (h a (.head _)).bind fun b hb => (ih fun a ha => h a (.tail _ ha)).bind fun bs hbs => .cons hb hbs

end Fine

end

namespace Matcher

variable {patterns : List NamePattern}

theorem mem_expressions {start : Nat} {e : UInt32 × String} (h : e ∈ expressions start patterns) :
    .regex e.2 ∈ patterns := by
  induction patterns generalizing start with
  | nil => cases h
  | cons p rest ih =>
    cases p with
    | literal name => exact .tail _ (ih h)
    | regex source =>
      rcases List.mem_cons.1 h with rfl | h
      · exact .head _
      · exact .tail _ (ih h)

variable [Regex.Engine]

theorem exists_compileEach {list : List (UInt32 × String)}
    (h : ∀ e ∈ list, (Regex.Engine.compile? e.2).isSome) : ∃ compiled, compileEach list = .ok compiled := by
  induction list with
  | nil => exact ⟨[], rfl⟩
  | cons e rest ih =>
    obtain ⟨compiled, hcompiled⟩ := ih fun e he => h e (.tail _ he)
    obtain ⟨isMatch, hmatch⟩ := Option.isSome_iff_exists.1 (h e (.head _))
    exact ⟨(e.1, isMatch) :: compiled, by simp only [compileEach, hmatch, hcompiled]; rfl⟩

theorem exists_build (h : ∀ p ∈ patterns, p.Readable) : ∃ m, build patterns = .ok m := by
  obtain ⟨compiled, hcompiled⟩ : ∃ compiled, compileEach (expressions 0 patterns.eraseDups) = .ok compiled :=
    exists_compileEach fun e he => h _ (List.mem_eraseDups.1 (mem_expressions he))
  unfold build
  simp only [hcompiled]
  exact ⟨_, rfl⟩

end Matcher

namespace Draft

section

variable {frame : Stmt → Prop} {ok : Prop} {α β : Type} {x : Lowering α} {P : Draft → α → Prop}
  {Q : Draft → β → Prop}

/-- The draft grows, and the result is as `P` says for every draft to which it can grow on. -/
def Gives (frame : Stmt → Prop) (ok : Prop) (x : Lowering α) (P : Draft → α → Prop) : Prop :=
  ∀ d, Fine ok (x d) fun r => Grows frame d r.2 ∧ ∀ D, r.2.Le D → P D r.1

namespace Gives

theorem pure {a : α} (h : ∀ D, P D a) : Gives frame ok (pure a) P := fun d => ⟨.refl _ d, fun D _ => h D⟩

theorem bind {f : α → Lowering β} (hx : Gives frame ok x P)
    (hf : ∀ a, Gives frame ok (f a) fun D b => P D a → Q D b) : Gives frame ok (x >>= f) Q := fun d =>
  (hx d).bind fun r hr => (hf r.1 r.2).mono fun _ hr' =>
    ⟨hr.1.trans hr'.1, fun D hD => hr'.2 D hD (hr.2 D (hr'.1.le.trans hD))⟩

theorem mono {P' : Draft → α → Prop} (h : Gives frame ok x P) (himp : ∀ D a, P D a → P' D a) :
    Gives frame ok x P' := fun d =>
  (h d).mono fun r hr => ⟨hr.1, fun D hD => himp D r.1 (hr.2 D hD)⟩

theorem map {f : α → β} (h : Gives frame ok x P) (himp : ∀ D a, P D a → Q D (f a)) : Gives frame ok (f <$> x) Q := by
  rw [map_eq_pure_bind]
  exact h.bind fun a => .pure fun D => himp D a

theorem quietly {step : Except BadPattern α} (h : Fine ok step fun a => ∀ D, P D a) :
    Gives frame ok (quietly step) P := fun d => by
  cases step with
  | ok a => exact ⟨.refl _ d, fun D _ => h D⟩
  | error e => exact h

theorem quietly_bind {step : Except BadPattern α} {f : α → Lowering β} {P : α → Prop} (h : Fine ok step P)
    (hf : ∀ a, P a → Gives frame ok (f a) Q) : Gives frame ok (Draft.quietly step >>= f) Q := fun d => by
  cases step with
  | ok a => exact hf a h d
  | error e => exact h

theorem mapM {f : α → Lowering β} {R : Draft → α → β → Prop} {list : List α}
    (h : ∀ a ∈ list, Gives frame ok (f a) fun D b => R D a b) :
    Gives frame ok (list.mapM f) fun D bs => List.Forall₂ (R D) list bs := by
  induction list with
  | nil =>
    rw [List.mapM_nil]
    exact .pure fun _ => .nil
  | cons a list ih =>
    rw [List.mapM_cons]
    exact (h a (.head _)).bind fun b => (ih fun a ha => h a (.tail _ ha)).bind fun bs =>
      .pure fun _ hbs hb => .cons hb hbs

end Gives

theorem counter_gives (name : String) : Gives frame ok (counter name) fun D c => c < D.counters := fun _ =>
  ⟨⟨⟨fun _ => List.mem_append_left _, Nat.le_succ _, Nat.le_refl _, Nat.le_refl _, Nat.le_refl _,
    Nat.le_refl _⟩, .counter name⟩, fun _ hD => hD.counters⟩

theorem matcher_gives (m : Matcher) : Gives frame ok (matcher m) fun D id => id < D.matchers := fun _ =>
  ⟨⟨⟨fun _ => List.mem_append_left _, Nat.le_refl _, Nat.le_succ _, Nat.le_refl _, Nat.le_refl _,
    Nat.le_refl _⟩, .matcher m⟩, fun _ hD => hD.matchers⟩

theorem bitvec_grows (name : String) (size : Nat) (d : Draft) : Grows frame d { d with
    decls := d.decls ++ [.bitvec d.bitvecs name size], bitvecs := d.bitvecs + 1 } :=
  ⟨⟨fun _ => List.mem_append_left _, Nat.le_refl _, Nat.le_refl _, Nat.le_succ _, Nat.le_refl _,
    Nat.le_refl _⟩, .bitvec name size⟩

theorem split_gives {frames : List Stmt} (hframes : ∀ f ∈ frames, frame f) :
    Gives frame ok (split frames) fun D i => D.Lists i frames := fun _ => by
  refine ⟨⟨⟨fun _ => List.mem_append_left _, Nat.le_refl _, Nat.le_refl _, Nat.le_refl _, Nat.le_succ _,
    Nat.le_refl _⟩, .split hframes⟩, fun D hD => ⟨hD.splits, fun f hf => ?_⟩⟩
  exact Legal.mem_innerAll.2 ⟨_, hD.decls _ (List.mem_append_right _ (.head _)), by rwa [Stmt.inner]⟩

theorem unique_gives : Gives frame ok unique fun D u => u < D.uniques := fun _ =>
  ⟨⟨⟨fun _ => List.mem_append_left _, Nat.le_refl _, Nat.le_refl _, Nat.le_refl _, Nat.le_refl _,
    Nat.le_succ _⟩, .unique⟩, fun _ hD => hD.uniques⟩

theorem loop_gives : Gives frame ok loop fun _ _ => True := fun _ =>
  ⟨⟨⟨fun _ hs => hs, Nat.le_refl _, Nat.le_refl _, Nat.le_refl _, Nat.le_refl _, Nat.le_refl _⟩, .loop⟩,
    fun _ _ => trivial⟩

end

end Draft

namespace Constraint

open Draft Legal

/-- All expressions of the constraint itself can be read. -/
def LeafPatterns [Regex.Engine] : Constraint → Prop
  | .pattern source => (Regex.Engine.compile? source).isSome
  | .properties rules _ => ∀ rule ∈ rules, rule.1.Readable
  | _ => True

section Shapes

variable (build : Constraint → Except BadPattern Stmt) (D : Draft)

def Built (good : Constraint → Prop) (body : Stmt) : Prop := ∃ c, good c ∧ build c = .ok body

/-- The coming value is skipped, rejected, or left to a frame. -/
inductive Action (c : Constraint) (reject : Reason) : Stmt → Prop where
  | never (h : c.conjuncts none = none) : Action c reject (.invalid reject)
  | always (h : c.conjuncts none = some []) : Action c reject (.seq [.token, .consume])
  | run {body : Stmt} (h : c ∈ c.aside) (hbuild : build c = .ok body) : Action c reject (.frame body)

/-- The coming value is checked without reading it. -/
inductive Ahead (c : Constraint) (reject : Reason) : Stmt → Prop where
  | never (h : c.conjuncts none = none) : Ahead c reject (.invalid reject)
  | always (h : c.conjuncts none = some []) : Ahead c reject .nop
  | run {body : Stmt} {i : Nat} (h : c ∈ c.aside) (hbuild : build c = .ok body)
    (hsplit : D.Lists i [body]) : Ahead c reject
      (.ite (.compare .eq (.split i) (.size 0)) (.seq [.frame body, .invalid reject]) .nop)

def typed (type : Option ValueType) (c : Constraint) : Constraint :=
  match type with
  | some t => only t c
  | none => c

def Chooses (type : Option ValueType) (choice : Choice) (s : Stmt) : Prop :=
  ∃ i frames, List.Forall₂ (fun c f => build (typed type c) = .ok f) choice.parts frames ∧
    D.Lists i frames ∧ s = .rejectIf (.not (.compare choice.comparison (.split i) (.size choice.bound)))
      .invalidSplitCondition

def ChecksString : Constraint → List Stmt → Prop
  | .length range, list => list = countChecks .tokenLength range .lengthTooShort .lengthTooLong
  | .pattern _, list => ∃ id < D.matchers, list = [.dispatch id [(1, .nop)] (.invalid .patternMismatch)]
  | _, list => list = []

/-- Bit vectors are declared for the entries of a list, the first of them with number `base`. -/
def Reserved {α : Type} (base : Nat) (list : List α) : Prop := base + (chunked list).length ≤ D.bitvecs

/-! ### Objects -/

def marks (l : ObjectLeaves) (mask : Nat) (applies : NamePattern → Bool) : List Stmt :=
  (l.required.zipIdx.filter fun (name, _) => applies (.literal name)).map
    fun (_, i) => .bitSet (bitAt mask i).1 (bitAt mask i).2

/-- What is done for a member whose name matches just the patterns that apply. -/
def Member (l : ObjectLeaves) (mask : Nat) (applies : NamePattern → Bool) (s : Stmt) : Prop :=
  ∃ action, Action build (conjunction (l.applying applies)) .badPropertyName action ∧
    s = .seq (marks l mask applies ++ [action])

/-- The bits of regular expressions, which are counted from `i`. -/
inductive NameBits (mask : Nat) : Nat → List NamePattern → List Stmt → Prop where
  | nil {i : Nat} : NameBits mask i [] []
  | cons {i id : Nat} {e : NamePattern} {rest : List NamePattern} {others : List Stmt}
    (hid : id < D.matchers) (h : NameBits mask (i + 1) rest others) :
    NameBits mask i (e :: rest) (.dispatch id [(1, .bitSet (bitAt mask i).1 (bitAt mask i).2)]
      (.bitClear (bitAt mask i).1 (bitAt mask i).2) :: others)

def groupBits (expressions : List NamePattern) (mask : Nat)
    (rules : List (NamePattern × Constraint)) : List Expr :=
  rules.filterMap fun (p, _) => (expressions.findIdx? (· = p)).map (nameBit mask)

def unlessApplies (bits : List Expr) (check : Stmt) : List Stmt :=
  if check.isNop then []
  else match anyOfThem bits with
    | some applies => [.ite applies .nop check]
    | none => [check]

def Additional (expressions : List NamePattern) (mask : Nat)
    (group : List (NamePattern × Constraint) × Constraint) (list : List Stmt) : Prop :=
  ∃ check, Ahead build D group.2 .badPropertyName check ∧
    list = unlessApplies (groupBits expressions mask group.1) check

def whenApplies (mask i : Nat) (check : Stmt) : List Stmt :=
  if check.isNop then [] else [.ite (nameBit mask i) check .nop]

/-- The rules of regular expressions, which are counted from `i`. -/
inductive Rules (l : ObjectLeaves) (mask : Nat) : Nat → List NamePattern → List Stmt → Prop where
  | nil {i : Nat} : Rules l mask i [] []
  | cons {i : Nat} {e : NamePattern} {rest : List NamePattern} {check : Stmt} {others : List Stmt}
    (hcheck : Ahead build D (conjunction ((l.rulesOf e).map (·.2))) .badPropertyName check)
    (h : Rules l mask (i + 1) rest others) :
    Rules l mask i (e :: rest) (whenApplies mask i check ++ others)

/-- What is done for a member whose name may match any number of regular expressions. -/
def Mixed (l : ObjectLeaves) (s : Stmt) : Prop :=
  ∃ mask bits additional rules, Reserved D mask l.expressions ∧ NameBits D mask 0 l.expressions bits ∧
    List.Forall₂ (Additional build D l.expressions mask) l.groups additional ∧
    Rules build D l mask 0 l.expressions rules ∧
    s = .seq (bits ++ additional.flatten ++ rules ++ [.token, .consume])

/-- What is done for a member whose name has just been read. -/
inductive OnMember [Regex.Engine] (l : ObjectLeaves) (mask : Nat) : Stmt → Prop where
  | plain {s : Stmt} (h : l.patterns = []) (hs : Member build l mask (fun _ => false) s) :
    OnMember l mask s
  | dispatch {m : Matcher} {id : Nat} {bodies : List Stmt} {otherwise : Stmt}
    (h : l.patterns ≠ []) (hm : Matcher.build l.patterns = .ok m) (hid : id < D.matchers)
    (hcases : List.Forall₂ (fun set s => Member build l mask (m.patternsAt set).contains s) m.cases bodies)
    (hotherwise : if 1 < l.expressions.length then Mixed build D l otherwise
      else Member build l mask (fun _ => false) otherwise) :
    OnMember l mask
      (.dispatch id (((List.range' 1 m.cases.length).map Word.saturate).zip bodies) otherwise)

/-- The checks of an object, given its counter, the first bit vector of the required names and what is
done for a member. -/
def objectStmts (l : ObjectLeaves) (count : Option Nat) (mask loop : Nat) (member : Stmt) :
    List Stmt :=
  untilEnd loop "props" .objectEnd ((count.map Stmt.incr).toList ++ [member]) ::
    (match count with
      | none => []
      | some c => l.counts.flatMap fun range =>
        countChecks (.count c) range .tooFewProperties .tooManyProperties) ++
    (List.range (chunked l.required).length).map fun i =>
      .rejectIf (.not (.bitsAll (mask + i))) .missingRequiredProperties

def ChecksObject [Regex.Engine] (l : ObjectLeaves) (list : List Stmt) : Prop :=
  ∃ count mask loop member, (∀ c, count = some c → c < D.counters) ∧ Reserved D mask l.required ∧
    OnMember build D l mask member ∧ list = objectStmts l count mask loop member

/-! ### Arrays -/

/-- The statements for a piece of the `contains` constraints; `kept` is its bit vector and the scratch
bits follow. -/
def pieceStmts (kept split size : Nat) : List Stmt :=
  .splitBits (kept + 1) split ::
    (List.range size).map fun bit => .ite (.bitTest (kept + 1) bit) (.bitSet kept bit) .nop

/-- The pieces of the `contains` constraints, with bit vectors from `base` on. -/
inductive Pieces : Nat → List (List Constraint) → List (List Stmt × Nat × Nat) → Prop where
  | nil {base : Nat} : Pieces base [] []
  | cons {base i : Nat} {piece : List Constraint} {rest : List (List Constraint)} {frames : List Stmt}
    {others : List (List Stmt × Nat × Nat)}
    (hframes : List.Forall₂ (fun c f => build c = .ok f) piece frames)
    (hsplit : D.Lists i frames) (hbits : base + 1 < D.bitvecs) (h : Pieces (base + 2) rest others) :
    Pieces base (piece :: rest) ((pieceStmts base i piece.length, base, piece.length) :: others)

/-- The action for an item is selected by its position. -/
inductive Selects (count : Nat) : Stmt → List (Constraint × Nat) → Stmt → Prop where
  | nil {action : Stmt} : Selects count action [] action
  | cons {action this s : Stmt} {entry : Constraint} {i : Nat} {rest : List (Constraint × Nat)}
    (hthis : Action build entry .unexpectedToken this)
    (h : Selects count (.ite (.compare .eq (.count count) (.size (i + 1))) this action) rest s) :
    Selects count action ((entry, i) :: rest) s

def arrayStmts (l : ArrayLeaves) (count unique : Option Nat) (loop : Nat)
    (pieces : List (List Stmt × Nat × Nat)) (action : Stmt) : List Stmt :=
  untilEnd loop "items" .arrayEnd
      (.untoken :: (unique.map fun u => Stmt.rejectIf (.not (.unique u)) .arrayNotUnique).toList ++
        pieces.flatMap (·.1) ++ (count.map Stmt.incr).toList ++ [action]) ::
    (match count with
      | none => []
      | some c => l.counts.flatMap fun range =>
        countChecks (.count c) range .tooFewItems .tooManyItems) ++
    pieces.map fun (_, kept, size) =>
      .rejectIf (.compare .ne (.bitCount kept) (.size size)) .containsUnsatisfied

def ChecksArray (l : ArrayLeaves) (list : List Stmt) : Prop :=
  ∃ count unique loop base pieces last action,
    (count = none → (mergeItems l.items).1 = []) ∧ (∀ c, count = some c → c < D.counters) ∧
    (∀ u, unique = some u → u < D.uniques) ∧
    Pieces build D base (chunked l.contains) pieces ∧
    Action build (mergeItems l.items).2 .tooManyItems last ∧
    (∀ c, count = some c → Selects build c last (mergeItems l.items).1.zipIdx.reverse action) ∧
    (count = none → action = last) ∧
    list = arrayStmts l count unique loop pieces action

/-! ### Frames -/

def ChecksLeaves [Regex.Engine] (type : ValueType) (leaves : List Constraint) (list : List Stmt) : Prop :=
  match type with
  | .null | .boolean => list = []
  | .number => list = leaves.flatMap numberChecks
  | .string => ∃ lists, List.Forall₂ (ChecksString D) leaves lists ∧ list = lists.flatten
  | .object => ChecksObject build D (ObjectLeaves.of leaves) list
  | .array => ChecksArray build D (ArrayLeaves.of leaves) list

def Arm [Regex.Engine] (type : ValueType) (parts : List Constraint) (s : Stmt) : Prop :=
  ∃ choices checks, List.Forall₂ (Chooses build D (some type)) (parts.filterMap choice?) choices ∧
    (if (parts.filter fun c => !c.isCombinator) = [] then checks = if type.isContainer then [.consume] else []
    else ChecksLeaves build D type (parts.filter fun c => !c.isCombinator) checks) ∧
    s = .seq ((if choices = [] then [] else .untoken :: choices ++ [.token]) ++ checks ++ [.valid])

/-- The arm of the current token is selected among the given types. -/
inductive Arms [Regex.Engine] (arms : ValueType → Constraint) : List ValueType → Stmt → Prop where
  | nil : Arms arms [] (.invalid .unexpectedToken)
  | skip {type : ValueType} {types : List ValueType} {s : Stmt}
    (hnone : (arms type).conjuncts (some type) = none) (h : Arms arms types s) :
    Arms arms (type :: types) s
  | cons {type : ValueType} {types : List ValueType} {parts : List Constraint} {this others : Stmt}
    (hparts : (arms type).conjuncts (some type) = some parts) (hthis : Arm build D type parts this)
    (h : Arms arms types others) : Arms arms (type :: types) (.ite (firstToken type) this others)

inductive Body [Regex.Engine] (c : Constraint) : Stmt → Prop where
  | never (h : c.conjuncts none = none) : Body c (.invalid .unexpectedToken)
  | whole {parts : List Constraint} {choices : List Stmt} (h : c.conjuncts none = some parts)
    (harms : (Outline.ofParts parts).arms = none)
    (hchoices : List.Forall₂ (Chooses build D none) (parts.filterMap choice?) choices) :
    Body c (.seq (choices ++ [.token, .consume, .valid]))
  | arms {parts : List Constraint} {choices : List Stmt} {selected : Stmt}
    (h : c.conjuncts none = some parts)
    (hchoices : List.Forall₂ (Chooses build D none) (parts.filterMap choice?) choices)
    (hselected : Arms build D (Outline.ofParts parts).armAt ValueType.all selected) :
    Body c (.seq (choices ++ [.token, selected]))

end Shapes

/-! ## Lowering gives these statements -/

section Lowering

variable {build : Constraint → Except BadPattern Stmt} {good : Constraint → Prop} {ok : Prop}
  {α : Type} {c : Constraint} {l : ObjectLeaves} {mask : Nat} {expressions : List NamePattern}
  {leaves : List Constraint} {parts : List Constraint} {type : Option ValueType}

theorem mem_aside_of_cons {part : Constraint} (h : c.conjuncts none = some (part :: parts)) : c ∈ c.aside := by
  rw [aside, h]
  exact List.mem_singleton_self c

theorem built_of_forall₂ {list : List α} {frames : List Stmt} {f : α → Constraint}
    (h : List.Forall₂ (fun a s => build (f a) = .ok s) list frames) (hgood : ∀ a ∈ list, good (f a)) :
    ∀ s ∈ frames, Built build good s := by
  induction h with
  | nil => exact fun _ h => nomatch h
  | cons hbuild _ ih =>
    intro s hs
    rcases List.mem_cons.1 hs with rfl | hs
    · exact ⟨_, hgood _ (.head _), hbuild⟩
    · exact ih (fun a ha => hgood a (.tail _ ha)) s hs

variable (htotal : ∀ {e}, good e → ok → ∃ body, build e = .ok body)

include htotal

theorem valueAction_fine (hgood : ∀ e ∈ c.aside, good e) (reject : Reason) :
    Fine ok (valueAction build c reject) (Action build c reject) := by
  unfold valueAction
  rcases hc : c.conjuncts none with _ | _ | ⟨part, parts⟩
  · exact .never hc
  · exact .always hc
  · have hmem := mem_aside_of_cons hc
    exact (Fine.of_exists (htotal (hgood c hmem))).map fun body hbody => .run hmem hbody

theorem checkAhead_gives (hgood : ∀ e ∈ c.aside, good e) (reject : Reason) :
    Gives (Built build good) ok (checkAhead build c reject) fun D s => Ahead build D c reject s := by
  rcases hc : c.conjuncts none with _ | _ | ⟨part, parts⟩ <;> simp only [checkAhead, hc]
  · exact .pure fun _ => .never hc
  · exact .pure fun _ => .always hc
  · have hmem := mem_aside_of_cons hc
    have hbuild := Fine.of_exists (htotal (hgood c hmem))
    refine .quietly_bind hbuild fun body hbody => (split_gives ?_).bind fun i =>
      .quietly_bind hbuild fun again hagain => .pure fun D hsplit => ?_
    · intro s hs
      rw [List.mem_singleton.1 hs]
      exact ⟨c, hgood c hmem, hbody⟩
    · rw [hbody] at hagain
      cases hagain
      exact .run hmem hbody hsplit

theorem choiceChecks_gives {choices : List Choice}
    (hgood : ∀ choice ∈ choices, ∀ c ∈ choice.parts, good (typed type c)) :
    Gives (Built build good) ok (choiceChecks build type choices) fun D list =>
      List.Forall₂ (Chooses build D type) choices list := by
  refine .mapM fun choice hchoice => ?_
  refine Gives.bind (P := fun D condition => ∃ i frames,
      List.Forall₂ (fun c f => build (typed type c) = .ok f) choice.parts frames ∧ D.Lists i frames ∧
      condition = .compare choice.comparison (.split i) (.size choice.bound)) ?_ fun condition => .pure ?_
  · have hbuild : Fine ok (choice.parts.mapM fun c => build (typed type c))
        (List.Forall₂ (fun c f => build (typed type c) = .ok f) choice.parts) :=
      .mapM fun c hc => .of_exists (htotal (hgood choice hchoice c hc))
    exact .quietly_bind hbuild fun frames hframes =>
      (split_gives (built_of_forall₂ hframes (hgood choice hchoice))).bind fun i =>
        .pure fun D hsplit => ⟨i, frames, hframes, hsplit, rfl⟩
  · rintro D ⟨i, frames, hframes, hsplit, rfl⟩
    exact ⟨i, frames, hframes, hsplit, rfl⟩

omit htotal in
theorem stringChecks_gives [Regex.Engine] (hleaf : ok → LeafPatterns c) :
    Gives (Built build good) ok (stringChecks c) fun D list => ChecksString D c list := by
  cases c with
  | pattern source =>
    have hbuild : ok → ∃ m, Matcher.build [.regex source] = .ok m := fun hok =>
      Matcher.exists_build fun p hp => by
        rw [List.mem_singleton.1 hp]
        exact hleaf hok
    exact .quietly_bind (Fine.of_exists hbuild) fun m _ => (matcher_gives m).bind fun id =>
      .pure fun D hid => ⟨id, hid, rfl⟩
  | _ => exact .pure fun _ => rfl

/-! ### Bit vectors -/

omit htotal

theorem chunked_getElem? (list : List α) (j : Nat) : (chunked list)[j]? =
    if bitvecWidth * j < list.length then some ((list.drop (bitvecWidth * j)).take bitvecWidth)
    else none := by
  have hgo : ∀ (n : Nat) (list : List α) (j : Nat), list.length ≤ n → (chunked.go n list)[j]? =
      if bitvecWidth * j < list.length then some ((list.drop (bitvecWidth * j)).take bitvecWidth)
      else none := by
    intro n
    induction n with
    | zero =>
      intro list j h
      rw [if_neg (by omega)]
      rfl
    | succ n ih =>
      intro list j h
      rw [chunked.go]
      cases list with
      | nil => simp
      | cons a list =>
        rw [List.isEmpty_cons, if_neg Bool.false_ne_true]
        cases j with
        | zero => simp
        | succ j =>
          rw [List.getElem?_cons_succ, ih _ j (by
            rw [List.length_drop]
            simp only [List.length_cons, bitvecWidth] at h ⊢
            omega), List.length_drop, List.drop_drop]
          have hmul : bitvecWidth * (j + 1) = bitvecWidth + bitvecWidth * j := by
            rw [Nat.mul_succ, Nat.add_comm]
          rw [hmul]
          by_cases hlt : bitvecWidth + bitvecWidth * j < (a :: list).length
          · rw [if_pos hlt, if_pos (by omega)]
          · rw [if_neg hlt, if_neg (by omega)]
  exact hgo list.length list j (Nat.le_refl _)

theorem eq_of_mem_chunked {list piece : List α} (h : piece ∈ chunked list) :
    ∃ j, piece = (list.drop (bitvecWidth * j)).take bitvecWidth := by
  obtain ⟨j, hj⟩ := List.mem_iff_getElem?.1 h
  rw [chunked_getElem?] at hj
  split at hj <;> cases hj
  exact ⟨j, rfl⟩

theorem length_of_mem_chunked {list piece : List α} (h : piece ∈ chunked list) : piece.length ≤ bitvecWidth := by
  obtain ⟨j, rfl⟩ := eq_of_mem_chunked h
  exact List.length_take_le _ _

theorem mem_of_mem_chunked {list piece : List α} {a : α} (h : piece ∈ chunked list) (ha : a ∈ piece) : a ∈ list := by
  obtain ⟨j, rfl⟩ := eq_of_mem_chunked h
  exact List.mem_of_mem_drop (List.mem_of_mem_take ha)

theorem bitvecs_fine (name : String) (pieces : List (List α)) (d : Draft) :
    Fine ok (pieces.mapM (fun piece => bitvec name piece.length) d) fun r =>
      Grows (Built build good) d r.2 ∧ r.2.bitvecs = d.bitvecs + pieces.length := by
  induction pieces generalizing d with
  | nil => exact ⟨.refl _ d, rfl⟩
  | cons piece pieces ih =>
    rw [List.mapM_cons]
    refine Fine.bind (ih _) fun r hr => ⟨(bitvec_grows name piece.length d).trans hr.1, ?_⟩
    rw [show r.2.bitvecs = d.bitvecs + 1 + pieces.length from hr.2, List.length_cons]
    omega

theorem bitvecsFor_gives (name : String) (list : List α) :
    Gives (Built build good) ok (bitvecsFor name list) fun D base => Reserved D base list := by
  intro d
  have h : Fine ok ((chunked list).mapM (fun piece => bitvec name piece.length) d) fun r =>
      Grows (Built build good) d r.2 ∧ r.2.bitvecs = d.bitvecs + (chunked list).length :=
    bitvecs_fine name (chunked list) d
  unfold bitvecsFor
  cases hids : (chunked list).mapM (fun piece => bitvec name piece.length) d with
  | error e =>
    rw [hids] at h
    exact h
  | ok r =>
    rw [hids] at h
    exact ⟨h.1, fun D hD => Nat.le_trans (Nat.le_of_eq h.2.symm) hD.bitvecs⟩

/-! ### Members -/

theorem nameBits_gives [Regex.Engine] (hreadable : ok → ∀ p ∈ expressions, p.Readable) (i : Nat) :
    Gives (Built build good) ok (nameBits mask i expressions) fun D list =>
      NameBits D mask i expressions list := by
  induction expressions generalizing i with
  | nil => exact .pure fun _ => .nil
  | cons p rest ih =>
    have hbuild : ok → ∃ m, Matcher.build [p] = .ok m := fun hok => Matcher.exists_build fun q hq => by
      rw [List.mem_singleton.1 hq]
      exact hreadable hok p (.head _)
    exact .quietly_bind (Fine.of_exists hbuild) fun m _ => (matcher_gives m).bind fun id =>
      (ih (fun hok q hq => hreadable hok q (.tail _ hq)) (i + 1)).bind fun others =>
        .pure fun D hrest hid => .cons hid hrest

include htotal

theorem memberBody_fine {applies : NamePattern → Bool} (hgood : ∀ e ∈ l.asideFor applies, good e) :
    Fine ok (memberBody build l mask applies) (Member build l mask applies) :=
  (valueAction_fine htotal hgood _).bind fun action haction => ⟨action, haction, rfl⟩

theorem additionalCheck_gives {group : List (NamePattern × Constraint) × Constraint}
    (hgood : ∀ e ∈ group.2.aside, good e) :
    Gives (Built build good) ok (additionalCheck build expressions mask group) fun D list =>
      Additional build D expressions mask group list := by
  refine (checkAhead_gives htotal hgood _).bind fun check => ?_
  split
  · next hnop => exact .pure fun D h => ⟨check, h, by rw [unlessApplies, if_pos hnop]⟩
  · next hnop =>
    dsimp only
    split
    · next applies hany =>
      exact .pure fun D h => ⟨check, h, by rw [unlessApplies, if_neg hnop, groupBits, hany]⟩
    · next hany => exact .pure fun D h => ⟨check, h, by rw [unlessApplies, if_neg hnop, groupBits, hany]⟩

theorem expressionChecks_gives
    (hgood : ∀ e ∈ expressions, ∀ c ∈ (conjunction ((l.rulesOf e).map (·.2))).aside, good c) (i : Nat) :
    Gives (Built build good) ok (expressionChecks build l mask i expressions) fun D list =>
      Rules build D l mask i expressions list := by
  induction expressions generalizing i with
  | nil => exact .pure fun _ => .nil
  | cons e rest ih =>
    refine (checkAhead_gives htotal (hgood e (.head _)) _).bind fun check =>
      (ih (fun e' he' => hgood e' (.tail _ he')) (i + 1)).bind fun others => ?_
    have hcons : ∀ D, Rules build D l mask (i + 1) rest others →
        Ahead build D (conjunction ((l.rulesOf e).map (·.2))) .badPropertyName check →
        Rules build D l mask i (e :: rest) (whenApplies mask i check ++ others) :=
      fun D hrest hcheck => .cons hcheck hrest
    unfold whenApplies at hcons
    split
    · next hnop =>
      rw [if_pos hnop] at hcons
      exact .pure hcons
    · next hnop =>
      rw [if_neg hnop] at hcons
      exact .pure hcons

theorem mixedMember_gives [Regex.Engine] (hreadable : ok → ∀ p ∈ l.expressions, p.Readable)
    (hgood : ∀ c ∈ l.asideMixed l.expressions, good c) :
    Gives (Built build good) ok (mixedMember build l l.expressions) fun D s => Mixed build D l s :=
  (bitvecsFor_gives _ _).bind fun mask => (nameBits_gives hreadable 0).bind fun bits =>
    (Gives.mapM fun group hgroup => additionalCheck_gives htotal fun e he =>
      hgood e (List.mem_append_left _ (List.mem_flatMap.2 ⟨group, hgroup, he⟩))).bind fun additional =>
    (expressionChecks_gives htotal (fun e he c hc =>
      hgood c (List.mem_append_right _ (List.mem_flatMap.2 ⟨e, he, hc⟩))) 0).bind fun rules =>
    .pure fun _ hrules hadditional hbits hmask =>
      ⟨mask, bits, additional, rules, hmask, hbits, hadditional, hrules, rfl⟩

theorem caseBodies_fine {m : Matcher} {sets : List (List UInt32)}
    (hgood : ∀ set ∈ sets, ∀ e ∈ l.asideFor (m.patternsAt set).contains, good e) (k : Nat) :
    Fine ok (caseBodies build l mask m k sets) fun cases =>
      ∃ bodies, cases = ((List.range' k sets.length).map Word.saturate).zip bodies ∧
        List.Forall₂ (fun set s => Member build l mask (m.patternsAt set).contains s) sets bodies := by
  induction sets generalizing k with
  | nil => exact ⟨[], rfl, .nil⟩
  | cons set rest ih =>
    rw [caseBodies]
    refine (memberBody_fine htotal (hgood set (.head _))).bind fun body hbody =>
      (ih (fun set hset => hgood set (.tail _ hset)) (k + 1)).bind fun others hothers => ?_
    obtain ⟨bodies, rfl, hbodies⟩ := hothers
    exact ⟨body :: bodies, by rw [List.length_cons, List.range'_succ]; rfl, .cons hbody hbodies⟩

theorem onMember_gives [Regex.Engine] (hreadable : ok → ∀ p ∈ l.patterns, p.Readable) (hgood : ∀ c ∈ l.inside, good c) :
    Gives (Built build good) ok (onMember build l mask) fun D s => OnMember build D l mask s := by
  unfold onMember
  split
  · next hempty =>
    rw [ObjectLeaves.inside, if_pos hempty] at hgood
    exact .quietly ((memberBody_fine htotal hgood).mono fun s hs _ => .plain (List.isEmpty_iff.1 hempty) hs)
  · next hempty =>
    have hne : l.patterns ≠ [] := fun h => hempty (by rw [h]; rfl)
    refine .quietly_bind (Fine.of_exists fun hok => Matcher.exists_build (hreadable hok)) fun m hm => ?_
    rw [ObjectLeaves.inside, if_neg hempty, hm] at hgood
    refine .quietly_bind (caseBodies_fine htotal (fun set hset e he =>
      hgood e (List.mem_append_left _ (List.mem_flatMap.2 ⟨set, hset, he⟩))) 1) fun cases hcases => ?_
    obtain ⟨bodies, rfl, hbodies⟩ := hcases
    by_cases hmany : 1 < l.expressions.length
    · rw [if_pos hmany] at hgood
      rw [if_pos (show 1 < (l.patterns.filter isExpression).length from hmany)]
      refine (mixedMember_gives htotal (fun hok p hp => hreadable hok p (List.mem_filter.1 hp).1)
        fun e he => hgood e (List.mem_append_right _ he)).bind fun otherwise =>
        (matcher_gives m).bind fun id => .pure fun D hid hotherwise => .dispatch hne hm hid hbodies ?_
      rwa [if_pos hmany]
    · rw [if_neg hmany] at hgood
      rw [if_neg (show ¬ 1 < (l.patterns.filter isExpression).length from hmany)]
      refine .quietly_bind (memberBody_fine htotal fun e he => hgood e (List.mem_append_right _ he))
        fun otherwise hotherwise => (matcher_gives m).bind fun id =>
          .pure fun D hid => .dispatch hne hm hid hbodies ?_
      rwa [if_neg hmany]

omit htotal

def objectRest [Regex.Engine] (build : Constraint → Except BadPattern Stmt) (l : ObjectLeaves) (count : Option Nat) :
    Lowering (List Stmt) := do
  let mask ← bitvecsFor "reqmask" l.required
  let member ← onMember build l mask
  let loop ← loop
  pure (objectStmts l count mask loop member)

theorem objectChecks_eq [Regex.Engine] (build : Constraint → Except BadPattern Stmt) (leaves : List Constraint) :
    objectChecks build leaves = (if (ObjectLeaves.of leaves).counts.isEmpty then pure none
      else some <$> counter "num_props") >>= objectRest build (ObjectLeaves.of leaves) := by
  unfold objectChecks
  dsimp only
  by_cases hempty : (ObjectLeaves.of leaves).counts.isEmpty
  · rw [if_pos hempty, if_pos hempty]
    rfl
  · rw [if_neg hempty, if_neg hempty]
    rfl

include htotal

theorem objectChecks_gives [Regex.Engine] (hleaves : ok → ∀ c ∈ leaves, LeafPatterns c)
    (hgood : ∀ c ∈ (ObjectLeaves.of leaves).inside, good c) :
    Gives (Built build good) ok (objectChecks build leaves) fun D list =>
      ChecksObject build D (ObjectLeaves.of leaves) list := by
  have hreadable : ok → ∀ p ∈ (ObjectLeaves.of leaves).patterns, p.Readable := by
    intro hok p hp
    rcases List.mem_append.1 (List.mem_eraseDups.1 hp) with hp | hp
    · obtain ⟨⟨rules, additional⟩, hgroup, hp⟩ := List.mem_flatMap.1 hp
      obtain ⟨rule, hrule, rfl⟩ := List.mem_map.1 hp
      obtain ⟨c, hc, heq⟩ := List.mem_filterMap.1 hgroup
      cases c <;> cases heq
      exact hleaves hok _ hc rule hrule
    · obtain ⟨name, -, rfl⟩ := List.mem_map.1 hp
      trivial
  rw [objectChecks_eq]
  refine Gives.bind (P := fun D count => ∀ c, count = some c → c < D.counters) ?_ fun count =>
    (bitvecsFor_gives _ _).bind fun mask => (onMember_gives htotal hreadable hgood).bind fun member =>
    loop_gives.bind fun loop => .pure fun D _ hmember hmask hcount =>
      ⟨count, mask, loop, member, hcount, hmask, hmember, rfl⟩
  split
  · exact .pure fun D c hc => by cases hc
  · exact (counter_gives _).map fun D c hc c' hc' => by
      cases hc'
      exact hc

/-! ### Items -/

/-- The pieces take two bit vectors each, one behind the other. -/
theorem containsPieces_gives {pieces : List (List Constraint)} (hgood : ∀ piece ∈ pieces, ∀ c ∈ piece, good c) :
    Gives (Built build good) ok (pieces.mapM (containsPiece build)) fun D results =>
      ∃ base, Pieces build D base pieces results := by
  have hpieces : ∀ d, Fine ok (pieces.mapM (containsPiece build) d) fun r => Grows (Built build good) d r.2 ∧
      ∀ D, r.2.Le D → Pieces build D d.bitvecs pieces r.1 := by
    induction pieces with
    | nil => exact fun d => ⟨.refl _ d, fun _ _ => .nil⟩
    | cons piece pieces ih =>
      intro d
      rw [List.mapM_cons]
      have hbuild : Fine ok (piece.mapM build) (List.Forall₂ (fun c f => build c = .ok f) piece) :=
        .mapM fun c hc => .of_exists (htotal (hgood piece (.head _) c hc))
      have hpiece : Fine ok (containsPiece build piece d) fun r => Grows (Built build good) d r.2 ∧
          r.2.bitvecs = d.bitvecs + 2 ∧ ∃ i frames, List.Forall₂ (fun c f => build c = .ok f) piece frames ∧
          (∀ D, r.2.Le D → D.Lists i frames) ∧
          r.1 = (pieceStmts d.bitvecs i piece.length, d.bitvecs, piece.length) := by
        unfold containsPiece
        cases hframes : piece.mapM build with
        | error e =>
          rw [hframes] at hbuild
          exact hbuild
        | ok frames =>
          rw [hframes] at hbuild
          have hgrows : Grows (Built build good) d _ := (bitvec_grows "contains" piece.length d).trans
            (bitvec_grows "contains_split" piece.length _)
          have hsplit : Fine ok _ _ := split_gives (built_of_forall₂ (f := id) hbuild (hgood piece (.head _)))
            { d with decls := d.decls ++ [.bitvec d.bitvecs "contains" piece.length] ++
                [.bitvec (d.bitvecs + 1) "contains_split" piece.length], bitvecs := d.bitvecs + 1 + 1 }
          exact ⟨hgrows.trans hsplit.1, rfl, _, frames, hbuild, hsplit.2, rfl⟩
      refine hpiece.bind fun r hr => ?_
      obtain ⟨hgrows, hbase, i, frames, hframes, hsplit, hresult⟩ := hr
      refine Fine.bind (ih (fun p hp => hgood p (.tail _ hp)) r.2) fun r' hr' => ?_
      refine ⟨hgrows.trans hr'.1, fun D hD => ?_⟩
      have hle := (hr'.1.le.trans hD).bitvecs
      have hrest := hr'.2 D hD
      rw [hbase] at hrest hle
      show Pieces build D d.bitvecs (piece :: pieces) (r.1 :: r'.1)
      rw [hresult]
      exact .cons hframes (hsplit D (hr'.1.le.trans hD)) (by omega) hrest
  exact fun d => (hpieces d).mono fun r hr => ⟨hr.1, fun D hD => ⟨_, hr.2 D hD⟩⟩

theorem selectItem_fine {count : Nat} {entries : List (Constraint × Nat)}
    (hgood : ∀ entry ∈ entries, ∀ e ∈ entry.1.aside, good e) (action : Stmt) :
    Fine ok (selectItem build count action entries) (Selects build count action entries) := by
  induction entries generalizing action with
  | nil => exact .nil
  | cons entry rest ih =>
    obtain ⟨entry, i⟩ := entry
    rw [selectItem]
    exact (valueAction_fine htotal (hgood (entry, i) (.head _)) _).bind fun this hthis =>
      (ih (fun e he => hgood e (.tail _ he)) _).mono fun s hs => .cons hthis hs

omit htotal

/-- The checks of an array behind the declarations of its counter and its unique set. -/
def arrayRest (build : Constraint → Except BadPattern Stmt) (l : ArrayLeaves) (count unique : Option Nat) :
    Lowering (List Stmt) := do
  let pieces ← (chunked l.contains).mapM (containsPiece build)
  let last ← quietly (valueAction build (mergeItems l.items).2 .tooManyItems)
  let action ← match count with
    | none => pure last
    | some c => quietly (selectItem build c last (mergeItems l.items).1.zipIdx.reverse)
  let loop ← loop
  pure (arrayStmts l count unique loop pieces action)

theorem arrayChecks_eq (build : Constraint → Except BadPattern Stmt) (leaves : List Constraint) :
    arrayChecks build leaves =
      (if (ArrayLeaves.of leaves).counts.isEmpty && (mergeItems (ArrayLeaves.of leaves).items).1.isEmpty
        then pure none else some <$> counter "num_items") >>= fun count =>
      (if (ArrayLeaves.of leaves).unique then some <$> Draft.unique else pure none) >>= fun unique =>
      arrayRest build (ArrayLeaves.of leaves) count unique := by
  unfold arrayChecks
  dsimp only
  by_cases hempty : ((ArrayLeaves.of leaves).counts.isEmpty &&
      (mergeItems (ArrayLeaves.of leaves).items).1.isEmpty) = true
  · rw [if_pos hempty, if_pos hempty]
    by_cases hunique : (ArrayLeaves.of leaves).unique = true
    · simp only [if_pos hunique]
      rfl
    · simp only [if_neg hunique]
      rfl
  · rw [if_neg hempty, if_neg hempty]
    by_cases hunique : (ArrayLeaves.of leaves).unique = true
    · simp only [if_pos hunique]
      rfl
    · simp only [if_neg hunique]
      rfl

include htotal

theorem arrayChecks_gives (hgood : ∀ c ∈ (ArrayLeaves.of leaves).inside, good c) :
    Gives (Built build good) ok (arrayChecks build leaves) fun D list =>
      ChecksArray build D (ArrayLeaves.of leaves) list := by
  have hcontains : ∀ c ∈ (ArrayLeaves.of leaves).contains, good c := fun c hc =>
    hgood c (List.mem_append_left _ (List.mem_append_left _ hc))
  rw [arrayChecks_eq]
  refine Gives.bind (P := fun D count => (∀ c, count = some c → c < D.counters) ∧
      (count = none → (mergeItems (ArrayLeaves.of leaves).items).1 = [])) ?_ fun count =>
    Gives.bind (P := fun D unique => ∀ u, unique = some u → u < D.uniques) ?_ fun unique =>
    (containsPieces_gives htotal fun piece hpiece c hc => hcontains c (mem_of_mem_chunked hpiece hc)).bind
      fun pieces => .quietly_bind (valueAction_fine htotal (fun e he =>
        hgood e (List.mem_append_left _ (List.mem_append_right _ he))) _) fun last hlast => ?_
  · split
    · next hempty =>
      exact .pure fun _ => ⟨fun c hc => (by cases hc), fun _ =>
        List.isEmpty_iff.1 (Bool.and_eq_true_iff.1 hempty).2⟩
    · refine (counter_gives _).map fun D c hc => ⟨fun c' hc' => ?_, fun h => by cases h⟩
      cases hc'
      exact hc
  · split
    · exact unique_gives.map fun D u hu u' hu' => by
        cases hu'
        exact hu
    · exact .pure fun D u hu => by cases hu
  · cases count with
    | none =>
      refine (Gives.pure (P := fun _ action => action = last) fun _ => rfl).bind fun action =>
        loop_gives.bind fun loop => .pure ?_
      rintro D - rfl ⟨base, hpieces⟩ hunique ⟨hcount, hnone⟩
      exact ⟨none, unique, loop, base, pieces, action, action, hnone, hcount, hunique, hpieces, hlast,
        fun c hc => (by cases hc), fun _ => rfl, rfl⟩
    | some c =>
      refine .quietly_bind (selectItem_fine htotal (fun entry hentry e he =>
        hgood e (List.mem_append_right _ (List.mem_flatMap.2
          ⟨entry.1, List.fst_mem_of_mem_zipIdx (List.mem_reverse.1 hentry), he⟩))) last) fun action haction =>
        loop_gives.bind fun loop => .pure ?_
      rintro D - ⟨base, hpieces⟩ hunique ⟨hcount, hnone⟩
      refine ⟨some c, unique, loop, base, pieces, last, action, hnone, hcount, hunique, hpieces, hlast,
        fun c' hc' => ?_, fun h => (by cases h), rfl⟩
      cases hc'
      exact haction

/-! ### Frames -/

theorem leafChecks_gives [Regex.Engine] {type : ValueType} (hleaves : ok → ∀ c ∈ leaves, LeafPatterns c)
    (hgood : ∀ c ∈ leavesInside leaves type, good c) :
    Gives (Built build good) ok (leafChecks build type leaves) fun D list =>
      ChecksLeaves build D type leaves list := by
  cases type with
  | null | boolean | number => exact .pure fun _ => rfl
  | string =>
    exact (Gives.mapM fun c hc => stringChecks_gives fun hok => hleaves hok c hc).map
      fun D lists hlists => ⟨lists, hlists, rfl⟩
  | object => exact objectChecks_gives htotal hleaves hgood
  | array => exact arrayChecks_gives htotal hgood

omit htotal

def armAhead (build : Constraint → Except BadPattern Stmt) (type : ValueType) (choices : List Choice) :
    Lowering (List Stmt) :=
  if choices.isEmpty then pure []
  else do
    let checks ← choiceChecks build (some type) choices
    pure (.untoken :: checks ++ [.token])

theorem arm_eq [Regex.Engine] (build : Constraint → Except BadPattern Stmt) (type : ValueType)
    (parts : List Constraint) : arm build type parts = armAhead build type (parts.filterMap choice?) >>= fun ahead =>
      (if (parts.filter fun c => !c.isCombinator).isEmpty then
        pure (if type.isContainer then [.consume] else [])
      else leafChecks build type (parts.filter fun c => !c.isCombinator)) >>= fun checks =>
      pure (.seq (ahead ++ checks ++ [.valid])) := by
  unfold arm armAhead
  dsimp only
  by_cases hchoices : (parts.filterMap choice?).isEmpty
  · simp only [if_pos hchoices]
    by_cases hleaves : (parts.filter fun c => !c.isCombinator).isEmpty
    · simp only [if_pos hleaves]
    · simp only [if_neg hleaves]
  · simp only [if_neg hchoices, bind_assoc, pure_bind]
    by_cases hleaves : (parts.filter fun c => !c.isCombinator).isEmpty
    · simp only [if_pos hleaves, pure_bind]
    · simp only [if_neg hleaves]

include htotal

theorem arm_gives [Regex.Engine] {type : ValueType}
    (hleaves : ok → ∀ c ∈ parts, c.isCombinator = false → LeafPatterns c)
    (hgood : ∀ c ∈ armInside type parts, good c) :
    Gives (Built build good) ok (arm build type parts) fun D s => Arm build D type parts s := by
  rw [arm_eq]
  refine Gives.bind (P := fun D ahead => ∃ choices,
      List.Forall₂ (Chooses build D (some type)) (parts.filterMap choice?) choices ∧
      ahead = if choices = [] then [] else .untoken :: choices ++ [.token]) ?_ fun ahead =>
    Gives.bind (P := fun D checks => if (parts.filter fun c => !c.isCombinator) = [] then
        checks = if type.isContainer then [.consume] else []
      else ChecksLeaves build D type (parts.filter fun c => !c.isCombinator) checks) ?_ fun checks => .pure ?_
  · unfold armAhead
    split
    · next hempty =>
      rw [List.isEmpty_iff.1 hempty]
      exact .pure fun _ => ⟨[], .nil, rfl⟩
    · next hempty =>
      have hgood' : ∀ choice ∈ parts.filterMap choice?, ∀ c ∈ choice.parts, good (typed (some type) c) :=
        fun choice hchoice c hc => hgood _ (List.mem_append_left _
          (List.mem_flatMap.2 ⟨choice, hchoice, List.mem_map_of_mem hc⟩))
      refine (choiceChecks_gives htotal hgood').bind fun choices =>
        .pure fun D hchoices => ⟨choices, hchoices, ?_⟩
      rw [if_neg]
      rintro rfl
      exact hempty (List.isEmpty_iff.2 (List.eq_nil_of_length_eq_zero hchoices.length_eq))
  · split
    · next hempty => exact .pure fun _ => by rw [if_pos (List.isEmpty_iff.1 hempty)]
    · next hempty =>
      refine (leafChecks_gives htotal (fun hok c hc => ?_) fun c hc =>
        hgood c (List.mem_append_right _ hc)).mono fun D checks hchecks => ?_
      · exact hleaves hok c (List.mem_filter.1 hc).1 (by simpa using (List.mem_filter.1 hc).2)
      · rwa [if_neg fun h => hempty (List.isEmpty_iff.2 h)]
  · rintro D hchecks ⟨choices, hchoices, rfl⟩
    exact ⟨choices, checks, hchoices, hchecks, rfl⟩

theorem selectArm_gives [Regex.Engine] {arms : ValueType → Constraint} {types : List ValueType}
    (hleaves : ok → ∀ type parts, (arms type).conjuncts (some type) = some parts →
      ∀ c ∈ parts, c.isCombinator = false → LeafPatterns c)
    (hgood : ∀ type ∈ types, ∀ parts, (arms type).conjuncts (some type) = some parts →
      ∀ c ∈ armInside type parts, good c) :
    Gives (Built build good) ok (selectArm build arms types) fun D s => Arms build D arms types s := by
  induction types with
  | nil => exact .pure fun _ => .nil
  | cons type types ih =>
    have ih := ih fun t ht => hgood t (.tail _ ht)
    cases hparts : (arms type).conjuncts (some type) with
    | none =>
      simp only [selectArm, hparts]
      exact ih.mono fun D s hs => .skip hparts hs
    | some parts =>
      simp only [selectArm, hparts]
      exact (arm_gives htotal (fun hok => hleaves hok type parts hparts)
        (hgood type (.head _) parts hparts)).bind fun this =>
        ih.bind fun others => .pure fun D hothers hthis => .cons hparts hthis hothers

theorem frameBody_gives [Regex.Engine] (hleaves : ok → ∀ parts, c.conjuncts none = some parts → ∀ type armParts,
      ((Outline.ofParts parts).armAt type).conjuncts (some type) = some armParts →
      ∀ e ∈ armParts, e.isCombinator = false → LeafPatterns e)
    (hgood : ∀ e ∈ c.inside, good e) :
    Gives (Built build good) ok (frameBody build c) fun D s => Body build D c s := by
  cases hparts : c.conjuncts none with
  | none =>
    simp only [frameBody, hparts]
    exact .pure fun _ => .never hparts
  | some parts =>
    rw [inside, hparts] at hgood
    simp only [frameBody, hparts, Outline.choices_ofParts]
    refine (choiceChecks_gives htotal fun choice hchoice c hc =>
      hgood c (List.mem_append_left _ (List.mem_flatMap.2 ⟨choice, hchoice, hc⟩))).bind fun choices => ?_
    cases harms : (Outline.ofParts parts).arms with
    | none => exact .pure fun D hchoices => .whole hparts harms hchoices
    | some arms =>
      have harmAt : (Outline.ofParts parts).armAt = arms := by
        funext t
        rw [Outline.armAt, harms]
        rfl
      rw [← harmAt]
      exact (selectArm_gives htotal (fun hok => hleaves hok parts hparts) fun type htype parts' hparts' c hc =>
        hgood c (List.mem_append_right _ (List.mem_flatMap.2 ⟨type, htype, by rw [hparts']; exact hc⟩))).bind
          fun selected => .pure fun D hselected hchoices => .arms hparts hchoices hselected

omit htotal

theorem finish_lowered [Regex.Engine] {body : Stmt} (h : finish (frameBody build c) = .ok body)
    (hgood : ∀ e ∈ c.inside, good e) :
    ∃ D s, body = .seq (D.decls ++ [s]) ∧ Declares (Built build good) D ∧ Body build D c s := by
  have hgives : Gives (Built build good) False (frameBody build c) fun D s => Body build D c s :=
    frameBody_gives (fun _ hno => absurd hno id) (fun hno => absurd hno id) hgood
  replace hgives := hgives {}
  unfold finish at h
  cases hbody : frameBody build c {} with
  | error e =>
    rw [hbody] at h
    cases h
  | ok result =>
    rw [hbody] at h hgives
    cases h
    exact ⟨result.2, result.1, rfl, hgives.1.declares .empty, hgives.2 _ (.refl _)⟩

end Lowering

end Constraint

end JsonSieve
