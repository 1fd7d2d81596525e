import Mathlib.Data.List.Forall2
import Mathlib.Logic.Function.Basic
import JsonSieve.Proofs.Graph.Laid
import JsonSieve.Proofs.Running.Fold

/-!
# Where tame statements stand in a graph

`Spans` says at which place of a graph a statement begins and where control goes on behind it, for every
statement of a tame tree. A place is what remains of a block from there on; `exits` tells to which block a
loop is left. `Decides` says where the branches of a condition begin, and `Hoists` what an expression has
become once the parts that look ahead are in temporaries.

The second half is about layouts that succeed. A layout is `Sound` if statements go to blocks that are no
exits and if exits are still empty; it `Evolves` by changing only some blocks and blocks that are new.
-/

namespace JsonSieve.Graph

open Layout

/-! ## Places -/

def Looks : Expr → Bool
  | .split _ | .matchCase _ | .bitCount _ => true
  | _ => false

def Stays : Expr → Bool
  | .num _ | .int _ | .size _ | .bool _ | .tokenKind | .tokenNumber | .tokenComplete | .tokenLength
  | .isToken _ | .count _ | .bitTest .. | .bitsAll _ | .bitsAny _ | .unique _ | .temp _ => true
  | _ => false

/-- An expression at a place becomes another one at a later place, with the temporaries from the first
number to the second in between. -/
inductive Hoists : Nat → Expr → List Stmt → Nat → Expr → List Stmt → Prop where
  | moved {n : Nat} {a : Expr} {k : List Stmt} (h : Looks a = true) :
    Hoists n a (.move n a :: k) (n + 1) (.temp n) k
  | stays {n : Nat} {a : Expr} {k : List Stmt} (h : Stays a = true) : Hoists n a k n a k
  | isInteger {n n' : Nat} {a a' : Expr} {k k' : List Stmt} (h : Hoists n a k n' a' k') :
    Hoists n (.isInteger a) k n' (.isInteger a') k'
  | isMultiple {n n' : Nat} {a a' : Expr} {d : Binary64} {k k' : List Stmt}
    (h : Hoists n a k n' a' k') : Hoists n (.isMultiple a d) k n' (.isMultiple a' d) k'
  | not {n n' : Nat} {a a' : Expr} {k k' : List Stmt} (h : Hoists n a k n' a' k') :
    Hoists n (.not a) k n' (.not a') k'
  | compare {n n' n'' : Nat} {c : Comparison} {a a' b b' : Expr} {k k' k'' : List Stmt}
    (ha : Hoists n a k n' a' k') (hb : Hoists n' b k' n'' b' k'') :
    Hoists n (.compare c a b) k n'' (.compare c a' b') k''
  | and {n n' n'' : Nat} {a a' b b' : Expr} {k k' k'' : List Stmt}
    (ha : Hoists n a k n' a' k') (hb : Hoists n' b k' n'' b' k'') :
    Hoists n (.and a b) k n'' (.and a' b') k''
  | or {n n' n'' : Nat} {a a' b b' : Expr} {k k' k'' : List Stmt}
    (ha : Hoists n a k n' a' k') (hb : Hoists n' b k' n'' b' k'') :
    Hoists n (.or a b) k n'' (.or a' b') k''

/-- Expressions that become branches of their own. -/
def Connects : Expr → Bool
  | .bool _ | .not _ | .and .. | .or .. => true
  | _ => false

/-- Both branches of a condition begin at blocks `yes` and `no`. -/
inductive Decides (code : Nat → List Stmt) : Expr → List Stmt → Nat → Nat → Prop where
  | bool {holds : Bool} {k : List Stmt} {yes no : Nat} :
    Decides code (.bool holds) (.branch (if holds then yes else no) :: k) yes no
  | not {a : Expr} {k : List Stmt} {yes no : Nat} (h : Decides code a k no yes) :
    Decides code (.not a) k yes no
  | and {a b : Expr} {k : List Stmt} {yes no middle : Nat} (ha : Decides code a k middle no)
    (hb : Decides code b (code middle) yes no) : Decides code (.and a b) k yes no
  | or {a b : Expr} {k : List Stmt} {yes no middle : Nat} (ha : Decides code a k yes middle)
    (hb : Decides code b (code middle) yes no) : Decides code (.or a b) k yes no
  | test {a a' : Expr} {n n' : Nat} {k k' : List Stmt} {yes no : Nat} (hconnects : Connects a = false)
    (h : Hoists n a k n' a' (.branchIf a' yes no :: k')) : Decides code a k yes no

/-- Statements of trees that only declare something. -/
def Inert : Stmt → Bool
  | .nop | .counter .. | .matcher .. | .bitvec .. | .splitList .. | .uniqueSet _ => true
  | _ => false

/-- Statements of trees that stand in blocks as they are and let control go on. -/
def Simple : Stmt → Bool
  | .token | .consume | .untoken | .incr _ | .decr _ | .bitSet .. | .bitClear .. | .splitBits .. => true
  | _ => false

/-- A statement begins at a place and control goes on at another one, unless it ends; `frameAt` tells
which body a nested frame has, and `exits` to which block a loop is left. -/
inductive Spans (frameAt : Nat → Stmt → Prop) (code : Nat → List Stmt) :
    (Nat → Option Nat) → Stmt → List Stmt → Option (List Stmt) → Prop where
  | inert {exits : Nat → Option Nat} {s : Stmt} {k : List Stmt} (h : Inert s = true) :
    Spans frameAt code exits s k (some k)
  | simple {exits : Nat → Option Nat} {s : Stmt} {k : List Stmt} (h : Simple s = true) :
    Spans frameAt code exits s (s :: k) (some k)
  | valid {exits : Nat → Option Nat} {k : List Stmt} :
    Spans frameAt code exits .valid (.valid :: k) none
  | invalid {exits : Nat → Option Nat} {reason : Reason} {k : List Stmt} :
    Spans frameAt code exits (.invalid reason) (.invalid reason :: k) none
  | frame {exits : Nat → Option Nat} {body : Stmt} {f : Nat} {k : List Stmt}
    (h : frameAt f body.simplified) : Spans frameAt code exits (.frame body) (.call f :: k) (some k)
  | leave {exits : Nat → Option Nat} {loop exit : Nat} {k : List Stmt} (h : exits loop = some exit) :
    Spans frameAt code exits (.leave loop) (.branch exit :: k) none
  | nil {exits : Nat → Option Nat} {k : List Stmt} : Spans frameAt code exits (.seq []) k (some k)
  | cons {exits : Nat → Option Nat} {s : Stmt} {list : List Stmt} {k k' : List Stmt}
    {k'' : Option (List Stmt)} (h : Spans frameAt code exits s k (some k'))
    (hrest : Spans frameAt code exits (.seq list) k' k'') :
    Spans frameAt code exits (.seq (s :: list)) k k''
  | last {exits : Nat → Option Nat} {s : Stmt} {list : List Stmt} {k : List Stmt}
    (h : Spans frameAt code exits s k none) : Spans frameAt code exits (.seq (s :: list)) k none
  | decided {exits : Nat → Option Nat} {condition : Expr} {holds : Bool} {yes no : Stmt}
    {k : List Stmt} {k' : Option (List Stmt)} (hc : condition.fold = .bool holds)
    (h : Spans frameAt code exits (if holds then yes else no) k k') :
    Spans frameAt code exits (.ite condition yes no) k k'
  | ite {exits : Nat → Option Nat} {condition : Expr} {yes no : Stmt} {k : List Stmt}
    {first second : Nat} {firstEnd secondEnd k' : Option (List Stmt)}
    (hc : Decides code condition.fold k first second)
    (hyes : Spans frameAt code exits yes (code first) firstEnd)
    (hno : Spans frameAt code exits no (code second) secondEnd)
    (hfirst : Joins code firstEnd k') (hsecond : Joins code secondEnd k') :
    Spans frameAt code exits (.ite condition yes no) k k'
  | loop {exits : Nat → Option Nat} {id : Nat} {name : String} {body : Stmt} {k : List Stmt}
    {header : Nat} {exit : Option Nat} {bodyEnd : Option (List Stmt)}
    (hbody : Spans frameAt code (Function.update exits id exit) body (code header) bodyEnd)
    (hback : ∀ k', bodyEnd = some k' → ∃ k'', k' = .branch header :: k'') :
    Spans frameAt code exits (.loop id name body) (.branch header :: k) (exit.map code)
  | dispatch {exits : Nat → Option Nat} {m t rest : Nat} {cases : List (UInt32 × Stmt)}
    {otherwise : Stmt} {targets : List (UInt32 × Nat)} {ends : List (Option (List Stmt))}
    {k : List Stmt} {restEnd k' : Option (List Stmt)} (hkeys : targets.map (·.1) = cases.map (·.1))
    (hlength : ends.length = cases.length)
    (hcases : ∀ (i : Nat) (c : UInt32 × Stmt) (t : UInt32 × Nat) (e : Option (List Stmt)),
      cases[i]? = some c → targets[i]? = some t → ends[i]? = some e →
      Spans frameAt code exits c.2 (code t.2) e)
    (hrest : Spans frameAt code exits otherwise (code rest) restEnd)
    (hends : ∀ e ∈ ends, Joins code e k') (hrestEnd : Joins code restEnd k') :
    Spans frameAt code exits (.dispatch m cases otherwise)
      (.move t (.matchCase m) :: .branchCase t targets (some rest) :: k) k'

/-! ## Steps that succeed -/

variable {α β : Type} {l l' : Layout} {id : Nat}

theorem step_ok {x : Except Fault α} {f : α → Except Fault β} {b : β}
    (h : (x >>= f) = .ok b) : ∃ a, x = .ok a ∧ f a = .ok b := by
  cases x with
  | error e => cases h
  | ok a => exact ⟨a, rfl, h⟩

theorem bind_ok {x : Laying α} {f : α → Laying β} {b : β}
    (h : (x >>= f) l = .ok (b, l')) : ∃ a l1, x l = .ok (a, l1) ∧ f a l1 = .ok (b, l') := by
  cases hx : x l with
  | error e =>
    rw [bind_of_error hx] at h
    cases h
  | ok p =>
    obtain ⟨a, l1⟩ := p
    rw [bind_of_ok hx] at h
    exact ⟨a, l1, rfl, h⟩

theorem map_ok {x : Laying α} {f : α → β} {b : β}
    (h : (f <$> x) l = .ok (b, l')) : ∃ a, x l = .ok (a, l') ∧ f a = b := by
  cases hx : x l with
  | error e =>
    have hmap : (f <$> x) l = .error e := by
      show (x l >>= fun p => _) = _
      rw [hx]
      rfl
    rw [hmap] at h
    cases h
  | ok p =>
    obtain ⟨a, l1⟩ := p
    rw [map_of_ok hx] at h
    cases h
    exact ⟨a, rfl, rfl⟩

theorem pure_ok {a b : α} (h : (pure a : Laying α) l = .ok (b, l')) : b = a ∧ l' = l := by
  rw [pure_eq] at h
  cases h
  exact ⟨rfl, rfl⟩

theorem emit_ok {s : Stmt} (h : emit s l = .ok ((), l')) : ∃ b, l.current = some b ∧ l' = l.put b s := by
  cases hcurrent : l.current with
  | none =>
    rw [emit_none hcurrent] at h
    cases h
  | some b =>
    rw [emit_eq hcurrent] at h
    cases h
    exact ⟨b, rfl, rfl⟩

theorem declare_inv {kind : Declared} {size : Decls → Nat} {add : Decls → Decls}
    (h : declare kind id size add l = .ok ((), l')) :
    id = size l.decls ∧ l' = { l with decls := add l.decls } := by
  rw [declare] at h
  split at h
  · next hid =>
    cases h
    exact ⟨hid, rfl⟩
  · cases h

/-! ## Loops around a statement -/

def exitsOf (loops : List LoopScope) : List Nat := loops.filterMap (·.exit)

/-- The same loops, with more exits; new exits are blocks from number `n` on. -/
def Scopes (n : Nat) : List LoopScope → List LoopScope → Prop :=
  List.Forall₂ fun a b => b.id = a.id ∧ (b.exit = a.exit ∨ a.exit = none ∧ ∃ x, b.exit = some x ∧ n ≤ x)

/-- Where the innermost loop of a number is left to. -/
def Fits (loops : List LoopScope) (exits : Nat → Option Nat) : Prop :=
  ∀ id scope x, loops.find? (·.id = id) = some scope → scope.exit = some x → exits id = some x

namespace Scopes

variable {n n' : Nat} {a b c : List LoopScope}

theorem refl (n : Nat) (a : List LoopScope) : Scopes n a a :=
  List.forall₂_same.2 fun _ _ => ⟨rfl, .inl rfl⟩

theorem mono (h : Scopes n' a b) (hn : n ≤ n') : Scopes n a b :=
  h.imp fun _ _ ⟨hid, hexit⟩ => ⟨hid, hexit.imp id fun ⟨hnone, x, hx, hle⟩ =>
    ⟨hnone, x, hx, Nat.le_trans hn hle⟩⟩

theorem trans (h : Scopes n a b) (h' : Scopes n b c) : Scopes n a c := by
  induction h generalizing c with
  | nil => exact h'
  | cons hab _ ih =>
    cases h' with
    | cons hbc htail =>
      refine .cons ⟨hbc.1.trans hab.1, ?_⟩ (ih htail)
      rcases hbc.2 with heq | ⟨hnone, x, hx, hle⟩
      · rw [heq]
        exact hab.2
      · refine .inr ⟨?_, x, hx, hle⟩
        rcases hab.2 with heq | ⟨hnone', -⟩
        · rw [← heq, hnone]
        · exact hnone'

theorem mem_exitsOf (h : Scopes n a b) {x : Nat} (hx : x ∈ exitsOf b) : x ∈ exitsOf a ∨ n ≤ x := by
  induction h with
  | nil => cases hx
  | @cons s s' a b hs _ ih =>
    simp only [exitsOf, List.mem_filterMap, List.mem_cons] at hx ih ⊢
    obtain ⟨scope, rfl | hmem, hexit⟩ := hx
    · rcases hs.2 with heq | ⟨-, y, hy, hle⟩
      · exact .inl ⟨s, .inl rfl, heq.symm.trans hexit⟩
      · rw [hy] at hexit
        cases hexit
        exact .inr hle
    · rcases ih ⟨scope, hmem, hexit⟩ with ⟨scope', hmem', hexit'⟩ | hle
      · exact .inl ⟨scope', .inr hmem', hexit'⟩
      · exact .inr hle

theorem fits (h : Scopes n a b) {exits : Nat → Option Nat} (hfits : Fits b exits) : Fits a exits := by
  intro id scope x hfind hexit
  suffices hsuffices : ∃ scope', b.find? (·.id = id) = some scope' ∧ scope'.exit = some x by
    obtain ⟨scope', hfind', hexit'⟩ := hsuffices
    exact hfits id scope' x hfind' hexit'
  clear hfits
  induction h with
  | nil => cases hfind
  | @cons s s' a b hs _ ih =>
    rw [List.find?_cons] at hfind ⊢
    rw [hs.1]
    split at hfind
    · cases hfind
      refine ⟨s', rfl, ?_⟩
      rcases hs.2 with heq | ⟨hnone, -⟩
      · rw [heq, hexit]
      · rw [hnone] at hexit
        cases hexit
    · exact ih hfind

theorem setExit {x : Nat} (hn : n ≤ x) {scope : LoopScope}
    (hfind : a.find? (·.id = id) = some scope) (hnone : scope.exit = none) :
    Scopes n a (Layout.setExit id x a) := by
  induction a with
  | nil => exact .nil
  | cons s a ih =>
    rw [List.find?_cons] at hfind
    rw [Layout.setExit]
    split at hfind
    · next hid =>
      cases hfind
      rw [if_pos (of_decide_eq_true hid)]
      exact .cons ⟨rfl, .inr ⟨hnone, x, rfl, hn⟩⟩ (refl n a)
    · next hid =>
      rw [if_neg (of_decide_eq_false hid)]
      exact .cons ⟨rfl, .inl rfl⟩ (ih hfind)

end Scopes

variable {loops : List LoopScope}

theorem find?_setExit (x : Nat) {scope : LoopScope} (hfind : loops.find? (·.id = id) = some scope) :
    (setExit id x loops).find? (·.id = id) = some { scope with exit := some x } := by
  induction loops with
  | nil => cases hfind
  | cons s loops ih =>
    rw [List.find?_cons] at hfind
    rw [setExit]
    split at hfind
    · next hid =>
      cases hfind
      rw [if_pos (of_decide_eq_true hid), List.find?_cons, hid]
    · next hid =>
      rw [if_neg (of_decide_eq_false hid), List.find?_cons, hid]
      exact ih hfind

theorem exitsOf_setExit (x : Nat) {scope : LoopScope}
    (hfind : loops.find? (·.id = id) = some scope) (hnone : scope.exit = none) :
    (exitsOf (setExit id x loops)).Perm (x :: exitsOf loops) := by
  induction loops with
  | nil => cases hfind
  | cons s loops ih =>
    rw [List.find?_cons] at hfind
    rw [setExit]
    split at hfind
    · next hid =>
      cases hfind
      rw [if_pos (of_decide_eq_true hid)]
      simp [exitsOf, hnone]
    · next hid =>
      rw [if_neg (of_decide_eq_false hid)]
      have ih := ih hfind
      cases hexit : s.exit with
      | none => simpa [exitsOf, hexit] using ih
      | some y =>
        simp only [exitsOf, List.filterMap_cons, hexit] at ih ⊢
        exact (ih.cons y).trans (.swap x y _)

/-! ## Layouts that evolve -/

namespace Layout

/-- Statements may be put into the block: it is not where a loop is left to. -/
def Ready (l : Layout) (b : Nat) : Prop := b < l.blocks.size ∧ b ∉ exitsOf l.loops

/-- Statements are not put into exits of the loops around, which are different blocks and empty. -/
structure Sound (l : Layout) : Prop where
  ready : ∀ b, l.current = some b → l.Ready b
  nodup : (exitsOf l.loops).Nodup
  exits : ∀ x ∈ exitsOf l.loops, x < l.blocks.size ∧ l.stmtsAt x = []

def Tamed (body : Stmt) : Prop := ∃ s : Stmt, s.tame = true ∧ body = s.simplified

/-- One layout is a later state of another. Of the blocks below `n`, only `touched` ones have got more
statements; `frames` counts the frames that are new, with the frames nested in them. -/
structure Evolves (l : Layout) (touched : Nat → Prop) (n frames : Nat) (l' : Layout) : Prop where
  stmts : ∀ i, l.stmtsAt i <+: l'.stmtsAt i
  size_le : l.blocks.size ≤ l'.blocks.size
  kept : ∀ i < n, ¬ touched i → l'.stmtsAt i = l.stmtsAt i
  scopes : Scopes n l.loops l'.loops
  hoisted : ∃ more, l'.nested = l.nested ++ more ∧ l'.nextFrame = l.nextFrame + more.length ∧
    more.length + Stmt.framesOf more = frames ∧ ∀ body ∈ more, Tamed body

theorem stmtsAt_size (l : Layout) : l.stmtsAt l.blocks.size = [] := by simp [stmtsAt]

theorem stmtsAt_new (name : String) (l : Layout) (i : Nat) : (l.pushed name).stmtsAt i = l.stmtsAt i := by
  rw [stmtsAt_pushed]
  split
  · next h => rw [h, stmtsAt_size]
  · rfl

namespace Evolves

variable {l l1 l2 : Layout} {touched touched' : Nat → Prop} {n n' frames frames' : Nat}

theorem le (h : l.Evolves touched n frames l1) : l.Le l1 := by
  obtain ⟨more, hmore, hnext, -, -⟩ := h.hoisted
  exact ⟨h.stmts, more, hmore, hnext⟩

theorem of_same (hblocks : l1.blocks = l.blocks) (hloops : l1.loops = l.loops)
    (hnested : l1.nested = l.nested) (hnext : l1.nextFrame = l.nextFrame) : l.Evolves touched n 0 l1 where
  stmts i := by simp [stmtsAt, hblocks]
  size_le := by simp [hblocks]
  kept i _ _ := by rw [stmtsAt, stmtsAt, hblocks]
  scopes := by
    rw [hloops]
    exact .refl n l.loops
  hoisted := ⟨[], by simp [hnested], by simp [hnext], rfl, by simp⟩

theorem refl (l : Layout) : l.Evolves touched n 0 l := .of_same rfl rfl rfl rfl

theorem trans (h : l.Evolves touched n frames l1) (h' : l1.Evolves touched n frames' l2) :
    l.Evolves touched n (frames + frames') l2 where
  stmts i := (h.stmts i).trans (h'.stmts i)
  size_le := Nat.le_trans h.size_le h'.size_le
  kept i hi hnot := (h'.kept i hi hnot).trans (h.kept i hi hnot)
  scopes := h.scopes.trans h'.scopes
  hoisted := by
    obtain ⟨more, hmore, hnext, hcount, htamed⟩ := h.hoisted
    obtain ⟨more', hmore', hnext', hcount', htamed'⟩ := h'.hoisted
    refine ⟨more ++ more', by rw [hmore', hmore, List.append_assoc], ?_, ?_, ?_⟩
    · rw [hnext', hnext, List.length_append, Nat.add_assoc]
    · rw [List.length_append, Legal.framesOf_append]
      omega
    · exact List.forall_mem_append.2 ⟨htamed, htamed'⟩

theorem within (h : l.Evolves touched' n' frames l1) (hn : n ≤ n')
    (htouched : ∀ i, touched' i → touched i ∨ n ≤ i) : l.Evolves touched n frames l1 :=
  { h with
    kept := fun i hi hnot => h.kept i (Nat.lt_of_lt_of_le hi hn) fun htouched' =>
      (htouched i htouched').elim hnot fun hle => absurd hi (Nat.not_lt.2 hle)
    scopes := h.scopes.mono hn }

theorem pushed (name : String) (l : Layout) : l.Evolves touched n 0 (l.pushed name) where
  stmts i := by simp [stmtsAt_new]
  size_le := by simp
  kept i _ _ := stmtsAt_new name l i
  scopes := .refl n l.loops
  hoisted := ⟨[], by simp [Layout.pushed], by simp [Layout.pushed], rfl, by simp⟩

theorem put {b : Nat} (hb : b < l.blocks.size) (htouched : touched b ∨ n ≤ b) (s : Stmt) :
    l.Evolves touched n 0 (l.put b s) where
  stmts i := (Layout.Le.put hb s).stmts i
  size_le := by simp
  kept i hi hnot := by
    rw [stmtsAt_put hb, if_neg]
    rintro rfl
    exact htouched.elim hnot fun hle => absurd hi (Nat.not_lt.2 hle)
  scopes := .refl n l.loops
  hoisted := ⟨[], by simp [Layout.put], by simp [Layout.put], rfl, by simp⟩

theorem moved (block : Option Nat) (l : Layout) : l.Evolves touched n 0 (l.moved block) :=
  .of_same rfl rfl rfl rfl

theorem oneTemp (l : Layout) : l.Evolves touched n 0 l.oneTemp := .of_same rfl rfl rfl rfl

theorem hoists {more : List Stmt} (hblocks : l1.blocks = l.blocks) (hloops : l1.loops = l.loops)
    (hnested : l1.nested = l.nested ++ more) (hnext : l1.nextFrame = l.nextFrame + more.length)
    (htamed : ∀ body ∈ more, Tamed body) : l.Evolves touched n (more.length + Stmt.framesOf more) l1 where
  stmts i := by simp [stmtsAt, hblocks]
  size_le := by simp [hblocks]
  kept i _ _ := by rw [stmtsAt, stmtsAt, hblocks]
  scopes := by
    rw [hloops]
    exact .refl n l.loops
  hoisted := ⟨more, hnested, hnext, rfl, htamed⟩

theorem ready {i : Nat} (h : l.Evolves touched n frames l1) (hready : l.Ready i) (hi : i < n) : l1.Ready i :=
  ⟨Nat.lt_of_lt_of_le hready.1 h.size_le, fun hmem => (h.scopes.mem_exitsOf hmem).elim hready.2
    fun hle => absurd hi (Nat.not_lt.2 hle)⟩

theorem rest_eq {i : Nat} (h : l.Evolves touched n frames l1) (hi : i < n) (hnot : ¬ touched i)
    (code : Nat → List Stmt) : l1.rest code i = l.rest code i :=
  rest_of_same (h.kept i hi hnot)

end Evolves

namespace Sound

variable {l : Layout}

theorem ready_new (h : l.Sound) (name : String) : (l.pushed name).Ready l.blocks.size :=
  ⟨by simp, fun hmem => absurd (h.exits _ hmem).1 (Nat.lt_irrefl _)⟩

theorem of_same (l' : Layout) (h : l.Sound) (hblocks : l'.blocks = l.blocks)
    (hloops : l'.loops = l.loops) (hcurrent : l'.current = l.current) : l'.Sound where
  ready b hb := by
    rw [Ready, hblocks, hloops]
    exact h.ready b (hcurrent ▸ hb)
  nodup := by
    rw [hloops]
    exact h.nodup
  exits x hx := by
    rw [stmtsAt, hblocks]
    exact h.exits x (hloops ▸ hx)

theorem pushed (h : l.Sound) (name : String) : (l.pushed name).Sound where
  ready b hb := ⟨by simpa using Nat.lt_succ_of_lt (h.ready b hb).1, (h.ready b hb).2⟩
  nodup := h.nodup
  exits x hx := by
    rw [stmtsAt_new, size_pushed]
    exact ⟨Nat.lt_succ_of_lt (h.exits x hx).1, (h.exits x hx).2⟩

theorem moved (h : l.Sound) {block : Option Nat} (hblock : ∀ b, block = some b → l.Ready b) : (l.moved block).Sound :=
  ⟨hblock, h.nodup, h.exits⟩

theorem put (h : l.Sound) {b : Nat} (hb : l.Ready b) (s : Stmt) : (l.put b s).Sound where
  ready i hi := by
    have : i = b := by
      simp only [Layout.put] at hi
      split at hi
      · cases hi
      · exact (Option.some.inj hi).symm
    subst this
    exact ⟨by simpa using hb.1, hb.2⟩
  nodup := h.nodup
  exits x hx := by
    rw [size_put, stmtsAt_put hb.1, if_neg fun heq : x = b => hb.2 (heq ▸ hx)]
    exact h.exits x hx

end Sound

end Layout

theorem exitOf_ok {x : Nat} (h : exitOf id l = .ok (x, l')) (hsound : l.Sound)
    (touched : Nat → Prop) : l'.Sound ∧ l.Evolves touched l.blocks.size 0 l' ∧ l'.current = l.current ∧
      l'.decls = l.decls ∧
      ∃ scope, l'.loops.find? (·.id = id) = some scope ∧ scope.exit = some x := by
  rw [exitOf] at h
  split at h
  · cases h
  next scope hfind =>
    split at h
    · next x' hexit =>
      cases h
      exact ⟨hsound, .refl l, rfl, rfl, scope, hfind, hexit⟩
    · next hnone =>
      cases h
      let l1 := l.pushed (scope.name ++ "_exit")
      have hperm := exitsOf_setExit l.blocks.size hfind hnone
      have hnew : l.blocks.size ∉ exitsOf l.loops := fun hmem =>
        absurd (hsound.exits _ hmem).1 (Nat.lt_irrefl _)
      refine ⟨⟨?_, ?_, ?_⟩, ?_, rfl, rfl, _, find?_setExit _ hfind, rfl⟩
      · intro b hb
        refine ⟨(hsound.pushed (scope.name ++ "_exit")).ready b hb |>.1, fun hmem => ?_⟩
        rcases List.mem_cons.1 (hperm.mem_iff.1 hmem) with rfl | hmem
        · exact absurd (hsound.ready _ hb).1 (Nat.lt_irrefl _)
        · exact (hsound.ready b hb).2 hmem
      · exact hperm.nodup_iff.2 (List.nodup_cons.2 ⟨hnew, hsound.nodup⟩)
      · intro y hy
        rcases List.mem_cons.1 (hperm.mem_iff.1 hy) with rfl | hmem
        · exact ⟨by simp, (stmtsAt_new _ l _).trans l.stmtsAt_size⟩
        · exact (hsound.pushed (scope.name ++ "_exit")).exits y hmem
      · have hpushed : l.Evolves touched l.blocks.size 0 l1 := .pushed _ l
        exact { hpushed with scopes := .setExit (Nat.le_refl _) hfind hnone }

end JsonSieve.Graph
