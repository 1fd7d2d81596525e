import Mathlib.Logic.Relation
import JsonSieve.Proofs.Graph.Laying
import JsonSieve.Proofs.Tree.Legal

/-!
# How a layout grows

While a statement is laid out, blocks, temporaries and nested frames are added, and what is put into blocks
names only what is there. `Grown` says this, and one lemma for each step says how it goes on.
-/

namespace JsonSieve.Graph

open Legal (Test)

/-! ## Statements of graphs -/

inductive PlacedWord (d : Draft) (temps : Nat) : Expr → Prop where
  | length : PlacedWord d temps .tokenLength
  | count {c : Nat} (h : c < d.counters) : PlacedWord d temps (.count c)
  | temp {t : Nat} (h : t < temps) : PlacedWord d temps (.temp t)

inductive Looked (d : Draft) : Expr → Prop where
  | split {s : Nat} (h : s < d.splits) : Looked d (.split s)
  | matchCase {m : Nat} (h : m < d.matchers) : Looked d (.matchCase m)
  | bitCount {bv : Nat} (h : bv < d.bitvecs) : Looked d (.bitCount bv)

/-- A statement names what is declared, and temporaries that are there. What the check of a graph looks at is
left to it. -/
inductive Placed (d : Draft) (fits : Nat → Prop) (temps : Nat) : Stmt → Prop where
  | valid : Placed d fits temps .valid
  | invalid (reason : Reason) : Placed d fits temps (.invalid reason)
  | token : Placed d fits temps .token
  | consume : Placed d fits temps .consume
  | untoken : Placed d fits temps .untoken
  | incr {c : Nat} (h : c < d.counters) : Placed d fits temps (.incr c)
  | bitSet {bv : Nat} (h : bv < d.bitvecs) (bit : Nat) : Placed d fits temps (.bitSet bv bit)
  | bitClear {bv : Nat} (h : bv < d.bitvecs) (bit : Nat) : Placed d fits temps (.bitClear bv bit)
  | splitBits {bv s : Nat} (h : bv < d.bitvecs) (hs : s < d.splits) : Placed d fits temps (.splitBits bv s)
  | call (f : Nat) : Placed d fits temps (.call f)
  | move (t : Nat) {e : Expr} (h : Looked d e) : Placed d fits temps (.move t e)
  | branch (b : Nat) : Placed d fits temps (.branch b)
  | branchIf {e : Expr} (h : Test d fits (PlacedWord d temps) e) (yes no : Nat) :
    Placed d fits temps (.branchIf e yes no)
  | branchCase (t : Nat) (cases : List (UInt32 × Nat)) (otherwise : Nat) :
    Placed d fits temps (.branchCase t cases (some otherwise))

variable {d : Draft} {s : Stmt}

theorem PlacedWord.mono {temps temps' : Nat} (hle : temps ≤ temps') {e : Expr}
    (h : PlacedWord d temps e) : PlacedWord d temps' e := by
  cases h with
  | length => exact .length
  | count h => exact .count h
  | temp h => exact .temp (Nat.lt_of_lt_of_le h hle)

theorem test_mono {fits : Nat → Prop} {word word' : Expr → Prop} (hle : ∀ e, word e → word' e) {e : Expr}
    (h : Test d fits word e) : Test d fits word' e := by
  cases h with
  | isToken kind => exact .isToken kind
  | bitTest h bit => exact .bitTest h bit
  | bitsAll h => exact .bitsAll h
  | unique h => exact .unique h
  | isInteger => exact .isInteger
  | isMultiple x => exact .isMultiple x
  | words c h hn => exact .words c (hle _ h) hn
  | reals c x => exact .reals c x

theorem Placed.mono {fits : Nat → Prop} {temps temps' : Nat} (hle : temps ≤ temps')
    (h : Placed d fits temps s) : Placed d fits temps' s := by
  cases h with
  | valid => exact .valid
  | invalid reason => exact .invalid reason
  | token => exact .token
  | consume => exact .consume
  | untoken => exact .untoken
  | incr h => exact .incr h
  | bitSet h bit => exact .bitSet h bit
  | bitClear h bit => exact .bitClear h bit
  | splitBits h hs => exact .splitBits h hs
  | call f => exact .call f
  | move t h => exact .move t h
  | branch b => exact .branch b
  | branchIf h yes no => exact .branchIf (test_mono (fun _ => PlacedWord.mono hle) h) yes no
  | branchCase t cases otherwise => exact .branchCase t cases otherwise

def Open (stmts : List Stmt) : Prop := ∀ s ∈ stmts, s.isTerminator = false

/-- The last statement ends control, and no other does. -/
def Shut (stmts : List Stmt) : Prop :=
  ∃ before last, stmts = before ++ [last] ∧ Open before ∧ last.isTerminator = true

theorem successors_of_not_isTerminator (h : s.isTerminator = false) : s.successors = [] := by
  cases s <;> simp_all [Stmt.isTerminator, Stmt.successors]

theorem Open.append {stmts : List Stmt} (h : Open stmts) (hs : s.isTerminator = false) : Open (stmts ++ [s]) := by
  intro s' hs'
  rcases List.mem_append.1 hs' with hs' | hs'
  · exact h s' hs'
  · rw [List.mem_singleton.1 hs']
    exact hs

/-! ## Growing -/

def Layout.Holds (d : Draft) (fits : Nat → Prop) (l : Layout) : Prop :=
  ∀ i, ∀ s ∈ l.stmtsAt i, Placed d fits l.decls.temps s

/-- The layout `l` has grown from `l0`, by the nested frames `more`. -/
structure Grown (d : Draft) (fits : Nat → Prop) (l0 l : Layout) (more : List Stmt) : Prop where
  holds : l0.Holds d fits → l.Holds d fits
  decls_eq : l.decls = { l0.decls with temps := l.decls.temps }
  nested_eq : l.nested = l0.nested ++ more

namespace Grown

variable {d : Draft} {fits : Nat → Prop} {l0 l l' : Layout} {more : List Stmt}

theorem refl (l : Layout) : Grown d fits l l [] :=
  ⟨id, rfl, (List.append_nil _).symm⟩

variable (h : Grown d fits l0 l more)

include h

theorem trans {later : List Stmt} (h' : Grown d fits l l' later) : Grown d fits l0 l' (more ++ later) where
  holds hholds := h'.holds (h.holds hholds)
  decls_eq := by rw [h'.decls_eq, h.decls_eq]
  nested_eq := by rw [h'.nested_eq, h.nested_eq, List.append_assoc]

theorem moved (block : Option Nat) : Grown d fits l0 (l.moved block) more :=
  ⟨h.holds, h.decls_eq, h.nested_eq⟩

theorem looped (loops : List LoopScope) : Grown d fits l0 (l.looped loops) more :=
  ⟨h.holds, h.decls_eq, h.nested_eq⟩

theorem oneTemp : Grown d fits l0 l.oneTemp more where
  holds hholds i s hs := (h.holds hholds i s hs).mono (Nat.le_succ _)
  decls_eq := by
    show { l.decls with temps := l.decls.temps + 1 } = _
    rw [h.decls_eq]
    rfl
  nested_eq := h.nested_eq

theorem hoisted (body : Stmt) : Grown d fits l0 (l.hoisted body) (more ++ [body]) where
  holds := h.holds
  decls_eq := h.decls_eq
  nested_eq := by rw [← List.append_assoc, ← h.nested_eq]; rfl

theorem pushed (name : String) : Grown d fits l0 (l.pushed name) more := by
  refine ⟨fun hholds i s hs => h.holds hholds i s ?_, h.decls_eq, h.nested_eq⟩
  rw [Layout.stmtsAt, Layout.getElem?_pushed] at hs
  split at hs
  · cases hs
  · exact hs

theorem put (b : Nat) (hs : Placed d fits l.decls.temps s) : Grown d fits l0 (l.put b s) more := by
  refine ⟨fun hholds i t ht => ?_, h.decls_eq, h.nested_eq⟩
  rw [Layout.stmtsAt, Layout.getElem?_put] at ht
  split at ht
  · cases hblock : l.blocks[i]? with
    | none =>
      rw [hblock] at ht
      cases ht
    | some block =>
      rw [hblock] at ht
      rcases List.mem_append.1 ht with ht | ht
      · exact h.holds hholds i t (by rwa [Layout.stmtsAt, hblock])
      · rwa [List.mem_singleton.1 ht]
  · exact h.holds hholds i t ht

end Grown

end JsonSieve.Graph
