import JsonSieve.Graph.Fold
import JsonSieve.Tree.Lower

/-!
# Legal trees

What the frames of a tree program look like: conditions compare what they can compare, what is named
is declared, loops read until the end of a container, and every frame ends control. `Legal.Frame` says
this of a frame and of the frames nested in it; `fits` tells which counts are compared with. A legal
tree has no constant conditions (`Frame.simplified_eq`). Whether something stands behind a statement
that ends control is told apart, by `Stmt.ordered`.
-/

namespace JsonSieve

mutual

def Stmt.falls : Stmt → Bool
  | .valid | .invalid _ | .leave _ => false
  | .seq list => Stmt.allFall list
  | .ite _ yes no => yes.falls || no.falls
  | .dispatch _ cases otherwise => Stmt.someFalls cases || otherwise.falls
  | _ => true

/-- Does control go on behind all statements of a list? -/
def Stmt.allFall : List Stmt → Bool
  | [] => true
  | s :: rest => s.falls && Stmt.allFall rest

def Stmt.someFalls : List (UInt32 × Stmt) → Bool
  | [] => false
  | (_, s) :: rest => s.falls || Stmt.someFalls rest

end

mutual

/-- The frames nested in a statement, in the order in which they are met. -/
def Stmt.inner : Stmt → List Stmt
  | .frame body => [body]
  | .ite _ yes no => yes.inner ++ no.inner
  | .loop _ _ body => body.inner
  | .seq list => Stmt.innerAll list
  | .splitList _ frames => frames
  | .dispatch _ cases otherwise => Stmt.innerCases cases ++ otherwise.inner
  | _ => []

def Stmt.innerAll : List Stmt → List Stmt
  | [] => []
  | s :: rest => s.inner ++ Stmt.innerAll rest

def Stmt.innerCases : List (UInt32 × Stmt) → List Stmt
  | [] => []
  | (_, s) :: rest => s.inner ++ Stmt.innerCases rest

end

mutual

def Stmt.silent : Stmt → Bool
  | .nop => true
  | .seq list => Stmt.allSilent list
  | _ => false

def Stmt.allSilent : List Stmt → Bool
  | [] => true
  | s :: rest => s.silent && Stmt.allSilent rest

end

mutual

/-- Does nothing stand behind a statement that ends control? -/
def Stmt.ordered : Stmt → Bool
  | .seq list => Stmt.allOrdered list
  | .ite _ yes no => yes.ordered && no.ordered
  | .loop _ _ body => body.ordered
  | .dispatch _ cases otherwise => Stmt.casesOrdered cases && otherwise.ordered
  | _ => true

def Stmt.allOrdered : List Stmt → Bool
  | [] => true
  | s :: rest => s.ordered && if s.falls then Stmt.allOrdered rest else Stmt.allSilent rest

def Stmt.casesOrdered : List (UInt32 × Stmt) → Bool
  | [] => true
  | (_, s) :: rest => s.ordered && Stmt.casesOrdered rest

end

theorem Stmt.allFall_iff {list : List Stmt} : Stmt.allFall list = true ↔ ∀ s ∈ list, s.falls = true := by
  induction list with
  | nil => simp [Stmt.allFall]
  | cons s list ih => simp [Stmt.allFall, ih]

open Stmt (innerAll innerCases framesOf frames simplified simplifiedAll allOrdered allFall)

namespace Legal

variable (d : Draft) (fits : Nat → Prop)

inductive Word : Expr → Prop where
  | length : Word .tokenLength
  | count {c : Nat} (h : c < d.counters) : Word (.count c)
  | split {s : Nat} (h : s < d.splits) : Word (.split s)
  | bitCount {bv : Nat} (h : bv < d.bitvecs) : Word (.bitCount bv)

/-- Conditions without connectives, over words of a kind. -/
inductive Test (word : Expr → Prop) : Expr → Prop where
  | isToken (kind : Token.Kind) : Test word (.isToken kind)
  | bitTest {bv : Nat} (h : bv < d.bitvecs) (bit : Nat) : Test word (.bitTest bv bit)
  | bitsAll {bv : Nat} (h : bv < d.bitvecs) : Test word (.bitsAll bv)
  | unique {u : Nat} (h : u < d.uniques) : Test word (.unique u)
  | isInteger : Test word (.isInteger .tokenNumber)
  | isMultiple (x : Binary64) : Test word (.isMultiple .tokenNumber x)
  | words (c : Comparison) {a : Expr} {n : Nat} (h : word a) (hn : fits n) :
    Test word (.compare c a (.size n))
  | reals (c : Comparison) (x : Binary64) : Test word (.compare c .tokenNumber (.num x))

inductive Condition : Expr → Prop where
  | test {e : Expr} (h : Test d fits (Word d) e) : Condition e
  | not {e : Expr} (h : Test d fits (Word d) e) : Condition (.not e)
  | or {a b : Expr} (ha : Condition a) (hb : Condition b) : Condition (.or a b)

variable (frame : Stmt → Prop)

/-- Statements of the body of a frame, where `frame` tells what the nested frames are. -/
inductive Code : Stmt → Prop where
  | nop : Code .nop
  | valid : Code .valid
  | invalid (reason : Reason) : Code (.invalid reason)
  | token : Code .token
  | consume : Code .consume
  | untoken : Code .untoken
  | incr {c : Nat} (h : c < d.counters) : Code (.incr c)
  | bitSet {bv : Nat} (h : bv < d.bitvecs) (bit : Nat) : Code (.bitSet bv bit)
  | bitClear {bv : Nat} (h : bv < d.bitvecs) (bit : Nat) : Code (.bitClear bv bit)
  | splitBits {bv s : Nat} (h : bv < d.bitvecs) (hs : s < d.splits) : Code (.splitBits bv s)
  | frame {body : Stmt} (h : frame body) : Code (.frame body)
  | ite {e : Expr} {yes no : Stmt} (he : Condition d fits e) (hyes : Code yes) (hno : Code no) :
    Code (.ite e yes no)
  | seq {list : List Stmt} (h : ∀ s ∈ list, Code s) : Code (.seq list)
  | untilEnd (loop : Nat) (name : String) (final : Token.Kind) {body : List Stmt}
    (h : Code (.seq body)) : Code (Constraint.untilEnd loop name final body)
  | dispatch {m : Nat} {cases : List (UInt32 × Stmt)} {otherwise : Stmt} (hm : m < d.matchers)
    (hcases : ∀ c ∈ cases, Code c.2) (h : Code otherwise) : Code (.dispatch m cases otherwise)

/-- Drafts whose declarations have been made one after another. -/
inductive Declares : Draft → Prop where
  | empty : Declares {}
  | counter {d : Draft} (name : String) (h : Declares d) : Declares { d with
      decls := d.decls ++ [.counter d.counters name], counters := d.counters + 1 }
  | matcher {d : Draft} (m : Matcher) (h : Declares d) : Declares { d with
      decls := d.decls ++ [.matcher d.matchers m], matchers := d.matchers + 1 }
  | bitvec {d : Draft} (name : String) (size : Nat) (h : Declares d) : Declares { d with
      decls := d.decls ++ [.bitvec d.bitvecs name size], bitvecs := d.bitvecs + 1 }
  | split {d : Draft} {frames : List Stmt} (hframes : ∀ f ∈ frames, frame f) (h : Declares d) :
    Declares { d with
      decls := d.decls ++ [.splitList d.splits frames], splits := d.splits + 1 }
  | unique {d : Draft} (h : Declares d) : Declares { d with
      decls := d.decls ++ [.uniqueSet d.uniques], uniques := d.uniques + 1 }
  | loop {d : Draft} (h : Declares d) : Declares { d with loops := d.loops + 1 }

/-- Frames nested less than so many levels deep: declarations, and a body that ends control. -/
def Frame : Nat → Stmt → Prop
  | 0, _ => False
  | n + 1, body => ∃ (d : Draft) (s : Stmt), body = .seq (d.decls ++ [s]) ∧ Declares (Frame n) d ∧
    Code d fits (Frame n) s ∧ s.falls = false

end Legal

namespace Legal

variable {d : Draft} {frame : Stmt → Prop}

/-! ## Other frames -/

variable {frame' : Stmt → Prop}

theorem Code.mono {fits : Nat → Prop}
    (hframe : ∀ s, frame s → frame' s) {s : Stmt} (h : Code d fits frame s) : Code d fits frame' s := by
  induction h with
  | nop => exact .nop
  | valid => exact .valid
  | invalid reason => exact .invalid reason
  | token => exact .token
  | consume => exact .consume
  | untoken => exact .untoken
  | incr h => exact .incr h
  | bitSet h bit => exact .bitSet h bit
  | bitClear h bit => exact .bitClear h bit
  | splitBits h hs => exact .splitBits h hs
  | frame h => exact .frame (hframe _ h)
  | ite he _ _ ihyes ihno => exact .ite he ihyes ihno
  | seq _ ih => exact .seq ih
  | untilEnd loop name final _ ih => exact .untilEnd loop name final ih
  | dispatch hm _ _ ihcases ih => exact .dispatch hm ihcases ih

theorem Declares.mono (hframe : ∀ s, frame s → frame' s) (h : Declares frame d) : Declares frame' d := by
  induction h with
  | empty => exact .empty
  | counter name _ ih => exact .counter name ih
  | matcher m _ ih => exact .matcher m ih
  | bitvec name size _ ih => exact .bitvec name size ih
  | split hframes _ ih => exact .split (fun f hf => hframe f (hframes f hf)) ih
  | unique _ ih => exact .unique ih
  | loop _ ih => exact .loop ih

/-! ## Nested frames -/

section

variable {d : Draft} {fits : Nat → Prop} {frame : Stmt → Prop}

theorem framesOf_append (a b : List Stmt) : framesOf (a ++ b) = framesOf a + framesOf b := by
  induction a with
  | nil => rw [List.nil_append, framesOf, Nat.zero_add]
  | cons s a ih => rw [List.cons_append, framesOf, framesOf, ih, Nat.add_assoc]

theorem innerAll_append (a b : List Stmt) : innerAll (a ++ b) = innerAll a ++ innerAll b := by
  induction a with
  | nil => rfl
  | cons s a ih => rw [List.cons_append, innerAll, innerAll, ih, List.append_assoc]

variable {list : List Stmt}

theorem mem_innerAll {b : Stmt} : b ∈ innerAll list ↔ ∃ s ∈ list, b ∈ s.inner := by
  induction list with
  | nil => simp [innerAll]
  | cons s list ih => simp [innerAll, ih]

variable {cases : List (UInt32 × Stmt)}

theorem mem_innerCases {b : Stmt} : b ∈ innerCases cases ↔ ∃ c ∈ cases, b ∈ c.2.inner := by
  induction cases with
  | nil => simp [innerCases]
  | cons c cases ih => simp [innerCases, ih]

theorem Condition.frames_eq {e : Expr} (h : Condition d fits e) : e.frames = 0 := by
  have htest : ∀ {e : Expr}, Test d fits (Word d) e → e.frames = 0 := by
    intro e h
    cases h with
    | words c h => cases h <;> simp [Expr.frames]
    | _ => simp [Expr.frames]
  induction h with
  | test h => exact htest h
  | not h => rw [Expr.frames, htest h]
  | or _ _ iha ihb => rw [Expr.frames, iha, ihb]

theorem framesOf_eq (h : ∀ s ∈ list, s.frames = s.inner.length + framesOf s.inner) :
    framesOf list = (innerAll list).length + framesOf (innerAll list) := by
  induction list with
  | nil => simp [framesOf, innerAll]
  | cons s list ih =>
    rw [framesOf, innerAll, h s List.mem_cons_self,
      ih fun s hs => h s (.tail _ hs), framesOf_append, List.length_append]
    omega

theorem framesOfCases_eq
    (h : ∀ c ∈ cases, c.2.frames = c.2.inner.length + framesOf c.2.inner) : Stmt.framesOfCases cases =
      (innerCases cases).length + framesOf (innerCases cases) := by
  induction cases with
  | nil => simp [Stmt.framesOfCases, framesOf, innerCases]
  | cons c cases ih =>
    rw [Stmt.framesOfCases, innerCases, h c List.mem_cons_self,
      ih fun c hc => h c (.tail _ hc), framesOf_append, List.length_append]
    omega

theorem Code.frames_eq {s : Stmt} (h : Code d fits frame s) : s.frames = s.inner.length + framesOf s.inner := by
  induction h with
  | frame => simp [frames, Stmt.inner, framesOf]
  | ite he _ _ ihyes ihno =>
    rw [frames, he.frames_eq, ihyes, ihno, Stmt.inner, framesOf_append, List.length_append]
    omega
  | seq _ ih => rw [frames, framesOf_eq ih, Stmt.inner]
  | untilEnd loop name final _ ih =>
    simpa [Constraint.untilEnd, frames, framesOf, Stmt.inner, innerAll, Expr.frames] using ih
  | dispatch _ _ _ ihcases ih =>
    rw [frames, framesOfCases_eq ihcases, ih, Stmt.inner, framesOf_append, List.length_append]
    omega
  | _ => simp [frames, Stmt.inner, framesOf]

theorem Declares.each (h : Declares frame d) : ∀ s ∈ d.decls,
    s.frames = s.inner.length + framesOf s.inner ∧ s.falls = true ∧ s.ordered = true := by
  induction h with
  | empty => nofun
  | loop _ ih => exact ih
  | counter _ _ ih | matcher _ _ ih | bitvec _ _ _ ih | unique _ ih | split _ _ ih =>
    intro s hs
    rcases List.mem_append.1 hs with hs | hs
    · exact ih s hs
    · rw [List.mem_singleton.1 hs]
      simp [frames, Stmt.inner, framesOf, Stmt.falls, Stmt.ordered]

theorem Code.mem_inner {s : Stmt} (h : Code d fits frame s) : ∀ b ∈ s.inner, frame b := by
  induction h with
  | frame h => simpa [Stmt.inner] using h
  | ite _ _ _ ihyes ihno =>
    intro b hb
    rw [Stmt.inner] at hb
    exact (List.mem_append.1 hb).elim (ihyes b) (ihno b)
  | seq _ ih =>
    intro b hb
    rw [Stmt.inner] at hb
    obtain ⟨s, hs, hb⟩ := mem_innerAll.1 hb
    exact ih s hs b hb
  | untilEnd loop name final _ ih =>
    intro b hb
    exact ih b (by simpa [Constraint.untilEnd, Stmt.inner, innerAll] using hb)
  | dispatch _ _ _ ihcases ih =>
    intro b hb
    rw [Stmt.inner] at hb
    rcases List.mem_append.1 hb with hb | hb
    · obtain ⟨c, hc, hb⟩ := mem_innerCases.1 hb
      exact ihcases c hc b hb
    · exact ih b hb
  | _ => simp [Stmt.inner]

theorem Declares.mem_inner (h : Declares frame d) : ∀ b ∈ innerAll d.decls, frame b := by
  suffices hmem : ∀ b, ∀ s ∈ d.decls, b ∈ s.inner → frame b by
    intro b hb
    obtain ⟨s, hs, hb⟩ := mem_innerAll.1 hb
    exact hmem b s hs hb
  intro b s hs hb
  induction h with
  | empty => cases hs
  | loop _ ih => exact ih hs
  | split hframes _ ih =>
    rcases List.mem_append.1 hs with hs | hs
    · exact ih hs
    · rw [List.mem_singleton.1 hs, Stmt.inner] at hb
      exact hframes b hb
  | counter _ _ ih | matcher _ _ ih | bitvec _ _ _ ih | unique _ ih =>
    rcases List.mem_append.1 hs with hs | hs
    · exact ih hs
    · rw [List.mem_singleton.1 hs] at hb
      simp [Stmt.inner] at hb

theorem allOrdered_append {a : List Stmt} (h : ∀ s ∈ a, s.falls = true ∧ s.ordered = true)
    (b : List Stmt) : allOrdered (a ++ b) = allOrdered b := by
  induction a with
  | nil => rfl
  | cons s a ih =>
    obtain ⟨hfalls, hordered⟩ := h s (.head _)
    rw [List.cons_append, allOrdered, hfalls, hordered, Bool.true_and, if_pos rfl]
    exact ih fun s hs => h s (.tail _ hs)

theorem ordered_snoc (h : ∀ s ∈ list, s.falls = true ∧ s.ordered = true)
    (s : Stmt) : (Stmt.seq (list ++ [s])).ordered = s.ordered := by
  rw [Stmt.ordered, allOrdered_append h]
  simp [allOrdered, Stmt.allSilent]

theorem inner_frame (decls : List Stmt) (s : Stmt) :
    (Stmt.seq (decls ++ [s])).inner = innerAll decls ++ s.inner := by
  rw [Stmt.inner, innerAll_append, innerAll, innerAll, List.append_nil]

theorem Frame.frames_eq {n : Nat} {body : Stmt} (h : Frame fits n body) :
    body.frames = body.inner.length + framesOf body.inner := by
  cases n with
  | zero => exact absurd h id
  | succ n =>
    obtain ⟨d, s, rfl, hdecls, hcode, -⟩ := h
    rw [frames, Stmt.inner]
    refine framesOf_eq fun s' hs => ?_
    rcases List.mem_append.1 hs with hs | hs
    · exact (hdecls.each s' hs).1
    · rw [List.mem_singleton.1 hs]
      exact hcode.frames_eq

theorem Frame.mem_inner {n : Nat} {body : Stmt} (h : Frame fits (n + 1) body) : ∀ b ∈ body.inner, Frame fits n b := by
  obtain ⟨d, s, rfl, hdecls, hcode, -⟩ := h
  intro b hb
  rw [inner_frame] at hb
  exact (List.mem_append.1 hb).elim (hdecls.mem_inner b) (hcode.mem_inner b)

end

/-! ## No constant conditions -/

section

variable {d : Draft} {fits : Nat → Prop} {frame : Stmt → Prop}

variable {e : Expr}

theorem Word.simplified_eq (h : Word d e) : e.simplified = e := by
  cases h <;> simp [Expr.simplified]

theorem Test.simplified_eq (h : Test d fits (Word d) e) : e.simplified = e := by
  cases h with
  | words c h => simp [Expr.simplified, h.simplified_eq]
  | _ => simp [Expr.simplified]

theorem Test.fold_eq (h : Test d fits (Word d) e) : e.fold = e := by
  cases h with
  | words c h => cases h <;> simp [Expr.fold]
  | _ => simp [Expr.fold]

theorem Condition.simplified_eq (h : Condition d fits e) : e.simplified = e := by
  induction h with
  | test h => exact h.simplified_eq
  | not h => rw [Expr.simplified, h.simplified_eq]
  | or ha hb iha ihb => rw [Expr.simplified, iha, ihb]

theorem Condition.ne_bool (h : Condition d fits e) (b : Bool) : e ≠ .bool b := by
  rintro rfl
  cases h with
  | test h => cases h

theorem Condition.fold_eq (h : Condition d fits e) : e.fold = e := by
  induction h with
  | test h => exact h.fold_eq
  | not h =>
    rw [Expr.fold, h.fold_eq]
    cases h <;> rfl
  | or ha hb iha ihb =>
    rw [Expr.fold, iha, ihb]
    split
    · exact absurd rfl (ha.ne_bool true)
    · exact absurd rfl (hb.ne_bool true)
    · exact absurd rfl (ha.ne_bool false)
    · exact absurd rfl (hb.ne_bool false)
    · rfl

theorem simplifiedAll_eq {list : List Stmt} (h : ∀ s ∈ list, s.simplified = s) : simplifiedAll list = list := by
  induction list with
  | nil => simp [simplifiedAll]
  | cons s list ih =>
    rw [simplifiedAll, h s List.mem_cons_self, ih fun s' hs => h s' (List.mem_cons_of_mem s hs)]

theorem simplifiedCases_eq {cases : List (UInt32 × Stmt)} (h : ∀ c ∈ cases, c.2.simplified = c.2) :
    Stmt.simplifiedCases cases = cases := by
  induction cases with
  | nil => simp [Stmt.simplifiedCases]
  | cons c cases ih =>
    rw [Stmt.simplifiedCases, h c List.mem_cons_self, ih fun c' hc => h c' (List.mem_cons_of_mem c hc)]

theorem simplified_ite (h : Condition d fits e) {yes no : Stmt} (hyes : yes.simplified = yes)
    (hno : no.simplified = no) : (Stmt.ite e yes no).simplified = .ite e yes no := by
  rw [simplified, h.simplified_eq, h.fold_eq]
  split
  · exact absurd rfl (h.ne_bool true)
  · exact absurd rfl (h.ne_bool false)
  · rw [hyes, hno]

theorem Code.simplified_eq (hframe : ∀ body, frame body → body.simplified = body) {s : Stmt}
    (h : Code d fits frame s) : s.simplified = s := by
  induction h with
  | frame h => rw [simplified, hframe _ h]
  | ite he _ _ ihyes ihno => exact simplified_ite he ihyes ihno
  | seq _ ih => rw [simplified, simplifiedAll_eq ih]
  | @untilEnd loop name final body h ih =>
    have hleave : (Stmt.leave loop).simplified = .leave loop := by simp [simplified]
    have htoken : Stmt.token.simplified = .token := by simp [simplified]
    rw [Constraint.untilEnd, simplified, simplified, simplifiedAll, htoken,
      simplifiedAll, simplified_ite (.test (.isToken final) : Condition d fits _) hleave ih,
      simplifiedAll]
  | dispatch _ _ _ ihcases ih => rw [simplified, simplifiedCases_eq ihcases, ih]
  | _ => simp [simplified]

theorem Declares.simplified_eq (hframe : ∀ body, frame body → body.simplified = body)
    (h : Declares frame d) : ∀ s ∈ d.decls, s.simplified = s := by
  induction h with
  | empty => nofun
  | loop _ ih => exact ih
  | split hframes _ ih =>
    intro s hs
    rcases List.mem_append.1 hs with hs | hs
    · exact ih s hs
    · rw [List.mem_singleton.1 hs, simplified, simplifiedAll_eq fun f hf => hframe f (hframes f hf)]
  | counter _ _ ih | matcher _ _ ih | bitvec _ _ _ ih | unique _ ih =>
    intro s hs
    rcases List.mem_append.1 hs with hs | hs
    · exact ih s hs
    · rw [List.mem_singleton.1 hs]
      simp [simplified]

theorem Frame.simplified_eq {n : Nat} {body : Stmt} (h : Frame fits n body) : body.simplified = body := by
  induction n generalizing body with
  | zero => exact absurd h id
  | succ n ih =>
    obtain ⟨d, s, rfl, hdecls, hcode, -⟩ := h
    rw [simplified, simplifiedAll_eq]
    intro s' hs
    rcases List.mem_append.1 hs with hs | hs
    · exact hdecls.simplified_eq (fun _ => ih) s' hs
    · rw [List.mem_singleton.1 hs]
      exact hcode.simplified_eq fun _ => ih

end

end Legal

end JsonSieve
