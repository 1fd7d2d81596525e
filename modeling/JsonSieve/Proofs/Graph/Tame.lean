import JsonSieve.Graph.Fold

/-!
# Expressions that run nothing

A `still` expression runs no statements, so simplifying it leaves it as it is (`Expr.simplified_of_still`).
In a `tame` one, moreover, no connective joins what looks ahead: dropping an operand of a connective must not
drop a value that would be marked as seen or a frame that would be run.
-/

namespace JsonSieve

def Expr.looksAhead : Expr → Bool
  | .split _ | .unique _ => true
  | .isInteger e | .isMultiple e _ | .not e | .seq _ e => e.looksAhead
  | .and a b | .or a b | .compare _ a b => a.looksAhead || b.looksAhead
  | _ => false

def Expr.still : Expr → Bool
  | .seq .. => false
  | .isInteger e | .isMultiple e _ | .not e => e.still
  | .and a b | .or a b | .compare _ a b => a.still && b.still
  | _ => true

/-- No part of the expression runs statements, and no connective joins what looks ahead. -/
def Expr.tame : Expr → Bool
  | .seq .. => false
  | .isInteger e | .isMultiple e _ | .not e => e.tame
  | .compare _ a b => a.tame && b.tame
  | .and a b | .or a b => !a.looksAhead && !b.looksAhead && (a.tame && b.tame)
  | _ => true

mutual

/-- All expressions of the statement are tame, also in the frames nested in it. -/
def Stmt.tame : Stmt → Bool
  | .ite condition yes no => condition.tame && (yes.tame && no.tame)
  | .loop _ _ body | .frame body => body.tame
  | .seq list | .splitList _ list => Stmt.tameAll list
  | .dispatch _ cases otherwise => Stmt.tameCases cases && otherwise.tame
  | .branchIf condition _ _ => condition.tame
  | .move _ source => source.tame
  | _ => true

def Stmt.tameAll : List Stmt → Bool
  | [] => true
  | s :: rest => s.tame && Stmt.tameAll rest

def Stmt.tameCases : List (UInt32 × Stmt) → Bool
  | [] => true
  | (_, s) :: rest => s.tame && Stmt.tameCases rest

end

theorem Expr.still_of_tame {a : Expr} (h : a.tame = true) : a.still = true := by
  cases a with
  | isInteger a | isMultiple a _ | not a => exact Expr.still_of_tame (a := a) h
  | and a b | or a b =>
    simp only [Expr.tame, Bool.and_eq_true] at h
    rw [Expr.still, Expr.still_of_tame h.2.1, Expr.still_of_tame h.2.2]
    rfl
  | compare _ a b =>
    simp only [Expr.tame, Bool.and_eq_true] at h
    rw [Expr.still, Expr.still_of_tame h.1, Expr.still_of_tame h.2]
    rfl
  | seq => simp [Expr.tame] at h
  | _ => rfl

theorem Expr.still_fold {a : Expr} (h : a.still = true) : a.fold.still = true := by
  cases a with
  | isInteger a =>
    have ih := Expr.still_fold (a := a) h
    rw [Expr.fold]
    split
    · rfl
    · exact ih
  | not a =>
    have ih := Expr.still_fold (a := a) h
    rw [Expr.fold]
    split
    · rfl
    · next x heq =>
      rw [heq] at ih
      exact ih
    · exact ih
  | compare _ a b | and a b | or a b =>
    simp only [Expr.still, Bool.and_eq_true] at h
    have iha := Expr.still_fold h.1
    have ihb := Expr.still_fold h.2
    rw [Expr.fold]
    split <;> simp [Expr.still, iha, ihb]
  | seq => simp [Expr.still] at h
  | isMultiple => exact h
  | _ => rfl

/-- An expression that does nothing has no frames, and simplifying it changes nothing. -/
theorem Expr.plain_of_still {a : Expr} (h : a.still = true) : a.frames = 0 ∧ a.simplified = a := by
  cases a with
  | isInteger a | isMultiple a _ | not a =>
    obtain ⟨hframes, hsimplified⟩ := Expr.plain_of_still (a := a) h
    rw [Expr.frames, Expr.simplified, hframes, hsimplified]
    exact ⟨rfl, rfl⟩
  | and a b | or a b | compare _ a b =>
    simp only [Expr.still, Bool.and_eq_true] at h
    obtain ⟨hframes, hsimplified⟩ := Expr.plain_of_still h.1
    obtain ⟨hframes', hsimplified'⟩ := Expr.plain_of_still h.2
    rw [Expr.frames, Expr.simplified, hframes, hframes', hsimplified, hsimplified']
    exact ⟨rfl, rfl⟩
  | seq => simp [Expr.still] at h
  | _ => simp [Expr.frames, Expr.simplified]

theorem Expr.frames_of_still {a : Expr} (h : a.still = true) : a.frames = 0 := (Expr.plain_of_still h).1

theorem Expr.simplified_of_still {a : Expr} (h : a.still = true) : a.simplified = a := (Expr.plain_of_still h).2

end JsonSieve
