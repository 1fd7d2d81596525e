import JsonSieve.Stmt.Basic

/-!
# Drafts of frames

While a frame is written, its declarations are collected in the order in which they are made and
numbered per kind. A finished frame declares first and then runs its body.
-/

namespace JsonSieve

/-- The declarations of a frame in the making, and how many there are of each kind. -/
structure Draft where
  decls : List Stmt := []
  counters : Nat := 0
  matchers : Nat := 0
  bitvecs : Nat := 0
  splits : Nat := 0
  uniques : Nat := 0
  loops : Nat := 0
  deriving Inhabited

/-- Writing a frame: declarations are made on the way, and a bad pattern ends it. -/
abbrev Lowering := StateT Draft (Except BadPattern)

namespace Draft

def counter (name : String) : Lowering Nat := fun d =>
  .ok (d.counters, { d with
    decls := d.decls ++ [.counter d.counters name], counters := d.counters + 1 })

def matcher (m : Matcher) : Lowering Nat := fun d =>
  .ok (d.matchers, { d with
    decls := d.decls ++ [.matcher d.matchers m], matchers := d.matchers + 1 })

def bitvec (name : String) (size : Nat) : Lowering Nat := fun d =>
  .ok (d.bitvecs, { d with
    decls := d.decls ++ [.bitvec d.bitvecs name size], bitvecs := d.bitvecs + 1 })

def split (frames : List Stmt) : Lowering Nat := fun d =>
  .ok (d.splits, { d with
    decls := d.decls ++ [.splitList d.splits frames], splits := d.splits + 1 })

def unique : Lowering Nat := fun d =>
  .ok (d.uniques, { d with decls := d.decls ++ [.uniqueSet d.uniques], uniques := d.uniques + 1 })

def loop : Lowering Nat := fun d => .ok (d.loops, { d with loops := d.loops + 1 })

def quietly {α : Type} (step : Except BadPattern α) : Lowering α := fun d =>
  match step with
  | .ok a => .ok (a, d)
  | .error e => .error e

/-- The frame that declares what has been collected and then runs its body. -/
def finish (body : Lowering Stmt) : Except BadPattern Stmt :=
  match body {} with
  | .ok (s, d) => .ok (.seq (d.decls ++ [s]))
  | .error e => .error e

end Draft

end JsonSieve
