import JsonSieve.Stmt.Listing

/-!
# Faults of graphs

What can be wrong with a tree that is to become a graph, and with a graph.
-/

namespace JsonSieve.Graph

inductive Declared where
  | counter
  | matcher
  | bitvec
  | splitList
  | uniqueSet
  deriving DecidableEq, Repr, Inhabited

def Declared.name : Declared → String
  | .counter => "counter"
  | .matcher => "matcher"
  | .bitvec => "bitvector"
  | .splitList => "split list"
  | .uniqueSet => "unique set"

inductive Defect where
  | noBlocks
  | misplaced (block position : Nat)
  | empty (block : Nat)
  | openEnd (block : Nat)
  | terminatorInside (block : Nat)
  | missingTarget (block target : Nat)
  | missingCallee (frame : Nat)
  | undeclaredTemp (temp : Nat)
  | missingBranch (frame : Nat)
  | unreachable (block : Nat)
  deriving DecidableEq, Repr, Inhabited

def Defect.message : Defect → String
  | .noBlocks => "no blocks"
  | .misplaced block position => s!"b{block} stored at position {position}"
  | .empty block => s!"b{block} is empty"
  | .openEnd block => s!"b{block} does not end in a terminator"
  | .terminatorInside block => s!"b{block} has a terminator before its end"
  | .missingTarget block target => s!"b{block} branches to missing b{target}"
  | .missingCallee frame => s!"call to missing frame{frame}"
  | .undeclaredTemp temp => s!"undeclared t{temp}"
  | .missingBranch frame => s!"split list names missing frame{frame}"
  | .unreachable block => s!"b{block} is unreachable"

inductive Fault where
  | fallsThrough
  | afterTerminator (s : Stmt)
  | outOfOrder (kind : Declared)
  | unknownLoop (loop : Nat)
  | notOfTree (s : Stmt)
  | defect (frame : Nat) (defect : Defect)

def Fault.message : Fault → String
  | .fallsThrough => "frame body falls through without VALID or INVALID"
  | .afterTerminator s => s!"statement after a terminator: {s.line}"
  | .outOfOrder kind => s!"{kind.name} declared out of order"
  | .unknownLoop loop => s!"BREAK of unknown loop{loop}"
  | .notOfTree s => s!"control-flow statement in tree input: {s.line}"
  | .defect frame d => s!"frame{frame}: {d.message}"

end JsonSieve.Graph
