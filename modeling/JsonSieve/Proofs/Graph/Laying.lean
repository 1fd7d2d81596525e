import Mathlib.Data.List.Permutation
import Std.Internal.Do.WP.Lemmas
import JsonSieve.Graph.Layout

/-!
# Steps of a layout

The steps by which a frame is laid out, as equations on layouts: a step with a result goes on with that
result (`bind_of_ok`), and each of the small steps gives a layout with a name of its own. Statements are
put at the end of a block (`Layout.put`); no step takes statements away.
-/

namespace JsonSieve.Graph

variable {α β : Type} {l : Layout}

theorem pure_eq (a : α) (l : Layout) : (pure a : Laying α) l = .ok (a, l) := rfl

theorem bind_of_ok {x : Laying α} {f : α → Laying β} {l' : Layout} {a : α}
    (h : x l = .ok (a, l')) : (x >>= f) l = f a l' := by
  show (x l >>= fun p => f p.1 p.2) = f a l'
  rw [h]
  rfl

theorem bind_of_error {x : Laying α} {f : α → Laying β} {e : Fault} (h : x l = .error e) : (x >>= f) l = .error e := by
  show (x l >>= fun p => f p.1 p.2) = .error e
  rw [h]
  rfl

theorem map_of_ok {x : Laying α} {f : α → β} {l' : Layout} {a : α}
    (h : x l = .ok (a, l')) : (f <$> x) l = .ok (f a, l') := by
  show (x l >>= fun p => _) = _
  rw [h]
  rfl

def codeOf (blocks : List Block) (b : Nat) : List Stmt := (blocks[b]?.map (·.stmts)).getD []

namespace Layout

def pushed (name : String) (l : Layout) : Layout :=
  { l with blocks := l.blocks.push ⟨l.blocks.size, name, []⟩ }

def moved (block : Option Nat) (l : Layout) : Layout := { l with current := block }

def put (b : Nat) (s : Stmt) (l : Layout) : Layout :=
  { l with
    blocks := l.blocks.modify b fun block => { block with stmts := block.stmts ++ [s] }
    current := if s.isTerminator then none else some b }

def looped (loops : List LoopScope) (l : Layout) : Layout := { l with loops }

def oneTemp (l : Layout) : Layout := { l with decls := { l.decls with temps := l.decls.temps + 1 } }

def hoisted (body : Stmt) (l : Layout) : Layout :=
  { l with nextFrame := l.nextFrame + 1, nested := l.nested ++ [body] }

theorem newBlock_eq (name : String) (l : Layout) : newBlock name l = .ok (l.blocks.size, l.pushed name) := rfl

theorem goTo_eq (block : Option Nat) (l : Layout) : goTo block l = .ok ((), l.moved block) := rfl

theorem position_eq (l : Layout) : position l = .ok (l.current, l) := rfl

theorem newTemp_eq (l : Layout) : newTemp l = .ok (l.decls.temps, l.oneTemp) := rfl

theorem hoist_eq (body : Stmt) (l : Layout) : hoist body l = .ok (l.nextFrame, l.hoisted body) := rfl

variable {b : Nat} {l : Layout}

theorem emit_eq (h : l.current = some b) (s : Stmt) : emit s l = .ok ((), l.put b s) := by
  rw [emit, h]
  rfl

theorem emit_none (h : l.current = none) (s : Stmt) : emit s l = .error (.afterTerminator s) := by
  rw [emit, h]

theorem branchOn_some (h : l.current = some b) (target : Nat) :
    branchOn target l = .ok ((), l.put b (.branch target)) := by
  rw [branchOn, bind_of_ok (position_eq l), h]
  exact emit_eq h _

theorem branchOn_none (h : l.current = none) (target : Nat) : branchOn target l = .ok ((), l) := by
  rw [branchOn, bind_of_ok (position_eq l), h]
  rfl

variable {loops : List LoopScope}

theorem exitOf_new {id : Nat} {name : String}
    (h : l.loops = ⟨id, name, none⟩ :: loops) : exitOf id l = .ok (l.blocks.size,
      (l.pushed (name ++ "_exit")).looped (⟨id, name, some l.blocks.size⟩ :: loops)) := by
  simp [exitOf, h, setExit, pushed, looped]

theorem leaveLoop_eq {scope : LoopScope}
    (h : l.loops = scope :: loops) : leaveLoop l = .ok ((), (l.looped loops).moved scope.exit) := by
  simp [leaveLoop, h, looped, moved]

/-! ## Blocks -/

def stmtsAt (l : Layout) (b : Nat) : List Stmt := (l.blocks[b]?.map (·.stmts)).getD []

@[simp] theorem blocks_moved (block : Option Nat) (l : Layout) : (l.moved block).blocks = l.blocks := rfl

@[simp] theorem blocks_looped (loops : List LoopScope) (l : Layout) : (l.looped loops).blocks = l.blocks := rfl

@[simp] theorem blocks_oneTemp (l : Layout) : l.oneTemp.blocks = l.blocks := rfl

@[simp] theorem blocks_hoisted (body : Stmt) (l : Layout) : (l.hoisted body).blocks = l.blocks := rfl

@[simp] theorem size_pushed (name : String) (l : Layout) : (l.pushed name).blocks.size = l.blocks.size + 1 := by
  simp [pushed]

@[simp] theorem size_put (b : Nat) (s : Stmt) (l : Layout) : (l.put b s).blocks.size = l.blocks.size := by
  simp [put]

theorem getElem?_pushed (name : String) (l : Layout) (i : Nat) : (l.pushed name).blocks[i]? =
      if i = l.blocks.size then some ⟨l.blocks.size, name, []⟩ else l.blocks[i]? := by
  simp [pushed, Array.getElem?_push]

theorem getElem?_put (b : Nat) (s : Stmt) (l : Layout) (i : Nat) : (l.put b s).blocks[i]? =
      if i = b then l.blocks[i]?.map fun block => { block with stmts := block.stmts ++ [s] }
      else l.blocks[i]? := by
  simp only [put, Array.getElem?_modify]
  split
  · next h => rw [if_pos h.symm]
  · next h => rw [if_neg (Ne.symm h)]

theorem stmtsAt_pushed (name : String) (l : Layout) (i : Nat) :
    (l.pushed name).stmtsAt i = if i = l.blocks.size then [] else l.stmtsAt i := by
  simp only [stmtsAt, getElem?_pushed]
  split <;> rfl

theorem stmtsAt_put (hb : b < l.blocks.size) (s : Stmt) (i : Nat) :
    (l.put b s).stmtsAt i = if i = b then l.stmtsAt i ++ [s] else l.stmtsAt i := by
  simp only [stmtsAt, getElem?_put]
  split
  · next h => simp [h, hb]
  · rfl

end Layout

end JsonSieve.Graph
