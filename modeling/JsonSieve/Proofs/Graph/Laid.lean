import JsonSieve.Proofs.Graph.Grown

/-!
# Layouts within graphs

A later layout has more of the graph (`Layout.Le`). A place of a graph is what remains of a block from there
on (`Layout.rest`). Legal conditions and the joins of several ends are laid out here: `layCondition_decides`
and `join_joins` say that the layout has grown as `Grown` says.
-/

namespace JsonSieve.Graph

open Layout Legal

/-! ## Places -/

/-- Where control goes on behind one of several branches. -/
inductive Joins (code : Nat → List Stmt) : Option (List Stmt) → Option (List Stmt) → Prop where
  | ended {k : Option (List Stmt)} : Joins code none k
  | same {k : List Stmt} : Joins code (some k) (some k)
  | jump {j : Nat} {k : List Stmt} : Joins code (some (.branch j :: k)) (some (code j))

/-! ## Layouts within graphs -/

structure Layout.Le (l l' : Layout) : Prop where
  stmts : ∀ i, l.stmtsAt i <+: l'.stmtsAt i
  nested : ∃ more, l'.nested = l.nested ++ more ∧ l'.nextFrame = l.nextFrame + more.length

namespace Layout.Le

theorem trans {a b c : Layout} (h : a.Le b) (h' : b.Le c) : a.Le c := by
  refine ⟨fun i => (h.stmts i).trans (h'.stmts i), ?_⟩
  obtain ⟨more, hmore, hnext⟩ := h.nested
  obtain ⟨more', hmore', hnext'⟩ := h'.nested
  refine ⟨more ++ more', ?_, ?_⟩
  · rw [hmore', hmore, List.append_assoc]
  · rw [hnext', hnext, List.length_append, Nat.add_assoc]

theorem put {l : Layout} {b : Nat} (hb : b < l.blocks.size) (s : Stmt) : l.Le (l.put b s) := by
  refine ⟨fun i => ?_, [], by simp [Layout.put]⟩
  rw [stmtsAt_put hb]
  split
  · exact List.prefix_append ..
  · exact List.prefix_rfl

theorem moved (block : Option Nat) (l : Layout) : l.Le (l.moved block) :=
  ⟨fun _ => List.prefix_rfl, [], by simp [Layout.moved]⟩

theorem looped (loops : List LoopScope) (l : Layout) : l.Le (l.looped loops) :=
  ⟨fun _ => List.prefix_rfl, [], by simp [Layout.looped]⟩

end Layout.Le

/-- A graph has the blocks of a layout, and its frames have the bodies that the layout has met. -/
structure Layout.Covered (l : Layout) (frameAt : Nat → Stmt → Prop) (code : Nat → List Stmt) :
    Prop where
  stmts : ∀ i, l.stmtsAt i <+: code i
  nested : ∀ i body f, l.nested[i]? = some body → f + l.nested.length = l.nextFrame + i → frameAt f body

variable {code : Nat → List Stmt} {l : Layout}

variable {frameAt : Nat → Stmt → Prop}

theorem Layout.Covered.of_le {l' : Layout} (h : l'.Covered frameAt code) (hle : l.Le l') : l.Covered frameAt code := by
  refine ⟨fun i => (hle.stmts i).trans (h.stmts i), fun i body f hbody hf => ?_⟩
  obtain ⟨more, hmore, hnext⟩ := hle.nested
  have hi : i < l.nested.length := (List.getElem?_eq_some_iff.1 hbody).1
  refine h.nested i body f ?_ ?_
  · rw [hmore, List.getElem?_append_left hi, hbody]
  · rw [hmore, hnext, List.length_append]
    omega

/-- What a graph has in a block behind the statements of a layout. -/
def Layout.rest (code : Nat → List Stmt) (l : Layout) (b : Nat) : List Stmt :=
  (code b).drop (l.stmtsAt b).length

theorem rest_of_same {l' : Layout} {b : Nat} (h : l'.stmtsAt b = l.stmtsAt b) : l'.rest code b = l.rest code b := by
  rw [Layout.rest, Layout.rest, h]

theorem rest_of_empty {b : Nat} (h : l.stmtsAt b = []) : l.rest code b = code b := by
  simp [Layout.rest, h]

theorem rest_put {b : Nat} {s : Stmt} (hb : b < l.blocks.size) (h : (l.put b s).Covered frameAt code) :
    l.rest code b = s :: (l.put b s).rest code b := by
  have hstmts := h.stmts b
  rw [stmtsAt_put hb, if_pos rfl] at hstmts
  obtain ⟨k, hk⟩ := hstmts
  rw [Layout.rest, Layout.rest, stmtsAt_put hb, if_pos rfl, ← hk]
  simp

/-! ## Conditions -/

structure Decided (d : Draft) (fits : Nat → Prop) (l l' : Layout) : Prop where
  loops_eq : l'.loops = l.loops
  grown : Grown d fits l l' []

section Conditions

variable {d : Draft} {fits : Nat → Prop} {l l' : Layout} {b yes no : Nat} {e : Expr}

/-- A test is laid out as it is, or compares a temporary into which a word is moved. -/
theorem layExpr_test (h : Test d fits (Word d) e) :
    ((∀ temps, Test d fits (PlacedWord d temps) e) ∧ layExpr e = pure e) ∨
    ∃ c a n, Looked d a ∧ fits n ∧ layExpr e = (do
      let t ← newTemp
      emit (.move t a)
      pure (.compare c (.temp t) (.size n))) := by
  have hnumber : layExpr .tokenNumber = pure .tokenNumber := by rw [layExpr] <;> simp
  cases h with
  | isToken kind => exact .inl ⟨fun _ => .isToken kind, by rw [layExpr] <;> simp⟩
  | bitTest h bit => exact .inl ⟨fun _ => .bitTest h bit, by rw [layExpr] <;> simp⟩
  | bitsAll h => exact .inl ⟨fun _ => .bitsAll h, by rw [layExpr] <;> simp⟩
  | unique h => exact .inl ⟨fun _ => .unique h, by rw [layExpr] <;> simp⟩
  | isInteger => exact .inl ⟨fun _ => .isInteger, by rw [layExpr, hnumber, map_pure]⟩
  | isMultiple x => exact .inl ⟨fun _ => .isMultiple x, by rw [layExpr, hnumber, map_pure]⟩
  | reals c x =>
    have hx : layExpr (.num x) = pure (.num x) := by rw [layExpr] <;> simp
    exact .inl ⟨fun _ => .reals c x, by rw [layExpr, hnumber, pure_bind, hx, pure_bind]⟩
  | @words c a n h hn =>
    have hsize : layExpr (.size n) = pure (.size n) := by rw [layExpr] <;> simp
    cases h with
    | length =>
      have hlength : layExpr .tokenLength = pure .tokenLength := by rw [layExpr] <;> simp
      exact .inl ⟨fun _ => .words c .length hn, by rw [layExpr, hlength, pure_bind, hsize, pure_bind]⟩
    | @count i h =>
      have hcount : layExpr (.count i) = pure (.count i) := by rw [layExpr] <;> simp
      exact .inl ⟨fun _ => .words c (.count h) hn, by rw [layExpr, hcount, pure_bind, hsize, pure_bind]⟩
    | @split s h =>
      refine .inr ⟨c, .split s, n, .split h, hn, ?_⟩
      simp only [layExpr, hsize, bind_assoc, pure_bind]
    | @bitCount bv h =>
      refine .inr ⟨c, .bitCount bv, n, .bitCount h, hn, ?_⟩
      simp only [layExpr, hsize, bind_assoc, pure_bind]

theorem layCondition_test (h : Test d fits (Word d) e) :
    layCondition yes no e = layExpr e >>= fun condition => emit (.branchIf condition yes no) := by
  cases h <;> rw [layCondition] <;> simp

theorem layCondition_decides (h : Condition d fits e) : ∀ {l : Layout} {b : Nat} (yes no : Nat),
    l.current = some b → ∃ l', layCondition yes no e l = .ok ((), l') ∧ Decided d fits l l' := by
  have htest : ∀ {e : Expr}, Test d fits (Word d) e → ∀ {l : Layout} {b : Nat} (yes no : Nat),
      l.current = some b → ∃ l', layCondition yes no e l = .ok ((), l') ∧ Decided d fits l l' := by
    intro e h l b yes no hcurrent
    rw [layCondition_test h]
    obtain ⟨hplaced, heq⟩ | ⟨c, a, n, ha, hn, heq⟩ := layExpr_test h
    · rw [heq, pure_bind]
      exact ⟨_, emit_eq hcurrent _, rfl, (Grown.refl l).put b (.branchIf (hplaced _) yes no)⟩
    · simp only [heq, bind_assoc, pure_bind]
      refine ⟨_, (bind_of_ok (newTemp_eq l)).trans ((bind_of_ok (emit_eq (l := l.oneTemp) hcurrent _)).trans
        (emit_eq rfl _)), rfl, ?_⟩
      exact ((Grown.refl l).oneTemp.put b (.move _ ha)).put b
        (.branchIf (.words c (.temp (Nat.lt_succ_self _)) hn) yes no)
  induction h with
  | test h => exact htest h
  | not h =>
    intro l b yes no hcurrent
    rw [layCondition]
    exact htest h no yes hcurrent
  | @or left right _ _ iha ihb =>
    intro l b yes no hcurrent
    obtain ⟨l1, heq1, h1⟩ := @iha (l.pushed "or") b yes l.blocks.size hcurrent
    obtain ⟨l2, heq2, h2⟩ := @ihb (l1.moved (some l.blocks.size)) _ yes no rfl
    refine ⟨l2, ?_, h2.loops_eq.trans h1.loops_eq, ?_⟩
    · rw [layCondition, bind_of_ok (newBlock_eq "or" l), bind_of_ok heq1, bind_of_ok (goTo_eq _ _), heq2]
    · exact ((((Grown.refl l).pushed "or").trans h1.grown).moved (some l.blocks.size)).trans h2.grown

end Conditions

/-! ## Joins -/

section Joins

variable {d : Draft} {fits : Nat → Prop}

theorem branches_to (live : List Nat) (j : Nat) (l : Layout) : ∃ l', (live.forM fun b => do
        goTo (some b)
        emit (.branch j)) l = .ok ((), l') ∧ l'.loops = l.loops ∧ Grown d fits l l' [] := by
  induction live generalizing l with
  | nil => exact ⟨l, rfl, rfl, .refl l⟩
  | cons c live ih =>
    have hstep : (goTo (some c) >>= fun _ => emit (.branch j)) l = .ok ((), (l.moved (some c)).put c (.branch j)) :=
      (bind_of_ok (goTo_eq (some c) l)).trans (emit_eq rfl _)
    obtain ⟨l', heq, hloops, hgrown⟩ := ih ((l.moved (some c)).put c (.branch j))
    exact ⟨l', (bind_of_ok hstep).trans heq, hloops, (((Grown.refl l).moved (some c)).put c (.branch j)).trans hgrown⟩

structure Joined (d : Draft) (fits : Nat → Prop) (ends : List (Option Nat)) (l l' : Layout) : Prop where
  loops_eq : l'.loops = l.loops
  falls_eq : l'.current.isSome = ends.any Option.isSome
  grown : Grown d fits l l' []

theorem join_joins (ends : List (Option Nat)) (name : String) (l : Layout) :
    ∃ l', join ends name l = .ok ((), l') ∧ Joined d fits ends l l' := by
  rw [join]
  by_cases hlive : ends.filterMap id = []
  · refine ⟨l.moved none, ?_, rfl, ?_, (Grown.refl l).moved none⟩
    · rw [hlive]
      exact goTo_eq none l
    · rw [List.filterMap_eq_nil_iff] at hlive
      simpa [moved] using hlive
  · have hne : (ends.filterMap id).isEmpty = false := by simpa using hlive
    obtain ⟨l1, heq, hloops, hgrown1⟩ := branches_to (d := d) (ends.filterMap id) l.blocks.size (l.pushed name)
    refine ⟨l1.moved (some l.blocks.size), ?_, hloops, ?_,
      ((((Grown.refl l).pushed name).trans hgrown1).moved (some l.blocks.size))⟩
    · rw [hne]
      exact (bind_of_ok (newBlock_eq name l)).trans ((bind_of_ok heq).trans (goTo_eq _ _))
    · obtain ⟨i, hi⟩ := List.exists_mem_of_ne_nil _ hlive
      have hany : ends.any Option.isSome = true :=
        List.any_eq_true.2 ⟨some i, by simpa using hi, rfl⟩
      rw [hany]
      rfl

end Joins

end JsonSieve.Graph
