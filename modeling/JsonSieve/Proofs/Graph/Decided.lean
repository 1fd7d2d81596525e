import JsonSieve.Proofs.Graph.Spans

/-!
# Laying out expressions and conditions

If laying out a condition succeeds, then its branches begin where `Decides` says (`layCondition_laid`), in
every graph with the blocks of the layout. Nothing but temporaries is declared on the way.
-/

namespace JsonSieve.Graph

open Layout

/-! ## Expressions -/

/-- Nothing but temporaries has been declared, and the loops around have the same exits. -/
structure Layout.Settled (l l' : Layout) : Prop where
  sound : l'.Sound
  evolves : l.Evolves (l.current = some ·) l.blocks.size 0 l'
  loops_eq : l'.loops = l.loops
  decls_eq : l'.decls = { l.decls with temps := l'.decls.temps }

variable {l l' : Layout} {a a' b : Expr} {no yes : Nat}

theorem Layout.Settled.refl (h : l.Sound) : l.Settled l := ⟨h, .refl l, rfl, rfl⟩

structure ExprLaid (a : Expr) (l : Layout) (a' : Expr) (l' : Layout) : Prop extends l.Settled l' where
  current_eq : l'.current = l.current
  hoists : ∀ frameAt code b, l'.Covered frameAt code → l.current = some b →
    Hoists l.decls.temps a (l.rest code b) l'.decls.temps a' (l'.rest code b)

theorem ExprLaid.trans_settled {b' : Expr} {l1 l2 : Layout} (ha : ExprLaid a l a' l1)
    (hb : ExprLaid b l1 b' l2) : l.Settled l2 where
  sound := hb.sound
  evolves := ha.evolves.trans (hb.evolves.within ha.evolves.size_le fun i hi =>
    Or.inl (ha.current_eq ▸ hi))
  loops_eq := hb.loops_eq.trans ha.loops_eq
  decls_eq := by rw [hb.decls_eq, ha.decls_eq]

theorem layExpr_stays (h : Stays a = true) : layExpr a = pure a := by
  cases a <;> simp only [Stays, Bool.false_eq_true] at h <;> (rw [layExpr] <;> simp)

theorem layExpr_looks (h : Looks a = true) : layExpr a = (do
    let t ← newTemp
    emit (.move t a)
    pure (.temp t)) := by
  cases a <;> simp only [Looks, Bool.false_eq_true] at h <;> rw [layExpr]

theorem exprLaid_stays (h : Stays a = true) (hsound : l.Sound)
    (heq : layExpr a l = .ok (a', l')) : ExprLaid a l a' l' := by
  rw [layExpr_stays h] at heq
  obtain ⟨rfl, rfl⟩ := pure_ok heq
  exact { Settled.refl hsound with
    current_eq := rfl
    hoists := fun _ _ _ _ _ => .stays h }

theorem exprLaid_looks (h : Looks a = true) (hsound : l.Sound)
    (heq : layExpr a l = .ok (a', l')) : ExprLaid a l a' l' := by
  rw [layExpr_looks h] at heq
  obtain ⟨t, l1, htemp, heq⟩ := bind_ok heq
  rw [newTemp_eq] at htemp
  cases htemp
  obtain ⟨_, l2, hemit, heq⟩ := bind_ok heq
  obtain ⟨b, hcurrent, rfl⟩ := emit_ok hemit
  obtain ⟨rfl, rfl⟩ := pure_ok heq
  have hcurrent : l.current = some b := hcurrent
  have hready := hsound.ready b hcurrent
  exact {
    sound := (hsound.of_same l.oneTemp rfl rfl rfl).put hready _
    evolves := (Evolves.oneTemp l).trans (.put (l := l.oneTemp) hready.1 (.inl hcurrent) _)
    loops_eq := rfl
    decls_eq := rfl
    current_eq := hcurrent.symm
    hoists := fun frameAt code b' hcovered hb' => by
      rw [hcurrent] at hb'
      cases hb'
      have hrest := rest_put (l := l.oneTemp) hready.1 hcovered
      rw [@rest_of_same code l l.oneTemp b rfl] at hrest
      rw [hrest]
      exact .moved h }

theorem exprLaid_unary {f : Expr → Expr}
    (ha : ∀ {a' : Expr} {l l' : Layout}, l.Sound → layExpr a l = .ok (a', l') → ExprLaid a l a' l')
    (hlay : layExpr (f a) = f <$> layExpr a)
    (hhoists : ∀ {n k n' a' k'}, Hoists n a k n' a' k' → Hoists n (f a) k n' (f a') k') (hsound : l.Sound)
    (heq : layExpr (f a) l = .ok (a', l')) :
    ExprLaid (f a) l a' l' := by
  rw [hlay] at heq
  obtain ⟨a'', heqa, rfl⟩ := map_ok heq
  have h := ha hsound heqa
  exact { h with hoists := fun frameAt code b hcovered hb => hhoists (h.hoists frameAt code b hcovered hb) }

theorem exprLaid_binary {f : Expr → Expr → Expr}
    (ha : ∀ {a' : Expr} {l l' : Layout}, l.Sound → layExpr a l = .ok (a', l') → ExprLaid a l a' l')
    (hb : ∀ {b' : Expr} {l l' : Layout}, l.Sound → layExpr b l = .ok (b', l') → ExprLaid b l b' l')
    (hlay : layExpr (f a b) = (do
      let a ← layExpr a
      let b ← layExpr b
      pure (f a b)))
    (hhoists : ∀ {n k n' a' k' n'' b' k''}, Hoists n a k n' a' k' → Hoists n' b k' n'' b' k'' →
      Hoists n (f a b) k n'' (f a' b') k'') (hsound : l.Sound) (heq : layExpr (f a b) l = .ok (a', l')) :
    ExprLaid (f a b) l a' l' := by
  rw [hlay] at heq
  obtain ⟨a'', l1, heqa, heq⟩ := bind_ok heq
  obtain ⟨b'', l2, heqb, heq⟩ := bind_ok heq
  obtain ⟨rfl, rfl⟩ := pure_ok heq
  have h1 := ha hsound heqa
  have h2 := hb h1.sound heqb
  exact { h1.trans_settled h2 with
    current_eq := h2.current_eq.trans h1.current_eq
    hoists := fun frameAt code i hcovered hi =>
      hhoists (h1.hoists frameAt code i (hcovered.of_le h2.evolves.le) hi)
        (h2.hoists frameAt code i hcovered (h1.current_eq.trans hi)) }

/-- An expression has become one that compares registers and temporaries. -/
theorem layExpr_laid {a a' : Expr} {l l' : Layout} (h : a.still = true) (hsound : l.Sound)
    (heq : layExpr a l = .ok (a', l')) : ExprLaid a l a' l' := by
  cases a with
  | isInteger a =>
    exact exprLaid_unary (f := .isInteger) (layExpr_laid (a := a) h) (by rw [layExpr]) .isInteger hsound heq
  | isMultiple a d =>
    exact exprLaid_unary (f := (.isMultiple · d)) (layExpr_laid (a := a) h) (by rw [layExpr]) .isMultiple hsound heq
  | not a => exact exprLaid_unary (f := .not) (layExpr_laid (a := a) h) (by rw [layExpr]) .not hsound heq
  | compare c a b =>
    simp only [Expr.still, Bool.and_eq_true] at h
    exact exprLaid_binary (f := .compare c) (layExpr_laid h.1) (layExpr_laid h.2) (by rw [layExpr]) .compare hsound heq
  | and a b =>
    simp only [Expr.still, Bool.and_eq_true] at h
    exact exprLaid_binary (f := .and) (layExpr_laid h.1) (layExpr_laid h.2) (by rw [layExpr]) .and hsound heq
  | or a b =>
    simp only [Expr.still, Bool.and_eq_true] at h
    exact exprLaid_binary (f := .or) (layExpr_laid h.1) (layExpr_laid h.2) (by rw [layExpr]) .or hsound heq
  | seq => simp [Expr.still] at h
  | split | matchCase | bitCount => exact exprLaid_looks rfl hsound heq
  | _ => exact exprLaid_stays rfl hsound heq

/-! ## Conditions -/

structure ConditionLaid (a : Expr) (yes no : Nat) (l l' : Layout) : Prop extends l.Settled l' where
  begun : ∃ b, l.current = some b
  current_eq : l'.current = none
  decides : ∀ frameAt code b, l'.Covered frameAt code → l.current = some b → Decides code a (l.rest code b) yes no

theorem layCondition_of_not_connects (h : Connects a = false) (yes no : Nat) : layCondition yes no a = (do
    let condition ← layExpr a
    emit (.branchIf condition yes no)) := by
  cases a <;> simp only [Connects, Bool.true_eq_false] at h <;> (rw [layCondition] <;> simp)

theorem settled_put {b : Nat} (hsound : l.Sound) (hcurrent : l.current = some b) (s : Stmt) :
    l.Settled (l.put b s) where
  sound := hsound.put (hsound.ready b hcurrent) s
  evolves := .put (hsound.ready b hcurrent).1 (.inl hcurrent) s
  loops_eq := rfl
  decls_eq := rfl

theorem conditionLaid_bool (holds : Bool) (hsound : l.Sound)
    (heq : layCondition yes no (.bool holds) l = .ok ((), l')) : ConditionLaid (.bool holds) yes no l l' := by
  have hemit : layCondition yes no (.bool holds) = emit (.branch (if holds then yes else no)) := by
    cases holds <;> rw [layCondition] <;> rfl
  rw [hemit] at heq
  obtain ⟨b, hcurrent, rfl⟩ := emit_ok heq
  exact { settled_put hsound hcurrent _ with
    begun := ⟨b, hcurrent⟩
    current_eq := rfl
    decides := fun frameAt code b' hcovered hb' => by
      rw [hcurrent] at hb'
      cases hb'
      rw [rest_put (hsound.ready b hcurrent).1 hcovered]
      exact .bool }

theorem conditionLaid_test (h : Connects a = false) (hstill : a.still = true) (hsound : l.Sound)
    (heq : layCondition yes no a l = .ok ((), l')) :
    ConditionLaid a yes no l l' := by
  rw [layCondition_of_not_connects h] at heq
  obtain ⟨a', l1, hexpr, heq⟩ := bind_ok heq
  have h1 := layExpr_laid hstill hsound hexpr
  obtain ⟨b, hcurrent, rfl⟩ := emit_ok heq
  have hput := settled_put h1.sound hcurrent (.branchIf a' yes no)
  have hcurrent' : l.current = some b := h1.current_eq ▸ hcurrent
  exact {
    sound := hput.sound
    evolves := h1.evolves.trans (hput.evolves.within h1.evolves.size_le fun i hi =>
      Or.inl (h1.current_eq ▸ hi))
    loops_eq := h1.loops_eq
    decls_eq := h1.decls_eq
    begun := ⟨b, hcurrent'⟩
    current_eq := rfl
    decides := fun frameAt code b' hcovered hb' => by
      rw [hcurrent'] at hb'
      cases hb'
      have hhoists := h1.hoists frameAt code b (hcovered.of_le hput.evolves.le) hcurrent'
      rw [rest_put (h1.sound.ready b hcurrent).1 hcovered] at hhoists
      exact .test h hhoists }

/-- The second operand of a connective is laid out in a block of its own; the names tell which branches
of the first operand lead there. -/
theorem conditionLaid_both (f : Expr → Expr → Expr) (name : String) (yes' no' : Nat → Nat)
    (ha : ∀ {yes no : Nat} {l l' : Layout}, l.Sound → layCondition yes no a l = .ok ((), l') →
      ConditionLaid a yes no l l')
    (hb : ∀ {l l' : Layout}, l.Sound → layCondition yes no b l = .ok ((), l') → ConditionLaid b yes no l l')
    (hlay : layCondition yes no (f a b) = (do
      let middle ← newBlock name
      layCondition (yes' middle) (no' middle) a
      goTo (some middle)
      layCondition yes no b))
    (hdecides : ∀ {code k middle}, Decides code a k (yes' middle) (no' middle) →
      Decides code b (code middle) yes no → Decides code (f a b) k yes no) (hsound : l.Sound)
    (heq : layCondition yes no (f a b) l = .ok ((), l')) :
    ConditionLaid (f a b) yes no l l' := by
  rw [hlay, bind_of_ok (newBlock_eq name l)] at heq
  obtain ⟨_, l1, heqa, heq⟩ := bind_ok heq
  rw [bind_of_ok (goTo_eq _ l1)] at heq
  have h1 := ha (hsound.pushed name) heqa
  obtain ⟨c, hc⟩ := h1.begun
  have hc : l.current = some c := hc
  have hclt := (hsound.ready c hc).1
  have hevolves1 : (l.pushed name).Evolves (l.current = some ·) l.blocks.size 0 l1 :=
    h1.evolves.within (by simp) fun i hi => .inl hi
  -- the block in the middle is still empty and no exit
  have hready : l1.Ready l.blocks.size := h1.evolves.ready (hsound.ready_new name) (by simp)
  have hempty : l1.stmtsAt l.blocks.size = [] := by
    rw [h1.evolves.kept _ (by simp) (by rw [show (l.pushed name).current = some c from hc, Option.some.injEq]; omega),
      stmtsAt_new, stmtsAt_size]
  have hsound1 : (l1.moved (some l.blocks.size)).Sound :=
    h1.sound.moved fun b hb => by
      cases hb
      exact hready
  have h2 := hb hsound1 heq
  have hsize : l.blocks.size ≤ l1.blocks.size := Nat.le_of_lt hready.1
  exact {
    sound := h2.sound
    evolves := (Evolves.pushed name l).trans (hevolves1.trans ((Evolves.moved _ l1).trans
      (h2.evolves.within hsize fun i hi => .inr (by cases hi; exact Nat.le_refl _))))
    loops_eq := h2.loops_eq.trans h1.loops_eq
    decls_eq := by
      rw [h2.decls_eq]
      show ({ l1.decls with temps := _ } : Decls) = _
      rw [h1.decls_eq]
      rfl
    begun := ⟨c, hc⟩
    current_eq := h2.current_eq
    decides := fun frameAt code b' hcovered hb' => by
      have hfirst := h1.decides frameAt code b' (hcovered.of_le ((Layout.Le.moved _ l1).trans h2.evolves.le)) hb'
      rw [rest_of_same (l := l) (stmtsAt_new name l b')] at hfirst
      have hsecond := h2.decides frameAt code l.blocks.size hcovered rfl
      rw [rest_of_empty (l := l1.moved (some l.blocks.size)) hempty] at hsecond
      exact hdecides hfirst hsecond }

theorem layCondition_laid : ∀ {a : Expr}, a.still = true → ∀ {yes no : Nat} {l l' : Layout}, l.Sound →
    layCondition yes no a l = .ok ((), l') → ConditionLaid a yes no l l'
  | .bool holds, _, _, _, _, _, hsound, heq => conditionLaid_bool holds hsound heq
  | .not a, h, _, _, _, _, hsound, heq => by
    rw [layCondition] at heq
    have hlaid := layCondition_laid (a := a) h hsound heq
    exact { hlaid with
      decides := fun frameAt code b hcovered hb => .not (hlaid.decides frameAt code b hcovered hb) }
  | .and a b, h, _, no, _, _, hsound, heq => by
    simp only [Expr.still, Bool.and_eq_true] at h
    exact conditionLaid_both .and "and" id (fun _ => no)
      (layCondition_laid h.1) (layCondition_laid h.2) (by rw [layCondition]; rfl) .and hsound heq
  | .or a b, h, yes, _, _, _, hsound, heq => by
    simp only [Expr.still, Bool.and_eq_true] at h
    exact conditionLaid_both .or "or" (fun _ => yes) id
      (layCondition_laid h.1) (layCondition_laid h.2) (by rw [layCondition]; rfl) .or hsound heq
  | .seq .., h, _, _, _, _, _, _ => by simp [Expr.still] at h
  | .isInteger _, h, _, _, _, _, hsound, heq | .isMultiple .., h, _, _, _, _, hsound, heq
  | .compare .., h, _, _, _, _, hsound, heq | .split _, h, _, _, _, _, hsound, heq
  | .matchCase _, h, _, _, _, _, hsound, heq | .bitCount _, h, _, _, _, _, hsound, heq
  | .num _, h, _, _, _, _, hsound, heq | .int _, h, _, _, _, _, hsound, heq
  | .size _, h, _, _, _, _, hsound, heq | .tokenKind, h, _, _, _, _, hsound, heq
  | .tokenNumber, h, _, _, _, _, hsound, heq | .tokenComplete, h, _, _, _, _, hsound, heq
  | .tokenLength, h, _, _, _, _, hsound, heq | .isToken _, h, _, _, _, _, hsound, heq
  | .count _, h, _, _, _, _, hsound, heq | .bitTest .., h, _, _, _, _, hsound, heq
  | .bitsAll _, h, _, _, _, _, hsound, heq | .bitsAny _, h, _, _, _, _, hsound, heq
  | .unique _, h, _, _, _, _, hsound, heq | .temp _, h, _, _, _, _, hsound, heq =>
    conditionLaid_test rfl h hsound heq

end JsonSieve.Graph
