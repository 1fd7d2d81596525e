import JsonSieve.Proofs.Graph.Laid

/-!
# Statements laid out

A legal statement is laid out where control is if nothing stands behind a statement that ends control,
and fails otherwise (`layStmt_lays`). What has been laid out has grown as `Grown` says. There is one lemma for
each kind of statement; loops and dispatches have a lemma of their own for what stands in front of the body
and of the cases.
-/

namespace JsonSieve.Graph

open Layout Legal

structure LaidOut (d : Draft) (fits : Nat → Prop) (s : Stmt) (l l' : Layout) : Prop where
  loops_eq : l'.loops = l.loops
  falls_eq : l'.current.isSome = s.falls
  grown : Grown d fits l l' s.inner

/-- A statement is laid out, or something stands behind a statement that ends control. -/
def Lays (d : Draft) (fits : Nat → Prop) (s : Stmt) (l : Layout) (x : Except Fault (Unit × Layout)) : Prop :=
  (s.ordered = true ∧ ∃ l', x = .ok ((), l') ∧ LaidOut d fits s l l') ∨ (s.ordered = false ∧ ∃ f, x = .error f)

section Ended

variable {d : Draft} {fits : Nat → Prop} {frame : Stmt → Prop} {l : Layout}

theorem layCondition_ended {e : Expr} (h : Condition d fits e) : ∀ {l : Layout} {yes no : Nat},
    l.current = none → ∃ f, layCondition yes no e l = .error f := by
  have htest : ∀ {e : Expr}, Test d fits (Word d) e → ∀ {l : Layout} {yes no : Nat},
      l.current = none → ∃ f, layCondition yes no e l = .error f := by
    intro e h l yes no hcurrent
    rw [layCondition_test h]
    obtain ⟨-, heq⟩ | ⟨c, a, n, -, -, heq⟩ := layExpr_test h
    · rw [heq, pure_bind]
      exact ⟨_, emit_none hcurrent _⟩
    · simp only [heq, bind_assoc]
      exact ⟨_, (bind_of_ok (newTemp_eq l)).trans (bind_of_error (emit_none (l := l.oneTemp) hcurrent _))⟩
  induction h with
  | test h => exact htest h
  | not h =>
    intro l yes no hcurrent
    rw [layCondition]
    exact htest h hcurrent
  | or _ _ iha _ =>
    intro l yes no hcurrent
    obtain ⟨f, heq⟩ := @iha (l.pushed "or") yes l.blocks.size hcurrent
    exact ⟨f, by rw [layCondition, bind_of_ok (newBlock_eq "or" l), bind_of_error heq]⟩

/-- After control has ended nothing can be laid out. -/
theorem layStmt_ended {s : Stmt} (h : Code d fits frame s) : ∀ {l : Layout}, l.current = none →
    (s.silent = true ∧ s.inner = [] ∧ layStmt s l = .ok ((), l)) ∨
    (s.silent = false ∧ ∃ f, layStmt s l = .error f) := by
  induction h with
  | nop => exact fun _ => .inl ⟨rfl, rfl, by rw [layStmt, pure_eq]⟩
  | frame =>
    intro l hcurrent
    refine .inr ⟨rfl, .afterTerminator (.call l.nextFrame), ?_⟩
    rw [layStmt, bind_of_ok (hoist_eq _ l), emit_none (l := l.hoisted _) hcurrent]
  | @ite e yes no he _ _ _ _ =>
    intro l hcurrent
    refine .inr ⟨rfl, ?_⟩
    rw [layStmt]
    obtain ⟨f, heq⟩ := @layCondition_ended _ _ _ he ((l.pushed "then").pushed "join")
      l.blocks.size (l.pushed "then").blocks.size hcurrent
    obtain ⟨f', heq'⟩ := @layCondition_ended _ _ _ he ((l.pushed "then").pushed "else")
      l.blocks.size (l.pushed "then").blocks.size hcurrent
    split
    · exact ⟨f, by rw [bind_of_ok (newBlock_eq _ _), bind_of_ok (newBlock_eq _ _), bind_of_error heq]⟩
    · exact ⟨f', by rw [bind_of_ok (newBlock_eq _ _), bind_of_ok (newBlock_eq _ _), bind_of_error heq']⟩
  | @seq list _ ih =>
    intro l hcurrent
    rw [layStmt, Stmt.silent, Stmt.inner]
    induction list with
    | nil => exact .inl ⟨rfl, rfl, by rw [layAll, pure_eq]⟩
    | cons s list ihlist =>
      rw [layAll, Stmt.allSilent, Stmt.innerAll]
      obtain ⟨hsilent, hinner, heq⟩ | ⟨hsilent, f, heq⟩ := ih s (.head _) hcurrent
      · rw [bind_of_ok heq, hsilent, hinner, Bool.true_and, List.nil_append]
        exact ihlist (fun s hs => ‹∀ s ∈ _, Code d fits frame s› s (List.mem_cons_of_mem _ hs))
          fun s hs => ih s (.tail _ hs)
      · rw [hsilent, Bool.false_and]
        exact .inr ⟨rfl, f, bind_of_error heq⟩
  | untilEnd loop name final =>
    intro l hcurrent
    refine .inr ⟨rfl, .afterTerminator (.branch l.blocks.size), ?_⟩
    rw [Constraint.untilEnd, layStmt, bind_of_ok (newBlock_eq name l),
      bind_of_error (emit_none (l := l.pushed name) hcurrent _)]
  | @dispatch m =>
    intro l hcurrent
    refine .inr ⟨rfl, .afterTerminator (.move l.decls.temps (.matchCase m)), ?_⟩
    rw [layStmt, bind_of_ok (newTemp_eq l), bind_of_error (emit_none (l := l.oneTemp) hcurrent _)]
  | _ => exact fun hcurrent => .inr ⟨rfl, _, by rw [layStmt, emit_none hcurrent]⟩

end Ended

section Statements

variable {d : Draft} {fits : Nat → Prop} {frame : Stmt → Prop} {l l' : Layout} {b : Nat} {s : Stmt}

def Layable (d : Draft) (fits : Nat → Prop) (s : Stmt) : Prop :=
  ∀ (l : Layout) (b : Nat), l.current = some b → Lays d fits s l (layStmt s l)

theorem layable_emit (hlay : layStmt s = emit s) (hplaced : ∀ temps, Placed d fits temps s)
    (hfalls : s.falls = !s.isTerminator) (hinner : s.inner = []) (hordered : s.ordered = true) :
    Layable d fits s := by
  intro l b hcurrent
  refine .inl ⟨hordered, l.put b s, by rw [hlay, emit_eq hcurrent], rfl, ?_, ?_⟩
  · rw [hfalls, Layout.put]
    cases s.isTerminator <;> rfl
  · rw [hinner]
    exact (Grown.refl l).put b (hplaced _)

theorem layable_frame (body : Stmt) : Layable d fits (.frame body) := by
  intro l b hcurrent
  refine .inl ⟨rfl, (l.hoisted body).put b (.call l.nextFrame), ?_, rfl, rfl, ?_⟩
  · rw [layStmt, bind_of_ok (hoist_eq body l), emit_eq (l := l.hoisted body) hcurrent]
  · exact ((Grown.refl l).hoisted body).put b (.call _)

theorem layable_seq {list : List Stmt} (hcode : ∀ s ∈ list, Code d fits frame s)
    (h : ∀ s ∈ list, Layable d fits s) : Layable d fits (.seq list) := by
  induction list with
  | nil =>
    intro l b hcurrent
    exact .inl ⟨rfl, l, by rw [layStmt, layAll, pure_eq], rfl, by rw [hcurrent]; rfl, .refl l⟩
  | cons s list ih =>
    intro l b hcurrent
    have hlist := ih (fun s hs => hcode s (.tail _ hs)) fun s hs => h s (.tail _ hs)
    rw [Lays, layStmt, layAll, Stmt.ordered, Stmt.allOrdered]
    obtain ⟨hordered, l1, heq, h1⟩ | ⟨hordered, f, heq⟩ := h s (.head _) l b hcurrent
    · rw [bind_of_ok heq, hordered, Bool.true_and]
      cases hfalls : s.falls with
      | true =>
        have hsome := h1.falls_eq
        rw [hfalls] at hsome
        obtain ⟨c, hc⟩ := Option.isSome_iff_exists.1 hsome
        have hrest := hlist l1 c hc
        rw [Lays, layStmt, Stmt.ordered] at hrest
        rw [if_pos rfl]
        refine hrest.imp_left ?_
        rintro ⟨hordered, l2, heq2, h2⟩
        refine ⟨hordered, l2, heq2, h2.loops_eq.trans h1.loops_eq, ?_, h1.grown.trans h2.grown⟩
        rw [h2.falls_eq, Stmt.falls, Stmt.falls, Stmt.allFall, hfalls, Bool.true_and]
      | false =>
        have hnone := h1.falls_eq
        rw [hfalls] at hnone
        rw [Option.isSome_eq_false_iff, Option.isNone_iff_eq_none] at hnone
        have hrest := layStmt_ended (.seq fun s hs => hcode s (.tail _ hs) : Code d fits frame (.seq list)) hnone
        rw [layStmt, Stmt.silent] at hrest
        rw [if_neg (by simp)]
        refine hrest.imp_left ?_
        rintro ⟨hsilent, hinner, heq2⟩
        refine ⟨hsilent, l1, heq2, h1.loops_eq, ?_, ?_⟩
        · rw [h1.falls_eq, Stmt.falls, Stmt.allFall, hfalls, Bool.false_and]
        · rw [Stmt.inner] at hinner
          rw [Stmt.inner, Stmt.innerAll, hinner, List.append_nil]
          exact h1.grown
    · exact .inr ⟨by rw [hordered, Bool.false_and], f, bind_of_error heq⟩

/-- A condition has been laid out, with new blocks for its branches, and control is at the first one. -/
structure Forked (d : Draft) (fits : Nat → Prop) (l l' : Layout) : Prop where
  loops_eq : l'.loops = l.loops
  current_eq : l'.current = some l.blocks.size
  grown : Grown d fits l l' []

theorem fork {e : Expr} (he : Condition d fits e) (hcurrent : l.current = some b) (second : String) :
    ∃ l', Forked d fits l l' ∧ ∀ f : Nat → Nat → Laying Unit, (do
        let first ← newBlock "then"
        let second ← newBlock second
        layCondition first second e
        goTo (some first)
        f first second) l = f l.blocks.size (l.blocks.size + 1) l' := by
  obtain ⟨l1, heq, h⟩ := @layCondition_decides _ _ _ he ((l.pushed "then").pushed second) b
    l.blocks.size (l.blocks.size + 1) hcurrent
  refine ⟨l1.moved (some l.blocks.size), ⟨h.loops_eq, rfl, ?_⟩, fun f => ?_⟩
  · exact ((((Grown.refl l).pushed "then").pushed second).trans h.grown).moved _
  · rw [bind_of_ok (newBlock_eq _ _), bind_of_ok (newBlock_eq _ _), size_pushed, bind_of_ok heq,
      bind_of_ok (goTo_eq _ _)]

theorem branchOn_grown (j : Nat) (l : Layout) :
    ∃ l', branchOn j l = .ok ((), l') ∧ l'.loops = l.loops ∧ Grown d fits l l' [] := by
  cases hend : l.current with
  | none => exact ⟨l, branchOn_none hend j, rfl, .refl l⟩
  | some c => exact ⟨l.put c (.branch j), branchOn_some hend j, rfl, (Grown.refl l).put c (.branch j)⟩

theorem layable_ite_nop {e : Expr} {yes : Stmt} (he : Condition d fits e)
    (hyes : Layable d fits yes) : Layable d fits (.ite e yes .nop) := by
  intro l b hcurrent
  obtain ⟨l1, h1, hfork⟩ := fork he hcurrent "join"
  rw [Lays, Stmt.ordered, layStmt, Stmt.isNop, if_pos rfl, hfork fun first join =>
    layStmt yes >>= fun _ => branchOn join >>= fun _ => goTo (some join)]
  obtain ⟨hordered, l2, heq, h2⟩ | ⟨hordered, f, heq⟩ := hyes l1 l.blocks.size h1.current_eq
  · obtain ⟨l3, heq3, hloops3, hgrown3⟩ := @branchOn_grown d fits (l.blocks.size + 1) l2
    refine .inl ⟨by rw [hordered]; rfl, l3.moved (some (l.blocks.size + 1)), ?_,
      hloops3.trans (h2.loops_eq.trans h1.loops_eq), by simp [moved, Stmt.falls], ?_⟩
    · rw [bind_of_ok heq, bind_of_ok heq3, goTo_eq]
    · exact ((h1.grown.trans h2.grown).trans hgrown3).moved _
  · exact .inr ⟨by rw [hordered, Bool.false_and], f, bind_of_error heq⟩

theorem layable_ite {e : Expr} {yes no : Stmt} (he : Condition d fits e) (hyes : Layable d fits yes)
    (hno : Layable d fits no) (hnop : no.isNop = false) : Layable d fits (.ite e yes no) := by
  intro l b hcurrent
  obtain ⟨l1, h1, hfork⟩ := fork he hcurrent "else"
  rw [Lays, Stmt.ordered, layStmt, hnop, if_neg (by simp), hfork fun _ second =>
    layStmt yes >>= fun _ => position >>= fun firstEnd => goTo (some second) >>= fun _ =>
      layStmt no >>= fun _ => position >>= fun secondEnd => join [firstEnd, secondEnd] "join"]
  obtain ⟨hordered, l2, heq, h2⟩ | ⟨hordered, f, heq⟩ := hyes l1 l.blocks.size h1.current_eq
  · rw [bind_of_ok heq, bind_of_ok (position_eq _), bind_of_ok (goTo_eq _ _), hordered, Bool.true_and]
    obtain ⟨hordered, l3, heq3, h3⟩ | ⟨hordered, f, heq3⟩ :=
      hno (l2.moved (some (l.blocks.size + 1))) _ rfl
    · obtain ⟨l4, heq4, h4⟩ := @join_joins d fits [l2.current, l3.current] "join" l3
      rw [bind_of_ok heq3, bind_of_ok (position_eq _)]
      refine .inl ⟨hordered, l4, heq4, ?_, ?_, ?_⟩
      · exact h4.loops_eq.trans (h3.loops_eq.trans (h2.loops_eq.trans h1.loops_eq))
      · rw [h4.falls_eq, Stmt.falls, ← h2.falls_eq, ← h3.falls_eq]
        simp
      · simpa [Stmt.inner] using (((h1.grown.trans h2.grown).moved _).trans h3.grown).trans h4.grown
    · exact .inr ⟨hordered, f, bind_of_error heq3⟩
  · exact .inr ⟨by rw [hordered, Bool.false_and], f, bind_of_error heq⟩

theorem layStmt_untilEnd (loop : Nat) (name : String) (final : Token.Kind) (body : List Stmt) :
    layStmt (Constraint.untilEnd loop name final body) = (do
      let header ← newBlock name
      emit (.branch header)
      enter loop name
      goTo (some header)
      emit .token
      let done ← newBlock "then"
      let next ← newBlock "else"
      layCondition done next (.isToken final)
      goTo (some done)
      let exit ← exitOf loop
      emit (.branch exit)
      let doneEnd ← position
      goTo (some next)
      layStmt (.seq body)
      let nextEnd ← position
      join [doneEnd, nextEnd] "join"
      branchOn header
      leaveLoop) := by
  have hleave : layStmt (.leave loop) = (do
      let exit ← exitOf loop
      emit (.branch exit)) := by rw [layStmt]
  conv =>
    lhs
    rw [Constraint.untilEnd, layStmt, layStmt, layAll, layStmt, layAll, layAll, layStmt, if_neg (by simp [Stmt.isNop])]
  simp only [hleave, bind_assoc, pure_bind]

/-- The loop of a container has been laid out up to its body. -/
structure Headed (d : Draft) (fits : Nat → Prop) (loop : Nat) (name : String) (l l' : Layout) (next exit : Nat) :
    Prop where
  loops_eq : l'.loops = ⟨loop, name, some exit⟩ :: l.loops
  current_eq : l'.current = some next
  grown : Grown d fits l l' []

theorem head_untilEnd (loop : Nat) (name : String) (final : Token.Kind) (hcurrent : l.current = some b) :
    ∃ l' next exit, Headed d fits loop name l l' next exit ∧ ∀ body,
      layStmt (Constraint.untilEnd loop name final body) l = (do
        layStmt (.seq body)
        let nextEnd ← position
        join [none, nextEnd] "join"
        branchOn l.blocks.size
        leaveLoop) l' := by
  -- The header, with the token read in it.
  let l1 := (l.pushed name).put b (.branch l.blocks.size)
  let l2 := (l1.looped (⟨loop, name, none⟩ :: l.loops)).moved (some l.blocks.size)
  let l3 := l2.put l.blocks.size .token
  have hgrown3 : Grown d fits l l3 [] :=
    (((((Grown.refl l).pushed name).put b (.branch _)).looped _).moved _).put _ .token
  -- The test, the exit, and the branch to it.
  obtain ⟨l4, h4, hfork⟩ := fork (l := l3) (b := l.blocks.size) (.test (.isToken final) : Condition d fits _) rfl "else"
  have hloops4 : l4.loops = ⟨loop, name, none⟩ :: l.loops := h4.loops_eq
  let l5 := (l4.pushed (name ++ "_exit")).looped (⟨loop, name, some l4.blocks.size⟩ :: l.loops)
  let l6 := (l5.put l3.blocks.size (.branch l4.blocks.size)).moved (some (l3.blocks.size + 1))
  have hcurrent5 : l5.current = some l3.blocks.size := h4.current_eq
  have hgrown6 : Grown d fits l l6 [] :=
    ((((hgrown3.trans h4.grown).pushed _).looped _).put _ (.branch _)).moved _
  refine ⟨l6, l3.blocks.size + 1, l4.blocks.size, ⟨rfl, rfl, hgrown6⟩, fun body => ?_⟩
  have henter : enter loop name l1 = .ok ((), l1.looped (⟨loop, name, none⟩ :: l.loops)) := rfl
  rw [layStmt_untilEnd, bind_of_ok (newBlock_eq name l),
    bind_of_ok (emit_eq (l := l.pushed name) hcurrent _), bind_of_ok henter,
    bind_of_ok (goTo_eq _ _), bind_of_ok (emit_eq (l := l2) rfl _)]
  refine (hfork _).trans ?_
  rw [bind_of_ok (exitOf_new hloops4), bind_of_ok (emit_eq hcurrent5 _),
    bind_of_ok (position_eq _), bind_of_ok (goTo_eq _ _)]
  rfl

theorem layable_untilEnd (loop : Nat) (name : String) (final : Token.Kind) {body : List Stmt}
    (hbody : Layable d fits (.seq body)) : Layable d fits (Constraint.untilEnd loop name final body) := by
  intro l b hcurrent
  have hordered : (Constraint.untilEnd loop name final body).ordered = (Stmt.seq body).ordered := by
    simp [Constraint.untilEnd, Stmt.ordered, Stmt.allOrdered, Stmt.allSilent, Stmt.falls]
  have hinner : (Constraint.untilEnd loop name final body).inner = (Stmt.seq body).inner := by
    simp [Constraint.untilEnd, Stmt.inner, Stmt.innerAll]
  obtain ⟨l1, next, exit, h1, heq⟩ :=
    @head_untilEnd d fits l b loop name final hcurrent
  rw [Lays, heq body, hordered]
  obtain ⟨hordered, l2, heq2, h2⟩ | ⟨hordered, f, heq2⟩ := hbody l1 next h1.current_eq
  · obtain ⟨l3, heq3, h3⟩ := @join_joins d fits [none, l2.current] "join" l2
    obtain ⟨l4, heq4, hloops4, hgrown4⟩ := @branchOn_grown d fits l.blocks.size l3
    have hloops : l4.loops = ⟨loop, name, some exit⟩ :: l.loops := by
      rw [hloops4, h3.loops_eq, h2.loops_eq, h1.loops_eq]
    refine .inl ⟨hordered, (l4.looped l.loops).moved (some exit), ?_, rfl, rfl, ?_⟩
    · rw [bind_of_ok heq2, bind_of_ok (position_eq _), bind_of_ok heq3, bind_of_ok heq4, leaveLoop_eq hloops]
    · rw [hinner]
      simpa using ((((h1.grown.trans h2.grown).trans h3.grown).trans hgrown4).looped l.loops).moved (some exit)
  · exact .inr ⟨hordered, f, bind_of_error heq2⟩

theorem newCases (cases : List (UInt32 × Stmt)) : ∃ (l' : Layout) (targets : List (UInt32 × Nat)),
      (cases.mapM fun ((k, _) : UInt32 × Stmt) => (do
        let block ← newBlock "case"
        pure (k, block) : Laying (UInt32 × Nat))) l = .ok (targets, l') ∧
      targets.length = cases.length ∧ l'.loops = l.loops ∧ l'.current = l.current ∧ Grown d fits l l' [] := by
  induction cases generalizing l with
  | nil => exact ⟨l, [], rfl, rfl, rfl, rfl, .refl l⟩
  | cons c cases ih =>
    obtain ⟨k, s⟩ := c
    obtain ⟨l', targets, heq, hlength, hloops, hcurrent, hgrown⟩ := ih (l := l.pushed "case")
    refine ⟨l', (k, l.blocks.size) :: targets, ?_, by simp [hlength], hloops, hcurrent,
      ((Grown.refl l).pushed "case").trans hgrown⟩
    rw [List.mapM_cons, bind_of_ok (bind_of_ok (newBlock_eq "case" l)), bind_of_ok heq, pure_eq]

structure CasesOut (d : Draft) (fits : Nat → Prop) (cases : List (UInt32 × Stmt)) (l l' : Layout)
    (ends : List (Option Nat)) : Prop where
  loops_eq : l'.loops = l.loops
  falls_eq : ends.any Option.isSome = Stmt.someFalls cases
  grown : Grown d fits l l' (Stmt.innerCases cases)

variable {cases : List (UInt32 × Stmt)}

theorem layCases_lays (hcases : ∀ c ∈ cases, Layable d fits c.2)
    {targets : List Nat} (hlength : targets.length = cases.length) :
    (Stmt.casesOrdered cases = true ∧ ∃ l' ends, layCases targets cases l = .ok (ends, l') ∧
      CasesOut d fits cases l l' ends) ∨
    (Stmt.casesOrdered cases = false ∧ ∃ f, layCases targets cases l = .error f) := by
  induction cases generalizing l targets with
  | nil =>
    rw [List.length_nil, List.length_eq_zero_iff] at hlength
    subst hlength
    exact .inl ⟨rfl, l, [], by rw [layCases, pure_eq]; simp, rfl, rfl, .refl l⟩
  | cons c cases ih =>
    obtain ⟨k, s⟩ := c
    obtain _ | ⟨t, targets⟩ := targets
    · cases hlength
    rw [layCases, bind_of_ok (goTo_eq _ _), Stmt.casesOrdered]
    obtain ⟨hordered, l1, heq, h1⟩ | ⟨hordered, f, heq⟩ :=
      hcases (k, s) (.head _) (l.moved (some t)) t rfl
    · obtain ⟨hordered', l2, ends, heq2, h2⟩ | ⟨hordered', f, heq2⟩ :=
        ih (l := l1) (fun c hc => hcases c (.tail _ hc)) (Nat.succ.inj hlength)
      · refine .inl ⟨by rw [hordered, hordered']; rfl, l2, l1.current :: ends, ?_,
          h2.loops_eq.trans h1.loops_eq, ?_, (((Grown.refl l).moved _).trans h1.grown).trans h2.grown⟩
        · rw [bind_of_ok heq, bind_of_ok (position_eq _), bind_of_ok heq2, pure_eq]
        · rw [List.any_cons, h2.falls_eq, h1.falls_eq, Stmt.someFalls]
      · exact .inr ⟨by rw [hordered', Bool.and_false], f,
          by rw [bind_of_ok heq, bind_of_ok (position_eq _), bind_of_error heq2]⟩
    · exact .inr ⟨by rw [hordered, Bool.false_and], f, bind_of_error heq⟩

/-- The case of a dispatch has been moved, and there are blocks for the cases. -/
structure Switched (d : Draft) (fits : Nat → Prop) (cases : List (UInt32 × Stmt)) (l : Layout)
    (targets : List (UInt32 × Nat)) (l' : Layout) : Prop where
  loops_eq : l'.loops = l.loops
  length_eq : targets.length = cases.length
  grown : Grown d fits l l' []

theorem switch {m : Nat} (hm : m < d.matchers) (cases : List (UInt32 × Stmt)) (hcurrent : l.current = some b) :
    ∃ (l' : Layout) (targets : List (UInt32 × Nat)) (rest : Nat), Switched d fits cases l targets l' ∧
      ∀ otherwise, layStmt (.dispatch m cases otherwise) l = (do
        let ends ← layCases (targets.map Prod.snd) cases
        goTo (some rest)
        layStmt otherwise
        let restEnd ← position
        join (ends ++ [restEnd]) "match_join") l' := by
  let l1 := l.oneTemp.put b (.move l.decls.temps (.matchCase m))
  have hgrown1 : Grown d fits l l1 [] :=
    (Grown.refl l).oneTemp.put b (.move _ (.matchCase hm))
  obtain ⟨l2, targets, heq2, hlength, hloops2, hcurrent2, hgrown2⟩ := @newCases d fits l1 cases
  let l3 := l2.pushed "default"
  have hcurrent3 : l3.current = some b := hcurrent2
  refine ⟨l3.put b (.branchCase l.decls.temps targets (some l2.blocks.size)), targets, l2.blocks.size,
    ⟨hloops2, hlength, ?_⟩, fun otherwise => ?_⟩
  · exact ((hgrown1.trans hgrown2).pushed "default").put b (.branchCase _ _ _)
  · rw [layStmt, bind_of_ok (newTemp_eq l), bind_of_ok (emit_eq (l := l.oneTemp) hcurrent _),
      bind_of_ok heq2, bind_of_ok (newBlock_eq _ _), bind_of_ok (emit_eq hcurrent3 _)]

theorem layable_dispatch {m : Nat} {otherwise : Stmt} (hm : m < d.matchers) (hcases : ∀ c ∈ cases, Layable d fits c.2)
    (hrest : Layable d fits otherwise) : Layable d fits (.dispatch m cases otherwise) := by
  intro l b hcurrent
  obtain ⟨l1, targets, rest, h1, heq⟩ := @switch d fits l b m hm cases hcurrent
  rw [Lays, heq otherwise, Stmt.ordered]
  obtain ⟨hordered, l2, ends, heq2, h2⟩ | ⟨hordered, f, heq2⟩ :=
    @layCases_lays d fits l1 cases hcases (targets.map Prod.snd) (by rw [List.length_map, h1.length_eq])
  · rw [bind_of_ok heq2, bind_of_ok (goTo_eq _ _), hordered, Bool.true_and]
    obtain ⟨hordered, l3, heq3, h3⟩ | ⟨hordered, f, heq3⟩ := hrest (l2.moved (some rest)) _ rfl
    · obtain ⟨l4, heq4, h4⟩ := @join_joins d fits (ends ++ [l3.current]) "match_join" l3
      rw [bind_of_ok heq3, bind_of_ok (position_eq _)]
      refine .inl ⟨hordered, l4, heq4, ?_, ?_, ?_⟩
      · exact h4.loops_eq.trans (h3.loops_eq.trans (h2.loops_eq.trans h1.loops_eq))
      · rw [h4.falls_eq, List.any_append, h2.falls_eq, Stmt.falls, ← h3.falls_eq]
        simp
      · simpa [Stmt.inner] using (((h1.grown.trans h2.grown).moved _).trans h3.grown).trans h4.grown
    · exact .inr ⟨hordered, f, bind_of_error heq3⟩
  · exact .inr ⟨by rw [hordered, Bool.false_and], f, bind_of_error heq2⟩

/-- A legal statement is laid out where control is, unless something stands behind a statement that
ends control. -/
theorem layStmt_lays (h : Code d fits frame s) : Layable d fits s := by
  induction h with
  | nop =>
    intro l b hcurrent
    exact .inl ⟨rfl, l, by rw [layStmt, pure_eq], rfl, by rw [hcurrent]; rfl, .refl l⟩
  | valid => exact layable_emit (by rw [layStmt]) (fun _ => .valid) rfl rfl rfl
  | invalid reason => exact layable_emit (by rw [layStmt]) (fun _ => .invalid reason) rfl rfl rfl
  | token => exact layable_emit (by rw [layStmt]) (fun _ => .token) rfl rfl rfl
  | consume => exact layable_emit (by rw [layStmt]) (fun _ => .consume) rfl rfl rfl
  | untoken => exact layable_emit (by rw [layStmt]) (fun _ => .untoken) rfl rfl rfl
  | incr h => exact layable_emit (by rw [layStmt]) (fun _ => .incr h) rfl rfl rfl
  | bitSet h bit => exact layable_emit (by rw [layStmt]) (fun _ => .bitSet h bit) rfl rfl rfl
  | bitClear h bit => exact layable_emit (by rw [layStmt]) (fun _ => .bitClear h bit) rfl rfl rfl
  | splitBits h hs => exact layable_emit (by rw [layStmt]) (fun _ => .splitBits h hs) rfl rfl rfl
  | frame h => exact layable_frame _
  | @ite e yes no he _ hno ihyes ihno =>
    cases hnop : no.isNop with
    | false => exact layable_ite he ihyes ihno hnop
    | true =>
      obtain rfl : no = .nop := by cases no <;> simp_all [Stmt.isNop]
      exact layable_ite_nop he ihyes
  | seq h ih => exact layable_seq h ih
  | untilEnd loop name final _ ih => exact layable_untilEnd loop name final ih
  | dispatch hm _ _ ihcases ih => exact layable_dispatch hm ihcases ih

end Statements

end JsonSieve.Graph
