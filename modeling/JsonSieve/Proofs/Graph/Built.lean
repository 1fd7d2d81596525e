import Mathlib.Algebra.Order.Group.Multiset
import JsonSieve.Proofs.Graph.Checked
import JsonSieve.Proofs.Graph.Decided
import JsonSieve.Proofs.Graph.Frames

/-!
# Layouts in progress

While a frame is laid out, the blocks that still take statements are the ends of control that are to be
joined or gone on with, and the exits of the loops around (`Layout.Building`). Every other block ends in
its only terminator, and every block can be reached but those whose branches come later. Each step keeps
this up, for every tree (`layStmt_builds`), so that a frame without an open end is well-formed.
-/

namespace JsonSieve

open Multiset (add_cons cons_coe coe_nil mem_add mem_coe mem_cons_of_mem mem_cons_self nodup_add singleton_add)

/-! ## Expressions -/

def Expr.seqs : Expr → List Stmt
  | .seq s e => s :: e.seqs
  | .isInteger e | .isMultiple e _ | .not e => e.seqs
  | .and a b | .or a b | .compare _ a b => a.seqs ++ b.seqs
  | _ => []

/-- Do connectives join conditions none of which is constant? -/
def Expr.live : Expr → Bool
  | .and a b | .or a b => a.live && b.live
  | .not e => e.live
  | .bool _ => false
  | _ => true

theorem Expr.seqs_fold (e : Expr) : e.fold.seqs ⊆ e.seqs := by
  fun_induction Expr.fold e <;> simp_all [seqs]

theorem Expr.live_fold (e : Expr) : e.fold.live = true ∨ ∃ b, e.fold = .bool b := by
  fun_induction Expr.fold e
  case case20 e _ _ _ _ _ => cases e <;> simp_all [live]
  all_goals simp_all [live]

/-! ## Matchers -/

mutual

def Expr.matchers : Expr → List Matcher
  | .seq s e => s.matchers ++ e.matchers
  | .isInteger e => e.matchers
  | .isMultiple e _ => e.matchers
  | .not e => e.matchers
  | .and a b => a.matchers ++ b.matchers
  | .or a b => a.matchers ++ b.matchers
  | .compare _ a b => a.matchers ++ b.matchers
  | _ => []

/-- The matchers that are declared in a statement and in the frames nested in it. -/
def Stmt.matchers : Stmt → List Matcher
  | .matcher _ m => [m]
  | .ite condition yes no => condition.matchers ++ yes.matchers ++ no.matchers
  | .loop _ _ body => body.matchers
  | .seq list => Stmt.matchersOf list
  | .frame body => body.matchers
  | .splitList _ frames => Stmt.matchersOf frames
  | .dispatch _ cases otherwise => Stmt.matchersOfCases cases ++ otherwise.matchers
  | _ => []

def Stmt.matchersOf : List Stmt → List Matcher
  | [] => []
  | s :: rest => s.matchers ++ Stmt.matchersOf rest

def Stmt.matchersOfCases : List (UInt32 × Stmt) → List Matcher
  | [] => []
  | (_, s) :: rest => s.matchers ++ Stmt.matchersOfCases rest

end

namespace Graph

open Layout Liveness

/-! ## Layouts in progress -/

def Layout.here (l : Layout) : Multiset Nat := ↑l.current.toList

/-- A frame whose nested frames are numbered from `first`, of which at least `low` blocks are laid out,
within `depth` loops. The blocks of `ends` and the exits of the loops take statements; all blocks but the
`unreached` ones can be reached. The frames nested in it have at most `weight` frames in all, and `M` holds
of the matchers in it and in them. -/
structure Layout.Building (M : Matcher → Prop) (first low depth weight : Nat) (ends : Multiset Nat)
    (unreached : Nat → Prop) (l : Layout) : Prop where
  id_eq : ∀ (i : Nat) (b : Block), l.blocks[i]? = some b → b.id = i
  stmts : ∀ i, ∀ s ∈ l.stmtsAt i, Basic s = true ∧ stmtDefect? l.nextFrame l.decls.temps s = none ∧
    ∀ j ∈ s.successors, j < l.blocks.size
  open_of : ∀ i ∈ ↑(exitsOf l.loops) + ends, i < l.blocks.size ∧ Open (l.stmtsAt i)
  shut_of : ∀ i < l.blocks.size, i ∉ ↑(exitsOf l.loops) + ends → Shut (l.stmtsAt i)
  nodup : (↑(exitsOf l.loops) + ends).Nodup
  current : ∀ c, l.current = some c → c ∈ ends ∧ ¬ unreached c
  unreached_mem : ∀ i, unreached i → i ∈ ends
  reach : ∀ i < l.blocks.size, unreached i ∨ Relation.ReflTransGen (fun i j => j ∈ successorsOf (l.stmtsAt i)) 0 i
  splits : ∀ list ∈ l.decls.splits, ∀ k ∈ list, k < l.nextFrame
  next_eq : l.nextFrame = first + l.nested.length
  nested : ∀ body ∈ l.nested, ∃ s : Stmt, (∀ m ∈ s.matchers, M m) ∧ body = s.simplified
  matchers : ∀ m ∈ l.decls.matchers, M m
  weight_le : l.nested.length + Stmt.framesOf l.nested ≤ weight
  low_le : low ≤ l.blocks.size
  depth_eq : l.loops.length = depth

theorem successorsOf_open {stmts : List Stmt} (h : Open stmts) : successorsOf stmts = [] := by
  rw [successorsOf]
  cases hlast : stmts.getLast? with
  | none => rfl
  | some s => exact successors_of_not_isTerminator (h s (List.mem_of_getLast? hlast))

namespace Layout.Building

variable {M : Matcher → Prop} {first low depth weight : Nat} {ends rest : Multiset Nat}
  {unreached : Nat → Prop} {l l' : Layout}

section

variable (h : Building M first low depth weight ends unreached l)

include h

theorem congr {V : Nat → Prop} (hV : ∀ i, V i ↔ unreached i) : Building M first low depth weight ends V l := by
  rwa [show V = unreached from funext fun i => propext (hV i)]

theorem le {weight' : Nat} (hle : weight ≤ weight') : Building M first low depth weight' ends unreached l :=
  { h with weight_le := h.weight_le.trans hle }

theorem unreached_lt {i : Nat} (hi : unreached i) : i < l.blocks.size :=
  (h.open_of i (Multiset.mem_add.2 (.inr (h.unreached_mem i hi)))).1

theorem lt_of_mem {i : Nat} (hi : i ∈ ends) : i < l.blocks.size :=
  (h.open_of i (Multiset.mem_add.2 (.inr hi))).1

/-- Blocks do not change. Declarations and nested frames may be new, and loops may begin and end. -/
theorem of_same (hblocks : l'.blocks = l.blocks)
    {ends' : Multiset Nat} (hends : ↑(exitsOf l'.loops) + ends' = ↑(exitsOf l.loops) + ends)
    (hcurrent : ∀ c, l'.current = some c → c ∈ ends' ∧ ¬ unreached c)
    (hunreached : ∀ i, unreached i → i ∈ ends') {decls : Decls} (hdecls : l'.decls = decls)
    (htemps : l.decls.temps ≤ decls.temps) {more : List Stmt} (hnested : l'.nested = l.nested ++ more)
    (hnext : l'.nextFrame = l.nextFrame + more.length)
    (hsplits : ∀ list ∈ decls.splits, list ∈ l.decls.splits ∨ ∀ k ∈ list, k < l'.nextFrame)
    (hmore : ∀ body ∈ more, ∃ s : Stmt, (∀ m ∈ s.matchers, M m) ∧ body = s.simplified)
    (hmatchers : ∀ m ∈ decls.matchers, m ∈ l.decls.matchers ∨ M m) :
    Building M first low l'.loops.length (weight + (more.length + Stmt.framesOf more)) ends' unreached l' := by
  have hstmts : l'.stmtsAt = l.stmtsAt := by
    funext i
    rw [stmtsAt, stmtsAt, hblocks]
  have hle : l.nextFrame ≤ l'.nextFrame := by omega
  subst hdecls
  refine ⟨?_, ?_, ?_, ?_, ?_, hcurrent, hunreached, ?_, ?_, ?_, ?_, ?_, ?_, ?_, rfl⟩
  · rw [hblocks]
    exact h.id_eq
  · intro i s hs
    rw [hstmts] at hs
    obtain ⟨hbasic, hdefect, htargets⟩ := h.stmts i s hs
    exact ⟨hbasic, stmtDefect?_mono hle htemps hdefect, by rwa [hblocks]⟩
  · rw [hends, hblocks, hstmts]
    exact h.open_of
  · rw [hends, hblocks, hstmts]
    exact h.shut_of
  · rw [hends]
    exact h.nodup
  · rw [hblocks, hstmts]
    exact h.reach
  · intro list hlist k hk
    rcases hsplits list hlist with hold | hnew
    · exact (h.splits list hold k hk).trans_le hle
    · exact hnew k hk
  · rw [hnext, h.next_eq, hnested, List.length_append, Nat.add_assoc]
  · rw [hnested]
    exact List.forall_mem_append.2 ⟨h.nested, hmore⟩
  · exact fun m hm => (hmatchers m hm).elim (h.matchers m) id
  · have := h.weight_le
    rw [hnested, List.length_append, Legal.framesOf_append]
    omega
  · rw [hblocks]
    exact h.low_le

theorem redirect (block : Option Nat) (loops : List LoopScope) {ends' : Multiset Nat}
    (hends : ↑(exitsOf loops) + ends' = ↑(exitsOf l.loops) + ends)
    (hcurrent : ∀ c, block = some c → c ∈ ends' ∧ ¬ unreached c) (hunreached : ∀ i, unreached i → i ∈ ends') :
    Building M first low loops.length weight ends' unreached ((l.looped loops).moved block) :=
  @of_same M first low depth weight ends unreached l ((l.looped loops).moved block) h rfl ends' hends hcurrent
    hunreached _ rfl (Nat.le_refl _) [] (List.append_nil _).symm rfl (fun _ => Or.inl)
    (fun _ h => absurd h List.not_mem_nil) (fun _ => Or.inl)

/-- One more block, which nothing branches to yet. -/
theorem newBlock (name : String) :
    Building M first low depth weight (l.blocks.size ::ₘ ends) (fun i => i = l.blocks.size ∨ unreached i)
      (l.pushed name) := by
  have hstmts : ∀ i, (l.pushed name).stmtsAt i = l.stmtsAt i := stmtsAt_new name l
  have hne : ∀ i, i < l.blocks.size → i ≠ l.blocks.size := fun i hi => Nat.ne_of_lt hi
  have hends : ↑(exitsOf (l.pushed name).loops) + l.blocks.size ::ₘ ends =
      l.blocks.size ::ₘ (↑(exitsOf l.loops) + ends) := add_cons ..
  refine ⟨fun i b hb => ?_, fun i s hs => ?_, ?_, ?_, ?_, fun c hc => ?_, ?_, fun i hi => ?_, h.splits, h.next_eq,
    h.nested, h.matchers, h.weight_le, ?_, h.depth_eq⟩
  · rw [getElem?_pushed] at hb
    split at hb
    · next hi =>
      cases hb
      exact hi.symm
    · exact h.id_eq i b hb
  · rw [hstmts] at hs
    obtain ⟨hbasic, hdefect, htargets⟩ := h.stmts i s hs
    refine ⟨hbasic, hdefect, fun j hj => ?_⟩
    rw [size_pushed]
    exact Nat.lt_succ_of_lt (htargets j hj)
  · rw [hends]
    intro i hi
    rw [hstmts, size_pushed]
    rcases Multiset.mem_cons.1 hi with rfl | hi
    · rw [stmtsAt_size]
      exact ⟨Nat.lt_succ_self _, fun _ h => absurd h List.not_mem_nil⟩
    · exact (h.open_of i hi).imp_left Nat.lt_succ_of_lt
  · rw [hends]
    intro i hi hnot
    rw [size_pushed] at hi
    rw [hstmts]
    rw [Multiset.mem_cons, not_or] at hnot
    exact h.shut_of i (by omega) hnot.2
  · rw [hends, Multiset.nodup_cons]
    exact ⟨fun hmem => Nat.lt_irrefl _ (h.open_of _ hmem).1, h.nodup⟩
  · obtain ⟨hmem, hreached⟩ := h.current c hc
    refine ⟨mem_cons_of_mem hmem, ?_⟩
    rintro (rfl | hun)
    · exact Nat.lt_irrefl _ (h.lt_of_mem hmem)
    · exact hreached hun
  · rintro i (rfl | hun)
    · exact mem_cons_self ..
    · exact mem_cons_of_mem (h.unreached_mem i hun)
  · rw [size_pushed] at hi
    by_cases hnew : i = l.blocks.size
    · exact .inl (.inl hnew)
    · refine (h.reach i (by omega)).imp Or.inr fun hreach => ?_
      simpa only [hstmts] using hreach
  · rw [size_pushed]
    exact Nat.le_succ_of_le h.low_le

end

theorem goTo {b : Nat} (h : Building M first low depth weight (b ::ₘ rest) unreached l)
    (hreached : ¬ unreached b) : Building M first low depth weight ((l.moved (some b)).here + rest) unreached
      (l.moved (some b)) := by
  have := h.redirect (some b) l.loops rfl
    (fun c hc => by cases hc; exact ⟨mem_cons_self .., hreached⟩) h.unreached_mem
  rwa [h.depth_eq, ← singleton_add] at this

theorem declares (h : Building M first low depth weight (l.here + rest) unreached l) {decls : Decls}
    (htemps : l.decls.temps ≤ decls.temps) {more : List Stmt}
    (hsplits : ∀ list ∈ decls.splits, list ∈ l.decls.splits ∨ ∀ k ∈ list, k < l.nextFrame + more.length)
    (hmore : ∀ body ∈ more, ∃ s : Stmt, (∀ m ∈ s.matchers, M m) ∧ body = s.simplified)
    (hmatchers : ∀ m ∈ decls.matchers, m ∈ l.decls.matchers ∨ M m) :
    Building M first low depth (weight + (more.length + Stmt.framesOf more)) (l.here + rest) unreached
      (l.declared decls more) := by
  have := @of_same M first low depth weight _ unreached l (l.declared decls more) h rfl (l.here + rest) rfl h.current
    h.unreached_mem decls rfl htemps more rfl rfl hsplits hmore hmatchers
  rwa [show (l.declared decls more).loops.length = depth from h.depth_eq] at this

/-- A statement is put where control is. What it branches to is reached then. -/
theorem emit (h : Building M first low depth weight (l.here + rest) unreached l) {s : Stmt}
    (heq : emit s l = .ok ((), l')) (hbasic : Basic s = true)
    (hdefect : stmtDefect? l.nextFrame l.decls.temps s = none)
    (htargets : ∀ j ∈ s.successors, j < l.blocks.size) {V : Nat → Prop}
    (hV : ∀ i, unreached i → i ∉ s.successors → V i) (hunreached : ∀ i, V i → unreached i) :
    Building M first low depth weight (l'.here + rest) V l' ∧ (s.isTerminator = true → l'.here = 0) := by
  obtain ⟨c, hc, rfl⟩ := emit_ok heq
  have hhere : l.here = {c} := by rw [here, hc]; rfl
  rw [hhere] at h
  have hcmem : c ∈ ↑(exitsOf l.loops) + ({c} + rest) := by simp
  obtain ⟨hlt, hopen⟩ := h.open_of c hcmem
  have hstmts := stmtsAt_put hlt s
  have hcurrent : (l.put c s).current = if s.isTerminator then none else some c := rfl
  have hnodup := h.nodup
  rw [singleton_add, add_cons, Multiset.nodup_cons] at hnodup
  have hedge : ∀ {i}, Relation.ReflTransGen (fun i j => j ∈ successorsOf (l.stmtsAt i)) 0 i →
      Relation.ReflTransGen (fun i j => j ∈ successorsOf ((l.put c s).stmtsAt i)) 0 i := by
    refine fun hreach => hreach.lift id fun i j hij => ?_
    show j ∈ successorsOf ((l.put c s).stmtsAt i)
    have hne : i ≠ c := by
      rintro rfl
      rw [successorsOf_open hopen] at hij
      cases hij
    rwa [hstmts, if_neg hne]
  have hreach : ∀ i < l.blocks.size, V i ∨
      Relation.ReflTransGen (fun i j => j ∈ successorsOf ((l.put c s).stmtsAt i)) 0 i := by
    intro i hi
    rcases h.reach i hi with hun | hreach
    · by_cases hsucc : i ∈ s.successors
      · refine .inr ((hedge ((h.reach c hlt).resolve_left (h.current c hc).2)).tail ?_)
        simpa [hstmts, successorsOf] using hsucc
      · exact .inl (hV i hun hsucc)
    · exact .inr (hedge hreach)
  have hall : ∀ i, ∀ t ∈ (l.put c s).stmtsAt i, Basic t = true ∧ stmtDefect? l.nextFrame l.decls.temps t = none ∧
      ∀ j ∈ t.successors, j < (l.put c s).blocks.size := by
    intro i t ht
    rw [size_put]
    rw [hstmts] at ht
    split at ht
    · rcases List.mem_append.1 ht with ht | ht
      · exact h.stmts i t ht
      · rw [List.mem_singleton.1 ht]
        exact ⟨hbasic, hdefect, htargets⟩
    · exact h.stmts i t ht
  have hid : ∀ (i : Nat) (b : Block), (l.put c s).blocks[i]? = some b → b.id = i := by
    intro i b hb
    rw [getElem?_put] at hb
    split at hb
    · obtain ⟨b', hb', rfl⟩ := Option.map_eq_some_iff.1 hb
      exact h.id_eq i b' hb'
    · exact h.id_eq i b hb
  have hlow : low ≤ (l.put c s).blocks.size := by rw [size_put]; exact h.low_le
  have hVmem : ∀ i, V i → i ∈ rest := fun i hi => by
    have := h.unreached_mem i (hunreached i hi)
    rcases Multiset.mem_add.1 this with hmem | hmem
    · rw [Multiset.mem_singleton.1 hmem] at hi
      exact absurd (hunreached c hi) (h.current c hc).2
    · exact hmem
  cases hterm : s.isTerminator with
  | false =>
    have hhere' : (l.put c s).here = {c} := by rw [here, hcurrent, hterm]; rfl
    refine ⟨?_, fun hfalse => by cases hfalse⟩
    rw [hhere']
    refine ⟨hid, hall, fun i hi => ?_, fun i hi hnot => ?_, h.nodup, ?_, fun i hi => ?_, ?_, h.splits, h.next_eq,
      h.nested, h.matchers, h.weight_le, hlow, h.depth_eq⟩
    · rw [hstmts, size_put]
      refine ⟨(h.open_of i hi).1, ?_⟩
      split
      · exact (h.open_of i hi).2.append hterm
      · exact (h.open_of i hi).2
    · rw [hstmts, if_neg fun (hic : i = c) => hnot (hic ▸ hcmem)]
      exact h.shut_of i (by rwa [size_put] at hi) hnot
    · intro c' hc'
      rw [hcurrent, hterm] at hc'
      cases hc'
      exact ⟨by simp, fun hun => (h.current c hc).2 (hunreached c hun)⟩
    · exact Multiset.mem_add.2 (.inr (hVmem i hi))
    · rwa [size_put]
  | true =>
    have hhere' : (l.put c s).here = 0 := by rw [here, hcurrent, hterm]; rfl
    refine ⟨?_, fun _ => hhere'⟩
    rw [hhere', Multiset.zero_add]
    have hsub : ∀ i ∈ ↑(exitsOf l.loops) + rest, i ∈ ↑(exitsOf l.loops) + ({c} + rest) := fun i hi => by
      rw [singleton_add, add_cons]
      exact mem_cons_of_mem hi
    refine ⟨hid, hall, fun i hi => ?_, fun i hi hnot => ?_, hnodup.2, fun c' hc' => ?_, hVmem, ?_, h.splits, h.next_eq,
      h.nested, h.matchers, h.weight_le, hlow, h.depth_eq⟩
    · rw [hstmts, if_neg fun (hic : i = c) => hnodup.1 (hic ▸ hi), size_put]
      exact h.open_of i (hsub i hi)
    · rw [hstmts]
      split
      · next hic => exact ⟨l.stmtsAt i, s, rfl, hic ▸ hopen, hterm⟩
      · next hic =>
        refine h.shut_of i (by rwa [size_put] at hi) fun hmem => ?_
        rw [singleton_add, add_cons] at hmem
        exact (Multiset.mem_cons.1 hmem).elim hic hnot
    · rw [hcurrent, hterm] at hc'
      cases hc'
    · rwa [size_put]

end Layout.Building

/-! ## Expressions and conditions -/

section

variable {M : Matcher → Prop} {first low depth weight : Nat} {rest : Multiset Nat} {unreached : Nat → Prop}
  {l l' : Layout}

/-- A statement can be laid out wherever control is. -/
def Builds (M : Matcher → Prop) (first : Nat) (s : Stmt) : Prop :=
  ∀ ⦃low depth weight : Nat⦄ ⦃rest : Multiset Nat⦄ ⦃unreached : Nat → Prop⦄ ⦃l l' : Layout⦄,
    l.Building M first low depth weight (l.here + rest) unreached → layStmt s l = .ok ((), l') →
    l'.Building M first low depth (weight + s.frames) (l'.here + rest) unreached

section

variable (h : l.Building M first low depth weight (l.here + rest) unreached)

include h

theorem Layout.Building.emitPlain {s : Stmt} (heq : Layout.emit s l = .ok ((), l')) (hbasic : Basic s = true)
    (hdefect : stmtDefect? l.nextFrame l.decls.temps s = none) (hplain : s.successors = []) :
    l'.Building M first low depth weight (l'.here + rest) unreached :=
  (h.emit heq hbasic hdefect (by simp [hplain]) (fun _ h _ => h) fun _ h => h).1

theorem Layout.Building.oneTemp : l.oneTemp.Building M first low depth weight (l.oneTemp.here + rest) unreached := by
  have := @Layout.Building.declares M first low depth weight rest unreached l h
    { l.decls with temps := l.decls.temps + 1 } (Nat.le_succ _) [] (fun _ => Or.inl)
    (fun _ h => absurd h List.not_mem_nil) (fun _ => Or.inl)
  rwa [show l.declared { l.decls with temps := l.decls.temps + 1 } [] = l.oneTemp by
    simp [Layout.declared, Layout.oneTemp]] at this

theorem Layout.Building.moves {e : Expr}
    (hlooks : Looks e = true) (heq : Layout.emit (.move l.decls.temps e) l.oneTemp = .ok ((), l')) :
    l'.Building M first low depth weight (l'.here + rest) unreached :=
  h.oneTemp.emitPlain heq hlooks (by simp [stmtDefect?, Layout.oneTemp]) rfl

theorem Layout.Building.declare {kind : Declared} {id : Nat} {size : Decls → Nat} {add : Decls → Decls}
    (heq : Layout.declare kind id size add l = .ok ((), l')) (htemps : (add l.decls).temps = l.decls.temps)
    (hsplits : ∀ list ∈ (add l.decls).splits, list ∈ l.decls.splits ∨ ∀ k ∈ list, k < l.nextFrame)
    (hmatchers : ∀ m ∈ (add l.decls).matchers, m ∈ l.decls.matchers ∨ M m) :
    l'.Building M first low depth weight (l'.here + rest) unreached := by
  obtain ⟨-, rfl⟩ := declare_inv heq
  have := @Layout.Building.declares M first low depth weight rest unreached l h (add l.decls)
    (Nat.le_of_eq htemps.symm) [] hsplits (fun _ h => absurd h List.not_mem_nil) hmatchers
  rwa [show l.declared (add l.decls) [] = { l with decls := add l.decls } by simp [Layout.declared]] at this

theorem Layout.Building.branchOn {target : Nat}
    (heq : branchOn target l = .ok ((), l')) (htarget : target < l.blocks.size) :
    l'.Building M first low depth weight rest unreached := by
  cases hcurrent : l.current with
  | none =>
    rw [branchOn_none hcurrent] at heq
    cases heq
    rwa [Layout.here, hcurrent, Option.toList_none, coe_nil, Multiset.zero_add] at h
  | some b =>
    rw [branchOn_some hcurrent, ← emit_eq hcurrent] at heq
    obtain ⟨h1, hhere⟩ := h.emit heq rfl rfl (by simpa [Stmt.successors] using htarget) (fun _ h _ => h) fun _ h => h
    rwa [hhere rfl, Multiset.zero_add] at h1

end

theorem layExpr_builds {weight : Nat} {l l' : Layout} {a e : Expr} (hseqs : ∀ s ∈ e.seqs, Builds M first s)
    (h : l.Building M first low depth weight (l.here + rest) unreached) (heq : layExpr e l = .ok (a, l')) :
    l'.Building M first low depth (weight + e.frames) (l'.here + rest) unreached := by
  cases e with
  | split | matchCase | bitCount =>
    rw [layExpr] at heq
    obtain ⟨t, l1, hnew, heq⟩ := bind_ok heq
    obtain ⟨⟨⟩, l2, hemit, heq⟩ := bind_ok heq
    obtain ⟨-, rfl⟩ := pure_ok heq
    cases hnew
    exact h.moves rfl hemit
  | seq s e =>
    rw [layExpr] at heq
    obtain ⟨⟨⟩, l1, hs, heq⟩ := bind_ok heq
    have h1 := layExpr_builds (fun s' hs' => hseqs s' (.tail _ hs')) (hseqs s (.head _) h hs) heq
    rwa [Nat.add_assoc, ← Expr.frames] at h1
  | compare _ a b | and a b | or a b =>
    obtain ⟨ha, hb⟩ := List.forall_mem_append.1 hseqs
    rw [layExpr] at heq
    obtain ⟨_, l1, heqa, heq⟩ := bind_ok heq
    obtain ⟨_, l2, heqb, heq⟩ := bind_ok heq
    obtain ⟨-, rfl⟩ := pure_ok heq
    have h1 := layExpr_builds hb (layExpr_builds ha h heqa) heqb
    rw [Nat.add_assoc] at h1
    rwa [Expr.frames]
  | isInteger e | isMultiple e _ | not e =>
    rw [layExpr] at heq
    obtain ⟨_, heq, -⟩ := map_ok heq
    rw [Expr.frames]
    exact layExpr_builds hseqs h heq
  | _ =>
    rw [layExpr_stays rfl] at heq
    obtain ⟨-, rfl⟩ := pure_ok heq
    exact h

theorem layCondition_builds_test {e : Expr} {yes no : Nat} (hconnects : Connects e = false)
    (hseqs : ∀ s ∈ e.seqs, Builds M first s)
    (h : l.Building M first low depth weight (l.here + rest) unreached) (hyes : yes ∈ rest) (hno : no ∈ rest)
    (heq : layCondition yes no e l = .ok ((), l')) :
    l'.Building M first low depth (weight + e.frames) rest fun i => unreached i ∧ i ≠ yes ∧ i ≠ no := by
  rw [layCondition_of_not_connects hconnects] at heq
  obtain ⟨a, l1, hexpr, heq⟩ := bind_ok heq
  have h1 := layExpr_builds hseqs h hexpr
  have hlt := fun {i : Nat} (hi : i ∈ rest) => h1.lt_of_mem (Multiset.mem_add.2 (.inr hi))
  obtain ⟨h2, hhere⟩ := h1.emit heq rfl rfl (by simp [Stmt.successors, hlt hyes, hlt hno])
    (V := fun i => unreached i ∧ i ≠ yes ∧ i ≠ no)
    (fun i hi hni => ⟨hi, by simpa [Stmt.successors] using hni⟩) (fun i hi => hi.1)
  rwa [hhere rfl, Multiset.zero_add] at h2

theorem layCondition_builds {weight : Nat} {rest : Multiset Nat} {unreached : Nat → Prop} {l l' : Layout}
    {e : Expr} {yes no : Nat} (hlive : e.live = true) (hseqs : ∀ s ∈ e.seqs, Builds M first s)
    (h : l.Building M first low depth weight (l.here + rest) unreached) (hyes : yes ∈ rest) (hno : no ∈ rest)
    (heq : layCondition yes no e l = .ok ((), l')) :
    l'.Building M first low depth (weight + e.frames) rest fun i => unreached i ∧ i ≠ yes ∧ i ≠ no := by
  cases e with
  | not e =>
    rw [layCondition] at heq
    rw [Expr.frames]
    exact (layCondition_builds (e := e) hlive hseqs h hno hyes heq).congr fun i => and_congr_right' and_comm
  -- the second operand of a connective is laid out in a block of its own, which the first one reaches
  | and a b =>
    rw [Expr.live, Bool.and_eq_true] at hlive
    obtain ⟨ha, hb⟩ := List.forall_mem_append.1 hseqs
    rw [layCondition] at heq
    obtain ⟨m, l1, hnew, heq⟩ := bind_ok heq
    obtain ⟨⟨⟩, l2, heqa, heq⟩ := bind_ok heq
    obtain ⟨⟨⟩, l3, hgo, heq⟩ := bind_ok heq
    cases hnew
    cases hgo
    have h1 := h.newBlock "and"
    rw [← add_cons] at h1
    have h2 := layCondition_builds (l := l.pushed "and") hlive.1 ha h1 (mem_cons_self ..)
      (mem_cons_of_mem hno) heqa
    have h3 := layCondition_builds hlive.2 hb (h2.goTo (by simp)) hyes hno heq
    rw [Nat.add_assoc, ← Expr.frames] at h3
    refine h3.congr fun i => ?_
    have hfresh : unreached i → i ≠ l.blocks.size := fun hi => Nat.ne_of_lt (h.unreached_lt hi)
    tauto
  | or a b =>
    rw [Expr.live, Bool.and_eq_true] at hlive
    obtain ⟨ha, hb⟩ := List.forall_mem_append.1 hseqs
    rw [layCondition] at heq
    obtain ⟨m, l1, hnew, heq⟩ := bind_ok heq
    obtain ⟨⟨⟩, l2, heqa, heq⟩ := bind_ok heq
    obtain ⟨⟨⟩, l3, hgo, heq⟩ := bind_ok heq
    cases hnew
    cases hgo
    have h1 := h.newBlock "or"
    rw [← add_cons] at h1
    have h2 := layCondition_builds (l := l.pushed "or") hlive.1 ha h1 (mem_cons_of_mem hyes)
      (mem_cons_self ..) heqa
    have h3 := layCondition_builds hlive.2 hb (h2.goTo (by simp)) hyes hno heq
    rw [Nat.add_assoc, ← Expr.frames] at h3
    refine h3.congr fun i => ?_
    have hfresh : unreached i → i ≠ l.blocks.size := fun hi => Nat.ne_of_lt (h.unreached_lt hi)
    tauto
  | bool => cases hlive
  | _ => exact layCondition_builds_test rfl hseqs h hyes hno heq

/-! ## Statements -/

theorem branches_build {join : Nat} {unreached : Nat → Prop} {l l' : Layout} : ∀ {live : List Nat},
    l.Building M first low depth weight (↑live + join ::ₘ rest) unreached → (∀ b ∈ live, ¬ unreached b) →
    (live.forM fun b => do
      goTo (some b)
      Layout.emit (.branch join)) l = .ok ((), l') →
    l'.Building M first low depth weight (join ::ₘ rest) fun i => unreached i ∧ (live = [] ∨ i ≠ join)
  | [], h, _, heq => by
    obtain ⟨-, rfl⟩ := pure_ok heq
    rw [coe_nil, Multiset.zero_add] at h
    exact h.congr (by simp)
  | b :: live, h, hreached, heq => by
    obtain ⟨⟨⟩, l2, hb, heq⟩ := bind_ok heq
    obtain ⟨⟨⟩, l1, hgo, hemit⟩ := bind_ok hb
    cases hgo
    rw [← cons_coe, Multiset.cons_add] at h
    have hjoin := h.lt_of_mem (i := join) (by simp)
    obtain ⟨h1, hhere⟩ := (h.goTo (hreached b (.head _))).emit hemit rfl rfl
      (by simpa [Stmt.successors] using hjoin) (V := fun i => unreached i ∧ i ≠ join)
      (fun i hi hni => ⟨hi, by simpa [Stmt.successors] using hni⟩) fun i hi => hi.1
    rw [hhere rfl, Multiset.zero_add] at h1
    refine (branches_build h1 (fun c hc hun => hreached c (.tail _ hc) hun.1) heq).congr fun i => ?_
    simp only [reduceCtorEq, false_or]
    tauto

variable {ends : List (Option Nat)}

theorem Layout.Building.join (h : l.Building M first low depth weight (↑(ends.filterMap id) + rest) unreached)
    (hreached : ∀ b ∈ ends.filterMap id, ¬ unreached b) {name : String}
    (heq : Layout.join ends name l = .ok ((), l')) :
    l'.Building M first low depth weight (l'.here + rest) unreached := by
  rw [Layout.join] at heq
  split at heq
  · next hempty =>
    cases heq
    rw [List.isEmpty_iff.1 hempty, coe_nil, Multiset.zero_add] at h
    have := h.redirect none l.loops rfl (fun c hc => by cases hc) h.unreached_mem
    rw [h.depth_eq] at this
    exact (Multiset.zero_add rest).symm ▸ this
  · next hempty =>
    rw [bind_of_ok (newBlock_eq name l)] at heq
    obtain ⟨⟨⟩, l2, hbranches, heq⟩ := bind_ok heq
    cases heq
    have h1 := h.newBlock name
    rw [← add_cons] at h1
    have hlt := fun {i : Nat} (hi : unreached i) => Nat.ne_of_lt (h.unreached_lt hi)
    have h2 := branches_build (l := l.pushed name) h1 (fun b hb => ?_) hbranches
    · refine (h2.goTo ?_).congr fun i => ?_
      · exact fun hun => hun.2.elim (List.isEmpty_iff.not.1 hempty) fun hne => hne rfl
      · have := @hlt i
        simp only [List.isEmpty_iff.not.1 hempty, false_or]
        tauto
    · have := h.lt_of_mem (Multiset.mem_add.2 (.inl (Multiset.mem_coe.2 hb)))
      rintro (rfl | hun)
      · exact Nat.lt_irrefl _ this
      · exact hreached b hb hun

theorem seq_builds {list : List Stmt} (hlist : ∀ s ∈ list, Builds M first s) : Builds M first (.seq list) := by
  intro low depth weight rest unreached l l' h heq
  rw [layStmt] at heq
  rw [Stmt.frames]
  induction list generalizing weight l with
  | nil =>
    rw [layAll] at heq
    obtain ⟨-, rfl⟩ := pure_ok heq
    exact h
  | cons s list ih =>
    rw [layAll] at heq
    obtain ⟨⟨⟩, l1, hs, heq⟩ := bind_ok heq
    rw [Stmt.framesOf, ← Nat.add_assoc]
    exact ih (fun s hs => hlist s (.tail _ hs)) (hlist s (.head _) h hs) heq

theorem length_setExit (id exit : Nat) : ∀ loops : List LoopScope, (setExit id exit loops).length = loops.length
  | [] => rfl
  | scope :: loops => by
    rw [setExit]
    split <;> simp [length_setExit]

theorem leave_builds (loop : Nat) : Builds M first (.leave loop) := by
  intro low depth weight rest unreached l l' h heq
  rw [layStmt] at heq
  obtain ⟨x, l1, hexit, heq⟩ := bind_ok heq
  rw [Layout.exitOf] at hexit
  split at hexit
  · cases hexit
  next scope hfind =>
  split at hexit
  · next x' hx =>
    cases hexit
    have hmem : x ∈ exitsOf l.loops := List.mem_filterMap.2 ⟨scope, List.mem_of_find?_eq_some hfind, hx⟩
    have hlt := (h.open_of x (Multiset.mem_add.2 (.inl (Multiset.mem_coe.2 hmem)))).1
    exact (h.emit heq rfl rfl (by simpa [Stmt.successors] using hlt) (fun _ h _ => h) fun _ h => h).1
  · next hnone =>
    cases hexit
    have h1 := h.newBlock (scope.name ++ "_exit")
    rw [← add_cons] at h1
    obtain ⟨c, hc, rfl⟩ := emit_ok heq
    -- the branch makes the exit reached, whatever the loops are
    obtain ⟨h2, hhere⟩ := Layout.Building.emit (l := l.pushed (scope.name ++ "_exit")) h1

      (emit_eq (l := l.pushed (scope.name ++ "_exit")) (b := c) hc (.branch l.blocks.size)) rfl rfl
      (by simp [Stmt.successors]) (V := unreached)
      (fun i hi hni => hi.resolve_left (by simpa [Stmt.successors] using hni)) fun _ => Or.inr
    have hperm := Multiset.coe_eq_coe.2 (exitsOf_setExit l.blocks.size hfind hnone)
    have hunreached : ∀ i, unreached i → i ∈ rest := fun i hi => by
      have := h2.unreached_mem i hi
      rw [hhere rfl, Multiset.zero_add] at this
      exact (Multiset.mem_cons.1 this).resolve_left (Nat.ne_of_lt (h.unreached_lt hi))
    rw [hhere rfl, Multiset.zero_add] at h2
    have hends : ↑(exitsOf (setExit loop l.blocks.size l.loops)) + rest =
        ↑(exitsOf l.loops) + l.blocks.size ::ₘ rest := by
      rw [hperm, ← cons_coe, Multiset.cons_add, add_cons]
    have h3 := h2.redirect none _ hends (fun c hc => by cases hc) hunreached
    rw [show (setExit loop l.blocks.size l.loops).length = depth by rw [← h.depth_eq, length_setExit]] at h3
    exact (Multiset.zero_add rest).symm ▸ h3

theorem loop_builds {id : Nat} {name : String} {body : Stmt} (hbody : Builds M first body) :
    Builds M first (.loop id name body) := by
  intro low depth weight rest unreached l l' h heq
  rw [layStmt] at heq
  obtain ⟨header, l1, hnew, heq⟩ := bind_ok heq
  obtain ⟨⟨⟩, l2, hemit, heq⟩ := bind_ok heq
  obtain ⟨⟨⟩, l3, henter, heq⟩ := bind_ok heq
  obtain ⟨⟨⟩, l4, hgo, heq⟩ := bind_ok heq
  obtain ⟨⟨⟩, l5, hlay, heq⟩ := bind_ok heq
  obtain ⟨⟨⟩, l6, hback, hleave⟩ := bind_ok heq
  cases hnew
  cases henter
  cases hgo
  have h1 := h.newBlock name
  rw [← add_cons] at h1
  obtain ⟨h2, hhere⟩ := Layout.Building.emit (l := l.pushed name) h1 hemit rfl rfl (by simp [Stmt.successors])
    (V := unreached) (fun i hi hni => hi.resolve_left (by simpa [Stmt.successors] using hni)) fun _ => Or.inr
  rw [hhere rfl, Multiset.zero_add] at h2
  have hreached : ¬ unreached l.blocks.size := fun hun => Nat.lt_irrefl _ (h.unreached_lt hun)
  have h4 := h2.redirect (some l.blocks.size) (⟨id, name, none⟩ :: l2.loops) rfl
    (fun c hc => by cases hc; exact ⟨mem_cons_self .., hreached⟩) h2.unreached_mem
  rw [← singleton_add] at h4
  -- the body does not take blocks away, so that the header is still there
  have h4 := { h4 with low_le := h2.lt_of_mem (mem_cons_self ..) }
  have h5 := hbody (l := (l2.looped (⟨id, name, none⟩ :: l2.loops)).moved _) h4 hlay
  have h6 := h5.branchOn hback h5.low_le
  obtain ⟨scope, loops, hloops⟩ := List.exists_cons_of_length_eq_add_one h6.depth_eq
  rw [leaveLoop_eq hloops] at hleave
  cases hleave
  have hends : ↑(exitsOf loops) + (((l6.looped loops).moved scope.exit).here + rest) = ↑(exitsOf l6.loops) + rest := by
    have : ((l6.looped loops).moved scope.exit).here = ↑scope.exit.toList := rfl
    rw [this, hloops, exitsOf, exitsOf, List.filterMap_cons]
    cases scope.exit <;> simp [← cons_coe]
  have hdepth : loops.length = depth := by
    have := h6.depth_eq
    rw [hloops, List.length_cons, List.length_cons, h2.depth_eq] at this
    exact Nat.succ.inj this
  have h7 := h6.redirect scope.exit loops hends (fun c hc => ?_) fun i hi =>
    Multiset.mem_add.2 (.inr (h6.unreached_mem i hi))
  · rw [hdepth] at h7
    exact { h7 with low_le := (h.low_le.trans (Nat.le_succ _)).trans h7.low_le }
  · have hmem : c ∈ exitsOf l6.loops := by simp [hloops, exitsOf, hc]
    refine ⟨by simp [Layout.here, Layout.moved, hc], fun hun => ?_⟩
    exact Multiset.disjoint_left.1 (Multiset.nodup_add.1 h6.nodup).2.2 (Multiset.mem_coe.2 hmem)
      (h6.unreached_mem c hun)

theorem ite_builds {c : Expr} {yes no : Stmt} (hlive : c.live = true) (hseqs : ∀ s ∈ c.seqs, Builds M first s)
    (hyes : Builds M first yes) (hno : Builds M first no) : Builds M first (.ite c yes no) := by
  intro low depth weight rest unreached l l' h heq
  -- two new blocks, which the condition reaches
  have hcondition : ∀ {a b : String} {l1 : Layout},
      layCondition l.blocks.size (l.blocks.size + 1) c ((l.pushed a).pushed b) = .ok ((), l1) →
      l1.Building M first low depth (weight + c.frames) (l.blocks.size ::ₘ (l.blocks.size + 1) ::ₘ rest)
        unreached := by
    intro a b l1 hlay
    have h2 := (h.newBlock a).newBlock b
    rw [Layout.size_pushed, ← add_cons, ← add_cons, Multiset.cons_swap] at h2
    refine (layCondition_builds (l := (l.pushed a).pushed b) hlive hseqs h2 (mem_cons_self ..)
      (mem_cons_of_mem (mem_cons_self ..)) hlay).congr fun i => ?_
    have hfresh : unreached i → i < l.blocks.size := h.unreached_lt
    constructor
    · exact fun hi => ⟨.inr (.inr hi), by have := hfresh hi; omega, by have := hfresh hi; omega⟩
    · rintro ⟨hi | hi | hi, hne, hne'⟩
      · exact absurd hi hne'
      · exact absurd hi hne
      · exact hi
  have hreached : ∀ i, l.blocks.size ≤ i → ¬ unreached i := fun i hi hun =>
    absurd (h.unreached_lt hun) (Nat.not_lt.2 hi)
  rw [layStmt] at heq
  rw [Stmt.frames]
  split at heq
  · rw [bind_of_ok (newBlock_eq "then" l), bind_of_ok (newBlock_eq "join" _), size_pushed] at heq
    obtain ⟨⟨⟩, l3, hlay, heq⟩ := bind_ok heq
    rw [bind_of_ok (goTo_eq _ _)] at heq
    obtain ⟨⟨⟩, l5, hlayYes, heq⟩ := bind_ok heq
    obtain ⟨⟨⟩, l6, hbranch, heq⟩ := bind_ok heq
    cases heq
    have h5 := hyes ((hcondition hlay).goTo (hreached _ (Nat.le_refl _))) hlayYes
    have h6 := h5.branchOn hbranch (h5.lt_of_mem (by simp))
    exact (h6.goTo (hreached _ (Nat.le_succ _))).le (by omega)
  · rw [bind_of_ok (newBlock_eq "then" l), bind_of_ok (newBlock_eq "else" _), size_pushed] at heq
    obtain ⟨⟨⟩, l3, hlay, heq⟩ := bind_ok heq
    rw [bind_of_ok (goTo_eq _ _)] at heq
    obtain ⟨⟨⟩, l4, hlayYes, heq⟩ := bind_ok heq
    rw [bind_of_ok (position_eq _), bind_of_ok (goTo_eq _ _)] at heq
    obtain ⟨⟨⟩, l5, hlayNo, heq⟩ := bind_ok heq
    rw [bind_of_ok (position_eq _)] at heq
    have h4 := hyes ((hcondition hlay).goTo (hreached _ (Nat.le_refl _))) hlayYes
    rw [add_cons] at h4
    have h5 := hno (h4.goTo (hreached _ (Nat.le_succ _))) hlayNo
    have hends : l5.here + (l4.here + rest) = ↑([l4.current, l5.current].filterMap id) + rest := by
      cases hfirst : l4.current <;> cases hsecond : l5.current <;>
        simp [Layout.here, hfirst, hsecond, ← cons_coe]
    rw [hends] at h5
    refine (h5.join (fun b hb => ?_) heq).le (by omega)
    rcases List.mem_filterMap.1 hb with ⟨o, ho, hb⟩
    rcases List.mem_cons.1 ho with rfl | ho
    · exact (h4.current b hb).2
    · rw [List.mem_singleton.1 ho] at hb
      exact (h5.current b hb).2

theorem caseBlocks_build {ends : Multiset Nat} {unreached : Nat → Prop} {l : Layout} {targets : List (UInt32 × Nat)} :
    ∀ {cases : List (UInt32 × Stmt)}, l.Building M first low depth weight ends unreached →
    (cases.mapM (fun (k, _) => do
      let block ← newBlock "case"
      pure (k, block)) : Laying (List (UInt32 × Nat))) l = .ok (targets, l') →
    targets.length = cases.length ∧ l'.current = l.current ∧ l'.decls = l.decls ∧ l'.Building M first low depth weight
      (↑(targets.map (·.2)) + ends) fun i => i ∈ targets.map (·.2) ∨ unreached i
  | [], h, heq => by
    obtain ⟨rfl, rfl⟩ := pure_ok heq
    refine ⟨rfl, rfl, rfl, ?_⟩
    show Layout.Building M first low depth weight (0 + ends) _ _
    rw [Multiset.zero_add]
    exact h.congr (by simp)
  | (k, s) :: cases, h, heq => by
    rw [List.mapM_cons] at heq
    obtain ⟨t, l1, hnew, heq⟩ := bind_ok heq
    cases hnew
    obtain ⟨ts, l2, hrest, heq⟩ := bind_ok heq
    obtain ⟨rfl, rfl⟩ := pure_ok heq
    obtain ⟨hlength, hcurrent, hdecls, h2⟩ := caseBlocks_build (l := l.pushed "case") (h.newBlock "case") hrest
    refine ⟨by rw [List.length_cons, List.length_cons, hlength], hcurrent, hdecls, ?_⟩
    rw [add_cons] at h2
    rw [List.map_cons, ← cons_coe, Multiset.cons_add]
    exact h2.congr fun i => by simp only [List.mem_cons]; tauto

/-- The cases of a dispatch are laid out in their blocks. -/
theorem cases_build {weight : Nat} {rest : Multiset Nat} {l : Layout} {ends : List (Option Nat)} :
    ∀ {targets : List Nat} {cases : List (UInt32 × Stmt)}, targets.length = cases.length →
    (∀ c ∈ cases, Builds M first c.2) → l.Building M first low depth weight (↑targets + rest) unreached →
    (∀ t ∈ targets, ¬ unreached t) → layCases targets cases l = .ok (ends, l') →
    l'.Building M first low depth (weight + Stmt.framesOfCases cases) (↑(ends.filterMap id) + rest) unreached ∧
      ∀ b ∈ ends.filterMap id, ¬ unreached b
  | [], [], _, _, h, _, heq => by
    rw [layCases] at heq
    · obtain ⟨rfl, rfl⟩ := pure_ok heq
      exact ⟨h, fun b hb => absurd hb List.not_mem_nil⟩
    · exact fun _ _ _ _ _ h => by cases h
  | t :: targets, (k, s) :: cases, hlength, hcases, h, hreached, heq => by
    rw [layCases, bind_of_ok (goTo_eq _ _)] at heq
    obtain ⟨⟨⟩, l1, hlay, heq⟩ := bind_ok heq
    rw [bind_of_ok (position_eq _)] at heq
    obtain ⟨others, l2, hothers, heq⟩ := bind_ok heq
    obtain ⟨rfl, rfl⟩ := pure_ok heq
    rw [← cons_coe, Multiset.cons_add] at h
    have h1 := hcases _ (.head _) (h.goTo (hreached t (.head _))) hlay
    have hends : l1.here + (↑targets + rest) = ↑targets + (l1.here + rest) := add_left_comm ..
    rw [hends] at h1
    obtain ⟨h2, hothers⟩ := cases_build (Nat.succ.inj hlength) (fun c hc => hcases c (.tail _ hc)) h1
      (fun t ht => hreached t (.tail _ ht)) hothers
    have hcurrent := h1.current
    rw [Stmt.framesOfCases, ← Nat.add_assoc]
    cases hfinish : l1.current with
    | none =>
      rw [Layout.here, hfinish, Option.toList_none, coe_nil, Multiset.zero_add] at h2
      exact ⟨h2, hothers⟩
    | some b =>
      rw [Layout.here, hfinish, Option.toList_some, ← Multiset.add_assoc, Multiset.coe_add] at h2
      refine ⟨?_, List.forall_mem_cons.2 ⟨(hcurrent b hfinish).2, hothers⟩⟩
      show Layout.Building M first low depth _ (↑(b :: others.filterMap id) + rest) _ _
      rwa [← Multiset.coe_eq_coe.2 (List.perm_append_singleton ..)]

theorem dispatch_builds {m : Nat} {cases : List (UInt32 × Stmt)} {otherwise : Stmt}
    (hcases : ∀ c ∈ cases, Builds M first c.2) (hother : Builds M first otherwise) :
    Builds M first (.dispatch m cases otherwise) := by
  intro low depth weight rest unreached l l' h heq
  have hreached : ∀ i, l.blocks.size ≤ i → ¬ unreached i := fun i hi hun =>
    absurd (h.unreached_lt hun) (Nat.not_lt.2 hi)
  rw [layStmt, bind_of_ok (newTemp_eq l)] at heq
  obtain ⟨⟨⟩, l1, hmove, heq⟩ := bind_ok heq
  obtain ⟨targets, l2, htargets, heq⟩ := bind_ok heq
  rw [bind_of_ok (newBlock_eq "default" l2)] at heq
  obtain ⟨⟨⟩, l3, hbranch, heq⟩ := bind_ok heq
  obtain ⟨ends, l4, hlay, heq⟩ := bind_ok heq
  rw [bind_of_ok (goTo_eq _ _)] at heq
  obtain ⟨⟨⟩, l5, hlayOther, heq⟩ := bind_ok heq
  rw [bind_of_ok (position_eq _)] at heq
  have h1 := h.moves rfl hmove
  have htemp : l.decls.temps < l1.decls.temps := by
    obtain ⟨c, -, rfl⟩ := emit_ok hmove
    exact Nat.lt_succ_self _
  obtain ⟨hlength, hcurrent, hdecls, h2⟩ := caseBlocks_build h1 htargets
  -- the blocks are new, so that they are not among what was to be reached
  have hfresh : ∀ t ∈ targets.map (·.2), ¬ unreached t := fun t ht hun =>
    Multiset.disjoint_left.1 (Multiset.nodup_add.1 (Multiset.nodup_add.1 h2.nodup).2.1).2.2 (Multiset.mem_coe.2 ht)
      (h1.unreached_mem t hun)
  have hrest : ¬ unreached l2.blocks.size := fun hun =>
    Nat.lt_irrefl _ (h2.unreached_lt (i := l2.blocks.size) (.inr hun))
  have h3 := h2.newBlock "default"
  have hends : l2.blocks.size ::ₘ (↑(targets.map (·.2)) + (l1.here + rest)) =
      (l2.pushed "default").here + (↑(targets.map (·.2)) + l2.blocks.size ::ₘ rest) := by
    rw [show (l2.pushed "default").here = l1.here from congrArg (fun c : Option Nat => (↑c.toList : Multiset Nat)) hcurrent,
      add_cons, add_cons, add_left_comm]
  rw [hends] at h3
  obtain ⟨h4, hhere⟩ := Layout.Building.emit (l := l2.pushed "default") h3 hbranch rfl
    (by simpa [stmtDefect?, Layout.pushed, hdecls] using htemp)
    (by
      intro j hj
      rw [size_pushed]
      rcases List.mem_append.1 hj with hj | hj
      · exact Nat.lt_succ_of_lt (h2.lt_of_mem (Multiset.mem_add.2 (.inl (Multiset.mem_coe.2 hj))))
      · rw [List.mem_singleton.1 hj]
        exact Nat.lt_succ_self _)
    (V := unreached)
    (by
      rintro i (hi | hi | hi) hni
      · exact absurd (List.mem_append_right _ (List.mem_singleton.2 hi)) hni
      · exact absurd (List.mem_append_left _ hi) hni
      · exact hi)
    fun i hi => .inr (.inr hi)
  rw [hhere rfl, Multiset.zero_add] at h4
  obtain ⟨h5, hcaseEnds⟩ := cases_build (by rw [List.length_map, hlength]) hcases h4 hfresh hlay
  rw [add_cons] at h5
  have h6 := hother (h5.goTo hrest) hlayOther
  have hjoin : l5.here + (↑(ends.filterMap id) + rest) = ↑((ends ++ [l5.current]).filterMap id) + rest := by
    rw [List.filterMap_append, ← Multiset.coe_add, ← Multiset.add_assoc, Multiset.add_comm l5.here, Layout.here]
    cases l5.current <;> rfl
  rw [hjoin] at h6
  rw [Stmt.frames, ← Nat.add_assoc]
  refine h6.join (fun b hb => ?_) heq
  rw [List.filterMap_append, List.mem_append] at hb
  refine hb.elim (hcaseEnds b) fun hb => ?_
  obtain ⟨o, ho, hb⟩ := List.mem_filterMap.1 hb
  rw [List.mem_singleton.1 ho] at hb
  exact (h6.current b hb).2

theorem frame_builds {s : Stmt} (hM : ∀ m ∈ s.matchers, M m) : Builds M first (.frame s.simplified) := by
  intro low depth weight rest unreached l l' h heq
  rw [layStmt, bind_of_ok (hoist_eq _ l)] at heq
  have := @Layout.Building.declares M first low depth weight rest unreached l h l.decls (Nat.le_refl _) [s.simplified]
    (fun _ => Or.inl) (List.forall_mem_singleton.2 ⟨s, hM, rfl⟩) (fun _ => Or.inl)
  have := this.emitPlain (l := l.declared l.decls [s.simplified]) heq rfl (by simp [stmtDefect?, Layout.declared]) rfl
  rwa [Stmt.framesOf, Stmt.framesOf, Nat.add_zero] at this

theorem simplifiedAll_build : ∀ {list : List Stmt}, (∀ m ∈ Stmt.matchersOf list, M m) →
    ∀ body ∈ Stmt.simplifiedAll list, ∃ s : Stmt, (∀ m ∈ s.matchers, M m) ∧ body = s.simplified
  | [], _ => fun _ h => absurd h List.not_mem_nil
  | s :: list, hM => by
    rw [Stmt.matchersOf, List.forall_mem_append] at hM
    rw [Stmt.simplifiedAll]
    exact List.forall_mem_cons.2 ⟨⟨s, hM.1, rfl⟩, simplifiedAll_build hM.2⟩

theorem splitList_builds {id : Nat} {list : List Stmt} (hM : ∀ m ∈ Stmt.matchersOf list, M m) :
    Builds M first (.splitList id (Stmt.simplifiedAll list)) := by
  intro low depth weight rest unreached l l' h heq
  rw [layStmt, bind_of_ok (mapM_hoist _ l)] at heq
  have := @Layout.Building.declares M first low depth weight rest unreached l h l.decls (Nat.le_refl _)
    (Stmt.simplifiedAll list) (fun _ => Or.inl) (simplifiedAll_build hM) (fun _ => Or.inl)
  refine this.declare (l := l.declared l.decls _) heq rfl (fun split hsplit => ?_) fun _ => Or.inl
  refine (List.mem_append.1 hsplit).imp_right fun hnew k hk => ?_
  rw [List.mem_singleton.1 hnew] at hk
  exact (List.mem_range'_1.1 hk).2

section

variable (M first)

mutual

/-- Statements whose conditions are decided can be laid out. -/
theorem layStmt_builds : ∀ s : Stmt, (∀ m ∈ s.matchers, M m) → Builds M first s.simplified
  | .ite c yes no, hM => by
    rw [Stmt.matchers, List.forall_mem_append, List.forall_mem_append] at hM
    have hyes := layStmt_builds yes hM.1.2
    have hno := layStmt_builds no hM.2
    have hseqs : ∀ s ∈ c.simplified.fold.seqs, Builds M first s := fun s hs =>
      seqs_build c hM.1.1 s (Expr.seqs_fold _ hs)
    rw [Stmt.simplified]
    split
    · exact seq_builds (List.forall_mem_singleton.2 hyes)
    · exact seq_builds (List.forall_mem_singleton.2 hno)
    · next htrue hfalse =>
      refine ite_builds ((Expr.live_fold _).resolve_right ?_) hseqs hyes hno
      rintro ⟨b, hb⟩
      cases b
      · exact hfalse hb
      · exact htrue hb
  | .loop _ _ body, hM => loop_builds (layStmt_builds body hM)
  | .seq list, hM => seq_builds (layAll_builds list hM)
  | .frame _, hM => frame_builds hM
  | .splitList _ _, hM => splitList_builds hM
  | .dispatch _ cases otherwise, hM => by
    rw [Stmt.matchers, List.forall_mem_append] at hM
    exact dispatch_builds (layCases_builds cases hM.1) (layStmt_builds otherwise hM.2)
  | .leave loop, _ => leave_builds loop
  | .nop, _ => fun _ _ _ _ _ _ _ h heq => by
    rw [Stmt.simplified, layStmt] at heq
    · obtain ⟨-, rfl⟩ := pure_ok heq
      exact h
    all_goals simp
  | .counter .., _ | .bitvec .., _ | .uniqueSet _, _ => fun _ _ _ _ _ _ _ h heq => by
    rw [Stmt.simplified, layStmt] at heq
    · exact h.declare heq rfl (fun _ => Or.inl) fun _ => Or.inl
    all_goals simp
  | .matcher _ m, hM => fun _ _ _ _ _ _ _ h heq => by
    rw [Stmt.simplified, layStmt] at heq
    · refine h.declare heq rfl (fun _ => Or.inl) fun m' hm' => ?_
      refine (List.mem_append.1 hm').imp_right fun hm' => ?_
      exact List.mem_singleton.1 hm' ▸ hM m (List.mem_singleton.2 rfl)
    all_goals simp
  | .valid, _ | .invalid _, _ | .token, _ | .consume, _ | .untoken, _ | .bitSet .., _ | .bitClear .., _
  | .incr _, _ | .decr _, _ | .splitBits .., _ => fun _ _ _ _ _ _ _ h heq => by
    rw [Stmt.simplified, layStmt] at heq
    · exact h.emitPlain heq rfl rfl rfl
    all_goals simp
  | .call _, _ | .branch _, _ | .branchIf .., _ | .branchCase .., _ | .move .., _ | .block _, _ =>
    fun _ _ _ _ _ _ _ _ heq => by
      rw [Stmt.simplified, layStmt] at heq
      · cases heq
      all_goals simp

theorem layAll_builds : ∀ list : List Stmt, (∀ m ∈ Stmt.matchersOf list, M m) →
    ∀ s ∈ Stmt.simplifiedAll list, Builds M first s
  | [], _ => fun _ h => absurd h List.not_mem_nil
  | s :: list, hM => by
    rw [Stmt.matchersOf, List.forall_mem_append] at hM
    rw [Stmt.simplifiedAll]
    exact List.forall_mem_cons.2 ⟨layStmt_builds s hM.1, layAll_builds list hM.2⟩

theorem layCases_builds : ∀ cases : List (UInt32 × Stmt), (∀ m ∈ Stmt.matchersOfCases cases, M m) →
    ∀ c ∈ Stmt.simplifiedCases cases, Builds M first c.2
  | [], _ => fun _ h => absurd h List.not_mem_nil
  | (k, s) :: cases, hM => by
    rw [Stmt.matchersOfCases, List.forall_mem_append] at hM
    rw [Stmt.simplifiedCases]
    exact List.forall_mem_cons.2 ⟨layStmt_builds s hM.1, layCases_builds cases hM.2⟩

theorem seqs_build (e : Expr) (hM : ∀ m ∈ e.matchers, M m) : ∀ s ∈ e.simplified.seqs, Builds M first s := by
  cases e with
  | seq s e =>
    rw [Expr.matchers, List.forall_mem_append] at hM
    rw [Expr.simplified, Expr.seqs]
    exact List.forall_mem_cons.2 ⟨layStmt_builds s hM.1, seqs_build e hM.2⟩
  | isInteger e | isMultiple e _ | not e => exact seqs_build e hM
  | and a b | or a b | compare _ a b =>
    rw [Expr.matchers, List.forall_mem_append] at hM
    rw [Expr.simplified, Expr.seqs]
    exact List.forall_mem_append.2 ⟨seqs_build a hM.1, seqs_build b hM.2⟩
  | _ => exact fun _ h => absurd h List.not_mem_nil

end

end

end

/-! ## Frames -/

theorem entry_building (M : Matcher → Prop) (next : Nat) :
    (entryLayout next).Building M next 1 0 0 ((entryLayout next).here + 0) fun _ => False := by
  have h : ({ nextFrame := next } : Layout).Building M next 0 0 0 0 fun _ => False := by
    refine ⟨?_, ?_, ?_, ?_, Multiset.nodup_zero, ?_, ?_, ?_, ?_, rfl, ?_, ?_, Nat.le_refl _, Nat.zero_le _, rfl⟩ <;>
      simp [stmtsAt, exitsOf]
  have h := h.newBlock "entry"
  have h : (({ nextFrame := next } : Layout).pushed "entry").Building M next 1 0 0 {0} fun _ => False :=
    { h with
      current := fun c hc => by cases hc
      unreached_mem := fun _ hun => hun.elim
      reach := fun i hi => .inr (by
        rw [Nat.lt_one_iff.1 hi])
      low_le := Nat.le_refl _ }
  exact h.goTo (b := 0) fun hun => hun

theorem targetsAt_toList (l : Layout) (i : Nat) : targetsAt l.blocks.toList i = successorsOf (l.stmtsAt i) := by
  rw [targetsAt, stmtsAt, successorsOf, Array.getElem?_toList]
  cases l.blocks[i]? with
  | none => rfl
  | some b =>
    show blockSuccessors b = (b.stmts.getLast?.map Stmt.successors).getD []
    rw [blockSuccessors]
    cases b.stmts.getLast? <;> rfl

variable {M : Matcher → Prop}

/-- A frame that can be laid out is well-formed, and all its matchers and nested frames are those of the tree. -/
theorem layFrame_formed {next : Nat} {s : Stmt} (hM : ∀ m ∈ s.matchers, M m)
    {f : Frame (List Block)} {nested : List Stmt} (heq : layFrame next s.simplified = .ok (f, nested)) :
    Formed (next + nested.length) f ∧ (∀ m ∈ f.decls.matchers, M m) ∧
      (∀ body ∈ nested, ∃ s : Stmt, (∀ m ∈ s.matchers, M m) ∧ body = s.simplified) ∧
      nested.length + Stmt.framesOf nested ≤ s.simplified.frames := by
  rw [layFrame_eq] at heq
  obtain ⟨⟨⟨⟩, l⟩, hlay, heq⟩ := step_ok heq
  have h := layStmt_builds M next s hM (entry_building M next) hlay
  dsimp only at heq
  split at heq
  · cases heq
  next hcurrent =>
  cases heq
  have hends : ↑(exitsOf l.loops) + (l.here + 0) = (0 : Multiset Nat) := by
    rw [List.eq_nil_of_length_eq_zero h.depth_eq, Layout.here, hcurrent]
    rfl
  have hget : ∀ i, l.blocks.toList[i]? = l.blocks[i]? := fun i => Array.getElem?_toList
  have hstmts : ∀ b ∈ l.blocks.toList, ∃ i < l.blocks.size, l.stmtsAt i = b.stmts := fun b hb => by
    obtain ⟨i, hi, rfl⟩ := List.getElem_of_mem hb
    exact ⟨i, by simpa using hi, by simp [stmtsAt, Array.length_toList ▸ hi]⟩
  have hweight := h.weight_le
  rw [Nat.zero_add] at hweight
  refine ⟨⟨?_, fun i b hb => h.id_eq i b (by rwa [← hget]), fun b hb => ?_, fun b hb t ht => ?_, fun i hi => ?_, ?_⟩,
    h.matchers, h.nested, hweight⟩
  · intro (hnil : l.blocks.toList = [])
    have := h.low_le
    rw [← Array.length_toList, hnil] at this
    cases this
  · obtain ⟨i, hi, hb⟩ := hstmts b hb
    rw [← hb]
    exact h.shut_of i hi (by rw [hends]; exact Multiset.notMem_zero i)
  · obtain ⟨i, -, hb⟩ := hstmts b hb
    rw [← h.next_eq, Array.length_toList]
    exact h.stmts i t (by rwa [hb])
  · have := (h.reach i (by simpa using hi)).resolve_left id
    refine this.lift id fun i j hij => ?_
    show j ∈ targetsAt l.blocks.toList i
    rwa [targetsAt_toList]
  · rw [← h.next_eq]
    exact h.splits

/-- The frames of a tree, before they are checked. -/
def layTree (t : Tree) : Except Fault Graph :=
  layFrames ((Stmt.simplifiedAll t).length + Stmt.framesOf (Stmt.simplifiedAll t)) (Stmt.simplifiedAll t).length
    (Stmt.simplifiedAll t)

theorem layTree_formed {t : Tree} (hM : ∀ m ∈ Stmt.matchersOf t, M m) {g : Graph}
    (heq : layTree t = .ok g) : ∀ f ∈ g, Formed g.length f ∧ ∀ m ∈ f.decls.matchers, M m := by
  intro f hf
  obtain ⟨bodies, -, hbodies, hnumbered⟩ := layFrames_numbered (fun hbody hframe => by
    obtain ⟨s, hs, rfl⟩ := hbody
    obtain ⟨-, -, hnested, hweight⟩ := layFrame_formed hs hframe
    exact ⟨hnested, hweight⟩) 0 (simplifiedAll_build hM) (Nat.le_refl _) (by rwa [Nat.zero_add])
  obtain ⟨i, hi, rfl⟩ := List.getElem_of_mem hf
  have hi' : i < bodies.length := hnumbered.length_eq ▸ hi
  obtain ⟨next, nested, hframe, hle, -⟩ :=
    hnumbered.frame i _ _ (List.getElem?_eq_getElem hi') (List.getElem?_eq_getElem hi)
  obtain ⟨s, hs, hbody⟩ := hbodies _ (List.getElem_mem hi')
  rw [hbody] at hframe
  obtain ⟨hformed, hmatchers, -⟩ := layFrame_formed hs hframe
  exact ⟨hformed.mono (by rw [hnumbered.length_eq]; omega), hmatchers⟩

/-- A tree has the graph that its frames are laid out as: the check finds nothing. -/
theorem ofTree_eq_layTree (t : Tree) : ofTree t = layTree t := by
  rw [ofTree]
  cases hlay : layTree t with
  | error e =>
    rw [layTree] at hlay
    simp only [hlay, bind, Except.bind]
  | ok g =>
    have hcheck := check_eq_ok fun f hf => (layTree_formed (M := fun _ => True) (fun _ _ => trivial) hlay f hf).1
    rw [layTree] at hlay
    simp only [hlay, hcheck, bind, Except.bind, pure, Except.pure]

theorem ofTree_formed {t : Tree} {g : Graph} (h : ofTree t = .ok g) : ∀ f ∈ g, Formed g.length f :=
  fun f hf => (layTree_formed (M := fun _ => True) (fun _ _ => trivial) (ofTree_eq_layTree t ▸ h) f hf).1

end Graph

end JsonSieve
