import Mathlib.Algebra.Order.BigOperators.Group.Finset
import Mathlib.Data.List.Chain
import Mathlib.Data.List.Induction
import JsonSieve.Proofs.Graph.Built
import JsonSieve.Proofs.Liveness.Sorted

/-!
# What is live

A variable is live at the beginning of a block if some path from there reads it before it is written
(`Live`). The sets that liveness computes are exactly these: each sweep keeps to variables that are live and
loses none (`Improving.sweep`), and a sweep that changes nothing has found all of them (`live_of_fixed`). There are
enough sweeps, as each of them but the last makes the sets larger (`sweeps_fixed`).
-/

namespace JsonSieve.Liveness

open Sorted

/-! ## Reading before writing -/

/-- A statement reads the variable, and none before it writes it. -/
def ReadsFirst (v : Var) (stmts : List Stmt) : Prop :=
  ∃ before s after, stmts = before ++ s :: after ∧ v ∈ s.reads ∧ ∀ t ∈ before, t.writes ≠ some v

section

variable {v : Var}

theorem not_readsFirst_nil : ¬ ReadsFirst v [] := by
  rintro ⟨before, s, after, h, -⟩
  simp at h

theorem readsFirst_append {a b : List Stmt} : ReadsFirst v (a ++ b) ↔
    ReadsFirst v a ∨ (∀ s ∈ a, s.writes ≠ some v) ∧ ReadsFirst v b := by
  constructor
  · rintro ⟨before, s, after, h, hs, hbefore⟩
    rcases List.append_eq_append_iff.1 h with ⟨c, rfl, rfl⟩ | ⟨c, rfl, hc⟩
    · exact .inr ⟨fun t ht => hbefore t (List.mem_append_left _ ht), c, s, after, rfl, hs,
        fun t ht => hbefore t (List.mem_append_right _ ht)⟩
    · cases c with
      | nil =>
        rw [List.nil_append] at hc
        rw [List.append_nil]
        exact .inr ⟨hbefore, [], s, after, hc.symm, hs, fun _ h => absurd h List.not_mem_nil⟩
      | cons t c =>
        cases hc
        exact .inl ⟨before, s, c, rfl, hs, hbefore⟩
  · rintro (⟨before, s, after, rfl, hs, hbefore⟩ | ⟨hnot, before, s, after, rfl, hs, hbefore⟩)
    · exact ⟨before, s, after ++ b, by simp, hs, hbefore⟩
    · exact ⟨a ++ before, s, after, by simp, hs, List.forall_mem_append.2 ⟨hnot, hbefore⟩⟩

theorem readsFirst_singleton {s : Stmt} : ReadsFirst v [s] ↔ v ∈ s.reads := by
  constructor
  · rintro ⟨before, t, after, h, ht, -⟩
    rcases List.append_eq_cons_iff.1 h.symm with ⟨rfl, h⟩ | ⟨c, rfl, h⟩
    · cases h
      exact ht
    · simp at h
  · exact fun h => ⟨[], s, [], rfl, h, fun _ h => absurd h List.not_mem_nil⟩

theorem mem_usesAndDefs (stmts : List Stmt) : (v ∈ (usesAndDefs stmts).1 ↔ ReadsFirst v stmts) ∧
    (v ∈ (usesAndDefs stmts).2 ↔ ∃ s ∈ stmts, s.writes = some v) := by
  induction stmts using List.reverseRecOn with
  | nil => simp [usesAndDefs, not_readsFirst_nil]
  | append_singleton stmts s ih =>
    obtain ⟨huses, hdefs⟩ := ih
    rw [usesAndDefs] at huses hdefs
    rw [usesAndDefs, List.foldl_append, readsFirst_append, readsFirst_singleton, List.foldl_cons, List.foldl_nil,
      mem_foldl_insert, mem_foldl_insert, huses, hdefs]
    have hnot : (∀ t ∈ stmts, t.writes ≠ some v) ↔ ¬ ∃ t ∈ stmts, t.writes = some v := by simp
    constructor
    · rw [List.mem_filter, hnot, ← hdefs]
      simp [and_comm]
    · simp [or_and_right, exists_or]

end

/-! ## Paths -/

abbrev stmtsAt (blocks : List (List Stmt)) (i : Nat) : List Stmt := blocks[i]?.getD []

/-- Some path from the beginning of a block reads the variable before any of its statements writes it. -/
def Live (blocks : List (List Stmt)) (v : Var) (b : Nat) : Prop :=
  ∃ path : List Nat, (b :: path).IsChain (fun i j => j ∈ successorsOf (stmtsAt blocks i)) ∧
    ReadsFirst v ((b :: path).flatMap (stmtsAt blocks))

/-- Some path that begins behind the first statements of a block, in front of the others, reads the variable
before any of its statements writes it. -/
def LiveBehind (blocks : List (List Stmt)) (v : Var) (b : Nat) (after : List Stmt) : Prop :=
  ∃ path : List Nat, (b :: path).IsChain (fun i j => j ∈ successorsOf (stmtsAt blocks i)) ∧
    ReadsFirst v (after ++ path.flatMap (stmtsAt blocks))

variable {blocks : List (List Stmt)}

theorem liveBehind_iff {v : Var} {b : Nat} {after : List Stmt} : LiveBehind blocks v b after ↔ ReadsFirst v after ∨
    (∀ s ∈ after, s.writes ≠ some v) ∧ ∃ c ∈ successorsOf (stmtsAt blocks b), Live blocks v c := by
  constructor
  · rintro ⟨path, hpath, hreads⟩
    refine (readsFirst_append.1 hreads).imp_right fun hlater => ⟨hlater.1, ?_⟩
    cases path with
    | nil => exact absurd hlater.2 not_readsFirst_nil
    | cons c path =>
      obtain ⟨hc, hpath⟩ := List.isChain_cons_cons.1 hpath
      exact ⟨c, hc, path, hpath, hlater.2⟩
  · rintro (hreads | ⟨hnot, c, hc, path, hpath, hreads⟩)
    · exact ⟨[], List.isChain_singleton _, by simpa using hreads⟩
    · exact ⟨c :: path, List.isChain_cons_cons.2 ⟨hc, hpath⟩, readsFirst_append.2 (.inr ⟨hnot, hreads⟩)⟩

theorem live_iff {v : Var} {b : Nat} : Live blocks v b ↔
    ReadsFirst v (stmtsAt blocks b) ∨ (∀ s ∈ stmtsAt blocks b, s.writes ≠ some v) ∧
      ∃ c ∈ successorsOf (stmtsAt blocks b), Live blocks v c :=
  liveBehind_iff

/-! ## Sweeps -/

abbrev setAt (live : Array (List Var)) (i : Nat) : List Var := live[i]?.getD []

abbrev improved (b : BlockFacts) (live : Array (List Var)) : List Var :=
  inOf b.uses b.defs (outOf live b.successors)

theorem mem_improved {b : BlockFacts} {live : Array (List Var)} {v : Var} : v ∈ improved b live ↔
    v ∈ b.uses ∨ (∃ s ∈ b.successors, v ∈ setAt live s) ∧ v ∉ b.defs := by
  rw [improved, inOf, mem_union, List.mem_filter, outOf, mem_foldr_union]
  simp

def Within (live live' : Array (List Var)) : Prop := ∀ i, setAt live i ⊆ setAt live' i

/-- Sets that only hold allowed variables and that sweeps can only make larger. -/
structure Improving (blocks : List BlockFacts) (allowed : Nat → Var → Prop) (live : Array (List Var)) : Prop where
  size_eq : live.size = blocks.length
  strict : ∀ i, Strict (setAt live i)
  grows : ∀ (i : Nat) (b : BlockFacts), blocks[i]? = some b → setAt live i ⊆ improved b live
  allowed : ∀ i, ∀ v ∈ setAt live i, allowed i v

def Keeps (blocks : List BlockFacts) (allowed : Nat → Var → Prop) : Prop :=
  ∀ (i : Nat) (b : BlockFacts), blocks[i]? = some b → Strict b.uses ∧ (∀ v ∈ b.uses, allowed i v) ∧
    ∀ s ∈ b.successors, ∀ v, allowed s v → v ∉ b.defs → allowed i v

section

variable {blocks : List BlockFacts} {allowed : Nat → Var → Prop} {live live' : Array (List Var)}

theorem Within.trans {a b c : Array (List Var)} (h : Within a b) (h' : Within b c) : Within a c :=
  fun i => List.Subset.trans (h i) (h' i)

theorem improved_mono (b : BlockFacts) (h : Within live live') : improved b live ⊆ improved b live' := by
  intro v hv
  rw [mem_improved] at hv ⊢
  refine hv.imp_right (And.imp_left ?_)
  rintro ⟨s, hs, hv⟩
  exact ⟨s, hs, h s hv⟩

theorem strict_outOf (h : ∀ i, Strict (setAt live i)) (successors : List Nat) : Strict (outOf live successors) := by
  induction successors with
  | nil => exact List.Pairwise.nil
  | cons s successors ih => exact (h s).union ih

theorem setAt_set {i : Nat} (hi : i < live.size) (set : List Var) (j : Nat) :
    setAt (live.setIfInBounds i set) j = if j = i then set else setAt live j := by
  rw [setAt, Array.getElem?_setIfInBounds]
  by_cases hij : j = i
  · simp [hij, hi]
  · simp [hij, Ne.symm hij]

namespace Improving

theorem ext (h : Improving blocks allowed live) (h' : Improving blocks allowed live') (hle : Within live live')
    (hle' : Within live' live) : live = live' := by
  refine Array.ext (h.size_eq.trans h'.size_eq.symm) fun i hi hi' => ?_
  have := (h.strict i).ext (h'.strict i) fun v => ⟨fun hv => hle i hv, fun hv => hle' i hv⟩
  simpa [setAt, hi, hi'] using this

theorem update (hkeeps : Keeps blocks allowed) (h : Improving blocks allowed live) {i : Nat} {b : BlockFacts}
    (hb : blocks[i]? = some b) : Improving blocks allowed (live.setIfInBounds i (improved b live)) ∧
      Within live (live.setIfInBounds i (improved b live)) := by
  have hi : i < live.size := h.size_eq ▸ (List.getElem?_eq_some_iff.1 hb).1
  obtain ⟨huses, hallowed, hstep⟩ := hkeeps i b hb
  have hset := setAt_set hi (improved b live)
  have hle : Within live (live.setIfInBounds i (improved b live)) := by
    intro j
    rw [hset]
    split
    · next hj =>
      subst hj
      exact h.grows j b hb
    · exact List.Subset.refl _
  refine ⟨⟨by rw [Array.size_setIfInBounds, h.size_eq], fun j => ?_, fun j c hc => ?_, fun j v hv => ?_⟩, hle⟩
  · rw [hset]
    split
    · exact huses.union ((strict_outOf h.strict _).filter _)
    · exact h.strict j
  · refine List.Subset.trans ?_ (improved_mono c hle)
    rw [hset]
    split
    · next hj =>
      subst hj
      cases hb.symm.trans hc
      exact List.Subset.refl _
    · exact h.grows j c hc
  · rw [hset] at hv
    split at hv
    · next hj =>
      subst hj
      rcases mem_improved.1 hv with huse | ⟨⟨s, hs, hv⟩, hdef⟩
      · exact hallowed v huse
      · exact hstep s hs v (h.allowed s v hv) hdef
    · exact h.allowed j v hv

/-- A sweep, and what it means that it changes nothing. -/
theorem sweep (hkeeps : Keeps blocks allowed) (h : Improving blocks allowed live) {list : List (BlockFacts × Nat)}
    (hlist : ∀ p ∈ list, blocks[p.2]? = some p.1) : Improving blocks allowed (sweep list live) ∧
      Within live (sweep list live) ∧
      (Liveness.sweep list live = live → ∀ p ∈ list, setAt live p.2 = improved p.1 live) := by
  induction list with
  | nil => exact ⟨h, fun _ => List.Subset.refl _, fun _ _ hp => absurd hp List.not_mem_nil⟩
  | cons p list ih =>
    obtain ⟨hlater, hle, hfixed⟩ := ih fun p hp => hlist p (.tail _ hp)
    have hp := hlist p (.head _)
    obtain ⟨hnow, hle'⟩ := hlater.update hkeeps hp
    have hsweep : Liveness.sweep (p :: list) live =
        (Liveness.sweep list live).setIfInBounds p.2 (improved p.1 (Liveness.sweep list live)) := rfl
    rw [hsweep]
    refine ⟨hnow, hle.trans hle', fun heq => ?_⟩
    -- the sets before and after the blocks behind are between equal ones
    have hsame : Liveness.sweep list live = live := by
      rw [heq] at hle'
      exact hlater.ext h hle' hle
    refine List.forall_mem_cons.2 ⟨?_, hfixed hsame⟩
    rw [hsame] at heq
    have := setAt_set (h.size_eq ▸ (List.getElem?_eq_some_iff.1 hp).1) (improved p.1 live) p.2
    rwa [heq, if_pos rfl] at this

end Improving

def weight (live : Array (List Var)) : Nat := ∑ i ∈ Finset.range live.size, (setAt live i).length

theorem weight_lt (h : Improving blocks allowed live) (h' : Improving blocks allowed live') (hle : Within live live')
    (hne : live' ≠ live) : weight live < weight live' := by
  have hlength : ∀ i, (setAt live i).length ≤ (setAt live' i).length := fun i => (h.strict i).length_le (hle i)
  rw [weight, weight, h'.size_eq, ← h.size_eq]
  refine Finset.sum_lt_sum (fun i _ => hlength i) ?_
  by_contra hnone
  refine hne (h'.ext h (fun i => ?_) hle)
  by_cases hi : i < live.size
  · have : (setAt live' i).length ≤ (setAt live i).length := by
      by_contra hlt
      exact hnone ⟨i, Finset.mem_range.2 hi, Nat.lt_of_not_le hlt⟩
    rw [(h.strict i).eq_of_length_le (h'.strict i) (hle i) this]
    exact List.Subset.refl _
  · rw [setAt, Array.getElem?_eq_none (by rw [h'.size_eq, ← h.size_eq]; omega)]
    exact List.nil_subset _

theorem sweeps_fixed (hkeeps : Keeps blocks allowed) {vars : List Var} (hvars : ∀ i v, allowed i v → v ∈ vars)
    (fuel : Nat) (h : Improving blocks allowed live) (hfuel : blocks.length * vars.length < weight live + fuel) :
    Improving blocks allowed (sweeps blocks.zipIdx fuel live) ∧ ∀ (i : Nat) (b : BlockFacts), blocks[i]? = some b →
        setAt (sweeps blocks.zipIdx fuel live) i = improved b (sweeps blocks.zipIdx fuel live) := by
  have hlist : ∀ p ∈ blocks.zipIdx, blocks[p.2]? = some p.1 := fun p hp => List.mem_zipIdx_iff_getElem?.1 hp
  induction fuel generalizing live with
  | zero =>
    have hle : weight live ≤ blocks.length * vars.length := by
      rw [weight, h.size_eq]
      refine (Finset.sum_le_card_nsmul _ _ vars.length fun i _ => ?_).trans (by simp)
      exact (h.strict i).length_le fun v hv => hvars i v (h.allowed i v hv)
    omega
  | succ fuel ih =>
    obtain ⟨hnext, hle, hfixed⟩ := h.sweep hkeeps hlist
    rw [sweeps]
    split
    · next heq => exact ⟨h, fun i b hb => hfixed heq (b, i) (List.mem_zipIdx_iff_getElem?.2 hb)⟩
    · next hne =>
      have := weight_lt h hnext hle hne
      exact ih hnext (by omega)

end

/-! ## Frames -/

theorem strict_uses (stmts : List Stmt) : Strict (usesAndDefs stmts).1 := by
  induction stmts using List.reverseRecOn with
  | nil => exact List.Pairwise.nil
  | append_singleton stmts s ih =>
    rw [usesAndDefs] at ih
    rw [usesAndDefs, List.foldl_append]
    exact ih.foldl_insert

def given (blocks : List (List Stmt)) : List BlockFacts :=
  blocks.zipIdx.map fun (stmts, i) =>
    { predecessors := predecessorsOf (blocks.map successorsOf) i
      successors := successorsOf stmts
      uses := (usesAndDefs stmts).1
      defs := (usesAndDefs stmts).2 }

section

variable {blocks : List (List Stmt)}

theorem getElem?_given (i : Nat) : (given blocks)[i]? = blocks[i]?.map fun stmts =>
    { predecessors := predecessorsOf (blocks.map successorsOf) i
      successors := successorsOf stmts
      uses := (usesAndDefs stmts).1
      defs := (usesAndDefs stmts).2 } := by
  rw [given, List.getElem?_map, List.getElem?_zipIdx, Nat.zero_add]
  cases blocks[i]? <;> rfl

theorem length_given : (given blocks).length = blocks.length := by
  rw [given, List.length_map, List.length_zipIdx]

/-- Live variables, as far as something uses them, are all that sweeps come to. -/
theorem keeps_given : Keeps (given blocks) fun i v =>
    v ∈ (given blocks).foldr (fun b set => union b.uses set) [] ∧ Live blocks v i := by
  intro i b hb
  have hmem := List.mem_of_getElem? hb
  rw [getElem?_given] at hb
  obtain ⟨stmts, hstmts, rfl⟩ := Option.map_eq_some_iff.1 hb
  have hat : stmtsAt blocks i = stmts := by rw [stmtsAt, hstmts, Option.getD_some]
  refine ⟨strict_uses stmts, fun v hv => ⟨mem_foldr_union.2 ⟨_, hmem, hv⟩, ?_⟩, fun s hs v hlive hdef => ⟨hlive.1, ?_⟩⟩
  · rw [live_iff, hat]
    exact .inl ((mem_usesAndDefs stmts).1.1 hv)
  · rw [live_iff, hat]
    refine .inr ⟨fun t ht hwrites => hdef ((mem_usesAndDefs stmts).2.2 ⟨t, ht, hwrites⟩), s, hs, hlive.2⟩

/-- Sets that no sweep changes hold all that is live. -/
theorem live_of_fixed {live : Array (List Var)}
    (hfixed : ∀ (i : Nat) (b : BlockFacts), (given blocks)[i]? = some b → setAt live i = improved b live)
    {v : Var} {b : Nat} (h : Live blocks v b) : v ∈ setAt live b := by
  obtain ⟨path, hpath, hreads⟩ := h
  induction path generalizing b with
  | nil =>
    cases hb : blocks[b]? with
    | none => exact absurd hreads (by simpa [stmtsAt, hb] using not_readsFirst_nil)
    | some stmts =>
      rw [hfixed b _ (by rw [getElem?_given, hb]; rfl), mem_improved]
      refine .inl ((mem_usesAndDefs stmts).1.2 ?_)
      simpa [stmtsAt, hb] using hreads
  | cons c path ih =>
    obtain ⟨hc, hpath⟩ := List.isChain_cons_cons.1 hpath
    cases hb : blocks[b]? with
    | none =>
      rw [stmtsAt, hb] at hc
      cases hc
    | some stmts =>
      have hat : stmtsAt blocks b = stmts := by rw [stmtsAt, hb, Option.getD_some]
      rw [List.flatMap_cons, readsFirst_append, hat] at hreads
      rw [hat] at hc
      rw [hfixed b _ (by rw [getElem?_given, hb]; rfl), mem_improved]
      refine hreads.imp (mem_usesAndDefs stmts).1.2 fun hlater => ⟨⟨c, hc, ih hpath hlater.2⟩, fun hdef => ?_⟩
      obtain ⟨t, ht, hwrites⟩ := (mem_usesAndDefs stmts).2.1 hdef
      exact hlater.1 t ht hwrites

theorem mem_predecessorsOf {successors : List (List Nat)} {b c : Nat} :
    c ∈ predecessorsOf successors b ↔ ∃ targets, successors[c]? = some targets ∧ b ∈ targets := by
  rw [predecessorsOf, List.mem_flatMap]
  constructor
  · rintro ⟨⟨targets, i⟩, hi, hc⟩
    obtain ⟨target, htarget, rfl⟩ := List.mem_map.1 hc
    rw [List.mem_filter, decide_eq_true_eq] at htarget
    exact ⟨targets, List.mem_zipIdx_iff_getElem?.1 hi, htarget.2 ▸ htarget.1⟩
  · rintro ⟨targets, hc, hb⟩
    exact ⟨(targets, c), List.mem_zipIdx_iff_getElem?.2 hc,
      List.mem_map.2 ⟨b, List.mem_filter.2 ⟨hb, decide_eq_true rfl⟩, rfl⟩⟩

end

/-- What is known about blocks is what their paths say. -/
structure Exact (blocks : List (List Stmt)) (facts : List BlockFacts) : Prop where
  length_eq : facts.length = blocks.length
  successors : ∀ (b : Nat) (B : BlockFacts), facts[b]? = some B → B.successors = successorsOf (stmtsAt blocks b)
  predecessors : ∀ (b : Nat) (B : BlockFacts), facts[b]? = some B → ∀ c,
    c ∈ B.predecessors ↔ ∃ C, facts[c]? = some C ∧ b ∈ C.successors
  liveIn : ∀ (b : Nat) (B : BlockFacts), facts[b]? = some B → ∀ v, v ∈ B.liveIn ↔ Live blocks v b
  liveOut : ∀ (b : Nat) (B : BlockFacts), facts[b]? = some B → ∀ v,
    v ∈ B.liveOut ↔ ∃ c ∈ B.successors, ∃ C, facts[c]? = some C ∧ v ∈ C.liveIn

theorem exact_factsOf (blocks : List (List Stmt)) : Exact blocks (factsOf blocks).blocks := by
  have hempty : ∀ i, setAt (Array.replicate (given blocks).length []) i = [] := fun i => by
    rw [setAt, Array.getElem?_replicate]
    split <;> rfl
  have hstart : Improving (given blocks) (fun i v =>
      v ∈ (given blocks).foldr (fun b set => union b.uses set) [] ∧ Live blocks v i)
      (Array.replicate (given blocks).length []) := by
    refine ⟨Array.size_replicate, fun i => ?_, fun i b _ => ?_, fun i v hv => ?_⟩
    · rw [hempty]
      exact List.Pairwise.nil
    · rw [hempty]
      exact List.nil_subset _
    · rw [hempty] at hv
      cases hv
  obtain ⟨hsound, hfixed⟩ := sweeps_fixed keeps_given (fun _ _ h => h.1)
    ((given blocks).length * ((given blocks).foldr (fun b set => union b.uses set) []).length + 1) hstart (by omega)
  generalize hlive : sweeps (given blocks).zipIdx _ _ = live at hsound hfixed
  have hsolve : (factsOf blocks).blocks = solve (given blocks) := rfl
  have hget : ∀ i, (factsOf blocks).blocks[i]? = (given blocks)[i]?.map fun (b : BlockFacts) =>
      ({ b with liveIn := setAt live i, liveOut := outOf live b.successors } : BlockFacts) := by
    intro i
    rw [hsolve, solve, hlive, List.getElem?_map, List.getElem?_zipIdx, Nat.zero_add]
    cases (given blocks)[i]? <;> rfl
  -- a block and what is known about it
  have hblock : ∀ {i : Nat} {B : BlockFacts}, (factsOf blocks).blocks[i]? = some B → ∃ stmts,
      blocks[i]? = some stmts ∧ B.successors = successorsOf stmts ∧ B.liveIn = setAt live i ∧
        B.predecessors = predecessorsOf (blocks.map successorsOf) i ∧ B.liveOut = outOf live B.successors := by
    intro i B hB
    rw [hget, getElem?_given] at hB
    obtain ⟨b, hb, rfl⟩ := Option.map_eq_some_iff.1 hB
    obtain ⟨stmts, hstmts, rfl⟩ := Option.map_eq_some_iff.1 hb
    exact ⟨stmts, hstmts, rfl, rfl, rfl, rfl⟩
  have hthere : ∀ {i : Nat} {stmts : List Stmt}, blocks[i]? = some stmts →
      ∃ B, (factsOf blocks).blocks[i]? = some B ∧ B.successors = successorsOf stmts := by
    intro i stmts hstmts
    rw [hget, getElem?_given, hstmts]
    exact ⟨_, rfl, rfl⟩
  refine ⟨?_, fun b B hB => ?_, fun b B hB c => ?_, fun b B hB v => ?_, fun b B hB v => ?_⟩
  · rw [hsolve, solve, List.length_map, List.length_zipIdx, length_given]
  · obtain ⟨stmts, hstmts, hsuccessors, -⟩ := hblock hB
    rw [hsuccessors, stmtsAt, hstmts, Option.getD_some]
  · obtain ⟨stmts, hstmts, -, -, hpredecessors, -⟩ := hblock hB
    rw [hpredecessors, mem_predecessorsOf]
    constructor
    · rintro ⟨targets, hc, hb⟩
      rw [List.getElem?_map] at hc
      obtain ⟨other, hother, rfl⟩ := Option.map_eq_some_iff.1 hc
      obtain ⟨C, hC, hsuccessors⟩ := hthere hother
      exact ⟨C, hC, hsuccessors ▸ hb⟩
    · rintro ⟨C, hC, hb⟩
      obtain ⟨other, hother, hsuccessors, -⟩ := hblock hC
      exact ⟨_, by rw [List.getElem?_map, hother]; rfl, hsuccessors ▸ hb⟩
  · obtain ⟨stmts, hstmts, -, hin, -⟩ := hblock hB
    rw [hin]
    exact ⟨fun hv => (hsound.allowed b v hv).2, live_of_fixed hfixed⟩
  · obtain ⟨stmts, hstmts, -, -, -, hout⟩ := hblock hB
    rw [hout, outOf, mem_foldr_union]
    refine exists_congr fun c => and_congr_right fun _ => ?_
    constructor
    · intro hv
      obtain ⟨other, hother⟩ : ∃ other, blocks[c]? = some other := by
        cases hc : blocks[c]? with
        | some other => exact ⟨other, rfl⟩
        | none =>
          have := (live_iff.1 (hsound.allowed c v hv).2)
          rw [stmtsAt, hc] at this
          rcases this with hreads | ⟨-, d, hd, -⟩
          · exact absurd hreads not_readsFirst_nil
          · cases hd
      obtain ⟨C, hC, -⟩ := hthere hother
      obtain ⟨-, -, -, hin, -⟩ := hblock hC
      exact ⟨C, hC, hin ▸ hv⟩
    · rintro ⟨C, hC, hv⟩
      obtain ⟨-, -, -, hin, -⟩ := hblock hC
      rwa [hin] at hv

/-- The flat program of a laid out tree has liveness facts, and they are exact in every frame. -/
theorem exact_of_ofTree {t : Tree} {g : Graph} {flat : Flat} (hgraph : Graph.ofTree t = .ok g)
    (hflat : Flat.ofGraph g = .ok flat) : ∃ facts, ofFlat flat = .ok facts ∧ facts.length = flat.length ∧
      ∀ (i : Nat) (frame : Frame FlatBody), flat[i]? = some frame → ∃ blocks known,
        blocksOf frame.body = .ok blocks ∧ facts[i]? = some known ∧ Exact blocks known.blocks := by
  have hblocks : ∀ f ∈ g, Flat.Numbered f.body ∧ f.body ≠ [] ∧ Closed f.body := fun f hf =>
    have hformed := Graph.ofTree_formed hgraph f hf
    ⟨hformed.numbered, hformed.nonempty, hformed.closed⟩
  rw [Flat.ofGraph_eq fun f hf => (hblocks f hf).1] at hflat
  cases hflat
  refine ⟨_, ofFlat_eq hblocks, by rw [List.length_map, List.length_map], fun i frame hframe => ?_⟩
  rw [List.getElem?_map] at hframe
  obtain ⟨f, hf, rfl⟩ := Option.map_eq_some_iff.1 hframe
  obtain ⟨hnumbered, hne, -⟩ := hblocks f (List.mem_of_getElem? hf)
  exact ⟨_, _, blocksOf_eq hnumbered hne, by rw [List.getElem?_map, hf]; rfl, exact_factsOf _⟩

/-- Counts the items of an array in a loop. -/
def counting : Stmt := .seq [.counter 0 "items", .token, .loop 0 "items" (.seq [.token,
    .ite (.isToken .arrayEnd) (.leave 0) .nop, .consume, .incr 0]),
  .ite (.compare .eq (.count 0) (.size 1)) .valid (.invalid .tooFewItems)]

def countingGraph : Graph := [⟨{ counters := ["items"] }, [
  ⟨0, "entry", [.token, .branch 1]⟩, ⟨1, "items", [.token, .branchIf (.isToken .arrayEnd) 2 3]⟩,
  ⟨2, "then", [.branch 4]⟩, ⟨3, "join", [.consume, .incr 0, .branch 1]⟩,
  ⟨4, "items_exit", [.branchIf (.compare .eq (.count 0) (.size 1)) 5 6]⟩, ⟨5, "then", [.valid]⟩,
  ⟨6, "else", [.invalid .tooFewItems]⟩]⟩]

theorem exact_of_counting : ∃ flat facts, Graph.ofTree [counting] = .ok countingGraph ∧
    Flat.ofGraph countingGraph = .ok flat ∧ ofFlat flat = .ok facts ∧ facts.length = flat.length ∧
      ∀ (i : Nat) (frame : Frame FlatBody), flat[i]? = some frame → ∃ blocks known,
        blocksOf frame.body = .ok blocks ∧ facts[i]? = some known ∧ Exact blocks known.blocks := by
  have hgraph : Graph.ofTree [counting] = .ok countingGraph := by cbv
  have hflat : Flat.ofGraph countingGraph = .ok (countingGraph.map Flat.frameOf) := rfl
  obtain ⟨facts, hfacts⟩ := exact_of_ofTree hgraph hflat
  exact ⟨_, facts, hgraph, hflat, hfacts⟩

end JsonSieve.Liveness
