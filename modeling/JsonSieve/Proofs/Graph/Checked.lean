import Mathlib.Algebra.GroupWithZero.Nat
import JsonSieve.Proofs.Assembly.Flattened
import JsonSieve.Proofs.Graph.Spans

/-!
# Graphs that pass their check

The walk from block 0 finds every block that can be reached (`mem_reachable`). So a graph whose frames are
formed as the check demands passes it (`check_eq_ok`). Such frames hold no structured statements, whatever
the tree is: a branch on a case always has a default, and only what looks ahead, reads a matcher or counts
bits is moved into a temporary (`Basic`).
-/

namespace JsonSieve.Graph

/-! ## Reachable blocks -/

def targetsAt (blocks : List Block) (i : Nat) : List Nat := (blocks[i]?.map blockSuccessors).getD []

def unseen (blocks : List Block) (reached : List Nat) : Nat :=
  ((List.range blocks.length).map fun i =>
    if i ∈ reached then 0 else (targetsAt blocks i).length).sum

theorem sum_range_lt {n i : Nat} (h : i < n) (f g : Nat → Nat) (hne : ∀ j, j ≠ i → f j = g j) :
    ((List.range n).map f).sum + g i = ((List.range n).map g).sum + f i := by
  induction n with
  | zero => omega
  | succ n ih =>
    simp only [List.range_succ, List.map_append, List.map_cons, List.map_nil, List.sum_append,
      List.sum_cons, List.sum_nil, Nat.add_zero]
    by_cases hi : i = n
    · subst hi
      have hsame : (List.range i).map f = (List.range i).map g := List.map_congr_left fun j hj =>
        hne j (Nat.ne_of_lt (List.mem_range.1 hj))
      rw [hsame]
      omega
    · have := ih (by omega)
      have := hne n (Ne.symm hi)
      omega

variable {blocks : List Block}

theorem unseen_cons {reached : List Nat} {b : Nat} (hb : b ∉ reached) :
    unseen blocks (b :: reached) + (targetsAt blocks b).length = unseen blocks reached := by
  by_cases hlt : b < blocks.length
  · have := sum_range_lt hlt (fun i => if i ∈ b :: reached then 0 else (targetsAt blocks i).length)
      (fun i => if i ∈ reached then 0 else (targetsAt blocks i).length)
      (fun j hj => by simp [hj])
    simp only [List.mem_cons_self, if_true, if_neg hb, Nat.add_zero] at this
    exact this
  · have hnone : targetsAt blocks b = [] := by
      rw [targetsAt, List.getElem?_eq_none (by omega)]
      rfl
    rw [hnone, List.length_nil, Nat.add_zero, unseen, unseen]
    refine congrArg List.sum (List.map_congr_left fun i hi => ?_)
    have hne : i ≠ b := fun h => hlt (h ▸ List.mem_range.1 hi)
    simp [hne]

/-- A set of blocks without a way out, except to the pending ones. -/
def ClosedBut (blocks : List Block) (pending reached : List Nat) : Prop :=
  ∀ b ∈ reached, ∀ t ∈ targetsAt blocks b, t ∈ reached ∨ t ∈ pending

theorem reachFrom_closed (fuel : Nat) {pending reached : List Nat}
    (hfuel : pending.length + unseen blocks reached ≤ fuel) (hclosed : ClosedBut blocks pending reached) :
    (∀ b, b ∈ reached ∨ b ∈ pending → b ∈ reachFrom blocks fuel pending reached) ∧
      ClosedBut blocks [] (reachFrom blocks fuel pending reached) := by
  induction fuel generalizing pending reached with
  | zero =>
    obtain rfl : pending = [] := List.eq_nil_of_length_eq_zero (by omega)
    exact ⟨fun b hb => hb.resolve_right List.not_mem_nil, hclosed⟩
  | succ fuel ih =>
    cases pending with
    | nil => exact ⟨fun b hb => hb.resolve_right List.not_mem_nil, hclosed⟩
    | cons b pending =>
      rw [reachFrom]
      rw [List.length_cons] at hfuel
      by_cases hb : b ∈ reached
      · rw [if_pos (List.contains_iff_mem.2 hb)]
        obtain ⟨hmem, hout⟩ := @ih pending reached (by omega) fun c hc t ht => by
          rcases hclosed c hc t ht with h | h
          · exact .inl h
          · rcases List.mem_cons.1 h with rfl | h
            · exact .inl hb
            · exact .inr h
        refine ⟨fun c hc => hmem c ?_, hout⟩
        rcases hc with hc | hc
        · exact .inl hc
        · rcases List.mem_cons.1 hc with rfl | hc
          · exact .inl hb
          · exact .inr hc
      · rw [if_neg fun h => hb (List.contains_iff_mem.1 h)]
        have hcount : unseen blocks (b :: reached) + _ = _ := unseen_cons hb
        obtain ⟨hmem, hout⟩ := @ih (targetsAt blocks b ++ pending) (b :: reached)
          (by rw [List.length_append]; omega) fun c hc t ht => by
            rcases List.mem_cons.1 hc with rfl | hc
            · exact .inr (List.mem_append_left _ ht)
            · rcases hclosed c hc t ht with h | h
              · exact .inl (.tail _ h)
              · rcases List.mem_cons.1 h with rfl | h
                · exact .inl (.head _)
                · exact .inr (List.mem_append_right _ h)
        refine ⟨fun c hc => hmem c ?_, hout⟩
        rcases hc with hc | hc
        · exact .inl (.tail _ hc)
        · rcases List.mem_cons.1 hc with rfl | hc
          · exact .inl (.head _)
          · exact .inr (List.mem_append_right _ hc)

theorem foldl_lengths (blocks : List Block) (n : Nat) : blocks.foldl (fun n b => n + (blockSuccessors b).length) n =
      n + (blocks.map fun b => (blockSuccessors b).length).sum := by
  induction blocks generalizing n with
  | nil => simp
  | cons b blocks ih =>
    rw [List.foldl_cons, ih, List.map_cons, List.sum_cons, Nat.add_assoc]

theorem unseen_nil (blocks : List Block) : unseen blocks [] = (blocks.map fun b => (blockSuccessors b).length).sum := by
  rw [unseen]
  refine congrArg List.sum (List.ext_getElem (by simp) fun i hi _ => ?_)
  simp only [List.length_map, List.length_range] at hi
  simp [targetsAt, hi]

abbrev Reaches (blocks : List Block) : Nat → Nat → Prop :=
  Relation.ReflTransGen fun i j => j ∈ targetsAt blocks i

theorem mem_reachable {i : Nat} (h : Reaches blocks 0 i) : i ∈ reachable blocks := by
  obtain ⟨hmem, hclosed⟩ := @reachFrom_closed blocks _ [0] []
    (Nat.le_of_eq (by rw [unseen_nil, List.length_singleton, ← Nat.zero_add (List.sum _), ← foldl_lengths]))
    nofun
  induction h with
  | refl => exact hmem 0 (.inr (List.mem_singleton_self 0))
  | tail _ hstep ih => exact (hclosed _ ih _ hstep).resolve_right List.not_mem_nil

/-! ## Formed frames -/

def Basic : Stmt → Bool
  | .valid | .invalid _ | .token | .consume | .untoken | .bitSet .. | .bitClear .. | .incr _ | .decr _
  | .splitBits .. | .call _ | .branch _ | .branchIf .. => true
  | .move _ e => Looks e
  | .branchCase _ _ otherwise => otherwise.isSome
  | _ => false

/-- A frame of a program of so many frames that has passed the check. -/
structure Formed (frames : Nat) (f : Frame (List Block)) : Prop where
  nonempty : f.body ≠ []
  id_eq : ∀ (i : Nat) (b : Block), f.body[i]? = some b → b.id = i
  shut : ∀ b ∈ f.body, Shut b.stmts
  stmts : ∀ b ∈ f.body, ∀ s ∈ b.stmts, Basic s = true ∧ stmtDefect? frames f.decls.temps s = none ∧
    ∀ j ∈ s.successors, j < f.body.length
  reach : ∀ i < f.body.length, Reaches f.body 0 i
  splits : ∀ list ∈ f.decls.splits, ∀ k ∈ list, k < frames

theorem stmtDefect?_mono {frames frames' temps temps' : Nat} (hframes : frames ≤ frames') (htemps : temps ≤ temps')
    {s : Stmt} (h : stmtDefect? frames temps s = none) : stmtDefect? frames' temps' s = none := by
  cases s <;> simp_all [stmtDefect?] <;> omega

namespace Formed

variable {frames : Nat} {f : Frame (List Block)}

theorem mono (h : Formed frames f) {more : Nat} (hle : frames ≤ more) : Formed more f where
  nonempty := h.nonempty
  id_eq := h.id_eq
  shut := h.shut
  stmts b hb s hs := (h.stmts b hb s hs).imp_right (And.imp_left (stmtDefect?_mono hle (Nat.le_refl _)))
  reach := h.reach
  splits list hlist k hk := Nat.lt_of_lt_of_le (h.splits list hlist k hk) hle

theorem numbered (h : Formed frames f) : Flat.Numbered f.body := by
  refine ⟨h.id_eq, fun b hb s hs id hid => ?_⟩
  have := (h.stmts b hb s hs).1
  rw [hid] at this
  cases this

theorem closed (h : Formed frames f) : Liveness.Closed f.body := by
  intro b hb t ht
  obtain ⟨before, last, hstmts, -, -⟩ := h.shut b hb
  refine (h.stmts b hb last (by simp [hstmts])).2.2 t ?_
  simpa [Liveness.successorsOf, hstmts] using ht

theorem blockDefect?_eq (h : Formed frames f) {i : Nat} {b : Block}
    (hb : f.body[i]? = some b) : blockDefect? frames f.decls.temps f.body.length i b = none := by
  have hmem := List.mem_of_getElem? hb
  obtain ⟨before, last, hstmts, hopen, hlast⟩ := h.shut b hmem
  have hgetLast : b.stmts.getLast? = some last := by simp [hstmts]
  have hdropLast : b.stmts.dropLast.any Stmt.isTerminator = false := by
    rw [hstmts, List.dropLast_concat, List.any_eq_false]
    exact fun s hs => by simp [hopen s hs]
  have htargets : (last.successors.find? fun target => !decide (target < f.body.length)) = none := by
    rw [List.find?_eq_none]
    intro t ht
    have := (h.stmts b hmem last (by simp [hstmts])).2.2 t ht
    simpa using this
  have hdefects : b.stmts.findSome? (stmtDefect? frames f.decls.temps) = none := by
    rw [List.findSome?_eq_none_iff]
    exact fun s hs => (h.stmts b hmem s hs).2.1
  rw [blockDefect?, if_neg (by simp [h.id_eq i b hb]), hgetLast]
  simp only [hlast, hdropLast, htargets, hdefects, Bool.not_true, Bool.false_eq_true, if_false]

theorem blockDefects_eq (h : Formed frames f) : (f.body.zipIdx.findSome? fun (b, i) =>
    blockDefect? frames f.decls.temps f.body.length i b) = none := by
  rw [List.findSome?_eq_none_iff]
  rintro ⟨b, i⟩ hb
  exact h.blockDefect?_eq (List.mem_zipIdx_iff_getElem?.1 hb)

theorem frameDefect?_eq (h : Formed frames f) : frameDefect? frames f = none := by
  have hsplits : (f.decls.splits.findSome? fun split =>
      (split.find? fun frame => !decide (frame < frames)).map Defect.missingBranch) = none := by
    rw [List.findSome?_eq_none_iff]
    intro split hsplit
    rw [Option.map_eq_none_iff, List.find?_eq_none]
    intro k hk
    simpa using h.splits split hsplit k hk
  have hstray : ((List.range f.body.length).find? fun b => !(reachable f.body).contains b) = none := by
    rw [List.find?_eq_none]
    intro i hi
    have := mem_reachable (h.reach i (List.mem_range.1 hi))
    simpa using this
  rw [frameDefect?, if_neg (by simpa using h.nonempty)]
  simp only [h.blockDefects_eq, hsplits, hstray, Option.map_none, Option.or_none]

end Formed

theorem check_eq_ok {g : Graph} (h : ∀ f ∈ g, Formed g.length f) : check g = .ok () := by
  have hnone : fault? g = none := by
    rw [fault?, List.findSome?_eq_none_iff]
    rintro ⟨f, i⟩ hf
    simp only [(h f (List.mem_of_getElem? (List.mem_zipIdx_iff_getElem?.1 hf))).frameDefect?_eq, Option.map_none]
  rw [check, hnone]

end JsonSieve.Graph
