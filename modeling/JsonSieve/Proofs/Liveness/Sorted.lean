import Mathlib.Data.List.Perm.Subperm
import JsonSieve.Liveness

/-!
# Sorted sets of variables

Strictly increasing lists are sets: what is in them says which list it is (`Strict.ext`), and how many
elements they have grows with them (`Strict.length_le`).
-/

namespace JsonSieve

namespace Sorted

variable {α : Type} [Ord α] {a b : List α} {u v : α}

/-- Every element comes before those behind it. -/
def Strict (list : List α) : Prop := list.Pairwise fun a b => compare a b = .lt

section

variable [Std.LawfulEqOrd α]

theorem mem_insert : v ∈ insert u a ↔ v = u ∨ v ∈ a := by
  induction a with
  | nil => simp [insert]
  | cons x a ih =>
    rw [insert]
    split
    · exact List.mem_cons
    · next heq =>
      rw [Std.LawfulEqOrd.eq_of_compare heq]
      simp
    · rw [List.mem_cons, ih, List.mem_cons]
      tauto

theorem mem_foldl_insert {list : List α} : v ∈ list.foldl (fun set v => insert v set) a ↔ v ∈ a ∨ v ∈ list := by
  induction list generalizing a with
  | nil => simp
  | cons x list ih =>
    rw [List.foldl_cons, ih, mem_insert, List.mem_cons]
    tauto

theorem mem_union : v ∈ union a b ↔ v ∈ a ∨ v ∈ b := by
  fun_induction union a b with
  | case1 => simp
  | case2 => simp
  | case3 x a y b _ ih => simp only [List.mem_cons, ih]; tauto
  | case4 x a y b heq ih =>
    rw [← Std.LawfulEqOrd.eq_of_compare heq]
    simp only [List.mem_cons, ih]
    tauto
  | case5 x a y b _ ih => simp only [List.mem_cons, ih]; tauto

theorem mem_foldr_union {ι : Type} {f : ι → List α} {list : List ι} :
    v ∈ list.foldr (fun i set => union (f i) set) [] ↔ ∃ i ∈ list, v ∈ f i := by
  induction list with
  | nil => simp
  | cons i list ih => simp [mem_union, ih]

end

variable [Std.TransOrd α]

theorem Strict.nodup (h : Strict a) : a.Nodup := by
  refine h.imp fun {x y} hlt => ?_
  rintro rfl
  rw [Std.ReflOrd.compare_self] at hlt
  cases hlt

theorem Strict.length_le (h : Strict a) (hsub : a ⊆ b) : a.length ≤ b.length :=
  (List.subperm_of_subset h.nodup hsub).length_le

theorem Strict.ext (ha : Strict a) (hb : Strict b) (h : ∀ v, v ∈ a ↔ v ∈ b) : a = b := by
  have hperm := (List.perm_ext_iff_of_nodup ha.nodup hb.nodup).2 h
  refine hperm.eq_of_pairwise (fun x y _ _ hxy hyx => ?_) ha hb
  rw [Std.OrientedOrd.eq_swap, hyx] at hxy
  cases hxy

/-- A set that is not larger than a part of it is that part. -/
theorem Strict.eq_of_length_le (ha : Strict a) (hb : Strict b) (hsub : a ⊆ b) (hle : b.length ≤ a.length) : a = b :=
  ha.ext hb fun _ => ((List.subperm_of_subset ha.nodup hsub).perm_of_length_le hle).mem_iff

theorem Strict.insert [Std.LawfulEqOrd α] (h : Strict a) : Strict (insert u a) := by
  induction a with
  | nil => exact List.pairwise_singleton ..
  | cons x a ih =>
    obtain ⟨hx, ha⟩ := List.pairwise_cons.1 h
    rw [Sorted.insert]
    split
    · next hlt =>
      refine List.pairwise_cons.2 ⟨List.forall_mem_cons.2 ⟨hlt, fun y hy => ?_⟩, h⟩
      exact Std.TransCmp.lt_trans hlt (hx y hy)
    · exact h
    · next hgt =>
      refine List.pairwise_cons.2 ⟨fun y hy => ?_, ih ha⟩
      rcases mem_insert.1 hy with rfl | hy
      · exact Std.OrientedCmp.gt_iff_lt.1 hgt
      · exact hx y hy

theorem Strict.foldl_insert [Std.LawfulEqOrd α] {list : List α} (h : Strict a) :
    Strict (list.foldl (fun set v => Sorted.insert v set) a) := by
  induction list generalizing a with
  | nil => exact h
  | cons x list ih => exact ih h.insert

theorem Strict.union [Std.LawfulEqOrd α] (ha : Strict a) (hb : Strict b) : Strict (union a b) := by
  fun_induction Sorted.union a b with
  | case1 => exact hb
  | case2 => exact ha
  | case3 x a y b hlt ih =>
    obtain ⟨hx, ha⟩ := List.pairwise_cons.1 ha
    refine List.pairwise_cons.2 ⟨fun z hz => ?_, ih ha hb⟩
    rcases mem_union.1 hz with hz | hz
    · exact hx z hz
    · rcases List.mem_cons.1 hz with rfl | hz
      · exact hlt
      · exact Std.TransCmp.lt_trans hlt ((List.pairwise_cons.1 hb).1 z hz)
  | case4 x a y b heq ih =>
    cases Std.LawfulEqOrd.eq_of_compare heq
    obtain ⟨hx, ha⟩ := List.pairwise_cons.1 ha
    obtain ⟨hy, hb⟩ := List.pairwise_cons.1 hb
    exact List.pairwise_cons.2 ⟨fun z hz => (mem_union.1 hz).elim (hx z) (hy z), ih ha hb⟩
  | case5 x a y b hgt ih =>
    obtain ⟨hy, hb⟩ := List.pairwise_cons.1 hb
    have hlt := Std.OrientedCmp.gt_iff_lt.1 hgt
    refine List.pairwise_cons.2 ⟨fun z hz => ?_, ih ha hb⟩
    rcases mem_union.1 hz with hz | hz
    · rcases List.mem_cons.1 hz with rfl | hz
      · exact hlt
      · exact Std.TransCmp.lt_trans hlt ((List.pairwise_cons.1 ha).1 z hz)
    · exact hy z hz

end Sorted

instance : Std.OrientedOrd Var where
  eq_swap {a b} := by
    cases a <;> cases b <;> simp [compare, instOrdVar.ord]
    all_goals exact Std.OrientedOrd.eq_swap (α := Nat)

instance : Std.LawfulEqOrd Var where
  eq_of_compare {a b} h := by
    cases a <;> cases b <;> simp [compare, instOrdVar.ord] at h ⊢
    all_goals exact Std.LawfulEqOrd.eq_of_compare (α := Nat) h
  compare_self {a} := by
    cases a <;> simp [compare, instOrdVar.ord]
    all_goals exact Std.ReflOrd.compare_self (α := Nat)

instance : Std.TransOrd Var where
  isLE_trans {a b c} h h' := by
    cases a <;> cases b <;> cases c <;> simp [compare, instOrdVar.ord] at h h' ⊢
    all_goals exact Std.TransOrd.isLE_trans (α := Nat) h h'

end JsonSieve
