import JsonSieve.Proofs.Assembly.Emitted
import JsonSieve.Proofs.Liveness.Interference

/-!
# Shared slots

With liveness, temporaries that do not interfere may share a slot. No procedure gets more slots by this,
and its code keeps to the slots it has (`shares_of_ofFlat`).
-/

namespace JsonSieve

open Assembly

namespace Liveness

/-- Temporaries interfere where one is live right behind a statement that writes the other, and the colours
keep interfering temporaries apart. -/
structure Shares (blocks : List (List Stmt)) (f : FrameFacts) : Prop where
  symmetric : ∀ t u, f.interferes t u = f.interferes u t
  irreflexive : ∀ t, f.interferes t t = false
  interferes : ∀ t u, t ≠ u → (f.interferes t u = true ↔ Outlives blocks u t ∨ Outlives blocks t u)
  length : ∀ n, (f.colours n).length = n
  proper : ∀ {n t u c d : Nat}, (f.colours n)[t]? = some c → (f.colours n)[u]? = some d →
    f.interferes t u = true → c ≠ d
  small : ∀ {n t c : Nat}, (f.colours n)[t]? = some c → c ≤ t

theorem shares_factsOf (blocks : List (List Stmt)) : Shares blocks (factsOf blocks) := by
  have hsymm : ∀ t u, (factsOf blocks).interferes t u = (factsOf blocks).interferes u t := by
    intro t u
    rw [Bool.eq_iff_iff, interferes_iff, interferes_iff, ne_comm, or_comm]
  have hirrefl : ∀ t, (factsOf blocks).interferes t t = false := by
    intro t
    rw [Bool.eq_false_iff, ne_eq, interferes_iff]
    exact fun h => h.1 rfl
  exact {
    symmetric := hsymm
    irreflexive := hirrefl
    interferes := fun t u hne => by rw [interferes_iff, and_iff_right hne]
    length := FrameFacts.length_colours _
    proper := fun {n t u c d} ht hu h => FrameFacts.colour_ne hsymm ht hu h fun heq => by
      rw [heq, hirrefl] at h
      cases h
    small := FrameFacts.colour_le }

theorem eq_factsOf {body : FlatBody} {f : FrameFacts} (h : ofBody body = .ok f) :
    ∃ blocks, blocksOf body = .ok blocks ∧ f = factsOf blocks := by
  obtain ⟨blocks, hblocks, h⟩ := except_bind_eq_ok.1 h
  refine ⟨blocks, hblocks, ?_⟩
  split at h
  · cases h
  · cases h
    rfl

theorem forall₂_of_mapM {ε α β : Type} {f : α → Except ε β} {list : List α} {results : List β}
    (h : list.mapM f = .ok results) : List.Forall₂ (fun a b => f a = .ok b) list results := by
  induction list generalizing results with
  | nil =>
    rw [List.mapM_nil] at h
    cases h
    exact .nil
  | cons a list ih =>
    rw [List.mapM_cons] at h
    obtain ⟨b, hb, h⟩ := except_bind_eq_ok.1 h
    obtain ⟨rest, hrest, h⟩ := except_bind_eq_ok.1 h
    cases h
    exact .cons hb (ih hrest)

theorem forall₂_of_ofFlat {flat : Flat} {facts : List FrameFacts} (h : ofFlat flat = .ok facts) :
    List.Forall₂ (fun frame f => ∃ blocks, blocksOf frame.body = .ok blocks ∧ Shares blocks f) flat facts := by
  rw [← List.zipIdx_map_fst 0 flat, List.forall₂_map_left_iff]
  refine (forall₂_of_mapM h).imp fun p f hf => ?_
  obtain ⟨blocks, hblocks, rfl⟩ := eq_factsOf (mapError_eq_ok.1 hf)
  exact ⟨blocks, hblocks, shares_factsOf blocks⟩

end Liveness

namespace Assembly

theorem foldl_max_le {list : List Nat} {n m : Nat} (h : ∀ c ∈ list, c < m) (hn : n ≤ m) :
    list.foldl (fun n c => max n (c + 1)) n ≤ m := by
  induction list generalizing n with
  | nil => exact hn
  | cons c list ih =>
    obtain ⟨hc, h⟩ := List.forall_mem_cons.1 h
    exact ih h (Nat.max_le.2 ⟨hn, hc⟩)

theorem saturate_mono {m n : Nat} (h : m ≤ n) : Word.saturate m ≤ Word.saturate n := by
  rw [UInt32.le_iff_toNat_le]
  by_cases hn : n < Nat.pow 2 32
  · rw [toNat_saturate hn]
    exact (toNat_saturate_le m).trans h
  · rw [Word.saturate.eq_def n, if_neg hn]
    exact Nat.le_of_lt_succ (UInt32.toNat_lt _)

/-- The procedure has the slots that the declarations and the colours of its frame need, and its code names
no others. -/
def Slotted (decls : Decls) (colours : List Nat) (p : Procedure) : Prop :=
  ∃ s : Scope, s.decls = decls ∧ s.colours = colours ∧ p.slots = Word.saturate s.slots ∧ s.AllWithin p.ops

theorem slotted_of_ofFlat {flat : Flat} {facts : Option (List Liveness.FrameFacts)} {a : Assembly}
    (h : ofFlat flat facts = .ok a) :
    List.Forall₂ (fun f p => Slotted f.1.decls (coloursOf facts f.2 f.1.decls.temps) p) flat.zipIdx a.procs := by
  refine forall₂_of_ofFlat _ (fun {f i s floats p floats'} hdecls hcolours hok => ?_) h
  obtain ⟨hslots, -, -, hwithin⟩ := procedure_induction (fun ops _ => s.AllWithin ops)
    (fun _ => List.forall_mem_nil _) (fun _ _ _ h => h) (fun h hnew => h.append ((s.emits_stmt _ _).yields hnew)) hok
  exact ⟨s, hdecls, hcolours, hslots, hwithin⟩

/-- The slots of a procedure, where its colours are no larger than the numbers of the temporaries. -/
theorem Slotted.slots_le {decls : Decls} {colours : List Nat} {p q : Procedure} {n : Nat}
    (hp : Slotted decls colours p) (hq : Slotted decls (List.range n) q) (h : ∀ c ∈ colours, c < n) :
    p.slots ≤ q.slots := by
  obtain ⟨s, rfl, rfl, hs, -⟩ := hp
  obtain ⟨s', hdecls, hcolours, hs', -⟩ := hq
  rw [hs, hs']
  refine saturate_mono ?_
  have hfirst : s'.firstTemp = s.firstTemp := by
    simp only [Scope.firstTemp, Scope.firstUnique, Scope.firstBitvec, hdecls]
  have hle : s.colours.foldl (fun n c => max n (c + 1)) 0 ≤ n := foldl_max_le h (Nat.zero_le n)
  have hge : n ≤ (List.range n).foldl (fun n c => max n (c + 1)) 0 := by
    cases n with
    | zero => exact Nat.zero_le _
    | succ n => exact lt_foldl_max (List.mem_range.2 (Nat.lt_succ_self n)) 0
  rw [Scope.slots, Scope.slots, hfirst, hcolours]
  exact Nat.add_le_add_left (hle.trans hge) _

theorem Slotted.lt_slots {decls : Decls} {colours : List Nat} {p : Procedure} (h : Slotted decls colours p)
    (hslots : p.slots ≠ 0xffffffff) {op : Op} (hop : op ∈ p.ops) {i : UInt32}
    (hi : op.a = .slot i ∨ op.b = .slot i) : i < p.slots := by
  obtain ⟨s, -, -, hs, hwithin⟩ := h
  have hfit : s.slots < Nat.pow 2 32 := by
    by_contra hnot
    rw [Word.saturate, if_neg hnot] at hs
    exact hslots hs
  obtain ⟨ha, hb⟩ := hwithin op hop
  rw [UInt32.lt_iff_toNat_lt, hs, toNat_saturate hfit]
  rcases hi with hi | hi
  · rwa [hi] at ha
  · rwa [hi] at hb

end Assembly

namespace Liveness

/-- Colours from liveness are proper, a procedure whose slots are shared has at most as many slots as one in
which every temporary has its own, and its code names no slot behind them. A count of slots that does not fit
a word is the largest word. -/
theorem shares_of_ofFlat {flat : Flat} {facts : List FrameFacts} (h : ofFlat flat = .ok facts) :
    List.Forall₂ (fun frame f => ∃ blocks, blocksOf frame.body = .ok blocks ∧ Shares blocks f) flat facts ∧
    ∀ shared own, Assembly.ofFlat flat (some facts) = .ok shared → Assembly.ofFlat flat none = .ok own →
      List.Forall₂ (fun p q => p.slots ≤ q.slots) shared.procs own.procs ∧
      ∀ p ∈ shared.procs, p.slots ≠ 0xffffffff → ∀ op ∈ p.ops, ∀ i, op.a = .slot i ∨ op.b = .slot i → i < p.slots := by
  refine ⟨forall₂_of_ofFlat h, fun shared own hshared hown => ?_⟩
  have hshared := slotted_of_ofFlat hshared
  have hown := slotted_of_ofFlat hown
  constructor
  · refine List.forall₂_iff_get.2 ⟨hshared.length_eq.symm.trans hown.length_eq, fun i hi hi' => ?_⟩
    refine (hshared.get (hshared.length_eq ▸ hi) hi).slots_le (hown.get (hown.length_eq ▸ hi') hi') fun c hc => ?_
    obtain ⟨t, ht⟩ := List.mem_iff_getElem?.1 hc
    have hlt := (List.getElem?_eq_some_iff.1 ht).1
    rw [length_coloursOf] at hlt
    exact Nat.lt_of_le_of_lt (FrameFacts.colour_le ht) hlt
  · intro p hp hslots op hop i hi
    obtain ⟨j, hj, rfl⟩ := List.getElem_of_mem hp
    exact (hshared.get (hshared.length_eq ▸ hj) hj).lt_slots hslots hop hi

/-- Compares two temporaries and then decides by a third one. -/
def comparing : Flat := [⟨{ temps := 3 }, {
  labels := ["entry", "then", "else"]
  stmts := [
    .block 0, .move 0 (.size 1), .move 1 .tokenLength, .branchIf (.compare .eq (.temp 0) (.temp 1)) 1 2,
    .block 1, .move 2 .tokenComplete, .branchIf (.temp 2) 1 2,
    .block 2, .valid] }⟩]

theorem shares_of_comparing : ∃ facts shared own, ofFlat comparing = .ok facts ∧
    List.Forall₂ (fun frame f => ∃ blocks, blocksOf frame.body = .ok blocks ∧ Shares blocks f) comparing facts ∧
    Assembly.ofFlat comparing (some facts) = .ok shared ∧ Assembly.ofFlat comparing none = .ok own ∧
    shared.procs.map (·.slots) = [2] ∧ own.procs.map (·.slots) = [3] ∧
    List.Forall₂ (fun p q => p.slots ≤ q.slots) shared.procs own.procs := by
  have hfacts : ∃ facts, ofFlat comparing = .ok facts := ⟨_, rfl⟩
  obtain ⟨facts, hfacts⟩ := hfacts
  obtain ⟨hshares, hslots⟩ := shares_of_ofFlat hfacts
  cases hfacts
  exact ⟨_, _, _, rfl, hshares, rfl, rfl, by decide +kernel, by decide +kernel, (hslots _ _ rfl rfl).1⟩

end Liveness

end JsonSieve
