import JsonSieve.Proofs.Liveness.Solution

/-!
# Interference and colours

Two temporaries interfere if one of them is live right behind a statement that writes the other
(`interferes_iff`). Whenever interference is symmetric, as it is here, temporaries that interfere have
different colours (`FrameFacts.colour_ne`), and no temporary has a colour above its own number
(`FrameFacts.colour_le`).
-/

namespace JsonSieve.Liveness

open Sorted

/-! ## Edges -/

/-- The second temporary is a neighbour of the first one. -/
def Edge (g : Interference) (t u : Nat) : Prop := ∃ set, (t, set) ∈ g ∧ u ∈ set

/-- Every temporary has one set of neighbours. -/
def Keyed (g : Interference) : Prop := Strict (g.map (·.1))

section

variable {g : Interference} {t u a b : Nat} {neighbours : List Nat} {live out : List Var} {s : Stmt} {v : Var}

theorem edge_cons {k : Nat} : Edge ((k, neighbours) :: g) a b ↔ a = k ∧ b ∈ neighbours ∨ Edge g a b := by
  simp [Edge, or_and_right, exists_or]

theorem edge_connect : Edge (connect t neighbours g) a b ↔ Edge g a b ∨ a = t ∧ b ∈ neighbours := by
  induction g with
  | nil => simp [connect, Edge]
  | cons entry g ih =>
    obtain ⟨k, set⟩ := entry
    rw [connect]
    split
    · rw [edge_cons, or_comm]
    · next heq =>
      rw [edge_cons, edge_cons, Std.LawfulEqOrd.eq_of_compare heq, mem_union]
      tauto
    · rw [edge_cons, edge_cons, ih, or_assoc]

theorem Keyed.connect (h : Keyed g) : Keyed (connect t neighbours g) := by
  have hkeys : (Liveness.connect t neighbours g).map (·.1) = Sorted.insert t (g.map (·.1)) := by
    clear h
    induction g with
    | nil => rfl
    | cons entry g ih =>
      rw [Liveness.connect, List.map_cons, Sorted.insert]
      split <;> simp_all
  rw [Keyed, hkeys]
  exact Strict.insert h

theorem edge_foldl_connect {list : List Nat} : Edge (list.foldl (fun g u => connect u [t] g) g) a b ↔
    Edge g a b ∨ b = t ∧ a ∈ list := by
  induction list generalizing g with
  | nil => simp
  | cons u list ih =>
    rw [List.foldl_cons, ih, edge_connect, List.mem_singleton, List.mem_cons]
    tauto

theorem mem_tempsOf : t ∈ tempsOf live ↔ .temp t ∈ live := by
  rw [tempsOf, List.mem_filterMap]
  constructor
  · rintro ⟨v, hv, heq⟩
    cases v <;> cases heq
    exact hv
  · exact fun h => ⟨_, h, rfl⟩

/-- The statement writes one temporary while the other one lives. -/
def Clash (s : Stmt) (live : List Var) (t u : Nat) : Prop :=
  s.writes = some (.temp t) ∧ .temp u ∈ live ∧ u ≠ t

theorem edge_interfere : Edge (interfere s live g) a b ↔ Edge g a b ∨ Clash s live a b ∨ Clash s live b a := by
  unfold interfere Clash
  split
  · next t hwrites =>
    rw [hwrites, edge_foldl_connect, edge_connect]
    simp only [List.mem_filter, mem_tempsOf, decide_eq_true_eq, Option.some.injEq, Var.temp.injEq]
    constructor
    · rintro ((h | ⟨rfl, h⟩) | ⟨rfl, h⟩)
      · exact .inl h
      · exact .inr (.inl ⟨rfl, h⟩)
      · exact .inr (.inr ⟨rfl, h⟩)
    · rintro (h | ⟨rfl, h⟩ | ⟨rfl, h⟩)
      · exact .inl (.inl h)
      · exact .inl (.inr ⟨rfl, h⟩)
      · exact .inr ⟨rfl, h⟩
  · next hnone =>
    have hnot : ∀ t, s.writes ≠ some (.temp t) := fun t h => hnone t h
    simp [hnot]

theorem Keyed.interfere (h : Keyed g) : Keyed (interfere s live g) := by
  unfold Liveness.interfere
  split
  · refine List.foldlRecOn _ _ h.connect fun g hg u _ => ?_
    exact Keyed.connect hg
  · exact h

/-! ## Blocks -/

theorem mem_liveBefore : v ∈ liveBefore s live ↔ v ∈ s.reads ∨ s.writes ≠ some v ∧ v ∈ live := by
  unfold liveBefore
  rw [mem_foldl_insert, or_comm]
  cases s.writes with
  | none => simp
  | some w => simp [and_comm, @eq_comm _ v w]

variable {stmts : List Stmt}

/-- What lives in front of statements, given what lives behind them. -/
theorem mem_foldr_liveBefore : v ∈ stmts.foldr liveBefore out ↔
    ReadsFirst v stmts ∨ (∀ s ∈ stmts, s.writes ≠ some v) ∧ v ∈ out := by
  induction stmts with
  | nil => simp [not_readsFirst_nil]
  | cons s stmts ih =>
    rw [List.foldr_cons, mem_liveBefore, ih, ← List.singleton_append, readsFirst_append, readsFirst_singleton,
      List.forall_mem_singleton, List.singleton_append, List.forall_mem_cons]
    tauto

/-- Some statement of a block writes one temporary while the other one lives. -/
def BlockClash (stmts : List Stmt) (out : List Var) (t u : Nat) : Prop :=
  ∃ before s after, stmts = before ++ s :: after ∧ Clash s (after.foldr liveBefore out) t u

theorem interfereBlock_cons (stmts : List Stmt) : interfereBlock (s :: stmts) out g =
    interfere s (stmts.foldr liveBefore out) (interfereBlock stmts out g) := by
  have hlive : (stmts.foldr (fun s p => (liveBefore s p.1, interfere s p.1 p.2)) (out, g)).1 =
      stmts.foldr liveBefore out := by
    induction stmts with
    | nil => rfl
    | cons s stmts ih => rw [List.foldr_cons, List.foldr_cons, ← ih]
  rw [← hlive]
  rfl

theorem blockClash_cons : BlockClash (s :: stmts) out t u ↔
    Clash s (stmts.foldr liveBefore out) t u ∨ BlockClash stmts out t u := by
  constructor
  · rintro ⟨before, s', after, heq, hclash⟩
    rcases List.cons_eq_append_iff.1 heq with ⟨rfl, h⟩ | ⟨before', rfl, h⟩
    · cases h
      exact .inl hclash
    · exact .inr ⟨before', s', after, h, hclash⟩
  · rintro (hclash | ⟨before, s', after, rfl, hclash⟩)
    · exact ⟨[], s, stmts, rfl, hclash⟩
    · exact ⟨s :: before, s', after, rfl, hclash⟩

theorem edge_interfereBlock : Edge (interfereBlock stmts out g) a b ↔
    Edge g a b ∨ BlockClash stmts out a b ∨ BlockClash stmts out b a := by
  induction stmts with
  | nil => simp [interfereBlock, BlockClash]
  | cons s stmts ih =>
    rw [interfereBlock_cons, edge_interfere, ih, blockClash_cons, blockClash_cons]
    tauto

theorem Keyed.interfereBlock (h : Keyed g) (stmts : List Stmt) : Keyed (interfereBlock stmts out g) := by
  induction stmts with
  | nil => exact h
  | cons s stmts ih =>
    rw [interfereBlock_cons]
    exact ih.interfere

theorem edge_foldl_interfereBlock (list : List (List Stmt × BlockFacts)) (hkeyed : Keyed g) :
    Keyed (list.foldl (fun g (stmts, b) => interfereBlock stmts b.liveOut g) g) ∧
      (Edge (list.foldl (fun g (stmts, b) => interfereBlock stmts b.liveOut g) g) a b ↔
        Edge g a b ∨ ∃ p ∈ list, BlockClash p.1 p.2.liveOut a b ∨ BlockClash p.1 p.2.liveOut b a) := by
  induction list generalizing g with
  | nil => simpa using hkeyed
  | cons p list ih =>
    obtain ⟨hkeyed', hedge⟩ := ih (hkeyed.interfereBlock p.1)
    refine ⟨hkeyed', hedge.trans ?_⟩
    rw [edge_interfereBlock, List.exists_mem_cons_iff, or_assoc]

theorem interferes_iff_edge {facts : List BlockFacts} (h : Keyed g) :
    FrameFacts.interferes ⟨facts, g⟩ a b = true ↔ Edge g a b := by
  rw [FrameFacts.interferes]
  induction g with
  | nil => simp [Edge]
  | cons entry g ih =>
    obtain ⟨k, set⟩ := entry
    obtain ⟨hfirst, hrest⟩ := List.pairwise_cons.1 h
    rw [edge_cons]
    by_cases hk : a = k
    · subst hk
      have hnone : ¬ Edge g a b := by
        rintro ⟨set', hmem, -⟩
        have hlt := hfirst a (List.mem_map_of_mem hmem)
        rw [Std.ReflOrd.compare_self] at hlt
        cases hlt
      simp [hnone]
    · rw [List.lookup_cons, beq_false_of_ne hk, ih hrest]
      simp [hk]

end

/-! ## Frames -/

/-- The temporary `u` is live right behind a statement that writes `t`. -/
def Outlives (blocks : List (List Stmt)) (u t : Nat) : Prop :=
  ∃ b before s after, stmtsAt blocks b = before ++ s :: after ∧ s.writes = some (.temp t) ∧
    LiveBehind blocks (.temp u) b after

section

variable {blocks : List (List Stmt)} {v : Var} {b t u : Nat}

theorem lt_of_live (h : Live blocks v b) : b < blocks.length := by
  by_contra hge
  have hnone : stmtsAt blocks b = [] := by rw [stmtsAt, List.getElem?_eq_none (Nat.le_of_not_lt hge)]; rfl
  rw [live_iff, hnone] at h
  rcases h with h | ⟨-, c, hc, -⟩
  · exact not_readsFirst_nil h
  · cases hc

theorem Exact.mem_liveOut {facts : List BlockFacts} (h : Exact blocks facts) {B : BlockFacts}
    (hB : facts[b]? = some B) : v ∈ B.liveOut ↔ ∃ c ∈ successorsOf (stmtsAt blocks b), Live blocks v c := by
  rw [h.liveOut b B hB, h.successors b B hB]
  refine exists_congr fun c => and_congr_right fun _ => ?_
  constructor
  · rintro ⟨C, hC, hv⟩
    exact (h.liveIn c C hC v).1 hv
  · intro hlive
    have hlt : c < facts.length := h.length_eq ▸ lt_of_live hlive
    exact ⟨_, List.getElem?_eq_getElem hlt, (h.liveIn c _ (List.getElem?_eq_getElem hlt) v).2 hlive⟩

/-- A frame interferes just where its paths say. -/
theorem interferes_iff : (factsOf blocks).interferes t u = true ↔
    t ≠ u ∧ (Outlives blocks u t ∨ Outlives blocks t u) := by
  have hexact := exact_factsOf blocks
  obtain ⟨hkeyed, hedge⟩ := edge_foldl_interfereBlock (a := t) (b := u) (blocks.zip (factsOf blocks).blocks)
    (show Keyed [] from List.Pairwise.nil)
  -- what clashes in a block is what the paths from this block say
  have hclash : ∀ t u, (∃ p ∈ blocks.zip (factsOf blocks).blocks, BlockClash p.1 p.2.liveOut t u) ↔
      t ≠ u ∧ Outlives blocks u t := by
    intro t u
    have hlive : ∀ {b B after}, (factsOf blocks).blocks[b]? = some B →
        (.temp u ∈ after.foldr liveBefore B.liveOut ↔ LiveBehind blocks (.temp u) b after) := fun hB => by
      rw [mem_foldr_liveBefore, liveBehind_iff, hexact.mem_liveOut hB]
    constructor
    · rintro ⟨p, hp, before, s, after, hstmts, hwrites, hu, hne⟩
      obtain ⟨b, hb⟩ := List.mem_iff_getElem?.1 hp
      obtain ⟨hblock, hB⟩ := List.getElem?_zip_eq_some.1 hb
      refine ⟨hne.symm, b, before, s, after, ?_, hwrites, (hlive hB).1 hu⟩
      rw [stmtsAt, hblock, Option.getD_some, hstmts]
    · rintro ⟨hne, b, before, s, after, hstmts, hwrites, hu⟩
      cases hblock : blocks[b]? with
      | none =>
        rw [stmtsAt, hblock] at hstmts
        simp at hstmts
      | some stmts =>
        rw [stmtsAt, hblock, Option.getD_some] at hstmts
        have hlt : b < (factsOf blocks).blocks.length :=
          hexact.length_eq ▸ (List.getElem?_eq_some_iff.1 hblock).1
        have hB := List.getElem?_eq_getElem hlt
        exact ⟨(stmts, _), List.mem_of_getElem? (List.getElem?_zip_eq_some.2 ⟨hblock, hB⟩), before, s, after, hstmts,
          hwrites, (hlive hB).2 hu, hne.symm⟩
  refine (interferes_iff_edge hkeyed).trans (hedge.trans ?_)
  simp only [and_or_left, exists_or, hclash]
  simp [Edge, ne_comm]

end

/-! ## Colours -/

namespace FrameFacts

variable {f : FrameFacts} {n t u c : Nat}

theorem firstFree_spec (taken : List Nat) : firstFree taken ∉ taken ∧ firstFree taken ≤ taken.length := by
  obtain ⟨c, hc⟩ : ∃ c, (List.range (taken.length + 1)).find? (fun c => !taken.contains c) = some c := by
    rw [← Option.isSome_iff_exists, List.find?_isSome]
    by_contra hnone
    have hsub : List.range (taken.length + 1) ⊆ taken := fun c hc => by
      by_contra hnot
      exact hnone ⟨c, hc, by simpa using hnot⟩
    have hle := (List.subperm_of_subset List.nodup_range hsub).length_le
    rw [List.length_range] at hle
    omega
  rw [firstFree, hc, Option.getD_some]
  have hfree := List.find?_some hc
  have hmem := List.mem_range.1 (List.mem_of_find?_eq_some hc)
  exact ⟨by simpa using hfree, by omega⟩

theorem getElem?_colours (h : t < n) : (f.colours n)[t]? = some (f.nextColour (f.colours t)) := by
  induction n with
  | zero => cases h
  | succ n ih =>
    rw [colours]
    rcases Nat.lt_succ_iff_lt_or_eq.1 h with hlt | rfl
    · rw [List.getElem?_append_left (by rw [length_colours]; exact hlt), ih hlt]
    · rw [List.getElem?_append_right (by rw [length_colours]), length_colours, Nat.sub_self]
      rfl

theorem colour_le (h : (f.colours n)[t]? = some c) : c ≤ t := by
  have hlt := (List.getElem?_eq_some_iff.1 h).1
  rw [length_colours] at hlt
  rw [getElem?_colours hlt] at h
  cases h
  refine (firstFree_spec _).2.trans ?_
  rw [List.length_map]
  refine (List.length_filter_le ..).trans ?_
  rw [List.length_zipIdx, length_colours]

theorem nextColour_ne {colours : List Nat} (hu : colours[u]? = some c)
    (h : f.interferes colours.length u = true) : f.nextColour colours ≠ c := by
  refine (ne_of_mem_of_not_mem ?_ (firstFree_spec _).1).symm
  exact List.mem_map.2 ⟨(c, u), List.mem_filter.2 ⟨List.mem_zipIdx_iff_getElem?.2 hu, h⟩, rfl⟩

theorem colour_ne (hsymm : ∀ t u, f.interferes t u = f.interferes u t) {d : Nat}
    (ht : (f.colours n)[t]? = some c) (hu : (f.colours n)[u]? = some d) (h : f.interferes t u = true)
    (hne : t ≠ u) : c ≠ d := by
  -- the later temporary is the one that looks at the other
  have hlater : ∀ {t u c d}, (f.colours n)[t]? = some c → (f.colours n)[u]? = some d →
      f.interferes t u = true → u < t → c ≠ d := by
    intro t u c d ht hu h hlt
    have htn := (List.getElem?_eq_some_iff.1 ht).1
    rw [length_colours] at htn
    rw [getElem?_colours htn] at ht
    rw [getElem?_colours (hlt.trans htn), ← getElem?_colours hlt] at hu
    cases ht
    exact nextColour_ne hu (by rw [length_colours]; exact h)
  rcases Nat.lt_or_gt_of_ne hne with hlt | hlt
  · exact (hlater hu ht (hsymm t u ▸ h) hlt).symm
  · exact hlater ht hu h hlt

end FrameFacts

end JsonSieve.Liveness
