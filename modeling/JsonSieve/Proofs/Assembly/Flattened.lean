import JsonSieve.Liveness

/-!
# Flat bodies

Blocks that stand where their numbers say have a flat body (`ofGraph_eq`), and cutting it at the markers
gives the blocks back (`split_markedStmts`). If their branches go to blocks that exist, their liveness is
known (`ofFlat_eq`).
-/

namespace JsonSieve

theorem mapM_eq_ok {ε α β : Type} {f : α → Except ε β} {g : α → β} {list : List α}
    (h : ∀ a ∈ list, f a = .ok (g a)) : list.mapM f = .ok (list.map g) := by
  induction list with
  | nil => rfl
  | cons a list ih =>
    rw [List.mapM_cons, h a List.mem_cons_self, ih fun b hb => h b (.tail _ hb)]
    rfl

namespace Flat

/-- Blocks that stand at the positions of their numbers and hold no markers. -/
structure Numbered (blocks : List Block) : Prop where
  id_eq : ∀ (i : Nat) (b : Block), blocks[i]? = some b → b.id = i
  unmarked : ∀ b ∈ blocks, ∀ s ∈ b.stmts, ∀ id, s ≠ .block id

def bodyOf (blocks : List Block) : FlatBody := ⟨markedStmts blocks, blocks.map (·.name)⟩

def frameOf (f : Frame (List Block)) : Frame FlatBody := ⟨f.decls, bodyOf f.body⟩

variable {blocks : List Block}

theorem Numbered.find?_eq (h : Numbered blocks) : (blocks.zipIdx.find? fun (b, i) => b.id ≠ i) = none := by
  rw [List.find?_eq_none]
  rintro ⟨b, i⟩ hb
  simpa using h.id_eq i b (List.mem_zipIdx_iff_getElem?.1 hb)

theorem ofBlocks_eq (h : Numbered blocks) (frame : Nat) : ofBlocks frame blocks = .ok (bodyOf blocks) := by
  rw [ofBlocks, h.find?_eq]
  rfl

theorem ofGraph_eq {g : Graph} (h : ∀ f ∈ g, Numbered f.body) : ofGraph g = .ok (g.map frameOf) := by
  have hframes : ofGraph g = .ok (g.zipIdx.map fun p => frameOf p.1) := by
    refine mapM_eq_ok fun p hf => ?_
    obtain ⟨f, i⟩ := p
    have hmem := List.mem_of_getElem? (List.mem_zipIdx_iff_getElem?.1 hf)
    simp only [ofBlocks_eq (h f hmem)]
    rfl
  rw [hframes]
  congr 1
  apply List.ext_getElem?
  intro i
  cases hi : g[i]? <;> simp [hi]

theorem split_append {stmts : List Stmt} (h : ∀ s ∈ stmts, ∀ id, s ≠ .block id) (rest : List Stmt) :
    split (stmts ++ rest) = (stmts ++ (split rest).1, (split rest).2) := by
  induction stmts with
  | nil => rfl
  | cons s stmts ih =>
    have ih := ih fun t ht => h t (.tail _ ht)
    have hs := h s (.head _)
    rw [List.cons_append, split.eq_3 _ _ fun id hid => hs id hid, ih]
    rfl

theorem split_markedStmts (h : ∀ b ∈ blocks, ∀ s ∈ b.stmts, ∀ id, s ≠ .block id) :
    split (markedStmts blocks) = ([], blocks.map fun b => (b.id, b.stmts)) := by
  induction blocks with
  | nil => rfl
  | cons b blocks ih =>
    have ih := ih fun c hc => h c (.tail _ hc)
    have hmarked : markedStmts (b :: blocks) = .block b.id :: (b.stmts ++ markedStmts blocks) := rfl
    rw [hmarked, split, split_append (h b List.mem_cons_self), ih]
    simp

end Flat

namespace Liveness

open Flat

variable {blocks : List Block}

theorem find?_unordered (h : Numbered blocks) :
    ((blocks.map fun b => (b.id, b.stmts)).zipIdx.find? fun ((id, _), i) => id ≠ i) = none := by
  rw [List.find?_eq_none]
  rintro ⟨⟨id, stmts⟩, i⟩ hmem
  obtain ⟨b, hb, heq⟩ : ∃ b, blocks[i]? = some b ∧ (b.id, b.stmts) = (id, stmts) := by
    simpa using List.mem_zipIdx_iff_getElem?.1 hmem
  cases heq
  simpa using h.id_eq i b hb

theorem blocksOf_eq (h : Numbered blocks) (hne : blocks ≠ []) :
    blocksOf (bodyOf blocks) = .ok (blocks.map (·.stmts)) := by
  rw [blocksOf, bodyOf, split_markedStmts h.unmarked]
  dsimp only
  rw [find?_unordered h]
  cases blocks with
  | nil => exact absurd rfl hne
  | cons b blocks => simp

def factsOf (blocks : List (List Stmt)) : FrameFacts :=
  let successors := blocks.map successorsOf
  let facts := solve (blocks.zipIdx.map fun (stmts, i) =>
    let (uses, defs) := usesAndDefs stmts
    { predecessors := predecessorsOf successors i, successors := successorsOf stmts, uses, defs })
  ⟨facts, (blocks.zip facts).foldl (fun graph (stmts, b) => interfereBlock stmts b.liveOut graph) []⟩

def Closed (blocks : List Block) : Prop :=
  ∀ b ∈ blocks, ∀ t ∈ successorsOf b.stmts, t < blocks.length

theorem ofBody_eq (h : Numbered blocks) (hne : blocks ≠ [])
    (hclosed : Closed blocks) : ofBody (bodyOf blocks) = .ok (factsOf (blocks.map (·.stmts))) := by
  have hnone : missingTarget? (blocks.map (·.stmts)) = none := by
    rw [missingTarget?, List.findSome?_eq_none_iff]
    rintro ⟨stmts, i⟩ hmem
    obtain ⟨b, hb, rfl⟩ : ∃ b, blocks[i]? = some b ∧ b.stmts = stmts := by
      simpa using List.mem_zipIdx_iff_getElem?.1 hmem
    rw [Option.map_eq_none_iff, List.find?_eq_none]
    intro t ht
    simpa using hclosed b (List.mem_of_getElem? hb) t ht
  rw [ofBody, blocksOf_eq h hne]
  simp only [bind, Except.bind, hnone]
  rfl

theorem ofFlat_eq {g : Graph} (h : ∀ f ∈ g, Numbered f.body ∧ f.body ≠ [] ∧ Closed f.body) :
    ofFlat (g.map frameOf) = .ok (g.map fun f => factsOf (f.body.map (·.stmts))) := by
  have hframes : ofFlat (g.map frameOf) = .ok ((g.map frameOf).zipIdx.map fun p =>
        factsOf (((g[p.2]?).map fun f => f.body.map (·.stmts)).getD [])) := by
    refine mapM_eq_ok fun p hmem => ?_
    obtain ⟨flat, i⟩ := p
    obtain ⟨f, hf, rfl⟩ : ∃ f, g[i]? = some f ∧ frameOf f = flat := by
      simpa using List.mem_zipIdx_iff_getElem?.1 hmem
    obtain ⟨hnumbered, hne, hclosed⟩ := h f (List.mem_of_getElem? hf)
    show (ofBody (bodyOf f.body)).mapError _ = _
    simp only [ofBody_eq hnumbered hne hclosed, hf]
    rfl
  rw [hframes]
  congr 1
  apply List.ext_getElem?
  intro i
  cases hi : g[i]? <;> simp [hi]

theorem FrameFacts.length_colours (f : FrameFacts) (n : Nat) : (f.colours n).length = n := by
  induction n with
  | zero => rfl
  | succ n ih => rw [FrameFacts.colours, List.length_append, ih, List.length_singleton]

end Liveness

end JsonSieve
