import JsonSieve.Proofs.Graph.Spanned

/-!
# The frames of a tame tree

Every frame of a tame tree that is laid out stands in the graph under the number by which the frame around
it names it: `ofTree_numbered` gives for each number the body that has been laid out there, `layFrame_spans`
says where the statements of that body stand. There are always enough steps to lay out all frames, since
every layout meets exactly the frames that its body has.
-/

namespace JsonSieve.Graph

open Layout

structure FrameLaid (next : Nat) (body : Stmt) (f : Frame (List Block)) (nested : List Stmt) : Prop where
  count : nested.length + Stmt.framesOf nested = body.simplified.frames
  tamed : ∀ b ∈ nested, Tamed b
  registers : ∀ frameAt, (∀ i b, nested[i]? = some b → frameAt (next + i) b) → Registers frameAt body.notes {} f.decls
  spans : ∀ frameAt, (∀ i b, nested[i]? = some b → frameAt (next + i) b) →
    Spans frameAt (codeOf f.body) (fun _ => none) body (codeOf f.body 0) none

theorem layFrame_spans {next : Nat} {body : Stmt} {f : Frame (List Block)} {nested : List Stmt}
    (htame : body.tame = true) (heq : layFrame next body.simplified = .ok (f, nested)) :
    FrameLaid next body f nested := by
  rw [layFrame_eq] at heq
  obtain ⟨⟨⟨⟩, l⟩, hlay, heq⟩ := step_ok heq
  have hentry : (entryLayout next).Sound := {
    ready := fun b hb => by
      cases hb
      exact ⟨Nat.zero_lt_one, List.not_mem_nil⟩
    nodup := List.nodup_nil
    exits := fun x hx => by cases hx }
  have h := layStmt_spans body htame hentry hlay
  dsimp only at heq
  split at heq
  · cases heq
  next hcurrent =>
  cases heq
  obtain ⟨more, hmore, hnext, hcount, htamed⟩ := h.evolves.hoisted
  have hmore : l.nested = more := hmore
  subst hmore
  have hnext : l.nextFrame = next + l.nested.length := hnext
  have hcovered : ∀ frameAt : Nat → Stmt → Prop,
      (∀ i b, l.nested[i]? = some b → frameAt (next + i) b) → l.Covered frameAt l.stmtsAt :=
    fun frameAt hframes => by
      refine ⟨fun _ => List.prefix_rfl, fun i b f hb hf => ?_⟩
      rw [show f = next + i by omega]
      exact hframes i b hb
  refine ⟨hcount, htamed, fun frameAt hframes => ?_, fun frameAt hframes => ?_⟩
  · exact h.registers frameAt l.stmtsAt (hcovered frameAt hframes)
  · have hscopes := h.evolves.scopes
    have hfits : Fits l.loops fun _ => none := by
      rw [List.forall₂_nil_left_iff.1 hscopes]
      intro id scope x hfind
      cases hfind
    have hspans := h.spans frameAt l.stmtsAt (fun _ => none) 0 (hcovered frameAt hframes) hfits rfl
    rw [hcurrent, rest_of_empty (l := entryLayout next) rfl] at hspans
    rw [codeOf_toList]
    exact hspans

theorem ofTree_numbered {t : Tree} {g : Graph} (htame : Stmt.tameAll t = true) (heq : ofTree t = .ok g) :
    ∃ bodies, Stmt.simplifiedAll t <+: bodies ∧ Numbered 0 bodies g := by
  obtain ⟨g', hlay, heq⟩ := step_ok heq
  obtain ⟨_, -, heq⟩ := step_ok heq
  cases heq
  obtain ⟨bodies, hprefix, -, hnumbered⟩ := layFrames_numbered (fun hbody hframe => by
    obtain ⟨s, htame, rfl⟩ := hbody
    have hlaid := layFrame_spans htame hframe
    exact ⟨hlaid.tamed, Nat.le_of_eq hlaid.count⟩) 0 (tamed_of_mem htame) (Nat.le_refl _) (by rwa [Nat.zero_add])
  exact ⟨bodies, hprefix, hnumbered⟩

end JsonSieve.Graph
