import JsonSieve.Proofs.Graph.Built

/-!
# Graphs of legal frames

A graph that has been laid out from legal frames is well-formed, and the statements in its blocks name what
its frames declare (`Sound`). A legal tree has such a graph exactly if its frames are in order
(`ofTree_lays`).
-/

namespace JsonSieve.Graph

open Legal

def Sound (fits : Nat → Prop) (g : Graph) : Prop :=
  ∀ f ∈ g, Formed g.length f ∧ ∃ d, FrameOut fits d f

variable {fits : Nat → Prop}

theorem ofTree_lays {n : Nat} {body : Stmt} (h : Legal.Frame fits n body) :
    (Orderly body ∧ ∃ g, ofTree [body] = .ok g ∧ g.length = 1 + body.frames ∧ Sound fits g) ∨
      (¬ Orderly body ∧ ∃ e, ofTree [body] = .error e) := by
  have hbodies : Stmt.simplifiedAll [body] = [body] := simplifiedAll_eq (by simpa using h.simplified_eq)
  have hlays := layFrames_lays ([body].length + Stmt.framesOf [body]) [body].length [body]
    (by simpa using ⟨n, h⟩ : ∀ b ∈ [body], ∃ n, Legal.Frame fits n b) (Nat.le_refl _)
  simp only [List.mem_singleton, forall_eq] at hlays
  have htree : ofTree [body] = layFrames ([body].length + Stmt.framesOf [body]) [body].length [body] := by
    rw [ofTree_eq_layTree, layTree, hbodies]
  rw [← htree] at hlays
  rcases hlays with ⟨horderly, g, hg, hlength, hlaid⟩ | hnot
  · exact .inl ⟨horderly, g, hg, hlength, fun f hf => ⟨ofTree_formed hg f hf, hlaid f hf⟩⟩
  · exact .inr hnot

end JsonSieve.Graph
