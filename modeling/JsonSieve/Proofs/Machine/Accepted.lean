import JsonSieve.Proofs.Machine.Loaded
import JsonSieve.Proofs.Schema.Compilation
import JsonSieve.Regex.Builtin

/-!
# Graphs and images that are accepted

Once the frames of a tree have been laid out, the check of the graph finds nothing, whatever the tree is
(`check_of_layTree`). Nor does reading the image find anything: its entries, its split lists and its operands
name only what is in it (`Covers.complete`). What may be missing are recognizers, and they are those of the
matchers that stand in the tree (`ofImage_of_stages`).
-/

namespace JsonSieve

namespace Graph

/-- If every frame of a tree can be laid out, the check finds nothing. -/
theorem check_of_layTree {t : Tree} {g : Graph} (h : layTree t = .ok g) :
    check g = .ok () ∧ ofTree t = .ok g ∧ ∀ f ∈ g, f.body ≠ [] ∧
      (∀ (i : Nat) (b : Block), f.body[i]? = some b → b.id = i ∧
        (∃ before last, b.stmts = before ++ [last] ∧ (∀ s ∈ before, s.isTerminator = false) ∧
          last.isTerminator = true ∧ ∀ j ∈ last.successors, j < f.body.length) ∧
        ∀ s ∈ b.stmts, (∀ t source, s = .move t source → t < f.decls.temps) ∧
          (∀ t cases otherwise, s = .branchCase t cases otherwise → t < f.decls.temps) ∧
          ∀ k, s = .call k → k < g.length) ∧
      (∀ i < f.body.length, Reaches f.body 0 i) ∧ ∀ list ∈ f.decls.splits, ∀ k ∈ list, k < g.length := by
  have hformed := fun f hf => (layTree_formed (M := fun _ => True) (fun _ _ => trivial) h f hf).1
  refine ⟨check_eq_ok hformed, ofTree_eq_layTree t ▸ h, fun f hf => ?_⟩
  have hf := hformed f hf
  refine ⟨hf.nonempty, fun i b hb => ?_, hf.reach, hf.splits⟩
  have hmem := List.mem_of_getElem? hb
  obtain ⟨before, last, hstmts, hopen, hlast⟩ := hf.shut b hmem
  refine ⟨hf.id_eq i b hb, ⟨before, last, hstmts, hopen, hlast, ?_⟩, fun s hs => ?_⟩
  · exact (hf.stmts b hmem last (by simp [hstmts])).2.2
  · have hdefect := (hf.stmts b hmem s hs).2.1
    refine ⟨?_, ?_, ?_⟩
    · rintro t source rfl
      simpa [stmtDefect?] using hdefect
    · rintro t cases otherwise rfl
      simpa [stmtDefect?] using hdefect
    · rintro k rfl
      simpa [stmtDefect?] using hdefect

/-- Looks for names until one of them has two characters, with a call in a condition. -/
def naming : Stmt := .seq [ .matcher 0 ⟨[.literal "id"], [[0]]⟩, .loop 0 "names" (.seq [ .token,
    .ite (.seq (.frame (.seq [.consume, .valid])) (.compare .eq .tokenLength (.size 2))) (.leave 0) .nop,
    .dispatch 0 [(1, .consume)] .nop]), .valid]

def namingGraph : Graph := [ ⟨{ matchers := [⟨[.literal "id"], [[0]]⟩], temps := 1 }, [
    ⟨0, "entry", [.branch 1]⟩,
    ⟨1, "names", [.token, .call 1, .branchIf (.compare .eq .tokenLength (.size 2)) 2 3]⟩,
    ⟨2, "then", [.branch 4]⟩, ⟨3, "join", [.move 0 (.matchCase 0), .branchCase 0 [(1, 5)] (some 6)]⟩,
    ⟨4, "names_exit", [.valid]⟩, ⟨5, "case", [.consume, .branch 7]⟩, ⟨6, "default", [.branch 7]⟩,
    ⟨7, "match_join", [.branch 1]⟩]⟩, ⟨{}, [⟨0, "entry", [.consume, .valid]⟩]⟩]

theorem layTree_naming : layTree [naming] = .ok namingGraph := by cbv

theorem check_of_layTree_naming : layTree [naming] = .ok namingGraph ∧ check namingGraph = .ok () :=
  ⟨layTree_naming, (check_of_layTree layTree_naming).1⟩

end Graph

namespace Machine

open Assembly JsonSieve.Graph

theorem ne_nil_of_ofTree {t : Tree} {g : Graph} (hne : t ≠ []) (h : ofTree t = .ok g) : g ≠ [] := by
  obtain ⟨s, t, rfl⟩ := List.exists_cons_of_ne_nil hne
  rw [ofTree_eq_layTree, layTree, Stmt.simplifiedAll, List.length_cons, Nat.add_right_comm, layFrames] at h
  obtain ⟨p, -, h⟩ := step_ok h
  obtain ⟨rest, -, h⟩ := step_ok h
  cases h
  exact List.cons_ne_nil _ _

/-- If all stages succeed, with liveness or without, and the matchers of the tree have recognizers, the image
is accepted. -/
theorem ofImage_of_stages [Regex.Engine] {t : Tree} (hne : t ≠ [])
    (hmatchers : ∀ m ∈ Stmt.matchersOf t, ∃ r, m.recognizer = .ok r)
    {g : Graph} {flat : Flat} {facts : Option (List Liveness.FrameFacts)} {a : Assembly} {image : Image}
    (hgraph : Graph.ofTree t = .ok g) (hflat : Flat.ofGraph g = .ok flat)
    (hfacts : ∀ known, facts = some known → Liveness.ofFlat flat = .ok known)
    (hassembly : Assembly.ofFlat flat facts = .ok a) (himage : Image.ofAssembly a = .ok image) :
    ∃ exe, Executable.ofImage image = .ok exe := by
  have hformed := ofTree_formed hgraph
  have hknown : Known g facts := fun known hsome => by
    have hlive := hfacts known hsome
    rw [Flat.ofGraph_eq fun f hf => (hformed f hf).numbered] at hflat
    cases hflat
    rw [Liveness.ofFlat_eq fun f hf => ⟨(hformed f hf).numbered, (hformed f hf).nonempty, (hformed f hf).closed⟩]
      at hlive
    cases hlive
    exact List.length_map _
  obtain ⟨hassembled, rfl⟩ := assembled_of_stages hgraph hflat hknown hassembly himage
  have hrecognizers : ∀ m ∈ a.matchers, ∃ r, m.recognizer = .ok r := by
    rw [hassembled.covers.matchers_eq, List.take_length]
    intro m hm
    obtain ⟨f, hf, hm⟩ := List.mem_flatMap.1 hm
    exact (layTree_formed hmatchers (ofTree_eq_layTree t ▸ hgraph) f hf).2 m hm
  obtain ⟨recognizers, hall⟩ := Constraint.exists_forall₂.2 hrecognizers
  have hcomplete := hassembled.covers.complete hformed (ne_nil_of_ofTree hne hgraph) hassembled.addressed
    hassembled.resolves
  exact ⟨_, (hcomplete.compiles.2 _).2 ⟨recognizers, hall, rfl⟩⟩

theorem ofImage_of_naming : ∃ flat a image exe, Graph.ofTree [naming] = .ok namingGraph ∧
    Flat.ofGraph namingGraph = .ok flat ∧ Assembly.ofFlat flat none = .ok a ∧ Image.ofAssembly a = .ok image ∧
    Executable.ofImage image = .ok exe := by
  have hgraph : Graph.ofTree [naming] = .ok namingGraph := (ofTree_eq_layTree _).trans layTree_naming
  have hmatchers : ∀ m ∈ Stmt.matchersOf [naming], ∃ r, m.recognizer = .ok r := by
    intro m hm
    obtain rfl : m = ⟨[.literal "id"], [[0]]⟩ := by
      simpa [naming, Stmt.matchersOf, Stmt.matchers, Stmt.matchersOfCases, Expr.matchers] using hm
    exact ⟨_, rfl⟩
  have hstages : ((do
      let flat ← (Flat.ofGraph namingGraph).toOption
      let a ← (Assembly.ofFlat flat none).toOption
      let image ← (Image.ofAssembly a).toOption
      pure image.procs.length) : Option Nat) = some 2 := by decide +kernel
  simp only [Option.bind_eq_bind, Option.bind_eq_some_iff, toOption_eq_some] at hstages
  obtain ⟨flat, hflat, a, hassembly, image, himage, -⟩ := hstages
  obtain ⟨exe, hexe⟩ := ofImage_of_stages (List.cons_ne_nil _ _) hmatchers hgraph hflat
    (fun known hknown => by cases hknown) hassembly himage
  exact ⟨flat, a, image, exe, hgraph, hflat, hassembly, himage, hexe⟩

end Machine

end JsonSieve
