import JsonSieve.Proofs.Assembly.Emitted
import JsonSieve.Proofs.Session.Limits
import JsonSieve.Proofs.Tree.Ordered
import JsonSieve.Regex.Builtin
import JsonSieve.Schema

/-!
# Which constraints can be compiled

A constraint whose patterns can be prepared, whose counts fit a word and whose code fits the addresses has an
image exactly if nothing in it clashes, and is compiled exactly if, besides, the expressions of every matcher can be
prepared together (`compiles_iff_tidy`). A clash is an object with several expressions in which a group of rules without
expressions forbids all other names: the checks of a member stand behind the statement that rejects it.
-/

namespace JsonSieve.Constraint

open Assembly Flat JsonSieve.Graph

theorem sharing_of_sound {fits : Nat → Prop} {g : Graph} (h : Sound fits g) (shareSlots : Bool) :
    ∃ facts, Tree.sharing shareSlots (g.map frameOf) = .ok facts ∧ Known g facts := by
  cases shareSlots with
  | false => exact ⟨none, rfl, nofun⟩
  | true =>
    have hfacts := Liveness.ofFlat_eq (g := g) fun f hf => by
      have hformed := (h f hf).1
      exact ⟨hformed.numbered, hformed.nonempty, hformed.closed⟩
    refine ⟨some (g.map fun f => Liveness.factsOf (f.body.map (·.stmts))), ?_, ?_⟩
    · rw [Tree.sharing, if_pos rfl, hfacts]
    · intro known hknown
      cases hknown
      exact List.length_map _

theorem mapError_error {ε ε' α : Type} (f : ε → ε') (e : ε) : (Except.error e : Except ε α).mapError f = .error (f e) :=
  rfl

theorem mapError_ok {ε ε' α : Type} (f : ε → ε') (a : α) : (Except.ok a : Except ε α).mapError f = .ok a :=
  rfl

theorem assembly_of_readable [Regex.Engine] {c : Constraint} (hpatterns : c.Every LeafPatterns)
    (hcounts : c.Every (LeafCounts Countable)) (shareSlots : Bool) :
    (c.Tidy ∧ ∃ body g facts a, c.frame = .ok body ∧ Sound Countable g ∧ g.length = 1 + body.frames ∧
      Covers g facts g.length a ∧ c.assembly shareSlots = .ok a) ∨
    (¬ c.Tidy ∧ ∃ fault, c.assembly shareSlots = .error (.graph fault)) := by
  have hweight : c.weight < c.weight + 1 := Nat.lt_succ_self _
  obtain ⟨body, hbody⟩ := exists_frameWithin hweight hpatterns
  have htree : c.toTree = .ok [body] := by
    rw [toTree, frame, hbody]
    rfl
  have hlegal := frameWithin_legal counting_countable hweight hcounts hbody
  have horderly := orderly_frameWithin hweight hbody
  rcases ofTree_lays hlegal with ⟨hordered, g, hg, hlength, hsound⟩ | ⟨hnot, fault, hfault⟩
  · refine .inl ⟨horderly.1 hordered, ?_⟩
    obtain ⟨facts, hfacts, hknown⟩ := sharing_of_sound hsound shareSlots
    obtain ⟨a, ha, hcovers⟩ := exists_assembly hsound hknown
    have hnumbered : ∀ f ∈ g, Numbered f.body := fun f hf => (hsound f hf).1.numbered
    refine ⟨body, g, facts, a, hbody, hsound, hlength, hcovers, ?_⟩
    simp only [assembly, assemblyOf, htree, hg, Flat.ofGraph_eq hnumbered, hfacts, ha, mapError_ok, bind, Except.bind]
  · refine .inr ⟨fun h => hnot (horderly.2 h), fault, ?_⟩
    simp only [assembly, htree, hfault, mapError_ok, mapError_error, bind, Except.bind]

theorem exists_forall₂ {α β : Type} {R : α → β → Prop} {list : List α} :
    (∃ results, List.Forall₂ R list results) ↔ ∀ a ∈ list, ∃ b, R a b := by
  induction list with
  | nil => simp
  | cons a list ih =>
    rw [List.forall_mem_cons, ← ih]
    constructor
    · rintro ⟨_, _ | ⟨hb, hrest⟩⟩
      exact ⟨⟨_, hb⟩, _, hrest⟩
    · rintro ⟨⟨b, hb⟩, results, hrest⟩
      exact ⟨b :: results, .cons hb hrest⟩

/-- A constraint whose patterns can be prepared, whose counts fit a word and whose code fits the addresses has an
image exactly if it is tidy; otherwise no graph can be laid out. It is compiled exactly if every matcher has a
recognizer besides. -/
theorem compiles_iff_tidy [Regex.Engine] (c : Constraint) (shareSlots : Bool) (hpatterns : c.Every LeafPatterns)
    (hcounts : c.Every (LeafCounts Countable))
    (hsize : ∀ a, c.assembly shareSlots = .ok a → Image.sizeOf a.procs < Nat.pow 2 32) :
    ((∃ image, c.toImage shareSlots = .ok image) ↔ c.Tidy) ∧
    (¬ c.Tidy → ∃ fault, c.toImage shareSlots = .error (.graph fault)) ∧
    ((∃ exe, c.compile shareSlots = .ok exe) ↔ c.Tidy ∧
      ∀ a, c.assembly shareSlots = .ok a → ∀ m ∈ a.matchers, ∃ r, m.recognizer = .ok r) := by
  rw [toImage_eq, compile_eq]
  rcases assembly_of_readable hpatterns hcounts shareSlots with
    ⟨htidy, body, g, facts, a, -, hsound, hlength, hcovers, ha⟩ | ⟨hnot, fault, hfault⟩
  · have hne : g ≠ [] := List.ne_nil_of_length_pos (by omega)
    obtain ⟨himage, hexe⟩ := (complete_of_sound hsound hcovers hne (hsize a ha)).compiles
    simp only [ha, himage, mapError_ok, bind, Except.bind, mapError_eq_ok, hexe]
    refine ⟨iff_of_true ⟨_, rfl⟩ htidy, fun hnot => absurd htidy hnot, ?_⟩
    constructor
    · rintro ⟨_, rs, hrs, -⟩
      refine ⟨htidy, fun _ h => ?_⟩
      cases h
      exact exists_forall₂.1 ⟨rs, hrs⟩
    · rintro ⟨-, hall⟩
      obtain ⟨rs, hrs⟩ := exists_forall₂.2 (hall a rfl)
      exact ⟨_, rs, hrs, rfl⟩
  · simp only [hfault, bind, Except.bind]
    refine ⟨iff_of_false ?_ hnot, fun _ => ⟨fault, rfl⟩, iff_of_false ?_ fun h => hnot h.1⟩
    all_goals
      rintro ⟨_, h⟩
      cases h

/-- Objects with at most two members, whose names match an expression. -/
def counted : Constraint :=
  only .object (.allOf [.properties [(.regex "a", .valid)] .invalid, .propertyCount ⟨0, some 2⟩])

def countedTree : Stmt := .seq [.counter 0 "num_props", .matcher 0 ⟨[.regex "a"], [[0]]⟩, .seq [.token,
  .ite (.isToken .objectBegin) (.seq [untilEnd 0 "props" .objectEnd [.incr 0,
    .dispatch 0 [(1, .seq [.seq [.token, .consume]])] (.seq [.invalid .badPropertyName])],
    .rejectIf (.compare .gt (.count 0) (.size 2)) .tooManyProperties, .valid]) (.invalid .unexpectedToken)]]

def countedGraph : Graph := [⟨{ counters := ["num_props"], matchers := [⟨[.regex "a"], [[0]]⟩], temps := 1 }, [
  ⟨0, "entry", [.token, .branchIf (.isToken .objectBegin) 1 2]⟩, ⟨1, "then", [.branch 3]⟩,
  ⟨2, "else", [.invalid .unexpectedToken]⟩, ⟨3, "props", [.token, .branchIf (.isToken .objectEnd) 4 5]⟩,
  ⟨4, "then", [.branch 6]⟩, ⟨5, "else", [.incr 0, .move 0 (.matchCase 0), .branchCase 0 [(1, 7)] (some 8)]⟩,
  ⟨6, "props_exit", [.branchIf (.compare .gt (.count 0) (.size 2)) 11 12]⟩,
  ⟨7, "case", [.token, .consume, .branch 9]⟩, ⟨8, "default", [.invalid .badPropertyName]⟩,
  ⟨9, "match_join", [.branch 10]⟩, ⟨10, "join", [.branch 3]⟩, ⟨11, "then", [.invalid .tooManyProperties]⟩,
  ⟨12, "join", [.valid]⟩]⟩]

theorem compiles_iff_tidy_counted : ∃ exe, counted.compile = .ok exe ∧ counted.Tidy ∧
    ∃ image, counted.toImage = .ok image := by
  have hgraph : Graph.ofTree [countedTree] = .ok countedGraph := by cbv
  obtain ⟨exe, hexe, -⟩ := exists_compile (show counted.toTree = _ from rfl) hgraph
    (f := fun _ => ()) (a := ()) (by decide +kernel)
  have hsize : (counted.assembly true).toOption.map (fun a => Image.sizeOf a.procs) = some 26 := by
    rw [assembly_of_graph true rfl hgraph]
    decide +kernel
  have hpatterns : counted.Every LeafPatterns := by
    refine every_only ?_
    simp [Every, EveryPart, EveryRule, LeafPatterns, NamePattern.Readable]
    decide +kernel
  have hcounts : counted.Every (LeafCounts Countable) := by
    refine every_only ?_
    simp [Every, EveryPart, EveryRule, LeafCounts, CountsFit, Countable]
  obtain ⟨himage, -, hcompile⟩ := compiles_iff_tidy counted true hpatterns hcounts fun a ha => by
    rw [ha] at hsize
    rw [show Image.sizeOf a.procs = 26 from Option.some.inj hsize]
    decide
  have htidy := (hcompile.1 ⟨exe, hexe⟩).1
  exact ⟨exe, hexe, htidy, himage.2 htidy⟩

/-- An object with two expressions and a group that allows no names. -/
def clash : Constraint :=
  .allOf [.properties [(.regex "a", .valid), (.regex "b", .valid)] .valid, .properties [] .invalid]

theorem clash_not_compiled : clash.Every LeafPatterns ∧ clash.Every (LeafCounts Countable) ∧
    ∀ shareSlots, ∃ fault, clash.compile shareSlots = .error (.graph fault) := by
  have hpatterns : clash.Every LeafPatterns := by
    simp [clash, Every, EveryPart, EveryRule, LeafPatterns, NamePattern.Readable]
    decide +kernel
  have hcounts : clash.Every (LeafCounts Countable) := by
    simp [clash, Every, EveryPart, EveryRule, LeafCounts]
  have hclashes : clash.Clashes := by
    refine ⟨_, _, rfl, rfl, ?_, ([], .invalid), ?_, rfl, fun _ h => by cases h⟩
    · decide +kernel
    · exact .tail _ (.head _)
  refine ⟨hpatterns, hcounts, fun shareSlots => ?_⟩
  rcases assembly_of_readable hpatterns hcounts shareSlots with ⟨htidy, -⟩ | ⟨-, fault, hfault⟩
  · exact absurd hclashes (htidy clash .refl)
  · refine ⟨fault, ?_⟩
    rw [compile_eq, hfault]
    rfl

end JsonSieve.Constraint
