import JsonSieve.Json.Equality
import JsonSieve.Proofs.Constraint.Inside
import JsonSieve.Proofs.Matcher.Cases

/-!
# What constraints mean

`Constraint.accepts` tells by recursion on a constraint which values satisfy it; no programs are involved.
A leaf accepts every value of another type, and every member of an object is checked by itself, names that
occur twice included. The ways in which the lowering rewrites conjunctions keep this meaning
(`accepts_rewritten`).
-/

namespace JsonSieve

def Json.type {ν : Type} : Json ν → ValueType
  | .null => .null
  | .bool _ => .boolean
  | .number _ => .number
  | .string _ => .string
  | .array _ => .array
  | .object _ => .object

def CountRange.contains (range : CountRange) (n : Nat) : Bool :=
  decide (range.min ≤ n) && range.max.all fun max => decide (n ≤ max)

def NumRange.contains (range : NumRange) (x : Binary64) : Bool :=
  (range.min.all fun min => (if range.exclusiveMin then Comparison.gt else .ge).real x min) &&
    range.max.all fun max => (if range.exclusiveMax then Comparison.lt else .le).real x max

namespace Constraint

variable [Regex.Engine]

mutual

/-- Does a value satisfy a constraint? -/
def accepts : Constraint → Json Binary64 → Bool
  | .valid, _ => true
  | .invalid, _ => false
  | .allOf parts, v => (verdicts parts v).all id
  | .anyOf parts, v => (verdicts parts v).any id
  | .oneOf parts, v => (verdicts parts v).count true == 1
  | .not part, v => !part.accepts v
  | .switch arms, v => (arms v.type).accepts v
  | .numRange range, .number x => range.contains x
  | .integer, .number x => x.isIntegral
  | .multipleOf divisor, .number x => (x.div divisor).isIntegral
  | .length range, .string text => range.contains text.length
  | .pattern source, .string text => (NamePattern.regex source).applies text
  | .properties rules additional, .object members => members.all fun (name, v) =>
    match ruleVerdicts rules name v with
    | [] => additional.accepts v
    | found => found.all id
  | .propertyCount range, .object members => range.contains members.length
  | .required names, .object members => names.all fun name => members.any (·.1 = name)
  | .items tuple additional, .array values => acceptsItems additional.accepts tuple values
  | .itemCount range, .array values => range.contains values.length
  | .uniqueItems, .array values => decide (values.Pairwise fun v w => w.same v = false)
  | .contains part, .array values => values.any fun v => part.accepts v
  -- A leaf that speaks about values of another type.
  | _, _ => true

def verdicts : List Constraint → Json Binary64 → List Bool
  | [], _ => []
  | part :: parts, v => part.accepts v :: verdicts parts v

/-- Which of the rules that apply to the name of a member its value satisfies. -/
def ruleVerdicts : List (NamePattern × Constraint) → String → Json Binary64 → List Bool
  | [], _, _ => []
  | (p, part) :: rules, name, v =>
    if p.applies name then part.accepts v :: ruleVerdicts rules name v else ruleVerdicts rules name v

/-- Do the items satisfy the entries in their places, and those behind all entries something else? -/
def acceptsItems (behind : Json Binary64 → Bool) : List Constraint → List (Json Binary64) → Bool
  | part :: parts, v :: values => part.accepts v && acceptsItems behind parts values
  | [], values => values.all behind
  | _ :: _, [] => true

end

theorem verdicts_eq_map (parts : List Constraint) (v : Json Binary64) : verdicts parts v = parts.map (·.accepts v) := by
  induction parts with
  | nil => rfl
  | cons part parts ih => rw [verdicts, ih, List.map_cons]

/-! ## Conjunctions -/

theorem accepts_allOf (parts : List Constraint) (v : Json Binary64) :
    (allOf parts).accepts v = parts.all (·.accepts v) := by
  simp [accepts, verdicts_eq_map]

/-- A leaf accepts every value of another type. -/
theorem accepts_of_leafType {c : Constraint} {type : ValueType} (h : c.leafType = some type)
    {v : Json Binary64} (hv : v.type ≠ type) : c.accepts v = true := by
  cases c <;> cases h <;> cases v <;> first | rfl | exact absurd rfl hv

theorem accepts_both (a b : Constraint) (v : Json Binary64) : (both a b).accepts v = (a.accepts v && b.accepts v) := by
  have hvalid : valid.accepts v = true := by simp [accepts]
  unfold both
  split <;> simp [hvalid, accepts_allOf]

theorem accepts_foldl_both (parts : List Constraint) (c : Constraint) (v : Json Binary64) :
    (parts.foldl both c).accepts v = (c.accepts v && parts.all (·.accepts v)) := by
  induction parts generalizing c with
  | nil => simp
  | cons part parts ih => rw [List.foldl_cons, ih, accepts_both, List.all_cons, Bool.and_assoc]

theorem accepts_conjunction (parts : List Constraint) (v : Json Binary64) :
    (conjunction parts).accepts v = parts.all (·.accepts v) := by
  rw [conjunction, accepts_foldl_both, accepts, Bool.true_and]

mutual

/-- A value satisfies a constraint if it satisfies all parts that matter for its type. -/
theorem accepts_of_conjuncts {type : Option ValueType} {v : Json Binary64}
    (hv : ∀ t, type = some t → v.type = t) : ∀ c : Constraint,
    c.accepts v = (c.conjuncts type).any fun parts => parts.all (·.accepts v)
  | .valid | .invalid => by simp [conjuncts, accepts]
  | .allOf parts => by
    rw [accepts_allOf, conjuncts]
    exact accepts_of_conjunctsOf hv parts
  | .switch arms => by
    cases type with
    | none => simp [conjuncts]
    | some t =>
      obtain rfl := hv t rfl
      rw [accepts, conjuncts]
      exact accepts_of_conjuncts hv (arms v.type)
  | .anyOf _ | .oneOf _ | .not _ => by
    rw [conjuncts_of_isCombinator rfl]
    simp
  | .numRange _ | .integer | .multipleOf _ | .length _ | .pattern _ | .properties .. | .propertyCount _
  | .required _ | .items .. | .itemCount _ | .uniqueItems | .contains _ => by
    rw [conjuncts_of_leafType rfl]
    split
    · next h =>
      obtain ⟨t, rfl, hne⟩ := h
      rw [accepts_of_leafType rfl (by rw [hv t rfl]; exact hne)]
      rfl
    · simp

theorem accepts_of_conjunctsOf {type : Option ValueType} {v : Json Binary64}
    (hv : ∀ t, type = some t → v.type = t) : ∀ list : List Constraint,
    list.all (·.accepts v) = (conjunctsOf type list).any fun parts => parts.all (·.accepts v)
  | [] => by simp [conjunctsOf]
  | c :: list => by
    rw [List.all_cons, accepts_of_conjuncts hv c, accepts_of_conjunctsOf hv list, conjunctsOf]
    cases c.conjuncts type <;> cases conjunctsOf type list <;> simp

end

/-! ## Items -/

omit [Regex.Engine] in
theorem length_le_foldl_max (all : List (List Constraint × Constraint)) (n : Nat) :
    n ≤ all.foldl (fun n (tuple, _) => max n tuple.length) n ∧
      ∀ i ∈ all, i.1.length ≤ all.foldl (fun n (tuple, _) => max n tuple.length) n := by
  induction all generalizing n with
  | nil => simp
  | cons first rest ih =>
    obtain ⟨hn, hrest⟩ := ih (max n first.1.length)
    refine ⟨Nat.le_trans (Nat.le_max_left ..) hn, List.forall_mem_cons.2 ⟨?_, hrest⟩⟩
    exact Nat.le_trans (Nat.le_max_right ..) hn

theorem accepts_mergeItems (all : List (List Constraint × Constraint)) (i : Nat) (v : Json Binary64) :
    ((mergeItems all).1[i]?.getD (mergeItems all).2).accepts v =
      all.all fun node => (node.1[i]?.getD node.2).accepts v := by
  rw [mergeItems, List.getElem?_map]
  rcases Nat.lt_or_ge i (all.foldl (fun n (tuple, _) => max n tuple.length) 0) with h | h
  · rw [List.getElem?_range h]
    simp [accepts_conjunction, List.all_map, Function.comp_def]
  · -- Behind the longest tuple every node has only its constraint for the items behind.
    rw [List.getElem?_eq_none_iff.2 (by simpa using h)]
    simp only [Option.map_none, Option.getD_none, accepts_conjunction, List.all_map, Function.comp_def]
    rw [Bool.eq_iff_iff, List.all_eq_true, List.all_eq_true]
    refine forall₂_congr fun node hnode => ?_
    rw [List.getElem?_eq_none_iff.2 (Nat.le_trans ((length_le_foldl_max all 0).2 node hnode) h)]
    rfl

/-- Rewriting conjunctions keeps their meaning. A value satisfies a constraint exactly if there are parts, for
values of its type or for all values, and it satisfies each of them; the parts for values of a type are choices
and leaves of that type, and no part is a constant or a conjunction. The conjunction of parts asks for all of
them, and the merged entry of a place for the entries of all nodes in that place. -/
theorem accepts_rewritten (c : Constraint) (v : Json Binary64) (parts : List Constraint)
    (nodes : List (List Constraint × Constraint)) (i : Nat) :
    (c.accepts v = true ↔ ∃ parts, c.conjuncts (some v.type) = some parts ∧ ∀ part ∈ parts, part.accepts v = true) ∧
    (∀ type, c.conjuncts (some type) = some parts →
      ∀ part ∈ parts, part.isCombinator = true ∨ part.leafType = some type) ∧
    (c.accepts v = true ↔ ∃ parts, c.conjuncts none = some parts ∧ ∀ part ∈ parts, part.accepts v = true) ∧
    (c.conjuncts none = some parts → ∀ part ∈ parts, part ≠ .valid ∧ part ≠ .invalid ∧ ∀ list, part ≠ .allOf list) ∧
    ((conjunction parts).accepts v = true ↔ ∀ part ∈ parts, part.accepts v = true) ∧
    (((mergeItems nodes).1[i]?.getD (mergeItems nodes).2).accepts v = true ↔
      ∀ node ∈ nodes, (node.1[i]?.getD node.2).accepts v = true) := by
  refine ⟨?_, fun type h part hpart => ?_, ?_, fun h part hpart => ?_, ?_, ?_⟩
  · rw [@accepts_of_conjuncts _ (some v.type) v fun t ht => Option.some.inj ht]
    simp [Option.any_eq_true]
  · rcases (part_of_mem_conjuncts (some type) c h part hpart).kind with h | ⟨leaf, h, hleaf⟩ | ⟨h, -⟩
    · exact .inl h
    · rw [hleaf type rfl]
      exact .inr h
    · cases h
  · rw [@accepts_of_conjuncts _ none v (by simp)]
    simp [Option.any_eq_true]
  · rcases (part_of_mem_conjuncts none c h part hpart).kind with h | ⟨leaf, h, -⟩ | ⟨-, arms, rfl⟩
    · cases part <;> simp_all [isCombinator]
    · cases part <;> simp_all [leafType]
    · simp
  · rw [accepts_conjunction, List.all_eq_true]
  · rw [accepts_mergeItems, List.all_eq_true]

end Constraint

end JsonSieve
