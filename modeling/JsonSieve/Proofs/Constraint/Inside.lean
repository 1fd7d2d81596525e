import JsonSieve.Tree.Lower

/-!
# The constraints inside a constraint

The frame of a constraint leaves some constraints to frames of their own: the parts of its choices, and
what it asks of members and items. `Constraint.inside` lists them. They weigh less than the constraint, and
what holds of every leaf of the constraint holds of every leaf of theirs (`below_of_mem_inside`).
-/

namespace JsonSieve.Constraint

/-! ## What holds of every leaf -/

section

variable (q : Constraint → Prop)

mutual

/-- Does something hold of every leaf of a constraint, at any depth? -/
def Every : Constraint → Prop
  | .valid | .invalid => True
  | .allOf parts | .anyOf parts | .oneOf parts => EveryPart parts
  | .not part => part.Every
  | .switch arms => ∀ t, (arms t).Every
  | .properties rules additional =>
    q (.properties rules additional) ∧ EveryRule rules ∧ additional.Every
  | .items tuple additional => q (.items tuple additional) ∧ EveryPart tuple ∧ additional.Every
  | .contains part => q (.contains part) ∧ part.Every
  | .numRange range => q (.numRange range)
  | .integer => q .integer
  | .multipleOf divisor => q (.multipleOf divisor)
  | .length range => q (.length range)
  | .pattern source => q (.pattern source)
  | .propertyCount range => q (.propertyCount range)
  | .required names => q (.required names)
  | .itemCount range => q (.itemCount range)
  | .uniqueItems => q .uniqueItems

def EveryPart : List Constraint → Prop
  | [] => True
  | part :: parts => part.Every ∧ EveryPart parts

def EveryRule : List (NamePattern × Constraint) → Prop
  | [] => True
  | (_, part) :: rules => part.Every ∧ EveryRule rules

end

variable {q}

mutual

theorem every_of_forall (h : ∀ c, q c) (c : Constraint) : c.Every q := by
  cases c with
  | valid | invalid => simp [Every]
  | allOf parts | anyOf parts | oneOf parts => exact everyPart_of_forall h parts
  | not part => exact every_of_forall h part
  | switch arms => exact fun t => every_of_forall h (arms t)
  | properties rules additional => exact ⟨h _, everyRule_of_forall h rules, every_of_forall h additional⟩
  | items tuple additional => exact ⟨h _, everyPart_of_forall h tuple, every_of_forall h additional⟩
  | contains part => exact ⟨h _, every_of_forall h part⟩
  | _ => exact h _

theorem everyPart_of_forall (h : ∀ c, q c) (parts : List Constraint) : EveryPart q parts := by
  cases parts with
  | nil => trivial
  | cons part parts => exact ⟨every_of_forall h part, everyPart_of_forall h parts⟩

theorem everyRule_of_forall (h : ∀ c, q c) (rules : List (NamePattern × Constraint)) : EveryRule q rules := by
  cases rules with
  | nil => trivial
  | cons rule rules => exact ⟨every_of_forall h rule.2, everyRule_of_forall h rules⟩

end

variable {parts : List Constraint}

theorem everyPart_iff : EveryPart q parts ↔ ∀ part ∈ parts, part.Every q := by
  induction parts with
  | nil => simp [EveryPart]
  | cons part parts ih => simp [EveryPart, ih]

theorem everyRule_iff {rules : List (NamePattern × Constraint)} :
    EveryRule q rules ↔ ∀ rule ∈ rules, rule.2.Every q := by
  induction rules with
  | nil => simp [EveryRule]
  | cons rule rules ih => simp [EveryRule, ih]

theorem every_both {a b : Constraint} (ha : a.Every q) (hb : b.Every q) : (both a b).Every q := by
  unfold both
  split
  · exact hb
  · exact ha
  · rw [Every, everyPart_iff] at ha hb ⊢
    intro part hpart
    exact (List.mem_append.1 hpart).elim (ha part) (hb part)
  · rw [Every, everyPart_iff] at ha ⊢
    intro part hpart
    rcases List.mem_append.1 hpart with hpart | hpart
    · exact ha part hpart
    · rw [List.mem_singleton.1 hpart]
      exact hb
  · rw [Every, everyPart_iff]
    simp [ha, hb]

theorem every_foldl_both {c : Constraint} (hc : c.Every q)
    (h : ∀ part ∈ parts, part.Every q) : (parts.foldl both c).Every q := by
  induction parts generalizing c with
  | nil => exact hc
  | cons part parts ih =>
    exact ih (every_both hc (h part (.head _))) fun p hp => h p (List.mem_cons_of_mem part hp)

theorem every_conjunction (h : ∀ part ∈ parts, part.Every q) : (conjunction parts).Every q :=
  every_foldl_both (show Every q .valid by simp [Every]) h

theorem every_only {type : ValueType} {c : Constraint} (h : c.Every q) : (only type c).Every q := by
  intro t
  show (if t = type then c else .invalid).Every q
  split
  · exact h
  · simp [Every]

end

/-! ## Parts of a conjunction -/

variable {c d : Constraint} {q : Constraint → Prop} {l : ObjectLeaves} {leaves : List Constraint}

theorem conjuncts_of_isCombinator (h : c.isCombinator = true)
    (type : Option ValueType) : c.conjuncts type = some [c] := by
  cases c <;> simp_all [isCombinator, conjuncts, leafType]

theorem conjuncts_of_leafType {leaf : ValueType} (h : c.leafType = some leaf) (type : Option ValueType) :
    c.conjuncts type = if ∃ t, type = some t ∧ t ≠ leaf then some [] else some [c] := by
  cases type with
  | none => cases c <;> simp_all [leafType, conjuncts]
  | some t =>
    by_cases ht : t = leaf <;> cases c <;> simp_all [leafType, conjuncts]

/-- Is a constraint a part of another one? With a type given, a part that matters for values of that
type. -/
inductive Part (type : Option ValueType) (part : Constraint) : Constraint → Prop where
  | choice (h : part.isCombinator = true) : Part type part part
  | leaf {leaf : ValueType} (h : part.leafType = some leaf) (htype : ∀ t, type = some t → t = leaf) :
    Part type part part
  | switch (htype : type = none) {arms : ValueType → Constraint} (h : part = .switch arms) :
    Part type part part
  | all {c : Constraint} {parts : List Constraint} (hc : c ∈ parts) (h : Part type part c) :
    Part type part (.allOf parts)
  | arm {t : ValueType} {arms : ValueType → Constraint} (htype : type = some t)
    (h : Part type part (arms t)) : Part type part (.switch arms)

mutual

theorem part_of_mem_conjuncts (type : Option ValueType) (c : Constraint) {parts : List Constraint}
    (h : c.conjuncts type = some parts) : ∀ part ∈ parts, Part type part c := by
  cases c with
  | valid | invalid => simp_all [conjuncts]
  | allOf list =>
    rw [conjuncts] at h
    intro part hpart
    obtain ⟨c, hc, hpart⟩ := part_of_mem_conjunctsOf type list h part hpart
    exact .all hc hpart
  | switch arms =>
    cases type with
    | none =>
      simp only [conjuncts, Option.some.injEq] at h
      rw [← h]
      simpa using Part.switch rfl rfl
    | some t =>
      simp only [conjuncts] at h
      exact fun part hpart => .arm rfl (part_of_mem_conjuncts (some t) (arms t) h part hpart)
  | anyOf | oneOf | not =>
    rw [conjuncts_of_isCombinator rfl] at h
    cases h
    simpa using Part.choice rfl
  | _ =>
    rw [conjuncts_of_leafType rfl] at h
    split at h <;> cases h
    · simp
    · next htype =>
      simpa using Part.leaf rfl fun t ht => Decidable.of_not_not fun hne => htype ⟨t, ht, hne⟩

theorem part_of_mem_conjunctsOf (type : Option ValueType) :
    ∀ (list : List Constraint) {parts : List Constraint}, conjunctsOf type list = some parts →
      ∀ part ∈ parts, ∃ c ∈ list, Part type part c
  | [], parts, h => by simp_all [conjunctsOf]
  | c :: list, parts, h => by
    rw [conjunctsOf] at h
    split at h
    · next a b ha hb =>
      cases h
      intro part hpart
      rcases List.mem_append.1 hpart with hpart | hpart
      · exact ⟨c, List.mem_cons_self .., part_of_mem_conjuncts type c ha part hpart⟩
      · obtain ⟨d, hd, hpart⟩ := part_of_mem_conjunctsOf type list hb part hpart
        exact ⟨d, List.mem_cons_of_mem c hd, hpart⟩
    · cases h

end

variable {type : Option ValueType} {applies : NamePattern → Bool}
  {all : List (List Constraint × Constraint)}

theorem Part.every {part : Constraint} (h : Part type part c) (hc : c.Every q) : part.Every q := by
  induction h with
  | choice | leaf | switch => exact hc
  | all hmem _ ih =>
    rw [Every, everyPart_iff] at hc
    exact ih (hc _ hmem)
  | arm _ _ ih => exact ih (hc _)

theorem Part.kind {part : Constraint} (h : Part type part c) :
    part.isCombinator = true ∨ (∃ leaf, part.leafType = some leaf ∧ ∀ t, type = some t → t = leaf) ∨
      type = none ∧ ∃ arms, part = .switch arms := by
  induction h with
  | choice h => exact .inl h
  | leaf h htype => exact .inr (.inl ⟨_, h, htype⟩)
  | switch htype h => exact .inr (.inr ⟨htype, _, h⟩)
  | all _ _ ih => exact ih
  | arm _ _ ih => exact ih

/-! ## Weights -/

theorem weights_append (a b : List Constraint) : weights (a ++ b) = weights a + weights b := by
  induction a with
  | nil => simp [weights]
  | cons c a ih => simp [weights, ih, Nat.add_assoc]

theorem weight_le_weights {list : List Constraint} (h : c ∈ list) : c.weight ≤ weights list := by
  induction list with
  | nil => cases h
  | cons d list ih =>
    rw [weights]
    rcases List.mem_cons.1 h with rfl | h
    · omega
    · have := ih h
      omega

theorem weight_arm_lt (arms : ValueType → Constraint) (t : ValueType) : (arms t).weight < (switch arms).weight := by
  rw [weight]
  cases t <;> omega

theorem weight_both (a b : Constraint) : (both a b).weight = a.weight + b.weight := by
  unfold both
  split <;> simp [weight, weights, weights_append]

theorem weight_foldl_both (parts : List Constraint) (c : Constraint) :
    (parts.foldl both c).weight = c.weight + weights parts := by
  induction parts generalizing c with
  | nil => simp [weights]
  | cons part parts ih => simp [ih, weight_both, weights, Nat.add_assoc]

theorem weight_conjunction (parts : List Constraint) : (conjunction parts).weight = weights parts := by
  simp [conjunction, weight_foldl_both, weight]

theorem weight_only (type : ValueType) (c : Constraint) : (only type c).weight = 1 + c.weight := by
  cases type <;> simp [only, weight]

mutual

theorem weights_conjuncts_le (type : Option ValueType) (c : Constraint) {parts : List Constraint}
    (h : c.conjuncts type = some parts) : weights parts ≤ c.weight := by
  cases c with
  | valid | invalid => simp_all [conjuncts, weights]
  | allOf list =>
    rw [conjuncts] at h
    exact weights_conjunctsOf_le type list h
  | switch arms =>
    cases type with
    | none =>
      simp only [conjuncts, Option.some.injEq] at h
      simp [← h, weights]
    | some t =>
      simp only [conjuncts] at h
      exact Nat.le_trans (weights_conjuncts_le (some t) (arms t) h) (Nat.le_of_lt (weight_arm_lt arms t))
  | anyOf | oneOf | not =>
    rw [conjuncts_of_isCombinator rfl] at h
    cases h
    simp [weights]
  | _ =>
    rw [conjuncts_of_leafType rfl] at h
    split at h <;> cases h <;> simp [weights]

theorem weights_conjunctsOf_le (type : Option ValueType) :
    ∀ (list : List Constraint) {parts : List Constraint}, conjunctsOf type list = some parts →
      weights parts ≤ weights list
  | [], parts, h => by simp_all [conjunctsOf]
  | c :: list, parts, h => by
    rw [conjunctsOf] at h
    split at h
    · next a b ha hb =>
      cases h
      rw [weights_append, weights]
      exact Nat.add_le_add (weights_conjuncts_le type c ha) (weights_conjunctsOf_le type list hb)
    · cases h

end

/-! ## Outlines -/

/-- What a part asks of the values of a type, choices not counted. -/
def armFor (type : ValueType) : Constraint → Constraint
  | .switch arms => arms type
  | c => if c.leafType = some type then c else .valid

theorem weight_armFor_le (type : ValueType) (c : Constraint) : (armFor type c).weight ≤ c.weight := by
  cases c with
  | switch arms => exact Nat.le_of_lt (weight_arm_lt arms type)
  | _ =>
    simp only [armFor]
    split
    · exact Nat.le_refl _
    · exact Nat.zero_le _

theorem every_armFor (type : ValueType) (h : c.Every q) : (armFor type c).Every q := by
  cases c with
  | switch arms => exact h type
  | _ =>
    simp only [armFor]
    split
    · exact h
    · simp [Every]

theorem both_valid (c : Constraint) : both c .valid = c := by
  cases c <;> rfl

namespace Outline

def armAt (o : Outline) (type : ValueType) : Constraint := (o.arms.getD fun _ => .valid) type

theorem armAt_add (o : Outline) (part : Constraint) (type : ValueType) :
    (o.add part).armAt type = both (o.armAt type) (armFor type part) := by
  cases part with
  | switch arms => rfl
  | valid | invalid | allOf | anyOf | oneOf | not => exact (both_valid _).symm
  | _ =>
    show (if type = _ then both (o.armAt type) _ else o.armAt type) = _
    simp only [armFor, leafType, Option.some.injEq]
    split
    · next h => rw [if_pos h.symm]
    · next h => rw [if_neg (Ne.symm h), both_valid]

theorem armAt_foldl (parts : List Constraint) (o : Outline) (type : ValueType) :
    (parts.foldl add o).armAt type = (parts.map (armFor type)).foldl both (o.armAt type) := by
  induction parts generalizing o with
  | nil => rfl
  | cons part parts ih => rw [List.foldl_cons, ih, armAt_add, List.map_cons, List.foldl_cons]

theorem armAt_ofParts (parts : List Constraint) (type : ValueType) :
    (ofParts parts).armAt type = conjunction (parts.map (armFor type)) :=
  armAt_foldl parts {} type

theorem choices_add (o : Outline) (part : Constraint) : (o.add part).choices = o.choices ++ part.choice?.toList := by
  cases part <;> simp [add, addArms, addLeaf, choice?, leafType]

theorem choices_foldl (parts : List Constraint) (o : Outline) :
    (parts.foldl add o).choices = o.choices ++ parts.filterMap choice? := by
  induction parts generalizing o with
  | nil => simp
  | cons part parts ih =>
    rw [List.foldl_cons, ih, choices_add, List.append_assoc, List.filterMap_cons]
    cases part.choice? <;> simp

theorem choices_ofParts (parts : List Constraint) : (ofParts parts).choices = parts.filterMap choice? := by
  rw [ofParts, choices_foldl]
  rfl

end Outline

theorem weight_of_choice {choice : Choice} (h : c.choice? = some choice) : c.weight = 2 + weights choice.parts := by
  cases c <;> simp_all [choice?] <;> rw [← h] <;> simp [weight, weights]

theorem every_of_choice {choice : Choice}
    (h : c.choice? = some choice) (hc : c.Every q) : ∀ part ∈ choice.parts, part.Every q := by
  cases c <;> simp_all [choice?] <;> rw [← h] <;> simpa [Every, everyPart_iff] using hc

/-! ## Inside -/

/-- The constraint of a coming value, if it is left to a frame. -/
def aside (c : Constraint) : List Constraint :=
  match c.conjuncts none with
  | some (_ :: _) => [c]
  | _ => []

namespace ObjectLeaves

/-- What is asked of a member whose name matches just the patterns that apply. -/
def asideFor (l : ObjectLeaves) (applies : NamePattern → Bool) : List Constraint :=
  (conjunction (l.applying applies)).aside

def rulesOf (l : ObjectLeaves) (expression : NamePattern) : List (NamePattern × Constraint) :=
  l.groups.flatMap fun (rules, _) => rules.filter fun (p, _) => p = expression

/-- What is asked of a member whose name may match any number of expressions. -/
def asideMixed (l : ObjectLeaves) (expressions : List NamePattern) : List Constraint :=
  l.groups.flatMap (fun group => group.2.aside) ++
    expressions.flatMap fun e => (conjunction ((l.rulesOf e).map (·.2))).aside

def expressions (l : ObjectLeaves) : List NamePattern := l.patterns.filter isExpression

def inside [Regex.Engine] (l : ObjectLeaves) : List Constraint :=
  if l.patterns.isEmpty then l.asideFor fun _ => false
  else
    match Matcher.build l.patterns with
    | .error _ => []
    | .ok m => m.cases.flatMap (fun set => l.asideFor (m.patternsAt set).contains) ++
      if 1 < l.expressions.length then l.asideMixed l.expressions
      else l.asideFor fun _ => false

end ObjectLeaves

def ArrayLeaves.inside (l : ArrayLeaves) : List Constraint :=
  l.contains ++ (mergeItems l.items).2.aside ++ (mergeItems l.items).1.flatMap aside

def leavesInside [Regex.Engine] (leaves : List Constraint) : ValueType → List Constraint
  | .object => (ObjectLeaves.of leaves).inside
  | .array => (ArrayLeaves.of leaves).inside
  | _ => []

def armInside [Regex.Engine] (type : ValueType) (parts : List Constraint) : List Constraint :=
  (parts.filterMap choice?).flatMap (fun choice => choice.parts.map (only type)) ++
    leavesInside (parts.filter fun c => !c.isCombinator) type

/-- The constraints that the frame of a constraint leaves to frames of their own. -/
def inside [Regex.Engine] (c : Constraint) : List Constraint :=
  match c.conjuncts none with
  | none => []
  | some parts =>
    (parts.filterMap choice?).flatMap (·.parts) ++ ValueType.all.flatMap fun type =>
        match ((Outline.ofParts parts).armAt type).conjuncts (some type) with
        | none => []
        | some parts => armInside type parts

theorem mem_aside (h : d ∈ c.aside) : d = c ∧ ∃ part parts, c.conjuncts none = some (part :: parts) := by
  unfold aside at h
  split at h
  · next part parts hparts => exact ⟨List.mem_singleton.1 h, part, parts, hparts⟩
  · cases h

theorem weights_le_of_sublist {a b : List Constraint} (h : a.Sublist b) : weights a ≤ weights b := by
  induction h with
  | slnil => exact Nat.le_refl _
  | cons c _ ih =>
    rw [weights]
    omega
  | cons_cons c _ ih =>
    rw [weights, weights]
    omega

theorem filterMap_sublist {α β : Type} {f : α → Option β} {g : β → α}
    (h : ∀ a b, f a = some b → g b = a) (list : List α) : ((list.filterMap f).map g).Sublist list := by
  induction list with
  | nil => exact .slnil
  | cons a list ih =>
    cases ha : f a with
    | none => simpa [ha] using ih.cons a
    | some b => simpa [ha, h a b ha] using ih

theorem groups_sublist (leaves : List Constraint) :
    ((ObjectLeaves.of leaves).groups.map fun g => properties g.1 g.2).Sublist leaves := by
  refine filterMap_sublist ?_ leaves
  intro c g hg
  cases c <;> cases hg
  rfl

theorem items_sublist (leaves : List Constraint) :
    ((ArrayLeaves.of leaves).items.map fun i => items i.1 i.2).Sublist leaves := by
  refine filterMap_sublist ?_ leaves
  intro c g hg
  cases c <;> cases hg
  rfl

theorem contains_sublist (leaves : List Constraint) :
    ((ArrayLeaves.of leaves).contains.map contains).Sublist leaves := by
  refine filterMap_sublist ?_ leaves
  intro c g hg
  cases c <;> cases hg
  rfl

theorem ruleWeights_filter_le (rules : List (NamePattern × Constraint)) (keep : NamePattern × Constraint → Bool) :
    weights ((rules.filter keep).map (·.2)) ≤ ruleWeights rules := by
  induction rules with
  | nil => simp [weights, ruleWeights]
  | cons rule rules ih =>
    obtain ⟨p, c⟩ := rule
    rw [ruleWeights, List.filter_cons]
    split
    · rw [List.map_cons, weights]
      exact Nat.add_le_add_left ih c.weight
    · omega

theorem weights_flatMap_le (groups : List (List (NamePattern × Constraint) × Constraint))
    {taken : List (NamePattern × Constraint) × Constraint → List Constraint}
    (h : ∀ g, weights (taken g) < (properties g.1 g.2).weight) :
    weights (groups.flatMap taken) + groups.length ≤
      weights (groups.map fun g => properties g.1 g.2) := by
  induction groups with
  | nil => simp [weights]
  | cons group groups ih =>
    have hgroup := h group
    rw [List.flatMap_cons, weights_append, List.map_cons, weights, List.length_cons]
    omega

theorem weights_applying_le (l : ObjectLeaves) (applies : NamePattern → Bool) :
    weights (l.applying applies) + l.groups.length ≤
      weights (l.groups.map fun g => properties g.1 g.2) := by
  refine weights_flatMap_le l.groups fun g => ?_
  have hrules := ruleWeights_filter_le g.1 fun rule => applies rule.1
  rw [weight]
  dsimp only at hrules ⊢
  split
  · simp only [weights]
    omega
  · omega

theorem weights_rulesOf_le (l : ObjectLeaves) (expression : NamePattern) :
    weights ((l.rulesOf expression).map (·.2)) + l.groups.length ≤
      weights (l.groups.map fun g => properties g.1 g.2) := by
  rw [ObjectLeaves.rulesOf, List.map_flatMap]
  refine weights_flatMap_le l.groups fun g => ?_
  have hrules := ruleWeights_filter_le g.1 fun rule => rule.1 = expression
  rw [weight]
  dsimp only at hrules ⊢
  omega

theorem applying_eq_nil (h : l.groups = []) (applies : NamePattern → Bool) : l.applying applies = [] := by
  rw [ObjectLeaves.applying, h, List.flatMap_nil]

theorem rulesOf_eq_nil (h : l.groups = []) (expression : NamePattern) : l.rulesOf expression = [] := by
  rw [ObjectLeaves.rulesOf, h, List.flatMap_nil]

theorem groups_length_pos (h : d ∈ l.asideFor applies) : 0 < l.groups.length := by
  cases hgroups : l.groups with
  | nil =>
    rw [ObjectLeaves.asideFor, applying_eq_nil hgroups] at h
    cases h
  | cons => exact Nat.succ_pos _

theorem every_group (h : ∀ c ∈ leaves, c.Every q) {rules : List (NamePattern × Constraint)}
    {additional : Constraint} (hgroup : (rules, additional) ∈ (ObjectLeaves.of leaves).groups) :
    (∀ rule ∈ rules, rule.2.Every q) ∧ additional.Every q := by
  have hmem := (groups_sublist leaves).subset (List.mem_map_of_mem (f := fun g => properties g.1 g.2) hgroup)
  obtain ⟨-, hrules, hadditional⟩ := h _ hmem
  exact ⟨everyRule_iff.1 hrules, hadditional⟩

/-- A constraint that weighs less than some others, and what holds of every leaf of theirs holds of its own. -/
def Below (list : List Constraint) (d : Constraint) : Prop :=
  d.weight < weights list ∧ ∀ q, (∀ c ∈ list, c.Every q) → d.Every q

theorem below_of_mem_asideFor (h : d ∈ (ObjectLeaves.of leaves).asideFor applies) : Below leaves d := by
  have hpos := groups_length_pos h
  obtain ⟨rfl, -⟩ := mem_aside h
  refine ⟨?_, fun q hall => every_conjunction fun part hpart => ?_⟩
  · have hle := weights_applying_le (ObjectLeaves.of leaves) applies
    have hleaves := weights_le_of_sublist (groups_sublist leaves)
    rw [weight_conjunction]
    omega
  · obtain ⟨⟨rules, additional⟩, hgroup, hpart⟩ := List.mem_flatMap.1 hpart
    obtain ⟨hrules, hadditional⟩ := every_group hall hgroup
    dsimp only at hpart
    split at hpart
    · rw [List.mem_singleton.1 hpart]
      exact hadditional
    · obtain ⟨rule, hrule, rfl⟩ := List.mem_map.1 hpart
      exact hrules rule (List.mem_filter.1 hrule).1

theorem below_of_mem_asideMixed {expressions : List NamePattern}
    (h : d ∈ (ObjectLeaves.of leaves).asideMixed expressions) : Below leaves d := by
  have hleaves := weights_le_of_sublist (groups_sublist leaves)
  rcases List.mem_append.1 h with h | h
  · obtain ⟨group, hgroup, h⟩ := List.mem_flatMap.1 h
    obtain ⟨rfl, -⟩ := mem_aside h
    refine ⟨?_, fun q hall => (every_group hall hgroup).2⟩
    have hle := weight_le_weights (List.mem_map_of_mem (f := fun g => properties g.1 g.2) hgroup)
    rw [weight] at hle
    omega
  · obtain ⟨e, -, h⟩ := List.mem_flatMap.1 h
    have hpos : 0 < (ObjectLeaves.of leaves).groups.length := by
      cases hgroups : (ObjectLeaves.of leaves).groups with
      | nil =>
        rw [rulesOf_eq_nil hgroups] at h
        cases h
      | cons => exact Nat.succ_pos _
    obtain ⟨rfl, -⟩ := mem_aside h
    refine ⟨?_, fun q hall => every_conjunction fun part hpart => ?_⟩
    · have hle := weights_rulesOf_le (ObjectLeaves.of leaves) e
      rw [weight_conjunction]
      omega
    · obtain ⟨rule, hrule, rfl⟩ := List.mem_map.1 hpart
      obtain ⟨group, hgroup, hrule⟩ := List.mem_flatMap.1 hrule
      exact (every_group hall hgroup).1 rule (List.mem_filter.1 hrule).1

theorem weights_entry_le (pick : List Constraint × Constraint → Constraint)
    (hpick : ∀ tuple additional, (pick (tuple, additional)).weight ≤ weights tuple + additional.weight)
    (all : List (List Constraint × Constraint)) :
    weights (all.map pick) + all.length ≤ weights (all.map fun i => items i.1 i.2) := by
  induction all with
  | nil => simp [weights]
  | cons item all ih =>
    obtain ⟨tuple, additional⟩ := item
    have hle := hpick tuple additional
    rw [List.map_cons, weights, List.map_cons, weights, weight, List.length_cons]
    dsimp only
    omega

theorem weight_getD_le (tuple : List Constraint) (additional : Constraint) (i : Nat) :
    (tuple[i]?.getD additional).weight ≤ weights tuple + additional.weight := by
  cases h : tuple[i]? with
  | none => simp
  | some entry =>
    have hle := weight_le_weights (List.mem_of_getElem? h)
    simp only [Option.getD_some]
    omega

theorem mem_mergeItems (h : c ∈ (mergeItems all).1 ∨ c = (mergeItems all).2) : c = conjunction (all.map (·.2)) ∨
      ∃ i : Nat, c = conjunction (all.map fun (tuple, additional) => tuple[i]?.getD additional) := by
  rcases h with h | h
  · obtain ⟨i, -, rfl⟩ := List.mem_map.1 h
    exact .inr ⟨i, rfl⟩
  · exact .inl h

theorem every_items (h : ∀ c ∈ leaves, c.Every q) :
    ∀ i ∈ (ArrayLeaves.of leaves).items, (∀ c ∈ i.1, c.Every q) ∧ i.2.Every q := by
  intro i hi
  have hmem := (items_sublist leaves).subset (List.mem_map_of_mem (f := fun i => items i.1 i.2) hi)
  obtain ⟨-, htuple, hadditional⟩ := h _ hmem
  exact ⟨everyPart_iff.1 htuple, hadditional⟩

theorem below_of_mem_items (hc : c ∈ (mergeItems (ArrayLeaves.of leaves).items).1 ∨
    c = (mergeItems (ArrayLeaves.of leaves).items).2) (h : d ∈ c.aside) : Below leaves d := by
  have hleaves := weights_le_of_sublist (items_sublist leaves)
  have hpos : 0 < (ArrayLeaves.of leaves).items.length := by
    cases hitems : (ArrayLeaves.of leaves).items with
    | nil =>
      rw [hitems] at hc
      rcases mem_mergeItems hc with rfl | ⟨i, rfl⟩ <;> cases h
    | cons => exact Nat.succ_pos _
  obtain ⟨rfl, -⟩ := mem_aside h
  rcases mem_mergeItems hc with rfl | ⟨i, rfl⟩
  · refine ⟨?_, fun q hall => every_conjunction fun part hpart => ?_⟩
    · have hle := weights_entry_le (·.2) (fun tuple additional => Nat.le_add_left _ _) (ArrayLeaves.of leaves).items
      rw [weight_conjunction]
      omega
    · obtain ⟨item, hitem, rfl⟩ := List.mem_map.1 hpart
      exact (every_items hall item hitem).2
  · refine ⟨?_, fun q hall => every_conjunction fun part hpart => ?_⟩
    · have hle := weights_entry_le (fun (tuple, additional) => tuple[i]?.getD additional)
        (fun tuple additional => weight_getD_le tuple additional i) (ArrayLeaves.of leaves).items
      rw [weight_conjunction]
      omega
    · obtain ⟨⟨tuple, additional⟩, hitem, rfl⟩ := List.mem_map.1 hpart
      obtain ⟨htuple, hadditional⟩ := every_items hall _ hitem
      dsimp only
      cases hentry : tuple[i]? with
      | none => exact hadditional
      | some entry => exact htuple entry (List.mem_of_getElem? hentry)

theorem below_of_mem_leavesInside [Regex.Engine] {type : ValueType} (h : d ∈ leavesInside leaves type) :
    Below leaves d := by
  cases type with
  | object =>
    simp only [leavesInside, ObjectLeaves.inside] at h
    split at h
    · exact below_of_mem_asideFor h
    · split at h
      · cases h
      · rcases List.mem_append.1 h with h | h
        · obtain ⟨set, -, h⟩ := List.mem_flatMap.1 h
          exact below_of_mem_asideFor h
        · split at h
          · exact below_of_mem_asideMixed h
          · exact below_of_mem_asideFor h
  | array =>
    simp only [leavesInside, ArrayLeaves.inside, List.mem_append, List.mem_flatMap] at h
    rcases h with (h | h) | ⟨c, hc, h⟩
    · have hmem := List.mem_map_of_mem (f := contains) h
      refine ⟨?_, fun q hall => (hall _ ((contains_sublist leaves).subset hmem)).2⟩
      have hcontains := weights_le_of_sublist (contains_sublist leaves)
      have hle := weight_le_weights hmem
      rw [weight] at hle
      omega
    · exact below_of_mem_items (.inr rfl) h
    · exact below_of_mem_items (.inl hc) h
  | null | boolean | number | string => cases h

theorem below_of_mem_armInside [Regex.Engine] {type : ValueType} {parts : List Constraint}
    (h : d ∈ armInside type parts) : Below parts d := by
  rcases List.mem_append.1 h with h | h
  · obtain ⟨choice, hchoice, h⟩ := List.mem_flatMap.1 h
    obtain ⟨c, hc, rfl⟩ := List.mem_map.1 h
    obtain ⟨part, hpart, hpartChoice⟩ := List.mem_filterMap.1 hchoice
    refine ⟨?_, fun q hall => every_only (every_of_choice hpartChoice (hall part hpart) c hc)⟩
    have hle := weight_le_weights hpart
    have hcle := weight_le_weights hc
    rw [weight_of_choice hpartChoice] at hle
    rw [weight_only]
    omega
  · obtain ⟨hlt, hevery⟩ := below_of_mem_leavesInside h
    exact ⟨Nat.lt_of_lt_of_le hlt (weights_le_of_sublist List.filter_sublist),
      fun q hall => hevery q fun c hc => hall c (List.mem_filter.1 hc).1⟩

theorem weights_armFor_le (type : ValueType) (parts : List Constraint) :
    weights (parts.map (armFor type)) ≤ weights parts := by
  induction parts with
  | nil => exact Nat.le_refl _
  | cons part parts ih =>
    rw [List.map_cons, weights, weights]
    exact Nat.add_le_add (weight_armFor_le type part) ih

theorem every_armAt {parts : List Constraint} (h : c.Every q) (hparts : c.conjuncts none = some parts)
    (type : ValueType) : ((Outline.ofParts parts).armAt type).Every q := by
  rw [Outline.armAt_ofParts]
  refine every_conjunction fun arm harm => ?_
  obtain ⟨part, hpart, rfl⟩ := List.mem_map.1 harm
  exact every_armFor type ((part_of_mem_conjuncts none c hparts part hpart).every h)

/-- What is inside a constraint weighs less, and what holds of every leaf of the constraint holds of its
leaves. -/
theorem below_of_mem_inside [Regex.Engine] (h : d ∈ c.inside) : d.weight < c.weight ∧ ∀ q, c.Every q → d.Every q := by
  unfold inside at h
  split at h
  · cases h
  · next parts hparts =>
    have hle := weights_conjuncts_le none c hparts
    rcases List.mem_append.1 h with h | h
    · obtain ⟨choice, hchoice, hd⟩ := List.mem_flatMap.1 h
      obtain ⟨part, hpart, hpartChoice⟩ := List.mem_filterMap.1 hchoice
      refine ⟨?_, fun q hc => every_of_choice hpartChoice
        ((part_of_mem_conjuncts none c hparts part hpart).every hc) d hd⟩
      have hple := weight_le_weights hpart
      have hdle := weight_le_weights hd
      rw [weight_of_choice hpartChoice] at hple
      omega
    · obtain ⟨type, -, h⟩ := List.mem_flatMap.1 h
      split at h
      · cases h
      · next armParts harm =>
        obtain ⟨hlt, harmEvery⟩ := below_of_mem_armInside h
        refine ⟨?_, fun q hc => harmEvery q fun part hpart => ?_⟩
        · have harmLe := weights_conjuncts_le (some type) _ harm
          rw [Outline.armAt_ofParts, weight_conjunction] at harmLe
          have hpartsLe := weights_armFor_le type parts
          omega
        · exact (part_of_mem_conjuncts (some type) _ harm part hpart).every (every_armAt hc hparts type)

end JsonSieve.Constraint
