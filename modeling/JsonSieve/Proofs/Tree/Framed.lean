import JsonSieve.Proofs.Tree.Lowered

/-!
# The statements of frames

The statements of the frame of a constraint are legal if the counts of the leaves fit a word: what they name
is declared, and the counts with which they compare can be written. The body of the frame ends control, and
something stands behind a statement that ends control only where the constraint clashes (`Body.code`): an
object has several regular expressions, and one of its groups of rules has none and allows no other names.
Lowering fails only at a regular expression that cannot be read (`exists_frameWithin`).
-/

namespace JsonSieve

def Countable (n : Nat) : Prop := n < Nat.pow 2 63

/-- Counts that may be compared with: the small ones, and with a count all smaller ones. -/
structure Counting (fits : Nat → Prop) : Prop where
  small : ∀ n ≤ 64, fits n
  down : ∀ m n, m ≤ n → fits n → fits m

theorem counting_countable : Counting Countable where
  small _ h := Nat.lt_of_le_of_lt h (by decide)
  down _ _ h := Nat.lt_of_le_of_lt h

namespace Constraint

open Draft Legal

open Stmt (falls ordered allOrdered allSilent casesOrdered)

variable {α : Type}

theorem mem_right_of_forall₂ {β : Type} {R : α → β → Prop} {as : List α} {bs : List β}
    (h : List.Forall₂ R as bs) {b : β} (hb : b ∈ bs) : ∃ a ∈ as, R a b := by
  induction h with
  | nil => cases hb
  | cons hR _ ih =>
    rcases List.mem_cons.1 hb with rfl | hb
    · exact ⟨_, List.mem_cons_self .., hR⟩
    · obtain ⟨a, ha, hR⟩ := ih hb
      exact ⟨a, List.mem_cons_of_mem _ ha, hR⟩

section

variable {build : Constraint → Except BadPattern Stmt} {good : Constraint → Prop} {D : Draft}
  {fits : Nat → Prop}

variable {i mask : Nat} {c : Constraint} {s : Stmt} {list : List Stmt} {l : ObjectLeaves}
  {expressions : List NamePattern} {type : ValueType} {parts : List Constraint}

theorem Reserved.lt {base : Nat} {list : List α} (h : Reserved D base list) (hi : i < list.length) :
    (bitAt base i).1 < D.bitvecs := by
  have hpiece := chunked_getElem? list (i / bitvecWidth)
  rw [if_pos (Nat.lt_of_le_of_lt (Nat.mul_div_le i bitvecWidth) hi)] at hpiece
  exact Nat.lt_of_lt_of_le (Nat.add_lt_add_left (List.getElem?_eq_some_iff.1 hpiece).1 base) h

/-! ## Legal statements -/

/-- Statements that are legal over the declarations of a frame. -/
abbrev Legally (fits : Nat → Prop) (build : Constraint → Except BadPattern Stmt)
    (good : Constraint → Prop) (D : Draft) : Stmt → Prop :=
  Code D fits (Built build good)

/-- Control goes on behind the statement, and in it nothing stands behind an end of control. -/
def Smooth (s : Stmt) : Prop := s.falls = true ∧ s.ordered = true

def Steady (fits : Nat → Prop) (build : Constraint → Except BadPattern Stmt) (good : Constraint → Prop)
    (D : Draft) (s : Stmt) : Prop :=
  Legally fits build good D s ∧ Smooth s

theorem rejectIf_steady {e : Expr} (h : Condition D fits e) (reason : Reason) :
    Steady fits build good D (.rejectIf e reason) :=
  ⟨.ite h (.invalid reason) .nop, by simp [Smooth, Stmt.rejectIf, falls, ordered]⟩

theorem Action.code {reject : Reason} (h : Action build c reject s)
    (hgood : ∀ e ∈ c.aside, good e) : Legally fits build good D s ∧ s.ordered = true := by
  cases h with
  | never => exact ⟨.invalid reject, by simp [ordered]⟩
  | always =>
    exact ⟨.seq (by simp [Code.token, Code.consume]), by simp [ordered, allOrdered, falls]⟩
  | run h hbuild => exact ⟨.frame ⟨c, hgood c h, hbuild⟩, by simp [ordered]⟩

theorem Ahead.code {reject : Reason} (h : Ahead build D c reject s)
    (hfits : Counting fits) (hgood : ∀ e ∈ c.aside, good e) :
    Legally fits build good D s := by
  cases h with
  | never => exact .invalid reject
  | always => exact .nop
  | run h hbuild hsplit =>
    refine .ite (.test (.words .eq (.split hsplit.1) (hfits.small _ (by decide)))) (.seq ?_) .nop
    have hframe : Legally fits build good D (.frame _) := .frame ⟨c, hgood c h, hbuild⟩
    simp [hframe, Code.invalid]

theorem Ahead.falls_iff {reject : Reason} (h : Ahead build D c reject s) :
    s.ordered = true ∧ (s.falls = false ↔ c.conjuncts none = none) := by
  cases h with
  | never h => simp [falls, ordered, h]
  | always h => simp [falls, ordered, h]
  | run h =>
    obtain ⟨-, part, parts, hparts⟩ := mem_aside h
    simp [falls, ordered, allOrdered, allSilent, hparts]

theorem Chooses.steady {type : Option ValueType} {choice : Choice} (h : Chooses build D type choice s)
    (hbound : fits choice.bound) : Steady fits build good D s := by
  obtain ⟨i, frames, -, hsplit, rfl⟩ := h
  exact rejectIf_steady (.not (.words _ (.split hsplit.1) hbound)) _

theorem bound_le {choice : Choice} (h : c.choice? = some choice) : choice.bound ≤ 64 := by
  cases c <;> cases h <;> simp

def CountsFit (fits : Nat → Prop) (range : CountRange) : Prop :=
  fits range.min ∧ ∀ max, range.max = some max → fits max

theorem countChecks_steady {value : Expr} (hvalue : Word D value) {range : CountRange}
    (hrange : CountsFit fits range) (short long : Reason) :
    ∀ s ∈ countChecks value range short long, Steady fits build good D s := by
  intro s hs
  rcases List.mem_append.1 hs with hs | hs
  · split at hs
    · cases hs
    · rw [List.mem_singleton.1 hs]
      exact rejectIf_steady (.test (.words .lt hvalue hrange.1)) short
  · split at hs
    · cases hs
    · next max hmax =>
      rw [List.mem_singleton.1 hs]
      exact rejectIf_steady (.test (.words .gt hvalue (hrange.2 max hmax))) long

theorem numberChecks_steady (c : Constraint) : ∀ s ∈ numberChecks c, Steady fits build good D s := by
  intro s hs
  cases c with
  | integer =>
    rw [List.mem_singleton.1 hs]
    exact rejectIf_steady (.not .isInteger) _
  | multipleOf d =>
    rw [List.mem_singleton.1 hs]
    exact rejectIf_steady (.not (.isMultiple d)) _
  | numRange range =>
    rcases List.mem_append.1 hs with hs | hs
    · split at hs
      · cases hs
      · rw [List.mem_singleton.1 hs]
        exact rejectIf_steady (.test (.reals _ _)) _
    · split at hs
      · cases hs
      · rw [List.mem_singleton.1 hs]
        exact rejectIf_steady (.test (.reals _ _)) _
  | _ => cases hs

def LeafCounts (fits : Nat → Prop) : Constraint → Prop
  | .length range | .propertyCount range | .itemCount range => CountsFit fits range
  | .items tuple _ => fits tuple.length
  | _ => True

theorem counting_true : Counting fun _ => True where
  small _ _ := trivial
  down _ _ _ _ := trivial

theorem leafCounts_true (c : Constraint) : LeafCounts (fun _ => True) c := by
  cases c <;> simp [LeafCounts, CountsFit]

theorem ChecksString.steady (h : ChecksString D c list) (hc : LeafCounts fits c) :
    ∀ s ∈ list, Steady fits build good D s := by
  cases c with
  | length range =>
    cases h
    exact countChecks_steady .length hc _ _
  | pattern source =>
    obtain ⟨id, hid, rfl⟩ := h
    intro s hs
    rw [List.mem_singleton.1 hs]
    refine ⟨.dispatch hid (fun c hc => ?_) (.invalid _), ?_⟩
    · rw [List.mem_singleton.1 hc]
      exact .nop
    · simp [Smooth, falls, Stmt.someFalls, ordered, casesOrdered]
  | _ =>
    cases h
    exact List.forall_mem_nil _

/-! ### Objects -/

theorem marks_steady (h : Reserved D mask l.required) (applies : NamePattern → Bool) :
    ∀ s ∈ marks l mask applies, Steady fits build good D s := by
  intro s hs
  obtain ⟨⟨name, i⟩, hi, rfl⟩ := List.mem_map.1 hs
  have hlt := (List.mem_zipIdx (List.mem_filter.1 hi).1).2.1
  exact ⟨.bitSet (h.lt (by simpa using hlt)) _, rfl, rfl⟩

theorem Member.code {applies : NamePattern → Bool}
    (h : Member build l mask applies s) (hmask : Reserved D mask l.required)
    (hgood : ∀ e ∈ l.asideFor applies, good e) :
    Legally fits build good D s ∧ s.ordered = true := by
  obtain ⟨action, haction, rfl⟩ := h
  have hmarks : ∀ s ∈ marks l mask applies, Steady fits build good D s := marks_steady hmask applies
  obtain ⟨hcode, hordered⟩ : Legally fits build good D action ∧ action.ordered = true := haction.code hgood
  refine ⟨.seq fun s hs => ?_, (ordered_snoc (fun s hs => (hmarks s hs).2) action).trans hordered⟩
  rcases List.mem_append.1 hs with hs | hs
  · exact (hmarks s hs).1
  · rw [List.mem_singleton.1 hs]
    exact hcode

theorem NameBits.steady (h : NameBits D mask i expressions list)
    (hbits : ∀ j < i + expressions.length, (bitAt mask j).1 < D.bitvecs) :
    ∀ s ∈ list, Steady fits build good D s := by
  induction h with
  | nil => exact List.forall_mem_nil _
  | @cons i id e rest others hid _ ih =>
    intro s hs
    have hbv := hbits i (by simp)
    rcases List.mem_cons.1 hs with rfl | hs
    · refine ⟨.dispatch hid (fun c hc => ?_) (.bitClear hbv _), ?_⟩
      · rw [List.mem_singleton.1 hc]
        exact .bitSet hbv _
      · simp [Smooth, falls, Stmt.someFalls, ordered, casesOrdered]
    · exact ih (fun j hj => hbits j (by rw [List.length_cons]; omega)) s hs

theorem anyOfThem_condition {bits : List Expr} (h : ∀ e ∈ bits, Condition D fits e)
    {e : Expr} (he : anyOfThem bits = some e) : Condition D fits e := by
  cases bits with
  | nil => cases he
  | cons first rest =>
    cases he
    have hfold : ∀ (rest : List Expr) (e : Expr), Condition D fits e →
        (∀ e ∈ rest, Condition D fits e) → Condition D fits (rest.foldl .or e) := by
      intro rest
      induction rest with
      | nil => exact fun e he _ => he
      | cons f rest ih =>
        intro e he h
        exact ih _ (.or he (h f (.head _))) fun f hf => h f (.tail _ hf)
    exact hfold rest first (h first (.head _)) fun f hf => h f (.tail _ hf)

theorem groupBits_condition (hbits : ∀ j < expressions.length, (bitAt mask j).1 < D.bitvecs)
    (rules : List (NamePattern × Constraint)) :
    ∀ e ∈ groupBits expressions mask rules, Condition D fits e := by
  intro e he
  obtain ⟨⟨p, c⟩, -, he⟩ := List.mem_filterMap.1 he
  obtain ⟨j, hj, rfl⟩ := Option.map_eq_some_iff.1 he
  exact .test (.bitTest (hbits j (List.findIdx?_eq_some_iff_findIdx_eq.1 hj).1) _)

theorem Additional.code {group : List (NamePattern × Constraint) × Constraint}
    (h : Additional build D expressions mask group list) (hfits : Counting fits)
    (hbits : ∀ j < expressions.length, (bitAt mask j).1 < D.bitvecs)
    (hgood : ∀ e ∈ group.2.aside, good e) : ∀ s ∈ list, Legally fits build good D s := by
  obtain ⟨check, hcheck, rfl⟩ := h
  have hcode : Legally fits build good D check := hcheck.code hfits hgood
  intro s hs
  unfold unlessApplies at hs
  split at hs
  · cases hs
  · split at hs
    · next applies happlies =>
      rw [List.mem_singleton.1 hs]
      exact .ite (anyOfThem_condition (groupBits_condition hbits group.1) happlies) .nop hcode
    · rw [List.mem_singleton.1 hs]
      exact hcode

theorem Rules.steady (h : Rules build D l mask i expressions list) (hfits : Counting fits)
    (hbits : ∀ j < i + expressions.length, (bitAt mask j).1 < D.bitvecs)
    (hgood : ∀ e ∈ expressions, ∀ c ∈ (conjunction ((l.rulesOf e).map (·.2))).aside, good c) :
    ∀ s ∈ list, Steady fits build good D s := by
  induction h with
  | nil => exact List.forall_mem_nil _
  | @cons i e rest check others hcheck _ ih =>
    intro s hs
    rcases List.mem_append.1 hs with hs | hs
    · unfold whenApplies at hs
      split at hs
      · cases hs
      · rw [List.mem_singleton.1 hs]
        refine ⟨.ite (.test (.bitTest (hbits i (by simp)) _)) (hcheck.code hfits (hgood e (.head _))) .nop, ?_⟩
        simp [Smooth, falls, ordered, hcheck.falls_iff.1]
    · exact ih (fun j hj => hbits j (by rw [List.length_cons]; omega)) (fun e he => hgood e (.tail _ he)) s hs

theorem allSilent_append (a b : List Stmt) : allSilent (a ++ b) = (allSilent a && allSilent b) := by
  induction a with
  | nil => rfl
  | cons s a ih => rw [List.cons_append, allSilent, allSilent, ih, Bool.and_assoc]

theorem groupBits_eq_nil_iff {group : List (NamePattern × Constraint) × Constraint} (hgroup : group ∈ l.groups) :
    groupBits l.expressions mask group.1 = [] ↔ ∀ rule ∈ group.1, isExpression rule.1 = false := by
  rw [groupBits, List.filterMap_eq_nil_iff]
  refine forall₂_congr fun rule hrule => ?_
  obtain ⟨p, c⟩ := rule
  rw [Option.map_eq_none_iff, List.findIdx?_eq_none_iff]
  have hmem : p ∈ l.patterns := by
    rw [ObjectLeaves.patterns, List.mem_eraseDups]
    exact List.mem_append_left _ (List.mem_flatMap.2 ⟨group, hgroup, List.mem_map_of_mem hrule⟩)
  constructor
  · intro h
    by_contra hp
    have := h p (List.mem_filter.2 ⟨hmem, by simpa using hp⟩)
    simp at this
  · intro h q hq
    rw [decide_eq_false_iff_not]
    rintro rfl
    rw [(List.mem_filter.1 hq).2] at h
    cases h

/-- A group of rules of an object without regular expressions allows no other names, though the object
has several of them. -/
def ObjectLeaves.Clashes (l : ObjectLeaves) : Prop :=
  1 < l.expressions.length ∧ ∃ group ∈ l.groups, group.2.conjuncts none = none ∧
    ∀ rule ∈ group.1, isExpression rule.1 = false

/-- The checks of the groups let control go on unless one of them has no expression and allows no other
names. -/
theorem additional_ordered {groups : List (List (NamePattern × Constraint) × Constraint)} {lists : List (List Stmt)}
    (h : List.Forall₂ (Additional build D l.expressions mask) groups lists)
    (hgroups : ∀ group ∈ groups, group ∈ l.groups) {rest : List Stmt}
    (hrest : allOrdered rest = true) (hsilent : allSilent rest = false) :
    allOrdered (lists.flatten ++ rest) = true ↔ ¬ ∃ group ∈ groups,
      group.2.conjuncts none = none ∧ ∀ rule ∈ group.1, isExpression rule.1 = false := by
  induction h with
  | nil => simpa using hrest
  | @cons group list groups lists hlist _ ih =>
    obtain ⟨check, hcheck, rfl⟩ := hlist
    obtain ⟨hordered, hfalls⟩ := hcheck.falls_iff
    have hbits : groupBits l.expressions mask group.1 = [] ↔ _ :=
      groupBits_eq_nil_iff (hgroups group (.head _))
    have ih := ih fun g hg => hgroups g (.tail _ hg)
    rw [List.flatten_cons, List.append_assoc]
    rw [List.exists_mem_cons_iff, not_or, ← ih, ← hbits, ← hfalls]
    unfold unlessApplies
    by_cases hnop : check.isNop
    · have hgoes : check.falls = true := by
        cases check <;> first | rfl | cases hnop
      simp [hnop, hgoes]
    · rw [if_neg hnop]
      cases hany : anyOfThem (groupBits l.expressions mask group.1) with
      | some applies =>
        have hne : groupBits l.expressions mask group.1 ≠ [] := fun h => by
          rw [h] at hany
          cases hany
        simp [allOrdered, falls, ordered, hordered, hne]
      | none =>
        have hnil : groupBits l.expressions mask group.1 = [] := by
          cases hb : groupBits l.expressions mask group.1 with
          | nil => rfl
          | cons => simp [hb, anyOfThem] at hany
        cases hgoes : check.falls with
        | true => simp [allOrdered, hordered, hgoes]
        | false => simp [allOrdered, hgoes, hnil, allSilent_append, hsilent]

theorem Mixed.code (h : Mixed build D l s) (hfits : Counting fits) (hgood : ∀ c ∈ l.asideMixed l.expressions, good c) :
    Legally fits build good D s ∧ (s.ordered = true ↔ ¬ ∃ group ∈ l.groups, group.2.conjuncts none = none ∧
      ∀ rule ∈ group.1, isExpression rule.1 = false) := by
  obtain ⟨mask, bits, additional, rules, hreserved, hbits, hadditional, hrules, rfl⟩ := h
  have hlt : ∀ j < l.expressions.length, (bitAt mask j).1 < D.bitvecs :=
    fun j hj => hreserved.lt hj
  have hbits : ∀ s ∈ bits, Steady fits build good D s := hbits.steady (by simpa using hlt)
  have hrules : ∀ s ∈ rules, Steady fits build good D s :=
    hrules.steady hfits (by simpa using hlt) fun e he c hc => hgood c (List.mem_append_right _
      (List.mem_flatMap.2 ⟨e, he, hc⟩))
  constructor
  · refine .seq fun s hs => ?_
    simp only [List.mem_append, List.mem_flatten] at hs
    rcases hs with ((hs | ⟨list, hlist, hs⟩) | hs) | hs
    · exact (hbits s hs).1
    · obtain ⟨group, hgroup, hlist⟩ := mem_right_of_forall₂ hadditional hlist
      exact hlist.code hfits hlt (fun e he => hgood e (List.mem_append_left _
        (List.mem_flatMap.2 ⟨group, hgroup, he⟩))) s hs
    · exact (hrules s hs).1
    · have htail : ∀ s ∈ [Stmt.token, .consume], Legally fits build good D s := by
        simp [Code.token, Code.consume]
      exact htail s hs
  · rw [ordered, List.append_assoc, List.append_assoc, allOrdered_append fun s hs => (hbits s hs).2]
    refine additional_ordered hadditional (fun _ => id) ?_ ?_
    · rw [allOrdered_append fun s hs => (hrules s hs).2]
      rfl
    · rw [allSilent_append]
      simp [allSilent, Stmt.silent]

theorem casesOrdered_iff {cases : List (UInt32 × Stmt)} :
    casesOrdered cases = true ↔ ∀ c ∈ cases, c.2.ordered = true := by
  induction cases with
  | nil => simp [casesOrdered]
  | cons c cases ih => simp [casesOrdered, ih]

theorem OnMember.code [Regex.Engine] (h : OnMember build D l mask s) (hfits : Counting fits)
    (hmask : Reserved D mask l.required) (hgood : ∀ c ∈ l.inside, good c) :
    Legally fits build good D s ∧ (s.ordered = true ↔ ¬ l.Clashes) := by
  cases h with
  | plain hempty hs =>
    have hnone : l.expressions = [] := by rw [ObjectLeaves.expressions, hempty]; rfl
    obtain ⟨hcode, hordered⟩ : Legally fits build good D s ∧ s.ordered = true :=
      hs.code hmask fun e he => hgood e (by
        rw [ObjectLeaves.inside, if_pos (List.isEmpty_iff.2 hempty)]
        exact he)
    exact ⟨hcode, by simp [hordered, ObjectLeaves.Clashes, hnone]⟩
  | @dispatch m id bodies otherwise hne hm hid hcases hotherwise =>
    rw [ObjectLeaves.inside, if_neg (by simpa using hne), hm] at hgood
    have hbodies : ∀ c ∈ ((List.range' 1 m.cases.length).map Word.saturate).zip bodies,
        Legally fits build good D c.2 ∧ c.2.ordered = true := by
      intro c hc
      obtain ⟨set, hset, hmember⟩ := mem_right_of_forall₂ hcases (List.of_mem_zip hc).2
      exact hmember.code hmask fun e he => hgood e (List.mem_append_left _ (List.mem_flatMap.2 ⟨set, hset, he⟩))
    have hother : Legally fits build good D otherwise ∧ (otherwise.ordered = true ↔ ¬ l.Clashes) := by
      rw [ObjectLeaves.Clashes]
      by_cases hmany : 1 < l.expressions.length
      · rw [if_pos hmany] at hotherwise hgood
        simp only [hmany, true_and]
        exact hotherwise.code hfits fun e he => hgood e (List.mem_append_right _ he)
      · rw [if_neg hmany] at hotherwise hgood
        obtain ⟨hcode, hordered⟩ : Legally fits build good D otherwise ∧ otherwise.ordered = true :=
          hotherwise.code hmask fun e he => hgood e (List.mem_append_right _ he)
        exact ⟨hcode, by simp [hordered, hmany]⟩
    refine ⟨.dispatch hid (fun c hc => (hbodies c hc).1) hother.1, ?_⟩
    rw [ordered, casesOrdered_iff.2 fun c hc => (hbodies c hc).2, Bool.true_and, hother.2]

theorem countLeaves_steady {counts : List CountRange} (hcounts : ∀ range ∈ counts, CountsFit fits range)
    {count : Option Nat} (hcount : ∀ c, count = some c → c < D.counters) (short long : Reason) :
    ∀ s ∈ (match count with
      | none => []
      | some c => counts.flatMap fun range => countChecks (.count c) range short long),
    Steady fits build good D s := by
  intro s hs
  cases count with
  | none => cases hs
  | some c =>
    obtain ⟨range, hrange, hs⟩ := List.mem_flatMap.1 hs
    exact countChecks_steady (.count (hcount c rfl)) (hcounts range hrange) short long s hs

theorem count_steady {count : Option Nat} (hcount : ∀ c, count = some c → c < D.counters) :
    ∀ s ∈ (count.map Stmt.incr).toList, Steady fits build good D s := by
  intro s hs
  cases count with
  | none => cases hs
  | some c =>
    rw [List.mem_singleton.1 hs]
    exact ⟨.incr (hcount c rfl), rfl, rfl⟩

theorem ordered_untilEnd (loop : Nat) (name : String) (final : Token.Kind) (body : List Stmt) :
    (untilEnd loop name final body).ordered = (Stmt.seq body).ordered := by
  simp [untilEnd, falls, ordered, allOrdered, allSilent]

/-- Legal statements behind which control goes on, in order unless there is a clash. -/
def Goes (fits : Nat → Prop) (build : Constraint → Except BadPattern Stmt) (good : Constraint → Prop)
    (D : Draft) (clash : Prop) (list : List Stmt) : Prop :=
  (∀ s ∈ list, Legally fits build good D s ∧ s.falls = true) ∧ ((∀ s ∈ list, s.ordered = true) ↔ ¬ clash)

theorem goes_of_steady {clash : Prop} (hclash : ¬ clash) (h : ∀ s ∈ list, Steady fits build good D s) :
    Goes fits build good D clash list :=
  ⟨fun s hs => ⟨(h s hs).1, (h s hs).2.1⟩, fun _ => hclash, fun _ s hs => (h s hs).2.2⟩

theorem ChecksObject.code [Regex.Engine] (h : ChecksObject build D l list)
    (hfits : Counting fits) (hgood : ∀ c ∈ l.inside, good c)
    (hcounts : ∀ range ∈ l.counts, CountsFit fits range) : Goes fits build good D l.Clashes list := by
  obtain ⟨count, mask, loop, member, hcount, hmask, hmember, rfl⟩ := h
  have htail : ∀ s ∈ (objectStmts l count mask loop member).tail, Steady fits build good D s := by
    intro s hs
    rcases List.mem_append.1 hs with hs | hs
    · exact countLeaves_steady hcounts hcount _ _ s hs
    · obtain ⟨i, hi, rfl⟩ := List.mem_map.1 hs
      exact rejectIf_steady (.not (.bitsAll (Nat.lt_of_lt_of_le (Nat.add_lt_add_left (List.mem_range.1 hi) mask)
        hmask))) _
  have hincr : ∀ s ∈ (count.map Stmt.incr).toList, Steady fits build good D s := count_steady hcount
  obtain ⟨hcode, hordered⟩ : Legally fits build good D member ∧ (member.ordered = true ↔ ¬ l.Clashes) :=
    hmember.code hfits hmask hgood
  have hbody : Legally fits build good D (.seq ((count.map Stmt.incr).toList ++ [member])) := by
    refine .seq fun s hs => ?_
    rcases List.mem_append.1 hs with hs | hs
    · exact (hincr s hs).1
    · rw [List.mem_singleton.1 hs]
      exact hcode
  unfold objectStmts Goes
  rw [List.cons_append, List.forall_mem_cons, List.forall_mem_cons, ordered_untilEnd,
    ordered_snoc fun s hs => (hincr s hs).2, hordered]
  exact ⟨⟨⟨.untilEnd loop _ _ hbody, rfl⟩, fun s hs => ⟨(htail s hs).1, (htail s hs).2.1⟩⟩, fun h => h.1,
    fun h => ⟨h, fun s hs => (htail s hs).2.2⟩⟩

/-! ### Arrays -/

theorem Pieces.steady {base : Nat} {pieces : List (List Constraint)}
    {results : List (List Stmt × Nat × Nat)} (h : Pieces build D base pieces results)
    (hpieces : ∀ piece ∈ pieces, piece.length ≤ bitvecWidth) :
    ∀ r ∈ results, (∀ s ∈ r.1, Steady fits build good D s) ∧ r.2.1 < D.bitvecs ∧ r.2.2 ≤ 64 := by
  induction h with
  | nil => exact List.forall_mem_nil _
  | @cons base i piece rest frames others hframes hsplit hbits _ ih =>
    intro r hr
    rcases List.mem_cons.1 hr with rfl | hr
    · refine ⟨fun s hs => ?_, Nat.lt_of_succ_lt hbits, hpieces piece (.head _)⟩
      rcases List.mem_cons.1 hs with rfl | hs
      · exact ⟨.splitBits hbits hsplit.1, rfl, rfl⟩
      · obtain ⟨bit, -, rfl⟩ := List.mem_map.1 hs
        exact ⟨.ite (.test (.bitTest hbits bit)) (.bitSet (Nat.lt_of_succ_lt hbits) bit) .nop,
          by simp [Smooth, falls, ordered]⟩
    · exact ih (fun p hp => hpieces p (.tail _ hp)) r hr

theorem Selects.code {count : Nat} {action : Stmt} {entries : List (Constraint × Nat)}
    (h : Selects build count action entries s) (hcount : count < D.counters)
    (haction : Legally fits build good D action ∧ action.ordered = true)
    (hgood : ∀ entry ∈ entries, ∀ e ∈ entry.1.aside, good e)
    (hfits : ∀ entry ∈ entries, fits (entry.2 + 1)) : Legally fits build good D s ∧ s.ordered = true := by
  induction h with
  | nil => exact haction
  | @cons action this s entry i rest hthis _ ih =>
    obtain ⟨hcode, hordered⟩ : Legally fits build good D this ∧ this.ordered = true :=
      hthis.code (hgood _ (.head _))
    refine ih ⟨.ite (.test (.words .eq (.count hcount) (hfits _ (.head _)))) hcode haction.1, ?_⟩
      (fun e he => hgood e (.tail _ he)) fun e he => hfits e (.tail _ he)
    simp [ordered, hordered, haction.2]

theorem fits_longest (hfits : Counting fits) (all : List (List Constraint × Constraint)) :
    ∀ {n : Nat}, fits n → (∀ item ∈ all, fits item.1.length) →
      fits (all.foldl (fun n (tuple, _) => max n tuple.length) n) := by
  induction all with
  | nil => exact fun hn _ => hn
  | cons item all ih =>
    intro n hn h
    refine ih ?_ fun item hitem => h item (.tail _ hitem)
    rcases Nat.le_total n item.1.length with hle | hle
    · exact hfits.down _ _ (Nat.max_le.2 ⟨hle, Nat.le_refl _⟩) (h item (.head _))
    · exact hfits.down _ _ (Nat.max_le.2 ⟨Nat.le_refl _, hle⟩) hn

theorem fits_mergeItems (hfits : Counting fits) {all : List (List Constraint × Constraint)}
    (h : ∀ item ∈ all, fits item.1.length) : fits (mergeItems all).1.length := by
  rw [mergeItems, List.length_map, List.length_range]
  exact fits_longest hfits all (hfits.small 0 (Nat.zero_le _)) h

theorem ChecksArray.steady {l : ArrayLeaves} (h : ChecksArray build D l list)
    (hfits : Counting fits) (hgood : ∀ c ∈ l.inside, good c)
    (hcounts : ∀ range ∈ l.counts, CountsFit fits range)
    (hitems : ∀ item ∈ l.items, fits item.1.length) : ∀ s ∈ list, Steady fits build good D s := by
  obtain ⟨count, unique, loop, base, pieces, last, action, -, hcount, hunique, hpieces, hlast, hselects,
    hsame, rfl⟩ := h
  have hcode : ∀ r ∈ pieces, (∀ s ∈ r.1, Steady fits build good D s) ∧ r.2.1 < D.bitvecs ∧ r.2.2 ≤ 64 :=
    hpieces.steady fun piece hpiece => length_of_mem_chunked hpiece
  have hlastCode : Legally fits build good D last ∧ last.ordered = true := hlast.code fun e he =>
    hgood e (List.mem_append_left _ (List.mem_append_right _ he))
  have haction : Legally fits build good D action ∧ action.ordered = true := by
    cases count with
    | none => exact hsame rfl ▸ hlastCode
    | some c =>
      refine (hselects c rfl).code (hcount c rfl) hlastCode (fun entry hentry e he => ?_) fun entry hentry => ?_
      · refine hgood e (List.mem_append_right _ (List.mem_flatMap.2 ⟨entry.1, ?_, he⟩))
        exact List.fst_mem_of_mem_zipIdx (List.mem_reverse.1 hentry)
      · have hlt := List.snd_lt_of_mem_zipIdx (List.mem_reverse.1 hentry)
        exact hfits.down _ _ hlt (fits_mergeItems hfits hitems)
  have hbody : ∀ s ∈ .untoken :: (unique.map fun u => Stmt.rejectIf (.not (.unique u)) .arrayNotUnique).toList ++
      pieces.flatMap (·.1) ++ (count.map Stmt.incr).toList, Steady fits build good D s := by
    intro s hs
    simp only [List.mem_append, List.mem_cons, List.mem_flatMap] at hs
    rcases hs with ((rfl | hs) | ⟨r, hr, hs⟩) | hs
    · exact ⟨.untoken, rfl, rfl⟩
    · cases unique with
      | none => cases hs
      | some u =>
        rw [List.mem_singleton.1 hs]
        exact rejectIf_steady (.not (.unique (hunique u rfl))) _
    · exact (hcode r hr).1 s hs
    · exact count_steady hcount s hs
  intro s hs
  rcases List.mem_append.1 hs with hs | hs
  · rcases List.mem_cons.1 hs with rfl | hs
    · refine ⟨.untilEnd loop _ _ (.seq fun s hs => ?_), rfl, ?_⟩
      · rcases List.mem_append.1 hs with hs | hs
        · exact (hbody s hs).1
        · rw [List.mem_singleton.1 hs]
          exact haction.1
      · rw [ordered_untilEnd, ordered_snoc fun s hs => (hbody s hs).2, haction.2]
    · exact countLeaves_steady hcounts hcount _ _ s hs
  · obtain ⟨r, hr, rfl⟩ := List.mem_map.1 hs
    obtain ⟨-, hkept, hsize⟩ := hcode r hr
    exact rejectIf_steady (.test (.words .ne (.bitCount hkept) (hfits.small _ hsize))) _

/-! ### Frames -/

theorem firstToken_condition (type : ValueType) : Condition D fits (firstToken type) := by
  cases type with
  | boolean => exact .or (.test (.isToken _)) (.test (.isToken _))
  | _ => exact .test (.isToken _)

theorem ChecksLeaves.code [Regex.Engine] {leaves list : List _}
    (h : ChecksLeaves build D type leaves list) (hfits : Counting fits)
    (hgood : ∀ c ∈ leavesInside leaves type, good c) (hleaves : ∀ c ∈ leaves, LeafCounts fits c) :
    Goes fits build good D (type = .object ∧ (ObjectLeaves.of leaves).Clashes) list := by
  cases type with
  | null | boolean =>
    cases h
    exact goes_of_steady (by simp) (List.forall_mem_nil _)
  | number =>
    cases h
    refine goes_of_steady (by simp) fun s hs => ?_
    obtain ⟨c, -, hs⟩ := List.mem_flatMap.1 hs
    exact numberChecks_steady c s hs
  | string =>
    obtain ⟨lists, hlists, rfl⟩ := h
    refine goes_of_steady (by simp) fun s hs => ?_
    obtain ⟨list, hlist, hs⟩ := List.mem_flatten.1 hs
    obtain ⟨c, hc, hlist⟩ := mem_right_of_forall₂ hlists hlist
    exact hlist.steady (hleaves c hc) s hs
  | object =>
    have hgoes : Goes fits build good D (ObjectLeaves.of leaves).Clashes list := by
      refine ChecksObject.code h hfits hgood fun range hrange => ?_
      obtain ⟨c, hc, heq⟩ := List.mem_filterMap.1 hrange
      cases c <;> cases heq
      exact hleaves _ hc
    exact ⟨hgoes.1, by simpa using hgoes.2⟩
  | array =>
    refine goes_of_steady (by simp) (ChecksArray.steady h hfits hgood (fun range hrange => ?_) fun item hitem => ?_)
    · obtain ⟨c, hc, heq⟩ := List.mem_filterMap.1 hrange
      cases c <;> cases heq
      exact hleaves _ hc
    · obtain ⟨c, hc, heq⟩ := List.mem_filterMap.1 hitem
      cases c <;> cases heq
      exact hleaves _ hc

theorem choices_steady {type : Option ValueType} {choices : List Stmt}
    (h : List.Forall₂ (Chooses build D type) (parts.filterMap choice?) choices)
    (hfits : Counting fits) :
    ∀ s ∈ choices, Steady fits build good D s := by
  intro s hs
  obtain ⟨choice, hchoice, hchooses⟩ := mem_right_of_forall₂ h hs
  obtain ⟨part, -, hpart⟩ := List.mem_filterMap.1 hchoice
  exact hchooses.steady (hfits.small _ (bound_le hpart))

theorem not_clashes_nil : ¬ (ObjectLeaves.of []).Clashes := by
  rintro ⟨-, group, hgroup, -⟩
  cases hgroup

theorem allOrdered_of_falls {rest : List Stmt} (h : ∀ s ∈ list, s.falls = true) :
    allOrdered (list ++ rest) = true ↔ (∀ s ∈ list, s.ordered = true) ∧ allOrdered rest = true := by
  induction list with
  | nil => simp
  | cons s list ih =>
    rw [List.cons_append, allOrdered, h s List.mem_cons_self, if_pos rfl, Bool.and_eq_true,
      ih fun s hs => h s (.tail _ hs), List.forall_mem_cons, and_assoc]

theorem falls_seq_of_mem (hs : s ∈ list) (h : s.falls = false) : (Stmt.seq list).falls = false := by
  rw [falls, Bool.eq_false_iff]
  intro hall
  rw [Stmt.allFall_iff.1 hall s hs] at h
  cases h

/-- A legal statement that ends control, in order unless there is a clash. -/
def Ends (fits : Nat → Prop) (build : Constraint → Except BadPattern Stmt) (good : Constraint → Prop)
    (D : Draft) (clash : Prop) (s : Stmt) : Prop :=
  Legally fits build good D s ∧ s.falls = false ∧ (s.ordered = true ↔ ¬ clash)

theorem Arm.code [Regex.Engine] (h : Arm build D type parts s) (hfits : Counting fits)
    (hgood : ∀ c ∈ armInside type parts, good c)
    (hparts : ∀ c ∈ parts, c.isCombinator = false → LeafCounts fits c) : Ends fits build good D
      (type = .object ∧ (ObjectLeaves.of (parts.filter fun c => !c.isCombinator)).Clashes) s := by
  obtain ⟨choices, checks, hchoices, hchecks, rfl⟩ := h
  have hahead : ∀ s ∈ (if choices = [] then [] else .untoken :: choices ++ [.token]), Steady fits build good D s := by
    intro s hs
    split at hs
    · cases hs
    · rcases List.mem_append.1 hs with hs | hs
      · rcases List.mem_cons.1 hs with rfl | hs
        · exact ⟨.untoken, rfl, rfl⟩
        · exact choices_steady hchoices hfits s hs
      · rw [List.mem_singleton.1 hs]
        exact ⟨.token, rfl, rfl⟩
  have hgoes : Goes fits build good D
      (type = .object ∧ (ObjectLeaves.of (parts.filter fun c => !c.isCombinator)).Clashes) checks := by
    split at hchecks
    · next hempty =>
      rw [hempty]
      subst hchecks
      refine goes_of_steady (fun h => not_clashes_nil h.2) fun s hs => ?_
      split at hs
      · rw [List.mem_singleton.1 hs]
        exact ⟨.consume, rfl, rfl⟩
      · cases hs
    · refine hchecks.code hfits (fun c hc => hgood c (List.mem_append_right _ hc)) fun c hc => ?_
      obtain ⟨hc, hleaf⟩ := List.mem_filter.1 hc
      exact hparts c hc (by simpa using hleaf)
  refine ⟨.seq fun s hs => ?_, falls_seq_of_mem (s := .valid) (by simp) rfl, ?_⟩
  · rcases List.mem_append.1 hs with hs | hs
    · exact (List.mem_append.1 hs).elim (fun hs => (hahead s hs).1) fun hs => (hgoes.1 s hs).1
    · rw [List.mem_singleton.1 hs]
      exact .valid
  · rw [← hgoes.2, ordered, List.append_assoc, allOrdered_append fun s hs => (hahead s hs).2,
      allOrdered_of_falls fun s hs => (hgoes.1 s hs).2]
    simp [allOrdered, ordered, falls, allSilent]

theorem Arms.code [Regex.Engine] {arms : ValueType → Constraint} {types : List ValueType}
    (h : Arms build D arms types s) (hfits : Counting fits)
    (hgood : ∀ type ∈ types, ∀ parts, (arms type).conjuncts (some type) = some parts →
      ∀ c ∈ armInside type parts, good c)
    (hleaves : ∀ type ∈ types, ∀ parts, (arms type).conjuncts (some type) = some parts →
      ∀ c ∈ parts, c.isCombinator = false → LeafCounts fits c) : Ends fits build good D (∃ parts,
      .object ∈ types ∧ (arms .object).conjuncts (some .object) = some parts ∧
      (ObjectLeaves.of (parts.filter fun c => !c.isCombinator)).Clashes) s := by
  induction h with
  | nil => exact ⟨.invalid _, by simp [falls, ordered]⟩
  | @skip type types s hnone _ ih =>
    obtain ⟨hcode, hfalls, hordered⟩ := ih (fun t ht => hgood t (.tail _ ht)) fun t ht => hleaves t (.tail _ ht)
    refine ⟨hcode, hfalls, hordered.trans (not_congr (exists_congr fun parts => ?_))⟩
    rw [List.mem_cons]
    constructor
    · exact And.imp_left Or.inr
    · rintro ⟨rfl | hmem, hparts, hclashes⟩
      · rw [hnone] at hparts
        cases hparts
      · exact ⟨hmem, hparts, hclashes⟩
  | @cons type types parts this others hparts hthis _ ih =>
    obtain ⟨hcode, hfalls, hordered⟩ := hthis.code hfits (hgood type (.head _) parts hparts)
      (hleaves type (.head _) parts hparts)
    obtain ⟨hcode', hfalls', hordered'⟩ := ih (fun t ht => hgood t (.tail _ ht)) fun t ht => hleaves t (.tail _ ht)
    refine ⟨.ite (firstToken_condition type) hcode hcode', by simp [falls, hfalls, hfalls'], ?_⟩
    rw [ordered, Bool.and_eq_true, hordered, hordered', ← not_or]
    refine not_congr ⟨?_, ?_⟩
    · rintro (⟨rfl, hclashes⟩ | ⟨parts', hmem, hparts', hclashes⟩)
      · exact ⟨parts, List.mem_cons_self .., hparts, hclashes⟩
      · exact ⟨parts', List.mem_cons_of_mem _ hmem, hparts', hclashes⟩
    · rintro ⟨parts', hmem, hparts', hclashes⟩
      rcases List.mem_cons.1 hmem with rfl | hmem
      · rw [hparts] at hparts'
        cases hparts'
        exact .inl ⟨rfl, hclashes⟩
      · exact .inr ⟨parts', hmem, hparts', hclashes⟩

variable {q : Constraint → Prop}

theorem every_leaf {leaf : ValueType} (h : c.Every q) (hleaf : c.leafType = some leaf) : q c := by
  cases c with
  | properties | items | contains => exact h.1
  | numRange | integer | multipleOf | length | pattern | propertyCount | required | itemCount
  | uniqueItems => exact h
  | _ => cases hleaf

/-- The parts of an arm that are no choices are leaves of its type. -/
theorem leaf_of_mem_conjuncts {part : Constraint} (h : c.conjuncts (some type) = some parts) (hpart : part ∈ parts)
    (hleaf : part.isCombinator = false) : part.leafType = some type := by
  rcases (part_of_mem_conjuncts _ c h part hpart).kind with hchoice | ⟨leaf, hleafType, htype⟩ | ⟨h, -⟩
  · rw [hleaf] at hchoice
    cases hchoice
  · rw [hleafType, htype type rfl]
  · cases h

/-- The object arm of a constraint has a group of rules without regular expressions that allows no other
names, though it has several expressions. -/
def Clashes (c : Constraint) : Prop :=
  ∃ parts armParts, c.conjuncts none = some parts ∧
    ((Outline.ofParts parts).armAt .object).conjuncts (some .object) = some armParts ∧
    (ObjectLeaves.of (armParts.filter fun c => !c.isCombinator)).Clashes

/-- The body of a frame is legal if the counts fit. It ends control, and nothing stands behind an end of
control unless the constraint clashes. -/
theorem Body.code [Regex.Engine] (h : Body build D c s) (hfits : Counting fits) (hgood : ∀ e ∈ c.inside, good e)
    (hc : c.Every (LeafCounts fits)) : Ends fits build good D c.Clashes s := by
  cases h with
  | never hnone => exact ⟨.invalid _, by simp [falls, ordered, Clashes, hnone]⟩
  | @whole parts choices hparts harms hchoices =>
    have hsteady : ∀ s ∈ choices, Steady fits build good D s := choices_steady hchoices hfits
    refine ⟨.seq fun s hs => ?_, falls_seq_of_mem (s := .valid) (by simp) rfl, ?_⟩
    · rcases List.mem_append.1 hs with hs | hs
      · exact (hsteady s hs).1
      · have htail : ∀ s ∈ [Stmt.token, .consume, .valid], Legally fits build good D s := by
          simp [Code.token, Code.consume, Code.valid]
        exact htail s hs
    · rw [ordered, allOrdered_append fun s hs => (hsteady s hs).2]
      refine ⟨fun _ hclashes => ?_, fun _ => rfl⟩
      obtain ⟨parts', armParts, hparts', harmParts, hclashes⟩ := hclashes
      rw [hparts] at hparts'
      cases hparts'
      rw [Outline.armAt, harms] at harmParts
      cases harmParts
      exact not_clashes_nil hclashes
  | @arms parts choices selected hparts hchoices hselected =>
    rw [inside, hparts] at hgood
    have hsteady : ∀ s ∈ choices, Steady fits build good D s := choices_steady hchoices hfits
    obtain ⟨hcode, hfalls, hordered⟩ : Ends fits build good D _ selected := by
      refine hselected.code hfits (fun type htype armParts harm c hc => ?_)
        fun type _ armParts harm part hpart hleaf => ?_
      · exact hgood c (List.mem_append_right _ (List.mem_flatMap.2 ⟨type, htype, by rw [harm]; exact hc⟩))
      · exact every_leaf ((part_of_mem_conjuncts _ _ harm part hpart).every (every_armAt hc hparts type))
          (leaf_of_mem_conjuncts harm hpart hleaf)
    refine ⟨.seq fun s hs => ?_, falls_seq_of_mem (s := selected) (by simp) hfalls, ?_⟩
    · rcases List.mem_append.1 hs with hs | hs
      · exact (hsteady s hs).1
      · have htail : ∀ s ∈ [Stmt.token, selected], Legally fits build good D s := by
          simp [Code.token, hcode]
        exact htail s hs
    · have hselectedOrdered : allOrdered [.token, selected] = selected.ordered := by
        simp [allOrdered, ordered, falls, allSilent]
      rw [ordered, allOrdered_append fun s hs => (hsteady s hs).2, hselectedOrdered, hordered]
      refine not_congr ⟨?_, ?_⟩
      · rintro ⟨armParts, -, harmParts, hclashes⟩
        exact ⟨parts, armParts, hparts, harmParts, hclashes⟩
      · rintro ⟨parts', armParts, hparts', harmParts, hclashes⟩
        rw [hparts] at hparts'
        cases hparts'
        exact ⟨armParts, by simp [ValueType.all], harmParts, hclashes⟩

end

theorem exists_frameWithin [Regex.Engine] {fuel : Nat} {c : Constraint} (hweight : c.weight < fuel)
    (hc : c.Every LeafPatterns) : ∃ body, frameWithin fuel c = .ok body := by
  induction fuel generalizing c with
  | zero => omega
  | succ fuel ih =>
    have hgives : Gives (Built (frameWithin fuel) fun e => ∃ body, frameWithin fuel e = .ok body) True
        (frameBody (frameWithin fuel) c) _ :=
      frameBody_gives (fun he _ => he) (fun _ parts hparts type armParts harm part hpart hleaf =>
        every_leaf ((part_of_mem_conjuncts _ _ harm part hpart).every (every_armAt hc hparts type))
          (leaf_of_mem_conjuncts harm hpart hleaf)) fun e he =>
        ih (by have := (below_of_mem_inside he).1; omega) ((below_of_mem_inside he).2 _ hc)
    replace hgives := hgives {}
    cases hbody : frameBody (frameWithin fuel) c {} with
    | error e =>
      rw [hbody] at hgives
      exact absurd trivial hgives
    | ok result => exact ⟨.seq (result.2.decls ++ [result.1]), by rw [frameWithin, finish, hbody]⟩

end Constraint

end JsonSieve
