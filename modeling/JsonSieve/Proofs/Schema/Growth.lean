import JsonSieve.Proofs.Matcher.Cases
import JsonSieve.Proofs.Schema.Compilation

/-!
# How many procedures a program has

A program has a procedure for its entry and one for each frame inside. An object with several rules that have
expressions lowers the constraint of each rule three times: for the case of its name, to look ahead, and to
fail for the same reason. That repeats at every level, so the procedures multiply with the depth of the rules
(`procs_of_rules`).
-/

namespace JsonSieve

open Stmt (frames framesOf)

namespace Constraint

open Draft

theorem conjunction_one (c : Constraint) : conjunction [c] = c := by
  cases c <;> rfl

def ofRules (rules : List (NamePattern × Constraint)) : ObjectLeaves := ⟨[(rules, .valid)], [], []⟩

section

variable {build : Constraint → Except BadPattern Stmt} {d d' : Draft} {s : Stmt}
  {rules : List (NamePattern × Constraint)}

theorem frameBody_object [Regex.Engine] (h : frameBody build (.properties rules .valid) d = .ok (s, d')) : ∃ member d1,
      onMember build (ofRules rules) d.bitvecs d = .ok (member, d1) ∧ d'.decls = d1.decls ∧
      s.frames = member.frames := by
  have hnone : (properties rules .valid).conjuncts none = some [.properties rules .valid] := rfl
  have hobject : (properties rules .valid).conjuncts (some .object) = some [.properties rules .valid] := rfl
  have hvalid : ∀ t, conjuncts t .valid = some [] := fun _ => rfl
  have hleaves : ObjectLeaves.of [.properties rules .valid] = ofRules rules := rfl
  simp [frameBody, hnone, Outline.ofParts, Outline.add, choice?, leafType, Outline.addLeaf, both, choiceChecks,
    ValueType.all, selectArm, hobject, hvalid, arm, isCombinator, leafChecks, objectChecks, hleaves, ofRules,
    bitvecsFor, chunked, chunked.go, ValueType.isContainer, loop, bind, StateT.bind, Except.bind, pure,
    StateT.pure, Except.pure] at h
  cases hmember : onMember build (ofRules rules) d.bitvecs d with
  | error e =>
    rw [ofRules] at hmember
    rw [hmember] at h
    cases h
  | ok r =>
    rw [ofRules] at hmember
    rw [hmember] at h
    cases h
    exact ⟨_, _, rfl, rfl, by simp [frames, framesOf, firstToken, Expr.frames, untilEnd]⟩

theorem quietly_eq_ok {α : Type} {step : Except BadPattern α} {a : α} (h : quietly step d = .ok (a, d')) :
    step = .ok a ∧ d' = d := by
  cases step with
  | error e => cases h
  | ok b =>
    cases h
    exact ⟨rfl, rfl⟩

theorem bitvecs_frames {α : Type} {name : String} {pieces : List (List α)} {ids : List Nat}
    (h : pieces.mapM (fun piece => bitvec name piece.length) d = .ok (ids, d')) :
    framesOf d'.decls = framesOf d.decls := by
  induction pieces generalizing d ids with
  | nil =>
    cases h
    rfl
  | cons piece pieces ih =>
    rw [List.mapM_cons] at h
    obtain ⟨_, _, hid, h⟩ := bind_eq_ok.1 h
    cases hid
    obtain ⟨_, _, hrest, h⟩ := bind_eq_ok.1 h
    cases h
    rw [ih hrest, Legal.framesOf_append]
    rfl

theorem memberBody_none (build : Constraint → Except BadPattern Stmt) (mask : Nat) :
    memberBody build (ofRules rules) mask (fun _ => false) = .ok (.seq [.seq [.token, .consume]]) := by
  have happlying : (ofRules rules).applying (fun _ => false) = [.valid] := by
    simp [ofRules, ObjectLeaves.applying]
  rw [memberBody, happlying]
  rfl

theorem nameBits_frames [Regex.Engine] {mask i : Nat} {expressions : List NamePattern} {list : List Stmt}
    (h : nameBits mask i expressions d = .ok (list, d')) :
    framesOf d'.decls = framesOf d.decls ∧ framesOf list = 0 := by
  induction expressions generalizing i d list with
  | nil =>
    cases h
    exact ⟨rfl, rfl⟩
  | cons expression expressions ih =>
    rw [nameBits] at h
    obtain ⟨m, _, hm, h⟩ := bind_eq_ok.1 h
    obtain ⟨_, _, hid, h⟩ := bind_eq_ok.1 h
    cases hid
    obtain ⟨others, _, hothers, h⟩ := bind_eq_ok.1 h
    cases h
    obtain ⟨hdecls, hlist⟩ := ih hothers
    obtain ⟨-, rfl⟩ := quietly_eq_ok hm
    rw [hdecls, Legal.framesOf_append]
    simp [frames, framesOf, Stmt.framesOfCases, hlist]

variable (build) in
/-- The procedures that the frame of a constraint comes to. -/
def bodySize (c : Constraint) : Nat :=
  match build c with
  | .ok body => 1 + body.frames
  | .error _ => 0

variable (build) in
def bodySizes : List (NamePattern × Constraint) → Nat
  | [] => 0
  | rule :: rest => bodySize build rule.2 + bodySizes rest

variable [Regex.Engine]

/-- The rules of an object have expressions that differ, and constraints that are left to frames. -/
structure Regular (build : Constraint → Except BadPattern Stmt) (rules : List (NamePattern × Constraint)) :
    Prop where
  few : rules.length < Nat.pow 2 32
  nodup : (rules.map (·.1)).Nodup
  expression : ∀ rule ∈ rules, ∃ source, rule.1 = .regex source ∧ (Regex.Engine.compile? source).isSome
  alone : ∀ rule ∈ rules, rule.2.conjuncts none = some [rule.2]
  built : ∀ rule ∈ rules, ∃ body, build rule.2 = .ok body

namespace Regular

variable (h : Regular build rules) {rule : NamePattern × Constraint}
include h

theorem patterns_eq : (ofRules rules).patterns = rules.map (·.1) := by
  simp [ofRules, ObjectLeaves.patterns, eraseDups_eq_self h.nodup]

theorem expressions_eq : (rules.map (·.1)).filter isExpression = rules.map (·.1) := by
  refine List.filter_eq_self.2 fun p hp => ?_
  obtain ⟨rule, hrule, rfl⟩ := List.mem_map.1 hp
  obtain ⟨source, hsource, -⟩ := h.expression rule hrule
  rw [hsource, isExpression]

theorem filter_eq (hrule : rule ∈ rules) : rules.filter (fun r => decide (r.1 = rule.1)) = [rule] := by
  have hnodup := h.nodup
  clear h
  induction rules with
  | nil => cases hrule
  | cons first rules ih =>
    obtain ⟨hfirst, hrest⟩ := List.nodup_cons.1 hnodup
    rcases List.mem_cons.1 hrule with rfl | hrule
    · have hnone : rules.filter (fun r => decide (r.1 = rule.1)) = [] := List.filter_eq_nil_iff.2 fun r hr => by
        simpa using fun heq : r.1 = rule.1 => hfirst (List.mem_map.2 ⟨r, hr, heq⟩)
      simp [hnone]
    · have hne : first.1 ≠ rule.1 := fun heq => hfirst (List.mem_map.2 ⟨rule, hrule, heq.symm⟩)
      simp [hne, ih hrule hrest]

theorem memberBody_eq (hrule : rule ∈ rules) (mask : Nat) {body : Stmt} (hbody : build rule.2 = .ok body) :
    memberBody build (ofRules rules) mask [rule.1].contains = .ok (.seq [.frame body]) := by
  have happlying : (ofRules rules).applying [rule.1].contains = [rule.2] := by
    simp [ofRules, ObjectLeaves.applying, h.filter_eq hrule]
  rw [memberBody, happlying, conjunction_one, valueAction, h.alone rule hrule, hbody]
  rfl

/-- The frame runs ahead as the branch of a split, and once more where that fails. -/
theorem checkAhead_eq (hrule : rule ∈ rules) {body : Stmt} (hbody : build rule.2 = .ok body) (reject : Reason)
    (d : Draft) : checkAhead build rule.2 reject d =
    .ok (.ite (.compare .eq (.split d.splits) (.size 0)) (.seq [.frame body, .invalid reject]) .nop,
      { d with decls := d.decls ++ [.splitList d.splits [body]], splits := d.splits + 1 }) := by
  rw [checkAhead, h.alone rule hrule, hbody]
  rfl

/-- The cases of a matcher for expressions have a frame each. -/
theorem framesOfCases_eq {m : Matcher} (hpatterns : m.patterns = rules.map (·.1)) {mask k start : Nat}
    {suffix : List (NamePattern × Constraint)} (hsuffix : rules.drop start = suffix) {cases : List (UInt32 × Stmt)}
    (hcases : caseBodies build (ofRules rules) mask m k
      ((Matcher.indexed NamePattern.search? start (suffix.map (·.1))).map fun e => [e.1]) = .ok cases) :
    Stmt.framesOfCases cases = bodySizes build suffix := by
  induction suffix generalizing start k cases with
  | nil =>
    cases hcases
    rfl
  | cons rule suffix ih =>
    have hget : rules[start]? = some rule := by
      rw [← Nat.add_zero start, ← List.getElem?_drop, hsuffix, List.getElem?_cons_zero]
    have hnext : rules.drop (start + 1) = suffix := by
      rw [← List.drop_drop, hsuffix, List.drop_succ_cons, List.drop_zero]
    have hrule := List.mem_of_getElem? hget
    obtain ⟨source, hsource, hsome⟩ := h.expression rule hrule
    obtain ⟨search, hsearch⟩ := Option.isSome_iff_exists.1 hsome
    obtain ⟨body, hbody⟩ := h.built rule hrule
    have hindexed : Matcher.indexed NamePattern.search? start ((rule :: suffix).map (·.1)) =
        (Word.saturate start, search) :: Matcher.indexed NamePattern.search? (start + 1) (suffix.map (·.1)) := by
      simp [Matcher.indexed, hsource, NamePattern.search?, hsearch]
    have hat : m.patternsAt [Word.saturate start] = [rule.1] := by
      have hpattern : m.patterns[start]? = some rule.1 := by rw [hpatterns, List.getElem?_map, hget]; rfl
      have hfew : m.patterns.length < Nat.pow 2 32 := by rw [hpatterns, List.length_map]; exact h.few
      simp [Matcher.patternsAt, Matcher.getElem?_saturate hfew hpattern]
    rw [hindexed, List.map_cons, caseBodies, hat, h.memberBody_eq hrule mask hbody] at hcases
    obtain ⟨_, hothers, hcases⟩ := except_bind_eq_ok.1 (show (caseBodies .. >>= _) = _ from hcases)
    cases hcases
    rw [Stmt.framesOfCases, ih hnext hothers, bodySizes, bodySize, hbody]
    simp [frames, framesOf]

/-- The check of an expression has two frames. -/
theorem expressionChecks_frames {mask i : Nat} {suffix : List (NamePattern × Constraint)}
    (hsuffix : ∀ rule ∈ suffix, rule ∈ rules) {list : List Stmt}
    (hchecks : expressionChecks build (ofRules rules) mask i (suffix.map (·.1)) d = .ok (list, d')) :
    framesOf d'.decls + framesOf list = framesOf d.decls + 2 * bodySizes build suffix := by
  induction suffix generalizing i d list with
  | nil =>
    cases hchecks
    rfl
  | cons rule suffix ih =>
    obtain ⟨hrule, hsuffix⟩ := List.forall_mem_cons.1 hsuffix
    obtain ⟨body, hbody⟩ := h.built rule hrule
    have hrules : ((ofRules rules).groups.flatMap fun group => group.1.filter fun r => decide (r.1 = rule.1)) =
        [rule] := by
      simp [ofRules, h.filter_eq hrule]
    rw [List.map_cons, expressionChecks, hrules, List.map_singleton, conjunction_one] at hchecks
    obtain ⟨_, _, hcheck, hchecks⟩ := bind_eq_ok.1 hchecks
    rw [h.checkAhead_eq hrule hbody] at hcheck
    cases hcheck
    obtain ⟨others, _, hothers, hchecks⟩ := bind_eq_ok.1 hchecks
    cases hchecks
    have hrest := ih hsuffix hothers
    rw [Legal.framesOf_append] at hrest
    rw [bodySizes, bodySize, hbody]
    simp [frames, framesOf, nameBit, Expr.frames] at hrest ⊢
    omega

theorem mixedMember_frames (hmixed : mixedMember build (ofRules rules) (rules.map (·.1)) d = .ok (s, d')) :
    framesOf d'.decls + s.frames = framesOf d.decls + 2 * bodySizes build rules := by
  unfold mixedMember at hmixed
  obtain ⟨mask, d1, hmask, hmixed⟩ := bind_eq_ok.1 hmixed
  obtain ⟨bits, d2, hbits, hmixed⟩ := bind_eq_ok.1 hmixed
  obtain ⟨additional, d3, hadditional, hmixed⟩ := bind_eq_ok.1 hmixed
  obtain ⟨checks, d4, hchecks, hmixed⟩ := bind_eq_ok.1 hmixed
  cases hmixed
  cases hadditional
  have hreserved : framesOf d1.decls = framesOf d.decls := by
    unfold bitvecsFor at hmask
    split at hmask
    · next hids =>
      cases hmask
      exact bitvecs_frames hids
    · cases hmask
  obtain ⟨hdecls, hnone⟩ := nameBits_frames hbits
  have hcount := h.expressionChecks_frames (fun _ => id) hchecks
  simp only [frames, framesOf, Legal.framesOf_append, hnone, List.reverse_singleton,
    List.flatten_cons, List.flatten_nil, List.append_nil]
  omega

/-- A constraint has a frame for the case of its name, and two more for the names of no case if there are
several expressions. -/
theorem onMember_frames {mask : Nat} (hmember : onMember build (ofRules rules) mask d = .ok (s, d')) :
    framesOf d'.decls + s.frames =
      framesOf d.decls + (if rules.length ≤ 1 then 1 else 3) * bodySizes build rules := by
  unfold onMember at hmember
  rw [h.patterns_eq] at hmember
  cases hrules : rules with
  | nil =>
    subst hrules
    rw [memberBody_none] at hmember
    cases hmember
    rfl
  | cons first rest =>
    rw [← hrules]
    have hne : ¬ (rules.map (·.1)).isEmpty = true := by simp [hrules]
    rw [if_neg hne, h.expressions_eq] at hmember
    have hread : ∀ p ∈ rules.map (·.1), p.Readable := fun p hp => by
      obtain ⟨rule, hrule, rfl⟩ := List.mem_map.1 hp
      obtain ⟨source, hsource, hsome⟩ := h.expression rule hrule
      rw [hsource]
      exact hsome
    obtain ⟨m, hbuild, hpatterns, -, -, hlisted, -⟩ := Matcher.exists_parts hread (by rw [List.length_map]; exact h.few)
    rw [eraseDups_eq_self h.nodup] at hpatterns
    have htexts : m.texts = [] := List.eq_nil_iff_forall_not_mem.2 fun e he => by
      obtain ⟨j, hj, -⟩ := Matcher.mem_texts.1 (show (e.1, e.2) ∈ m.texts from he)
      obtain ⟨rule, hrule, hliteral⟩ := List.mem_map.1 (hpatterns ▸ List.mem_of_getElem? hj)
      obtain ⟨source, hsource, -⟩ := h.expression rule hrule
      rw [hsource] at hliteral
      cases hliteral
    have hcasesOf : m.cases = (Matcher.indexed NamePattern.search? 0 (rules.map (·.1))).map fun e => [e.1] := by
      rw [hlisted, Matcher.listed, htexts, ← hpatterns]
      rfl
    obtain ⟨_, _, hm, hafter⟩ := bind_eq_ok.1 hmember
    obtain ⟨hmatcher, rfl⟩ := quietly_eq_ok hm
    cases hbuild.symm.trans hmatcher
    obtain ⟨cases, _, hcases, hdispatch⟩ := bind_eq_ok.1 hafter
    obtain ⟨hbodies, rfl⟩ := quietly_eq_ok hcases
    rw [hcasesOf] at hbodies
    have hframes := h.framesOfCases_eq hpatterns (List.drop_zero ..) hbodies
    dsimp only at hdispatch
    rw [List.length_map] at hdispatch
    by_cases hfew : rules.length ≤ 1
    · rw [if_neg (by omega), memberBody_none] at hdispatch
      cases hdispatch
      rw [Legal.framesOf_append, frames, hframes, if_pos hfew]
      simp [frames, framesOf]
    · rw [if_pos (by omega)] at hdispatch
      obtain ⟨otherwise, d1, hotherwise, hdispatch⟩ := bind_eq_ok.1 hdispatch
      cases hdispatch
      have hmixed := h.mixedMember_frames hotherwise
      rw [Legal.framesOf_append, frames, hframes, if_neg hfew]
      simp only [framesOf, frames]
      omega

end Regular

end

end Constraint

open Constraint

/-- Objects that allow all other names and have only rules with expressions, down to integers. -/
inductive RuleTree where
  | integer
  | object (rules : List (String × RuleTree))

namespace RuleTree

mutual

def constraint : RuleTree → Constraint
  | integer => .integer
  | object rules => .properties (constraints rules) .valid

def constraints : List (String × RuleTree) → List (NamePattern × Constraint)
  | [] => []
  | (source, t) :: rest => (.regex source, t.constraint) :: constraints rest

end

mutual

/-- The number of rules, those inside included. -/
def rules : RuleTree → Nat
  | integer => 0
  | object list => rulesOf list

def rulesOf : List (String × RuleTree) → Nat
  | [] => 0
  | (_, t) :: rest => 1 + t.rules + rulesOf rest

end

mutual

def procedures : RuleTree → Nat
  | integer => 1
  | object list => 1 + (if list.length ≤ 1 then 1 else 3) * proceduresOf list

def proceduresOf : List (String × RuleTree) → Nat
  | [] => 0
  | (_, t) :: rest => t.procedures + proceduresOf rest

end

mutual

/-- No object has more than one rule. -/
def Thin : RuleTree → Prop
  | integer => True
  | object list => list.length ≤ 1 ∧ AllThin list

def AllThin : List (String × RuleTree) → Prop
  | [] => True
  | (_, t) :: rest => t.Thin ∧ AllThin rest

end

/-- The expressions of an object differ and can be prepared. -/
inductive Readable [Regex.Engine] : RuleTree → Prop
  | integer : Readable .integer
  | object {list : List (String × RuleTree)} (hfew : list.length < Nat.pow 2 32) (hnodup : (list.map (·.1)).Nodup)
    (hread : ∀ rule ∈ list, (NamePattern.regex rule.1).Readable) (hinside : ∀ rule ∈ list, Readable rule.2) :
    Readable (.object list)

variable {t : RuleTree}

theorem constraints_eq (list : List (String × RuleTree)) :
    constraints list = list.map fun rule => (.regex rule.1, rule.2.constraint) := by
  induction list with
  | nil => rfl
  | cons rule list ih => rw [constraints, ih, List.map_cons]

theorem conjuncts_eq (t : RuleTree) : t.constraint.conjuncts none = some [t.constraint] := by
  cases t <;> rfl

mutual

theorem rules_lt_procedures : ∀ t : RuleTree, t.rules < t.procedures
  | integer => Nat.zero_lt_one
  | object list => by
    have hle := rulesOf_le_proceduresOf list
    rw [rules, procedures]
    split <;> omega

theorem rulesOf_le_proceduresOf : ∀ list : List (String × RuleTree), rulesOf list ≤ proceduresOf list
  | [] => Nat.le_refl 0
  | (_, t) :: rest => by
    have hlt := t.rules_lt_procedures
    have hle := rulesOf_le_proceduresOf rest
    rw [rulesOf, proceduresOf]
    omega

end

mutual

theorem procedures_eq_iff : ∀ t : RuleTree, t.procedures = 1 + t.rules ↔ t.Thin
  | integer => iff_of_true rfl trivial
  | object list => by
    have hle := rulesOf_le_proceduresOf list
    rw [rules, procedures, Thin, ← proceduresOf_eq_iff list]
    split
    · next hfew => simp [hfew]
    · next hmany =>
      have hpos : 0 < rulesOf list := by
        cases list with
        | nil => simp at hmany
        | cons rule list =>
          rw [rulesOf]
          omega
      simp only [hmany, false_and, iff_false]
      omega

theorem proceduresOf_eq_iff : ∀ list : List (String × RuleTree), proceduresOf list = rulesOf list ↔ AllThin list
  | [] => iff_of_true rfl trivial
  | (_, t) :: rest => by
    have hlt := t.rules_lt_procedures
    have hle := rulesOf_le_proceduresOf rest
    rw [AllThin, ← t.procedures_eq_iff, ← proceduresOf_eq_iff rest, rulesOf, proceduresOf]
    omega

end

theorem weight_le {list : List (String × RuleTree)} {rule : String × RuleTree} (h : rule ∈ list) :
    rule.2.constraint.weight ≤ ruleWeights (constraints list) := by
  induction list with
  | nil => cases h
  | cons first list ih =>
    rw [constraints, ruleWeights]
    rcases List.mem_cons.1 h with rfl | h
    · exact Nat.le_add_right ..
    · exact Nat.le_add_left_of_le (ih h)

theorem bodySizes_eq {build : Constraint → Except BadPattern Stmt} {list : List (String × RuleTree)}
    (h : ∀ rule ∈ list, ∃ body, build rule.2.constraint = .ok body ∧ 1 + body.frames = rule.2.procedures) :
    bodySizes build (constraints list) = proceduresOf list := by
  induction list with
  | nil => rfl
  | cons rule list ih =>
    obtain ⟨⟨body, hbody, hsize⟩, hrest⟩ := List.forall_mem_cons.1 h
    rw [constraints, bodySizes, bodySize, ih hrest, hbody, proceduresOf]
    exact congrArg (· + _) hsize

section

variable [Regex.Engine]

theorem every_leaf {q : Constraint → Prop} (h : t.Readable) (hinteger : Constraint.Every q .integer)
    (hobject : ∀ list : List (String × RuleTree), (∀ rule ∈ list, (NamePattern.regex rule.1).Readable) →
      q (.properties (constraints list) .valid)) : t.constraint.Every q := by
  induction h with
  | integer => exact hinteger
  | object _ _ hread _ ih =>
    refine ⟨hobject _ hread, everyRule_iff.2 ?_, ?_⟩
    · rw [constraints_eq]
      exact List.forall_mem_map.2 fun rule hrule => ih rule hrule
    · simp [Every]

theorem every_leafPatterns (h : t.Readable) : t.constraint.Every LeafPatterns :=
  every_leaf h trivial fun list hread => by
    rw [LeafPatterns, constraints_eq]
    exact List.forall_mem_map.2 hread

theorem every_leafCounts (h : t.Readable) : t.constraint.Every (LeafCounts Countable) :=
  every_leaf h trivial fun _ _ => trivial

theorem tidy (h : t.Readable) : t.constraint.Tidy :=
  tidy_of_open (every_leaf h trivial fun _ _ => rfl)

theorem frames_of_frameWithin (h : t.Readable) {fuel : Nat} (hfuel : t.constraint.weight < fuel) {body : Stmt}
    (hbody : frameWithin fuel t.constraint = .ok body) : 1 + body.frames = t.procedures := by
  induction h generalizing fuel body with
  | integer =>
    cases fuel with
    | zero => cases hfuel
    | succ fuel =>
      cases hbody
      rfl
  | @object list hfew hnodup hread hinside ih =>
    cases fuel with
    | zero => cases hfuel
    | succ fuel =>
      rw [constraint, weight] at hfuel
      have hbuilt : ∀ rule ∈ list, ∃ body, frameWithin fuel rule.2.constraint = .ok body ∧
          1 + body.frames = rule.2.procedures := fun rule hrule => by
        have hle := weight_le hrule
        have hweight : rule.2.constraint.weight < fuel := by omega
        obtain ⟨body, hbody⟩ := exists_frameWithin hweight (every_leafPatterns (hinside rule hrule))
        exact ⟨body, hbody, ih rule hrule hweight hbody⟩
      have hregular : Regular (frameWithin fuel) (constraints list) := by
        have hnames : (constraints list).map (·.1) = (list.map (·.1)).map .regex := by simp [constraints_eq]
        refine ⟨by simpa [constraints_eq] using hfew, ?_, ?_, ?_, ?_⟩
        · rw [hnames]
          exact hnodup.map fun _ _ heq => NamePattern.regex.inj heq
        all_goals
          rw [constraints_eq]
          refine List.forall_mem_map.2 fun rule hrule => ?_
        · exact ⟨rule.1, rfl, hread rule hrule⟩
        · exact conjuncts_eq rule.2
        · exact ⟨_, (hbuilt rule hrule).choose_spec.1⟩
      rw [frameWithin, Draft.finish] at hbody
      split at hbody
      · next s d hs =>
        cases hbody
        obtain ⟨member, d1, hmember, hdecls, hframes⟩ := frameBody_object hs
        have hcount := hregular.onMember_frames hmember
        rw [bodySizes_eq hbuilt, constraints_eq, List.length_map, ← hdecls, ← hframes, framesOf] at hcount
        rw [frames, Legal.framesOf_append, framesOf, framesOf, procedures]
        omega
      · cases hbody

theorem assembly_of_readable (h : t.Readable) (shareSlots : Bool) :
    ∃ a, t.constraint.assembly shareSlots = .ok a ∧ a.procs.length = t.procedures := by
  rcases Constraint.assembly_of_readable (every_leafPatterns h) (every_leafCounts h) shareSlots with
    ⟨-, body, g, facts, a, hbody, -, hlength, hcovers, ha⟩ | ⟨hnot, -⟩
  · exact ⟨a, ha, by rw [hcovers.length_eq, hlength, frames_of_frameWithin h (Nat.lt_succ_self _) hbody]⟩
  · exact absurd (tidy h) hnot

/-- The program of such an object has the procedures that the levels of its rules multiply to. For an object
with several rules these are at most three for each rule and one for the entry only if no object inside has
several rules. -/
theorem procs_of_rules (t : RuleTree) (h : t.Readable) (shareSlots : Bool) :
    (∃ a, t.constraint.assembly shareSlots = .ok a ∧ a.procs.length = t.procedures) ∧
    (∀ exe, t.constraint.compile shareSlots = .ok exe → exe.procs.size = t.procedures) ∧
    ∀ list, t = .object list → 1 < list.length → (t.procedures ≤ 1 + 3 * t.rules ↔ AllThin list) := by
  obtain ⟨a, ha, hprocs⟩ := assembly_of_readable h shareSlots
  refine ⟨⟨a, ha, hprocs⟩, fun exe hexe => ?_, ?_⟩
  · rw [compile_eq] at hexe
    obtain ⟨a', ha', hexe⟩ := except_bind_eq_ok.1 hexe
    cases ha.symm.trans ha'
    obtain ⟨image, himage, hexe⟩ := except_bind_eq_ok.1 hexe
    obtain ⟨-, rfl⟩ := Image.ofAssembly_eq_ok.1 (mapError_eq_ok.1 himage)
    obtain ⟨-, rs, -, rfl⟩ := (Image.ofImage_eq_ok rfl).1 (mapError_eq_ok.1 hexe)
    exact (Image.length_placedEntries 0 a.procs).trans hprocs
  · rintro list rfl hmany
    have hle := rulesOf_le_proceduresOf list
    rw [← proceduresOf_eq_iff, procedures, rules, if_neg (by omega)]
    omega

end

def nested : RuleTree := .object [("a", .object [("c", .integer), ("d", .integer)]), ("b", .integer)]

theorem nested_readable : nested.Readable := by
  have hread : ∀ source ∈ ["a", "b", "c", "d"], (NamePattern.regex source).Readable := by
    simp only [List.forall_mem_cons, NamePattern.Readable]
    exact ⟨by decide +kernel, by decide +kernel, by decide +kernel, by decide +kernel, by simp⟩
  simp only [List.forall_mem_cons] at hread
  obtain ⟨ha, hb, hc, hd, -⟩ := hread
  refine .object (by decide) (by decide) (by simp [ha, hb]) (List.forall_mem_cons.2 ⟨?_, by simpa using .integer⟩)
  exact .object (by decide) (by decide) (by simp [hc, hd]) (by simpa using .integer)

theorem procs_of_rules_nested : ∃ a, nested.constraint.assembly true = .ok a ∧ a.procs.length = 25 :=
  (procs_of_rules nested nested_readable true).1

/-- Four rules, and more than three procedures for each. -/
theorem procs_not_linear : ∃ a, nested.constraint.assembly true = .ok a ∧ 1 + 3 * nested.rules < a.procs.length := by
  obtain ⟨a, ha, hprocs⟩ := assembly_of_readable nested_readable true
  exact ⟨a, ha, by rw [hprocs]; decide⟩

end RuleTree

end JsonSieve
