import JsonSieve.Proofs.Graph.Frames
import JsonSieve.Proofs.Tree.Framed

/-!
# The order of frames

The frames of what is inside a constraint are nested in its frame (`Body.nests`). The frame of a constraint is
legal if its counts fit (`frameWithin_legal`), and it is in order exactly if nothing inside clashes
(`orderly_frameWithin`).
-/

namespace JsonSieve.Constraint

open Draft Legal

section

variable {build : Constraint → Except BadPattern Stmt} {good : Constraint → Prop} {D : Draft}

variable {list : List Stmt} {s : Stmt} {c e : Constraint} {reject : Reason}
  {type : Option ValueType} {l : ObjectLeaves} {mask i : Nat} {expressions : List NamePattern}
  {applies : NamePattern → Bool} {group : List (NamePattern × Constraint) × Constraint}
  {pieces : List (List Constraint)} {results : List (List Stmt × Nat × Nat)}
  {entries : List (Constraint × Nat)} {parts : List Constraint} {arms : ValueType → Constraint}
  {types : List ValueType}

/-! ## What is inside has a frame -/

/-- The frame of a constraint is nested in one of some statements or among the declarations. -/
def Nests (build : Constraint → Except BadPattern Stmt) (D : Draft) (list : List Stmt)
    (e : Constraint) : Prop :=
  ∃ b, build e = .ok b ∧ (b ∈ Stmt.innerAll list ∨ b ∈ Stmt.innerAll D.decls)

theorem Nests.of_subset {list' : List Stmt} (h : Nests build D list e)
    (hinner : ∀ b ∈ Stmt.innerAll list, b ∈ Stmt.innerAll list') : Nests build D list' e := by
  obtain ⟨b, hb, hmem⟩ := h
  exact ⟨b, hb, hmem.imp_left (hinner b)⟩

theorem Nests.of_mem (h : Nests build D [s] e) (hs : s ∈ list) : Nests build D list e :=
  h.of_subset fun b hb => mem_innerAll.2 ⟨s, hs, by simpa [Stmt.innerAll] using hb⟩

theorem Nests.of_inner {s' : Stmt} (h : Nests build D [s] e)
    (hinner : ∀ b ∈ s.inner, b ∈ s'.inner) : Nests build D [s'] e := by
  refine h.of_subset fun b hb => ?_
  simp only [Stmt.innerAll, List.append_nil] at hb ⊢
  exact hinner b hb

theorem Nests.seq (h : Nests build D list e) : Nests build D [.seq list] e :=
  h.of_subset fun b hb => by simpa [Stmt.innerAll, Stmt.inner] using hb

theorem Nests.append_left {a b : List Stmt} (h : Nests build D a e) : Nests build D (a ++ b) e :=
  h.of_subset fun f hf => by rw [innerAll_append]; exact List.mem_append_left _ hf

theorem Nests.append_right {a b : List Stmt} (h : Nests build D b e) : Nests build D (a ++ b) e :=
  h.of_subset fun f hf => by rw [innerAll_append]; exact List.mem_append_right _ hf

theorem nests_of_split {frames : List Stmt} (h : D.Lists i frames) {b : Stmt} (hb : b ∈ frames)
    (hbuild : build e = .ok b) : Nests build D list e :=
  ⟨b, hbuild, .inr (h.2 b hb)⟩

theorem mem_left_of_forall₂ {α β : Type} {R : α → β → Prop} {as : List α} {bs : List β}
    (h : List.Forall₂ R as bs) {a : α} (ha : a ∈ as) : ∃ b ∈ bs, R a b :=
  mem_right_of_forall₂ h.flip ha

theorem Action.nests (h : Action build c reject s) : ∀ e ∈ c.aside, Nests build D [s] e := by
  intro e he
  obtain ⟨rfl, part, parts, hparts⟩ := mem_aside he
  cases h with
  | never h =>
    rw [h] at hparts
    cases hparts
  | always h =>
    rw [h] at hparts
    cases hparts
  | run _ hbuild => exact ⟨_, hbuild, .inl (by simp [Stmt.innerAll, Stmt.inner])⟩

theorem Ahead.nests (h : Ahead build D c reject s) : ∀ e ∈ c.aside, Nests build D [s] e := by
  intro e he
  obtain ⟨rfl, part, parts, hparts⟩ := mem_aside he
  cases h with
  | never h =>
    rw [h] at hparts
    cases hparts
  | always h =>
    rw [h] at hparts
    cases hparts
  | run _ hbuild hsplit => exact nests_of_split hsplit (List.mem_singleton_self _) hbuild

theorem Chooses.nests {choice : Choice}
    (h : Chooses build D type choice s) : ∀ c ∈ choice.parts, Nests build D list (typed type c) := by
  obtain ⟨i, frames, hframes, hsplit, -⟩ := h
  intro c hc
  obtain ⟨b, hb, hbuild⟩ := mem_left_of_forall₂ hframes hc
  exact nests_of_split hsplit hb hbuild

theorem Member.nests (h : Member build l mask applies s) : ∀ e ∈ l.asideFor applies, Nests build D [s] e := by
  obtain ⟨action, haction, rfl⟩ := h
  exact fun e he => (haction.nests e he).append_right.seq

theorem not_isNop_of_nests (h : Ahead build D e .badPropertyName s) (he : e ∈ e.aside) : s.isNop = false := by
  obtain ⟨-, part, parts, hparts⟩ := mem_aside he
  cases h with
  | never => rfl
  | run => rfl
  | always h =>
    rw [h] at hparts
    cases hparts

theorem Additional.nests
    (h : Additional build D expressions mask group list) : ∀ e ∈ group.2.aside, Nests build D list e := by
  obtain ⟨check, hcheck, rfl⟩ := h
  intro e he
  have hnests := hcheck.nests e he
  obtain ⟨rfl, -⟩ := mem_aside he
  unfold unlessApplies
  rw [not_isNop_of_nests hcheck he, if_neg Bool.false_ne_true]
  split
  · exact hnests.of_inner fun b hb => by simpa [Stmt.inner] using hb
  · exact hnests

theorem Rules.nests (h : Rules build D l mask i expressions list) :
    ∀ p ∈ expressions, ∀ e ∈ (conjunction ((l.rulesOf p).map (·.2))).aside, Nests build D list e := by
  induction h with
  | nil => exact List.forall_mem_nil _
  | cons hcheck _ ih =>
    intro p hp e he
    rcases List.mem_cons.1 hp with rfl | hp
    · have hnests := hcheck.nests e he
      obtain ⟨rfl, -⟩ := mem_aside he
      unfold whenApplies
      rw [not_isNop_of_nests hcheck he, if_neg Bool.false_ne_true]
      exact (hnests.of_inner fun b hb => by simpa [Stmt.inner] using hb).append_left
    · exact (ih p hp e he).append_right

theorem Mixed.nests (h : Mixed build D l s) : ∀ e ∈ l.asideMixed l.expressions, Nests build D [s] e := by
  obtain ⟨mask, bits, additional, rules, -, -, hadditional, hrules, rfl⟩ := h
  intro e he
  refine Nests.seq ?_
  rcases List.mem_append.1 he with he | he
  · obtain ⟨group, hgroup, he⟩ := List.mem_flatMap.1 he
    obtain ⟨list, hlist, h⟩ := mem_left_of_forall₂ hadditional hgroup
    refine ((Nests.append_right ?_).append_left).append_left
    refine (h.nests e he).of_subset fun b hb => ?_
    obtain ⟨s, hs, hb⟩ := mem_innerAll.1 hb
    exact mem_innerAll.2 ⟨s, List.mem_flatten.2 ⟨list, hlist, hs⟩, hb⟩
  · obtain ⟨p, hp, he⟩ := List.mem_flatMap.1 he
    exact ((hrules.nests p hp e he).append_right).append_left

theorem OnMember.nests [Regex.Engine] (h : OnMember build D l mask s) : ∀ e ∈ l.inside, Nests build D [s] e := by
  intro e he
  cases h with
  | plain hempty hs =>
    rw [ObjectLeaves.inside, if_pos (List.isEmpty_iff.2 hempty)] at he
    exact hs.nests e he
  | @dispatch m id bodies otherwise hne hm hid hcases hotherwise =>
    rw [ObjectLeaves.inside, if_neg (by simpa using hne), hm] at he
    rcases List.mem_append.1 he with he | he
    · obtain ⟨set, hset, he⟩ := List.mem_flatMap.1 he
      obtain ⟨body, hbody, hmember⟩ := mem_left_of_forall₂ hcases hset
      obtain ⟨k, hk, rfl⟩ := List.getElem_of_mem hbody
      have hlength := hcases.length_eq
      refine (hmember.nests e he).of_inner fun b hb => ?_
      rw [Stmt.inner]
      refine List.mem_append_left _ (mem_innerCases.2 ⟨(Word.saturate (1 + 1 * k), bodies[k]), ?_, hb⟩)
      refine List.mem_of_getElem? (i := k) ?_
      rw [List.getElem?_zip_eq_some]
      refine ⟨?_, List.getElem?_eq_getElem hk⟩
      rw [List.getElem?_map, List.getElem?_range' (by omega)]
      rfl
    · have hinner : Nests build D [otherwise] e := by
        by_cases hmany : 1 < l.expressions.length
        · rw [if_pos hmany] at hotherwise he
          exact hotherwise.nests e he
        · rw [if_neg hmany] at hotherwise he
          exact hotherwise.nests e he
      exact hinner.of_inner fun b hb => by
        rw [Stmt.inner]
        exact List.mem_append_right _ hb

theorem nests_untilEnd {body : List Stmt} (h : Nests build D body e) (loop : Nat)
    (name : String) (final : Token.Kind) : Nests build D [untilEnd loop name final body] e :=
  h.of_subset fun b hb => by simpa [untilEnd, Stmt.innerAll, Stmt.inner] using hb

theorem ChecksObject.nests [Regex.Engine] (h : ChecksObject build D l list) : ∀ e ∈ l.inside, Nests build D list e := by
  obtain ⟨count, mask, loop, member, -, -, hmember, rfl⟩ := h
  intro e he
  exact (nests_untilEnd (Nests.append_right (hmember.nests e he)) loop "props" .objectEnd).of_mem
    (List.mem_append_left _ (.head _))

theorem Pieces.nests {base : Nat}
    (h : Pieces build D base pieces results) : ∀ piece ∈ pieces, ∀ e ∈ piece, Nests build D list e := by
  induction h with
  | nil => exact List.forall_mem_nil _
  | cons hframes hsplit _ _ ih =>
    intro piece hpiece e he
    rcases List.mem_cons.1 hpiece with rfl | hpiece
    · obtain ⟨b, hb, hbuild⟩ := mem_left_of_forall₂ hframes he
      exact nests_of_split hsplit hb hbuild
    · exact ih piece hpiece e he

theorem Selects.nests {count : Nat} {action : Stmt}
    (h : Selects build count action entries s) : (∀ e, Nests build D [action] e → Nests build D [s] e) ∧
      ∀ entry ∈ entries, ∀ e ∈ entry.1.aside, Nests build D [s] e := by
  induction h with
  | nil => exact ⟨fun _ => id, List.forall_mem_nil _⟩
  | @cons action this s entry i rest hthis _ ih =>
    refine ⟨fun e he => ih.1 e (he.of_inner fun b hb => ?_), fun entry' hentry e he => ?_⟩
    · rw [Stmt.inner]
      exact List.mem_append_right _ hb
    · rcases List.mem_cons.1 hentry with rfl | hentry
      · refine ih.1 e ((hthis.nests e he).of_inner fun b hb => ?_)
        rw [Stmt.inner]
        exact List.mem_append_left _ hb
      · exact ih.2 entry' hentry e he

theorem mem_chunked_of_mem {α : Type} {list : List α} {a : α} (h : a ∈ list) : ∃ piece ∈ chunked list, a ∈ piece := by
  obtain ⟨i, hi, rfl⟩ := List.getElem_of_mem h
  have hpiece := chunked_getElem? list (i / bitvecWidth)
  rw [if_pos (Nat.lt_of_le_of_lt (Nat.mul_div_le i bitvecWidth) hi)] at hpiece
  refine ⟨_, List.mem_of_getElem? hpiece, List.mem_of_getElem? (i := i % bitvecWidth) ?_⟩
  rw [List.getElem?_take, if_pos (Nat.mod_lt i (by decide)), List.getElem?_drop, Nat.div_add_mod,
    List.getElem?_eq_getElem hi]

theorem ChecksArray.nests {l : ArrayLeaves} (h : ChecksArray build D l list) :
    ∀ e ∈ l.inside, Nests build D list e := by
  obtain ⟨count, unique, loop, base, pieces, last, action, hnone, -, -, hpieces, hlast, hselects, hsame, rfl⟩ := h
  have haction : ∀ e, Nests build D [action] e →
      Nests build D (arrayStmts l count unique loop pieces action) e := fun e he =>
    (nests_untilEnd (Nests.append_right he) loop "items" .arrayEnd).of_mem
      (List.mem_append_left _ (.head _))
  intro e he
  rcases List.mem_append.1 he with he | he
  · rcases List.mem_append.1 he with he | he
    · obtain ⟨piece, hpiece, he⟩ := mem_chunked_of_mem he
      exact hpieces.nests piece hpiece e he
    · refine haction e ?_
      cases count with
      | none => exact hsame rfl ▸ hlast.nests e he
      | some c => exact (hselects c rfl).nests.1 e (hlast.nests e he)
  · obtain ⟨entry, hentry, he⟩ := List.mem_flatMap.1 he
    cases count with
    | none =>
      rw [hnone rfl] at hentry
      cases hentry
    | some c =>
      obtain ⟨k, hk, rfl⟩ := List.getElem_of_mem hentry
      refine haction e ((hselects c rfl).nests.2 ((mergeItems l.items).1[k], k) ?_ e he)
      exact List.mem_reverse.2 (List.mem_zipIdx_iff_getElem?.2 (by simp [hk]))

theorem Arm.nests [Regex.Engine] {type : ValueType}
    (h : Arm build D type parts s) : ∀ e ∈ armInside type parts, Nests build D [s] e := by
  obtain ⟨choices, checks, hchoices, hchecks, rfl⟩ := h
  intro e he
  rcases List.mem_append.1 he with he | he
  · obtain ⟨choice, hchoice, he⟩ := List.mem_flatMap.1 he
    obtain ⟨c, hc, rfl⟩ := List.mem_map.1 he
    obtain ⟨s, -, hchooses⟩ := mem_left_of_forall₂ hchoices hchoice
    exact hchooses.nests c hc
  · refine (Nests.append_left (Nests.append_right ?_)).seq
    split at hchecks
    · next hempty =>
      rw [hempty] at he
      cases type with
      | object | array => cases he
      | _ => cases he
    · cases type with
      | object => exact ChecksObject.nests hchecks e he
      | array => exact ChecksArray.nests hchecks e he
      | _ => cases he

theorem Arms.nests [Regex.Engine] (h : Arms build D arms types s) : ∀ type ∈ types, ∀ parts,
      (arms type).conjuncts (some type) = some parts → ∀ e ∈ armInside type parts, Nests build D [s] e := by
  induction h with
  | nil => exact List.forall_mem_nil _
  | skip hnone _ ih =>
    intro type htype parts hparts
    rcases List.mem_cons.1 htype with rfl | htype
    · rw [hnone] at hparts
      cases hparts
    · exact ih type htype parts hparts
  | cons hparts hthis _ ih =>
    intro type htype parts' hparts' e he
    rcases List.mem_cons.1 htype with rfl | htype
    · rw [hparts] at hparts'
      cases hparts'
      exact (hthis.nests e he).of_inner fun b hb => by
        rw [Stmt.inner]
        exact List.mem_append_left _ hb
    · exact (ih type htype parts' hparts' e he).of_inner fun b hb => by
        rw [Stmt.inner]
        exact List.mem_append_right _ hb

theorem Body.nests [Regex.Engine] (h : Body build D c s) : ∀ e ∈ c.inside, Nests build D [s] e := by
  intro e he
  cases h with
  | never hnone =>
    rw [inside, hnone] at he
    cases he
  | @whole parts choices hparts harms hchoices =>
    rw [inside, hparts] at he
    rcases List.mem_append.1 he with he | he
    · obtain ⟨choice, hchoice, he⟩ := List.mem_flatMap.1 he
      obtain ⟨s, -, hchooses⟩ := mem_left_of_forall₂ hchoices hchoice
      exact hchooses.nests e he
    · obtain ⟨type, -, he⟩ := List.mem_flatMap.1 he
      rw [Outline.armAt, harms] at he
      cases type <;> cases he
  | @arms parts choices selected hparts hchoices hselected =>
    rw [inside, hparts] at he
    rcases List.mem_append.1 he with he | he
    · obtain ⟨choice, hchoice, he⟩ := List.mem_flatMap.1 he
      obtain ⟨s, -, hchooses⟩ := mem_left_of_forall₂ hchoices hchoice
      exact hchooses.nests e he
    · obtain ⟨type, htype, he⟩ := List.mem_flatMap.1 he
      cases harm : ((Outline.ofParts parts).armAt type).conjuncts (some type) with
      | none =>
        rw [harm] at he
        cases he
      | some armParts =>
        rw [harm] at he
        have hnests := hselected.nests type htype armParts harm e he
        exact (hnests.of_mem (by simp)).seq

end

/-! ## Frames -/

variable {body : Stmt} {c : Constraint} {fuel : Nat}

theorem frameWithin_lowered [Regex.Engine] (h : frameWithin (fuel + 1) c = .ok body) :
    ∃ D s, body = .seq (D.decls ++ [s]) ∧ Declares (Built (frameWithin fuel) (· ∈ c.inside)) D ∧ Body (frameWithin fuel) D c s :=
  finish_lowered h fun _ => id

theorem frameWithin_legal [Regex.Engine] {fits : Nat → Prop} (hfits : Counting fits) (hweight : c.weight < fuel)
    (hc : c.Every (LeafCounts fits))
    (h : frameWithin fuel c = .ok body) : Legal.Frame fits fuel body := by
  induction fuel generalizing c body with
  | zero => omega
  | succ fuel ih =>
    obtain ⟨D, s, rfl, hD, hbody⟩ := frameWithin_lowered h
    have hframe : ∀ b, Built (frameWithin fuel) (· ∈ c.inside) b → Legal.Frame fits fuel b := by
      rintro b ⟨e, he, hb⟩
      obtain ⟨hlt, hevery⟩ := below_of_mem_inside he
      exact ih (by omega) (hevery _ hc) hb
    obtain ⟨hcode, hfalls, -⟩ := hbody.code hfits (fun _ => id) hc
    exact ⟨D, s, rfl, hD.mono hframe, hcode.mono hframe, hfalls⟩

/-- One constraint is inside another one, directly or not, or is the same. -/
abbrev Within [Regex.Engine] : Constraint → Constraint → Prop := Relation.ReflTransGen fun c e => e ∈ c.inside

def Tidy [Regex.Engine] (c : Constraint) : Prop := ∀ e, Within c e → ¬ e.Clashes

theorem tidy_iff [Regex.Engine] : c.Tidy ↔ ¬ c.Clashes ∧ ∀ e ∈ c.inside, e.Tidy := by
  constructor
  · exact fun h => ⟨h c .refl, fun e he e' he' => h e' (.head he he')⟩
  · intro h e he
    rcases he.cases_head with rfl | ⟨f, hf, he⟩
    · exact h.1
    · exact h.2 f hf e he

theorem orderly_frameWithin [Regex.Engine] (hweight : c.weight < fuel)
    (h : frameWithin fuel c = .ok body) : Graph.Orderly body ↔ c.Tidy := by
  induction fuel generalizing c body with
  | zero => omega
  | succ fuel ih =>
    obtain ⟨D, s, rfl, hD, hbody⟩ := frameWithin_lowered h
    have hlt : ∀ e ∈ c.inside, e.weight < fuel := fun e he => by
      have := (below_of_mem_inside he).1
      omega
    obtain ⟨hcode, -, hordered⟩ := hbody.code counting_true (fun _ => id) (every_of_forall leafCounts_true c)
    rw [← ordered_snoc fun s hs => (hD.each s hs).2] at hordered
    rw [Graph.orderly_iff, tidy_iff, hordered, inner_frame]
    refine and_congr_right fun _ => ⟨fun hall e he => ?_, fun hall b hb => ?_⟩
    · obtain ⟨b, hb, hmem⟩ := hbody.nests e he
      refine (ih (hlt e he) hb).1 (hall b (List.mem_append.2 (Or.symm ?_)))
      exact hmem.imp_left fun h => by simpa [Stmt.innerAll] using h
    · obtain ⟨e, he, hb⟩ : Built (frameWithin fuel) (· ∈ c.inside) b := by
        rcases List.mem_append.1 hb with hb | hb
        · exact hD.mem_inner b hb
        · exact hcode.mem_inner b hb
      exact (ih (hlt e he) hb).2 (hall e he)

/-- Every object allows all other names. -/
def OpenLeaf : Constraint → Prop
  | .properties _ additional => additional = .valid
  | _ => True

/-- Where objects allow all other names, nothing clashes. -/
theorem tidy_of_open [Regex.Engine] (h : c.Every OpenLeaf) : c.Tidy := by
  intro e he
  have heach : e.Every OpenLeaf := by
    induction he with
    | refl => exact h
    | tail _ hin ih => exact (below_of_mem_inside hin).2 _ ih
  rintro ⟨parts, armParts, hparts, harm, -, group, hgroup, hnone, -⟩
  have hleaf := (groups_sublist _).subset (List.mem_map_of_mem hgroup)
  have hopen : (properties group.1 group.2).Every OpenLeaf :=
    (part_of_mem_conjuncts _ _ harm _ (List.mem_filter.1 hleaf).1).every (every_armAt heach hparts .object)
  have hvalid : group.2 = .valid := hopen.1
  rw [hvalid] at hnone
  cases hnone

end JsonSieve.Constraint
