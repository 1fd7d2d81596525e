import JsonSieve.Proofs.Assembly.Procedures
import JsonSieve.Proofs.Image.Stored
import JsonSieve.Proofs.Tree.Lowered
import JsonSieve.Regex.Builtin
import Mathlib.Data.List.Perm.Subperm

/-!
# Cases of names

A matcher has one case for each of its patterns, and the case of a name is the one that lists exactly the
patterns that apply to the name (`exists_exact`), whatever engine prepares the expressions. The case of a literal
is the set of the patterns that apply to the literal itself, so the literals of a set tell sets apart; without a
literal only a single expression is listed.
-/

namespace JsonSieve

open Regex.Engine (compile? compileSet)

/-! ## Lists -/

variable {α : Type}

theorem eraseDups_nodup [BEq α] [LawfulBEq α] : ∀ list : List α, list.eraseDups.Nodup
  | [] => .nil
  | a :: rest => by
    have hshorter := List.length_filter_le (fun b => !b == a) rest
    rw [List.eraseDups_cons, List.nodup_cons, List.mem_eraseDups]
    exact ⟨by simp, eraseDups_nodup _⟩
termination_by list => list.length

theorem eraseDups_eq_self [BEq α] [LawfulBEq α] {list : List α} (h : list.Nodup) : list.eraseDups = list := by
  induction list with
  | nil => rfl
  | cons a rest ih =>
    obtain ⟨ha, hrest⟩ := List.nodup_cons.1 h
    have hfilter : rest.filter (fun b => !b == a) = rest :=
      List.filter_eq_self.2 fun b hb => by simpa using fun heq : b = a => ha (heq ▸ hb)
    rw [List.eraseDups_cons, hfilter, ih hrest]

theorem index_eq_of_nodup {list : List α} (h : list.Nodup) {i j : Nat} {a : α} (hi : list[i]? = some a)
    (hj : list[j]? = some a) : i = j :=
  (List.getElem?_inj (List.getElem?_eq_some_iff.1 hi).1 h).1 (hi.trans hj.symm)

theorem lastIndex?_some {p : α → Bool} {list : List α} {i : Nat} (h : lastIndex? p list = some i) :
    ∃ a, list[i]? = some a ∧ p a = true := by
  induction list generalizing i with
  | nil => cases h
  | cons a rest ih =>
    rw [lastIndex?] at h
    split at h
    · next j hj =>
      cases h
      exact ih hj
    · split at h
      · next hp =>
        cases h
        exact ⟨a, rfl, hp⟩
      · cases h

theorem lastIndex?_none {p : α → Bool} {list : List α} (h : lastIndex? p list = none) : ∀ a ∈ list, p a = false := by
  induction list with
  | nil => simp
  | cons a rest ih =>
    rw [lastIndex?] at h
    split at h
    · cases h
    · next hrest =>
      split at h
      · cases h
      · next hp => exact List.forall_mem_cons.2 ⟨Bool.eq_false_iff.2 hp, ih hrest⟩

theorem lastIndex?_eq_some_iff [DecidableEq α] {list : List α} {a : α} {i : Nat} (h : list.Nodup) :
    lastIndex? (· = a) list = some i ↔ list[i]? = some a := by
  have hsome : ∀ {j}, lastIndex? (· = a) list = some j → list[j]? = some a := fun hj => by
    obtain ⟨b, hb, heq⟩ := lastIndex?_some hj
    rwa [of_decide_eq_true heq] at hb
  refine ⟨hsome, fun hi => ?_⟩
  cases hindex : lastIndex? (· = a) list with
  | none =>
    have hfalse := lastIndex?_none hindex a (List.mem_of_getElem? hi)
    simp at hfalse
  | some j => rw [index_eq_of_nodup h (hsome hindex) hi]

/-! ## Ascending lists of indices -/

variable {i j : UInt32} {list : List UInt32}

theorem mem_insertIndex : j ∈ insertIndex i list ↔ j = i ∨ j ∈ list := by
  induction list with
  | nil => simp [insertIndex]
  | cons k rest ih =>
    rw [insertIndex]
    split
    · simp
    · rw [List.mem_cons, ih, List.mem_cons]
      exact or_left_comm

theorem pairwise_insertIndex (h : list.Pairwise (· < ·)) (hi : i ∉ list) : (insertIndex i list).Pairwise (· < ·) := by
  induction list with
  | nil => simp [insertIndex]
  | cons k rest ih =>
    obtain ⟨hk, hrest⟩ := List.pairwise_cons.1 h
    rw [List.mem_cons, not_or] at hi
    rw [insertIndex]
    split
    · next hle =>
      have hlt : i < k := UInt32.lt_of_le_of_ne hle hi.1
      exact List.pairwise_cons.2 ⟨List.forall_mem_cons.2 ⟨hlt, fun x hx => UInt32.lt_trans hlt (hk x hx)⟩, h⟩
    · next hle =>
      refine List.pairwise_cons.2 ⟨fun x hx => ?_, ih hrest hi.2⟩
      rcases mem_insertIndex.1 hx with rfl | hx
      · exact UInt32.not_le.1 hle
      · exact hk x hx

theorem eq_of_pairwise_lt {list' : List UInt32} (h : list.Pairwise (· < ·)) (h' : list'.Pairwise (· < ·))
    (hmem : ∀ i, i ∈ list ↔ i ∈ list') : list = list' :=
  ((List.perm_ext_iff_of_nodup (h.imp UInt32.ne_of_lt) (h'.imp UInt32.ne_of_lt)).2 hmem).eq_of_pairwise
    (fun _ _ _ _ hlt hgt => absurd hlt (UInt32.lt_asymm hgt)) h h'

theorem saturate_lt_saturate {m n : Nat} (h : m < n) (hn : n < Nat.pow 2 32) : Word.saturate m < Word.saturate n := by
  rw [UInt32.lt_iff_toNat_lt, Assembly.toNat_saturate hn, Assembly.toNat_saturate (Nat.lt_trans h hn)]
  exact h

/-! ## What applies to a name -/

def NamePattern.text? : NamePattern → Option String
  | .literal text => some text
  | .regex _ => none

def NamePattern.source? : NamePattern → Option String
  | .literal _ => none
  | .regex source => some source

section Engine

variable [Regex.Engine]

def NamePattern.search? : NamePattern → Option (String → Bool)
  | .literal _ => none
  | .regex source => compile? source

/-- A literal applies to itself, and an expression to the names that it matches. -/
def NamePattern.applies (name : String) : NamePattern → Bool
  | .literal text => text = name
  | .regex source => (compile? source).any (· name)

open NamePattern (text? search?)

namespace Matcher

variable {m : Matcher} {patterns : List NamePattern} {start : Nat} {name : String}

/-- The indices of the patterns that apply to a name. -/
def found (m : Matcher) (name : String) : List UInt32 :=
  ((List.range m.patterns.length).filter fun j => m.patterns[j]?.any (·.applies name)).map Word.saturate

theorem mem_found : i ∈ m.found name ↔ ∃ j p, m.patterns[j]? = some p ∧ p.applies name = true ∧
    i = Word.saturate j := by
  simp only [found, List.mem_map, List.mem_filter, List.mem_range, Option.any_eq_true]
  constructor
  · rintro ⟨j, ⟨-, p, hj, hp⟩, rfl⟩
    exact ⟨j, p, hj, hp, rfl⟩
  · rintro ⟨j, p, hj, hp, rfl⟩
    exact ⟨j, ⟨(List.getElem?_eq_some_iff.1 hj).1, p, hj, hp⟩, rfl⟩

theorem pairwise_found (hsmall : m.patterns.length < Nat.pow 2 32) (name : String) :
    (m.found name).Pairwise (· < ·) := by
  refine List.pairwise_map.2 ((List.pairwise_lt_range.filter _).imp_of_mem fun {a b} _ hb hlt => ?_)
  exact saturate_lt_saturate hlt (Nat.lt_trans (List.mem_range.1 (List.mem_filter.1 hb).1) hsmall)

/-! ## Literals and expressions -/

/-- The entries that `g` makes of patterns that are counted from `start`, with the indices of the patterns. -/
def indexed {β : Type} (g : NamePattern → Option β) (start : Nat) (patterns : List NamePattern) : List (UInt32 × β) :=
  (patterns.zipIdx start).filterMap fun e => (g e.1).map (Word.saturate e.2, ·)

omit [Regex.Engine] in
theorem mem_indexed {β : Type} {g : NamePattern → Option β} {b : β} : (i, b) ∈ indexed g 0 patterns ↔
    ∃ j p, patterns[j]? = some p ∧ g p = some b ∧ i = Word.saturate j := by
  simp only [indexed, List.mem_filterMap, Prod.exists, List.mk_mem_zipIdx_iff_getElem?, Option.map_eq_some_iff,
    Prod.mk.injEq]
  constructor
  · rintro ⟨p, j, hj, b, hb, rfl, rfl⟩
    exact ⟨j, p, hj, hb, rfl⟩
  · rintro ⟨j, p, hj, hb, rfl⟩
    exact ⟨p, j, hj, b, hb, rfl, rfl⟩

omit [Regex.Engine] in
theorem pairwise_indexed {β : Type} (g : NamePattern → Option β) (hsmall : patterns.length < Nat.pow 2 32) :
    (indexed g 0 patterns).Pairwise (·.1 < ·.1) := by
  have hindices : (patterns.zipIdx 0).Pairwise (·.2 < ·.2) := by
    refine List.pairwise_map.1 ?_
    rw [List.zipIdx_map_snd]
    exact List.pairwise_lt_range'
  refine List.pairwise_filterMap.2 (hindices.imp_of_mem fun {a b} _ hb hlt x hx y hy => ?_)
  obtain ⟨x, -, rfl⟩ := Option.map_eq_some_iff.1 hx
  obtain ⟨y, -, rfl⟩ := Option.map_eq_some_iff.1 hy
  exact saturate_lt_saturate hlt (Nat.lt_trans (List.getElem?_eq_some_iff.1
    (List.mk_mem_zipIdx_iff_getElem?.1 hb)).1 hsmall)

omit [Regex.Engine] in
theorem literals_eq (start : Nat) (patterns : List NamePattern) :
    literals start patterns = (indexed text? start patterns).map Prod.swap := by
  induction patterns generalizing start with
  | nil => rfl
  | cons p patterns ih => cases p <;> simp [literals, ih, indexed, text?]

omit [Regex.Engine] in
theorem literalCases_eq (compiled : List (UInt32 × (String → Bool))) (start : Nat) (patterns : List NamePattern) :
    literalCases compiled start patterns =
      (indexed text? start patterns).map fun e => insertIndex e.1 (matching compiled e.2) := by
  induction patterns generalizing start with
  | nil => rfl
  | cons p patterns ih => cases p <;> simp [literalCases, ih, indexed, text?]

theorem compileEach_eq {compiled : List (UInt32 × (String → Bool))}
    (h : compileEach (expressions start patterns) = .ok compiled) :
    compiled = indexed search? start patterns ∧
      (indexed text? start patterns).length + compiled.length = patterns.length := by
  induction patterns generalizing start compiled with
  | nil =>
    cases h
    exact ⟨rfl, rfl⟩
  | cons p patterns ih =>
    cases p with
    | literal name =>
      obtain ⟨hcompiled, hlength⟩ := ih h
      refine ⟨hcompiled, ?_⟩
      show (_ :: indexed text? (start + 1) patterns).length + _ = _
      rw [List.length_cons, List.length_cons, ← hlength, Nat.add_right_comm]
    | regex source =>
      rw [expressions, compileEach] at h
      cases hsearch : compile? source with
      | none =>
        rw [hsearch] at h
        cases h
      | some isMatch =>
        cases hrest : compileEach (expressions (start + 1) patterns) with
        | error e =>
          simp only [hsearch, hrest] at h
          cases h
        | ok rest =>
          obtain ⟨rfl, hlength⟩ := ih hrest
          simp only [hsearch, hrest] at h
          cases h
          exact ⟨by simp [indexed, search?, hsearch], congrArg (· + 1) hlength⟩

/-- The search for a list of expressions finds those that match on their own. -/
theorem searched_eq {list : List (UInt32 × String)} {compiled : List (UInt32 × (String → Bool))}
    {search : Nat → Bool} (h : compileEach list = .ok compiled) (hsearch : ∀ k e isMatch, list[k]? = some e →
      compile? e.2 = some isMatch → search (start + k) = isMatch name) :
    (((list.map (·.1)).zipIdx start).filter fun e => search e.2).map (·.1) = matching compiled name := by
  induction list generalizing start compiled with
  | nil =>
    cases h
    rfl
  | cons e list ih =>
    rw [compileEach] at h
    cases hone : compile? e.2 with
    | none =>
      rw [hone] at h
      cases h
    | some isMatch =>
      cases hrest : compileEach list with
      | error e =>
        simp only [hone, hrest] at h
        cases h
      | ok rest =>
        simp only [hone, hrest] at h
        cases h
        have hhead : search start = isMatch name := hsearch 0 e isMatch rfl hone
        have htail := @ih (start + 1) rest hrest fun k e' isMatch' hk =>
          by simpa [Nat.add_right_comm, Nat.add_assoc] using hsearch (k + 1) e' isMatch' hk
        simp only [matching] at htail ⊢
        cases hname : isMatch name <;> simp [hhead, hname, htail]

/-! ## The sets of the cases -/

def texts (m : Matcher) : List (UInt32 × String) := indexed text? 0 m.patterns

def compiled (m : Matcher) : List (UInt32 × (String → Bool)) := indexed search? 0 m.patterns

omit [Regex.Engine] in
theorem mem_texts : (i, name) ∈ m.texts ↔ ∃ j, m.patterns[j]? = some (.literal name) ∧ i = Word.saturate j := by
  have htext : ∀ p : NamePattern, p.text? = some name ↔ p = .literal name := fun p => by
    cases p <;> simp [text?]
  simp [texts, mem_indexed, htext]

theorem mem_compiled {isMatch : String → Bool} : (i, isMatch) ∈ m.compiled ↔ ∃ j source,
    m.patterns[j]? = some (.regex source) ∧ compile? source = some isMatch ∧ i = Word.saturate j := by
  have hsearch : ∀ p : NamePattern, p.search? = some isMatch ↔
      ∃ source, p = .regex source ∧ compile? source = some isMatch :=
    fun p => by cases p <;> simp [search?]
  rw [compiled, mem_indexed]
  constructor
  · rintro ⟨j, p, hj, hp, rfl⟩
    obtain ⟨source, rfl, hf⟩ := (hsearch p).1 hp
    exact ⟨j, source, hj, hf, rfl⟩
  · rintro ⟨j, source, hj, hf, rfl⟩
    exact ⟨j, _, hj, hf, rfl⟩

theorem mem_matching : i ∈ matching m.compiled name ↔ ∃ j source, m.patterns[j]? = some (.regex source) ∧
    (NamePattern.regex source).applies name = true ∧ i = Word.saturate j := by
  have hmem : i ∈ matching m.compiled name ↔ ∃ isMatch, (i, isMatch) ∈ m.compiled ∧ isMatch name = true := by
    simp [matching]
  rw [hmem]
  simp only [mem_compiled, NamePattern.applies, Option.any_eq_true]
  constructor
  · rintro ⟨isMatch, ⟨j, source, hj, hf, rfl⟩, hmatch⟩
    exact ⟨j, source, hj, ⟨isMatch, hf, hmatch⟩, rfl⟩
  · rintro ⟨j, source, hj, ⟨isMatch, hf, hmatch⟩, rfl⟩
    exact ⟨isMatch, ⟨j, source, hj, hf, rfl⟩, hmatch⟩

theorem mem_found_of_literal {j : Nat} (hj : m.patterns[j]? = some (.literal name)) : Word.saturate j ∈ m.found name :=
  mem_found.2 ⟨j, _, hj, decide_eq_true rfl, rfl⟩

/-- What applies to a name is the name as a literal, and the expressions that match it. -/
theorem mem_found_iff : i ∈ m.found name ↔
    (∃ j, m.patterns[j]? = some (.literal name) ∧ i = Word.saturate j) ∨ i ∈ matching m.compiled name := by
  rw [mem_found, mem_matching]
  constructor
  · rintro ⟨j, p, hj, hp, rfl⟩
    cases p with
    | literal text =>
      obtain rfl : text = name := of_decide_eq_true hp
      exact .inl ⟨j, hj, rfl⟩
    | regex source => exact .inr ⟨j, source, hj, hp, rfl⟩
  · rintro (⟨j, hj, rfl⟩ | ⟨j, source, hj, hp, rfl⟩)
    · exact ⟨j, _, hj, decide_eq_true rfl, rfl⟩
    · exact ⟨j, _, hj, hp, rfl⟩

def listed (m : Matcher) : List (List UInt32) := m.texts.map (fun e => m.found e.2) ++ m.compiled.map fun e => [e.1]

theorem length_of_mem_listed {set : List UInt32} (h : set ∈ m.listed) : set ≠ [] ∧ set.length ≤ m.patterns.length := by
  rcases List.mem_append.1 h with h | h
  · obtain ⟨⟨i, text⟩, he, rfl⟩ := List.mem_map.1 h
    obtain ⟨j, hj, rfl⟩ := mem_texts.1 he
    refine ⟨List.ne_nil_of_mem (mem_found_of_literal hj), ?_⟩
    rw [found, List.length_map]
    exact Nat.le_trans (List.length_filter_le ..) (Nat.le_of_eq List.length_range)
  · obtain ⟨⟨i, f⟩, he, rfl⟩ := List.mem_map.1 h
    obtain ⟨j, source, hj, -⟩ := mem_compiled.1 he
    exact ⟨by simp, Nat.zero_lt_of_lt (List.getElem?_eq_some_iff.1 hj).1⟩

section

variable (hsmall : m.patterns.length < Nat.pow 2 32)
include hsmall

omit [Regex.Engine] in
theorem getElem?_saturate {j : Nat} {p : NamePattern} (hj : m.patterns[j]? = some p) :
    m.patterns[(Word.saturate j).toNat]? = some p := by
  rwa [Assembly.toNat_saturate (Nat.lt_trans (List.getElem?_eq_some_iff.1 hj).1 hsmall)]

omit [Regex.Engine] in
theorem eq_of_saturate_eq {j j' : Nat} {p p' : NamePattern} (hj : m.patterns[j]? = some p)
    (hj' : m.patterns[j']? = some p') (h : Word.saturate j = Word.saturate j') : p = p' := by
  have hp := getElem?_saturate hsmall hj
  rw [h, getElem?_saturate hsmall hj'] at hp
  exact (Option.some.inj hp).symm

theorem pairwise_matching (name : String) : (matching m.compiled name).Pairwise (· < ·) := by
  have hindices : m.compiled.Pairwise (·.1 < ·.1) := pairwise_indexed _ hsmall
  exact List.pairwise_map.2 (hindices.filter _)

theorem matching_eq_found (h : .literal name ∉ m.patterns) : matching m.compiled name = m.found name := by
  refine eq_of_pairwise_lt (pairwise_matching hsmall name) (pairwise_found hsmall name) fun i => ?_
  rw [mem_found_iff, or_iff_right]
  rintro ⟨j, hj, -⟩
  exact h (List.mem_of_getElem? hj)

/-- What applies to a name is listed exactly if there is a literal in it or it is a single expression. -/
theorem found_mem_listed : m.found name ∈ m.listed ↔ (∃ i ∈ m.found name, m.isLiteral i.toNat = true) ∨
    ∃ i, m.found name = [i] ∧ m.isLiteral i.toNat = false := by
  rw [listed, List.mem_append, List.mem_map, List.mem_map]
  constructor
  · rintro (⟨⟨i, text⟩, he, heq⟩ | ⟨⟨i, f⟩, he, heq⟩)
    · obtain ⟨j, hj, rfl⟩ := mem_texts.1 he
      exact .inl ⟨_, heq ▸ mem_found_of_literal hj, by rw [isLiteral, getElem?_saturate hsmall hj]⟩
    · obtain ⟨j, source, hj, -, rfl⟩ := mem_compiled.1 he
      exact .inr ⟨_, heq.symm, by rw [isLiteral, getElem?_saturate hsmall hj]⟩
  · rintro (⟨i, hi, hliteral⟩ | ⟨i, heq, hliteral⟩)
    · obtain ⟨j, p, hj, hp, rfl⟩ := mem_found.1 hi
      rw [isLiteral, getElem?_saturate hsmall hj] at hliteral
      cases p with
      | regex source => cases hliteral
      | literal text =>
        obtain rfl : text = name := of_decide_eq_true hp
        exact .inl ⟨(_, text), mem_texts.2 ⟨j, hj, rfl⟩, rfl⟩
    · obtain ⟨j, p, hj, hp, rfl⟩ := mem_found.1 (heq ▸ List.mem_singleton_self i)
      rw [isLiteral, getElem?_saturate hsmall hj] at hliteral
      cases p with
      | literal text => cases hliteral
      | regex source =>
        obtain ⟨f, hf, -⟩ := (Option.any_eq_true ..).1 hp
        exact .inr ⟨(_, f), mem_compiled.2 ⟨j, source, hj, hf, rfl⟩, heq.symm⟩

variable (hnodup : m.patterns.Nodup)
include hnodup

theorem insertIndex_eq_found {j : Nat} (h : m.patterns[j]? = some (.literal name)) :
    insertIndex (Word.saturate j) (matching m.compiled name) = m.found name := by
  refine eq_of_pairwise_lt (pairwise_insertIndex (pairwise_matching hsmall name) ?_) (pairwise_found hsmall name)
    fun i => ?_
  · rw [mem_matching]
    rintro ⟨j', source, hj', -, heq⟩
    cases eq_of_saturate_eq hsmall h hj' heq
  · rw [mem_insertIndex, mem_found_iff]
    refine or_congr_left ⟨fun hi => ⟨j, h, hi⟩, ?_⟩
    rintro ⟨j', hj', rfl⟩
    rw [index_eq_of_nodup hnodup h hj']

theorem recognizer_matching {search : String → Nat → Bool}
    (hsearch : (m.recognizerWith search).searched name = matching m.compiled name) :
    (m.recognizerWith search).matching name = m.found name := by
  have hliteral : ∀ {text : String} {i : UInt32}, (text, i) ∈ literals 0 m.patterns ↔ (i, text) ∈ m.texts := by
    simp [literals_eq, texts]
  unfold Recognizer.matching Recognizer.literal?
  rw [hsearch, show (m.recognizerWith search).literals = literals 0 m.patterns from rfl]
  cases hindex : lastIndex? (fun entry => decide (entry.1 = name)) (literals 0 m.patterns) with
  | none =>
    refine matching_eq_found hsmall fun hmem => ?_
    obtain ⟨j, hj⟩ := List.mem_iff_getElem?.1 hmem
    have hfalse := lastIndex?_none hindex _ (hliteral.2 (mem_texts.2 ⟨j, hj, rfl⟩))
    simp at hfalse
  | some k =>
    obtain ⟨⟨text, i⟩, hentry, htext⟩ := lastIndex?_some hindex
    obtain rfl : text = name := of_decide_eq_true htext
    obtain ⟨j, hj, rfl⟩ := mem_texts.1 (hliteral.1 (List.mem_of_getElem? hentry))
    simp only [Option.bind_some, hentry, Option.map_some]
    exact insertIndex_eq_found hsmall hnodup hj

theorem nodup_listed : m.listed.Nodup := by
  refine List.nodup_append.2 ⟨?_, ?_, ?_⟩
  · refine List.pairwise_map.2 ((pairwise_indexed _ hsmall).imp_of_mem fun {e e'} he he' hlt heq => ?_)
    obtain ⟨j, hj, hindex⟩ := mem_texts.1 (show (e.1, e.2) ∈ m.texts from he)
    obtain ⟨j', hj', hindex'⟩ := mem_texts.1 (show (e'.1, e'.2) ∈ m.texts from he')
    -- a literal in the set of another literal applies to that one, so it is the same
    have hmem := mem_found_of_literal hj
    rw [heq] at hmem
    obtain ⟨k, p, hk, hp, hsame⟩ := mem_found.1 hmem
    obtain rfl := eq_of_saturate_eq hsmall hj hk hsame
    have hname : e.2 = e'.2 := of_decide_eq_true hp
    rw [hname] at hj
    rw [hindex, hindex', index_eq_of_nodup hnodup hj hj'] at hlt
    exact UInt32.lt_irrefl _ hlt
  · exact List.pairwise_map.2 ((pairwise_indexed _ hsmall).imp fun hlt heq =>
      UInt32.ne_of_lt hlt (List.cons.inj heq).1)
  · intro set hset single hsingle heq
    obtain ⟨⟨i, text⟩, he, rfl⟩ := List.mem_map.1 hset
    obtain ⟨⟨i', f⟩, hf, rfl⟩ := List.mem_map.1 hsingle
    obtain ⟨j, hj, -⟩ := mem_texts.1 he
    obtain ⟨j', source, hj', -, rfl⟩ := mem_compiled.1 hf
    cases eq_of_saturate_eq hsmall hj hj' (List.mem_singleton.1 (heq ▸ mem_found_of_literal hj))

end

/-- The matcher of patterns that can be prepared. -/
theorem exists_parts (hread : ∀ p ∈ patterns, p.Readable) (hsmall : patterns.length < Nat.pow 2 32) :
    ∃ m, build patterns = .ok m ∧ m.patterns = patterns.eraseDups ∧ m.patterns.length < Nat.pow 2 32 ∧
      compileEach (expressions 0 m.patterns) = .ok m.compiled ∧ m.cases = m.listed ∧
      m.texts.length + m.compiled.length = m.patterns.length := by
  obtain ⟨compiled, hcompiled⟩ : ∃ compiled, compileEach (expressions 0 patterns.eraseDups) = .ok compiled :=
    exists_compileEach fun e he => hread _ (List.mem_eraseDups.1 (mem_expressions he))
  obtain ⟨rfl, hlength⟩ := compileEach_eq hcompiled
  let m : Matcher := ⟨patterns.eraseDups, (literalCases (indexed search? 0 patterns.eraseDups) 0
    patterns.eraseDups ++ (indexed search? 0 patterns.eraseDups).map fun e => [e.1]).eraseDups⟩
  have hnodup : m.patterns.Nodup := eraseDups_nodup patterns
  have hfew : m.patterns.length < Nat.pow 2 32 :=
    Nat.lt_of_le_of_lt (List.subperm_of_subset hnodup fun p hp => List.mem_eraseDups.1 hp).length_le hsmall
  have hlisted : m.cases = m.listed := by
    show (literalCases m.compiled 0 m.patterns ++ m.compiled.map fun e => [e.1]).eraseDups = _
    rw [← eraseDups_eq_self (nodup_listed hfew hnodup), listed, literalCases_eq]
    congr 2
    refine List.map_congr_left fun e he => ?_
    obtain ⟨j, hj, hindex⟩ := mem_texts.1 (show (e.1, e.2) ∈ m.texts from he)
    rw [hindex]
    exact insertIndex_eq_found hfew hnodup hj
  refine ⟨m, ?_, rfl, hfew, hcompiled, hlisted, hlength⟩
  unfold build
  simp only [hcompiled]
  rfl

omit [Regex.Engine] in
theorem caseOf_eq_iff {r : Recognizer} (hnodup : r.cases.Nodup) (hsmall : r.cases.length < Nat.pow 2 32)
    (hne : [] ∉ r.cases) (name : String) :
    (∀ k, 1 ≤ k → ((r.caseOf name).toNat = k ↔ r.cases[k - 1]? = some (r.matching name))) ∧
      (r.caseOf name ≠ noMatch ↔ r.matching name ∈ r.cases) := by
  unfold Recognizer.caseOf
  have hzero : noMatch.toNat = 0 := rfl
  by_cases hfound : r.matching name = []
  · have hnot : ∀ k, r.cases[k]? ≠ some [] := fun k hk => hne (List.mem_of_getElem? hk)
    simp only [hfound, List.isEmpty_nil, if_true, hzero, hnot, hne, iff_false, ne_eq, not_true]
    exact ⟨fun k hk => by omega, trivial⟩
  · have hempty : ¬ (r.matching name).isEmpty = true := by simpa using hfound
    simp only [if_neg hempty]
    cases hindex : lastIndex? (· = r.matching name) r.cases with
    | none =>
      have hnot : r.matching name ∉ r.cases := fun hmem => by
        have hfalse := lastIndex?_none hindex _ hmem
        simp at hfalse
      refine ⟨fun k hk => ⟨fun heq => ?_, fun heq => absurd (List.mem_of_getElem? heq) hnot⟩, by simp [hnot]⟩
      rw [hzero] at heq
      omega
    | some k =>
      have hk := (lastIndex?_eq_some_iff hnodup).1 hindex
      have hlt := (List.getElem?_eq_some_iff.1 hk).1
      have hnat : (Word.saturate (k + 1)).toNat = k + 1 := Assembly.toNat_saturate (by omega)
      refine ⟨fun n hn => ⟨fun heq => ?_, fun heq => ?_⟩, ?_⟩
      · rw [hnat] at heq
        rwa [← heq, Nat.add_sub_cancel]
      · rw [hnat, index_eq_of_nodup hnodup hk heq]
        omega
      · refine iff_of_true (fun heq => ?_) (List.mem_of_getElem? hk)
        have hnone := congrArg UInt32.toNat heq
        rw [hnat] at hnone
        cases hnone

/-- Every list of patterns whose expressions can be prepared has a matcher. It has one case for each pattern, and
no two of them are equal. The case of a name is the number of the set of patterns that apply to the name, if that
set is listed; it is listed exactly if there is a literal in it, or if it is a single expression. All other
names have no case. A matcher that has been stored is read back as it was. It has a recognizer exactly if the
engine can search for its expressions all at once. -/
theorem exists_exact (hagrees : Regex.Engine.Agrees) {patterns : List NamePattern}
    (hread : ∀ p ∈ patterns, p.Readable) (htexts : ∀ p ∈ patterns, p.Storable)
    (hsmall : patterns.length < Nat.pow 2 32) :
    ∃ m, build patterns = .ok m ∧ m.patterns = patterns.eraseDups ∧ m.patterns.Nodup ∧
      m.cases.Nodup ∧ m.cases.length = m.patterns.length ∧
      Codec.getMatcher (Codec.putMatcher m) = .ok (m, []) ∧
      (∀ error, compileSet m.sources = .error error → m.recognizer = .error error) ∧
      ∀ search, compileSet m.sources = .ok search → ∃ r, m.recognizer = .ok r ∧ ∀ name,
        (∀ k, 1 ≤ k → ((r.caseOf name).toNat = k ↔ m.cases[k - 1]? = some (m.found name))) ∧
        (r.caseOf name ≠ noMatch ↔ (∃ i ∈ m.found name, m.isLiteral i.toNat = true) ∨
          ∃ i, m.found name = [i] ∧ m.isLiteral i.toNat = false) := by
  obtain ⟨m, hbuild, hpatterns, hfew, hlist, hlisted, hlength⟩ := exists_parts hread hsmall
  have hnodup : m.patterns.Nodup := hpatterns ▸ eraseDups_nodup patterns
  have hcount : m.cases.length = m.patterns.length := by
    rw [hlisted, listed, List.length_append, List.length_map, List.length_map]
    exact hlength
  refine ⟨m, hbuild, hpatterns, hnodup, hlisted ▸ nodup_listed hfew hnodup, hcount, ?_, ?_⟩
  · have hfits : ∀ {n : Nat}, n ≤ m.patterns.length → Codec.Countable64 n := fun hle =>
      Nat.lt_trans (Nat.lt_of_le_of_lt hle hfew) (by decide)
    have hstore : m.Storable :=
      { patterns := hfits (Nat.le_refl _)
        texts := fun p hp => htexts p (List.mem_eraseDups.1 (hpatterns ▸ hp))
        cases := hfits (Nat.le_of_eq hcount)
        indices := fun set hset => hfits (length_of_mem_listed (hlisted ▸ hset)).2 }
    simpa using Codec.restores_matcher hstore []
  · refine ⟨fun error herror => by rw [recognizer, herror]; rfl, fun search hsearch => ?_⟩
    refine ⟨m.recognizerWith search, by rw [recognizer, hsearch]; rfl, fun name => ?_⟩
    have hfound : (m.recognizerWith search).matching name = m.found name := by
      refine recognizer_matching hfew hnodup (searched_eq hlist fun k e isMatch hk hone => ?_)
      rw [Nat.zero_add]
      exact hagrees _ search hsearch k e.2 isMatch (by rw [sources, List.getElem?_map, hk]; rfl) hone name
    have hcases : (m.recognizerWith search).cases = m.listed := hlisted
    have hcase := caseOf_eq_iff (hcases ▸ nodup_listed hfew hnodup) (hcount ▸ hfew)
      (fun hnil => (length_of_mem_listed (hcases ▸ hnil)).1 rfl) name
    rw [hfound] at hcase
    exact ⟨hcase.1, hcase.2.trans (by rw [← found_mem_listed hfew, ← hcases])⟩

end Matcher

end Engine

/-- Two expressions, and a literal that both match. -/
theorem Matcher.exists_exact_overlap :
    ∃ m r, build [.regex "a", .literal "ab", .regex "b", .regex "a"] = .ok m ∧ m.cases = [[0, 1, 2], [0], [2]] ∧
      m.recognizer = .ok r ∧ (r.caseOf "ab").toNat = 1 ∧ (r.caseOf "cb").toNat = 3 := by
  have hread : ∀ p ∈ [NamePattern.regex "a", .literal "ab", .regex "b", .regex "a"], p.Readable := by
    simp only [List.forall_mem_cons, NamePattern.Readable]
    exact ⟨by decide +kernel, trivial, by decide +kernel, by decide +kernel, by simp⟩
  obtain ⟨m, hbuild, -, -, -, -, -, -, hprepared⟩ :=
    exists_exact Regex.builtin_agrees hread (by decide) (by decide)
  have hm : build [.regex "a", .literal "ab", .regex "b", .regex "a"] =
      .ok ⟨[.regex "a", .literal "ab", .regex "b"], [[0, 1, 2], [0], [2]]⟩ := by decide +kernel
  obtain rfl := Except.ok.inj (hbuild.symm.trans hm)
  have hset : (compileSet ["a", "b"]).isOk = true := by decide +kernel
  cases hsearch : compileSet ["a", "b"] with
  | error e =>
    rw [hsearch] at hset
    cases hset
  | ok search =>
    obtain ⟨r, hr, hcase⟩ := hprepared search hsearch
    exact ⟨_, r, hbuild, rfl, hr, ((hcase "ab").1 1 (by decide)).2 (by decide +kernel),
      ((hcase "cb").1 3 (by decide)).2 (by decide +kernel)⟩

end JsonSieve
