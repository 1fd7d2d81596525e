import JsonSieve.Proofs.Assembly.Procedures
import JsonSieve.Proofs.Graph.Sound
import JsonSieve.Proofs.Image.Resolved
import JsonSieve.Proofs.Tree.Framed

/-!
# The code of well-formed frames

Every statement of a well-formed frame has code, and what the operands of the code name exists
(`stmt_emits`). So a well-formed graph has an assembly, with liveness or without (`exists_assembly`).
-/

namespace JsonSieve.Assembly

open Flat JsonSieve.Graph Legal

/-- What an operand names exists, where there are so many blocks and numbers. -/
def Scope.Names (s : Scope) (blocks floats : Nat) : Operand → Prop
  | .float k => k.toNat < floats
  | .split k => k.toNat < s.firstSplit + s.decls.splits.length
  | .matcher k => k.toNat < s.firstMatcher + s.decls.matchers.length
  | .proc k => k.toNat < s.procs
  | .label k => k.toNat < blocks
  | .address _ => False
  | .none | .slot _ | .int _ | .register _ => True

def Scope.NamesAll (s : Scope) (blocks floats : Nat) (ops : List Op) : Prop :=
  ∀ op ∈ ops, s.Names blocks floats op.a ∧ s.Names blocks floats op.b

section

variable {s : Scope} {blocks n : Nat} {op : Op} {ops ops' : List Op}

theorem Scope.NamesAll.cons (ha : s.Names blocks n op.a) (hb : s.Names blocks n op.b)
    (h : s.NamesAll blocks n ops) : s.NamesAll blocks n (op :: ops) :=
  List.forall_mem_cons.2 ⟨⟨ha, hb⟩, h⟩

theorem Scope.NamesAll.one (ha : s.Names blocks n op.a) (hb : s.Names blocks n op.b) : s.NamesAll blocks n [op] :=
  .cons ha hb (List.forall_mem_nil _)

theorem Scope.NamesAll.append (h : s.NamesAll blocks n ops) (h' : s.NamesAll blocks n ops') :
    s.NamesAll blocks n (ops ++ ops') :=
  fun op hop => (List.mem_append.1 hop).elim (h op) (h' op)

end

theorem floatOperand_ok (x : Binary64) (floats : List Binary64) : ∃ k floats',
    floatOperand x floats = .ok (.float k, floats') ∧ k.toNat < floats'.length := by
  rw [floatOperand]
  cases h : floats.findIdx? (· = x) with
  | some i =>
    have hi := (List.findIdx?_eq_some_iff_getElem.1 h).1
    exact ⟨_, _, rfl, Nat.lt_of_le_of_lt (toNat_saturate_le i) hi⟩
  | none =>
    refine ⟨_, _, rfl, Nat.lt_of_le_of_lt (toNat_saturate_le _) ?_⟩
    simp

theorem condition_isInteger (s : Scope) : s.condition (.isInteger .tokenNumber) = (do
    let one ← floatOperand .one
    pure (⟨.divides, .register .tokenNumber, one⟩, true)) := rfl

theorem condition_isMultiple (s : Scope) (x : Binary64) : s.condition (.isMultiple .tokenNumber x) = (do
      let x ← floatOperand x
      pure (⟨.divides, .register .tokenNumber, x⟩, true)) := rfl

theorem condition_reals (s : Scope) (c : Comparison) (x : Binary64) :
    s.condition (.compare c .tokenNumber (.num x)) = (do
      let x ← floatOperand x
      pure (⟨.compareReals c, .register .tokenNumber, x⟩, true)) := rfl

section

variable {s : Scope} {d : Draft} (hd : DeclaredBy d s.decls)

theorem temp_ok {t : Nat} (h : t < s.colours.length) : ∃ slot, s.temp t = pure (.slot slot) := by
  rw [Scope.temp, List.getElem?_eq_getElem h]
  exact ⟨_, rfl⟩

include hd

theorem counter_ok {c : Nat} (h : c < d.counters) : s.counter c = pure (Scope.slotAt c) :=
  if_pos (by rw [hd.counters]; exact h)

theorem bitvec_ok {bv : Nat} (h : bv < d.bitvecs) : s.bitvec bv = pure (Scope.slotAt (s.firstBitvec + bv)) :=
  if_pos (by rw [hd.bitvecs]; exact h)

theorem unique_ok {u : Nat} (h : u < d.uniques) : s.unique u = pure (Scope.slotAt (s.firstUnique + u)) :=
  if_pos (by rw [hd.uniques]; exact h)

theorem split_ok {i : Nat} (h : i < d.splits) : s.split i = pure (.split (Word.saturate (s.firstSplit + i))) ∧
    (Word.saturate (s.firstSplit + i)).toNat < s.firstSplit + s.decls.splits.length := by
  rw [← hd.splits] at h
  exact ⟨if_pos h, Nat.lt_of_le_of_lt (toNat_saturate_le _) (Nat.add_lt_add_left h _)⟩

theorem matcher_ok {m : Nat} (h : m < d.matchers) : s.matcher m = pure (.matcher (Word.saturate (s.firstMatcher + m))) ∧
    (Word.saturate (s.firstMatcher + m)).toNat < s.firstMatcher + s.decls.matchers.length := by
  rw [← hd.matchers] at h
  exact ⟨if_pos h, Nat.lt_of_le_of_lt (toNat_saturate_le _) (Nat.add_lt_add_left h _)⟩

/-! ## Conditions and statements -/

theorem intOperand_emits {e : Expr} (h : PlacedWord d s.colours.length e) :
    ∃ o, s.intOperand e = pure o ∧ ∀ blocks floats, s.Names blocks floats o := by
  cases h with
  | length => exact ⟨_, rfl, fun _ _ => trivial⟩
  | count h => exact ⟨_, counter_ok hd h, fun _ _ => trivial⟩
  | temp h =>
    obtain ⟨slot, hok⟩ := temp_ok h
    exact ⟨_, hok, fun _ _ => trivial⟩

theorem condition_emits {e : Expr} (h : Test d Countable (PlacedWord d s.colours.length) e) (blocks : Nat)
    (floats : List Binary64) : ∃ op sense floats', s.condition e floats = .ok ((op, sense), floats') ∧
      s.NamesAll blocks floats'.length [op] := by
  cases h with
  | isToken kind => exact ⟨_, _, _, rfl, .one trivial trivial⟩
  | bitTest h bit =>
    rw [Scope.condition, bitvec_ok hd h]
    exact ⟨_, _, _, rfl, .one trivial trivial⟩
  | bitsAll h =>
    rw [Scope.condition, bitvec_ok hd h]
    exact ⟨_, _, _, rfl, .one trivial trivial⟩
  | unique h =>
    rw [Scope.condition, unique_ok hd h]
    exact ⟨_, _, _, rfl, .one trivial trivial⟩
  | isInteger =>
    obtain ⟨k, floats', hok, hk⟩ := floatOperand_ok .one floats
    rw [condition_isInteger, bind_of_ok hok]
    exact ⟨_, _, _, rfl, .one trivial hk⟩
  | isMultiple x =>
    obtain ⟨k, floats', hok, hk⟩ := floatOperand_ok x floats
    rw [condition_isMultiple, bind_of_ok hok]
    exact ⟨_, _, _, rfl, .one trivial hk⟩
  | @words c a n h hn =>
    obtain ⟨o, ho, hnames⟩ := intOperand_emits hd h
    have hreal : (Scope.isReal a || Scope.isReal (.size n)) = false := by
      cases h <;> rfl
    have hsize : s.intOperand (.size n) = pure (.int (Int64.ofNat n)) := if_pos hn
    rw [Scope.condition, hreal, ho, hsize]
    exact ⟨_, _, _, rfl, .one (hnames _ _) trivial⟩
  | reals c x =>
    obtain ⟨k, floats', hok, hk⟩ := floatOperand_ok x floats
    rw [condition_reals, bind_of_ok hok]
    exact ⟨_, _, _, rfl, .one trivial hk⟩

omit hd in
theorem names_label {blocks b : Nat} (h : b < blocks) (floats : Nat) : s.Names blocks floats (Scope.label b) :=
  Nat.lt_of_le_of_lt (toNat_saturate_le _) h

omit hd in
theorem namesAll_flagBranches {blocks onSet onClear : Nat} (hset : onSet < blocks) (hclear : onClear < blocks)
    (next : Option Nat) (floats : Nat) : s.NamesAll blocks floats (Scope.flagBranches next onSet onClear) := by
  have hset := names_label (s := s) hset floats
  have hclear := names_label (s := s) hclear floats
  rw [Scope.flagBranches]
  split
  · exact .one hset trivial
  · split
    · exact .one hclear trivial
    · exact .cons hset trivial (.one hclear trivial)

omit hd in
theorem namesAll_caseBranches {blocks : Nat} {cases : List (UInt32 × Nat)} (h : ∀ c ∈ cases, c.2 < blocks)
    (slot : UInt32) (floats : Nat) : s.NamesAll blocks floats (Scope.caseBranches (.slot slot) cases) := by
  intro op hop
  obtain ⟨⟨k, block⟩, hcase, hop⟩ := List.mem_flatMap.1 hop
  have hall : s.NamesAll blocks floats [⟨.compareWords .eq, .slot slot, .int (Int64.ofNat k.toNat)⟩,
      ⟨.branchIfSet, Scope.label block, .none⟩] :=
    .cons trivial trivial (.one (names_label (h _ (List.mem_mergeSort.1 hcase)) _) trivial)
  exact hall op hop

/-- The statement names what is declared and passes the check of its frame. -/
structure Ready (s : Scope) (d : Draft) (blocks : Nat) (st : Stmt) : Prop where
  placed : Graph.Placed d Countable s.colours.length st
  checked : stmtDefect? s.procs s.colours.length st = none
  targets : ∀ j ∈ st.successors, j < blocks

theorem stmt_emits {blocks : Nat} {st : Stmt} (h : Ready s d blocks st) (next : Option Nat)
    (floats : List Binary64) : ∃ ops floats', s.stmt next st floats = .ok (ops, floats') ∧
      s.NamesAll blocks floats'.length ops := by
  obtain ⟨hplaced, hchecked, htargets⟩ := h
  cases hplaced with
  | valid | invalid | token | consume | untoken => exact ⟨_, _, rfl, .one trivial trivial⟩
  | incr h =>
    rw [Scope.stmt, counter_ok hd h]
    exact ⟨_, _, rfl, .one trivial trivial⟩
  | bitSet h bit | bitClear h bit =>
    rw [Scope.stmt, bitvec_ok hd h]
    exact ⟨_, _, rfl, .one trivial trivial⟩
  | splitBits h hsplit =>
    obtain ⟨hok, hlt⟩ := split_ok hd hsplit
    rw [Scope.stmt, hok, bitvec_ok hd h]
    exact ⟨_, _, rfl, .one hlt trivial⟩
  | call f =>
    have hf : f < s.procs := by simpa [stmtDefect?] using hchecked
    rw [Scope.stmt, if_pos hf]
    exact ⟨_, _, rfl, .one (Nat.lt_of_le_of_lt (toNat_saturate_le _) hf) trivial⟩
  | move t h =>
    obtain ⟨slot, htemp⟩ := temp_ok (s := s) (t := t) (by simpa [stmtDefect?] using hchecked)
    rw [Scope.stmt, htemp, pure_bind]
    cases h with
    | split hsplit =>
      obtain ⟨hok, hlt⟩ := split_ok hd hsplit
      rw [Scope.moveInto, hok]
      exact ⟨_, _, rfl, .one hlt trivial⟩
    | matchCase hm =>
      obtain ⟨hok, hlt⟩ := matcher_ok hd hm
      rw [Scope.moveInto, hok]
      exact ⟨_, _, rfl, .cons hlt trivial (.one trivial trivial)⟩
    | bitCount hbv =>
      rw [Scope.moveInto, bitvec_ok hd hbv]
      exact ⟨_, _, rfl, .one trivial trivial⟩
  | branch b => exact ⟨_, _, rfl, .one (names_label (htargets b (.head _)) _) trivial⟩
  | branchIf h yes no =>
    obtain ⟨op, sense, floats', hok, hnames⟩ := condition_emits hd h blocks floats
    have hyes := htargets yes (.head _)
    have hno := htargets no (.tail _ (.head _))
    rw [Scope.stmt, bind_of_ok hok]
    refine ⟨_, _, rfl, .append hnames ?_⟩
    cases sense
    · exact namesAll_flagBranches hno hyes next _
    · exact namesAll_flagBranches hyes hno next _
  | branchCase t cases otherwise =>
    obtain ⟨slot, htemp⟩ := temp_ok (s := s) (t := t) (by simpa [stmtDefect?] using hchecked)
    rw [Scope.stmt, htemp]
    have hcases : ∀ c ∈ cases, c.2 < blocks := fun c hc =>
      htargets _ (List.mem_append_left _ (List.mem_map_of_mem hc))
    have hotherwise := htargets otherwise (List.mem_append_right _ (.head _))
    exact ⟨_, _, rfl, .append (namesAll_caseBranches hcases _ _) (.one (names_label hotherwise _) trivial)⟩

end

/-! ## Frames -/

variable {s : Scope} {d : Draft} {f : Frame (List Block)} {g : Graph}

theorem Scope.NamesAll.mono {blocks n n' : Nat} {ops : List Op}
    (h : s.NamesAll blocks n ops) (hle : n ≤ n') : s.NamesAll blocks n' ops := by
  have hnames : ∀ o, s.Names blocks n o → s.Names blocks n' o := by
    intro o ho
    cases o with
    | float k => exact Nat.lt_of_lt_of_le ho hle
    | _ => exact ho
  exact fun op hop => ⟨hnames _ (h op hop).1, hnames _ (h op hop).2⟩

theorem code_cons (s : Scope) (next : Option Nat) (st : Stmt) (stmts : List Stmt) : s.code next (st :: stmts) = (do
      let ops ← s.stmt next st
      let rest ← s.code next stmts
      pure (ops ++ rest)) := by
  simp only [Scope.code, List.mapM_cons, map_bind, map_pure, bind_map_left, List.flatten_cons]

theorem code_emits {blocks : Nat} (hd : DeclaredBy d s.decls) {stmts : List Stmt}
    (h : ∀ st ∈ stmts, Ready s d blocks st) (next : Option Nat) (floats : List Binary64) :
    ∃ ops floats', s.code next stmts floats = .ok (ops, floats') ∧ s.NamesAll blocks floats'.length ops := by
  induction stmts generalizing floats with
  | nil => exact ⟨[], floats, rfl, List.forall_mem_nil _⟩
  | cons st stmts ih =>
    obtain ⟨ops, mid, hops, hnames⟩ := stmt_emits hd (h st (.head _)) next floats
    obtain ⟨rest, floats', hrest, hnames'⟩ := ih (fun t ht => h t (.tail _ ht)) mid
    have hle := ((s.stable_code next stmts) _ _ _ hrest).1.length_le
    refine ⟨ops ++ rest, floats', ?_, (hnames.mono hle).append hnames'⟩
    rw [code_cons, bind_of_ok hops, bind_of_ok hrest]
    rfl

theorem mapM_emits {size : Nat} (hd : DeclaredBy d s.decls) {blocks : List Block}
    (h : ∀ b ∈ blocks, ∀ st ∈ b.stmts, Ready s d size st) (next : Nat → Option Nat) (floats : List Binary64) :
    ∃ code floats', (blocks.mapM fun b => s.code (next b.id) b.stmts) floats = .ok (code, floats') ∧
      s.NamesAll size floats'.length code.flatten := by
  induction blocks generalizing floats with
  | nil => exact ⟨[], floats, rfl, List.forall_mem_nil _⟩
  | cons b blocks ih =>
    obtain ⟨ops, mid, hops, hnames⟩ := code_emits hd (h b (.head _)) (next b.id) floats
    obtain ⟨rest, floats', hrest, hnames'⟩ := ih (fun c hc => h c (.tail _ hc)) mid
    have hle := ((Stable.mapM (fun b : Block => s.stable_code (next b.id) b.stmts) blocks) _ _ _ hrest).1.length_le
    refine ⟨ops :: rest, floats', ?_, (hnames.mono hle).append hnames'⟩
    rw [List.mapM_cons, bind_of_ok hops, bind_of_ok hrest]
    rfl

theorem length_coloursOf (facts : Option (List Liveness.FrameFacts)) (i temps : Nat) :
    (coloursOf facts i temps).length = temps := by
  cases facts with
  | none => exact List.length_range
  | some facts => exact Liveness.FrameFacts.length_colours _ _

variable {facts : Option (List Liveness.FrameFacts)}

theorem blockCode_emits (hformed : Formed g.length f) (hout : FrameOut Countable d f) (i : Nat)
    (floats : List Binary64) : ∃ code floats', (scopeAt g facts i f).blockCode f.body floats = .ok (code, floats') ∧
      (scopeAt g facts i f).NamesAll f.body.length floats'.length code.flatten := by
  refine mapM_emits hout.declared (fun b hb st hst => ?_) (nextOf f.body) floats
  obtain ⟨-, hchecked, htargets⟩ := hformed.stmts b hb st hst
  have htemps : (scopeAt g facts i f).colours.length = f.decls.temps := length_coloursOf facts i _
  exact ⟨by rw [htemps]; exact hout.placed b hb st hst, by rw [htemps]; exact hchecked, htargets⟩

theorem exists_assembly (h : Sound Countable g) (hknown : Known g facts) :
    ∃ a, ofFlat (g.map frameOf) facts = .ok a ∧ Covers g facts g.length a := by
  refine (ofFlat_cases (fun f hf => ⟨(h f hf).1.numbered, (h f hf).1.splits⟩) hknown).resolve_right ?_
  rintro ⟨-, i, f, floats, e, hf, herror⟩
  obtain ⟨hformed, d, hout⟩ := h f (List.mem_of_getElem? hf)
  obtain ⟨code, floats', hcode, -⟩ := blockCode_emits hformed hout i floats
  rw [hcode] at herror
  cases herror

/-! ## Assemblies -/

section

variable {floats floats' : List Binary64}

theorem mapM_each {α β : Type} {f : α → Assembling β} (hf : ∀ a, Stable (f a)) {list : List α} {r : List β}
    (h : list.mapM f floats = .ok (r, floats)) :
    List.Forall₂ (fun a b => f a floats = .ok (b, floats)) list r := by
  induction list generalizing r with
  | nil =>
    rw [List.mapM_nil] at h
    cases h
    exact .nil
  | cons a list ih =>
    rw [List.mapM_cons] at h
    obtain ⟨b, hb, h⟩ := (hf a).bind_eq_ok (fun _ => .bind (.mapM hf list) fun _ => .pure _) h
    obtain ⟨rest, hrest, h⟩ := (Stable.mapM hf list).bind_eq_ok (fun _ => .pure _) h
    cases h
    exact .cons hb (ih hrest)

theorem stmt_ne_nil {s : Scope} {next : Option Nat} {st : Stmt}
    {ops : List Op} (h : s.stmt next st floats = .ok (ops, floats')) (hends : st.isTerminator = true) :
    ops ≠ [] := by
  cases st with
  | valid | invalid | branch =>
    cases h
    exact List.cons_ne_nil _ _
  | branchIf e yes no =>
    obtain ⟨_, _, -, h⟩ := bind_eq_ok h
    cases h
    exact List.cons_ne_nil _ _
  | branchCase t cases otherwise =>
    obtain ⟨_, _, -, h⟩ := bind_eq_ok h
    cases h
    exact List.append_ne_nil_of_right_ne_nil _ (List.cons_ne_nil _ _)
  | _ => cases hends

theorem code_ne_nil {s : Scope} {next : Option Nat} {stmts : List Stmt}
    {ops : List Op} (h : s.code next stmts floats = .ok (ops, floats')) {st : Stmt} (hst : st ∈ stmts)
    (hends : st.isTerminator = true) : ops ≠ [] := by
  induction stmts generalizing floats ops with
  | nil => cases hst
  | cons st' stmts ih =>
    rw [code_cons] at h
    obtain ⟨first, mid, hfirst, h⟩ := bind_eq_ok h
    obtain ⟨rest, mid', hrest, h⟩ := bind_eq_ok h
    cases h
    rcases List.mem_cons.1 hst with rfl | hst
    · exact List.append_ne_nil_of_left_ne_nil (stmt_ne_nil hfirst hends) _
    · exact List.append_ne_nil_of_right_ne_nil _ (ih hrest hst)

theorem length_le_flatten {code : List (List Op)} (h : ∀ ops ∈ code, ops ≠ []) : code.length ≤ code.flatten.length := by
  induction code with
  | nil => exact Nat.zero_le _
  | cons ops code ih =>
    have hpos := List.length_pos_of_ne_nil (h ops (.head _))
    have := ih fun x hx => h x (.tail _ hx)
    rw [List.flatten_cons, List.length_append, List.length_cons]
    omega

end

structure HasCode (g : Graph) (facts : Option (List Liveness.FrameFacts)) (a : Assembly) (i : Nat)
    (f : Frame (List Block)) (code : List (List Op)) : Prop where
  proc_eq : a.procs[i]? = some (procOf (scopeAt g facts i f) code)
  blocks_eq : (scopeAt g facts i f).blockCode f.body a.floats = .ok (code, a.floats)

variable {a : Assembly} {i : Nat} {code : List (List Op)}

theorem HasCode.each (h : HasCode g facts a i f code) : List.Forall₂ (fun b ops =>
    (scopeAt g facts i f).code (nextOf f.body b.id) b.stmts a.floats = .ok (ops, a.floats)) f.body code :=
  mapM_each (fun _ => (scopeAt g facts i f).stable_code _ _) h.blocks_eq

theorem Covers.hasCode (h : Covers g facts g.length a) (hf : g[i]? = some f) : ∃ code, HasCode g facts a i f code := by
  obtain ⟨code, hcode, hproc⟩ := h.proc i f (List.getElem?_eq_some_iff.1 hf).1 hf
  exact ⟨code, hproc, hcode⟩

theorem HasCode.get (hcode : HasCode g facts a i f code) {b : Nat} {block : Block}
    (hb : f.body[b]? = some block) : ∃ ops, code[b]? = some ops ∧
      (scopeAt g facts i f).code (nextOf f.body block.id) block.stmts a.floats = .ok (ops, a.floats) := by
  obtain ⟨hlt, rfl⟩ := List.getElem?_eq_some_iff.1 hb
  have hlt' : b < code.length := hcode.each.length_eq ▸ hlt
  exact ⟨code[b], List.getElem?_eq_getElem hlt', (List.forall₂_iff_get.1 hcode.each).2 b hlt hlt'⟩

theorem HasCode.ne_nil {n : Nat} (hcode : HasCode g facts a i f code) (hformed : Formed n f) :
    ∀ ops ∈ code, ops ≠ [] := by
  intro ops hops
  obtain ⟨b, hb, rfl⟩ := List.getElem_of_mem hops
  have hb' : b < f.body.length := hcode.each.length_eq ▸ hb
  have hok := (List.forall₂_iff_get.1 hcode.each).2 b hb' hb
  obtain ⟨before, last, hstmts, -, hends⟩ := hformed.shut f.body[b] (List.getElem_mem hb')
  have hlast : last ∈ (f.body.get ⟨b, hb'⟩).stmts := by
    rw [List.get_eq_getElem, hstmts]
    simp
  exact code_ne_nil hok hlast hends

section

variable (h : Covers g facts g.length a)
include h

theorem Covers.frame_of_proc {p : Procedure} (hp : a.procs[i]? = some p) :
    ∃ f code, g[i]? = some f ∧ HasCode g facts a i f code ∧ p = procOf (scopeAt g facts i f) code := by
  have hi : i < g.length := h.length_eq ▸ (List.getElem?_eq_some_iff.1 hp).1
  obtain ⟨code, hcode⟩ := h.hasCode (List.getElem?_eq_getElem hi)
  have hproc := hcode.proc_eq
  rw [hp, Option.some.injEq] at hproc
  exact ⟨_, code, List.getElem?_eq_getElem hi, hcode, hproc⟩

variable (hformed : ∀ f ∈ g, Formed g.length f)
include hformed

theorem Covers.ops_ne_nil : ∀ p ∈ a.procs, p.ops ≠ [] := by
  intro p hp
  obtain ⟨j, hj⟩ := List.getElem?_of_mem hp
  obtain ⟨f, code, hf, hcode, rfl⟩ := h.frame_of_proc hj
  have hf := hformed f (List.mem_of_getElem? hf)
  have hbody := List.length_pos_of_ne_nil hf.nonempty
  rw [hcode.each.length_eq] at hbody
  have hle := length_le_flatten (hcode.ne_nil hf)
  refine List.ne_nil_of_length_pos ?_
  show 0 < code.flatten.length
  omega

/-- What has an image is complete: the check of the graph has seen the rest. -/
theorem Covers.complete (hne : g ≠ []) (haddressed : Image.Addressed 0 a.procs)
    (hresolves : Image.ResolvesAll a 0 a.procs) : Image.Complete a where
  addressed := haddressed
  resolves := hresolves
  nonempty := by
    rw [← List.length_pos_iff, h.length_eq, List.length_pos_iff]
    exact hne
  code := h.ops_ne_nil hformed
  splits list hlist k hk := by
    rw [h.splits_eq, List.take_length] at hlist
    obtain ⟨names, hnames, rfl⟩ := List.mem_map.1 hlist
    obtain ⟨f, hf, hnames⟩ := List.mem_flatMap.1 hnames
    obtain ⟨name, hname, rfl⟩ := List.mem_map.1 hk
    rw [h.length_eq]
    exact (toNat_saturate_le name).trans_lt ((hformed f hf).splits names hnames name hname)

end

theorem length_take_flatMap {α : Type} {i : Nat} (hf : g[i]? = some f) (F : Frame (List Block) → List α) :
    ((g.take i).flatMap F).length + (F f).length ≤ (g.flatMap F).length := by
  have hi := (List.getElem?_eq_some_iff.1 hf).1
  have hsplit : g.flatMap F = (g.take (i + 1)).flatMap F ++ (g.drop (i + 1)).flatMap F := by
    rw [← List.flatMap_append, List.take_append_drop]
  rw [hsplit, take_succ_of hf, List.flatMap_append, List.length_append, List.length_append]
  simp only [List.flatMap_cons, List.flatMap_nil, List.append_nil]
  omega

theorem offset_lt {code : List (List Op)} (hne : ∀ ops ∈ code, ops ≠ []) {i : Nat}
    (hi : i < code.length) : (code.take i).flatten.length < code.flatten.length := by
  have hsplit : code.flatten = (code.take i).flatten ++ (code[i] ++ (code.drop (i + 1)).flatten) := by
    rw [← List.flatten_cons, ← List.drop_eq_getElem_cons hi, ← List.flatten_append, List.take_append_drop]
  have hpos := List.length_pos_of_ne_nil (hne _ (List.getElem_mem hi))
  rw [hsplit, List.length_append, List.length_append]
  omega

theorem length_le_sizeOf {procs : List Procedure} {p : Procedure} (h : p ∈ procs) :
    p.ops.length ≤ Image.sizeOf procs := by
  induction procs with
  | nil => exact absurd h List.not_mem_nil
  | cons q procs ih =>
    rw [Image.sizeOf_cons]
    rcases List.mem_cons.1 h with rfl | h
    · omega
    · have := ih h
      omega

theorem complete_of_sound (h : Sound Countable g) (hcovers : Covers g facts g.length a) (hne : g ≠ [])
    (hsize : Image.sizeOf a.procs < Nat.pow 2 32) : Image.Complete a := by
  refine hcovers.complete (fun f hf => (h f hf).1) hne (Image.addressed_of 0 (by omega))
    (Image.resolvesAll_of (fun p hp op hop o ho => ?_) 0 (by omega))
  obtain ⟨i, hi⟩ := List.getElem?_of_mem hp
  obtain ⟨f, code, hf, hcode, rfl⟩ := hcovers.frame_of_proc hi
  obtain ⟨hformed, d, hout⟩ := h f (List.mem_of_getElem? hf)
  obtain ⟨code', floats', hcode', hnames⟩ := blockCode_emits hformed hout i a.floats
  rw [hcode.blocks_eq] at hcode'
  cases hcode'
  have hname : (scopeAt g facts i f).Names f.body.length a.floats.length o := by
    rcases List.mem_cons.1 ho with rfl | ho
    · exact (hnames op hop).1
    · rw [List.mem_singleton.1 ho]
      exact (hnames op hop).2
  cases o with
  | label b =>
    have hb : b.toNat < code.length := hcode.each.length_eq ▸ hname
    have hlt := offset_lt (hcode.ne_nil hformed) hb
    have hbound : code.flatten.length ≤ _ := length_le_sizeOf hp
    exact ⟨_, getElem?_offsets hb 0, by rw [Nat.zero_add]; exact hlt, by omega⟩
  | address => exact absurd hname id
  | proc k =>
    show k.toNat < a.procs.length
    rw [hcovers.length_eq]
    exact hname
  | split k =>
    show k.toNat < a.splits.length
    rw [hcovers.splits_eq, List.take_length, List.length_map]
    exact Nat.lt_of_lt_of_le hname (length_take_flatMap hf (·.decls.splits))
  | matcher k =>
    show k.toNat < a.matchers.length
    rw [hcovers.matchers_eq, List.take_length]
    exact Nat.lt_of_lt_of_le hname (length_take_flatMap hf (·.decls.matchers))
  | float k => exact hname
  | none | slot | int | register => trivial

end JsonSieve.Assembly
