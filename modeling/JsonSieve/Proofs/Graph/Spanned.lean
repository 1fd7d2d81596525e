import JsonSieve.Proofs.Graph.Decided
import JsonSieve.Proofs.Graph.Frames

/-!
# Laying out tame statements

If laying out a tame statement succeeds, then in every graph with the blocks of the layout the statement
stands where `Spans` says (`layStmt_spans`), and what it declares has been registered under the next
numbers. One lemma for each kind of statement takes the layout apart; the induction over the statement puts
them together.
-/

namespace JsonSieve

/-! ## Declarations -/

/-- What a part of a frame declares, each thing with its number. -/
structure Notes where
  matchers : List (Nat × Matcher) := []
  bitvecs : List (Nat × Nat) := []
  splits : List (Nat × List Stmt) := []

def Notes.append (a b : Notes) : Notes :=
  ⟨a.matchers ++ b.matchers, a.bitvecs ++ b.bitvecs, a.splits ++ b.splits⟩

mutual

/-- What a statement declares, outside of branches that a constant condition excludes. -/
def Stmt.notes : Stmt → Notes
  | .matcher id m => { matchers := [(id, m)] }
  | .bitvec id _ size => { bitvecs := [(id, size)] }
  | .splitList id frames => { splits := [(id, frames)] }
  | .seq list => Stmt.notesOf list
  | .ite condition yes no =>
    match condition.fold with
    | .bool true => yes.notes
    | .bool false => no.notes
    | _ => yes.notes.append no.notes
  | .loop _ _ body => body.notes
  | .dispatch _ cases otherwise => (Stmt.notesOfCases cases).append otherwise.notes
  | _ => {}

def Stmt.notesOf : List Stmt → Notes
  | [] => {}
  | s :: rest => s.notes.append (Stmt.notesOf rest)

def Stmt.notesOfCases : List (UInt32 × Stmt) → Notes
  | [] => {}
  | (_, s) :: rest => s.notes.append (Stmt.notesOfCases rest)

end

namespace Graph

open Layout
open Stmt (simplified simplifiedAll simplifiedCases tameAll)

/-- New things stand behind the old ones, under the next numbers. -/
def Extends {α : Type} (old : List α) (new : List (Nat × α)) (all : List α) : Prop :=
  all = old ++ new.map (·.2) ∧ new.map (·.1) = List.range' old.length new.length

namespace Extends

variable {α : Type} {old mid all : List α} {new new' : List (Nat × α)}

theorem nil (old : List α) : Extends old [] old := by simp [Extends]

theorem one (old : List α) (a : α) : Extends old [(old.length, a)] (old ++ [a]) := by simp [Extends]

theorem append (h : Extends old new mid) (h' : Extends mid new' all) : Extends old (new ++ new') all := by
  refine ⟨by rw [h'.1, h.1, List.map_append, List.append_assoc], ?_⟩
  rw [List.map_append, h.2, h'.2, h.1, List.length_append, List.length_map, List.length_append, List.range'_append_1]

theorem lookup (h : Extends [] new all) (i : Nat) : new.lookup i = all[i]? := by
  obtain ⟨rfl, hids⟩ := h
  suffices hsuffices : ∀ (new : List (Nat × α)) (start : Nat),
      new.map (·.1) = List.range' start new.length → start ≤ i →
      new.lookup i = (new.map (·.2))[i - start]? from hsuffices new 0 hids (Nat.zero_le i)
  intro new
  induction new with
  | nil => simp
  | cons a new ih =>
    intro start hids hstart
    simp only [List.map_cons, List.length_cons, List.range'_succ, List.cons.injEq] at hids
    rw [List.lookup_cons]
    by_cases heq : i = a.1
    · simp [heq, hids.1]
    · rw [show (i == a.1) = false by simpa using heq]
      rw [ih (start + 1) hids.2 (by omega), List.map_cons,
        show i - start = i - (start + 1) + 1 by omega, List.getElem?_cons_succ]

end Extends

/-- What is noted has been declared; `frameAt` tells which body a frame has. -/
structure Registers (frameAt : Nat → Stmt → Prop) (d : Notes) (decls decls' : Decls) : Prop where
  matchers : Extends decls.matchers d.matchers decls'.matchers
  bitvecs : Extends (decls.bitvecs.map (·.size)) d.bitvecs (decls'.bitvecs.map (·.size))
  splits : ∃ ids, Extends decls.splits ids decls'.splits ∧ List.Forall₂
    (fun a b => a.1 = b.1 ∧ List.Forall₂ frameAt a.2 (simplifiedAll b.2)) ids d.splits

namespace Registers

variable {frameAt : Nat → Stmt → Prop} {d d' : Notes} {decls decls' decls'' : Decls}

theorem of_same (hmatchers : decls'.matchers = decls.matchers) (hbitvecs : decls'.bitvecs = decls.bitvecs)
    (hsplits : decls'.splits = decls.splits) : Registers frameAt {} decls decls' where
  matchers := hmatchers ▸ .nil _
  bitvecs := hbitvecs ▸ .nil _
  splits := ⟨[], hsplits ▸ .nil _, .nil⟩

theorem append (h : Registers frameAt d decls decls') (h' : Registers frameAt d' decls' decls'') :
    Registers frameAt (d.append d') decls decls'' where
  matchers := h.matchers.append h'.matchers
  bitvecs := h.bitvecs.append h'.bitvecs
  splits := by
    obtain ⟨ids, hids, hrel⟩ := h.splits
    obtain ⟨ids', hids', hrel'⟩ := h'.splits
    exact ⟨ids ++ ids', hids.append hids', List.rel_append hrel hrel'⟩

theorem matcher (decls : Decls) (m : Matcher) : Registers frameAt
    { matchers := [(decls.matchers.length, m)] } decls { decls with matchers := decls.matchers ++ [m] } where
  matchers := .one _ m
  bitvecs := .nil _
  splits := ⟨[], .nil _, .nil⟩

theorem bitvec (decls : Decls) (name : String) (size : Nat) : Registers frameAt
    { bitvecs := [(decls.bitvecs.length, size)] } decls
    { decls with bitvecs := decls.bitvecs ++ [⟨name, size⟩] } where
  matchers := .nil _
  bitvecs := by
    have hone := Extends.one (decls.bitvecs.map (·.size)) size
    rw [List.length_map] at hone
    simpa using hone
  splits := ⟨[], .nil _, .nil⟩

theorem split (decls : Decls) {ids : List Nat} {frames : List Stmt}
    (h : List.Forall₂ frameAt ids (simplifiedAll frames)) : Registers frameAt
    { splits := [(decls.splits.length, frames)] } decls { decls with splits := decls.splits ++ [ids] } where
  matchers := .nil _
  bitvecs := .nil _
  splits := ⟨[(decls.splits.length, ids)], .one _ ids, .cons ⟨rfl, h⟩ .nil⟩

end Registers

/-! ## Joins -/

structure JoinLaid (ends : List (Option Nat)) (touched : Nat → Prop) (n : Nat) (l l' : Layout) : Prop where
  sound : l'.Sound
  evolves : l.Evolves touched n 0 l'
  loops_eq : l'.loops = l.loops
  decls_eq : l'.decls = l.decls
  region : ∀ b, l'.current = some b → n ≤ b
  joins : ∀ frameAt code, l'.Covered frameAt code → ∀ e ∈ ends,
    Joins code (e.map (l.rest code)) (l'.current.map (l'.rest code))

variable {l l' l1 : Layout} {s yes : Stmt} {condition : Expr}

theorem forM_branch (touched : Nat → Prop) (n : Nat) {j : Nat} (live : List Nat) (hsound : l.Sound)
    (hlive : ∀ b ∈ live, l.Ready b ∧ (touched b ∨ n ≤ b))
    (heq : (live.forM fun b => do
      goTo (some b)
      emit (.branch j)) l = .ok ((), l')) :
    l'.Sound ∧ l.Evolves touched n 0 l' ∧ l'.loops = l.loops ∧ l'.decls = l.decls ∧
      (∀ i ∉ live, l'.stmtsAt i = l.stmtsAt i) ∧
      ∀ frameAt code, l'.Covered frameAt code → ∀ b ∈ live, ∃ k, l.rest code b = .branch j :: k := by
  induction live generalizing l with
  | nil =>
    obtain ⟨-, rfl⟩ := pure_ok heq
    exact ⟨hsound, .refl _, rfl, rfl, fun _ _ => rfl, fun _ _ _ b hb => by cases hb⟩
  | cons c live ih =>
    rw [List.forM] at heq
    obtain ⟨_, l1, hstep, heq⟩ := bind_ok heq
    rw [bind_of_ok (goTo_eq _ l), emit_eq rfl] at hstep
    cases hstep
    obtain ⟨hready, htouched⟩ := hlive c (.head _)
    have hput : l.Evolves touched n 0 ((l.moved (some c)).put c (.branch j)) :=
      (Evolves.moved (some c) l).trans (.put (l := l.moved (some c)) hready.1 htouched _)
    have hsound1 : ((l.moved (some c)).put c (.branch j)).Sound :=
      (hsound.moved fun b (hb : some c = some b) => by cases hb; exact hready).put hready _
    have hstmts : ∀ i, i ≠ c → ((l.moved (some c)).put c (.branch j)).stmtsAt i = l.stmtsAt i :=
      fun i hi => by
        rw [stmtsAt_put (l := l.moved (some c)) hready.1, if_neg hi]
        rfl
    obtain ⟨hsound', hevolves, hloops, hdecls, hsame, hbranch⟩ := ih hsound1 (fun b hb =>
      ⟨⟨by simpa using (hlive b (List.mem_cons_of_mem c hb)).1.1,
        (hlive b (List.mem_cons_of_mem c hb)).1.2⟩, (hlive b (List.mem_cons_of_mem c hb)).2⟩) heq
    refine ⟨hsound', hput.trans hevolves, hloops, hdecls, fun i hi => ?_, fun frameAt code hcovered b hb => ?_⟩
    · simp only [List.mem_cons, not_or] at hi
      rw [hsame i hi.2, hstmts i hi.1]
    · by_cases hbc : b = c
      · subst hbc
        have hrest := rest_put (l := l.moved (some b)) hready.1 (hcovered.of_le hevolves.le)
        rw [@rest_of_same code l (l.moved (some b)) b rfl] at hrest
        exact ⟨_, hrest⟩
      · obtain ⟨k, hk⟩ := hbranch frameAt code hcovered b ((List.mem_cons.1 hb).resolve_left hbc)
        rw [rest_of_same (hstmts b hbc)] at hk
        exact ⟨k, hk⟩

variable {ends : List (Option Nat)} {cases : List (UInt32 × Stmt)}

theorem join_laid (touched : Nat → Prop) (n : Nat) {name : String} (hsound : l.Sound) (hn : n ≤ l.blocks.size)
    (hends : ∀ b, some b ∈ ends → l.Ready b ∧ (touched b ∨ n ≤ b))
    (heq : join ends name l = .ok ((), l')) : JoinLaid ends touched n l l' := by
  have hmem : ∀ b, b ∈ ends.filterMap id ↔ some b ∈ ends := by simp
  rw [join] at heq
  split at heq
  · next hempty =>
    rw [goTo_eq] at heq
    cases heq
    exact {
      sound := hsound.moved fun b hb => by cases hb
      evolves := .moved none l
      loops_eq := rfl
      decls_eq := rfl
      region := fun b hb => by cases hb
      joins := fun frameAt code _ e he => by
        cases e with
        | none => exact .ended
        | some b =>
          rw [List.isEmpty_iff.1 hempty] at hmem
          exact absurd ((hmem b).2 he) List.not_mem_nil }
  · rw [bind_of_ok (newBlock_eq name l)] at heq
    obtain ⟨_, l1, hforM, heq⟩ := bind_ok heq
    rw [goTo_eq] at heq
    cases heq
    have hlive : ∀ b ∈ ends.filterMap id, (l.pushed name).Ready b ∧ (touched b ∨ n ≤ b) := fun b hb => by
      obtain ⟨hready, htouched⟩ := hends b ((hmem b).1 hb)
      exact ⟨⟨by simpa using Nat.lt_succ_of_lt hready.1, hready.2⟩, htouched⟩
    obtain ⟨hsound1, hevolves, hloops, hdecls, hsame, hbranch⟩ :=
      forM_branch touched n _ (hsound.pushed name) hlive hforM
    have hnew : l.blocks.size ∉ ends.filterMap id := fun hb =>
      absurd (hends _ ((hmem _).1 hb)).1.1 (Nat.lt_irrefl _)
    have hready : l1.Ready l.blocks.size := by
      refine ⟨Nat.lt_of_lt_of_le (by simp) hevolves.size_le, ?_⟩
      rw [hloops]
      exact (hsound.ready_new name).2
    exact {
      sound := hsound1.moved fun b hb => by cases hb; exact hready
      evolves := (Evolves.pushed name l).trans (hevolves.trans (.moved _ l1))
      loops_eq := hloops
      decls_eq := hdecls
      region := fun b hb => by cases hb; exact hn
      joins := fun frameAt code hcovered e he => by
        cases e with
        | none => exact .ended
        | some b =>
          obtain ⟨k, hk⟩ := hbranch frameAt code (hcovered.of_le (.moved _ l1)) b ((hmem b).2 he)
          rw [rest_of_same (stmtsAt_new name l b)] at hk
          have hjoin : (l1.moved (some l.blocks.size)).rest code l.blocks.size = code l.blocks.size :=
            rest_of_empty ((hsame _ hnew).trans ((stmtsAt_new name l _).trans l.stmtsAt_size))
          show Joins code (some (l.rest code b)) (some ((l1.moved (some l.blocks.size)).rest code _))
          rw [hk, hjoin]
          exact .jump }

/-! ## Statements -/

structure Spanned (s : Stmt) (l l' : Layout) : Prop where
  sound : l'.Sound
  evolves : l.Evolves (l.current = some ·) l.blocks.size s.simplified.frames l'
  region : ∀ b, l'.current = some b → l.current = some b ∨ l.blocks.size ≤ b
  ended : l.current = none → l'.current = none
  registers : ∀ frameAt code, l'.Covered frameAt code → Registers frameAt s.notes l.decls l'.decls
  spans : ∀ frameAt code exits b, l'.Covered frameAt code → Fits l'.loops exits →
    l.current = some b → Spans frameAt code exits s (l.rest code b) (l'.current.map (l'.rest code))

/-- If laying out a statement succeeds, then it stands where it should. -/
def Spannable (s : Stmt) : Prop :=
  ∀ {l l' : Layout}, l.Sound → layStmt s.simplified l = .ok ((), l') → Spanned s l l'

theorem spanned_inert (h : Inert s = true) (hframes : s.simplified.frames = 0)
    {decls : Decls} (hsound : l.Sound) (hregisters : ∀ frameAt, Registers frameAt s.notes l.decls decls) :
    Spanned s l { l with decls } where
  sound := hsound.of_same _ rfl rfl rfl
  evolves := by
    rw [hframes]
    exact .of_same rfl rfl rfl rfl
  region b hb := .inl hb
  ended hnone := hnone
  registers frameAt _ _ := hregisters frameAt
  spans frameAt code exits b _ _ hb := by
    rw [show ({ l with decls } : Layout).current = some b from hb]
    exact .inert h

theorem Spannable.nop : Spannable .nop := fun hsound heq => by
  simp only [simplified, layStmt] at heq
  obtain ⟨-, rfl⟩ := pure_ok heq
  exact spanned_inert rfl rfl hsound fun _ => .of_same rfl rfl rfl

theorem Spannable.counter (id : Nat) (name : String) : Spannable (.counter id name) := fun hsound heq => by
  simp only [simplified, layStmt] at heq
  obtain ⟨-, rfl⟩ := declare_inv heq
  exact spanned_inert rfl rfl hsound fun _ => .of_same rfl rfl rfl

theorem Spannable.uniqueSet (id : Nat) : Spannable (.uniqueSet id) := fun hsound heq => by
  simp only [simplified, layStmt] at heq
  obtain ⟨-, rfl⟩ := declare_inv heq
  exact spanned_inert rfl rfl hsound fun _ => .of_same rfl rfl rfl

theorem Spannable.matcher (id : Nat) (m : Matcher) : Spannable (.matcher id m) := fun hsound heq => by
  simp only [simplified, layStmt] at heq
  obtain ⟨rfl, rfl⟩ := declare_inv heq
  exact spanned_inert rfl rfl hsound fun _ => .matcher _ m

theorem Spannable.bitvec (id : Nat) (name : String) (size : Nat) : Spannable (.bitvec id name size) :=
  fun hsound heq => by
    simp only [simplified, layStmt] at heq
    obtain ⟨rfl, rfl⟩ := declare_inv heq
    exact spanned_inert rfl rfl hsound fun _ => .bitvec _ name size

theorem tamed_of_mem {frames : List Stmt} (h : tameAll frames = true) :
    ∀ body ∈ simplifiedAll frames, Tamed body := by
  induction frames with
  | nil => simp [simplifiedAll]
  | cons s frames ih =>
    rw [tameAll, Bool.and_eq_true] at h
    rw [simplifiedAll]
    exact List.forall_mem_cons.2 ⟨⟨s, h.1, rfl⟩, ih h.2⟩

theorem Spannable.splitList (id : Nat) {frames : List Stmt} (htame : tameAll frames = true) :
    Spannable (.splitList id frames) := fun {l l'} hsound heq => by
  rw [simplified, layStmt, bind_of_ok (mapM_hoist _ _)] at heq
  obtain ⟨hid, rfl⟩ := declare_inv heq
  obtain rfl : id = l.decls.splits.length := hid
  exact {
    sound := hsound.of_same _ rfl rfl rfl
    evolves := by
      rw [simplified, Stmt.frames]
      exact .hoists rfl rfl rfl rfl (tamed_of_mem htame)
    region := fun b hb => .inl hb
    ended := id
    registers := fun frameAt code hcovered => by
      refine .split _ (forall₂_range' _ _ fun i body hbody => ?_)
      have hlt := (List.getElem?_eq_some_iff.1 hbody).1
      refine hcovered.nested (l.nested.length + i) body _ ?_ ?_
      · show (l.nested ++ simplifiedAll frames)[l.nested.length + i]? = some body
        rw [List.getElem?_append_right (Nat.le_add_right ..), Nat.add_sub_cancel_left, hbody]
      · simp only [Layout.declared, List.length_append]
        omega
    spans := fun frameAt code exits b _ _ hb => by
      show Spans frameAt code exits _ _ (l.current.map _)
      rw [hb]
      exact .inert rfl }

/-- Statements that stand in the current block as they are. -/
theorem spanned_emit {t : Stmt} (hframes : s.simplified.frames = 0) (hnotes : s.notes = {}) (hsound : l.Sound)
    (heq : emit t l = .ok ((), l'))
    (hspans : ∀ frameAt code exits k, Spans frameAt code exits s (t :: k)
      (if t.isTerminator then none else some k)) : Spanned s l l' := by
  obtain ⟨b, hcurrent, rfl⟩ := emit_ok heq
  have hready := hsound.ready b hcurrent
  have hcurrent' : (l.put b t).current = if t.isTerminator then none else some b := rfl
  exact {
    sound := hsound.put hready t
    evolves := by
      rw [hframes]
      exact .put hready.1 (.inl hcurrent) t
    region := fun b' hb' => by
      rw [hcurrent'] at hb'
      split at hb'
      · cases hb'
      · cases hb'
        exact .inl hcurrent
    ended := fun hnone => by
      rw [hcurrent] at hnone
      cases hnone
    registers := fun frameAt _ _ => by
      rw [hnotes]
      exact .of_same rfl rfl rfl
    spans := fun frameAt code exits b' hcovered _ hb' => by
      rw [hcurrent] at hb'
      cases hb'
      rw [rest_put hready.1 hcovered, hcurrent']
      have hspan := hspans frameAt code exits ((l.put b t).rest code b)
      split
      · rwa [if_pos ‹_›] at hspan
      · rwa [if_neg ‹_›] at hspan }

theorem Spannable.simple (h : Simple s = true) : Spannable s := fun hsound heq => by
  have hlay : layStmt s.simplified = emit s := by
    cases s <;> simp only [Simple, Bool.false_eq_true] at h <;> simp only [simplified, layStmt]
  rw [hlay] at heq
  cases s <;> simp only [Simple, Bool.false_eq_true] at h <;>
    exact spanned_emit rfl rfl hsound heq fun _ _ _ _ => .simple rfl

theorem Spannable.valid : Spannable .valid := fun hsound heq => by
  simp only [simplified, layStmt] at heq
  exact spanned_emit rfl rfl hsound heq fun _ _ _ _ => .valid

theorem Spannable.invalid (reason : Reason) : Spannable (.invalid reason) := fun hsound heq => by
  simp only [simplified, layStmt] at heq
  exact spanned_emit rfl rfl hsound heq fun _ _ _ _ => .invalid

theorem Spannable.frame (body : Stmt) (htame : body.tame = true) : Spannable (.frame body) :=
    fun {l l'} hsound heq => by
  rw [simplified, layStmt, bind_of_ok (hoist_eq _ l)] at heq
  obtain ⟨b, hcurrent, rfl⟩ := emit_ok heq
  have hcurrent : l.current = some b := hcurrent
  have hready := hsound.ready b hcurrent
  have hhoist : l.Evolves (l.current = some ·) l.blocks.size (1 + body.simplified.frames)
      (l.hoisted body.simplified) := by
    have hcount : [body.simplified].length + Stmt.framesOf [body.simplified] =
        1 + body.simplified.frames := by simp [Stmt.framesOf]
    rw [← hcount]
    exact .hoists rfl rfl rfl rfl (List.forall_mem_singleton.2 ⟨body, htame, rfl⟩)
  have hput : (l.hoisted body.simplified).Evolves (l.current = some ·) l.blocks.size 0
      ((l.hoisted body.simplified).put b (.call l.nextFrame)) :=
    .put (l := l.hoisted body.simplified) hready.1 (.inl hcurrent) _
  exact {
    sound := (hsound.of_same (l.hoisted body.simplified) rfl rfl rfl).put hready _
    evolves := hhoist.trans hput
    region := fun b' hb' => by
      cases hb'
      exact .inl hcurrent
    ended := fun hnone => by
      rw [hcurrent] at hnone
      cases hnone
    registers := fun frameAt _ _ => .of_same rfl rfl rfl
    spans := fun frameAt code exits b' hcovered _ hb' => by
      rw [hcurrent] at hb'
      cases hb'
      have hrest := rest_put (l := l.hoisted body.simplified) hready.1 hcovered
      rw [@rest_of_same code l (l.hoisted body.simplified) b rfl] at hrest
      rw [hrest]
      refine .frame ((hcovered.of_le hput.le).nested l.nested.length _ _ ?_ ?_)
      · show (l.nested ++ [body.simplified])[l.nested.length]? = some body.simplified
        rw [List.getElem?_append_right (Nat.le_refl _), Nat.sub_self]
        rfl
      · show l.nextFrame + (l.nested ++ [body.simplified]).length = l.nextFrame + 1 + l.nested.length
        rw [List.length_append, List.length_singleton]
        omega }

theorem Spannable.leave (loop : Nat) : Spannable (.leave loop) := fun {l l'} hsound heq => by
  simp only [simplified, layStmt] at heq
  obtain ⟨exit, l1, hexit, heq⟩ := bind_ok heq
  obtain ⟨hsound1, hevolves, hcurrent1, hdecls, scope, hfind, hscope⟩ :=
    exitOf_ok hexit hsound (l.current = some ·)
  obtain ⟨b, hcurrent, rfl⟩ := emit_ok heq
  have hready := hsound1.ready b hcurrent
  rw [hcurrent1] at hcurrent
  exact {
    sound := hsound1.put hready _
    evolves := hevolves.trans (.put hready.1 (.inl hcurrent) _)
    region := fun b' hb' => by cases hb'
    ended := fun _ => rfl
    registers := fun frameAt _ _ => .of_same (congrArg _ hdecls) (congrArg _ hdecls) (congrArg _ hdecls)
    spans := fun frameAt code exits b' hcovered hfits hb' => by
      rw [hcurrent] at hb'
      cases hb'
      have hrest := rest_put hready.1 hcovered
      have hsame : l1.stmtsAt b = l.stmtsAt b :=
        (exitOf_ok hexit hsound fun _ => False).2.1.kept b (hsound.ready b hcurrent).1 id
      rw [rest_of_same hsame] at hrest
      rw [hrest]
      exact .leave (hfits loop scope exit hfind hscope) }

/-! ## Sequences -/

theorem Spannable.nil : Spannable (.seq []) := fun {l l'} hsound heq => by
  simp only [simplified, simplifiedAll, layStmt, layAll] at heq
  obtain ⟨-, rfl⟩ := pure_ok heq
  exact {
    sound := hsound
    evolves := .refl l'
    region := fun b hb => .inl hb
    ended := id
    registers := fun frameAt _ _ => .of_same rfl rfl rfl
    spans := fun frameAt code exits b _ _ hb => by
      rw [hb]
      exact .nil }

theorem Spannable.cons {list : List Stmt} (h : Spannable s) (hrest : Spannable (.seq list)) :
    Spannable (.seq (s :: list)) := fun {l l'} hsound heq => by
  rw [simplified, simplifiedAll, layStmt, layAll] at heq
  obtain ⟨_, l1, heq1, heq2⟩ := bind_ok heq
  have h1 := h hsound heq1
  have h2 := hrest h1.sound (by rwa [simplified, layStmt])
  exact {
    sound := h2.sound
    evolves := h1.evolves.trans (h2.evolves.within h1.evolves.size_le h1.region)
    region := fun b hb => (h2.region b hb).elim (h1.region b) fun hle =>
      Or.inr (Nat.le_trans h1.evolves.size_le hle)
    ended := fun hnone => h2.ended (h1.ended hnone)
    registers := fun frameAt code hcovered =>
      (h1.registers frameAt code (hcovered.of_le h2.evolves.le)).append
        (h2.registers frameAt code hcovered)
    spans := fun frameAt code exits b hcovered hfits hb => by
      have hfirst := h1.spans frameAt code exits b (hcovered.of_le h2.evolves.le) (h2.evolves.scopes.fits hfits) hb
      cases hcurrent : l1.current with
      | none =>
        rw [hcurrent] at hfirst
        rw [h2.ended hcurrent]
        exact .last hfirst
      | some b1 =>
        rw [hcurrent] at hfirst
        exact .cons hfirst (h2.spans frameAt code exits b1 hcovered hfits hcurrent) }

theorem Spannable.seq {list : List Stmt} (h : ∀ s ∈ list, Spannable s) : Spannable (.seq list) := by
  induction list with
  | nil => exact Spannable.nil
  | cons s list ih =>
    exact Spannable.cons (h s (.head _)) (ih fun t ht => h t (List.mem_cons_of_mem s ht))

/-! ## Conditions -/

theorem Spannable.decided {no : Stmt} (hstill : condition.still = true) {holds : Bool}
    (hfold : condition.fold = .bool holds) (h : Spannable (if holds then yes else no)) :
    Spannable (.ite condition yes no) := fun {l l'} hsound heq => by
  have hsimplified : (Stmt.ite condition yes no).simplified = .seq [(if holds then yes else no).simplified] := by
    rw [simplified, Expr.simplified_of_still hstill, hfold]
    cases holds <;> rfl
  have hnotes : (Stmt.ite condition yes no).notes = (if holds then yes else no).notes := by
    rw [Stmt.notes, hfold]
    cases holds <;> rfl
  rw [hsimplified, layStmt, layAll] at heq
  obtain ⟨_, l1, heq1, heq2⟩ := bind_ok heq
  rw [layAll] at heq2
  obtain ⟨-, rfl⟩ := pure_ok heq2
  have h1 := h hsound heq1
  exact {
    sound := h1.sound
    evolves := by
      rw [hsimplified]
      exact h1.evolves
    region := h1.region
    ended := h1.ended
    registers := fun frameAt code hcovered => by
      rw [hnotes]
      exact h1.registers frameAt code hcovered
    spans := fun frameAt code exits b hcovered hfits hb =>
      .decided hfold (h1.spans frameAt code exits b hcovered hfits hb) }

/-! ## Branches -/

structure Layout.Opened (count : Nat) (l l' : Layout) : Prop where
  size_eq : l'.blocks.size = l.blocks.size + count
  stmts_eq : ∀ i, l'.stmtsAt i = l.stmtsAt i
  same : l' = { l with blocks := l'.blocks }

namespace Layout.Opened

variable {count count' : Nat} {l l1 l2 : Layout}

theorem pushed (name : String) (l : Layout) : l.Opened 1 (l.pushed name) :=
  ⟨by simp, stmtsAt_new name l, rfl⟩

theorem trans (h : l.Opened count l1) (h' : l1.Opened count' l2) : l.Opened (count + count') l2 where
  size_eq := by rw [h'.size_eq, h.size_eq, Nat.add_assoc]
  stmts_eq i := (h'.stmts_eq i).trans (h.stmts_eq i)
  same := by rw [h'.same, h.same]

theorem loops_eq (h : l.Opened count l1) : l1.loops = l.loops := by rw [h.same]

theorem current_eq (h : l.Opened count l1) : l1.current = l.current := by rw [h.same]

theorem evolves (h : l.Opened count l1) {touched : Nat → Prop} {n : Nat} : l.Evolves touched n 0 l1 where
  stmts i := by simp [h.stmts_eq]
  size_le := by
    rw [h.size_eq]
    exact Nat.le_add_right ..
  kept i _ _ := h.stmts_eq i
  scopes := by
    rw [h.loops_eq]
    exact .refl n l.loops
  hoisted := ⟨[], by rw [h.same]; simp, by rw [h.same]; simp, rfl, by simp⟩

theorem ready (h : l.Opened count l1) {b : Nat} (hb : l.Ready b) : l1.Ready b := by
  refine ⟨?_, ?_⟩
  · rw [h.size_eq]
    exact Nat.lt_of_lt_of_le hb.1 (Nat.le_add_right ..)
  · rw [h.loops_eq]
    exact hb.2

theorem sound (h : l.Opened count l1) (hsound : l.Sound) : l1.Sound where
  ready b hb := h.ready (hsound.ready b (h.current_eq ▸ hb))
  nodup := h.loops_eq ▸ hsound.nodup
  exits x hx := by
    have hx := hsound.exits x (h.loops_eq ▸ hx)
    rw [h.stmts_eq, h.size_eq]
    exact ⟨Nat.lt_of_lt_of_le hx.1 (Nat.le_add_right ..), hx.2⟩

theorem new (h : l.Opened count l1) (hsound : l.Sound) {i : Nat} (hle : l.blocks.size ≤ i)
    (hlt : i < l.blocks.size + count) : l1.Ready i ∧ l1.stmtsAt i = [] := by
  refine ⟨⟨h.size_eq ▸ hlt, fun hmem => ?_⟩, ?_⟩
  · have := (hsound.exits i (h.loops_eq ▸ hmem)).1
    omega
  · rw [h.stmts_eq, stmtsAt, Array.getElem?_eq_none hle]
    rfl

end Layout.Opened

/-- A condition with the blocks for its branches, and the first branch behind it. -/
structure BranchLaid (condition : Expr) (yes : Stmt) (l l' : Layout) : Prop where
  begun : ∃ b, l.current = some b
  sound : l'.Sound
  evolves : l.Evolves (l.current = some ·) l.blocks.size yes.simplified.frames l'
  /-- The second branch has not been laid out. -/
  ready : l'.Ready (l.blocks.size + 1)
  empty : l'.stmtsAt (l.blocks.size + 1) = []
  region : ∀ b, l'.current = some b → l.blocks.size ≤ b ∧ b ≠ l.blocks.size + 1
  registers : ∀ frameAt code, l'.Covered frameAt code → Registers frameAt yes.notes l.decls l'.decls
  decides : ∀ frameAt code b, l'.Covered frameAt code → l.current = some b →
    Decides code condition (l.rest code b) l.blocks.size (l.blocks.size + 1)
  spans : ∀ frameAt code exits, l'.Covered frameAt code → Fits l'.loops exits →
    Spans frameAt code exits yes (code l.blocks.size) (l'.current.map (l'.rest code))

theorem branchLaid (hstill : condition.still = true) (hyes : Spannable yes) {first second : String} (hsound : l.Sound)
    (hcondition : layCondition l.blocks.size (l.blocks.size + 1) condition
      ((l.pushed first).pushed second) = .ok ((), l1))
    (heq : layStmt yes.simplified (l1.moved (some l.blocks.size)) = .ok ((), l')) :
    BranchLaid condition yes l l' := by
  have hopened : l.Opened 2 ((l.pushed first).pushed second) := (Opened.pushed first l).trans (.pushed second _)
  have h1 := layCondition_laid hstill (hopened.sound hsound) hcondition
  obtain ⟨b, hb⟩ := h1.begun
  have hb : l.current = some b := hb
  have hblt := (hsound.ready b hb).1
  have hsize0 := hopened.size_eq
  have hevolves0 : l.Evolves (l.current = some ·) l.blocks.size 0 _ := hopened.evolves
  -- both blocks are still empty, and no exits
  have hnew : ∀ i, l.blocks.size ≤ i → i < l.blocks.size + 2 → l1.Ready i ∧ l1.stmtsAt i = [] := by
    intro i hle hlt
    obtain ⟨hready0, hempty0⟩ := hopened.new hsound hle hlt
    refine ⟨h1.evolves.ready hready0 (by omega), (h1.evolves.kept i (by omega) ?_).trans hempty0⟩
    show l.current ≠ some i
    rw [hb, Ne, Option.some.injEq]
    omega
  have hsound2 : (l1.moved (some l.blocks.size)).Sound := h1.sound.moved fun i hi => by
    cases hi
    exact (hnew _ (by omega) (by omega)).1
  have h3 := hyes hsound2 heq
  have hsize1 : l.blocks.size + 2 ≤ l1.blocks.size := hsize0 ▸ h1.evolves.size_le
  have hsecond : (some l.blocks.size : Option Nat) ≠ some (l.blocks.size + 1) := by simp
  exact {
    begun := ⟨b, hb⟩
    sound := h3.sound
    evolves := by
      have hmoved : l1.Evolves (l.current = some ·) l.blocks.size 0 (l1.moved (some l.blocks.size)) :=
        .moved _ l1
      have := hevolves0.trans ((h1.evolves.within (by omega) fun i hi => .inl hi).trans (hmoved.trans
        (h3.evolves.within (by simp; omega) fun i hi => .inr (by cases hi; exact Nat.le_refl _))))
      simpa using this
    ready := h3.evolves.ready (hnew _ (by omega) (by omega)).1 (by simp; omega)
    empty := (h3.evolves.kept _ (by simp; omega) hsecond).trans (hnew _ (by omega) (by omega)).2
    region := fun i hi => by
      rcases h3.region i hi with h | h
      · cases h
        exact ⟨Nat.le_refl _, by omega⟩
      · have h : l1.blocks.size ≤ i := h
        omega
    registers := fun frameAt code hcovered => by
      have hreg := h3.registers frameAt code hcovered
      have hdecls : (l1.moved (some l.blocks.size)).decls = { l.decls with temps := l1.decls.temps } :=
        h1.decls_eq
      rw [hdecls] at hreg
      exact ⟨hreg.matchers, hreg.bitvecs, hreg.splits⟩
    decides := fun frameAt code i hcovered hi => by
      have hdecides := h1.decides frameAt code i (hcovered.of_le ((Layout.Le.moved _ l1).trans h3.evolves.le)) hi
      rwa [rest_of_same (l := l) (hopened.stmts_eq i)] at hdecides
    spans := fun frameAt code exits hcovered hfits => by
      have hspans := h3.spans frameAt code exits l.blocks.size hcovered hfits rfl
      rwa [rest_of_empty (l := l1.moved (some l.blocks.size)) (hnew _ (by omega) (by omega)).2] at hspans }

theorem simplified_eq_nop (h : s.simplified.isNop = true) : s = .nop := by
  cases s with
  | nop => rfl
  | ite condition yes no =>
    rw [simplified] at h
    split at h <;> cases h
  | _ => cases h

theorem branchOn_ok (touched : Nat → Prop) (n : Nat) {target : Nat} (hsound : l.Sound)
    (hregion : ∀ b, l.current = some b → touched b ∨ n ≤ b) (heq : branchOn target l = .ok ((), l')) :
    l'.Sound ∧ l.Evolves touched n 0 l' ∧ l'.loops = l.loops ∧ l'.decls = l.decls ∧
      (∀ i, l.current ≠ some i → l'.stmtsAt i = l.stmtsAt i) ∧
      ∀ frameAt code, l'.Covered frameAt code → ∀ b, l.current = some b → ∃ k, l.rest code b = .branch target :: k := by
  cases hcurrent : l.current with
  | none =>
    rw [branchOn_none hcurrent] at heq
    cases heq
    exact ⟨hsound, .refl _, rfl, rfl, fun _ _ => rfl, fun _ _ _ b hb => by cases hb⟩
  | some b =>
    rw [branchOn_some hcurrent] at heq
    cases heq
    have hb := hsound.ready b hcurrent
    refine ⟨hsound.put hb _, .put hb.1 (hregion b hcurrent) _, rfl, rfl, fun i hi => ?_,
      fun frameAt code hcovered b' hb' => ?_⟩
    · rw [stmtsAt_put hb.1, if_neg fun h : i = b => hi (h ▸ rfl)]
    · cases hb'
      exact ⟨_, rest_put hb.1 hcovered⟩

/-- Control goes on at the second block when the first branch has ended; there is no second branch. -/
theorem spanned_then
    (h : BranchLaid condition.fold yes l l1) (hframes : (Stmt.ite condition yes .nop).simplified.frames =
      yes.simplified.frames) (hnotes : (Stmt.ite condition yes .nop).notes = yes.notes.append {})
    {l2 : Layout} (heq : branchOn (l.blocks.size + 1) l1 = .ok ((), l2)) :
    Spanned (.ite condition yes .nop) l (l2.moved (some (l.blocks.size + 1))) := by
  obtain ⟨hsound, hevolves, hloops, hdecls, hsame, hbranch⟩ :=
    branchOn_ok (l.current = some ·) l.blocks.size h.sound
      (fun b hb => .inr (h.region b hb).1) heq
  have hempty : l2.stmtsAt (l.blocks.size + 1) = [] :=
    (hsame _ fun hb => (h.region _ hb).2 rfl).trans h.empty
  have hready : l2.Ready (l.blocks.size + 1) :=
    ⟨Nat.lt_of_lt_of_le h.ready.1 hevolves.size_le, hloops ▸ h.ready.2⟩
  have hle : l1.Le (l2.moved (some (l.blocks.size + 1))) := hevolves.le.trans (.moved _ l2)
  obtain ⟨c, hc⟩ := h.begun
  exact {
    sound := hsound.moved fun b hb => by cases hb; exact hready
    evolves := by
      rw [hframes]
      exact h.evolves.trans (hevolves.trans (.moved _ l2))
    region := fun b hb => by
      cases hb
      exact .inr (Nat.le_succ _)
    ended := fun hnone => by
      rw [hc] at hnone
      cases hnone
    registers := fun frameAt code hcovered => by
      rw [hnotes]
      refine (h.registers frameAt code (hcovered.of_le hle)).append (.of_same ?_ ?_ ?_) <;>
        exact congrArg _ hdecls
    spans := fun frameAt code exits b hcovered hfits hb => by
      have hcovered1 := hcovered.of_le hle
      have hjoins : Joins code (l1.current.map (l1.rest code)) (some (code (l.blocks.size + 1))) := by
        cases hcurrent : l1.current with
        | none => exact .ended
        | some b =>
          obtain ⟨k, hk⟩ := hbranch frameAt code (hcovered.of_le (.moved _ l2)) b hcurrent
          rw [Option.map_some, hk]
          exact .jump
      show Spans frameAt code exits _ _ (some ((l2.moved (some (l.blocks.size + 1))).rest code _))
      rw [rest_of_empty (l := l2.moved (some (l.blocks.size + 1))) hempty]
      exact .ite (h.decides frameAt code b hcovered1 hb)
        (h.spans frameAt code exits hcovered1 (hloops ▸ hfits)) (.inert rfl) hjoins .same }

/-- The last of several branches has been laid out in its block, and then all their ends have been joined. -/
structure LastLaid (s : Stmt) (ends : List (Option Nat)) (target : Nat) (touched : Nat → Prop) (n : Nat)
    (l l' : Layout) : Prop where
  sound : l'.Sound
  evolves : l.Evolves touched n s.simplified.frames l'
  region : ∀ b, l'.current = some b → n ≤ b
  registers : ∀ frameAt code, l'.Covered frameAt code → Registers frameAt s.notes l.decls l'.decls
  spans : ∀ frameAt code exits, l'.Covered frameAt code → Fits l'.loops exits →
    ∃ last, Spans frameAt code exits s (code target) last ∧ Joins code last (l'.current.map (l'.rest code)) ∧
      ∀ e ∈ ends, Joins code (e.map (l.rest code)) (l'.current.map (l'.rest code))

theorem lastLaid (touched : Nat → Prop) {n target : Nat} {name : String} (h : Spannable s) (hsound : l.Sound)
    (hready : l.Ready target) (hempty : l.stmtsAt target = []) (hn : n ≤ target)
    (hends : ∀ b, some b ∈ ends → l.Ready b ∧ b ≠ target ∧ n ≤ b)
    (heq : layStmt s.simplified (l.moved (some target)) = .ok ((), l1))
    (heqJoin : join (ends ++ [l1.current]) name l1 = .ok ((), l')) :
    LastLaid s ends target touched n l l' := by
  have h1 := h (hsound.moved fun b hb => by cases hb; exact hready) heq
  have hsize : l.blocks.size ≤ l1.blocks.size := h1.evolves.size_le
  have hlt := hready.1
  -- the ends of the other branches are left alone by this one
  have hkept : ∀ b, some b ∈ ends → b < l.blocks.size ∧ (l.moved (some target)).current ≠ some b :=
    fun b hb => ⟨(hends b hb).1.1, fun heq => (hends b hb).2.1 (Option.some.inj heq).symm⟩
  have hjoin := join_laid touched n h1.sound (by omega) (fun b hb => by
      rcases List.mem_append.1 hb with hb | hb
      · exact ⟨h1.evolves.ready (hends b hb).1 (hkept b hb).1, .inr (hends b hb).2.2⟩
      · have hb := (List.mem_singleton.1 hb).symm
        refine ⟨h1.sound.ready b hb, .inr ?_⟩
        rcases h1.region b hb with heq | hle
        · cases heq
          exact hn
        · have hle : l.blocks.size ≤ b := hle
          omega) heqJoin
  have hevolves : l.Evolves touched n s.simplified.frames l1 := by
    have hmoved : l.Evolves touched n 0 (l.moved (some target)) := .moved _ l
    have := hmoved.trans (h1.evolves.within (show n ≤ l.blocks.size by omega) fun i hi =>
      .inr (by cases hi; exact hn))
    simpa using this
  exact {
    sound := hjoin.sound
    evolves := hevolves.trans hjoin.evolves
    region := hjoin.region
    registers := fun frameAt code hcovered => by
      rw [hjoin.decls_eq]
      exact h1.registers frameAt code (hcovered.of_le hjoin.evolves.le)
    spans := fun frameAt code exits hcovered hfits => by
      have hspans := h1.spans frameAt code exits target (hcovered.of_le hjoin.evolves.le) (hjoin.loops_eq ▸ hfits) rfl
      rw [rest_of_empty (l := l.moved (some target)) hempty] at hspans
      have hjoins := hjoin.joins frameAt code hcovered
      refine ⟨_, hspans, hjoins _ (List.mem_append_right _ (List.mem_singleton_self _)), fun e he => ?_⟩
      have hend := hjoins e (List.mem_append_left _ he)
      cases e with
      | none => exact hend
      | some i =>
        rw [Option.map_some, h1.evolves.rest_eq (hkept i he).1 (hkept i he).2] at hend
        exact hend }

theorem spanned_else {no : Stmt} (h : BranchLaid condition.fold yes l l1) (hno : Spannable no)
    (hframes : (Stmt.ite condition yes no).simplified.frames = yes.simplified.frames + no.simplified.frames)
    (hnotes : (Stmt.ite condition yes no).notes = yes.notes.append no.notes) {l2 : Layout}
    (heqNo : layStmt no.simplified (l1.moved (some (l.blocks.size + 1))) = .ok ((), l2))
    (heqJoin : join [l1.current, l2.current] "join" l2 = .ok ((), l')) :
    Spanned (.ite condition yes no) l l' := by
  have h2 : LastLaid no [l1.current] (l.blocks.size + 1) (l.current = some ·) l.blocks.size l1 l' := by
    refine lastLaid _ hno h.sound h.ready h.empty (Nat.le_succ _) (fun b hb => ?_) heqNo heqJoin
    have hb := (List.mem_singleton.1 hb).symm
    exact ⟨h.sound.ready b hb, (h.region b hb).2, (h.region b hb).1⟩
  have hle := h2.evolves.le
  obtain ⟨c, hc⟩ := h.begun
  exact {
    sound := h2.sound
    evolves := by
      rw [hframes]
      exact h.evolves.trans h2.evolves
    region := fun b hb => .inr (h2.region b hb)
    ended := fun hnone => by
      rw [hc] at hnone
      cases hnone
    registers := fun frameAt code hcovered => by
      rw [hnotes]
      exact (h.registers frameAt code (hcovered.of_le hle)).append (h2.registers frameAt code hcovered)
    spans := fun frameAt code exits b hcovered hfits hb => by
      obtain ⟨last, hsecond, hlast, hends⟩ := h2.spans frameAt code exits hcovered hfits
      exact .ite (h.decides frameAt code b (hcovered.of_le hle) hb)
        (h.spans frameAt code exits (hcovered.of_le hle) (h2.evolves.scopes.fits hfits)) hsecond
        (hends _ (List.mem_singleton_self _)) hlast }

theorem Spannable.ite {no : Stmt} (hstill : condition.still = true)
    (hfold : ∀ holds, condition.fold ≠ .bool holds) (hyes : Spannable yes) (hno : Spannable no) :
    Spannable (.ite condition yes no) := fun {l l'} hsound heq => by
  have hsimplified : (Stmt.ite condition yes no).simplified = .ite condition.fold yes.simplified no.simplified := by
    rw [simplified, Expr.simplified_of_still hstill]
    split
    · exact absurd ‹_› (hfold true)
    · exact absurd ‹_› (hfold false)
    · rfl
  have hnotes : (Stmt.ite condition yes no).notes = yes.notes.append no.notes := by
    rw [Stmt.notes]
    split
    · exact absurd ‹_› (hfold true)
    · exact absurd ‹_› (hfold false)
    · rfl
  have hframes : (Stmt.ite condition yes no).simplified.frames = yes.simplified.frames + no.simplified.frames := by
    rw [hsimplified, Stmt.frames, Expr.frames_of_still (Expr.still_fold hstill), Nat.zero_add]
  have hstill' := Expr.still_fold hstill
  rw [hsimplified, layStmt] at heq
  split at heq
  · next hnop =>
    obtain rfl := simplified_eq_nop hnop
    rw [bind_of_ok (newBlock_eq _ l), bind_of_ok (newBlock_eq _ _), size_pushed] at heq
    obtain ⟨_, l1, hcondition, heq⟩ := bind_ok heq
    rw [bind_of_ok (goTo_eq _ l1)] at heq
    obtain ⟨_, l2, heqYes, heq⟩ := bind_ok heq
    obtain ⟨_, l3, hbranch, heq⟩ := bind_ok heq
    rw [goTo_eq] at heq
    cases heq
    exact spanned_then (branchLaid hstill' hyes hsound hcondition heqYes) hframes hnotes hbranch
  · rw [bind_of_ok (newBlock_eq _ l), bind_of_ok (newBlock_eq _ _), size_pushed] at heq
    obtain ⟨_, l1, hcondition, heq⟩ := bind_ok heq
    rw [bind_of_ok (goTo_eq _ l1)] at heq
    obtain ⟨_, l2, heqYes, heq⟩ := bind_ok heq
    rw [bind_of_ok (position_eq l2), bind_of_ok (goTo_eq _ l2)] at heq
    obtain ⟨_, l3, heqNo, heq⟩ := bind_ok heq
    rw [bind_of_ok (position_eq l3)] at heq
    exact spanned_else (branchLaid hstill' hyes hsound hcondition heqYes) hno hframes hnotes heqNo heq

/-! ## Loops -/

theorem enter_eq (id : Nat) (name : String) (l : Layout) :
    enter id name l = .ok ((), l.looped (⟨id, name, none⟩ :: l.loops)) := rfl

theorem fits_update {scope : LoopScope} {loops : List LoopScope} {exits : Nat → Option Nat}
    (h : Fits loops exits) : Fits (scope :: loops) (Function.update exits scope.id scope.exit) := by
  intro id found x hfind hexit
  rw [List.find?_cons] at hfind
  split at hfind
  · next hid =>
    cases hfind
    rw [← of_decide_eq_true hid, Function.update_self, hexit]
  · next hid =>
    rw [Function.update_of_ne fun heq => of_decide_eq_false hid heq.symm]
    exact h id found x hfind hexit

theorem Spannable.loop {id : Nat} {name : String} {body : Stmt} (h : Spannable body) :
    Spannable (.loop id name body) := fun {l l'} hsound heq => by
  rw [simplified, layStmt, bind_of_ok (newBlock_eq name l)] at heq
  obtain ⟨_, l1, hemit, heq⟩ := bind_ok heq
  obtain ⟨b, hcurrent, rfl⟩ := emit_ok hemit
  rw [bind_of_ok (enter_eq id name _), bind_of_ok (goTo_eq _ _)] at heq
  obtain ⟨_, l2, hbody, heq⟩ := bind_ok heq
  obtain ⟨_, l3, hbranch, heq⟩ := bind_ok heq
  have hcurrent : l.current = some b := hcurrent
  have hready := hsound.ready b hcurrent
  have hreadyPushed : (l.pushed name).Ready b := ⟨by simpa using Nat.lt_succ_of_lt hready.1, hready.2⟩
  let l1 := (l.pushed name).put b (.branch l.blocks.size)
  let inside := (l1.looped (⟨id, name, none⟩ :: l.loops)).moved (some l.blocks.size)
  have hsound1 : l1.Sound := (hsound.pushed name).put hreadyPushed _
  have hsize : inside.blocks.size = l.blocks.size + 1 := by simp [inside, l1]
  have hinside : inside.Sound := {
    ready := fun i hi => by
      cases hi
      exact ⟨by omega, (hsound.ready_new name).2⟩
    nodup := hsound1.nodup
    exits := hsound1.exits }
  have hevolves1 : l.Evolves (l.current = some ·) l.blocks.size 0 l1 :=
    (Evolves.pushed name l).trans (.put hreadyPushed.1 (.inl hcurrent) _)
  have hempty : inside.stmtsAt l.blocks.size = [] := by
    show l1.stmtsAt l.blocks.size = []
    rw [stmtsAt_put hreadyPushed.1, if_neg (by have := hready.1; omega), stmtsAt_new, stmtsAt_size]
  have h2 : Spanned body inside l2 := h hinside hbody
  have hregion2 : ∀ i, l2.current = some i → l.blocks.size ≤ i := fun i hi => by
    rcases h2.region i hi with heq | hle
    · cases heq
      exact Nat.le_refl _
    · omega
  obtain ⟨hsound3, hevolves3, hloops3, hdecls3, hsame3, hback⟩ :=
    branchOn_ok (l.current = some ·) l.blocks.size h2.sound
      (fun i hi => .inr (hregion2 i hi)) hbranch
  -- the loop is the innermost one behind its body, too
  obtain ⟨scope, loops, hscope, hnew, hloops, hloops2⟩ : ∃ scope loops, scope.id = id ∧
      (∀ x, scope.exit = some x → l.blocks.size ≤ x) ∧ Scopes inside.blocks.size l.loops loops ∧
      l2.loops = scope :: loops := by
    have hscopes := h2.evolves.scopes
    generalize l2.loops = loops2 at hscopes
    cases hscopes with
    | cons hscope hloops =>
      refine ⟨_, _, hscope.1, fun x hx => ?_, hloops, rfl⟩
      rcases hscope.2 with hnone | ⟨-, y, hy, hle⟩
      · rw [hnone] at hx
        cases hx
      · rw [hy] at hx
        cases hx
        omega
  have hloops3 : l3.loops = scope :: loops := hloops3.trans hloops2
  rw [leaveLoop_eq hloops3] at heq
  cases heq
  have hexits : exitsOf l3.loops = scope.exit.toList ++ exitsOf loops := by
    rw [hloops3]
    cases hexit : scope.exit <;> simp [exitsOf, hexit]
  have hnodup := hexits ▸ hsound3.nodup
  have hexit : ∀ x ∈ scope.exit.toList ++ exitsOf loops, x < l3.blocks.size ∧ l3.stmtsAt x = [] :=
    fun x hx => hsound3.exits x (hexits ▸ hx)
  have hle : l3.Le ((l3.looped loops).moved scope.exit) := (Layout.Le.looped loops l3).trans (.moved _ _)
  have hle2 : l2.Le ((l3.looped loops).moved scope.exit) := hevolves3.le.trans hle
  have hle1 : l1.Le ((l3.looped loops).moved scope.exit) :=
    ((Layout.Le.looped _ l1).trans (.moved _ _)).trans (h2.evolves.le.trans hle2)
  have hleAll := hevolves1.le.trans hle1
  exact {
    sound := {
      ready := fun x hx => by
        have hx : scope.exit = some x := hx
        rw [hx, Option.toList_some, List.singleton_append, List.nodup_cons] at hnodup
        exact ⟨(hexit x (by simp [hx])).1, hnodup.1⟩
      nodup := (List.nodup_append.1 hnodup).2.1
      exits := fun x hx => hexit x (List.mem_append_right _ hx) }
    evolves := {
      stmts := hleAll.stmts
      size_le := Nat.le_trans (by omega) (Nat.le_trans h2.evolves.size_le hevolves3.size_le)
      kept := fun i hi hnot => by
        have hinner : ¬ inside.current = some i := fun heq => by
          cases heq
          exact Nat.lt_irrefl _ hi
        exact (hevolves3.kept i hi hnot).trans ((h2.evolves.kept i (by omega) hinner).trans (hevolves1.kept i hi hnot))
      scopes := hloops.mono (by omega)
      hoisted := by
        obtain ⟨more, hmore, hnext, hcount, htamed⟩ := h2.evolves.hoisted
        obtain ⟨more', hmore', hnext', hcount', -⟩ := hevolves3.hoisted
        obtain rfl : more' = [] := List.eq_nil_of_length_eq_zero (by omega)
        exact ⟨more, hmore'.trans (by rw [hmore, List.append_nil]; rfl), hnext'.trans hnext, hcount, htamed⟩ }
    region := fun x hx => .inr (hnew x hx)
    ended := fun hnone => by
      rw [hcurrent] at hnone
      cases hnone
    registers := fun frameAt code hcovered => by
      have hreg := h2.registers frameAt code (hcovered.of_le hle2)
      show Registers frameAt body.notes l.decls l3.decls
      rw [hdecls3]
      exact hreg
    spans := fun frameAt code exits b' hcovered hfits hb' => by
      rw [hcurrent] at hb'
      cases hb'
      have hrest := rest_put hreadyPushed.1 (hcovered.of_le hle1)
      rw [rest_of_same (stmtsAt_new name l b)] at hrest
      have hspans := h2.spans frameAt code (Function.update exits id scope.exit) l.blocks.size
        (hcovered.of_le hle2) (by rw [hloops2, ← hscope]; exact fits_update hfits) rfl
      rw [rest_of_empty hempty] at hspans
      have hend : Option.map (((l3.looped loops).moved scope.exit).rest code)
          ((l3.looped loops).moved scope.exit).current = scope.exit.map code := by
        show Option.map _ scope.exit = _
        cases hx : scope.exit with
        | none => rfl
        | some x => exact congrArg some (rest_of_empty (hexit x (by simp [hx])).2)
      rw [hrest, hend]
      refine .loop hspans fun k' hk' => ?_
      obtain ⟨i, hi, rfl⟩ := Option.map_eq_some_iff.1 hk'
      exact hback frameAt code (hcovered.of_le hle) i hi }

/-! ## Dispatches -/

theorem mapM_newBlock (cases : List (UInt32 × Stmt)) (l : Layout) : ∃ l',
    (cases.mapM fun ((k, _) : UInt32 × Stmt) => (do
      let block ← newBlock "case"
      pure (k, block) : Laying (UInt32 × Nat))) l =
      .ok ((cases.map (·.1)).zip (List.range' l.blocks.size cases.length), l') ∧
    l.Opened cases.length l' := by
  induction cases generalizing l with
  | nil => exact ⟨l, rfl, rfl, fun _ => rfl, rfl⟩
  | cons c cases ih =>
    obtain ⟨l', heq, hopened⟩ := ih (l.pushed "case")
    refine ⟨l', ?_, ?_⟩
    · rw [List.mapM_cons, bind_of_ok (bind_of_ok (newBlock_eq "case" l)), bind_of_ok heq, pure_eq]
      simp [List.range'_succ]
    · rw [List.length_cons, Nat.add_comm]
      exact (Opened.pushed "case" l).trans hopened

/-- The cases of a dispatch have been laid out, each in its own block. -/
structure CasesLaid (cases : List (UInt32 × Stmt)) (targets : List Nat) (l : Layout)
    (ends : List (Option Nat)) (l' : Layout) : Prop where
  sound : l'.Sound
  evolves : l.Evolves (· ∈ targets) l.blocks.size (Stmt.framesOfCases (simplifiedCases cases)) l'
  length_eq : ends.length = cases.length
  region : ∀ i, some i ∈ ends → l'.Ready i ∧ (i ∈ targets ∨ l.blocks.size ≤ i)
  registers : ∀ frameAt code, l'.Covered frameAt code → Registers frameAt (Stmt.notesOfCases cases) l.decls l'.decls
  spans : ∀ frameAt code exits, l'.Covered frameAt code → Fits l'.loops exits →
    ∀ (j : Nat) (c : UInt32 × Stmt) (t : Nat) (e : Option Nat), cases[j]? = some c →
      targets[j]? = some t → ends[j]? = some e →
      Spans frameAt code exits c.2 (code t) (e.map (l'.rest code))

theorem layCases_laid (h : ∀ c ∈ cases, Spannable c.2) {targets : List Nat} (hlength : targets.length = cases.length)
    (hnodup : targets.Nodup) (htargets : ∀ t ∈ targets, l.Ready t ∧ l.stmtsAt t = []) (hsound : l.Sound)
    (heq : layCases targets (simplifiedCases cases) l = .ok (ends, l')) :
    CasesLaid cases targets l ends l' := by
  induction cases generalizing targets l ends with
  | nil =>
    rw [simplifiedCases, layCases] at heq
    · obtain ⟨rfl, rfl⟩ := pure_ok heq
      exact {
        sound := hsound
        evolves := .refl l'
        length_eq := rfl
        region := fun i hi => by cases hi
        registers := fun frameAt _ _ => .of_same rfl rfl rfl
        spans := fun _ _ _ _ _ j c t e hc => by cases hc }
    · simp
  | cons c cases ih =>
    obtain ⟨t, targets, rfl⟩ : ∃ t rest, targets = t :: rest := List.exists_cons_of_length_eq_add_one hlength
    rw [List.nodup_cons] at hnodup
    obtain ⟨hready, hempty⟩ := htargets t (.head _)
    rw [simplifiedCases, layCases, bind_of_ok (goTo_eq _ l)] at heq
    obtain ⟨_, l1, heq1, heq⟩ := bind_ok heq
    rw [bind_of_ok (position_eq l1)] at heq
    obtain ⟨others, l2, heq2, heq⟩ := bind_ok heq
    obtain ⟨rfl, rfl⟩ := pure_ok heq
    have hsound0 : (l.moved (some t)).Sound := hsound.moved fun b hb => by cases hb; exact hready
    have h1 : Spanned c.2 (l.moved (some t)) l1 := h c (.head _) hsound0 heq1
    have hsize1 : l.blocks.size ≤ l1.blocks.size := h1.evolves.size_le
    have hothers : ∀ t' ∈ targets, l.Ready t' ∧ l.stmtsAt t' = [] := fun t' ht' =>
      htargets t' (List.mem_cons_of_mem t ht')
    have h2 := ih (fun c' hc' => h c' (List.mem_cons_of_mem c hc')) (by simpa using hlength) hnodup.2 (fun t' ht' => by
        obtain ⟨hready', hempty'⟩ := hothers t' ht'
        refine ⟨h1.evolves.ready (l := l.moved (some t)) hready' hready'.1, ?_⟩
        refine (h1.evolves.kept t' hready'.1 fun heq => ?_).trans hempty'
        cases heq
        exact hnodup.1 ht') h1.sound heq2
    -- the end of this case is left alone by the other cases
    have hfinish : ∀ i, l1.current = some i → i < l1.blocks.size ∧ i ∉ targets := fun i hi => by
      refine ⟨(h1.sound.ready i hi).1, fun hmem => ?_⟩
      rcases h1.region i hi with heq | hle
      · cases heq
        exact hnodup.1 hmem
      · exact absurd (hothers i hmem).1.1 (Nat.not_lt.2 hle)
    exact {
      sound := h2.sound
      evolves := by
        have hmoved : l.Evolves (· ∈ t :: targets) l.blocks.size 0 (l.moved (some t)) := .moved _ l
        have := hmoved.trans ((h1.evolves.within (Nat.le_refl _) fun i hi =>
          Or.inl (by cases hi; exact (.head _) ..)).trans
          (h2.evolves.within hsize1 fun i hi => .inl (List.mem_cons_of_mem t hi)))
        rw [simplifiedCases, Stmt.framesOfCases]
        simpa using this
      length_eq := by simp [h2.length_eq]
      region := fun i hi => by
        rcases List.mem_cons.1 hi with hi | hi
        · refine ⟨h2.evolves.ready (h1.sound.ready i hi.symm) (hfinish i hi.symm).1, ?_⟩
          rcases h1.region i hi.symm with heq | hle
          · cases heq
            exact .inl (.head _)
          · exact .inr hle
        · obtain ⟨hready', hmem⟩ := h2.region i hi
          exact ⟨hready', hmem.imp (List.mem_cons_of_mem t) (Nat.le_trans hsize1)⟩
      registers := fun frameAt code hcovered =>
        (h1.registers frameAt code (hcovered.of_le h2.evolves.le)).append
          (h2.registers frameAt code hcovered)
      spans := fun frameAt code exits hcovered hfits j c' t' e hc ht he => by
        cases j with
        | zero =>
          cases hc
          cases ht
          cases he
          have hspans := h1.spans frameAt code exits t (hcovered.of_le h2.evolves.le) (h2.evolves.scopes.fits hfits) rfl
          rw [rest_of_empty (l := l.moved (some t)) hempty] at hspans
          cases hcurrent : l1.current with
          | none => rwa [hcurrent] at hspans
          | some i =>
            rw [hcurrent] at hspans
            obtain ⟨hlt, hnot⟩ := hfinish i hcurrent
            rwa [Option.map_some, h2.evolves.rest_eq hlt hnot]
        | succ j => exact h2.spans frameAt code exits hcovered hfits j c' t' e hc ht he }

theorem length_simplifiedCases (cases : List (UInt32 × Stmt)) : (simplifiedCases cases).length = cases.length := by
  induction cases with
  | nil => rfl
  | cons c cases ih => rw [simplifiedCases, List.length_cons, List.length_cons, ih]

theorem keys_simplifiedCases (cases : List (UInt32 × Stmt)) :
    (simplifiedCases cases).map (·.1) = cases.map (·.1) := by
  induction cases with
  | nil => rfl
  | cons c cases ih => rw [simplifiedCases, List.map_cons, List.map_cons, ih]

theorem Spannable.dispatch {m : Nat} {otherwise : Stmt}
    (hcases : ∀ c ∈ cases, Spannable c.2) (hotherwise : Spannable otherwise) :
    Spannable (.dispatch m cases otherwise) := fun {l l'} hsound heq => by
  rw [simplified, layStmt, bind_of_ok (newTemp_eq l)] at heq
  obtain ⟨_, l1, hemit, heq⟩ := bind_ok heq
  obtain ⟨b, hcurrent, rfl⟩ := emit_ok hemit
  have hcurrent : l.current = some b := hcurrent
  have hready := hsound.ready b hcurrent
  let l1 := l.oneTemp.put b (.move l.decls.temps (.matchCase m))
  have hsound1 : l1.Sound := (hsound.of_same l.oneTemp rfl rfl rfl).put hready _
  have hevolves1 : l.Evolves (l.current = some ·) l.blocks.size 0 l1 :=
    (Evolves.oneTemp l).trans (.put (l := l.oneTemp) hready.1 (.inl hcurrent) _)
  have hsize1 : l1.blocks.size = l.blocks.size := by simp [l1]
  obtain ⟨l2, hmapM, hopened2⟩ := mapM_newBlock (simplifiedCases cases) l1
  rw [bind_of_ok hmapM, bind_of_ok (newBlock_eq _ l2)] at heq
  have hopened := hopened2.trans (.pushed "default" l2)
  rw [keys_simplifiedCases, length_simplifiedCases, hsize1, hopened2.size_eq, hsize1, length_simplifiedCases] at heq
  rw [length_simplifiedCases] at hopened
  let targets := (cases.map (·.1)).zip (List.range' l.blocks.size cases.length)
  let rest := l.blocks.size + cases.length
  have htargets : targets.map (·.2) = List.range' l.blocks.size cases.length := by
    simp [targets, List.map_snd_zip]
  have hkeys : targets.map (·.1) = cases.map (·.1) := by simp [targets, List.map_fst_zip]
  obtain ⟨_, l3, hemit3, heq⟩ := bind_ok heq
  obtain ⟨b', hcurrent3, rfl⟩ := emit_ok hemit3
  obtain rfl : b = b' := Option.some.inj (hopened.current_eq.symm.trans hcurrent3)
  have hready2 := hopened.ready (hsound1.ready b rfl)
  let l3 := (l2.pushed "default").put b (.branchCase l.decls.temps targets (some rest))
  have hsound3 : l3.Sound := (hopened.sound hsound1).put hready2 _
  have hsize3 : l3.blocks.size = rest + 1 := by
    have := hopened.size_eq
    simp only [l3, size_put, this, hsize1, rest]
    omega
  have hput : (l2.pushed "default").Evolves (l.current = some ·) l.blocks.size 0 l3 :=
    .put hready2.1 (.inl hcurrent) _
  have hevolves3 : l1.Evolves (l.current = some ·) l.blocks.size 0 l3 := hopened.evolves.trans hput
  -- the blocks for the cases are empty and no exits
  have hnew : ∀ i, l.blocks.size ≤ i → i < l.blocks.size + (cases.length + 1) →
      l3.Ready i ∧ l3.stmtsAt i = [] := fun i hle hlt => by
    obtain ⟨hready', hempty⟩ := hopened.new hsound1 (hsize1 ▸ hle) (hsize1 ▸ hlt)
    refine ⟨⟨by simpa [l3] using hready'.1, hready'.2⟩, ?_⟩
    rw [stmtsAt_put hready2.1, if_neg, hempty]
    have := hready.1
    omega
  obtain ⟨ends, l4, heqCases, heq⟩ := bind_ok heq
  rw [bind_of_ok (goTo_eq _ l4)] at heq
  obtain ⟨_, l5, heqRest, heq⟩ := bind_ok heq
  rw [bind_of_ok (position_eq l5)] at heq
  have hmem : ∀ i ∈ targets.map (·.2), l.blocks.size ≤ i ∧ i < rest := fun i hi => by
    rw [htargets, List.mem_range'_1] at hi
    exact hi
  have h4 : CasesLaid cases (targets.map (·.2)) l3 ends l4 := by
    refine layCases_laid hcases (by rw [htargets, List.length_range']) ?_ (fun t ht => ?_) hsound3 heqCases
    · rw [htargets]
      exact List.nodup_range'
    · have := hmem t ht
      exact hnew t this.1 (by omega)
  obtain ⟨hreadyRest, hemptyRest⟩ := hnew rest (Nat.le_add_right ..) (by omega)
  have hnotRest : rest ∉ targets.map (·.2) := fun hi => by
    have := hmem rest hi
    omega
  have hsize4 := h4.evolves.size_le
  have h5 : LastLaid otherwise ends rest (l.current = some ·) l.blocks.size l4 l' := by
    refine lastLaid _ hotherwise h4.sound (h4.evolves.ready hreadyRest hreadyRest.1)
      ((h4.evolves.kept rest hreadyRest.1 hnotRest).trans hemptyRest) (Nat.le_add_right ..) (fun i hi => ?_)
      heqRest heq
    obtain ⟨hready', hwhere⟩ := h4.region i hi
    refine ⟨hready', ?_, ?_⟩
    · rintro rfl
      rcases hwhere with hin | hle
      · exact hnotRest hin
      · omega
    · rcases hwhere with hin | hle
      · exact (hmem i hin).1
      · omega
  have hevolves4 : l3.Evolves (l.current = some ·) l.blocks.size (Stmt.framesOfCases (simplifiedCases cases)) l4 :=
    h4.evolves.within (by omega) fun i hi => .inr (hmem i hi).1
  have hle4 := h5.evolves.le
  have hle3 := hevolves4.le.trans hle4
  exact {
    sound := h5.sound
    evolves := by
      rw [simplified, Stmt.frames]
      have := (hevolves1.trans hevolves3).trans (hevolves4.trans h5.evolves)
      simpa using this
    region := fun i hi => .inr (h5.region i hi)
    ended := fun hnone => by
      rw [hcurrent] at hnone
      cases hnone
    registers := fun frameAt code hcovered => by
      have hreg := (h4.registers frameAt code (hcovered.of_le hle4)).append (h5.registers frameAt code hcovered)
      have hdecls : l3.decls = { l.decls with temps := l.decls.temps + 1 } := by
        show l2.decls = _
        rw [hopened2.same]
        rfl
      rw [hdecls] at hreg
      exact ⟨hreg.matchers, hreg.bitvecs, hreg.splits⟩
    spans := fun frameAt code exits i hcovered hfits hi => by
      rw [hcurrent] at hi
      cases hi
      have hbranch := rest_put hready2.1 (hcovered.of_le hle3)
      rw [rest_of_same (hopened.stmts_eq b)] at hbranch
      have hmove := rest_put (l := l.oneTemp) hready.1 (hcovered.of_le (hevolves3.le.trans hle3))
      rw [@rest_of_same code l l.oneTemp b rfl, hbranch] at hmove
      obtain ⟨last, hrest, hlast, hends⟩ := h5.spans frameAt code exits hcovered hfits
      rw [hmove]
      have hlength : (ends.map fun e => e.map (l4.rest code)).length = cases.length := by
        rw [List.length_map, h4.length_eq]
      refine .dispatch hkeys hlength (fun j c t e hc ht he => ?_) hrest (fun e he => ?_) hlast
      · rw [List.getElem?_map, Option.map_eq_some_iff] at he
        obtain ⟨e', he', rfl⟩ := he
        exact h4.spans frameAt code exits (hcovered.of_le hle4) (h5.evolves.scopes.fits hfits) j c t.2 e' hc
          (by rw [List.getElem?_map, ht]; rfl) he'
      · obtain ⟨e', he', rfl⟩ := List.mem_map.1 he
        exact hends e' he' }

/-! ## All statements -/

mutual

/-- Laying out a tame statement puts it where it should stand, if it succeeds. -/
theorem layStmt_spans : ∀ s : Stmt, s.tame = true → Spannable s
  | .nop, _ => Spannable.nop
  | .valid, _ => Spannable.valid
  | .invalid reason, _ => Spannable.invalid reason
  | .counter id name, _ => Spannable.counter id name
  | .matcher id m, _ => Spannable.matcher id m
  | .bitvec id name size, _ => Spannable.bitvec id name size
  | .splitList id frames, h => Spannable.splitList id h
  | .uniqueSet id, _ => Spannable.uniqueSet id
  | .frame body, h => Spannable.frame body h
  | .leave loop, _ => Spannable.leave loop
  | .token, _ | .consume, _ | .untoken, _ | .incr _, _ | .decr _, _ | .bitSet .., _ | .bitClear .., _
  | .splitBits .., _ => Spannable.simple rfl
  | .seq list, h => Spannable.seq (layAll_spans list h)
  | .loop _ _ body, h => Spannable.loop (layStmt_spans body h)
  | .dispatch _ cases otherwise, h => by
    simp only [Stmt.tame, Bool.and_eq_true] at h
    exact Spannable.dispatch (layCases_spans cases h.1) (layStmt_spans otherwise h.2)
  | .ite condition yes no, h => by
    simp only [Stmt.tame, Bool.and_eq_true] at h
    have hstill := Expr.still_of_tame h.1
    by_cases hfold : ∃ holds, condition.fold = .bool holds
    · obtain ⟨holds, hholds⟩ := hfold
      refine Spannable.decided hstill hholds ?_
      cases holds with
      | true => exact layStmt_spans yes h.2.1
      | false => exact layStmt_spans no h.2.2
    · exact Spannable.ite hstill (not_exists.1 hfold) (layStmt_spans yes h.2.1) (layStmt_spans no h.2.2)
  | .block _, _ | .branch _, _ | .branchIf .., _ | .move .., _ | .call _, _ | .branchCase .., _ =>
    fun _ heq => by
      simp only [simplified, layStmt] at heq
      cases heq

theorem layAll_spans : ∀ list : List Stmt, tameAll list = true → ∀ s ∈ list, Spannable s
  | [], _ => by simp
  | s :: rest, h => by
    rw [tameAll, Bool.and_eq_true] at h
    intro t ht
    rcases List.mem_cons.1 ht with heq | ht
    · rw [heq]
      exact layStmt_spans s h.1
    · exact layAll_spans rest h.2 t ht

theorem layCases_spans : ∀ cases : List (UInt32 × Stmt), Stmt.tameCases cases = true → ∀ c ∈ cases, Spannable c.2
  | [], _ => by simp
  | (k, s) :: rest, h => by
    rw [Stmt.tameCases, Bool.and_eq_true] at h
    intro c hc
    rcases List.mem_cons.1 hc with heq | hc
    · rw [heq]
      exact layStmt_spans s h.1
    · exact layCases_spans rest h.2 c hc

end

end Graph

end JsonSieve
