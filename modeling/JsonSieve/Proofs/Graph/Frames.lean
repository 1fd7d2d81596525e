import Mathlib.Data.List.Forall2
import JsonSieve.Proofs.Graph.LaidOut
import JsonSieve.Proofs.Graph.Spans

/-!
# Frames laid out

A legal frame is laid out with its declarations and its body (`layFrame_lays`), and so are all frames that
are nested in it, directly or not (`layFrames_lays`). Laying out fails exactly if a statement stands behind one
that ends control in one of the frames.
-/

namespace JsonSieve.Graph

open Layout Legal

/-! ## Declarations -/

/-- As much is declared as in a draft. -/
structure DeclaredBy (d : Draft) (decls : Decls) : Prop where
  counters : decls.counters.length = d.counters
  matchers : decls.matchers.length = d.matchers
  bitvecs : decls.bitvecs.length = d.bitvecs
  splits : decls.splits.length = d.splits
  uniques : decls.uniques = d.uniques

def Layout.declared (decls : Decls) (more : List Stmt) (l : Layout) : Layout :=
  { l with decls, nested := l.nested ++ more, nextFrame := l.nextFrame + more.length }

theorem layAll_append (a b : List Stmt) : layAll (a ++ b) = (do
    layAll a
    layAll b) := by
  induction a with
  | nil =>
    rw [List.nil_append, layAll]
    simp only [pure_bind]
  | cons s a ih =>
    rw [List.cons_append, layAll, layAll, ih]
    simp only [bind_assoc]

theorem mapM_hoist (frames : List Stmt) (l : Layout) : frames.mapM hoist l =
    .ok (List.range' l.nextFrame frames.length, l.declared l.decls frames) := by
  induction frames generalizing l with
  | nil => simp [Layout.declared, pure_eq]
  | cons f frames ih =>
    rw [List.mapM_cons, bind_of_ok (hoist_eq f l), bind_of_ok (ih _), pure_eq]
    simp only [Layout.declared, Layout.hoisted, List.length_cons, List.range'_succ, List.append_assoc,
      List.cons_append, List.nil_append, Nat.add_assoc, Nat.add_comm 1]

theorem forall₂_range' {frameAt : Nat → Stmt → Prop} (frames : List Stmt) (start : Nat)
    (h : ∀ i body, frames[i]? = some body → frameAt (start + i) body) :
    List.Forall₂ frameAt (List.range' start frames.length) frames := by
  induction frames generalizing start with
  | nil => exact .nil
  | cons f frames ih =>
    rw [List.length_cons, List.range'_succ]
    refine .cons (h 0 f rfl) (ih (start + 1) fun i body hbody => ?_)
    have := h (i + 1) body hbody
    rwa [show start + 1 + i = start + (i + 1) by omega]

variable {l : Layout} {s : Stmt}

theorem declare_ok {kind : Declared} {id : Nat} {size : Decls → Nat} {add : Decls → Decls} (h : id = size l.decls) :
    declare kind id size add l = .ok ((), { l with decls := add l.decls }) := by
  rw [declare, if_pos h]

theorem layAll_snoc {decls : List Stmt} {l' : Layout} (h : layAll decls l = .ok ((), l'))
    (s : Stmt) : layAll (decls ++ [s]) l = layStmt s l' := by
  rw [layAll_append, bind_of_ok h, layAll, layAll]
  simp only [bind_pure_unit]

theorem innerAll_snoc (decls : List Stmt) (s : Stmt) :
    Stmt.innerAll (decls ++ [s]) = Stmt.innerAll decls ++ s.inner := by
  rw [innerAll_append, Stmt.innerAll, Stmt.innerAll, List.append_nil]

theorem innerAll_snoc_eq {decls : List Stmt} (h : s.inner = []) :
    Stmt.innerAll (decls ++ [s]) = Stmt.innerAll decls := by
  rw [innerAll_snoc, h, List.append_nil]

theorem layAll_declare {list : List Stmt} {decls : Decls} {kind : Declared}
    {id : Nat} {size : Decls → Nat} {add : Decls → Decls}
    (h : layAll list l = .ok ((), l.declared decls (Stmt.innerAll list)))
    (hlay : layStmt s = declare kind id size add) (hid : size decls = id) (hinner : s.inner = []) :
    layAll (list ++ [s]) l = .ok ((), l.declared (add decls) (Stmt.innerAll (list ++ [s]))) := by
  rw [layAll_snoc h, innerAll_snoc_eq hinner, hlay, declare_ok (l := l.declared decls (Stmt.innerAll list)) hid.symm]
  rfl

theorem layAll_decls {frame : Stmt → Prop} {d : Draft} (h : Declares frame d) (l : Layout) (hl : l.decls = {}) :
    ∃ decls, layAll d.decls l = .ok ((), l.declared decls (Stmt.innerAll d.decls)) ∧ DeclaredBy d decls := by
  induction h with
  | empty =>
    refine ⟨{}, ?_, rfl, rfl, rfl, rfl, rfl⟩
    rw [layAll, pure_eq, ← hl]
    simp [Layout.declared, Stmt.innerAll]
  | loop _ ih =>
    obtain ⟨decls, heq, h⟩ := ih
    exact ⟨decls, heq, h.counters, h.matchers, h.bitvecs, h.splits, h.uniques⟩
  | counter _ _ ih =>
    obtain ⟨decls, heq, h⟩ := ih
    refine ⟨_, layAll_declare heq (by rw [layStmt]) h.counters rfl, ?_, h.matchers, h.bitvecs, h.splits, h.uniques⟩
    simp [h.counters]
  | matcher _ _ ih =>
    obtain ⟨decls, heq, h⟩ := ih
    refine ⟨_, layAll_declare heq (by rw [layStmt]) h.matchers rfl, h.counters, ?_, h.bitvecs, h.splits, h.uniques⟩
    simp [h.matchers]
  | bitvec _ _ _ ih =>
    obtain ⟨decls, heq, h⟩ := ih
    refine ⟨_, layAll_declare heq (by rw [layStmt]) h.bitvecs rfl, h.counters, h.matchers, ?_, h.splits, h.uniques⟩
    simp [h.bitvecs]
  | unique _ ih =>
    obtain ⟨decls, heq, h⟩ := ih
    refine ⟨_, layAll_declare heq (by rw [layStmt]) h.uniques rfl, h.counters, h.matchers, h.bitvecs, h.splits, ?_⟩
    simp [h.uniques]
  | @split d frames _ _ ih =>
    obtain ⟨decls, heq, h⟩ := ih
    let ids := List.range' (l.nextFrame + (Stmt.innerAll d.decls).length) frames.length
    refine ⟨{ decls with splits := decls.splits ++ [ids] }, ?_, h.counters, h.matchers, h.bitvecs, ?_, h.uniques⟩
    · rw [layAll_snoc heq, innerAll_snoc, layStmt, bind_of_ok (mapM_hoist _ _), declare_ok]
      · simp [Layout.declared, Stmt.inner, ids, Nat.add_assoc]
      · simp [Layout.declared, h.splits]
    · simp [h.splits]

/-! ## One frame -/

/-- A frame has been laid out with the declarations of a draft, and its statements name what they declare. -/
structure FrameOut (fits : Nat → Prop) (d : Draft) (f : Frame (List Block)) : Prop where
  placed : ∀ b ∈ f.body, ∀ s ∈ b.stmts, Placed d fits f.decls.temps s
  declared : DeclaredBy d f.decls

theorem codeOf_toList (l : Layout) : codeOf l.blocks.toList = l.stmtsAt := by
  funext i
  simp [codeOf, stmtsAt]

def entryLayout (next : Nat) : Layout :=
  ((({ nextFrame := next } : Layout).pushed "entry").moved (some 0))

theorem layFrame_eq (next : Nat) (body : Stmt) : layFrame next body = (layStmt body (entryLayout next) >>= fun (_, l) =>
      match l.current with
      | some _ => .error .fallsThrough
      | none => .ok (⟨l.decls, l.blocks.toList⟩, l.nested)) := rfl

theorem layFrame_lays {fits : Nat → Prop} {frame : Stmt → Prop} {d : Draft}
    (hdecls : Declares frame d) (hcode : Code d fits frame s) (hfalls : s.falls = false) (next : Nat) :
    (s.ordered = true ∧ ∃ f, layFrame next (.seq (d.decls ++ [s])) =
        .ok (f, Stmt.innerAll d.decls ++ s.inner) ∧ FrameOut fits d f) ∨
    (s.ordered = false ∧ ∃ e, layFrame next (.seq (d.decls ++ [s])) = .error e) := by
  obtain ⟨decls, heq, hd⟩ := layAll_decls hdecls (entryLayout next) rfl
  let l0 := (entryLayout next).declared decls (Stmt.innerAll d.decls)
  have hempty : l0.Holds d fits := fun i s hs => by
    obtain _ | i := i <;> simp [l0, stmtsAt, Layout.declared, entryLayout, moved, pushed] at hs
  have hbody : layStmt (.seq (d.decls ++ [s])) (entryLayout next) = layStmt s l0 := by
    rw [layStmt, layAll_snoc heq]
  rw [layFrame_eq, hbody]
  obtain ⟨hordered, l, heq, h⟩ | ⟨hordered, e, heq⟩ := layStmt_lays hcode l0 0 rfl
  · have hnone : l.current = none := by
      have := h.falls_eq
      rwa [hfalls, Option.isSome_eq_false_iff, Option.isNone_iff_eq_none] at this
    have hnested : l.nested = Stmt.innerAll d.decls ++ s.inner := h.grown.nested_eq
    refine .inl ⟨hordered, ⟨l.decls, l.blocks.toList⟩, ?_, fun b hb s hs => ?_, ?_⟩
    · rw [heq, ← hnested]
      show (match l.current with | some _ => _ | none => _) = _
      rw [hnone]
    · obtain ⟨i, hi, rfl⟩ := List.getElem_of_mem hb
      rw [Array.length_toList] at hi
      exact h.grown.holds hempty i s (by simpa [stmtsAt, hi] using hs)
    · have hsame : l.decls = { decls with temps := l.decls.temps } := h.grown.decls_eq
      rw [hsame]
      exact ⟨hd.counters, hd.matchers, hd.bitvecs, hd.splits, hd.uniques⟩
  · exact .inr ⟨hordered, e, by rw [heq]; rfl⟩

/-! ## All frames -/

/-- The frames of a graph, numbered from `base`, have been laid out from bodies, and nested frames stand
where they are named. -/
structure Numbered (base : Nat) (bodies : List Stmt) (g : Graph) : Prop where
  length_eq : g.length = bodies.length
  frame : ∀ (i : Nat) (body : Stmt) (f : Frame (List Block)), bodies[i]? = some body → g[i]? = some f →
    ∃ next nested, layFrame next body = .ok (f, nested) ∧ next + nested.length ≤ base + bodies.length ∧
      ∀ (k : Nat) (b : Stmt), nested[k]? = some b → base ≤ next + k ∧ bodies[next + k - base]? = some b

/-- Frames are laid out one after the other. What one layout keeps from a body to the bodies nested in it holds
of all of them, and there are enough steps if no layout meets more frames than its body has. -/
theorem layFrames_numbered {keeps : Stmt → Prop} (hkeeps : ∀ {next body f nested}, keeps body →
      layFrame next body = .ok (f, nested) →
      (∀ b ∈ nested, keeps b) ∧ nested.length + Stmt.framesOf nested ≤ body.frames)
    {fuel : Nat} (base : Nat) {pending : List Stmt} {g : Graph} (hpending : ∀ b ∈ pending, keeps b)
    (hfuel : pending.length + Stmt.framesOf pending ≤ fuel)
    (heq : layFrames fuel (base + pending.length) pending = .ok g) :
    ∃ bodies, pending <+: bodies ∧ (∀ b ∈ bodies, keeps b) ∧ Numbered base bodies g := by
  induction fuel generalizing base pending g with
  | zero =>
    obtain rfl : pending = [] := List.eq_nil_of_length_eq_zero (by omega)
    cases heq
    exact ⟨[], List.prefix_rfl, hpending, rfl, by simp⟩
  | succ fuel ih =>
    cases pending with
    | nil =>
      cases heq
      exact ⟨[], List.prefix_rfl, hpending, rfl, by simp⟩
    | cons body pending =>
      obtain ⟨hbody, hlater⟩ := List.forall_mem_cons.1 hpending
      rw [layFrames] at heq
      obtain ⟨⟨f, nested⟩, hframe, heq⟩ := step_ok heq
      obtain ⟨rest, hrest, heq⟩ := step_ok heq
      cases heq
      obtain ⟨hnested, hcount⟩ := hkeeps hbody hframe
      have hnext : base + (body :: pending).length + nested.length = base + 1 + (pending ++ nested).length := by
        rw [List.length_cons, List.length_append]
        omega
      rw [hnext] at hrest
      rw [List.length_cons, Stmt.framesOf] at hfuel
      obtain ⟨bodies, hprefix, hbodies, hnumbered⟩ := ih (base + 1) (List.forall_mem_append.2 ⟨hlater, hnested⟩)
        (by rw [List.length_append, Legal.framesOf_append]; omega) hrest
      have hlength := hprefix.length_le
      rw [List.length_append] at hlength
      refine ⟨body :: bodies, List.cons_prefix_cons.2 ⟨rfl, (List.prefix_append _ _).trans hprefix⟩,
        List.forall_mem_cons.2 ⟨hbody, hbodies⟩, ?_, fun i body' f' hbody' hf' => ?_⟩
      · rw [List.length_cons, List.length_cons, hnumbered.length_eq]
      · rw [List.length_cons]
        cases i with
        | zero =>
          cases hbody'
          cases hf'
          refine ⟨_, nested, hframe, by rw [List.length_cons]; omega, fun k b hk => ⟨by omega, ?_⟩⟩
          obtain ⟨suffix, rfl⟩ := hprefix
          have hlt := (List.getElem?_eq_some_iff.1 hk).1
          rw [List.length_cons, show base + (pending.length + 1) + k - base =
              pending.length + k + 1 by omega, List.getElem?_cons_succ, List.append_assoc,
            List.getElem?_append_right (by omega), Nat.add_sub_cancel_left,
            List.getElem?_append_left hlt, hk]
        | succ i =>
          obtain ⟨next, nested', hframe', hle, hstand⟩ := hnumbered.frame i body' f' hbody' hf'
          refine ⟨next, nested', hframe', by omega, fun k b hk => ?_⟩
          obtain ⟨hbase, hb⟩ := hstand k b hk
          refine ⟨by omega, ?_⟩
          rw [show next + k - base = next + k - (base + 1) + 1 by omega, List.getElem?_cons_succ, hb]

/-- One frame is nested in another, directly or not, or is the same. -/
abbrev Nested : Stmt → Stmt → Prop := Relation.ReflTransGen fun a b => b ∈ a.inner

/-- In no frame does something stand behind a statement that ends control. -/
def Orderly (body : Stmt) : Prop := ∀ b, Nested body b → b.ordered = true

theorem orderly_iff {body : Stmt} : Orderly body ↔ body.ordered = true ∧ ∀ b ∈ body.inner, Orderly b := by
  constructor
  · exact fun h => ⟨h body .refl, fun b hb b' hb' => h b' (.head hb hb')⟩
  · intro h b hb
    rcases hb.cases_head with rfl | ⟨c, hc, hb⟩
    · exact h.1
    · exact h.2 c hc b hb

theorem layFrames_lays {fits : Nat → Prop} (fuel next : Nat) (pending : List Stmt)
    (hframes : ∀ b ∈ pending, ∃ n, Legal.Frame fits n b)
    (hfuel : pending.length + Stmt.framesOf pending ≤ fuel) : ((∀ b ∈ pending, Orderly b) ∧ ∃ g,
      layFrames fuel next pending = .ok g ∧ g.length = pending.length + Stmt.framesOf pending ∧
      ∀ f ∈ g, ∃ d, FrameOut fits d f) ∨ (¬ (∀ b ∈ pending, Orderly b) ∧
      ∃ e, layFrames fuel next pending = .error e) := by
  induction fuel generalizing next pending with
  | zero =>
    obtain rfl : pending = [] := List.eq_nil_of_length_eq_zero (by omega)
    exact .inl ⟨by simp, [], rfl, rfl, by simp⟩
  | succ fuel ih =>
    cases pending with
    | nil => exact .inl ⟨by simp, [], rfl, rfl, by simp⟩
    | cons body pending =>
      obtain ⟨n, hbody⟩ := hframes body (.head _)
      have hcount := hbody.frames_eq
      cases n with
      | zero => exact absurd hbody id
      | succ n =>
      have hinner := hbody.mem_inner
      obtain ⟨d, s, hseq, hdecls, hcode, hfalls⟩ := hbody
      have hinnerEq : body.inner = Stmt.innerAll d.decls ++ s.inner := by
        rw [hseq, inner_frame]
      have hordered : body.ordered = s.ordered := by
        rw [hseq, ordered_snoc fun s hs => (hdecls.each s hs).2]
      have horderly : (∀ b ∈ body :: pending, Orderly b) ↔
          s.ordered = true ∧ ∀ b ∈ pending ++ body.inner, Orderly b := by
        rw [List.forall_mem_cons, orderly_iff, hordered, List.forall_mem_append]
        constructor
        · exact fun ⟨⟨ho, hi⟩, hp⟩ => ⟨ho, hp, hi⟩
        · exact fun ⟨ho, hp, hi⟩ => ⟨⟨ho, hi⟩, hp⟩
      rw [horderly]
      obtain ⟨ho, f, heq, hout⟩ | ⟨ho, e, heq⟩ := layFrame_lays hdecls hcode hfalls next
      · rw [← hseq, ← hinnerEq] at heq
        rw [Stmt.framesOf, hcount, List.length_cons] at hfuel
        have hstep : layFrames (fuel + 1) next (body :: pending) =
            (layFrames fuel (next + body.inner.length) (pending ++ body.inner) >>= fun rest => .ok (f :: rest)) := by
          rw [layFrames, heq]
          rfl
        rw [hstep]
        obtain ⟨hall, g, hg, hlength, hlaid⟩ | ⟨hall, e, hg⟩ :=
          ih (next + body.inner.length) (pending ++ body.inner)
            (fun b hb => (List.mem_append.1 hb).elim
              (fun hb => hframes b (.tail _ hb)) fun hb => ⟨n, hinner b hb⟩)
            (by rw [List.length_append, framesOf_append]; omega)
        · rw [List.length_append, framesOf_append] at hlength
          refine .inl ⟨⟨ho, hall⟩, f :: g, by rw [hg]; rfl, ?_, List.forall_mem_cons.2 ⟨⟨d, hout⟩, hlaid⟩⟩
          rw [List.length_cons, List.length_cons, Stmt.framesOf, hcount]
          omega
        · exact .inr ⟨fun h => hall h.2, e, by rw [hg]; rfl⟩
      · rw [← hseq] at heq
        exact .inr ⟨fun h => by simp [ho] at h, e, by rw [layFrames, heq]; rfl⟩

end JsonSieve.Graph
