import JsonSieve.Assembly.OfFlat
import JsonSieve.Proofs.Assembly.Flattened
import JsonSieve.Proofs.Image.Resolved

/-!
# Procedures

The procedure of numbered blocks is the code of its blocks, one after another, with a label where each
begins (`procedure_eq`), and an assembly is made of the procedures of its frames (`ofFlat_covers`). Every
slot that a statement names is a slot of its frame (`Scope.emits_stmt`).
-/

namespace JsonSieve.Assembly

open Flat

/-! ## Blocks -/

def nextOf (blocks : List Block) (i : Nat) : Option Nat :=
  if i + 1 < blocks.length then some (i + 1) else none

def Scope.code (s : Scope) (next : Option Nat) (stmts : List Stmt) : Assembling (List Op) :=
  List.flatten <$> stmts.mapM (s.stmt next)

def Scope.blockCode (s : Scope) (blocks : List Block) : Assembling (List (List Op)) :=
  blocks.mapM fun b => s.code (nextOf blocks b.id) b.stmts

/-- Where each of some pieces begins when they stand one after another. -/
def offsets (start : Nat) : List (List Op) → List Nat
  | [] => []
  | piece :: rest => start :: offsets (start + piece.length) rest

theorem length_offsets (start : Nat) (pieces : List (List Op)) : (offsets start pieces).length = pieces.length := by
  induction pieces generalizing start with
  | nil => rfl
  | cons piece pieces ih => rw [offsets, List.length_cons, ih, List.length_cons]

variable {i n : Nat} {α β : Type} {blocks : List Block} {floats : List Binary64}
  {f : Frame (List Block)} {a a' : Assembly} {g : Graph} {facts : Option (List Liveness.FrameFacts)}

theorem getElem?_offsets {pieces : List (List Op)} (h : i < pieces.length) (start : Nat) :
    (offsets start pieces)[i]? = some (start + (pieces.take i).flatten.length) := by
  induction pieces generalizing start i with
  | nil => exact absurd h (Nat.not_lt_zero _)
  | cons piece pieces ih =>
    cases i with
    | zero => simp [offsets]
    | succ i =>
      rw [offsets, List.getElem?_cons_succ, ih (by simpa using h)]
      simp [Nat.add_assoc]

theorem append_append_list (ops : Array Op) (x y : List Op) : ops ++ x ++ y = ops ++ (x ++ y) := by
  apply Array.ext'
  simp

theorem size_append_list (ops : Array Op) (x : List Op) : (ops ++ x).size = ops.size + x.length := by
  rw [← Array.length_toList, ← Array.length_toList]
  simp

theorem mapM_congr {m : Type → Type} [Monad m] [LawfulMonad m] {f g : α → m β}
    {list : List α} (h : ∀ a ∈ list, f a = g a) : list.mapM f = list.mapM g := by
  induction list with
  | nil => simp
  | cons a list ih =>
    rw [List.mapM_cons, List.mapM_cons, h a List.mem_cons_self, ih fun b hb => h b (.tail _ hb)]

variable {s : Scope} {floats' : List Binary64}

theorem foldlM_place {order : List Nat} {stmts : List Stmt}
    (h : ∀ st ∈ stmts, ∀ id, st ≠ .block id) (p : Placed) : stmts.foldlM (place s order) p = (do
      let ops ← s.code p.next stmts
      pure { p with ops := p.ops ++ ops }) := by
  induction stmts generalizing p with
  | nil => simp [Scope.code]
  | cons st stmts ih =>
    have hst := h st (.head _)
    have hplace : place s order p st = (do
        let ops ← s.stmt p.next st
        pure { p with ops := p.ops ++ ops }) := place.eq_2 _ _ _ _ fun id hid => hst id hid
    simp only [List.foldlM_cons, hplace, bind_assoc, pure_bind,
      ih fun t ht => h t (.tail _ ht), Scope.code, List.mapM_cons, map_bind, map_pure,
      bind_map_left, List.flatten_cons, append_append_list]

/-- Placing blocks whose numbers begin at `known.length`, where the blocks before begin at `known`. -/
theorem foldlM_place_blocks {order : List Nat}
    (hunmarked : ∀ b ∈ blocks, ∀ st ∈ b.stmts, ∀ id, st ≠ .block id) (known : List Nat)
    (hid : ∀ (i : Nat) (b : Block), blocks[i]? = some b → b.id = known.length + i) (ops : Array Op)
    (next : Option Nat) : (markedStmts blocks).foldlM (place s order)
      ⟨ops, known.map some ++ List.replicate blocks.length none, next⟩ = (do
      let code ← blocks.mapM fun b => s.code (following order b.id) b.stmts
      pure ⟨ops ++ code.flatten, (known ++ offsets ops.size code).map some,
        (blocks.getLast?.map fun b => following order b.id).getD next⟩) := by
  induction blocks generalizing known ops next with
  | nil => simp [markedStmts, offsets]
  | cons b blocks ih =>
    have hb : b.id = known.length := by simpa using hid 0 b rfl
    have hmarked : markedStmts (b :: blocks) = .block b.id :: (b.stmts ++ markedStmts blocks) := rfl
    have hlabels : (known.map some ++ List.replicate (blocks.length + 1) none).set b.id
        (some ops.size) = (known ++ [ops.size]).map some ++ List.replicate blocks.length none := by
      rw [hb, List.set_append_right _ _ (by simp), List.replicate_succ]
      simp
    have hplace : place s order ⟨ops, known.map some ++ List.replicate (blocks.length + 1) none, next⟩
        (.block b.id) = pure ⟨ops, (known ++ [ops.size]).map some ++ List.replicate blocks.length none,
          following order b.id⟩ := by
      rw [place, if_pos (by simp [hb]), ← hlabels]
    have ih := ih (fun c hc => hunmarked c (.tail _ hc)) (known ++ [ops.size]) (fun i c hc => by
        have := hid (i + 1) c (by simpa using hc)
        simp only [List.length_append, List.length_singleton]
        omega)
    have hlast : ((b :: blocks).getLast?.map fun b => following order b.id).getD next =
        (blocks.getLast?.map fun b => following order b.id).getD (following order b.id) := by
      rw [List.getLast?_cons]
      cases blocks.getLast? <;> rfl
    rw [hmarked, List.foldlM_cons, List.length_cons, hplace, pure_bind, List.foldlM_append,
      foldlM_place (hunmarked b (.head _)), hlast]
    simp only [bind_assoc, pure_bind, ih, List.mapM_cons, List.flatten_cons, append_append_list, offsets,
      List.append_assoc, List.cons_append, List.nil_append, size_append_list]

theorem markers_append (a b : List Stmt) : markers (a ++ b) = markers a ++ markers b :=
  List.filterMap_append

theorem markers_markedStmts (h : ∀ b ∈ blocks, ∀ s ∈ b.stmts, ∀ id, s ≠ .block id) :
    markers (markedStmts blocks) = blocks.map (·.id) := by
  induction blocks with
  | nil => rfl
  | cons b blocks ih =>
    have hmarked : markedStmts (b :: blocks) = .block b.id :: (b.stmts ++ markedStmts blocks) := rfl
    have hstmts : markers b.stmts = [] := by
      rw [markers, List.filterMap_eq_nil_iff]
      intro s hs
      have := h b (.head _) s hs
      cases s with
      | block id => exact absurd rfl (this id)
      | _ => rfl
    have hcons : markers (.block b.id :: (b.stmts ++ markedStmts blocks)) =
        b.id :: markers (b.stmts ++ markedStmts blocks) := rfl
    rw [hmarked, hcons, markers_append, hstmts, ih fun c hc => h c (.tail _ hc)]
    rfl

theorem following_range (h : i < n) : following (List.range n) i = if i + 1 < n then some (i + 1) else none := by
  have hidx : (List.range n).findIdx? (· = i) = some i := by
    rw [List.findIdx?_eq_some_iff_getElem]
    refine ⟨by simpa using h, by simp, fun j hj => ?_⟩
    simp
    omega
  rw [following, hidx]
  dsimp only
  by_cases hi : i + 1 < n
  · rw [if_pos hi, List.getElem?_range hi]
  · rw [if_neg hi, List.getElem?_eq_none (by simpa using hi)]

theorem ids_eq (h : Numbered blocks) : blocks.map (·.id) = List.range blocks.length := by
  apply List.ext_getElem (by simp)
  intro i hi hi'
  simp only [List.length_map] at hi
  simpa using h.id_eq i _ (List.getElem?_eq_getElem hi)

theorem procedure_eq (h : Numbered blocks) : procedure s (bodyOf blocks) = (do
      let code ← s.blockCode blocks
      pure ⟨Word.saturate s.slots, code.flatten, offsets 0 code⟩) := by
  have horder : markers (markedStmts blocks) = List.range blocks.length := by
    rw [markers_markedStmts h.unmarked, ids_eq h]
  have hcode : (blocks.mapM fun b => s.code (following (List.range blocks.length) b.id) b.stmts) =
      s.blockCode blocks := by
    refine mapM_congr fun b hb => ?_
    obtain ⟨i, hi, rfl⟩ := List.getElem_of_mem hb
    rw [h.id_eq i _ (List.getElem?_eq_getElem hi), following_range hi, nextOf]
  have hfold := @foldlM_place_blocks blocks s (List.range blocks.length) h.unmarked []
    (fun i b hb => by simpa using h.id_eq i b hb) #[] none
  simp only [List.map_nil, List.nil_append] at hfold
  rw [procedure]
  simp only [bodyOf, horder, List.length_map, List.length_range, Nat.max_self]
  rw [hfold, hcode]
  simp only [bind_assoc, pure_bind]
  refine bind_congr fun code => ?_
  have hnone : ((offsets (#[] : Array Op).size code).map some).findIdx? (·.isNone) = none := by
    simp
  rw [hnone]
  simp

/-! ## The table of numbers -/

/-- Numbers are only added to the table, and with a table that has them already nothing changes. -/
def Stable {α : Type} (x : Assembling α) : Prop :=
  ∀ (floats : List Binary64) (r : α) (floats' : List Binary64), x floats = .ok (r, floats') →
    floats <+: floats' ∧ ∀ final, floats' <+: final → x final = .ok (r, final)

namespace Stable

variable {α β : Type}

theorem pure (a : α) : Stable (Pure.pure a : Assembling α) := by
  intro floats r floats' h
  cases h
  exact ⟨List.prefix_rfl, fun _ _ => rfl⟩

theorem throw (d : Defect) : Stable (MonadExcept.throw d : Assembling α) := by
  intro floats r floats' h
  cases h

end Stable

theorem bind_of_ok {x : Assembling α} {f : α → Assembling β}
    {a : α} (h : x floats = .ok (a, floats')) : (x >>= f) floats = f a floats' := by
  show (x floats >>= fun (a, s) => f a s) = _
  rw [h]
  rfl

theorem bind_eq_ok {x : Assembling α} {f : α → Assembling β} {r : β} (h : (x >>= f) floats = .ok (r, floats')) :
    ∃ a mid, x floats = .ok (a, mid) ∧ f a mid = .ok (r, floats') := by
  cases hx : x floats with
  | error d =>
    have : (x >>= f) floats = .error d := by
      show (x floats >>= fun (a, s) => f a s) = _
      rw [hx]
      rfl
    rw [this] at h
    cases h
  | ok out => exact ⟨out.1, out.2, rfl, by rwa [bind_of_ok hx] at h⟩

namespace Stable

variable {α β : Type}

theorem bind {x : Assembling α} {f : α → Assembling β} (hx : Stable x)
    (hf : ∀ {floats a mid}, x floats = .ok (a, mid) → Stable (f a)) : Stable (x >>= f) := by
  intro floats r floats' h
  obtain ⟨a, mid, ha, hr⟩ := bind_eq_ok h
  obtain ⟨hmid, hagain⟩ := hx _ _ _ ha
  obtain ⟨hfloats', hagain'⟩ := hf ha _ _ _ hr
  refine ⟨hmid.trans hfloats', fun final hfinal => ?_⟩
  rw [bind_of_ok (hagain final (hfloats'.trans hfinal)), hagain' final hfinal]

theorem mapM {f : α → Assembling β} (hf : ∀ a, Stable (f a)) (list : List α) : Stable (list.mapM f) := by
  induction list with
  | nil =>
    rw [List.mapM_nil]
    exact pure _
  | cons a list ih =>
    rw [List.mapM_cons]
    exact bind (hf a) fun _ => bind ih fun _ => pure _

end Stable

theorem Stable.bind_eq_ok {x : Assembling α} {f : α → Assembling β} (hx : Stable x)
    (hf : ∀ a, Stable (f a)) {r : β} (h : (x >>= f) floats = .ok (r, floats)) :
    ∃ a, x floats = .ok (a, floats) ∧ f a floats = .ok (r, floats) := by
  obtain ⟨a, mid, ha, hr⟩ := Assembly.bind_eq_ok h
  obtain rfl : floats = mid :=
    (hx _ _ _ ha).1.eq_of_length (Nat.le_antisymm (hx _ _ _ ha).1.length_le (hf a _ _ _ hr).1.length_le)
  exact ⟨a, ha, hr⟩

/-- The assembler is stable, and whatever it returns has a property. -/
structure Emits {α : Type} (P : α → Prop) (x : Assembling α) : Prop where
  stable : Stable x
  yields : ∀ {floats r floats'}, x floats = .ok (r, floats') → P r

namespace Emits

variable {α β : Type} {P P' : α → Prop} {Q : β → Prop} {x y : Assembling α}

theorem pure {r : α} (h : P r) : Emits P (Pure.pure r) where
  stable := .pure r
  yields hok := by
    cases hok
    exact h

theorem throw (d : Defect) : Emits P (MonadExcept.throw d) where
  stable := .throw d
  yields hok := by cases hok

theorem bind {f : α → Assembling β} (hx : Emits P x) (hf : ∀ r, P r → Emits Q (f r)) : Emits Q (x >>= f) where
  stable := .bind hx.stable fun hr => (hf _ (hx.yields hr)).stable
  yields hok := by
    obtain ⟨r, _, hr, hok⟩ := bind_eq_ok hok
    exact (hf r (hx.yields hr)).yields hok

theorem imp (hx : Emits P x) (h : ∀ r, P r → P' r) : Emits P' x := ⟨hx.stable, fun hok => h _ (hx.yields hok)⟩

theorem ite {p : Prop} [Decidable p] (hx : p → Emits P x) (hy : Emits P y) : Emits P (if p then x else y) := by
  split
  · next hp => exact hx hp
  · exact hy

end Emits

theorem findIdx?_of_prefix {x : Binary64} {final : List Binary64}
    (h : floats.findIdx? (· = x) = some i) (hfinal : floats <+: final) : final.findIdx? (· = x) = some i := by
  obtain ⟨more, rfl⟩ := hfinal
  rw [List.findIdx?_append, h]
  rfl

theorem stable_floatOperand (x : Binary64) : Stable (floatOperand x) := by
  intro floats r floats' h
  rw [floatOperand] at h
  split at h
  · rename_i i hi
    cases h
    refine ⟨List.prefix_rfl, fun final hfinal => ?_⟩
    rw [floatOperand, findIdx?_of_prefix hi hfinal]
  · rename_i hnone
    cases h
    refine ⟨List.prefix_append .., fun final hfinal => ?_⟩
    have hlast : (floats ++ [x]).findIdx? (· = x) = some floats.length := by
      rw [List.findIdx?_append, hnone]
      simp
    rw [floatOperand, findIdx?_of_prefix hlast hfinal]

theorem toNat_saturate_le (n : Nat) : (Word.saturate n).toNat ≤ n := by
  rw [Word.saturate]
  by_cases h : n < Nat.pow 2 32
  · rw [if_pos h]
    exact Nat.le_of_eq (UInt32.toNat_ofNat_of_lt' h)
  · rw [if_neg h]
    have hle : 2 ^ 32 ≤ n := Nat.le_of_not_lt h
    exact Nat.le_trans (by decide) hle

theorem toNat_saturate (h : n < Nat.pow 2 32) : (Word.saturate n).toNat = n := by
  rw [Word.saturate, if_pos h]
  exact UInt32.toNat_ofNat_of_lt' h

theorem le_foldl_max (list : List Nat) (n : Nat) : n ≤ list.foldl (fun n c => max n (c + 1)) n := by
  induction list generalizing n with
  | nil => exact Nat.le_refl n
  | cons c list ih => exact Nat.le_trans (Nat.le_max_left n (c + 1)) (ih _)

theorem lt_foldl_max {list : List Nat} {c : Nat} (h : c ∈ list) (n : Nat) :
    c < list.foldl (fun n c => max n (c + 1)) n := by
  induction list generalizing n with
  | nil => cases h
  | cons c' list ih =>
    rcases List.mem_cons.1 h with rfl | h
    · exact Nat.lt_of_lt_of_le (Nat.le_max_right n (c + 1)) (le_foldl_max list _)
    · exact ih h _

namespace Scope

variable (s : Scope)

/-! ## Slots -/

theorem bounds : s.firstBitvec = s.decls.counters.length ∧ s.firstUnique = s.firstBitvec + s.decls.bitvecs.length ∧
    s.firstTemp = s.firstUnique + s.decls.uniques ∧ s.firstTemp ≤ s.slots :=
  ⟨rfl, rfl, rfl, Nat.le_add_right _ _⟩

theorem temp_lt {s : Scope} {t colour : Nat} (h : s.colours[t]? = some colour) : s.firstTemp + colour < s.slots :=
  Nat.add_lt_add_left (lt_foldl_max (List.mem_of_getElem? h) 0) _

/-- The operand is no slot, or a slot of the frame. -/
def Within : Operand → Prop
  | .slot i => i.toNat < s.slots
  | _ => True

def AllWithin (ops : List Op) : Prop := ∀ op ∈ ops, s.Within op.a ∧ s.Within op.b

variable {s} {ops ops' : List Op} {op : Op}

theorem within_slotAt (h : i < s.slots) : s.Within (slotAt i) :=
  Nat.lt_of_le_of_lt (toNat_saturate_le i) h

theorem AllWithin.cons (ha : s.Within op.a) (hb : s.Within op.b) (h : s.AllWithin ops) : s.AllWithin (op :: ops) :=
  List.forall_mem_cons.2 ⟨⟨ha, hb⟩, h⟩

theorem AllWithin.one (ha : s.Within op.a) (hb : s.Within op.b) : s.AllWithin [op] :=
  .cons ha hb (List.forall_mem_nil _)

theorem AllWithin.append (h : s.AllWithin ops) (h' : s.AllWithin ops') : s.AllWithin (ops ++ ops') :=
  fun op hop => (List.mem_append.1 hop).elim (h op) (h' op)

variable (s)

theorem emits_counter (c : Nat) : Emits s.Within (s.counter c) := by
  obtain ⟨hbv, hu, ht, hle⟩ := s.bounds
  exact .ite (fun hc => .pure (within_slotAt (by omega))) (.throw _)

theorem emits_bitvec (bv : Nat) : Emits s.Within (s.bitvec bv) := by
  obtain ⟨-, hu, ht, hle⟩ := s.bounds
  exact .ite (fun hbv => .pure (within_slotAt (by omega))) (.throw _)

theorem emits_unique (u : Nat) : Emits s.Within (s.unique u) := by
  obtain ⟨-, -, ht, hle⟩ := s.bounds
  exact .ite (fun hu => .pure (within_slotAt (by omega))) (.throw _)

theorem emits_temp (t : Nat) : Emits s.Within (s.temp t) := by
  rw [temp]
  split
  · next hcolour => exact .pure (within_slotAt (temp_lt hcolour))
  · exact .throw _

theorem emits_split (i : Nat) : Emits s.Within (s.split i) := .ite (fun _ => .pure trivial) (.throw _)

theorem emits_matcher (m : Nat) : Emits s.Within (s.matcher m) := .ite (fun _ => .pure trivial) (.throw _)

theorem emits_floatOperand (x : Binary64) : Emits s.Within (floatOperand x) where
  stable := stable_floatOperand x
  yields hok := by
    rw [floatOperand] at hok
    split at hok <;> cases hok <;> trivial

theorem emits_intOperand (e : Expr) : Emits s.Within (s.intOperand e) := by
  cases e with
  | size n => exact .ite (fun _ => .pure trivial) (.throw _)
  | count c => exact s.emits_counter c
  | temp t => exact s.emits_temp t
  | int | bool | tokenKind | tokenLength | tokenComplete => exact .pure trivial
  | _ => exact .throw _

theorem emits_numOperand (e : Expr) : Emits s.Within (s.numOperand e) := by
  unfold numOperand
  split
  · exact s.emits_floatOperand _
  · exact .pure trivial
  · exact s.emits_intOperand _

theorem emits_condition (e : Expr) : Emits (fun r => s.AllWithin [r.1]) (s.condition e) := by
  have both : ∀ {x y : Assembling Operand} {code : Opcode}, Emits s.Within x → Emits s.Within y →
      Emits (fun r => s.AllWithin [r.1]) (x >>= fun a => y >>= fun b => pure (⟨code, a, b⟩, true)) :=
    fun hx hy => .bind hx fun _ ha => .bind hy fun _ hb => .pure (.one ha hb)
  cases e with
  | not e => exact .bind (emits_condition e) fun _ h => .pure h
  | compare c a b =>
    exact .ite (fun _ => both (s.emits_numOperand a) (s.emits_numOperand b))
      (both (s.emits_intOperand a) (s.emits_intOperand b))
  | isInteger e | isMultiple e _ => exact both (s.emits_numOperand e) (s.emits_floatOperand _)
  | bitTest bv _ | bitsAll bv | bitsAny bv => exact .bind (s.emits_bitvec bv) fun _ h => .pure (.one h trivial)
  | unique u => exact .bind (s.emits_unique u) fun _ h => .pure (.one h trivial)
  | temp t => exact .bind (s.emits_temp t) fun _ h => .pure (.one h trivial)
  | isToken | bool | tokenComplete => exact .pure (.one trivial trivial)
  | _ => exact .throw _

theorem emits_moveInto (slot : Operand) (e : Expr) :
    Emits (fun ops => s.Within slot → s.AllWithin ops) (s.moveInto slot e) := by
  unfold moveInto
  split
  · exact .bind (s.emits_split _) fun _ h => .pure fun hslot => .one h hslot
  · exact .bind (s.emits_matcher _) fun _ h => .pure fun hslot => .cons h trivial (.one hslot trivial)
  · exact .bind (s.emits_bitvec _) fun _ h => .pure fun hslot => .one hslot h
  · exact .bind (s.emits_intOperand _) fun _ h => .pure fun hslot => .one hslot h

theorem allWithin_flagBranches (next : Option Nat) (onSet onClear : Nat) :
    s.AllWithin (flagBranches next onSet onClear) := by
  unfold flagBranches
  split
  · exact .one trivial trivial
  · split
    · exact .one trivial trivial
    · exact .cons trivial trivial (.one trivial trivial)

theorem emits_stmt (next : Option Nat) (st : Stmt) : Emits s.AllWithin (s.stmt next st) := by
  cases st with
  | nop => exact .pure (List.forall_mem_nil _)
  | valid | invalid | token | consume | untoken | branch => exact .pure (.one trivial trivial)
  | incr c | decr c => exact .bind (s.emits_counter c) fun _ h => .pure (.one h trivial)
  | bitSet bv _ | bitClear bv _ => exact .bind (s.emits_bitvec bv) fun _ h => .pure (.one h trivial)
  | splitBits bv i =>
    exact .bind (s.emits_split i) fun _ hi => .bind (s.emits_bitvec bv) fun _ h => .pure (.one hi h)
  | call => exact .ite (fun _ => .pure (.one trivial trivial)) (.throw _)
  | move t e => exact .bind (s.emits_temp t) fun slot h => (s.emits_moveInto slot e).imp fun _ hops => hops h
  | branchIf e yes no =>
    exact .bind (s.emits_condition e) fun _ h => .pure (.append h (s.allWithin_flagBranches _ _ _))
  | branchCase t cases otherwise =>
    refine .bind (s.emits_temp t) fun slot h => .pure (.append (fun op hop => ?_) ?_)
    · obtain ⟨c, -, hop⟩ := List.mem_flatMap.1 hop
      have hcase : s.AllWithin [⟨.compareWords .eq, slot, .int (Int64.ofNat c.1.toNat)⟩,
          ⟨.branchIfSet, label c.2, .none⟩] := .cons h trivial (.one trivial trivial)
      exact hcase op hop
    · cases otherwise <;> exact .one trivial trivial
  | _ => exact .throw _

theorem stable_code (next : Option Nat) (stmts : List Stmt) : Stable (s.code next stmts) := by
  rw [code, map_eq_pure_bind]
  exact .bind (.mapM (fun st => (s.emits_stmt next st).stable) stmts) fun _ => .pure _

theorem stable_blockCode (blocks : List Block) : Stable (s.blockCode blocks) :=
  .mapM (fun _ => s.stable_code _ _) blocks

end Scope

/-! ## Any program -/

/-- What holds of no code, and with any code also of it with a further label or the instructions of a further
statement, holds of the code of a procedure. -/
theorem procedure_induction {body : FlatBody} {p : Procedure}
    (holds : List Op → List (Option Nat) → Prop) (start : ∀ n, holds [] (List.replicate n none))
    (mark : ∀ ops labels i, holds ops labels → holds ops (labels.set i (some ops.length)))
    (code : ∀ {ops labels next st floats new floats'}, holds ops labels →
      s.stmt next st floats = .ok (new, floats') → holds (ops ++ new) labels)
    (hok : procedure s body floats = .ok (p, floats')) :
    p.slots = Word.saturate s.slots ∧ ∃ labels, p.labels = labels.filterMap id ∧ holds p.ops labels := by
  have step : ∀ {order st p p' floats floats'}, holds p.ops.toList p.labels →
      place s order p st floats = .ok (p', floats') → holds p'.ops.toList p'.labels := by
    intro order st p p' floats floats' h hplace
    by_cases hblock : ∃ id, st = .block id
    · obtain ⟨i, rfl⟩ := hblock
      rw [place] at hplace
      split at hplace
      · cases hplace
        exact Array.length_toList ▸ mark _ _ i h
      · cases hplace
    · rw [place.eq_2 _ _ _ _ fun id hid => hblock ⟨id, hid⟩] at hplace
      obtain ⟨new, _, hnew, hplace⟩ := bind_eq_ok hplace
      cases hplace
      simpa using code h hnew
  have run : ∀ {order} (stmts : List Stmt) {p p' floats floats'}, holds p.ops.toList p.labels →
      stmts.foldlM (place s order) p floats = .ok (p', floats') → holds p'.ops.toList p'.labels := by
    intro order stmts
    induction stmts with
    | nil =>
      intro p p' floats floats' h hrun
      cases hrun
      exact h
    | cons st stmts ih =>
      intro p p' floats floats' h hrun
      rw [List.foldlM_cons] at hrun
      obtain ⟨q, _, hq, hrun⟩ := bind_eq_ok hrun
      exact ih (step h hq) hrun
  obtain ⟨placed, _, hplaced, hok⟩ := bind_eq_ok hok
  have hholds := run _ (start _) hplaced
  cases hmissing : placed.labels.findIdx? (·.isNone) with
  | some b =>
    rw [hmissing] at hok
    cases hok
  | none =>
    rw [hmissing] at hok
    cases hok
    exact ⟨rfl, _, rfl, hholds⟩

theorem forall₂_of_ofFlat {flat : Flat} (holds : Frame FlatBody × Nat → Procedure → Prop)
    (h : ∀ {f i} {s : Scope} {floats p floats'}, s.decls = f.decls → s.colours = coloursOf facts i f.decls.temps →
      procedure s f.body floats = .ok (p, floats') → holds (f, i) p)
    (hok : ofFlat flat facts = .ok a) : List.Forall₂ holds flat.zipIdx a.procs := by
  have run : ∀ {count a'} (frames : List (Frame FlatBody × Nat)) {before : List (Frame FlatBody × Nat)} {a0 : Assembly},
      List.Forall₂ holds before a0.procs → frames.foldlM (fun a f =>
        (addFrame count a f.1 (coloursOf facts f.2 f.1.decls.temps)).mapError (Fault.defect f.2)) a0 = .ok a' →
      List.Forall₂ holds (before ++ frames) a'.procs := by
    intro count a' frames
    induction frames with
    | nil =>
      intro before a0 hbefore hrun
      cases hrun
      rwa [List.append_nil]
    | cons f frames ih =>
      intro before a0 hbefore hrun
      rw [List.foldlM_cons] at hrun
      obtain ⟨a1, ha1, hrun⟩ := except_bind_eq_ok.1 hrun
      rw [← List.singleton_append, ← List.append_assoc]
      refine ih ?_ hrun
      have hadd := mapError_eq_ok.1 ha1
      rw [addFrame] at hadd
      split at hadd
      · cases hadd
      · obtain ⟨⟨proc, floats⟩, hproc, hadd⟩ := except_bind_eq_ok.1 hadd
        cases hadd
        exact List.rel_append hbefore (.cons (h rfl rfl hproc) .nil)
  have hassembled : ofFlat.assembled flat facts = .ok a := by
    cases facts with
    | none => exact hok
    | some known =>
      rw [ofFlat] at hok
      split at hok
      · exact hok
      · cases hok
  exact run _ .nil hassembled

/-! ## Frames -/

/-- What the statements of frame `i` of a graph refer to. -/
def scopeAt (g : Graph) (facts : Option (List Liveness.FrameFacts)) (i : Nat)
    (f : Frame (List Block)) : Scope := {
  decls := f.decls, colours := coloursOf facts i f.decls.temps, procs := g.length
  firstMatcher := ((g.take i).flatMap (·.decls.matchers)).length
  firstSplit := ((g.take i).flatMap (·.decls.splits)).length }

def procOf (s : Scope) (code : List (List Op)) : Procedure :=
  ⟨Word.saturate s.slots, code.flatten, offsets 0 code⟩

def SplitsBelow (procs : Nat) (decls : Decls) : Prop := ∀ list ∈ decls.splits, ∀ k ∈ list, k < procs

theorem addFrame_eq {procs : Nat} {colours : List Nat} (a : Assembly)
    (h : Numbered f.body) (hsplits : SplitsBelow procs f.decls) :
    addFrame procs a (frameOf f) colours =
      (let s : Scope := ⟨f.decls, colours, procs, a.matchers.length, a.splits.length⟩
      (s.blockCode f.body a.floats).map fun (code, floats) => {
        procs := a.procs ++ [procOf s code], floats
        matchers := a.matchers ++ f.decls.matchers
        splits := a.splits ++ f.decls.splits.map (·.map Word.saturate) }) := by
  have hnone : (f.decls.splits.findSome? fun list => list.find? fun frame => !decide (frame < procs)) =
      none := by
    rw [List.findSome?_eq_none_iff]
    intro list hlist
    rw [List.find?_eq_none]
    intro k hk
    simpa using hsplits list hlist k hk
  rw [addFrame, frameOf]
  simp only [hnone, procedure_eq h]
  show (((_ : Assembling _) >>= fun _ => _) a.floats >>= _) = _
  simp only [bind, StateT.bind]
  generalize Scope.blockCode _ _ _ = r
  cases r <;> rfl

structure Covers (g : Graph) (facts : Option (List Liveness.FrameFacts)) (n : Nat) (a : Assembly) :
    Prop where
  length_eq : a.procs.length = n
  matchers_eq : a.matchers = (g.take n).flatMap (·.decls.matchers)
  splits_eq : a.splits = ((g.take n).flatMap (·.decls.splits)).map (·.map Word.saturate)
  proc : ∀ (i : Nat) (f : Frame (List Block)), i < n → g[i]? = some f → ∃ code,
    (scopeAt g facts i f).blockCode f.body a.floats = .ok (code, a.floats) ∧
    a.procs[i]? = some (procOf (scopeAt g facts i f) code)

theorem covers_zero (g : Graph) (facts : Option (List Liveness.FrameFacts)) : Covers g facts 0 ⟨[], [], [], []⟩ :=
  ⟨rfl, rfl, rfl, fun _ _ hi _ => absurd hi (Nat.not_lt_zero _)⟩

theorem take_succ_of (hf : g[n]? = some f) : g.take (n + 1) = g.take n ++ [f] := by
  rw [List.take_add_one, hf]
  rfl

theorem Covers.scope_eq (h : Covers g facts n a) (f : Frame (List Block)) :
    (⟨f.decls, coloursOf facts n f.decls.temps, g.length, a.matchers.length, a.splits.length⟩ : Scope) =
      scopeAt g facts n f := by
  rw [scopeAt, h.matchers_eq, h.splits_eq, List.length_map]

/-- A frame is added, unless it has a statement without code. -/
theorem Covers.addFrame (h : Covers g facts n a) (hf : g[n]? = some f) (hnumbered : Numbered f.body)
    (hsplits : SplitsBelow g.length f.decls) :
    (∃ a', addFrame g.length a (frameOf f) (coloursOf facts n f.decls.temps) = .ok a' ∧ Covers g facts (n + 1) a') ∨
    ∃ d, addFrame g.length a (frameOf f) (coloursOf facts n f.decls.temps) = .error d ∧
      (scopeAt g facts n f).blockCode f.body a.floats = .error d := by
  rw [addFrame_eq a hnumbered hsplits]
  dsimp only
  rw [h.scope_eq]
  cases hcode : (scopeAt g facts n f).blockCode f.body a.floats with
  | error d => exact .inr ⟨d, rfl, rfl⟩
  | ok out =>
    obtain ⟨code, floats⟩ := out
    obtain ⟨hkeeps, hagain⟩ := (scopeAt g facts n f).stable_blockCode f.body _ _ _ hcode
    refine .inl ⟨_, rfl, by simp [h.length_eq], ?_, ?_, fun i f' hi hf' => ?_⟩
    · simp [h.matchers_eq, take_succ_of hf]
    · simp [h.splits_eq, take_succ_of hf]
    · by_cases hin : i < n
      · obtain ⟨code', hcode', hproc⟩ := h.proc i f' hin hf'
        refine ⟨code', ((scopeAt g facts i f').stable_blockCode f'.body _ _ _ hcode').2 _ hkeeps, ?_⟩
        rw [List.getElem?_append_left (by rw [h.length_eq]; exact hin), hproc]
      · obtain rfl : i = n := by omega
        rw [hf] at hf'
        cases hf'
        refine ⟨code, hagain floats List.prefix_rfl, ?_⟩
        rw [List.getElem?_append_right (Nat.le_of_eq h.length_eq), h.length_eq, Nat.sub_self]
        rfl

def addNext (g : Graph) (facts : Option (List Liveness.FrameFacts)) (a : Assembly)
    (frame : Frame FlatBody × Nat) : Except Fault Assembly :=
  (Assembly.addFrame g.length a frame.1 (coloursOf facts frame.2 frame.1.decls.temps)).mapError
    (.defect frame.2)

theorem addNext_eq (g : Graph) (facts : Option (List Liveness.FrameFacts)) (a : Assembly)
    (f : Frame (List Block)) (i : Nat) : addNext g facts a (frameOf f, i) =
      (Assembly.addFrame g.length a (frameOf f) (coloursOf facts i f.decls.temps)).mapError
        (.defect i) := rfl

def Known (g : Graph) (facts : Option (List Liveness.FrameFacts)) : Prop :=
  ∀ known, facts = some known → known.length = g.length

theorem ofFlat_eq_foldlM (h : Known g facts) :
    ofFlat (g.map frameOf) facts = ((g.map frameOf).zipIdx).foldlM (addNext g facts) ⟨[], [], [], []⟩ := by
  have hassembled : ofFlat.assembled (g.map frameOf) facts =
      ((g.map frameOf).zipIdx).foldlM (addNext g facts) ⟨[], [], [], []⟩ := by
    rw [ofFlat.assembled, List.length_map]
    rfl
  cases facts with
  | none => exact hassembled
  | some known =>
    rw [ofFlat, if_pos (by rw [h known rfl, List.length_map])]
    exact hassembled

/-- Some statement of a graph has no code. -/
def Uncoded (g : Graph) (facts : Option (List Liveness.FrameFacts)) : Prop :=
  ∃ i f floats d, g[i]? = some f ∧ (scopeAt g facts i f).blockCode f.body floats = .error d

variable (hall : ∀ f ∈ g, Numbered f.body ∧ SplitsBelow g.length f.decls)
include hall

theorem Covers.foldlM (before : Graph) {rest : Graph} (h : Covers g facts before.length a) (hg : g = before ++ rest) :
    (∃ a', ((rest.map frameOf).zipIdx before.length).foldlM (addNext g facts) a = .ok a' ∧ Covers g facts g.length a') ∨
    (∃ e, ((rest.map frameOf).zipIdx before.length).foldlM (addNext g facts) a = .error e) ∧ Uncoded g facts := by
  induction rest generalizing before a with
  | nil =>
    rw [List.append_nil] at hg
    exact .inl ⟨a, rfl, by rwa [← hg] at h⟩
  | cons f rest ih =>
    have hf : g[before.length]? = some f := by
      rw [hg, List.getElem?_append_right (Nat.le_refl _), Nat.sub_self]
      rfl
    have hlength : (before ++ [f]).length = before.length + 1 := List.length_append
    obtain ⟨hbody, hsplits⟩ := hall f (List.mem_of_getElem? hf)
    rw [List.map_cons, List.zipIdx_cons, List.foldlM_cons, addNext_eq]
    obtain ⟨a1, hadd, hcovers⟩ | ⟨d, hadd, hcode⟩ := h.addFrame hf hbody hsplits
    · rw [← hlength] at hcovers ⊢
      rw [hadd]
      exact ih (before ++ [f]) hcovers (by rw [hg, List.append_assoc]; rfl)
    · rw [hadd]
      exact .inr ⟨⟨_, rfl⟩, _, f, _, d, hf, hcode⟩

theorem ofFlat_cases (hknown : Known g facts) :
    (∃ a, ofFlat (g.map frameOf) facts = .ok a ∧ Covers g facts g.length a) ∨
    (∃ e, ofFlat (g.map frameOf) facts = .error e) ∧ Uncoded g facts := by
  rw [ofFlat_eq_foldlM hknown]
  exact Covers.foldlM hall [] (covers_zero g facts) rfl

theorem ofFlat_covers (hknown : Known g facts) (hok : ofFlat (g.map frameOf) facts = .ok a) :
    Covers g facts g.length a := by
  obtain ⟨a', ha', hcovers⟩ | ⟨⟨e, he⟩, -⟩ := ofFlat_cases hall hknown
  · rw [hok] at ha'
    cases ha'
    exact hcovers
  · rw [hok] at he
    cases he

end JsonSieve.Assembly
