import JsonSieve.Proofs.Image.Resolved

/-!
# Accepted executables

What the checks of an image establish for its executable (`checked_of_ofImage`): the code ends with its end,
procedures begin inside of it, and every operand and every split list names something that exists.
-/

namespace JsonSieve.Executable

def names (exe : Executable) : Operand → Bool
  | .address a => decide (a.toNat < exe.ops.size)
  | .proc p => decide (p.toNat < exe.procs.size)
  | .split s => decide (s.toNat < exe.splits.size)
  | .matcher i => decide (i.toNat < exe.recognizers.size)
  | .float i => decide (i.toNat < exe.floats.size)
  | .label _ => false
  | .none | .slot _ | .int _ | .register _ => true

structure Checked (exe : Executable) : Prop where
  ends : exe.ops.back?.map (·.code) = some .finish
  procs_pos : 0 < exe.procs.size
  entry_lt : ∀ {i : Nat} {p : ProcEntry}, exe.procs[i]? = some p → p.entry.toNat < exe.ops.size
  branches : ∀ {i : Nat} {list : Array UInt32}, exe.splits[i]? = some list → ∀ p ∈ list, p.toNat < exe.procs.size
  operands : ∀ {pc : Nat} {op : Op}, exe.ops[pc]? = some op → exe.names op.a = true ∧ exe.names op.b = true

/-- Behind an instruction that is not the end of the code there is another one. -/
theorem Checked.next_lt {exe : Executable} (h : exe.Checked) {pc : Nat} {op : Op}
    (hop : exe.ops[pc]? = some op) (hcode : op.code ≠ .finish) : pc + 1 < exe.ops.size := by
  obtain ⟨hlt, heq⟩ := Array.getElem?_eq_some_iff.1 hop
  refine Nat.lt_of_le_of_ne hlt fun hlast => hcode ?_
  have hends := h.ends
  rw [Array.back?_eq_getElem?, ← hlast, Nat.add_sub_cancel, hop] at hends
  exact Option.some.inj hends

theorem findSome?_zipIdx_eq_none {α β : Type} {list : List α} {f : α × Nat → Option β}
    (h : list.zipIdx.findSome? f = none) {i : Nat} {x : α} (hx : list[i]? = some x) : f (x, i) = none := by
  rw [List.findSome?_eq_none_iff] at h
  exact h _ (List.mem_zipIdx_iff_getElem?.2 hx)

theorem names_of_ok {image : Image} {ops : List Op} {recognizers : List Recognizer}
    (hrecognizers : recognizers.length = image.matchers.length) {o : Operand}
    (ho : operandOk image ops.length o = true) :
    (Image.executableOf image ops recognizers).names o = true := by
  cases o with
  | split s => simpa [names, operandOk, Image.executableOf] using ho
  | matcher i => simpa [names, operandOk, Image.executableOf, hrecognizers] using ho
  | _ => exact ho

theorem checked_of_ofImage [Regex.Engine] {image : Image} {exe : Executable} (h : ofImage image = .ok exe) :
    exe.Checked := by
  unfold ofImage at h
  obtain ⟨ops, -, h⟩ := except_bind_eq_ok.1 h
  cases hdefect : defect? image ops with
  | some e =>
    rw [hdefect] at h
    cases h
  | none =>
    rw [hdefect] at h
    obtain ⟨recognizers, hprepare, h⟩ := except_bind_eq_ok.1 h
    cases h
    have hrecognizers : recognizers.length = image.matchers.length :=
      ((Image.prepare_eq_ok 0).1 hprepare).length_eq.symm
    unfold defect? at hdefect
    dsimp only at hdefect
    split at hdefect
    · cases hdefect
    next hends =>
    split at hdefect
    · cases hdefect
    next hprocs =>
    simp only [Option.or_eq_none_iff] at hdefect
    obtain ⟨⟨hentries, hsplits⟩, hoperands⟩ := hdefect
    refine ⟨?_, ?_, fun {i p} hp => ?_, fun {i list} hlist p hp => ?_, fun {pc op} hop => ?_⟩
    · simpa using hends
    · rw [List.isEmpty_iff] at hprocs
      exact List.length_pos_iff.2 hprocs
    · rw [List.getElem?_toArray] at hp
      have hentry := findSome?_zipIdx_eq_none hentries hp
      dsimp only at hentry
      split at hentry
      · next hlt =>
        show p.entry.toNat < ops.length
        omega
      · cases hentry
    · rw [List.getElem?_toArray, List.getElem?_map] at hlist
      obtain ⟨names, hlist', rfl⟩ := Option.map_eq_some_iff.1 hlist
      have hnames := findSome?_zipIdx_eq_none hsplits hlist'
      dsimp only at hnames
      split at hnames
      · next hall =>
        rw [List.all_eq_true] at hall
        exact of_decide_eq_true (hall p (by simpa using hp))
      · cases hnames
    · rw [List.getElem?_toArray] at hop
      have hbad := findSome?_zipIdx_eq_none hoperands hop
      rw [badOperand?, Option.map_map, Option.map_eq_none_iff, List.find?_eq_none] at hbad
      have hok : ∀ o ∈ [op.a, op.b], operandOk image ops.length o = true := by simpa using hbad
      exact ⟨names_of_ok hrecognizers (hok _ (by simp)), names_of_ok hrecognizers (hok _ (by simp))⟩

end JsonSieve.Executable
