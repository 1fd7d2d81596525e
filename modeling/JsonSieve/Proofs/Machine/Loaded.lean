import JsonSieve.Proofs.Graph.Built
import JsonSieve.Proofs.Lexer.Acceptance
import JsonSieve.Proofs.Machine.Simulation
import JsonSieve.Regex.Builtin

/-!
# Graphs in executables

The stages behind a graph put every frame into the executable as the procedure of its number: what
assembling, encoding and reading leave behind is a `Loaded` graph (`loaded_of_stages`). So the machine runs
procedures as the graph says that frames run (`procedure_simulates_frame`).

Indices are words of 32 bits and stop growing at the largest one. All this is about executables in which no
index has come that far (`Executable.Compact`).
-/

namespace JsonSieve

/-- No index of an executable has reached the largest word. -/
structure Executable.Compact (exe : Executable) : Prop where
  ops : exe.ops.size ≤ Nat.pow 2 32
  slots : ∀ p ∈ exe.procs, p.slots ≠ 0xffffffff
  floats : exe.floats.size < Nat.pow 2 32
  splits : exe.splits.size < Nat.pow 2 32
  recognizers : exe.recognizers.size < Nat.pow 2 32

instance (exe : Executable) : Decidable exe.Compact :=
  decidable_of_iff (exe.ops.size ≤ Nat.pow 2 32 ∧ (∀ p ∈ exe.procs, p.slots ≠ 0xffffffff) ∧
      exe.floats.size < Nat.pow 2 32 ∧ exe.splits.size < Nat.pow 2 32 ∧ exe.recognizers.size < Nat.pow 2 32)
    ⟨fun ⟨ops, slots, floats, splits, recognizers⟩ => ⟨ops, slots, floats, splits, recognizers⟩,
      fun h => ⟨h.ops, h.slots, h.floats, h.splits, h.recognizers⟩⟩

/-! ## Addresses -/

namespace Image

variable {procs : List Procedure} {i : Nat} {p : Procedure}

theorem getElem?_placedOps (start : Nat) {j : Nat} {op : Op} (hp : procs[i]? = some p)
    (hop : p.ops[j]? = some op) : (placedOps start procs)[sizeOf (procs.take i) + j]? =
      some (op.placed (start + sizeOf (procs.take i)) p) := by
  induction procs generalizing start i with
  | nil => cases hp
  | cons q procs ih =>
    cases i with
    | zero =>
      cases hp
      have hj := (List.getElem?_eq_some_iff.1 hop).1
      show (placedOps start (p :: procs))[0 + j]? = _
      rw [Nat.zero_add, placedOps, List.getElem?_append_left (by rwa [List.length_map]), List.getElem?_map, hop]
      rfl
    | succ i =>
      rw [sizeOf_take_succ, placedOps, Nat.add_assoc,
        List.getElem?_append_right (by rw [List.length_map]; omega), List.length_map,
        Nat.add_sub_cancel_left, ih (start + q.ops.length) hp, Nat.add_assoc]

theorem Addressed.get {start : Nat} (h : Addressed start procs) (hp : procs[i]? = some p) :
    start + sizeOf (procs.take i) < Nat.pow 2 32 := by
  induction procs generalizing start i with
  | nil => cases hp
  | cons q procs ih =>
    cases i with
    | zero => exact h.1
    | succ i =>
      rw [sizeOf_take_succ, ← Nat.add_assoc]
      exact ih h.2 hp

theorem ResolvesAll.get {a : Assembly} {start : Nat} (h : ResolvesAll a start procs)
    (hp : procs[i]? = some p) : ∀ op ∈ p.ops, Resolves a (start + sizeOf (procs.take i)) p op.a := by
  induction procs generalizing start i with
  | nil => cases hp
  | cons q procs ih =>
    cases i with
    | zero =>
      cases hp
      exact fun op hop => (h.1 op hop).1
    | succ i =>
      rw [sizeOf_take_succ, ← Nat.add_assoc]
      exact ih h.2 hp

theorem length_le_sizeOf (h : ∀ p ∈ procs, p.ops ≠ []) : procs.length ≤ sizeOf procs := by
  induction procs with
  | nil => exact Nat.zero_le _
  | cons p procs ih =>
    have hpos := List.length_pos_of_ne_nil (h p (.head _))
    have := ih fun q hq => h q (.tail _ hq)
    rw [sizeOf_cons, List.length_cons]
    omega

end Image

namespace Machine

open Assembly JsonSieve.Graph Running

def homeOf (g : Graph) (facts : Option (List Liveness.FrameFacts)) (a : Assembly) (i : Nat)
    (f : Frame (List Block)) (code : List (List Op)) : Home where
  scope := scopeAt g facts i f
  floats := a.floats
  start := Image.sizeOf (a.procs.take i)
  proc := procOf (scopeAt g facts i f) code
  code := codeOf f.body

/-- If the votes of frames become the bits of a word, are there not too many? -/
def votesFit (d : Decls) : Stmt → Bool
  | .splitBits _ i => (d.splits[i]?).all fun ids => decide (ids.length ≤ 64)
  | _ => true

def Narrow (g : Graph) : Bool := g.all fun f => f.body.all fun b => b.stmts.all (votesFit f.decls)

variable {g : Graph}

theorem le_of_narrow (h : Narrow g = true) {f : Frame (List Block)} (hf : f ∈ g) {b : Block}
    (hb : b ∈ f.body) {bv i : Nat} {ids : List Nat} (hs : .splitBits bv i ∈ b.stmts)
    (hids : f.decls.splits[i]? = some ids) : ids.length ≤ 64 := by
  simp only [Narrow, List.all_eq_true] at h
  have := h f hf b hb _ hs
  rw [votesFit, hids] at this
  simpa using this

/-- A graph that has passed the check has been assembled, and the assembly encoded. -/
structure Assembled (g : Graph) (facts : Option (List Liveness.FrameFacts)) (a : Assembly) : Prop where
  formed : ∀ f ∈ g, Formed g.length f
  covers : Covers g facts g.length a
  addressed : Image.Addressed 0 a.procs
  resolves : Image.ResolvesAll a 0 a.procs

structure Made [Regex.Engine] (g : Graph) (facts : Option (List Liveness.FrameFacts)) (a : Assembly)
    (exe : Executable) : Prop extends Assembled g facts a where
  recognizers : ∃ recognizers, List.Forall₂ (fun m r => m.recognizer = .ok r) a.matchers recognizers ∧
    exe = Image.executableOf (Image.placedImage a) (Image.allOps a) recognizers

variable {facts : Option (List Liveness.FrameFacts)}

theorem assembled_of_stages {t : Tree} {flat : Flat} {a : Assembly} {image : Image} (hgraph : Graph.ofTree t = .ok g)
    (hflat : Flat.ofGraph g = .ok flat) (hknown : Known g facts)
    (hassembly : Assembly.ofFlat flat facts = .ok a) (himage : Image.ofAssembly a = .ok image) :
    Assembled g facts a ∧ image = Image.placedImage a := by
  have hformed := ofTree_formed hgraph
  rw [Flat.ofGraph_eq fun f hf => (hformed f hf).numbered] at hflat
  cases hflat
  have hcovers := ofFlat_covers (fun f hf => ⟨(hformed f hf).numbered, (hformed f hf).splits⟩) hknown hassembly
  obtain ⟨⟨haddressed, hresolves⟩, rfl⟩ := Image.ofAssembly_eq_ok.1 himage
  exact ⟨⟨hformed, hcovers, haddressed, hresolves⟩, rfl⟩

theorem recognizer_eq [Regex.Engine] {m : Matcher} {r : Recognizer} (h : m.recognizer = .ok r) :
    r = recognizerOf m := by
  rw [Matcher.recognizer] at h
  rw [recognizerOf]
  cases hsearch : Regex.Engine.compileSet m.sources with
  | error e =>
    rw [hsearch] at h
    cases h
  | ok search =>
    rw [hsearch] at h
    exact (Except.ok.inj h).symm

section

variable {g : Graph} {facts : Option (List Liveness.FrameFacts)} {a : Assembly} {exe : Executable}
  {i : Nat} {f : Frame (List Block)} {code : List (List Op)}

namespace Made

theorem lengths_lt [Regex.Engine] (h : Made g facts a exe) (hcompact : exe.Compact) (hf : g[i]? = some f)
    (hcode : HasCode g facts a i f code) : i < Nat.pow 2 32 ∧ code.length < Nat.pow 2 32 := by
  obtain ⟨recognizers, -, hexe⟩ := h.recognizers
  have hsize : Image.sizeOf a.procs < Nat.pow 2 32 := by
    have := hcompact.ops
    rw [hexe] at this
    have hlength : (Image.allOps a).length = Image.sizeOf a.procs + 1 := by
      rw [Image.allOps, List.length_append, Image.length_placedOps]
      rfl
    have hops : (Image.allOps a).toArray.size ≤ Nat.pow 2 32 := this
    rw [List.size_toArray, hlength] at hops
    exact hops
  have hlength := Image.length_le_sizeOf (h.covers.ops_ne_nil h.formed)
  have hproc := List.getElem?_eq_some_iff.1 hcode.proc_eq
  have hle := length_le_flatten (hcode.ne_nil (h.formed f (List.mem_of_getElem? hf)))
  have hops := length_le_sizeOf (List.mem_of_getElem? hcode.proc_eq)
  have hflatten : (procOf (scopeAt g facts i f) code).ops.length = code.flatten.length := rfl
  have hi := hproc.1
  omega

variable {b : Nat} {ops : List Op}

theorem address_eq (hb : b < code.length) : (homeOf g facts a i f code).address b =
      (homeOf g facts a i f code).start + (code.take b).flatten.length := by
  show _ + ((offsets 0 code)[b]?).getD 0 = _
  rw [getElem?_offsets hb, Option.getD_some, Nat.zero_add]

theorem loads [Regex.Engine] (h : Made g facts a exe) (hcode : HasCode g facts a i f code) {pre post : List Op}
    (hops : code.flatten = pre ++ ops ++ post) :
    (homeOf g facts a i f code).Loads exe ops ((homeOf g facts a i f code).start + pre.length) := by
  obtain ⟨recognizers, -, hexe⟩ := h.recognizers
  intro j op hop
  have hj := (List.getElem?_eq_some_iff.1 hop).1
  have hget : (procOf (scopeAt g facts i f) code).ops[pre.length + j]? = some op := by
    show code.flatten[pre.length + j]? = _
    rw [hops, List.getElem?_append_left (by rw [List.length_append]; omega),
      List.getElem?_append_right (Nat.le_add_right _ _), Nat.add_sub_cancel_left, hop]
  refine ⟨?_, fun b hb => ?_⟩
  · rw [hexe]
    have hplaced := Image.getElem?_placedOps 0 hcode.proc_eq hget
    rw [Nat.zero_add, ← Nat.add_assoc] at hplaced
    show (Image.allOps a).toArray[Image.sizeOf (a.procs.take i) + pre.length + j]? = _
    rw [List.getElem?_toArray, Image.allOps, List.getElem?_append_left (List.getElem?_eq_some_iff.1 hplaced).1]
    exact hplaced
  · have hresolves := h.resolves.get hcode.proc_eq op (List.mem_of_getElem? hget)
    rw [hb, Nat.zero_add] at hresolves
    obtain ⟨place, hplace, -, hlt⟩ := hresolves
    refine ⟨(List.getElem?_eq_some_iff.1 hplace).1, ?_⟩
    show _ + ((procOf (scopeAt g facts i f) code).labels[b.toNat]?).getD 0 < _
    rw [hplace]
    exact hlt

theorem flatten_split (hb : code[b]? = some ops) :
    code.flatten = (code.take b).flatten ++ ops ++ (code.drop (b + 1)).flatten := by
  obtain ⟨hlt, rfl⟩ := List.getElem?_eq_some_iff.1 hb
  rw [List.append_assoc, ← List.flatten_cons, ← List.drop_eq_getElem_cons hlt, ← List.flatten_append,
    List.take_append_drop]

theorem take_succ_length (hb : code[b]? = some ops) :
    (code.take (b + 1)).flatten.length = (code.take b).flatten.length + ops.length := by
  rw [List.take_add_one, hb, List.flatten_append, List.length_append]
  simp

theorem stands [Regex.Engine] (h : Made g facts a exe) (hnarrow : Narrow g = true) (hf : f ∈ g)
    (hcode : HasCode g facts a i f code) (hb : b < code.length) :
    (homeOf g facts a i f code).Stands exe (codeOf f.body b) ((homeOf g facts a i f code).address b) := by
  have hlength := hcode.each.length_eq
  have hb' : b < f.body.length := hlength ▸ hb
  have hblock := List.getElem?_eq_getElem hb'
  have hcodeOf : codeOf f.body b = f.body[b].stmts := by rw [codeOf, hblock]; rfl
  obtain ⟨ops, hops, hok⟩ := hcode.get hblock
  have hformed := h.formed f hf
  rw [hformed.id_eq b _ hblock] at hok
  rw [hcodeOf, address_eq hb]
  refine ⟨nextOf f.body b, ops, hok, h.loads hcode (flatten_split hops), fun b' hb'' => ?_, ?_, ?_⟩
  · rw [nextOf] at hb''
    split at hb''
    next hlt =>
      cases hb''
      rw [hlength] at hlt
      refine ⟨by rw [← length_offsets 0 code] at hlt; exact hlt, ?_⟩
      rw [address_eq hlt, take_succ_length hops, Nat.add_assoc]
    · cases hb''
  · intro before st after heq hends
    obtain ⟨init, last, hstmts, hopen, -⟩ := hformed.shut _ (List.getElem_mem hb')
    -- a terminator that is not the last statement would be among the others
    rcases after.eq_nil_or_concat with rfl | ⟨after, st', rfl⟩
    · rfl
    · rw [hstmts, List.concat_eq_append, ← List.cons_append, ← List.append_assoc] at heq
      obtain ⟨heq, -⟩ := List.append_inj' heq rfl
      have hnot := hopen st (by rw [heq]; simp)
      rw [hends] at hnot
      cases hnot
  · exact fun bv j ids => le_of_narrow hnarrow hf (List.getElem_mem hb')

theorem getElem?_flatMap {α : Type} (F : Frame (List Block) → List α) (hf : g[i]? = some f) {j : Nat} {x : α}
    (hx : (F f)[j]? = some x) : (g.flatMap F)[((g.take i).flatMap F).length + j]? = some x := by
  have hsplit : g.flatMap F = (g.take i).flatMap F ++ (F f ++ (g.drop (i + 1)).flatMap F) := by
    obtain ⟨hi, rfl⟩ := List.getElem?_eq_some_iff.1 hf
    rw [← List.flatMap_cons, ← List.drop_eq_getElem_cons hi, ← List.flatMap_append, List.take_append_drop]
  rw [hsplit, List.getElem?_append_right (Nat.le_add_right _ _), Nat.add_sub_cancel_left,
    List.getElem?_append_left (List.getElem?_eq_some_iff.1 hx).1, hx]

theorem linked [Regex.Engine] (h : Made g facts a exe) (hcompact : exe.Compact) (hnarrow : Narrow g = true)
    (hcolours : (coloursOf facts i f.decls.temps).Nodup) (hf : g[i]? = some f)
    (hcode : HasCode g facts a i f code) : Linked exe (homeOf g facts a i f code) := by
  obtain ⟨-, hlabels⟩ := h.lengths_lt hcompact hf hcode
  have hsplits := h.covers.splits_eq
  have hmatchers := h.covers.matchers_eq
  rw [List.take_length] at hsplits hmatchers
  obtain ⟨recognizers, hprepared, hexe⟩ := h.recognizers
  have hlength : (homeOf g facts a i f code).proc.labels.length = code.length := length_offsets 0 code
  have hslots : (homeOf g facts a i f code).scope.slots < Nat.pow 2 32 := by
    have hentry := Image.getElem?_placedEntries 0 hcode.proc_eq
    have hne := hcompact.slots _ (by
      rw [hexe]
      exact List.mem_toArray.2 (List.mem_of_getElem? hentry))
    apply Decidable.byContradiction
    intro hlarge
    exact hne (if_neg hlarge)
  have hfloats : exe.floats = a.floats.toArray := by
    rw [hexe]
    rfl
  refine {
    block := fun b hb => h.stands hnarrow (List.mem_of_getElem? hf) hcode (hlength ▸ hb)
    colours_nodup := hcolours
    labels_lt := hlength ▸ hlabels
    slots_lt := hslots
    floats_eq := hfloats
    floats_lt := by
      have := hcompact.floats
      rwa [hfloats, List.size_toArray] at this
    matcher := fun {id m} hm => ?_
    split := fun {j ids} hids => ?_ }
  · have hget : a.matchers[(scopeAt g facts i f).firstMatcher + id]? = some m := by
      rw [hmatchers]
      exact getElem?_flatMap (·.decls.matchers) hf hm
    obtain ⟨hlt, rfl⟩ := List.getElem?_eq_some_iff.1 hget
    have hlt' : (scopeAt g facts i f).firstMatcher + id < recognizers.length := hprepared.length_eq ▸ hlt
    have hr := (List.forall₂_iff_get.1 hprepared).2 _ hlt hlt'
    have hsize : exe.recognizers.size = recognizers.length := by
      rw [hexe]
      rfl
    have hbound := hcompact.recognizers
    rw [hsize] at hbound
    show exe.recognizers[(Word.saturate ((scopeAt g facts i f).firstMatcher + id)).toNat]? = _
    rw [toNat_saturate (Nat.lt_trans hlt' hbound), hexe]
    show recognizers.toArray[_]? = _
    rw [List.getElem?_toArray, List.getElem?_eq_getElem hlt']
    exact congrArg some (recognizer_eq hr)
  · have hget : a.splits[(scopeAt g facts i f).firstSplit + j]? = some (ids.map Word.saturate) := by
      rw [hsplits, List.getElem?_map]
      exact congrArg _ (getElem?_flatMap (·.decls.splits) hf hids)
    have hsize : exe.splits.size = a.splits.length := by
      rw [hexe]
      show (a.splits.map List.toArray).toArray.size = _
      rw [List.size_toArray, List.length_map]
    have hbound := hcompact.splits
    rw [hsize] at hbound
    show exe.splits[(Word.saturate ((scopeAt g facts i f).firstSplit + j)).toNat]? = _
    rw [toNat_saturate (Nat.lt_trans (List.getElem?_eq_some_iff.1 hget).1 hbound), hexe]
    show (a.splits.map List.toArray).toArray[_]? = _
    rw [List.getElem?_toArray, List.getElem?_map, hget]
    rfl

/-- The graph from which an executable has been made is loaded, if every temporary has a slot of its own. -/
theorem loaded [Regex.Engine] (h : Made g none a exe) (hcompact : exe.Compact) (hnarrow : Narrow g = true) :
    Loaded exe g where
  frame {i f} hf := by
    obtain ⟨code, hcode⟩ := h.covers.hasCode hf
    obtain ⟨hi, -⟩ := h.lengths_lt hcompact hf hcode
    have hlinked := h.linked hcompact hnarrow List.nodup_range hf hcode
    obtain ⟨recognizers, -, hexe⟩ := h.recognizers
    have hbody := List.length_pos_of_ne_nil (h.formed f (List.mem_of_getElem? hf)).nonempty
    rw [hcode.each.length_eq] at hbody
    have hentry := Image.getElem?_placedEntries 0 hcode.proc_eq
    have haddress := h.addressed.get hcode.proc_eq
    rw [Nat.zero_add] at hentry haddress
    refine ⟨homeOf g none a i f code, ⟨Word.saturate (scopeAt g none i f).slots,
      UInt32.ofNat (Image.sizeOf (a.procs.take i))⟩, hlinked, rfl, rfl, ?_, ?_, ?_,
      toNat_saturate hlinked.slots_lt⟩
    · rw [show (homeOf g none a i f code).proc.labels.length = code.length from length_offsets 0 code]
      exact hbody
    · rw [toNat_saturate hi, hexe]
      show (Image.placedEntries 0 a.procs).toArray[i]? = _
      rw [List.getElem?_toArray]
      exact hentry
    · rw [address_eq hbody]
      exact UInt32.toNat_ofNat_of_lt' haddress

end Made

end

theorem toOption_eq_some {ε α : Type} {x : Except ε α} {a : α} : x.toOption = some a ↔ x = .ok a := by
  cases x <;> simp [Except.toOption]

end Machine

end JsonSieve
