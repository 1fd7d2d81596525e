import JsonSieve.Proofs.Machine.Nested

/-!
# The machine runs graphs

A frame of a graph that has been installed in an executable is run by the machine as `Running.runGraph` says:
each statement sends the machine to where control goes on behind it (`At.step`), so an activation comes to
the end that the frame comes to (`At.walk`), and so do the activations nested in it (`Loaded.simulates`).
-/

namespace JsonSieve.Machine

open Assembly Running

/-- What the statements of a frame name is there: the frame is installed, and its matchers and split lists
are in the tables of the executable. -/
structure Linked [Regex.Engine] (exe : Executable) (h : Home) : Prop extends h.Installed exe where
  matcher : ∀ {id m}, h.scope.decls.matchers[id]? = some m →
    exe.recognizers[(Word.saturate (h.scope.firstMatcher + id)).toNat]? = some (recognizerOf m)
  split : ∀ {i ids}, h.scope.decls.splits[i]? = some ids →
    exe.splits[(Word.saturate (h.scope.firstSplit + i)).toNat]? = some (ids.map Word.saturate).toArray

section

variable {G : Ground} {h : Home} {m : Machine} {σ : State} {a : Activation} {k : List Stmt}
  {deep : Prop} {n : Nat} {run : Nat → Position → Option Running.Outcome}

/-! ## Statements that run other frames or use temporaries -/

theorem At.splitBits [Regex.Engine] {bv i : Nat} (hat : At G h m σ (.splitBits bv i :: k)) (hlinked : Linked G.exe h)
    (hsim : Simulates G.exe n run) : Gets G.exe (Limits.defaultCallDepth < G.below.length + 1 + n) m
      (Came G (Behind G h k) (act (settingOf run h.scope.decls) (.splitBits bv i) σ)) := by
  obtain ⟨a, hin, hstands⟩ := hat
  have hnarrow : ∀ ids, h.scope.decls.splits[i]? = some ids → ids.length ≤ 64 := by
    obtain ⟨_, _, _, _, _, hproper⟩ := hstands
    exact fun ids => hproper.narrow bv i ids (.head _)
  obtain ⟨next, ops, hops, hloads, hrest, -⟩ := hstands.cons
  obtain ⟨o, floats, ho, hops⟩ := bind_eq_ok hops
  obtain ⟨hi, rfl, -⟩ := ite_eq_ok ho
  obtain ⟨o', floats', ho', hops⟩ := bind_eq_ok hops
  obtain ⟨hbv, rfl, -⟩ := ite_eq_ok ho'
  cases hops
  have hids := List.getElem?_eq_getElem hi
  obtain ⟨hfirst, hu, ht, hle⟩ := h.scope.bounds
  have hslots := hlinked.slots_lt
  rw [act, Setting.votes, settingOf]
  dsimp only
  rw [hids]
  refine (hin.split hsim hloads.head.1 (by omega) rfl (hin.holds.word bv hbv) (hlinked.split hids)
    fun _ => hnarrow _ hids).came fun votes m' hpoll hends => ?_
  obtain ⟨hreads, hframes⟩ := hends
  have hlength : votes.length ≤ 64 := by
    rw [length_of_poll hpoll, List.length_map]
    exact hnarrow _ hids
  rw [if_pos hlength]
  rw [tally_bits] at hframes
  exact .here ⟨_, ⟨hreads, hframes, (hin.holds.setWord hbv _).to (a.pc + 1)⟩, hrest⟩

theorem In.setTemp (hin : In G h m σ a) (hi : h.Installed G.exe) {op : Op}
    (hop : G.exe.ops[a.pc]? = some op) {t colour : Nat} (hcolour : h.scope.colours[t]? = some colour)
    {w : Int64} (hexecute : m.execute G.exe a.pc op =
      m.update a.pc (Scope.slotAt (h.scope.firstTemp + colour)) fun _ => w)
    (hrest : h.Stands G.exe k (a.pc + 1)) : Gets G.exe deep m (Behind G h k (σ.setTemp t w)) := by
  have hlt := Scope.temp_lt hcolour
  have hslots := hi.slots_lt
  have hsize : h.scope.firstTemp + colour < a.slots.size := by rw [hin.holds.size_eq]; exact hlt
  exact (hin.update hop (by omega) (Array.getElem?_eq_getElem hsize) hexecute _
    (hin.holds.setTemp hi.colours_nodup hcolour w) rfl).mono fun m' hin' => ⟨_, hin', hrest⟩

theorem In.moveWord [Regex.Engine] (hin : In G h m σ a) (hi : h.Installed G.exe) {e : Setting} {t colour : Nat}
    (hcolour : h.scope.colours[t]? = some colour) {source : Expr} {o : Operand} {w : Int64}
    (hw : m.word o = .ok w) (hn : number e σ source = .result (.word w) ∨ number e σ source = .wrong)
    (hop : G.exe.ops[a.pc]? = some ⟨.move, Scope.slotAt (h.scope.firstTemp + colour), o⟩)
    (hrest : h.Stands G.exe k (a.pc + 1)) :
    Gets G.exe deep m (Came G (Behind G h k) (act e (.move t source) σ)) := by
  rw [act]
  rcases hn with hn | hn
  · rw [hn, Run.result_bind, Number.toWord?_word]
    refine (hin.setTemp hi hop hcolour ?_ hrest).mono fun m' h' => h'
    show Stepped.require m a.pc (m.word o) _ = _
    rw [hw]
    rfl
  · rw [hn]
    exact .here Came.wrong

/-- A statement that moves a number into a temporary. -/
theorem At.move [Regex.Engine] {t : Nat} {source : Expr} (hat : At G h m σ (.move t source :: k))
    (hlinked : Linked G.exe h) (hsim : Simulates G.exe n run) :
    Gets G.exe (Limits.defaultCallDepth < G.below.length + 1 + n) m
      (Came G (Behind G h k) (act (settingOf run h.scope.decls) (.move t source) σ)) := by
  have hi := hlinked.toInstalled
  obtain ⟨a, hin, hstands⟩ := hat
  obtain ⟨next, ops, hops, hloads, hrest, -⟩ := hstands.cons
  obtain ⟨o, ho, hops⟩ := (h.scope.emits_temp t).stable.bind_eq_ok (fun o => (h.scope.emits_moveInto o source).stable) hops
  obtain ⟨colour, hcolour, rfl⟩ := temp_eq_ok ho
  have hlt := Scope.temp_lt hcolour
  have hslots := hi.slots_lt
  have hint : (∀ i, source ≠ .split i) → (∀ i, source ≠ .matchCase i) → (∀ i, source ≠ .bitCount i) →
      Gets G.exe (Limits.defaultCallDepth < G.below.length + 1 + n) m
        (Came G (Behind G h k) (act (settingOf run h.scope.decls) (.move t source) σ)) := by
    intro hsplit hcase hcount
    rw [Scope.moveInto.eq_4 _ _ _ hsplit hcase hcount] at hops
    obtain ⟨o', ho', hops⟩ := (h.scope.emits_intOperand source).stable.bind_eq_ok (fun _ => .pure _) hops
    cases hops
    obtain ⟨w, hw, -, hn⟩ := hin.intOperand (e := settingOf run h.scope.decls) hi ho'
    exact hin.moveWord hi hcolour hw hn hloads.head.1 hrest
  cases source with
  | split i =>
    obtain ⟨o', floats, ho', hops⟩ := bind_eq_ok hops
    obtain ⟨hsplit, rfl, -⟩ := ite_eq_ok ho'
    cases hops
    have hids := List.getElem?_eq_getElem hsplit
    have hsize : h.scope.firstTemp + colour < a.slots.size := by rw [hin.holds.size_eq]; exact hlt
    rw [act, number, Setting.votes, settingOf]
    dsimp only
    rw [hids]
    simp only [Option.map_some, Run.ofOption, Run.result_bind, bind_assoc, Run.pure_eq]
    refine (@In.split G h m σ a n run hin hsim _ hloads.head.1 false _ (h.scope.firstTemp + colour) _
      (by omega) rfl (Array.getElem?_eq_getElem hsize) _ (hlinked.split hids) (fun h => by cases h)).came
      fun votes m' _ hends => ?_
    obtain ⟨hreads, hframes⟩ := hends
    rw [Number.toWord?_word]
    have htally : tally false 0 votes 0 = Int64.ofNat (votes.count true) := by
      have := tally_count 0 votes 0
      rwa [Nat.zero_add] at this
    rw [htally] at hframes
    exact .here ⟨_, ⟨hreads, hframes, (hin.holds.setTemp hi.colours_nodup hcolour _).to (a.pc + 1)⟩, hrest⟩
  | matchCase id =>
    obtain ⟨o', floats, ho', hops⟩ := bind_eq_ok hops
    obtain ⟨hid, rfl, -⟩ := ite_eq_ok ho'
    cases hops
    obtain ⟨hop, -, hloads⟩ := hloads.head
    have hmatcher := List.getElem?_eq_getElem hid
    let w := caseWord (caseOf (h.scope.decls.matchers.get ⟨id, hid⟩) σ.position.current)
    have hexecute : m.execute G.exe a.pc (Op.placed h.start h.proc
        ⟨.matchCase, .matcher (Word.saturate (h.scope.firstMatcher + id)), .none⟩) =
        ⟨advance { m with lastCase := w }, [], .run⟩ := by
      unfold execute
      dsimp only [Op.placed, Operand.placed]
      rw [hlinked.matcher hmatcher, hin.current]
      cases hcurrent : σ.position.current <;> simp only [w, hcurrent, caseOf] <;> rfl
    rw [advance_eq (m := { m with lastCase := w }) hin.frames_eq] at hexecute
    have hin1 := hin.framed (hin.holds.to (a.pc + 1)) rfl m.flag w
    refine hin.step hop hexecute (hin1.moveWord (w := w) hi hcolour rfl (.inl ?_) hloads.head.1 hrest)
    rw [number, settingOf]
    dsimp only
    rw [hmatcher]
    rfl
  | bitCount bv =>
    obtain ⟨o', floats, ho', hops⟩ := bind_eq_ok hops
    obtain ⟨hbv, rfl, -⟩ := ite_eq_ok ho'
    cases hops
    rw [act, number, Run.result_bind, Number.toWord?_word]
    refine (@In.setTemp G h m σ a k _ hin hi _ hloads.head.1 t colour hcolour (popCount (σ.words bv)) ?_
      hrest).mono fun m' h' => h'
    show Stepped.require m a.pc (m.word (Scope.slotAt (h.scope.firstBitvec + bv))) _ = _
    rw [hin.bitvec_word hi hbv]
    rfl
  | _ => exact hint (fun _ h => by cases h) (fun _ h => by cases h) (fun _ h => by cases h)

/-! ## Activations -/

theorem At.nop (hat : At G h m σ (.nop :: k)) : At G h m σ k := by
  obtain ⟨a, hin, hstands⟩ := hat
  obtain ⟨next, ops, hops, hloads, hrest, -⟩ := hstands.cons
  cases hops
  exact ⟨a, hin, hrest⟩

/-- A statement sends the machine to where control goes on behind it. -/
theorem At.step [Regex.Engine] {s : Stmt} (hat : At G h m σ (s :: k)) (hlinked : Linked G.exe h) (hlow : G.Low)
    (hsim : Simulates G.exe n run) : Gets G.exe (Limits.defaultCallDepth < G.below.length + 1 + n) m
      (Came G (Sent G h k) (Running.step (settingOf run h.scope.decls) run s σ)) := by
  have hi := hlinked.toInstalled
  cases s with
  | valid => exact .here (hat.returns fun _ => rfl)
  | invalid reason => exact .here (hat.returns fun _ => rfl)
  | branch b => exact hat.branch hi
  | branchIf condition yes no => exact hat.branchIf hi fun _ => rfl
  | branchCase t cases otherwise => exact hat.branchCase hi
  | call i =>
    have hcall := (hat.call hlow hsim).came_map (Q := Sent G h k) (f := Move.next) fun σ m' h' => h'
    simp only [map_bind, map_pure] at hcall
    exact hcall
  | nop => exact .here hat.nop
  | token => exact hat.token.came_map fun σ m' h' => h'
  | consume => exact hat.consume.came_map fun σ m' h' => h'
  | untoken => exact hat.untoken.came_map fun σ m' h' => h'
  | incr c => exact (hat.counter hi (fun _ => rfl) fun _ _ _ => rfl).mono fun m' h' => h'
  | decr c => exact (hat.counter hi (fun _ => rfl) fun _ _ _ => rfl).mono fun m' h' => h'
  | bitSet bv bit =>
    exact (hat.bitvec (f := fun w x => x ||| w) hi (fun _ => rfl) rfl fun _ _ _ => rfl).came_map fun σ m' h' => h'
  | bitClear bv bit =>
    exact (hat.bitvec (f := fun w x => x &&& ~~~ w) hi (fun _ => rfl) rfl fun _ _ _ => rfl).came_map fun σ m' h' => h'
  | splitBits bv i => exact (hat.splitBits hlinked hsim).came_map fun σ m' h' => h'
  | move t source => exact (hat.move hlinked hsim).came_map fun σ m' h' => h'
  | _ => exact .here Came.wrong

/-- An activation comes to the end that the frame comes to. -/
theorem At.walk [Regex.Engine] (hlinked : Linked G.exe h) (hlow : G.Low) (hsim : Simulates G.exe n run) {steps : Nat}
    {o : Running.Outcome} (hat : At G h m σ k)
    (hwalk : Running.walk (settingOf run h.scope.decls) run h.code steps k σ = some o) :
    Gets G.exe (Limits.defaultCallDepth < G.below.length + 1 + n) m (Ended G o) := by
  induction steps generalizing m σ k with
  | zero => cases hwalk
  | succ steps ih =>
    cases k with
    | nil =>
      cases hwalk
      exact .here trivial
    | cons s k =>
      rw [Running.walk] at hwalk
      refine (hat.step hlinked hlow hsim).bind fun m' hcame => ?_
      cases hstep : Running.step (settingOf run h.scope.decls) run s σ with
      | result move =>
        rw [hstep] at hwalk hcame
        cases move with
        | next σ' => exact ih hcame hwalk
        | jump b σ' => exact ih hcame hwalk
      | ends o' =>
        rw [hstep] at hwalk hcame
        cases hwalk
        exact .here hcame
      | running =>
        rw [hstep] at hwalk
        cases hwalk

end

/-! ## Programs -/

/-- The frames of a graph are in an executable, each as the procedure of its number. -/
structure Loaded [Regex.Engine] (exe : Executable) (g : Graph) : Prop where
  frame : ∀ {i : Nat} {f : Frame (List Block)}, g[i]? = some f → ∃ (h : Home) (p : ProcEntry),
    Linked exe h ∧ h.scope.decls = f.decls ∧ h.code = Graph.codeOf f.body ∧ 0 < h.proc.labels.length ∧
    exe.procs[(Word.saturate i).toNat]? = some p ∧ p.entry.toNat = h.address 0 ∧
    p.slots.toNat = h.scope.slots

end JsonSieve.Machine
