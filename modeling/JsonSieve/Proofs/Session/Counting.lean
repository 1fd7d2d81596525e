import JsonSieve.Proofs.Session.Eased
import JsonSieve.Proofs.Session.Limits
import JsonSieve.Regex.Builtin

/-!
# What waiting costs

The meter counts an instruction every time it is begun (`run_counted`), and an instruction that has to wait
for more of the text is begun again. So with every wait one instruction more is counted, and how many are
counted depends on how the document is cut into chunks. This is the only way in which limits depend on it:
two sessions over the same document with the same limits, of which neither exceeds the number of
instructions, end alike, and what they count differs by the number of their waits (`play_limited`). A session
can exceed the number of instructions only because it waits (`overCount_of_wait`).
-/

namespace JsonSieve

open Record (add)

def Limits.uncounted (limits : Limits) : Limits := { limits with instructions := none }

theorem Limits.uncounted_instructions (limits : Limits) : limits.uncounted.instructions = none := rfl

/-! ## Instructions and waits among events -/

namespace Event

theorem settled_countP (events : List Event) : events.countP begins + (settled events).countP waits =
      (settled events).countP begins + events.countP waits := by
  induction events using settled.induct with
  | case1 => rfl
  | case2 pc code depth rest ih =>
    rw [settled, if_pos rfl]
    simp only [List.countP_cons, begins, waits, if_true, Bool.false_eq_true, if_false]
    omega
  | case3 pc code depth pc' rest hne ih =>
    rw [settled, if_neg hne]
    simp only [List.countP_cons, begins, waits, if_true, Bool.false_eq_true, if_false] at ih ⊢
    omega
  | case4 e rest hpair ih =>
    rw [settled.eq_3 e rest hpair]
    simp only [List.countP_cons]
    omega

end Event

namespace Machine

theorem enter_meter (exe : Executable) (pc : Nat) (m : Machine) (proc : UInt32) :
    (m.enter exe pc proc).machine.meter = m.meter := by
  unfold enter
  split
  · rfl
  · split <;> rfl

section

variable (exe : Executable) {m : Machine} {seen : Record} {limits : Limits}

/-- The meter has these limits, and has counted every instruction that the record tells of. -/
def Counted (limits : Limits) (m : Machine) (seen : Record) : Prop :=
  seen.limit = none ∧ ∃ elapsed, m.meter = .limited limits (seen.events.toList.countP Event.begins) elapsed

theorem observe_limit (events : List Event) (seen : Record) :
    (Observer.observe add seen events).limit = seen.limit := by
  induction events generalizing seen with
  | nil => rfl
  | cons e events ih =>
    refine (ih (add seen e)).trans ?_
    unfold add
    split
    · rfl
    · split <;> rfl

theorem Counted.observe {m' : Machine} {events : List Event} (h : Counted limits m seen)
    (hmeter : m'.meter = m.meter) (hplain : events.countP Event.begins = 0) :
    Counted limits m' (Observer.observe add seen events) := by
  obtain ⟨hlimit, elapsed, hm⟩ := h
  refine ⟨(observe_limit events seen).trans hlimit, elapsed, ?_⟩
  rw [Session.observe_record events seen hlimit, List.countP_append, hplain, hmeter, hm]
  rfl

theorem step_counted (hinstructions : limits.instructions = none)
    (htime : limits.time = none) (h : Counted limits m seen) :
    Counted limits (m.step exe).machine (Observer.observe add seen (m.step exe).events) := by
  cases hframes : m.frames with
  | nil =>
    rw [step_nil exe hframes]
    exact h
  | cons top below =>
    cases hop : exe.ops[top.pc]? with
    | none =>
      rw [step_pastEnd exe hframes hop]
      exact h
    | some op =>
      obtain ⟨hlimit, elapsed, hm⟩ := h
      have htick : m.meter.tick.2 = none := by
        rw [hm]
        exact Meter.tick_of_uncounted hinstructions htime
      rw [step_op exe hframes hop, htick]
      have hticked : Counted limits m.ticked (add seen (.instruction top.pc op.code m.depth)) := by
        refine ⟨?_, elapsed, ?_⟩
        · rw [add, hlimit]
        · rw [ticked, hm, add, hlimit, Array.toList_push, List.countP_append]
          rfl
      exact hticked.observe (execute_meter exe top.pc op (m := m.ticked) hframes)
        (execute_proceeds exe top.pc m.ticked op hframes).plain

theorem run_counted (hinstructions : limits.instructions = none) (htime : limits.time = none)
    (h : Counted limits m seen) (fuel : Nat) :
    Counted limits (m.run exe add fuel seen).1 (m.run exe add fuel seen).2.1 := by
  have hmove : ∀ {m seen}, Counted limits m seen →
      Counted limits (m.move exe).machine (Observer.observe add seen (m.move exe).events) := by
    intro m seen h
    unfold move
    split
    · exact step_counted exe hinstructions htime h
    · exact h.observe (enter_meter exe 0 { m with started := true } 0)
        (enter_proceeds exe 0 { m with started := true } 0).plain
  exact run_induction add exe (I := Counted limits) (Q := fun m seen _ => Counted limits m seen) id
    (fun h _ => h) (fun h _ _ => hmove h) (fun h _ _ => hmove h) h fuel

end

end Machine

/-- How often the run has waited, as far as the record tells. -/
def Record.waits (r : Record) : Nat := r.events.toList.countP Event.waits

namespace Session

open Machine (Counted)

/-! ## Sessions -/

section

variable (exe : Executable) (fuel : Nat) {limits : Limits} {s : Session Record}
  (hinstructions : limits.instructions = none) (htime : limits.time = none)

include hinstructions htime

theorem advance_counted (h : Counted limits s.machine s.seen) :
    Counted limits (s.advance exe add fuel).1.machine (s.advance exe add fuel).1.seen := by
  have hrun := Machine.run_counted exe hinstructions htime h fuel
  unfold advance
  split
  · exact h
  · generalize s.machine.run exe add fuel s.seen = r at hrun ⊢
    obtain ⟨m, seen, reply⟩ := r
    rcases reply with _ | ⟨_ | _⟩ | _ | _ <;> exact hrun

theorem play_counted (chunks : List (List UInt8)) (hclosed : s.closed = false)
    (h : Counted limits s.machine s.seen) : Counted limits (play exe add fuel chunks s).1.machine
      (play exe add fuel chunks s).1.seen := by
  induction chunks generalizing s with
  | nil =>
    rw [play, close_eq]
    exact advance_counted exe fuel hinstructions htime (s := { s with closed := true, machine := s.machine.close }) h
  | cons chunk chunks ih =>
    have hadvance := advance_counted exe fuel hinstructions htime (s := { s with machine := s.machine.feed chunk }) h
    have hclosed' := (advance_closed { s with machine := s.machine.feed chunk } :
      (advance exe add fuel { s with machine := s.machine.feed chunk }).1.closed = _).trans hclosed
    rw [play_cons hclosed]
    generalize advance exe add fuel { s with machine := s.machine.feed chunk } = r at hadvance hclosed' ⊢
    obtain ⟨s', answer⟩ := r
    cases answer with
    | status known => exact ih hclosed' hadvance
    | failed | running => exact hadvance

end

section

variable {σ : Type} {l l' : Limits}

theorem play_together (hl : l.Within l') (exe : Executable) (observer : Observer σ) (fuel : Nat)
    (chunks : List (List UInt8)) {s s' : Session σ} (h : Eased hl s s') :
    Together hl (play exe observer fuel chunks s) (play exe observer fuel chunks s') := by
  induction chunks generalizing s s' with
  | nil => exact close_together hl exe observer h fuel
  | cons chunk chunks ih =>
    have hmore := more_together hl exe observer h fuel chunk
    rw [play, play]
    generalize s.more exe observer fuel chunk = r at hmore ⊢
    generalize s'.more exe observer fuel chunk = r' at hmore ⊢
    obtain ⟨t, answer⟩ := r
    obtain ⟨t', answer'⟩ := r'
    rcases hmore with ⟨hsame, heased⟩ | ⟨e, hlimit, hdrops⟩
    · cases hsame
      cases answer with
      | status known => exact ih heased
      | failed | running => exact .inl ⟨rfl, heased⟩
    · cases hlimit
      exact .inr ⟨e, rfl, hdrops⟩

end

/-- How a document in chunks ends under limits, with a record of the events. -/
def playLimited (exe : Executable) (limits : Limits) (fuel : Nat) (chunks : List (List UInt8)) :
    Session Record × Answer :=
  play exe add fuel chunks (start (.ofLimits limits) {})

/-- The answer is that too many instructions have been counted. -/
def OverCount (answer : Answer) : Prop :=
  ∃ limit count, answer = .failed (.limit (.instructions limit count))

section

variable {exe : Executable} {limits : Limits} {fuel : Nat} {chunks chunks' : List (List UInt8)}

theorem within_uncounted (htime : limits.time = none) : limits.Within limits.uncounted :=
  ⟨nofun, fun n hn => ⟨n, hn, Nat.le_refl n⟩, Nat.le_refl _, htime, htime⟩

/-- A session that does not exceed the number of instructions is one for which it is not limited. -/
theorem playLimited_uncounted (htime : limits.time = none) (h : ¬ OverCount (playLimited exe limits fuel chunks).2) :
    (playLimited exe limits.uncounted fuel chunks).2 = (playLimited exe limits fuel chunks).2 ∧
      Eased (within_uncounted htime) (playLimited exe limits fuel chunks).1
        (playLimited exe limits.uncounted fuel chunks).1 := by
  rcases play_together (within_uncounted htime) exe add fuel chunks (start_eased _ {}) with
    hsame | ⟨e, hlimit, hsets, hother⟩
  · exact hsame
  · refine absurd ?_ h
    cases e with
    | instructions limit count => exact ⟨limit, count, hlimit⟩
    | time limit elapsed =>
      rw [Limits.Sets, htime] at hsets
      cases hsets
    | buffer | callDepth => exact absurd hsets hother

theorem playLimited_count (htime : limits.time = none) (h : ¬ OverCount (playLimited exe limits fuel chunks).2) :
    (playLimited exe limits fuel chunks).1.machine.meter.count? =
      some ((playLimited exe limits.uncounted fuel chunks).1.seen.events.toList.countP Event.begins) := by
  rw [← (playLimited_uncounted htime h).2.count_eq]
  have htime' : limits.uncounted.time = none := htime
  obtain ⟨-, elapsed, hmeter⟩ := play_counted exe fuel (limits.uncounted_instructions) htime' chunks
    (s := start (.ofLimits limits.uncounted) {}) rfl ⟨rfl, 0, rfl⟩
  rw [show (playLimited exe limits.uncounted fuel chunks).1.machine.meter = _ from hmeter]
  rfl

/-- The machine that has the whole document at once and may run any number of instructions. -/
def wholeUnder (limits : Limits) (document : List UInt8) : Machine :=
  { input := Lexer.extend document true Lexer.empty, meter := .ofLimits limits.uncounted }

theorem uncounted_tracked (exe : Executable) (htime : limits.time = none) (document : List UInt8)
    (seen : Record) : Tracked .uncounted exe document true (wholeUnder limits document) []
      (start (.ofLimits limits.uncounted) seen) := by
  have hlevel : Easing.uncounted.rel (.ofLimits limits.uncounted) (.ofLimits limits.uncounted) := by
    refine ⟨rfl, fun l hl => ?_⟩
    cases hl
    exact ⟨rfl, htime⟩
  exact .running _ rfl rfl ⟨_, _, Lexer.Awaits.extended Lexer.Sound.empty, hlevel, rfl⟩ (.refl exe _)

end

/-- Two ways to cut a document into chunks, under the same limits and without a limit of time. If the first
session returns and has not exceeded the number of instructions, the second one exceeds it, or it ends with
the same answer and the same error in the text; and then what the two have counted differs by how often they
have waited. -/
theorem play_limited (exe : Executable) (limits : Limits) (htime : limits.time = none)
    (chunks chunks' : List (List UInt8)) (hdocument : chunks'.flatten = chunks.flatten) (fuel : Nat)
    (hreturns : (playLimited exe limits fuel chunks).2 ≠ .running)
    (hcount : ¬ OverCount (playLimited exe limits fuel chunks).2) :
    ∃ bound, ∀ fuel', bound ≤ fuel' → OverCount (playLimited exe limits fuel' chunks').2 ∨
      (playLimited exe limits fuel' chunks').2 = (playLimited exe limits fuel chunks).2 ∧
      (playLimited exe limits fuel' chunks').1.lexerError = (playLimited exe limits fuel chunks).1.lexerError ∧
      ∃ count count', (playLimited exe limits fuel chunks).1.machine.meter.count? = some count ∧
        (playLimited exe limits fuel' chunks').1.machine.meter.count? = some count' ∧
        count' + (playLimited exe limits fuel chunks).1.seen.waits =
          count + (playLimited exe limits fuel' chunks').1.seen.waits := by
  obtain ⟨hanswer, heased⟩ := playLimited_uncounted htime hcount
  have hwhole := uncounted_tracked exe htime chunks.flatten {}
  have hwhole' : Tracked .uncounted exe chunks'.flatten true (wholeUnder limits chunks.flatten) []
      (start (.ofLimits limits.uncounted) ({} : Record)) := by
    rw [hdocument]
    exact hwhole
  have hbase : (playLimited exe limits.uncounted fuel chunks).2 ≠ .running := by rwa [hanswer]
  obtain ⟨bound, hbound⟩ := play_agree Easing.uncounted_exact rfl rfl hwhole hwhole' hbase
  refine ⟨bound, fun fuel' hfuel => or_iff_not_imp_left.2 fun hcount' => ?_⟩
  obtain ⟨hanswer', heased'⟩ := playLimited_uncounted htime hcount'
  obtain ⟨hsame, herror, told, told', hseen, hseen', hsettled⟩ := hbound fuel' hfuel
  refine ⟨(hanswer'.symm.trans hsame).trans hanswer, ?_, _, _, playLimited_count htime hcount,
    playLimited_count htime hcount', ?_⟩
  · exact (heased'.lexerError_eq.symm.trans herror).trans heased.lexerError_eq
  · have hrecord : (playLimited exe limits.uncounted fuel chunks).1.seen.events.toList = told := by
      rw [show (playLimited exe limits.uncounted fuel chunks).1.seen = _ from hseen]
      exact observe_record told {} rfl
    have hrecord' : (playLimited exe limits.uncounted fuel' chunks').1.seen.events.toList = told' := by
      rw [show (playLimited exe limits.uncounted fuel' chunks').1.seen = _ from hseen']
      exact observe_record told' {} rfl
    have hcosts := Event.settled_countP told
    have hcosts' := Event.settled_countP told'
    rw [hsettled] at hcosts'
    rw [Record.waits, Record.waits, ← heased.seen_eq, ← heased'.seen_eq, hrecord, hrecord']
    omega

/-- The document `12 ` under a limit of four instructions, as a whole and cut inside of the number. -/
theorem play_limited_cut_number :
    (playLimited acceptAll { instructions := some 4 } 3 [[0x31, 0x32, 0x20]]).2 = .status .valid ∧
    ∃ bound, ∀ fuel', bound ≤ fuel' →
      OverCount (playLimited acceptAll { instructions := some 4 } fuel' [[0x31], [0x32, 0x20]]).2 ∨
      (playLimited acceptAll { instructions := some 4 } fuel' [[0x31], [0x32, 0x20]]).2 = .status .valid := by
  have hvalid : (playLimited acceptAll { instructions := some 4 } 3 [[0x31, 0x32, 0x20]]).2 =
      .status .valid := by decide +kernel
  obtain ⟨bound, hbound⟩ := play_limited acceptAll { instructions := some 4 } rfl [[0x31, 0x32, 0x20]]
    [[0x31], [0x32, 0x20]] rfl 3 (by rw [hvalid]; nofun) (by rw [hvalid]; exact nofun)
  exact ⟨hvalid, bound, fun fuel' hfuel => (hbound fuel' hfuel).imp_right fun h => h.1.trans hvalid⟩

/-- The document `12 ` under a limit of three instructions, for the program that accepts every value: as a whole it
is accepted, and cut inside of the number it takes one instruction too many, since the first instruction is
counted twice. -/
theorem overCount_of_wait : ∃ exe, Constraint.compile .valid = .ok exe ∧
    (playLimited exe { instructions := some 3 } 3 [[0x31, 0x32, 0x20]]).2 = .status .valid ∧
    (playLimited exe { instructions := some 3 } 3 [[0x31], [0x32, 0x20]]).2 = .failed (.limit (.instructions 3 4)) := by
  have hplayed := Constraint.exists_compile (show Constraint.toTree .valid = _ from rfl) ofTree_acceptTree
    (f := fun exe => ((playLimited exe { instructions := some 3 } 3 [[0x31, 0x32, 0x20]]).2,
      (playLimited exe { instructions := some 3 } 3 [[0x31], [0x32, 0x20]]).2))
    (a := (.status .valid, .failed (.limit (.instructions 3 4)))) (by decide +kernel)
  obtain ⟨exe, hexe, hboth⟩ := hplayed
  exact ⟨exe, hexe, Prod.mk.inj hboth⟩

end Session

end JsonSieve
