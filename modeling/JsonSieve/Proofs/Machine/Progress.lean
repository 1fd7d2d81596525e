import Mathlib.Logic.Relation
import JsonSieve.Proofs.Machine.Ending
import JsonSieve.Proofs.Machine.Streaming

/-!
# Progress of a run

`Gets` says that a machine moves on until something holds, unless its activations nest too deep. Proofs
about runs are put together from it (`Gets.bind`, `Gets.step`). `Reads` says that a machine stands at a
position of the text; the instructions that read tokens lead from one position to the next.
-/

namespace JsonSieve.Machine

open Running

/-! ## Moving on -/

def Goes (exe : Executable) (m m' : Machine) : Prop :=
  (m.move exe).next = .run ∧ (m.move exe).machine = m'

/-- A machine moves on to a call that is too deep. -/
def Sinks (exe : Executable) (m : Machine) : Prop :=
  ∃ m' limit depth, Relation.ReflTransGen (Goes exe) m m' ∧ (m'.move exe).next = .fail (.limit (.callDepth limit depth))

/-- A machine moves on until something holds, or if it may be deep, until a call is too deep. -/
def Gets (exe : Executable) (deep : Prop) (m : Machine) (P : Machine → Prop) : Prop :=
  (∃ m', Relation.ReflTransGen (Goes exe) m m' ∧ P m') ∨ deep ∧ Sinks exe m

namespace Gets

variable {exe : Executable} {deep : Prop} {m : Machine} {P Q : Machine → Prop}

theorem here (h : P m) : Gets exe deep m P := .inl ⟨m, .refl, h⟩

theorem after {m' : Machine} (h : Relation.ReflTransGen (Goes exe) m m') (h' : Gets exe deep m' P) :
    Gets exe deep m P := by
  rcases h' with ⟨m'', hreach, hP⟩ | ⟨hdeep, m'', limit, depth, hreach, hfail⟩
  · exact .inl ⟨m'', h.trans hreach, hP⟩
  · exact .inr ⟨hdeep, m'', limit, depth, h.trans hreach, hfail⟩

theorem step {m' : Machine} (hnext : (m.move exe).next = .run) (hmachine : (m.move exe).machine = m')
    (h : Gets exe deep m' P) : Gets exe deep m P :=
  after (.single ⟨hnext, hmachine⟩) h

theorem bind (h : Gets exe deep m P) (hP : ∀ m', P m' → Gets exe deep m' Q) : Gets exe deep m Q := by
  rcases h with ⟨m', hreach, h⟩ | hsinks
  · exact after hreach (hP m' h)
  · exact .inr hsinks

theorem mono (h : Gets exe deep m P) (hP : ∀ m', P m' → Q m') : Gets exe deep m Q :=
  h.bind fun m' h' => here (hP m' h')

theorem sink {limit depth : Nat} (hdeep : deep)
    (h : (m.move exe).next = .fail (.limit (.callDepth limit depth))) : Gets exe deep m P :=
  Or.inr ⟨hdeep, m, limit, depth, .refl, h⟩

end Gets

/-! ## One instruction -/

variable {a : Activation} {below : List Activation} {m : Machine}

theorem move_op {exe : Executable} {op : Op}
    (hstarted : m.started = true) (hfree : m.meter = .free) (hframes : m.frames = a :: below)
    (hop : exe.ops[a.pc]? = some op) : (m.move exe).next = (m.execute exe a.pc op).next ∧
      (m.move exe).machine = (m.execute exe a.pc op).machine := by
  rw [move, if_pos hstarted, step_op exe hframes hop, ticked_free hfree, hfree]
  exact ⟨rfl, rfl⟩

theorem slot_eq (h : m.frames = a :: below)
    {i : UInt32} {w : Int64} (hw : a.slots[i.toNat]? = some w) : m.slot i = .ok w := by
  rw [slot, h]
  simp only [hw]

theorem update_eq (h : m.frames = a :: below)
    {i : UInt32} {w : Int64} (hw : a.slots[i.toNat]? = some w) (pc : Nat) (f : Int64 → Int64) :
    m.update pc (.slot i) f = ⟨{ m with frames := { a with
      slots := a.slots.setIfInBounds i.toNat (f w), pc := a.pc + 1 } :: below }, [], .run⟩ := by
  have hindex : m.slotIndex (.slot i) = .ok i := by
    rw [slotIndex, slot_eq h hw]
    rfl
  rw [update, hindex, Stepped.require, slot_eq h hw, Stepped.require, setSlot_eq h,
    advance_eq (a := { a with slots := a.slots.setIfInBounds i.toNat (f w) }) rfl]

/-! ## Standing at a position -/

/-- What does not change while a frame runs: the text and the splits around it; within splits the stream
is `whole`. -/
structure Steady (broken : Bool) (whole : List Token) (splits : List Split) (m : Machine) : Prop
    extends Flowing broken m where
  started : m.started = true
  verdict : m.verdict = none
  splits_eq : m.splits = splits
  kept : splits ≠ [] → Pads broken whole m.stream

structure Reads (broken : Bool) (whole : List Token) (splits : List Split) (m : Machine) (p : Position) :
    Prop extends Steady broken whole splits m where
  broken_eq : p.broken = broken
  coming : Pads broken p.coming m.upcoming
  current : m.current = p.current
  last : ∀ t, p.last = some t → 0 < m.cursor ∧ m.stream[m.cursor - 1]? = some t
  idle : m.skipDepth = 0
  sane : p.Sane

section

variable {broken : Bool} {whole : List Token} {splits : List Split} {m : Machine} {p p' : Position}

theorem Steady.advances (h : Steady broken whole splits m) {m' : Machine} (h' : Advances broken m m') :
    Steady broken whole splits m' where
  toFlowing := h'.flowing h.toFlowing
  started := h'.started_eq.trans h.started
  verdict := h'.verdict_eq.trans h.verdict
  splits_eq := h'.splits_eq.trans h.splits_eq
  kept hne := (h.kept hne).trans (h'.pads (by rwa [h.splits_eq]))

variable (h : Reads broken whole splits m p)

include h

theorem Reads.congr (frames : List Activation) (flag : Bool)
    (lastCase : Int64) : Reads broken whole splits { m with frames, flag, lastCase } p :=
  ⟨⟨⟨h.sound, h.concludes, h.free⟩, h.started, h.verdict, h.splits_eq, h.kept⟩, h.broken_eq, h.coming,
    h.current, h.last, h.idle, h.sane⟩

theorem Reads.framed (frames : List Activation) : Reads broken whole splits { m with frames } p :=
  h.congr frames m.flag m.lastCase

theorem Reads.flagged (frames : List Activation) (flag : Bool) : Reads broken whole splits { m with frames, flag } p :=
  h.congr frames flag m.lastCase

theorem Reads.token (hread : p.read? = some p') :
    ∃ m', m.readToken = (m', .ready) ∧ m'.frames = m.frames ∧ Reads broken whole splits m' p' := by
  obtain ⟨current, last, coming, b⟩ := p
  obtain rfl : b = broken := h.broken_eq
  have hpads : Pads b coming m.upcoming := h.coming
  have hsolid : ∀ t ∈ coming, t ≠ .none := h.sane.solid
  cases coming with
  | cons t rest =>
    cases hread
    have htoken : Running.tokenAt b m.upcoming 0 = some t := by
      rw [hpads.tokenAt_eq]
      rfl
    obtain ⟨m', hready, hpasses, hcurrent, hdepth⟩ := readToken_some h.toFlowing htoken
    refine ⟨m', hready, hpasses.frames_eq, h.toSteady.advances hpasses.toAdvances, rfl,
      (hpads.drop 1).trans hpasses.upcoming, hcurrent, ?_, hdepth.trans h.idle, ?_, ?_⟩
    · rintro t' ⟨⟩
      exact ⟨hpasses.cursor_pos, hpasses.last⟩
    · exact fun t' ht' => hsolid t' (.tail _ ht')
    · rintro ⟨⟩
      exact absurd rfl (hsolid .none (.head _))
  | nil =>
    cases b with
    | true => cases hread
    | false =>
      cases hread
      have htoken : Running.tokenAt false m.upcoming 0 = some .none := by
        rw [hpads.tokenAt_eq]
        rfl
      obtain ⟨m', hready, hpasses, hcurrent, hdepth⟩ := readToken_some h.toFlowing htoken
      refine ⟨m', hready, hpasses.frames_eq, h.toSteady.advances hpasses.toAdvances, rfl,
        (hpads.drop 1).trans hpasses.upcoming, hcurrent, ?_, hdepth.trans h.idle, hsolid, fun _ => ⟨rfl, rfl⟩⟩
      rintro t' ⟨⟩
      exact ⟨hpasses.cursor_pos, hpasses.last⟩

theorem Reads.token_bad (hread : p.read? = none) : m.readToken.2 = .badText := by
  refine readToken_none h.toFlowing ?_
  rw [h.coming.tokenAt_eq]
  obtain ⟨current, last, coming, b⟩ := p
  obtain rfl : b = broken := h.broken_eq
  cases coming with
  | cons t rest => cases hread
  | nil =>
    cases b with
    | true => rfl
    | false => cases hread

theorem Reads.consume_nothing (hopens : ¬ p.current.kind.opens = true) : m.consume = (m, .ready) := by
  rw [consume_eq, if_pos ⟨h.idle, by rw [h.current]; simpa using hopens⟩]

theorem Reads.beginSkip (hopens : p.current.kind.opens = true) :
    m.consume = ({ m with skipDepth := 1 } : Machine).skipAll := by
  rw [consume_eq, if_neg (by rw [h.current, hopens]; nofun), Machine.beginSkip, if_pos h.idle]

theorem Reads.consume (hskip : p.skip? = some p') :
    ∃ m', m.consume = (m', .ready) ∧ m'.frames = m.frames ∧ Reads broken whole splits m' p' := by
  rw [Position.skip?, h.broken_eq] at hskip
  split at hskip
  · next hopens =>
    obtain ⟨⟨t, rest⟩, hpassed, hp'⟩ := Option.map_eq_some_iff.1 hskip
    cases hp'
    have hsteady : Steady broken whole splits { m with skipDepth := 1 } :=
      ⟨⟨h.sound, h.concludes, h.free⟩, h.started, h.verdict, h.splits_eq, h.kept⟩
    have hskipped := skipAll_passes hsteady.toFlowing Nat.one_ne_zero h.coming
    rw [hpassed] at hskipped
    obtain ⟨m', hall, hadvances, hahead, hpos, hlast, hcurrent, hdepth⟩ := hskipped
    obtain ⟨hsolid, hend⟩ := passed_sane h.sane.solid hpassed
    refine ⟨m', (h.beginSkip hopens).trans hall, hadvances.frames_eq, hsteady.advances hadvances, rfl,
      hahead, hcurrent.trans h.current, ?_, hdepth, hsolid, ?_⟩
    · rintro t' ⟨⟩
      exact ⟨hpos, hlast⟩
    · exact fun hnone => hend (Option.some.inj hnone)
  · next hopens =>
    cases hskip
    exact ⟨m, h.consume_nothing hopens, rfl, h⟩

theorem Reads.consume_bad (hskip : p.skip? = none) : m.consume.2 = .badText := by
  rw [Position.skip?, h.broken_eq] at hskip
  split at hskip
  · next hopens =>
    have hskipped := skipAll_passes (m := { m with skipDepth := 1 }) ⟨h.sound, h.concludes, h.free⟩
      Nat.one_ne_zero h.coming
    rw [Option.map_eq_none_iff.1 hskip] at hskipped
    rwa [h.beginSkip hopens]
  · cases hskip

theorem Reads.untoken (hunread : p.unread? = some p') :
    0 < m.cursor ∧ Reads broken whole splits { m with cursor := m.cursor - 1 } p' := by
  obtain ⟨t, hlast, rfl⟩ := Option.map_eq_some_iff.1 hunread
  obtain ⟨hpos, ht⟩ := h.last t hlast
  have hlt := (List.getElem?_eq_some_iff.1 ht).1
  have hupcoming : ({ m with cursor := m.cursor - 1 } : Machine).upcoming = t :: m.upcoming := by
    rw [upcoming]
    show m.stream.drop (m.cursor - 1) = t :: m.upcoming
    rw [List.drop_eq_getElem_cons hlt, Nat.sub_add_cancel hpos, upcoming, (List.getElem?_eq_some_iff.1 ht).2]
  have hpushed : t ≠ .none → pushed t p.coming = t :: p.coming := by
    intro hne
    cases t <;> first | rfl | exact absurd rfl hne
  refine ⟨hpos, ⟨⟨h.sound, h.concludes, h.free⟩, h.started, h.verdict, h.splits_eq, h.kept⟩, h.broken_eq, ?_,
    h.current, (by simp), h.idle, ?_, (by simp)⟩
  · rw [hupcoming]
    obtain ⟨k, hk, hbroken⟩ := h.coming
    by_cases hnone : t = .none
    · subst hnone
      obtain ⟨hnil, hends⟩ := h.sane.behind hlast
      refine ⟨k + 1, ?_, fun hb => ?_⟩
      · rw [hk, hnil, pushed, List.replicate_succ]
        rfl
      · rw [← h.broken_eq, hends] at hb
        cases hb
    · refine ⟨k, ?_, hbroken⟩
      rw [hk, hpushed hnone]
      rfl
  · intro t' ht'
    by_cases hnone : t = .none
    · subst hnone
      exact h.sane.solid t' ht'
    · rw [hpushed hnone] at ht'
      rcases List.mem_cons.1 ht' with rfl | ht'
      · exact hnone
      · exact h.sane.solid t' ht'

theorem Reads.value {v : String} (hv : p.ahead = .value v) :
    ∃ m', m.scan = (m', .value v) ∧ m'.frames = m.frames ∧ Reads broken whole splits m' p := by
  rw [Position.ahead, h.broken_eq] at hv
  have hlook := scan_look h.toFlowing h.coming
  rw [hv] at hlook
  obtain ⟨m', hscan, hrefills⟩ := hlook
  refine ⟨m', hscan, hrefills.advances.frames_eq, h.toSteady.advances hrefills.advances, h.broken_eq, ?_,
    ?_, ?_, ?_, h.sane⟩
  · rw [upcoming, hrefills.grows.cursor_eq]
    exact h.coming.trans (hrefills.pads.drop _)
  · exact hrefills.current_eq.trans h.current
  · intro t ht
    rw [hrefills.grows.cursor_eq]
    obtain ⟨hpos, hlast⟩ := h.last t ht
    exact ⟨hpos, hrefills.pads.getElem?_eq hlast⟩
  · exact hrefills.grows.skipDepth_eq.trans h.idle

theorem Reads.value_bad (hv : ∀ v, p.ahead ≠ .value v) : m.scan.2 = .badText := by
  rw [Position.ahead, h.broken_eq] at hv
  have hlook := scan_look h.toFlowing h.coming
  split at hlook
  · next v heq => exact absurd heq (hv v)
  · exact hlook

end

end JsonSieve.Machine
