import JsonSieve.Proofs.Machine.Onward
import JsonSieve.Proofs.Machine.Reached

/-!
# Loops over tokens

Skipping and looking at a value go on token by token until they are done or there is no token. What holds
of their results follows from what a single token does (`skipAll_induction`, `scanAll_induction`). A token is
read one at a time (`ensure_cases`).
-/

namespace JsonSieve.Machine

def upNext (exe : Executable) (m : Machine) : Option Op := m.frames.head?.bind fun a => exe.ops[a.pc]?

section

variable {m : Machine}

variable {below : List Activation}

theorem upNext_eq {exe : Executable} {top : Activation} {op : Op}
    (hframes : m.frames = top :: below) (hop : exe.ops[top.pc]? = some op) : m.upNext exe = some op := by
  rw [upNext, hframes, List.head?_cons, Option.bind_some, hop]

theorem ensure_cases {place : Nat} (h : place ≤ m.buffer.size) : place < m.buffer.size ∧ m.ensure place = (m, .ready) ∨
      place = m.buffer.size ∧ m.ensure place = m.fetch := by
  rcases Nat.eq_or_lt_of_le h with heq | hlt
  · refine .inr ⟨heq, ?_⟩
    have hone : place + 1 - m.buffer.size = 0 + 1 := by omega
    rw [ensure, hone, fill_succ]
    split
    · next hready => exact Prod.ext rfl hready.symm
    · rfl
  · refine .inl ⟨hlt, ?_⟩
    have hzero : place + 1 - m.buffer.size = 0 := by omega
    rw [ensure, hzero]
    rfl

/-- What holds before a skip and is kept by every token holds where the skip stops or is done. -/
theorem skipAll_induction {P : Machine → Prop} {Q : Machine × Fetch → Prop}
    (hpass : ∀ m, P m → m.skipDepth ≠ 0 → (m.ensure m.cursor).2 = .ready → P (m.ensure m.cursor).1.pass)
    (hstop : ∀ m, P m → m.skipDepth ≠ 0 → (m.ensure m.cursor).2 ≠ .ready → Q (m.ensure m.cursor))
    (hdone : ∀ m, P m → m.skipDepth = 0 → Q (m.compact, .ready))
    (hsound : m.input.Sound) (hm : P m) : Q m.skipAll := by
  induction hn : m.ahead m.cursor using Nat.strongRecOn generalizing m with
  | _ n ih =>
  rw [skipAll_eq hsound]
  by_cases hover : m.skipDepth = 0
  · rw [if_pos hover]
    exact hdone m hm hover
  rw [if_neg hover]
  by_cases hready : (m.ensure m.cursor).2 = .ready
  · rw [if_pos hready]
    have hnext := hpass m hm hover hready
    rcases pass_ahead hsound hready with hover | hlt
    · rw [skipAll_over hover]
      exact hdone _ hnext hover
    · exact ih _ (hn ▸ hlt) (ensure_sound hsound m.cursor) hnext rfl
  · rw [if_neg hready]
    exact hstop m hm hover hready

/-- What holds before looking at a value and is kept by every token holds where looking stops or is done. -/
theorem scanAll_induction {P : Nat → List Partial → Machine → Prop} {Q : Machine × Scan → Prop}
    (hmore : ∀ place stack stack' m, P place stack m → (m.ensure place).2 = .ready →
      Reading.step stack ((m.ensure place).1.tokenAt place) = .more stack' →
      P (place + 1) stack' (m.ensure place).1)
    (hvalue : ∀ place stack m v, P place stack m → (m.ensure place).2 = .ready →
      Reading.step stack ((m.ensure place).1.tokenAt place) = .value v → Q ((m.ensure place).1, .value v))
    (hbad : ∀ place stack m, P place stack m → (m.ensure place).2 = .ready →
      Reading.step stack ((m.ensure place).1.tokenAt place) = .bad → Q ((m.ensure place).1, .badText))
    (hstop : ∀ place stack m (r : Scan), P place stack m → (m.ensure place).2 = r.fetch →
      r.fetch ≠ .ready → Q ((m.ensure place).1, r))
    {place : Nat} {stack : List Partial} (hsound : m.input.Sound) (hm : P place stack m) :
    Q (m.scanAll place stack) := by
  induction hn : m.ahead place using Nat.strongRecOn generalizing m place stack with
  | _ n ih =>
  rw [scanAll_eq hsound]
  cases hready : (m.ensure place).2 with
  | ready =>
    cases hstep : Reading.step stack ((m.ensure place).1.tokenAt place) with
    | more stack' =>
      simp only
      rcases ensure_ready hsound hready with hnone | hlt
      · rw [hnone, step_none] at hstep
        cases hstep
      · exact ih _ (hn ▸ hlt) (ensure_sound hsound place) (hmore place stack stack' m hm hready hstep) rfl
    | value v => exact hvalue place stack m v hm hready hstep
    | bad => exact hbad place stack m hm hready hstep
  | needMore => exact hstop place stack m .needMore hm hready nofun
  | badText => exact hstop place stack m .badText hm hready nofun
  | limit e => exact hstop place stack m (.limit e) hm hready nofun

/-! ## What has been seen -/

theorem insertSeen_pc (slot : UInt32) (v : String) (a : Activation) : (Activation.insertSeen slot v a).1.pc = a.pc := by
  unfold Activation.insertSeen
  dsimp only
  split <;> rfl

theorem mark_error (pc : Nat) {slot : UInt32} {v : String} {d : Defect}
    (h : m.slot slot = .error d) : mark pc slot (m, .value v) = .defect m pc d := by
  rw [mark, h]
  rfl

theorem mark_ok {top : Activation} (hframes : m.frames = top :: below) (pc : Nat) {slot : UInt32} {v : String}
    {w : Int64} (h : m.slot slot = .ok w) : mark pc slot (m, .value v) = ⟨{ m with
        frames := { (Activation.insertSeen slot v top).1 with
          pc := (Activation.insertSeen slot v top).1.pc + 1 } :: below
        flag := (Activation.insertSeen slot v top).2 }, [], .run⟩ := by
  rw [mark, h]
  dsimp only [Stepped.require]
  rw [hframes]
  dsimp only
  rw [advance_eq rfl]

end

theorem Reaches.sound {exe : Executable} {meter : Meter} {n : Nat} {text : List UInt8} {m : Machine}
    (h : Reaches exe meter n text m) : m.input.Sound := by
  induction h with
  | start => exact Lexer.Sound.empty
  | @begins n text m h hstarted hnext ih =>
    have hinput : (m.move exe).machine.input = m.input := by
      rw [move, if_neg (by rw [hstarted]; rintro ⟨⟩)]
      unfold enter
      split
      · rfl
      · split <;> rfl
    rw [hinput]
    exact ih
  | steps h hstarted hnext ih | waits h hstarted hnext ih => exact (step_onward exe _).sound ih
  | feed h hopen bytes ih => exact ih.feed bytes
  | close h ih => exact ih.close
  | clock h time ih => exact ih

end JsonSieve.Machine
