import JsonSieve.Proofs.Lexer.Incremental
import JsonSieve.Proofs.Machine.Ending

/-!
# The text only moves on

Whatever a machine does, it treats its text in one way only: it asks the lexer for the next token, any
number of times. So the lexer behind a run is the lexer before it after some questions (`run_onward`),
for every program, with every meter, and also where the run fails. And no run answers that the session
is closed (`run_willing`).
-/

namespace JsonSieve

/-- The second lexer is the first one after it has been asked a number of times. -/
def Lexer.Onward (l l' : Lexer) : Prop := ∃ n, l' = l.after (List.replicate n .next)

namespace Lexer.Onward

variable {l l' l'' : Lexer}

theorem refl (l : Lexer) : l.Onward l := ⟨0, rfl⟩

theorem next (l : Lexer) : l.Onward l.next.1 := ⟨1, rfl⟩

theorem trans (h : l.Onward l') (h' : l'.Onward l'') : l.Onward l'' := by
  obtain ⟨n, rfl⟩ := h
  obtain ⟨k, rfl⟩ := h'
  exact ⟨n + k, by rw [← List.replicate_append_replicate, after_append]⟩

theorem sound (h : l.Onward l') (hsound : l.Sound) : l'.Sound := by
  obtain ⟨n, rfl⟩ := h
  exact hsound.after _

theorem closed_eq (h : l.Onward l') (hsound : l.Sound) : l'.closed = l.closed := by
  obtain ⟨n, rfl⟩ := h
  rw [closed_after hsound]
  simp [List.mem_replicate]

end Lexer.Onward

namespace Machine

open Lexer (Onward)

/-! ## Reading -/

theorem fetch_onward (m : Machine) : m.input.Onward m.fetch.1.input := by
  have hnext := Onward.next m.input
  rcases hanswer : m.input.next with ⟨input, answer⟩
  rw [hanswer] at hnext
  rw [fetch_of hanswer]
  cases answer with
  | token t | eof =>
    rw [receive, keep_eq]
    exact hnext
  | needMore | error => exact hnext

theorem moves_onward : Moves fun m m' => m.input.Onward m'.input :=
  ⟨⟨fun m => Onward.refl m.input, Onward.trans, fetch_onward⟩, fun m _ _ _ _ => Onward.refl m.input⟩

/-! ## Steps -/

theorem mapTop_input (m : Machine) (change : Activation → Activation) : (m.mapTop change).input = m.input := by
  rcases m with ⟨_, _, _ | ⟨top, below⟩, _⟩ <;> rfl

theorem fetched_onward {input : Lexer} (pc : Nat) {ready : Machine → Stepped} (fetch : Machine × Fetch)
    (hfetch : input.Onward fetch.1.input) (hready : ∀ m : Machine, (ready m).machine.input = m.input) :
    input.Onward (Stepped.fetched pc ready fetch).machine.input := by
  obtain ⟨m, answer⟩ := fetch
  cases answer with
  | ready =>
    rw [Stepped.fetched, hready]
    exact hfetch
  | needMore | badText | limit => exact hfetch

theorem markUnique_onward (pc : Nat) (slot : UInt32) (m : Machine) :
    m.input.Onward (m.markUnique pc slot).machine.input := by
  have hscan : m.input.Onward m.scan.1.input := moves_onward.scanFrom _ _ _ m
  rw [markUnique_eq]
  generalize m.scan = scanned at hscan
  obtain ⟨m', answer⟩ := scanned
  cases answer with
  | needMore | badText | limit => exact hscan
  | value v =>
    simp only [mark, Stepped.require]
    split
    · split
      · exact hscan
      · rw [advance, mapTop_input]
        exact hscan
    · exact hscan

theorem execute_onward (exe : Executable) (pc : Nat) (op : Op) {m : Machine} {top : Activation}
    {below : List Activation} (hframes : m.frames = top :: below) :
    m.input.Onward (m.execute exe pc op).machine.input := by
  cases hreads : op.code.reads with
  | false =>
    have halike := fun input meter => execute_alike exe pc input meter op hreads hframes
    rw [(relabel_of_alike halike).1]
    exact Onward.refl m.input
  | true =>
    cases hcode : op.code with
    | token =>
      rw [execute, hcode]
      exact fetched_onward pc _ (moves_onward.readToken m) fun m => mapTop_input m _
    | consume =>
      rw [execute, hcode]
      exact fetched_onward pc _ (moves_onward.consume m) fun m => mapTop_input m _
    | unique =>
      rw [execute, hcode]
      cases op.a with
      | slot i => exact markUnique_onward pc i m
      | _ => exact Onward.refl m.input
    | _ =>
      rw [hcode] at hreads
      cases hreads

theorem step_onward (exe : Executable) (m : Machine) : m.input.Onward (m.step exe).machine.input := by
  refine step_cases (motive := fun s => m.input.Onward s.machine.input) exe m
    (fun _ _ => Onward.refl m.input) (fun _ => Onward.refl m.input) ?_
  exact fun top below op hframes _ => execute_onward exe top.pc op (m := m.ticked) hframes

theorem move_onward (exe : Executable) (m : Machine) : m.input.Onward (m.move exe).machine.input := by
  unfold move
  split
  · exact step_onward exe m
  · rw [(relabel_of_alike fun input meter => enter_alike exe 0 input meter 0 { m with started := true }).1]
    exact Onward.refl m.input

theorem move_willing (exe : Executable) (m : Machine) : (m.move exe).next ≠ .fail .closed := by
  unfold move
  split
  · refine step_cases (motive := fun s => s.next ≠ .fail .closed) exe m (fun _ _ => nofun) (fun _ => nofun) ?_
    intro top below op hframes _
    exact (execute_proceeds exe top.pc m.ticked op hframes).willing
  · exact (enter_proceeds exe 0 _ 0).willing

/-! ## Runs -/

variable {σ : Type} (exe : Executable) (observer : Observer σ) (fuel : Nat) (m : Machine) (seen : σ)

/-- A run asks the lexer for tokens and does nothing else with the text. -/
theorem run_onward : m.input.Onward (m.run exe observer fuel seen).1.input :=
  run_induction observer exe (I := fun k _ => m.input.Onward k.input) (Q := fun k _ _ => m.input.Onward k.input)
    id (fun h _ => h) (fun h _ _ => h.trans (move_onward exe _)) (fun h _ _ => h.trans (move_onward exe _))
    (Onward.refl m.input) fuel

theorem run_willing : (m.run exe observer fuel seen).2.2 ≠ .failed .closed := by
  refine run_induction observer exe (I := fun _ _ => True) (Q := fun _ _ r => r ≠ .failed .closed)
    (fun _ => nofun) (fun _ _ => nofun) (fun _ _ _ => trivial) ?_ trivial fuel
  rintro m _ _ - - hreply rfl
  have hwilling := move_willing exe m
  cases hnext : (m.move exe).next <;> rw [hnext] at hreply hwilling <;> cases hreply
  exact hwilling rfl

end Machine

end JsonSieve
