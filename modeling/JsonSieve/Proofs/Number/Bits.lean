import JsonSieve.Proofs.Running.Basic

/-!
# Bits of words

The bits of the words that the votes of a split become (`Word.hasBit_votesWord`).
-/

namespace JsonSieve

open Machine Running

namespace Word

def hasBit (w : Int64) (i : Nat) : Bool := w.toBitVec.getLsbD i

@[simp] theorem hasBit_zero (i : Nat) : hasBit 0 i = false := by
  simp [hasBit]

@[simp] theorem hasBit_or (v w : Int64) (i : Nat) : hasBit (v ||| w) i = (hasBit v i || hasBit w i) := by
  simp [hasBit]

theorem bitWord_eq : ∀ n < 64, (bitWord n).toBitVec = BitVec.twoPow 64 n := by
  decide +kernel

theorem hasBit_bitWord {n : Nat} (h : n < 64) (i : Nat) : hasBit (bitWord n) i = decide (i = n) := by
  rw [hasBit, bitWord_eq n h, BitVec.getLsbD_twoPow]
  by_cases hi : n = i
  · simp [hi, hi ▸ h]
  · simp [hi, Ne.symm hi]

theorem hasBit_votesWord (votes : List Bool) {i : Nat} (h : i + votes.length ≤ 64) (w : Int64) (j : Nat) :
    hasBit (votesWord i votes w) j = (hasBit w j || decide (i ≤ j) && votes.getD (j - i) false) := by
  induction votes generalizing i w with
  | nil => simp [votesWord]
  | cons vote votes ih =>
    rw [List.length_cons] at h
    rw [votesWord, ih (by omega)]
    have hfirst : hasBit (if vote = true then w ||| bitWord i else w) j = (hasBit w j || vote && decide (j = i)) := by
      cases vote <;> simp [hasBit_bitWord (show i < 64 by omega)]
    rw [hfirst]
    rcases Nat.lt_trichotomy j i with hji | rfl | hji
    · simp [show ¬ i ≤ j by omega, show ¬ i + 1 ≤ j by omega, show j ≠ i by omega]
    · simp [Nat.not_succ_le_self j]
    · obtain ⟨k, rfl⟩ := Nat.exists_eq_add_of_lt hji
      have hk : i + k + 1 - i = k + 1 := by omega
      have hk' : i + k + 1 - (i + 1) = k := by omega
      simp [hk, hk', show i ≤ i + k + 1 by omega, show i + 1 ≤ i + k + 1 by omega,
        show i + k + 1 ≠ i by omega]

end Word

end JsonSieve
