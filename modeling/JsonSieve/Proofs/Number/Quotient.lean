import Mathlib.Algebra.Group.Nat.Defs
import JsonSieve.Number.Binary64

/-!
# Division by one

Dividing a finite number by one gives its magnitude back (`magnitude_div_one`), so that asking whether the
quotient has a fraction is asking whether the number has one (`isIntegral_div_one`).
-/

namespace JsonSieve.Binary64

theorem magnitude_ofMagnitude (negative : Bool) {n : Nat} (h : n < Nat.pow 2 63) :
    (ofMagnitude negative n).magnitude = n := by
  have hmask : ∀ k : Nat, k &&& 9223372036854775807 = k % 2 ^ 63 :=
    fun k => Nat.and_two_pow_sub_one_eq_mod k 63
  have hpow : Nat.pow 2 63 = 2 ^ 63 := rfl
  rw [hpow] at h
  cases negative with
  | false =>
    rw [ofMagnitude, magnitude, if_neg Bool.false_ne_true, UInt64.toNat_and,
      UInt64.toNat_ofNat_of_lt' (Nat.lt_trans h (by decide))]
    exact (hmask n).trans (Nat.mod_eq_of_lt h)
  | true =>
    rw [ofMagnitude, magnitude, if_pos rfl, UInt64.toNat_and, hpow,
      UInt64.toNat_ofNat_of_lt' (show 2 ^ 63 + n < 2 ^ 64 by omega)]
    refine (hmask _).trans ?_
    omega

theorem roundDiv_mul {n d : Nat} (h : 0 < d) : roundDiv (n * d) d = n := by
  rw [roundDiv, Nat.mul_mod_left, Nat.mul_div_cancel _ h]
  refine if_neg ?_
  omega

section

variable {units scale : Nat}

theorem log2_mul_two_pow (h : units ≠ 0) (k : Nat) : (units * 2 ^ k).log2 = units.log2 + k := by
  have hne : units * 2 ^ k ≠ 0 := Nat.mul_ne_zero h (Nat.ne_of_gt (Nat.two_pow_pos k))
  apply Nat.le_antisymm
  · apply Nat.lt_succ_iff.1
    rw [Nat.log2_lt hne, show (units.log2 + k).succ = units.log2 + 1 + k by omega, Nat.pow_add]
    exact Nat.mul_lt_mul_of_pos_right Nat.lt_log2_self (Nat.two_pow_pos k)
  · rw [Nat.le_log2 hne, Nat.pow_add]
    exact Nat.mul_le_mul_right _ (Nat.log2_self_le h)

/-- The unit of a number with so many units, if they fill the significand or are the smallest there are. -/
theorem unitExponent_exact (hpos : 0 < units) (hlt : units < 2 ^ 53)
    (hnormal : scale = 1 ∨ 2 ^ 52 ≤ units ∧ 0 < scale) :
    unitExponent (units * 2 ^ (scale - 1023)) (2 ^ 52 * 2 ^ (1023 - scale)) = (scale : Int) - 1075 := by
  have hne : units ≠ 0 := Nat.pos_iff_ne_zero.1 hpos
  have hlog : units.log2 ≤ 52 := Nat.lt_succ_iff.1 ((Nat.log2_lt hne).2 hlt)
  have hself : 2 ^ units.log2 ≤ units := Nat.log2_self_le hne
  have hfull : 2 ^ 52 ≤ units → units.log2 = 52 :=
    fun h => Nat.le_antisymm hlog ((Nat.le_log2 hne).2 h)
  have hguess : ((units * 2 ^ (scale - 1023)).log2 : Int) - (2 ^ 52 * 2 ^ (1023 - scale)).log2 =
      (units.log2 : Int) + scale - 1075 := by
    rw [log2_mul_two_pow hne, ← Nat.pow_add, Nat.log2_two_pow]
    omega
  have hshift : ∀ {a b : Nat}, a = units.log2 + b → 2 ^ a ≤ units * 2 ^ b := by
    rintro a b rfl
    rw [Nat.pow_add]
    exact Nat.mul_le_mul_right _ hself
  have hatLeast : (if (0 : Int) ≤ (units.log2 : Int) + scale - 1075 then
      decide (2 ^ 52 * 2 ^ (1023 - scale) * Nat.pow 2 ((units.log2 : Int) + scale - 1075).toNat ≤
        units * 2 ^ (scale - 1023)) else decide (2 ^ 52 * 2 ^ (1023 - scale) ≤ units * 2 ^ (scale - 1023) *
        Nat.pow 2 (-((units.log2 : Int) + scale - 1075)).toNat)) = true := by
    split
    · rw [decide_eq_true_eq, Nat.pow_eq, ← Nat.pow_add, ← Nat.pow_add]
      exact hshift (by omega)
    · rw [decide_eq_true_eq, Nat.pow_eq, ← Nat.pow_add, Nat.mul_assoc, ← Nat.pow_add]
      exact hshift (by omega)
  rw [unitExponent]
  simp only [hguess, hatLeast, if_true]
  omega

theorem ofRatio_exact (negative : Bool) (hpos : 0 < units) (hlt : units < 2 ^ 53)
    (hnormal : scale = 1 ∨ 2 ^ 52 ≤ units ∧ 0 < scale)
    (hfits : (scale - 1) * 2 ^ 52 + units < 2047 * 2 ^ 52) :
    ofRatio negative (units * 2 ^ (scale - 1023)) (2 ^ 52 * 2 ^ (1023 - scale)) =
      ofMagnitude negative ((scale - 1) * 2 ^ 52 + units) := by
  have hnum : units * 2 ^ (scale - 1023) ≠ 0 :=
    Nat.mul_ne_zero (Nat.pos_iff_ne_zero.1 hpos) (Nat.ne_of_gt (Nat.two_pow_pos _))
  have hunits : (if (0 : Int) ≤ (scale : Int) - 1075 then roundDiv (units * 2 ^ (scale - 1023))
        (2 ^ 52 * 2 ^ (1023 - scale) * Nat.pow 2 ((scale : Int) - 1075).toNat)
      else roundDiv (units * 2 ^ (scale - 1023) * Nat.pow 2 (-((scale : Int) - 1075)).toNat)
        (2 ^ 52 * 2 ^ (1023 - scale))) = units := by
    split
    · rw [Nat.pow_eq, ← Nat.pow_add, ← Nat.pow_add,
        show 52 + (1023 - scale) + ((scale : Int) - 1075).toNat = scale - 1023 by omega]
      exact roundDiv_mul (Nat.two_pow_pos _)
    · rw [Nat.pow_eq, Nat.mul_assoc, ← Nat.pow_add, ← Nat.pow_add,
        show scale - 1023 + (-((scale : Int) - 1075)).toNat = 52 + (1023 - scale) by omega]
      exact roundDiv_mul (Nat.two_pow_pos _)
  have hmagnitude : ((scale : Int) - 1075 + 1074).toNat * Nat.pow 2 52 + units = (scale - 1) * 2 ^ 52 + units := by
    rw [Nat.pow_eq]
    congr 2
    omega
  rw [ofRatio, if_neg hnum]
  simp only [unitExponent_exact hpos hlt hnormal, hunits, hmagnitude]
  exact if_neg (Nat.not_le_of_lt hfits)

end

theorem magnitude_eq (x : Binary64) : x.magnitude = x.exponentField * 2 ^ 52 + x.fractionField :=
  (Nat.div_add_mod' x.magnitude (2 ^ 52)).symm

theorem fractionField_lt (x : Binary64) : x.fractionField < 2 ^ 52 := Nat.mod_lt _ (by decide)

theorem magnitude_div_one {x : Binary64} (h : x.isFinite = true) : (x.div one).magnitude = x.magnitude := by
  have hexponent : x.exponentField < 2047 := of_decide_eq_true h
  have hfraction := x.fractionField_lt
  have hmagnitude := x.magnitude_eq
  have hnan : x.isNaN = false := decide_eq_false (by omega)
  have hinfinite : x.isInfinite = false := decide_eq_false (by omega)
  have hdiv : x.div one = ofRatio x.isNegative (x.significand * 2 ^ (x.scale - 1023))
      (2 ^ 52 * 2 ^ (1023 - x.scale)) := by
    have hnan' : one.isNaN = false := by decide
    have hinfinite' : one.isInfinite = false := by decide
    have hzero' : one.isZero = false := by decide
    have hnegative' : one.isNegative = false := by decide
    have hsignificand : one.significand = 2 ^ 52 := by decide
    have hscale : one.scale = 1023 := by decide
    simp only [div, hnan, hnan', hinfinite, hinfinite', hzero', hnegative', hsignificand, hscale,
      Bool.and_false, Bool.or_false, Bool.false_eq_true, if_false, Bool.bne_false, Nat.pow_eq]
  rw [hdiv]
  by_cases hexp : x.exponentField = 0
  · have hsignificand : x.significand = x.fractionField := if_pos hexp
    have hscale : x.scale = 1 := by rw [scale, hexp]; rfl
    rw [hsignificand, hscale]
    by_cases hzero : x.fractionField = 0
    · rw [hzero, Nat.zero_mul, ofRatio, if_pos rfl, magnitude_ofMagnitude _ (by decide)]
      omega
    · rw [ofRatio_exact _ (by omega) (by omega) (.inl rfl) (by omega),
        magnitude_ofMagnitude _ (show _ < 2 ^ 63 by omega)]
      omega
  · have hsignificand : x.significand = 2 ^ 52 + x.fractionField := if_neg hexp
    have hscale : x.scale = x.exponentField := by rw [scale]; omega
    rw [hsignificand, hscale, ofRatio_exact _ (by omega) (by omega) (.inr ⟨by omega, by omega⟩) (by omega),
      magnitude_ofMagnitude _ (show _ < 2 ^ 63 by omega)]
    omega

theorem isFinite_div_one {x : Binary64} (h : x.isFinite = false) : (x.div one).isFinite = false := by
  have hexponent : ¬ x.exponentField < 2047 := of_decide_eq_false h
  have hfraction := x.fractionField_lt
  have hmagnitude := x.magnitude_eq
  rw [div]
  by_cases hnan : x.isNaN = true
  · simp only [hnan, Bool.true_or, if_true]
    decide
  · have hinfinite : x.isInfinite = true := by
      have hle : ¬ 0x7ff0000000000000 < x.magnitude := fun hlt => hnan (decide_eq_true hlt)
      exact decide_eq_true (by omega)
    have hzero : one.isZero = false := by decide
    have hone : one.isNaN = false := by decide
    have hone' : one.isInfinite = false := by decide
    rw [Bool.not_eq_true] at hnan
    simp only [hnan, hinfinite, hzero, hone, hone', Bool.and_false, Bool.or_false, Bool.false_eq_true,
      if_false, if_true]
    cases x.isNegative != one.isNegative <;> decide

theorem isIntegral_div_one (x : Binary64) : (x.div one).isIntegral = x.isIntegral := by
  cases h : x.isFinite with
  | false => rw [isIntegral, isIntegral, h, isFinite_div_one h, Bool.false_and, Bool.false_and]
  | true =>
    have hmagnitude := magnitude_div_one h
    have hexponent : (x.div one).exponentField = x.exponentField := by
      rw [exponentField, hmagnitude, exponentField]
    have hfraction : (x.div one).fractionField = x.fractionField := by
      rw [fractionField, hmagnitude, fractionField]
    have hfinite : (x.div one).isFinite = x.isFinite := by rw [isFinite, hexponent, isFinite]
    have hsignificand : (x.div one).significand = x.significand := by
      rw [significand, hexponent, hfraction, significand]
    have hscale : (x.div one).scale = x.scale := by rw [scale, hexponent, scale]
    rw [isIntegral, isIntegral, hfinite, hsignificand, hscale]

end JsonSieve.Binary64
