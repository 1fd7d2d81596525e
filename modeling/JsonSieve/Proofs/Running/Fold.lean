import JsonSieve.Proofs.Graph.Tame
import JsonSieve.Proofs.Running.Tree

/-!
# Conditions decided in advance

Deciding the constant parts of a condition keeps what the condition means (`test_fold`). This holds of
conditions whose connectives join nothing that looks ahead, the `tame` ones.
-/

namespace JsonSieve

namespace Running

variable [Regex.Engine] {e : Setting} {σ : State}

/-! ## Expressions that do not look ahead -/

variable {a b : Expr}

/-- What does not look ahead is a number at once, unless it makes no sense. -/
theorem number_quiet (h : a.looksAhead = false) : number e σ a = .wrong ∨ ∃ x, number e σ a = .result x := by
  cases a with
  | split => simp [Expr.looksAhead] at h
  | matchCase m =>
    rw [number]
    cases e.matcher m with
    | none => exact .inl rfl
    | some m => exact .inr ⟨_, rfl⟩
  | temp t =>
    rw [number]
    cases σ.temps t with
    | none => exact .inl rfl
    | some w => exact .inr ⟨_, rfl⟩
  | num | int | size | bool | tokenKind | tokenNumber | tokenComplete | tokenLength | count | bitCount =>
    exact .inr ⟨_, rfl⟩
  | _ => exact .inl rfl

theorem truth_quiet (h : a.looksAhead = false) :
    test.truth e a σ = .wrong ∨ ∃ holds, test.truth e a σ = .result (holds, σ) := by
  rw [test.truth]
  rcases number_quiet (e := e) (σ := σ) h with hwrong | ⟨x, hx⟩
  · rw [hwrong]
    exact .inl rfl
  · rw [hx]
    exact .inr ⟨_, rfl⟩

/-- A condition that does not look ahead holds or not, and nothing else happens. -/
theorem test_quiet : ∀ {a : Expr}, a.looksAhead = false → test e a σ = .wrong ∨ ∃ holds, test e a σ = .result (holds, σ)
  | .not a, h => by
    rw [Expr.looksAhead] at h
    rw [test]
    rcases test_quiet h with hwrong | ⟨holds, ha⟩
    · rw [hwrong]
      exact .inl rfl
    · rw [ha]
      exact .inr ⟨!holds, rfl⟩
  | .and a b, h => by
    simp only [Expr.looksAhead, Bool.or_eq_false_iff] at h
    rw [test]
    rcases test_quiet h.1 with hwrong | ⟨_ | _, ha⟩
    · rw [hwrong]
      exact .inl rfl
    · rw [ha]
      exact .inr ⟨false, rfl⟩
    · rw [ha]
      exact test_quiet h.2
  | .or a b, h => by
    simp only [Expr.looksAhead, Bool.or_eq_false_iff] at h
    rw [test]
    rcases test_quiet h.1 with hwrong | ⟨_ | _, ha⟩
    · rw [hwrong]
      exact .inl rfl
    · rw [ha]
      exact test_quiet h.2
    · rw [ha]
      exact .inr ⟨true, rfl⟩
  | .compare c a b, h => by
    simp only [Expr.looksAhead, Bool.or_eq_false_iff] at h
    rw [test]
    rcases number_quiet (e := e) (σ := σ) h.1 with hwrong | ⟨x, hx⟩
    · rw [hwrong]
      exact .inl rfl
    rcases number_quiet (e := e) (σ := σ) h.2 with hwrong | ⟨y, hy⟩
    · rw [hx, hwrong]
      exact .inl rfl
    · rw [hx, hy]
      exact .inr ⟨_, rfl⟩
  | .isInteger a, h | .isMultiple a _, h => by
    rw [Expr.looksAhead] at h
    rw [test]
    rcases number_quiet (e := e) (σ := σ) h with hwrong | ⟨x, hx⟩
    · rw [hwrong]
      exact .inl rfl
    · rw [hx]
      exact .inr ⟨_, rfl⟩
  | .bitTest bv n, _ => by
    rw [test, bit]
    split
    · exact .inr ⟨_, rfl⟩
    · exact .inl rfl
  | .bitsAll bv, _ => by
    rw [test]
    cases e.size bv with
    | none => exact .inl rfl
    | some size => exact .inr ⟨_, rfl⟩
  | .temp _, h | .tokenComplete, h | .matchCase _, h | .bitCount _, h => by
    rw [test]
    exact truth_quiet h
  | .split _, h | .unique _, h => by simp [Expr.looksAhead] at h
  | .bool _, _ | .isToken _, _ | .bitsAny _, _ => .inr ⟨_, rfl⟩
  | .num _, _ | .int _, _ | .size _, _ | .tokenKind, _ | .tokenNumber, _ | .tokenLength, _
  | .count _, _ | .seq .., _ => .inl rfl

/-! ## Constants -/

theorem fold_of_number (h : number e σ a ≠ .wrong) : a.fold = a := by
  cases a with
  | isInteger | and | or | not | compare => exact absurd rfl h
  | _ => rfl

/-- A comparison of constants is decided as it would be later. -/
theorem test_fold_compare (c : Comparison) (ha : number e σ a ≠ .wrong)
    (hb : ∀ x, number e σ a = .result x → number e σ b ≠ .wrong) :
    test e (Expr.fold (.compare c a b)) σ = test e (.compare c a b) σ := by
  rw [Expr.fold, fold_of_number ha]
  cases hx : number e σ a with
  | result x =>
    rw [fold_of_number (hb x hx)]
    split
    · simp only [test, number, Run.result_bind, Run.pure_eq, compare_size]
    · simp only [test, number, Run.result_bind, Run.pure_eq, compare_int]
    · simp only [test, number, Run.result_bind, Run.pure_eq]
      rfl
    · rfl
  | ends o =>
    split
    · cases hx
    · cases hx
    · cases hx
    · rw [test, test, hx]
      rfl
  | running =>
    split
    · cases hx
    · cases hx
    · cases hx
    · rw [test, test, hx]
      rfl

theorem test_fold_isInteger (ha : number e σ a ≠ .wrong) :
    test e (Expr.fold (.isInteger a)) σ = test e (.isInteger a) σ := by
  rw [Expr.fold, fold_of_number ha]
  split
  · simp only [test, number, Run.result_bind, Run.pure_eq]
    rfl
  · rfl

/-! ## Connectives -/

theorem test_not_not (a : Expr) (σ : State) : test e (.not (.not a)) σ = test e a σ := by
  rw [test_not, test_not]
  rcases test e a σ with ⟨holds, σ'⟩ | o | _
  · simp [Functor.map, Run.bind]
  · rfl
  · rfl

theorem test_fold_not (ih : test e a.fold σ = test e a σ) : test e (Expr.fold (.not a)) σ = test e (.not a) σ := by
  rw [Expr.fold, test_not, ← ih]
  split
  · next heq =>
    rw [heq]
    rfl
  · next x heq =>
    rw [heq, ← test_not, test_not_not]
  · rfl

theorem test_and (b : Expr) {holds : Bool} (h : test e a σ = .result (holds, σ)) :
    test e (.and a b) σ = if holds then test e b σ else .result (false, σ) := by
  rw [test, h]
  rfl

theorem test_or (b : Expr) {holds : Bool} (h : test e a σ = .result (holds, σ)) :
    test e (.or a b) σ = if holds then .result (true, σ) else test e b σ := by
  rw [test, h]
  rfl

/-- The operands of a connective only matter as far as they are evaluated. -/
theorem test_fold_and {x : Bool} (ha : test e a σ = .result (x, σ))
    (iha : test e a.fold σ = .result (x, σ)) (ihb : x = true → test e b.fold σ = test e b σ) :
    test e (Expr.fold (.and a b)) σ = test e (.and a b) σ := by
  rw [test_and b ha, Expr.fold]
  split
  · rw [‹a.fold = .bool false›, test] at iha
    cases iha
    rfl
  · cases x with
    | false => rfl
    | true => rw [if_pos rfl, ← ihb rfl, ‹b.fold = .bool false›]
  · rw [‹a.fold = .bool true›, test] at iha
    cases iha
    rw [if_pos rfl, ihb rfl]
  · cases x with
    | false => exact iha
    | true => rw [if_pos rfl, ← ihb rfl, ‹b.fold = .bool true›, iha, test]
  · rw [test_and _ iha]
    cases x with
    | false => rfl
    | true => rw [if_pos rfl, if_pos rfl, ihb rfl]

theorem test_fold_or {x : Bool} (ha : test e a σ = .result (x, σ))
    (iha : test e a.fold σ = .result (x, σ)) (ihb : x = false → test e b.fold σ = test e b σ) :
    test e (Expr.fold (.or a b)) σ = test e (.or a b) σ := by
  rw [test_or b ha, Expr.fold]
  split
  · rw [‹a.fold = .bool true›, test] at iha
    cases iha
    rfl
  · cases x with
    | true => rfl
    | false => rw [if_neg Bool.false_ne_true, ← ihb rfl, ‹b.fold = .bool true›, test]
  · rw [‹a.fold = .bool false›, test] at iha
    cases iha
    rw [if_neg Bool.false_ne_true, ihb rfl]
  · cases x with
    | true => exact iha
    | false => rw [if_neg Bool.false_ne_true, ← ihb rfl, ‹b.fold = .bool false›, iha, test]
  · rw [test_or _ iha]
    cases x with
    | true => rfl
    | false => rw [if_neg Bool.false_ne_true, if_neg Bool.false_ne_true, ihb rfl]

/-- Deciding the constant parts of a condition keeps its meaning, if it has one. -/
theorem test_fold {a : Expr} (htame : a.tame = true) {σ : State} (h : test e a σ ≠ .wrong) :
    test e a.fold σ = test e a σ := by
  cases a with
  | not a =>
    refine test_fold_not (test_fold (a := a) htame fun hwrong => h ?_)
    rw [test, hwrong]
    rfl
  | and a b =>
    simp only [Expr.tame, Bool.and_eq_true, Bool.not_eq_true'] at htame
    obtain hwrong | ⟨x, ha⟩ := test_quiet (e := e) (σ := σ) htame.1.1
    · exact absurd (by rw [test, hwrong]; rfl) h
    · have iha := test_fold htame.2.1 (σ := σ) (by rw [ha]; rintro ⟨⟩)
      refine test_fold_and ha (iha.trans ha) fun hx => test_fold htame.2.2 fun hwrong => h ?_
      rw [test_and b ha, hx, if_pos rfl, hwrong]
  | or a b =>
    simp only [Expr.tame, Bool.and_eq_true, Bool.not_eq_true'] at htame
    obtain hwrong | ⟨x, ha⟩ := test_quiet (e := e) (σ := σ) htame.1.1
    · exact absurd (by rw [test, hwrong]; rfl) h
    · have iha := test_fold htame.2.1 (σ := σ) (by rw [ha]; rintro ⟨⟩)
      refine test_fold_or ha (iha.trans ha) fun hx => test_fold htame.2.2 fun hwrong => h ?_
      rw [test_or b ha, hx, if_neg Bool.false_ne_true, hwrong]
  | compare c a b =>
    refine test_fold_compare c (fun hwrong => h ?_) fun x hx hwrong => h ?_
    · rw [test, hwrong]
      rfl
    · rw [test, hx, Run.result_bind, hwrong]
      rfl
  | isInteger a =>
    refine test_fold_isInteger fun hwrong => h ?_
    rw [test, hwrong]
    rfl
  | _ => rfl

end Running

end JsonSieve
