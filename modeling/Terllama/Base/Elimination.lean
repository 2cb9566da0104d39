import Mathlib.LinearAlgebra.Matrix.ToLinearEquiv
import Mathlib.LinearAlgebra.Matrix.Block
import Mathlib.Tactic.Linarith
import Mathlib.Tactic.Ring

/-!
# Elimination in place

A matrix that is factored in place holds, after `k` columns, the multipliers of these columns below
its diagonal (`lowerPart`) and the rows that are left above it (`upperPart`). Their product is the
matrix that was given, with its rows in another order: an exchange of rows exchanges rows of the
product (`factors_swap`), and the elimination of a column leaves it as it is (`factors_eliminate`).
-/

open Matrix

namespace Terllama

section
variable {K : Type} [Field K] {n : Nat}

/-! ## The factors in place -/

/-- The unit lower triangular matrix of the multipliers of the first `k` columns. -/
def lowerPart (S : Fin n → Fin n → K) (k : Nat) : Matrix (Fin n) (Fin n) K :=
  fun i j => if i = j then 1 else if j < i ∧ j.val < k then S i j else 0

/-- What is left of the rows, without the multipliers of the first `k` columns. -/
def upperPart (S : Fin n → Fin n → K) (k : Nat) : Matrix (Fin n) (Fin n) K :=
  fun i j => if j < i ∧ j.val < k then 0 else S i j

/-- The matrix that is factored, in the order of rows that the exchanges have made. -/
def factors (S : Fin n → Fin n → K) (k : Nat) : Matrix (Fin n) (Fin n) K :=
  lowerPart S k * upperPart S k

/-- A row of the product is what is left of the row and the rows above it, times its multipliers. -/
theorem factors_apply (S : Fin n → Fin n → K) (k : Nat) (i j : Fin n) :
    factors S k i j =
      upperPart S k i j + ∑ m, if m < i ∧ m.val < k then S i m * upperPart S k m j else 0 := by
  have hdiag : ∀ m, lowerPart S k i m * upperPart S k m j =
      (if i = m then upperPart S k m j else 0) +
        if m < i ∧ m.val < k then S i m * upperPart S k m j else 0 := by
    intro m
    unfold lowerPart
    by_cases him : i = m
    · subst him
      simp
    · rw [if_neg him, if_neg him, zero_add]
      split <;> simp
  rw [factors, Matrix.mul_apply, Finset.sum_congr rfl fun m _ => hdiag m, Finset.sum_add_distrib,
    Finset.sum_ite_eq, if_pos (Finset.mem_univ i)]

/-- Nothing is factored yet. -/
theorem factors_zero (S : Fin n → Fin n → K) : factors S 0 = Matrix.of S := by
  ext i j
  rw [factors_apply]
  simp [upperPart]

/-- A row behind the first `k` is the same combination of the rows above for its entries. -/
theorem factors_apply_of_le (S : Fin n → Fin n → K) {k : Nat} {i : Fin n} (hi : k ≤ i.val)
    (j : Fin n) : factors S k i j = (if j.val < k then 0 else S i j) +
      ∑ m, if m.val < k then S i m * upperPart S k m j else 0 := by
  have hlt : ∀ m : Fin n, m < i ∧ m.val < k ↔ m.val < k := by
    intro m
    rw [Fin.lt_def]
    omega
  rw [factors_apply, upperPart]
  simp only [hlt]

/-- An exchange of two rows behind the first `k` exchanges these rows of the product. -/
theorem factors_swap (S : Fin n → Fin n → K) {k : Nat} {a b : Fin n} (ha : k ≤ a.val)
    (hb : k ≤ b.val) (i j : Fin n) :
    factors (fun i => S (Equiv.swap a b i)) k i j = factors S k (Equiv.swap a b i) j := by
  have habove : ∀ m : Fin n, m.val < k → Equiv.swap a b m = m := by
    intro m hm
    refine Equiv.swap_apply_of_ne_of_ne ?_ ?_ <;> rintro rfl <;> omega
  have hupper : ∀ m : Fin n, m.val < k →
      upperPart (fun i => S (Equiv.swap a b i)) k m j = upperPart S k m j := by
    intro m hm
    rw [upperPart, upperPart, habove m hm]
  by_cases hi : k ≤ i.val
  · have hi' : k ≤ (Equiv.swap a b i).val := by
      rw [Equiv.swap_apply_def]
      split_ifs <;> assumption
    rw [factors_apply_of_le _ hi, factors_apply_of_le _ hi']
    refine congrArg _ (Finset.sum_congr rfl fun m _ => ?_)
    split
    · rename_i hm
      rw [hupper m hm]
    · rfl
  · rw [Nat.not_le] at hi
    rw [habove i hi, factors_apply, factors_apply, hupper i hi]
    refine congrArg _ (Finset.sum_congr rfl fun m _ => ?_)
    split
    · rename_i hm
      rw [hupper m hm.2, habove i hi]
    · rfl

/-- The elimination of column `k` below its diagonal entry, with the multipliers in its place. -/
def eliminateColumn (S : Fin n → Fin n → K) (k : Fin n) : Fin n → Fin n → K :=
  fun i j =>
    if k < i then
      if j = k then S i k / S k k
      else if k < j then S i j - S i k / S k k * S k j else S i j
    else S i j

/-- The elimination of a column leaves the product as it is. -/
theorem factors_eliminate {S : Fin n → Fin n → K} {k : Fin n} (hpivot : S k k ≠ 0) :
    factors (eliminateColumn S k) (k + 1) = factors S k := by
  have hkeep : ∀ m : Fin n, m ≤ k → eliminateColumn S k m = S m := by
    intro m hm
    funext j
    exact if_neg (not_lt.2 hm)
  have hupper : ∀ m : Fin n, m ≤ k → ∀ j, upperPart (eliminateColumn S k) (k + 1) m j =
      upperPart S k m j := by
    intro m hm j
    rw [upperPart, upperPart, hkeep m hm]
    refine if_congr ?_ rfl rfl
    rw [Fin.lt_def]
    rw [Fin.le_def] at hm
    omega
  ext i j
  by_cases hi : k < i
  · -- the row has a multiplier more, and what is left of it is less by that multiple of row `k`
    have hmul : eliminateColumn S k i k = S i k / S k k := by
      rw [eliminateColumn, if_pos hi, if_pos rfl]
    have hleft : ∀ m : Fin n, m.val < k.val → eliminateColumn S k i m = S i m := by
      intro m hm
      rw [eliminateColumn, if_pos hi, if_neg (Fin.ne_of_val_ne hm.ne),
        if_neg (not_lt.2 (Fin.le_def.2 hm.le))]
    have hsum : (∑ m : Fin n, if m.val < k.val + 1 then
        eliminateColumn S k i m * upperPart (eliminateColumn S k) (k + 1) m j else 0) =
        (∑ m : Fin n, if m.val < k.val then S i m * upperPart S k m j else 0) +
          S i k / S k k * upperPart S k k j := by
      have hterm : ∀ m : Fin n, (if m.val < k.val + 1 then
          eliminateColumn S k i m * upperPart (eliminateColumn S k) (k + 1) m j else 0) =
          (if m.val < k.val then S i m * upperPart S k m j else 0) +
            if m = k then S i k / S k k * upperPart S k k j else 0 := by
        intro m
        rcases Nat.lt_trichotomy m.val k.val with hm | hm | hm
        · rw [if_pos (by omega), if_pos hm, if_neg (Fin.ne_of_val_ne hm.ne), hleft m hm,
            hupper m (Fin.le_def.2 hm.le), add_zero]
        · obtain rfl := Fin.ext hm
          rw [if_pos (by omega), if_neg (by omega), if_pos rfl, hmul, hupper m le_rfl, zero_add]
        · rw [if_neg (by omega), if_neg (by omega), if_neg (Fin.ne_of_val_ne hm.ne'), add_zero]
      rw [Finset.sum_congr rfl fun m _ => hterm m, Finset.sum_add_distrib, Finset.sum_ite_eq',
        if_pos (Finset.mem_univ k)]
    rw [factors_apply_of_le _ (show k.val + 1 ≤ i.val from hi),
      factors_apply_of_le _ (show k.val ≤ i.val from hi.le), hsum, ← add_assoc, add_right_comm]
    refine congrArg (· + _) ?_
    rcases Nat.lt_trichotomy j.val k.val with hj | hj | hj
    · rw [if_pos (by omega), if_pos hj, upperPart, if_pos ⟨hj, hj⟩, mul_zero, add_zero]
    · obtain rfl := Fin.ext hj
      rw [if_pos (by omega), if_neg (by omega), upperPart, if_neg (by simp), zero_add,
        div_mul_cancel₀ _ hpivot]
    · rw [if_neg (by omega), if_neg (by omega), upperPart, if_neg (by omega), eliminateColumn,
        if_pos hi, if_neg (Fin.ne_of_val_ne hj.ne'), if_pos (Fin.lt_def.2 hj), sub_add_cancel]
  · rw [not_lt] at hi
    rw [factors_apply, factors_apply, hupper i hi]
    refine congrArg _ (Finset.sum_congr rfl fun m _ => ?_)
    have hm : m < i ∧ m.val < k.val + 1 ↔ m < i ∧ m.val < k.val := by
      rw [Fin.lt_def]
      rw [Fin.le_def] at hi
      omega
    simp only [hm]
    split
    · rename_i hlt
      rw [hkeep i hi, hupper m (Fin.le_def.2 hlt.2.le)]
    · rfl

/-! ## Pivots -/

/-- The rows that are left of a matrix have a kernel where a column has no pivot. -/
theorem exists_kernel_of_no_pivot {S : Fin n → Fin n → K} {k : Fin n}
    (hzero : ∀ i, k ≤ i → S i k = 0) : ∃ v ≠ 0, upperPart S k *ᵥ v = 0 := by
  -- the first columns up to `k`, and the identity behind them
  let M : Matrix (Fin n) (Fin n) K := fun i j =>
    if j ≤ k then upperPart S k i j else if i = j then 1 else 0
  have hbelow : ∀ i j : Fin n, j ≤ k → j < i ∨ k ≤ i → upperPart S k i j = 0 := by
    intro i j hj hi
    unfold upperPart
    rcases hj.lt_or_eq with hlt | rfl
    · have hji : j < i := hi.elim id fun hki => hlt.trans_le hki
      rw [if_pos ⟨hji, hlt⟩]
    · rw [if_neg (by simp)]
      exact hzero i (hi.elim le_of_lt id)
  have htri : M.BlockTriangular id := by
    intro i j hji
    by_cases hj : j ≤ k
    · exact (if_pos hj).trans (hbelow i j hj (.inl hji))
    · exact (if_neg hj).trans (if_neg (ne_of_gt hji))
  have hdet : M.det = 0 := by
    rw [Matrix.det_of_isUpperTriangular htri]
    refine Finset.prod_eq_zero (Finset.mem_univ k) ?_
    exact (if_pos le_rfl).trans (hbelow k k le_rfl (.inr le_rfl))
  obtain ⟨v, hv, hMv⟩ := Matrix.exists_mulVec_eq_zero_iff.2 hdet
  have hbehind : ∀ i, k < i → v i = 0 := by
    intro i hi
    have hrow := congrFun hMv i
    rw [Matrix.mulVec, dotProduct, Finset.sum_eq_single i] at hrow
    · have hone : M i i = 1 := (if_neg (not_le.2 hi)).trans (if_pos rfl)
      rwa [hone, one_mul] at hrow
    · intro j _ hji
      by_cases hj : j ≤ k
      · rw [show M i j = 0 from (if_pos hj).trans (hbelow i j hj (.inr hi.le)), zero_mul]
      · rw [show M i j = 0 from (if_neg hj).trans (if_neg (Ne.symm hji)), zero_mul]
    · exact fun h => absurd (Finset.mem_univ i) h
  refine ⟨v, hv, funext fun i => ?_⟩
  rw [← hMv]
  show ∑ j, upperPart S k i j * v j = ∑ j, M i j * v j
  refine Finset.sum_congr rfl fun j _ => ?_
  by_cases hj : j ≤ k
  · rw [show M i j = upperPart S k i j from if_pos hj]
  · rw [hbehind j (not_le.1 hj), mul_zero, mul_zero]

/-! ## Triangular systems -/

/-- A row of the lower factor, with its one on the diagonal. -/
theorem lowerPart_mulVec (S : Fin n → Fin n → K) (y : Fin n → K) (i : Fin n) :
    (lowerPart S n *ᵥ y) i = y i + ∑ j with j < i, S i j * y j := by
  have hterm : ∀ j, lowerPart S n i j * y j =
      (if i = j then y j else 0) + if j < i then S i j * y j else 0 := by
    intro j
    unfold lowerPart
    by_cases hij : i = j
    · subst hij
      simp
    · rw [if_neg hij, if_neg hij, zero_add]
      simp only [j.isLt, and_true, ite_mul, zero_mul]
  rw [Matrix.mulVec, dotProduct, Finset.sum_congr rfl fun j _ => hterm j, Finset.sum_add_distrib,
    Finset.sum_ite_eq, if_pos (Finset.mem_univ i), Finset.sum_filter]

/-- A row of the upper factor. -/
theorem upperPart_mulVec (S : Fin n → Fin n → K) (x : Fin n → K) (i : Fin n) :
    (upperPart S n *ᵥ x) i = S i i * x i + ∑ j with i < j, S i j * x j := by
  have hterm : ∀ j, upperPart S n i j * x j =
      (if i = j then S i j * x j else 0) + if i < j then S i j * x j else 0 := by
    intro j
    unfold upperPart
    rcases lt_trichotomy i j with h | rfl | h
    · rw [if_neg fun hji => absurd hji.1 h.not_gt, if_neg h.ne, if_pos h, zero_add]
    · simp
    · rw [if_pos ⟨h, j.isLt⟩, if_neg h.ne', if_neg h.not_gt, zero_mul, add_zero]
  rw [Matrix.mulVec, dotProduct, Finset.sum_congr rfl fun j _ => hterm j, Finset.sum_add_distrib,
    Finset.sum_ite_eq, if_pos (Finset.mem_univ i), Finset.sum_filter]

/-- Factors with pivots have an inverse. -/
theorem factors_det_ne_zero {S : Fin n → Fin n → K} (hpivot : ∀ i, S i i ≠ 0) :
    (factors S n).det ≠ 0 := by
  have hlower : (lowerPart S n).BlockTriangular OrderDual.toDual := by
    intro i j hij
    have hlt : i < j := hij
    rw [lowerPart, if_neg hlt.ne, if_neg fun h => absurd h.1 hlt.not_gt]
  have hupper : (upperPart S n).BlockTriangular id := by
    intro i j hji
    exact if_pos ⟨hji, j.isLt⟩
  rw [factors, Matrix.det_mul, Matrix.det_of_isLowerTriangular _ hlower,
    Matrix.det_of_isUpperTriangular hupper]
  refine mul_ne_zero (Finset.prod_ne_zero_iff.2 fun i _ => ?_)
    (Finset.prod_ne_zero_iff.2 fun i _ => ?_)
  · rw [lowerPart, if_pos rfl]
    exact one_ne_zero
  · rw [upperPart, if_neg (by simp)]
    exact hpivot i

end

/-! ## Gram matrices -/

section
variable {K ι : Type} [Field K] {n : Nat}

/-- The quadratic form of a Gram matrix is a sum of squares. -/
theorem gram_quadratic (P : Finset ι) (x : Fin n → ι → K) (v : Fin n → K) :
    ∑ i, v i * ∑ j, (∑ p ∈ P, x i p * x j p) * v j = ∑ p ∈ P, (∑ i, v i * x i p) ^ 2 := by
  calc ∑ i, v i * ∑ j, (∑ p ∈ P, x i p * x j p) * v j
      = ∑ i, ∑ j, ∑ p ∈ P, v i * x i p * (v j * x j p) := by
        refine Finset.sum_congr rfl fun i _ => ?_
        rw [Finset.mul_sum]
        refine Finset.sum_congr rfl fun j _ => ?_
        rw [Finset.sum_mul, Finset.mul_sum]
        exact Finset.sum_congr rfl fun p _ => by ring
    _ = ∑ i, ∑ p ∈ P, ∑ j, v i * x i p * (v j * x j p) :=
        Finset.sum_congr rfl fun i _ => Finset.sum_comm
    _ = ∑ p ∈ P, ∑ i, ∑ j, v i * x i p * (v j * x j p) := Finset.sum_comm
    _ = ∑ p ∈ P, (∑ i, v i * x i p) ^ 2 :=
        Finset.sum_congr rfl fun p _ => by rw [sq, Finset.sum_mul_sum]

variable [LinearOrder K] [IsStrictOrderedRing K]

/-- A Gram matrix with a positive ridge has no kernel. -/
theorem ridge_injective {P : Finset ι} {x : Fin n → ι → K} {ridge : K} (hridge : 0 < ridge)
    {v : Fin n → K}
    (h : ∀ i, ∑ j, (∑ p ∈ P, x i p * x j p) * v j + ridge * v i = 0) : v = 0 := by
  have hform : ∑ p ∈ P, (∑ i, v i * x i p) ^ 2 + ridge * ∑ i, v i ^ 2 = 0 := by
    have hzero : ∑ i, v i * (∑ j, (∑ p ∈ P, x i p * x j p) * v j + ridge * v i) = 0 :=
      Finset.sum_eq_zero fun i _ => by rw [h i, mul_zero]
    rw [← hzero, ← gram_quadratic, Finset.mul_sum, ← Finset.sum_add_distrib]
    exact Finset.sum_congr rfl fun i _ => by ring
  have hsquares : 0 ≤ ∑ p ∈ P, (∑ i, v i * x i p) ^ 2 := Finset.sum_nonneg fun p _ => sq_nonneg _
  have hnorm : 0 ≤ ∑ i, v i ^ 2 := Finset.sum_nonneg fun i _ => sq_nonneg _
  have hnone : ∑ i, v i ^ 2 = 0 := by
    have hproduct := mul_nonneg hridge.le hnorm
    have hzero : ridge * ∑ i, v i ^ 2 = 0 := by linarith
    exact (mul_eq_zero.1 hzero).resolve_left hridge.ne'
  funext i
  have hi := (Finset.sum_eq_zero_iff_of_nonneg fun i _ => sq_nonneg (v i)).1 hnone i
    (Finset.mem_univ i)
  exact pow_eq_zero_iff two_ne_zero |>.1 hi

end

/-! ## Sweeps -/

section
variable {ι α : Type} [DecidableEq ι]

/-- A sweep that assigns each index of a list once, from the values at that time. -/
def sweep (g : ι → (ι → α) → α) (l : List ι) (b : ι → α) : ι → α :=
  l.foldl (fun b i => Function.update b i (g i b)) b

theorem sweep_apply_of_notMem {g : ι → (ι → α) → α} {l : List ι} {b : ι → α} {i : ι} (h : i ∉ l) :
    sweep g l b i = b i := by
  induction l generalizing b with
  | nil => rfl
  | cons j l ih =>
    rw [List.mem_cons, not_or] at h
    exact (ih h.2).trans (Function.update_of_ne h.1 _ _)

/-- The value of an index is assigned from the final values of the indices before it in the list, and
the first values of the others. -/
theorem sweep_apply {g : ι → (ι → α) → α} {before behind : List ι} {i : ι} (b : ι → α)
    (h : (before ++ i :: behind).Nodup) : sweep g (before ++ i :: behind) b i =
      g i fun j => if j ∈ before then sweep g (before ++ i :: behind) b j else b j := by
  obtain ⟨-, hbehind, hdisjoint⟩ := List.nodup_append.1 h
  have hi : i ∉ behind := (List.nodup_cons.1 hbehind).1
  have hrun : sweep g (before ++ i :: behind) b =
      sweep g behind (Function.update (sweep g before b) i (g i (sweep g before b))) :=
    List.foldl_append ..
  have hstate : (fun j => if j ∈ before then sweep g (before ++ i :: behind) b j else b j) =
      sweep g before b := by
    funext j
    split
    · rename_i hj
      have hne := hdisjoint j hj
      rw [hrun, sweep_apply_of_notMem fun hmem => hne _ (List.mem_cons_of_mem _ hmem) rfl,
        Function.update_of_ne (hne i (.head _))]
    · rename_i hj
      exact (sweep_apply_of_notMem hj).symm
  rw [hstate, hrun, sweep_apply_of_notMem hi, Function.update_self]

end

end Terllama
