import Terllama.Base.Elimination
import Terllama.Convert.Decompose

/-!
# The linear solves of the decomposition

`lu_factor` and `lu_solve` in exact arithmetic. The factors that it stores in place multiply to the
matrix with its rows exchanged (`luFactor_factored`), and it fails on singular matrices only
(`luFactor_none`), which the ridge rules out for every block that is not zero (`luFactor_ridge`).
The guards of `lu_solve` test the entry that is solved for, where LAPACK tests the one that is
multiplied: a row whose right-hand side is zero is not solved. `luSolve_iff` says when that changes
nothing.
-/

open Matrix

namespace Terllama

/-- Operations without rounding. -/
structure DecomposeOps.Exact {F D : Type} [Field D] [LinearOrder D] (ops : DecomposeOps F D) :
    Prop where
  lit : ∀ q, ops.lit q = q
  absD : ∀ x, ops.absD x = |x|
  addD : ∀ x y, ops.addD x y = x + y
  subD : ∀ x y, ops.subD x y = x - y
  mulD : ∀ x y, ops.mulD x y = x * y
  divD : ∀ x y, ops.divD x y = x / y
  ltD : ∀ x y, ops.ltD x y = true ↔ x < y
  eqD : ∀ x y, ops.eqD x y = true ↔ x = y
  widen_narrow : ∀ x, ops.widen (ops.narrow x) = x
  widen_zero : ops.widen ops.zeroF = 0

section
variable {F D : Type} {ops : DecomposeOps F D} {n : Nat}

/-! ## The passes and the interchanges -/

/-- A pass of `lu_factor`. -/
def luPass (ops : DecomposeOps F D) (state : (Fin n → Fin n → D) × (Fin n → Fin n)) (k : Fin n) :
    Option ((Fin n → Fin n → D) × (Fin n → Fin n)) :=
  let imax := pivotRow ops state.1 k
  let A := swapRows state.1 k imax
  if ops.eqD (A k k) (ops.lit 0) then none
  else some (eliminate ops A k, fun i => if i = k then imax else state.2 i)

theorem luFactor_eq (A : Fin n → Fin n → D) :
    luFactor ops A = ((List.finRange n).take n).foldlM (luPass ops) (A, id) := by
  rw [List.take_of_length_le (by rw [List.length_finRange])]
  rfl

/-- The interchanges of `lu_solve` for the columns `l`. -/
def interchange (l : List (Fin n)) (ipiv : Fin n → Fin n) (b : Fin n → D) : Fin n → D :=
  l.foldl (fun b j => fun i => if i = j then b (ipiv j) else if i = ipiv j then b j else b i) b

theorem interchange_concat (l : List (Fin n)) (k : Fin n) (ipiv : Fin n → Fin n) (b : Fin n → D)
    (i : Fin n) : interchange (l ++ [k]) ipiv b i =
      interchange l ipiv b (Equiv.swap k (ipiv k) i) := by
  rw [interchange, List.foldl_concat, Equiv.swap_apply_def]
  split_ifs <;> rfl

theorem interchange_congr {l : List (Fin n)} {ipiv ipiv' : Fin n → Fin n}
    (h : ∀ j ∈ l, ipiv j = ipiv' j) (b : Fin n → D) :
    interchange l ipiv b = interchange l ipiv' b := by
  induction l generalizing b with
  | nil => rfl
  | cons j l ih =>
    obtain ⟨hj, hl⟩ := List.forall_mem_cons.1 h
    refine (ih hl _).trans ?_
    show interchange l ipiv' (fun i => if i = j then b (ipiv j) else if i = ipiv j then b j else b i) =
      interchange l ipiv' fun i => if i = j then b (ipiv' j) else if i = ipiv' j then b j else b i
    rw [hj]

/-- The interchanges are a permutation. -/
theorem exists_perm_interchange (l : List (Fin n)) (ipiv : Fin n → Fin n) :
    ∃ σ : Equiv.Perm (Fin n), ∀ b : Fin n → D, interchange l ipiv b = b ∘ σ := by
  induction l using List.reverseRecOn with
  | nil => exact ⟨1, fun b => rfl⟩
  | append_singleton l k ih =>
    obtain ⟨σ, hσ⟩ := ih
    refine ⟨(Equiv.swap k (ipiv k)).trans σ, fun b => funext fun i => ?_⟩
    rw [interchange_concat, hσ]
    rfl

theorem swapRows_eq (A : Fin n → Fin n → D) (k l : Fin n) :
    swapRows A k l = fun i => A (Equiv.swap k l i) := by
  funext i
  rw [swapRows, Equiv.swap_apply_def]
  split_ifs <;> rfl

theorem take_finRange_succ {k : Nat} (hk : k < n) :
    (List.finRange n).take (k + 1) = (List.finRange n).take k ++ [⟨k, hk⟩] := by
  have hlen : k < (List.finRange n).length := by rwa [List.length_finRange]
  rw [List.take_succ_eq_append_getElem hlen, List.getElem_finRange]
  rfl

theorem lt_of_mem_take_finRange {k : Nat} {i : Fin n} (h : i ∈ (List.finRange n).take k) :
    i.val < k := by
  obtain ⟨m, hm, rfl⟩ := List.mem_take_iff_getElem.1 h
  rw [List.getElem_finRange]
  exact (lt_min_iff.1 hm).1

end

section
variable {F D : Type} [Field D] {ops : DecomposeOps F D} {n : Nat}

/-! ## The factorization -/

/-- What the passes for the first `k` columns have made of a matrix. -/
structure Factored (A : Fin n → Fin n → D) (k : Nat)
    (state : (Fin n → Fin n → D) × (Fin n → Fin n)) : Prop where
  factors : ∀ i j, factors state.1 k i j =
    interchange ((List.finRange n).take k) state.2 (fun i => A i j) i
  pivots : ∀ i : Fin n, i.val < k → state.1 i i ≠ 0

/-- The product of the factors, times a vector. -/
theorem Factored.mulVec_iff {A : Fin n → Fin n → D} {k : Nat}
    {state : (Fin n → Fin n → D) × (Fin n → Fin n)} (h : Factored A k state) {x b : Fin n → D} :
    Terllama.factors state.1 k *ᵥ x = interchange ((List.finRange n).take k) state.2 b ↔
      Matrix.of A *ᵥ x = b := by
  obtain ⟨σ, hσ⟩ := exists_perm_interchange (D := D) ((List.finRange n).take k) state.2
  have hrow : Terllama.factors state.1 k *ᵥ x = (Matrix.of A *ᵥ x) ∘ σ := by
    funext i
    show ∑ j, Terllama.factors state.1 k i j * x j = ∑ j, A (σ i) j * x j
    refine Finset.sum_congr rfl fun j _ => ?_
    rw [h.factors, hσ]
    rfl
  rw [hrow, hσ]
  exact σ.surjective.injective_comp_right.eq_iff

/-- A matrix with factors has one solution for each right-hand side. -/
theorem Factored.existsUnique {A lu : Fin n → Fin n → D} {ipiv : Fin n → Fin n}
    (h : Factored A n (lu, ipiv)) (b : Fin n → D) : ∃! x, Matrix.of A *ᵥ x = b := by
  have hunit : IsUnit (Terllama.factors lu n) :=
    (Matrix.isUnit_iff_isUnit_det _).2 (factors_det_ne_zero fun i => h.pivots i i.isLt).isUnit
  obtain ⟨x, hx⟩ := Matrix.mulVec_surjective_iff_isUnit.2 hunit
    (interchange ((List.finRange n).take n) ipiv b)
  refine ⟨x, h.mulVec_iff.1 hx, fun x' hx' => ?_⟩
  exact Matrix.mulVec_injective_iff_isUnit.2 hunit ((h.mulVec_iff.2 hx').trans hx.symm)

variable [LinearOrder D]

/-- The row that the search finds is behind the diagonal and has the largest entry of the column. -/
theorem pivotRow_spec (hops : ops.Exact) (A : Fin n → Fin n → D) (k : Fin n) :
    k ≤ pivotRow ops A k ∧ ∀ i, k ≤ i → |A i k| ≤ |A (pivotRow ops A k) k| := by
  have hfold : ∀ (l : List (Fin n)) (best : D × Fin n), best.1 = |A best.2 k| → k ≤ best.2 →
      ∀ best', best' = l.foldl (fun best i =>
        if k < i ∧ ops.ltD best.1 (ops.absD (A i k)) then (ops.absD (A i k), i) else best) best →
      best'.1 = |A best'.2 k| ∧ k ≤ best'.2 ∧ best.1 ≤ best'.1 ∧
        ∀ i ∈ l, k < i → |A i k| ≤ best'.1 := by
    intro l
    induction l with
    | nil =>
      rintro best hval hle _ rfl
      exact ⟨hval, hle, le_rfl, nofun⟩
    | cons i l ih =>
      intro best hval hle best' hbest'
      rw [List.foldl_cons] at hbest'
      by_cases hbetter : k < i ∧ ops.ltD best.1 (ops.absD (A i k))
      · rw [if_pos hbetter, hops.absD] at hbest'
        obtain ⟨hval', hle', hge, hall⟩ := ih _ rfl hbetter.1.le best' hbest'
        have hlt := (hops.ltD _ _).1 hbetter.2
        rw [hops.absD] at hlt
        refine ⟨hval', hle', hlt.le.trans hge, fun j hj hkj => ?_⟩
        rcases List.mem_cons.1 hj with rfl | hj
        · exact hge
        · exact hall j hj hkj
      · rw [if_neg hbetter] at hbest'
        obtain ⟨hval', hle', hge, hall⟩ := ih best hval hle best' hbest'
        refine ⟨hval', hle', hge, fun j hj hkj => ?_⟩
        rcases List.mem_cons.1 hj with rfl | hj
        · have hge' : |A j k| ≤ best.1 := by
            by_contra hlt
            refine hbetter ⟨hkj, (hops.ltD _ _).2 ?_⟩
            rw [hops.absD]
            exact not_le.1 hlt
          exact hge'.trans hge
        · exact hall j hj hkj
  obtain ⟨hval, hle, hge, hall⟩ := hfold (List.finRange n) (ops.absD (A k k), k) (hops.absD _) le_rfl
    _ rfl
  refine ⟨hle, fun i hi => ?_⟩
  rw [pivotRow, ← hval]
  rcases hi.lt_or_eq with hlt | rfl
  · exact hall i (List.mem_finRange i) hlt
  · rw [← hops.absD]
    exact hge

theorem eliminate_eq (hops : ops.Exact) (A : Fin n → Fin n → D) (k : Fin n) :
    eliminate ops A k = eliminateColumn A k := by
  funext i j
  rw [eliminate, eliminateColumn]
  dsimp only
  rw [hops.divD, hops.subD, hops.mulD]

variable [IsStrictOrderedRing D]

/-- A pass keeps it, and fails where the column has no pivot. -/
theorem Factored.pass (hops : ops.Exact) {A : Fin n → Fin n → D} {k : Fin n}
    {state : (Fin n → Fin n → D) × (Fin n → Fin n)} (h : Factored A k state) :
    (∀ state', luPass ops state k = some state' → Factored A (k + 1) state') ∧
      (luPass ops state k = none → ∀ i, k ≤ i → state.1 i k = 0) := by
  obtain ⟨hle, hmax⟩ := pivotRow_spec hops state.1 k
  unfold luPass
  dsimp only
  rw [swapRows_eq]
  constructor
  · intro state' hpass
    split at hpass
    · cases hpass
    · rename_i hzero
      cases hpass
      have hpivot : state.1 (Equiv.swap k (pivotRow ops state.1 k) k) k ≠ 0 := by
        intro heq
        exact hzero ((hops.eqD _ _).2 (heq.trans (by rw [hops.lit, Rat.cast_zero])))
      refine ⟨fun i j => ?_, fun i hi => ?_⟩
      · rw [take_finRange_succ k.isLt, interchange_concat, eliminate_eq hops,
          factors_eliminate (S := fun i => state.1 (Equiv.swap k (pivotRow ops state.1 k) i)) hpivot,
          factors_swap _ le_rfl hle, h.factors]
        dsimp only
        rw [if_pos rfl]
        refine congrFun (interchange_congr (fun m hm => ?_) _) _
        exact (if_neg (Fin.ne_of_val_ne (lt_of_mem_take_finRange hm).ne)).symm
      · have hrow := not_lt.2 (Fin.le_def.2 (Nat.lt_succ_iff.1 hi))
        rw [eliminate_eq hops]
        refine ne_of_eq_of_ne (if_neg hrow) ?_
        rcases Nat.lt_succ_iff_lt_or_eq.1 hi with hlt | heq
        · have hkeep : Equiv.swap k (pivotRow ops state.1 k) i = i := by
            refine Equiv.swap_apply_of_ne_of_ne (Fin.ne_of_val_ne hlt.ne) ?_
            exact Fin.ne_of_val_ne (hlt.trans_le (Fin.le_def.1 hle)).ne
          rw [hkeep]
          exact h.pivots i hlt
        · rw [Fin.ext heq]
          exact hpivot
  · intro hfail i hi
    split at hfail
    · rename_i hzero
      have hpivot : state.1 (Equiv.swap k (pivotRow ops state.1 k) k) k = ops.lit 0 :=
        (hops.eqD _ _).1 hzero
      rw [hops.lit, Rat.cast_zero, Equiv.swap_apply_left] at hpivot
      have habs := hmax i hi
      rw [hpivot, abs_zero] at habs
      exact abs_nonpos_iff.1 habs
    · cases hfail

/-- The passes for the first columns. -/
theorem factored_take (hops : ops.Exact) {A : Fin n → Fin n → D} {k : Nat} (hk : k ≤ n) :
    (∃ state, ((List.finRange n).take k).foldlM (luPass ops) (A, id) = some state ∧
      Factored A k state) ∨
    ((List.finRange n).take k).foldlM (luPass ops) (A, id) = none ∧
      ∃ (j : Fin n) (state : (Fin n → Fin n → D) × (Fin n → Fin n)), Factored A j state ∧
        ∀ i, j ≤ i → state.1 i j = 0 := by
  induction k with
  | zero =>
    refine .inl ⟨(A, id), rfl, ⟨fun i j => ?_, nofun⟩⟩
    rw [factors_zero]
    rfl
  | succ k ih =>
    rw [take_finRange_succ hk, List.foldlM_append]
    rcases ih (Nat.le_of_succ_le hk) with ⟨state, hrun, hstate⟩ | ⟨hrun, hfail⟩
    · rw [hrun]
      have hpass := Factored.pass hops (k := ⟨k, hk⟩) hstate
      cases hnext : luPass ops state ⟨k, hk⟩ with
      | some state' =>
        refine .inl ⟨state', ?_, hpass.1 state' hnext⟩
        rw [Option.bind_eq_bind, Option.bind_some, List.foldlM_cons, hnext]
        rfl
      | none =>
        refine .inr ⟨?_, ⟨k, hk⟩, state, hstate, hpass.2 hnext⟩
        rw [Option.bind_eq_bind, Option.bind_some, List.foldlM_cons, hnext]
        rfl
    · rw [hrun]
      exact .inr ⟨rfl, hfail⟩

/-- The factors of a matrix multiply to it, with its rows exchanged. -/
theorem luFactor_factored (hops : ops.Exact) {A lu : Fin n → Fin n → D} {ipiv : Fin n → Fin n}
    (h : luFactor ops A = some (lu, ipiv)) : Factored A n (lu, ipiv) := by
  rw [luFactor_eq] at h
  rcases factored_take hops (A := A) le_rfl with ⟨state, hrun, hstate⟩ | ⟨hrun, -⟩
  · cases hrun.symm.trans h
    exact hstate
  · cases hrun.symm.trans h

/-- `lu_factor` fails on singular matrices only. -/
theorem luFactor_none (hops : ops.Exact) {A : Fin n → Fin n → D} (h : luFactor ops A = none) :
    ∃ v ≠ 0, Matrix.of A *ᵥ v = 0 := by
  rw [luFactor_eq] at h
  rcases factored_take hops (A := A) le_rfl with ⟨state, hrun, -⟩ | ⟨-, j, state, hstate, hzero⟩
  · cases hrun.symm.trans h
  · obtain ⟨v, hv, hker⟩ := exists_kernel_of_no_pivot hzero
    refine ⟨v, hv, hstate.mulVec_iff.1 ?_⟩
    obtain ⟨σ, hσ⟩ := exists_perm_interchange (D := D) ((List.finRange n).take j) state.2
    rw [hσ, Terllama.factors, ← Matrix.mulVec_mulVec, hker, Matrix.mulVec_zero]
    rfl

end

/-! ## The triangular solves -/

section
variable {F D : Type} {ops : DecomposeOps F D} {n : Nat}

theorem getD_map_finRange {α : Type} (f : Fin n → α) (i : Fin n) (d : α) :
    ((List.finRange n).map f).getD i d = f i := by
  have hi : i.val < ((List.finRange n).map f).length := by
    rw [List.length_map, List.length_finRange]
    exact i.isLt
  rw [List.getD_eq_getElem _ _ hi, List.getElem_map, List.getElem_finRange]
  rfl

/-- The indices before and behind an index. -/
theorem finRange_split (i : Fin n) : ∃ before behind, List.finRange n = before ++ i :: behind ∧
    (∀ j, j ∈ before ↔ j < i) ∧ ∀ j, j ∈ behind ↔ i < j := by
  obtain ⟨before, behind, hsplit⟩ := List.append_of_mem (List.mem_finRange i)
  have hsorted := List.pairwise_lt_finRange n
  rw [hsplit, List.pairwise_append, List.pairwise_cons] at hsorted
  obtain ⟨-, ⟨hbehind, -⟩, hbefore⟩ := hsorted
  have hmem : ∀ j, j ∈ before ∨ j = i ∨ j ∈ behind := by
    intro j
    have hj := List.mem_finRange j
    rwa [hsplit, List.mem_append, List.mem_cons] at hj
  refine ⟨before, behind, hsplit, fun j => ⟨fun hj => hbefore j hj i (.head _), fun hj => ?_⟩,
    fun j => ⟨fun hj => hbehind j hj, fun hj => ?_⟩⟩
  · rcases hmem j with hj' | rfl | hj'
    · exact hj'
    · exact absurd hj (lt_irrefl _)
    · exact absurd (hbehind j hj') hj.not_gt
  · rcases hmem j with hj' | rfl | hj'
    · exact absurd (hbefore j hj' i (.head _)) hj.not_gt
    · exact absurd hj (lt_irrefl _)
    · exact hj'

/-- A guarded pass of a triangular solve, as an assignment. -/
def guarded (ops : DecomposeOps F D) (f : Fin n → (Fin n → D) → D) (i : Fin n) (b : Fin n → D) : D :=
  if ops.eqD (b i) (ops.lit 0) then b i else f i b

theorem guarded_sweep (f : Fin n → (Fin n → D) → D) (l : List (Fin n)) (b : Fin n → D) :
    l.foldl (fun b i => if ops.eqD (b i) (ops.lit 0) then b else Function.update b i (f i b)) b =
      sweep (guarded ops f) l b := by
  unfold sweep guarded
  congr 1
  funext b i
  split
  · exact (Function.update_eq_self i b).symm
  · rfl

/-- The loop over `L y = b`. -/
def forwardSolve (ops : DecomposeOps F D) (A : Fin n → Fin n → D) : (Fin n → D) → Fin n → D :=
  sweep (guarded ops fun i => substitute ops A i ((List.finRange n).filter (· < i))) (List.finRange n)

/-- The loop over `U x = y`. -/
def backwardSolve (ops : DecomposeOps F D) (A : Fin n → Fin n → D) : (Fin n → D) → Fin n → D :=
  sweep (guarded ops fun i b =>
    ops.divD (substitute ops A i ((List.finRange n).filter (i < ·)) b) (A i i))
    (List.finRange n).reverse

theorem luSolve_eq (A : Fin n → Fin n → D) (ipiv : Fin n → Fin n) (b : Fin n → D) :
    luSolve ops A ipiv b =
      backwardSolve ops A (forwardSolve ops A (interchange (List.finRange n) ipiv b)) := by
  rw [luSolve, guarded_sweep, guarded_sweep]
  rfl

variable [Field D] [LinearOrder D]

/-- A pass subtracts the products with the entries of a side. -/
theorem substitute_eq (hops : ops.Exact) (A : Fin n → Fin n → D) (i : Fin n) (p : Fin n → Prop)
    [DecidablePred p] (b : Fin n → D) :
    substitute ops A i ((List.finRange n).filter (p ·)) b = b i - ∑ j with p j, A i j * b j := by
  have hfold : ∀ (l : List (Fin n)) (x : D),
      l.foldl (fun bi j => ops.subD bi (ops.mulD (A i j) (b j))) x =
        x - (l.map fun j => A i j * b j).sum := by
    intro l
    induction l with
    | nil =>
      intro x
      rw [List.map_nil, List.sum_nil, sub_zero]
      rfl
    | cons j l ih =>
      intro x
      rw [List.foldl_cons, ih, hops.subD, hops.mulD, List.map_cons, List.sum_cons, sub_sub]
  have hnodup : ((List.finRange n).filter (p ·)).Nodup := (List.nodup_finRange n).filter _
  rw [substitute, hfold, ← List.sum_toFinset _ hnodup, List.toFinset_filter, List.toFinset_finRange]
  simp only [decide_eq_true_eq]

/-- The rows of the first loop: one with a zero on its right-hand side is not solved. -/
theorem forwardSolve_apply (hops : ops.Exact) (A : Fin n → Fin n → D) (c : Fin n → D) (i : Fin n) :
    forwardSolve ops A c i =
      if c i = 0 then 0 else c i - ∑ j with j < i, A i j * forwardSolve ops A c j := by
  obtain ⟨before, behind, hsplit, hbefore, -⟩ := finRange_split i
  have hnodup := List.nodup_finRange n
  unfold forwardSolve
  rw [hsplit] at hnodup ⊢
  rw [sweep_apply c hnodup]
  simp only [hbefore]
  rw [guarded, ← hsplit, if_neg (lt_irrefl i)]
  simp only [hops.eqD, hops.lit, Rat.cast_zero]
  split
  · assumption
  · rw [substitute_eq hops, if_neg (lt_irrefl i)]
    refine congrArg _ (Finset.sum_congr rfl fun j hj => ?_)
    rw [if_pos (Finset.mem_filter.1 hj).2]

/-- The rows of the second loop. -/
theorem backwardSolve_apply (hops : ops.Exact) (A : Fin n → Fin n → D) (y : Fin n → D) (i : Fin n) :
    backwardSolve ops A y i =
      if y i = 0 then 0 else (y i - ∑ j with i < j, A i j * backwardSolve ops A y j) / A i i := by
  obtain ⟨before, behind, hsplit, -, hbehind⟩ := finRange_split i
  have hnodup := List.nodup_reverse.2 (List.nodup_finRange n)
  have hreverse : (List.finRange n).reverse = behind.reverse ++ i :: before.reverse := by
    rw [hsplit, List.reverse_append, List.reverse_cons, List.append_assoc]
    rfl
  unfold backwardSolve
  rw [hreverse] at hnodup ⊢
  rw [sweep_apply y hnodup]
  simp only [List.mem_reverse, hbehind]
  rw [guarded, ← hreverse, if_neg (lt_irrefl i)]
  simp only [hops.eqD, hops.lit, Rat.cast_zero]
  split
  · assumption
  · rw [substitute_eq hops, hops.divD, if_neg (lt_irrefl i)]
    refine congrArg (· / _) (congrArg _ (Finset.sum_congr rfl fun j hj => ?_))
    rw [if_pos (Finset.mem_filter.1 hj).2]

/-- The guards change nothing of the solve for `x`. The loops keep some of the rows. With the entries
of `U x` of these rows alone, the first loop meets its right-hand side on each row that it keeps; on
the others the right-hand side is zero or met as well, and `x` is zero. -/
def GuardsHarmless (lu : Fin n → Fin n → D) (c x : Fin n → D) : Prop :=
  ∃ kept : Finset (Fin n), ∀ i,
    (i ∈ kept → (upperPart lu n *ᵥ x) i ≠ 0 ∧ c i ≠ 0 ∧
      (lowerPart lu n *ᵥ fun j => if j ∈ kept then (upperPart lu n *ᵥ x) j else 0) i = c i) ∧
    (i ∉ kept → x i = 0 ∧ (c i = 0 ∨
      (lowerPart lu n *ᵥ fun j => if j ∈ kept then (upperPart lu n *ᵥ x) j else 0) i = c i))

/-- The loops find the solution exactly where the guards are harmless. -/
theorem solves_iff (hops : ops.Exact) {lu : Fin n → Fin n → D} (hpivot : ∀ i, lu i i ≠ 0)
    (c x : Fin n → D) :
    backwardSolve ops lu (forwardSolve ops lu c) = x ↔ GuardsHarmless lu c x := by
  have hforward := forwardSolve_apply hops lu c
  have hbackward := backwardSolve_apply hops lu (forwardSolve ops lu c)
  constructor
  · intro hx
    rw [hx] at hbackward
    have hupper : ∀ i, forwardSolve ops lu c i ≠ 0 →
        (upperPart lu n *ᵥ x) i = forwardSolve ops lu c i := by
      intro i hi
      rw [upperPart_mulVec]
      have hrow := hbackward i
      rw [if_neg hi] at hrow
      rw [hrow, mul_div_cancel₀ _ (hpivot i), sub_add_cancel]
    have hkept : (fun j => if j ∈ Finset.univ.filter fun i => forwardSolve ops lu c i ≠ 0 then
        (upperPart lu n *ᵥ x) j else 0) = forwardSolve ops lu c := by
      funext j
      by_cases hj : forwardSolve ops lu c j = 0
      · rw [if_neg (by simpa using hj), hj]
      · rw [if_pos (by simpa using hj), hupper j hj]
    refine ⟨Finset.univ.filter fun i => forwardSolve ops lu c i ≠ 0, fun i => ?_⟩
    rw [hkept, lowerPart_mulVec]
    have hrow := hforward i
    constructor
    · intro hi
      have hne : forwardSolve ops lu c i ≠ 0 := (Finset.mem_filter.1 hi).2
      have hc : c i ≠ 0 := by
        intro hzero
        rw [if_pos hzero] at hrow
        exact hne hrow
      rw [if_neg hc] at hrow
      exact ⟨by rwa [hupper i hne], hc, by rw [hrow, sub_add_cancel]⟩
    · intro hi
      have hzero : forwardSolve ops lu c i = 0 := by simpa using hi
      refine ⟨by rw [hbackward, if_pos hzero], ?_⟩
      by_cases hc : c i = 0
      · exact .inl hc
      · rw [if_neg hc] at hrow
        exact .inr (by rw [hrow, sub_add_cancel])
  · rintro ⟨kept, hkept⟩
    have hy : ∀ i, forwardSolve ops lu c i =
        if i ∈ kept then (upperPart lu n *ᵥ x) i else 0 := by
      intro i
      induction i using WellFoundedLT.induction with
      | ind i ih =>
        have hsum : ∑ j with j < i, lu i j * forwardSolve ops lu c j =
            ∑ j with j < i, lu i j * (if j ∈ kept then (upperPart lu n *ᵥ x) j else 0) :=
          Finset.sum_congr rfl fun j hj => by rw [ih j (Finset.mem_filter.1 hj).2]
        rw [hforward, hsum]
        by_cases hi : i ∈ kept
        · obtain ⟨-, hc, hrow⟩ := (hkept i).1 hi
          rw [lowerPart_mulVec, if_pos hi] at hrow
          rw [if_neg hc, if_pos hi, ← hrow, add_sub_cancel_right]
        · obtain ⟨-, hrow⟩ := (hkept i).2 hi
          rw [if_neg hi]
          split
          · rfl
          · rename_i hc
            have hmet := hrow.resolve_left hc
            rw [lowerPart_mulVec, if_neg hi, zero_add] at hmet
            rw [hmet, sub_self]
    funext i
    induction i using WellFoundedGT.induction with
    | ind i ih =>
      have hsum : ∑ j with i < j, lu i j * backwardSolve ops lu (forwardSolve ops lu c) j =
          ∑ j with i < j, lu i j * x j :=
        Finset.sum_congr rfl fun j hj => by rw [ih j (Finset.mem_filter.1 hj).2]
      rw [hbackward, hsum, hy]
      by_cases hi : i ∈ kept
      · obtain ⟨hne, -, -⟩ := (hkept i).1 hi
        rw [if_pos hi, if_neg hne, upperPart_mulVec, add_sub_cancel_right,
          mul_div_cancel_left₀ _ (hpivot i)]
      · obtain ⟨hx, -⟩ := (hkept i).2 hi
        rw [if_neg hi, if_pos rfl, hx]

end

/-! ## The normal equations -/

section
variable {F D : Type} {ops : DecomposeOps F D} {n : Nat}

/-- The columns of a block, one for each ternary matrix, by their positions. -/
def blockColumn (terms : List (RawTerm D)) (inF start : Nat) (i : Fin terms.length) (p : Nat × Nat) :
    Int :=
  (terms.get i).T.getD (p.1 * inF + start + p.2) 0

/-- The scales of block `b`, one for each term. -/
def blockScales (ops : DecomposeOps F D) (perTerm : List (List F)) (n b : Nat) : Fin n → D :=
  fun i => ops.widen ((perTerm.getD i []).getD b ops.zeroF)

/-- The scales of a block are what `fit_block_scales` computes for it. -/
theorem blockScales_eq {W : List F} {outF inF qk nb : Int} {terms : List (RawTerm D)}
    {perTerm : List (List F)} (hnb : ceilBlocks inF qk = .ok nb)
    (h : fitBlockScales ops W outF inF qk terms = .ok perTerm) {b : Nat} (hb : b < nb.toNat)
    (i : Fin terms.length) : blockScales ops perTerm terms.length b i =
      ops.widen (fitBlock ops W terms outF.toNat inF.toNat (b * qk.toNat)
        (min (b * qk.toNat + qk.toNat) inF.toNat - b * qk.toNat) i) := by
  obtain ⟨nb', hnb', h⟩ := bind_eq_ok.1 h
  cases hnb.symm.trans hnb'
  obtain ⟨_, -, h⟩ := bind_eq_ok.1 h
  obtain ⟨_, -, h⟩ := bind_eq_ok.1 h
  cases h
  rw [blockScales, getD_map_finRange, getD_map_range _ hb]

variable [Field D]

/-- A loop that adds to the sums in each pass. -/
theorem foldl_normal {step : Normal D n → Nat → Normal D n} {u : Nat → Fin n → Fin n → D}
    {v : Nat → Fin n → D} (hstep : ∀ acc a, step acc a =
      ⟨fun i j => acc.AtA i j + u a i j, fun i => acc.Atw i + v a i⟩) (m : Nat) (acc : Normal D n) :
    (List.range m).foldl step acc = ⟨fun i j => acc.AtA i j + ∑ a ∈ Finset.range m, u a i j,
      fun i => acc.Atw i + ∑ a ∈ Finset.range m, v a i⟩ := by
  induction m with
  | zero => simp
  | succ m ih =>
    rw [List.range_succ, List.foldl_concat, ih, hstep]
    simp only [Finset.sum_range_succ, add_assoc]

variable [LinearOrder D]

/-- The sums of a block. -/
theorem blockNormal_eq [CharZero D] (hops : ops.Exact) (W : List F) (terms : List (RawTerm D))
    (outF inF start bw : Nat) : blockNormal ops W terms outF inF start bw =
      ⟨fun i j => ∑ p ∈ Finset.range outF ×ˢ Finset.range bw,
          (blockColumn terms inF start i p : D) * blockColumn terms inF start j p,
        fun i => ∑ p ∈ Finset.range outF ×ˢ Finset.range bw, (blockColumn terms inF start i p : D) *
          ops.widen (W.getD (p.1 * inF + start + p.2) ops.zeroF)⟩ := by
  unfold blockNormal
  rw [foldl_normal fun acc r => foldl_normal (fun acc c => ?_) bw acc]
  · simp only [Finset.sum_product, hops.lit, Rat.cast_zero, zero_add]
    rfl
  · simp only [hops.addD, hops.mulD, hops.lit, Rat.cast_intCast]
    rfl

variable [IsStrictOrderedRing D]

/-- The ridge is the diagonal entry that is largest, times `1e-10`. -/
theorem ridgeMatrix_eq (hops : ops.Exact) (AtA : Fin n → Fin n → D) : ∃ diagMax : D,
    (0 ≤ diagMax ∧ ∀ i, AtA i i ≤ diagMax) ∧
    ridgeMatrix ops AtA = fun i j => AtA i j + if i = j then 1 / 10000000000 * diagMax else 0 := by
  refine ⟨(List.finRange n).foldl
    (fun m i => if ops.ltD m (AtA i i) then AtA i i else m) (ops.lit 0), ?_, ?_⟩
  · have hfold : ∀ (l : List (Fin n)) (m : D),
        m ≤ l.foldl (fun m i => if ops.ltD m (AtA i i) then AtA i i else m) m ∧
        ∀ i ∈ l, AtA i i ≤ l.foldl (fun m i => if ops.ltD m (AtA i i) then AtA i i else m) m := by
      intro l
      induction l with
      | nil => exact fun m => ⟨le_rfl, nofun⟩
      | cons i l ih =>
        intro m
        rw [List.foldl_cons]
        obtain ⟨hle, hall⟩ := ih (if ops.ltD m (AtA i i) then AtA i i else m)
        have hmax : m ≤ (if ops.ltD m (AtA i i) then AtA i i else m) ∧
            AtA i i ≤ if ops.ltD m (AtA i i) then AtA i i else m := by
          split
          · rename_i hlt
            exact ⟨((hops.ltD _ _).1 hlt).le, le_rfl⟩
          · rename_i hlt
            exact ⟨le_rfl, not_lt.1 fun h => hlt ((hops.ltD _ _).2 h)⟩
        refine ⟨hmax.1.trans hle, fun j hj => ?_⟩
        rcases List.mem_cons.1 hj with rfl | hj
        · exact hmax.2.trans hle
        · exact hall j hj
    obtain ⟨hle, hall⟩ := hfold (List.finRange n) (ops.lit 0)
    have hzero : ops.lit 0 = 0 := by rw [hops.lit, Rat.cast_zero]
    exact ⟨hzero.ge.trans hle, fun i => hall i (List.mem_finRange i)⟩
  · funext i j
    rw [ridgeMatrix]
    dsimp only
    rw [hops.addD, hops.mulD, hops.lit, hops.lit]
    split
    · push_cast
      rfl
    · rw [add_zero]

/-- A block with a column that is not zero. -/
def BlockNontrivial (terms : List (RawTerm D)) (outF inF start bw : Nat) : Prop :=
  ∃ i : Fin terms.length, ∃ r < outF, ∃ c < bw, (terms.get i).T.getD (r * inF + start + c) 0 ≠ 0

/-- The normal equations of a block with the ridge, which `fit_block_scales` solves. -/
def ridgeEquations (ops : DecomposeOps F D) (W : List F) (terms : List (RawTerm D))
    (outF inF start bw : Nat) : Normal D terms.length :=
  { blockNormal ops W terms outF inF start bw with
    AtA := ridgeMatrix ops (blockNormal ops W terms outF inF start bw).AtA }

/-- The matrix of a block with a column that is not zero has no kernel. -/
theorem ridgeEquations_injective (hops : ops.Exact) (W : List F) {terms : List (RawTerm D)}
    {outF inF start bw : Nat} (h : BlockNontrivial terms outF inF start bw)
    {v : Fin terms.length → D}
    (hv : Matrix.of (ridgeEquations ops W terms outF inF start bw).AtA *ᵥ v = 0) : v = 0 := by
  obtain ⟨i, r, hr, c, hc, hne⟩ := h
  obtain ⟨diagMax, ⟨-, hmax⟩, hmatrix⟩ := ridgeMatrix_eq hops
    (blockNormal ops W terms outF inF start bw).AtA
  rw [ridgeEquations, hmatrix, blockNormal_eq hops] at hv
  rw [blockNormal_eq hops] at hmax
  have hdiag : 0 < diagMax := by
    refine lt_of_lt_of_le ?_ (hmax i)
    refine Finset.sum_pos' (fun p _ => mul_self_nonneg _) ⟨(r, c), ?_, ?_⟩
    · exact Finset.mem_product.2 ⟨Finset.mem_range.2 hr, Finset.mem_range.2 hc⟩
    · exact mul_self_pos.2 (Int.cast_ne_zero.2 hne)
  have hrows : ∀ i, ∑ j, (∑ p ∈ Finset.range outF ×ˢ Finset.range bw,
      (blockColumn terms inF start i p : D) * blockColumn terms inF start j p) * v j +
        1 / 10000000000 * diagMax * v i = 0 := by
    intro i
    have hrow := congrFun hv i
    rw [Matrix.mulVec, dotProduct] at hrow
    simpa only [Matrix.of_apply, add_mul, ite_mul, zero_mul, Finset.sum_add_distrib,
      Finset.sum_ite_eq, Finset.mem_univ, if_true, Pi.zero_apply] using hrow
  exact ridge_injective (mul_pos (by norm_num) hdiag) hrows

/-- On a block without columns the right-hand side is zero. -/
theorem ridgeEquations_trivial (hops : ops.Exact) (W : List F) {terms : List (RawTerm D)}
    {outF inF start bw : Nat} (h : ¬ BlockNontrivial terms outF inF start bw) :
    (ridgeEquations ops W terms outF inF start bw).Atw = 0 := by
  rw [ridgeEquations, blockNormal_eq hops]
  funext i
  refine Finset.sum_eq_zero fun p hp => ?_
  obtain ⟨hr, hc⟩ := Finset.mem_product.1 hp
  have hzero : blockColumn terms inF start i p = 0 := by
    by_contra hne
    exact h ⟨i, p.1, Finset.mem_range.1 hr, p.2, Finset.mem_range.1 hc, hne⟩
  rw [hzero, Int.cast_zero, zero_mul]

/-! ## The solutions -/

/-- `lu_factor` returns true on the matrix of every block with a column that is not zero, whatever
other columns it has. -/
theorem luFactor_ridge (hops : ops.Exact) (W : List F) (terms : List (RawTerm D))
    (outF inF start bw : Nat) (h : BlockNontrivial terms outF inF start bw) :
    (luFactor ops (ridgeMatrix ops (blockNormal ops W terms outF inF start bw).AtA)).isSome := by
  by_contra hfail
  rw [Option.not_isSome_iff_eq_none] at hfail
  obtain ⟨v, hv, hker⟩ := luFactor_none hops hfail
  exact hv (ridgeEquations_injective hops W h hker)

/-- The vector solves the equations. -/
def Normal.Solves (eqs : Normal D n) (x : Fin n → D) : Prop := Matrix.of eqs.AtA *ᵥ x = eqs.Atw

/-- The solve of factored equations finds the solution exactly where its guards are harmless. -/
theorem luSolve_eq_iff (hops : ops.Exact) {A lu : Fin n → Fin n → D} {ipiv : Fin n → Fin n}
    (h : luFactor ops A = some (lu, ipiv)) {b x : Fin n → D} (hx : Matrix.of A *ᵥ x = b)
    (y : Fin n → D) (hy : y = luSolve ops lu ipiv b) :
    Matrix.of A *ᵥ y = b ↔ GuardsHarmless lu (interchange (List.finRange n) ipiv b) x := by
  have hfactored := luFactor_factored hops h
  rw [← solves_iff hops fun i => hfactored.pivots i i.isLt, ← luSolve_eq, ← hy]
  constructor
  · intro hsolves
    exact (hfactored.existsUnique b).unique hsolves hx
  · intro heq
    rwa [heq]

/-- A factored system has one solution, which `lu_solve` finds exactly where its guards are harmless;
and so for the normal equations of each block, where those that have no factors are solved by their
scales of zero. -/
theorem luSolve_iff (hops : ops.Exact) :
    (∀ {n : Nat} (A lu : Fin n → Fin n → D) (ipiv : Fin n → Fin n) (b : Fin n → D),
      luFactor ops A = some (lu, ipiv) →
        (∃! x, Matrix.of A *ᵥ x = b) ∧ ∀ x, Matrix.of A *ᵥ x = b →
          (luSolve ops lu ipiv b = x ↔
            GuardsHarmless lu (interchange (List.finRange n) ipiv b) x)) ∧
    ∀ (W : List F) (outF inF qk nb : Int) (terms : List (RawTerm D)) (perTerm : List (List F)),
      ceilBlocks inF qk = .ok nb → fitBlockScales ops W outF inF qk terms = .ok perTerm →
      ∀ (b : Nat), b < nb.toNat → ∀ eqs, eqs = ridgeEquations ops W terms outF.toNat inF.toNat
          (b * qk.toNat) (min (b * qk.toNat + qk.toNat) inF.toNat - b * qk.toNat) →
        (eqs.Solves (blockScales ops perTerm terms.length b) ↔
          ∀ lu ipiv x, luFactor ops eqs.AtA = some (lu, ipiv) → eqs.Solves x →
            GuardsHarmless lu (interchange (List.finRange terms.length) ipiv eqs.Atw) x) := by
  constructor
  · intro n A lu ipiv b h
    have hunique := (luFactor_factored hops h).existsUnique b
    refine ⟨hunique, fun x hx => ?_⟩
    rw [← luSolve_eq_iff hops h hx _ rfl]
    constructor
    · intro heq
      rwa [heq]
    · intro hsolves
      exact hunique.unique hsolves hx
  · intro W outF inF qk nb terms perTerm hnb h b hb eqs heqs
    have hscales := funext (blockScales_eq hnb h hb)
    unfold fitBlock at hscales
    have hmatrix : eqs.AtA = ridgeMatrix ops (blockNormal ops W terms outF.toNat inF.toNat
        (b * qk.toNat) (min (b * qk.toNat + qk.toNat) inF.toNat - b * qk.toNat)).AtA := by
      rw [heqs]
      rfl
    have hvector : eqs.Atw = (blockNormal ops W terms outF.toNat inF.toNat
        (b * qk.toNat) (min (b * qk.toNat + qk.toNat) inF.toNat - b * qk.toNat)).Atw := by
      rw [heqs]
      rfl
    rw [← hmatrix, ← hvector] at hscales
    cases hfactor : luFactor ops eqs.AtA with
    | none =>
      -- no column is left, and zero is a solution
      rw [hfactor] at hscales
      have htrivial : ¬ BlockNontrivial terms outF.toNat inF.toNat (b * qk.toNat)
          (min (b * qk.toNat + qk.toNat) inF.toNat - b * qk.toNat) := by
        intro hblock
        obtain ⟨v, hv, hker⟩ := luFactor_none hops hfactor
        rw [heqs] at hker
        exact hv (ridgeEquations_injective hops W hblock hker)
      have hzero : blockScales ops perTerm terms.length b = 0 := by
        rw [hscales]
        exact funext fun i => hops.widen_zero
      refine ⟨fun _ lu ipiv x hsome => (nomatch hsome), fun _ => ?_⟩
      rw [Normal.Solves, hzero, Matrix.mulVec_zero, heqs, ridgeEquations_trivial hops W htrivial]
    | some factored =>
      obtain ⟨lu, ipiv⟩ := factored
      rw [hfactor] at hscales
      simp only [hops.widen_narrow] at hscales
      constructor
      · intro hsolves lu' ipiv' x hsome hx
        cases hsome
        exact (luSolve_eq_iff hops hfactor hx _ hscales).1 hsolves
      · intro hharmless
        obtain ⟨x, hx, -⟩ := (luFactor_factored hops hfactor).existsUnique eqs.Atw
        exact (luSolve_eq_iff hops hfactor hx _ hscales).2 (hharmless lu ipiv x rfl hx)

end

/-! ## Exact rationals -/

/-- Operations on rationals, without rounding. -/
def exactOps : DecomposeOps ℚ ℚ where
  zeroF := 0
  tinyF := 1 / 100000000
  absF x := |x|
  ltF a b := a < b
  subF := (· - ·)
  mulF := (· * ·)
  divF := (· / ·)
  intF v := v
  ldexpF k := 2 ^ k
  widen x := x
  narrow x := x
  lit q := q
  absD x := |x|
  floorD x := ⌊x⌋
  ceilD x := ⌈x⌉
  log2D x := Int.log 2 x
  sqrtD x := x
  addD := (· + ·)
  subD := (· - ·)
  mulD := (· * ·)
  divD := (· / ·)
  ltD a b := a < b
  eqD a b := a = b
  ltInfinity _ := true
  toInt32 x := i32 (truncRat x)
  toInt64 x := i64 (truncRat x)

theorem exactOps_exact : exactOps.Exact where
  lit q := (Rat.cast_id q).symm
  absD _ := rfl
  addD _ _ := rfl
  subD _ _ := rfl
  mulD _ _ := rfl
  divD _ _ := rfl
  ltD _ _ := decide_eq_true_iff
  eqD _ _ := decide_eq_true_iff
  widen_narrow _ := rfl
  widen_zero := rfl

/-- A matrix with an entry below its pivot. -/
def skewMatrix : Fin 2 → Fin 2 → ℚ := ![![2, 0], ![1, 1]]

/-- Its factors and pivots. -/
def skewFactors : (Fin 2 → Fin 2 → ℚ) × (Fin 2 → Fin 2) :=
  (luFactor exactOps skewMatrix).get (by decide +kernel)

theorem luSolve_skewMatrix : ∃ lu ipiv, luFactor exactOps skewMatrix = some (lu, ipiv) ∧
    luSolve exactOps lu ipiv ![2, 3] = ![1, 2] := by
  have hfactor : luFactor exactOps skewMatrix = some (skewFactors.1, skewFactors.2) :=
    (Option.some_get _).symm
  refine ⟨skewFactors.1, skewFactors.2, hfactor, ?_⟩
  have hsolve := ((luSolve_iff exactOps_exact).1 skewMatrix skewFactors.1 skewFactors.2 ![2, 3]
    hfactor).2 ![1, 2] (by decide +kernel)
  refine hsolve.2 ⟨Finset.univ, fun i => ⟨fun _ => ?_, fun h => absurd (Finset.mem_univ i) h⟩⟩
  revert i
  decide +kernel

/-- Two weights, the second of them zero. -/
def zeroWeights : List ℚ := [1, 0]

/-- Two terms that overlap in the second weight. -/
def overlappingTerms : List (RawTerm ℚ) := [⟨1, [1, 1]⟩, ⟨1, [0, 1]⟩]

theorem luFactor_overlappingTerms : (luFactor exactOps (ridgeMatrix exactOps
    (blockNormal exactOps zeroWeights overlappingTerms 1 2 0 2).AtA)).isSome :=
  luFactor_ridge exactOps_exact zeroWeights overlappingTerms 1 2 0 2
    ⟨⟨0, by decide⟩, 0, by decide, 0, by decide, by decide⟩

/-- A right-hand side with a zero is not solved, neither by `lu_solve` nor for the scales of a
block. -/
theorem not_luSolve_skewMatrix : luFactor exactOps skewMatrix = some skewFactors ∧
    Matrix.of skewMatrix *ᵥ ![1, -1] = ![2, 0] ∧
    luSolve exactOps skewFactors.1 skewFactors.2 ![2, 0] = ![1, 0] ∧
    fitBlockScales exactOps zeroWeights 1 2 2 overlappingTerms =
      .ok [[5000000000 / 10000000001], [0]] ∧
    ¬ (ridgeEquations exactOps zeroWeights overlappingTerms 1 2 0 2).Solves
      (blockScales exactOps [[5000000000 / 10000000001], [0]] 2 0) := by
  refine ⟨(Option.some_get _).symm, by decide +kernel, by decide +kernel, by decide +kernel, ?_⟩
  intro hsolves
  have hrow := congrFun hsolves ⟨1, by decide⟩
  revert hrow
  decide +kernel

end Terllama
