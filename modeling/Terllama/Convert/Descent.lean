import Terllama.Base.Runs
import Terllama.Convert.Progress

/-!
# The descent of the refinement

A re-solve of `refine_terms` puts a term in the place of another, for the residual of all the others
(`residualWithout_eq`). The window that it searches ends far above the largest element of that
residual and begins below it. A scale that it replaces at or above the bottom is matched or beaten
(`normSq_resolve_le`), and so is one that leaves nothing better than no term at all; a smaller one
the search does not try, and may do better (`not_refineTerms_descends`).
-/

namespace Terllama

section
variable {K : Type} [Field K] [LinearOrder K] {ops : DecomposeOps K K}

/-! ## The terms as a sum -/

/-- What is left of a residual by one more term. -/
def subTerm (R : List K) (term : RawTerm K) : List K :=
  List.zipWith (fun r t => r - term.a * (t : Int)) R term.T

omit [LinearOrder K] in
theorem subTerm_right_comm (R : List K) (term term' : RawTerm K) :
    subTerm (subTerm R term) term' = subTerm (subTerm R term') term := by
  obtain ⟨a, T⟩ := term
  obtain ⟨a', T'⟩ := term'
  unfold subTerm
  induction R generalizing T T' with
  | nil => rfl
  | cons r R ih =>
    cases T with
    | nil => simp
    | cons t T =>
      cases T' with
      | nil => simp
      | cons t' T' =>
        simp only [List.zipWith_cons_cons]
        rw [sub_right_comm, ih]

omit [LinearOrder K] in
/-- The order of the terms is of no account. -/
theorem residualAfter_perm {terms terms' : List (RawTerm K)} (h : terms.Perm terms') (W : List K) :
    residualAfter W terms = residualAfter W terms' :=
  h.foldl_eq' (fun term _ term' _ R => subTerm_right_comm R term term') W

omit [LinearOrder K] in
/-- A term last. -/
theorem residualAfter_concat (W : List K) (terms : List (RawTerm K)) (term : RawTerm K) :
    residualAfter W (terms ++ [term]) = subTerm (residualAfter W terms) term :=
  List.foldl_concat _ _ _ _

omit [LinearOrder K] in
/-- A term in the place of another. -/
theorem residualAfter_set (W : List K) {terms : List (RawTerm K)} {i : Nat}
    (hi : i < terms.length) (term : RawTerm K) :
    residualAfter W (terms.set i term) = subTerm (residualAfter W (terms.eraseIdx i)) term := by
  rw [residualAfter_perm (List.set_perm_cons_eraseIdx hi term),
    residualAfter_perm (List.perm_append_singleton term (terms.eraseIdx i)).symm,
    residualAfter_concat]

omit [LinearOrder K] in
/-- A term of scale zero takes nothing off. -/
theorem subTerm_zero {R : List K} {term : RawTerm K} (hterm : term.Shape R.length)
    (ha : term.a = 0) : subTerm R term = R := by
  have hlength : (subTerm R term).length = R.length := by
    rw [subTerm, List.length_zipWith, hterm.length, min_self]
  refine List.ext_getElem hlength fun i hi hi' => ?_
  simp only [subTerm, List.getElem_zipWith, ha, zero_mul, sub_zero]

omit [LinearOrder K] in
theorem length_subTerm {R : List K} {term : RawTerm K} (hterm : term.Shape R.length) :
    (subTerm R term).length = R.length := by
  rw [subTerm, List.length_zipWith, hterm.length, min_self]

/-- What the terms other than one leave is what `refine_terms` puts together for it. -/
theorem residualWithout_eq [IsStrictOrderedRing K] [FloorRing K] (hops : ops.ExactTerms)
    {W : List K} {terms : List (RawTerm K)} (hterms : ∀ term ∈ terms, term.Shape W.length)
    (i : Nat) : residualWithout ops W terms i = residualAfter W (terms.eraseIdx i) := by
  have hstep : ∀ {R : List K} {term : RawTerm K}, term.Shape R.length →
      (if ops.eqD term.a (ops.lit 0) then R else residual ops (ops.narrow term.a) term.T R) =
        subTerm R term := by
    intro R term hterm
    split_ifs with hzero
    · rw [hops.eqD, hops.lit, Rat.cast_zero] at hzero
      exact (subTerm_zero hterm hzero).symm
    · rw [residual, hops.narrow, subTerm]
      simp only [hops.subF, hops.mulF, hops.intF]
  -- the positions from `n` on
  have hfold : ∀ (terms : List (RawTerm K)) (n : Nat) (R : List K),
      (∀ term ∈ terms, term.Shape R.length) →
      (terms.zipIdx n).foldl (fun R term =>
        if term.2 = i ∨ ops.eqD term.1.a (ops.lit 0) then R
        else residual ops (ops.narrow term.1.a) term.1.T R) R =
      if i < n then residualAfter R terms else residualAfter R (terms.eraseIdx (i - n)) := by
    intro terms
    induction terms with
    | nil => simp [residualAfter]
    | cons term terms ih =>
      intro n R hterms
      obtain ⟨hterm, hrest⟩ := List.forall_mem_cons.1 hterms
      have hshape : ∀ term' ∈ terms, term'.Shape (subTerm R term).length := by
        rwa [length_subTerm hterm]
      rw [List.zipIdx_cons, List.foldl_cons, ite_or, hstep hterm]
      rcases Nat.lt_trichotomy i n with hlt | rfl | hgt
      · rw [if_neg hlt.ne', ih _ _ hshape, if_pos (hlt.trans (Nat.lt_succ_self n)), if_pos hlt]
        rfl
      · rw [if_pos rfl, ih _ _ hrest, if_pos (Nat.lt_succ_self i), if_neg (lt_irrefl i),
          Nat.sub_self, List.eraseIdx_cons_zero]
      · have hindex : i - n = i - (n + 1) + 1 := by omega
        rw [if_neg hgt.ne, ih _ _ hshape, if_neg (Nat.not_lt.2 hgt), if_neg hgt.not_gt, hindex,
          List.eraseIdx_cons_succ]
        rfl
  exact (hfold terms 0 W hterms).trans (if_neg (Nat.not_lt_zero i))

/-! ## One re-solve -/

variable [IsStrictOrderedRing K] [FloorRing K]

/-- A term that the decomposition builds: a ternary matrix, and a scale that is zero or a power of
two. -/
structure RawTerm.OnGrid (n : Nat) (term : RawTerm K) : Prop extends term.Shape n where
  scale : term.a = 0 ∨ ∃ k : Int, term.a = 2 ^ k

/-- What is put in the place of a term: nothing for a residual that is negligible, and else the best
term of the window. -/
theorem solveTerm_spec (hops : ops.ExactTerms) {R : List K} {term : RawTerm K}
    (h : solveTerm ops R = .ok term) :
    (residualMax ops R < F32.toRat 0x322BCC77 ∧ term = zeroTerm ops R.length) ∨
      ∃ k, IsBest ops R k ∧ term = termAt R k := by
  unfold solveTerm at h
  dsimp only at h
  split at h
  · next htiny =>
    cases h
    rw [hops.ltF, hops.tinyF] at htiny
    exact .inl ⟨htiny, rfl⟩
  · next htiny =>
    rw [hops.ltF, hops.tinyF, not_lt] at htiny
    obtain ⟨k, hk, h⟩ := bind_eq_ok.1 h
    obtain ⟨T, hT, h⟩ := bind_eq_ok.1 h
    obtain ⟨hbest, hternary⟩ := bestExponent_isBest hops htiny hk
    cases hT.symm.trans hternary
    cases h
    rw [hops.ldexpF, hops.widen]
    exact .inr ⟨k, hbest, rfl⟩

theorem solveTerm_onGrid (hops : ops.ExactTerms) {R : List K} {term : RawTerm K}
    (h : solveTerm ops R = .ok term) : term.OnGrid R.length := by
  refine ⟨solveTerm_shape h, ?_⟩
  rcases solveTerm_spec hops h with ⟨-, rfl⟩ | ⟨k, -, rfl⟩
  · left
    rw [zeroTerm, hops.lit, Rat.cast_zero]
  · exact .inr ⟨k, rfl⟩

theorem greedyTerms_onGrid (hops : ops.ExactTerms) {numTerms : Nat} {R : List K}
    {terms : List (RawTerm K)} (h : greedyTerms ops numTerms R = .ok terms) :
    ∀ term ∈ terms, term.OnGrid R.length := by
  induction numTerms generalizing R terms with
  | zero =>
    cases h
    exact nofun
  | succ numTerms ih =>
    rw [greedyTerms] at h
    dsimp only at h
    split at h
    · next htiny =>
      obtain ⟨rest, hrest, h⟩ := bind_eq_ok.1 h
      cases h
      exact List.forall_mem_cons.2 ⟨solveTerm_onGrid hops (if_pos htiny), ih hrest⟩
    · next htiny =>
      obtain ⟨k, hk, h⟩ := bind_eq_ok.1 h
      obtain ⟨T, hT, h⟩ := bind_eq_ok.1 h
      obtain ⟨rest, hrest, h⟩ := bind_eq_ok.1 h
      cases h
      have hfirst : solveTerm ops R = .ok ⟨ops.widen (ops.ldexpF k), T⟩ := by
        simp only [solveTerm, if_neg htiny, hk, hT, ok_bind, pure_eq_ok]
      have hrest := ih hrest
      rw [residual_length (solveTerm_shape hfirst).length] at hrest
      exact List.forall_mem_cons.2 ⟨solveTerm_onGrid hops hfirst, hrest⟩

/-- The best term of the window leaves no more than no term, and no more than any ternary matrix at a
scale of the window. -/
theorem normSq_solveTerm_le (hops : ops.ExactTerms) {R : List K} {term : RawTerm K}
    (h : solveTerm ops R = .ok term) : normSq (subTerm R term) ≤ normSq R := by
  rcases solveTerm_spec hops h with ⟨-, rfl⟩ | ⟨k, hbest, rfl⟩
  · rw [subTerm, zipWith_zeroTerm hops]
  · rw [subTerm, zipWith_termAt]
    exact (hbest.normSqAt_lt hops).le

omit [FloorRing K] in
/-- No ternary matrix leaves less, at its scale, than the nearest one. -/
theorem normSq_map_shrink_le {R : List K} {term : RawTerm K} (hterm : term.Shape R.length)
    (ha : 0 < term.a) : normSq (R.map (shrink term.a)) ≤ normSq (subTerm R term) := by
  obtain ⟨a, T⟩ := term
  refine normSq_le (List.forall₂_iff_get.2 ⟨?_, fun i hi hi' => ?_⟩)
  · rw [List.length_map, length_subTerm hterm]
  · simp only [List.get_eq_getElem, List.getElem_map, subTerm, List.getElem_zipWith]
    exact abs_shrink_le_abs_sub ha _ (hterm.isTernary _ (List.getElem_mem _))

/-- The scales that a re-solve matches or beats: zero, one so large that the nearest matrix is zero,
and one at or above the bottom of the window. -/
def Covered (ops : DecomposeOps K K) (R : List K) (a : K) : Prop :=
  a = 0 ∨ residualMax ops R + residualMax ops R ≤ a ∨
    (F32.toRat 0x322BCC77 : K) ≤ residualMax ops R ∧ exp2 (windowLo (residualMax ops R)) ≤ a

/-- A re-solve leaves no more than the term it replaces. -/
theorem normSq_resolve_le (hops : ops.ExactTerms) {R : List K} {old term : RawTerm K}
    (hold : old.OnGrid R.length) (hcovered : Covered ops R old.a)
    (h : solveTerm ops R = .ok term) : normSq (subTerm R term) ≤ normSq (subTerm R old) := by
  have hmax := (residualMax_spec hops R).1
  rcases hold.scale with hzero | ⟨k, hk⟩
  · rw [subTerm_zero hold.toShape hzero]
    exact normSq_solveTerm_le hops h
  have hscale : (0 : K) < 2 ^ k := zpow_pos two_pos k
  have hold := normSq_map_shrink_le hold.toShape (hk ▸ hscale)
  rw [hk] at hold hcovered
  refine le_trans ?_ hold
  -- where the nearest matrix is zero
  have hlarge : residualMax ops R * 2 ≤ 2 ^ k →
      normSq (subTerm R term) ≤ normSq (R.map (shrink (2 ^ k))) := by
    intro hlarge
    have hsame : R.map (shrink (2 ^ k)) = R := by
      conv_rhs => rw [← List.map_id R]
      refine List.map_congr_left fun r hr => shrink_of_le hscale ?_
      have := hmax r hr
      linarith
    rw [hsame]
    exact normSq_solveTerm_le hops h
  rcases hcovered with hzero | hle | ⟨htiny, hlo⟩
  · exact absurd hzero hscale.ne'
  · exact hlarge (by linarith)
  by_cases hhi : k < windowHi (residualMax ops R)
  · rcases solveTerm_spec hops h with ⟨hlt, -⟩ | ⟨k', hbest, rfl⟩
    · exact absurd htiny (not_le.2 hlt)
    · rw [subTerm, zipWith_termAt]
      exact hbest.least k ((zpow_le_zpow_iff_right₀ one_lt_two).1 hlo) hhi
  · refine hlarge (le_trans ?_ (le_of_windowHi_le (not_lt.1 hhi)))
    have hpos : 0 ≤ residualMax ops R := le_trans (by rw [toRat_tiny]; norm_num) htiny
    linarith

/-! ## Every re-solve -/

/-- A re-solve of `refine_terms`: the terms with another in the place of term `i`. -/
def resolve (ops : DecomposeOps K K) (W : List K) (terms : List (RawTerm K)) (i : Nat) :
    Option (List (RawTerm K)) :=
  (solveTerm ops (residualWithout ops W terms i)).toOption.map (terms.set i)

/-- The terms that the loops of `refine_terms` re-solve, in their order. -/
def sweeps (numTerms maxIter : Nat) : List Nat :=
  (List.range maxIter).flatMap fun _ => List.range numTerms

omit [Field K] [LinearOrder K] [IsStrictOrderedRing K] [FloorRing K] in
theorem refineTerms_eq (W : List K) (numTerms maxIter : Nat) (terms : List (RawTerm K)) :
    (refineTerms ops W numTerms maxIter terms).toOption =
      (sweeps numTerms maxIter).foldlM (resolve ops W) terms := by
  have hstep : ∀ (terms : List (RawTerm K)) (i : Nat),
      (do let term ← solveTerm ops (residualWithout ops W terms i)
          return terms.set i term : Exec _).toOption = resolve ops W terms i := by
    intro terms i
    rw [resolve]
    cases solveTerm ops (residualWithout ops W terms i) <;> rfl
  rw [refineTerms, sweeps, toOption_foldlM]
  simp only [toOption_foldlM, hstep]
  induction List.range maxIter generalizing terms with
  | nil => rfl
  | cons _ iters ih =>
    rw [List.foldlM_cons, List.flatMap_cons, List.foldlM_append]
    exact bind_congr ih

/-- The re-solve of a term matches or beats the scale it has. -/
def CoveredAt (ops : DecomposeOps K K) (W : List K) (terms : List (RawTerm K)) (i : Nat) : Prop :=
  ∀ term, terms[i]? = some term → Covered ops (residualWithout ops W terms i) term.a

/-- The re-solve of a term leaves no larger norm than there was. -/
def NoLarger (ops : DecomposeOps K K) (W : List K) (terms : List (RawTerm K)) (i : Nat) : Prop :=
  ∀ terms', resolve ops W terms i = some terms' →
    normSq (residualAfter W terms') ≤ normSq (residualAfter W terms)

theorem resolve_onGrid (hops : ops.ExactTerms) {W : List K} {terms terms' : List (RawTerm K)}
    {i : Nat} (hterms : ∀ term ∈ terms, term.OnGrid W.length)
    (h : resolve ops W terms i = some terms') : ∀ term ∈ terms', term.OnGrid W.length := by
  obtain ⟨term, hterm, rfl⟩ := Option.map_eq_some_iff.1 h
  have hnew := solveTerm_onGrid hops (toOption_eq_some.1 hterm)
  rw [residualWithout_length fun term hterm => (hterms term hterm).toShape] at hnew
  intro term' hterm'
  rcases List.mem_or_eq_of_mem_set hterm' with hterm' | rfl
  · exact hterms term' hterm'
  · exact hnew

/-- What a re-solve with the condition leaves. -/
theorem noLarger_of_coveredAt (hops : ops.ExactTerms) {W : List K} {terms : List (RawTerm K)}
    {i : Nat} (hterms : ∀ term ∈ terms, term.OnGrid W.length)
    (hcovered : CoveredAt ops W terms i) : NoLarger ops W terms i := by
  intro terms' h
  obtain ⟨term, hterm, rfl⟩ := Option.map_eq_some_iff.1 h
  have hterm := toOption_eq_some.1 hterm
  have hshapes : ∀ term ∈ terms, term.Shape W.length := fun term h => (hterms term h).toShape
  by_cases hi : i < terms.length
  · have hlength : (residualWithout ops W terms i).length = W.length :=
      residualWithout_length hshapes i
    have hold := hterms _ (List.getElem_mem hi)
    have hcovered := hcovered _ (List.getElem?_eq_getElem hi)
    rw [← hlength] at hold
    have hsame := residualAfter_set W hi terms[i]
    rw [List.set_getElem_self] at hsame
    rw [residualAfter_set W hi, hsame, ← residualWithout_eq hops hshapes]
    exact normSq_resolve_le hops hold hcovered hterm
  · rw [List.set_eq_of_length_le (not_lt.1 hi)]

/-- As long as the scales that are replaced are those that a re-solve covers, no re-solve of the
refinement makes the norm larger, and the refined terms are no worse than the greedy ones. -/
theorem refineTerms_descends (hops : ops.ExactTerms) (W : List K) (numTerms maxIter : Nat)
    {terms : List (RawTerm K)} (hgreedy : greedyTerms ops numTerms W = .ok terms)
    (hcovered : EachStep (resolve ops W) (CoveredAt ops W) (sweeps numTerms maxIter) terms) :
    EachStep (resolve ops W) (NoLarger ops W) (sweeps numTerms maxIter) terms ∧
      ∀ terms', refineTerms ops W numTerms maxIter terms = .ok terms' →
        normSq (residualAfter W terms') ≤ normSq (residualAfter W terms) := by
  have hgrid := greedyTerms_onGrid hops hgreedy
  refine ⟨hcovered.of_invariant (fun _ _ _ hI _ h => resolve_onGrid hops hI h)
    (fun _ _ _ hI hC _ => noLarger_of_coveredAt hops hI hC) hgrid, fun terms' h => ?_⟩
  have hrun : (sweeps numTerms maxIter).foldlM (resolve ops W) terms = some terms' := by
    rw [← refineTerms_eq, h]
    rfl
  refine (Always.last (always_of_eachStep (I := fun terms' =>
    (∀ term ∈ terms', term.OnGrid W.length) ∧
      normSq (residualAfter W terms') ≤ normSq (residualAfter W terms)) ?_ ⟨hgrid, le_rfl⟩ hcovered)
    hrun).2
  rintro terms' i terms'' ⟨hI, hle⟩ hC hstep
  exact ⟨resolve_onGrid hops hI hstep, (noLarger_of_coveredAt hops hI hC _ hstep).trans hle⟩

end

/-! ## A re-solve that makes the norm larger -/

/-- Many small weights of one magnitude and a large one. -/
def coarseWeights : List ℚ :=
  List.replicate 34 (-1 / 32) ++ [1 / 4] ++ List.replicate 7 (1 / 16) ++ List.replicate 6 (-3 / 32)

/-- Their two greedy terms. -/
def coarseTerms : List (RawTerm ℚ) :=
  [⟨1 / 16, List.replicate 34 0 ++ List.replicate 8 1 ++ List.replicate 6 (-1)⟩,
    ⟨1 / 8, List.replicate 34 0 ++ [1] ++ List.replicate 13 0⟩]

/-- The first term re-solved: its scale fits the small weights. -/
def fineTerms : List (RawTerm ℚ) :=
  [⟨1 / 32, List.replicate 34 (-1) ++ List.replicate 8 1 ++ List.replicate 6 (-1)⟩,
    ⟨1 / 8, List.replicate 34 0 ++ [1] ++ List.replicate 13 0⟩]

/-- The second one too. -/
def sweptTerms : List (RawTerm ℚ) :=
  [⟨1 / 32, List.replicate 34 (-1) ++ List.replicate 8 1 ++ List.replicate 6 (-1)⟩,
    ⟨1 / 16, List.replicate 34 0 ++ [1] ++ List.replicate 7 0 ++ List.replicate 6 (-1)⟩]

/-- The first one again. The large weight moves the window above its scale. -/
def lostTerms : List (RawTerm ℚ) :=
  [⟨1 / 16, List.replicate 34 0 ++ List.replicate 8 1 ++ List.replicate 6 0⟩,
    ⟨1 / 16, List.replicate 34 0 ++ [1] ++ List.replicate 7 0 ++ List.replicate 6 (-1)⟩]

theorem resolve_coarse : resolve rationalOps coarseWeights coarseTerms 0 = some fineTerms ∧
    resolve rationalOps coarseWeights fineTerms 1 = some sweptTerms ∧
    resolve rationalOps coarseWeights sweptTerms 0 = some lostTerms := by
  decide +kernel

/-- The second sweep over the greedy terms of these weights makes the norm larger. -/
theorem not_refineTerms_descends : greedyTerms rationalOps 2 coarseWeights = .ok coarseTerms ∧
    refineTerms rationalOps coarseWeights 2 1 coarseTerms = .ok sweptTerms ∧
    normSq (residualAfter coarseWeights sweptTerms) <
      normSq (residualAfter coarseWeights lostTerms) ∧
    ¬ EachStep (resolve rationalOps coarseWeights) (NoLarger rationalOps coarseWeights)
      (sweeps 2 2) coarseTerms := by
  obtain ⟨hfirst, hsecond, hthird⟩ := resolve_coarse
  have hlarger : normSq (residualAfter coarseWeights sweptTerms) <
      normSq (residualAfter coarseWeights lostTerms) := by decide +kernel
  refine ⟨by decide +kernel, by decide +kernel, hlarger, fun h => ?_⟩
  have hstep := ((h _ hfirst).2 _ hsecond).2 _ hthird
  exact absurd (hstep.1 _ hthird) (not_le.2 hlarger)

/-- One weight, one term and two sweeps. -/
theorem refineTerms_descends_quarter :
    greedyTerms rationalOps 1 [1 / 4] = .ok [⟨1 / 4, [1]⟩] ∧
    EachStep (resolve rationalOps [1 / 4]) (CoveredAt rationalOps [1 / 4]) (sweeps 1 2)
      [⟨1 / 4, [1]⟩] ∧
    EachStep (resolve rationalOps [1 / 4]) (NoLarger rationalOps [1 / 4]) (sweeps 1 2)
      [⟨1 / 4, [1]⟩] ∧
    ∀ terms', refineTerms rationalOps [1 / 4] 1 2 [⟨1 / 4, [1]⟩] = .ok terms' →
      normSq (residualAfter [1 / 4] terms') ≤ normSq (residualAfter [1 / 4] [⟨1 / 4, [1]⟩]) := by
  have hgreedy : greedyTerms rationalOps 1 [1 / 4] = .ok [⟨1 / 4, [1]⟩] := by decide +kernel
  have hresolve : resolve rationalOps [1 / 4] [⟨1 / 4, [1]⟩] 0 = some [⟨1 / 4, [1]⟩] := by
    decide +kernel
  have hcovered : CoveredAt rationalOps [1 / 4] [⟨1 / 4, [1]⟩] 0 := by
    rintro term hterm
    cases hterm
    exact .inr (.inr (by decide +kernel))
  have hsteps : EachStep (resolve rationalOps [1 / 4]) (CoveredAt rationalOps [1 / 4]) (sweeps 1 2)
      [⟨1 / 4, [1]⟩] := by
    intro terms hterms
    cases hresolve.symm.trans hterms
    refine ⟨hcovered, fun terms hterms => ?_⟩
    exact ⟨hcovered, trivial⟩
  exact ⟨hgreedy, hsteps, refineTerms_descends rationalOps_exactTerms _ 1 2 hgreedy hsteps⟩

end Terllama
