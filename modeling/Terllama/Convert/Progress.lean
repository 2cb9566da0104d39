import Mathlib.Analysis.SpecialFunctions.Log.Base
import Terllama.Base.NearestTernary
import Terllama.Convert.Solve

/-!
# The progress of the greedy decomposition

`greedy_terms` in exact arithmetic (`DecomposeOps.ExactTerms`): the ternary matrix of a term is the
nearest one at its scale, the search for the scale keeps the smallest norm of its window
(`bestExponent_spec`), and the bottom of the window is small enough to take something off the largest
element. `greedyTerms_progress` puts the steps together.
-/

namespace Terllama

/-- Operations without rounding on one type of numbers. Of the logarithms the code uses the integers
around them, and of the norms their order. -/
structure DecomposeOps.ExactTerms {K : Type} [Field K] [LinearOrder K] [FloorRing K]
    (ops : DecomposeOps K K) : Prop extends ops.Exact where
  zeroF : ops.zeroF = 0
  tinyF : ops.tinyF = (F32.toRat 0x322BCC77 : ℚ)
  absF : ∀ x, ops.absF x = |x|
  ltF : ∀ x y, ops.ltF x y = true ↔ x < y
  subF : ∀ x y, ops.subF x y = x - y
  mulF : ∀ x y, ops.mulF x y = x * y
  divF : ∀ x y, ops.divF x y = x / y
  intF : ∀ n, ops.intF n = n
  ldexpF : ∀ k, ops.ldexpF k = 2 ^ k
  widen : ∀ x, ops.widen x = x
  narrow : ∀ x, ops.narrow x = x
  floorD : ∀ x, ops.floorD x = ⌊x⌋
  sqrtD_lt : ∀ x y, 0 ≤ x → 0 ≤ y → (ops.sqrtD x < ops.sqrtD y ↔ x < y)
  ltInfinity : ∀ x, ops.ltInfinity x = true
  floor_log2 : ∀ x, 0 < x → ops.floorD (ops.log2D x) = Int.log 2 x
  ceil_log2 : ∀ x, 0 < x → ops.ceilD (ops.log2D x) = Int.clog 2 x
  toInt32 : ∀ n : Int, ops.toInt32 n = i32 n
  toInt64 : ∀ n : Int, ops.toInt64 n = i64 n

/-- `1e-8f`, exactly. -/
theorem toRat_tiny : F32.toRat 0x322BCC77 = 11258999 / 1125899906842624 := by decide +kernel

section
variable {K : Type} [Field K] [LinearOrder K] [IsStrictOrderedRing K] [FloorRing K]
  {ops : DecomposeOps K K}

/-! ## Rounding -/

/-- The rounding of an absolute value below `2^62`: the two integers around it, and which. -/
theorem torchRound_eq (hops : ops.ExactTerms) {x : K} (hx : |x| < 4611686018427387904) :
    ∃ r : Int, torchRound ops x = .ok (if x < 0 then -r else r) ∧
      (|x| ≤ 1 / 2 → r = 0) ∧ (1 / 2 < |x| → 1 ≤ r) := by
  have hfloor : (⌊|x|⌋ : K) ≤ |x| := Int.floor_le _
  have hceil : |x| < ⌊|x|⌋ + 1 := Int.lt_floor_add_one _
  have hnonneg : 0 ≤ ⌊|x|⌋ := Int.floor_nonneg.2 (abs_nonneg x)
  have hlt : ⌊|x|⌋ < 4611686018427387904 := Int.floor_lt.2 (by exact_mod_cast hx)
  have hwhole : ops.toInt64 (⌊|x|⌋ : K) = .ok ⌊|x|⌋ := by
    rw [hops.toInt64, i64_ok (by omega) (by omega)]
  have hnext : ops.toInt64 ((⌊|x|⌋ : K) + (1 : ℚ)) = .ok (⌊|x|⌋ + 1) := by
    have hcast : ((⌊|x|⌋ : K) + (1 : ℚ)) = ((⌊|x|⌋ + 1 : Int) : K) := by push_cast; ring
    rw [hcast, hops.toInt64, i64_ok (by omega) (by omega)]
  have hlit : ((1 / 2 : ℚ) : K) = 1 / 2 := by push_cast; rfl
  have hhalf : |x| ≤ 1 / 2 → ⌊|x|⌋ = 0 := fun h => by
    rw [Int.floor_eq_zero_iff]
    exact ⟨abs_nonneg x, by linarith⟩
  simp only [torchRound, hops.absD, hops.floorD, hops.subD, hops.ltD, hops.addD, hops.lit, hwhole,
    hnext, hlit, Rat.cast_zero, ok_bind, pure_eq_ok]
  by_cases h₁ : |x| - ⌊|x|⌋ < 1 / 2
  · refine ⟨⌊|x|⌋, if_pos h₁, hhalf, fun h => ?_⟩
    by_contra hzero
    have hz : ⌊|x|⌋ = 0 := by omega
    rw [hz, Int.cast_zero, sub_zero] at h₁
    exact absurd h₁ (not_lt.2 h.le)
  rw [if_neg h₁]
  by_cases h₂ : 1 / 2 < |x| - ⌊|x|⌋
  · refine ⟨⌊|x|⌋ + 1, if_pos h₂, fun h => ?_, fun _ => by omega⟩
    rw [hhalf h, Int.cast_zero, sub_zero] at h₂
    exact absurd h₂ (not_lt.2 h)
  rw [if_neg h₂]
  by_cases h₃ : ⌊|x|⌋ % 2 = 0
  · refine ⟨⌊|x|⌋, if_pos h₃, hhalf, fun h => ?_⟩
    by_contra hzero
    have hz : ⌊|x|⌋ = 0 := by omega
    rw [hz, Int.cast_zero, sub_zero] at h₂
    exact h₂ h
  · refine ⟨⌊|x|⌋ + 1, if_neg h₃, fun h => ?_, fun _ => by omega⟩
    exact absurd (hhalf h) fun hz => h₃ (by rw [hz]; rfl)

/-- The clamped rounding is the nearest ternary value. -/
theorem clampRoundTernary_eq (hops : ops.ExactTerms) {x : K} (hx : |x| < 4611686018427387904) :
    clampRoundTernary ops x = .ok (nearestTernary x) := by
  obtain ⟨r, hr, hzero, hone⟩ := torchRound_eq hops hx
  rw [clampRoundTernary, hr, ok_bind, pure_eq_ok, Except.ok.injEq]
  rcases half_cases x with h | h | h
  · rw [hzero h, nearestTernary_of_le h]
    split <;> rfl
  · have hpos : 0 < x := by linarith
    have hr := hone (by rwa [abs_of_pos hpos])
    rw [if_neg hpos.not_gt, nearestTernary_of_pos h]
    split_ifs <;> omega
  · have hneg : x < 0 := by linarith
    have hr := hone (by rw [abs_of_neg hneg]; linarith)
    rw [if_pos hneg, nearestTernary_of_neg h]
    split_ifs <;> omega

/-! ## One scale -/

/-- The ternary matrix of a scale, for a residual of at most `2^62` times that scale. -/
theorem ternaryOf_eq (hops : ops.ExactTerms) {a : K} {R : List K}
    (hR : ∀ r ∈ R, |r / a| < 4611686018427387904) :
    ternaryOf ops a R = .ok (R.map fun r => nearestTernary (r / a)) := by
  refine mapM_ok fun r hr => ?_
  rw [hops.divF, hops.widen]
  exact clampRoundTernary_eq hops (hR r hr)

omit [IsStrictOrderedRing K] in
/-- What a term of scale `a` leaves of a residual. -/
theorem residual_eq (hops : ops.ExactTerms) (a : K) (R : List K) :
    residual ops a (R.map fun r => nearestTernary (r / a)) R = R.map (shrink a) := by
  rw [residual, List.zipWith_map_right, List.zipWith_self]
  refine List.map_congr_left fun r _ => ?_
  rw [hops.subF, hops.mulF, hops.intF, shrink]

omit [IsStrictOrderedRing K] in
/-- The norm of the code is the root of the sum of the squares. -/
theorem froNorm64_eq (hops : ops.ExactTerms) (d : List K) :
    froNorm64 ops d = ops.sqrtD (normSq d) := by
  have hfold : ∀ (l : List K) (acc : K),
      l.foldl (fun acc x => ops.addD acc (ops.mulD (ops.widen x) (ops.widen x))) acc =
        acc + normSq l := by
    intro l
    induction l with
    | nil =>
      intro acc
      rw [List.foldl_nil, normSq_nil, add_zero]
    | cons x l ih =>
      intro acc
      rw [List.foldl_cons, ih, normSq_cons, hops.addD, hops.mulD, hops.widen]
      ring
  rw [froNorm64, hfold, hops.lit, Rat.cast_zero, zero_add]

/-- The norms are compared as their squares. -/
theorem froNorm64_lt (hops : ops.ExactTerms) (d d' : List K) :
    ops.ltD (froNorm64 ops d) (froNorm64 ops d') = true ↔ normSq d < normSq d' := by
  rw [hops.ltD, froNorm64_eq hops, froNorm64_eq hops,
    hops.sqrtD_lt _ _ (normSq_nonneg d) (normSq_nonneg d')]

omit [IsStrictOrderedRing K] in
/-- The largest magnitude is that of an element, and bounds all others. -/
theorem residualMax_spec (hops : ops.ExactTerms) (R : List K) :
    (∀ r ∈ R, |r| ≤ residualMax ops R) ∧
      (0 < residualMax ops R → ∃ r ∈ R, |r| = residualMax ops R) := by
  have hfold : ∀ (l : List K) (m : K),
      let max := l.foldl (fun rmax r =>
        let v := ops.absF r; if ops.ltF rmax v then v else rmax) m
      m ≤ max ∧ (∀ r ∈ l, |r| ≤ max) ∧ (max = m ∨ ∃ r ∈ l, |r| = max) := by
    intro l
    induction l with
    | nil => exact fun m => ⟨le_rfl, nofun, .inl rfl⟩
    | cons r l ih =>
      intro m
      simp only [List.foldl_cons, hops.ltF, hops.absF, List.forall_mem_cons]
      simp only [hops.ltF, hops.absF] at ih
      split_ifs with hlt
      · obtain ⟨hle, hall, hsome⟩ := ih |r|
        refine ⟨hlt.le.trans hle, ⟨hle, hall⟩, .inr ?_⟩
        rcases hsome with heq | ⟨s, hs, heq⟩
        · exact ⟨r, List.mem_cons_self, heq.symm⟩
        · exact ⟨s, List.mem_cons_of_mem _ hs, heq⟩
      · obtain ⟨hle, hall, hsome⟩ := ih m
        refine ⟨hle, ⟨(not_lt.1 hlt).trans hle, hall⟩, hsome.imp_right ?_⟩
        rintro ⟨s, hs, heq⟩
        exact ⟨s, List.mem_cons_of_mem _ hs, heq⟩
  obtain ⟨-, hall, hsome⟩ := hfold R ops.zeroF
  refine ⟨hall, fun hpos => hsome.resolve_left fun heq => ?_⟩
  rw [residualMax, heq, hops.zeroF] at hpos
  exact lt_irrefl _ hpos

/-! ## The search for the scale -/

/-- The bottom of the window of exponents that is searched for a residual of this magnitude. -/
def windowLo (rmax : K) : Int := Int.log 2 (max (rmax / 3) (1 / 10000000000 : ℚ))

/-- The end of that window. -/
def windowHi (rmax : K) : Int := Int.clog 2 (max (rmax * (3 / 2 : ℚ)) (1 / 10000000000 : ℚ)) + 2

omit [IsStrictOrderedRing K] in
theorem windowLo_eq (rmax : K) :
    windowLo rmax = Int.log 2 (max (rmax / 3) (1 / 10000000000)) := by
  rw [windowLo, show ((1 / 10000000000 : ℚ) : K) = 1 / 10000000000 by push_cast; rfl]

omit [IsStrictOrderedRing K] in
theorem windowHi_eq (rmax : K) :
    windowHi rmax = Int.clog 2 (max (rmax * (3 / 2)) (1 / 10000000000)) + 2 := by
  rw [windowHi, show ((1 / 10000000000 : ℚ) : K) = 1 / 10000000000 by push_cast; rfl,
    show ((3 / 2 : ℚ) : K) = 3 / 2 by push_cast; rfl]

/-- The square of the norm that a term of scale `2 ^ k` leaves. -/
def normSqAt (R : List K) (k : Int) : K := normSq (R.map (shrink (exp2 k)))

/-- A pass of the search keeps the exponent of the smaller norm. -/
theorem tryExponent_eq (hops : ops.ExactTerms) {R : List K} {k : Int}
    (hR : ∀ r ∈ R, |r / 2 ^ k| < 4611686018427387904) (best : Option K × Int) :
    tryExponent ops R best k = .ok
      (if (match best.1 with
          | none => true
          | some e => ops.ltD (ops.sqrtD (normSqAt R k)) e) then
        (some (ops.sqrtD (normSqAt R k)), k) else best) := by
  rw [tryExponent]
  simp only [hops.ldexpF, ternaryOf_eq hops hR, ok_bind, residual_eq hops, froNorm64_eq hops,
    hops.ltInfinity]
  rfl

omit [Field K] [IsStrictOrderedRing K] [FloorRing K] in
/-- `std::max`. -/
theorem maxD_eq (hlt : ∀ x y, ops.ltD x y = true ↔ x < y) (x y : K) : maxD ops x y = max x y := by
  rw [maxD]
  split_ifs with h
  · exact (max_eq_right ((hlt x y).1 h).le).symm
  · exact (max_eq_left (not_lt.1 fun hxy => h ((hlt x y).2 hxy))).symm

theorem log_le_clog {x : K} (hx : 0 < x) : Int.log 2 x ≤ Int.clog 2 x := by
  have h := (Int.zpow_log_le_self one_lt_two hx).trans (Int.self_le_zpow_clog one_lt_two x)
  rwa [Nat.cast_ofNat, zpow_le_zpow_iff_right₀ one_lt_two] at h

/-- The window holds two exponents at least, for any magnitude. -/
theorem windowLo_le_windowHi {rmax : K} (h : 0 ≤ rmax) : windowLo rmax + 2 ≤ windowHi rmax := by
  have hle : max (rmax / 3) (1 / 10000000000) ≤ max (rmax * (3 / 2)) (1 / 10000000000) :=
    max_le_max (by linarith) le_rfl
  have hlog := Int.log_mono_right (b := 2) (lt_max_of_lt_right (by norm_num)) hle
  have hclog := log_le_clog (show 0 < max (rmax * (3 / 2)) (1 / 10000000000) from
    lt_max_of_lt_right (by norm_num))
  rw [windowLo_eq, windowHi_eq]
  omega

/-- The bottom of the window, for a residual that is not negligible: the largest element is at least
three and less than six times that scale. -/
theorem windowLo_spec {rmax : K} (h : (F32.toRat 0x322BCC77 : K) ≤ rmax) :
    (2 : K) ^ windowLo rmax * 3 ≤ rmax ∧ rmax < 2 ^ windowLo rmax * 6 := by
  rw [toRat_tiny] at h
  push_cast at h
  have hpos : 0 < max (rmax / 3) (1 / 10000000000) := lt_max_of_lt_right (by norm_num)
  have hmax : max (rmax / 3) (1 / 10000000000) = rmax / 3 := max_eq_left (by linarith)
  have hlo := Int.zpow_log_le_self one_lt_two hpos
  have hhi := Int.lt_zpow_succ_log_self one_lt_two (max (rmax / 3) (1 / 10000000000))
  rw [Nat.cast_ofNat, zpow_add_one₀ two_ne_zero] at hhi
  rw [Nat.cast_ofNat] at hlo
  rw [windowLo_eq]
  rw [hmax] at hlo hhi ⊢
  constructor <;> linarith

/-- Above the window, the scale is at least six times the largest element. -/
theorem le_of_windowHi_le {rmax : K} {k : Int} (hk : windowHi rmax ≤ k) : rmax * 6 ≤ 2 ^ k := by
  have hclog := Int.self_le_zpow_clog one_lt_two (max (rmax * (3 / 2)) (1 / 10000000000))
  rw [Nat.cast_ofNat] at hclog
  have hpow : (2 : K) ^ windowHi rmax =
      2 ^ Int.clog 2 (max (rmax * (3 / 2)) (1 / 10000000000)) * 4 := by
    rw [windowHi_eq, zpow_add₀ two_ne_zero]
    norm_num
  have hle := zpow_le_zpow_right₀ (show (1 : K) ≤ 2 by norm_num) hk
  have hmax := le_max_left (rmax * (3 / 2)) (1 / 10000000000)
  linarith

/-- What the search has found after the exponents below `k`. -/
structure BestBelow (ops : DecomposeOps K K) (R : List K) (lo k : Int) (best : Option K × Int) :
    Prop where
  lo_le : lo ≤ best.2
  lt : best.2 < k
  norm : best.1 = some (ops.sqrtD (normSqAt R best.2))
  least : ∀ k', lo ≤ k' → k' < k → normSqAt R best.2 ≤ normSqAt R k'

omit [FloorRing K] in
theorem normSqAt_nonneg (R : List K) (k : Int) : 0 ≤ normSqAt R k := normSq_nonneg _

/-- A pass of the search, after the first. -/
theorem BestBelow.step (hops : ops.ExactTerms) {R : List K} {lo k : Int} {best : Option K × Int}
    (h : BestBelow ops R lo k best) (hR : ∀ r ∈ R, |r / 2 ^ k| < 4611686018427387904) :
    ∃ best', tryExponent ops R best k = .ok best' ∧ BestBelow ops R lo (k + 1) best' := by
  refine ⟨_, tryExponent_eq hops hR best, ?_⟩
  have hlo := h.lo_le
  have hlt := h.lt
  have hbetter : ops.ltD (ops.sqrtD (normSqAt R k)) (ops.sqrtD (normSqAt R best.2)) = true ↔
      normSqAt R k < normSqAt R best.2 := by
    rw [hops.ltD, hops.sqrtD_lt _ _ (normSqAt_nonneg R k) (normSqAt_nonneg R best.2)]
  simp only [h.norm]
  split_ifs with hless
  · rw [hbetter] at hless
    refine ⟨hlo.trans hlt.le, Int.lt_succ k, rfl, fun k' hk' hlt' => ?_⟩
    rcases Int.lt_or_eq_of_le (Int.lt_add_one_iff.1 hlt') with hlt' | rfl
    · exact hless.le.trans (h.least k' hk' hlt')
    · exact le_rfl
  · rw [hbetter] at hless
    refine ⟨hlo, by omega, h.norm, fun k' hk' hlt' => ?_⟩
    rcases Int.lt_or_eq_of_le (Int.lt_add_one_iff.1 hlt') with hlt' | rfl
    · exact h.least k' hk' hlt'
    · exact not_lt.1 hless

/-- The search over a window that is not empty finds the least norm of it. -/
theorem bestBelow_search (hops : ops.ExactTerms) {R : List K} {lo hi : Int} (hlt : lo < hi)
    (hR : ∀ k, lo ≤ k → ∀ r ∈ R, |r / 2 ^ k| < 4611686018427387904) :
    ∃ best, (List.range (hi - lo).toNat).foldlM
        (fun best (i : Nat) => tryExponent ops R best (lo + i)) (none, lo) = .ok best ∧
      BestBelow ops R lo hi best := by
  obtain ⟨best, hrun, hbest⟩ : ∃ best, (List.range (hi - lo).toNat).foldlM
      (fun best (i : Nat) => tryExponent ops R best (lo + i)) (none, lo) = .ok best ∧
      (((hi - lo).toNat = 0 → best = (none, lo)) ∧
        (0 < (hi - lo).toNat → BestBelow ops R lo (lo + (hi - lo).toNat) best)) := by
    refine foldlM_range_total (I := fun i best =>
      (i = 0 → best = (none, lo)) ∧ (0 < i → BestBelow ops R lo (lo + i) best))
      ⟨fun _ => rfl, fun h => absurd h (lt_irrefl 0)⟩ ?_
    rintro i - best ⟨hfirst, hrest⟩
    have hcast : lo + ((i + 1 : Nat) : Int) = lo + i + 1 := by push_cast; ring
    rcases Nat.eq_zero_or_pos i with rfl | hi
    · refine ⟨_, tryExponent_eq hops (hR _ (by omega)) best, fun h => absurd h (by omega), ?_⟩
      rintro -
      rw [hfirst rfl, if_pos rfl]
      refine ⟨by simp, by simp, rfl, fun k' hk' hlt' => ?_⟩
      have heq : k' = lo + (0 : Nat) := by omega
      rw [heq]
    · obtain ⟨best', hrun, hbest'⟩ := (hrest hi).step hops (hR _ (by omega))
      rw [← hcast] at hbest'
      exact ⟨best', hrun, fun h => absurd h (by omega), fun _ => hbest'⟩
  have hend := hbest.2 (by omega)
  rw [show lo + ((hi - lo).toNat : Int) = hi by omega] at hend
  exact ⟨best, hrun, hend⟩

/-- The search returns where the ends of its window are `int`s, and what it returns is in the window
and leaves no larger norm than any other exponent of it. -/
theorem bestExponent_spec (hops : ops.ExactTerms) {R : List K} {rmax : K}
    (hR : ∀ r ∈ R, |r| ≤ rmax) (hrmax : (F32.toRat 0x322BCC77 : K) ≤ rmax) :
    (-2147483648 ≤ windowLo rmax ∧ windowHi rmax ≤ 2147483647 →
      ∃ k, bestExponent ops R rmax = .ok k) ∧
    ∀ k, bestExponent ops R rmax = .ok k → windowLo rmax ≤ k ∧ k < windowHi rmax ∧
      ∀ k', windowLo rmax ≤ k' → k' < windowHi rmax → normSqAt R k ≤ normSqAt R k' := by
  obtain ⟨hlo, hlt6⟩ := windowLo_spec hrmax
  have hnonneg : 0 ≤ rmax := le_trans (by rw [toRat_tiny]; norm_num) hrmax
  have hwindow := windowLo_le_windowHi hnonneg
  have hquot : ∀ k, windowLo rmax ≤ k → ∀ r ∈ R, |r / 2 ^ k| < 4611686018427387904 := by
    intro k hk r hr
    have hpow := zpow_le_zpow_right₀ (show (1 : K) ≤ 2 by norm_num) hk
    have hpos : (0 : K) < 2 ^ k := zpow_pos two_pos k
    rw [abs_div, abs_of_pos hpos, div_lt_iff₀ hpos]
    have := hR r hr
    linarith
  have hrun : bestExponent ops R rmax = (do
      let lo ← i32 (windowLo rmax)
      let hi ← i32 (windowHi rmax - 2)
      let hi ← i32 (hi + 2)
      let best ← (List.range (hi - lo).toNat).foldlM
        (fun best (i : Nat) => tryExponent ops R best (lo + i)) (none, lo)
      return best.2) := by
    have hthird : ((3 : ℚ) : K) = 3 := by push_cast; rfl
    have htenth : ((1 / 10000000000 : ℚ) : K) = 1 / 10000000000 := by push_cast; rfl
    have hscale : ((3 / 2 : ℚ) : K) = 3 / 2 := by push_cast; rfl
    simp only [bestExponent, hops.widen, hops.divD, hops.mulD, hops.lit, hthird, htenth, hscale,
      maxD_eq hops.ltD, hops.floor_log2 _ (lt_max_of_lt_right (show (0 : K) < 1 / 10000000000 by
        norm_num)), hops.ceil_log2 _ (lt_max_of_lt_right (show (0 : K) < 1 / 10000000000 by
        norm_num)), hops.toInt32, windowLo_eq, windowHi_eq, add_sub_cancel_right]
  obtain ⟨best, hsearch, hbest⟩ := bestBelow_search hops
    (show windowLo rmax < windowHi rmax by omega) hquot
  constructor
  · rintro ⟨hmin, hmax⟩
    refine ⟨best.2, ?_⟩
    have hi₁ : i32 (windowHi rmax - 2) = .ok (windowHi rmax - 2) := i32_ok (by omega) (by omega)
    have hi₂ : i32 (windowHi rmax) = .ok (windowHi rmax) := i32_ok (by omega) hmax
    rw [hrun, i32_ok hmin (by omega), ok_bind, hi₁, ok_bind, sub_add_cancel, hi₂, ok_bind, hsearch]
    rfl
  · intro k hk
    rw [hrun] at hk
    obtain ⟨_, hlo', hk⟩ := bind_eq_ok.1 hk
    obtain ⟨_, hhi', hk⟩ := bind_eq_ok.1 hk
    obtain ⟨_, hhi'', hk⟩ := bind_eq_ok.1 hk
    obtain ⟨rfl, -⟩ := i32_eq_ok.1 hlo'
    obtain ⟨rfl, -⟩ := i32_eq_ok.1 hhi'
    obtain ⟨rfl, -⟩ := i32_eq_ok.1 hhi''
    rw [sub_add_cancel, hsearch] at hk
    cases hk
    exact ⟨hbest.lo_le, hbest.lt, hbest.least⟩

/-- The ends of the window are `int`s for every magnitude of a `float`. -/
theorem window_int {rmax : K} (hrmax : (F32.toRat 0x322BCC77 : K) ≤ rmax)
    (hlt : rmax < 340282366920938463463374607431768211456) :
    -2147483648 ≤ windowLo rmax ∧ windowHi rmax ≤ 2147483647 := by
  constructor
  · by_contra hlow
    have hpow := zpow_le_zpow_right₀ (show (1 : K) ≤ 2 by norm_num)
      (show windowLo rmax ≤ -40 by omega)
    have hspec := (windowLo_spec hrmax).2
    rw [toRat_tiny] at hrmax
    push_cast at hrmax
    norm_num at hpow
    linarith
  · have hle : max (rmax * (3 / 2)) (1 / 10000000000) ≤ ((2 : Nat) : K) ^ (129 : Int) := by
      refine max_le ?_ ?_
      · norm_num
        linarith
      · norm_num
    rw [Int.le_zpow_iff_clog_le one_lt_two (lt_max_of_lt_right (by norm_num))] at hle
    rw [windowHi_eq]
    omega

/-! ## One term -/

/-- The term of scale `2 ^ k` for a residual. -/
def termAt (R : List K) (k : Int) : RawTerm K :=
  ⟨exp2 k, R.map fun r => nearestTernary (r / exp2 k)⟩

/-- An exponent of the window for a residual that leaves no larger norm than the others. -/
structure IsBest (ops : DecomposeOps K K) (R : List K) (k : Int) : Prop where
  notTiny : (F32.toRat 0x322BCC77 : K) ≤ residualMax ops R
  lo_le : windowLo (residualMax ops R) ≤ k
  least : ∀ k', windowLo (residualMax ops R) ≤ k' → k' < windowHi (residualMax ops R) →
    normSqAt R k ≤ normSqAt R k'

/-- What a search that returns has found, and the ternary matrix at its scale. -/
theorem bestExponent_isBest (hops : ops.ExactTerms) {R : List K} {k : Int}
    (htiny : (F32.toRat 0x322BCC77 : K) ≤ residualMax ops R)
    (hk : bestExponent ops R (residualMax ops R) = .ok k) :
    IsBest ops R k ∧ ternaryOf ops (ops.ldexpF k) R = .ok (termAt R k).T := by
  have hmax := (residualMax_spec hops R).1
  obtain ⟨hlo, -, hleast⟩ := (bestExponent_spec hops hmax htiny).2 k hk
  refine ⟨⟨htiny, hlo, hleast⟩, ?_⟩
  rw [hops.ldexpF]
  refine ternaryOf_eq hops fun r hr => ?_
  have hpow := zpow_le_zpow_right₀ (show (1 : K) ≤ 2 by norm_num) hlo
  have hpos : (0 : K) < 2 ^ k := zpow_pos two_pos k
  rw [abs_div, abs_of_pos hpos, div_lt_iff₀ hpos]
  have hr := hmax r hr
  have hlt := (windowLo_spec htiny).2
  linarith

/-- The best term takes something off the residual. -/
theorem IsBest.normSqAt_lt (hops : ops.ExactTerms) {R : List K} {k : Int} (h : IsBest ops R k) :
    normSqAt R k < normSq R := by
  have htiny : (0 : K) < F32.toRat 0x322BCC77 := by rw [toRat_tiny]; norm_num
  have hpos := htiny.trans_le h.notTiny
  have hwindow := windowLo_le_windowHi hpos.le
  refine (h.least _ le_rfl (by omega)).trans_lt ?_
  -- the bottom of the window is less than twice the largest element
  obtain ⟨r, hr, hmax⟩ := (residualMax_spec hops R).2 hpos
  have hbottom := (windowLo_spec h.notTiny).1
  have hscale : (0 : K) < 2 ^ windowLo (residualMax ops R) := zpow_pos two_pos _
  refine normSq_map_lt (fun r _ => abs_shrink_le hscale r) ⟨r, hr, abs_shrink_lt hscale ?_⟩
  rw [hmax]
  linarith

/-! ## All terms -/

/-- `W - sum of a_t * T_t`. -/
def residualAfter (W : List K) (terms : List (RawTerm K)) : List K :=
  terms.foldl (fun R term => List.zipWith (fun r t => r - term.a * (t : Int)) R term.T) W

omit [IsStrictOrderedRing K] in
/-- The term of a residual that is negligible leaves it as it is. -/
theorem zipWith_zeroTerm (hops : ops.ExactTerms) (R : List K) :
    List.zipWith (fun r t => r - (zeroTerm ops R.length).a * (t : Int)) R
      (zeroTerm ops R.length).T = R := by
  have hmap : ∀ R : List K, List.zipWith (fun r (t : Int) => r - ops.lit 0 * t) R
      (List.replicate R.length 0) = R := by
    intro R
    induction R with
    | nil => rfl
    | cons r R ih =>
      rw [List.length_cons, List.replicate_succ, List.zipWith_cons_cons, ih, hops.lit,
        Rat.cast_zero, zero_mul, sub_zero]
  exact hmap R

omit [IsStrictOrderedRing K] [FloorRing K] in
/-- What the term of scale `2 ^ k` leaves. -/
theorem zipWith_termAt (R : List K) (k : Int) :
    List.zipWith (fun r t => r - (termAt R k).a * (t : Int)) R (termAt R k).T =
      R.map (shrink (2 ^ k)) := by
  rw [termAt, List.zipWith_map_right, List.zipWith_self]
  rfl

/-- What a step of the loop makes of a residual: no element grows, and the norm falls where the
largest element is not below `1e-8`. -/
structure Progress (R R' : List K) : Prop where
  shrinks : List.Forall₂ (fun r' r => |r'| ≤ |r|) R' R
  falls : (∃ r ∈ R, 1 / 100000000 ≤ |r|) → normSq R' < normSq R

/-- A step of the loop: its term, what it leaves, and the loop on that. -/
theorem greedyTerms_step (hops : ops.ExactTerms) {R : List K}
    (hR : ∀ r ∈ R, |r| < 340282366920938463463374607431768211456) (numTerms : Nat) :
    ∃ term : RawTerm K, term.Shape R.length ∧
      greedyTerms ops (numTerms + 1) R = (do
        let rest ← greedyTerms ops numTerms (residualAfter R [term])
        return term :: rest) ∧ Progress R (residualAfter R [term]) := by
  obtain ⟨hmax, hattained⟩ := residualMax_spec hops R
  by_cases htiny : ops.ltF (residualMax ops R) ops.tinyF = true
  · refine ⟨zeroTerm ops R.length, zeroTerm_shape _, ?_, ?_⟩
    · rw [greedyTerms, if_pos htiny, residualAfter, List.foldl_cons, List.foldl_nil,
        zipWith_zeroTerm hops]
    · rw [residualAfter, List.foldl_cons, List.foldl_nil, zipWith_zeroTerm hops]
      refine ⟨List.forall₂_same.2 fun _ _ => le_rfl, ?_⟩
      rintro ⟨r, hr, hlarge⟩
      rw [hops.ltF, hops.tinyF, toRat_tiny] at htiny
      push_cast at htiny
      have hr := hmax r hr
      linarith
  · have hnotTiny : (F32.toRat 0x322BCC77 : K) ≤ residualMax ops R := by
      rwa [hops.ltF, hops.tinyF, not_lt] at htiny
    have hpos : 0 < residualMax ops R := lt_of_lt_of_le (by rw [toRat_tiny]; norm_num) hnotTiny
    have hlt : residualMax ops R < 340282366920938463463374607431768211456 := by
      obtain ⟨r, hr, heq⟩ := hattained hpos
      rw [← heq]
      exact hR r hr
    obtain ⟨k, hk⟩ := (bestExponent_spec hops hmax hnotTiny).1 (window_int hnotTiny hlt)
    obtain ⟨hbest, hT⟩ := bestExponent_isBest hops hnotTiny hk
    have hscale : (0 : K) < 2 ^ k := zpow_pos two_pos k
    have hleft : residualAfter R [termAt R k] = R.map (shrink (2 ^ k)) := zipWith_termAt R k
    have hwiden : ops.widen (ops.ldexpF k) = (termAt R k).a := by rw [hops.widen, hops.ldexpF]; rfl
    have hresidual : residual ops (ops.ldexpF k) (termAt R k).T R = R.map (shrink (2 ^ k)) := by
      rw [hops.ldexpF]
      exact residual_eq hops (2 ^ k) R
    refine ⟨termAt R k, ?_, ?_, ?_⟩
    · exact ternaryOf_shape (termAt R k).a hT
    · rw [hleft, greedyTerms, if_neg htiny, hk, ok_bind]
      simp only [hT, hresidual, hwiden, ok_bind]
    · rw [hleft]
      exact ⟨List.forall₂_map_left_iff.2 (List.forall₂_same.2 fun r _ => abs_shrink_le hscale r),
        fun _ => hbest.normSqAt_lt hops⟩

/-- The decomposition returns for every matrix of `float`s. Its loop holds the residual of the terms
so far, and each step makes progress. -/
theorem greedyTerms_progress (hops : ops.ExactTerms) (W : List K)
    (hW : ∀ w ∈ W, |w| < 340282366920938463463374607431768211456) (numTerms : Nat) :
    ∃ terms : List (RawTerm K), greedyTerms ops numTerms W = .ok terms ∧
      terms.length = numTerms ∧ (∀ term ∈ terms, term.Shape W.length) ∧
      ∀ t, t < numTerms →
        greedyTerms ops (numTerms - t) (residualAfter W (terms.take t)) = .ok (terms.drop t) ∧
        Progress (residualAfter W (terms.take t)) (residualAfter W (terms.take (t + 1))) := by
  induction numTerms generalizing W with
  | zero => exact ⟨[], rfl, rfl, nofun, fun t ht => absurd ht (Nat.not_lt_zero t)⟩
  | succ numTerms ih =>
    obtain ⟨term, hshape, hrun, hprogress⟩ := greedyTerms_step hops hW numTerms
    have hlength := hprogress.shrinks.length_eq
    have hbound : ∀ r ∈ residualAfter W [term], |r| < 340282366920938463463374607431768211456 := by
      intro r hr
      obtain ⟨w, hw, hle⟩ := exists_mem_of_forall₂ hprogress.shrinks hr
      exact hle.trans_lt (hW w hw)
    obtain ⟨terms, hterms, hcount, hshapes, hsteps⟩ := ih _ hbound
    rw [hlength] at hshapes
    have hall : greedyTerms ops (numTerms + 1) W = .ok (term :: terms) := by
      rw [hrun, hterms]
      rfl
    refine ⟨term :: terms, hall, by rw [List.length_cons, hcount],
      List.forall_mem_cons.2 ⟨hshape, hshapes⟩, fun t ht => ?_⟩
    cases t with
    | zero => exact ⟨hall, hprogress⟩
    | succ t =>
      rw [Nat.add_sub_add_right]
      exact hsteps t (by omega)

end

/-! ## Exact operations -/

/-- The operations of the reals. -/
noncomputable def realOps : DecomposeOps ℝ ℝ where
  zeroF := 0
  tinyF := (F32.toRat 0x322BCC77 : ℚ)
  absF x := |x|
  ltF x y := decide (x < y)
  subF := (· - ·)
  mulF := (· * ·)
  divF := (· / ·)
  intF v := v
  ldexpF k := exp2 k
  widen x := x
  narrow x := x
  lit q := q
  absD x := |x|
  floorD x := ⌊x⌋
  ceilD x := ⌈x⌉
  log2D := Real.logb (2 : ℕ)
  sqrtD := Real.sqrt
  addD := (· + ·)
  subD := (· - ·)
  mulD := (· * ·)
  divD := (· / ·)
  ltD x y := decide (x < y)
  eqD x y := decide (x = y)
  ltInfinity _ := true
  toInt32 x := i32 ⌊x⌋
  toInt64 x := i64 ⌊x⌋

theorem realOps_exactTerms : realOps.ExactTerms where
  lit _ := rfl
  absD _ := rfl
  addD _ _ := rfl
  subD _ _ := rfl
  mulD _ _ := rfl
  divD _ _ := rfl
  ltD _ _ := decide_eq_true_iff
  eqD _ _ := decide_eq_true_iff
  widen_narrow _ := rfl
  widen_zero := rfl
  zeroF := rfl
  tinyF := rfl
  absF _ := rfl
  ltF _ _ := decide_eq_true_iff
  subF _ _ := rfl
  mulF _ _ := rfl
  divF _ _ := rfl
  intF _ := rfl
  ldexpF _ := rfl
  widen _ := rfl
  narrow _ := rfl
  floorD _ := rfl
  sqrtD_lt _ _ hx _ := Real.sqrt_lt_sqrt_iff hx
  ltInfinity _ := rfl
  floor_log2 x hx := by
    have h := Real.floor_logb_natCast (b := 2) hx.le
    rw [Nat.cast_ofNat] at h
    exact congrArg Int.cast h
  ceil_log2 x hx := by
    have h := Real.ceil_logb_natCast (b := 2) hx.le
    rw [Nat.cast_ofNat] at h
    exact congrArg Int.cast h
  toInt32 n := congrArg i32 (Int.floor_intCast n)
  toInt64 n := congrArg i64 (Int.floor_intCast n)

/-- Operations on rationals. The logarithm of what is no power of two is anywhere between the
integers around it, and norms are compared as their squares. -/
def rationalOps : DecomposeOps ℚ ℚ :=
  { exactOps with
    tinyF := F32.toRat 0x322BCC77
    log2D := fun x => if 2 ^ Int.log 2 x = x then Int.log 2 x else Int.log 2 x + 1 / 2 }

theorem truncRat_intCast (n : Int) : truncRat n = n := by
  rw [truncRat, Int.floor_intCast, Int.ceil_intCast, ite_self]

theorem rationalOps_exactTerms : rationalOps.ExactTerms where
  lit q := (Rat.cast_id q).symm
  absD _ := rfl
  addD _ _ := rfl
  subD _ _ := rfl
  mulD _ _ := rfl
  divD _ _ := rfl
  ltD _ _ := decide_eq_true_iff
  eqD _ _ := decide_eq_true_iff
  widen_narrow _ := rfl
  widen_zero := rfl
  zeroF := rfl
  tinyF := (Rat.cast_id _).symm
  absF _ := rfl
  ltF _ _ := decide_eq_true_iff
  subF _ _ := rfl
  mulF _ _ := rfl
  divF _ _ := rfl
  intF _ := rfl
  ldexpF _ := rfl
  widen _ := rfl
  narrow _ := rfl
  floorD _ := rfl
  sqrtD_lt _ _ _ _ := Iff.rfl
  ltInfinity _ := rfl
  floor_log2 x _ := by
    have hhalf : (0 : ℚ) ≤ 1 / 2 ∧ (1 / 2 : ℚ) < 1 := by norm_num
    show ((⌊if _ then _ else _⌋ : Int) : ℚ) = _
    split_ifs
    · rw [Int.floor_intCast]
    · rw [Int.floor_intCast_add, Int.floor_eq_zero_iff.2 hhalf, add_zero]
  ceil_log2 x hx := by
    have hlo := Int.zpow_log_le_self one_lt_two hx
    have hhi := Int.lt_zpow_succ_log_self one_lt_two x
    show ((⌈if _ then _ else _⌉ : Int) : ℚ) = _
    split_ifs with hpow
    · rw [Int.ceil_intCast]
      conv_rhs => rw [← hpow]
      exact_mod_cast (Int.clog_zpow (R := ℚ) one_lt_two _).symm
    · have hceil : ⌈(1 / 2 : ℚ)⌉ = 1 := by norm_num [Int.ceil_eq_iff]
      have hlt : (2 : ℚ) ^ Int.log 2 x < x := lt_of_le_of_ne (by exact_mod_cast hlo) hpow
      have hgt := (Int.zpow_lt_iff_lt_clog one_lt_two hx).1 (show ((2 : Nat) : ℚ) ^ _ < x from hlt)
      have hle := (Int.le_zpow_iff_clog_le one_lt_two hx).1 hhi.le
      rw [Int.ceil_intCast_add, hceil, Int.cast_inj]
      omega
  toInt32 n := congrArg i32 (truncRat_intCast n)
  toInt64 n := congrArg i64 (truncRat_intCast n)

/-- One weight and one term: the scale is the weight where that is a power of two. -/
theorem greedyTerms_progress_quarter : (∀ w ∈ [(1 / 4 : ℚ)],
    |w| < 340282366920938463463374607431768211456) ∧
    ∃ terms : List (RawTerm ℚ), greedyTerms rationalOps 1 [1 / 4] = .ok terms ∧
      terms.length = 1 ∧ (∀ term ∈ terms, term.Shape 1) ∧
      ∀ t, t < 1 →
        greedyTerms rationalOps (1 - t) (residualAfter [1 / 4] (terms.take t)) =
          .ok (terms.drop t) ∧
        Progress (residualAfter [1 / 4] (terms.take t))
          (residualAfter [1 / 4] (terms.take (t + 1))) := by
  have hbound : ∀ w ∈ [(1 / 4 : ℚ)], |w| < 340282366920938463463374607431768211456 := by
    simp [abs_of_pos]
    norm_num
  exact ⟨hbound, greedyTerms_progress rationalOps_exactTerms _ hbound 1⟩

end Terllama
