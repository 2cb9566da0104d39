import Terllama.Kernel.Dispatch

/-!
# Bitplane layers

What `ternary_linear` makes of a layer of bitplane terms, on every machine: the sum over the terms
that are not marked empty of `2 ^ alpha` times the ternary matrix that the planes spell
(`ternaryLinear_planes`). A term is empty where its exponent is -128.
-/

namespace Terllama

/-- The layers of `rows` times `cols` elements in bitplanes, up to 32 of them. -/
structure LayerData.PlaneLayer (ld : LayerData) (rows cols : Nat) : Prop where
  outFeatures : ld.outFeatures = rows
  inFeatures : ld.inFeatures = cols
  numTerms : ld.numTerms = ld.terms.length
  terms_le : ld.terms.length ≤ 32
  words : ∀ term ∈ ld.terms, rows * wordsPerRow cols ≤ term.combined.length

/-- The ternary value at a position of a bitplane term. -/
def BitplaneTerm.value (term : BitplaneTerm) (cols row col : Nat) : Int :=
  planeValue (term.combined.getD (row * wordsPerRow cols + col / 16) 0) (col % 16)

/-- The terms that the dispatch passes on. -/
def LayerData.activeTerms (ld : LayerData) : List BitplaneTerm :=
  ld.terms.filter fun term => term.alphaExp ≠ -128

section
variable {K : Type} [Field K]

/-- A row of the linear map of a list of bitplane terms. -/
def planeTermsDot (terms : List BitplaneTerm) (cols : Nat) (x : List K) (row : Nat) : K :=
  (terms.map fun term => exp2 term.alphaExp *
    ∑ j ∈ Finset.range cols, (term.value cols row j : K) * x.getD j 0).sum

variable [LinearOrder K] (m : Machine K)

/-- The inputs that the bitplane kernels can read: a vector kernel reads whole words of columns. -/
def Machine.CanRead (cols : Nat) (x : List K) : Prop :=
  cols ≤ x.length ∧
    (m.cpu = .x86_64Avx512 ∨ m.cpu = .x86_64Avx2 → wordsPerRow cols * 16 ≤ x.length)

variable {m} {ld : LayerData} {rows cols : Nat} {x : List K}

/-- The pass over the terms keeps those that are not empty. -/
theorem extractTermData_ok (h : ld.numTerms = ld.terms.length) (hle : ld.terms.length ≤ 32) :
    extractTermData ld 32 = .ok ld.activeTerms := by
  have hcount : min ld.numTerms.toNat 32 = ld.terms.length := by omega
  have hloop : ∃ out, (List.range ld.terms.length).foldlM (fun out t => do
      let term ← load ld.terms t
      return if term.alphaExp = -128 then out else out ++ [term]) [] = .ok out ∧
      out = (ld.terms.take ld.terms.length).filter fun term => term.alphaExp ≠ -128 := by
    refine foldlM_range_total (I := fun t (out : List BitplaneTerm) =>
      out = (ld.terms.take t).filter fun term => term.alphaExp ≠ -128) rfl ?_
    rintro t ht out rfl
    refine ⟨_, by rw [load_getD ht default, ok_bind]; rfl, ?_⟩
    rw [List.take_add_one, List.getElem?_eq_getElem ht, List.filter_append,
      List.getD_eq_getElem _ _ ht]
    by_cases hempty : ld.terms[t].alphaExp = -128 <;> simp [hempty]
  obtain ⟨out, hrun, rfl⟩ := hloop
  rw [extractTermData, hcount, hrun, List.take_length]
  rfl

theorem LayerData.activeTerms_length_le (ld : LayerData) :
    ld.activeTerms.length ≤ ld.terms.length := List.length_filter_le _ _

omit [LinearOrder K] in
/-- What the kernels find in a layer whose words are there. -/
theorem LayerData.PlaneLayer.reads (h : ld.PlaneLayer rows cols) (hx : cols ≤ x.length)
    (lanes : (n : Nat) → Nat → Exec (Fin n → K))
    (hlanes : ∀ n off, off + n ≤ wordsPerRow cols * 16 →
      lanes n off = .ok fun k => x.getD (off + k) 0) :
    ({ bitplaneArgs ld ld.activeTerms x with lanes } : BitplaneArgs K).Reads
      (fun t i => (ld.activeTerms.getD t default).combined.getD i 0) (x.getD · 0) := by
  have hout : ld.outFeatures.toNat = rows := by rw [h.outFeatures, Int.toNat_natCast]
  have hin : ld.inFeatures.toNat = cols := by rw [h.inFeatures, Int.toNat_natCast]
  refine ⟨fun t ht i hi w hw => ?_, fun n off hle => ?_, fun j hj => ?_⟩
  · change t < ld.activeTerms.length at ht
    change i < ld.outFeatures.toNat at hi
    change w < wordsPerRow ld.inFeatures.toNat at hw
    change (do load (← load ld.activeTerms t).combined (i * wordsPerRow ld.inFeatures.toNat + w)) = _
    rw [hout] at hi
    rw [hin] at hw ⊢
    have hwords := h.words ld.activeTerms[t] (List.mem_of_mem_filter (List.getElem_mem ht))
    have hindex : i * wordsPerRow cols + w < rows * wordsPerRow cols := by
      have := Nat.mul_le_mul_right (wordsPerRow cols) (Nat.succ_le_of_lt hi)
      rw [Nat.succ_mul] at this
      omega
    have hinF : (bitplaneArgs ld ld.activeTerms x).inF = cols := hin
    rw [load_getD ht default, ok_bind]
    dsimp only
    rw [hinF, List.getD_eq_getElem _ _ ht, load_getD (hindex.trans_le hwords) 0]
  · change off + n ≤ wordsPerRow ld.inFeatures.toNat * 16 at hle
    rw [hin] at hle
    exact hlanes n off hle
  · change j < ld.inFeatures.toNat at hj
    rw [hin] at hj
    exact load_getD (by omega) 0

omit [LinearOrder K] in
/-- The linear map of the arguments is that of the terms. -/
theorem planeDot_activeTerms (h : ld.PlaneLayer rows cols) (row : Nat) :
    planeDot (bitplaneArgs ld ld.activeTerms x)
      (fun t i => (ld.activeTerms.getD t default).combined.getD i 0) (x.getD · 0) row =
      planeTermsDot ld.activeTerms cols x row := by
  have hin : ld.inFeatures.toNat = cols := by rw [h.inFeatures, Int.toNat_natCast]
  rw [planeTermsDot, ← sum_range_getD _ default, ← hin]
  rfl

omit [LinearOrder K] in
/-- The scalar kernel loads no vectors. -/
theorem ternaryMulScalar_lanes (a : BitplaneArgs K)
    (lanes : (n : Nat) → Nat → Exec (Fin n → K)) :
    ternaryMulScalar { a with lanes } = ternaryMulScalar a := rfl

/-- A layer without a number of terms computes zeros. -/
theorem ternaryLinear_noTerms (h : ld.numTerms = 0) (arch : CPUArch) :
    ternaryLinear m ld x arch = .ok (List.replicate ld.outFeatures.toNat 0) := by
  rw [ternaryLinear, extractTermData, h]
  rfl

/-- A layer of bitplanes computes the linear map of its terms, on every machine. -/
theorem ternaryLinear_planes (h : ld.PlaneLayer rows cols) (hx : m.CanRead cols x) :
    ternaryLinear m ld x .unknown =
      .ok ((List.range rows).map (planeTermsDot ld.activeTerms cols x)) := by
  have hout : ld.outFeatures.toNat = rows := by rw [h.outFeatures, Int.toNat_natCast]
  have hactive : ld.activeTerms.length ≤ 32 := ld.activeTerms_length_le.trans h.terms_le
  have hrows : (List.range ld.outFeatures.toNat).map (planeDot (bitplaneArgs ld ld.activeTerms x)
      (fun t i => (ld.activeTerms.getD t default).combined.getD i 0) (x.getD · 0)) =
      (List.range rows).map (planeTermsDot ld.activeTerms cols x) := by
    rw [hout]
    exact List.map_congr_left fun row _ => planeDot_activeTerms h row
  rw [ternaryLinear, extractTermData_ok h.numTerms h.terms_le, ok_bind]
  split
  · next hempty =>
    rw [List.length_eq_zero_iff] at hempty
    rw [hempty, hout, pure_eq_ok]
    have hzero : planeTermsDot [] cols x = fun _ => (0 : K) := rfl
    rw [hzero, List.map_const', List.length_range]
  · have harch : m.arch .unknown = m.cpu := rfl
    rw [← hrows, harch]
    split
    · next hcpu => exact lanedKernel_ok (h.reads hx.1 _ fun n off hle => by
        exact loadu_ok (hle.trans (hx.2 (.inl hcpu))) 0) hactive rfl
    · next hcpu => exact lanedKernel_ok (h.reads hx.1 _ fun n off hle => by
        exact loadu_ok (hle.trans (hx.2 (.inr hcpu))) 0) hactive rfl
    · have hreads := h.reads hx.1 (fun _ off => .ok fun k => x.getD (off + k) 0) fun _ _ _ => rfl
      rw [← ternaryMulScalar_lanes _ fun _ off => .ok fun k => x.getD (off + k) 0]
      refine (ternaryMulScalar_ok hreads fun t ht => ?_).trans rfl
      have hmem := List.getElem_mem (l := ld.activeTerms) ht
      have hexp := of_decide_eq_true (List.mem_filter.1 hmem).2
      change (ld.activeTerms.getD t default).alphaExp ≠ -128
      rwa [List.getD_eq_getElem _ _ ht]

end

/-! ## Unit vectors -/

section
variable {K : Type} [Field K]

/-- A unit vector as long as the kernels read. -/
def unitInput (K : Type) [Field K] (cols j : Nat) : List K :=
  (List.range (wordsPerRow cols * 16)).map fun i => if i = j then 1 else 0

theorem unitInput_length (cols j : Nat) :
    (unitInput K cols j).length = wordsPerRow cols * 16 := by
  rw [unitInput, List.length_map, List.length_range]

theorem le_wordsPerRow (cols : Nat) : cols ≤ wordsPerRow cols * 16 := by
  unfold wordsPerRow
  omega

/-- A linear form at a unit vector. -/
theorem sum_unitInput (f : Nat → K) {cols j : Nat} (hj : j < cols) :
    ∑ i ∈ Finset.range cols, f i * (unitInput K cols j).getD i 0 = f j := by
  have hwidth := le_wordsPerRow cols
  rw [Finset.sum_eq_single j]
  · rw [unitInput, getD_map_range _ (by omega), if_pos rfl, mul_one]
  · intro i hi hne
    have hi := Finset.mem_range.1 hi
    rw [unitInput, getD_map_range _ (by omega), if_neg hne, mul_zero]
  · intro h
    exact absurd (Finset.mem_range.2 hj) h

end

end Terllama
