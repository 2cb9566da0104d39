import Terllama.Base.Rational
import Terllama.Kernel.Bitplane
import Terllama.Kernel.FairyFuse
import Terllama.Kernel.Int8

/-!
# Kernel dispatch

`ternary_linear` and `ternary_linear_blocks` of `src/dispatcher.cpp` and `ternary_linear_dispatch` of
`src/core/inference.cpp`, in the x86-64 build, which links every kernel. What they take from the
machine is in `Machine`: the number a `float` word stands for, the conversion to `int`, and the
detected CPU.

`ternaryLinearBlocks_scalar` is the meaning of a block layer: with the cache the loader builds, the
layer computes the linear map of its own block terms (`blockTermsDot`).
-/

namespace Terllama

/-- What the kernels take from the machine they run on. -/
structure Machine (K : Type) where
  /-- The number a word stands for. -/
  val : F32 → K
  /-- The conversion of a number to `int`. -/
  trunc : K → Int
  /-- `detect_cpu_arch()`. -/
  cpu : CPUArch

/-- Exact rational arithmetic on a CPU without vector extensions. -/
def ratMachine : Machine ℚ := ⟨F32.toRat, truncRat, .x86_64Scalar⟩

section
variable {K : Type} [Field K] [LinearOrder K] (m : Machine K)

/-- `override_arch`, or the detected CPU. -/
def Machine.arch (m : Machine K) (overrideArch : CPUArch) : CPUArch :=
  if overrideArch ≠ .unknown then overrideArch else m.cpu

/-! ## Bitplane layers -/

/-- `extract_term_data`: the terms that are not marked empty. -/
def extractTermData (layer : LayerData) (maxTerms : Nat) : Exec (List BitplaneTerm) :=
  (List.range (min layer.numTerms.toNat maxTerms)).foldlM (fun out t => do
    let term ← load layer.terms t
    return if term.alphaExp = -128 then out else out ++ [term]) []

/-- The kernel arguments of a bitplane layer. -/
def bitplaneArgs (layer : LayerData) (active : List BitplaneTerm) (input : List K) :
    BitplaneArgs K where
  word t i := do load (← load active t).combined i
  alphaExp t := (active.getD t default).alphaExp
  nActive := active.length
  outF := layer.outFeatures.toNat
  inF := layer.inFeatures.toNat
  lanes n off := loadu n input off 0
  elem j := load input j

/-- `ternary_linear`. -/
def ternaryLinear (layer : LayerData) (input : List K) (overrideArch : CPUArch) :
    Exec (List K) := do
  let active ← extractTermData layer 32
  if active.length = 0 then return List.replicate layer.outFeatures.toNat 0
  else
    match m.arch overrideArch with
    | .x86_64Avx512 | .x86_64Avx2 => ternaryMulAvx2 (bitplaneArgs layer active input)
    | _ => ternaryMulScalar (bitplaneArgs layer active input)

/-! ## Block layers -/

/-- The cache build of `ternary_linear_blocks`, for a layer whose loader built none. -/
def lazyBuildCache (layer : LayerData) (nBlocks : Int) : Exec LayerData := do
  let codesPerBlock := layer.blockQk.tdiv 4
  vectorAlloc (sizeT (layer.outFeatures * nBlocks * codesPerBlock)) 1
  vectorAlloc (sizeT (layer.outFeatures * nBlocks)) 4
  let cache ← layer.blockTerms.zipIdx.mapM fun (blocks, t) =>
    contigTerm layer.outFeatures.toNat nBlocks.toNat codesPerBlock.toNat t blocks
  return layer.withCache cache

/-- The kernel arguments of a block layer: `term_data` and `term_scales` have 32 slots, and a row
pointer is the buffer it points into from its offset on. -/
def blockArgs (layer : LayerData) (nTerms nBlocks : Nat) (input : List K) : BlockArgs K where
  termBlockData := (layer.termBlockData.take 32).map fun rows =>
    rows.map fun p => (layer.termContigData.getD p.term []).drop p.off
  termBlockScales := (layer.termBlockScales.take 32).map fun rows =>
    rows.map fun p => ((layer.termContigScales.getD p.term []).drop p.off).map m.val
  nTerms := nTerms
  outF := layer.outFeatures.toNat
  inF := layer.inFeatures.toNat
  nBlocks := nBlocks
  input := input

/-- The kernel that `ternary_linear_blocks` calls. -/
def blockKernel (arch : CPUArch) (args : BlockArgs K) : Exec (List K) :=
  match arch with
  | .x86_64Avx512 => ternaryMulAvx512Fairyfuse args
  | .x86_64Avx2 => ternaryMulAvx2Blocks m.trunc args
  | _ => ternaryMulScalarBlocks args

@[simp] theorem blockKernel_scalar (args : BlockArgs K) :
    blockKernel m .x86_64Scalar args = ternaryMulScalarBlocks args := rfl

/-- `ternary_linear_blocks`. -/
def ternaryLinearBlocks (layer : LayerData) (input : List K) (overrideArch : CPUArch) :
    Exec (List K) := do
  if !layer.hasBlocks || layer.blockTerms.isEmpty || layer.inFeatures = 0 then
    ternaryLinear m layer input overrideArch
  else
    let nBlocks ← ceilBlocks layer.inFeatures layer.blockQk
    let layer ← if layer.termCacheBuilt then .ok layer else lazyBuildCache layer nBlocks
    blockKernel m (m.arch overrideArch)
      (blockArgs m layer layer.blockTerms.length nBlocks.toNat input)

/-- The raw branch of `ternary_linear_dispatch`. -/
def rawLinear (layer : LayerData) (input : List K) : Exec (List K) :=
  (List.range layer.outFeatures.toNat).mapM fun row => do
    let w ← i32 (row * layer.inFeatures)
    (List.range layer.inFeatures.toNat).foldlM (fun sum j => do
      let wj ← load layer.rawWeights (w.toNat + j)
      let x ← load input j
      return sum + m.val wj * x) 0

/-- `ternary_linear_dispatch`. -/
def ternaryLinearDispatch (layer : LayerData) (input : List K) : Exec (List K) :=
  if layer.hasRawWeights then rawLinear m layer input
  else if layer.hasBlocks then ternaryLinearBlocks m layer input .unknown
  else ternaryLinear m layer input .unknown

/-! ## The linear map of a block layer -/

/-- A row of the linear map of a list of block tables. -/
def blockTermsDot (val : F32 → K) (terms : List (List BlockTerm)) (cols : Nat) (x : List K)
    (row : Nat) : K :=
  ∑ t ∈ Finset.range terms.length, ∑ j ∈ Finset.range cols,
    let block := (terms.getD t []).getD (row * blocksPerRow cols + j / colBlockSize) default
    val block.scale * blockCode block.packed (j % colBlockSize) * x.getD j 0

/-- The codes of a block in the flat buffer of its table. -/
theorem blockCode_flatMap {blocks : List BlockTerm} (hpacked : ∀ x ∈ blocks, x.packed.length = 32)
    {i k : Nat} (hi : i < blocks.length) (hk : k < colBlockSize) :
    blockCode (blocks.flatMap BlockTerm.packed) (i * colBlockSize + k) =
      blockCode (blocks.getD i default).packed k := by
  rw [colBlockSize] at hk
  have hpk : ∀ j < blocks.length, (blocks.getD j default).packed.length = 32 := by
    intro j hj
    rw [List.getD_eq_getElem _ _ hj]
    exact hpacked _ (List.getElem_mem hj)
  have htable : blocks.flatMap BlockTerm.packed =
      (List.range blocks.length).flatMap fun j => (blocks.getD j default).packed := by
    conv_lhs => rw [← map_getD_range blocks default]
    rw [List.flatMap_map]
  have hget := getElem?_flatMap hpk hi (show k / 4 < 32 by omega)
  rw [← htable] at hget
  simp only [blockCode, colBlockSize, List.getD_eq_getElem?_getD, show (i * 128 + k) / 4 =
    i * 32 + k / 4 by omega, hget, show (i * 128 + k) % 4 = k % 4 by omega]

section
variable {m : Machine K} {ld : LayerData} {rows cols : Nat} {x : List K}

omit [Field K] [LinearOrder K] in
/-- What a cached layer hands to a kernel for a row of a term. -/
theorem LayerData.BlockLayer.args (h : ld.BlockLayer rows cols) {t row : Nat}
    (ht : t < ld.blockTerms.length) (hrow : row < rows) :
    let args := blockArgs m ld ld.blockTerms.length (blocksPerRow cols) x
    args.rowData t row = ((ld.blockTerms.getD t []).flatMap BlockTerm.packed).drop
        (row * (blocksPerRow cols * 32)) ∧
      (args.termBlockScales.getD t []).getD row [] =
        (((ld.blockTerms.getD t []).map BlockTerm.scale).drop (row * blocksPerRow cols)).map
          m.val := by
  obtain ⟨hd, hs, hpd, hps⟩ := h.cacheAt ht
  have ht32 : t < 32 := Nat.lt_of_lt_of_le ht h.terms_le
  intro args
  constructor
  · simp only [args, BlockArgs.rowData, blockArgs, List.getD_eq_getElem?_getD, List.getElem?_map,
      List.getElem?_take, if_pos ht32, hpd, tableCache, Option.map_some, Option.getD_some,
      List.getElem?_range hrow, hd]
  · simp only [args, blockArgs, List.getD_eq_getElem?_getD, List.getElem?_map, List.getElem?_take,
      if_pos ht32, hps, tableCache, Option.map_some, Option.getD_some, List.getElem?_range hrow, hs]

omit [Field K] [LinearOrder K] in
/-- The pointers of a cached layer cover what the kernels read. -/
theorem LayerData.BlockLayer.valid (h : ld.BlockLayer rows cols) (hx : cols ≤ x.length) :
    (blockArgs m ld ld.blockTerms.length (blocksPerRow cols) x).Valid := by
  have hout : ld.outFeatures.toNat = rows := by rw [h.outFeatures, Int.toNat_natCast]
  have hin : ld.inFeatures.toNat = cols := by rw [h.inFeatures, Int.toNat_natCast]
  have hle := h.terms_le
  have hdata : ld.termBlockData.length = ld.blockTerms.length := by
    rw [h.cache]
    simp [LayerData.withCache]
  have hscales : ld.termBlockScales.length = ld.blockTerms.length := by
    rw [h.cache]
    simp [LayerData.withCache]
  have hrows : ∀ {row}, row < rows →
      (row + 1) * blocksPerRow cols ≤ rows * blocksPerRow cols := Nat.mul_le_mul_right _
  exact {
    nBlocks_eq := congrArg blocksPerRow hin.symm
    data_terms := by
      simp only [blockArgs, List.length_map, List.length_take]
      omega
    scale_terms := by
      simp only [blockArgs, List.length_map, List.length_take]
      omega
    data_rows := by
      intro t ht
      obtain ⟨-, -, hpd, -⟩ := h.cacheAt ht
      have ht32 : t < 32 := Nat.lt_of_lt_of_le ht hle
      simp [blockArgs, List.getElem?_take, if_pos ht32, hpd, tableCache, hout]
    scale_rows := by
      intro t ht
      obtain ⟨-, -, -, hps⟩ := h.cacheAt ht
      have ht32 : t < 32 := Nat.lt_of_lt_of_le ht hle
      simp [blockArgs, List.getElem?_take, if_pos ht32, hps, tableCache, hout]
    data_length := by
      intro t ht row hrow
      have hrow : row < rows := hout ▸ hrow
      have hcover := hrows hrow
      rw [(h.args ht hrow).1, List.length_drop, (h.shapeAt ht).length_codes, ← Nat.mul_assoc]
      change blocksPerRow cols * 32 ≤ _
      rw [Nat.succ_mul] at hcover
      omega
    scale_length := by
      intro t ht row hrow
      have hrow : row < rows := hout ▸ hrow
      have hcover := hrows hrow
      rw [(h.args ht hrow).2, List.length_map, List.length_drop, List.length_map,
        (h.shapeAt ht).length_eq]
      change blocksPerRow cols ≤ _
      rw [Nat.succ_mul] at hcover
      omega
    input_length := by
      change ld.inFeatures.toNat ≤ x.length
      omega }

omit [LinearOrder K] in
/-- The linear map of the kernel arguments is that of the layer's block terms. -/
theorem LayerData.BlockLayer.rowDot (h : ld.BlockLayer rows cols) {row : Nat} (hrow : row < rows) :
    (blockArgs m ld ld.blockTerms.length (blocksPerRow cols) x).rowDot row =
      blockTermsDot m.val ld.blockTerms cols x row := by
  have hin : ld.inFeatures.toNat = cols := by rw [h.inFeatures, Int.toNat_natCast]
  rw [BlockArgs.rowDot, blockTermsDot]
  refine Finset.sum_congr rfl fun t ht => ?_
  have ht : t < ld.blockTerms.length := Finset.mem_range.1 ht
  have hshape := h.shapeAt ht
  obtain ⟨hdata, hscales⟩ := h.args (m := m) (x := x) ht hrow
  refine Finset.sum_congr (congrArg Finset.range hin) fun j hj => ?_
  have hj := Finset.mem_range.1 hj
  have hb : j / colBlockSize < blocksPerRow cols := by
    unfold blocksPerRow colBlockSize
    omega
  have hidx := hshape.idx_lt hrow hb
  have hscale : (blockArgs m ld ld.blockTerms.length (blocksPerRow cols) x).scale t row
      (j / colBlockSize) = m.val ((ld.blockTerms.getD t []).getD
        (row * blocksPerRow cols + j / colBlockSize) default).scale := by
    rw [BlockArgs.scale, hscales, List.getD_eq_getElem?_getD, List.getElem?_map,
      List.getElem?_drop, List.getElem?_map, List.getElem?_eq_getElem hidx,
      List.getD_eq_getElem _ _ hidx]
    rfl
  have hweight : (blockArgs m ld ld.blockTerms.length (blocksPerRow cols) x).weight t row j =
      blockCode ((ld.blockTerms.getD t []).getD
        (row * blocksPerRow cols + j / colBlockSize) default).packed (j % colBlockSize) := by
    have hmod : j % colBlockSize < colBlockSize := Nat.mod_lt _ (by decide)
    rw [BlockArgs.weight, hdata, ← Nat.mul_assoc, blockCode_drop,
      ← blockCode_flatMap hshape.packed_length hidx hmod, Nat.add_mul, Nat.add_assoc,
      Nat.div_add_mod']
  rw [hscale, hweight]
  rfl

omit [Field K] [LinearOrder K] in
/-- A block layer with columns takes the block path of the dispatch. -/
theorem LayerData.BlockLayer.guard (h : ld.BlockLayer rows cols) (hcols : 0 < cols) :
    (!ld.hasBlocks || ld.blockTerms.isEmpty || decide (ld.inFeatures = 0)) = false := by
  have hne : ld.blockTerms ≠ [] := List.length_pos_iff.1 h.terms_pos
  have hin : ¬ ld.inFeatures = 0 := by rw [h.inFeatures]; omega
  simp [h.hasBlocks, hne, hin]

/-- A cached block layer runs the kernel on its row pointers. -/
theorem ternaryLinearBlocks_cached (h : ld.BlockLayer rows cols) (hcols : 0 < cols)
    (hcols' : cols ≤ 2147483519) (arch : CPUArch) :
    ternaryLinearBlocks m ld x arch = blockKernel m (m.arch arch)
      (blockArgs m ld ld.blockTerms.length (blocksPerRow cols) x) := by
  rw [ternaryLinearBlocks, h.guard hcols, if_neg (by decide), h.inFeatures, h.blockQk,
    ceilBlocks_ok hcols', ok_bind]
  simp only [h.built, if_true, ok_bind, Int.toNat_natCast]

/-- A cached block layer computes the linear map of its block terms through the scalar kernel. -/
theorem ternaryLinearBlocks_scalar (h : ld.BlockLayer rows cols) (hcols : 0 < cols)
    (hcols' : cols ≤ 2147483519) (hx : cols ≤ x.length) :
    ternaryLinearBlocks m ld x .x86_64Scalar =
      .ok ((List.range rows).map (blockTermsDot m.val ld.blockTerms cols x)) := by
  have hout : ld.outFeatures.toNat = rows := by rw [h.outFeatures, Int.toNat_natCast]
  rw [ternaryLinearBlocks_cached h hcols hcols', Machine.arch, if_pos (by decide),
    blockKernel_scalar, ternaryMulScalarBlocks_ok (h.valid hx)]
  refine congrArg Except.ok ?_
  change (List.range ld.outFeatures.toNat).map _ = _
  rw [hout]
  exact List.map_congr_left fun row hrow => h.rowDot (List.mem_range.1 hrow)

end

end

end Terllama
