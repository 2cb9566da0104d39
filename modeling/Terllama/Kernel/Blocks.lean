import Mathlib.Algebra.Field.Basic
import Terllama.Base.Sums
import Terllama.Loader.Blocks

/-!
# The scalar block kernel

The three block kernels of `src/kernel_avx2.cpp` take the same arguments (`BlockArgs`) and run the
same loops over terms and blocks (`blockLoops`); they differ in what they do in one block. This
module has the loops and `ternary_mul_scalar_blocks`, the reference of the other two.

A pointer argument is the buffer from where the pointer points on, so that a read past its end is
undefined. Activations, scales and outputs are elements of a commutative ring, and the index
arithmetic is exact: the callers compute `n_blocks` from `in_f + qk - 1`, and every index of the
kernels is below that.
-/

namespace Terllama

/-- `COL_BLOCK_SIZE`. -/
def colBlockSize : Nat := 128

/-- The arguments of a block kernel. -/
structure BlockArgs (K : Type) where
  termBlockData : List (List Bytes)
  termBlockScales : List (List (List K))
  nTerms : Nat
  outF : Nat
  inF : Nat
  nBlocks : Nat
  input : List K

section
variable {K : Type} [CommRing K]

/-- The term and block loops of a row. `body` gets the packed codes of a block from its first byte
on, the scale of the block, and the column the block starts at. -/
def blockLoops {σ : Type} (a : BlockArgs K) (row : Nat) (body : σ → Bytes → K → Nat → Exec σ)
    (init : σ) : Exec σ :=
  (List.range a.nTerms).foldlM (fun acc t => do
    let rowData ← load (← load a.termBlockData t) row
    let rowScales ← load (← load a.termBlockScales t) row
    (List.range a.nBlocks).foldlM (fun acc b => do
      let packed := rowData.drop (b * (colBlockSize / 4))
      let wScale ← load rowScales b
      body acc packed wScale (b * colBlockSize)) acc) init

/-- The number of columns of the block that starts at `blockStart`. -/
def blockSizeAt (inF blockStart : Nat) : Nat := min (blockStart + colBlockSize) inF - blockStart

/-- `if (j < block_size) block_sum += input[block_start + j] * t`. -/
def addCode (input : List K) (blockStart blockSize j : Nat) (t : Int) (blockSum : K) : Exec K := do
  if j < blockSize then return blockSum + (← load input (blockStart + j)) * t
  else return blockSum

/-- The loop of the scalar kernel over the groups of four columns of a block. -/
def scalarBlockSum (packed : Bytes) (input : List K) (blockStart blockSize : Nat) : Exec K :=
  (List.range ((blockSize + 3) / 4)).foldlM (fun blockSum g => do
    let j := 4 * g
    let byte ← load packed (j / 4)
    let blockSum ← addCode input blockStart blockSize (j + 0) (codeValue byte 6) blockSum
    let blockSum ← addCode input blockStart blockSize (j + 1) (codeValue byte 4) blockSum
    let blockSum ← addCode input blockStart blockSize (j + 2) (codeValue byte 2) blockSum
    addCode input blockStart blockSize (j + 3) (codeValue byte 0) blockSum) 0

/-- A row of `ternary_mul_scalar_blocks`. -/
def scalarBlocksRow (a : BlockArgs K) (row : Nat) : Exec K :=
  blockLoops a row (fun sum packed wScale blockStart => do
    let blockSum ← scalarBlockSum packed a.input blockStart (blockSizeAt a.inF blockStart)
    return sum + blockSum * wScale) 0

/-- `ternary_mul_scalar_blocks`. -/
def ternaryMulScalarBlocks (a : BlockArgs K) : Exec (List K) :=
  (List.range a.outF).mapM (scalarBlocksRow a)

/-! ## What the kernels compute -/

/-- The packed codes of a row of a term. -/
def BlockArgs.rowData (a : BlockArgs K) (t row : Nat) : Bytes := (a.termBlockData.getD t []).getD row []

/-- The ternary weight of a term at a row and a column. -/
def BlockArgs.weight (a : BlockArgs K) (t row j : Nat) : Int := blockCode (a.rowData t row) j

/-- The scale of a block of a row of a term. -/
def BlockArgs.scale (a : BlockArgs K) (t row b : Nat) : K :=
  ((a.termBlockScales.getD t []).getD row []).getD b 0

/-- The row of the linear map the arguments stand for, applied to the input. -/
def BlockArgs.rowDot (a : BlockArgs K) (row : Nat) : K :=
  ∑ t ∈ Finset.range a.nTerms, ∑ j ∈ Finset.range a.inF,
    a.scale t row (j / colBlockSize) * a.weight t row j * a.input.getD j 0

/-- Arguments whose pointers cover what the loops read. -/
structure BlockArgs.Valid (a : BlockArgs K) : Prop where
  nBlocks_eq : a.nBlocks = blocksPerRow a.inF
  data_terms : a.nTerms ≤ a.termBlockData.length
  scale_terms : a.nTerms ≤ a.termBlockScales.length
  data_rows : ∀ t < a.nTerms, a.outF ≤ (a.termBlockData.getD t []).length
  scale_rows : ∀ t < a.nTerms, a.outF ≤ (a.termBlockScales.getD t []).length
  data_length : ∀ t < a.nTerms, ∀ row < a.outF, a.nBlocks * 32 ≤ (a.rowData t row).length
  scale_length : ∀ t < a.nTerms, ∀ row < a.outF,
    a.nBlocks ≤ ((a.termBlockScales.getD t []).getD row []).length
  input_length : a.inF ≤ a.input.length

/-- No code of the arguments is 3. -/
def BlockArgs.Ternary (a : BlockArgs K) : Prop :=
  ∀ t < a.nTerms, ∀ row < a.outF, ∀ j < a.nBlocks * colBlockSize, a.weight t row j ≠ 2

variable {a : BlockArgs K}

omit [CommRing K] in
/-- The blocks of a row cover its columns. -/
theorem BlockArgs.Valid.inF_le (h : a.Valid) : a.inF ≤ a.nBlocks * colBlockSize := by
  have hnb := h.nBlocks_eq
  rw [blocksPerRow] at hnb
  rw [colBlockSize]
  omega

omit [CommRing K] in
/-- A block starts inside the row. -/
theorem BlockArgs.Valid.blockStart_lt (h : a.Valid) {b : Nat} (hb : b < a.nBlocks) :
    b * colBlockSize < a.inF := by
  have hnb := h.nBlocks_eq
  rw [blocksPerRow] at hnb
  rw [colBlockSize]
  omega

theorem blockSizeAt_eq (inF b : Nat) :
    blockSizeAt inF (b * colBlockSize) = min colBlockSize (inF - b * colBlockSize) := by
  unfold blockSizeAt
  omega

/-- The loops of a row whose body adds one number for each block. -/
theorem blockLoops_add {σ : Type} [AddCommMonoid σ] (h : a.Valid) {row : Nat}
    (hrow : row < a.outF) {body : σ → Bytes → K → Nat → Exec σ} {f : Nat → Nat → σ}
    (hbody : ∀ t < a.nTerms, ∀ b < a.nBlocks, ∀ acc,
      body acc ((a.rowData t row).drop (b * 32)) (a.scale t row b) (b * colBlockSize) =
        .ok (acc + f t b)) (init : σ) :
    blockLoops a row body init =
      .ok (init + ∑ t ∈ Finset.range a.nTerms, ∑ b ∈ Finset.range a.nBlocks, f t b) := by
  refine foldlM_range_add (fun acc t ht => ?_) init
  have hdata := h.data_terms
  have hscale := h.scale_terms
  have hdataRow := h.data_rows t ht
  have hscaleRow := h.scale_rows t ht
  rw [load_getD (by omega) [], ok_bind, load_getD (by omega) [], ok_bind, load_getD (by omega) [],
    ok_bind, load_getD (by omega) [], ok_bind]
  refine foldlM_range_add (fun acc b hb => ?_) acc
  have hlen := h.scale_length t ht row hrow
  rw [load_getD (by omega) 0, ok_bind]
  exact hbody t ht b hb acc

/-! ## One block of the scalar kernel -/

theorem blockCode_drop (data : Bytes) (b j : Nat) :
    blockCode (data.drop (b * 32)) j = blockCode data (b * colBlockSize + j) := by
  have hindex : b * 32 + j / 4 = (b * 128 + j) / 4 := by omega
  have hmod : (b * 128 + j) % 4 = j % 4 := by omega
  simp only [blockCode, colBlockSize, List.getD_eq_getElem?_getD, List.getElem?_drop, hindex, hmod]

/-- The four codes of a byte, at the columns they stand for. -/
theorem blockCode_group (packed : Bytes) (g : Nat) :
    blockCode packed (4 * g) = codeValue (packed.getD g 0) 6 ∧
      blockCode packed (4 * g + 1) = codeValue (packed.getD g 0) 4 ∧
      blockCode packed (4 * g + 2) = codeValue (packed.getD g 0) 2 ∧
      blockCode packed (4 * g + 3) = codeValue (packed.getD g 0) 0 := by
  have hdiv : ∀ k < 4, (4 * g + k) / 4 = g := by omega
  have hmod : ∀ k < 4, (4 * g + k) % 4 = k := by omega
  have h₀ := hdiv 0 (by omega)
  have h₀' := hmod 0 (by omega)
  rw [Nat.add_zero] at h₀ h₀'
  simp only [blockCode, hdiv 1 (by omega), hdiv 2 (by omega), hdiv 3 (by omega), h₀, h₀',
    hmod 1 (by omega), hmod 2 (by omega), hmod 3 (by omega)]
  exact ⟨rfl, rfl, rfl, rfl⟩

theorem addCode_ok {input : List K} {blockStart blockSize : Nat}
    (h : blockStart + blockSize ≤ input.length) (j : Nat) (t : Int) (acc : K) :
    addCode input blockStart blockSize j t acc =
      .ok (acc + if j < blockSize then input.getD (blockStart + j) 0 * t else 0) := by
  unfold addCode
  split
  · rw [load_getD (by omega) 0, ok_bind]
    rfl
  · rw [add_zero]
    rfl

/-- A block of the scalar kernel is the dot product of its columns. -/
theorem scalarBlockSum_ok {packed : Bytes} {input : List K} {blockStart blockSize : Nat}
    (hpacked : blockSize ≤ 4 * packed.length) (hinput : blockStart + blockSize ≤ input.length) :
    scalarBlockSum packed input blockStart blockSize =
      .ok (∑ j ∈ Finset.range blockSize,
        input.getD (blockStart + j) 0 * blockCode packed j) := by
  have hgroup : ∀ acc, ∀ g < (blockSize + 3) / 4,
      (do
        let byte ← load packed (4 * g / 4)
        let blockSum ← addCode input blockStart blockSize (4 * g + 0) (codeValue byte 6) acc
        let blockSum ← addCode input blockStart blockSize (4 * g + 1) (codeValue byte 4) blockSum
        let blockSum ← addCode input blockStart blockSize (4 * g + 2) (codeValue byte 2) blockSum
        addCode input blockStart blockSize (4 * g + 3) (codeValue byte 0) blockSum) =
      .ok (acc + ∑ i ∈ Finset.range (min 4 (blockSize - g * 4)),
        input.getD (blockStart + (g * 4 + i)) 0 * blockCode packed (g * 4 + i)) := by
    intro acc g hg
    obtain ⟨hc₀, hc₁, hc₂, hc₃⟩ := blockCode_group packed g
    have hsum : (∑ i ∈ Finset.range (min 4 (blockSize - g * 4)),
        input.getD (blockStart + (g * 4 + i)) 0 * (blockCode packed (g * 4 + i) : K)) =
        ∑ i ∈ Finset.range 4, if 4 * g + i < blockSize then
          input.getD (blockStart + (4 * g + i)) 0 * (blockCode packed (4 * g + i) : K) else 0 := by
      rw [← Finset.sum_filter]
      refine Finset.sum_congr ?_ fun i _ => by rw [Nat.mul_comm g 4]
      ext i
      simp only [Finset.mem_range, Finset.mem_filter]
      omega
    rw [Nat.mul_div_cancel_left g (by omega), load_getD (by omega) 0, ok_bind,
      addCode_ok hinput, ok_bind, addCode_ok hinput, ok_bind, addCode_ok hinput, ok_bind,
      addCode_ok hinput, hsum]
    simp only [Finset.sum_range_succ, Finset.sum_range_zero, Nat.add_zero, hc₀, hc₁, hc₂, hc₃,
      zero_add, ← add_assoc]
  rw [scalarBlockSum, foldlM_range_add hgroup, zero_add,
    sum_blocks (fun j => input.getD (blockStart + j) 0 * (blockCode packed j : K)) (by omega)]

/-- The row of the linear map, block by block. -/
theorem BlockArgs.Valid.rowDot_eq (h : a.Valid) (row : Nat) :
    a.rowDot row = ∑ t ∈ Finset.range a.nTerms, ∑ b ∈ Finset.range a.nBlocks, a.scale t row b *
      ∑ j ∈ Finset.range (min colBlockSize (a.inF - b * colBlockSize)),
        a.input.getD (b * colBlockSize + j) 0 * a.weight t row (b * colBlockSize + j) := by
  refine Finset.sum_congr rfl fun t _ => ?_
  rw [← sum_blocks (fun j => a.scale t row (j / colBlockSize) * a.weight t row j *
    a.input.getD j 0) h.inF_le]
  refine Finset.sum_congr rfl fun b _ => ?_
  rw [Finset.mul_sum]
  refine Finset.sum_congr rfl fun j hj => ?_
  have hj := Finset.mem_range.1 hj
  have hdiv : (b * colBlockSize + j) / colBlockSize = b := by
    rw [colBlockSize] at hj ⊢
    omega
  rw [hdiv]
  ring

/-- The scalar kernel computes the linear map of its arguments. -/
theorem ternaryMulScalarBlocks_ok (h : a.Valid) :
    ternaryMulScalarBlocks a = .ok ((List.range a.outF).map a.rowDot) := by
  refine mapM_ok fun row hrow => ?_
  have hrow := List.mem_range.1 hrow
  have hinput := h.input_length
  rw [scalarBlocksRow, h.rowDot_eq row, blockLoops_add (f := fun t b => a.scale t row b *
    ∑ j ∈ Finset.range (min colBlockSize (a.inF - b * colBlockSize)),
      a.input.getD (b * colBlockSize + j) 0 * a.weight t row (b * colBlockSize + j)) h hrow,
    zero_add]
  intro t ht b hb acc
  have hdata := h.data_length t ht row hrow
  have hstart := h.blockStart_lt hb
  rw [blockSizeAt_eq, scalarBlockSum_ok, ok_bind, mul_comm]
  · simp only [pure_eq_ok, BlockArgs.weight, blockCode_drop]
  · rw [List.length_drop, colBlockSize]
    omega
  · omega

end

end Terllama
