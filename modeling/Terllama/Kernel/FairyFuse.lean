import Terllama.Base.Bits
import Terllama.Kernel.Blocks

/-!
# The zero-multiplication AVX-512 block kernel

`reverse_2bit_codes` and `ternary_mul_avx512_fairyfuse` of `src/kernel_avx2.cpp`. A register of
sixteen floats is a function on `Fin 16`, a write mask the word whose bit `i` selects lane `i`, and
a masked load reads the selected lanes only, so that it is undefined when one of those is past the
input and in no other case.

The lane argument is in `laneWeight`: after the reversal and the two extracts, the add mask selects
the lanes whose code is 2 and the subtract mask those whose code is 0. A chunk then adds the
products of its columns lane by lane (`fairyfuseChunk_ok`), and the horizontal sum at the end of a
row is the sum over all columns.
-/

namespace Terllama

/-! ## The kernel -/

/-- `reverse_2bit_codes`. -/
def reverse2bitCodes (x : UInt8) : UInt8 :=
  ((x &&& 0x03) <<< 6) ||| ((x &&& 0x0C) <<< 2) ||| ((x &&& 0x30) >>> 2) ||| ((x &&& 0xC0) >>> 6)

/-- `_pext_u32`. -/
def pextU32 (x mask : UInt32) : UInt32 := UInt32.ofNat (pext 32 x.toNat mask.toNat)

/-- The four bytes of a code word, each with its codes reversed. -/
def reorderCodes (codes32 : UInt32) : UInt32 :=
  let byte (s : UInt32) : UInt8 := reverse2bitCodes ((codes32 >>> s) &&& 0xFF).toUInt8
  packBytes (byte 0) (byte 8) (byte 16) (byte 24)

/-- The add mask of a reordered code word. -/
def addMask (codes32 : UInt32) : UInt16 :=
  let loBits := pextU32 codes32 0x55555555
  let hiBits := pextU32 codes32 0xAAAAAAAA
  (hiBits &&& ~~~loBits).toUInt16

/-- The subtract mask of a reordered code word. -/
def subMask (codes32 : UInt32) : UInt16 :=
  let loBits := pextU32 codes32 0x55555555
  let hiBits := pextU32 codes32 0xAAAAAAAA
  (~~~(hiBits ||| loBits) &&& (0xFFFF : UInt32)).toUInt16

/-- The load mask of a chunk. -/
def loadMask (chunk : Nat) : UInt16 := if chunk = 16 then 0xFFFF else UInt16.ofNat ((1 <<< chunk) - 1)

/-- A mask selects a lane. -/
def selects (mask : UInt16) (i : Fin 16) : Bool := mask.toNat.testBit i

section
variable {K : Type} [CommRing K]

/-- `_mm512_mask_loadu_ps`, with zero in the lanes that are not selected. -/
def maskLoadu (mask : UInt16) (input : List K) (off : Nat) : Exec (Fin 16 → K) :=
  if ∀ i : Fin 16, selects mask i → off + i < input.length then
    .ok fun i => if selects mask i then input.getD (off + i) 0 else 0
  else undefined "read outside the buffer"

/-- `_mm512_mask_add_ps`. -/
def maskAdd (src : Fin 16 → K) (mask : UInt16) (x y : Fin 16 → K) (i : Fin 16) : K :=
  if selects mask i then x i + y i else src i

/-- `_mm512_mask_sub_ps`. -/
def maskSub (src : Fin 16 → K) (mask : UInt16) (x y : Fin 16 → K) (i : Fin 16) : K :=
  if selects mask i then x i - y i else src i

/-- `_mm512_fmadd_ps`. -/
def fmadd (x y z : Fin 16 → K) (i : Fin 16) : K := x i * y i + z i

/-- One pass of the loop over the chunks of sixteen columns of a block. -/
def fairyfuseChunk (packed : Bytes) (input : List K) (blockStart blockSize : Nat)
    (bacc : Fin 16 → K) (j : Nat) : Exec (Fin 16 → K) := do
  let base := j * 16
  let rem := blockSize - base
  let chunk := if rem > 16 then 16 else rem
  let bytes ← slice packed (j * 4) 4
  let codes32 := reorderCodes (UInt32.ofNat (leNat bytes))
  let vin ← maskLoadu (loadMask chunk) input (blockStart + base)
  let tmp := maskAdd 0 (addMask codes32) 0 vin
  let tmp := maskSub tmp (subMask codes32) 0 vin
  return bacc + tmp

/-- A row of `ternary_mul_avx512_fairyfuse`, before the horizontal sum. -/
def fairyfuseRow (a : BlockArgs K) (row : Nat) : Exec (Fin 16 → K) :=
  blockLoops a row (fun vacc packed wScale blockStart => do
    let blockSize := min colBlockSize (a.inF - blockStart)
    let bacc ← (List.range ((blockSize + 15) / 16)).foldlM
      (fairyfuseChunk packed a.input blockStart blockSize) 0
    return fmadd (fun _ => wScale) bacc vacc) 0

/-- `ternary_mul_avx512_fairyfuse`; `_mm512_reduce_add_ps` is the sum of the lanes. -/
def ternaryMulAvx512Fairyfuse (a : BlockArgs K) : Exec (List K) :=
  (List.range a.outF).mapM fun row => do
    let vacc ← fairyfuseRow a row
    return ∑ i, vacc i

end

/-! ## Masks -/

/-- The codes of a reversed byte: two neighbouring bits of the reversed byte spell the code at that
position of the original one. -/
theorem reverse2bitCodes_table : ∀ n : Fin 256, ∀ k : Fin 4,
    codeValue (UInt8.ofNat n) (6 - 2 * UInt8.ofNat k) =
      2 * ((reverse2bitCodes (UInt8.ofNat n)).toNat.testBit (2 * k + 1)).toNat +
        ((reverse2bitCodes (UInt8.ofNat n)).toNat.testBit (2 * k)).toNat - 1 := by
  decide +kernel

theorem codeValue_reverse (x : UInt8) (k : Fin 4) :
    codeValue x (6 - 2 * UInt8.ofNat k) =
      2 * ((reverse2bitCodes x).toNat.testBit (2 * k + 1)).toNat +
        ((reverse2bitCodes x).toNat.testBit (2 * k)).toNat - 1 := by
  have h := reverse2bitCodes_table ⟨x.toNat, x.toNat_lt⟩ k
  rwa [show UInt8.ofNat x.toNat = x from UInt8.ofNat_toNat] at h

theorem pextU32_even (x : UInt32) {i : Nat} (hi : i < 16) :
    (pextU32 x 0x55555555).toNat.testBit i = x.toNat.testBit (2 * i) := by
  have hmask : (0x55555555 : UInt32).toNat = evenMask 16 := rfl
  rw [pextU32, UInt32.toNat_ofNat', Nat.testBit_mod_two_pow, hmask, show 32 = 2 * 16 from rfl,
    testBit_pext_even]
  simp [hi, show i < 2 * 16 by omega]

theorem pextU32_odd (x : UInt32) {i : Nat} (hi : i < 16) :
    (pextU32 x 0xAAAAAAAA).toNat.testBit i = x.toNat.testBit (2 * i + 1) := by
  have hmask : (0xAAAAAAAA : UInt32).toNat = 2 * evenMask 16 := rfl
  rw [pextU32, UInt32.toNat_ofNat', Nat.testBit_mod_two_pow, hmask, show 32 = 2 * 16 from rfl,
    testBit_pext_odd]
  simp [hi, show i < 2 * 16 by omega]

theorem selects_toUInt16 (x : UInt32) (i : Fin 16) :
    selects x.toUInt16 i = x.toNat.testBit i := by
  rw [selects, UInt32.toNat_toUInt16, Nat.testBit_mod_two_pow]
  simp

theorem selects_addMask (codes32 : UInt32) (i : Fin 16) :
    selects (addMask codes32) i =
      (codes32.toNat.testBit (2 * i + 1) && !codes32.toNat.testBit (2 * i)) := by
  rw [addMask, selects_toUInt16, UInt32.toNat_and, Nat.testBit_and, testBit_not_u32 _ (by omega),
    pextU32_even _ i.isLt, pextU32_odd _ i.isLt]

theorem selects_subMask (codes32 : UInt32) (i : Fin 16) :
    selects (subMask codes32) i =
      !(codes32.toNat.testBit (2 * i + 1) || codes32.toNat.testBit (2 * i)) := by
  rw [subMask, selects_toUInt16, UInt32.toNat_and, Nat.testBit_and, testBit_not_u32 _ (by omega),
    UInt32.toNat_or, Nat.testBit_or, pextU32_even _ i.isLt, pextU32_odd _ i.isLt,
    show (0xFFFF : UInt32).toNat = 2 ^ 16 - 1 from rfl, Nat.testBit_two_pow_sub_one]
  simp

theorem selects_loadMask {chunk : Nat} (h : chunk ≤ 16) (i : Fin 16) :
    selects (loadMask chunk) i = decide (i.val < chunk) := by
  unfold loadMask selects
  split
  · rename_i h16
    rw [show (0xFFFF : UInt16).toNat = 2 ^ 16 - 1 from rfl, Nat.testBit_two_pow_sub_one, h16]
  · have hlt : 2 ^ chunk - 1 < 2 ^ 16 := by
      have : 2 ^ chunk ≤ 2 ^ 16 := Nat.pow_le_pow_right (by omega) h
      have := Nat.two_pow_pos chunk
      omega
    rw [Nat.shiftLeft_eq, Nat.one_mul, UInt16.toNat_ofNat', Nat.mod_eq_of_lt hlt,
      Nat.testBit_two_pow_sub_one]

/-- Bit `i` of a byte of the reordered word is bit `i` of the reversed byte. -/
theorem testBit_reorderCodes (bs : Fin 4 → UInt8) (m : Fin 4) {i : Nat} (hi : i < 8) :
    (reorderCodes (UInt32.ofNat (leNat [bs 0, bs 1, bs 2, bs 3]))).toNat.testBit (8 * m + i) =
      (reverse2bitCodes (bs m)).toNat.testBit i := by
  have h₀ := byte_of_word bs 0
  have h₁ := byte_of_word bs 1
  have h₂ := byte_of_word bs 2
  have h₃ := byte_of_word bs 3
  generalize UInt32.ofNat (leNat [bs 0, bs 1, bs 2, bs 3]) = w at h₀ h₁ h₂ h₃ ⊢
  have h : reorderCodes w =
      packBytes (reverse2bitCodes (bs 0)) (reverse2bitCodes (bs 1)) (reverse2bitCodes (bs 2))
        (reverse2bitCodes (bs 3)) := by
    rw [← h₀, ← h₁, ← h₂, ← h₃]
    rfl
  rw [h]
  exact testBit_packBytes (fun m => reverse2bitCodes (bs m)) m hi

/-! ## One chunk -/

/-- The weight of a lane of a code word. -/
def laneWeight (bs : Fin 4 → UInt8) (i : Fin 16) : Int :=
  codeValue (bs ⟨i / 4, by omega⟩) (6 - 2 * UInt8.ofNat (i % 4))

/-- The two masks select the lanes of weight `1` and `-1`, unless a code is 3. -/
theorem selects_masks (bs : Fin 4 → UInt8) {i : Fin 16} (h : laneWeight bs i ≠ 2) :
    let codes32 := reorderCodes (UInt32.ofNat (leNat [bs 0, bs 1, bs 2, bs 3]))
    (laneWeight bs i = 1 ∧ selects (addMask codes32) i = true ∧ selects (subMask codes32) i = false) ∨
    (laneWeight bs i = 0 ∧ selects (addMask codes32) i = false ∧ selects (subMask codes32) i = false) ∨
    (laneWeight bs i = -1 ∧ selects (addMask codes32) i = false ∧ selects (subMask codes32) i = true) := by
  intro codes32
  let m : Fin 4 := ⟨i / 4, by omega⟩
  let k : Fin 4 := ⟨i % 4, by omega⟩
  have hlo : codes32.toNat.testBit (2 * i) = (reverse2bitCodes (bs m)).toNat.testBit (2 * k) := by
    rw [← testBit_reorderCodes bs m (i := 2 * k) (by omega)]
    congr 1
    simp only [m, k]
    omega
  have hhi : codes32.toNat.testBit (2 * i + 1) =
      (reverse2bitCodes (bs m)).toNat.testBit (2 * k + 1) := by
    rw [← testBit_reorderCodes bs m (i := 2 * k + 1) (by omega)]
    congr 1
    simp only [m, k]
    omega
  have hweight : laneWeight bs i =
      2 * ((reverse2bitCodes (bs m)).toNat.testBit (2 * k + 1)).toNat +
        ((reverse2bitCodes (bs m)).toNat.testBit (2 * k)).toNat - 1 := codeValue_reverse (bs m) k
  rw [selects_addMask, selects_subMask, hlo, hhi]
  rw [hweight] at h ⊢
  generalize (reverse2bitCodes (bs m)).toNat.testBit (2 * k) = lo at h ⊢
  generalize (reverse2bitCodes (bs m)).toNat.testBit (2 * k + 1) = hi at h ⊢
  cases lo <;> cases hi <;> simp at h ⊢

section
variable {K : Type} [CommRing K]

/-- A lane of the two masked operations is the product of its weight and its input. -/
theorem maskSub_maskAdd (bs : Fin 4 → UInt8) (vin : Fin 16 → K) {i : Fin 16}
    (h : vin i = 0 ∨ laneWeight bs i ≠ 2) :
    let codes32 := reorderCodes (UInt32.ofNat (leNat [bs 0, bs 1, bs 2, bs 3]))
    maskSub (maskAdd 0 (addMask codes32) 0 vin) (subMask codes32) 0 vin i =
      vin i * (laneWeight bs i : K) := by
  intro codes32
  rcases h with h | h
  · simp only [maskSub, maskAdd, h, Pi.zero_apply, add_zero, sub_zero, ite_self, zero_mul]
  · rcases selects_masks bs h with ⟨hw, ha, hs⟩ | ⟨hw, ha, hs⟩ | ⟨hw, ha, hs⟩ <;>
      simp [maskSub, maskAdd, codes32, ha, hs, hw]

theorem maskLoadu_ok {chunk off : Nat} {input : List K} (hchunk : chunk ≤ 16)
    (h : off + chunk ≤ input.length) :
    maskLoadu (loadMask chunk) input off =
      .ok fun i => if i.val < chunk then input.getD (off + i) 0 else 0 := by
  have hread : ∀ i : Fin 16, selects (loadMask chunk) i → off + i < input.length := by
    intro i hi
    rw [selects_loadMask hchunk, decide_eq_true_eq] at hi
    omega
  rw [maskLoadu, if_pos hread]
  simp only [selects_loadMask hchunk, decide_eq_true_eq]

/-- A chunk adds the products of its columns to their lanes. -/
theorem fairyfuseChunk_ok {packed : Bytes} {input : List K} {blockStart blockSize j : Nat}
    (hj : j < (blockSize + 15) / 16) (hpacked : j * 4 + 4 ≤ packed.length)
    (hinput : blockStart + blockSize ≤ input.length)
    (hcodes : ∀ i < blockSize, blockCode packed i ≠ 2) (bacc : Fin 16 → K) :
    fairyfuseChunk packed input blockStart blockSize bacc j = .ok (bacc + fun i : Fin 16 =>
      if j * 16 + i < blockSize then
        input.getD (blockStart + (j * 16 + i)) 0 * (blockCode packed (j * 16 + i) : K) else 0) := by
  let bs : Fin 4 → UInt8 := fun m => packed.getD (j * 4 + m) 0
  have hbytes : slice packed (j * 4) 4 = .ok [bs 0, bs 1, bs 2, bs 3] := by
    rw [slice_ok hpacked]
    refine congrArg Except.ok (List.ext_getElem (by simp; omega) ?_)
    intro m h₁ h₂
    have hm : m < 4 := by simpa using h₂
    interval_cases m <;> simp [bs, List.getD_eq_getElem?_getD, show j * 4 < packed.length by omega,
      show j * 4 + 1 < packed.length by omega, show j * 4 + 2 < packed.length by omega,
      show j * 4 + 3 < packed.length by omega]
  have hlane : ∀ i : Fin 16, laneWeight bs i = blockCode packed (j * 16 + i) := by
    intro i
    have hdiv : (j * 16 + i.val) / 4 = j * 4 + i / 4 := by omega
    have hmod : (j * 16 + i.val) % 4 = i % 4 := by omega
    simp only [laneWeight, blockCode, hdiv, hmod, bs]
  have hchunk : (if blockSize - j * 16 > 16 then 16 else blockSize - j * 16) =
      min 16 (blockSize - j * 16) := by
    split <;> omega
  simp only [fairyfuseChunk, hbytes, ok_bind, hchunk]
  rw [maskLoadu_ok (by omega) (by omega), ok_bind]
  refine congrArg Except.ok (congrArg (bacc + ·) (funext fun i => ?_))
  have hvin : (if i.val < min 16 (blockSize - j * 16) then
      input.getD (blockStart + j * 16 + i) 0 else 0) =
      if j * 16 + i < blockSize then input.getD (blockStart + (j * 16 + i)) (0 : K) else 0 := by
    rw [Nat.add_assoc]
    exact if_congr (by omega) rfl rfl
  rw [maskSub_maskAdd bs _ (i := i), hvin, hlane, ite_mul, zero_mul]
  · by_cases hi : j * 16 + i.val < blockSize
    · exact .inr (by rw [hlane]; exact hcodes _ hi)
    · exact .inl (by rw [hvin, if_neg hi])

/-! ## Rows -/

variable {a : BlockArgs K}

/-- The AVX-512 kernel computes the linear map of its arguments. -/
theorem ternaryMulAvx512Fairyfuse_ok (h : a.Valid) (hcodes : a.Ternary) :
    ternaryMulAvx512Fairyfuse a = .ok ((List.range a.outF).map a.rowDot) := by
  refine mapM_ok fun row hrow => ?_
  have hrow := List.mem_range.1 hrow
  have hinput := h.input_length
  have hblock : ∀ t < a.nTerms, ∀ b < a.nBlocks, ∀ vacc : Fin 16 → K,
      (do
        let blockSize := min colBlockSize (a.inF - b * colBlockSize)
        let bacc ← (List.range ((blockSize + 15) / 16)).foldlM
          (fairyfuseChunk ((a.rowData t row).drop (b * 32)) a.input (b * colBlockSize) blockSize) 0
        return fmadd (fun _ => a.scale t row b) bacc vacc) =
      .ok (vacc + fun i => a.scale t row b *
        (∑ j ∈ Finset.range ((min colBlockSize (a.inF - b * colBlockSize) + 15) / 16),
          (fun i : Fin 16 => if j * 16 + i < min colBlockSize (a.inF - b * colBlockSize) then
            a.input.getD (b * colBlockSize + (j * 16 + i)) 0 *
              (a.weight t row (b * colBlockSize + (j * 16 + i)) : K) else 0)) i) := by
    intro t ht b hb vacc
    have hdata := h.data_length t ht row hrow
    have hstart := h.blockStart_lt hb
    dsimp only
    rw [foldlM_range_add fun bacc j hj => fairyfuseChunk_ok hj
      (by rw [List.length_drop]; rw [colBlockSize] at hj; omega) (by omega)
      (by
        intro i hi
        rw [blockCode_drop]
        have hcovered := h.inF_le
        exact hcodes t ht row hrow _ (by omega)) bacc, ok_bind, zero_add]
    refine congrArg Except.ok (funext fun i => ?_)
    simp only [fmadd, Pi.add_apply, blockCode_drop, BlockArgs.weight]
    rw [add_comm]
  rw [fairyfuseRow, blockLoops_add h hrow hblock, ok_bind, zero_add, h.rowDot_eq row]
  refine congrArg Except.ok ?_
  simp only [Finset.sum_apply]
  rw [Finset.sum_comm]
  refine Finset.sum_congr rfl fun t _ => ?_
  rw [Finset.sum_comm]
  refine Finset.sum_congr rfl fun b _ => ?_
  have hsum := sum_lane_chunks (fun j => a.input.getD (b * colBlockSize + j) 0 *
    (a.weight t row (b * colBlockSize + j) : K)) (l := 16)
    (n := min colBlockSize (a.inF - b * colBlockSize))
    (m := (min colBlockSize (a.inF - b * colBlockSize) + 15) / 16) (by omega)
  rw [← Finset.mul_sum, hsum]

end

end Terllama
