import Mathlib.Algebra.Order.Field.Basic
import Terllama.Base.Lanes
import Terllama.Kernel.Blocks

/-!
# The INT8 AVX2 block kernel

`quantize_activations_to_i8` and `ternary_mul_avx2_blocks` of `src/kernel_avx2.cpp`: the activations
are quantised to signed bytes with one scale for the whole vector, each block is an integer dot
product, and the row is rescaled at the end.

The integer part is exact: no lane saturates or wraps, and the bias of 128 that makes the
activations unsigned is undone (`int8BlockDot_ok`). The rescaling is where the kernel departs from
the scalar one: a quantised activation stands for itself times the activation scale, and the kernel
multiplies by the reciprocal of the scale instead. `Terllama.Kernel.QuantError` says for which
activations the result is still within the quantisation error.
-/

namespace Terllama

/-! ## Quantisation -/

section
variable {K : Type} [Field K] [LinearOrder K]

/-- `max_val = std::max(max_val, std::abs(x[i]))`, and lane by lane the vector form of it. -/
def absMax (acc v : K) : K := max acc |v|

/-- The horizontal maximum of eight lanes. -/
def hmaxPs (v : Fin 8 → K) : K :=
  let lo : Fin 4 → K := fun i => max (lowHalf v i) (highHalf v i)
  let lo : Fin 4 → K := fun i => max (lo i) (shuffle lo ![1, 0, 3, 2] i)
  let lo : Fin 4 → K := fun i => max (lo i) (shuffle lo ![2, 3, 0, 1] i)
  lo 0

/-- The scan of `quantize_activations_to_i8` for the largest magnitude: eight lanes at a time, then
the remaining elements. -/
def scanAbsMax (x : List K) (n : Nat) : Exec K := do
  let vmax ← (List.range (n / 8)).foldlM (fun vmax c => do
    let v ← loadu 8 x (8 * c) 0
    return fun i => absMax (vmax i) (v i)) (fun _ => 0)
  let maxVal ← (List.range (n - 8 * (n / 8))).foldlM (fun maxVal k => do
    let v ← load x (8 * (n / 8) + k)
    return absMax maxVal v) 0
  let simdMax := hmaxPs vmax
  return if simdMax > maxVal then simdMax else maxVal

variable (trunc : K → Int)

/-- `_mm256_cvttps_epi32` on a lane: `INT_MIN` where the truncated value is not an `int`. -/
def cvttps (v : K) : Int :=
  if -2147483648 ≤ trunc v ∧ trunc v ≤ 2147483647 then trunc v else -2147483648

/-- A lane of the vector form of the quantisation. -/
def quantizeLane (scale v : K) : Int := sat8 (sat16 (min 127 (max (-128) (cvttps trunc (v / scale)))))

/-- The scalar form of the quantisation. -/
def quantizeScalar (scale v : K) : Exec Int := do
  let q ← i32 (trunc (v / scale))
  return max (-128) (min 127 q)

/-- `quantize_activations_to_i8`: the quantised activations and the scale. The stores are
consecutive, so that the buffer is what they write in order. -/
def quantizeActivationsToI8 (x : List K) (n : Nat) : Exec (List Int × K) := do
  let maxVal ← scanAbsMax x n
  if maxVal < 1 / 10000000000 then return (List.replicate n 0, 1)
  else
    let scale := maxVal / 127
    let lanes ← (List.range (n / 8)).mapM fun c => do
      let v ← loadu 8 x (8 * c) 0
      return List.ofFn fun i => quantizeLane trunc scale (v i)
    let tail ← (List.range (n - 8 * (n / 8))).mapM fun k => do
      quantizeScalar trunc scale (← load x (8 * (n / 8) + k))
    return (lanes.flatten ++ tail, scale)

end

/-! ## The integer dot product -/

/-- `hsum_epi32`. -/
def hsumEpi32 (v : Fin 8 → Int) : Int :=
  let lo := addEpi32 (lowHalf v) (highHalf v)
  let lo := addEpi32 lo (shuffle lo ![1, 0, 3, 2])
  let lo := addEpi32 lo (shuffle lo ![2, 3, 0, 1])
  lo 0

/-- `decode_block_ternary_avx2`: the 128 weights of a block. -/
def decodeBlockTernaryAvx2 (packed : Bytes) : Exec (List Int) := do
  let groups ← (List.range 32).mapM fun i => do
    let byte ← load packed i
    return [codeValue byte 6, codeValue byte 4, codeValue byte 2, codeValue byte 0]
  return groups.flatten

/-- One pass of the vector loop of a block: the dot product and the sum of the weights. -/
def int8Chunk (inputI8 decodedW : List Int) (blockStart : Nat) (acc : (Fin 8 → Int) × (Fin 8 → Int))
    (c : Nat) : Exec ((Fin 8 → Int) × (Fin 8 → Int)) := do
  let (dot32, sw32) := acc
  let u ← loadu 32 inputI8 (blockStart + c * 32) 0
  let u := addEpi8 u fun _ => -128
  let w ← loadu 32 decodedW (c * 32) 0
  let p := maddubsEpi16 u w
  let pw := maddubsEpi16 (fun _ => 1) w
  return (addEpi32 dot32 (maddEpi16 p fun _ => 1), addEpi32 sw32 (maddEpi16 pw fun _ => 1))

/-- The dot product of a block. -/
def int8BlockDot (inputI8 decodedW : List Int) (blockStart blockSize : Nat) : Exec Int := do
  let (dot32, sw32) ← (List.range (blockSize / 32)).foldlM (int8Chunk inputI8 decodedW blockStart)
    (fun _ => 0, fun _ => 0)
  let correction ← i32 (128 * hsumEpi32 sw32)
  let dot ← i32 (hsumEpi32 dot32 - correction)
  let j := blockSize / 32 * 32
  (List.range (blockSize - j)).foldlM (fun dot k => do
    let x ← load inputI8 (blockStart + (j + k))
    let w ← load decodedW (j + k)
    i32 (dot + x * w)) dot

/-- A row of `ternary_mul_avx2_blocks`. -/
def avx2BlocksRow {K : Type} [Field K] (a : BlockArgs K) (inputI8 : List Int) (invActScale : K)
    (row : Nat) : Exec K := do
  let sum ← blockLoops a row (fun sum packed wScale blockStart => do
    let decodedW ← decodeBlockTernaryAvx2 packed
    let dot ← int8BlockDot inputI8 decodedW blockStart (blockSizeAt a.inF blockStart)
    return sum + (dot : K) * wScale) 0
  return sum * invActScale

/-- `ternary_mul_avx2_blocks`, its rows one after another. -/
def ternaryMulAvx2Blocks {K : Type} [Field K] [LinearOrder K] (trunc : K → Int) (a : BlockArgs K) :
    Exec (List K) := do
  let (inputI8, actScale) ← quantizeActivationsToI8 trunc a.input a.inF
  let invActScale := 1 / actScale
  (List.range a.outF).mapM (avx2BlocksRow a inputI8 invActScale)

/-! ## The dot product is exact -/

/-- The horizontal sum of small lanes is their sum. -/
theorem hsumEpi32_eq {v : Fin 8 → Int} (h : ∀ i, |v i| ≤ 65536) : hsumEpi32 v = ∑ i, v i := by
  have hb : ∀ i, -65536 ≤ v i ∧ v i ≤ 65536 := fun i => abs_le.1 (h i)
  have h₀ := hb 0
  have h₁ := hb 1
  have h₂ := hb 2
  have h₃ := hb 3
  have h₄ := hb 4
  have h₅ := hb 5
  have h₆ := hb 6
  have h₇ := hb 7
  have hlane : ∀ i : Fin 4, addEpi32 (lowHalf v) (highHalf v) i = lowHalf v i + highHalf v i := by
    intro i
    have := abs_le.1 (h ⟨i, by omega⟩)
    have := abs_le.1 (h ⟨4 + i, by omega⟩)
    exact wrap32_eq (abs_lt.2 (by simp only [lowHalf, highHalf]; omega))
  have hsum : ∑ i, v i = v 0 + v 1 + v 2 + v 3 + v 4 + v 5 + v 6 + v 7 := by
    simp [Fin.sum_univ_succ]
    ring
  have hlow : lowHalf v = ![v 0, v 1, v 2, v 3] := by
    funext i; fin_cases i <;> rfl
  have hhigh : highHalf v = ![v 4, v 5, v 6, v 7] := by
    funext i; fin_cases i <;> rfl
  rw [hsum]
  simp only [hsumEpi32]
  rw [show addEpi32 (lowHalf v) (highHalf v) = ![v 0 + v 4, v 1 + v 5, v 2 + v 6, v 3 + v 7] by
    funext i; rw [hlane, hlow, hhigh]; fin_cases i <;> rfl]
  simp only [addEpi32, shuffle]
  simp
  rw [wrap32_eq (n := v 0 + v 4 + (v 1 + v 5)) (abs_lt.2 (by omega)),
    wrap32_eq (n := v 2 + v 6 + (v 3 + v 7)) (abs_lt.2 (by omega)),
    wrap32_eq (abs_lt.2 (by omega))]
  ring

/-- The horizontal addition that follows `maddubs`: pairs of neighbouring lanes. -/
theorem maddEpi16_ones {p : Nat → Int} (h : ∀ i, |p i| ≤ 1020) (acc : Fin 8 → Int)
    (hacc : ∀ i, |acc i| ≤ 65536) :
    addEpi32 acc (maddEpi16 (fun i : Fin 16 => p i) fun _ => 1) =
      acc + fun i : Fin 8 => p (2 * i) + p (2 * i + 1) := by
  funext i
  have h₀ := abs_le.1 (h (2 * i))
  have h₁ := abs_le.1 (h (2 * i + 1))
  have ha := abs_le.1 (hacc i)
  simp only [addEpi32, maddEpi16, mul_one, Pi.add_apply]
  rw [wrap32_eq (n := p (2 * i) + p (2 * i + 1)) (abs_lt.2 (by omega)),
    wrap32_eq (abs_lt.2 (by omega))]

section
variable {u v : Nat → Int}

theorem abs_biased_mul (hu : ∀ k, -128 ≤ u k ∧ u k ≤ 127) (hv : ∀ k, -2 ≤ v k ∧ v k ≤ 2) (k : Nat) :
    |(u k + 128) * v k| ≤ 510 := by
  have hk := hu k
  rw [abs_mul]
  calc |u k + 128| * |v k| ≤ 255 * 2 :=
        mul_le_mul (abs_le.2 (by omega)) (abs_le.2 (hv k)) (abs_nonneg _) (by omega)
    _ = 510 := rfl

/-- Biased activations times weights do not saturate. -/
theorem maddubs_biased (hu : ∀ k, -128 ≤ u k ∧ u k ≤ 127) (hv : ∀ k, -2 ≤ v k ∧ v k ≤ 2) :
    maddubsEpi16 (addEpi8 (fun i : Fin 32 => u i) fun _ => -128) (fun i => v i) =
      fun i : Fin 16 => (u (2 * i) + 128) * v (2 * i) + (u (2 * i + 1) + 128) * v (2 * i + 1) := by
  have hbias : ∀ k, (u k + -128).bmod 256 % 256 = u k + 128 := by
    intro k
    have hk := hu k
    have hmod : (u k + -128).bmod 256 % 256 = (u k + -128) % 256 := Int.bmod_emod
    omega
  funext i
  have h₀ := abs_le.1 (abs_biased_mul hu hv (2 * i))
  have h₁ := abs_le.1 (abs_biased_mul hu hv (2 * i + 1))
  simp only [maddubsEpi16, addEpi8, hbias]
  exact sat16_eq (abs_le.2 (by omega))

/-- Nor does the sum of two weights. -/
theorem maddubs_ones (hv : ∀ k, -2 ≤ v k ∧ v k ≤ 2) :
    maddubsEpi16 (fun _ => 1) (fun i => v i) =
      fun i : Fin 16 => v (2 * i) + v (2 * i + 1) := by
  funext i
  have h₀ := hv (2 * i)
  have h₁ := hv (2 * i + 1)
  simp only [maddubsEpi16, show (1 : Int) % 256 = 1 from rfl, one_mul]
  exact sat16_eq (abs_le.2 (by omega))

end

/-- Signed bytes and decoded weights. -/
structure Int8Operands (x w : List Int) : Prop where
  act : ∀ j, -128 ≤ x.getD j 0 ∧ x.getD j 0 ≤ 127
  weight : ∀ j, -2 ≤ w.getD j 0 ∧ w.getD j 0 ≤ 2

section
variable {x w : List Int} {start : Nat}

/-- What a chunk adds to a lane of the dot product, activations biased. -/
def biasedLane (x w : List Int) (start c : Nat) (i : Fin 8) : Int :=
  ∑ k ∈ Finset.range 4,
    (x.getD (start + (c * 32 + (i * 4 + k))) 0 + 128) * w.getD (c * 32 + (i * 4 + k)) 0

/-- What a chunk adds to a lane of the sum of the weights. -/
def weightLane (w : List Int) (c : Nat) (i : Fin 8) : Int :=
  ∑ k ∈ Finset.range 4, w.getD (c * 32 + (i * 4 + k)) 0

/-- A pass of the vector loop adds its lanes exactly. -/
theorem int8Chunk_ok (h : Int8Operands x w) {c : Nat} (hx : start + c * 32 + 32 ≤ x.length)
    (hw : c * 32 + 32 ≤ w.length) {acc : (Fin 8 → Int) × (Fin 8 → Int)}
    (hacc : ∀ i, |acc.1 i| ≤ 65536 ∧ |acc.2 i| ≤ 65536) :
    int8Chunk x w start acc c =
      .ok (acc.1 + biasedLane x w start c, acc.2 + weightLane w c) := by
  have hu : ∀ k, -128 ≤ x.getD (start + c * 32 + k) 0 ∧ x.getD (start + c * 32 + k) 0 ≤ 127 :=
    fun k => h.act _
  have hv : ∀ k, -2 ≤ w.getD (c * 32 + k) 0 ∧ w.getD (c * 32 + k) 0 ≤ 2 := fun k => h.weight _
  have hindex : ∀ i : Fin 8, 2 * (2 * i.val) = i * 4 ∧ 2 * (2 * i.val + 1) = i * 4 + 2 :=
    fun i => by omega
  simp only [int8Chunk, loadu_ok hx, loadu_ok hw, ok_bind]
  rw [maddubs_biased hu hv, maddubs_ones hv,
    maddEpi16_ones (p := fun i => (x.getD (start + c * 32 + 2 * i) 0 + 128) *
      w.getD (c * 32 + 2 * i) 0 + (x.getD (start + c * 32 + (2 * i + 1)) 0 + 128) *
        w.getD (c * 32 + (2 * i + 1)) 0) ?_ _ fun i => (hacc i).1,
    maddEpi16_ones (p := fun i => w.getD (c * 32 + 2 * i) 0 + w.getD (c * 32 + (2 * i + 1)) 0)
      ?_ _ fun i => (hacc i).2]
  · refine congrArg Except.ok (Prod.ext (congrArg (acc.1 + ·) (funext fun i => ?_))
      (congrArg (acc.2 + ·) (funext fun i => ?_)))
    · simp only [biasedLane, Finset.sum_range_succ, Finset.sum_range_zero, zero_add, hindex i,
        add_assoc, Nat.reduceAdd, Nat.add_zero]
    · simp only [weightLane, Finset.sum_range_succ, Finset.sum_range_zero, zero_add, hindex i,
        add_assoc, Nat.reduceAdd, Nat.add_zero]
  · intro i
    have h₀ := hv (2 * i)
    have h₁ := hv (2 * i + 1)
    exact abs_le.2 (by omega)
  · intro i
    have h₀ := abs_le.1 (abs_biased_mul hu hv (2 * i))
    have h₁ := abs_le.1 (abs_biased_mul hu hv (2 * i + 1))
    exact abs_le.2 (by omega)

theorem biasedLane_le (start : Nat) (h : Int8Operands x w) (c : Nat) (i : Fin 8) :
    |biasedLane x w start c i| ≤ 2040 := by
  have hterm : ∀ k ∈ Finset.range 4, |(x.getD (start + (c * 32 + (i * 4 + k))) 0 + 128) *
      w.getD (c * 32 + (i * 4 + k)) 0| ≤ 510 := fun k _ =>
    abs_biased_mul (u := fun k => x.getD (start + k) 0) (v := fun k => w.getD k 0)
      (fun k => h.act _) h.weight _
  calc |biasedLane x w start c i| ≤ ∑ k ∈ Finset.range 4, 510 :=
        (Finset.abs_sum_le_sum_abs _ _).trans (Finset.sum_le_sum hterm)
    _ = 2040 := rfl

theorem weightLane_le (h : Int8Operands x w) (c : Nat) (i : Fin 8) : |weightLane w c i| ≤ 8 := by
  have hterm : ∀ k ∈ Finset.range 4, |w.getD (c * 32 + (i * 4 + k)) 0| ≤ 2 :=
    fun k _ => abs_le.2 (h.weight _)
  calc |weightLane w c i| ≤ ∑ k ∈ Finset.range 4, 2 :=
        (Finset.abs_sum_le_sum_abs _ _).trans (Finset.sum_le_sum hterm)
    _ = 8 := rfl

/-- The vector loop of a block, with the bounds that keep its lanes from wrapping. -/
theorem int8Chunks_ok (start : Nat) (h : Int8Operands x w) {n : Nat} (hn : n ≤ 4)
    (hx : start + n * 32 ≤ x.length) (hw : n * 32 ≤ w.length) :
    (List.range n).foldlM (int8Chunk x w start) (fun _ => 0, fun _ => 0) =
        .ok (∑ c ∈ Finset.range n, biasedLane x w start c, ∑ c ∈ Finset.range n, weightLane w c) ∧
      ∀ i, |(∑ c ∈ Finset.range n, biasedLane x w start c) i| ≤ 2040 * n ∧
        |(∑ c ∈ Finset.range n, weightLane w c) i| ≤ 8 * n := by
  induction n with
  | zero => exact ⟨rfl, fun i => by simp⟩
  | succ n ih =>
    obtain ⟨hrun, hbound⟩ := ih (by omega) (by omega) (by omega)
    have hacc : ∀ i, |(∑ c ∈ Finset.range n, biasedLane x w start c) i| ≤ 65536 ∧
        |(∑ c ∈ Finset.range n, weightLane w c) i| ≤ 65536 := fun i =>
      ⟨(hbound i).1.trans (by omega), (hbound i).2.trans (by omega)⟩
    refine ⟨?_, fun i => ⟨?_, ?_⟩⟩
    · rw [List.range_succ, List.foldlM_append, hrun, ok_bind, List.foldlM_cons,
        int8Chunk_ok h (by omega) (by omega) hacc, Finset.sum_range_succ, Finset.sum_range_succ]
      rfl
    · rw [Finset.sum_range_succ]
      have h₁ := (hbound i).1
      have h₂ := biasedLane_le start h n i
      exact (abs_add_le _ _).trans (by push_cast; omega)
    · rw [Finset.sum_range_succ]
      have h₁ := (hbound i).2
      have h₂ := weightLane_le h n i
      exact (abs_add_le _ _).trans (by push_cast; omega)

/-- The lanes of `n` chunks hold the elements of the first `n * 32`. -/
theorem sum_groups (f : Nat → Int) (n : Nat) :
    ∑ i : Fin 8, ∑ c ∈ Finset.range n, ∑ k ∈ Finset.range 4, f (c * 32 + (i * 4 + k)) =
      ∑ j ∈ Finset.range (n * 32), f j := by
  have hchunk : ∀ c, ∑ i : Fin 8, ∑ k ∈ Finset.range 4, f (c * 32 + (i * 4 + k)) =
      ∑ m ∈ Finset.range 32, f (c * 32 + m) := by
    intro c
    rw [Fin.sum_univ_eq_sum_range fun i => ∑ k ∈ Finset.range 4, f (c * 32 + (i * 4 + k)),
      ← sum_blocks (fun m => f (c * 32 + m)) (q := 4) (m := 8) (by omega)]
    refine Finset.sum_congr rfl fun i hi => ?_
    have hi := Finset.mem_range.1 hi
    rw [show min 4 (32 - i * 4) = 4 by omega]
  rw [Finset.sum_comm]
  simp only [hchunk]
  rw [← sum_blocks f (q := 32) (Nat.le_refl (n * 32))]
  refine Finset.sum_congr rfl fun c hc => ?_
  have hc := Finset.mem_range.1 hc
  rw [show min 32 (n * 32 - c * 32) = 32 by omega]

/-- The dot product of the first `n` elements of a block, a sum that fits an `int`. -/
theorem abs_dot_le (start : Nat) (h : Int8Operands x w) (n : Nat) :
    |∑ j ∈ Finset.range n, x.getD (start + j) 0 * w.getD j 0| ≤ 256 * n := by
  have hterm : ∀ j ∈ Finset.range n, |x.getD (start + j) 0 * w.getD j 0| ≤ 256 := by
    intro j _
    have hx := h.act (start + j)
    rw [abs_mul]
    calc |x.getD (start + j) 0| * |w.getD j 0| ≤ 128 * 2 :=
          mul_le_mul (abs_le.2 (by omega)) (abs_le.2 (h.weight j)) (abs_nonneg _) (by omega)
      _ = 256 := rfl
  calc |∑ j ∈ Finset.range n, x.getD (start + j) 0 * w.getD j 0| ≤ ∑ j ∈ Finset.range n, 256 :=
        (Finset.abs_sum_le_sum_abs _ _).trans (Finset.sum_le_sum hterm)
    _ = 256 * n := by simp [mul_comm]

/-- The scalar tail continues a dot product. -/
theorem int8Tail_ok (h : Int8Operands x w) {j n : Nat} (hn : j + n ≤ 128)
    (hx : start + (j + n) ≤ x.length) (hw : j + n ≤ w.length) :
    (List.range n).foldlM (fun dot k => do
        let x ← load x (start + (j + k))
        let w ← load w (j + k)
        i32 (dot + x * w)) (∑ i ∈ Finset.range j, x.getD (start + i) 0 * w.getD i 0) =
      .ok (∑ i ∈ Finset.range (j + n), x.getD (start + i) 0 * w.getD i 0) := by
  induction n with
  | zero => rfl
  | succ n ih =>
    have hdot := abs_le.1 (abs_dot_le start h (j + n + 1))
    rw [Finset.sum_range_succ] at hdot
    rw [show j + (n + 1) = j + n + 1 from rfl, Finset.sum_range_succ, List.range_succ,
      List.foldlM_append, ih (by omega) (by omega) (by omega), ok_bind, List.foldlM_cons,
      load_getD (by omega) 0, ok_bind, load_getD (by omega) 0, ok_bind,
      i32_ok (by omega) (by omega)]
    rfl

/-- The dot product of a block is exact: it is the sum of the products of the quantised
activations and the weights, whatever path each of them takes. -/
theorem int8BlockDot_ok (h : Int8Operands x w) {n : Nat} (hn : n ≤ 128)
    (hx : start + n ≤ x.length) (hw : n ≤ w.length) :
    int8BlockDot x w start n = .ok (∑ j ∈ Finset.range n, x.getD (start + j) 0 * w.getD j 0) := by
  obtain ⟨hrun, hbound⟩ := int8Chunks_ok start (n := n / 32) h (by omega) (by omega)
    (by omega)
  have hdot32 : hsumEpi32 (∑ c ∈ Finset.range (n / 32), biasedLane x w start c) =
      ∑ j ∈ Finset.range (n / 32 * 32), (x.getD (start + j) 0 + 128) * w.getD j 0 := by
    rw [hsumEpi32_eq fun i => (hbound i).1.trans (by omega),
      ← sum_groups fun j => (x.getD (start + j) 0 + 128) * w.getD j 0]
    simp only [Finset.sum_apply, biasedLane]
  have hsw32 : hsumEpi32 (∑ c ∈ Finset.range (n / 32), weightLane w c) =
      ∑ j ∈ Finset.range (n / 32 * 32), w.getD j 0 := by
    rw [hsumEpi32_eq fun i => (hbound i).2.trans (by omega), ← sum_groups fun j => w.getD j 0]
    simp only [Finset.sum_apply, weightLane]
  have hsplit : ∑ j ∈ Finset.range (n / 32 * 32), (x.getD (start + j) 0 + 128) * w.getD j 0 -
      128 * ∑ j ∈ Finset.range (n / 32 * 32), w.getD j 0 =
      ∑ j ∈ Finset.range (n / 32 * 32), x.getD (start + j) 0 * w.getD j 0 := by
    rw [Finset.mul_sum, ← Finset.sum_sub_distrib]
    exact Finset.sum_congr rfl fun j _ => by ring
  have hsw : |∑ j ∈ Finset.range (n / 32 * 32), w.getD j 0| ≤ 256 := by
    calc |∑ j ∈ Finset.range (n / 32 * 32), w.getD j 0|
        ≤ ∑ j ∈ Finset.range (n / 32 * 32), 2 :=
          (Finset.abs_sum_le_sum_abs _ _).trans
            (Finset.sum_le_sum fun j _ => abs_le.2 (h.weight j))
      _ ≤ 256 := by
          rw [Finset.sum_const, Finset.card_range, nsmul_eq_mul]
          push_cast
          omega
  have hsw := abs_le.1 hsw
  have hdot := abs_le.1 (abs_dot_le start h (n / 32 * 32))
  rw [int8BlockDot, hrun, ok_bind]
  simp only [hdot32, hsw32]
  rw [i32_ok (by omega) (by omega), ok_bind, hsplit, i32_ok (by omega) (by omega), ok_bind,
    int8Tail_ok h (by omega) (by omega) (by omega), Nat.add_sub_cancel' (by omega)]

end

/-! ## Decoded blocks -/

theorem codeValue_range (byte shift : UInt8) : -1 ≤ codeValue byte shift ∧ codeValue byte shift ≤ 2 := by
  have h : ((byte >>> shift) &&& 0x03).toNat ≤ 3 := by
    rw [UInt8.toNat_and]
    exact Nat.and_le_right
  unfold codeValue
  omega

/-- A decoded block is the list of its weights. -/
theorem decodeBlockTernaryAvx2_ok {packed : Bytes} (h : 32 ≤ packed.length) :
    decodeBlockTernaryAvx2 packed = .ok ((List.range 128).map (blockCode packed)) := by
  have hgroups : ∀ i ∈ List.range 32, (do
      let byte ← load packed i
      return [codeValue byte 6, codeValue byte 4, codeValue byte 2, codeValue byte 0]) =
      .ok ((List.range 4).map fun k => blockCode packed (i * 4 + k)) := by
    intro i hi
    have hi := List.mem_range.1 hi
    obtain ⟨h₀, h₁, h₂, h₃⟩ := blockCode_group packed i
    rw [load_getD (by omega) 0, ok_bind, ← h₀, ← h₁, ← h₂, ← h₃, Nat.mul_comm i 4]
    rfl
  rw [decodeBlockTernaryAvx2, mapM_ok hgroups, ok_bind]
  refine congrArg Except.ok ?_
  rw [← List.flatMap_def, flatMap_range_map (blockCode packed)]

theorem int8Operands_decoded {x : List Int} (hx : ∀ v ∈ x, -128 ≤ v ∧ v ≤ 127) (packed : Bytes) :
    Int8Operands x ((List.range 128).map (blockCode packed)) where
  act j := by
    rw [List.getD_eq_getElem?_getD]
    rcases h : x[j]? with _ | v
    · simp
    · exact hx v (List.mem_of_getElem? h)
  weight j := by
    rw [List.getD_eq_getElem?_getD, List.getElem?_map]
    rcases (List.range 128)[j]? with _ | i
    · simp
    · have h := codeValue_range (packed.getD (i / 4) 0) (6 - 2 * UInt8.ofNat (i % 4))
      exact ⟨by simpa [blockCode] using h.1.trans' (by omega), by simpa [blockCode] using h.2⟩

/-- What `maddubs` adds up in a lane before it saturates: the products of two biased activations
with their weights, and for the sum of the weights the two weights. -/
def pairSums (x w : List Int) (start c : Nat) (i : Fin 16) : Int × Int :=
  ((x.getD (start + c * 32 + 2 * i) 0 + 128) * w.getD (c * 32 + 2 * i) 0 +
      (x.getD (start + c * 32 + (2 * i + 1)) 0 + 128) * w.getD (c * 32 + (2 * i + 1)) 0,
    w.getD (c * 32 + 2 * i) 0 + w.getD (c * 32 + (2 * i + 1)) 0)

/-- A sum of lanes that are bounded. -/
theorem abs_sum_lanes_le {v : Fin 8 → Int} {b : Int} (h : ∀ i, |v i| ≤ b) (s : Finset (Fin 8)) :
    |∑ i ∈ s, v i| ≤ 8 * b := by
  have hb : 0 ≤ b := (abs_nonneg _).trans (h 0)
  have hcard : (s.card : Int) ≤ 8 := by exact_mod_cast Finset.card_le_univ s
  calc |∑ i ∈ s, v i| ≤ ∑ i ∈ s, b :=
        (Finset.abs_sum_le_sum_abs _ _).trans (Finset.sum_le_sum fun i _ => h i)
    _ = s.card * b := by rw [Finset.sum_const, nsmul_eq_mul]
    _ ≤ 8 * b := mul_le_mul_of_nonneg_right hcard hb

/-- The dot product of a decoded block is the sum of the products. No pair of products leaves 16
bits, and after each pass the lanes are plain sums, of which any together stay in 32 bits. -/
theorem decodedDot_exact {x : List Int} (hx : ∀ v ∈ x, -128 ≤ v ∧ v ≤ 127) {packed : Bytes}
    (hpacked : 32 ≤ packed.length) {start n : Nat} (hn : n ≤ 128) (hlen : start + n ≤ x.length) :
    (decodeBlockTernaryAvx2 packed >>= fun w => int8BlockDot x w start n) =
        .ok (∑ j ∈ Finset.range n, x.getD (start + j) 0 * blockCode packed j) ∧
      ∀ w, decodeBlockTernaryAvx2 packed = .ok w →
        (∀ c < n / 32, ∀ i, |(pairSums x w start c i).1| ≤ 32767 ∧
          |(pairSums x w start c i).2| ≤ 32767) ∧
        ∀ m ≤ n / 32, ∃ lanes weights : Fin 8 → Int,
          (List.range m).foldlM (int8Chunk x w start) (fun _ => 0, fun _ => 0) =
            .ok (lanes, weights) ∧
          (lanes = ∑ c ∈ Finset.range m, biasedLane x w start c) ∧
          (weights = ∑ c ∈ Finset.range m, weightLane w c) ∧
          ∀ s : Finset (Fin 8), |∑ i ∈ s, lanes i| ≤ 2147483647 ∧
            |∑ i ∈ s, weights i| ≤ 2147483647 := by
  have hops := int8Operands_decoded hx packed
  have hweights : ((List.range 128).map (blockCode packed)).length = 128 := by
    rw [List.length_map, List.length_range]
  refine ⟨?_, fun w hw => ?_⟩
  · rw [decodeBlockTernaryAvx2_ok hpacked, ok_bind, int8BlockDot_ok hops hn hlen (by omega)]
    refine congrArg Except.ok (Finset.sum_congr rfl fun j hj => ?_)
    have hj := Finset.mem_range.1 hj
    rw [getD_map_range _ (by omega)]
  · rw [decodeBlockTernaryAvx2_ok hpacked] at hw
    cases hw
    constructor
    · intro c _ i
      have h₀ := abs_le.1 (abs_biased_mul (fun k => hops.act (start + c * 32 + k))
        (fun k => hops.weight (c * 32 + k)) (2 * i))
      have h₁ := abs_le.1 (abs_biased_mul (fun k => hops.act (start + c * 32 + k))
        (fun k => hops.weight (c * 32 + k)) (2 * i + 1))
      have h₂ := hops.weight (c * 32 + 2 * i)
      have h₃ := hops.weight (c * 32 + (2 * i + 1))
      simp only [pairSums]
      exact ⟨abs_le.2 (by omega), abs_le.2 (by omega)⟩
    · intro m hm
      obtain ⟨hrun, hbound⟩ := int8Chunks_ok start hops (n := m) (by omega) (by omega) (by omega)
      refine ⟨_, _, hrun, rfl, rfl, fun s => ⟨?_, ?_⟩⟩
      · exact (abs_sum_lanes_le (fun i => (hbound i).1) s).trans (by omega)
      · exact (abs_sum_lanes_le (fun i => (hbound i).2) s).trans (by omega)

/-- A block of four elements, with all four codes. -/
theorem decodedDot_four :
    (decodeBlockTernaryAvx2 (List.replicate 32 0x1B) >>=
      fun w => int8BlockDot [-128, 127, 5, 6] w 0 4) = .ok 145 := by
  have h := @decodedDot_exact [-128, 127, 5, 6] (by decide) (List.replicate 32 0x1B) (by decide) 0 4
    (by decide) (by decide)
  rw [h.1]
  rfl

end Terllama
