import Mathlib.Algebra.Field.Basic
import Terllama.Base.Sums
import Terllama.Base.Bits
import Terllama.Base.Buffer

/-!
# The bitplane kernels

`ternary_mul_avx2`, `ternary_mul_neon` and `ternary_mul_scalar`: a row is stored as words of sixteen
columns, `nz` in the high half and `neg` in the low one, for each of up to 32 terms. The two vector
kernels cut a word into chunks of as many columns as they have lanes and treat the last word of a
row with a mask; they are one definition at 8 and at 4 lanes (`lanedRow`). The scalar kernel goes
column by column.

A kernel reads its words and its activations through the functions in its arguments, which say
whether a read is defined: a vector load may cover elements past the last column.
-/

namespace Terllama

/-- The arguments of a bitplane kernel. -/
structure BitplaneArgs (K : Type) where
  /-- `term_data[t][i]`. -/
  word : Nat → Nat → Exec UInt32
  /-- `alpha_exps[t]`. -/
  alphaExp : Nat → Int
  nActive : Nat
  outF : Nat
  inF : Nat
  /-- A vector load of `n` activations. -/
  lanes : (n : Nat) → Nat → Exec (Fin n → K)
  /-- `input[j]`. -/
  elem : Nat → Exec K

/-- `words_per_row`. -/
def wordsPerRow (inF : Nat) : Nat := (inF + 15) / 16

/-- `full_words`. -/
def fullWords (inF : Nat) : Nat := if inF % 16 > 0 then wordsPerRow inF - 1 else wordsPerRow inF

/-- `tail_mask`. -/
def tailMask (rem : Nat) : UInt32 := if rem > 0 then UInt32.ofNat ((1 <<< rem) - 1) else 0

/-- `((nzw & ~negw) >> sh) & cm`, the columns of a chunk to add. -/
def addBits (c sh cm : UInt32) : UInt32 :=
  let nzw := c >>> (16 : UInt32)
  let negw := c &&& 0xFFFF
  ((nzw &&& ~~~negw) >>> sh) &&& cm

/-- `((nzw & negw) >> sh) & cm`, the columns of a chunk to subtract. -/
def subBits (c sh cm : UInt32) : UInt32 :=
  let nzw := c >>> (16 : UInt32)
  let negw := c &&& 0xFFFF
  ((nzw &&& negw) >>> sh) &&& cm

section
variable {K : Type} [Field K]

/-- The power of two that an exponent stands for. -/
abbrev exp2 (e : Int) : K := 2 ^ e

/-- `std::ldexp`. -/
def ldexp (x : K) (e : Int) : K := x * 2 ^ e

/-- The lanes of `v` that `abits` selects are added, those `sbits` selects subtracted. -/
def maskedAddSub {n : Nat} (acc v : Fin n → K) (abits sbits : UInt32) (i : Fin n) : K :=
  acc i + (if abits.toNat.testBit i then v i else 0) - if sbits.toNat.testBit i then v i else 0

/-- The chunks of a word of which `rem` columns count. A lane past `chbits` is not selected: its
bit of `cm` is clear. -/
def lanedWord {n : Nat} (vs : Nat → Fin n → K) (c : UInt32) (rem : Nat) (acc : Fin n → K) :
    Fin n → K :=
  (List.range (16 / n)).foldl (fun acc ch =>
    let sh := ch * n
    if rem ≤ sh then acc
    else
      let chbits := min (rem - sh) n
      let cm := UInt32.ofNat ((1 <<< chbits) - 1)
      maskedAddSub acc (vs ch) (addBits c (UInt32.ofNat sh) cm) (subBits c (UInt32.ofNat sh) cm)) acc

/-- The vector loads of a word of which `rem` columns count; a chunk without columns is zero. -/
def loadWord (a : BitplaneArgs K) (n off rem : Nat) : Exec (Nat → Fin n → K) := do
  let vs ← (List.range (16 / n)).mapM fun ch =>
    if rem > ch * n then a.lanes n (off + ch * n) else .ok fun _ => 0
  return fun ch => vs.getD ch fun _ => 0

/-- One word of a row for every term. -/
def lanedTerms (a : BitplaneArgs K) (n i w rem : Nat) (mask : UInt32) (vacc : Nat → Fin n → K) :
    Exec (Nat → Fin n → K) := do
  let vs ← loadWord a n (w * 16) rem
  (List.range a.nActive).foldlM (fun vacc t => do
    let c ← a.word t (i * wordsPerRow a.inF + w)
    return Function.update vacc t (lanedWord vs (c &&& mask) rem (vacc t))) vacc

/-- The last word of a row, when it is not full. -/
def lanedTail (a : BitplaneArgs K) (n i : Nat) (vacc : Nat → Fin n → K) :
    Exec (Nat → Fin n → K) :=
  let rem := a.inF % 16
  if rem > 0 then
    lanedTerms a n i (fullWords a.inF) rem (tailMask rem ||| (tailMask rem <<< (16 : UInt32))) vacc
  else .ok vacc

/-- A row of a vector kernel with `n` lanes. -/
def lanedRow (a : BitplaneArgs K) (n i : Nat) : Exec K := do
  let vacc ← (List.range (fullWords a.inF)).foldlM
    (fun vacc w => lanedTerms a n i w 16 0xFFFFFFFF vacc) (0 : Nat → Fin n → K)
  let vacc ← lanedTail a n i vacc
  (List.range a.nActive).foldlM (fun result t =>
    return result + (∑ k, vacc t k) * ldexp 1 (a.alphaExp t)) 0

/-- A vector kernel with `n` lanes. Its accumulators and its table of scales have 32 entries. -/
def lanedKernel (a : BitplaneArgs K) (n : Nat) : Exec (List K) :=
  if a.nActive > 32 then undefined "write outside the buffer"
  else (List.range a.outF).mapM (lanedRow a n)

/-- `ternary_mul_avx2`. -/
def ternaryMulAvx2 (a : BitplaneArgs K) : Exec (List K) := lanedKernel a 8

/-- The column loop of the scalar kernel. -/
def scalarRowSum (a : BitplaneArgs K) (t i : Nat) : Exec K :=
  (List.range a.inF).foldlM (fun sum j => do
    let word := j / 16
    let bit := UInt32.ofNat (j % 16)
    let c ← a.word t (i * wordsPerRow a.inF + word)
    let isNz := (c >>> (bit + 16)) &&& 1 ≠ 0
    let isNeg := (c >>> bit) &&& 1 ≠ 0
    if isNz then do
      let x ← a.elem j
      return sum + if isNeg then -x else x
    else return sum) 0

/-- `ternary_mul_scalar`. -/
def ternaryMulScalar (a : BitplaneArgs K) : Exec (List K) := do
  let output ← (List.range a.nActive).foldlM (fun output t => do
    let ae := a.alphaExp t
    if ae = -128 then return output
    else
      (List.range a.outF).foldlM (fun output i => do
        let sum ← scalarRowSum a t i
        return Function.update output i (output i + ldexp sum ae)) output) fun _ => (0 : K)
  return (List.range a.outF).map output

end

/-! ## Bits -/

/-- The ternary value of column `k` of a word. -/
def planeValue (c : UInt32) (k : Nat) : Int :=
  if c.toNat.testBit (16 + k) then if c.toNat.testBit k then -1 else 1 else 0

theorem testBit_negw (c : UInt32) {i : Nat} (hi : i < 16) :
    (c &&& 0xFFFF).toNat.testBit i = c.toNat.testBit i := by
  rw [testBit_and_u32, show (0xFFFF : UInt32).toNat = 2 ^ 16 - 1 from rfl,
    Nat.testBit_two_pow_sub_one]
  simp [hi]

theorem testBit_nzw (c : UInt32) (i : Nat) :
    (c >>> (16 : UInt32)).toNat.testBit i = c.toNat.testBit (16 + i) :=
  testBit_shiftRight_u32 c (s := 16) (by omega) i

/-- The selected columns of a chunk. -/
theorem testBit_addBits (c : UInt32) {sh n i : Nat} (hsh : sh + n ≤ 16) :
    (addBits c (UInt32.ofNat sh) (UInt32.ofNat ((1 <<< n) - 1))).toNat.testBit i =
      (decide (i < n) && (c.toNat.testBit (16 + (sh + i)) && !c.toNat.testBit (sh + i))) := by
  rw [addBits, testBit_and_u32, testBit_lowMask n i (by omega)]
  by_cases hi : i < n
  · rw [testBit_shiftRight_u32 _ (by omega), testBit_and_u32, testBit_nzw,
      testBit_not_u32 _ (by omega), testBit_negw _ (by omega)]
    simp [hi]
  · simp [hi]

theorem testBit_subBits (c : UInt32) {sh n i : Nat} (hsh : sh + n ≤ 16) :
    (subBits c (UInt32.ofNat sh) (UInt32.ofNat ((1 <<< n) - 1))).toNat.testBit i =
      (decide (i < n) && (c.toNat.testBit (16 + (sh + i)) && c.toNat.testBit (sh + i))) := by
  rw [subBits, testBit_and_u32, testBit_lowMask n i (by omega)]
  by_cases hi : i < n
  · rw [testBit_shiftRight_u32 _ (by omega), testBit_and_u32, testBit_nzw,
      testBit_negw _ (by omega)]
    simp [hi]
  · simp [hi]

/-- The tail mask keeps the columns below `rem`, in both halves of a word. -/
theorem planeValue_tailMask (c : UInt32) {rem k : Nat} (hk : k < rem) (hrem : rem < 16) :
    planeValue (c &&& (tailMask rem ||| (tailMask rem <<< (16 : UInt32)))) k = planeValue c k := by
  have hmask : tailMask rem = UInt32.ofNat ((1 <<< rem) - 1) := if_pos (by omega)
  have hlow : (tailMask rem).toNat.testBit k = true := by
    rw [hmask, testBit_lowMask rem k (by omega)]
    simp [hk]
  have hhigh : (tailMask rem <<< (16 : UInt32)).toNat.testBit (16 + k) = true := by
    rw [UInt32.toNat_shiftLeft, show (16 : UInt32).toNat % 32 = 16 from rfl,
      Nat.testBit_mod_two_pow, Nat.testBit_shiftLeft, Nat.add_sub_cancel_left, hlow]
    simp
    omega
  unfold planeValue
  rw [testBit_and_u32, testBit_and_u32, UInt32.toNat_or, Nat.testBit_or, Nat.testBit_or, hlow,
    hhigh]
  simp

/-! ## One word -/

section
variable {K : Type} [Field K]

/-- A chunk adds to each of its lanes the product of its column. -/
theorem maskedAddSub_eq (c : UInt32) {sh m n : Nat} (hsh : sh + m ≤ 16) (acc v : Fin n → K)
    (i : Fin n) :
    maskedAddSub acc v (addBits c (UInt32.ofNat sh) (UInt32.ofNat ((1 <<< m) - 1)))
        (subBits c (UInt32.ofNat sh) (UInt32.ofNat ((1 <<< m) - 1))) i =
      acc i + if i.val < m then (planeValue c (sh + i) : K) * v i else 0 := by
  rw [maskedAddSub, testBit_addBits c hsh, testBit_subBits c hsh, planeValue]
  generalize c.toNat.testBit (16 + (sh + i)) = nz
  generalize c.toNat.testBit (sh + i) = neg
  by_cases hi : i.val < m <;> cases nz <;> cases neg <;> simp [hi, sub_eq_add_neg]

/-- A word adds to each lane the products of its columns below `rem`. -/
theorem lanedWord_eq {n : Nat} (hn : 16 / n * n = 16) (vs : Nat → Fin n → K) (c : UInt32)
    {rem : Nat} (acc : Fin n → K) :
    lanedWord vs c rem acc = acc + ∑ ch ∈ Finset.range (16 / n), fun i : Fin n =>
      if ch * n + i < rem then (planeValue c (ch * n + i) : K) * vs ch i else 0 := by
  refine foldl_range_add (fun acc ch hch => ?_) acc
  have hend : (ch + 1) * n ≤ 16 := hn ▸ Nat.mul_le_mul_right n hch
  rw [Nat.succ_mul] at hend
  funext i
  dsimp only
  split
  · rw [Pi.add_apply, if_neg (by omega), add_zero]
  · rw [maskedAddSub_eq c (by omega), Pi.add_apply]
    exact congrArg (acc i + ·) (if_congr (by omega) rfl rfl)

/-! ## Rows -/

/-- What the reads of a kernel find: the words of each row, the activations, and whatever follows
the last activation in its word. -/
structure BitplaneArgs.Reads (a : BitplaneArgs K) (words : Nat → Nat → UInt32) (x : Nat → K) :
    Prop where
  word : ∀ t < a.nActive, ∀ i < a.outF, ∀ w < wordsPerRow a.inF,
    a.word t (i * wordsPerRow a.inF + w) = .ok (words t (i * wordsPerRow a.inF + w))
  lanes : ∀ n off, off + n ≤ wordsPerRow a.inF * 16 → a.lanes n off = .ok fun k => x (off + k)
  elem : ∀ j < a.inF, a.elem j = .ok (x j)

/-- The row of the linear map the words and exponents stand for. -/
def planeDot (a : BitplaneArgs K) (words : Nat → Nat → UInt32) (x : Nat → K) (i : Nat) : K :=
  ∑ t ∈ Finset.range a.nActive, 2 ^ a.alphaExp t * ∑ j ∈ Finset.range a.inF,
    (planeValue (words t (i * wordsPerRow a.inF + j / 16)) (j % 16) : K) * x j

variable {a : BitplaneArgs K} {words : Nat → Nat → UInt32} {x : Nat → K}

theorem loadWord_ok (h : a.Reads words x) {n : Nat} (hn : 16 / n * n = 16) {w : Nat} (rem : Nat)
    (hw : w < wordsPerRow a.inF) :
    ∃ vs, loadWord a n (w * 16) rem = .ok vs ∧
      ∀ ch < 16 / n, ch * n < rem → ∀ i, vs ch i = x (w * 16 + (ch * n + i)) := by
  have hload : ∀ ch ∈ List.range (16 / n),
      (if rem > ch * n then a.lanes n (w * 16 + ch * n) else .ok fun _ => 0) =
      .ok (if rem > ch * n then (fun k : Fin n => x (w * 16 + ch * n + k)) else fun _ => 0) := by
    intro ch hch
    have hend : (ch + 1) * n ≤ 16 := hn ▸ Nat.mul_le_mul_right n (List.mem_range.1 hch)
    rw [Nat.succ_mul] at hend
    split
    · exact h.lanes n _ (by omega)
    · rfl
  refine ⟨_, by rw [loadWord, mapM_ok hload, ok_bind]; rfl, fun ch hch hrem i => ?_⟩
  rw [getD_map_range _ hch, if_pos hrem, Nat.add_assoc]

/-- The products of a word of a row, lane by lane. -/
def wordLanes (a : BitplaneArgs K) (words : Nat → Nat → UInt32) (x : Nat → K) (n i t w rem : Nat)
    (k : Fin n) : K :=
  ∑ ch ∈ Finset.range (16 / n), if ch * n + k < rem then
    (planeValue (words t (i * wordsPerRow a.inF + w)) (ch * n + k) : K) * x (w * 16 + (ch * n + k))
  else 0

theorem lanedTerms_ok (h : a.Reads words x) {n : Nat} (hn : 16 / n * n = 16) {i w rem : Nat}
    (hi : i < a.outF) (hw : w < wordsPerRow a.inF) {mask : UInt32}
    (hmask : ∀ c, ∀ k < rem, planeValue (c &&& mask) k = planeValue c k)
    (vacc : Nat → Fin n → K) :
    lanedTerms a n i w rem mask vacc = .ok (vacc + fun t =>
      if t < a.nActive then wordLanes a words x n i t w rem else 0) := by
  obtain ⟨vs, hvs, hx⟩ := loadWord_ok h hn rem hw
  rw [lanedTerms, hvs, ok_bind]
  refine foldlM_update_add (fun vacc t ht => ?_) vacc
  rw [h.word t ht i hi w hw, ok_bind, lanedWord_eq hn vs _]
  refine congrArg Except.ok (congrArg (Function.update vacc t) (congrArg (vacc t + ·) ?_))
  funext k
  rw [Finset.sum_apply]
  refine Finset.sum_congr rfl fun ch hch => ?_
  refine if_ctx_congr Iff.rfl (fun hk => ?_) fun _ => rfl
  rw [hmask _ _ hk, hx ch (Finset.mem_range.1 hch) (by omega)]

/-- The number of columns of a word of a row. -/
theorem min_word (inF w : Nat) (hw : w < fullWords inF) : min 16 (inF - w * 16) = 16 := by
  unfold fullWords wordsPerRow at hw
  split at hw <;> omega

/-- The accumulators of a row after all of its words. -/
theorem sum_words (f : Nat → Nat → Nat → Fin n → K) (inF nActive : Nat) :
    (if inF % 16 > 0 then
        (∑ w ∈ Finset.range (fullWords inF), fun t => if t < nActive then f t w 16 else 0) +
          fun t => if t < nActive then f t (fullWords inF) (inF % 16) else 0
      else ∑ w ∈ Finset.range (fullWords inF), fun t => if t < nActive then f t w 16 else 0) =
      fun t => if t < nActive then
        ∑ w ∈ Finset.range (wordsPerRow inF), f t w (min 16 (inF - w * 16)) else 0 := by
  have hfull : (∑ w ∈ Finset.range (fullWords inF), fun t => if t < nActive then f t w 16 else 0) =
      fun t => if t < nActive then
        ∑ w ∈ Finset.range (fullWords inF), f t w (min 16 (inF - w * 16)) else 0 := by
    funext t
    rw [Finset.sum_apply]
    split
    · refine Finset.sum_congr rfl fun w hw => ?_
      rw [min_word inF w (Finset.mem_range.1 hw)]
    · exact Finset.sum_const_zero
  rw [hfull]
  split
  · rename_i hrem
    have hwords : wordsPerRow inF = fullWords inF + 1 := by
      rw [fullWords, if_pos hrem, wordsPerRow]
      omega
    have hlast : min 16 (inF - fullWords inF * 16) = inF % 16 := by
      rw [fullWords, if_pos hrem, wordsPerRow]
      omega
    funext t
    rw [Pi.add_apply, hwords, Finset.sum_range_succ, hlast]
    split
    · rfl
    · exact add_zero 0
  · rename_i hrem
    rw [fullWords, if_neg hrem]

/-- The lanes of a row hold its products. -/
theorem sum_wordLanes {n : Nat} (hn : 16 / n * n = 16) (i t : Nat) :
    ∑ k, (∑ w ∈ Finset.range (wordsPerRow a.inF),
        wordLanes a words x n i t w (min 16 (a.inF - w * 16))) k =
      ∑ j ∈ Finset.range a.inF,
        (planeValue (words t (i * wordsPerRow a.inF + j / 16)) (j % 16) : K) * x j := by
  simp only [Finset.sum_apply]
  rw [Finset.sum_comm, ← sum_blocks (fun j => (planeValue (words t (i * wordsPerRow a.inF + j / 16))
    (j % 16) : K) * x j) (show a.inF ≤ wordsPerRow a.inF * 16 by unfold wordsPerRow; omega)]
  refine Finset.sum_congr rfl fun w _ => ?_
  simp only [wordLanes]
  rw [sum_lane_chunks (fun k => (planeValue (words t (i * wordsPerRow a.inF + w)) k : K) *
    x (w * 16 + k)) (by omega)]
  refine Finset.sum_congr rfl fun k hk => ?_
  have hk := Finset.mem_range.1 hk
  rw [show (w * 16 + k) / 16 = w by omega, show (w * 16 + k) % 16 = k by omega]

/-- A vector kernel computes the linear map of its words and exponents. -/
theorem lanedKernel_ok (h : a.Reads words x) (hactive : a.nActive ≤ 32) {n : Nat}
    (hn : 16 / n * n = 16) :
    lanedKernel a n = .ok ((List.range a.outF).map (planeDot a words x)) := by
  rw [lanedKernel, if_neg (by omega)]
  refine mapM_ok fun i hi => ?_
  have hi := List.mem_range.1 hi
  have hfull : ∀ vacc : Nat → Fin n → K, ∀ w < fullWords a.inF,
      lanedTerms a n i w 16 0xFFFFFFFF vacc = .ok (vacc + fun t =>
        if t < a.nActive then wordLanes a words x n i t w 16 else 0) := by
    intro vacc w hw
    refine lanedTerms_ok h hn hi ?_ (fun c k _ => ?_) vacc
    · unfold fullWords at hw
      split at hw <;> omega
    · rw [show c &&& 0xFFFFFFFF = c from UInt32.and_neg_one]
  have htail : ∀ vacc : Nat → Fin n → K,
      lanedTail a n i vacc = .ok (if a.inF % 16 > 0 then vacc + fun t => if t < a.nActive then
        wordLanes a words x n i t (fullWords a.inF) (a.inF % 16) else 0 else vacc) := by
    intro vacc
    unfold lanedTail
    dsimp only
    split
    · refine lanedTerms_ok h hn hi ?_ (fun c k hk => planeValue_tailMask c hk (by omega)) vacc
      unfold fullWords wordsPerRow
      split <;> omega
    · rfl
  rw [lanedRow, foldlM_range_add hfull, ok_bind, htail, ok_bind, zero_add,
    sum_words (fun t w rem => wordLanes a words x n i t w rem),
    foldlM_range_add (f := fun t => 2 ^ a.alphaExp t * ∑ j ∈ Finset.range a.inF,
      (planeValue (words t (i * wordsPerRow a.inF + j / 16)) (j % 16) : K) * x j), zero_add]
  · rfl
  · intro acc t ht
    dsimp only
    rw [if_pos ht, sum_wordLanes hn, ldexp, one_mul, mul_comm]
    rfl

/-! ## The scalar kernel -/

theorem bit_ne_zero_iff (c : UInt32) {s : Nat} (hs : s < 32) :
    ((c >>> UInt32.ofNat s) &&& 1) ≠ 0 ↔ c.toNat.testBit s = true := by
  have hbit : ((c >>> UInt32.ofNat s) &&& 1).toNat = (c.toNat.testBit s).toNat := by
    rw [UInt32.toNat_and, UInt32.toNat_shiftRight, UInt32.toNat_ofNat',
      Nat.mod_eq_of_lt (show s < 2 ^ 32 by omega), Nat.mod_eq_of_lt hs,
      show (1 : UInt32).toNat = 1 from rfl, Nat.testBit, Nat.and_comm]
    rcases Nat.mod_two_eq_zero_or_one (c.toNat >>> s) with h | h <;>
      simp [Nat.one_and_eq_mod_two, h]
  rw [ne_eq, ← UInt32.toNat_inj, hbit]
  cases c.toNat.testBit s <;> simp

theorem scalarRowSum_ok (h : a.Reads words x) {t i : Nat} (ht : t < a.nActive) (hi : i < a.outF) :
    scalarRowSum a t i = .ok (∑ j ∈ Finset.range a.inF,
      (planeValue (words t (i * wordsPerRow a.inF + j / 16)) (j % 16) : K) * x j) := by
  rw [scalarRowSum, foldlM_range_add (f := fun j =>
    (planeValue (words t (i * wordsPerRow a.inF + j / 16)) (j % 16) : K) * x j), zero_add]
  intro acc j hj
  have hword : j / 16 < wordsPerRow a.inF := by unfold wordsPerRow; omega
  have hbit : UInt32.ofNat (j % 16) + 16 = UInt32.ofNat (16 + j % 16) := by
    rw [Nat.add_comm, UInt32.ofNat_add]
    rfl
  dsimp only
  rw [h.word t ht i hi _ hword, ok_bind, hbit, planeValue]
  simp only [bit_ne_zero_iff _ (show 16 + j % 16 < 32 by omega),
    bit_ne_zero_iff _ (show j % 16 < 32 by omega)]
  split
  · rw [h.elem j hj, ok_bind]
    split <;> simp
  · simp

/-- The scalar kernel computes the linear map of its words and exponents. -/
theorem ternaryMulScalar_ok (h : a.Reads words x)
    (hexp : ∀ t < a.nActive, a.alphaExp t ≠ -128) :
    ternaryMulScalar a = .ok ((List.range a.outF).map (planeDot a words x)) := by
  let d (t i : Nat) : K := if i < a.outF then 2 ^ a.alphaExp t * ∑ j ∈ Finset.range a.inF,
    (planeValue (words t (i * wordsPerRow a.inF + j / 16)) (j % 16) : K) * x j else 0
  have hterm : ∀ output : Nat → K, ∀ t < a.nActive, (do
      let ae := a.alphaExp t
      if ae = -128 then return output
      else
        (List.range a.outF).foldlM (fun output i => do
          let sum ← scalarRowSum a t i
          return Function.update output i (output i + ldexp sum ae)) output) =
      .ok (output + d t) := by
    intro output t ht
    dsimp only
    rw [if_neg (hexp t ht)]
    refine foldlM_update_add (fun output i hi => ?_) output
    rw [scalarRowSum_ok h ht hi, ok_bind, ldexp, mul_comm]
    rfl
  rw [ternaryMulScalar, foldlM_range_add hterm, ok_bind]
  refine congrArg Except.ok (List.map_congr_left fun i hi => ?_)
  have hi := List.mem_range.1 hi
  rw [Pi.add_apply, Finset.sum_apply, zero_add, planeDot]
  exact Finset.sum_congr rfl fun t _ => if_pos hi

/-! ## The kernels agree -/

end

end Terllama
