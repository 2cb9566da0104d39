import Mathlib.Data.Nat.Bitwise
import Mathlib.Tactic
import Terllama.Base.Bytes

/-!
# Bits of packed words

`pext` is the parallel bit extract of BMI2: the bits of a word at the set positions of a mask,
moved together to the low end. With a mask of every second bit it separates the low and the high
bits of two-bit fields (`testBit_pext_even`, `testBit_pext_odd`). `testBit_ofBytes` and
`byte_of_leBytes` are the bits and the bytes of a word of four bytes.
-/

namespace Terllama

/-- The bits of `x` at the positions set in `mask`, among the lowest `n`, moved to the low end. -/
def pext : Nat → Nat → Nat → Nat
  | 0, _, _ => 0
  | n + 1, x, mask =>
    if mask % 2 = 1 then x % 2 + 2 * pext n (x / 2) (mask / 2) else pext n (x / 2) (mask / 2)

/-- `n` two-bit fields `01`. -/
def evenMask : Nat → Nat
  | 0 => 0
  | n + 1 => 1 + 4 * evenMask n

theorem pext_even_succ (n x : Nat) :
    pext (2 * (n + 1)) x (evenMask (n + 1)) =
      x % 2 + 2 * pext (2 * n) (x / 4) (evenMask n) := by
  have hm : (1 + 4 * evenMask n) % 2 = 1 := by omega
  have hm' : (1 + 4 * evenMask n) / 2 % 2 ≠ 1 := by omega
  have hm'' : (1 + 4 * evenMask n) / 2 / 2 = evenMask n := by omega
  have hx : x / 2 / 2 = x / 4 := by omega
  rw [Nat.mul_succ, pext, evenMask, if_pos hm, pext, if_neg hm', hm'', hx]

theorem pext_odd_succ (n x : Nat) :
    pext (2 * (n + 1)) x (2 * evenMask (n + 1)) =
      x / 2 % 2 + 2 * pext (2 * n) (x / 4) (2 * evenMask n) := by
  have hm : ¬ 2 * (1 + 4 * evenMask n) % 2 = 1 := by omega
  have hm' : 2 * (1 + 4 * evenMask n) / 2 % 2 = 1 := by omega
  have hm'' : 2 * (1 + 4 * evenMask n) / 2 / 2 = 2 * evenMask n := by omega
  have hx : x / 2 / 2 = x / 4 := by omega
  rw [Nat.mul_succ, pext, evenMask, if_neg hm, pext, if_pos hm', hm'', hx]

theorem testBit_bit_succ (b x i : Nat) (h : b < 2) :
    (b + 2 * x).testBit (i + 1) = x.testBit i := by
  rw [Nat.testBit_succ, show (b + 2 * x) / 2 = x by omega]

theorem testBit_bit_zero (b x : Nat) (h : b < 2) : (b + 2 * x).testBit 0 = decide (b = 1) := by
  rw [Nat.testBit_zero, show (b + 2 * x) % 2 = b by omega]

theorem testBit_div_four (x i : Nat) : (x / 4).testBit i = x.testBit (i + 2) := by
  rw [show x / 4 = x / 2 / 2 by omega, Nat.testBit_div_two, Nat.testBit_div_two]

/-- The even bits. -/
theorem testBit_pext_even (n x i : Nat) :
    (pext (2 * n) x (evenMask n)).testBit i = (decide (i < n) && x.testBit (2 * i)) := by
  induction n generalizing x i with
  | zero => simp [pext]
  | succ n ih =>
    rw [pext_even_succ]
    cases i with
    | zero => rw [testBit_bit_zero _ _ (by omega), Nat.mul_zero, Nat.testBit_zero]; simp
    | succ i =>
      rw [testBit_bit_succ _ _ _ (by omega), ih, testBit_div_four]
      simp [Nat.mul_succ]

/-- The odd bits. -/
theorem testBit_pext_odd (n x i : Nat) :
    (pext (2 * n) x (2 * evenMask n)).testBit i = (decide (i < n) && x.testBit (2 * i + 1)) := by
  induction n generalizing x i with
  | zero => simp [pext]
  | succ n ih =>
    rw [pext_odd_succ]
    cases i with
    | zero =>
      rw [testBit_bit_zero _ _ (by omega), Nat.mul_zero, Nat.zero_add, Nat.testBit_succ,
        Nat.testBit_zero]
      simp
    | succ i =>
      rw [testBit_bit_succ _ _ _ (by omega), ih, testBit_div_four]
      simp [Nat.mul_succ, Nat.add_right_comm]

/-! ## Bits of machine words -/

theorem testBit_not_u32 (x : UInt32) {i : Nat} (hi : i < 32) :
    (~~~x).toNat.testBit i = !x.toNat.testBit i := by
  have h := BitVec.getLsbD_not (x := x.toBitVec) (i := i)
  simp only [hi, decide_true, Bool.true_and] at h
  exact h

theorem testBit_and_u32 (x y : UInt32) (i : Nat) :
    (x &&& y).toNat.testBit i = (x.toNat.testBit i && y.toNat.testBit i) := by
  rw [UInt32.toNat_and, Nat.testBit_and]

theorem testBit_shiftRight_u32 (x : UInt32) {s : Nat} (hs : s < 32) (i : Nat) :
    (x >>> UInt32.ofNat s).toNat.testBit i = x.toNat.testBit (s + i) := by
  rw [UInt32.toNat_shiftRight, UInt32.toNat_ofNat', Nat.mod_eq_of_lt (show s < 2 ^ 32 by omega),
    Nat.mod_eq_of_lt hs, Nat.testBit_shiftRight]

/-- The word of one bit. -/
theorem testBit_one_shiftLeft_u32 {s : Nat} (hs : s < 32) (i : Nat) :
    ((1 : UInt32) <<< UInt32.ofNat s).toNat.testBit i = decide (s = i) := by
  have hlt : 2 ^ s < 2 ^ 32 := Nat.pow_lt_pow_right (by omega) hs
  rw [UInt32.toNat_shiftLeft, UInt32.toNat_ofNat', Nat.mod_eq_of_lt (show s < 2 ^ 32 by omega),
    Nat.mod_eq_of_lt hs, show (1 : UInt32).toNat = 1 from rfl, Nat.one_shiftLeft,
    Nat.mod_eq_of_lt hlt, Nat.testBit_two_pow]

theorem testBit_or_u32 (x y : UInt32) (i : Nat) :
    (x ||| y).toNat.testBit i = (x.toNat.testBit i || y.toNat.testBit i) := by
  rw [UInt32.toNat_or, Nat.testBit_or]

theorem testBit_lowMask (n i : Nat) (hn : n ≤ 16) :
    (UInt32.ofNat ((1 <<< n) - 1)).toNat.testBit i = decide (i < n) := by
  have hlt : 2 ^ n - 1 < 2 ^ 32 := by
    have : 2 ^ n ≤ 2 ^ 16 := Nat.pow_le_pow_right (by omega) hn
    have := Nat.two_pow_pos n
    omega
  rw [Nat.shiftLeft_eq, Nat.one_mul, UInt32.toNat_ofNat', Nat.mod_eq_of_lt hlt,
    Nat.testBit_two_pow_sub_one]

/-! ## Words of four bytes -/

/-- The word of four bytes, the first lowest, as shifts and ors make it. -/
def packBytes (b₀ b₁ b₂ b₃ : UInt8) : UInt32 :=
  b₀.toUInt32 ||| (b₁.toUInt32 <<< (8 : UInt32)) ||| (b₂.toUInt32 <<< (16 : UInt32)) |||
    (b₃.toUInt32 <<< (24 : UInt32))

theorem testBit_toUInt32_shiftLeft (b : UInt8) {s : Nat} (hs : s ≤ 24) (i : Nat) :
    (b.toUInt32 <<< UInt32.ofNat s).toNat.testBit i =
      (decide (s ≤ i) && b.toNat.testBit (i - s)) := by
  have hb : b.toNat < 2 ^ 8 := b.toNat_lt
  have hpow : (2 : Nat) ^ 8 * 2 ^ s ≤ 2 ^ 32 := by
    rw [← Nat.pow_add]
    exact Nat.pow_le_pow_right (by omega) (by omega)
  have hlt : b.toNat <<< s < 2 ^ 32 := by
    rw [Nat.shiftLeft_eq]
    exact Nat.lt_of_lt_of_le (Nat.mul_lt_mul_of_pos_right hb (Nat.two_pow_pos s)) hpow
  rw [UInt32.toNat_shiftLeft, UInt8.toNat_toUInt32, UInt32.toNat_ofNat',
    Nat.mod_eq_of_lt (by omega : s < 2 ^ 32), Nat.mod_eq_of_lt (by omega : s < 32),
    Nat.mod_eq_of_lt hlt, Nat.testBit_shiftLeft]

theorem testBit_byte_ge (b : UInt8) {i : Nat} (h : 8 ≤ i) : b.toNat.testBit i = false := by
  refine Nat.testBit_lt_two_pow (Nat.lt_of_lt_of_le b.toNat_lt ?_)
  exact Nat.pow_le_pow_right (by omega) h

/-- Bit `8 m + i` of a word of four bytes is bit `i` of its byte `m`. -/
theorem testBit_packBytes (bs : Fin 4 → UInt8) (m : Fin 4) {i : Nat} (hi : i < 8) :
    (packBytes (bs 0) (bs 1) (bs 2) (bs 3)).toNat.testBit (8 * m + i) =
      (bs m).toNat.testBit i := by
  have h₀ : ∀ j, (bs 0).toUInt32.toNat.testBit j = (bs 0).toNat.testBit j := fun j => by
    rw [UInt8.toNat_toUInt32]
  have h₁ := testBit_toUInt32_shiftLeft (bs 1) (s := 8) (by omega) (8 * m + i)
  have h₂ := testBit_toUInt32_shiftLeft (bs 2) (s := 16) (by omega) (8 * m + i)
  have h₃ := testBit_toUInt32_shiftLeft (bs 3) (s := 24) (by omega) (8 * m + i)
  simp only [packBytes, UInt32.toNat_or, Nat.testBit_or, h₀]
  rw [show (8 : UInt32) = UInt32.ofNat 8 from rfl, show (16 : UInt32) = UInt32.ofNat 16 from rfl,
    show (24 : UInt32) = UInt32.ofNat 24 from rfl, h₁, h₂, h₃]
  fin_cases m
  · simp [show ¬ 8 ≤ i by omega, show ¬ 16 ≤ i by omega, show ¬ 24 ≤ i by omega]
  · simp [testBit_byte_ge (bs 0) (show 8 ≤ 8 + i by omega), show ¬ 16 ≤ 8 + i by omega,
      show ¬ 24 ≤ 8 + i by omega]
  · simp [testBit_byte_ge (bs 0) (show 8 ≤ 16 + i by omega),
      testBit_byte_ge (bs 1) (show 8 ≤ 16 + i - 8 by omega), show ¬ 24 ≤ 16 + i by omega]
  · simp [testBit_byte_ge (bs 0) (show 8 ≤ 24 + i by omega),
      testBit_byte_ge (bs 1) (show 8 ≤ 24 + i - 8 by omega),
      testBit_byte_ge (bs 2) (show 8 ≤ 24 + i - 16 by omega)]

/-- The bytes of a word are cut out of it by a shift and a mask. -/
theorem byte_of_word (bs : Fin 4 → UInt8) (m : Fin 4) :
    ((UInt32.ofNat (leNat [bs 0, bs 1, bs 2, bs 3]) >>> UInt32.ofNat (8 * m)) &&& 0xFF).toUInt8 =
      bs m := by
  have h₀ := (bs 0).toNat_lt
  have h₁ := (bs 1).toNat_lt
  have h₂ := (bs 2).toNat_lt
  have h₃ := (bs 3).toNat_lt
  apply UInt8.toNat_inj.1
  simp only [leNat]
  rw [UInt32.toNat_toUInt8, UInt32.toNat_and, UInt32.toNat_shiftRight, UInt32.toNat_ofNat',
    UInt32.toNat_ofNat', show (0xFF : UInt32).toNat = 2 ^ 8 - 1 from rfl,
    Nat.and_two_pow_sub_one_eq_mod, Nat.shiftRight_eq_div_pow]
  fin_cases m <;> simp <;> omega

end Terllama
