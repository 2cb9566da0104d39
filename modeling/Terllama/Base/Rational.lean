import Mathlib.Data.Int.Log
import Mathlib.Data.Rat.Floor
import Mathlib.Tactic
import Terllama.Base.Bytes

/-!
# Floats as rationals

The numbers the exact results speak of: a `float` word as the rational it stands for (`F32.toRat`),
and the conversion of a number to `int` (`truncRat`).
-/

namespace Terllama

/-- The rational a binary32 word stands for: sign, eight exponent bits, and 23 bits of fraction with
the leading one that a non-zero exponent implies. An infinity or a NaN is read by the same formula. -/
def F32.toRat (w : F32) : ℚ :=
  let sign : ℚ := if w.toNat / 2147483648 = 1 then -1 else 1
  let e := w.toNat / 8388608 % 256
  let frac : ℚ := (w.toNat % 8388608 : Nat)
  if e = 0 then sign * frac / 2 ^ 149
  else sign * (8388608 + frac) * 2 ^ e / 2 ^ 150

example : F32.toRat 0x3FC00000 = 3 / 2 := by decide +kernel

/-- The words of the same exponent and fraction stand for the same number, up to the sign. -/
theorem F32.toRat_abs {a b : F32} (h : a.toNat % 2147483648 = b.toNat % 2147483648)
    (hsign : a.toNat / 2147483648 ≠ b.toNat / 2147483648) : a.toRat = -b.toRat := by
  have ha := a.toNat_lt
  have hb := b.toNat_lt
  have hexp : a.toNat / 8388608 % 256 = b.toNat / 8388608 % 256 := by omega
  have hfrac : a.toNat % 8388608 = b.toNat % 8388608 := by omega
  have hneg : (if a.toNat / 2147483648 = 1 then -1 else 1 : ℚ) =
      -(if b.toNat / 2147483648 = 1 then -1 else 1) := by
    by_cases hone : a.toNat / 2147483648 = 1
    · rw [if_pos hone, if_neg (by omega)]
    · rw [if_neg hone, if_pos (by omega), neg_neg]
  unfold F32.toRat
  simp only [hexp, hfrac, hneg]
  split
  · rw [neg_mul, neg_div]
  · rw [neg_mul, neg_mul, neg_div]

/-- The number that a word stands for, if it does: infinities and NaNs are read as zero. -/
def F32.number (w : F32) : ℚ := if w &&& 0x7FFFFFFF < 0x7F800000 then w.toRat else 0

theorem F32.toNat_abs (w : F32) : (w &&& 0x7FFFFFFF).toNat = w.toNat % 2147483648 := by
  rw [UInt32.toNat_and]
  exact Nat.and_two_pow_sub_one_eq_mod w.toNat 31

theorem F32.number_of_ge {w : F32} (h : 0x7F800000 ≤ w.toNat % 2147483648) : w.number = 0 := by
  rw [F32.number, if_neg]
  rw [UInt32.lt_iff_toNat_lt, F32.toNat_abs]
  exact Nat.not_lt.2 h

/-- A word with the sign bit the other way. -/
theorem F32.toNat_flip (w : F32) : (w ^^^ 0x80000000).toNat % 2147483648 = w.toNat % 2147483648 ∧
    (w ^^^ 0x80000000).toNat / 2147483648 ≠ w.toNat / 2147483648 := by
  rw [UInt32.toNat_xor]
  have hmod := Nat.xor_mod_two_pow (a := w.toNat) (b := 2147483648) (n := 31)
  have hdiv := Nat.xor_div_two_pow (a := w.toNat) (b := 2147483648) (n := 31)
  refine ⟨hmod.trans (Nat.xor_zero _), fun heq => ?_⟩
  have hone : w.toNat / 2147483648 ^^^ 1 = w.toNat / 2147483648 := hdiv.symm.trans heq
  have hlt := w.toNat_lt
  have hbit : w.toNat / 2147483648 = 0 ∨ w.toNat / 2147483648 = 1 := by omega
  rcases hbit with hbit | hbit <;> rw [hbit] at hone <;> exact absurd hone (by decide)

theorem F32.number_flip (w : F32) : (w ^^^ 0x80000000).number = -w.number := by
  obtain ⟨habs, hsign⟩ := F32.toNat_flip w
  have hsame : (w ^^^ 0x80000000) &&& 0x7FFFFFFF = w &&& 0x7FFFFFFF :=
    UInt32.toNat_inj.1 (by rw [F32.toNat_abs, F32.toNat_abs, habs])
  rw [F32.number, F32.number, hsame]
  split
  · exact F32.toRat_abs habs hsign
  · rw [neg_zero]

/-- A word of a sign alone is zero. -/
theorem F32.number_sign (w : F32) : (w &&& 0x80000000).number = 0 := by
  have hword : w &&& 0x80000000 = 0 ∨ w &&& 0x80000000 = 0x80000000 := by
    have hnat : (w &&& 0x80000000).toNat = 0 ∨ (w &&& 0x80000000).toNat = 2147483648 := by
      rw [UInt32.toNat_and]
      have hmod := Nat.and_mod_two_pow (a := w.toNat) (b := 2147483648) (n := 31)
      have hdiv := Nat.and_div_two_pow (a := w.toNat) (b := 2147483648) (n := 31)
      have hlow : (w.toNat &&& 2147483648) % 2147483648 = 0 := hmod.trans (Nat.and_zero _)
      have hhigh : (w.toNat &&& 2147483648) / 2147483648 ≤ 1 := hdiv.le.trans Nat.and_le_right
      change (w.toNat &&& 2147483648) = 0 ∨ (w.toNat &&& 2147483648) = 2147483648
      omega
    rcases hnat with h | h
    · exact .inl (UInt32.toNat_inj.1 h)
    · exact .inr (UInt32.toNat_inj.1 h)
  rcases hword with h | h <;> rw [h] <;> decide +kernel

/-- The conversion of a number to `int`, towards zero. -/
def truncRat (q : ℚ) : Int := if 0 ≤ q then ⌊q⌋ else ⌈q⌉

/-- The float next to a rational, an even one from the middle. -/
def F32.ofRat (q : ℚ) : F32 :=
  let e := max (-126) (Int.log 2 |q|)
  let scaled := |q| / 2 ^ (e - 23)
  let whole := ⌊scaled⌋
  let up := scaled - whole > 1 / 2 ∨ (scaled - whole = 1 / 2 ∧ whole % 2 = 1)
  let word := (e + 126) * 8388608 + whole + if up then 1 else 0
  let sign : UInt32 := if q < 0 then 0x80000000 else 0
  sign ||| if word < 0x7F800000 then UInt32.ofNat word.toNat else 0x7F800000

example : F32.ofRat (3 / 2) = 0x3FC00000 := by decide +kernel

end Terllama
