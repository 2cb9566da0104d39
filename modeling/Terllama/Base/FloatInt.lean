import Mathlib.Tactic
import Terllama.Base.Bytes
import Terllama.Base.Exec

/-!
# Integers as floats

The conversions between `int` and `float`: `F32.ofInt` rounds to the nearest float, to an even one
from the middle, and `F32.toInt` drops the fraction. `F32.toInt_ofInt` says that the integers up to
`2^24` survive.
-/

namespace Terllama

/-- The word of the float next to a positive integer: the leading bit gives the exponent, and the 23
bits after it the fraction, rounded where there are more. A carry out of the fraction adds one to
the exponent. -/
def F32.ofNat (n : Nat) : Nat :=
  if n = 0 then 0
  else if n.log2 ≤ 23 then
    (n.log2 + 127) * 8388608 + (n * 2 ^ (23 - n.log2) - 8388608)
  else
    let unit := 2 ^ (n.log2 - 23)
    let up := n % unit * 2 > unit ∨ (n % unit * 2 = unit ∧ n / unit % 2 = 1)
    (n.log2 + 127) * 8388608 + (n / unit + (if up then 1 else 0) - 8388608)

/-- `(float)n`. -/
def F32.ofInt (n : Int) : F32 :=
  UInt32.ofNat (if n < 0 then 2147483648 + F32.ofNat n.natAbs else F32.ofNat n.natAbs)

/-- The magnitude of a finite float without its fraction. -/
def F32.truncNat (w : F32) : Nat :=
  let e := w.toNat / 8388608 % 256
  let m := 8388608 + w.toNat % 8388608
  if e < 127 then 0 else if e ≤ 150 then m / 2 ^ (150 - e) else m * 2 ^ (e - 150)

/-- `(int)x`: undefined outside the range of an `int`, and so for an infinity or a NaN. -/
def F32.toInt (w : F32) : Exec Int :=
  i32 (if w.toNat / 2147483648 = 1 then -(F32.truncNat w : Int) else F32.truncNat w)

example : F32.ofInt 16777217 = F32.ofInt 16777216 := by decide

/-- The word of an exponent and a fraction, under a sign bit, is read back. -/
theorem F32.truncNat_word {e f : Nat} (he : 127 ≤ e) (he' : e ≤ 150) (hf : f < 8388608)
    (sign : Nat) (hsign : sign < 2) :
    F32.truncNat (UInt32.ofNat (sign * 2147483648 + (e * 8388608 + f))) =
        (8388608 + f) / 2 ^ (150 - e) ∧
      (UInt32.ofNat (sign * 2147483648 + (e * 8388608 + f))).toNat / 2147483648 = sign := by
  have hword : (UInt32.ofNat (sign * 2147483648 + (e * 8388608 + f))).toNat =
      sign * 2147483648 + (e * 8388608 + f) := by
    rw [UInt32.toNat_ofNat']
    exact Nat.mod_eq_of_lt (by omega)
  constructor
  · rw [F32.truncNat, hword]
    have hexp : (sign * 2147483648 + (e * 8388608 + f)) / 8388608 % 256 = e := by omega
    have hfrac : (sign * 2147483648 + (e * 8388608 + f)) % 8388608 = f := by omega
    simp only [hexp, hfrac, if_neg (not_lt.2 he), if_pos he']
  · rw [hword]
    omega

/-- The positive integers below `2^24` are the floats of their own leading bit. -/
theorem F32.ofNat_eq {n : Nat} (hn : 0 < n) (h : n < 16777216) :
    ∃ e f, 127 ≤ e ∧ e ≤ 150 ∧ f < 8388608 ∧ F32.ofNat n = e * 8388608 + f ∧
      (8388608 + f) / 2 ^ (150 - e) = n := by
  have hne : n ≠ 0 := Nat.pos_iff_ne_zero.1 hn
  have hlog : n.log2 ≤ 23 :=
    Nat.le_of_lt_succ ((Nat.log2_lt hne).2 (Nat.lt_of_lt_of_le h (by decide)))
  have hlow : 2 ^ n.log2 ≤ n := Nat.log2_self_le hne
  have hhigh : n < 2 ^ (n.log2 + 1) := Nat.lt_log2_self
  have hpow : 2 ^ n.log2 * 2 ^ (23 - n.log2) = 8388608 := by
    rw [← Nat.pow_add, Nat.add_sub_cancel' hlog]
  have hpos : 0 < 2 ^ (23 - n.log2) := Nat.two_pow_pos _
  have hge : 8388608 ≤ n * 2 ^ (23 - n.log2) := by
    rw [← hpow]
    exact Nat.mul_le_mul_right _ hlow
  have hlt : n * 2 ^ (23 - n.log2) < 16777216 := by
    calc n * 2 ^ (23 - n.log2) < 2 ^ (n.log2 + 1) * 2 ^ (23 - n.log2) :=
          Nat.mul_lt_mul_of_pos_right hhigh hpos
      _ = 2 * (2 ^ n.log2 * 2 ^ (23 - n.log2)) := by rw [Nat.pow_succ]; ring
      _ = 16777216 := by rw [hpow]
  refine ⟨n.log2 + 127, n * 2 ^ (23 - n.log2) - 8388608, by omega, by omega, by omega, ?_, ?_⟩
  · rw [F32.ofNat, if_neg hne, if_pos hlog]
  · have hexp : 150 - (n.log2 + 127) = 23 - n.log2 := by omega
    rw [Nat.add_sub_cancel' hge, hexp, Nat.mul_div_cancel _ hpos]

/-- An integer of at most 24 bits survives the way through a float. -/
theorem F32.toInt_ofInt {n : Int} (h : n.natAbs ≤ 16777216) : (F32.ofInt n).toInt = .ok n := by
  rcases Nat.lt_or_eq_of_le h with hlt | heq
  · rcases Nat.eq_zero_or_pos n.natAbs with hzero | hpos
    · rw [Int.natAbs_eq_zero] at hzero
      subst hzero
      rfl
    · obtain ⟨e, f, he, he', hf, hword, hval⟩ := F32.ofNat_eq hpos hlt
      rcases lt_or_ge n 0 with hneg | hnonneg
      · obtain ⟨htrunc, hsign⟩ := F32.truncNat_word he he' hf 1 (by decide)
        rw [one_mul, ← hword] at htrunc hsign
        rw [F32.toInt, F32.ofInt, if_pos hneg, hsign, if_pos rfl, htrunc, hval]
        have hn : -(n.natAbs : Int) = n := by omega
        rw [hn]
        exact i32_ok (by omega) (by omega)
      · obtain ⟨htrunc, hsign⟩ := F32.truncNat_word he he' hf 0 (by decide)
        rw [zero_mul, zero_add, ← hword] at htrunc hsign
        rw [F32.toInt, F32.ofInt, if_neg (not_lt.2 hnonneg), hsign, if_neg (by decide), htrunc, hval,
          Int.natAbs_of_nonneg hnonneg]
        exact i32_ok (by omega) (by omega)
  · rcases Int.natAbs_eq n with hn | hn
    · rw [hn, heq]
      decide
    · rw [hn, heq]
      decide

/-- An integer that survives the way through a float. -/
def FloatExact (n : Int) : Prop := (F32.ofInt n).toInt = .ok n

instance (n : Int) : Decidable (FloatExact n) := inferInstanceAs (Decidable (_ = _))

theorem floatExact_of_le {n : Int} (h : n.natAbs ≤ 16777216) : FloatExact n := F32.toInt_ofInt h

example : ¬ FloatExact 16777217 := by decide

end Terllama
