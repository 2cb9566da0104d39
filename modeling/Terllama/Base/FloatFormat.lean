import Mathlib.Tactic
import Terllama.Base.Bytes

/-!
# Binary floating-point formats

An interchange format is given by the widths of its exponent and its fraction. `value` is what a
word stands for, and the `ofFields` lemmas say when the fields of a word of one format, moved into a
wider one, stand for the same value: the exponent moves by the difference of the biases, and a
subnormal becomes normal at its leading bit.
-/

namespace Terllama

/-- What a floating-point word stands for. -/
inductive FloatValue where
  | nan
  | infinite (negative : Bool)
  | real (q : ℚ)
  deriving DecidableEq, Repr

/-- A binary interchange format. -/
structure FloatFormat where
  expBits : Nat
  fracBits : Nat

namespace FloatFormat
variable (fmt : FloatFormat)

/-- The exponent of one. -/
def bias : Int := 2 ^ (fmt.expBits - 1) - 1

/-- The sign bit. -/
def sign (w : Nat) : Nat := w / 2 ^ fmt.fracBits / 2 ^ fmt.expBits % 2

/-- The exponent field. -/
def exponent (w : Nat) : Nat := w / 2 ^ fmt.fracBits % 2 ^ fmt.expBits

/-- The fraction field. -/
def fraction (w : Nat) : Nat := w % 2 ^ fmt.fracBits

/-- The word of three fields. -/
def word (s e f : Nat) : Nat := (s * 2 ^ fmt.expBits + e) * 2 ^ fmt.fracBits + f

/-- One or minus one. -/
def signed (s : Nat) : ℚ := if s = 1 then -1 else 1

/-- What the fields of a word stand for. -/
def ofFields (s e f : Nat) : FloatValue :=
  if e = 2 ^ fmt.expBits - 1 then if f = 0 then .infinite (s = 1) else .nan
  else if e = 0 then .real (signed s * f * 2 ^ (1 - fmt.bias - fmt.fracBits))
  else .real (signed s * (2 ^ fmt.fracBits + f : Nat) * 2 ^ (e - fmt.bias - fmt.fracBits))

/-- What a word stands for. -/
def value (w : Nat) : FloatValue := fmt.ofFields (fmt.sign w) (fmt.exponent w) (fmt.fraction w)

/-- A number between zero and the smallest normal one. -/
def IsSubnormal (w : Nat) : Prop := fmt.exponent w = 0 ∧ fmt.fraction w ≠ 0

instance (w : Nat) : Decidable (fmt.IsSubnormal w) :=
  inferInstanceAs (Decidable (fmt.exponent w = 0 ∧ fmt.fraction w ≠ 0))

variable {fmt} {s e f : Nat}

/-- A word has the fields it is made of. -/
theorem value_word (hs : s < 2) (he : e < 2 ^ fmt.expBits) (hf : f < 2 ^ fmt.fracBits) :
    fmt.value (fmt.word s e f) = fmt.ofFields s e f := by
  have hhigh : fmt.word s e f / 2 ^ fmt.fracBits = s * 2 ^ fmt.expBits + e := by
    rw [word, Nat.mul_comm, Nat.mul_add_div (Nat.two_pow_pos _), Nat.div_eq_of_lt hf, Nat.add_zero]
  have hlow : fmt.word s e f % 2 ^ fmt.fracBits = f := by
    rw [word, Nat.mul_comm, Nat.mul_add_mod, Nat.mod_eq_of_lt hf]
  rw [value, sign, exponent, fraction, hhigh, hlow, Nat.mul_comm s,
    Nat.mul_add_div (Nat.two_pow_pos _), Nat.div_eq_of_lt he, Nat.mul_add_mod,
    Nat.mod_eq_of_lt he, Nat.add_zero, Nat.mod_eq_of_lt hs]

/-! ## Moving the fields into a wider format -/

variable {wide : FloatFormat} {k : Nat}

/-- An infinity or a NaN keeps its class. -/
theorem ofFields_special (f : Nat) :
    wide.ofFields s (2 ^ wide.expBits - 1) (f * 2 ^ k) = fmt.ofFields s (2 ^ fmt.expBits - 1) f := by
  rw [ofFields, if_pos rfl, ofFields, if_pos rfl]
  have hzero : f * 2 ^ k = 0 ↔ f = 0 := by
    rw [Nat.mul_eq_zero, or_iff_left (Nat.two_pow_pos k).ne']
  simp only [hzero]

/-- A zero stays a zero. -/
theorem ofFields_zero (h : 0 < fmt.expBits) : fmt.ofFields s 0 0 = .real 0 := by
  have hne : 0 ≠ 2 ^ fmt.expBits - 1 := by
    have := Nat.one_lt_two_pow h.ne'
    omega
  rw [ofFields, if_neg hne, if_pos rfl, Nat.cast_zero, mul_zero, zero_mul]

/-- A normal number of the wide format with a fraction of `k` low zeros. -/
theorem ofFields_normal (hfrac : wide.fracBits = fmt.fracBits + k) (he : 0 < e)
    (he' : e < 2 ^ wide.expBits - 1) :
    wide.ofFields s e (f * 2 ^ k) =
      .real (signed s * (2 ^ fmt.fracBits + f : Nat) * 2 ^ (e - wide.bias - fmt.fracBits)) := by
  rw [ofFields, if_neg he'.ne, if_neg he.ne', hfrac]
  have hscale : ((2 ^ (fmt.fracBits + k) + f * 2 ^ k : Nat) : ℚ) =
      (2 ^ fmt.fracBits + f : Nat) * 2 ^ k := by
    push_cast
    ring
  have hexp : (2 : ℚ) ^ ((e : Int) - wide.bias - fmt.fracBits) =
      2 ^ k * 2 ^ ((e : Int) - wide.bias - (fmt.fracBits + k : Nat)) := by
    rw [← zpow_natCast (2 : ℚ) k, ← zpow_add₀ (by norm_num)]
    congr 1
    push_cast
    ring
  rw [hscale, hexp]
  ring_nf

/-- A normal number keeps its value where its exponent moves by the difference of the biases. -/
theorem ofFields_widen (hfrac : wide.fracBits = fmt.fracBits + k) (he : 0 < e)
    (he' : e < 2 ^ fmt.expBits - 1) {e' : Nat} (hbias : (e' : Int) - wide.bias = e - fmt.bias)
    (hpos : 0 < e') (hlt : e' < 2 ^ wide.expBits - 1) :
    wide.ofFields s e' (f * 2 ^ k) = fmt.ofFields s e f := by
  rw [ofFields_normal hfrac hpos hlt, ofFields, if_neg he'.ne, if_neg he.ne', hbias]

theorem signed_ne_zero (s : Nat) : signed s ≠ 0 := by
  unfold signed
  split <;> norm_num

/-- A subnormal number, moved to its leading bit `p`, keeps its value with one exponent only. -/
theorem ofFields_subnormal_iff (hfrac : wide.fracBits = fmt.fracBits + k) (hexp : 1 < fmt.expBits)
    {p : Nat} (hlow : 2 ^ p ≤ f) (hp : p ≤ fmt.fracBits) (he : 0 < e)
    (hlt : e < 2 ^ wide.expBits - 1) :
    wide.ofFields s e ((f * 2 ^ (fmt.fracBits - p) - 2 ^ fmt.fracBits) * 2 ^ k) =
        fmt.ofFields s 0 f ↔
      (e : Int) - wide.bias = p + 1 - fmt.bias - fmt.fracBits := by
  have hne : 0 ≠ 2 ^ fmt.expBits - 1 := by
    have := Nat.one_lt_two_pow (n := fmt.expBits) (by omega)
    omega
  have hf : (f : ℚ) ≠ 0 := by
    have := Nat.two_pow_pos p
    exact_mod_cast (by omega : f ≠ 0)
  have hge : 2 ^ fmt.fracBits ≤ f * 2 ^ (fmt.fracBits - p) := by
    calc 2 ^ fmt.fracBits = 2 ^ p * 2 ^ (fmt.fracBits - p) := by
          rw [← Nat.pow_add, Nat.add_sub_cancel' hp]
      _ ≤ f * 2 ^ (fmt.fracBits - p) := Nat.mul_le_mul_right _ hlow
  have hval : signed s * ((f * 2 ^ (fmt.fracBits - p) : Nat) : ℚ) *
      2 ^ ((e : Int) - wide.bias - fmt.fracBits) =
      signed s * f * 2 ^ ((e : Int) - wide.bias - p) := by
    have hpow : (2 : ℚ) ^ ((e : Int) - wide.bias - p) = (2 : ℚ) ^ (fmt.fracBits - p : Nat) *
        2 ^ ((e : Int) - wide.bias - fmt.fracBits) := by
      rw [← zpow_natCast, ← zpow_add₀ (by norm_num)]
      congr 1
      push_cast [Nat.cast_sub hp]
      ring
    rw [hpow]
    push_cast
    ring
  rw [ofFields_normal hfrac he hlt, Nat.add_sub_cancel' hge, hval, ofFields, if_neg hne, if_pos rfl,
    FloatValue.real.injEq, mul_right_inj' (mul_ne_zero (signed_ne_zero s) hf),
    zpow_right_inj₀ (by norm_num) (by norm_num)]
  omega

end FloatFormat

end Terllama
