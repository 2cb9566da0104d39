import Mathlib.Data.Nat.Bitwise
import Terllama.Base.Buffer
import Terllama.Base.FloatFormat

/-!
# Half-precision tensors

The converters of `src/convert/safetensors.cpp` (`f16_to_f32`, `bf16_to_f32` and their batches) and
of `src/gguf_loader` (`fp16_to_fp32`, `decode_f16_batch`). Each of them is exact on zeros, normal
numbers, infinities and NaNs. A subnormal is moved to its leading bit, with an exponent that is off:
by one in `f16_to_f32`, below the range of the field in `bf16_to_f32`, and in `fp16_to_fp32` by twice
the distance of the leading bit from bit 5.
-/

namespace Terllama

/-- IEEE binary16. -/
def binary16 : FloatFormat := ⟨5, 10⟩

/-- bfloat16. -/
def bfloat16 : FloatFormat := ⟨8, 7⟩

/-- IEEE binary32. -/
def binary32 : FloatFormat := ⟨8, 23⟩

theorem binary16_bias : binary16.bias = 15 := rfl

theorem binary32_bias : binary32.bias = 127 := rfl

/-! ## The converters -/

/-- The loop that moves the leading bit of a fraction up to `bit`, with a counter that goes down.
Thirty-two passes move every bit there. -/
def normalize (bit : UInt32) : Nat → UInt32 → Int → UInt32 × Int
  | 0, m, e => (m, e)
  | fuel + 1, m, e => if m &&& bit = 0 then normalize bit fuel (m <<< 1) (e - 1) else (m, e)

/-- `f16_to_f32`. -/
def f16ToF32 (h : UInt16) : F32 :=
  let sign := (h.toUInt32 &&& 0x8000) <<< 16
  let exp := (h.toUInt32 >>> 10) &&& 0x1F
  let man := h.toUInt32 &&& 0x3FF
  if exp = 0x1F then sign ||| (0x7F800000 : UInt32) ||| (man <<< 13)
  else if exp = 0 then
    if man = 0 then sign
    else
      let me := normalize 0x400 32 man (127 - 15)
      sign ||| (UInt32.ofInt me.2 <<< 23) ||| ((me.1 &&& 0x3FF) <<< 13)
  else sign ||| ((exp - 15 + 127) <<< 23) ||| (man <<< 13)

/-- `bf16_to_f32`. -/
def bf16ToF32 (h : UInt16) : F32 :=
  let sign := (h.toUInt32 &&& 0x8000) <<< 16
  let exp := (h.toUInt32 >>> 7) &&& 0xFF
  let man := h.toUInt32 &&& 0x7F
  if exp = 0xFF then sign ||| (0x7F800000 : UInt32) ||| (man <<< 16)
  else if exp = 0 then
    if man = 0 then sign
    else
      let me := normalize 0x80 32 man (127 - 126)
      sign ||| (UInt32.ofInt me.2 <<< 23) ||| ((me.1 &&& 0x7F) <<< 16)
  else sign ||| (exp <<< 23) ||| (man <<< 16)

/-- `fp16_to_fp32`. -/
def fp16ToFp32 (h : UInt16) : F32 :=
  let sign := (h.toUInt32 &&& 0x8000) <<< 16
  let exp := (h.toUInt32 &&& 0x7C00) >>> 10
  let mant := h.toUInt32 &&& 0x03FF
  if exp = 0 then
    if mant = 0 then sign
    else
      let ms := normalize 0x0400 32 mant 10
      let exp := 1 + (127 - 15) - UInt32.ofInt ms.2
      sign ||| (exp <<< 23) ||| ((ms.1 &&& 0x03FF) <<< 13)
  else if exp = 31 then sign ||| (0x7F800000 : UInt32) ||| (mant <<< 13)
  else
    let exp := exp + (127 - 15)
    sign ||| (exp <<< 23) ||| (mant <<< 13)

/-! ## Fields -/

/-- The fields of a word that is put together from its sign, its exponent and its fraction. -/
theorem toNat_word {s e f : Nat} (he : e < 256) (hf : f < 8388608) {a b c : UInt32}
    (ha : a.toNat = s * 2147483648) (hb : b.toNat = e * 8388608) (hc : c.toNat = f) :
    (a ||| b ||| c).toNat = binary32.word s e f := by
  have hab : s * 2147483648 ||| e * 8388608 = (s * 256 + e) * 8388608 := by
    have h := Nat.two_pow_add_eq_or_of_lt (b := e * 8388608) (i := 31) (by omega) s
    rw [Nat.mul_comm s, ← h]
    ring
  have habc : (s * 256 + e) * 8388608 ||| f = (s * 256 + e) * 8388608 + f := by
    have h := Nat.two_pow_add_eq_or_of_lt (b := f) (i := 23) hf (s * 256 + e)
    rw [Nat.mul_comm _ 8388608, ← h]
  rw [UInt32.toNat_or, UInt32.toNat_or, ha, hb, hc, hab, habc]
  rfl

section
variable (h : UInt16)

theorem toNat_sign : ((h.toUInt32 &&& 0x8000) <<< 16 : UInt32).toNat =
    h.toNat / 32768 * 2147483648 := by
  have hh := h.toNat_lt
  have hand : h.toNat &&& 32768 = h.toNat / 32768 * 32768 := by
    have hbit := Nat.and_two_pow h.toNat 15
    rw [Nat.testBit_eq_decide_div_mod_eq] at hbit
    rw [show (32768 : Nat) = 2 ^ 15 from rfl, hbit]
    rcases Nat.lt_or_ge h.toNat 32768 with hlt | hge
    · rw [show h.toNat / 2 ^ 15 = 0 by omega]
      rfl
    · rw [show h.toNat / 2 ^ 15 = 1 by omega]
      rfl
  rw [UInt32.toNat_shiftLeft, UInt32.toNat_and, UInt16.toNat_toUInt32]
  rw [show (0x8000 : UInt32).toNat = 32768 from rfl, hand, Nat.shiftLeft_eq]
  rw [show 2 ^ ((16 : UInt32).toNat % 32) = 65536 from rfl]
  omega

/-- The low bits of a half. -/
theorem toNat_low (k : Nat) {mask : UInt32} (hmask : mask.toNat = 2 ^ k - 1) :
    (h.toUInt32 &&& mask).toNat = h.toNat % 2 ^ k := by
  rw [UInt32.toNat_and, UInt16.toNat_toUInt32, hmask, Nat.and_two_pow_sub_one_eq_mod]

/-- The bits of a half above bit `i`. -/
theorem toNat_high (i k : Nat) {shift mask : UInt32} (hshift : shift.toNat % 32 = i)
    (hmask : mask.toNat = 2 ^ k - 1) :
    ((h.toUInt32 >>> shift) &&& mask).toNat = h.toNat / 2 ^ i % 2 ^ k := by
  rw [UInt32.toNat_and, UInt32.toNat_shiftRight, UInt16.toNat_toUInt32, hshift, hmask,
    Nat.and_two_pow_sub_one_eq_mod, Nat.shiftRight_eq_div_pow]

end

/-- A field that is moved up inside the word. -/
theorem toNat_shiftLeft {m shift : UInt32} {k n : Nat} (hm : m.toNat < 2 ^ n)
    (hshift : shift.toNat % 32 = k) (h : n + k ≤ 32) : (m <<< shift).toNat = m.toNat * 2 ^ k := by
  rw [UInt32.toNat_shiftLeft, hshift, Nat.shiftLeft_eq]
  refine Nat.mod_eq_of_lt ?_
  calc m.toNat * 2 ^ k < 2 ^ n * 2 ^ k := Nat.mul_lt_mul_of_pos_right hm (Nat.two_pow_pos k)
    _ = 2 ^ (n + k) := (Nat.pow_add 2 n k).symm
    _ ≤ 2 ^ 32 := Nat.pow_le_pow_right (by decide) h

theorem toNat_ofInt {n : Int} {k : Nat} (h : n = k) (hk : k < 4294967296) :
    (UInt32.ofInt n).toNat = k := by
  rw [h, UInt32.ofInt, UInt32.toNat_ofNat']
  omega

/-! ## The loop -/

theorem and_bit_eq_zero {bit m : UInt32} {t : Nat} (hbit : bit.toNat = 2 ^ t) :
    m &&& bit = 0 ↔ m.toNat.testBit t = false := by
  rw [← UInt32.toNat_inj, UInt32.toNat_and, hbit, Nat.and_two_pow]
  cases m.toNat.testBit t
  · simp
  · simp

/-- The loop moves the leading bit `p` of a fraction to bit `t`, one place a pass. -/
theorem normalize_eq {bit : UInt32} {t : Nat} (hbit : bit.toNat = 2 ^ t) (ht : t < 31) {fuel p : Nat}
    {m : UInt32} (e : Int) (hlow : 2 ^ p ≤ m.toNat) (hhigh : m.toNat < 2 ^ (p + 1)) (hp : p ≤ t)
    (hfuel : t - p < fuel) :
    (normalize bit fuel m e).1.toNat = m.toNat * 2 ^ (t - p) ∧
      (normalize bit fuel m e).2 = e - (t - p : Nat) := by
  induction fuel generalizing p m e with
  | zero => omega
  | succ fuel ih =>
    rw [normalize]
    rcases Nat.lt_or_eq_of_le hp with hlt | rfl
    · have hclear : m.toNat.testBit t = false :=
        Nat.testBit_lt_two_pow (Nat.lt_of_lt_of_le hhigh (Nat.pow_le_pow_right (by decide) hlt))
      have hdouble : (m <<< 1).toNat = m.toNat * 2 :=
        toNat_shiftLeft (k := 1) hhigh rfl (by omega)
      rw [if_pos ((and_bit_eq_zero hbit).2 hclear)]
      obtain ⟨h₁, h₂⟩ := ih (p := p + 1) (m := m <<< 1) (e - 1)
        (by rw [hdouble, Nat.pow_succ]; omega) (by rw [hdouble, Nat.pow_succ]; omega) hlt (by omega)
      constructor
      · rw [h₁, hdouble, Nat.mul_assoc, ← Nat.pow_succ', show (t - (p + 1)).succ = t - p by omega]
      · rw [h₂]
        omega
    · have hset : m.toNat.testBit p = true := by
        rw [Nat.testBit_eq_decide_div_mod_eq, decide_eq_true_eq]
        have hone : m.toNat / 2 ^ p = 1 :=
          Nat.div_eq_of_lt_le (by omega) (by rw [Nat.pow_succ] at hhigh; omega)
        rw [hone]
      rw [if_neg (by rw [and_bit_eq_zero hbit, hset]; exact nofun), Nat.sub_self, Nat.pow_zero, Nat.mul_one]
      exact ⟨rfl, (Int.sub_zero e).symm⟩

/-! ## One element -/

/-- A binary16 number as a word of three fields. -/
theorem binary16_value (h : UInt16) : binary16.value h.toNat =
    binary16.ofFields (h.toNat / 32768) (h.toNat / 1024 % 32) (h.toNat % 1024) := by
  have hh := h.toNat_lt
  have hsign : binary16.sign h.toNat = h.toNat / 32768 := by
    show h.toNat / 1024 / 32 % 2 = h.toNat / 32768
    omega
  rw [FloatFormat.value, hsign]
  rfl

/-- The value of a word that is put together from three fields. -/
theorem value_or {s e f : Nat} (hs : s < 2) (he : e < 256) (hf : f < 8388608) {a b c : UInt32}
    (ha : a.toNat = s * 2147483648) (hb : b.toNat = e * 8388608) (hc : c.toNat = f) :
    binary32.value (a ||| b ||| c).toNat = binary32.ofFields s e f := by
  rw [toNat_word he hf ha hb hc, FloatFormat.value_word hs he hf]

/-- A field of a subnormal, moved to its leading bit, without that bit. -/
theorem toNat_fraction {m mask : UInt32} {t f p : Nat} (hmask : mask.toNat = 2 ^ t - 1)
    (hm : m.toNat = f * 2 ^ (t - p)) (hlow : 2 ^ p ≤ f) (hhigh : f < 2 ^ (p + 1)) (hp : p ≤ t) :
    (m &&& mask).toNat = f * 2 ^ (t - p) - 2 ^ t := by
  have hge : 2 ^ t ≤ f * 2 ^ (t - p) := by
    calc 2 ^ t = 2 ^ p * 2 ^ (t - p) := by rw [← Nat.pow_add, Nat.add_sub_cancel' hp]
      _ ≤ f * 2 ^ (t - p) := Nat.mul_le_mul_right _ hlow
  have hlt : f * 2 ^ (t - p) < 2 ^ t + 2 ^ t := by
    calc f * 2 ^ (t - p) < 2 ^ (p + 1) * 2 ^ (t - p) :=
          Nat.mul_lt_mul_of_pos_right hhigh (Nat.two_pow_pos _)
      _ = 2 ^ t + 2 ^ t := by
          rw [← Nat.pow_add, show p + 1 + (t - p) = t + 1 by omega, Nat.pow_succ, Nat.mul_two]
  rw [UInt32.toNat_and, hm, hmask, Nat.and_two_pow_sub_one_eq_mod, Nat.mod_eq_sub_mod hge,
    Nat.mod_eq_of_lt (by omega)]

theorem toNat_ne {a b : UInt32} (h : a ≠ b) : a.toNat ≠ b.toNat :=
  fun heq => h (UInt32.toNat_inj.1 heq)

/-- The loop on the fraction of a subnormal binary16 number. -/
theorem normalize_man {man : UInt32} {f : Nat} (hman : man.toNat = f) (hne : f ≠ 0) (hf : f < 1024)
    (e : Int) :
    ∃ p < 10, 2 ^ p ≤ f ∧ f < 2 ^ (p + 1) ∧
      (normalize 0x400 32 man e).1.toNat = f * 2 ^ (10 - p) ∧
      (normalize 0x400 32 man e).2 = e - (10 - p : Nat) := by
  have hlow := Nat.log2_self_le hne
  have hhigh := Nat.lt_log2_self (n := f)
  have hp : f.log2 < 10 := (Nat.log2_lt hne).2 hf
  obtain ⟨hm, he⟩ := @normalize_eq 0x400 10 rfl (by decide) 32 _ _ e
    (by rw [hman]; exact hlow) (by rw [hman]; exact hhigh) hp.le (by omega)
  rw [hman] at hm
  exact ⟨f.log2, hp, hlow, hhigh, hm, he⟩

section
variable {sign exp man : UInt32} {s e f : Nat}

/-- The fields of a binary16 number in the places of a binary32 number. -/
theorem value_or_man (hs : s < 2) (hsign : sign.toNat = s * 2147483648) (he : e < 256)
    (hexp : exp.toNat = e * 8388608) (hman : man.toNat = f) (hf : f < 1024) :
    binary32.value (sign ||| exp ||| (man <<< 13)).toNat = binary32.ofFields s e (f * 2 ^ 13) := by
  have hshift : (man <<< 13).toNat = f * 2 ^ 13 := by
    rw [toNat_shiftLeft (k := 13) (n := 10) (by rw [hman]; exact hf) rfl (by decide), hman]
  exact value_or hs he (by omega) hsign hexp hshift

theorem value_sign (hs : s < 2) (hsign : sign.toNat = s * 2147483648) :
    binary32.value sign.toNat = .real 0 := by
  have hword : sign.toNat = binary32.word s 0 0 := by
    rw [hsign]
    show s * 2147483648 = (s * 256 + 0) * 8388608 + 0
    ring
  rw [hword, FloatFormat.value_word hs (by decide) (by decide)]
  exact FloatFormat.ofFields_zero (by decide)

/-- An infinity or a NaN of binary16. -/
theorem value_special (hs : s < 2) (hsign : sign.toNat = s * 2147483648) (hman : man.toNat = f)
    (hf : f < 1024) :
    binary32.value (sign ||| (0x7F800000 : UInt32) ||| (man <<< 13)).toNat =
      binary16.ofFields s 31 f := by
  rw [value_or_man hs hsign (e := 255) (by decide) rfl hman hf]
  exact FloatFormat.ofFields_special f

/-- A normal number of binary16, with its exponent moved by 112. -/
theorem value_normal (hs : s < 2) (hsign : sign.toNat = s * 2147483648) (he : 0 < e) (he' : e < 31)
    (hexp : exp.toNat = e + 112) (hman : man.toNat = f) (hf : f < 1024) :
    binary32.value (sign ||| (exp <<< 23) ||| (man <<< 13)).toNat = binary16.ofFields s e f := by
  have hshift : (exp <<< 23).toNat = (e + 112) * 8388608 := by
    rw [toNat_shiftLeft (k := 23) (n := 8) (by rw [hexp]; omega) rfl (by decide), hexp]
    rfl
  rw [value_or_man hs hsign (by omega) hshift hman hf]
  have hmax : e < 2 ^ binary16.expBits - 1 := he'
  have hmax' : e + 112 < 2 ^ binary32.expBits - 1 := by
    show e + 112 < 255
    omega
  refine FloatFormat.ofFields_widen (k := 13) rfl he hmax ?_ (by omega) hmax'
  rw [binary32_bias, binary16_bias]
  omega

/-- A subnormal number of binary16, moved to its leading bit `p` with the exponent `e`, keeps its
value when `e` is `103 + p`. -/
theorem value_subnormal_iff (hs : s < 2) (hsign : sign.toNat = s * 2147483648) {p : Nat}
    (hlow : 2 ^ p ≤ f) (hhigh : f < 2 ^ (p + 1)) (hp : p ≤ 10) (he : 0 < e) (he' : e < 255)
    (hexp : exp.toNat = e) (hman : man.toNat = f * 2 ^ (10 - p)) :
    binary32.value (sign ||| (exp <<< 23) ||| ((man &&& 0x3FF) <<< 13)).toNat =
      binary16.ofFields s 0 f ↔ e = 103 + p := by
  have hmask : (0x3FF : UInt32).toNat = 2 ^ 10 - 1 := rfl
  have hfrac := toNat_fraction hmask hman hlow hhigh hp
  have hlt : f * 2 ^ (10 - p) < 2048 := by
    calc f * 2 ^ (10 - p) < 2 ^ (p + 1) * 2 ^ (10 - p) :=
          Nat.mul_lt_mul_of_pos_right hhigh (Nat.two_pow_pos _)
      _ = 2048 := by rw [← Nat.pow_add, show p + 1 + (10 - p) = 11 by omega]
  have hshift : (exp <<< 23).toNat = e * 8388608 := by
    rw [toNat_shiftLeft (k := 23) (n := 8) (by rw [hexp]; omega) rfl (by decide), hexp]
    rfl
  rw [value_or_man hs hsign (by omega) hshift hfrac (by omega)]
  have hmax : e < 2 ^ binary32.expBits - 1 := he'
  have hiff : binary32.ofFields s e
      ((f * 2 ^ (binary16.fracBits - p) - 2 ^ binary16.fracBits) * 2 ^ 13) =
        binary16.ofFields s 0 f ↔
      (e : Int) - binary32.bias = p + 1 - binary16.bias - binary16.fracBits :=
    FloatFormat.ofFields_subnormal_iff rfl (by decide) hlow hp he hmax
  have hbits : ((binary16.fracBits : Nat) : Int) = 10 := rfl
  rw [binary32_bias, binary16_bias, hbits] at hiff
  exact hiff.trans (by omega)

end

/-- `f16_to_f32` is exact but on subnormals. -/
theorem f16ToF32_value_iff (h : UInt16) :
    binary32.value (f16ToF32 h).toNat = binary16.value h.toNat ↔ ¬ binary16.IsSubnormal h.toNat := by
  have hh := h.toNat_lt
  have hs : h.toNat / 32768 < 2 := by omega
  have hf : h.toNat % 1024 < 1024 := Nat.mod_lt _ (by decide)
  have hsign := toNat_sign h
  have hexp : ((h.toUInt32 >>> 10) &&& 0x1F).toNat = h.toNat / 1024 % 32 :=
    toNat_high h 10 5 rfl rfl
  have hman : (h.toUInt32 &&& 0x3FF).toNat = h.toNat % 1024 := toNat_low h 10 rfl
  have hsub : binary16.IsSubnormal h.toNat ↔ h.toNat / 1024 % 32 = 0 ∧ h.toNat % 1024 ≠ 0 := Iff.rfl
  rw [binary16_value, hsub, f16ToF32]
  by_cases h31 : (h.toUInt32 >>> 10) &&& 0x1F = 0x1F
  · have he : h.toNat / 1024 % 32 = 31 := by
      rw [← hexp, h31]
      rfl
    rw [if_pos h31, he]
    exact iff_of_true (value_special hs hsign hman hf) (by omega)
  · rw [if_neg h31]
    by_cases h0 : (h.toUInt32 >>> 10) &&& 0x1F = 0
    · have he : h.toNat / 1024 % 32 = 0 := by
        rw [← hexp, h0]
        rfl
      rw [if_pos h0, he]
      by_cases hman0 : h.toUInt32 &&& 0x3FF = 0
      · have hf0 : h.toNat % 1024 = 0 := by
          rw [← hman, hman0]
          rfl
        rw [if_pos hman0, hf0, value_sign hs hsign]
        exact iff_of_true (FloatFormat.ofFields_zero (by decide)).symm (by omega)
      · have hne : h.toNat % 1024 ≠ 0 := by
          rw [← hman]
          exact toNat_ne hman0
        obtain ⟨p, hp, hlow, hhigh, hm, he⟩ := normalize_man hman hne hf (127 - 15)
        have hofInt : (UInt32.ofInt (normalize 0x400 32 (h.toUInt32 &&& 0x3FF) (127 - 15)).2).toNat =
            102 + p := toNat_ofInt (by omega) (by omega)
        rw [if_neg hman0, value_subnormal_iff hs hsign hlow hhigh hp.le (by omega) (by omega) hofInt hm]
        omega
    · rw [if_neg h0]
      have he : 0 < h.toNat / 1024 % 32 ∧ h.toNat / 1024 % 32 < 31 := by
        have h31' := toNat_ne h31
        have h0' := toNat_ne h0
        rw [hexp] at h31' h0'
        have h31'' : h.toNat / 1024 % 32 ≠ 31 := h31'
        have h0'' : h.toNat / 1024 % 32 ≠ 0 := h0'
        omega
      refine iff_of_true (value_normal hs hsign he.1 he.2 ?_ hman hf) (by omega)
      rw [UInt32.toNat_add, UInt32.toNat_sub, hexp]
      have h15 : (15 : UInt32).toNat = 15 := rfl
      have h127 : (127 : UInt32).toNat = 127 := rfl
      omega

/-- `fp16_to_fp32` is exact but on the subnormals whose leading bit is not bit 5. -/
theorem fp16ToFp32_value_iff (h : UInt16) :
    binary32.value (fp16ToFp32 h).toNat = binary16.value h.toNat ↔
      (binary16.IsSubnormal h.toNat →
        32 ≤ binary16.fraction h.toNat ∧ binary16.fraction h.toNat < 64) := by
  have hh := h.toNat_lt
  have hs : h.toNat / 32768 < 2 := by omega
  have hf : h.toNat % 1024 < 1024 := Nat.mod_lt _ (by decide)
  have hsign := toNat_sign h
  have hexp : ((h.toUInt32 &&& 0x7C00) >>> 10).toNat = h.toNat / 1024 % 32 := by
    have hand : (h.toUInt32 &&& 0x7C00) >>> 10 = (h.toUInt32 >>> 10) &&& 0x1F :=
      UInt32.shiftRight_and
    rw [hand]
    exact toNat_high h 10 5 rfl rfl
  have hman : (h.toUInt32 &&& 0x3FF).toNat = h.toNat % 1024 := toNat_low h 10 rfl
  have hsub : binary16.IsSubnormal h.toNat ↔ h.toNat / 1024 % 32 = 0 ∧ h.toNat % 1024 ≠ 0 := Iff.rfl
  have hfrac : binary16.fraction h.toNat = h.toNat % 1024 := rfl
  rw [binary16_value, hsub, hfrac, fp16ToFp32]
  by_cases h0 : (h.toUInt32 &&& 0x7C00) >>> 10 = 0
  · have he : h.toNat / 1024 % 32 = 0 := by
      rw [← hexp, h0]
      rfl
    rw [if_pos h0, he]
    by_cases hman0 : h.toUInt32 &&& 0x3FF = 0
    · have hf0 : h.toNat % 1024 = 0 := by
        rw [← hman, hman0]
        rfl
      rw [if_pos hman0, hf0, value_sign hs hsign]
      exact iff_of_true (FloatFormat.ofFields_zero (by decide)).symm (by omega)
    · have hne : h.toNat % 1024 ≠ 0 := by
        rw [← hman]
        exact toNat_ne hman0
      obtain ⟨p, hp, hlow, hhigh, hm, he⟩ := normalize_man hman hne hf 10
      have hofInt : (1 + (127 - 15) -
          UInt32.ofInt (normalize 0x400 32 (h.toUInt32 &&& 0x3FF) 10).2).toNat = 113 - p := by
        rw [UInt32.toNat_sub, toNat_ofInt (k := p) (by omega) (by omega)]
        have h113 : (1 + (127 - 15) : UInt32).toNat = 113 := rfl
        omega
      rw [if_neg hman0, value_subnormal_iff hs hsign hlow hhigh hp.le (by omega) (by omega) hofInt hm]
      constructor
      · intro hexp _
        obtain rfl : p = 5 := by omega
        exact ⟨hlow, hhigh⟩
      · intro hrange
        obtain ⟨hge, hlt⟩ := hrange ⟨rfl, hne⟩
        have hp5 : p < 6 := (Nat.pow_lt_pow_iff_right (by decide)).1 (Nat.lt_of_le_of_lt hlow hlt)
        have h5p : 5 < p + 1 :=
          (Nat.pow_lt_pow_iff_right (by decide)).1 (Nat.lt_of_le_of_lt hge hhigh)
        omega
  · rw [if_neg h0]
    have h0' := toNat_ne h0
    rw [hexp] at h0'
    have hpos : h.toNat / 1024 % 32 ≠ 0 := h0'
    by_cases h31 : (h.toUInt32 &&& 0x7C00) >>> 10 = 31
    · have he : h.toNat / 1024 % 32 = 31 := by
        rw [← hexp, h31]
        rfl
      rw [if_pos h31, he]
      exact iff_of_true (value_special hs hsign hman hf) (by omega)
    · have h31' := toNat_ne h31
      rw [hexp] at h31'
      have hlt : h.toNat / 1024 % 32 ≠ 31 := h31'
      rw [if_neg h31]
      refine iff_of_true (value_normal hs hsign (by omega) (by omega) ?_ hman hf) (by omega)
      rw [UInt32.toNat_add, hexp]
      have h112 : (127 - 15 : UInt32).toNat = 112 := rfl
      omega

/-- A subnormal bfloat16 number is never kept. -/
theorem bf16ToF32_subnormal : ∀ s < 2, ∀ f < 128, f ≠ 0 →
    binary32.value (bf16ToF32 (UInt16.ofNat (s * 32768 + f))).toNat ≠
      bfloat16.value (s * 32768 + f) := by
  decide +kernel

/-- `bf16_to_f32` is exact but on subnormals. -/
theorem bf16ToF32_value_iff (h : UInt16) :
    binary32.value (bf16ToF32 h).toNat = bfloat16.value h.toNat ↔ ¬ bfloat16.IsSubnormal h.toNat := by
  have hh := h.toNat_lt
  have hs : h.toNat / 32768 < 2 := by omega
  have hf : h.toNat % 128 < 128 := Nat.mod_lt _ (by decide)
  have hsign := toNat_sign h
  have hexp : ((h.toUInt32 >>> 7) &&& 0xFF).toNat = h.toNat / 128 % 256 := toNat_high h 7 8 rfl rfl
  have hman : (h.toUInt32 &&& 0x7F).toNat = h.toNat % 128 := toNat_low h 7 rfl
  have hsub : bfloat16.IsSubnormal h.toNat ↔ h.toNat / 128 % 256 = 0 ∧ h.toNat % 128 ≠ 0 := Iff.rfl
  have hshift : ((h.toUInt32 &&& 0x7F) <<< 16).toNat = h.toNat % 128 * 2 ^ 16 := by
    rw [toNat_shiftLeft (k := 16) (n := 7) (by rw [hman]; exact hf) rfl (by decide), hman]
  have hvalue : bfloat16.value h.toNat =
      bfloat16.ofFields (h.toNat / 32768) (h.toNat / 128 % 256) (h.toNat % 128) := by
    have hsign : bfloat16.sign h.toNat = h.toNat / 32768 := by
      show h.toNat / 128 / 256 % 2 = h.toNat / 32768
      omega
    rw [FloatFormat.value, hsign]
    rfl
  by_cases h0 : (h.toUInt32 >>> 7) &&& 0xFF = 0
  · have he : h.toNat / 128 % 256 = 0 := by
      rw [← hexp, h0]
      rfl
    by_cases hf0 : h.toNat % 128 = 0
    · have hman0 : h.toUInt32 &&& 0x7F = 0 := UInt32.toNat_inj.1 (hman.trans hf0)
      have h255 : ¬ (h.toUInt32 >>> 7) &&& 0xFF = 0xFF := by
        rw [h0]
        decide
      rw [hsub, hvalue, bf16ToF32, if_neg h255, if_pos h0, if_pos hman0, he, hf0,
        value_sign hs hsign]
      exact iff_of_true (FloatFormat.ofFields_zero (by decide)).symm (by omega)
    · have hword : h.toNat / 32768 * 32768 + h.toNat % 128 = h.toNat := by omega
      have hne := bf16ToF32_subnormal _ hs _ hf hf0
      rw [hword, UInt16.ofNat_toNat] at hne
      exact iff_of_false hne (not_not.2 (hsub.2 ⟨he, hf0⟩))
  · have h0' := toNat_ne h0
    rw [hexp] at h0'
    have hpos : h.toNat / 128 % 256 ≠ 0 := h0'
    rw [hsub, hvalue, bf16ToF32]
    refine iff_of_true ?_ (by omega)
    by_cases h255 : (h.toUInt32 >>> 7) &&& 0xFF = 0xFF
    · have he : h.toNat / 128 % 256 = 255 := by
        rw [← hexp, h255]
        rfl
      rw [if_pos h255, he, value_or hs (e := 255) (by decide) (by omega) hsign rfl hshift]
      exact FloatFormat.ofFields_special _
    · have h255' := toNat_ne h255
      rw [hexp] at h255'
      have hne : h.toNat / 128 % 256 ≠ 255 := h255'
      have hexpShift : (((h.toUInt32 >>> 7) &&& 0xFF) <<< 23).toNat =
          h.toNat / 128 % 256 * 8388608 := by
        rw [toNat_shiftLeft (k := 23) (n := 8) (by rw [hexp]; omega) rfl (by decide), hexp]
        rfl
      have hmax : h.toNat / 128 % 256 < 2 ^ bfloat16.expBits - 1 := by
        show h.toNat / 128 % 256 < 255
        omega
      rw [if_neg h255, if_neg h0, value_or hs (by omega) (by omega) hsign hexpShift hshift]
      exact FloatFormat.ofFields_widen rfl (by omega) hmax rfl (by omega) hmax

/-! ## Tensors -/

/-- The batch loops, with `src` at byte `base` of a buffer: four halves of a 64-bit load in a pass,
and the tail one by one. -/
def decodeBatch (decode : UInt16 → F32) (buf : Bytes) (base : Nat) (dst : List F32) (n : Nat) :
    Exec (List F32) := do
  let dst ← (List.range (n / 4)).foldlM (fun dst q => do
    let w ← slice buf (base + 4 * q * 2) 8
    (List.range 4).foldlM (fun dst k =>
      writeAt dst (4 * q + k) [decode (UInt16.ofNat (leNat w >>> (16 * k)))]) dst) dst
  (List.range (n % 4)).foldlM (fun dst j => do
    let i := n / 4 * 4 + j
    let h ← slice buf (base + i * 2) 2
    writeAt dst i [decode (UInt16.ofNat (leNat h))]) dst

/-- `f16s_to_f32`. -/
def f16sToF32 : Bytes → Nat → List F32 → Nat → Exec (List F32) := decodeBatch f16ToF32

/-- `bf16s_to_f32`. -/
def bf16sToF32 : Bytes → Nat → List F32 → Nat → Exec (List F32) := decodeBatch bf16ToF32

/-- `decode_f16_batch`. -/
def decodeF16Batch : Bytes → Nat → List F32 → Nat → Exec (List F32) := decodeBatch fp16ToFp32

/-- The half at an index of a buffer. -/
def halfAt (buf : Bytes) (base i : Nat) : UInt16 :=
  UInt16.ofNat (leNat ((buf.drop (base + i * 2)).take 2))

/-- The four halves of a 64-bit load. -/
theorem halfAt_of_load (buf : Bytes) (base : Nat) {k : Nat} (hk : k < 4) :
    UInt16.ofNat (leNat ((buf.drop base).take 8) >>> (16 * k)) = halfAt buf base k := by
  have hhalf : leNat ((buf.drop (base + k * 2)).take 2) =
      leNat ((buf.drop base).take 8) / 256 ^ (k * 2) % 256 ^ 2 := by
    rw [← leNat_drop, ← leNat_take, List.drop_take, List.take_take, List.drop_drop,
      Nat.min_eq_left (by omega)]
  have hshift : 2 ^ (16 * k) = 256 ^ (k * 2) := by
    rw [show 256 = 2 ^ 8 from rfl, ← Nat.pow_mul]
    congr 1
    omega
  rw [halfAt, hhalf, Nat.shiftRight_eq_div_pow, hshift]
  apply UInt16.toNat_inj.1
  rw [UInt16.toNat_ofNat', UInt16.toNat_ofNat']
  exact (Nat.mod_mod _ 65536).symm

/-- The batch loops store the decoded halves in order. -/
theorem fills_decodeBatch (decode : UInt16 → F32) {buf : Bytes} {base n : Nat}
    (h : base + n * 2 ≤ buf.length) :
    Fills (fun dst => decodeBatch decode buf base dst n) 0
      ((List.range n).map fun i => decode (halfAt buf base i)) := by
  have hwide : Fills (fun dst => (List.range (n / 4)).foldlM (fun dst q => do
      let w ← slice buf (base + 4 * q * 2) 8
      (List.range 4).foldlM (fun dst k =>
        writeAt dst (4 * q + k) [decode (UInt16.ofNat (leNat w >>> (16 * k)))]) dst) dst) 0
      ((List.range (n / 4)).flatMap fun q =>
        (List.range 4).map fun k => decode (halfAt buf base (q * 4 + k))) := by
    refine Fills.foldlM (s := 4) (fun _ _ => by rw [List.length_map, List.length_range])
      fun q hq => ?_
    have hw : slice buf (base + 4 * q * 2) 8 = .ok ((buf.drop (base + 4 * q * 2)).take 8) :=
      slice_ok (by omega)
    have hlanes : Fills (fun dst => (List.range 4).foldlM (fun dst k => writeAt dst (4 * q + k)
        [decode (UInt16.ofNat (leNat ((buf.drop (base + 4 * q * 2)).take 8) >>> (16 * k)))]) dst)
        (0 + q * 4) ((List.range 4).flatMap fun k => [decode (halfAt buf base (q * 4 + k))]) := by
      refine Fills.foldlM (s := 1) (fun _ _ => rfl) fun k hk => ?_
      have hhalf : halfAt buf (base + 4 * q * 2) k = halfAt buf base (q * 4 + k) := by
        rw [halfAt, halfAt, show base + 4 * q * 2 + k * 2 = base + (q * 4 + k) * 2 by ring]
      rw [halfAt_of_load _ _ hk, hhalf, show 0 + q * 4 + k * 1 = 4 * q + k by ring]
      exact fills_writeAt _ _
    rw [← List.map_eq_flatMap] at hlanes
    simp only [hw, ok_bind]
    exact hlanes
  have htail : Fills (fun dst => (List.range (n % 4)).foldlM (fun dst j => do
      let h ← slice buf (base + (n / 4 * 4 + j) * 2) 2
      writeAt dst (n / 4 * 4 + j) [decode (UInt16.ofNat (leNat h))]) dst) (n / 4 * 4)
      ((List.range (n % 4)).flatMap fun j => [decode (halfAt buf base (n / 4 * 4 + j))]) := by
    refine Fills.foldlM (s := 1) (fun _ _ => rfl) fun j hj => ?_
    simp only [slice_ok (show base + (n / 4 * 4 + j) * 2 + 2 ≤ buf.length by omega), ok_bind,
      Nat.mul_one]
    exact fills_writeAt _ _
  rw [flatMap_range_map fun i => decode (halfAt buf base i)] at hwide
  rw [← List.map_eq_flatMap] at htail
  have hboth := hwide.append (by
    rw [List.length_map, List.length_range, Nat.zero_add]
    exact htail)
  rw [map_range_append (fun i => decode (halfAt buf base i)), Nat.div_add_mod'] at hboth
  exact hboth

/-- A tensor of halves. -/
def halfBytes (hs : List UInt16) : Bytes := hs.flatMap fun h => leBytes 2 h.toNat

theorem halfBytes_length (hs : List UInt16) : (halfBytes hs).length = hs.length * 2 := by
  induction hs with
  | nil => rfl
  | cons h hs ih =>
    rw [halfBytes, List.flatMap_cons, List.length_append, leBytes_length, List.length_cons,
      Nat.succ_mul, Nat.add_comm]
    exact congrArg (· + 2) ih

theorem halfAt_halfBytes (hs : List UInt16) {i : Nat} (hi : i < hs.length) :
    halfAt (halfBytes hs) 0 i = hs.getD i 0 := by
  induction hs generalizing i with
  | nil => exact absurd hi (Nat.not_lt_zero i)
  | cons h hs ih =>
    have hpair : (leBytes 2 h.toNat).length = 2 := leBytes_length 2 _
    rw [halfAt, halfBytes, List.flatMap_cons, Nat.zero_add]
    cases i with
    | zero =>
      rw [Nat.zero_mul, List.drop_zero, List.take_left' hpair, leNat_leBytes_of_lt h.toNat_lt,
        UInt16.ofNat_toNat]
      rfl
    | succ i =>
      have hdrop : (leBytes 2 h.toNat ++ halfBytes hs).drop ((i + 1) * 2) =
          (halfBytes hs).drop (i * 2) := by
        rw [show (i + 1) * 2 = 2 + i * 2 by ring, ← List.drop_drop, List.drop_left' hpair]
      have hrest := ih (Nat.lt_of_succ_lt_succ hi)
      rw [halfAt, Nat.zero_add] at hrest
      rw [← halfBytes, hdrop, hrest]
      rfl

/-- The batch loops decode a tensor element by element. -/
theorem decodeBatch_halfBytes (decode : UInt16 → F32) (hs : List UInt16) :
    decodeBatch decode (halfBytes hs) 0 (List.replicate hs.length 0) hs.length =
      .ok (hs.map decode) := by
  have hin : 0 + hs.length * 2 ≤ (halfBytes hs).length := by
    rw [Nat.zero_add, halfBytes_length]
  have hfill := fills_decodeBatch decode hin
  rw [hfill.run (by simp), map_eq_map_range hs 0]
  refine congrArg Except.ok (List.map_congr_left fun i hi => ?_)
  rw [halfAt_halfBytes hs (List.mem_range.1 hi)]

/-- A decoder returns a tensor of the values of the elements. -/
def DecodesExactly (fmt : FloatFormat)
    (decode : Bytes → Nat → List F32 → Nat → Exec (List F32)) (hs : List UInt16) : Prop :=
  ∃ out, decode (halfBytes hs) 0 (List.replicate hs.length 0) hs.length = .ok out ∧
    out.map (fun w => binary32.value w.toNat) = hs.map fun h => fmt.value h.toNat

theorem decodesExactly_iff {fmt : FloatFormat} {decode : UInt16 → F32} {hs : List UInt16} :
    DecodesExactly fmt (decodeBatch decode) hs ↔
      ∀ h ∈ hs, binary32.value (decode h).toNat = fmt.value h.toNat := by
  rw [DecodesExactly, decodeBatch_halfBytes]
  constructor
  · rintro ⟨out, hout, hval⟩
    cases hout
    rw [List.map_map] at hval
    exact List.map_inj_left.1 hval
  · intro h
    refine ⟨_, rfl, ?_⟩
    rw [List.map_map]
    exact List.map_congr_left h

/-- A tensor is decoded exactly where it has no subnormal element that its decoder moves wrongly. -/
theorem decodesExactly_half_iff (hs : List UInt16) :
    (DecodesExactly binary16 f16sToF32 hs ↔ ∀ h ∈ hs, ¬ binary16.IsSubnormal h.toNat) ∧
    (DecodesExactly bfloat16 bf16sToF32 hs ↔ ∀ h ∈ hs, ¬ bfloat16.IsSubnormal h.toNat) ∧
    (DecodesExactly binary16 decodeF16Batch hs ↔
      ∀ h ∈ hs, binary16.IsSubnormal h.toNat →
        32 ≤ binary16.fraction h.toNat ∧ binary16.fraction h.toNat < 64) := by
  refine ⟨?_, ?_, ?_⟩
  · rw [f16sToF32, decodesExactly_iff]
    exact forall₂_congr fun h _ => f16ToF32_value_iff h
  · rw [bf16sToF32, decodesExactly_iff]
    exact forall₂_congr fun h _ => bf16ToF32_value_iff h
  · rw [decodeF16Batch, decodesExactly_iff]
    exact forall₂_congr fun h _ => fp16ToFp32_value_iff h

/-- The smallest positive numbers. -/
theorem smallest_subnormal_not_exact :
    f16sToF32 (halfBytes [1]) 0 [0] 1 = .ok [0x33000000] ∧
    decodeF16Batch (halfBytes [1]) 0 [0] 1 = .ok [0x38800000] ∧
    bf16sToF32 (halfBytes [1]) 0 [0] 1 = .ok [0xFD000000] ∧
    binary16.value 1 = .real (1 / 2 ^ 24) ∧ bfloat16.value 1 = .real (1 / 2 ^ 133) ∧
    ¬ DecodesExactly binary16 f16sToF32 [1] ∧ ¬ DecodesExactly binary16 decodeF16Batch [1] ∧
    ¬ DecodesExactly bfloat16 bf16sToF32 [1] := by
  refine ⟨by decide +kernel, by decide +kernel, by decide +kernel, by decide +kernel,
    by decide +kernel, ?_, ?_, ?_⟩
  · rw [f16sToF32, decodesExactly_iff]
    decide +kernel
  · rw [decodeF16Batch, decodesExactly_iff]
    decide +kernel
  · rw [bf16sToF32, decodesExactly_iff]
    decide +kernel

end Terllama
