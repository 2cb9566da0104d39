import Mathlib.Tactic.Common
import Mathlib.Tactic.Ring

/-!
# Byte strings

Files, names and packed payloads are lists of bytes. A machine word is stored with its low byte
first (`leBytes`, read back by `leNat`), and a `float` in memory is the word of its four bytes
(`F32`): loading and storing moves these words and never computes with them.
-/

namespace Terllama

/-- A string of bytes: a file, a `std::string`, or the contents of a byte buffer. -/
abbrev Bytes := List UInt8

/-- A binary32 number, as the word its four bytes make. -/
abbrev F32 := UInt32

/-- The bytes of an ASCII literal. -/
def str (s : String) : Bytes := s.toList.map fun c => UInt8.ofNat c.toNat

/-! ## Searching -/

/-- `std::string::find`: the position of the first occurrence of `pat`. -/
def findSub (pat : Bytes) : Bytes → Option Nat
  | [] => if pat.isEmpty then some 0 else none
  | c :: s => if pat.isPrefixOf (c :: s) then some 0 else (findSub pat s).map (1 + ·)

/-- No occurrence starts in a piece without the first byte of the pattern. -/
theorem findSub_append {c : UInt8} {pre : Bytes} (h : c ∉ pre) (pat s : Bytes) :
    findSub (c :: pat) (pre ++ s) = (findSub (c :: pat) s).map (pre.length + ·) := by
  induction pre with
  | nil => simp
  | cons d pre ih =>
    rw [List.mem_cons, not_or] at h
    have hne : (c :: pat).isPrefixOf (d :: (pre ++ s)) = false := by
      simp [List.isPrefixOf, h.1]
    rw [List.cons_append, findSub, hne, if_neg (by decide), ih h.2, Option.map_map]
    refine congrArg (Option.map · _) (funext fun n => ?_)
    rw [Function.comp_apply, List.length_cons]
    omega

/-- What contains the end of a string contains the string. -/
theorem isSome_findSub_append {pat s : Bytes} (h : (findSub pat s).isSome) (pre : Bytes) :
    (findSub pat (pre ++ s)).isSome := by
  induction pre with
  | nil => exact h
  | cons c pre ih =>
    rw [List.cons_append, findSub]
    split
    · rfl
    · rw [Option.isSome_map]
      exact ih

/-! ## Little-endian words -/

/-- The `k` low bytes of `n`, the lowest first. -/
def leBytes : Nat → Nat → Bytes
  | 0, _ => []
  | k + 1, n => UInt8.ofNat n :: leBytes k (n / 256)

/-- The number whose bytes, the lowest first, are given. -/
def leNat : Bytes → Nat
  | [] => 0
  | b :: bs => b.toNat + 256 * leNat bs

@[simp] theorem leBytes_length (k n : Nat) : (leBytes k n).length = k := by
  induction k generalizing n with
  | zero => rfl
  | succ k ih => simp [leBytes, ih]

theorem leNat_leBytes (k n : Nat) : leNat (leBytes k n) = n % 256 ^ k := by
  induction k generalizing n with
  | zero => simp [leBytes, leNat, Nat.mod_one]
  | succ k ih =>
    rw [leBytes, leNat, ih, Nat.pow_succ', Nat.mod_mul]
    simp

/-- A word that fits its bytes is read back. -/
theorem leNat_leBytes_of_lt {k n : Nat} (h : n < 256 ^ k) : leNat (leBytes k n) = n := by
  rw [leNat_leBytes, Nat.mod_eq_of_lt h]

theorem leNat_lt (bs : Bytes) : leNat bs < 256 ^ bs.length := by
  induction bs with
  | nil => simp [leNat]
  | cons b bs ih =>
    have hb := b.toNat_lt
    rw [leNat, List.length_cons, Nat.pow_succ]
    omega

theorem leBytes_leNat (bs : Bytes) : leBytes bs.length (leNat bs) = bs := by
  induction bs with
  | nil => rfl
  | cons b bs ih =>
    have hb := b.toNat_lt
    have hdiv : (b.toNat + 256 * leNat bs) / 256 = leNat bs := by omega
    rw [List.length_cons, leBytes, leNat, hdiv, ih]
    congr 1
    apply UInt8.toNat_inj.1
    simp

/-- The bytes from one on are the high part of a word. -/
theorem leNat_drop (bs : Bytes) (k : Nat) : leNat (bs.drop k) = leNat bs / 256 ^ k := by
  induction k generalizing bs with
  | zero => rw [List.drop_zero, Nat.pow_zero, Nat.div_one]
  | succ k ih =>
    cases bs with
    | nil => rw [List.drop_nil, leNat, Nat.zero_div]
    | cons b bs =>
      have hb : (b.toNat + 256 * leNat bs) / 256 = leNat bs := by
        have := b.toNat_lt
        omega
      rw [List.drop_succ_cons, ih, leNat, Nat.pow_succ', ← Nat.div_div_eq_div_mul, hb]

/-- The first bytes are the low part of a word. -/
theorem leNat_take (bs : Bytes) (k : Nat) : leNat (bs.take k) = leNat bs % 256 ^ k := by
  induction k generalizing bs with
  | zero => rw [List.take_zero, Nat.pow_zero, Nat.mod_one, leNat]
  | succ k ih =>
    cases bs with
    | nil => rw [List.take_nil, leNat, Nat.zero_mod]
    | cons b bs =>
      have hb : (b.toNat + 256 * leNat bs) / 256 = leNat bs := by
        have := b.toNat_lt
        omega
      have hb' : (b.toNat + 256 * leNat bs) % 256 = b.toNat := by
        have := b.toNat_lt
        omega
      rw [List.take_succ_cons, leNat, ih, leNat, Nat.pow_succ', Nat.mod_mul, hb, hb']

/-- The four bytes of a `uint32_t`. -/
abbrev u32Bytes (n : Nat) : Bytes := leBytes 4 n

/-- An `int32_t` in memory. -/
def i32Bytes (n : Int) : Bytes := u32Bytes (n % 4294967296).toNat

/-! ## Floats in memory -/

/-- The `float` at four bytes. -/
def F32.ofBytes (bs : Bytes) : F32 := UInt32.ofNat (leNat bs)

/-- The four bytes of a `float`. -/
def F32.toBytes (w : F32) : Bytes := leBytes 4 w.toNat

@[simp] theorem F32.toBytes_length (w : F32) : w.toBytes.length = 4 := leBytes_length _ _

@[simp] theorem F32.ofBytes_toBytes (w : F32) : F32.ofBytes w.toBytes = w := by
  have h : leNat w.toBytes = w.toNat := leNat_leBytes_of_lt w.toNat_lt
  rw [F32.ofBytes, h]
  exact UInt32.ofNat_toNat

/-- The bytes of a buffer of `float`s. -/
def floatBytes (ws : List F32) : Bytes := ws.flatMap F32.toBytes

/-- The `float`s a buffer of whole words holds. -/
def floatsOf : Bytes → List F32
  | b₀ :: b₁ :: b₂ :: b₃ :: rest => F32.ofBytes [b₀, b₁, b₂, b₃] :: floatsOf rest
  | _ => []

@[simp] theorem floatBytes_nil : floatBytes [] = [] := rfl

@[simp] theorem floatBytes_cons (w : F32) (ws : List F32) :
    floatBytes (w :: ws) = w.toBytes ++ floatBytes ws := rfl

@[simp] theorem floatBytes_length (ws : List F32) : (floatBytes ws).length = 4 * ws.length := by
  induction ws with
  | nil => rfl
  | cons w ws ih => simp [ih]; omega

theorem floatsOf_append {a : Bytes} (ha : a.length = 4) (rest : Bytes) :
    floatsOf (a ++ rest) = F32.ofBytes a :: floatsOf rest := by
  match a, ha with
  | [_, _, _, _], _ => rfl

/-- A buffer of `float`s is read back from its bytes. -/
@[simp] theorem floatsOf_floatBytes (ws : List F32) : floatsOf (floatBytes ws) = ws := by
  induction ws with
  | nil => rfl
  | cons w ws ih => rw [floatBytes_cons, floatsOf_append w.toBytes_length, F32.ofBytes_toBytes, ih]

theorem floatsOf_length (bs : Bytes) : (floatsOf bs).length = bs.length / 4 := by
  fun_induction floatsOf bs with
  | case1 b₀ b₁ b₂ b₃ rest ih => simp [ih]; omega
  | case2 bs h =>
    match bs, h with
    | [], _ | [_], _ | [_, _], _ | [_, _, _], _ => simp
    | _ :: _ :: _ :: _ :: _, h => exact absurd rfl (h _ _ _ _ _)

end Terllama
