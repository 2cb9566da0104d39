import Mathlib.Data.Int.Basic
import Mathlib.Algebra.BigOperators.Fin
import Mathlib.Algebra.Order.BigOperators.Group.Finset
import Mathlib.Tactic
import Terllama.Base.Buffer

/-!
# Vector registers

A register of `n` lanes is a function on `Fin n`. Integer lanes are numbers in the signed range of
their width, and the operations that can leave it wrap (`add`) or saturate (`maddubs`, `packs`).
The lemmas say when they do neither.
-/

namespace Terllama

/-- An unaligned load of `n` consecutive elements. -/
def loadu {α : Type} (n : Nat) (buf : List α) (off : Nat) (d : α) : Exec (Fin n → α) :=
  if off + n ≤ buf.length then .ok fun i => buf.getD (off + i) d
  else undefined "read outside the buffer"

theorem loadu_ok {α : Type} {n off : Nat} {buf : List α} (h : off + n ≤ buf.length) (d : α) :
    loadu n buf off d = .ok fun i => buf.getD (off + i) d := by
  simp [loadu, h]

/-- Wrapping to a signed 32-bit lane. -/
def wrap32 (n : Int) : Int := n.bmod 4294967296

/-- Saturating to a signed 16-bit lane. -/
def sat16 (n : Int) : Int := max (-32768) (min 32767 n)

/-- Saturating to a signed 8-bit lane. -/
def sat8 (n : Int) : Int := max (-128) (min 127 n)

/-- `_mm256_add_epi8`. -/
def addEpi8 (a b : Fin 32 → Int) (i : Fin 32) : Int := (a i + b i).bmod 256

/-- `_mm256_add_epi32` and `_mm_add_epi32`. -/
def addEpi32 {n : Nat} (a b : Fin n → Int) (i : Fin n) : Int := wrap32 (a i + b i)

/-- `_mm256_maddubs_epi16`: the first operand is read as unsigned bytes. -/
def maddubsEpi16 (a b : Fin 32 → Int) (i : Fin 16) : Int :=
  sat16 (a ⟨2 * i, by omega⟩ % 256 * b ⟨2 * i, by omega⟩ +
    a ⟨2 * i + 1, by omega⟩ % 256 * b ⟨2 * i + 1, by omega⟩)

/-- `_mm256_madd_epi16`. -/
def maddEpi16 (a b : Fin 16 → Int) (i : Fin 8) : Int :=
  wrap32 (a ⟨2 * i, by omega⟩ * b ⟨2 * i, by omega⟩ +
    a ⟨2 * i + 1, by omega⟩ * b ⟨2 * i + 1, by omega⟩)

/-- `_mm_shuffle_epi32` and `_mm_shuffle_ps` on one register: lane `i` takes lane `sel i`. -/
def shuffle {α : Type} (v : Fin 4 → α) (sel : Fin 4 → Fin 4) (i : Fin 4) : α := v (sel i)

/-- The low half of a register of eight lanes. -/
def lowHalf {α : Type} (v : Fin 8 → α) (i : Fin 4) : α := v ⟨i, by omega⟩

/-- The high half of a register of eight lanes. -/
def highHalf {α : Type} (v : Fin 8 → α) (i : Fin 4) : α := v ⟨4 + i, by omega⟩

theorem wrap32_eq {n : Int} (h : |n| < 2147483648) : wrap32 n = n := by
  have h := abs_lt.1 h
  exact Int.bmod_eq_of_le (by omega) (by omega)

theorem sat16_eq {n : Int} (h : |n| ≤ 32767) : sat16 n = n := by
  have h := abs_le.1 h
  unfold sat16
  omega

/-- A sum of few small lanes does not wrap. -/
theorem addEpi32_eq {n : Nat} {a b : Fin n → Int} (h : ∀ i, |a i + b i| < 2147483648) :
    addEpi32 a b = a + b := by
  funext i
  exact wrap32_eq (h i)

end Terllama
