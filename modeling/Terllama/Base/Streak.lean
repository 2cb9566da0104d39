import Mathlib.Algebra.Order.Ring.Canonical
import Mathlib.Algebra.Ring.Parity
import Mathlib.Data.List.DropRight
import Mathlib.Data.List.Induction
import Mathlib.Data.List.Infix

/-!
# Streaks

The streak of a value is how often in a row it stands at the end of a list. A memory of the last
request that a repeat clears (`forgetRepeat`) holds a value exactly in the odd places of a streak
(`foldl_forgetRepeat`): what is asked once more is forgotten, and so what is asked a third time is
taken for new.
-/

namespace Terllama

section
variable {α : Type} [DecidableEq α] {a b : α} {l : List α} {n : Nat}

/-- How often in a row the value stands at the end of the list. -/
def streak (a : α) (l : List α) : Nat := (l.rtakeWhile (· = a)).length

@[simp] theorem streak_nil (a : α) : streak a [] = 0 := rfl

@[simp] theorem streak_concat_self (a : α) (l : List α) : streak a (l ++ [a]) = streak a l + 1 := by
  rw [streak, List.rtakeWhile_concat_pos _ _ _ (by simp), List.length_append]
  rfl

theorem streak_concat_of_ne (h : b ≠ a) (l : List α) : streak a (l ++ [b]) = 0 := by
  rw [streak, List.rtakeWhile_concat_neg _ _ _ (by simpa using h)]
  rfl

theorem streak_concat_pos : 0 < streak a (l ++ [b]) ↔ b = a := by
  constructor
  · intro h
    by_contra hne
    rw [streak_concat_of_ne hne] at h
    exact absurd h (lt_irrefl 0)
  · rintro rfl
    rw [streak_concat_self]
    exact Nat.succ_pos _

theorem streak_pos_iff : 0 < streak a l ↔ ∃ front, l = front ++ [a] := by
  constructor
  · intro h
    rcases List.eq_nil_or_concat l with rfl | ⟨front, b, rfl⟩
    · simp at h
    · rw [List.concat_eq_append, streak_concat_pos] at h
      exact ⟨front, by rw [List.concat_eq_append, h]⟩
  · rintro ⟨front, rfl⟩
    exact streak_concat_pos.2 rfl

/-- A list ends in as many copies of a value as its streak has. -/
theorem replicate_streak (a : α) (l : List α) : List.replicate (streak a l) a <:+ l := by
  have hcopies : l.rtakeWhile (· = a) = List.replicate (streak a l) a :=
    List.eq_replicate_of_mem fun x hx => by simpa using List.mem_rtakeWhile_imp hx
  rw [← hcopies]
  exact List.rtakeWhile_suffix _ _

theorem streak_append_replicate (a : α) (l : List α) (n : Nat) :
    streak a (l ++ List.replicate n a) = streak a l + n := by
  induction n with
  | zero => simp
  | succ n ih =>
    rw [List.replicate_succ', ← List.append_assoc, streak_concat_self, ih, Nat.add_assoc]

/-- A streak has grown through every shorter one. -/
theorem exists_of_lt_streak (h : n < streak a l) :
    ∃ before after, l = before ++ a :: after ∧ streak a before = n := by
  induction l using List.reverseRecOn with
  | nil => simp at h
  | append_singleton l b ih =>
    obtain rfl : b = a := streak_concat_pos.1 (Nat.zero_lt_of_lt h)
    rw [streak_concat_self] at h
    rcases (Nat.lt_succ_iff.1 h).lt_or_eq with hlt | rfl
    · obtain ⟨before, after, rfl, hbefore⟩ := ih hlt
      exact ⟨before, after ++ [b], by simp, hbefore⟩
    · exact ⟨l, [], rfl, rfl⟩

/-- A value comes `n + 1` times in a row somewhere in a list exactly where it comes once more behind
a streak of `n`. -/
theorem replicate_infix_iff : List.replicate (n + 1) a <:+: l ↔
    ∃ before after, l = before ++ a :: after ∧ streak a before = n := by
  constructor
  · rintro ⟨front, rest, rfl⟩
    have hlt : n < streak a (front ++ List.replicate (n + 1) a) := by
      rw [streak_append_replicate]
      omega
    obtain ⟨before, after, hsplit, hbefore⟩ := exists_of_lt_streak hlt
    exact ⟨before, after ++ rest, by simp [hsplit], hbefore⟩
  · rintro ⟨before, after, rfl, rfl⟩
    obtain ⟨front, hfront⟩ := replicate_streak a before
    refine ⟨front, after, ?_⟩
    rw [List.replicate_succ', ← List.append_assoc, hfront, List.append_assoc]
    rfl

end

/-! ## A memory that a repeat clears -/

section
variable {α : Type} [DecidableEq α]

/-- What is kept after a request: this, unless it is what was kept. -/
def forgetRepeat (kept asked : Option α) : Option α := if kept = asked then none else asked

theorem forgetRepeat_eq_some {kept asked : Option α} {a : α} :
    forgetRepeat kept asked = some a ↔ asked = some a ∧ kept ≠ some a := by
  unfold forgetRepeat
  split
  · rename_i hsame
    simp only [reduceCtorEq, false_iff, not_and, not_not]
    exact hsame.trans
  · rename_i hne
    refine ⟨fun h => ⟨h, ?_⟩, And.left⟩
    rintro rfl
    exact hne h.symm

theorem forgetRepeat_eq_none {kept : Option α} {a : α} :
    forgetRepeat kept (some a) = none ↔ kept = some a := by
  unfold forgetRepeat
  split <;> simp [*]

/-- A memory that a repeat clears holds a value in the odd places of its streak. -/
theorem foldl_forgetRepeat (asks : List (Option α)) (a : α) :
    asks.foldl forgetRepeat none = some a ↔ Odd (streak (some a) asks) := by
  induction asks using List.reverseRecOn with
  | nil => simp
  | append_singleton asks ask ih =>
    rw [List.foldl_append, List.foldl_cons, List.foldl_nil, forgetRepeat]
    by_cases hask : ask = some a
    · subst hask
      rw [streak_concat_self, Nat.odd_add_one, ← ih]
      split
      · rename_i hkept
        simp [hkept]
      · rename_i hkept
        simp [hkept]
    · rw [streak_concat_of_ne hask]
      split <;> simp [hask]

end

end Terllama
