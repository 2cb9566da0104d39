import Mathlib.Algebra.Order.Floor.Ring
import Mathlib.Algebra.Order.Field.Basic
import Mathlib.Tactic

/-!
# The nearest ternary multiple

Rounding to the nearest of `-1`, `0` and `1`, the middle towards `0`, and what is left of a number
after the nearest ternary multiple of a scale is taken off it (`shrink`): no ternary multiple of that
scale leaves less (`abs_shrink_le_abs_sub`), and less is left wherever the number is larger than half
of the scale (`abs_shrink_lt`).
-/

namespace Terllama

section
variable {K : Type} [Field K] [LinearOrder K]

/-- The nearest of `-1`, `0` and `1`. -/
def nearestTernary (x : K) : Int := if |x| + |x| ≤ 1 then 0 else if 0 < x then 1 else -1

/-- What the nearest ternary multiple of `a` leaves of `r`. -/
def shrink (a r : K) : K := r - a * nearestTernary (r / a)

variable [IsStrictOrderedRing K] {a r x : K}

theorem nearestTernary_mem (x : K) :
    nearestTernary x = -1 ∨ nearestTernary x = 0 ∨ nearestTernary x = 1 := by
  unfold nearestTernary
  split
  · exact .inr (.inl rfl)
  · split
    · exact .inr (.inr rfl)
    · exact .inl rfl

theorem nearestTernary_of_le (h : |x| ≤ 1 / 2) : nearestTernary x = 0 :=
  if_pos (by linarith)

theorem nearestTernary_of_pos (h : 1 / 2 < x) : nearestTernary x = 1 := by
  have hpos : 0 < x := by linarith
  rw [nearestTernary, if_neg (by rw [abs_of_pos hpos]; linarith), if_pos hpos]

theorem nearestTernary_of_neg (h : x < -(1 / 2)) : nearestTernary x = -1 := by
  have hneg : x < 0 := by linarith
  rw [nearestTernary, if_neg (by rw [abs_of_neg hneg]; linarith), if_neg hneg.not_gt]

/-- The three ranges of a number. -/
theorem half_cases (x : K) : |x| ≤ 1 / 2 ∨ 1 / 2 < x ∨ x < -(1 / 2) := by
  rcases le_or_gt |x| (1 / 2) with h | h
  · exact .inl h
  · exact .inr ((lt_abs.1 h).imp_right lt_neg.1)

/-- No other ternary value is nearer. -/
theorem abs_sub_nearestTernary_le (x : K) {t : Int} (ht : t = -1 ∨ t = 0 ∨ t = 1) :
    |x - nearestTernary x| ≤ |x - t| := by
  rcases half_cases x with h | h | h
  · rw [nearestTernary_of_le h, Int.cast_zero, sub_zero]
    obtain ⟨hlo, hhi⟩ := abs_le.1 h
    rcases ht with rfl | rfl | rfl
    · refine h.trans (le_abs.2 (.inl ?_))
      push_cast
      linarith
    · rw [Int.cast_zero, sub_zero]
    · refine h.trans (le_abs.2 (.inr ?_))
      push_cast
      linarith
  · rw [nearestTernary_of_pos h, Int.cast_one]
    rcases ht with rfl | rfl | rfl
    · refine abs_le.2 ⟨?_, ?_⟩ <;> rw [abs_of_pos (by push_cast; linarith)] <;> push_cast <;> linarith
    · rw [Int.cast_zero, sub_zero, abs_of_pos (show 0 < x by linarith)]
      exact abs_le.2 ⟨by linarith, by linarith⟩
    · rw [Int.cast_one]
  · rw [nearestTernary_of_neg h]
    rcases ht with rfl | rfl | rfl
    · rfl
    · rw [Int.cast_zero, sub_zero, abs_of_neg (show x < 0 by linarith)]
      push_cast
      exact abs_le.2 ⟨by linarith, by linarith⟩
    · refine abs_le.2 ⟨?_, ?_⟩ <;> rw [abs_of_neg (by push_cast; linarith)] <;> push_cast <;> linarith

/-- Above one half, something is taken off. -/
theorem abs_sub_nearestTernary_lt (h : 1 / 2 < |x|) : |x - nearestTernary x| < |x| := by
  rcases half_cases x with hx | hx | hx
  · exact absurd h (not_lt.2 hx)
  · rw [nearestTernary_of_pos hx, Int.cast_one, abs_of_pos (show 0 < x by linarith)]
    exact abs_lt.2 ⟨by linarith, by linarith⟩
  · rw [nearestTernary_of_neg hx, abs_of_neg (show x < 0 by linarith)]
    push_cast
    exact abs_lt.2 ⟨by linarith, by linarith⟩

/-- A difference to a multiple of a scale, in units of the scale. -/
theorem abs_sub_mul (ha : 0 < a) (r y : K) : |r - a * y| = a * |r / a - y| := by
  have hmul : a * (r / a - y) = r - a * y := by rw [mul_sub, mul_div_cancel₀ _ ha.ne']
  rw [← hmul, abs_mul, abs_of_pos ha]

/-- No ternary multiple of the scale leaves less. -/
theorem abs_shrink_le_abs_sub (ha : 0 < a) (r : K) {t : Int} (ht : t = -1 ∨ t = 0 ∨ t = 1) :
    |shrink a r| ≤ |r - a * t| := by
  rw [shrink, abs_sub_mul ha, abs_sub_mul ha]
  exact mul_le_mul_of_nonneg_left (abs_sub_nearestTernary_le _ ht) ha.le

theorem abs_shrink_le (ha : 0 < a) (r : K) : |shrink a r| ≤ |r| := by
  have h := abs_shrink_le_abs_sub ha r (t := 0) (.inr (.inl rfl))
  rwa [Int.cast_zero, mul_zero, sub_zero] at h

/-- Less is left of a number above half of the scale. -/
theorem abs_shrink_lt (ha : 0 < a) (h : a < 2 * |r|) : |shrink a r| < |r| := by
  have hhalf : 1 / 2 < |r / a| := by
    rw [abs_div, abs_of_pos ha, lt_div_iff₀ ha]
    linarith
  have hr : |r| = a * |r / a| := by
    have h := abs_sub_mul ha r 0
    rwa [mul_zero, sub_zero, sub_zero] at h
  rw [shrink, abs_sub_mul ha, hr]
  exact mul_lt_mul_of_pos_left (abs_sub_nearestTernary_lt hhalf) ha

/-- Nothing is taken off a number up to half of the scale. -/
theorem shrink_of_le (ha : 0 < a) (h : 2 * |r| ≤ a) : shrink a r = r := by
  have hhalf : |r / a| ≤ 1 / 2 := by
    rw [abs_div, abs_of_pos ha, div_le_iff₀ ha]
    linarith
  rw [shrink, nearestTernary_of_le hhalf, Int.cast_zero, mul_zero, sub_zero]

/-! ## Lists of numbers -/

/-- The square of the Frobenius norm. -/
def normSq (R : List K) : K := (R.map (· ^ 2)).sum

theorem normSq_nonneg (R : List K) : 0 ≤ normSq R :=
  List.sum_nonneg fun x hx => by
    obtain ⟨r, -, rfl⟩ := List.mem_map.1 hx
    exact sq_nonneg r

omit [LinearOrder K] [IsStrictOrderedRing K] in
@[simp] theorem normSq_cons (r : K) (R : List K) : normSq (r :: R) = r ^ 2 + normSq R := by
  simp [normSq]

omit [LinearOrder K] [IsStrictOrderedRing K] in
@[simp] theorem normSq_nil : normSq ([] : List K) = 0 := rfl

/-- Element by element smaller lists have the smaller norm. -/
theorem normSq_le {R R' : List K} (h : List.Forall₂ (fun r r' => |r| ≤ |r'|) R R') :
    normSq R ≤ normSq R' := by
  induction h with
  | nil => exact le_rfl
  | cons hr _ ih =>
    rw [normSq_cons, normSq_cons]
    exact add_le_add (sq_le_sq.2 hr) ih

/-- One strictly smaller element makes the norm strictly smaller. -/
theorem normSq_map_lt {f : K → K} {R : List K} (hle : ∀ r ∈ R, |f r| ≤ |r|)
    (hlt : ∃ r ∈ R, |f r| < |r|) : normSq (R.map f) < normSq R := by
  induction R with
  | nil =>
    obtain ⟨r, hr, -⟩ := hlt
    cases hr
  | cons r R ih =>
    rw [List.forall_mem_cons] at hle
    rw [List.map_cons, normSq_cons, normSq_cons]
    have hrest : normSq (R.map f) ≤ normSq R := by
      refine normSq_le (List.forall₂_map_left_iff.2 ?_)
      exact List.forall₂_same.2 hle.2
    obtain ⟨s, hs, hlt⟩ := hlt
    rcases List.mem_cons.1 hs with rfl | hs
    · exact add_lt_add_of_lt_of_le (sq_lt_sq.2 hlt) hrest
    · exact add_lt_add_of_le_of_lt (sq_le_sq.2 hle.1) (ih hle.2 ⟨s, hs, hlt⟩)

end

end Terllama
