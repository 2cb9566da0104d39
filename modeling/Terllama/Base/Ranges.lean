import Mathlib.Tactic

/-!
# Consecutive half-open ranges

A list of ranges `[a₀, a₁), [a₁, a₂), …` that run from `lo` to `hi` without a gap (`Consecutive`).
Such a list holds every point of `[lo, hi)` exactly once and no other point
(`Consecutive.countP_eq`), and of non-empty ranges only the first one starts at `lo` and only the
last one ends at `hi`.
-/

namespace Terllama

section
variable {α : Type _} [LinearOrder α]

/-- The ranges run from `lo` to `hi`, each from where the one before it ends. -/
def Consecutive (lo hi : α) : List (α × α) → Prop
  | [] => lo = hi
  | r :: rs => r.1 = lo ∧ r.1 ≤ r.2 ∧ Consecutive r.2 hi rs

/-- A point lies in a half-open range. -/
def InRange (k : α) (r : α × α) : Prop := r.1 ≤ k ∧ k < r.2

instance (k : α) (r : α × α) : Decidable (InRange k r) :=
  inferInstanceAs (Decidable (_ ∧ _))

variable {lo hi : α} {rs : List (α × α)}

theorem Consecutive.le (h : Consecutive lo hi rs) : lo ≤ hi := by
  induction rs generalizing lo with
  | nil => exact le_of_eq h
  | cons r rs ih =>
    obtain ⟨rfl, hle, h⟩ := h
    exact hle.trans (ih h)

/-- A range may be added at the end. -/
theorem Consecutive.concat (h : Consecutive lo hi rs) {stop : α} (hle : hi ≤ stop) :
    Consecutive lo stop (rs ++ [(hi, stop)]) := by
  induction rs generalizing lo with
  | nil =>
    cases h
    exact ⟨rfl, hle, rfl⟩
  | cons r rs ih =>
    obtain ⟨hlo, hr, h⟩ := h
    exact ⟨hlo, hr, ih h⟩

/-- Every point between the ends lies in exactly one of the ranges, and no other point in any. -/
theorem Consecutive.countP_eq (h : Consecutive lo hi rs) (k : α) :
    rs.countP (fun r => InRange k r) = if lo ≤ k ∧ k < hi then 1 else 0 := by
  induction rs generalizing lo with
  | nil =>
    cases h
    rw [if_neg (fun hk => absurd hk.2 (not_lt.2 hk.1))]
    rfl
  | cons r rs ih =>
    obtain ⟨rfl, hr, h⟩ := h
    have hhi := h.le
    rw [List.countP_cons, ih h]
    by_cases hk : InRange k r
    · rw [if_neg (fun hk' => absurd hk.2 (not_lt.2 hk'.1)), if_pos (decide_eq_true hk),
        if_pos ⟨hk.1, hk.2.trans_le hhi⟩]
    · rw [if_neg (fun hk' => hk (of_decide_eq_true hk')), Nat.add_zero]
      refine if_congr ⟨fun hk' => ⟨hr.trans hk'.1, hk'.2⟩, fun hk' => ⟨?_, hk'.2⟩⟩ rfl rfl
      exact not_lt.1 fun hlt => hk ⟨hk'.1, hlt⟩

/-- No range starts before the lower end. -/
theorem Consecutive.le_fst (h : Consecutive lo hi rs) {r : α × α} (hr : r ∈ rs) : lo ≤ r.1 := by
  induction rs generalizing lo with
  | nil => cases hr
  | cons r₀ rs ih =>
    obtain ⟨rfl, hle, h⟩ := h
    rcases List.mem_cons.1 hr with rfl | hr
    · exact le_rfl
    · exact hle.trans (ih h hr)

theorem Consecutive.le_of_mem (h : Consecutive lo hi rs) {r : α × α} (hr : r ∈ rs) :
    r.1 ≤ r.2 := by
  induction rs generalizing lo with
  | nil => cases hr
  | cons r₀ rs ih =>
    obtain ⟨rfl, hle, h⟩ := h
    rcases List.mem_cons.1 hr with rfl | hr
    · exact hle
    · exact ih h hr

/-- No range ends after the upper end. -/
theorem Consecutive.snd_le (h : Consecutive lo hi rs) {r : α × α} (hr : r ∈ rs) : r.2 ≤ hi := by
  induction rs generalizing lo with
  | nil => cases hr
  | cons r₀ rs ih =>
    obtain ⟨rfl, -, h⟩ := h
    rcases List.mem_cons.1 hr with rfl | hr
    · exact h.le
    · exact ih h hr

/-- Of non-empty ranges only the first one starts at the lower end. -/
theorem Consecutive.fst_eq_iff (h : Consecutive lo hi rs) (hne : ∀ r ∈ rs, r.1 < r.2) {i : Nat}
    {r : α × α} (hr : rs[i]? = some r) : r.1 = lo ↔ i = 0 := by
  cases rs with
  | nil => cases hr
  | cons r₀ rs =>
    obtain ⟨rfl, -, h⟩ := h
    cases i with
    | zero =>
      cases hr
      exact iff_of_true rfl rfl
    | succ i =>
      refine iff_of_false (ne_of_gt ?_) (Nat.succ_ne_zero i)
      exact lt_of_lt_of_le (hne r₀ (by simp)) (h.le_fst (List.mem_of_getElem? hr))

/-- Of non-empty ranges only the last one ends at the upper end. -/
theorem Consecutive.snd_eq_iff (h : Consecutive lo hi rs) (hne : ∀ r ∈ rs, r.1 < r.2) {i : Nat}
    {r : α × α} (hr : rs[i]? = some r) : r.2 = hi ↔ i + 1 = rs.length := by
  induction rs generalizing lo i with
  | nil => cases hr
  | cons r₀ rs ih =>
    obtain ⟨rfl, -, h⟩ := h
    cases i with
    | zero =>
      cases hr
      cases rs with
      | nil => exact iff_of_true h rfl
      | cons r₁ rs =>
        have hlt := hne _ (List.mem_cons_of_mem r (List.mem_cons_self (a := r₁)))
        obtain ⟨heq, -, h'⟩ := h
        exact iff_of_false (heq ▸ hlt.trans_le h'.le).ne (by simp)
    | succ i =>
      rw [List.length_cons, Nat.succ_inj]
      exact ih h (fun r hr => hne r (List.mem_cons_of_mem _ hr)) hr

end

end Terllama
