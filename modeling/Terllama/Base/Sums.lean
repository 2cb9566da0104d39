import Mathlib.Algebra.BigOperators.Group.Finset.Basic
import Mathlib.Algebra.BigOperators.Intervals
import Mathlib.Algebra.BigOperators.Fin
import Mathlib.Tactic
import Terllama.Base.Exec

/-!
# Accumulating loops

A loop that adds one number in each pass returns a sum (`foldlM_range_add`), and a sum that is cut
into blocks of `q` elements with a short last block is the whole sum (`sum_blocks`). The kernels
differ in how they cut and nest these loops; these two rules bring each of them to one sum over the
columns of a row.
-/

namespace Terllama

section
variable {M : Type _} [AddCommMonoid M]

/-- A loop whose `i`-th pass adds `f i` to its accumulator adds the sum of the `f i`. -/
theorem foldlM_range_add {step : M → Nat → Exec M} {f : Nat → M} {n : Nat}
    (h : ∀ acc, ∀ i < n, step acc i = .ok (acc + f i)) (acc : M) :
    (List.range n).foldlM step acc = .ok (acc + ∑ i ∈ Finset.range n, f i) := by
  induction n generalizing acc with
  | zero => simp
  | succ n ih =>
    have ih := ih (fun acc i hi => h acc i (by omega)) acc
    rw [List.range_succ, List.foldlM_append, ih, ok_bind, List.foldlM_cons, h _ n (by omega),
      ok_bind, List.foldlM_nil, Finset.sum_range_succ, add_assoc]
    rfl

theorem foldl_range_add {step : M → Nat → M} {f : Nat → M} {n : Nat}
    (h : ∀ acc, ∀ i < n, step acc i = acc + f i) (acc : M) :
    (List.range n).foldl step acc = acc + ∑ i ∈ Finset.range n, f i := by
  induction n generalizing acc with
  | zero => simp
  | succ n ih =>
    rw [List.range_succ, List.foldl_append, ih (fun acc i hi => h acc i (by omega)),
      List.foldl_cons, List.foldl_nil, h _ n (by omega), Finset.sum_range_succ, add_assoc]

/-- A sum over the positions of a list. -/
theorem sum_range_getD {α : Type _} (l : List α) (d : α) (f : α → M) :
    ∑ i ∈ Finset.range l.length, f (l.getD i d) = (l.map f).sum := by
  induction l with
  | nil => rfl
  | cons a l ih =>
    rw [List.length_cons, Finset.sum_range_succ', List.map_cons, List.sum_cons, ← ih, add_comm]
    rfl

/-- The first `m` blocks of `q` elements of a range of `n`. -/
theorem sum_blocks_min (f : Nat → M) (q n m : Nat) :
    ∑ b ∈ Finset.range m, ∑ i ∈ Finset.range (min q (n - b * q)), f (b * q + i) =
      ∑ j ∈ Finset.range (min (m * q) n), f j := by
  induction m with
  | zero => simp
  | succ m ih =>
    rw [Finset.sum_range_succ, ih]
    rcases Nat.le_total (m * q) n with hle | hle
    · have hsize : min ((m + 1) * q) n = m * q + min q (n - m * q) := by
        rw [Nat.succ_mul]; omega
      rw [hsize, Finset.sum_range_add, Nat.min_eq_left hle]
    · have hsize : min ((m + 1) * q) n = n := by
        rw [Nat.succ_mul]; omega
      rw [hsize, Nat.min_eq_right hle, Nat.sub_eq_zero_of_le hle]
      simp

/-- A sum cut into blocks that cover the range. -/
theorem sum_blocks (f : Nat → M) {q n m : Nat} (h : n ≤ m * q) :
    ∑ b ∈ Finset.range m, ∑ i ∈ Finset.range (min q (n - b * q)), f (b * q + i) =
      ∑ j ∈ Finset.range n, f j := by
  rw [sum_blocks_min, Nat.min_eq_right h]

/-- A chunk of `l` lanes of which the first `n` elements of the whole count. -/
theorem sum_lanes (f : Nat → M) (l n q : Nat) :
    (∑ i : Fin l, if q * l + i < n then f (q * l + i) else 0) =
      ∑ i ∈ Finset.range (min l (n - q * l)), f (q * l + i) := by
  rw [Fin.sum_univ_eq_sum_range (fun i => if q * l + i < n then f (q * l + i) else 0),
    ← Finset.sum_filter]
  refine Finset.sum_congr ?_ fun i _ => rfl
  ext i
  simp only [Finset.mem_range, Finset.mem_filter]
  omega

/-- A sum kept lane by lane over chunks that cover the range. -/
theorem sum_lane_chunks (f : Nat → M) {l n m : Nat} (h : n ≤ m * l) :
    (∑ i : Fin l, ∑ q ∈ Finset.range m, if q * l + i < n then f (q * l + i) else 0) =
      ∑ j ∈ Finset.range n, f j := by
  rw [Finset.sum_comm]
  simp only [sum_lanes]
  exact sum_blocks f h

/-- A loop that adds to one entry of a table in each pass. -/
theorem foldlM_update_add {step : (Nat → M) → Nat → Exec (Nat → M)} {d : Nat → M} {n : Nat}
    (h : ∀ acc, ∀ t < n, step acc t = .ok (Function.update acc t (acc t + d t))) (acc : Nat → M) :
    (List.range n).foldlM step acc = .ok (acc + fun t => if t < n then d t else 0) := by
  have hstep : ∀ acc, ∀ t < n, step acc t = .ok (acc + Pi.single t (d t)) := by
    intro acc t ht
    rw [h acc t ht]
    refine congrArg Except.ok (funext fun s => ?_)
    rcases eq_or_ne s t with rfl | hne
    · rw [Function.update_self, Pi.add_apply, Pi.single_eq_same]
    · rw [Function.update_of_ne hne, Pi.add_apply, Pi.single_eq_of_ne hne, add_zero]
  rw [foldlM_range_add hstep]
  refine congrArg Except.ok (congrArg (acc + ·) (funext fun t => ?_))
  rw [Finset.sum_apply, Finset.sum_pi_single]
  exact if_congr Finset.mem_range rfl rfl

end

end Terllama
