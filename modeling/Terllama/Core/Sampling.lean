import Mathlib.Algebra.Order.Field.Basic
import Mathlib.Tactic
import Terllama.Base.Buffer

/-!
# Sampling

`sample_argmax` and `sample_multinomial` of `src/core/inference.cpp`, over the numbers of an ordered
field. The elementary functions are those of `Numerics`, and the thread's generator is a state with
a draw (`Rng`): a result that holds for every generator holds for every outcome of the sampler.
-/

namespace Terllama

/-- The elementary functions of the C library. -/
structure Numerics (K : Type) where
  exp : K → K
  sqrt : K → K
  sin : K → K
  cos : K → K
  pow : K → K → K

/-- `g_rng`: a draw is `(double)g_rng() / (double)std::mt19937_64::max()`. -/
structure Rng (R K : Type) where
  draw : R → K × R

section
variable {K R : Type} [Field K] [LinearOrder K]

/-- The scan of `std::max_element` past its first element: the index of the largest one so far. -/
def maxElementFrom (largest : K) (at_ i : Nat) : List K → Nat
  | [] => at_
  | x :: xs =>
    if largest < x then maxElementFrom x i (i + 1) xs else maxElementFrom largest at_ (i + 1) xs

/-- `std::max_element`: the index of the first largest element, `0` of an empty range. -/
def maxElement : List K → Nat
  | [] => 0
  | x :: xs => maxElementFrom x 0 1 xs

/-- `sample_argmax`. -/
def sampleArgmax (logits : List K) (n : Int) : Exec Int := do
  let xs ← ptrRange logits n
  return maxElement xs

/-- The logit of token `i` after the repeat penalty. -/
def penalised (prevTokens : List Int) (repeatPenalty : K) (i : Int) (val : K) : K :=
  if 1 < repeatPenalty ∧ i ∈ prevTokens then
    if val < 0 then val * repeatPenalty else val / repeatPenalty
  else val

/-- The scan of the cumulated weights: the first index whose sum exceeds `r`. -/
def pickFrom (r : K) : K → Nat → List K → Option Nat
  | _, _, [] => none
  | acc, i, p :: ps => if r < acc + p then some i else pickFrom r (acc + p) (i + 1) ps

/-- `sample_multinomial`. -/
def sampleMultinomial (num : Numerics K) (gen : Rng R K) (logits : List K) (n : Int) (temp : K)
    (prevTokens : List Int) (repeatPenalty : K) (rng : R) : Exec (Int × R) := do
  if n < 0 then raise "vector::_M_default_append"
  let xs ← ptrRange logits n
  let maxv ← load xs (maxElement xs)
  let probs := xs.zipIdx.map fun (val, i) =>
    num.exp ((penalised prevTokens repeatPenalty i val - maxv) / temp)
  let sum := probs.foldl (· + ·) 0
  let (u, rng) := gen.draw rng
  return ((match pickFrom (u * sum) 0 0 probs with
    | some i => (i : Int)
    | none => n - 1), rng)

end

/-! ## The largest element -/

section
variable {K : Type} [LinearOrder K]

theorem maxElementFrom_eq {xs : List K} {largest : K} (h : ∀ x ∈ xs, x ≤ largest) (at_ i : Nat) :
    maxElementFrom largest at_ i xs = at_ := by
  induction xs generalizing i with
  | nil => rfl
  | cons x xs ih =>
    rw [maxElementFrom, if_neg (not_lt.2 (h x List.mem_cons_self))]
    exact ih (fun y hy => h y (List.mem_cons_of_mem x hy)) (i + 1)

theorem maxElementFrom_append {pre post : List K} {m largest : K} (hpre : ∀ x ∈ pre, x < m)
    (hlargest : largest < m) (hpost : ∀ x ∈ post, x ≤ m) (at_ i : Nat) :
    maxElementFrom largest at_ i (pre ++ m :: post) = i + pre.length := by
  induction pre generalizing largest at_ i with
  | nil =>
    rw [List.nil_append, maxElementFrom, if_pos hlargest, maxElementFrom_eq hpost]
    rfl
  | cons x pre ih =>
    have hx : x < m := hpre x List.mem_cons_self
    have hpre' : ∀ y ∈ pre, y < m := fun y hy => hpre y (List.mem_cons_of_mem x hy)
    rw [List.cons_append, maxElementFrom, List.length_cons]
    split
    · rw [ih hpre' hx, Nat.add_assoc, Nat.add_comm 1]
    · rw [ih hpre' hlargest, Nat.add_assoc, Nat.add_comm 1]

/-- The first element that nothing before it reaches and nothing after it exceeds. -/
theorem maxElement_append {pre post : List K} {m : K} (hpre : ∀ x ∈ pre, x < m)
    (hpost : ∀ x ∈ post, x ≤ m) : maxElement (pre ++ m :: post) = pre.length := by
  cases pre with
  | nil => exact maxElementFrom_eq hpost 0 1
  | cons x pre =>
    have hx : x < m := hpre x List.mem_cons_self
    have hpre' : ∀ y ∈ pre, y < m := fun y hy => hpre y (List.mem_cons_of_mem x hy)
    rw [List.cons_append, maxElement, maxElementFrom_append hpre' hx hpost, List.length_cons,
      Nat.add_comm]

theorem maxElementFrom_bounds (xs : List K) (largest : K) {at_ i : Nat} (h : at_ < i) :
    maxElementFrom largest at_ i xs < i + xs.length := by
  induction xs generalizing largest at_ i with
  | nil => exact h
  | cons x xs ih =>
    rw [maxElementFrom, List.length_cons, Nat.add_comm xs.length, ← Nat.add_assoc]
    split
    · exact ih x (Nat.lt_succ_self i)
    · exact ih largest (Nat.lt_succ_of_lt h)

theorem maxElement_lt {xs : List K} (h : xs ≠ []) : maxElement xs < xs.length := by
  cases xs with
  | nil => exact absurd rfl h
  | cons x xs =>
    have hlt := maxElementFrom_bounds xs x Nat.zero_lt_one
    rwa [List.length_cons, Nat.add_comm]

/-- A greedy sample is a token of the vocabulary, or `0` where there is none. -/
theorem sampleArgmax_range {logits : List K} {n tok : Int} (h : sampleArgmax logits n = .ok tok) :
    0 ≤ tok ∧ (tok < n ∨ tok = 0) := by
  obtain ⟨xs, hxs, h⟩ := bind_eq_ok.1 h
  cases h
  refine ⟨Int.natCast_nonneg _, ?_⟩
  unfold ptrRange at hxs
  split at hxs
  · obtain ⟨hlen, rfl⟩ := slice_eq_ok.1 hxs
    by_cases hne : (logits.drop 0).take n.toNat = []
    · rw [hne]
      exact .inr rfl
    · have hlt := maxElement_lt hne
      rw [List.length_take] at hlt
      left
      omega
  · cases hxs

end

end Terllama
