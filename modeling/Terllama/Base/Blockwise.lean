import Mathlib.Tactic.Common
import Mathlib.Tactic.Ring

/-!
# Input cut into blocks

`chunks n` is what a function over blocks of `n` elements sees of its input, and `leftover n` what it
has to keep until more input comes. `chunks_append` is why such a function may take its input in
pieces: the blocks of the whole are those of the first piece and those of what it left over with the
next one behind it.
-/

namespace Terllama

section
variable {α β : Type}

/-- The whole blocks of `n` elements. -/
def chunks (n : Nat) (l : List α) : List (List α) :=
  (List.range (l.length / n)).map fun i => (l.drop (i * n)).take n

/-- What comes after the whole blocks. -/
def leftover (n : Nat) (l : List α) : List α := l.drop (l.length / n * n)

/-- The blocks as one list. -/
def wholeBlocks (n : Nat) (l : List α) : List α := l.take (l.length / n * n)

theorem wholeBlocks_append_leftover (n : Nat) (l : List α) :
    wholeBlocks n l ++ leftover n l = l :=
  List.take_append_drop _ l

theorem length_wholeBlocks (n : Nat) (l : List α) :
    (wholeBlocks n l).length = l.length / n * n := by
  rw [wholeBlocks, List.length_take, Nat.min_eq_left (Nat.div_mul_le_self _ _)]

theorem length_leftover (n : Nat) (l : List α) : (leftover n l).length = l.length % n := by
  have hdiv := Nat.div_add_mod l.length n
  rw [leftover, List.length_drop, Nat.mul_comm]
  omega

theorem chunks_eq_nil {n : Nat} {l : List α} (h : l.length < n) : chunks n l = [] := by
  rw [chunks, Nat.div_eq_of_lt h]
  rfl

/-- A block reaches no further than its end. -/
theorem mul_add_le_of_lt_div {n m i : Nat} (h : i < m / n) : i * n + n ≤ m := by
  rw [← Nat.succ_mul]
  exact (Nat.mul_le_mul_right n h).trans (Nat.div_mul_le_self m n)

theorem mem_chunks {n : Nat} {l block : List α} (h : block ∈ chunks n l) :
    block.length = n ∧ ∀ a ∈ block, a ∈ l := by
  obtain ⟨i, hi, rfl⟩ := List.mem_map.1 h
  have hle := mul_add_le_of_lt_div (List.mem_range.1 hi)
  refine ⟨?_, fun a ha => List.mem_of_mem_drop (List.mem_of_mem_take ha)⟩
  rw [List.length_take, List.length_drop]
  omega

/-- Whole blocks in front. -/
theorem chunks_append_of_dvd {n : Nat} {xs : List α} (h : n ∣ xs.length) (ys : List α) :
    chunks n (xs ++ ys) = chunks n xs ++ chunks n ys := by
  obtain ⟨k, hk⟩ := h
  rcases Nat.eq_zero_or_pos n with rfl | hpos
  · simp [chunks]
  · have hlen : (xs ++ ys).length / n = k + ys.length / n := by
      rw [List.length_append, hk, Nat.mul_add_div hpos]
    have hxs : xs.length / n = k := by rw [hk, Nat.mul_div_cancel_left _ hpos]
    rw [chunks, hlen, List.range_add, List.map_append, List.map_map, chunks, hxs, chunks]
    congr 1
    · refine List.map_congr_left fun i hi => ?_
      have hle := mul_add_le_of_lt_div (hxs.symm ▸ List.mem_range.1 hi : i < xs.length / n)
      rw [List.drop_append_of_le_length (by omega), List.take_append_of_le_length]
      rw [List.length_drop]
      omega
    · refine List.map_congr_left fun i _ => ?_
      have hsplit : (k + i) * n = xs.length + i * n := by rw [hk]; ring
      rw [Function.comp_apply, hsplit, List.drop_length_add_append]

/-- The input may come in pieces. -/
theorem chunks_append (n : Nat) (xs ys : List α) :
    chunks n (xs ++ ys) = chunks n xs ++ chunks n (leftover n xs ++ ys) := by
  rcases Nat.eq_zero_or_pos n with rfl | hpos
  · simp [chunks]
  · have hdvd : n ∣ (wholeBlocks n xs).length := by
      rw [length_wholeBlocks]
      exact Nat.dvd_mul_left n _
    have hshort : chunks n (leftover n xs) = [] :=
      chunks_eq_nil (by rw [length_leftover]; exact Nat.mod_lt _ hpos)
    have hwhole : chunks n (wholeBlocks n xs) = chunks n xs := by
      conv_rhs => rw [← wholeBlocks_append_leftover n xs, chunks_append_of_dvd hdvd, hshort,
        List.append_nil]
    conv_lhs => rw [← wholeBlocks_append_leftover n xs, List.append_assoc,
      chunks_append_of_dvd hdvd, hwhole]

/-- What is left over of a second piece. -/
theorem leftover_append (n : Nat) (xs ys : List α) :
    leftover n (xs ++ ys) = leftover n (leftover n xs ++ ys) := by
  rcases Nat.eq_zero_or_pos n with rfl | hpos
  · simp [leftover]
  · have hlen : (xs ++ ys).length / n * n =
        (wholeBlocks n xs).length + (leftover n xs ++ ys).length / n * n := by
      have hwhole := length_wholeBlocks n xs
      have hsum : (xs ++ ys).length =
          xs.length / n * n + (leftover n xs ++ ys).length := by
        rw [← hwhole, ← List.length_append, ← List.append_assoc, wholeBlocks_append_leftover]
      rw [hsum, hwhole, Nat.mul_comm (xs.length / n) n, Nat.mul_add_div hpos, Nat.add_mul,
        Nat.mul_comm n]
    have hsplit : xs ++ ys = wholeBlocks n xs ++ (leftover n xs ++ ys) := by
      rw [← List.append_assoc, wholeBlocks_append_leftover]
    rw [leftover, hlen, hsplit, List.drop_length_add_append]
    rfl

/-! ## Elements that stand for blocks -/

section
variable {f : α → List β} {m : Nat}

theorem length_flatMap_eq {l : List α} (h : ∀ a ∈ l, (f a).length = m) :
    (l.flatMap f).length = l.length * m := by
  induction l with
  | nil => rw [List.flatMap_nil, List.length_nil, List.length_nil, Nat.zero_mul]
  | cons a l ih =>
    rw [List.flatMap_cons, List.length_append, h a List.mem_cons_self,
      ih fun b hb => h b (List.mem_cons_of_mem a hb), List.length_cons, Nat.succ_mul, Nat.add_comm]

theorem drop_flatMap {l : List α} (h : ∀ a ∈ l, (f a).length = m) (n : Nat) :
    (l.flatMap f).drop (n * m) = (l.drop n).flatMap f := by
  induction n generalizing l with
  | zero => rw [Nat.zero_mul, List.drop_zero, List.drop_zero]
  | succ n ih =>
    cases l with
    | nil => rw [List.flatMap_nil, List.drop_nil, List.drop_nil, List.flatMap_nil]
    | cons a l =>
      have ha : (f a).length = m := h a List.mem_cons_self
      rw [List.flatMap_cons, List.drop_succ_cons, ← ih fun b hb => h b (List.mem_cons_of_mem a hb),
        Nat.succ_mul, Nat.add_comm, ← List.drop_drop, ← ha, List.drop_left]

theorem take_flatMap {l : List α} (h : ∀ a ∈ l, (f a).length = m) (n : Nat) :
    (l.flatMap f).take (n * m) = (l.take n).flatMap f := by
  induction n generalizing l with
  | zero => rw [Nat.zero_mul, List.take_zero, List.take_zero, List.flatMap_nil]
  | succ n ih =>
    cases l with
    | nil => rw [List.flatMap_nil, List.take_nil, List.take_nil, List.flatMap_nil]
    | cons a l =>
      have ha : (f a).length = m := h a List.mem_cons_self
      have hlen : (n + 1) * m = (f a).length + n * m := by rw [ha]; ring
      rw [List.flatMap_cons, List.take_succ_cons, List.flatMap_cons,
        ← ih fun b hb => h b (List.mem_cons_of_mem a hb), hlen, List.take_append,
        List.take_of_length_le (by omega), Nat.add_sub_cancel_left]

/-- The blocks of elements that stand for `m` others each. -/
theorem chunks_flatMap {l : List α} (h : ∀ a ∈ l, (f a).length = m) (hm : 0 < m) (n : Nat) :
    chunks (n * m) (l.flatMap f) = (chunks n l).map (·.flatMap f) := by
  have hcount : (l.flatMap f).length / (n * m) = l.length / n := by
    rw [length_flatMap_eq h, Nat.mul_comm n, ← Nat.div_div_eq_div_mul, Nat.mul_div_cancel _ hm]
  rw [chunks, hcount, chunks, List.map_map]
  refine List.map_congr_left fun i _ => ?_
  have hdrop : ∀ a ∈ l.drop (i * n), (f a).length = m := fun a ha => h a (List.mem_of_mem_drop ha)
  rw [Function.comp_apply, ← Nat.mul_assoc, drop_flatMap h, take_flatMap hdrop]

/-- The elements themselves. -/
theorem chunks_flatMap_one {l : List α} (h : ∀ a ∈ l, (f a).length = m) (hm : 0 < m) :
    chunks m (l.flatMap f) = l.map f := by
  have hone : chunks 1 l = l.map fun a => [a] := by
    refine List.ext_getElem ?_ fun i hi hi' => ?_
    · rw [chunks, List.length_map, List.length_range, Nat.div_one, List.length_map]
    · have hlt : i < l.length := by rwa [List.length_map] at hi'
      simp only [chunks, List.getElem_map, List.getElem_range, Nat.mul_one]
      rw [List.drop_eq_getElem_cons hlt, List.take_succ_cons, List.take_zero]
  have hblocks := chunks_flatMap h hm 1
  rw [Nat.one_mul, hone, List.map_map] at hblocks
  rw [hblocks]
  refine List.map_congr_left fun a _ => ?_
  rw [Function.comp_apply, List.flatMap_cons, List.flatMap_nil, List.append_nil]

end

end

end Terllama
