import Terllama.Base.Buffer

/-!
# Loops that work in place

A loop that reads the cells of a buffer and stores over them. `Cells buf off n x` says that the `n`
cells from `off` on hold `x`, and `Updates step off n x y` that a step takes these cells from `x` to
`y` and leaves all others alone. A loop is composed from its passes: `Updates.rows` where the passes
work on neighbouring rows, `Updates.iterate` where all of them work on the same cells,
`Updates.cells_fold` where they keep an accumulator beside the buffer.
-/

namespace Terllama

section
variable {α β : Type}

/-- The `n` cells from `off` on hold `x`. -/
def Cells (buf : List α) (off n : Nat) (x : Nat → α) : Prop :=
  ∀ i < n, buf[off + i]? = some (x i)

/-- The buffers differ in the `n` cells from `off` on at most. -/
structure SameOutside (buf buf' : List α) (off n : Nat) : Prop where
  length_eq : buf'.length = buf.length
  get : ∀ i, i < off ∨ off + n ≤ i → buf'[i]? = buf[i]?

/-- The step takes the `n` cells from `off` on from `x` to `y`, and keeps the others. -/
def Updates (step : List α → Exec (List α)) (off n : Nat) (x y : Nat → α) : Prop :=
  ∀ buf, Cells buf off n x →
    ∃ buf', step buf = .ok buf' ∧ Cells buf' off n y ∧ SameOutside buf buf' off n

/-! ## Cells -/

section
variable {buf buf' : List α} {off n m : Nat} {x y : Nat → α}

theorem Cells.lt (h : Cells buf off n x) {i : Nat} (hi : i < n) : off + i < buf.length :=
  (List.getElem?_eq_some_iff.1 (h i hi)).1

theorem Cells.load (h : Cells buf off n x) {i : Nat} (hi : i < n) :
    load buf (off + i) = .ok (x i) := load_eq (h i hi)

theorem Cells.congr (h : Cells buf off n x) (hxy : ∀ i < n, x i = y i) : Cells buf off n y :=
  fun i hi => (h i hi).trans (congrArg some (hxy i hi))

theorem Cells.part (h : Cells buf off n x) {k : Nat} (hk : k + m ≤ n) :
    Cells buf (off + k) m fun i => x (k + i) := by
  intro i hi
  rw [Nat.add_assoc]
  exact h (k + i) (by omega)

theorem Cells.mono (h : Cells buf off n x) (hm : m ≤ n) : Cells buf off m x :=
  fun i hi => h i (Nat.lt_of_lt_of_le hi hm)

/-- The first cells of a buffer, from a table of them. -/
theorem cells_map_range (x : Nat → α) (rest : List α) :
    Cells ((List.range n).map x ++ rest) 0 n x := by
  intro i hi
  rw [Nat.zero_add, List.getElem?_append_left (by rwa [List.length_map, List.length_range]),
    List.getElem?_map, List.getElem?_range hi, Option.map_some]

theorem Cells.getD (h : Cells buf 0 n x) {i : Nat} (hi : i < n) (d : α) : buf.getD i d = x i := by
  have hget := h i hi
  rw [Nat.zero_add] at hget
  rw [List.getD_eq_getElem?_getD, hget, Option.getD_some]

theorem Cells.le_length (h : Cells buf 0 n x) : n ≤ buf.length := by
  cases n with
  | zero => exact Nat.zero_le _
  | succ n =>
    have hlt := h.lt (Nat.lt_succ_self n)
    omega

/-- The first cells are the table of what they hold. -/
theorem Cells.take_eq (h : Cells buf 0 n x) : buf.take n = (List.range n).map x := by
  refine List.ext_getElem? fun i => ?_
  rw [List.getElem?_take, List.getElem?_map]
  split
  · next hi =>
    have hget := h i hi
    rw [Nat.zero_add] at hget
    rw [hget, List.getElem?_range hi, Option.map_some]
  · next hi => rw [List.getElem?_eq_none (by rw [List.length_range]; omega), Option.map_none]

theorem SameOutside.refl (buf : List α) (off n : Nat) : SameOutside buf buf off n :=
  ⟨rfl, fun _ _ => rfl⟩

theorem SameOutside.trans {buf'' : List α} (h : SameOutside buf buf' off n)
    (h' : SameOutside buf' buf'' off n) : SameOutside buf buf'' off n :=
  ⟨h'.length_eq.trans h.length_eq, fun i hi => (h'.get i hi).trans (h.get i hi)⟩

/-- The cells of a part lie in the cells of the whole. -/
theorem SameOutside.part {k : Nat} (h : SameOutside buf buf' (off + k) m) (hk : k + m ≤ n) :
    SameOutside buf buf' off n :=
  ⟨h.length_eq, fun i hi => h.get i (by omega)⟩

/-- Cells away from those that differ. -/
theorem SameOutside.cells (h : SameOutside buf buf' off n) {off' : Nat}
    (hoff : off' + m ≤ off ∨ off + n ≤ off') (hx : Cells buf off' m x) : Cells buf' off' m x :=
  fun i hi => (h.get _ (by omega)).trans (hx i hi)

theorem writeAt_singleton {i : Nat} (h : i < buf.length) (a : α) :
    writeAt buf i [a] = .ok (buf.set i a) := by
  have hroom : i + [a].length ≤ buf.length := h
  rw [writeAt, if_pos hroom, List.set_eq_take_append_cons_drop, if_pos h, List.append_assoc]
  rfl

theorem sameOutside_set (buf : List α) (off : Nat) (a : α) :
    SameOutside buf (buf.set off a) off 1 :=
  ⟨List.length_set, fun i hi => List.getElem?_set_ne (by omega)⟩

/-- A store over one cell. -/
theorem updates_store {step : List α → Exec (List α)}
    (h : ∀ buf, buf[off]? = some (x 0) → step buf = writeAt buf off [y 0]) :
    Updates step off 1 x y := by
  intro buf hx
  have hlt : off < buf.length := hx.lt Nat.zero_lt_one
  refine ⟨buf.set off (y 0), (h buf (hx 0 Nat.zero_lt_one)).trans (writeAt_singleton hlt _), ?_,
    sameOutside_set buf off _⟩
  intro i hi
  obtain rfl : i = 0 := by omega
  exact List.getElem?_set_self hlt

end

/-! ## Steps -/

section
variable {f g : List α → Exec (List α)} {off n m : Nat} {x y z : Nat → α}

theorem Updates.congr {x' y' : Nat → α} (h : Updates f off n x y) (hx : ∀ i < n, x' i = x i)
    (hy : ∀ i < n, y i = y' i) : Updates f off n x' y' := by
  intro buf hbuf
  obtain ⟨buf', hrun, hreads, hout⟩ := h buf (hbuf.congr hx)
  exact ⟨buf', hrun, hreads.congr hy, hout⟩

/-- A step that does nothing. -/
theorem updates_ok (off n : Nat) (x : Nat → α) : Updates (fun buf => .ok buf) off n x x :=
  fun buf hx => ⟨buf, rfl, hx, SameOutside.refl buf off n⟩

/-- A step on a part of the cells. -/
theorem Updates.part {k : Nat} (h : Updates f (off + k) m (fun i => x (k + i)) fun i => y (k + i))
    (hk : k + m ≤ n) (hsame : ∀ i < n, i < k ∨ k + m ≤ i → y i = x i) : Updates f off n x y := by
  intro buf hx
  obtain ⟨buf', hrun, hy, hout⟩ := h buf (hx.part hk)
  refine ⟨buf', hrun, fun i hi => ?_, hout.part hk⟩
  by_cases hin : k ≤ i ∧ i < k + m
  · have hcell := hy (i - k) (by omega)
    dsimp only at hcell
    rwa [Nat.add_assoc, Nat.add_sub_cancel' hin.1] at hcell
  · rw [hout.get _ (by omega), hx i hi, hsame i hi (by omega)]

/-- A step on the first of the cells. -/
theorem Updates.extend (h : Updates f off m x y) (hm : m ≤ n)
    (hsame : ∀ i < n, m ≤ i → y i = x i) : Updates f off n x y := by
  refine Updates.part (k := 0) (h.congr (fun i _ => ?_) fun i _ => ?_) (by omega) fun i hi hout => ?_
  · rw [Nat.zero_add]
  · rw [Nat.zero_add]
  · exact hsame i hi (by omega)

/-- Passes over the same cells. -/
theorem Updates.iterate {step : List α → Nat → Exec (List α)} {v : Nat → Nat → α}
    (h : ∀ t < m, Updates (fun buf => step buf t) off n (v t) (v (t + 1))) :
    Updates (fun buf => (List.range m).foldlM step buf) off n (v 0) (v m) := by
  intro buf hx
  obtain ⟨buf', hrun, hreads, hout⟩ := foldlM_range_total
    (I := fun t b => Cells b off n (v t) ∧ SameOutside buf b off n)
    ⟨hx, SameOutside.refl buf off n⟩ fun t ht b hb => by
      obtain ⟨b', hrun, hreads, hout⟩ := h t ht b hb.1
      exact ⟨b', hrun, hreads, hb.2.trans hout⟩
  exact ⟨buf', hrun, hreads, hout⟩

/-- Passes over neighbouring rows of `s` cells. -/
theorem Updates.rows {step : List α → Nat → Exec (List α)} {s : Nat}
    (h : ∀ i < m, Updates (fun buf => step buf i) (off + i * s) s
      (fun j => x (i * s + j)) fun j => y (i * s + j)) :
    Updates (fun buf => (List.range m).foldlM step buf) off (m * s) x y := by
  have hpasses := @Updates.iterate _ off (m * s) m step
    (fun t k => if k < t * s then y k else x k) fun t ht => by
      have hnext : (t + 1) * s = t * s + s := Nat.succ_mul t s
      have hroom : t * s + s ≤ m * s := hnext ▸ Nat.mul_le_mul_right s ht
      refine Updates.part (k := t * s) ((h t ht).congr (fun j hj => ?_) fun j hj => ?_) hroom
        fun i hi hout => ?_
      · exact if_neg (by omega)
      · exact (if_pos (by omega)).symm
      · rcases hout with hlt | hge
        · rw [if_pos hlt, if_pos (by omega)]
        · rw [if_neg (by omega), if_neg (by omega)]
  refine hpasses.congr (fun i hi => ?_) fun i hi => if_pos hi
  exact (if_neg (by rw [Nat.zero_mul]; exact Nat.not_lt_zero i)).symm

/-- The place of an element of a row. -/
theorem row_place {s i j : Nat} (hj : j < s) : (i * s + j) / s = i ∧ (i * s + j) % s = j := by
  have hpos : 0 < s := Nat.zero_lt_of_lt hj
  rw [Nat.add_comm]
  exact ⟨by rw [Nat.add_mul_div_right _ _ hpos, Nat.div_eq_of_lt hj, Nat.zero_add],
    by rw [Nat.add_mul_mod_self_right, Nat.mod_eq_of_lt hj]⟩

/-- Passes over the rows of a table at the start of a buffer. -/
theorem Updates.table {step : List α → Nat → Exec (List α)} {s : Nat} {v w : Nat → Nat → α}
    (h : ∀ i < m, Updates (fun buf => step buf i) (i * s) s (v i) (w i)) :
    Updates (fun buf => (List.range m).foldlM step buf) 0 (m * s) (fun k => v (k / s) (k % s))
      fun k => w (k / s) (k % s) := by
  refine Updates.rows fun i hi => ?_
  rw [Nat.zero_add]
  refine (h i hi).congr (fun j hj => ?_) fun j hj => ?_
  · rw [(row_place hj).1, (row_place hj).2]
  · rw [(row_place hj).1, (row_place hj).2]

/-- Passes over neighbouring cells. -/
theorem Updates.cells {step : List α → Nat → Exec (List α)}
    (h : ∀ i < n, ∀ buf, buf[off + i]? = some (x i) →
      step buf i = writeAt buf (off + i) [y i]) :
    Updates (fun buf => (List.range n).foldlM step buf) off n x y := by
  have hrows := @Updates.rows _ off n x y step 1 fun i hi => updates_store fun buf hbuf => by
    rw [Nat.mul_one] at hbuf ⊢
    exact h i hi buf hbuf
  rwa [Nat.mul_one] at hrows

end

end

end Terllama
