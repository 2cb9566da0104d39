import Terllama.Kernel.PlaneLayer
import Terllama.Loader.Decomposed

/-!
# The construction of bitplanes

The loaders that decode a matrix to bitplanes or the two bits of each weight into a word that begins
as zero. `PlanesTo` is the invariant of these loops, and `placePlanes_ok` what they leave, wherever
they take the weights from.
-/

namespace Terllama

/-- The two bits of a ternary value in a word. -/
structure PlaneBits (w : UInt32) (k : Nat) (v : Int) : Prop where
  nz : w.toNat.testBit (16 + k) = decide (v ≠ 0)
  neg : w.toNat.testBit k = decide (v = -1)

theorem PlaneBits.planeValue {w : UInt32} {k : Nat} {v : Int} (h : PlaneBits w k v)
    (hv : IsTernary v) : planeValue w k = v := by
  rw [Terllama.planeValue, h.nz, h.neg]
  rcases hv with rfl | rfl | rfl <;> rfl

theorem planeBits_zero (k : Nat) : PlaneBits 0 k 0 := by
  constructor <;> simp

/-- The bits that are or-ed into a word for a ternary value. -/
def planeMask (k : Nat) (v : Int) : UInt32 :=
  if v = 1 then 1 <<< (UInt32.ofNat k + 16)
  else if v = -1 then (1 <<< (UInt32.ofNat k + 16)) ||| (1 <<< UInt32.ofNat k) else 0

theorem testBit_planeMask {k : Nat} (hk : k < 16) {v : Int} (hv : IsTernary v) (i : Nat) :
    (planeMask k v).toNat.testBit i =
      (decide (v ≠ 0) && decide (16 + k = i) || decide (v = -1) && decide (k = i)) := by
  have hshift : UInt32.ofNat k + 16 = UInt32.ofNat (16 + k) := by
    rw [Nat.add_comm, UInt32.ofNat_add]
    rfl
  have hnz := testBit_one_shiftLeft_u32 (show 16 + k < 32 by omega) i
  have hneg := testBit_one_shiftLeft_u32 (show k < 32 by omega) i
  rcases hv with rfl | rfl | rfl
  · rw [planeMask, if_neg (by decide), if_pos rfl, hshift, testBit_or_u32, hnz, hneg]
    simp
  · simp [planeMask]
  · rw [planeMask, if_pos rfl, hshift, hnz]
    simp

/-- A value in a place of a word that was clear. -/
theorem PlaneBits.or_same {w : UInt32} {k : Nat} (hk : k < 16) (h : PlaneBits w k 0) {v : Int}
    (hv : IsTernary v) : PlaneBits (w ||| planeMask k v) k v := by
  have hnz := h.nz
  have hneg := h.neg
  constructor
  · rw [testBit_or_u32, hnz, testBit_planeMask hk hv]
    simp
  · rw [testBit_or_u32, hneg, testBit_planeMask hk hv]
    simp

/-- The other places of the word stay. -/
theorem PlaneBits.or_other {w : UInt32} {k k' : Nat} (hk : k < 16) (hk' : k' < 16) (hne : k ≠ k')
    {u : Int} (h : PlaneBits w k' u) {v : Int} (hv : IsTernary v) :
    PlaneBits (w ||| planeMask k v) k' u := by
  have h₂ : ¬ k = 16 + k' := by omega
  have h₃ : ¬ 16 + k = k' := by omega
  constructor
  · rw [testBit_or_u32, h.nz, testBit_planeMask hk hv]
    simp [hne, h₂]
  · rw [testBit_or_u32, h.neg, testBit_planeMask hk hv]
    simp [h₃, hne]

/-- The words hold these ternary values in their places. -/
def PlanesOf (rows cols : Nat) (combined : List UInt32) (value : Nat → Nat → Int) : Prop :=
  ∀ r < rows, ∀ j < cols,
    PlaneBits (combined.getD (r * wordsPerRow cols + j / 16) 0) (j % 16) (value r j)

theorem word_lt {rows cols r j : Nat} (hr : r < rows) (hj : j < cols) :
    r * wordsPerRow cols + j / 16 < rows * wordsPerRow cols := by
  have hword : j / 16 < wordsPerRow cols := by unfold wordsPerRow; omega
  have hrow := Nat.mul_le_mul_right (wordsPerRow cols) (Nat.succ_le_of_lt hr)
  rw [Nat.succ_mul] at hrow
  omega

/-- Two places of one word are in one row. -/
theorem place_inj {cols r r' j j' : Nat} (hj : j < cols) (hj' : j' < cols)
    (hword : r' * wordsPerRow cols + j' / 16 = r * wordsPerRow cols + j / 16)
    (hbit : j' % 16 = j % 16) : r' = r ∧ j' = j := by
  have hlt : j / 16 < wordsPerRow cols := by unfold wordsPerRow; omega
  have hlt' : j' / 16 < wordsPerRow cols := by unfold wordsPerRow; omega
  have hrow : r' = r := by
    have hdiv := congrArg (· / wordsPerRow cols) hword
    simp only [Nat.mul_add_div (Nat.lt_of_le_of_lt (Nat.zero_le _) hlt), Nat.mul_comm _
      (wordsPerRow cols), Nat.div_eq_of_lt hlt, Nat.div_eq_of_lt hlt'] at hdiv
    omega
  subst hrow
  exact ⟨rfl, by omega⟩

/-- A value in a place that was clear. -/
theorem PlanesOf.set {rows cols : Nat} {combined : List UInt32} {value : Nat → Nat → Int}
    (h : PlanesOf rows cols combined value) (hlen : combined.length = rows * wordsPerRow cols)
    {r j : Nat} (hr : r < rows) (hj : j < cols) (hclear : value r j = 0) {v : Int}
    (hv : IsTernary v) :
    PlanesOf rows cols (combined.set (r * wordsPerRow cols + j / 16)
      (combined.getD (r * wordsPerRow cols + j / 16) 0 ||| planeMask (j % 16) v))
      (fun r' j' => if r' = r ∧ j' = j then v else value r' j') := by
  have hbit : j % 16 < 16 := Nat.mod_lt _ (by decide)
  have hlt : r * wordsPerRow cols + j / 16 < combined.length := hlen ▸ word_lt hr hj
  intro r' hr' j' hj'
  have hbit' : j' % 16 < 16 := Nat.mod_lt _ (by decide)
  have hold := h r' hr' j' hj'
  dsimp only
  by_cases hword : r' * wordsPerRow cols + j' / 16 = r * wordsPerRow cols + j / 16
  · rw [hword] at hold ⊢
    rw [List.getD_eq_getElem?_getD, List.getElem?_set_self hlt, Option.getD_some]
    by_cases hsame : j' % 16 = j % 16
    · obtain ⟨rfl, rfl⟩ := place_inj hj hj' hword hsame
      rw [if_pos ⟨rfl, rfl⟩]
      rw [hclear] at hold
      exact hold.or_same hbit hv
    · rw [if_neg fun heq => hsame (by rw [heq.2])]
      exact hold.or_other hbit hbit' (Ne.symm hsame) hv
  · rw [if_neg fun heq => hword (by rw [heq.1, heq.2]), List.getD_eq_getElem?_getD,
      List.getElem?_set_ne (Ne.symm hword), ← List.getD_eq_getElem?_getD]
    exact hold

/-- Or-ing a value into its word. -/
theorem orPlane_ok {combined : List UInt32} {i : Nat} (hi : i < combined.length) (k : Nat)
    (v : Int) :
    (if v = 1 then orWord combined i (1 <<< (UInt32.ofNat k + 16))
      else if v = -1 then orWord combined i ((1 <<< (UInt32.ofNat k + 16)) ||| (1 <<< UInt32.ofNat k))
      else return combined) = .ok (combined.set i (combined.getD i 0 ||| planeMask k v)) := by
  have hor : ∀ bits, orWord combined i bits = .ok (combined.set i (combined.getD i 0 ||| bits)) := by
    intro bits
    rw [orWord, load_getD hi 0]
    rfl
  rw [planeMask]
  split_ifs
  · exact hor _
  · exact hor _
  · rw [UInt32.or_zero, List.getD_eq_getElem _ _ hi, List.set_getElem_self, pure_eq_ok]

/-- What the loops have decoded before row `r` and column `j`: the places behind are clear. -/
structure PlanesTo (rows cols : Nat) (code : Nat → Nat → Int) (r j : Nat) (combined : List UInt32) :
    Prop where
  length : combined.length = rows * wordsPerRow cols
  planes : PlanesOf rows cols combined
    fun r' j' => if r' < r ∨ r' = r ∧ j' < j then code r' j' else 0

theorem planesTo_zero (rows cols : Nat) (code : Nat → Nat → Int) :
    PlanesTo rows cols code 0 0 (List.replicate (rows * wordsPerRow cols) 0) := by
  refine ⟨List.length_replicate, fun r hr j hj => ?_⟩
  have hword := word_lt hr hj
  dsimp only
  rw [if_neg (by omega), List.getD_eq_getElem _ _ (by rwa [List.length_replicate]),
    List.getElem_replicate]
  exact planeBits_zero _

/-- One more place. -/
theorem PlanesTo.step {rows cols r j : Nat} {code : Nat → Nat → Int} {combined : List UInt32}
    (h : PlanesTo rows cols code r j combined) (hr : r < rows) (hj : j < cols)
    (hcode : IsTernary (code r j)) :
    PlanesTo rows cols code r (j + 1) (combined.set (r * wordsPerRow cols + j / 16)
      (combined.getD (r * wordsPerRow cols + j / 16) 0 ||| planeMask (j % 16) (code r j))) := by
  refine ⟨by rw [List.length_set, h.length], fun r' hr' j' hj' => ?_⟩
  have hplace := h.planes.set h.length hr hj (if_neg (by omega)) hcode r' hr' j' hj'
  dsimp only at hplace ⊢
  by_cases hhere : r' = r ∧ j' = j
  · obtain ⟨rfl, rfl⟩ := hhere
    rw [if_pos ⟨rfl, rfl⟩] at hplace
    rwa [if_pos (.inr ⟨rfl, Nat.lt_succ_self j'⟩)]
  · rw [if_neg hhere] at hplace
    rwa [if_congr (show _ ↔ r' < r ∨ r' = r ∧ j' < j by omega) rfl rfl]

/-- The end of a row is the beginning of the next. -/
theorem PlanesTo.next {rows cols r : Nat} {code : Nat → Nat → Int} {combined : List UInt32}
    (h : PlanesTo rows cols code r cols combined) :
    PlanesTo rows cols code (r + 1) 0 combined := by
  refine ⟨h.length, fun r' hr' j' hj' => ?_⟩
  have hplace := h.planes r' hr' j' hj'
  dsimp only at hplace ⊢
  rwa [if_congr (show _ ↔ r' < r ∨ r' = r ∧ j' < cols by omega) rfl rfl]

/-- A pass of the inner loop, which fetches a weight by its position in the matrix. -/
def placePlane (fetch : Nat → Exec Int) (cols r : Nat) (combined : List UInt32) (j : Nat) :
    Exec (List UInt32) := do
  let tv ← fetch (r * cols + j)
  let absWord := r * wordsPerRow cols + j / 16
  let bit := UInt32.ofNat (j % 16)
  if tv = 1 then orWord combined absWord (1 <<< (bit + 16))
  else if tv = -1 then orWord combined absWord ((1 <<< (bit + 16)) ||| (1 <<< bit))
  else return combined

/-- The loops leave words that hold the weights. -/
theorem placePlanes_ok {fetch : Nat → Exec Int} {code : Nat → Nat → Int} {rows cols : Nat}
    (hfetch : ∀ r < rows, ∀ j < cols, fetch (r * cols + j) = .ok (code r j))
    (hcode : ∀ r j, IsTernary (code r j)) :
    ∃ combined, (List.range rows).foldlM (fun combined r =>
        (List.range cols).foldlM (placePlane fetch cols r) combined)
        (List.replicate (rows * wordsPerRow cols) 0) = .ok combined ∧
      combined.length = rows * wordsPerRow cols ∧ PlanesOf rows cols combined code := by
  have hrow : ∀ r < rows, ∀ combined, PlanesTo rows cols code r 0 combined →
      ∃ combined', (List.range cols).foldlM (placePlane fetch cols r) combined = .ok combined' ∧
        PlanesTo rows cols code r cols combined' := by
    intro r hr combined hinit
    refine foldlM_range_total (I := fun j => PlanesTo rows cols code r j) hinit ?_
    intro j hj combined hinv
    refine ⟨_, ?_, hinv.step hr hj (hcode _ _)⟩
    rw [placePlane, hfetch r hr j hj, ok_bind]
    exact orPlane_ok (hinv.length ▸ word_lt hr hj) _ _
  obtain ⟨combined, hrun, hinv⟩ := foldlM_range_total (I := fun r => PlanesTo rows cols code r 0)
    (planesTo_zero _ _ _) fun r hr combined hinv => by
      obtain ⟨combined', hrun, hinv'⟩ := hrow r hr combined hinv
      exact ⟨combined', hrun, hinv'.next⟩
  refine ⟨combined, hrun, hinv.length, fun r hr j hj => ?_⟩
  have hplace := hinv.planes r hr j hj
  dsimp only at hplace
  rwa [if_pos (.inl hr)] at hplace

/-- The words of a row, as the loaders count them. -/
theorem wordsPerRow_eq (cols : Nat) : ((cols : Int) + 15).tdiv 16 = (wordsPerRow cols : Int) := by
  rw [Int.tdiv_eq_ediv_of_nonneg (by omega), wordsPerRow]
  omega

/-- The number of words is a `size_t`, and a vector holds them. -/
theorem planeWords_ok {rows cols : Nat} (hrows : rows ≤ 2147483647) (hcols : cols ≤ 2147483632) :
    sizeT ((rows : Int) * (wordsPerRow cols : Int)) = rows * wordsPerRow cols ∧
      vectorAlloc (rows * wordsPerRow cols) 4 = .ok () := by
  have hsize : rows * wordsPerRow cols ≤ 2147483647 * 134217727 :=
    Nat.mul_le_mul hrows (by unfold wordsPerRow; omega)
  constructor
  · rw [← Int.natCast_mul, sizeT_of_nonneg (Int.natCast_nonneg _) (by omega), Int.toNat_natCast]
  · exact vectorAlloc_ok (by unfold vectorMaxSize; omega)

end Terllama
