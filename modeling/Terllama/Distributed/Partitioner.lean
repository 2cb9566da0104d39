import Mathlib.Data.List.Sort
import Mathlib.Algebra.BigOperators.Group.List.Basic
import Terllama.Base.Buffer
import Terllama.Base.Ranges
import Terllama.Base.Rational
import Terllama.Distributed.Protocol

/-!
# Layer allocation

`distributed/partitioner.h`: `allocate_layers_proportionally` gives each node the whole part of its
share, hands the remaining layers out by descending fractional part, and then takes from the largest
allocation for every node that has none; `compute_shards` turns the counts into consecutive ranges.
A `double` is a rational.

The allocation keeps the number of nodes and the sum of the counts through all three phases
(`Allocation`). For shares that add up to one the remainder is below the number of nodes
(`remaining_lt`), and as long as some node has no layer another one has at least two
(`Allocation.exists_donor`).
-/

namespace Terllama

/-! ## The source -/

/-- `(int)std::floor(x)`. -/
def floorToInt (x : ℚ) : Exec Int :=
  if -2147483648 ≤ ⌊x⌋ ∧ ⌊x⌋ ≤ 2147483647 then .ok ⌊x⌋
  else undefined "conversion outside the range of int"

/-- `result[i] += d`. -/
def addAt (result : List Int) (i : Nat) (d : Int) : Exec (List Int) := do
  let r ← load result i
  let r ← i32 (r + d)
  return result.set i r

/-- The comparison of the stable sort: by descending fractional part, then by index. -/
def largerRemainder (raw : List ℚ) (result : List Int) (a b : Nat) : Bool :=
  let ra := raw.getD a 0 - result.getD a 0
  let rb := raw.getD b 0 - result.getD b 0
  if ra ≠ rb then ra > rb else a < b

/-- One step of the search for the largest allocation above one, other than that of `i`. -/
def scanDonor (result : List Int) (i : Nat) (maxJ : Int) (j : Nat) : Exec Int := do
  let r ← load result j
  if j = i ∨ r ≤ 1 then return maxJ
  if maxJ < 0 then return toInt32 j
  let largest ← load result maxJ.toNat
  return if r > largest then toInt32 j else maxJ

/-- One pass of the loop that gives every node a layer. -/
def ensureLayer (n : Nat) (result : List Int) (i : Nat) : Exec (List Int) := do
  let r ← load result i
  if r > 0 then return result
  let maxJ ← (List.range n).foldlM (scanDonor result i) (-1)
  if maxJ < 0 then
    raise "allocate_layers_proportionally: cannot guarantee 1 layer/node"
  else
    let result ← addAt result maxJ.toNat (-1)
    addAt result i 1

/-- `allocate_layers_proportionally`. -/
def allocateLayersProportionally (totalLayers : Int) (memoryFractions : List ℚ) :
    Exec (List Int) := do
  let n := memoryFractions.length
  if n = 0 then
    raise "allocate_layers_proportionally: zero nodes"
  else if sizeT totalLayers < n then
    raise ("allocate_layers_proportionally: total_layers (" ++ toString totalLayers ++
      ") < nodes (" ++ toString n ++ ")")
  else
    let raw := memoryFractions.map fun frac : ℚ => (if frac < 0 then 0 else frac) * totalLayers
    let result ← raw.mapM floorToInt
    let sum ← result.foldlM (fun sum r => i32 (sum + r)) 0
    let order := (List.range n).mergeSort fun a b => !largerRemainder raw result b a
    let remaining ← i32 (totalLayers - sum)
    let result ← (List.range remaining.toNat).foldlM (fun result k => do
      let node ← load order k
      addAt result node 1) result
    (List.range n).foldlM (ensureLayer n) result

/-- The fractions of `compute_shards`: each node's share of the available RAM, or equal shares when
there is none at all. -/
def ramFractions (worldSize : Int) (ramAvailableBytes : List Int) : List ℚ :=
  let totalRam : ℚ := (ramAvailableBytes.map fun b : Int => (b : ℚ)).sum
  if totalRam > 0 then ramAvailableBytes.map fun b : Int => (b : ℚ) / totalRam
  else List.replicate worldSize.toNat (1 / worldSize)

/-- One pass of the loop of `compute_shards`: the shard of rank `i`, and the check that it fits. -/
def shardStep (nLayers worldSize modelSizeBytes : Int) (ramAvailableBytes counts : List Int)
    (st : Int × List ShardSpec) (i : Nat) : Exec (Int × List ShardSpec) := do
  let count ← load counts i
  let stop ← i32 (st.1 + count)
  let s : ShardSpec := {
    deviceRank := i, worldSize, startLayer := st.1, endLayer := stop, nLayers
    isFirst := st.1 == 0, isLast := stop == nLayers }
  let ram ← load ramAvailableBytes i
  let need : ℚ := modelSizeBytes * count / nLayers
  if (ram : ℚ) < need then
    raise ("compute_shards: node " ++ toString i ++ " has insufficient RAM (available " ++
      toString ram ++ " bytes, needs ~" ++ toString (truncRat need) ++ " bytes for " ++
      toString count ++ " of " ++ toString nLayers ++ " layers)")
  else
    return (stop, st.2 ++ [s])

/-- `compute_shards`. -/
def computeShards (nLayers worldSize : Int) (ramAvailableBytes : List Int) (modelSizeBytes : Int) :
    Exec (List ShardSpec) := do
  if worldSize ≤ 0 then
    raise "compute_shards: world_size must be > 0"
  else if nLayers < worldSize then
    raise ("compute_shards: n_layers (" ++ toString nLayers ++ ") < world_size (" ++
      toString worldSize ++ ")")
  else if sizeT worldSize ≠ ramAvailableBytes.length then
    raise "compute_shards: ram_available_bytes size mismatch"
  else
    let counts ← allocateLayersProportionally nLayers (ramFractions worldSize ramAvailableBytes)
    let (_, shards) ← (List.range worldSize.toNat).foldlM
      (shardStep nLayers worldSize modelSizeBytes ramAvailableBytes counts) (0, [])
    return shards

/-! ## The three phases -/

/-- `total` layers on `n` nodes. -/
structure Allocation (n : Nat) (total : Int) (result : List Int) : Prop where
  length_eq : result.length = n
  nonneg : ∀ c ∈ result, 0 ≤ c
  sum_eq : result.sum = total

section
variable {n : Nat} {total : Int} {result : List Int}

theorem Allocation.getD_nonneg (h : Allocation n total result) (i : Nat) :
    0 ≤ result.getD i 0 := by
  rw [List.getD_eq_getElem?_getD]
  cases hi : result[i]? with
  | none => exact le_rfl
  | some c => exact h.nonneg c (List.mem_of_getElem? hi)

theorem Allocation.getD_le (h : Allocation n total result) {i : Nat} (hi : i < n) :
    result.getD i 0 ≤ total := by
  have hlen : i < result.length := h.length_eq.symm ▸ hi
  rw [List.getD_eq_getElem _ _ hlen]
  exact (List.single_le_sum h.nonneg _ (List.getElem_mem hlen)).trans_eq h.sum_eq

theorem Allocation.set (h : Allocation n total result) {i : Nat} (hi : i < n) {c : Int}
    (hc : 0 ≤ c) : Allocation n (total - result.getD i 0 + c) (result.set i c) := by
  have hlen : i < result.length := h.length_eq.symm ▸ hi
  refine ⟨by rw [List.length_set, h.length_eq], fun c' hc' => ?_, ?_⟩
  · rcases List.mem_or_eq_of_mem_set hc' with hc' | rfl
    · exact h.nonneg c' hc'
    · exact hc
  · rw [List.sum_set', dif_pos hlen, h.sum_eq, List.getD_eq_getElem _ _ hlen, sub_eq_add_neg,
      add_assoc]

/-- Changing the count of one node changes the total by as much. -/
theorem addAt_ok (h : Allocation n total result) {i : Nat} (hi : i < n) {d : Int}
    (hd : 0 ≤ result.getD i 0 + d) (hmax : total + d ≤ 2147483647) :
    addAt result i d = .ok (result.set i (result.getD i 0 + d)) ∧
      Allocation n (total + d) (result.set i (result.getD i 0 + d)) := by
  have hlen : i < result.length := h.length_eq.symm ▸ hi
  have hle := h.getD_le hi
  have hset := h.set hi hd
  rw [← add_assoc, sub_add_cancel] at hset
  refine ⟨?_, hset⟩
  rw [addAt, load_getD hlen 0, ok_bind, i32_ok (by omega) (by omega)]
  rfl

/-- The whole parts of non-negative numbers fall short of their sum by less than one each. -/
theorem sum_floor_bounds (raw : List ℚ) :
    ((raw.map fun r => ⌊r⌋).sum : ℚ) ≤ raw.sum ∧
      raw.sum ≤ (raw.map fun r => ⌊r⌋).sum + raw.length ∧
      (raw ≠ [] → raw.sum < (raw.map fun r => ⌊r⌋).sum + raw.length) := by
  induction raw with
  | nil => simp
  | cons r raw ih =>
    obtain ⟨hle, hub, -⟩ := ih
    have hfloor := Int.floor_le r
    have hlt := Int.lt_floor_add_one r
    simp only [List.map_cons, List.sum_cons, List.length_cons, Int.cast_add, Nat.cast_add,
      Nat.cast_one]
    refine ⟨by linarith, by linarith, fun _ => by linarith⟩

/-- A sum of counts that fits an `int` is computed without overflow. -/
theorem foldlM_sum_ok (l : List Int) (acc : Int) (h : ∀ c ∈ l, 0 ≤ c) (hacc : 0 ≤ acc)
    (hmax : acc + l.sum ≤ 2147483647) :
    l.foldlM (fun sum r => i32 (sum + r)) acc = .ok (acc + l.sum) := by
  induction l generalizing acc with
  | nil =>
    rw [List.sum_nil, add_zero]
    rfl
  | cons c l ih =>
    have hc := h c (by simp)
    have hl : 0 ≤ l.sum := List.sum_nonneg fun c hc => h c (by simp [hc])
    rw [List.sum_cons] at hmax ⊢
    rw [List.foldlM_cons, i32_ok (by omega) (by omega), ok_bind,
      ih _ (fun c hc => h c (by simp [hc])) (by omega) (by omega), add_assoc]

/-- The search for a donor returns one, or no node but `i` has more than one layer. -/
theorem scanDonor_ok (h : Allocation n total result) (hn : n ≤ 2147483647) (i : Nat) :
    ∃ maxJ, (List.range n).foldlM (scanDonor result i) (-1) = .ok maxJ ∧
      ((maxJ < 0 ∧ ∀ j < n, j ≠ i → result.getD j 0 ≤ 1) ∨
        (0 ≤ maxJ ∧ maxJ.toNat < n ∧ maxJ.toNat ≠ i ∧ 1 < result.getD maxJ.toNat 0)) := by
  refine foldlM_range_total (I := fun m (maxJ : Int) =>
    (maxJ < 0 ∧ ∀ j < m, j ≠ i → result.getD j 0 ≤ 1) ∨
      (0 ≤ maxJ ∧ maxJ.toNat < n ∧ maxJ.toNat ≠ i ∧ 1 < result.getD maxJ.toNat 0)) ?_ ?_
  · exact .inl ⟨by decide, fun j hj => absurd hj (Nat.not_lt_zero j)⟩
  intro m hm maxJ hinv
  have hlen := h.length_eq
  have hcast : toInt32 m = m := toInt32_of_lt (by omega)
  rw [scanDonor, load_getD (by omega) 0, ok_bind]
  by_cases hskip : m = i ∨ result.getD m 0 ≤ 1
  · rw [if_pos hskip]
    refine ⟨maxJ, rfl, hinv.imp_left fun ⟨hneg, hle⟩ => ⟨hneg, fun j hj hji => ?_⟩⟩
    rcases Nat.lt_succ_iff_lt_or_eq.1 hj with hj | rfl
    · exact hle j hj hji
    · exact hskip.resolve_left hji
  obtain ⟨hmi, hgt⟩ := not_or.1 hskip
  rw [if_neg hskip]
  have hnew : 0 ≤ (m : Int) ∧ (m : Int).toNat < n ∧ (m : Int).toNat ≠ i ∧
      1 < result.getD (m : Int).toNat 0 :=
    ⟨by omega, by rwa [Int.toNat_natCast], by rwa [Int.toNat_natCast],
      by rw [Int.toNat_natCast]; exact not_le.1 hgt⟩
  rcases hinv with ⟨hneg, -⟩ | hdonor
  · rw [if_pos hneg, hcast]
    exact ⟨m, rfl, .inr hnew⟩
  · rw [if_neg (not_lt.2 hdonor.1), load_getD (by rw [hlen]; exact hdonor.2.1) 0, ok_bind, hcast]
    refine ⟨_, rfl, .inr ?_⟩
    split
    · exact hnew
    · exact hdonor

/-- As long as there are as many layers as nodes, a node without one leaves a node with two. -/
theorem Allocation.exists_donor (h : Allocation n total result) (htotal : (n : Int) ≤ total)
    {i : Nat} (hi : i < n) (hzero : result.getD i 0 = 0) :
    ∃ j < n, j ≠ i ∧ 1 < result.getD j 0 := by
  by_contra hnone
  have hset := h.set hi (show (0 : Int) ≤ 1 by decide)
  have hone : ∀ c ∈ result.set i 1, c ≤ 1 := by
    intro c hc
    obtain ⟨j, hj⟩ := List.mem_iff_getElem?.1 hc
    rw [List.getElem?_set] at hj
    split at hj
    · split at hj
      · exact (Option.some.inj hj).ge
      · cases hj
    · rename_i hij
      have hjn : j < n := h.length_eq ▸ (List.getElem?_eq_some_iff.1 hj).1
      refine not_lt.1 fun hlt => hnone ⟨j, hjn, Ne.symm hij, ?_⟩
      rwa [List.getD_eq_getElem?_getD, hj]
  have hsum := List.sum_le_card_nsmul _ _ hone
  rw [hset.sum_eq, hset.length_eq, hzero, nsmul_one] at hsum
  omega

/-- One pass of the last loop gives the node a layer and leaves every other node at least one of
those it had. -/
theorem ensureLayer_ok (h : Allocation n total result) (htotal : (n : Int) ≤ total)
    (hmax : total ≤ 2147483647) {i : Nat} (hi : i < n) :
    ∃ result', ensureLayer n result i = .ok result' ∧ Allocation n total result' ∧
      1 ≤ result'.getD i 0 ∧ ∀ j, 1 ≤ result.getD j 0 → 1 ≤ result'.getD j 0 := by
  have hlen := h.length_eq
  have hnonneg := h.getD_nonneg i
  rw [ensureLayer, load_getD (by omega) 0, ok_bind]
  by_cases hpos : result.getD i 0 > 0
  · rw [if_pos hpos]
    exact ⟨result, rfl, h, hpos, fun j hj => hj⟩
  have hzero : result.getD i 0 = 0 := le_antisymm (not_lt.1 hpos) hnonneg
  obtain ⟨maxJ, hscan, ⟨-, hnone⟩ | ⟨hge, hlt, hji, hdonor⟩⟩ := scanDonor_ok h (by omega) i
  · obtain ⟨j, hj, hji, hgt⟩ := h.exists_donor htotal hi hzero
    exact absurd (hnone j hj hji) (not_le.2 hgt)
  obtain ⟨htake, hafter⟩ := addAt_ok h hlt (d := -1) (by omega) (by omega)
  have hkeep : (result.set maxJ.toNat (result.getD maxJ.toNat 0 + -1)).getD i 0 = 0 := by
    rw [List.getD_eq_getElem?_getD, List.getElem?_set_ne hji, ← List.getD_eq_getElem?_getD, hzero]
  obtain ⟨hgive, hend⟩ := addAt_ok hafter hi (d := 1) (by rw [hkeep]; decide) (by omega)
  rw [hkeep] at hgive hend
  rw [neg_add_cancel_right] at hend
  refine ⟨_, ?_, hend, ?_, fun j hj => ?_⟩
  · rw [if_neg hpos, hscan, ok_bind, if_neg (not_lt.2 hge), htake, ok_bind, hgive]
  · rw [List.getD_eq_getElem?_getD, List.getElem?_set_self (by rw [hafter.length_eq]; exact hi)]
    decide
  · rw [List.getD_eq_getElem?_getD, List.getElem?_set]
    split
    · split
      · decide
      · rename_i hij hout
        exact absurd (hafter.length_eq.symm ▸ hi) hout
    · rw [List.getElem?_set]
      split
      · rw [if_pos (by omega), Option.getD_some]
        omega
      · rwa [← List.getD_eq_getElem?_getD]

/-- The last loop gives every node a layer. -/
theorem ensureLayers_ok (h : Allocation n total result) (htotal : (n : Int) ≤ total)
    (hmax : total ≤ 2147483647) :
    ∃ counts, (List.range n).foldlM (ensureLayer n) result = .ok counts ∧
      Allocation n total counts ∧ ∀ j < n, 1 ≤ counts.getD j 0 := by
  refine foldlM_range_total (I := fun m result =>
    Allocation n total result ∧ ∀ j < m, 1 ≤ result.getD j 0) ?_ ?_
  · exact ⟨h, fun j hj => absurd hj (Nat.not_lt_zero j)⟩
  intro i hi result ⟨hres, hdone⟩
  obtain ⟨result', hrun, hres', hself, hothers⟩ := ensureLayer_ok hres htotal hmax hi
  refine ⟨result', hrun, hres', fun j hj => ?_⟩
  rcases Nat.lt_succ_iff_lt_or_eq.1 hj with hj | rfl
  · exact hothers j (hdone j hj)
  · exact hself

/-- The second loop hands out one layer in each pass, to a node that the order names. -/
theorem handOut_ok {order : List Nat} (horder : order.Perm (List.range n)) (remaining : Nat)
    (hrem : remaining ≤ n) (h : Allocation n total result)
    (hmax : total + remaining ≤ 2147483647) :
    ∃ result', (List.range remaining).foldlM (fun result k => do
        let node ← load order k
        addAt result node 1) result = .ok result' ∧ Allocation n (total + remaining) result' := by
  refine foldlM_range_total (I := fun m result => Allocation n (total + (m : Nat)) result) ?_ ?_
  · rwa [Nat.cast_zero, add_zero]
  intro k hk result hres
  have hlen : k < order.length := by
    rw [horder.length_eq, List.length_range]
    exact hk.trans_le hrem
  have hnode : order[k] < n := List.mem_range.1 (horder.subset (List.getElem_mem hlen))
  have hnonneg := hres.getD_nonneg order[k]
  obtain ⟨hadd, hres'⟩ := addAt_ok hres hnode (d := 1) (by omega) (by omega)
  refine ⟨_, ?_, by rwa [Nat.cast_succ, ← add_assoc]⟩
  rw [load_eq (List.getElem?_eq_getElem hlen), ok_bind, hadd]

end

/-! ## The allocation -/

/-- Shares of the layers: non-negative fractions that add up to one. -/
structure Shares (fractions : List ℚ) : Prop where
  nonneg : ∀ f ∈ fractions, 0 ≤ f
  sum_eq : fractions.sum = 1

/-- The first loop: the whole parts of the shares of `total` layers leave fewer layers than there
are nodes. -/
theorem wholeParts_ok {total : Int} {raw : List ℚ} (hnonneg : ∀ r ∈ raw, 0 ≤ r)
    (hsum : raw.sum = total) (hne : raw ≠ []) (hmax : total ≤ 2147483647) :
    raw.mapM floorToInt = .ok (raw.map fun r => ⌊r⌋) ∧
      Allocation raw.length (raw.map fun r => ⌊r⌋).sum (raw.map fun r => ⌊r⌋) ∧
      (raw.map fun r => ⌊r⌋).sum ≤ total ∧
      total - (raw.map fun r => ⌊r⌋).sum < raw.length := by
  obtain ⟨hle, -, hlt⟩ := sum_floor_bounds raw
  have hlt := hlt hne
  rw [hsum] at hle hlt
  have hle : (raw.map fun r => ⌊r⌋).sum ≤ total := by exact_mod_cast hle
  have hlt : total < (raw.map fun r => ⌊r⌋).sum + raw.length := by exact_mod_cast hlt
  refine ⟨mapM_ok fun r hr => ?_, ⟨List.length_map _, fun c hc => ?_, rfl⟩, hle, by omega⟩
  · have hfloor : 0 ≤ ⌊r⌋ := Int.floor_nonneg.2 (hnonneg r hr)
    have hr : r ≤ total := hsum ▸ List.single_le_sum hnonneg r hr
    have hub : ⌊r⌋ ≤ total := Int.floor_le_iff.2 (hr.trans_lt (lt_add_one _))
    rw [floorToInt, if_pos ⟨by omega, by omega⟩]
  · obtain ⟨r, hr, rfl⟩ := List.mem_map.1 hc
    exact Int.floor_nonneg.2 (hnonneg r hr)

/-- For shares of at least as many layers as nodes, `allocate_layers_proportionally` returns one
positive count for each node, and the counts add up to the number of layers. -/
theorem allocateLayersProportionally_ok {total : Int} {fractions : List ℚ} (h : Shares fractions)
    (hn : (fractions.length : Int) ≤ total) (hmax : total ≤ 2147483647) :
    ∃ counts, allocateLayersProportionally total fractions = .ok counts ∧
      Allocation fractions.length total counts ∧
      ∀ j < fractions.length, 1 ≤ counts.getD j 0 := by
  have hne : fractions ≠ [] := by
    rintro rfl
    exact absurd h.sum_eq (by decide)
  have htotal : (0 : ℚ) ≤ total := by exact_mod_cast (Int.natCast_nonneg _).trans hn
  have hsize : sizeT total = total.toNat := sizeT_of_nonneg (by omega) (by omega)
  have hraw : fractions.map (fun frac : ℚ => (if frac < 0 then 0 else frac) * total) =
      fractions.map fun frac : ℚ => frac * total :=
    List.map_congr_left fun frac hfrac => by rw [if_neg (not_lt.2 (h.nonneg frac hfrac))]
  have hnonneg : ∀ r ∈ fractions.map fun frac : ℚ => frac * total, 0 ≤ r := by
    intro r hr
    obtain ⟨frac, hfrac, rfl⟩ := List.mem_map.1 hr
    exact mul_nonneg (h.nonneg frac hfrac) htotal
  have hsum : (fractions.map fun frac : ℚ => frac * total).sum = total := by
    rw [List.sum_map_mul_right, List.map_id', h.sum_eq, one_mul]
  obtain ⟨hfloor, halloc, hle, hlt⟩ := wholeParts_ok hnonneg hsum (by simpa using hne) hmax
  rw [List.length_map] at halloc hlt
  rw [allocateLayersProportionally, if_neg (by simpa using hne), if_neg (by omega), hraw]
  generalize fractions.map (fun frac : ℚ => frac * total) = raw at *
  generalize raw.map (fun r => ⌊r⌋) = result at *
  have hrem : ((total - result.sum).toNat : Int) = total - result.sum := Int.toNat_of_nonneg
    (by omega)
  have hperm := List.mergeSort_perm (List.range fractions.length)
    fun a b => !largerRemainder raw result b a
  obtain ⟨result', hhand, halloc'⟩ := handOut_ok hperm (total - result.sum).toNat
    (by omega) halloc (by omega)
  rw [hrem, add_sub_cancel] at halloc'
  obtain ⟨counts, hensure, hcounts⟩ := ensureLayers_ok halloc' hn hmax
  refine ⟨counts, ?_, hcounts⟩
  have hresult : 0 ≤ result.sum := List.sum_nonneg halloc.nonneg
  dsimp only
  rw [hfloor, ok_bind, foldlM_sum_ok result 0 halloc.nonneg le_rfl (by omega), ok_bind, zero_add,
    i32_ok (by omega) (by omega), ok_bind, hhand, ok_bind, hensure]

/-- The fractions of `compute_shards` are shares. -/
theorem ramFractions_shares {worldSize : Int} (hw : 1 ≤ worldSize) {rams : List Int}
    (hlen : (rams.length : Int) = worldSize) (hrams : ∀ b ∈ rams, 0 ≤ b) :
    Shares (ramFractions worldSize rams) ∧
      ((ramFractions worldSize rams).length : Int) = worldSize := by
  rw [ramFractions]
  split
  · rename_i hpos
    refine ⟨⟨fun f hf => ?_, ?_⟩, by rw [List.length_map, hlen]⟩
    · obtain ⟨b, hb, rfl⟩ := List.mem_map.1 hf
      exact div_nonneg (by exact_mod_cast hrams b hb) hpos.le
    · simp only [div_eq_mul_inv, List.sum_map_mul_right]
      exact mul_inv_cancel₀ hpos.ne'
  · have hw' : (0 : ℚ) < worldSize := by exact_mod_cast hw
    refine ⟨⟨fun f hf => ?_, ?_⟩, by rw [List.length_replicate]; omega⟩
    · rw [List.eq_of_mem_replicate hf]
      exact div_nonneg zero_le_one hw'.le
    · have hcast : ((worldSize.toNat : Nat) : ℚ) = worldSize := by
        exact_mod_cast Int.toNat_of_nonneg (by omega)
      rw [List.sum_replicate, nsmul_eq_mul, hcast, mul_one_div_cancel hw'.ne']

/-! ## The plan -/

/-- A plan covers the layers of a model: its shards are non-empty and run from `0` to `n_layers`. -/
structure Covers (nLayers : Int) (plan : List ShardSpec) : Prop where
  nonempty : ∀ s ∈ plan, s.startLayer < s.endLayer
  consecutive : Consecutive 0 nLayers (plan.map ShardSpec.range)

/-- The flags of a shard are those that its range asks for. -/
def ShardSpec.FlagsOf (nLayers : Int) (s : ShardSpec) : Prop :=
  s.isFirst = (s.startLayer == 0) ∧ s.isLast = (s.endLayer == nLayers)

/-- The flags of a plan are those of its ranks. -/
def FlagsByRank (plan : List ShardSpec) : Prop :=
  ∀ i s, plan[i]? = some s → (s.isFirst = true ↔ i = 0) ∧ (s.isLast = true ↔ i + 1 = plan.length)

section
variable {nLayers : Int} {plan : List ShardSpec}

/-- A plan that covers the layers holds each of them in exactly one shard. -/
theorem Covers.countP_eq (h : Covers nLayers plan) (k : Int) :
    plan.countP (fun s => InRange k s.range) = if 0 ≤ k ∧ k < nLayers then 1 else 0 := by
  have hcount := h.consecutive.countP_eq k
  rwa [List.countP_map] at hcount

/-- In a plan that covers the layers, flags that fit the ranges fit the ranks. -/
theorem Covers.flagsByRank (h : Covers nLayers plan) (hflags : ∀ s ∈ plan, s.FlagsOf nLayers) :
    FlagsByRank plan := by
  intro i s hs
  obtain ⟨hfirst, hlast⟩ := hflags s (List.mem_of_getElem? hs)
  have hrange : (plan.map ShardSpec.range)[i]? = some s.range := by rw [List.getElem?_map, hs]; rfl
  have hne : ∀ r ∈ plan.map ShardSpec.range, r.1 < r.2 := by
    intro r hr
    obtain ⟨s, hs, rfl⟩ := List.mem_map.1 hr
    exact h.nonempty s hs
  rw [hfirst, hlast, beq_iff_eq, beq_iff_eq]
  refine ⟨h.consecutive.fst_eq_iff hne hrange, ?_⟩
  have hsnd := h.consecutive.snd_eq_iff hne hrange
  rwa [List.length_map] at hsnd

/-- A shard may be added where a plan ends. -/
theorem Covers.concat (h : Covers nLayers plan) {s : ShardSpec} (hstart : s.startLayer = nLayers)
    (hne : s.startLayer < s.endLayer) : Covers s.endLayer (plan ++ [s]) := by
  constructor
  · intro s' hs'
    rcases List.mem_append.1 hs' with hs' | hs'
    · exact h.nonempty s' hs'
    · cases List.mem_singleton.1 hs'
      exact hne
  · rw [List.map_append]
    have hcons := h.consecutive.concat (hstart ▸ hne.le)
    rwa [← hstart] at hcons

/-- The loop of `compute_shards` after `i` passes. -/
structure PlanSoFar (nLayers : Int) (counts : List Int) (i : Nat) (st : Int × List ShardSpec) :
    Prop where
  start_eq : st.1 = (counts.take i).sum
  length_eq : st.2.length = i
  covers : Covers st.1 st.2
  flags : ∀ s ∈ st.2, s.FlagsOf nLayers
  rank : ∀ (j : Nat) (s : ShardSpec), st.2[j]? = some s → s.deviceRank = j

theorem PlanSoFar.start (nLayers : Int) (counts : List Int) :
    PlanSoFar nLayers counts 0 (0, []) :=
  ⟨rfl, rfl, ⟨nofun, rfl⟩, nofun, nofun⟩

/-- One pass adds the shard of the next rank. -/
theorem PlanSoFar.step {worldSize modelSize : Int} {rams counts : List Int} {i : Nat}
    {st st' : Int × List ShardSpec} (h : PlanSoFar nLayers counts i st) (hi : i < counts.length)
    (hcount : 1 ≤ counts.getD i 0)
    (hrun : shardStep nLayers worldSize modelSize rams counts st i = .ok st') :
    PlanSoFar nLayers counts (i + 1) st' := by
  rw [shardStep, load_getD hi 0, ok_bind] at hrun
  obtain ⟨stop, hstop, hrun⟩ := bind_eq_ok.1 hrun
  obtain ⟨rfl, -⟩ := i32_eq_ok.1 hstop
  obtain ⟨ram, -, hrun⟩ := bind_eq_ok.1 hrun
  dsimp only at hrun
  split at hrun
  · cases hrun
  cases hrun
  refine ⟨?_, by rw [List.length_append, h.length_eq]; rfl, ?_, ?_, ?_⟩
  · rw [List.take_add_one, List.sum_append, ← h.start_eq, List.getElem?_eq_getElem hi,
      List.getD_eq_getElem _ _ hi, Option.toList_some, List.sum_singleton]
  · have hne : st.1 < st.1 + counts.getD i 0 := by omega
    exact h.covers.concat (s := ⟨i, worldSize, st.1, _, nLayers, _, _⟩) rfl hne
  · intro s hs
    rcases List.mem_append.1 hs with hs | hs
    · exact h.flags s hs
    · cases List.mem_singleton.1 hs
      exact ⟨rfl, rfl⟩
  · intro j s hs
    rcases lt_or_ge j st.2.length with hj | hj
    · rw [List.getElem?_append_left hj] at hs
      exact h.rank j s hs
    · rw [List.getElem?_append_right hj] at hs
      obtain ⟨hj', rfl⟩ := List.getElem?_eq_some_iff.1 hs
      rw [List.length_singleton] at hj'
      rw [List.getElem_singleton, show i = j by rw [← h.length_eq]; omega]

/-- The shards that `compute_shards` returns cover the layers, and their flags fit their ranges. -/
theorem computeShards_covers {worldSize modelSize : Int} {rams : List Int}
    (hrams : ∀ b ∈ rams, 0 ≤ b) (hmax : nLayers ≤ 2147483647)
    (hrun : computeShards nLayers worldSize rams modelSize = .ok plan) :
    (plan.length : Int) = worldSize ∧ rams.length = plan.length ∧ Covers nLayers plan ∧
      (∀ s ∈ plan, s.FlagsOf nLayers) ∧
      ∀ (i : Nat) (s : ShardSpec), plan[i]? = some s → s.deviceRank = i := by
  rw [computeShards] at hrun
  split at hrun
  · cases hrun
  split at hrun
  · cases hrun
  split at hrun
  · cases hrun
  rename_i hpos hle hsize
  have hworld := sizeT_of_nonneg (n := worldSize) (by omega) (by omega)
  have hlen : (rams.length : Int) = worldSize := by omega
  obtain ⟨hshares, hfrac⟩ := ramFractions_shares (by omega) hlen hrams
  obtain ⟨counts, halloc, hcounts, hone⟩ := allocateLayersProportionally_ok hshares
    (by omega : ((ramFractions worldSize rams).length : Int) ≤ nLayers) hmax
  rw [show (ramFractions worldSize rams).length = worldSize.toNat by omega] at hcounts hone
  rw [halloc, ok_bind] at hrun
  obtain ⟨⟨stop, shards⟩, hloop, hret⟩ := bind_eq_ok.1 hrun
  cases hret
  have hend : PlanSoFar nLayers counts worldSize.toNat (stop, plan) :=
    foldlM_range_partial (PlanSoFar.start nLayers counts)
      (fun i hi st st' hst hstep =>
        hst.step (hcounts.length_eq.symm ▸ hi) (hone i hi) hstep) hloop
  have hstop : stop = nLayers := by
    rw [show stop = _ from hend.start_eq, List.take_of_length_le hcounts.length_eq.le,
      hcounts.sum_eq]
  have hplan : plan.length = worldSize.toNat := hend.length_eq
  exact ⟨by omega, by omega, hstop ▸ hend.covers, hend.flags, hend.rank⟩

end

end Terllama
