import Terllama.Core.KVCache

/-!
# The rows of the KV cache

A cache after any appends, accepted or not, in any order of the positions: the row of a position
holds what was last stored there, and `get_k` and `get_v` copy the rows below the length of the
layer (`kvCache_rows`). The rows of a layer are equal pieces of one flat buffer, so that a store is
the update of one piece (`writeAt_flatMap`).
-/

namespace Terllama

/-! ## Equal pieces -/

section
variable {α : Type} {f : Nat → List α} {n s : Nat}

/-- Equal pieces before, at and behind the `i`-th one. -/
theorem flatMap_range_at (f : Nat → List α) {i : Nat} (hi : i < n) :
    (List.range n).flatMap f = (List.range i).flatMap f ++ f i ++
      (List.range (n - (i + 1))).flatMap fun j => f (i + 1 + j) := by
  have hn : n = i + 1 + (n - (i + 1)) := by omega
  conv_lhs => rw [hn, List.range_add, List.range_succ]
  rw [List.flatMap_append, List.flatMap_append, List.flatMap_singleton, List.flatMap_map]

/-- A store of a piece. -/
theorem writeAt_flatMap (hlen : ∀ i < n, (f i).length = s) {i : Nat} (hi : i < n) {row : List α}
    (hrow : row.length = s) : writeAt ((List.range n).flatMap f) (i * s) row =
      .ok ((List.range n).flatMap (Function.update f i row)) := by
  have hbefore : (List.range i).flatMap (Function.update f i row) = (List.range i).flatMap f := by
    refine List.flatMap_congr fun j hj => ?_
    rw [Function.update_of_ne (List.mem_range.1 hj).ne]
  have hbehind : (List.range (n - (i + 1))).flatMap
      (fun j => Function.update f i row (i + 1 + j)) =
        (List.range (n - (i + 1))).flatMap fun j => f (i + 1 + j) := by
    refine List.flatMap_congr fun j _ => ?_
    rw [Function.update_of_ne (by omega)]
  have hpre : ((List.range i).flatMap f).length = i * s :=
    length_flatMap_range fun j hj => hlen j (hj.trans hi)
  rw [flatMap_range_at f hi, flatMap_range_at _ hi, hbefore, hbehind, Function.update_self]
  exact fills_writeAt (i * s) row _ _ _ hpre (by rw [hlen i hi, hrow])

/-- The first pieces. -/
theorem take_flatMap_range (hlen : ∀ i < n, (f i).length = s) {m : Nat} (hm : m ≤ n) :
    ((List.range n).flatMap f).take (m * s) = (List.range m).flatMap f := by
  have hpre : ((List.range m).flatMap f).length = m * s :=
    length_flatMap_range fun j hj => hlen j (hj.trans_le hm)
  obtain ⟨r, rfl⟩ := Nat.exists_eq_add_of_le hm
  rw [List.range_add, List.flatMap_append, ← hpre, List.take_left]

theorem ptrRange_natCast {buf : List α} (h : n ≤ buf.length) :
    ptrRange buf (n : Int) = .ok (buf.take n) := by
  rw [ptrRange, if_pos (Int.natCast_nonneg n), Int.toNat_natCast, slice_ok (by omega),
    List.drop_zero]

theorem flatMap_range_replicate (m n : Nat) (a : α) :
    ((List.range m).flatMap fun _ => List.replicate n a) = List.replicate (m * n) a := by
  induction m with
  | zero => rw [Nat.zero_mul]; rfl
  | succ m ih =>
    rw [List.range_succ, List.flatMap_append, ih, List.flatMap_singleton,
      List.replicate_append_replicate, Nat.succ_mul]

theorem set_map_range {β : Type} (g : Nat → β) (n i : Nat) (b : β) :
    ((List.range n).map g).set i b = (List.range n).map (Function.update g i b) := by
  refine List.ext_getElem (by simp) fun j hj _ => ?_
  rw [List.getElem_set, List.getElem_map, List.getElem_map, List.getElem_range]
  split
  · next h => rw [h, Function.update_self]
  · next h => rw [Function.update_of_ne (Ne.symm h)]

end

/-! ## Appends -/

/-- A call of `append`. -/
structure KVAppend (K : Type) where
  layer : Nat
  k : List K
  v : List K
  seqPos : Int
  deriving DecidableEq, Repr

section
variable {K : Type}

/-- `append` with the arguments of a call. -/
def KVAppend.run (c : KVCache K) (op : KVAppend K) : Exec (KVCache K) :=
  c.append op.layer op.k op.v op.seqPos

/-- The layer is one of the cache, and the pointers are to whole rows. -/
structure KVAppend.Fits (op : KVAppend K) (layers n : Int) : Prop where
  layer : (op.layer : Int) < layers
  key : n ≤ op.k.length
  value : n ≤ op.v.length

/-- The numbers that `get_k` copies. -/
def KVCache.copyRows (c : KVCache K) (bufs : List (List K)) (layer : Nat) (out : List K) :
    Exec (List K) := do
  let len ← load c.seqLens layer
  let n ← i32 (c.nKvHeads * c.headDim)
  let buf ← load bufs layer
  let count ← i32 (len * n)
  let rows ← ptrRange buf count
  writeAt out 0 rows

/-- `KVCache::get_k`: what is in `out` after it. -/
def KVCache.getK (c : KVCache K) (layer : Nat) (out : List K) : Exec (List K) :=
  c.copyRows c.kCache layer out

/-- `KVCache::get_v`. -/
def KVCache.getV (c : KVCache K) (layer : Nat) (out : List K) : Exec (List K) :=
  c.copyRows c.vCache layer out

/-- The row of a position of a layer, of the keys or of the values. -/
def KVCache.rowAt (c : KVCache K) (bufs : List (List K)) (layer p : Nat) : Exec (List K) := do
  let n ← i32 (c.nKvHeads * c.headDim)
  let buf ← load bufs layer
  slice buf (p * n.toNat) n.toNat

/-! ## The last append -/

/-- One more than the last position that was accepted. -/
def lastLength (maxSeq : Int) : List (KVAppend K) → Nat → Int
  | [], _ => 0
  | op :: ops, layer =>
    if op.layer = layer ∧ 0 ≤ op.seqPos ∧ op.seqPos < maxSeq then op.seqPos + 1
    else lastLength maxSeq ops layer

/-- The length of a layer is one of its positions, or the number of them. -/
theorem lastLength_range (ops : List (KVAppend K)) (m layer : Nat) :
    0 ≤ lastLength m ops layer ∧ lastLength m ops layer ≤ m := by
  induction ops with
  | nil => exact ⟨le_rfl, Int.natCast_nonneg m⟩
  | cons op ops ih =>
    rw [lastLength]
    split
    · next h => omega
    · exact ih

end

section
variable {K : Type} [Zero K]

/-- What was last stored at a position, the last call first; zeros where nothing was. -/
def lastRow (side : KVAppend K → List K) (n : Nat) :
    List (KVAppend K) → Nat → Nat → List K
  | [], _, _ => List.replicate n 0
  | op :: ops, layer, p =>
    if op.layer = layer ∧ op.seqPos = p then (side op).take n else lastRow side n ops layer p

/-- The rows of a layer, in one buffer. -/
def layerRows (side : KVAppend K → List K) (m n : Nat) (ops : List (KVAppend K)) (layer : Nat) :
    List K := (List.range m).flatMap (lastRow side n ops layer)

/-- The cache after these appends, the last first. -/
structure KVCache.Holds (c : KVCache K) (layers m n : Nat) (ops : List (KVAppend K)) : Prop where
  maxSeq_eq : c.maxSeq = m
  row_eq : c.nKvHeads * c.headDim = n
  keys : c.kCache = (List.range layers).map (layerRows KVAppend.k m n ops)
  values : c.vCache = (List.range layers).map (layerRows KVAppend.v m n ops)
  lens : c.seqLens = (List.range layers).map (lastLength m ops)

variable {layers m n : Nat} {ops : List (KVAppend K)} {side : KVAppend K → List K}

theorem lastRow_length (hops : ∀ op ∈ ops, n ≤ (side op).length) (layer p : Nat) :
    (lastRow side n ops layer p).length = n := by
  induction ops with
  | nil => exact List.length_replicate
  | cons op ops ih =>
    rw [List.forall_mem_cons] at hops
    rw [lastRow]
    split
    · rw [List.length_take, Nat.min_eq_left hops.1]
    · exact ih hops.2

/-- An append outside the range stores no row. -/
theorem layerRows_rejected {op : KVAppend K} (hpos : ¬ (0 ≤ op.seqPos ∧ op.seqPos < m)) :
    layerRows side m n (op :: ops) = layerRows side m n ops := by
  funext layer
  refine List.flatMap_congr fun p hp => ?_
  have hp := List.mem_range.1 hp
  rw [lastRow, if_neg]
  rintro ⟨-, hseq⟩
  exact hpos (by omega)

/-- An append stores the row of its position in its layer. -/
theorem layerRows_accepted {op : KVAppend K} {p : Nat} (hpos : op.seqPos = p) :
    layerRows side m n (op :: ops) = Function.update (layerRows side m n ops) op.layer
      ((List.range m).flatMap
        (Function.update (lastRow side n ops op.layer) p ((side op).take n))) := by
  funext layer
  by_cases hlayer : layer = op.layer
  · subst hlayer
    rw [Function.update_self]
    refine List.flatMap_congr fun q _ => ?_
    rw [lastRow]
    by_cases hq : q = p
    · rw [if_pos ⟨rfl, by rw [hpos, hq]⟩, hq, Function.update_self]
    · rw [if_neg fun h => hq (by have := h.2; omega), Function.update_of_ne hq]
  · rw [Function.update_of_ne hlayer]
    refine List.flatMap_congr fun q _ => ?_
    rw [lastRow, if_neg fun h => hlayer h.1.symm]

/-- The store of a row. -/
theorem storeRow_layerRows (side : KVAppend K → List K)
    (hops : ∀ op ∈ ops, n ≤ (side op).length) (hsize : m * n ≤ 2147483647)
    {op : KVAppend K} (hlayer : op.layer < layers) (hop : n ≤ (side op).length) {p : Nat}
    (hpos : op.seqPos = p) (hp : p < m) :
    storeRow ((List.range layers).map (layerRows side m n ops)) op.layer ((side op).take n) n
        op.seqPos =
      .ok ((List.range layers).map (layerRows side m n (op :: ops))) := by
  have hrow : ((side op).take n).length = n := by rw [List.length_take, Nat.min_eq_left hop]
  have hoff : p * n ≤ 2147483647 := (Nat.mul_le_mul_right n hp.le).trans hsize
  have hload : load ((List.range layers).map (layerRows side m n ops)) op.layer =
      .ok (layerRows side m n ops op.layer) := by
    refine load_eq ?_
    rw [List.getElem?_map, List.getElem?_range hlayer, Option.map_some]
  have hwrite := writeAt_flatMap (fun q (_ : q < m) => lastRow_length hops op.layer q) hp hrow
  have hi32 : i32 (op.seqPos * n) = .ok ((p * n : Nat) : Int) := by
    rw [hpos, ← Int.natCast_mul]
    exact i32_ok (by omega) (by exact_mod_cast hoff)
  rw [storeRow, hi32, ok_bind, hload, ok_bind, Int.toNat_natCast]
  change (do
    let buf ← writeAt ((List.range m).flatMap (lastRow side n ops op.layer)) (p * n)
      ((side op).take n)
    return ((List.range layers).map (layerRows side m n ops)).set op.layer buf) = _
  rw [hwrite, ok_bind, set_map_range, ← layerRows_accepted hpos]
  rfl

/-- An append outside the range changes nothing. -/
theorem KVCache.Holds.append_rejected {c : KVCache K} (h : c.Holds layers m n ops)
    (hn : n ≤ 2147483647) (op : KVAppend K) (hpos : ¬ (0 ≤ op.seqPos ∧ op.seqPos < m)) :
    op.run c = .ok c := by
  have hi32 : i32 (c.nKvHeads * c.headDim) = .ok (n : Int) := by
    rw [h.row_eq]
    exact i32_ok (by omega) (by exact_mod_cast hn)
  have htakes : KVCache.takes c.maxSeq op.seqPos = false := by
    rw [h.maxSeq_eq, KVCache.takes, Bool.not_eq_false', Bool.or_eq_true, decide_eq_true_iff,
      decide_eq_true_iff]
    omega
  rw [KVAppend.run, KVCache.append, hi32, ok_bind, htakes]
  rfl

/-- One append. -/
theorem KVCache.Holds.append {c : KVCache K} (h : c.Holds layers m n ops)
    (hsize : m * n ≤ 2147483647) (hn : n ≤ 2147483647)
    (hops : ∀ op ∈ ops, KVAppend.Fits op layers n) {op : KVAppend K} (hop : op.Fits layers n) :
    ∃ c', op.run c = .ok c' ∧ c'.Holds layers m n (op :: ops) := by
  by_cases hpos : 0 ≤ op.seqPos ∧ op.seqPos < m
  · obtain ⟨p, hp⟩ := Int.eq_ofNat_of_zero_le hpos.1
    have hlt : p < m := by omega
    have hlayer : op.layer < layers := by exact_mod_cast hop.layer
    have hkey : n ≤ op.k.length := by exact_mod_cast hop.key
    have hvalue : n ≤ op.v.length := by exact_mod_cast hop.value
    have hi32 : i32 (c.nKvHeads * c.headDim) = .ok (n : Int) := by
      rw [h.row_eq]
      exact i32_ok (by omega) (by exact_mod_cast hn)
    have htakes : KVCache.takes c.maxSeq op.seqPos = true := by
      rw [h.maxSeq_eq, KVCache.takes, Bool.not_eq_true', Bool.or_eq_false_iff,
        decide_eq_false_iff_not, decide_eq_false_iff_not]
      omega
    have hkeys := storeRow_layerRows KVAppend.k (fun op hop => by
      exact_mod_cast (hops op hop).key) hsize hlayer hkey hp hlt
    have hvalues := storeRow_layerRows KVAppend.v (fun op hop => by
      exact_mod_cast (hops op hop).value) hsize hlayer hvalue hp hlt
    have hlens : load ((List.range layers).map (lastLength m ops)) op.layer =
        .ok (lastLength m ops op.layer) := by
      refine load_eq ?_
      rw [List.getElem?_map, List.getElem?_range hlayer, Option.map_some]
    refine ⟨{ c with
      kCache := (List.range layers).map (layerRows KVAppend.k m n (op :: ops))
      vCache := (List.range layers).map (layerRows KVAppend.v m n (op :: ops))
      seqLens := c.seqLens.set op.layer (op.seqPos + 1) }, ?_, ?_⟩
    · rw [KVAppend.run, KVCache.append, hi32, ok_bind, htakes, Bool.not_true,
        if_neg Bool.false_ne_true, ptrRange_natCast hkey, ok_bind, h.keys, hkeys, ok_bind,
        ptrRange_natCast hvalue, ok_bind, h.values, hvalues, ok_bind, h.lens, hlens, ok_bind]
      rfl
    · refine ⟨h.maxSeq_eq, h.row_eq, rfl, rfl, ?_⟩
      change c.seqLens.set op.layer (op.seqPos + 1) = _
      rw [h.lens, set_map_range]
      refine List.map_congr_left fun layer _ => ?_
      rw [lastLength]
      by_cases heq : layer = op.layer
      · rw [heq, Function.update_self, if_pos ⟨rfl, hpos⟩]
      · rw [Function.update_of_ne heq, if_neg fun h => heq h.1.symm]
  · refine ⟨c, h.append_rejected hn op hpos, h.maxSeq_eq, h.row_eq, ?_, ?_, ?_⟩
    · rw [layerRows_rejected hpos, h.keys]
    · rw [layerRows_rejected hpos, h.values]
    · rw [h.lens]
      refine List.map_congr_left fun layer _ => ?_
      rw [lastLength, if_neg fun h => hpos h.2]

/-- Any appends. -/
theorem KVCache.Holds.run {c : KVCache K} (h : c.Holds layers m n ops)
    (hsize : m * n ≤ 2147483647) (hn : n ≤ 2147483647)
    (hops : ∀ op ∈ ops, KVAppend.Fits op layers n) {more : List (KVAppend K)}
    (hmore : ∀ op ∈ more, KVAppend.Fits op layers n) :
    ∃ c', more.foldlM KVAppend.run c = .ok c' ∧ c'.Holds layers m n (more.reverse ++ ops) := by
  induction more generalizing c ops with
  | nil => exact ⟨c, rfl, h⟩
  | cons op more ih =>
    rw [List.forall_mem_cons] at hmore
    obtain ⟨c', hc', h'⟩ := h.append hsize hn hops hmore.1
    obtain ⟨c'', hc'', h''⟩ := ih h' (List.forall_mem_cons.2 ⟨hmore.1, hops⟩) hmore.2
    refine ⟨c'', ?_, ?_⟩
    · rw [List.foldlM_cons, hc', ok_bind, hc'']
    · rwa [List.reverse_cons, List.append_assoc]

/-! ## Reading -/

/-- A row. -/
theorem KVCache.Holds.rowAt {c : KVCache K} (h : c.Holds layers m n ops) (hn : n ≤ 2147483647)
    {bufs : List (List K)} (hbufs : bufs = (List.range layers).map (layerRows side m n ops))
    (hops : ∀ op ∈ ops, n ≤ (side op).length) {layer p : Nat} (hlayer : layer < layers)
    (hp : p < m) : c.rowAt bufs layer p = .ok (lastRow side n ops layer p) := by
  have hi32 : i32 (c.nKvHeads * c.headDim) = .ok (n : Int) := by
    rw [h.row_eq]
    exact i32_ok (by omega) (by exact_mod_cast hn)
  have hload : load bufs layer = .ok (layerRows side m n ops layer) := by
    refine load_eq ?_
    rw [hbufs, List.getElem?_map, List.getElem?_range hlayer, Option.map_some]
  have hslice : slice (layerRows side m n ops layer) (p * n + 0) n =
      slice (lastRow side n ops layer p) 0 n := slice_flatMap
    (fun q (_ : q < m) => lastRow_length hops layer q) hp (by omega)
  have hall := slice_all (lastRow side n ops layer p)
  rw [lastRow_length hops] at hall
  rw [KVCache.rowAt, hi32, ok_bind, hload, ok_bind, Int.toNat_natCast]
  exact hslice.trans hall

/-- The rows that are copied. -/
theorem KVCache.Holds.copyRows {c : KVCache K} (h : c.Holds layers m n ops)
    (hsize : m * n ≤ 2147483647) (hn : n ≤ 2147483647)
    {bufs : List (List K)} (hbufs : bufs = (List.range layers).map (layerRows side m n ops))
    (hops : ∀ op ∈ ops, n ≤ (side op).length) {layer : Nat} (hlayer : layer < layers)
    {out : List K} (hout : (lastLength m ops layer).toNat * n ≤ out.length) :
    c.copyRows bufs layer out =
      .ok ((List.range (lastLength m ops layer).toNat).flatMap (lastRow side n ops layer) ++
        out.drop ((lastLength m ops layer).toNat * n)) := by
  obtain ⟨hlo, hhi⟩ := lastLength_range ops m layer
  obtain ⟨len, hlen⟩ := Int.eq_ofNat_of_zero_le hlo
  have hle : len ≤ m := by omega
  have hcount : len * n ≤ 2147483647 := (Nat.mul_le_mul_right n hle).trans hsize
  have hi32 : i32 (c.nKvHeads * c.headDim) = .ok (n : Int) := by
    rw [h.row_eq]
    exact i32_ok (by omega) (by exact_mod_cast hn)
  have hi32' : i32 (((len : Nat) : Int) * (n : Int)) = .ok ((len * n : Nat) : Int) := by
    rw [← Int.natCast_mul]
    exact i32_ok (by omega) (by exact_mod_cast hcount)
  have hlens : load c.seqLens layer = .ok ((len : Nat) : Int) := by
    refine load_eq ?_
    rw [h.lens, List.getElem?_map, List.getElem?_range hlayer, Option.map_some, hlen]
  have hload : load bufs layer = .ok (layerRows side m n ops layer) := by
    refine load_eq ?_
    rw [hbufs, List.getElem?_map, List.getElem?_range hlayer, Option.map_some]
  have hrows : ∀ q < m, (lastRow side n ops layer q).length = n :=
    fun q _ => lastRow_length hops layer q
  have hbuf : len * n ≤ (layerRows side m n ops layer).length := by
    rw [layerRows, length_flatMap_range hrows]
    exact Nat.mul_le_mul_right n hle
  have htake : (layerRows side m n ops layer).take (len * n) =
      (List.range len).flatMap (lastRow side n ops layer) := take_flatMap_range hrows hle
  have hcopied : ((List.range len).flatMap (lastRow side n ops layer)).length = len * n :=
    length_flatMap_range fun q hq => hrows q (hq.trans_le hle)
  rw [hlen] at hout ⊢
  change len * n ≤ out.length at hout
  change _ = Except.ok ((List.range len).flatMap (lastRow side n ops layer) ++ out.drop (len * n))
  rw [KVCache.copyRows, hlens, ok_bind, hi32, ok_bind, hload, ok_bind, hi32', ok_bind,
    ptrRange_natCast hbuf, ok_bind, htake, writeAt, if_pos (by omega), hcopied, List.take_zero,
    List.nil_append, Nat.zero_add]

/-! ## A new cache -/

/-- A cache whose constructor returns has rows of a size that an `int` holds, and zeros in them. -/
theorem KVCache.holds_create {maxSeq nLayers nKv hd hs : Int} {c : KVCache K}
    (hcreate : KVCache.create maxSeq nLayers nKv hd hs = .ok c) (hmax : 0 < maxSeq)
    (hlayers : 0 < nLayers) : ∃ n : Nat, nKv * hd = n ∧ maxSeq.toNat * n ≤ 2147483647 ∧
      c.Holds nLayers.toNat maxSeq.toNat n [] := by
  unfold KVCache.create at hcreate
  rw [if_neg (by omega)] at hcreate
  obtain ⟨bufs, hbufs, hcreate⟩ := Terllama.bind_eq_ok.1 hcreate
  cases hcreate
  have hfirst : 0 ∈ List.range nLayers.toNat := List.mem_range.2 (by omega)
  obtain ⟨buf, -, hbuf⟩ := exists_mem_of_forall₂ (forall₂_of_mapM_ok hbufs) hfirst
  obtain ⟨size, hsize, -⟩ := Terllama.bind_eq_ok.1 hbuf
  obtain ⟨-, hint, hproduct⟩ := kvBufferSize_ok hsize
  obtain ⟨m, rfl⟩ := Int.eq_ofNat_of_zero_le hmax.le
  have hrow : 0 ≤ nKv * hd := by
    by_contra hneg
    have hlt := Int.mul_neg_of_pos_of_neg hmax (not_le.1 hneg)
    rw [← Int.mul_assoc] at hlt
    omega
  obtain ⟨n, hn⟩ := Int.eq_ofNat_of_zero_le hrow
  have hmn : size = m * n := by
    rw [Int.mul_assoc, hn] at hproduct
    exact_mod_cast hproduct
  have hzeros : bufs = (List.range nLayers.toNat).map (layerRows KVAppend.k m n []) := by
    have hmap := mapM_ok (l := List.range nLayers.toNat) (g := fun _ => List.replicate size (0 : K))
      (f := fun _ => do
        let n ← kvBufferSize m nKv hd
        return List.replicate n (0 : K)) fun _ _ => by rw [hsize]; rfl
    rw [hmap] at hbufs
    cases hbufs
    refine List.map_congr_left fun layer _ => ?_
    rw [hmn, ← flatMap_range_replicate]
    rfl
  refine ⟨n, hn, ?_, rfl, hn, hzeros, hzeros, ?_⟩
  · rw [Int.toNat_natCast, ← hmn]
    have hle := hint.2
    omega
  · change List.replicate _ _ = _
    refine (List.eq_replicate_iff.2 ⟨by rw [List.length_map, List.length_range], ?_⟩).symm
    intro b hb
    obtain ⟨layer, -, rfl⟩ := List.mem_map.1 hb
    rfl

end

section
variable {K : Type} [Zero K] {maxSeq nLayers nKv hd hs : Int} {c₀ : KVCache K}

/-- After any appends to a new cache, an append outside the range changes nothing, the row of a
position holds what was last stored there, the length of a layer is one more than the last position
that was accepted, and `get_k` and `get_v` copy that many rows, in order. -/
theorem kvCache_rows (hcreate : KVCache.create maxSeq nLayers nKv hd hs = .ok c₀)
    (hmax : 0 < maxSeq) (ops : List (KVAppend K))
    (hops : ∀ op ∈ ops, KVAppend.Fits op nLayers (nKv * hd)) :
    ∃ c, ops.foldlM KVAppend.run c₀ = .ok c ∧ ∀ layer : Nat, (layer : Int) < nLayers →
      (∀ k v pos, ¬ (0 ≤ pos ∧ pos < maxSeq) → c.append layer k v pos = .ok c) ∧
      (∀ p : Nat, (p : Int) < maxSeq →
        c.rowAt c.kCache layer p =
          .ok (lastRow KVAppend.k (nKv * hd).toNat ops.reverse layer p) ∧
        c.rowAt c.vCache layer p =
          .ok (lastRow KVAppend.v (nKv * hd).toNat ops.reverse layer p)) ∧
      c.length layer = .ok (lastLength maxSeq ops.reverse layer) ∧
      ∀ out : List K,
        (lastLength maxSeq ops.reverse layer).toNat * (nKv * hd).toNat ≤ out.length →
        c.getK layer out =
          .ok ((List.range (lastLength maxSeq ops.reverse layer).toNat).flatMap
              (lastRow KVAppend.k (nKv * hd).toNat ops.reverse layer) ++
            out.drop ((lastLength maxSeq ops.reverse layer).toNat * (nKv * hd).toNat)) ∧
        c.getV layer out =
          .ok ((List.range (lastLength maxSeq ops.reverse layer).toNat).flatMap
              (lastRow KVAppend.v (nKv * hd).toNat ops.reverse layer) ++
            out.drop ((lastLength maxSeq ops.reverse layer).toNat * (nKv * hd).toNat)) := by
  rcases lt_or_ge 0 nLayers with hlayers | hnone
  · obtain ⟨n, hn, hsize, hholds⟩ := KVCache.holds_create hcreate hmax hlayers
    obtain ⟨m, rfl⟩ := Int.eq_ofNat_of_zero_le hmax.le
    obtain ⟨layers, rfl⟩ := Int.eq_ofNat_of_zero_le hlayers.le
    rw [Int.toNat_natCast] at hsize
    rw [Int.toNat_natCast, Int.toNat_natCast] at hholds
    rw [hn] at hops ⊢
    have hrow : n ≤ 2147483647 := by
      have hpos : 0 < m := by exact_mod_cast hmax
      exact (Nat.le_mul_of_pos_left n hpos).trans hsize
    obtain ⟨c, hrun, hc⟩ := hholds.run hsize hrow (fun _ hop => absurd hop List.not_mem_nil) hops
    rw [List.append_nil] at hc
    have hkey : ∀ op ∈ ops.reverse, n ≤ op.k.length := fun op hop => by
      exact_mod_cast (hops op (List.mem_reverse.1 hop)).key
    have hvalue : ∀ op ∈ ops.reverse, n ≤ op.v.length := fun op hop => by
      exact_mod_cast (hops op (List.mem_reverse.1 hop)).value
    refine ⟨c, hrun, fun layer hlayer => ?_⟩
    have hlayer : layer < layers := by exact_mod_cast hlayer
    rw [Int.toNat_natCast]
    refine ⟨fun k v pos hpos => ?_, fun p hp => ?_, ?_, fun out hout => ?_⟩
    · exact hc.append_rejected hrow ⟨layer, k, v, pos⟩ hpos
    · have hp : p < m := by exact_mod_cast hp
      exact ⟨hc.rowAt hrow hc.keys hkey hlayer hp, hc.rowAt hrow hc.values hvalue hlayer hp⟩
    · refine load_eq ?_
      rw [hc.lens, List.getElem?_map, List.getElem?_range hlayer, Option.map_some]
    · exact ⟨hc.copyRows hsize hrow hc.keys hkey hlayer hout,
        hc.copyRows hsize hrow hc.values hvalue hlayer hout⟩
  · cases ops with
    | nil =>
      refine ⟨c₀, rfl, fun layer hlayer => ?_⟩
      omega
    | cons op ops =>
      have hlayer := (hops op List.mem_cons_self).layer
      omega

end

/-- A cache of two positions, of which the last is stored, with an append that is refused. -/
theorem kvCache_rows_two :
    ∃ c, [KVAppend.mk 0 [5] [6] 1, KVAppend.mk 0 [7] [8] 2].foldlM KVAppend.run
        (KVCache.mk 2 1 1 1 1 [[0, 0]] [[0, 0]] [(0 : Int)] : KVCache Int) = .ok c ∧
      c.rowAt c.kCache 0 1 = .ok [5] ∧ c.length 0 = .ok 2 ∧ c.getV 0 [9, 9, 9] = .ok [0, 6, 9] := by
  have hops : ∀ op ∈ [KVAppend.mk 0 [5] [6] 1, KVAppend.mk 0 [(7 : Int)] [8] 2],
      KVAppend.Fits op 1 (1 * 1) := by
    intro op hop
    rcases List.mem_cons.1 hop with rfl | hop
    · exact ⟨by decide, by decide, by decide⟩
    · rw [List.mem_singleton.1 hop]
      exact ⟨by decide, by decide, by decide⟩
  obtain ⟨c, hrun, hc⟩ := kvCache_rows (K := Int)
    (show KVCache.create 2 1 1 1 1 = .ok (KVCache.mk 2 1 1 1 1 [[0, 0]] [[0, 0]] [0]) by rfl)
    (by decide) _ hops
  obtain ⟨-, hrows, hlength, hcopies⟩ := hc 0 (by decide)
  refine ⟨c, hrun, (hrows 1 (by decide)).1, hlength, ?_⟩
  exact (hcopies [9, 9, 9] (by decide)).2

end Terllama
