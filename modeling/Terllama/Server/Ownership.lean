import Terllama.Base.Heap
import Terllama.Kernel.Dispatch

/-!
# Who owns the block-kernel cache

The row pointers of a layer's cache (`term_block_data`, `term_block_scales`) point into the flat
buffers of the same layer (`term_contig_data`, `term_contig_scales`). Here a pointer is the identity
of a buffer on a heap and an offset in it, a layer owns the buffers of its flat vectors, and the
program is a sequence of the operations on vectors of layers that `init_server`, `get_model_snapshot`
and the unload of the watchdog are made of (`ModelStep`).

`LayerData` has the member-wise copy of an implicit copy constructor: it copies the flat vectors into
new buffers and the row pointers as they are. So a move keeps the pointers of a layer inside its own
buffers, and a copy leaves those of the new layer in the buffers of the old one, which
`init_server` frees. `runs_sound_iff` says that the runs that keep every cache usable are exactly
those that copy no layer with a built cache and at least one row.
-/

namespace Terllama

/-! ## Layers on the heap -/

/-- A buffer of the cache: packed codes or scales. -/
inductive CacheBuffer where
  | codes (bs : Bytes)
  | scales (ws : List F32)
  deriving DecidableEq, Repr, Inhabited

/-- A row pointer. -/
structure HeapPtr where
  buf : Nat
  off : Nat
  deriving DecidableEq, Repr, Inhabited

/-- A `LayerData` in memory: the identities of the buffers of `term_contig_data` and
`term_contig_scales`, the row pointers, and every other field. -/
structure HeapLayer where
  fields : LayerData
  contigData : List Nat
  contigScales : List Nat
  blockData : List (List HeapPtr)
  blockScales : List (List HeapPtr)
  deriving DecidableEq, Repr, Inhabited

/-- The buffers that a layer owns. -/
def HeapLayer.owned (L : HeapLayer) : List Nat := L.contigData ++ L.contigScales

/-- The heap of the program. -/
abbrev CacheHeap := Heap CacheBuffer

/-- The fields of a layer outside the cache vectors. -/
def LayerData.withoutCache (ld : LayerData) : LayerData :=
  { ld with termContigData := [], termContigScales := [], termBlockData := [], termBlockScales := [] }

/-- A pointer into the buffer of a term of the same layer. -/
def RowPtr.at (ids : List Nat) (p : RowPtr) : HeapPtr := ⟨ids.getD p.term 0, p.off⟩

/-- A layer that a loader built. -/
def installLayer (ld : LayerData) (h : CacheHeap) : HeapLayer × CacheHeap :=
  let (contigData, h) := h.allocs (ld.termContigData.map CacheBuffer.codes)
  let (contigScales, h) := h.allocs (ld.termContigScales.map CacheBuffer.scales)
  ({ fields := ld.withoutCache, contigData, contigScales
     blockData := ld.termBlockData.map fun rows => rows.map (RowPtr.at contigData)
     blockScales := ld.termBlockScales.map fun rows => rows.map (RowPtr.at contigScales) }, h)

/-- The contents of owned buffers, as a vector copy reads them. -/
def contentsOf (h : CacheHeap) (ids : List Nat) : List CacheBuffer :=
  ids.map fun id => (h.read id).getD default

/-- The member-wise copy of a layer. -/
def copyLayer (L : HeapLayer) (h : CacheHeap) : HeapLayer × CacheHeap :=
  let (contigData, h') := h.allocs (contentsOf h L.contigData)
  let (contigScales, h'') := h'.allocs (contentsOf h L.contigScales)
  ({ L with contigData, contigScales }, h'')

/-- An operation on every layer of a vector, in order. -/
def mapLayers {α : Type} (f : α → CacheHeap → HeapLayer × CacheHeap) :
    List α → CacheHeap → List HeapLayer × CacheHeap
  | [], h => ([], h)
  | a :: as, h =>
    let (L, h) := f a h
    let (Ls, h) := mapLayers f as h
    (L :: Ls, h)

/-! ## The program -/

/-- The vectors of layers of the program, by the order in which they came into scope; the first one
is `g_model.layers`. -/
structure World where
  heap : CacheHeap
  vecs : List (List HeapLayer)
  deriving DecidableEq, Repr

/-- The program before the first load. -/
def World.start : World := ⟨⟨[]⟩, [[]]⟩

/-- An operation on vectors of layers. -/
inductive ModelStep where
  /-- A new empty vector. -/
  | new
  /-- A new vector with the layers that `load_model_from` returned. -/
  | load (layers : List LayerData)
  /-- Copy assignment. A vector that is assigned to is taken to free its buffers, also where the
  library would use them again. -/
  | copy (src dst : Nat)
  /-- Move assignment. -/
  | move (src dst : Nat)
  /-- The end of a vector, or `clear` and `shrink_to_fit`. -/
  | destroy (i : Nat)
  deriving DecidableEq, Repr

/-- The buffers that the layers of a vector own. -/
def ownedBy (v : List HeapLayer) : List Nat := v.flatMap HeapLayer.owned

/-- The world in which vector `i` has given up its layers. -/
def World.clear (w : World) (i : Nat) : World :=
  ⟨w.heap.free (ownedBy (w.vecs.getD i [])), w.vecs.set i []⟩

/-- One operation; `none` where a vector that it names does not exist. -/
def World.step (w : World) : ModelStep → Option World
  | .new => some ⟨w.heap, w.vecs ++ [[]]⟩
  | .load layers =>
    let (v, h) := mapLayers installLayer layers w.heap
    some ⟨h, w.vecs ++ [v]⟩
  | .copy src dst =>
    if src < w.vecs.length ∧ dst < w.vecs.length ∧ src ≠ dst then
      let w := w.clear dst
      let (v, h) := mapLayers copyLayer (w.vecs.getD src []) w.heap
      some ⟨h, w.vecs.set dst v⟩
    else none
  | .move src dst =>
    if src < w.vecs.length ∧ dst < w.vecs.length ∧ src ≠ dst then
      let w := w.clear dst
      some ⟨w.heap, (w.vecs.set dst (w.vecs.getD src [])).set src []⟩
    else none
  | .destroy i => if i < w.vecs.length then some (w.clear i) else none

/-- The states of a run, from the first one on. -/
def World.states (w : World) : List ModelStep → Option (List World)
  | [] => some [w]
  | s :: steps => do
    let w' ← w.step s
    let ws ← w'.states steps
    return w :: ws

/-- `init_server` when no model is loaded: `loaded` comes into scope as vector `n`, is copied into
`g_model.layers` and goes out of scope. -/
def initServer (layers : List LayerData) (n : Nat) : List ModelStep :=
  [.load layers, .copy n 0, .destroy n]

/-- `get_model_snapshot` when no snapshot is cached: `fresh` comes into scope as vector `n`, and a
temporary with a copy of `g_model.layers`, vector `n + 1`, is moved into it. -/
def getModelSnapshot (n : Nat) : List ModelStep :=
  [.new, .new, .copy 0 (n + 1), .move (n + 1) n, .destroy (n + 1)]

/-- The unload of the watchdog: `g_model.layers` is cleared and the cached snapshot, vector `n`, is
dropped. -/
def watchdogUnload (n : Nat) : List ModelStep := [.destroy 0, .destroy n]

/-! ## The matmul -/

/-- The codes from a row pointer on. -/
def derefCodes (h : CacheHeap) (p : HeapPtr) : Exec Bytes :=
  match h.read p.buf with
  | some (.codes bs) => .ok (bs.drop p.off)
  | _ => undefined "use of a freed buffer"

/-- The scales from a row pointer on. -/
def derefScales (h : CacheHeap) (p : HeapPtr) : Exec (List F32) :=
  match h.read p.buf with
  | some (.scales ws) => .ok (ws.drop p.off)
  | _ => undefined "use of a freed buffer"

section
variable {K : Type} [Field K] [LinearOrder K] (m : Machine K)

/-- The kernel arguments of a layer in memory. -/
def heapBlockArgs (h : CacheHeap) (L : HeapLayer) (nTerms nBlocks : Nat) (input : List K) :
    Exec (BlockArgs K) := do
  let data ← (L.blockData.take 32).mapM fun rows => rows.mapM (derefCodes h)
  let scales ← (L.blockScales.take 32).mapM fun rows => rows.mapM (derefScales h)
  return {
    termBlockData := data
    termBlockScales := scales.map fun rows => rows.map fun ws => ws.map m.val
    nTerms := nTerms
    outF := L.fields.outFeatures.toNat
    inF := L.fields.inFeatures.toNat
    nBlocks := nBlocks
    input := input }

/-- `ternary_linear_blocks` on a layer in memory. -/
def heapLinearBlocks (h : CacheHeap) (L : HeapLayer) (input : List K) (overrideArch : CPUArch) :
    Exec (List K) := do
  if !L.fields.hasBlocks || L.fields.blockTerms.isEmpty || L.fields.inFeatures = 0 then
    ternaryLinear m L.fields input overrideArch
  else
    let nBlocks ← ceilBlocks L.fields.inFeatures L.fields.blockQk
    if L.fields.termCacheBuilt then
      let args ← heapBlockArgs m h L L.fields.blockTerms.length nBlocks.toNat input
      blockKernel m (m.arch overrideArch) args
    else
      ternaryLinearBlocks m L.fields input overrideArch

end

/-! ## Usable layers -/

/-- The layer in memory is this layer: every buffer holds its contents, and every row pointer points
into the buffer of its term. -/
structure HeapLayer.Represents (h : CacheHeap) (L : HeapLayer) (ld : LayerData) : Prop where
  fields : L.fields = ld.withoutCache
  data : L.contigData.map h.read = ld.termContigData.map fun bs => some (.codes bs)
  scales : L.contigScales.map h.read = ld.termContigScales.map fun ws => some (.scales ws)
  blockData : L.blockData = ld.termBlockData.map fun rows => rows.map (RowPtr.at L.contigData)
  blockScales : L.blockScales =
    ld.termBlockScales.map fun rows => rows.map (RowPtr.at L.contigScales)

/-- The layer in memory is a cached block layer. -/
def HeapLayer.Cached (h : CacheHeap) (L : HeapLayer) : Prop :=
  ∃ ld rows cols, L.Represents h ld ∧ ld.BlockLayer rows cols ∧ 0 < cols ∧ cols ≤ 2147483519

section
variable {h h' : CacheHeap} {L : HeapLayer} {ld : LayerData} {rows cols : Nat}

/-- The buffer of a term. -/
theorem read_of_map_read {α : Type} {ids : List Nat} {contents : List α} {f : α → CacheBuffer}
    (hread : ids.map h.read = contents.map fun a => some (f a)) {t : Nat} {a : α}
    (ht : contents[t]? = some a) : ids.getD t 0 ∈ ids ∧ h.read (ids.getD t 0) = some (f a) := by
  have hget := congrArg (fun l => l[t]?) hread
  simp only [List.getElem?_map, ht, Option.map_some] at hget
  cases hid : ids[t]? with
  | none =>
    rw [hid] at hget
    cases hget
  | some id =>
    rw [hid] at hget
    rw [List.getD_eq_getElem?_getD, hid, Option.getD_some]
    exact ⟨List.mem_of_getElem? hid, Option.some.inj hget⟩

theorem map_read_congr {ids : List Nat} (hsame : ∀ id ∈ ids, h'.read id = h.read id) :
    ids.map h'.read = ids.map h.read :=
  List.map_congr_left hsame

/-- A layer whose buffers keep their contents stays the same layer. -/
theorem HeapLayer.Represents.congr (hrep : L.Represents h ld)
    (hsame : ∀ id ∈ L.owned, h'.read id = h.read id) : L.Represents h' ld :=
  { hrep with
    data := (map_read_congr fun id hid => hsame id (List.mem_append_left _ hid)).trans hrep.data
    scales :=
      (map_read_congr fun id hid => hsame id (List.mem_append_right _ hid)).trans hrep.scales }

theorem HeapLayer.Represents.live (hrep : L.Represents h ld) {id : Nat} (hid : id ∈ L.owned) :
    ∃ b, h.read id = some b := by
  rcases List.mem_append.1 hid with hid | hid
  · have hmem := List.mem_map_of_mem (f := h.read) hid
    rw [hrep.data] at hmem
    obtain ⟨bs, -, hbs⟩ := List.mem_map.1 hmem
    exact ⟨_, hbs.symm⟩
  · have hmem := List.mem_map_of_mem (f := h.read) hid
    rw [hrep.scales] at hmem
    obtain ⟨ws, -, hws⟩ := List.mem_map.1 hmem
    exact ⟨_, hws.symm⟩

theorem HeapLayer.Represents.extend (hrep : L.Represents h ld) (hext : h.Extends h') :
    L.Represents h' ld := by
  refine hrep.congr fun id hid => ?_
  obtain ⟨b, hb⟩ := hrep.live hid
  rw [hb, hext.read hb]

theorem HeapLayer.Cached.extend (hc : L.Cached h) (hext : h.Extends h') : L.Cached h' := by
  obtain ⟨ld, rows, cols, hrep, hrest⟩ := hc
  exact ⟨ld, rows, cols, hrep.extend hext, hrest⟩

/-- The row pointers of a cached layer lead to the buffers of its terms. -/
theorem HeapLayer.Represents.derefCodes (hrep : L.Represents h ld) (hld : ld.BlockLayer rows cols)
    {ps : List RowPtr} (hps : ps ∈ ld.termBlockData) {p : RowPtr} (hp : p ∈ ps) :
    (p.at L.contigData).buf ∈ L.contigData ∧
      h.read (p.at L.contigData).buf = some (.codes (ld.termContigData.getD p.term [])) ∧
      p.off + blocksPerRow cols * 32 ≤ (ld.termContigData.getD p.term []).length := by
  obtain ⟨t, ht, rfl⟩ := hld.mem_blockData hps
  obtain ⟨row, hrow, rfl⟩ := List.mem_map.1 hp
  have hrow := List.mem_range.1 hrow
  obtain ⟨hdata, -, -, -⟩ := hld.cacheAt ht
  obtain ⟨hmem, hread⟩ := read_of_map_read hrep.data hdata
  have hcover : (row + 1) * blocksPerRow cols ≤ rows * blocksPerRow cols :=
    Nat.mul_le_mul_right _ hrow
  rw [Nat.succ_mul] at hcover
  rw [List.getD_eq_getElem?_getD, hdata, Option.getD_some]
  refine ⟨hmem, hread, ?_⟩
  have hlen : (tableCache rows (blocksPerRow cols) t (ld.blockTerms.getD t [])).contigData.length =
      rows * blocksPerRow cols * 32 := (hld.shapeAt ht).length_codes
  rw [hlen, ← Nat.mul_assoc]
  dsimp only
  omega

theorem HeapLayer.Represents.derefScales (hrep : L.Represents h ld) (hld : ld.BlockLayer rows cols)
    {ps : List RowPtr} (hps : ps ∈ ld.termBlockScales) {p : RowPtr} (hp : p ∈ ps) :
    (p.at L.contigScales).buf ∈ L.contigScales ∧
      h.read (p.at L.contigScales).buf = some (.scales (ld.termContigScales.getD p.term [])) ∧
      p.off + blocksPerRow cols ≤ (ld.termContigScales.getD p.term []).length := by
  obtain ⟨t, ht, rfl⟩ := hld.mem_blockScales hps
  obtain ⟨row, hrow, rfl⟩ := List.mem_map.1 hp
  have hrow := List.mem_range.1 hrow
  obtain ⟨-, hscales, -, -⟩ := hld.cacheAt ht
  obtain ⟨hmem, hread⟩ := read_of_map_read hrep.scales hscales
  have hcover : (row + 1) * blocksPerRow cols ≤ rows * blocksPerRow cols :=
    Nat.mul_le_mul_right _ hrow
  rw [Nat.succ_mul] at hcover
  rw [List.getD_eq_getElem?_getD, hscales, Option.getD_some]
  refine ⟨hmem, hread, ?_⟩
  have hlen : (tableCache rows (blocksPerRow cols) t (ld.blockTerms.getD t [])).contigScales.length =
      rows * blocksPerRow cols := (List.length_map _).trans (hld.shapeAt ht).length_eq
  rw [hlen]
  omega

section
variable {K : Type} [Field K] [LinearOrder K] {m : Machine K} {x : List K}

omit [Field K] [LinearOrder K] in
/-- The kernel arguments of a cached layer in memory are those of the layer. -/
theorem heapBlockArgs_ok (hrep : L.Represents h ld) (hld : ld.BlockLayer rows cols)
    (nTerms nBlocks : Nat) :
    heapBlockArgs m h L nTerms nBlocks x = .ok (blockArgs m ld nTerms nBlocks x) := by
  have hdata : (L.blockData.take 32).mapM (fun ps => ps.mapM (Terllama.derefCodes h)) =
      .ok ((ld.termBlockData.take 32).map fun ps =>
        ps.map fun p => (ld.termContigData.getD p.term []).drop p.off) := by
    rw [hrep.blockData, ← List.map_take, List.mapM_map]
    refine mapM_ok fun ps hps => ?_
    rw [Function.comp_apply, List.mapM_map]
    refine mapM_ok fun p hp => ?_
    have hread := (hrep.derefCodes hld (List.mem_of_mem_take hps) hp).2.1
    rw [Function.comp_apply, Terllama.derefCodes, hread]
    rfl
  have hscales : (L.blockScales.take 32).mapM (fun ps => ps.mapM (Terllama.derefScales h)) =
      .ok ((ld.termBlockScales.take 32).map fun ps =>
        ps.map fun p => (ld.termContigScales.getD p.term []).drop p.off) := by
    rw [hrep.blockScales, ← List.map_take, List.mapM_map]
    refine mapM_ok fun ps hps => ?_
    rw [Function.comp_apply, List.mapM_map]
    refine mapM_ok fun p hp => ?_
    have hread := (hrep.derefScales hld (List.mem_of_mem_take hps) hp).2.1
    rw [Function.comp_apply, Terllama.derefScales, hread]
    rfl
  rw [heapBlockArgs, hdata, ok_bind, hscales, ok_bind, hrep.fields]
  simp only [List.map_map, Function.comp_def]
  rfl

/-- A matmul with a cached layer in memory is one with the layer. -/
theorem heapLinearBlocks_eq (hrep : L.Represents h ld) (hld : ld.BlockLayer rows cols)
    (hcols : 0 < cols) (hcols' : cols ≤ 2147483519) (arch : CPUArch) :
    heapLinearBlocks m h L x arch = ternaryLinearBlocks m ld x arch := by
  have hguard : (!L.fields.hasBlocks || L.fields.blockTerms.isEmpty ||
      decide (L.fields.inFeatures = 0)) = false := by
    rw [hrep.fields]
    exact hld.guard hcols
  have hbuilt : L.fields.termCacheBuilt = true := by rw [hrep.fields]; exact hld.built
  have hblocks : ceilBlocks L.fields.inFeatures L.fields.blockQk = .ok (blocksPerRow cols) := by
    rw [hrep.fields]
    exact (congrArg₂ ceilBlocks hld.inFeatures hld.blockQk).trans (ceilBlocks_ok hcols')
  have hterms : L.fields.blockTerms = ld.blockTerms := by rw [hrep.fields]; rfl
  rw [heapLinearBlocks, hguard, if_neg (by decide), hblocks, ok_bind, if_pos hbuilt, hterms,
    Int.toNat_natCast, heapBlockArgs_ok hrep hld, ok_bind,
    ternaryLinearBlocks_cached hld hcols hcols']

end

/-- The cache of a layer is usable: every row pointer points to a row inside a live buffer of the
layer itself, and a matmul computes the linear map of the layer's own block terms. -/
structure HeapLayer.Usable {K : Type} [Field K] [LinearOrder K] (m : Machine K) (h : CacheHeap)
    (L : HeapLayer) : Prop where
  codes : ∀ ps ∈ L.blockData, ∀ p ∈ ps, p.buf ∈ L.contigData ∧ ∃ bs, h.read p.buf = some (.codes bs) ∧
    p.off + blocksPerRow L.fields.inFeatures.toNat * 32 ≤ bs.length
  scales : ∀ ps ∈ L.blockScales, ∀ p ∈ ps, p.buf ∈ L.contigScales ∧
    ∃ ws, h.read p.buf = some (.scales ws) ∧
      p.off + blocksPerRow L.fields.inFeatures.toNat ≤ ws.length
  linear : ∀ x : List K, L.fields.inFeatures.toNat ≤ x.length →
    heapLinearBlocks m h L x .x86_64Scalar =
      .ok ((List.range L.fields.outFeatures.toNat).map
        (blockTermsDot m.val L.fields.blockTerms L.fields.inFeatures.toNat x))

/-- A cached block layer in memory is usable. -/
theorem HeapLayer.Cached.usable {K : Type} [Field K] [LinearOrder K] (m : Machine K)
    (hc : L.Cached h) : L.Usable m h := by
  obtain ⟨ld, rows, cols, hrep, hld, hcols, hcols'⟩ := hc
  have hin : L.fields.inFeatures.toNat = cols := by
    rw [hrep.fields]
    exact (congrArg Int.toNat hld.inFeatures).trans (Int.toNat_natCast cols)
  have hout : L.fields.outFeatures.toNat = rows := by
    rw [hrep.fields]
    exact (congrArg Int.toNat hld.outFeatures).trans (Int.toNat_natCast rows)
  have hterms : L.fields.blockTerms = ld.blockTerms := by rw [hrep.fields]; rfl
  refine ⟨?_, ?_, fun x hx => ?_⟩
  · intro ps hps p hp
    rw [hrep.blockData] at hps
    obtain ⟨ps', hps', rfl⟩ := List.mem_map.1 hps
    obtain ⟨p', hp', rfl⟩ := List.mem_map.1 hp
    obtain ⟨hmem, hread, hlen⟩ := hrep.derefCodes hld hps' hp'
    exact ⟨hmem, _, hread, hin ▸ hlen⟩
  · intro ps hps p hp
    rw [hrep.blockScales] at hps
    obtain ⟨ps', hps', rfl⟩ := List.mem_map.1 hps
    obtain ⟨p', hp', rfl⟩ := List.mem_map.1 hp
    obtain ⟨hmem, hread, hlen⟩ := hrep.derefScales hld hps' hp'
    exact ⟨hmem, _, hread, hin ▸ hlen⟩
  · rw [hin] at hx
    rw [hin, hout, hterms, heapLinearBlocks_eq hrep hld hcols hcols',
      ternaryLinearBlocks_scalar hld hcols hcols' hx]

end

/-! ## What an operation keeps -/

/-- The layers own their buffers alone, and those with a built cache are cached block layers. -/
structure Owning (h : CacheHeap) (v : List HeapLayer) : Prop where
  owned : h.Owned (ownedBy v)
  cached : ∀ L ∈ v, L.fields.termCacheBuilt = true → L.Cached h

/-- The layers `v` came into being from `h` to `h'`. -/
structure Adds (h h' : CacheHeap) (v : List HeapLayer) : Prop where
  extends_ : h.Extends h'
  owned : ∀ ids, h.Owned ids → h'.Owned (ownedBy v ++ ids)
  cached : ∀ L ∈ v, L.fields.termCacheBuilt = true → L.Cached h'

section
variable {h h₁ h₂ : CacheHeap} {v v' : List HeapLayer} {L : HeapLayer}

theorem ownedBy_append (v v' : List HeapLayer) : ownedBy (v ++ v') = ownedBy v ++ ownedBy v' :=
  List.flatMap_append

theorem Owning.perm (hv : Owning h v) (hperm : v.Perm v') : Owning h v' :=
  ⟨hv.owned.perm (hperm.flatMap_right _), fun L hL => hv.cached L (hperm.mem_iff.2 hL)⟩

/-- New layers are owning along with the old ones. -/
theorem Owning.add (hv : Owning h v) (hadds : Adds h h₁ v') : Owning h₁ (v' ++ v) := by
  refine ⟨by rw [ownedBy_append]; exact hadds.owned _ hv.owned, fun L hL hbuilt => ?_⟩
  rcases List.mem_append.1 hL with hL | hL
  · exact hadds.cached L hL hbuilt
  · exact (hv.cached L hL hbuilt).extend hadds.extends_

/-- When some layers end, the others keep their buffers. -/
theorem Owning.free (hv : Owning h (v ++ v')) : Owning (h.free (ownedBy v)) v' := by
  have hown := hv.owned
  rw [ownedBy_append] at hown
  refine ⟨hown.free, fun L hL hbuilt => ?_⟩
  obtain ⟨ld, rows, cols, hrep, hrest⟩ := hv.cached L (List.mem_append_right _ hL) hbuilt
  refine ⟨ld, rows, cols, hrep.congr fun id hid => ?_, hrest⟩
  exact hown.read_free (List.mem_flatMap.2 ⟨L, hL, hid⟩)

theorem adds_nil (h : CacheHeap) : Adds h h [] := ⟨.refl h, fun _ hown => hown, nofun⟩

theorem Adds.cons (hL : Adds h h₁ [L]) (hv : Adds h₁ h₂ v) : Adds h h₂ (L :: v) := by
  refine ⟨hL.extends_.trans hv.extends_, fun ids hown => ?_, fun L' hL' hbuilt => ?_⟩
  · have hown := hv.owned _ (hL.owned ids hown)
    refine hown.perm ?_
    rw [← List.append_assoc, ownedBy, ownedBy, ownedBy, List.flatMap_singleton, List.flatMap_cons]
    exact List.Perm.append_right ids List.perm_append_comm
  · rcases List.mem_cons.1 hL' with rfl | hL'
    · exact (hL.cached _ (List.mem_singleton_self _) hbuilt).extend hv.extends_
    · exact hv.cached L' hL' hbuilt

/-- An operation that adds one layer at a time adds a vector of them. -/
theorem mapLayers_adds {α : Type} {f : α → CacheHeap → HeapLayer × CacheHeap} {as : List α}
    (hf : ∀ a ∈ as, ∀ h₁, h.Extends h₁ → Adds h₁ (f a h₁).2 [(f a h₁).1]) :
    Adds h (mapLayers f as h).2 (mapLayers f as h).1 := by
  induction as generalizing h with
  | nil => exact adds_nil h
  | cons a as ih =>
    have hfirst := hf a (by simp) h (.refl h)
    refine hfirst.cons (ih fun a' ha' h₁ hext => ?_)
    exact hf a' (by simp [ha']) h₁ (hfirst.extends_.trans hext)

/-- Two groups of new buffers make a layer. -/
theorem adds_allocs {data scales : List CacheBuffer}
    (hdata : L.contigData = (h.allocs data).1)
    (hscales : L.contigScales = ((h.allocs data).2.allocs scales).1)
    (hcached : L.fields.termCacheBuilt = true →
      L.contigData.map ((h.allocs data).2.allocs scales).2.read = data.map some →
      L.contigScales.map ((h.allocs data).2.allocs scales).2.read = scales.map some →
      L.Cached ((h.allocs data).2.allocs scales).2) :
    Adds h ((h.allocs data).2.allocs scales).2 [L] := by
  have hext := Heap.allocs_extends (h.allocs data).2 scales
  refine ⟨(h.allocs_extends data).trans hext, fun ids hown => ?_, fun L' hL' hbuilt => ?_⟩
  · refine ((hown.allocs data).allocs scales).perm ?_
    rw [ownedBy, List.flatMap_singleton, HeapLayer.owned, hdata, hscales, ← List.append_assoc]
    exact List.Perm.append_right ids List.perm_append_comm
  · cases List.mem_singleton.1 hL'
    refine hcached hbuilt ?_ ?_
    · rw [hdata, ← Heap.map_read_allocs]
      refine List.map_congr_left fun id hid => ?_
      have hread := List.mem_map_of_mem (f := (h.allocs data).2.read) hid
      rw [Heap.map_read_allocs] at hread
      obtain ⟨b, -, hb⟩ := List.mem_map.1 hread
      rw [hext.read hb.symm, ← hb]
    · rw [hscales, Heap.map_read_allocs]

/-- A layer that a loader returns comes into being. -/
theorem installLayer_adds {ld : LayerData} (hld : ld.Loaded) (h : CacheHeap) :
    Adds h (installLayer ld h).2 [(installLayer ld h).1] := by
  refine adds_allocs rfl rfl fun hbuilt hdata hscales => ?_
  obtain ⟨rows, cols, hblock, hcols, hcols'⟩ := hld hbuilt
  refine ⟨ld, rows, cols, ⟨rfl, ?_, ?_, rfl, rfl⟩, hblock, hcols, hcols'⟩
  · rw [hdata, List.map_map]
    rfl
  · rw [hscales, List.map_map]
    rfl

/-- A layer has a built cache and a row. -/
def HeapLayer.HasCachedRows (L : HeapLayer) : Prop :=
  L.fields.termCacheBuilt = true ∧ 0 < L.fields.outFeatures

/-- A vector copy reads the contents of live buffers. -/
theorem contentsOf_eq {α : Type} {ids : List Nat} {contents : List α} {f : α → CacheBuffer}
    (hread : ids.map h.read = contents.map fun a => some (f a)) :
    contentsOf h ids = contents.map f := by
  have hmap := congrArg (List.map fun b : Option CacheBuffer => b.getD default) hread
  rw [List.map_map, List.map_map] at hmap
  exact hmap

/-- The copy of a layer without cached rows comes into being. -/
theorem copyLayer_adds (hc : L.fields.termCacheBuilt = true → L.Cached h)
    (hrows : ¬ L.HasCachedRows) : Adds h (copyLayer L h).2 [(copyLayer L h).1] := by
  refine adds_allocs rfl rfl fun hbuilt hdata hscales => ?_
  obtain ⟨ld, rows, cols, hrep, hblock, hcols, hcols'⟩ := hc hbuilt
  have hzero : rows = 0 := by
    by_contra hne
    refine hrows ⟨hbuilt, ?_⟩
    have hout : L.fields.outFeatures = rows := by rw [hrep.fields]; exact hblock.outFeatures
    omega
  subst hzero
  -- without rows there is no pointer that could lead back to the source
  have hnone : ∀ ids ids' : List Nat,
      (ld.termBlockData.map fun ps => ps.map (RowPtr.at ids)) =
        ld.termBlockData.map fun ps => ps.map (RowPtr.at ids') := by
    refine fun ids ids' => List.map_congr_left fun ps hps => ?_
    obtain ⟨t, -, rfl⟩ := hblock.mem_blockData hps
    rfl
  have hnone' : ∀ ids ids' : List Nat,
      (ld.termBlockScales.map fun ps => ps.map (RowPtr.at ids)) =
        ld.termBlockScales.map fun ps => ps.map (RowPtr.at ids') := by
    refine fun ids ids' => List.map_congr_left fun ps hps => ?_
    obtain ⟨t, -, rfl⟩ := hblock.mem_blockScales hps
    rfl
  refine ⟨ld, 0, cols, ⟨hrep.fields, ?_, ?_, ?_, ?_⟩, hblock, hcols, hcols'⟩
  · rw [hdata, contentsOf_eq hrep.data, List.map_map]
    rfl
  · rw [hscales, contentsOf_eq hrep.scales, List.map_map]
    rfl
  · exact hrep.blockData.trans (hnone _ _)
  · exact hrep.blockScales.trans (hnone' _ _)

/-- The copy of a layer with cached rows is not usable: its pointers lead to the buffers of the
source. -/
theorem copyLayer_not_usable {K : Type} [Field K] [LinearOrder K] (m : Machine K)
    (hc : L.Cached h) (hext : h.Extends h₁) (hrows : L.HasCachedRows) (h₂ : CacheHeap) :
    ¬ (copyLayer L h₁).1.Usable m h₂ := by
  intro husable
  obtain ⟨ld, rows, cols, hrep, hblock, hcols, -⟩ := hc
  have hout : L.fields.outFeatures = rows := by rw [hrep.fields]; exact hblock.outFeatures
  have hpos : 0 < rows := by
    have hrow := hrows.2
    omega
  obtain ⟨-, -, hptrs, -⟩ := hblock.cacheAt hblock.terms_pos
  have hps := List.mem_of_getElem? hptrs
  have hp : (⟨0, 0 * (blocksPerRow cols * 32)⟩ : RowPtr) ∈
      (List.range rows).map fun row => ⟨0, row * (blocksPerRow cols * 32)⟩ :=
    List.mem_map_of_mem (List.mem_range.2 hpos)
  obtain ⟨hmem, hread, -⟩ := hrep.derefCodes hblock hps hp
  have hin : (RowPtr.at L.contigData ⟨0, 0 * (blocksPerRow cols * 32)⟩) ∈
      ((List.range rows).map fun row => (⟨0, row * (blocksPerRow cols * 32)⟩ : RowPtr)).map
        (RowPtr.at L.contigData) := List.mem_map_of_mem hp
  have hmem' := List.mem_map_of_mem (f := fun ps => ps.map (RowPtr.at L.contigData)) hps
  rw [← hrep.blockData] at hmem'
  obtain ⟨hnew, -⟩ := husable.codes _ hmem' _ hin
  have hold := Heap.lt_of_read (hext.read hread)
  exact absurd hold (not_lt.2 (Heap.le_of_mem_allocs hnew))

/-- The copies of a vector, one by one. -/
theorem mem_mapLayers {α : Type} {f : α → CacheHeap → HeapLayer × CacheHeap}
    (hf : ∀ a (h : CacheHeap), h.Extends (f a h).2) {as : List α} {a : α} (ha : a ∈ as) (h : CacheHeap) :
    ∃ h₁, h.Extends h₁ ∧ (f a h₁).1 ∈ (mapLayers f as h).1 := by
  induction as generalizing h with
  | nil => cases ha
  | cons a' as ih =>
    rcases List.mem_cons.1 ha with rfl | ha
    · exact ⟨h, .refl h, List.mem_cons_self⟩
    · obtain ⟨h₁, hext, hmem⟩ := ih ha (f a' h).2
      exact ⟨h₁, (hf a' h).trans hext, List.mem_cons_of_mem _ hmem⟩

end

/-! ## Runs -/

/-- Every cache that is marked as built is usable. -/
def World.Sound {K : Type} [Field K] [LinearOrder K] (m : Machine K) (w : World) : Prop :=
  ∀ v ∈ w.vecs, ∀ L ∈ v, L.fields.termCacheBuilt = true → L.Usable m w.heap

/-- The invariant of a run: all layers together own their buffers. -/
def World.Owning (w : World) : Prop := Terllama.Owning w.heap w.vecs.flatten

/-- No copy of the run has a source with cached rows. -/
def World.CopiesNoRows (w : World) : List ModelStep → Prop
  | [] => True
  | s :: steps =>
    (∀ src dst, s = .copy src dst → ∀ L ∈ w.vecs.getD src [], ¬ L.HasCachedRows) ∧
      ∀ w', w.step s = some w' → w'.CopiesNoRows steps

section
variable {w w' : World} {K : Type} [Field K] [LinearOrder K] {m : Machine K}

/-- One vector of the program, and the others. -/
theorem perm_flatten_set {α : Type} (l : List (List α)) {i : Nat} (hi : i < l.length)
    (v : List α) : (l.set i v).flatten.Perm (v ++ (l.set i []).flatten) := by
  induction l generalizing i with
  | nil => exact absurd hi (Nat.not_lt_zero i)
  | cons v₀ l ih =>
    cases i with
    | zero => exact List.Perm.refl _
    | succ i =>
      simp only [List.set_cons_succ, List.flatten_cons]
      refine (List.Perm.append_left v₀ (ih (Nat.lt_of_succ_lt_succ hi))).trans ?_
      rw [← List.append_assoc, ← List.append_assoc]
      exact List.Perm.append_right _ List.perm_append_comm

theorem set_getD_self {α : Type} (l : List (List α)) (i : Nat) :
    l.set i (l.getD i []) = l := by
  apply List.ext_getElem? fun j => ?_
  rw [List.getElem?_set]
  split
  · rename_i hij
    subst hij
    split
    · rename_i hi
      rw [List.getD_eq_getElem _ _ hi, List.getElem?_eq_getElem hi]
    · rename_i hi
      rw [List.getElem?_eq_none (not_lt.1 hi)]
  · rfl

theorem World.Owning.sound (hw : w.Owning) : w.Sound m := by
  intro v hv L hL hbuilt
  exact (hw.cached L (List.mem_flatten.2 ⟨v, hv, hL⟩) hbuilt).usable m

/-- The end of a vector's layers. -/
theorem World.Owning.clear (hw : w.Owning) {i : Nat} (hi : i < w.vecs.length) :
    (w.clear i).Owning := by
  have hperm := perm_flatten_set w.vecs hi (w.vecs.getD i [])
  rw [set_getD_self] at hperm
  exact (Terllama.Owning.perm hw hperm).free

theorem clear_set {i : Nat} : (w.clear i).vecs.set i [] = (w.clear i).vecs := List.set_set _

theorem getD_clear {src dst : Nat} (hne : dst ≠ src) :
    (w.clear dst).vecs.getD src [] = w.vecs.getD src [] := by
  rw [World.clear, List.getD_eq_getElem?_getD, List.getElem?_set_ne hne,
    ← List.getD_eq_getElem?_getD]

theorem getD_mem_clear {src dst : Nat} (hsrc : src < w.vecs.length) :
    (w.clear dst).vecs.getD src [] ∈ (w.clear dst).vecs := by
  have hlt : src < (w.clear dst).vecs.length := by rwa [World.clear, List.length_set]
  rw [List.getD_eq_getElem _ _ hlt]
  exact List.getElem_mem hlt

/-- One operation keeps the invariant, unless it copies a layer with cached rows. -/
theorem World.Owning.step (hw : w.Owning) {s : ModelStep}
    (hload : ∀ layers, s = .load layers → ∀ ld ∈ layers, ld.Loaded)
    (hcopy : ∀ src dst, s = .copy src dst → ∀ L ∈ w.vecs.getD src [], ¬ L.HasCachedRows)
    (hstep : w.step s = some w') : w'.Owning := by
  cases s with
  | new =>
    cases hstep
    refine Terllama.Owning.perm hw ?_
    rw [List.flatten_append]
    exact (List.append_nil _).symm ▸ List.Perm.refl _
  | load layers =>
    cases hstep
    have hadds := mapLayers_adds (h := w.heap) fun ld hld h₁ _ =>
      installLayer_adds (hload layers rfl ld hld) h₁
    refine (Terllama.Owning.add hw hadds).perm ?_
    rw [List.flatten_append, List.flatten_singleton]
    exact List.perm_append_comm
  | copy src dst =>
    rw [World.step] at hstep
    split at hstep
    · rename_i hbounds
      cases hstep
      obtain ⟨hsrc, hdst, hne⟩ := hbounds
      have hclear := hw.clear hdst
      have hget : (w.clear dst).vecs.getD src [] = w.vecs.getD src [] := getD_clear hne.symm
      have hmem : w.vecs.getD src [] ∈ (w.clear dst).vecs := hget ▸ getD_mem_clear hsrc
      have hadds : Adds (w.clear dst).heap
          (mapLayers copyLayer (w.vecs.getD src []) (w.clear dst).heap).2
          (mapLayers copyLayer (w.vecs.getD src []) (w.clear dst).heap).1 := by
        refine mapLayers_adds fun L hL h₁ hext => copyLayer_adds (fun hbuilt => ?_)
          (hcopy src dst rfl L hL)
        exact (hclear.cached L (List.mem_flatten.2 ⟨_, hmem, hL⟩) hbuilt).extend hext
      rw [hget]
      refine (Terllama.Owning.add hclear hadds).perm ?_
      have hperm := perm_flatten_set (w.clear dst).vecs (i := dst)
        (by rwa [World.clear, List.length_set])
        (mapLayers copyLayer (w.vecs.getD src []) (w.clear dst).heap).1
      rw [clear_set] at hperm
      exact hperm.symm
    · cases hstep
  | move src dst =>
    rw [World.step] at hstep
    split at hstep
    · rename_i hbounds
      cases hstep
      obtain ⟨hsrc, hdst, hne⟩ := hbounds
      refine (hw.clear hdst).perm ?_
      have hsrc' : src < (w.clear dst).vecs.length := by rwa [World.clear, List.length_set]
      have hdst' : dst < ((w.clear dst).vecs.set src []).length := by
        rwa [List.length_set, World.clear, List.length_set]
      have hsplit := perm_flatten_set (w.clear dst).vecs hsrc' ((w.clear dst).vecs.getD src [])
      rw [set_getD_self] at hsplit
      rw [List.set_comm _ _ hne.symm]
      refine hsplit.trans (List.Perm.trans ?_ (perm_flatten_set _ hdst' _).symm)
      rw [List.set_comm _ _ hne, clear_set]
    · cases hstep
  | destroy i =>
    rw [World.step] at hstep
    split at hstep
    · rename_i hi
      cases hstep
      exact hw.clear hi
    · cases hstep

/-- A copy of a layer with cached rows leaves a cache that is not usable. -/
theorem World.Owning.copy_not_sound (hw : w.Owning) {src dst : Nat} {L : HeapLayer}
    (hL : L ∈ w.vecs.getD src []) (hrows : L.HasCachedRows)
    (hstep : w.step (.copy src dst) = some w') : ¬ w'.Sound m := by
  rw [World.step] at hstep
  split at hstep
  · rename_i hbounds
    cases hstep
    obtain ⟨hsrc, hdst, hne⟩ := hbounds
    have hget : (w.clear dst).vecs.getD src [] = w.vecs.getD src [] := getD_clear hne.symm
    have hmem : w.vecs.getD src [] ∈ (w.clear dst).vecs := hget ▸ getD_mem_clear hsrc
    have hcached : L.Cached (w.clear dst).heap :=
      (hw.clear hdst).cached L (List.mem_flatten.2 ⟨_, hmem, hL⟩) hrows.1
    have hextends : ∀ (L : HeapLayer) (h : CacheHeap), h.Extends (copyLayer L h).2 :=
      fun L h => (h.allocs_extends _).trans (Heap.allocs_extends _ _)
    obtain ⟨h₁, hext, hnew⟩ := mem_mapLayers hextends hL (w.clear dst).heap
    intro hsound
    refine copyLayer_not_usable m hcached hext hrows _ (hsound _ ?_ _ hnew hrows.1)
    rw [hget]
    exact List.mem_set (by rwa [World.clear, List.length_set]) _
  · cases hstep

theorem World.mem_states {steps : List ModelStep} {ws : List World}
    (hrun : w.states steps = some ws) : w ∈ ws := by
  cases steps with
  | nil =>
    cases hrun
    exact List.mem_singleton_self w
  | cons s steps =>
    obtain ⟨w₁, -, hrun⟩ := Option.bind_eq_some_iff.1 hrun
    obtain ⟨ws₁, -, hrun⟩ := Option.bind_eq_some_iff.1 hrun
    cases hrun
    exact List.mem_cons_self

/-- From a world that owns its buffers, the runs that keep every cache usable are those that copy no
layer with cached rows. -/
theorem World.Owning.states_sound_iff (hw : w.Owning) {steps : List ModelStep}
    (hload : ∀ layers, .load layers ∈ steps → ∀ ld ∈ layers, ld.Loaded) {ws : List World}
    (hrun : w.states steps = some ws) :
    (∀ w' ∈ ws, w'.Sound m) ↔ w.CopiesNoRows steps := by
  induction steps generalizing w ws with
  | nil =>
    cases hrun
    refine iff_of_true (fun w' hw' => ?_) trivial
    cases List.mem_singleton.1 hw'
    exact hw.sound
  | cons s steps ih =>
    obtain ⟨w₁, hstep, hrun⟩ := Option.bind_eq_some_iff.1 hrun
    obtain ⟨ws₁, hrest, hrun⟩ := Option.bind_eq_some_iff.1 hrun
    cases hrun
    have hloadStep : ∀ layers, s = .load layers → ∀ ld ∈ layers, ld.Loaded :=
      fun layers hs => hload layers (hs ▸ List.mem_cons_self)
    have hloadRest : ∀ layers, .load layers ∈ steps → ∀ ld ∈ layers, ld.Loaded :=
      fun layers hs => hload layers (List.mem_cons_of_mem _ hs)
    constructor
    · intro hsound
      have hcopy : ∀ src dst, s = .copy src dst →
          ∀ L ∈ w.vecs.getD src [], ¬ L.HasCachedRows := by
        rintro src dst rfl L hL hrows
        exact hw.copy_not_sound hL hrows hstep
          (hsound w₁ (List.mem_cons_of_mem _ (World.mem_states hrest)))
      refine ⟨hcopy, fun w₁' hstep' => ?_⟩
      cases Option.some.inj (hstep.symm.trans hstep')
      refine (ih (hw.step hloadStep hcopy hstep) hloadRest hrest).1 fun w' hw' => ?_
      exact hsound w' (List.mem_cons_of_mem _ hw')
    · rintro ⟨hcopy, hcopies⟩ w' hw'
      rcases List.mem_cons.1 hw' with rfl | hw'
      · exact hw.sound
      · exact (ih (hw.step hloadStep hcopy hstep) hloadRest hrest).2 (hcopies w₁ hstep) w' hw'

theorem World.owning_start : World.start.Owning :=
  ⟨⟨List.nodup_nil, nofun⟩, nofun⟩

/-- The runs of the program that keep every cache usable are those that copy no layer with cached
rows. -/
theorem runs_sound_iff (m : Machine K) {steps : List ModelStep}
    (hload : ∀ layers, .load layers ∈ steps → ∀ ld ∈ layers, ld.Loaded) {ws : List World}
    (hrun : World.start.states steps = some ws) :
    (∀ w ∈ ws, w.Sound m) ↔ World.start.CopiesNoRows steps :=
  World.owning_start.states_sound_iff hload hrun

/-- A layer of one row of four weights in one term. -/
def oneRowTable : LayerData where
  outFeatures := 1
  inFeatures := 4
  hasBlocks := true
  blockTerms := [[⟨List.replicate 32 0xA9, 0x3F800000⟩]]

/-- The layer as a loader returns it. -/
def oneRowLayer : LayerData := ((buildBlockContigCache oneRowTable).toOption).getD default

theorem oneRowLayer_loaded : oneRowLayer.Loaded := by
  have hbuild : buildBlockContigCache oneRowTable = .ok oneRowLayer := by decide +kernel
  have htables : oneRowTable.Tables := by
    intro _
    refine ⟨⟨List.cons_ne_nil _ _, by decide⟩, by decide, by decide, ?_, by decide⟩
    intro blocks hblocks
    cases List.mem_singleton.1 hblocks
    exact ⟨rfl, fun b hb => by cases List.mem_singleton.1 hb; rfl⟩
  obtain ⟨ld, hld, hloaded⟩ := buildBlockContigCache_loaded rfl rfl htables
  rw [hbuild] at hld
  cases hld
  exact hloaded

/-- A model that is moved into `g_model.layers` stays usable. -/
theorem runs_sound_move : ∃ ws,
    World.start.states [.load [oneRowLayer], .move 1 0, .destroy 1] = some ws ∧ ws.length = 4 ∧
      ∀ w ∈ ws, w.Sound ratMachine := by
  have hrun : ∃ ws, World.start.states [.load [oneRowLayer], .move 1 0, .destroy 1] = some ws ∧
      ws.length = 4 := by
    refine ⟨(World.start.states [.load [oneRowLayer], .move 1 0, .destroy 1]).getD [], ?_, ?_⟩
    · decide +kernel
    · decide +kernel
  obtain ⟨ws, hrun, hlen⟩ := hrun
  refine ⟨ws, hrun, hlen, (runs_sound_iff ratMachine ?_ hrun).2 ?_⟩
  · rintro layers hlayers ld hld
    rcases List.mem_cons.1 hlayers with hlayers | hlayers
    · cases hlayers
      cases List.mem_singleton.1 hld
      exact oneRowLayer_loaded
    · exact absurd hlayers (by simp)
  · exact ⟨nofun, fun _ _ => ⟨nofun, fun _ _ => ⟨nofun, fun _ _ => trivial⟩⟩⟩

/-- The program after `init_server`. -/
def afterInitServer : World :=
  ((World.start.states (initServer [oneRowLayer] 1)).bind List.getLast?).getD World.start

/-- After `init_server` the layer in `g_model.layers` is marked as cached, and a matmul with it uses a
freed buffer. -/
theorem not_sound_initServer : oneRowLayer.Loaded ∧
    (World.start.states (initServer [oneRowLayer] 1)).bind List.getLast? = some afterInitServer ∧
    (∃ L ∈ afterInitServer.vecs.getD 0 [], L.fields.termCacheBuilt = true ∧
      heapLinearBlocks ratMachine afterInitServer.heap L [2, 3, 5, 7] .x86_64Scalar =
        undefined "use of a freed buffer") ∧
    ¬ afterInitServer.Sound ratMachine := by
  have hfreed : ∃ L ∈ afterInitServer.vecs.getD 0 [], L.fields.termCacheBuilt = true ∧
      heapLinearBlocks ratMachine afterInitServer.heap L [2, 3, 5, 7] .x86_64Scalar =
        undefined "use of a freed buffer" := by
    decide +kernel
  refine ⟨oneRowLayer_loaded, by decide +kernel, hfreed, fun hsound => ?_⟩
  have hin : ∀ L ∈ afterInitServer.vecs.getD 0 [], L.fields.inFeatures.toNat ≤ 4 := by
    decide +kernel
  have hlayers : afterInitServer.vecs.getD 0 [] ∈ afterInitServer.vecs := by decide +kernel
  obtain ⟨L, hL, hbuilt, hrun⟩ := hfreed
  have hlinear := (hsound _ hlayers L hL hbuilt).linear [2, 3, 5, 7] (hin L hL)
  rw [hrun] at hlinear
  cases hlinear

end

end Terllama
