import Terllama.Convert.Half
import Terllama.Gguf.File
import Terllama.Loader.Blocks

/-!
# The decoders of GGUF tensors

`extract_f32_tensor` and `convert_q2_0_to_layer` of `src/gguf_loader.cpp`. Dimensions and offsets are
64-bit words of the file, and the products of the source wrap in the types it gives them. The only
test of a position is `ti.offset + 4 > size` in the first of the two; `extract_returns_iff` and
`convert_returns_iff` say what the rest of each relies on.
-/

namespace Terllama

/-! ## Unquantized tensors -/

/-- `Q2_0_BLOCK_SIZE`. -/
def q20BlockSize : Nat := 128

/-- `Q2_0_BLOCK_BYTES`. -/
def q20BlockBytes : Nat := 34

/-- `GGML_TYPE_F32`. -/
def ggmlTypeF32 : Nat := 0

/-- `GGML_TYPE_F16`. -/
def ggmlTypeF16 : Nat := 1

/-- `GGML_TYPE_Q2_0`. -/
def ggmlTypeQ20 : Nat := 10

/-- The element count of a tensor, a product of `size_t` values. -/
def GGUFTensorInfo.nElems (ti : GGUFTensorInfo) : Nat := ti.dims.foldl (fun n d => pos64 (n * d)) 1

/-- The product of a ternary value with a scale: `-1`, `0` or `1` for the codes `0`, `1` and the
others. A NaN is quieted, and zero times an infinity is the default NaN. -/
def scaleCode (code : UInt8) (scale : F32) : F32 :=
  if scale &&& 0x7FFFFFFF > 0x7F800000 then scale ||| 0x00400000
  else if code = 1 then
    if scale &&& 0x7FFFFFFF = 0x7F800000 then 0xFFC00000 else scale &&& 0x80000000
  else if code = 0 then scale ^^^ 0x80000000
  else scale

/-- The elements of block `b` of a tensor of `nElems` elements. -/
def q20BlockLength (nElems b : Nat) : Nat :=
  min q20BlockSize ((nElems - b * q20BlockSize % 4294967296) % 4294967296)

/-- The number of blocks of a tensor, an `uint32_t`. -/
def q20BlockCount (nElems : Nat) : Nat :=
  pos64 (nElems + q20BlockSize - 1) / q20BlockSize % 4294967296

/-- The loop over the `n` elements of a block, with its codes at byte `codes`. -/
def extractCodes (data : Bytes) (codes : Nat) (scale : F32) (start n : Nat) (out : List F32) :
    Exec (List F32) :=
  (List.range n).foldlM (fun out j => do
    let byte ← load data (codes + j / 4)
    let code := (byte >>> UInt8.ofNat (6 - j % 4 * 2)) &&& 0x03
    writeAt out (start + j) [scaleCode code scale]) out

/-- The pass over block `b`; `b * block_bytes` and `b * qk` are `uint32_t` products. -/
def extractBlock (data : Bytes) (src nElems : Nat) (out : List F32) (b : Nat) :
    Exec (List F32) := do
  let block := src + b * q20BlockBytes % 4294967296
  let scaleFp16 ← slice data block 2
  let scale := fp16ToFp32 (UInt16.ofNat (leNat scaleFp16))
  extractCodes data (block + 2) scale (b * q20BlockSize % 4294967296) (q20BlockLength nElems b) out

/-- The loops over the blocks of a Q2_0 tensor at byte `src`. -/
def extractQ20 (data : Bytes) (src : Nat) (out : List F32) (nElems : Nat) : Exec (List F32) :=
  (List.range (q20BlockCount nElems)).foldlM (extractBlock data src nElems) out

/-- `extract_f32_tensor`, with `none` where it returns false and leaves `out` as it was. -/
def extractF32Tensor (gguf : GGUFFile) (ti : GGUFTensorInfo) (out : List F32) :
    Exec (Option (List F32)) := do
  if pos64 (ti.offset + 4) > gguf.fileData.length then return none
  else
    let nElems := ti.nElems
    if ti.type = ggmlTypeF32 then
      let _ ← vectorCheck "vector::_M_default_append" nElems 4
      let bytes ← slice gguf.fileData ti.offset (nElems * 4)
      return some (floatsOf bytes)
    else if ti.type = ggmlTypeF16 then
      let _ ← vectorCheck "vector::_M_default_append" nElems 4
      return some (← decodeF16Batch gguf.fileData ti.offset (vectorResize out nElems 0) nElems)
    else if ti.type = ggmlTypeQ20 ∨ ti.type = 42 then
      let _ ← vectorCheck "vector::_M_default_append" nElems 4
      return some (← extractQ20 gguf.fileData ti.offset (vectorResize out nElems 0) nElems)
    else return none

/-! ## Quantized layers -/

/-- `n_blocks`, an `int` made of an `uint64_t` quotient. -/
def convertBlocks (inFeatures : Nat) : Int :=
  toInt32 (pos64 (inFeatures + q20BlockSize - 1) / q20BlockSize)

/-- The bytes of a block in the file: packed codes alone for type 36, else a scale and codes. -/
def blockStride (type : Nat) : Nat := if type = 36 then 32 else q20BlockBytes

/-- The block at byte `pos` of the file. -/
def readBlock (data : Bytes) (type pos : Nat) : Exec BlockTerm := do
  if type = 36 then
    let packed ← slice data pos 32
    return { packed, scale := 0x3F800000 }
  else
    let scaleFp16 ← slice data pos 2
    let packed ← slice data (pos + 2) 32
    return { packed, scale := fp16ToFp32 (UInt16.ofNat (leNat scaleFp16)) }

/-- `layer.block_terms[0][block_idx] = block` for an index that is an `int`. -/
def storeBlock (blocks : List BlockTerm) (blockIdx : Int) (block : BlockTerm) :
    Exec (List BlockTerm) :=
  if blockIdx < 0 then undefined "write outside the buffer"
  else writeAt blocks blockIdx.toNat [block]

/-- The loops over the rows and the blocks of a tensor. -/
def convertLoops (data : Bytes) (ti : GGUFTensorInfo) (outFeatures nBlocks : Nat)
    (blocks : List BlockTerm) : Exec (List BlockTerm) :=
  (List.range outFeatures).foldlM (fun blocks row =>
    (List.range nBlocks).foldlM (fun blocks b => do
      let idx := pos64 (row * nBlocks + b)
      let block ← readBlock data ti.type (ti.offset + pos64 (idx * blockStride ti.type))
      storeBlock blocks (toInt32 idx) block) blocks) blocks

/-- `convert_q2_0_to_layer`, with `none` where it returns false. All callers pass a layer that has
only a name. -/
def convertQ20ToLayer (gguf : GGUFFile) (ti : GGUFTensorInfo) (name : Bytes) :
    Exec (Option LayerData) :=
  match ti.dims with
  | inFeatures :: outFeatures :: _ => do
    let nBlocks := convertBlocks inFeatures
    let total := pos64 (outFeatures * sizeT nBlocks)
    let _ ← vectorCheck "vector::_M_default_append" total 32
    let blocks ← convertLoops gguf.fileData ti outFeatures nBlocks.toNat (List.replicate total {})
    let layer : LayerData := {
      name, outFeatures := toInt32 outFeatures, inFeatures := toInt32 inFeatures
      hasBlocks := true, numTerms := 0, blockQk := 128, blockTerms := [blocks] }
    return some (← buildBlockContigCache layer)
  | _ => return none

/-! ## What the decoders rely on -/

theorem vectorCheck_ok_iff {what : String} {n size : Nat} {u : Unit} :
    vectorCheck what n size = .ok u ↔ n ≤ vectorMaxSize size := by
  unfold vectorCheck
  split
  · rename_i h
    exact ⟨fun _ => h, fun _ => rfl⟩
  · rename_i h
    exact ⟨nofun, fun hle => absurd hle h⟩

/-- A check before a computation. -/
theorem exists_check_ok_iff {α : Type} {what : String} {n size : Nat} {f : Unit → Exec α} :
    (∃ a, (vectorCheck what n size >>= f) = .ok a) ↔
      n ≤ vectorMaxSize size ∧ ∃ a, f () = .ok a := by
  constructor
  · rintro ⟨a, h⟩
    obtain ⟨_, hcheck, h⟩ := bind_eq_ok.1 h
    exact ⟨vectorCheck_ok_iff.1 hcheck, a, h⟩
  · rintro ⟨hn, a, h⟩
    exact ⟨a, by rw [vectorCheck, if_pos hn, ok_bind, h]⟩

/-- The block at a byte of the file. -/
def q20BlockAt (data : Bytes) (type pos : Nat) : BlockTerm :=
  if type = 36 then { packed := (data.drop pos).take 32, scale := 0x3F800000 }
  else {
    packed := (data.drop (pos + 2)).take 32
    scale := fp16ToFp32 (UInt16.ofNat (leNat ((data.drop pos).take 2))) }

theorem blockStride_le (type : Nat) : blockStride type ≤ 34 := by
  unfold blockStride q20BlockBytes
  split <;> omega

theorem readBlock_ok {data : Bytes} {type pos : Nat} (h : pos + blockStride type ≤ data.length) :
    readBlock data type pos = .ok (q20BlockAt data type pos) := by
  unfold readBlock q20BlockAt
  unfold blockStride q20BlockBytes at h
  split
  · rename_i htype
    rw [if_pos htype] at h
    rw [slice_ok h]
    rfl
  · rename_i htype
    rw [if_neg htype] at h
    rw [slice_ok (by omega), ok_bind, slice_ok (by omega)]
    rfl

theorem readBlock_inside {data : Bytes} {type pos : Nat} {block : BlockTerm}
    (h : readBlock data type pos = .ok block) : pos + blockStride type ≤ data.length := by
  unfold readBlock at h
  unfold blockStride q20BlockBytes
  split at h
  · rename_i htype
    obtain ⟨packed, hpacked, -⟩ := bind_eq_ok.1 h
    rw [if_pos htype]
    exact (slice_eq_ok.1 hpacked).1
  · rename_i htype
    obtain ⟨scale, -, h⟩ := bind_eq_ok.1 h
    obtain ⟨packed, hpacked, -⟩ := bind_eq_ok.1 h
    have hin := (slice_eq_ok.1 hpacked).1
    rw [if_neg htype]
    omega

/-- The blocks of a tensor, in the order of the table. -/
def tensorBlocks (data : Bytes) (ti : GGUFTensorInfo) (n : Nat) : List BlockTerm :=
  (List.range n).map fun idx => q20BlockAt data ti.type (ti.offset + idx * blockStride ti.type)

theorem storeBlock_natCast (blocks : List BlockTerm) (idx : Nat) (block : BlockTerm) :
    storeBlock blocks idx block = writeAt blocks idx [block] := by
  rw [storeBlock, if_neg (Int.not_lt.2 (Int.natCast_nonneg idx)), Int.toNat_natCast]

/-- The codes of blocks that lie in the file. -/
theorem packed_tensorBlocks {data : Bytes} {ti : GGUFTensorInfo} {n : Nat}
    (h : n = 0 ∨ ti.offset + n * blockStride ti.type ≤ data.length) :
    ∀ x ∈ tensorBlocks data ti n, x.packed.length = 32 := by
  intro x hx
  obtain ⟨idx, hidx, rfl⟩ := List.mem_map.1 hx
  have hlt : idx < n := List.mem_range.1 hidx
  have hend : (idx + 1) * blockStride ti.type ≤ n * blockStride ti.type :=
    Nat.mul_le_mul_right _ hlt
  rw [Nat.succ_mul] at hend
  unfold q20BlockAt
  unfold blockStride q20BlockBytes at *
  split
  · rename_i htype
    rw [if_pos htype] at hend h
    rw [List.length_take, List.length_drop]
    omega
  · rename_i htype
    rw [if_neg htype] at hend h
    rw [List.length_take, List.length_drop]
    omega

/-- The conversion of a table whose indices are `int` values and whose blocks lie in the file. -/
theorem convertLoops_ok {data : Bytes} {ti : GGUFTensorInfo} {rows nb : Nat}
    (hint : rows * nb ≤ 2147483648)
    (hin : rows * nb = 0 ∨ ti.offset + rows * nb * blockStride ti.type ≤ data.length)
    {blocks : List BlockTerm} (hlen : blocks.length = rows * nb) :
    convertLoops data ti rows nb blocks = .ok (tensorBlocks data ti (rows * nb)) := by
  have hfill : Fills (fun blocks => convertLoops data ti rows nb blocks) 0
      ((List.range rows).flatMap fun row => (List.range nb).flatMap fun b =>
        [q20BlockAt data ti.type (ti.offset + (row * nb + b) * blockStride ti.type)]) := by
    refine Fills.foldlM₂ (s := 1) (fun _ _ _ _ => rfl) ?_
    intro row hrow b hb
    have hidx : row * nb + b < rows * nb := by
      have hnext : (row + 1) * nb ≤ rows * nb := Nat.mul_le_mul_right nb hrow
      rw [Nat.succ_mul] at hnext
      omega
    have hidx64 : pos64 (row * nb + b) = row * nb + b := Nat.mod_eq_of_lt (by omega)
    have hidx32 : toInt32 (row * nb + b) = (row * nb + b : Nat) := toInt32_of_lt (by omega)
    have hstride : blockStride ti.type ≤ 34 := blockStride_le ti.type
    have hend : (row * nb + b + 1) * blockStride ti.type ≤ rows * nb * blockStride ti.type :=
      Nat.mul_le_mul_right _ hidx
    have hsmall : (row * nb + b) * blockStride ti.type ≤ (row * nb + b) * 34 :=
      Nat.mul_le_mul_left _ hstride
    have hoff : pos64 ((row * nb + b) * blockStride ti.type) =
        (row * nb + b) * blockStride ti.type := Nat.mod_eq_of_lt (by omega)
    rw [Nat.succ_mul] at hend
    have hread := readBlock_ok (show
      ti.offset + (row * nb + b) * blockStride ti.type + blockStride ti.type ≤ data.length by omega)
    simp only [hidx64, hidx32, hoff, hread, ok_bind, storeBlock_natCast, Nat.mul_one]
    exact fills_writeAt _ _
  simp only [← List.map_eq_flatMap] at hfill
  rw [flatMap_range_map fun idx =>
    q20BlockAt data ti.type (ti.offset + idx * blockStride ti.type)] at hfill
  exact hfill.run (by rw [hlen, List.length_map, List.length_range])

/-- What a conversion that returns has read and written. -/
theorem convertLoops_inv {data : Bytes} {ti : GGUFTensorInfo} {rows nb : Nat}
    {blocks blocks' : List BlockTerm} (h : convertLoops data ti rows nb blocks = .ok blocks') :
    blocks'.length = blocks.length ∧
      (rows * nb = 0 ∨ rows * nb ≤ 2147483648 ∧ rows * nb ≤ blocks.length ∧
        ti.offset + rows * nb * blockStride ti.type ≤ data.length) := by
  have hstride : blockStride ti.type ≤ 34 := blockStride_le ti.type
  -- the blocks before a pass, and the size of the table
  let I := fun (n : Nat) (blocks' : List BlockTerm) => blocks'.length = blocks.length ∧
    (n = 0 ∨ n ≤ 2147483648 ∧ n ≤ blocks.length ∧
      ti.offset + n * blockStride ti.type ≤ data.length)
  have hrun : I (rows * nb) blocks' := by
    refine foldlM_range_partial (I := fun row => I (row * nb))
      ⟨rfl, .inl (Nat.zero_mul nb)⟩ ?_ h
    intro row _ blocks₁ blocks₂ hrow hpass
    rw [Nat.succ_mul]
    refine foldlM_range_partial (I := fun b => I (row * nb + b)) hrow ?_ hpass
    intro b _ blocks₁ blocks₂ hb hpass
    obtain ⟨hlen, hpre⟩ := hb
    have hidx64 : pos64 (row * nb + b) = row * nb + b := Nat.mod_eq_of_lt (by omega)
    have hsmall : (row * nb + b) * blockStride ti.type ≤ (row * nb + b) * 34 :=
      Nat.mul_le_mul_left _ hstride
    have hoff : pos64 ((row * nb + b) * blockStride ti.type) =
        (row * nb + b) * blockStride ti.type := Nat.mod_eq_of_lt (by omega)
    obtain ⟨block, hread, hstore⟩ := bind_eq_ok.1 hpass
    have hin := readBlock_inside hread
    rw [hidx64, hoff] at hin
    unfold storeBlock at hstore
    rw [hidx64] at hstore
    split at hstore
    · cases hstore
    · rename_i hneg
      have hlt : row * nb + b < 2147483648 := (toInt32_nonneg_iff (by omega)).1 (by omega)
      rw [toInt32_of_lt hlt, Int.toNat_natCast] at hstore
      obtain ⟨hwrite, rfl⟩ := writeAt_singleton_eq_ok hstore
      refine ⟨by rw [List.length_set, hlen], .inr ⟨hlt, by omega, ?_⟩⟩
      rw [← Nat.add_assoc, Nat.succ_mul]
      omega
  exact hrun

/-- The term loop of the cache on a layer with one table of blocks. -/
theorem contigTerms_returns_iff {ld : LayerData} {blocks : List BlockTerm} {nb : Nat}
    (hqk : ld.blockQk = 128) (hterms : ld.blockTerms = [blocks]) :
    (∃ caches, contigTerms ld nb = .ok caches) ↔ (blocks.length = sizeT (ld.outFeatures * nb) →
      sizeTerm ld.outFeatures nb 32 = .ok () ∧
        ∃ cache, contigTerm ld.outFeatures.toNat nb 32 0 blocks = .ok cache) := by
  rw [contigTerms, exists_mapM_ok_iff, hterms, hqk]
  constructor
  · intro h hsize
    obtain ⟨cache, hcache⟩ := h (blocks, 0) (.head _)
    dsimp only at hcache
    rw [if_neg (not_not.2 hsize)] at hcache
    obtain ⟨_, hsizes, hcache⟩ := bind_eq_ok.1 hcache
    exact ⟨hsizes, cache, hcache⟩
  · intro h x hx
    cases List.mem_singleton.1 hx
    dsimp only
    split
    · exact ⟨_, rfl⟩
    · rename_i hsize
      obtain ⟨hsizes, cache, hcache⟩ := h (not_not.1 hsize)
      exact ⟨cache, bind_eq_ok.2 ⟨(), hsizes, hcache⟩⟩

/-- The cache of a layer with one table of blocks. -/
theorem buildCache_returns_iff {ld : LayerData} {blocks : List BlockTerm}
    (hblocks : ld.hasBlocks = true) (hqk : ld.blockQk = 128) (hterms : ld.blockTerms = [blocks]) :
    (∃ ld', buildBlockContigCache ld = .ok ld') ↔
      (0 < ld.inFeatures → ld.inFeatures ≤ 2147483519 ∧
        (blocks.length = sizeT (ld.outFeatures * blocksPerRow ld.inFeatures.toNat) →
          sizeTerm ld.outFeatures (blocksPerRow ld.inFeatures.toNat) 32 = .ok () ∧
            ∃ cache, contigTerm ld.outFeatures.toNat (blocksPerRow ld.inFeatures.toNat) 32 0 blocks =
              .ok cache)) := by
  unfold buildBlockContigCache
  by_cases hpos : 0 < ld.inFeatures
  · have hguard : (!ld.hasBlocks || ld.blockTerms.isEmpty || decide (ld.inFeatures ≤ 0)) = false := by
      simp [hblocks, hterms, hpos]
    obtain ⟨cols, hcols⟩ := Int.eq_ofNat_of_zero_le hpos.le
    rw [hguard, if_neg (by decide), forall_prop_of_true hpos, ← contigTerms_returns_iff hqk hterms,
      hqk, hcols, Int.toNat_natCast]
    constructor
    · rintro ⟨ld', h⟩
      obtain ⟨nb, hnb, h⟩ := bind_eq_ok.1 h
      have hle : (cols : Int) ≤ 2147483519 := ceilBlocks_128_le hnb
      rw [ceilBlocks_ok (by exact_mod_cast hle)] at hnb
      cases hnb
      obtain ⟨caches, hcaches, -⟩ := bind_eq_ok.1 h
      exact ⟨hle, caches, hcaches⟩
    · rintro ⟨hle, caches, hcaches⟩
      refine ⟨ld.withCache caches, ?_⟩
      rw [ceilBlocks_ok (by exact_mod_cast hle), ok_bind, hcaches]
      rfl
  · have hguard : (!ld.hasBlocks || ld.blockTerms.isEmpty || decide (ld.inFeatures ≤ 0)) = true := by
      simp [Int.not_lt.1 hpos]
    rw [hguard, if_pos rfl]
    exact ⟨fun _ h => absurd h hpos, fun _ => ⟨_, rfl⟩⟩

/-- What `convert_q2_0_to_layer` relies on: a number of blocks that a vector can have, indices that
are `int` values, and the blocks inside the file. The last two parts concern the cache: it takes the
dimensions as `int32_t` values, which must not overflow, and where these give the size of a table
that the loops have not filled it copies codes that are not there. -/
structure ConvertFits (ti : GGUFTensorInfo) (inFeatures outFeatures size : Nat) : Prop where
  alloc : pos64 (outFeatures * sizeT (convertBlocks inFeatures)) ≤ vectorMaxSize 32
  blocks : 0 < convertBlocks inFeatures → outFeatures ≠ 0 →
    outFeatures * (convertBlocks inFeatures).toNat ≤ 2147483648 ∧
    ti.offset + outFeatures * (convertBlocks inFeatures).toNat * blockStride ti.type ≤ size
  columns : toInt32 inFeatures ≤ 2147483519
  filled : 0 < toInt32 inFeatures → convertBlocks inFeatures ≤ 0 →
    pos64 (outFeatures * sizeT (convertBlocks inFeatures)) =
      sizeT (toInt32 outFeatures * blocksPerRow (toInt32 inFeatures).toNat) →
    pos64 (outFeatures * sizeT (convertBlocks inFeatures)) = 0

/-- Loops over no blocks leave the table alone. -/
theorem convertLoops_none (data : Bytes) (ti : GGUFTensorInfo) (rows : Nat)
    (blocks : List BlockTerm) : convertLoops data ti rows 0 blocks = .ok blocks := by
  have hloop : convertLoops data ti rows 0 blocks =
      .ok ((List.range rows).foldl (fun blocks _ => blocks) blocks) :=
    foldlM_ok (List.range rows) blocks fun _ _ _ => rfl
  rw [hloop, List.foldl_fixed]

/-- The size of a table of `int32_t` dimensions that a vector can have. -/
theorem sizeT_rows {rows cols : Int} (hrows : -2147483648 ≤ rows ∧ rows ≤ 2147483647)
    (hpos : 0 < cols) (hcols : cols ≤ 2147483519)
    (h : sizeT (rows * blocksPerRow cols.toNat) ≤ vectorMaxSize 32) :
    0 ≤ rows ∧ sizeT (rows * blocksPerRow cols.toNat) = rows.toNat * blocksPerRow cols.toNat := by
  have hnbpos : 0 < blocksPerRow cols.toNat := blocksPerRow_pos (by omega)
  have hnb : blocksPerRow cols.toNat ≤ 16777216 := by
    unfold blocksPerRow
    omega
  have hmax : sizeT (rows * blocksPerRow cols.toNat) ≤ 288230376151711743 := h
  generalize blocksPerRow cols.toNat = nb at *
  rcases Int.lt_or_le rows 0 with hneg | hpos
  · obtain ⟨k, rfl⟩ : ∃ k : Nat, rows = -k := ⟨rows.natAbs, by omega⟩
    have hprod : k * nb ≤ 2147483648 * 16777216 := Nat.mul_le_mul (by omega) hnb
    have hcast : (-(k : Int)) * nb = -((k * nb : Nat) : Int) := by
      push_cast
      ring
    have hk : 0 < k * nb := Nat.mul_pos (by omega) hnbpos
    rw [hcast] at hmax
    unfold sizeT at hmax
    omega
  · obtain ⟨k, rfl⟩ := Int.eq_ofNat_of_zero_le hpos
    have hprod : k * nb ≤ 2147483648 * 16777216 := Nat.mul_le_mul (by omega) hnb
    refine ⟨hpos, ?_⟩
    rw [← Int.natCast_mul, sizeT_of_nonneg (by omega) (by omega), Int.toNat_natCast,
      Int.toNat_natCast]

/-- The loops on a tensor that fits: a table of full blocks, unless nothing is filled. -/
theorem convertLoops_of_fits {ti : GGUFTensorInfo} {inFeatures outFeatures : Nat} {data : Bytes}
    (h : ConvertFits ti inFeatures outFeatures data.length) :
    ∃ blocks, convertLoops data ti outFeatures (convertBlocks inFeatures).toNat
        (List.replicate (pos64 (outFeatures * sizeT (convertBlocks inFeatures))) {}) = .ok blocks ∧
      blocks.length = pos64 (outFeatures * sizeT (convertBlocks inFeatures)) ∧
      (0 < toInt32 inFeatures → blocks.length =
        sizeT (toInt32 outFeatures * blocksPerRow (toInt32 inFeatures).toNat) →
        ∀ x ∈ blocks, x.packed.length = 32) := by
  by_cases hnone : convertBlocks inFeatures ≤ 0
  · refine ⟨_, by rw [Int.toNat_of_nonpos hnone, convertLoops_none], List.length_replicate, ?_⟩
    intro hcols hsize
    rw [List.length_replicate] at hsize
    rw [h.filled hcols hnone hsize]
    exact nofun
  · obtain ⟨nb, hnb⟩ := Int.eq_ofNat_of_zero_le (Int.not_le.1 hnone).le
    have hfits := h.blocks (Int.not_le.1 hnone)
    have hrange := toInt32_range (pos64 (inFeatures + q20BlockSize - 1) / q20BlockSize)
    have hnb' : nb ≤ 2147483647 := by
      have hle : convertBlocks inFeatures ≤ 2147483647 := hrange.2
      omega
    rw [hnb, Int.toNat_natCast] at hfits ⊢
    rw [show sizeT (nb : Int) = nb by rw [sizeT_of_nonneg (by omega) (by omega), Int.toNat_natCast]]
    have htotal : outFeatures * nb ≤ 2147483648 ∧ (outFeatures * nb = 0 ∨
        ti.offset + outFeatures * nb * blockStride ti.type ≤ data.length) := by
      by_cases hrows : outFeatures = 0
      · subst hrows
        omega
      · exact ⟨(hfits hrows).1, .inr (hfits hrows).2⟩
    rw [show pos64 (outFeatures * nb) = outFeatures * nb from Nat.mod_eq_of_lt (by omega)]
    refine ⟨_, convertLoops_ok htotal.1 htotal.2 List.length_replicate, ?_, fun _ _ => ?_⟩
    · rw [tensorBlocks, List.length_map, List.length_range]
    · exact packed_tensorBlocks htotal.2

/-- `convert_q2_0_to_layer` returns exactly where the tensor has fewer than two dimensions or
fits. -/
theorem convert_returns_iff {gguf : GGUFFile} {ti : GGUFTensorInfo} {name : Bytes} :
    (∃ r, convertQ20ToLayer gguf ti name = .ok r) ↔
      ∀ inFeatures outFeatures rest, ti.dims = inFeatures :: outFeatures :: rest →
        ConvertFits ti inFeatures outFeatures gguf.fileData.length := by
  unfold convertQ20ToLayer
  split
  · rename_i inFeatures outFeatures rest hdims
    have hone : (∀ i o r, ti.dims = i :: o :: r → ConvertFits ti i o gguf.fileData.length) ↔
        ConvertFits ti inFeatures outFeatures gguf.fileData.length := by
      constructor
      · intro h
        exact h _ _ _ hdims
      · intro h i o r hdims'
        cases hdims.symm.trans hdims'
        exact h
    rw [hone, exists_check_ok_iff]
    constructor
    · rintro ⟨halloc, r, h⟩
      obtain ⟨blocks, hloops, h⟩ := bind_eq_ok.1 h
      obtain ⟨ld, hcache, -⟩ := bind_eq_ok.1 h
      obtain ⟨hlen, hin⟩ := convertLoops_inv hloops
      rw [List.length_replicate] at hlen
      have hcache := (buildCache_returns_iff rfl rfl rfl).1 ⟨ld, hcache⟩
      dsimp only at hcache
      refine ⟨halloc, fun hpos hrows => ?_, ?_, fun hcols hnone hsize => ?_⟩
      · obtain ⟨hint, -, hend⟩ := hin.resolve_left
          (Nat.mul_ne_zero hrows (Int.pos_iff_toNat_pos.1 hpos).ne')
        exact ⟨hint, hend⟩
      · by_cases hcols : 0 < toInt32 inFeatures
        · exact (hcache hcols).1
        · omega
      · rw [Int.toNat_of_nonpos hnone, convertLoops_none] at hloops
        cases hloops
        obtain ⟨hcols', hcache⟩ := hcache hcols
        obtain ⟨-, cache, hcache⟩ := hcache (hlen.trans hsize)
        by_contra hne
        obtain ⟨-, hrows⟩ := sizeT_rows (toInt32_range outFeatures) hcols hcols' (hsize ▸ halloc)
        have hempty := (contigTerm_returns_iff (by
          rw [List.length_replicate]
          exact hsize.trans hrows)).1 ⟨cache, hcache⟩ {} (List.mem_replicate.2 ⟨hne, rfl⟩)
        exact absurd hempty (by decide)
    · intro hfits
      refine ⟨hfits.alloc, ?_⟩
      obtain ⟨blocks, hloops, hlen, hpacked⟩ := convertLoops_of_fits hfits
      let layer : LayerData := {
        name, outFeatures := toInt32 outFeatures, inFeatures := toInt32 inFeatures
        hasBlocks := true, numTerms := 0, blockQk := 128, blockTerms := [blocks] }
      have hcache := (@buildCache_returns_iff layer blocks rfl rfl rfl).2 fun hcols =>
        ⟨hfits.columns, fun hsize => ?_⟩
      · obtain ⟨ld, hld⟩ := hcache
        refine ⟨some ld, ?_⟩
        rw [hloops, ok_bind]
        dsimp only
        rw [hld]
        rfl
      · obtain ⟨hsign, hrows⟩ := sizeT_rows (toInt32_range outFeatures) hcols hfits.columns
          (hsize.symm.trans hlen ▸ hfits.alloc)
        refine ⟨?_, _, contigTerm_ok (hsize.trans hrows) (hpacked hcols hsize) 0⟩
        have hfit : (toInt32 outFeatures).toNat * blocksPerRow (toInt32 inFeatures).toNat ≤
            288230376151711743 :=
          (hrows.symm.trans (hsize.symm.trans hlen)).le.trans hfits.alloc
        have hsizes := sizeTerm_ok hfit
        rwa [Int.toNat_of_nonneg hsign] at hsizes
  · rename_i hdims
    exact ⟨fun _ i o r h => absurd h (hdims i o r), fun _ => ⟨none, rfl⟩⟩

end Terllama
