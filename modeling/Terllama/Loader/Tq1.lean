import Terllama.Base.FloatInt
import Terllama.Loader.Planes

/-!
# The TQ1 reader

`load_decomposed_layers_tq1` of `src/loader.h`. A record holds, for each row and each 120 columns, 24
bytes of five base-3 digits and a scale. The loader decodes all digits and packs them again for the
block kernels, in blocks of 128 columns, with the largest magnitude of a block for its scale
(`convertTq1_ok`). The scales of the file are never read: `tq1_faithful_iff` says which matrices are
none the worse for it.
-/

namespace Terllama

/-! ## Decoding -/

/-- `tq1_decode_byte`: the five base-3 digits, the lowest first, less one. -/
def tq1DecodeByte (byte : UInt8) : List Int :=
  (List.range 5).map fun i => ((byte.toNat / 3 ^ i % 3 : Nat) : Int) - 1

/-- `tq1_decode_block`, from `packed = data + offset` to `ternary = all + pos`. -/
def tq1DecodeBlock (data : Bytes) (offset pos n : Nat) (all : List Int) : Exec (List Int) :=
  (List.range ((n + 4) / 5)).foldlM (fun all i => do
    let byte ← load data (offset + i)
    let trits := tq1DecodeByte byte
    (List.range 5).foldlM (fun all j =>
      if i * 5 + j < n then writeAt all (pos + (i * 5 + j)) [trits.getD j 0] else .ok all) all) all

/-- A pass of the decoding: block `b` of row `row`. -/
def decodeTq1Block (data : Bytes) (inF rowStride : Int) (row : Nat) (all : List Int) (b : Nat) :
    Exec (List Int) := do
  let blockStart ← i32 (b * 120)
  let blockEnd ← i32 (blockStart + 120)
  let blockSize := min blockEnd inF - blockStart
  let rowOff ← i32 (row * rowStride)
  let blockOff ← i32 (b * 28)
  let offset ← i32 (rowOff + blockOff)
  tq1DecodeBlock data offset.toNat (row * inF.toNat + blockStart.toNat) blockSize.toNat all

/-- The decoding of a record to its ternary matrix. -/
def decodeTq1 (data : Bytes) (outF inF nBlocks : Int) (all : List Int) : Exec (List Int) := do
  let rowStride ← i32 (nBlocks * 28)
  (List.range outF.toNat).foldlM (fun all row =>
    (List.range nBlocks.toNat).foldlM (decodeTq1Block data inF rowStride row) all) all

/-! ## Packing again -/

/-- `std::abs((float)tv)`. -/
def absTrit (tv : Int) : F32 := F32.ofInt tv &&& 0x7FFFFFFF

/-- The block of the `n` weights from `pos` on. Words of floats that are not negative compare as the
floats do. -/
def packTq1Block (all : List Int) (pos n : Nat) : Exec BlockTerm := do
  let packed ← (List.range n).foldlM (fun packed j => do
    let tv ← load all (pos + j)
    let byte ← load packed (j / 4)
    let code := UInt8.ofInt (tv + 1)
    return packed.set (j / 4) (byte ||| (code <<< (6 - 2 * UInt8.ofNat (j % 4)))))
    (List.replicate 32 0)
  let maxAbs ← (List.range n).foldlM (fun maxAbs j => do
    let tv ← load all (pos + j)
    return if maxAbs < absTrit tv then absTrit tv else maxAbs) (0 : F32)
  return ⟨packed, if 0 < maxAbs then maxAbs else 0x3F800000⟩

/-- A pass of the packing: block `b` of row `row`. -/
def repackTq1Block (all : List Int) (inF nBlocks : Int) (row : Nat) (blocks : List BlockTerm)
    (b : Nat) : Exec (List BlockTerm) := do
  let rowIdx ← i32 (row * nBlocks)
  let blockIdx ← i32 (rowIdx + b)
  let blockStart ← i32 (b * 128)
  let blockEnd ← i32 (blockStart + 128)
  let blockSize := min blockEnd inF - blockStart
  let block ← packTq1Block all (row * inF.toNat + blockStart.toNat) blockSize.toNat
  writeAt blocks blockIdx.toNat [block]

/-- The block table of the ternary matrix. -/
def repackTq1 (all : List Int) (outF inF nBlocks : Int) (blocks : List BlockTerm) :
    Exec (List BlockTerm) :=
  (List.range outF.toNat).foldlM (fun blocks row =>
    (List.range nBlocks.toNat).foldlM (repackTq1Block all inF nBlocks row) blocks) blocks

/-- The bitplanes of the ternary matrix. -/
def planesTq1 (all : List Int) (outF inF : Int) : Exec BitplaneTerm := do
  let s ← i32 (inF + 15)
  let wordsPerRow := s.tdiv 16
  let nWords := sizeT (outF * wordsPerRow)
  vectorAlloc nWords 4
  let combined ← (List.range outF.toNat).foldlM (fun combined row =>
    (List.range inF.toNat).foldlM (fun combined j => do
      let tv ← load all (row * inF.toNat + j)
      let absWord := row * wordsPerRow.toNat + j / 16
      let bit := UInt32.ofNat (j % 16)
      if tv = 1 then orWord combined absWord (1 <<< (bit + 16))
      else if tv = -1 then orWord combined absWord ((1 <<< (bit + 16)) ||| (1 <<< bit))
      else return combined) combined)
    (List.replicate nWords 0)
  return { alphaExp := 0, nElements := sizeT (outF * inF), combined }

/-- The conversion of a TQ1 record to a block layer. -/
def convertTq1 (ld : LayerData) (data : Bytes) : Exec LayerData := do
  let nTq1Blocks ← ceilBlocks ld.inFeatures 120
  let nBlkBlocks ← ceilBlocks ld.inFeatures 128
  let n := sizeT (ld.outFeatures * ld.inFeatures)
  vectorAlloc n 1
  let all ← decodeTq1 data ld.outFeatures ld.inFeatures nTq1Blocks (List.replicate n 0)
  let nBlocks := sizeT (ld.outFeatures * nBlkBlocks)
  vectorAlloc nBlocks sizeofBlockTerm
  let blocks ← repackTq1 all ld.outFeatures ld.inFeatures nBlkBlocks
    (List.replicate nBlocks default)
  let ld ← buildBlockContigCache { ld with hasBlocks := true, blockQk := 128, blockTerms := [blocks] }
  let term ← planesTq1 all ld.outFeatures ld.inFeatures
  return { ld with numTerms := 1, terms := ld.terms ++ [term] }

/-! ## The file -/

/-- One record of `load_decomposed_layers_tq1`. -/
def readTq1Layer : StreamM LayerData := do
  let nameLen ← readU32 "name_len"
  let name ← readInto (List.replicate nameLen.toNat 0)
  let outFeatures ← readI32
  let inFeatures ← readI32
  let layerType ← readU8 "layer_type"
  let dataLen ← readU32 "data_len"
  let data ← readInto (List.replicate dataLen.toNat 0)
  let ld : LayerData := { name, outFeatures, inFeatures }
  if layerType = 1 then
    let rawWeights ← copyFloats data
    return { ld with hasRawWeights := true, rawWeights }
  else convertTq1 ld data

/-- The record loop. -/
def readTq1Layers : Nat → StreamM (List LayerData)
  | 0 => pure []
  | n + 1 => do
    let ld ← readTq1Layer
    let rest ← readTq1Layers n
    return ld :: rest

/-- The magic number and the record count of the file. -/
def readTq1Header : StreamM UInt32 := do
  let magic ← readU32 "magic"
  if magic ≠ 0x5F315154 then (raise "Bad magic in TQ1 model file" : Exec UInt32)
  else readU32 "num_layers"

/-- `load_decomposed_layers_tq1`, on the contents of the file. -/
def loadDecomposedLayersTq1 (file : Bytes) : Exec (List LayerData) := do
  let (numLayers, s) ← readTq1Header (.open file)
  let (layers, _) ← readTq1Layers numLayers.toNat s
  return layers

/-! ## What is decoded -/

/-- A base-3 digit of a byte, less one. -/
def tq1Trit (byte : UInt8) (i : Nat) : Int := ((byte.toNat / 3 ^ i % 3 : Nat) : Int) - 1

theorem tq1Trit_isTernary (byte : UInt8) (i : Nat) : IsTernary (tq1Trit byte i) := by
  have hlt := Nat.mod_lt (byte.toNat / 3 ^ i) (show 0 < 3 by decide)
  unfold tq1Trit IsTernary
  omega

theorem tq1DecodeByte_getD (byte : UInt8) {i : Nat} (hi : i < 5) :
    (tq1DecodeByte byte).getD i 0 = tq1Trit byte i := getD_map_range _ hi 0

/-- The number of 120-column blocks of a row. -/
def tq1Blocks (cols : Nat) : Nat := (cols + 119) / 120

/-- The weight of a record at a row and a column. -/
def tq1Weight (data : Bytes) (cols row j : Nat) : Int :=
  tq1Trit (data.getD ((row * tq1Blocks cols + j / 120) * 28 + j % 120 / 5) 0) (j % 120 % 5)

/-- The scale of a record at a row and a block. -/
def tq1Scale (data : Bytes) (cols row b : Nat) : F32 :=
  F32.ofBytes ((data.drop ((row * tq1Blocks cols + b) * 28 + 24)).take 4)

theorem tq1Weight_isTernary (data : Bytes) (cols row j : Nat) :
    IsTernary (tq1Weight data cols row j) := tq1Trit_isTernary _ _

/-- The elements of a loop that a bound cuts off. -/
theorem flatMap_range_guard {α : Type} (g : Nat → α) (m c : Nat) :
    ((List.range m).flatMap fun j => if j < c then [g j] else []) =
      (List.range (min m c)).map g := by
  induction m with
  | zero => simp
  | succ m ih =>
    rw [List.range_succ, List.flatMap_append, ih, List.flatMap_singleton]
    rcases Nat.lt_or_ge m c with hlt | hge
    · rw [if_pos hlt, Nat.min_eq_left (Nat.le_of_lt hlt), Nat.min_eq_left hlt, List.range_succ,
        List.map_append, List.map_singleton]
    · rw [if_neg (Nat.not_lt.2 hge), Nat.min_eq_right hge, Nat.min_eq_right (by omega),
        List.append_nil]

/-- The decoding of a block fills its weights. -/
theorem fills_tq1DecodeBlock {data : Bytes} {offset n : Nat}
    (h : offset + (n + 4) / 5 ≤ data.length) (pos : Nat) :
    Fills (tq1DecodeBlock data offset pos n) pos
      ((List.range n).map fun k => tq1Trit (data.getD (offset + k / 5) 0) (k % 5)) := by
  let g (k : Nat) : Int := tq1Trit (data.getD (offset + k / 5) 0) (k % 5)
  have hdigit : ∀ i, ∀ j < 5, (tq1DecodeByte (data.getD (offset + i) 0)).getD j 0 = g (i * 5 + j) := by
    intro i j hj
    rw [tq1DecodeByte_getD _ hj]
    simp only [g, show (i * 5 + j) / 5 = i by omega, show (i * 5 + j) % 5 = j by omega]
  have hbyte : ∀ i < (n + 4) / 5, Fills (fun all => do
      let byte ← load data (offset + i)
      let trits := tq1DecodeByte byte
      (List.range 5).foldlM (fun all j =>
        if i * 5 + j < n then writeAt all (pos + (i * 5 + j)) [trits.getD j 0] else .ok all) all)
      (pos + min (i * 5) n) ((List.range (min 5 (n - i * 5))).map fun j => g (i * 5 + j)) := by
    intro i hi
    simp only [load_getD (show offset + i < data.length by omega) 0, ok_bind]
    rw [← flatMap_range_guard]
    refine (Fills.foldlM_at (p := fun j => pos + min (i * 5 + j) n) (fun j hj => ?_)
      fun j hj => ?_).1
    · split <;> simp <;> omega
    · rw [hdigit i j hj]
      by_cases hlt : i * 5 + j < n
      · simp only [if_pos hlt, if_pos (show j < n - i * 5 by omega), Nat.min_eq_left hlt.le]
        exact fills_writeAt _ _
      · simp only [if_neg hlt, if_neg (show ¬ j < n - i * 5 by omega)]
        exact fills_nil _
  have hall := (Fills.foldlM_at (p := fun i => pos + min (i * 5) n) (fun i hi => by
    rw [List.length_map, List.length_range]
    omega) hbyte).1
  rw [flatMap_range_map_min g (by omega)] at hall
  rw [Nat.zero_mul, Nat.zero_min, Nat.add_zero] at hall
  exact hall

/-- The payload of a record of this many elements. -/
structure Tq1Data (rows cols : Nat) (data : Bytes) : Prop where
  length : data.length = rows * tq1Blocks cols * 28

/-- The offsets of its blocks are `int`s, and so are the ends of its rows in either blocks. -/
structure Tq1Fits (rows cols : Nat) : Prop where
  cols_le : cols ≤ 2147483519
  offset_le : ∀ row < rows, ∀ b < tq1Blocks cols, (row * tq1Blocks cols + b) * 28 ≤ 2147483647

theorem tq1Blocks_mul {cols : Nat} : cols ≤ tq1Blocks cols * 120 := by
  unfold tq1Blocks
  omega

/-- A block lies inside the payload. -/
theorem Tq1Data.block_le {rows cols : Nat} {data : Bytes} (h : Tq1Data rows cols data) {row b : Nat}
    (hrow : row < rows) (hb : b < tq1Blocks cols) :
    (row * tq1Blocks cols + b) * 28 + 28 ≤ data.length := by
  have hrows := Nat.mul_le_mul_right (tq1Blocks cols) (Nat.succ_le_of_lt hrow)
  rw [Nat.succ_mul] at hrows
  rw [h.length]
  omega

theorem fills_decodeTq1Block {rows cols : Nat} {data : Bytes} (h : Tq1Data rows cols data)
    (hfits : Tq1Fits rows cols) {row b : Nat} (hrow : row < rows) (hb : b < tq1Blocks cols) :
    Fills (fun all => decodeTq1Block data cols (tq1Blocks cols * 28 : Nat) row all b)
      (row * cols + min (b * 120) cols)
      ((List.range (min 120 (cols - b * 120))).map fun k => tq1Weight data cols row (b * 120 + k)) := by
  have hoff := hfits.offset_le row hrow b hb
  have hend := h.block_le hrow hb
  have hcols := hfits.cols_le
  have hstart : b * 120 < cols := by
    unfold tq1Blocks at hb
    omega
  have hwhole : row * (tq1Blocks cols * 28) + b * 28 = (row * tq1Blocks cols + b) * 28 := by ring
  have hsize : (min ((b : Int) * 120 + 120) cols - (b : Int) * 120).toNat =
      min 120 (cols - b * 120) := by omega
  have hrowOff : ((row : Int) * (tq1Blocks cols * 28 : Nat)) =
      ((row * (tq1Blocks cols * 28) : Nat) : Int) := by push_cast; ring
  have hpos : row * (cols : Int).toNat + ((b : Int) * 120).toNat = row * cols + min (b * 120) cols := by
    rw [Int.toNat_natCast]
    omega
  have hoffset : (((row * (tq1Blocks cols * 28) : Nat) : Int) + (b : Int) * 28).toNat =
      (row * tq1Blocks cols + b) * 28 := by omega
  have hstep : ∀ all, decodeTq1Block data cols (tq1Blocks cols * 28 : Nat) row all b =
      tq1DecodeBlock data ((row * tq1Blocks cols + b) * 28) (row * cols + min (b * 120) cols)
        (min 120 (cols - b * 120)) all := by
    intro all
    rw [decodeTq1Block, i32_ok (by omega) (by omega), ok_bind, i32_ok (by omega) (by omega), ok_bind,
      hrowOff, i32_ok (by omega) (by omega), ok_bind, i32_ok (by omega) (by omega), ok_bind,
      i32_ok (by omega) (by omega), ok_bind, hoffset, hsize, hpos]
  have hweights : ((List.range (min 120 (cols - b * 120))).map fun k =>
      tq1Weight data cols row (b * 120 + k)) = (List.range (min 120 (cols - b * 120))).map fun k =>
      tq1Trit (data.getD ((row * tq1Blocks cols + b) * 28 + k / 5) 0) (k % 5) := by
    refine List.map_congr_left fun k hk => ?_
    have hk := List.mem_range.1 hk
    rw [tq1Weight, show (b * 120 + k) / 120 = b by omega, show (b * 120 + k) % 120 = k by omega]
  simp only [hstep]
  rw [hweights]
  exact fills_tq1DecodeBlock (by omega) _

/-- The decoding of a record gives its weights, row by row. -/
theorem decodeTq1_ok {rows cols : Nat} {data : Bytes} (h : Tq1Data rows cols data)
    (hfits : Tq1Fits rows cols) {all : List Int} (hall : all.length = rows * cols) :
    decodeTq1 data rows cols (tq1Blocks cols) all =
      .ok ((List.range (rows * cols)).map fun p => tq1Weight data cols (p / cols) (p % cols)) := by
  have hcols := hfits.cols_le
  have hstride : (tq1Blocks cols : Int) * 28 = (tq1Blocks cols * 28 : Nat) := by push_cast; ring
  have hle : tq1Blocks cols * 28 ≤ 2147483647 := by unfold tq1Blocks; omega
  have hrow : ∀ row < rows, Fills (fun all => (List.range (tq1Blocks cols)).foldlM
      (decodeTq1Block data cols (tq1Blocks cols * 28 : Nat) row) all) (row * cols)
      ((List.range cols).map fun j => tq1Weight data cols row j) := by
    intro row hrow
    have hblocks := (Fills.foldlM_at (p := fun b => row * cols + min (b * 120) cols)
      (fun b hb => by rw [List.length_map, List.length_range]; omega)
      fun b hb => fills_decodeTq1Block h hfits hrow hb).1
    rwa [flatMap_range_map_min (fun j => tq1Weight data cols row j) tq1Blocks_mul, Nat.zero_mul,
      Nat.zero_min, Nat.add_zero] at hblocks
  have hrows : Fills (fun all => (List.range rows).foldlM (fun all row =>
      (List.range (tq1Blocks cols)).foldlM
        (decodeTq1Block data cols (tq1Blocks cols * 28 : Nat) row) all) all) 0
      ((List.range rows).flatMap fun row =>
        (List.range cols).map fun j => tq1Weight data cols row j) := by
    refine Fills.foldlM (s := cols) (fun row _ => by rw [List.length_map, List.length_range])
      fun row hlt => ?_
    rw [Nat.zero_add]
    exact hrow row hlt
  have hflat : ((List.range rows).flatMap fun row =>
      (List.range cols).map fun j => tq1Weight data cols row j) =
      (List.range (rows * cols)).map fun p => tq1Weight data cols (p / cols) (p % cols) := by
    rw [← flatMap_range_map]
    refine List.flatMap_congr fun row _ => List.map_congr_left fun j hj => ?_
    have hj := List.mem_range.1 hj
    rw [Nat.mul_comm row cols, Nat.mul_add_div (by omega), Nat.div_eq_of_lt hj, Nat.add_zero,
      Nat.mul_add_mod, Nat.mod_eq_of_lt hj]
  rw [hflat] at hrows
  rw [decodeTq1, hstride, i32_ok (by omega) (by omega), ok_bind]
  simp only [Int.toNat_natCast]
  exact hrows.run (by rw [hall, List.length_map, List.length_range])

/-! ## What is packed again -/

/-- Or-ing a code into a byte whose place for it is clear. -/
theorem codeByte_or {v : Nat → Int} (hv : ∀ k, IsTernary (v k)) {k : Nat} (hk : k < 4)
    (hclear : v k = -1) {u : Int} (hu : IsTernary u) :
    codeByte (ternaryCode (v 0)) (ternaryCode (v 1)) (ternaryCode (v 2)) (ternaryCode (v 3)) |||
        (UInt8.ofInt (u + 1) <<< (6 - 2 * UInt8.ofNat k)) =
      codeByte (ternaryCode (Function.update v k u 0)) (ternaryCode (Function.update v k u 1))
        (ternaryCode (Function.update v k u 2)) (ternaryCode (Function.update v k u 3)) := by
  have table : ∀ a ∈ [(-1 : Int), 0, 1], ∀ b ∈ [(-1 : Int), 0, 1], ∀ c ∈ [(-1 : Int), 0, 1],
      ∀ d ∈ [(-1 : Int), 0, 1],
      let code := UInt8.ofInt (d + 1)
      codeByte 0 (ternaryCode a) (ternaryCode b) (ternaryCode c) ||| (code <<< (6 - 2 * 0)) =
          codeByte (ternaryCode d) (ternaryCode a) (ternaryCode b) (ternaryCode c) ∧
        codeByte (ternaryCode a) 0 (ternaryCode b) (ternaryCode c) ||| (code <<< (6 - 2 * 1)) =
          codeByte (ternaryCode a) (ternaryCode d) (ternaryCode b) (ternaryCode c) ∧
        codeByte (ternaryCode a) (ternaryCode b) 0 (ternaryCode c) ||| (code <<< (6 - 2 * 2)) =
          codeByte (ternaryCode a) (ternaryCode b) (ternaryCode d) (ternaryCode c) ∧
        codeByte (ternaryCode a) (ternaryCode b) (ternaryCode c) 0 ||| (code <<< (6 - 2 * 3)) =
          codeByte (ternaryCode a) (ternaryCode b) (ternaryCode c) (ternaryCode d) := by
    decide +kernel
  have hmem : ∀ {w : Int}, IsTernary w → w ∈ [(-1 : Int), 0, 1] := fun hw => by
    rcases hw with h | h | h <;> simp [h]
  have hzero : ternaryCode (-1) = 0 := rfl
  match k, hk with
  | 0, _ =>
    have h := (table _ (hmem (hv 1)) _ (hmem (hv 2)) _ (hmem (hv 3)) _ (hmem hu)).1
    simpa [Function.update, hclear, hzero] using h
  | 1, _ =>
    have h := (table _ (hmem (hv 0)) _ (hmem (hv 2)) _ (hmem (hv 3)) _ (hmem hu)).2.1
    simpa [Function.update, hclear, hzero] using h
  | 2, _ =>
    have h := (table _ (hmem (hv 0)) _ (hmem (hv 1)) _ (hmem (hv 3)) _ (hmem hu)).2.2.1
    simpa [Function.update, hclear, hzero] using h
  | 3, _ =>
    have h := (table _ (hmem (hv 0)) _ (hmem (hv 1)) _ (hmem (hv 2)) _ (hmem hu)).2.2.2
    simpa [Function.update, hclear, hzero] using h

/-- A code in a clear place of packed codes. -/
theorem packCodes_set {v : Nat → Int} (hv : ∀ k, IsTernary (v k)) {n j : Nat}
    (hclear : v j = -1) {u : Int} (hu : IsTernary u) :
    (packCodes v n).set (j / 4) ((packCodes v n).getD (j / 4) 0 |||
        (UInt8.ofInt (u + 1) <<< (6 - 2 * UInt8.ofNat (j % 4)))) =
      packCodes (Function.update v j u) n := by
  refine List.ext_getElem (by simp) fun g h₁ h₂ => ?_
  have hg : g < n := by simpa using h₂
  rw [List.getElem_set]
  by_cases hhere : j / 4 = g
  · rw [if_pos hhere]
    subst hhere
    have hor := codeByte_or (v := fun k => v (4 * (j / 4) + k)) (fun k => hv _)
      (show j % 4 < 4 by omega) (by rw [Nat.div_add_mod]; exact hclear) hu
    have hupdate : ∀ k < 4, Function.update (fun k => v (4 * (j / 4) + k)) (j % 4) u k =
        Function.update v j u (4 * (j / 4) + k) := by
      intro k hk
      simp only [Function.update_apply]
      exact if_congr (by omega) rfl rfl
    rw [hupdate 0 (by omega), hupdate 1 (by omega), hupdate 2 (by omega), hupdate 3 (by omega)] at hor
    rw [packCodes, getD_map_range _ hg]
    simpa [packCodes] using hor
  · rw [if_neg hhere]
    have hother : ∀ k < 4, Function.update v j u (4 * g + k) = v (4 * g + k) := fun k hk =>
      Function.update_of_ne (by omega) _ _
    have hfirst : Function.update v j u (4 * g) = v (4 * g) := hother 0 (by omega)
    simp [packCodes, hfirst, hother 1 (by omega), hother 2 (by omega), hother 3 (by omega)]

/-- A block packed again: its codes, and the scale one. -/
theorem packTq1Block_ok {all : List Int} {pos n : Nat} {v : Nat → Int} (hn : n ≤ 128)
    (hload : ∀ j < n, load all (pos + j) = .ok (v j)) (hv : ∀ j, IsTernary (v j)) :
    packTq1Block all pos n =
      .ok ⟨packCodes (fun k => if k < n then v k else -1) 32, 0x3F800000⟩ := by
  have hnone : List.replicate 32 0 = packCodes (fun k => if k < 0 then v k else -1) 32 := by
    simp only [Nat.not_lt_zero, if_false]
    decide
  have hcodes : ∃ packed, (List.range n).foldlM (fun packed j => do
      let tv ← load all (pos + j)
      let byte ← load packed (j / 4)
      let code := UInt8.ofInt (tv + 1)
      return packed.set (j / 4) (byte ||| (code <<< (6 - 2 * UInt8.ofNat (j % 4)))))
      (List.replicate 32 0) = .ok packed ∧
      packed = packCodes (fun k => if k < n then v k else -1) 32 := by
    refine foldlM_range_total (I := fun j packed =>
      packed = packCodes (fun k => if k < j then v k else -1) 32) hnone ?_
    rintro j hj packed rfl
    have hternary : ∀ k, IsTernary (if k < j then v k else -1) := fun k => by
      split
      · exact hv k
      · exact .inl rfl
    refine ⟨_, by rw [hload j hj, ok_bind, load_getD (by simp; omega) 0, ok_bind]; rfl, ?_⟩
    rw [packCodes_set hternary (if_neg (lt_irrefl j)) (hv j)]
    congr 1
    funext k
    rw [Function.update_apply]
    by_cases hk : k = j
    · rw [if_pos hk, hk, if_pos (Nat.lt_succ_self j)]
    · rw [if_neg hk]
      exact if_congr (by omega) rfl rfl
  have hmax : ∃ maxAbs, (List.range n).foldlM (fun maxAbs j => do
      let tv ← load all (pos + j)
      return if maxAbs < absTrit tv then absTrit tv else maxAbs) (0 : F32) = .ok maxAbs ∧
      (maxAbs = 0 ∨ maxAbs = 0x3F800000) := by
    refine foldlM_range_total (I := fun _ (maxAbs : F32) => maxAbs = 0 ∨ maxAbs = 0x3F800000)
      (.inl rfl) ?_
    intro j hj maxAbs hmax
    refine ⟨_, by rw [hload j hj, ok_bind]; rfl, ?_⟩
    have habs : absTrit (v j) = 0 ∨ absTrit (v j) = 0x3F800000 := by
      rcases hv j with h | h | h <;> rw [h]
      · exact .inr (by decide)
      · exact .inl (by decide)
      · exact .inr (by decide)
    split
    · exact habs
    · exact hmax
  obtain ⟨packed, hpacked, rfl⟩ := hcodes
  obtain ⟨maxAbs, hfold, hmax⟩ := hmax
  rw [packTq1Block, hpacked, ok_bind, hfold, ok_bind]
  rcases hmax with rfl | rfl <;> rfl

/-- The block of a matrix at a row and a block index. -/
def tq1Block (w : Nat → Nat → Int) (cols row b : Nat) : BlockTerm :=
  ⟨packCodes (fun k => if k < min 128 (cols - b * 128) then w row (b * 128 + k) else -1) 32, 0x3F800000⟩

/-- The block table of a matrix. -/
def tq1Table (w : Nat → Nat → Int) (rows cols : Nat) : List BlockTerm :=
  (List.range rows).flatMap fun row => (List.range (blocksPerRow cols)).map (tq1Block w cols row)

theorem tq1Table_shape (w : Nat → Nat → Int) (rows cols : Nat) :
    TermShape rows cols (tq1Table w rows cols) where
  length_eq := by
    rw [tq1Table, length_flatMap_range fun i _ => by rw [List.length_map, List.length_range]]
  packed_length x hx := by
    obtain ⟨row, -, hx⟩ := List.mem_flatMap.1 hx
    obtain ⟨b, -, rfl⟩ := List.mem_map.1 hx
    rw [tq1Block, packCodes_length]

theorem tq1Table_getD (w : Nat → Nat → Int) {rows cols row b : Nat} (hrow : row < rows)
    (hb : b < blocksPerRow cols) :
    (tq1Table w rows cols).getD (row * blocksPerRow cols + b) default = tq1Block w cols row b := by
  rw [List.getD_eq_getElem?_getD, tq1Table, getElem?_flatMap
    (fun i _ => by rw [List.length_map, List.length_range]) hrow hb, List.getElem?_map,
    List.getElem?_range hb]
  rfl

theorem blocksPerRow_le (cols : Nat) : blocksPerRow cols ≤ tq1Blocks cols := by
  unfold blocksPerRow tq1Blocks
  omega

/-- The blocks of the table are counted by an `int`. -/
theorem Tq1Fits.index_le {rows cols : Nat} (h : Tq1Fits rows cols) {row b : Nat} (hrow : row < rows)
    (hb : b < blocksPerRow cols) : row * blocksPerRow cols + b ≤ 76695844 := by
  have hle := blocksPerRow_le cols
  have hoff := h.offset_le row hrow b (by omega)
  have hmul := Nat.mul_le_mul_left row hle
  omega

section
variable {w : Nat → Nat → Int} {rows cols : Nat} {all : List Int}

theorem fills_repackTq1Block (hfits : Tq1Fits rows cols) (hw : ∀ row j, IsTernary (w row j))
    (hload : ∀ row < rows, ∀ j < cols, load all (row * cols + j) = .ok (w row j)) {row b : Nat}
    (hrow : row < rows) (hb : b < blocksPerRow cols) :
    Fills (fun blocks => repackTq1Block all cols (blocksPerRow cols) row blocks b)
      (row * blocksPerRow cols + b) [tq1Block w cols row b] := by
  have hindex := hfits.index_le hrow hb
  have hcols := hfits.cols_le
  have hstart : b * 128 < cols := by
    unfold blocksPerRow at hb
    omega
  have hmul : ((row : Int) * (blocksPerRow cols : Int)) = ((row * blocksPerRow cols : Nat) : Int) := by
    push_cast
    ring
  have hsize : (min ((b : Int) * 128 + 128) cols - (b : Int) * 128).toNat =
      min 128 (cols - b * 128) := by omega
  have hpos : row * (cols : Int).toNat + ((b : Int) * 128).toNat = row * cols + b * 128 := by
    rw [Int.toNat_natCast]
    omega
  have hblock : packTq1Block all (row * cols + b * 128) (min 128 (cols - b * 128)) =
      .ok (tq1Block w cols row b) := by
    refine packTq1Block_ok (Nat.min_le_left _ _) (fun j hj => ?_) fun j => hw row _
    rw [Nat.add_assoc]
    exact hload row hrow _ (by omega)
  have hstep : ∀ blocks, repackTq1Block all cols (blocksPerRow cols) row blocks b =
      writeAt blocks (row * blocksPerRow cols + b) [tq1Block w cols row b] := by
    intro blocks
    rw [repackTq1Block, hmul, i32_ok (by omega) (by omega), ok_bind, i32_ok (by omega) (by omega),
      ok_bind, i32_ok (by omega) (by omega), ok_bind, i32_ok (by omega) (by omega), ok_bind]
    dsimp only
    rw [hsize, hpos, hblock, ok_bind]
    rfl
  simp only [hstep]
  exact fills_writeAt _ _

/-- The packing gives the block table. -/
theorem repackTq1_ok (hfits : Tq1Fits rows cols) (hw : ∀ row j, IsTernary (w row j))
    (hload : ∀ row < rows, ∀ j < cols, load all (row * cols + j) = .ok (w row j))
    {blocks : List BlockTerm} (hblocks : blocks.length = rows * blocksPerRow cols) :
    repackTq1 all rows cols (blocksPerRow cols) blocks = .ok (tq1Table w rows cols) := by
  have hfill : Fills (fun blocks => (List.range rows).foldlM (fun blocks row =>
      (List.range (blocksPerRow cols)).foldlM
        (repackTq1Block all cols (blocksPerRow cols) row) blocks) blocks) 0
      ((List.range rows).flatMap fun row =>
        (List.range (blocksPerRow cols)).flatMap fun b => [tq1Block w cols row b]) := by
    refine Fills.foldlM₂ (s := 1) (fun _ _ _ _ => rfl) fun row hrow b hb => ?_
    rw [Nat.mul_one, Nat.mul_one]
    exact fills_repackTq1Block hfits hw hload hrow hb
  have hflat : ((List.range rows).flatMap fun row =>
      (List.range (blocksPerRow cols)).flatMap fun b => [tq1Block w cols row b]) =
      tq1Table w rows cols :=
    List.flatMap_congr fun row _ => List.flatMap_pure_eq_map (tq1Block w cols row) _
  rw [hflat] at hfill
  rw [repackTq1, Int.toNat_natCast, Int.toNat_natCast]
  exact hfill.run (by rw [hblocks, (tq1Table_shape w rows cols).length_eq])

/-- The bitplanes are built as well. -/
theorem planesTq1_ok (hrows : rows ≤ 2147483647) (hfits : Tq1Fits rows cols)
    (hw : ∀ row j, IsTernary (w row j))
    (hload : ∀ row < rows, ∀ j < cols, load all (row * cols + j) = .ok (w row j)) :
    ∃ term, planesTq1 all rows cols = .ok term ∧
      term.combined.length = rows * wordsPerRow cols := by
  have hcols := hfits.cols_le
  obtain ⟨combined, hrun, hlen, -⟩ := placePlanes_ok hload hw
  obtain ⟨hcount, halloc⟩ := planeWords_ok hrows (show cols ≤ 2147483632 by omega)
  refine ⟨⟨0, sizeT ((rows : Int) * cols), combined⟩, ?_, hlen⟩
  rw [planesTq1, i32_ok (by omega) (by omega), ok_bind, wordsPerRow_eq]
  simp only [hcount, Int.toNat_natCast]
  rw [halloc, ok_bind]
  exact (congrArg (· >>= _) hrun).trans rfl

end

/-! ## The layer -/

theorem ceilBlocks_120 {cols : Nat} (h : cols ≤ 2147483519) :
    ceilBlocks cols 120 = .ok (tq1Blocks cols) := by
  have hdiv : ((cols : Int) + 120 - 1).tdiv 120 = (tq1Blocks cols : Nat) := by
    rw [Int.tdiv_eq_ediv_of_nonneg (by omega), tq1Blocks]
    omega
  have hlt : tq1Blocks cols ≤ 2147483647 := by unfold tq1Blocks; omega
  rw [ceilBlocks, i32_ok (by omega) (by omega), ok_bind, i32_ok (by omega) (by omega), ok_bind,
    divI32, if_neg (by decide), hdiv, i32_ok (by omega) (by omega)]

/-- A layer made of the ternary matrix `w`: its blocks, with the scale one, and its bitplanes. The
cache is there where the matrix has columns. -/
structure LayerData.OfTernary (ld : LayerData) (w : Nat → Nat → Int) (rows cols : Nat) : Prop where
  hasRawWeights : ld.hasRawWeights = false
  hasBlocks : ld.hasBlocks = true
  inFeatures : ld.inFeatures = cols
  blockTerms : ld.blockTerms = [tq1Table w rows cols]
  blocks : 0 < cols → ld.BlockLayer rows cols
  planes : ld.PlaneLayer rows cols

/-- The cache of the table of a matrix. -/
theorem cacheTq1_ok {ld : LayerData} {w : Nat → Nat → Int} {rows cols : Nat}
    (hrows : rows ≤ 2147483647) (hcols : cols ≤ 2147483519) (hraw : ld.hasRawWeights = false)
    (hblocks : ld.hasBlocks = true) (hqk : ld.blockQk = 128) (hout : ld.outFeatures = rows)
    (hin : ld.inFeatures = cols) (hterms : ld.blockTerms = [tq1Table w rows cols]) :
    ∃ ld', buildBlockContigCache ld = .ok ld' ∧ ld'.hasRawWeights = false ∧
      ld'.hasBlocks = true ∧ ld'.outFeatures = rows ∧ ld'.inFeatures = cols ∧
      ld'.blockTerms = [tq1Table w rows cols] ∧ ld'.terms = ld.terms ∧
      (0 < cols → ld'.BlockLayer rows cols) := by
  rcases Nat.eq_zero_or_pos cols with hzero | hpos
  · have hskip : (!ld.hasBlocks || ld.blockTerms.isEmpty || decide (ld.inFeatures ≤ 0)) = true := by
      rw [decide_eq_true (show ld.inFeatures ≤ 0 by omega), Bool.or_true]
    exact ⟨_, if_pos hskip, hraw, hblocks, hout, hin, hterms, rfl, fun h => by omega⟩
  · have hshape : ∀ blocks ∈ ld.blockTerms, TermShape rows cols blocks := by
      rw [hterms]
      simpa using tq1Table_shape w rows cols
    have hne : ld.blockTerms ≠ [] := by simp [hterms]
    have hfit : rows * blocksPerRow cols ≤ 288230376151711743 := by
      have hsize : rows * blocksPerRow cols ≤ 2147483647 * 16777215 :=
        Nat.mul_le_mul hrows (by unfold blocksPerRow; omega)
      omega
    refine ⟨_, buildBlockContigCache_ok ld hblocks hqk hout hin hpos hcols hne hshape hfit, hraw,
      hblocks, hout, hin, hterms, rfl, fun _ => ?_⟩
    have hone : ld.blockTerms.length = 1 := by rw [hterms]; rfl
    exact ⟨hblocks, hqk, hout, hin, hone.ge, hone.le.trans (by decide), hshape, rfl, rfl⟩

/-- The conversion of a record gives the layer of its weights, whatever its scales. -/
theorem convertTq1_ok {rows cols : Nat} {data : Bytes} (hrows : rows ≤ 2147483647)
    (hdata : Tq1Data rows cols data) (hfits : Tq1Fits rows cols) (name : Bytes) :
    ∃ ld, convertTq1 { name, outFeatures := rows, inFeatures := cols } data = .ok ld ∧
      ld.OfTernary (tq1Weight data cols) rows cols := by
  have hcols := hfits.cols_le
  have hsize : rows * cols ≤ 2147483647 * 2147483519 := Nat.mul_le_mul hrows hcols
  have hcount : sizeT ((rows : Int) * cols) = rows * cols := by
    rw [← Int.natCast_mul, sizeT_of_nonneg (Int.natCast_nonneg _) (by omega), Int.toNat_natCast]
  have hnb : rows * blocksPerRow cols ≤ 2147483647 * 16777215 :=
    Nat.mul_le_mul hrows (by unfold blocksPerRow; omega)
  have hblocks : sizeT ((rows : Int) * blocksPerRow cols) = rows * blocksPerRow cols := by
    rw [← Int.natCast_mul, sizeT_of_nonneg (Int.natCast_nonneg _) (by omega), Int.toNat_natCast]
  have hternary : ∀ row j, IsTernary (tq1Weight data cols row j) := tq1Weight_isTernary data cols
  have hload : ∀ row < rows, ∀ j < cols, load ((List.range (rows * cols)).map fun p =>
      tq1Weight data cols (p / cols) (p % cols)) (row * cols + j) =
      .ok (tq1Weight data cols row j) := by
    intro row hrow j hj
    have hpos : row * cols + j < rows * cols := by
      have := Nat.mul_le_mul_right cols (Nat.succ_le_of_lt hrow)
      rw [Nat.succ_mul] at this
      omega
    rw [load_getD (by rwa [List.length_map, List.length_range]) 0, getD_map_range _ hpos,
      Nat.mul_comm row cols, Nat.mul_add_div (by omega), Nat.div_eq_of_lt hj, Nat.add_zero,
      Nat.mul_add_mod, Nat.mod_eq_of_lt hj]
  obtain ⟨term, hterm, hwords⟩ := planesTq1_ok hrows hfits hternary hload
  obtain ⟨ld, hcache, hraw, hhas, hout, hin, hterms, hnone, hlayer⟩ := @cacheTq1_ok
    { name, outFeatures := rows, inFeatures := cols, hasBlocks := true, blockQk := 128,
      blockTerms := [tq1Table (tq1Weight data cols) rows cols] } (tq1Weight data cols) rows cols
    hrows hcols rfl rfl rfl rfl rfl rfl
  refine ⟨{ ld with numTerms := 1, terms := ld.terms ++ [term] }, ?_, hraw, hhas, hin, hterms,
    fun hpos => ?_, ?_⟩
  · rw [convertTq1]
    dsimp only
    rw [ceilBlocks_120 hcols, ok_bind, ceilBlocks_ok hcols, ok_bind, hcount,
      vectorAlloc_ok (by unfold vectorMaxSize; omega), ok_bind,
      decodeTq1_ok hdata hfits List.length_replicate, ok_bind, hblocks,
      vectorAlloc_ok (by unfold vectorMaxSize sizeofBlockTerm; omega), ok_bind,
      repackTq1_ok hfits hternary hload List.length_replicate, ok_bind, hcache, ok_bind, hout, hin,
      hterm, ok_bind]
    rfl
  · obtain ⟨h₁, h₂, h₃, h₄, h₅, h₆, h₇, h₈, h₉⟩ := hlayer hpos
    have hcached := congrArg (fun l : LayerData => { l with
      numTerms := 1
      terms := ld.terms ++ [term] }) h₉
    exact ⟨h₁, h₂, h₃, h₄, h₅, h₆, h₇, h₈, hcached⟩
  · rw [hnone, List.nil_append]
    exact ⟨hout, hin, rfl, by simp, by simpa using hwords.ge⟩

end Terllama
