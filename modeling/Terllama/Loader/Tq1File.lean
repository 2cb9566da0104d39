import Terllama.Kernel.FairyFuse
import Terllama.Loader.Tq1

/-!
# Files in the TQ1 layout

What `load_decomposed_layers_tq1` makes of a well-formed file. A layer computes the ternary matrix of
its record with the scale one (`dispatch_ofTernary`), so it computes what the record stands for
exactly where the scales stored for the blocks with a weight are one (`tq1_faithful_iff`).
-/

namespace Terllama

/-! ## Records -/

/-- The body of a record. -/
inductive Tq1Body where
  | raw (weights : List F32)
  | tq1 (data : Bytes)

/-- A record of the file. -/
structure Tq1Record where
  name : Bytes
  rows : Nat
  cols : Nat
  body : Tq1Body

/-- The layer type of a body. -/
def Tq1Body.layerType : Tq1Body → UInt8
  | .raw _ => 1
  | .tq1 _ => 0

/-- The payload of a body. -/
def Tq1Body.data : Tq1Body → Bytes
  | .raw weights => floatBytes weights
  | .tq1 data => data

/-- The bytes of a record. -/
def Tq1Record.bytes (r : Tq1Record) : Bytes :=
  u32Bytes r.name.length ++ (r.name ++ (i32Bytes r.rows ++ (i32Bytes r.cols ++
    ([r.body.layerType] ++ (u32Bytes r.body.data.length ++ r.body.data)))))

/-- A file of these records. -/
def tq1File (records : List Tq1Record) : Bytes :=
  u32Bytes 0x5F315154 ++ (u32Bytes records.length ++ records.flatMap Tq1Record.bytes)

/-- The fields of the record hold its sizes, and a ternary body has the size of the matrix. A code
byte may be any. -/
structure Tq1Record.WellFormed (r : Tq1Record) : Prop where
  name : r.name.length < 4294967296
  rows : r.rows ≤ 2147483647
  cols : r.cols ≤ 2147483647
  data_lt : r.body.data.length < 4294967296
  data : ∀ data, r.body = .tq1 data → Tq1Data r.rows r.cols data

/-- The offsets of the record are `int`s, if it is not raw. -/
def Tq1Record.Fits (r : Tq1Record) : Prop :=
  ∀ data, r.body = .tq1 data → Tq1Fits r.rows r.cols

/-- A layer as the loader returns it for a record. -/
def Tq1Record.Makes (r : Tq1Record) (ld : LayerData) : Prop :=
  ∀ data, r.body = .tq1 data → ld.OfTernary (tq1Weight data r.cols) r.rows r.cols

/-! ## Reading a record -/

/-- A pass of the decoding that returns had its offset in an `int`. -/
theorem offset_le_of_decodeTq1Block {data : Bytes} {inF : Int} {nb row b : Nat}
    {all all' : List Int} (h : decodeTq1Block data inF (nb * 28 : Nat) row all b = .ok all') :
    (row * nb + b) * 28 ≤ 2147483647 := by
  obtain ⟨_, -, h⟩ := bind_eq_ok.1 h
  obtain ⟨_, -, h⟩ := bind_eq_ok.1 h
  obtain ⟨_, hrow, h⟩ := bind_eq_ok.1 h
  obtain ⟨_, hblock, h⟩ := bind_eq_ok.1 h
  obtain ⟨_, hsum, -⟩ := bind_eq_ok.1 h
  obtain ⟨rfl, -⟩ := i32_eq_ok.1 hrow
  obtain ⟨rfl, -⟩ := i32_eq_ok.1 hblock
  obtain ⟨-, -, hle⟩ := i32_eq_ok.1 hsum
  have hcast : (row : Int) * (nb * 28 : Nat) + b * 28 = ((row * nb + b) * 28 : Nat) := by
    push_cast
    ring
  omega

/-- The offsets of a record that is decoded are `int`s. -/
theorem offset_le_of_decodeTq1 {data : Bytes} {rows cols : Nat} {all all' : List Int}
    (h : decodeTq1 data rows cols (tq1Blocks cols) all = .ok all') :
    ∀ row < rows, ∀ b < tq1Blocks cols, (row * tq1Blocks cols + b) * 28 ≤ 2147483647 := by
  obtain ⟨rowStride, hstride, h⟩ := bind_eq_ok.1 h
  obtain ⟨rfl, -⟩ := i32_eq_ok.1 hstride
  rw [Int.toNat_natCast, show (tq1Blocks cols : Int) * 28 = (tq1Blocks cols * 28 : Nat) by
    push_cast; ring] at h
  refine foldlM_range_partial (I := fun i (_ : List Int) => ∀ row < i, ∀ b < tq1Blocks cols,
    (row * tq1Blocks cols + b) * 28 ≤ 2147483647) (fun row hrow => absurd hrow (Nat.not_lt_zero _))
    ?_ h
  intro i hi all all' hprev hpass row hrow
  rcases Nat.lt_succ_iff_lt_or_eq.1 hrow with hlt | rfl
  · exact hprev row hlt
  · refine foldlM_range_partial (I := fun i (_ : List Int) => ∀ b < i,
      (row * tq1Blocks cols + b) * 28 ≤ 2147483647) (fun b hb => absurd hb (Nat.not_lt_zero _))
      ?_ hpass
    intro j hj all all' hprev hblock b hb
    rcases Nat.lt_succ_iff_lt_or_eq.1 hb with hlt | rfl
    · exact hprev b hlt
    · exact offset_le_of_decodeTq1Block hblock

/-- A record that is converted has its offsets in an `int`. -/
theorem fits_of_convertTq1 {rows cols : Nat} {name data : Bytes} {ld : LayerData}
    (h : convertTq1 { name, outFeatures := rows, inFeatures := cols } data = .ok ld) :
    Tq1Fits rows cols := by
  rw [convertTq1] at h
  dsimp only at h
  obtain ⟨nb, hnb, h⟩ := bind_eq_ok.1 h
  obtain ⟨nBlk, hblk, h⟩ := bind_eq_ok.1 h
  obtain ⟨_, -, h⟩ := bind_eq_ok.1 h
  obtain ⟨all, hdecode, -⟩ := bind_eq_ok.1 h
  have hcols : cols ≤ 2147483519 := by
    have := ceilBlocks_128_le hblk
    omega
  rw [ceilBlocks_120 hcols] at hnb
  obtain rfl := Except.ok.inj hnb
  exact ⟨hcols, offset_le_of_decodeTq1 hdecode⟩

theorem parses_readU8 (b : UInt8) (var : String) : Parses (readU8 var) [b] b :=
  readU8_cons b var

/-- The end of a record: raw weights, or the conversion. -/
def tq1Body (ld : LayerData) (layerType : UInt8) (data : Bytes) : Exec LayerData :=
  if layerType = 1 then do
    let rawWeights ← copyFloats data
    return { ld with hasRawWeights := true, rawWeights }
  else convertTq1 ld data

/-- The reader comes to the end of a record. -/
theorem readTq1Layer_record {r : Tq1Record} (hr : r.WellFormed) (rest : Bytes) :
    readTq1Layer ⟨r.bytes ++ rest, false⟩ =
      (liftM (tq1Body { name := r.name, outFeatures := r.rows, inFeatures := r.cols }
        r.body.layerType r.body.data) : StreamM LayerData) ⟨rest, false⟩ := by
  have hname : (UInt32.ofNat r.name.length).toNat = r.name.length := by
    rw [UInt32.toNat_ofNat', Nat.mod_eq_of_lt hr.name]
  have hdata : (UInt32.ofNat r.body.data.length).toNat = r.body.data.length := by
    rw [UInt32.toNat_ofNat', Nat.mod_eq_of_lt hr.data_lt]
  have hrows : IsI32 r.rows := ⟨by omega, by have := hr.rows; omega⟩
  have hcols : IsI32 r.cols := ⟨by omega, by have := hr.cols; omega⟩
  rw [readTq1Layer, Tq1Record.bytes, List.append_assoc, (parses_readU32 _ _).run, hname,
    List.append_assoc, (parses_readInto List.length_replicate.symm).run, List.append_assoc,
    (parses_readI32 hrows).run, List.append_assoc, (parses_readI32 hcols).run, List.append_assoc,
    (parses_readU8 _ _).run, List.append_assoc, (parses_readU32 _ _).run, hdata,
    (parses_readInto List.length_replicate.symm).run, tq1Body]
  split
  · rw [StreamM.bind_apply, StreamM.liftM_apply, StreamM.liftM_apply]
    cases copyFloats r.body.data <;> rfl
  · rfl

/-- A record is read where it fits, and makes its layer. -/
theorem parses_tq1Record {r : Tq1Record} (hr : r.WellFormed) (hfits : r.Fits) :
    ∃ ld, Parses readTq1Layer r.bytes ld ∧ r.Makes ld := by
  have hbody : ∃ ld, tq1Body { name := r.name, outFeatures := r.rows, inFeatures := r.cols }
      r.body.layerType r.body.data = .ok ld ∧ r.Makes ld := by
    cases hcase : r.body with
    | raw weights =>
      refine ⟨{ name := r.name, outFeatures := r.rows, inFeatures := r.cols,
                hasRawWeights := true, rawWeights := weights }, ?_, ?_⟩
      · rw [tq1Body, Tq1Body.layerType, if_pos rfl, Tq1Body.data, copyFloats,
          if_pos (by rw [floatBytes_length]; omega), floatsOf_floatBytes]
        rfl
      · intro data hdata
        rw [hcase] at hdata
        cases hdata
    | tq1 data =>
      obtain ⟨ld, hrun, hof⟩ := convertTq1_ok hr.rows (hr.data data hcase) (hfits data hcase) r.name
      refine ⟨ld, ?_, fun data' hdata => ?_⟩
      · rw [tq1Body, Tq1Body.layerType, if_neg (by decide)]
        exact hrun
      · rw [hcase] at hdata
        cases hdata
        exact hof
  obtain ⟨ld, hrun, hmakes⟩ := hbody
  refine ⟨ld, fun rest => ?_, hmakes⟩
  rw [readTq1Layer_record hr, StreamM.liftM_apply, hrun]
  rfl

/-- A record that is read fits. -/
theorem fits_of_readTq1Layer {r : Tq1Record} (hr : r.WellFormed) {rest : Bytes}
    {p : LayerData × InStream} (h : readTq1Layer ⟨r.bytes ++ rest, false⟩ = .ok p) : r.Fits := by
  rw [readTq1Layer_record hr, StreamM.liftM_apply] at h
  obtain ⟨ld, h, -⟩ := Terllama.bind_eq_ok.1 h
  intro data hcase
  rw [hcase, tq1Body, Tq1Body.layerType, if_neg (by decide)] at h
  exact fits_of_convertTq1 h

/-! ## Loading the file -/

/-- The record loop on the records of a file. -/
theorem parses_tq1Records {records : List Tq1Record} (hrecords : ∀ r ∈ records, r.WellFormed)
    (hfits : ∀ r ∈ records, r.Fits) : ∃ lds, List.Forall₂ Tq1Record.Makes records lds ∧
      Parses (readTq1Layers records.length) (records.flatMap Tq1Record.bytes) lds := by
  induction records with
  | nil => exact ⟨[], .nil, parses_pure []⟩
  | cons r records ih =>
    obtain ⟨hr, hrecords⟩ := List.forall_mem_cons.1 hrecords
    obtain ⟨hfirst, hfits⟩ := List.forall_mem_cons.1 hfits
    obtain ⟨ld, hread, hmakes⟩ := parses_tq1Record hr hfirst
    obtain ⟨lds, hmakess, hreads⟩ := ih hrecords hfits
    exact ⟨ld :: lds, .cons hmakes hmakess, hread.bind (hreads.bind_nil (parses_pure _))⟩

/-- The loop returns on records that fit only. -/
theorem fits_of_readTq1Layers {records : List Tq1Record} (hrecords : ∀ r ∈ records, r.WellFormed)
    {rest : Bytes} {p : List LayerData × InStream}
    (h : readTq1Layers records.length ⟨records.flatMap Tq1Record.bytes ++ rest, false⟩ = .ok p) :
    ∀ r ∈ records, r.Fits := by
  induction records generalizing p with
  | nil => exact fun r hr => absurd hr List.not_mem_nil
  | cons r records ih =>
    obtain ⟨hr, hrecords⟩ := List.forall_mem_cons.1 hrecords
    obtain ⟨ld, s₁, hfirst, h⟩ := StreamM.bind_eq_ok.1 h
    obtain ⟨lds, s₂, h, -⟩ := StreamM.bind_eq_ok.1 h
    rw [List.flatMap_cons, List.append_assoc] at hfirst
    have hfits := fits_of_readTq1Layer hr hfirst
    obtain ⟨ld', hread, -⟩ := parses_tq1Record hr hfits
    cases (hread _).symm.trans hfirst
    exact List.forall_mem_cons.2 ⟨hfits, ih hrecords h⟩

/-- What the loader makes of a file. -/
theorem loadDecomposedLayersTq1_file {records : List Tq1Record}
    (hrecords : ∀ r ∈ records, r.WellFormed) (hcount : records.length < 4294967296) :
    ((∀ r ∈ records, r.Fits) ↔ ∃ layers, loadDecomposedLayersTq1 (tq1File records) = .ok layers) ∧
      ∀ layers, loadDecomposedLayersTq1 (tq1File records) = .ok layers →
        List.Forall₂ Tq1Record.Makes records layers := by
  have hn : (UInt32.ofNat records.length).toNat = records.length := by
    rw [UInt32.toNat_ofNat', Nat.mod_eq_of_lt hcount]
  have hload : loadDecomposedLayersTq1 (tq1File records) =
      (readTq1Layers records.length ⟨records.flatMap Tq1Record.bytes, false⟩ >>=
        fun p => .ok p.1) := by
    rw [loadDecomposedLayersTq1, InStream.open, readTq1Header, tq1File, (parses_readU32 _ _).run,
      if_neg (by decide), readU32_append, ok_bind]
    dsimp only
    rw [hn]
    rfl
  have hfits : ∀ layers, loadDecomposedLayersTq1 (tq1File records) = .ok layers →
      ∀ r ∈ records, r.Fits := by
    intro layers h
    rw [hload] at h
    obtain ⟨p, h, -⟩ := Terllama.bind_eq_ok.1 h
    rw [← List.append_nil (records.flatMap Tq1Record.bytes)] at h
    exact fits_of_readTq1Layers hrecords h
  have hreturns : (∀ r ∈ records, r.Fits) → ∃ layers, List.Forall₂ Tq1Record.Makes records layers ∧
      loadDecomposedLayersTq1 (tq1File records) = .ok layers := by
    intro h
    obtain ⟨lds, hmakes, hreads⟩ := parses_tq1Records hrecords h
    have hreads := hreads []
    rw [List.append_nil] at hreads
    exact ⟨lds, hmakes, by rw [hload, hreads]; rfl⟩
  refine ⟨⟨fun h => ?_, fun ⟨layers, h⟩ => hfits layers h⟩, fun layers h => ?_⟩
  · obtain ⟨layers, -, h⟩ := hreturns h
    exact ⟨layers, h⟩
  · obtain ⟨layers', hmakes, h'⟩ := hreturns (hfits layers h)
    cases h'.symm.trans h
    exact hmakes

/-! ## What the layers compute -/

section
variable {K : Type} [Field K] {m : Machine K} {ld : LayerData} {w : Nat → Nat → Int}
  {rows cols : Nat} {x : List K}

/-- The blocks of the table hold the weights of the matrix. -/
theorem blockTermsDot_tq1Table (val : F32 → K) (hw : ∀ row j, IsTernary (w row j)) {row : Nat}
    (hrow : row < rows) :
    blockTermsDot val [tq1Table w rows cols] cols x row =
      ∑ j ∈ Finset.range cols, val 0x3F800000 * (w row j : K) * x.getD j 0 := by
  rw [blockTermsDot, List.length_singleton, Finset.sum_range_one]
  refine Finset.sum_congr rfl fun j hj => ?_
  have hj := Finset.mem_range.1 hj
  have hb : j / colBlockSize < blocksPerRow cols := by
    unfold blocksPerRow colBlockSize
    omega
  have hcode : blockCode (tq1Block w cols row (j / colBlockSize)).packed (j % colBlockSize) =
      w row j := by
    unfold colBlockSize
    rw [tq1Block, blockCode_packCodes (by omega) fun k _ => by
      split
      · exact hw row _
      · exact .inl rfl]
    rw [if_pos (by omega), Nat.div_add_mod']
  rw [List.getD_cons_zero, tq1Table_getD w hrow hb]
  dsimp only
  rw [hcode]
  rfl

omit [Field K] in
/-- No code of the table is 3. -/
theorem LayerData.OfTernary.ternary (h : ld.OfTernary w rows cols) (hb : ld.BlockLayer rows cols)
    (hw : ∀ row j, IsTernary (w row j)) :
    (blockArgs m ld ld.blockTerms.length (blocksPerRow cols) x).Ternary := by
  have hout : ld.outFeatures.toNat = rows := by rw [hb.outFeatures, Int.toNat_natCast]
  intro t ht row hrow j hj
  change t < ld.blockTerms.length at ht
  change row < ld.outFeatures.toNat at hrow
  change j < blocksPerRow cols * colBlockSize at hj
  rw [hout] at hrow
  rw [colBlockSize] at hj
  have hone : t = 0 := by
    rw [h.blockTerms, List.length_singleton] at ht
    omega
  subst hone
  have hblk : j / 128 < blocksPerRow cols := by omega
  have hshape := hb.shapeAt ht
  have hidx := hshape.idx_lt hrow hblk
  have hcode : (blockArgs m ld ld.blockTerms.length (blocksPerRow cols) x).weight 0 row j =
      blockCode (tq1Block w cols row (j / 128)).packed (j % 128) := by
    have hflat := blockCode_flatMap hshape.packed_length hidx (k := j % 128)
      (Nat.mod_lt _ (by decide))
    rw [BlockArgs.weight, (hb.args ht hrow).1, ← Nat.mul_assoc, blockCode_drop]
    rw [colBlockSize] at hflat ⊢
    rw [show row * blocksPerRow cols * 128 + j =
      (row * blocksPerRow cols + j / 128) * 128 + j % 128 by omega, hflat, h.blockTerms, List.getD_cons_zero, tq1Table_getD w hrow hblk]
  rw [hcode, tq1Block, blockCode_packCodes (by omega) fun k _ => by
    split
    · exact hw row _
    · exact .inl rfl]
  split
  · rcases hw row (j / 128 * 128 + j % 128) with h | h | h <;> rw [h] <;> decide
  · decide

variable [LinearOrder K]

/-- A layer made of a ternary matrix computes it with the scale one, on the kernels that take the
inputs as they are. -/
theorem dispatch_ofTernary (hcpu : m.cpu ≠ .x86_64Avx2) (h : ld.OfTernary w rows cols)
    (hw : ∀ row j, IsTernary (w row j)) (hcols : cols ≤ 2147483519) (hx : cols ≤ x.length) :
    ternaryLinearDispatch m ld x = .ok ((List.range rows).map fun row =>
      ∑ j ∈ Finset.range cols, m.val 0x3F800000 * (w row j : K) * x.getD j 0) := by
  rw [ternaryLinearDispatch, h.hasRawWeights, h.hasBlocks, if_neg (by decide), if_pos rfl]
  rcases Nat.eq_zero_or_pos cols with rfl | hpos
  · have hguard : (!ld.hasBlocks || ld.blockTerms.isEmpty || decide (ld.inFeatures = 0)) = true := by
      rw [h.inFeatures]
      simp
    rw [ternaryLinearBlocks, if_pos hguard, ternaryLinear_planes h.planes
      ⟨Nat.zero_le _, fun _ => Nat.zero_le _⟩]
    refine congrArg Except.ok (List.map_congr_left fun row _ => ?_)
    simp [planeTermsDot]
  · have hb := h.blocks hpos
    have hout : ld.outFeatures.toNat = rows := by rw [hb.outFeatures, Int.toNat_natCast]
    have hrows : (List.range ld.outFeatures.toNat).map
        (blockArgs m ld ld.blockTerms.length (blocksPerRow cols) x).rowDot =
        (List.range rows).map fun row =>
          ∑ j ∈ Finset.range cols, m.val 0x3F800000 * (w row j : K) * x.getD j 0 := by
      rw [hout]
      refine List.map_congr_left fun row hrow => ?_
      have hrow := List.mem_range.1 hrow
      rw [hb.rowDot hrow, h.blockTerms, blockTermsDot_tq1Table m.val hw hrow]
    rw [ternaryLinearBlocks_cached hb hpos hcols, ← hrows]
    have harch : m.arch .unknown = m.cpu := rfl
    rw [harch]
    unfold blockKernel
    split
    · exact ternaryMulAvx512Fairyfuse_ok (hb.valid hx) (h.ternary hb hw)
    · next hcase => exact absurd hcase hcpu
    · exact ternaryMulScalarBlocks_ok (hb.valid hx)

/-- A row of what a record stands for: over its blocks, the stored scale times the sum of the trits
times the inputs. -/
def tq1Dot (val : F32 → K) (data : Bytes) (cols : Nat) (x : List K) (row : Nat) : K :=
  ∑ b ∈ Finset.range (tq1Blocks cols), val (tq1Scale data cols row b) *
    ∑ k ∈ Finset.range (min 120 (cols - b * 120)),
      (tq1Weight data cols row (b * 120 + k) : K) * x.getD (b * 120 + k) 0

/-- The layer computes what the record stands for. -/
def Tq1Faithful (m : Machine K) (data : Bytes) (rows cols : Nat) (ld : LayerData) : Prop :=
  ∀ x : List K, cols ≤ x.length →
    ternaryLinearDispatch m ld x = .ok ((List.range rows).map (tq1Dot m.val data cols x))

/-- The scales of the blocks that hold a weight are one. -/
def UnitScales (val : F32 → K) (data : Bytes) (rows cols : Nat) : Prop :=
  ∀ row < rows, ∀ j < cols, tq1Weight data cols row j ≠ 0 →
    val (tq1Scale data cols row (j / 120)) = val 0x3F800000

omit [LinearOrder K] in
/-- The sum over the blocks, column by column. -/
theorem tq1Dot_eq (val : F32 → K) (data : Bytes) (cols : Nat) (x : List K) (row : Nat) :
    tq1Dot val data cols x row = ∑ j ∈ Finset.range cols,
      val (tq1Scale data cols row (j / 120)) * (tq1Weight data cols row j : K) * x.getD j 0 := by
  rw [tq1Dot, ← sum_blocks _ (@tq1Blocks_mul cols)]
  refine Finset.sum_congr rfl fun b _ => ?_
  rw [Finset.mul_sum]
  refine Finset.sum_congr rfl fun k hk => ?_
  have hk := Finset.mem_range.1 hk
  rw [show (b * 120 + k) / 120 = b by omega, mul_assoc]

omit [LinearOrder K] in
theorem cast_ne_zero {v : Int} (hv : IsTernary v) (hne : v ≠ 0) : (v : K) ≠ 0 := by
  rcases hv with rfl | rfl | rfl
  · simp
  · exact absurd rfl hne
  · simp

/-- The layer of a ternary matrix is faithful exactly to the records with unit scales. -/
theorem tq1Faithful_iff (hcpu : m.cpu ≠ .x86_64Avx2) {data : Bytes} (hcols : cols ≤ 2147483519)
    (h : ld.OfTernary (tq1Weight data cols) rows cols) :
    Tq1Faithful m data rows cols ld ↔ UnitScales m.val data rows cols := by
  have hw := tq1Weight_isTernary data cols
  constructor
  · intro hfaithful row hrow j hj hne
    have hlen : cols ≤ (unitInput K cols j).length := by
      rw [unitInput_length]
      exact le_wordsPerRow cols
    have hsame := hfaithful _ hlen
    rw [dispatch_ofTernary hcpu h hw hcols hlen, Except.ok.injEq, List.map_inj_left] at hsame
    have hrow := hsame row (List.mem_range.2 hrow)
    rw [tq1Dot_eq, sum_unitInput _ hj, sum_unitInput _ hj] at hrow
    exact (mul_right_cancel₀ (cast_ne_zero (hw row j) hne) hrow).symm
  · intro hscales x hx
    rw [dispatch_ofTernary hcpu h hw hcols hx]
    refine congrArg Except.ok (List.map_congr_left fun row hrow => ?_)
    have hrow := List.mem_range.1 hrow
    rw [tq1Dot_eq]
    refine Finset.sum_congr rfl fun j hj => ?_
    have hj := Finset.mem_range.1 hj
    by_cases hzero : tq1Weight data cols row j = 0
    · rw [hzero, Int.cast_zero, mul_zero, mul_zero]
    · rw [hscales row hrow j hj hzero]

/-- A file of records is loaded where the offsets of its ternary records are `int`s. A layer of a
ternary record computes what the record stands for, on every input, exactly where the stored scales
of its blocks with a weight are one. -/
theorem tq1_faithful_iff (m : Machine K) (hcpu : m.cpu ≠ .x86_64Avx2) {records : List Tq1Record}
    (hrecords : ∀ r ∈ records, r.WellFormed) (hcount : records.length < 4294967296) :
    ((∀ r ∈ records, r.Fits) ↔
      ∃ layers, loadDecomposedLayersTq1 (tq1File records) = .ok layers) ∧
    ∀ layers, loadDecomposedLayersTq1 (tq1File records) = .ok layers →
      layers.length = records.length ∧
      ∀ (i : Nat) (r : Tq1Record) (data : Bytes) (ld : LayerData), records[i]? = some r →
        layers[i]? = some ld → r.body = .tq1 data →
        (Tq1Faithful m data r.rows r.cols ld ↔ UnitScales m.val data r.rows r.cols) := by
  obtain ⟨hfits, hlayers⟩ := loadDecomposedLayersTq1_file hrecords hcount
  refine ⟨hfits, fun layers h => ?_⟩
  have hmakes := hlayers layers h
  refine ⟨hmakes.length_eq.symm, fun i r data ld hr hld hbody => ?_⟩
  obtain ⟨hi, rfl⟩ := List.getElem?_eq_some_iff.1 hr
  obtain ⟨hi', rfl⟩ := List.getElem?_eq_some_iff.1 hld
  have hfit := hfits.2 ⟨layers, h⟩ _ (List.getElem_mem hi) data hbody
  exact tq1Faithful_iff hcpu hfit.cols_le (hmakes.get hi hi' data hbody)

end

/-- The payload of a matrix of one element, the weight one. -/
def unitTq1Data (scale : F32) : Bytes := 2 :: List.replicate 23 0 ++ scale.toBytes

/-- The record of that matrix. -/
def unitTq1 (scale : F32) : Tq1Record := ⟨str "w", 1, 1, .tq1 (unitTq1Data scale)⟩

theorem unitTq1_wellFormed (scale : F32) : (unitTq1 scale).WellFormed := by
  have hlen : (unitTq1Data scale).length = 28 := by simp [unitTq1Data]
  have hname : (str "w").length < 4294967296 := by decide
  have hone : 1 ≤ 2147483647 := by decide
  refine ⟨hname, hone, hone, hlen.trans_lt (by decide), fun data hdata => ?_⟩
  obtain rfl := Tq1Body.tq1.inj hdata
  have hsize : 1 * tq1Blocks 1 * 28 = 28 := by decide
  exact ⟨hlen.trans hsize.symm⟩

theorem tq1_faithful_unit : ratMachine.cpu ≠ .x86_64Avx2 ∧
    (∀ r ∈ [unitTq1 0x3F800000], r.WellFormed) ∧
    ((∀ r ∈ [unitTq1 0x3F800000], r.Fits) ↔
      ∃ layers, loadDecomposedLayersTq1 (tq1File [unitTq1 0x3F800000]) = .ok layers) ∧
    ∀ layers, loadDecomposedLayersTq1 (tq1File [unitTq1 0x3F800000]) = .ok layers →
      layers.length = 1 ∧
      ∀ (i : Nat) (r : Tq1Record) (data : Bytes) (ld : LayerData),
        [unitTq1 0x3F800000][i]? = some r → layers[i]? = some ld → r.body = .tq1 data →
        (Tq1Faithful ratMachine data r.rows r.cols ld ↔
          UnitScales ratMachine.val data r.rows r.cols) := by
  have hcpu : ratMachine.cpu ≠ .x86_64Avx2 := by decide
  have hrecords : ∀ r ∈ [unitTq1 0x3F800000], r.WellFormed := by
    simpa using unitTq1_wellFormed 0x3F800000
  exact ⟨hcpu, hrecords, tq1_faithful_iff ratMachine hcpu hrecords (by decide)⟩

/-- The layer of a record with the scale two computes one where the record stands for two. -/
theorem not_tq1_faithful : (unitTq1 0x40000000).WellFormed ∧
    (do
      let layers ← loadDecomposedLayersTq1 (tq1File [unitTq1 0x40000000])
      ternaryLinearDispatch ratMachine (layers.getD 0 default) [1]) = .ok [1] ∧
    tq1Dot ratMachine.val (unitTq1Data 0x40000000) 1 [1] 0 = 2 :=
  ⟨unitTq1_wellFormed _, by decide +kernel, by decide +kernel⟩

end Terllama
