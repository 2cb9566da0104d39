import Terllama.Loader.Planes

/-!
# The old layout of `model_decomposed.bin`

`load_decomposed_layers` of `src/loader.h`, which knows the old layout only, beside
`load_decomposed_layers_als`, which still accepts it. Both decode the packed codes of a term to
bitplanes (`decodeCombined_ok`). The second leaves the number of terms out, and the dispatch asks the
number: `oldLayout_meaning_iff` says which layers are none the worse for it.
-/

namespace Terllama

/-! ## The reader of the old layout -/

/-- The body of a record of `load_decomposed_layers`, whose term count is an `int` of the layer. -/
def readDecomposedBody (ld : LayerData) (nElements : Nat) : StreamM LayerData := do
  if ld.numTerms = 0 then
    let rawWeights ← readRawWeights
    return { ld with hasRawWeights := true, rawWeights }
  else
    vectorAlloc (sizeT ld.numTerms) 40
    let terms ← readBitplaneTerms nElements ld.outFeatures ld.inFeatures ld.numTerms.toNat
    return { ld with terms }

/-- One record of `load_decomposed_layers`. -/
def readDecomposedLayer : StreamM LayerData := do
  let nameLen ← readU32 "name_len"
  let name ← readInto (List.replicate nameLen.toNat 0)
  let outFeatures ← readI32
  let inFeatures ← readI32
  let numTerms ← readI32
  let ld : LayerData := { name, outFeatures, inFeatures, numTerms }
  readDecomposedBody ld (sizeT (outFeatures * inFeatures))

/-- The record loop of `load_decomposed_layers`. -/
def readDecomposedLayers : Nat → StreamM (List LayerData)
  | 0 => pure []
  | n + 1 => do
    let ld ← readDecomposedLayer
    let rest ← readDecomposedLayers n
    return ld :: rest

/-- The magic number and the record count, for `load_decomposed_layers`. -/
def readDecomposedHeader : StreamM UInt32 := do
  let magic ← readU32 "magic"
  if magic ≠ 0xDEADBEEF then (raise "Bad magic in decomposed model file" : Exec UInt32)
  else readU32 "num_layers"

/-- `load_decomposed_layers`, on the contents of the file. -/
def loadDecomposedLayers (file : Bytes) : Exec (List LayerData) := do
  let (numLayers, s) ← readDecomposedHeader (.open file)
  let (layers, _) ← readDecomposedLayers numLayers.toNat s
  return layers

/-! ## The decoding of a term -/

/-- The ternary value at a position of packed codes. -/
def packedCode (data : Bytes) (pos : Nat) : Int :=
  let bits := (data.getD (pos * 2 / 8) 0 >>> UInt8.ofNat (6 - pos * 2 % 8)) &&& 0x3
  if bits = 2 then 1 else if bits = 3 then -1 else 0

theorem packedCode_isTernary (data : Bytes) (pos : Nat) : IsTernary (packedCode data pos) := by
  unfold packedCode IsTernary
  dsimp only
  split_ifs <;> simp

theorem decodeTernary_ok {data : Bytes} {pos : Nat} (h : pos * 2 / 8 < data.length) :
    decodeTernary data pos = .ok (packedCode data pos) := by
  rw [decodeTernary, load_getD h 0]
  rfl

theorem decodeCombined_eq (packed : Bytes) {rows cols : Nat} (hrows : rows ≤ 2147483647)
    (hcols : cols ≤ 2147483632) :
    decodeCombined packed rows cols = (List.range rows).foldlM (fun combined r =>
      (List.range cols).foldlM (placePlane (decodeTernary packed) cols r) combined)
      (List.replicate (rows * wordsPerRow cols) 0) := by
  obtain ⟨hcount, halloc⟩ := planeWords_ok hrows hcols
  rw [decodeCombined, i32_ok (by omega) (by omega), ok_bind, wordsPerRow_eq]
  simp only [hcount, Int.toNat_natCast]
  rw [halloc, ok_bind]
  rfl

/-- The decoding of a term gives words that hold its values. -/
theorem decodeCombined_ok {data : Bytes} {rows cols : Nat} (hrows : rows ≤ 2147483647)
    (hcols : cols ≤ 2147483632) (hdata : rows * cols * 2 ≤ data.length * 8) :
    ∃ combined, decodeCombined data rows cols = .ok combined ∧
      combined.length = rows * wordsPerRow cols ∧
      PlanesOf rows cols combined fun r j => packedCode data (r * cols + j) := by
  rw [decodeCombined_eq data hrows hcols]
  refine placePlanes_ok (fun r hr j hj => decodeTernary_ok ?_) fun r j => packedCode_isTernary _ _
  have hend := Nat.mul_le_mul_right cols (Nat.succ_le_of_lt hr)
  rw [Nat.succ_mul] at hend
  omega

/-! ## Records -/

/-- A term in a record of the old layout. -/
structure OldTerm where
  alphaExp : Int
  codes : Bytes

/-- The body of a record of the old layout. -/
inductive OldBody where
  | raw (weights : List F32)
  | terms (ts : List OldTerm)

/-- A record of the old layout. -/
structure OldRecord where
  name : Bytes
  rows : Nat
  cols : Nat
  body : OldBody

/-- The bytes of a term: its exponent and its packed codes. -/
def OldTerm.bytes (t : OldTerm) : Bytes := i32Bytes t.alphaExp ++ t.codes

/-- The number of terms in a body. -/
def OldBody.count : OldBody → Nat
  | .raw _ => 0
  | .terms ts => ts.length

/-- The bytes behind that number: the terms, or the `float`s behind their length. -/
def OldBody.data : OldBody → Bytes
  | .raw weights => u32Bytes (4 * weights.length) ++ floatBytes weights
  | .terms ts => ts.flatMap OldTerm.bytes

/-- The bytes of a record. -/
def OldRecord.bytes (r : OldRecord) : Bytes :=
  u32Bytes r.name.length ++ (r.name ++ (i32Bytes r.rows ++ (i32Bytes r.cols ++
    (u32Bytes r.body.count ++ r.body.data))))

/-- A file of the old layout. -/
def oldFile (records : List OldRecord) : Bytes :=
  u32Bytes 0xDEADBEEF ++ (u32Bytes records.length ++ records.flatMap OldRecord.bytes)

/-- The term is one of a matrix of this many elements. -/
structure OldTerm.WellFormed (nElements : Nat) (t : OldTerm) : Prop where
  alphaExp : IsI32 t.alphaExp
  codes : t.codes.length = (nElements * 2 + 7) / 8

/-- The body is one of a matrix of this many elements. -/
def OldBody.WellFormed (nElements : Nat) : OldBody → Prop
  | .raw weights => 4 * weights.length < 4294967296
  | .terms ts => 1 ≤ ts.length ∧ ts.length ≤ 32 ∧ ∀ t ∈ ts, t.WellFormed nElements

/-- The fields of the record hold its sizes. -/
structure OldRecord.WellFormed (r : OldRecord) : Prop where
  name : r.name.length < 4294967296
  rows : r.rows ≤ 2147483647
  cols : r.cols ≤ 2147483647
  body : r.body.WellFormed (r.rows * r.cols)

/-- The width of the record rounds up to whole words inside an `int`, if it has to. -/
def OldRecord.Rounds (r : OldRecord) : Prop :=
  match r.body with
  | .raw _ => True
  | .terms _ => r.cols ≤ 2147483632

/-- A term as it is loaded. -/
structure TermOf (rows cols : Nat) (t : OldTerm) (term : BitplaneTerm) : Prop where
  alphaExp : term.alphaExp = t.alphaExp
  length : term.combined.length = rows * wordsPerRow cols
  planes : PlanesOf rows cols term.combined fun r j => packedCode t.codes (r * cols + j)

/-- The body of a layer as it is loaded. -/
def BodyOf (rows cols : Nat) (ld : LayerData) : OldBody → Prop
  | .raw _ => ld.hasRawWeights = true ∧ ld.terms = []
  | .terms ts => ld.hasRawWeights = false ∧ List.Forall₂ (TermOf rows cols) ts ld.terms

/-- A layer as `load_decomposed_layers_als` returns it: it has no number of terms. -/
structure LayerOf (r : OldRecord) (ld : LayerData) : Prop where
  outFeatures : ld.outFeatures = r.rows
  inFeatures : ld.inFeatures = r.cols
  hasBlocks : ld.hasBlocks = false
  numTerms : ld.numTerms = 0
  body : BodyOf r.rows r.cols ld r.body

/-- The layer as `load_decomposed_layers` returns it. -/
def LayerData.counted (ld : LayerData) : LayerData := { ld with numTerms := ld.terms.length }

/-! ## Reading a record -/

theorem packedSize_eq {rows cols : Nat} (hrows : rows ≤ 2147483647) (hcols : cols ≤ 2147483647) :
    sizeT ((rows : Int) * cols) = rows * cols ∧
      packedSize (rows * cols) = (rows * cols * 2 + 7) / 8 := by
  have hsize : rows * cols ≤ 2147483647 * 2147483647 := Nat.mul_le_mul hrows hcols
  constructor
  · rw [← Int.natCast_mul, sizeT_of_nonneg (Int.natCast_nonneg _) (by omega), Int.toNat_natCast]
  · have hbits : sizeT (((rows * cols : Nat) : Int) * 2) = rows * cols * 2 := by
      rw [sizeT_of_nonneg (by omega) (by omega)]
      omega
    rw [packedSize, hbits, sizeT_of_nonneg (by omega) (by omega)]
    rfl

theorem parses_readBitplaneTerm {rows cols : Nat} (hrows : rows ≤ 2147483647)
    (hcols : cols ≤ 2147483632) {t : OldTerm} (ht : t.WellFormed (rows * cols)) :
    ∃ term, Parses (readBitplaneTerm (rows * cols) rows cols) t.bytes term ∧
      TermOf rows cols t term := by
  have hlen := ht.codes
  have hbits : rows * cols * 2 ≤ t.codes.length * 8 := by omega
  obtain ⟨combined, hdecode, hwords, hplanes⟩ := decodeCombined_ok hrows hcols hbits
  refine ⟨⟨t.alphaExp, rows * cols, combined⟩, ?_, rfl, hwords, hplanes⟩
  have hpacked := (packedSize_eq hrows (hcols.trans (by decide))).2
  refine (parses_readI32 ht.alphaExp).bind ?_
  refine (parses_readInto (by rw [hpacked, List.length_replicate, hlen])).bind_nil ?_
  exact (parses_liftM hdecode).bind_nil (parses_pure _)

theorem parses_readBitplaneTerms {rows cols : Nat} (hrows : rows ≤ 2147483647)
    (hcols : cols ≤ 2147483632) {ts : List OldTerm} (hts : ∀ t ∈ ts, t.WellFormed (rows * cols)) :
    ∃ terms, Parses (readBitplaneTerms (rows * cols) rows cols ts.length)
      (ts.flatMap OldTerm.bytes) terms ∧ List.Forall₂ (TermOf rows cols) ts terms := by
  induction ts with
  | nil => exact ⟨[], parses_pure [], .nil⟩
  | cons t ts ih =>
    obtain ⟨ht, hts⟩ := List.forall_mem_cons.1 hts
    obtain ⟨term, hterm, hof⟩ := parses_readBitplaneTerm hrows hcols ht
    obtain ⟨terms, hterms, hofs⟩ := ih hts
    exact ⟨term :: terms, hterm.bind (hterms.bind_nil (parses_pure _)), .cons hof hofs⟩

theorem parses_readRawWeights {weights : List F32} (h : 4 * weights.length < 4294967296) :
    Parses readRawWeights (u32Bytes (4 * weights.length) ++ floatBytes weights) weights := by
  refine (parses_readU32 _ _).bind ?_
  have hlen : (UInt32.ofNat (4 * weights.length)).toNat = 4 * weights.length := by
    rw [UInt32.toNat_ofNat', Nat.mod_eq_of_lt h]
  rw [hlen]
  refine (parses_readInto (by rw [floatBytes_length, List.length_replicate])).bind_nil ?_
  refine parses_liftM ?_
  rw [copyFloats, if_pos (by rw [floatBytes_length]; omega), floatsOf_floatBytes]

/-- A layer before its body is read. -/
def OldRecord.layer (r : OldRecord) : LayerData :=
  { name := r.name, outFeatures := r.rows, inFeatures := r.cols }

theorem OldBody.WellFormed.count_le {n : Nat} {body : OldBody} (h : body.WellFormed n) :
    body.count ≤ 32 := by
  cases body with
  | raw weights => exact Nat.zero_le 32
  | terms ts => exact h.2.1

theorem readOldBody_terms (ld : LayerData) (nElements : Nat) {x : UInt32} (h : x ≠ 0) :
    readOldBody ld nElements x = do
      let terms ← readBitplaneTerms nElements ld.outFeatures ld.inFeatures x.toNat
      return { ld with terms } := if_neg h

theorem readDecomposedBody_terms {ld : LayerData} (h : ld.numTerms ≠ 0) (nElements : Nat) :
    readDecomposedBody ld nElements = do
      vectorAlloc (sizeT ld.numTerms) 40
      let terms ← readBitplaneTerms nElements ld.outFeatures ld.inFeatures ld.numTerms.toNat
      return { ld with terms } := if_neg h

/-- Both readers read the body, and one keeps the number of terms. -/
theorem parses_body {r : OldRecord} (hr : r.WellFormed) (hround : r.Rounds) :
    ∃ ld, LayerOf r ld ∧
      Parses (readOldBody r.layer (r.rows * r.cols) (UInt32.ofNat r.body.count)) r.body.data ld ∧
      Parses (readDecomposedBody { r.layer with numTerms := r.body.count } (r.rows * r.cols))
        r.body.data ld.counted := by
  have hbody := hr.body
  cases hcase : r.body with
  | raw weights =>
    rw [hcase] at hbody
    have hread := parses_readRawWeights hbody
    refine ⟨{ r.layer with hasRawWeights := true, rawWeights := weights },
      ⟨rfl, rfl, rfl, rfl, by rw [hcase]; exact ⟨rfl, rfl⟩⟩, ?_, ?_⟩
    · exact hread.bind_nil (parses_pure _)
    · exact hread.bind_nil (parses_pure _)
  | terms ts =>
    rw [hcase] at hbody
    obtain ⟨hpos, hle, hts⟩ := hbody
    have hcols : r.cols ≤ 2147483632 := by rwa [OldRecord.Rounds, hcase] at hround
    obtain ⟨terms, hread, hterms⟩ := parses_readBitplaneTerms hr.rows hcols hts
    have hcount : (UInt32.ofNat ts.length).toNat = ts.length := by
      rw [UInt32.toNat_ofNat', Nat.mod_eq_of_lt (by omega)]
    have hne : UInt32.ofNat ts.length ≠ 0 := fun h => by
      rw [h] at hcount
      exact absurd hcount (show ¬ 0 = ts.length by omega)
    refine ⟨{ r.layer with terms }, ⟨rfl, rfl, rfl, rfl, by rw [hcase]; exact ⟨rfl, hterms⟩⟩,
      ?_, ?_⟩
    · rw [OldBody.count, readOldBody_terms _ _ hne, hcount]
      exact hread.bind_nil (parses_pure _)
    · have halloc : vectorAlloc (sizeT (ts.length : Int)) 40 = .ok () := by
        rw [sizeT_of_nonneg (by omega) (by omega)]
        exact vectorAlloc_ok (by unfold vectorMaxSize; omega)
      rw [readDecomposedBody_terms (show (ts.length : Int) ≠ 0 by omega)]
      have hlen : ({ r.layer with terms } : LayerData).counted =
          { ({ r.layer with numTerms := ts.length } : LayerData) with terms } := by
        rw [LayerData.counted, ← hterms.length_eq]
      rw [hlen]
      refine Parses.liftM_bind halloc ?_
      exact hread.bind_nil (parses_pure _)

/-- The reader of `load_decomposed_layers_als` comes to the body. -/
theorem readAlsLayer_record {r : OldRecord} (hr : r.WellFormed) (rest : Bytes) :
    readAlsLayer ⟨r.bytes ++ rest, false⟩ =
      readOldBody r.layer (r.rows * r.cols) (UInt32.ofNat r.body.count)
        ⟨r.body.data ++ rest, false⟩ := by
  have hname : (UInt32.ofNat r.name.length).toNat = r.name.length := by
    rw [UInt32.toNat_ofNat', Nat.mod_eq_of_lt hr.name]
  have hrows : IsI32 r.rows := ⟨by omega, by have := hr.rows; omega⟩
  have hcols : IsI32 r.cols := ⟨by omega, by have := hr.cols; omega⟩
  have hcount := hr.body.count_le
  have hsniff : sniffAlsLayout (UInt32.ofNat r.body.count) = 1 := if_pos (by
    rw [UInt32.le_iff_toNat_le, UInt32.toNat_ofNat', Nat.mod_eq_of_lt (by omega)]
    exact hcount)
  rw [readAlsLayer, OldRecord.bytes, List.append_assoc, (parses_readU32 _ _).run, hname,
    List.append_assoc, (parses_readInto List.length_replicate.symm).run, List.append_assoc,
    (parses_readI32 hrows).run, List.append_assoc, (parses_readI32 hcols).run, List.append_assoc,
    (parses_readU32 _ _).run, if_pos hsniff, (packedSize_eq hr.rows hr.cols).1]
  rfl

/-- So does the one of `load_decomposed_layers`. -/
theorem readDecomposedLayer_record {r : OldRecord} (hr : r.WellFormed) (rest : Bytes) :
    readDecomposedLayer ⟨r.bytes ++ rest, false⟩ =
      readDecomposedBody { r.layer with numTerms := r.body.count } (r.rows * r.cols)
        ⟨r.body.data ++ rest, false⟩ := by
  have hname : (UInt32.ofNat r.name.length).toNat = r.name.length := by
    rw [UInt32.toNat_ofNat', Nat.mod_eq_of_lt hr.name]
  have hrows : IsI32 r.rows := ⟨by omega, by have := hr.rows; omega⟩
  have hcols : IsI32 r.cols := ⟨by omega, by have := hr.cols; omega⟩
  have hcount := hr.body.count_le
  have hterms : IsI32 r.body.count := ⟨by omega, by omega⟩
  have hbytes : u32Bytes r.body.count = i32Bytes r.body.count := by
    rw [i32Bytes, Int.emod_eq_of_lt (by omega) (by omega), Int.toNat_natCast]
  rw [readDecomposedLayer, OldRecord.bytes, hbytes, List.append_assoc, (parses_readU32 _ _).run,
    hname, List.append_assoc, (parses_readInto List.length_replicate.symm).run, List.append_assoc,
    (parses_readI32 hrows).run, List.append_assoc, (parses_readI32 hcols).run, List.append_assoc,
    (parses_readI32 hterms).run, (packedSize_eq hr.rows hr.cols).1]
  rfl

/-- A record that is read rounds its width up inside an `int`. -/
theorem rounds_of_readAlsLayer {r : OldRecord} (hr : r.WellFormed) {rest : Bytes}
    {p : LayerData × InStream} (h : readAlsLayer ⟨r.bytes ++ rest, false⟩ = .ok p) : r.Rounds := by
  rw [readAlsLayer_record hr] at h
  have hbody := hr.body
  unfold OldRecord.Rounds
  cases hcase : r.body with
  | raw weights => trivial
  | terms ts =>
    rw [hcase] at h hbody
    obtain ⟨hpos, hle, -⟩ := hbody
    have hcount : (UInt32.ofNat ts.length).toNat = ts.length - 1 + 1 := by
      rw [UInt32.toNat_ofNat', Nat.mod_eq_of_lt (by omega)]
      omega
    have hne : UInt32.ofNat ts.length ≠ 0 := fun h => by
      rw [h] at hcount
      exact absurd hcount (show ¬ 0 = ts.length - 1 + 1 by omega)
    rw [OldBody.count, readOldBody_terms _ _ hne, hcount, readBitplaneTerms] at h
    obtain ⟨terms, s₁, h, -⟩ := StreamM.bind_eq_ok.1 h
    obtain ⟨term, s₂, h, -⟩ := StreamM.bind_eq_ok.1 h
    obtain ⟨alphaExp, s₃, -, h⟩ := StreamM.bind_eq_ok.1 h
    obtain ⟨packed, s₄, -, h⟩ := StreamM.bind_eq_ok.1 h
    obtain ⟨combined, s₅, h, -⟩ := StreamM.bind_eq_ok.1 h
    rw [StreamM.liftM_apply] at h
    obtain ⟨_, h, -⟩ := Terllama.bind_eq_ok.1 h
    obtain ⟨_, h, -⟩ := Terllama.bind_eq_ok.1 h
    obtain ⟨-, -, hle⟩ := i32_eq_ok.1 h
    change (r.cols : Int) + 15 ≤ 2147483647 at hle
    omega

/-- Both readers read the record. -/
theorem parses_record {r : OldRecord} (hr : r.WellFormed) (hround : r.Rounds) :
    ∃ ld, LayerOf r ld ∧ Parses readAlsLayer r.bytes ld ∧
      Parses readDecomposedLayer r.bytes ld.counted := by
  obtain ⟨ld, hof, hals, hplain⟩ := parses_body hr hround
  exact ⟨ld, hof, fun rest => (readAlsLayer_record hr rest).trans (hals rest),
    fun rest => (readDecomposedLayer_record hr rest).trans (hplain rest)⟩

/-! ## Loading the file -/

/-- The record loops on a file's records. -/
theorem readAlsLayers_records {records : List OldRecord} (hrecords : ∀ r ∈ records, r.WellFormed)
    (hround : ∀ r ∈ records, r.Rounds) : ∃ lds, List.Forall₂ LayerOf records lds ∧
      Parses (readAlsLayers records.length) (records.flatMap OldRecord.bytes) lds ∧
      Parses (readDecomposedLayers records.length) (records.flatMap OldRecord.bytes)
        (lds.map LayerData.counted) := by
  induction records with
  | nil => exact ⟨[], .nil, parses_pure [], parses_pure []⟩
  | cons r records ih =>
    obtain ⟨hr, hrecords⟩ := List.forall_mem_cons.1 hrecords
    obtain ⟨hfirst, hround⟩ := List.forall_mem_cons.1 hround
    obtain ⟨ld, hof, hals, hplain⟩ := parses_record hr hfirst
    obtain ⟨lds, hofs, halss, hplains⟩ := ih hrecords hround
    exact ⟨ld :: lds, .cons hof hofs, hals.bind (halss.bind_nil (parses_pure _)),
      hplain.bind (hplains.bind_nil (parses_pure _))⟩

/-- The loop returns on widths that round up inside an `int` only. -/
theorem rounds_of_readAlsLayers {records : List OldRecord}
    (hrecords : ∀ r ∈ records, r.WellFormed) {rest : Bytes} {p : List LayerData × InStream}
    (h : readAlsLayers records.length ⟨records.flatMap OldRecord.bytes ++ rest, false⟩ = .ok p) :
    ∀ r ∈ records, r.Rounds := by
  induction records generalizing p with
  | nil => exact nofun
  | cons r records ih =>
    obtain ⟨hr, hrecords⟩ := List.forall_mem_cons.1 hrecords
    obtain ⟨ld, s₁, hfirst, h⟩ := StreamM.bind_eq_ok.1 h
    obtain ⟨lds, s₂, h, -⟩ := StreamM.bind_eq_ok.1 h
    rw [List.flatMap_cons, List.append_assoc] at hfirst
    have hround := rounds_of_readAlsLayer hr hfirst
    obtain ⟨ld', -, hals, -⟩ := parses_record hr hround
    cases (hals _).symm.trans hfirst
    exact List.forall_mem_cons.2 ⟨hround, ih hrecords h⟩

/-- What the loaders make of a file. -/
theorem loadDecomposedLayersAls_oldFile {records : List OldRecord}
    (hrecords : ∀ r ∈ records, r.WellFormed) (hcount : records.length < 4294967296) :
    ((∀ r ∈ records, r.Rounds) ↔ ∃ als, loadDecomposedLayersAls (oldFile records) = .ok als) ∧
      ∀ als, loadDecomposedLayersAls (oldFile records) = .ok als →
        List.Forall₂ LayerOf records als ∧
        loadDecomposedLayers (oldFile records) = .ok (als.map LayerData.counted) := by
  have hn : (UInt32.ofNat records.length).toNat = records.length := by
    rw [UInt32.toNat_ofNat', Nat.mod_eq_of_lt hcount]
  have hals : loadDecomposedLayersAls (oldFile records) =
      (readAlsLayers records.length ⟨records.flatMap OldRecord.bytes, false⟩ >>= fun p => .ok p.1) := by
    rw [loadDecomposedLayersAls, InStream.open, readAlsHeader, oldFile, (parses_readU32 _ _).run,
      if_neg (by decide), readU32_append, ok_bind]
    dsimp only
    rw [hn]
    rfl
  have hplain : loadDecomposedLayers (oldFile records) =
      (readDecomposedLayers records.length ⟨records.flatMap OldRecord.bytes, false⟩ >>=
        fun p => .ok p.1) := by
    rw [loadDecomposedLayers, InStream.open, readDecomposedHeader, oldFile, (parses_readU32 _ _).run,
      if_neg (by decide), readU32_append, ok_bind]
    dsimp only
    rw [hn]
    rfl
  have hround : ∀ als, loadDecomposedLayersAls (oldFile records) = .ok als →
      ∀ r ∈ records, r.Rounds := by
    intro als h
    rw [hals] at h
    obtain ⟨p, h, -⟩ := Terllama.bind_eq_ok.1 h
    rw [← List.append_nil (records.flatMap OldRecord.bytes)] at h
    exact rounds_of_readAlsLayers hrecords h
  have hload : (∀ r ∈ records, r.Rounds) → ∃ als, List.Forall₂ LayerOf records als ∧
      loadDecomposedLayersAls (oldFile records) = .ok als ∧
      loadDecomposedLayers (oldFile records) = .ok (als.map LayerData.counted) := by
    intro h
    obtain ⟨lds, hofs, halss, hplains⟩ := readAlsLayers_records hrecords h
    have halss := halss []
    have hplains := hplains []
    rw [List.append_nil] at halss hplains
    exact ⟨lds, hofs, by rw [hals, halss]; rfl, by rw [hplain, hplains]; rfl⟩
  refine ⟨⟨fun h => ?_, fun ⟨als, h⟩ => hround als h⟩, fun als h => ?_⟩
  · obtain ⟨als, -, h, -⟩ := hload h
    exact ⟨als, h⟩
  · obtain ⟨als', hofs, hals', hplain'⟩ := hload (hround als h)
    cases hals'.symm.trans h
    exact ⟨hofs, hplain'⟩

/-! ## What the layers compute -/

section
variable {K : Type} [Field K]

/-- A weight of the matrix that terms stand for. -/
def oldWeight (K : Type) [Field K] (ts : List OldTerm) (cols row j : Nat) : K :=
  (ts.map fun t => exp2 t.alphaExp * (packedCode t.codes (row * cols + j) : K)).sum

/-- A row of the sum over the terms of `2 ^ alpha_exp` times the decoded matrix. -/
def oldTermsDot (ts : List OldTerm) (cols : Nat) (x : List K) (row : Nat) : K :=
  (ts.map fun t => exp2 t.alphaExp *
    ∑ j ∈ Finset.range cols, (packedCode t.codes (row * cols + j) : K) * x.getD j 0).sum

/-- The terms that the dispatch does not take for empty. -/
def activeOld (ts : List OldTerm) : List OldTerm := ts.filter fun t => t.alphaExp ≠ -128

theorem oldTermsDot_eq (ts : List OldTerm) (cols : Nat) (x : List K) (row : Nat) :
    oldTermsDot ts cols x row =
      ∑ j ∈ Finset.range cols, oldWeight K ts cols row j * x.getD j 0 := by
  induction ts with
  | nil => simp [oldTermsDot, oldWeight]
  | cons t ts ih =>
    rw [oldTermsDot, List.map_cons, List.sum_cons]
    refine (congrArg _ ih).trans ?_
    rw [Finset.mul_sum, ← Finset.sum_add_distrib]
    refine Finset.sum_congr rfl fun j _ => ?_
    rw [oldWeight, oldWeight, List.map_cons, List.sum_cons]
    ring

/-- The loaded terms compute what the terms of the record stand for. -/
theorem planeTermsDot_eq {rows cols : Nat} {ts : List OldTerm} {terms : List BitplaneTerm}
    (h : List.Forall₂ (TermOf rows cols) ts terms) (x : List K) {row : Nat} (hrow : row < rows) :
    planeTermsDot (terms.filter fun term => term.alphaExp ≠ -128) cols x row =
      oldTermsDot (activeOld ts) cols x row := by
  induction h with
  | nil => rfl
  | @cons t term ts terms hterm _ ih =>
    have hvalue : ∑ j ∈ Finset.range cols, (term.value cols row j : K) * x.getD j 0 =
        ∑ j ∈ Finset.range cols, (packedCode t.codes (row * cols + j) : K) * x.getD j 0 := by
      refine Finset.sum_congr rfl fun j hj => ?_
      rw [BitplaneTerm.value, (hterm.planes row hrow j (Finset.mem_range.1 hj)).planeValue
        (packedCode_isTernary _ _)]
    unfold planeTermsDot oldTermsDot activeOld at ih ⊢
    by_cases hempty : t.alphaExp = -128
    · rw [List.filter_cons_of_neg (by simp [hterm.alphaExp, hempty]),
        List.filter_cons_of_neg (by simp [hempty])]
      exact ih
    · rw [List.filter_cons_of_pos (by simp [hterm.alphaExp, hempty]),
        List.filter_cons_of_pos (by simp [hempty]), List.map_cons, List.map_cons, List.sum_cons,
        List.sum_cons, ih, hvalue, hterm.alphaExp]

variable [LinearOrder K] (m : Machine K)

/-- The layers of the two loaders compute the same, and that is the sum over the terms of the
record where there are any. -/
def KeepsMeaning (r : OldRecord) (als plain : LayerData) : Prop :=
  ∀ x, m.CanRead r.cols x → ternaryLinearDispatch m als x = ternaryLinearDispatch m plain x ∧
    ∀ ts, r.body = .terms ts →
      ternaryLinearDispatch m als x = .ok ((List.range r.rows).map (oldTermsDot ts r.cols x))

/-- The terms of the record add up to the zero matrix, with and without those marked empty. -/
def OldRecord.Vanishes (K : Type) [Field K] (r : OldRecord) : Prop :=
  ∀ ts, r.body = .terms ts → ∀ row < r.rows, ∀ j < r.cols,
    oldWeight K ts r.cols row j = 0 ∧ oldWeight K (activeOld ts) r.cols row j = 0

variable {m}

/-- The layer of `load_decomposed_layers` computes the sum over the terms that are not empty. -/
theorem dispatch_counted {r : OldRecord} {ld : LayerData} {ts : List OldTerm} {x : List K}
    (hr : r.WellFormed) (hld : LayerOf r ld) (hbody : r.body = .terms ts) (hx : m.CanRead r.cols x) :
    ternaryLinearDispatch m ld.counted x =
      .ok ((List.range r.rows).map (oldTermsDot (activeOld ts) r.cols x)) := by
  have hof := hld.body
  have hwell := hr.body
  rw [hbody] at hof hwell
  obtain ⟨hraw, hterms⟩ := hof
  have hlen := hterms.length_eq
  have hplane : ld.counted.PlaneLayer r.rows r.cols := by
    refine ⟨hld.outFeatures, hld.inFeatures, rfl, hlen ▸ hwell.2.1, fun term hterm => ?_⟩
    obtain ⟨t, -, hof⟩ := exists_mem_of_forall₂ hterms.flip hterm
    exact hof.length.ge
  have hraw' : ld.counted.hasRawWeights = false := hraw
  have hblocks' : ld.counted.hasBlocks = false := hld.hasBlocks
  rw [ternaryLinearDispatch, hraw', hblocks', if_neg (by decide), if_neg (by decide),
    ternaryLinear_planes hplane hx]
  refine congrArg Except.ok (List.map_congr_left fun row hrow => ?_)
  exact planeTermsDot_eq hterms x (List.mem_range.1 hrow)

omit [LinearOrder K] in
/-- A row of a linear map at a unit vector. -/
theorem oldTermsDot_unitInput (ts : List OldTerm) {cols j : Nat} (hj : j < cols) (row : Nat) :
    oldTermsDot ts cols (unitInput K cols j) row = oldWeight K ts cols row j := by
  rw [oldTermsDot_eq]
  exact sum_unitInput _ hj

omit [LinearOrder K] in
theorem replicate_eq_map_range {n : Nat} {f : Nat → K} :
    List.replicate n 0 = (List.range n).map f ↔ ∀ i < n, f i = 0 := by
  rw [eq_comm, List.eq_replicate_iff]
  simp

/-- The layer without a number of terms keeps the meaning of the matrices that vanish. -/
theorem keepsMeaning_iff {r : OldRecord} {ld : LayerData} (hr : r.WellFormed) (hld : LayerOf r ld) :
    KeepsMeaning m r ld ld.counted ↔ r.Vanishes K := by
  have hof := hld.body
  have hwidth : r.cols ≤ wordsPerRow r.cols * 16 := by unfold wordsPerRow; omega
  have hcan : ∀ j, m.CanRead r.cols (unitInput K r.cols j) := fun j => by
    rw [Machine.CanRead, unitInput_length]
    exact ⟨hwidth, fun _ => le_rfl⟩
  have hout : ld.outFeatures.toNat = r.rows := by rw [hld.outFeatures, Int.toNat_natCast]
  cases hbody : r.body with
  | raw weights =>
    rw [hbody] at hof
    have hsame : ld.counted = ld := by
      obtain ⟨-, hterms⟩ := hof
      have hnum := hld.numTerms
      cases ld
      cases hterms
      cases hnum
      rfl
    have hnone : ∀ ts, r.body ≠ .terms ts := fun ts hts => by
      rw [hbody] at hts
      cases hts
    constructor
    · intro _ ts hts
      exact absurd hts (hnone ts)
    · intro _ x _
      exact ⟨by rw [hsame], fun ts hts => absurd hts (hnone ts)⟩
  | terms ts =>
    rw [hbody] at hof
    have hzeros : ∀ x : List K, ternaryLinearDispatch m ld x = .ok (List.replicate r.rows 0) := by
      intro x
      rw [ternaryLinearDispatch, hof.1, hld.hasBlocks, if_neg (by decide), if_neg (by decide),
        ternaryLinear_noTerms hld.numTerms, hout]
    have hplain : ∀ x, m.CanRead r.cols x → ternaryLinearDispatch m ld.counted x =
        .ok ((List.range r.rows).map (oldTermsDot (activeOld ts) r.cols x)) :=
      fun x hx => dispatch_counted hr hld hbody hx
    constructor
    · intro h ts' hts row hrow j hj
      rw [hbody] at hts
      cases hts
      obtain ⟨hagree, hmeaning⟩ := h _ (hcan j)
      have hmeaning := hmeaning ts hbody
      rw [hzeros, Except.ok.injEq, replicate_eq_map_range] at hmeaning
      rw [hzeros, hplain _ (hcan j), Except.ok.injEq, replicate_eq_map_range] at hagree
      rw [← oldTermsDot_unitInput ts hj row, ← oldTermsDot_unitInput (activeOld ts) hj row]
      exact ⟨hmeaning row hrow, hagree row hrow⟩
    · intro h x hx
      have hrows := h ts hbody
      rw [hzeros, hplain x hx, Except.ok.injEq, replicate_eq_map_range]
      refine ⟨fun row hrow => ?_, fun ts' hts => ?_⟩
      · rw [oldTermsDot_eq]
        refine Finset.sum_eq_zero fun j hj => ?_
        rw [(hrows row hrow j (Finset.mem_range.1 hj)).2, zero_mul]
      · rw [hbody] at hts
        cases hts
        rw [Except.ok.injEq, replicate_eq_map_range]
        intro row hrow
        rw [oldTermsDot_eq]
        refine Finset.sum_eq_zero fun j hj => ?_
        rw [(hrows row hrow j (Finset.mem_range.1 hj)).1, zero_mul]

/-- Every layer of a file of the old layout is loaded by both loaders or by none. A layer of
`load_decomposed_layers_als` computes what the one of `load_decomposed_layers` does, the sum over the
terms of the record, where the record is raw or these sums are zero. -/
theorem oldLayout_meaning_iff (m : Machine K) {records : List OldRecord}
    (hrecords : ∀ r ∈ records, r.WellFormed) (hcount : records.length < 4294967296) :
    ((∀ r ∈ records, r.Rounds) ↔ ∃ als, loadDecomposedLayersAls (oldFile records) = .ok als) ∧
    ∀ als, loadDecomposedLayersAls (oldFile records) = .ok als →
      ∃ plain, loadDecomposedLayers (oldFile records) = .ok plain ∧
        als.length = records.length ∧ plain.length = records.length ∧
        ∀ (i : Nat) (r : OldRecord) (ld ld' : LayerData), records[i]? = some r →
          als[i]? = some ld → plain[i]? = some ld' →
          (KeepsMeaning m r ld ld' ↔ r.Vanishes K) := by
  obtain ⟨hload, hlayers⟩ := loadDecomposedLayersAls_oldFile hrecords hcount
  refine ⟨hload, fun als hals => ?_⟩
  obtain ⟨hofs, hplain⟩ := hlayers als hals
  refine ⟨_, hplain, hofs.length_eq.symm, by rw [List.length_map, hofs.length_eq], ?_⟩
  intro i r ld ld' hr hld hld'
  rw [List.getElem?_map, hld] at hld'
  obtain rfl := Option.some.inj hld'
  obtain ⟨hi, rfl⟩ := List.getElem?_eq_some_iff.1 hr
  obtain ⟨hi', rfl⟩ := List.getElem?_eq_some_iff.1 hld
  exact keepsMeaning_iff (hrecords _ (List.getElem_mem hi)) (hofs.get hi hi')

end

/-- A record of one element, whose only term is one. -/
def unitRecord : OldRecord := ⟨str "w", 1, 1, .terms [⟨0, [0x80]⟩]⟩

theorem unitRecord_wellFormed : unitRecord.WellFormed := by
  refine ⟨by decide, by decide, by decide, by decide, by decide, ?_⟩
  intro t ht
  obtain rfl := List.mem_singleton.1 ht
  exact ⟨by decide, rfl⟩

/-- The layer that it makes. -/
def unitLayer : LayerData :=
  { name := str "w", outFeatures := 1, inFeatures := 1, terms := [⟨0, 1, [0x10000]⟩] }

theorem oldLayout_meaning_unit : (∀ r ∈ [unitRecord], r.WellFormed) ∧
    ((∀ r ∈ [unitRecord], r.Rounds) ↔
      ∃ als, loadDecomposedLayersAls (oldFile [unitRecord]) = .ok als) ∧
    ∀ als, loadDecomposedLayersAls (oldFile [unitRecord]) = .ok als →
      ∃ plain, loadDecomposedLayers (oldFile [unitRecord]) = .ok plain ∧
        als.length = 1 ∧ plain.length = 1 ∧
        ∀ (i : Nat) (r : OldRecord) (ld ld' : LayerData), [unitRecord][i]? = some r →
          als[i]? = some ld → plain[i]? = some ld' →
          (KeepsMeaning ratMachine r ld ld' ↔ r.Vanishes ℚ) := by
  have hrecords : ∀ r ∈ [unitRecord], r.WellFormed := by
    simpa using unitRecord_wellFormed
  exact ⟨hrecords, oldLayout_meaning_iff ratMachine hrecords (by decide)⟩

/-- The layer of `load_decomposed_layers_als` computes zero where the other computes one. -/
theorem not_oldLayout_meaning : unitRecord.WellFormed ∧
    loadDecomposedLayersAls (oldFile [unitRecord]) = .ok [unitLayer] ∧
    loadDecomposedLayers (oldFile [unitRecord]) = .ok [{ unitLayer with numTerms := 1 }] ∧
    ternaryLinearDispatch ratMachine unitLayer [1] = .ok [0] ∧
    ternaryLinearDispatch ratMachine { unitLayer with numTerms := 1 } [1] = .ok [1] ∧
    oldTermsDot [⟨0, [0x80]⟩] 1 [(1 : ℚ)] 0 = 1 := by
  exact ⟨unitRecord_wellFormed, by decide +kernel, by decide +kernel, by decide +kernel,
    by decide +kernel, by decide +kernel⟩

end Terllama
