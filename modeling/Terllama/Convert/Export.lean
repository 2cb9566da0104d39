import Terllama.Loader.Decomposed

/-!
# The writer of `model_decomposed.bin` and its round trip

`write_decomposed` of `src/convert/export.cpp`, and what `loadDecomposedLayersAls` makes of its
output. The writer always uses the new record layout, and the reader recognises it by a word that
holds the three low bytes of the payload length. So a payload whose length is a multiple of `2^24`
is taken for a record of the old layout: a raw layer of 2048 rows and 2048 columns is one.

`readAlsLayer_framed` decodes one record that is recognised, `readAlsLayer_writeLayer` is its
instance for a readable layer, and the induction over the record list assembles `roundTrip_iff`.
-/

namespace Terllama

/-- `OutLayer`. -/
structure OutLayer where
  name : Bytes
  outF : Int
  inF : Int
  layerType : UInt8
  data : Bytes
  deriving DecidableEq, Repr

/-- The bytes `write_decomposed` writes for one layer; `write_le_u32` keeps the low 32 bits. -/
def writeLayer (L : OutLayer) : Bytes :=
  u32Bytes L.name.length ++ L.name ++ u32Bytes (sizeT L.outF) ++ u32Bytes (sizeT L.inF) ++
    [L.layerType] ++ u32Bytes L.data.length ++ L.data

/-- `write_decomposed`: the contents of the file. -/
def writeDecomposed (layers : List OutLayer) : Bytes :=
  u32Bytes 0xDEADBEEF ++ u32Bytes layers.length ++ layers.flatMap writeLayer

/-- A layer as the converter emits it: positive dimensions and a payload of the shape its type
asks for, below 2 GiB. -/
structure ExportLayer where
  name : Bytes
  rows : Nat
  cols : Nat
  payload : Payload
  rows_pos : 0 < rows
  rows_lt : rows < 2147483648
  cols_pos : 0 < cols
  cols_lt : cols < 2147483648
  wellFormed : payload.WellFormed rows cols
  size_lt : payload.bytes.length < 2147483648

/-- The record the converter fills in for a layer. -/
def ExportLayer.toOutLayer (L : ExportLayer) : OutLayer where
  name := L.name
  outF := L.rows
  inF := L.cols
  layerType := L.payload.layerType
  data := L.payload.bytes

/-- The loaded layer has the name, the dimensions and the decoded payload of the written one. -/
structure ExportLayer.Matches (L : ExportLayer) (ld : LayerData) : Prop where
  name : ld.name = L.name
  outFeatures : ld.outFeatures = L.rows
  inFeatures : ld.inFeatures = L.cols
  payload : match L.payload with
    | .raw ws => ld.hasRawWeights = true ∧ ld.hasBlocks = false ∧ ld.rawWeights = ws
    | p => ld.hasRawWeights = false ∧ ld.hasBlocks = true ∧ ld.blockTerms = p.terms

/-- The word after the dimensions of a written record, which the reader sniffs. -/
def OutLayer.sniffedWord (L : OutLayer) : UInt32 :=
  UInt32.ofNat (leNat (((writeLayer L).drop (L.name.length + 12)).take 4))

/-- The file of these layers is read back as these layers, and no record is taken for the old
layout. -/
def RoundTrip (layers : List ExportLayer) : Prop :=
  (∃ lds, loadDecomposedLayersAls (writeDecomposed (layers.map ExportLayer.toOutLayer)) = .ok lds ∧
      List.Forall₂ ExportLayer.Matches layers lds) ∧
    ∀ L ∈ layers, sniffAlsLayout L.toOutLayer.sniffedWord = 0

/-- The records the reader reads back: the name length fits its field, the low bytes of the
payload length are not all zero, and the block count of a row does not overflow an `int`. -/
structure ExportLayer.Readable (L : ExportLayer) : Prop where
  name_lt : L.name.length < 4294967296
  framing : L.payload.bytes.length % 16777216 ≠ 0
  cols_le : L.payload.layerType ≠ 1 → L.cols ≤ 2147483519

/-! ## The header of a record -/

theorem Payload.layerType_le (p : Payload) : p.layerType ≤ 2 := by
  cases p <;> simp [Payload.layerType]

theorem leBytes_succ' (k n : Nat) :
    leBytes (k + 1) n = leBytes k n ++ [UInt8.ofNat (n / 256 ^ k)] := by
  induction k generalizing n with
  | zero => simp [leBytes]
  | succ k ih =>
    rw [leBytes, ih, leBytes, Nat.div_div_eq_div_mul, ← Nat.pow_succ', List.cons_append]

/-- The fields of a record before its body, read from a stream that goes on with `rest`. -/
theorem readAlsLayer_header {name : Bytes} {rows cols : Nat} (hrows : rows < 2147483648)
    (hcols : cols < 2147483648) (t : UInt8) (len : Nat) (hname : name.length < 4294967296)
    (rest : Bytes) :
    readAlsLayer ⟨u32Bytes name.length ++ name ++ u32Bytes rows ++ u32Bytes cols ++ [t] ++
        u32Bytes len ++ rest, false⟩ =
      (let x := framingWord t len
      let ld : LayerData := { name, outFeatures := rows, inFeatures := cols }
      if sniffAlsLayout x = 1 then readOldBody ld (sizeT (rows * cols)) x
      else readNewBody ld x) ⟨UInt8.ofNat (len / 16777216) :: rest, false⟩ := by
  have hlen : (UInt32.ofNat name.length).toNat = name.length := by
    rw [UInt32.toNat_ofNat', Nat.mod_eq_of_lt hname]
  have hword : readU32 "x" ⟨t :: (leBytes 3 len ++ UInt8.ofNat (len / 16777216) :: rest), false⟩ =
      .ok (framingWord t len, ⟨UInt8.ofNat (len / 16777216) :: rest, false⟩) := by
    have h := readFresh_append (a := t :: leBytes 3 len) (n := 4) (by simp) "x"
      (UInt8.ofNat (len / 16777216) :: rest)
    rw [List.cons_append] at h
    simp only [readU32, StreamM.bind_apply, h, ok_bind, StreamM.pure_apply, leNat_framing]
    rfl
  have hsplit : u32Bytes len = leBytes 3 len ++ [UInt8.ofNat (len / 16777216)] :=
    leBytes_succ' 3 len
  simp only [readAlsLayer, StreamM.bind_apply, List.append_assoc]
  rw [readU32_append, ok_bind, hlen, readInto_append _ (by simp), ok_bind,
    readI32_append, ok_bind, readI32_append, ok_bind, hsplit]
  simp only [List.singleton_append, List.append_assoc, hword, ok_bind, toInt32_of_lt hrows,
    toInt32_of_lt hcols]

/-! ## One record -/

/-- The layer a readable record is decoded to. -/
def ExportLayer.loaded (L : ExportLayer) : LayerData :=
  ({ name := L.name, outFeatures := L.rows, inFeatures := L.cols } : LayerData).load L.rows L.cols
    L.payload

theorem ExportLayer.matches_loaded (L : ExportLayer) : L.Matches L.loaded := by
  obtain ⟨name, rows, cols, p, _, _, _, _, _, _⟩ := L
  cases p <;> exact ⟨rfl, rfl, rfl, rfl, rfl, rfl⟩

/-- The reader in front of a record the converter wrote, after the fields of its header. -/
theorem readAlsLayer_toOutLayer {L : OutLayer} {rows cols : Nat} (hout : L.outF = rows)
    (hin : L.inF = cols) (hrows : rows < 2147483648) (hcols : cols < 2147483648)
    (hname : L.name.length < 4294967296) (rest : Bytes) :
    readAlsLayer ⟨writeLayer L ++ rest, false⟩ =
      (let x := framingWord L.layerType L.data.length
      let ld : LayerData := { name := L.name, outFeatures := rows, inFeatures := cols }
      if sniffAlsLayout x = 1 then readOldBody ld (sizeT (rows * cols)) x
      else readNewBody ld x)
        ⟨UInt8.ofNat (L.data.length / 16777216) :: (L.data ++ rest), false⟩ := by
  rw [← readAlsLayer_header hrows hcols _ _ hname]
  simp only [writeLayer, hout, hin, List.append_assoc,
    sizeT_of_nonneg (Int.natCast_nonneg rows) (by omega),
    sizeT_of_nonneg (Int.natCast_nonneg cols) (by omega), Int.toNat_natCast]

/-- The new-layout body of a record that was recognised: its payload is decoded. -/
theorem readNewBody_framingWord {ld : LayerData} {t : UInt8} (ht : t ≤ 2) {data : Bytes}
    (hlen : data.length < 4294967296) (rest : Bytes) :
    readNewBody ld (framingWord t data.length)
        ⟨UInt8.ofNat (data.length / 16777216) :: (data ++ rest), false⟩ =
      parseLayerTypeData ld t data >>= fun ld' => .ok (ld', ⟨rest, false⟩) := by
  rw [readNewBody, layerTypeOf_framingWord, if_neg (UInt8.not_lt.2 ht)]
  simp only [StreamM.bind_apply, readU8_cons, ok_bind, dataLenOf_framingWord t hlen,
    readInto_append (List.replicate data.length 0) (a := data) (by simp),
    StreamM.monadLift_apply]

/-- A record that is recognised: its dimensions are `int`s that are not negative, its layer type is
known, its lengths fit their fields, and the low bytes of its payload length are not all zero. -/
structure OutLayer.Framed (L : OutLayer) : Prop where
  name_lt : L.name.length < 4294967296
  outF : 0 ≤ L.outF ∧ L.outF ≤ 2147483647
  inF : 0 ≤ L.inF ∧ L.inF ≤ 2147483647
  layerType_le : L.layerType ≤ 2
  len_lt : L.data.length < 4294967296
  framing : L.data.length % 16777216 ≠ 0

/-- The layer a record is decoded into, with the fields of its header. -/
def OutLayer.blank (L : OutLayer) : LayerData :=
  { name := L.name, outFeatures := L.outF, inFeatures := L.inF }

/-- A record that is recognised is decoded from its payload. -/
theorem readAlsLayer_framed {L : OutLayer} (h : L.Framed) (rest : Bytes) :
    readAlsLayer ⟨writeLayer L ++ rest, false⟩ =
      parseLayerTypeData L.blank L.layerType L.data >>= fun ld => .ok (ld, ⟨rest, false⟩) := by
  obtain ⟨rows, hrows⟩ := Int.eq_ofNat_of_zero_le h.outF.1
  obtain ⟨cols, hcols⟩ := Int.eq_ofNat_of_zero_le h.inF.1
  have hout := h.outF.2
  have hin := h.inF.2
  have hsniff := (sniffAlsLayout_framingWord h.layerType_le _).2 h.framing
  rw [readAlsLayer_toOutLayer hrows hcols (by omega) (by omega) h.name_lt]
  simp only [hsniff]
  rw [if_neg (by decide), readNewBody_framingWord h.layerType_le h.len_lt, OutLayer.blank, hrows,
    hcols]

theorem ExportLayer.framed {L : ExportLayer} (hname : L.name.length < 4294967296)
    (hframing : L.payload.bytes.length % 16777216 ≠ 0) : L.toOutLayer.Framed := by
  have hrows := L.rows_lt
  have hcols := L.cols_lt
  have hsize := L.size_lt
  have hout : (L.rows : Int) ≤ 2147483647 := by omega
  have hin : (L.cols : Int) ≤ 2147483647 := by omega
  have hlen : L.payload.bytes.length < 4294967296 := by omega
  exact ⟨hname, ⟨Int.natCast_nonneg L.rows, hout⟩, ⟨Int.natCast_nonneg L.cols, hin⟩,
    L.payload.layerType_le, hlen, hframing⟩

/-- A readable record is read back as its layer. -/
theorem readAlsLayer_writeLayer {L : ExportLayer} (h : L.Readable) (rest : Bytes) :
    readAlsLayer ⟨writeLayer L.toOutLayer ++ rest, false⟩ = .ok (L.loaded, ⟨rest, false⟩) := by
  have hsize := L.size_lt
  have hparse : parseLayerTypeData L.toOutLayer.blank L.payload.layerType L.payload.bytes =
      .ok L.loaded :=
    parseLayerTypeData_ok _ L.cols_pos rfl rfl h.cols_le L.wellFormed
      (L.wellFormed.fits (by omega))
  rw [readAlsLayer_framed (ExportLayer.framed h.name_lt h.framing), show
    L.toOutLayer.layerType = L.payload.layerType from rfl, show
    L.toOutLayer.data = L.payload.bytes from rfl, hparse, ok_bind]

/-- The word a written record is sniffed by. -/
theorem OutLayer.sniffedWord_eq (L : OutLayer) :
    L.sniffedWord = framingWord L.layerType L.data.length := by
  have hsplit : writeLayer L =
      (u32Bytes L.name.length ++ L.name ++ u32Bytes (sizeT L.outF) ++ u32Bytes (sizeT L.inF)) ++
        (L.layerType :: leBytes 3 L.data.length) ++
          (UInt8.ofNat (L.data.length / 16777216) :: L.data) := by
    have hlen : u32Bytes L.data.length = leBytes 3 L.data.length ++
        [UInt8.ofNat (L.data.length / 16777216)] := leBytes_succ' 3 L.data.length
    rw [writeLayer, hlen]
    simp
  have hword : ((writeLayer L).drop (L.name.length + 12)).take 4 =
      L.layerType :: leBytes 3 L.data.length := by
    rw [hsplit, List.append_assoc, List.drop_left' (by simp; omega), List.take_left' (by simp)]
  rw [OutLayer.sniffedWord, hword, leNat_framing, framingWord]

theorem ExportLayer.sniff_eq_zero (L : ExportLayer) :
    sniffAlsLayout L.toOutLayer.sniffedWord = 0 ↔ L.payload.bytes.length % 16777216 ≠ 0 := by
  rw [OutLayer.sniffedWord_eq]
  exact sniffAlsLayout_framingWord L.payload.layerType_le _

/-- A record that was recognised and returned has a block count that does not overflow. -/
theorem ExportLayer.cols_le {L : ExportLayer} {rest : Bytes} {p : LayerData × InStream}
    (hname : L.name.length < 4294967296) (hframing : L.payload.bytes.length % 16777216 ≠ 0)
    (h : readAlsLayer ⟨writeLayer L.toOutLayer ++ rest, false⟩ = .ok p) :
    L.payload.layerType ≠ 1 → L.cols ≤ 2147483519 := by
  intro htype
  rw [readAlsLayer_framed (ExportLayer.framed hname hframing)] at h
  obtain ⟨ld, hparse, -⟩ := bind_eq_ok.1 h
  obtain ⟨nb, hnb⟩ := (parseLayerTypeData_inv hparse).2 htype
  have hcols : (L.cols : Int) ≤ 2147483519 := ceilBlocks_128_le hnb
  exact_mod_cast hcols

/-! ## The whole file -/

/-- The records of a file of readable layers. -/
theorem readAlsLayers_ok {layers : List ExportLayer} (h : ∀ L ∈ layers, L.Readable)
    (rest : Bytes) :
    readAlsLayers layers.length
        ⟨(layers.map ExportLayer.toOutLayer).flatMap writeLayer ++ rest, false⟩ =
      .ok (layers.map ExportLayer.loaded, ⟨rest, false⟩) := by
  induction layers with
  | nil => rfl
  | cons L layers ih =>
    have hL := h L (by simp)
    have ih := ih fun L' hL' => h L' (by simp [hL'])
    simp only [List.length_cons, readAlsLayers, List.map_cons, List.flatMap_cons,
      List.append_assoc, StreamM.bind_apply, readAlsLayer_writeLayer hL, ok_bind, ih,
      StreamM.pure_apply]

/-- Records that were all recognised and returned are all readable. -/
theorem readable_of_readAlsLayers {layers : List ExportLayer} (rest : Bytes)
    {p : List LayerData × InStream} (hname : ∀ L ∈ layers, L.name.length < 4294967296)
    (hframing : ∀ L ∈ layers, L.payload.bytes.length % 16777216 ≠ 0)
    (h : readAlsLayers layers.length
      ⟨(layers.map ExportLayer.toOutLayer).flatMap writeLayer ++ rest, false⟩ = .ok p) :
    ∀ L ∈ layers, L.Readable := by
  induction layers generalizing p with
  | nil => simp
  | cons L layers ih =>
    rw [List.length_cons, List.map_cons, List.flatMap_cons, List.append_assoc,
      readAlsLayers] at h
    obtain ⟨ld, s, hfirst, h⟩ := StreamM.bind_eq_ok.1 h
    have hL : L.Readable :=
      ⟨hname L (by simp), hframing L (by simp),
        L.cols_le (hname L (by simp)) (hframing L (by simp)) hfirst⟩
    rw [readAlsLayer_writeLayer hL] at hfirst
    cases hfirst
    obtain ⟨lds, s, hrest, -⟩ := StreamM.bind_eq_ok.1 h
    rw [List.forall_mem_cons]
    exact ⟨hL, ih (fun L' h' => hname L' (by simp [h'])) (fun L' h' => hframing L' (by simp [h']))
      hrest⟩

/-- The records of a file of recognised records. -/
theorem readAlsLayers_framed {layers : List OutLayer} (h : ∀ L ∈ layers, L.Framed) (rest : Bytes) :
    readAlsLayers layers.length ⟨layers.flatMap writeLayer ++ rest, false⟩ =
      layers.mapM (fun L => parseLayerTypeData L.blank L.layerType L.data) >>= fun lds =>
        .ok (lds, ⟨rest, false⟩) := by
  induction layers with
  | nil => rfl
  | cons L layers ih =>
    have hL := h L (by simp)
    have ih := ih fun L' hL' => h L' (by simp [hL'])
    rw [List.length_cons, readAlsLayers, List.flatMap_cons, List.append_assoc, List.mapM_cons,
      StreamM.bind_apply, readAlsLayer_framed hL]
    cases parseLayerTypeData L.blank L.layerType L.data with
    | error e => rfl
    | ok ld =>
      simp only [ok_bind, StreamM.bind_apply, ih]
      cases layers.mapM fun L => parseLayerTypeData L.blank L.layerType L.data with
      | error e => rfl
      | ok lds => rfl

/-- The reader on a written file, after its magic number and record count. -/
theorem loadDecomposedLayersAls_writeDecomposed (layers : List OutLayer) :
    loadDecomposedLayersAls (writeDecomposed layers) = (do
      let (lds, _) ← readAlsLayers (UInt32.ofNat layers.length).toNat
        ⟨layers.flatMap writeLayer, false⟩
      return lds) := by
  have hheader : readAlsHeader (.open (writeDecomposed layers)) =
      .ok (UInt32.ofNat layers.length, ⟨layers.flatMap writeLayer, false⟩) := by
    simp only [readAlsHeader, InStream.open, writeDecomposed, List.append_assoc,
      StreamM.bind_apply, readU32_append, ok_bind]
    rw [if_neg (by decide), readU32_append]
  rw [loadDecomposedLayersAls, hheader, ok_bind]

/-- The layers of a file of recognised records. -/
theorem loadDecomposedLayersAls_framed {layers : List OutLayer}
    (hcount : layers.length < 4294967296) (h : ∀ L ∈ layers, L.Framed) :
    loadDecomposedLayersAls (writeDecomposed layers) =
      layers.mapM fun L => parseLayerTypeData L.blank L.layerType L.data := by
  have hread := readAlsLayers_framed h []
  rw [List.append_nil] at hread
  rw [loadDecomposedLayersAls_writeDecomposed, UInt32.toNat_ofNat', Nat.mod_eq_of_lt hcount, hread]
  cases layers.mapM fun L => parseLayerTypeData L.blank L.layerType L.data with
  | error e => rfl
  | ok lds => rfl

/-- Layers that were read back are readable, and their number fits its field. -/
theorem RoundTrip.readable {layers : List ExportLayer} (h : RoundTrip layers) :
    layers.length < 4294967296 ∧ ∀ L ∈ layers, L.Readable := by
  obtain ⟨⟨lds, hload, hmatch⟩, hsniff⟩ := h
  rw [loadDecomposedLayersAls_writeDecomposed, List.length_map] at hload
  obtain ⟨⟨lds', s⟩, hread, heq⟩ := bind_eq_ok.1 hload
  cases heq
  have hcount : layers.length < 4294967296 := by
    rw [hmatch.length_eq, readAlsLayers_length hread]
    exact UInt32.toNat_lt _
  have hname : ∀ L ∈ layers, L.name.length < 4294967296 := by
    intro L hL
    obtain ⟨ld, hld, hm⟩ := exists_mem_of_forall₂ hmatch hL
    rw [← hm.name]
    exact readAlsLayers_name_lt hread ld hld
  refine ⟨hcount, readable_of_readAlsLayers [] (p := (lds, s)) hname
    (fun L hL => L.sniff_eq_zero.1 (hsniff L hL)) ?_⟩
  rw [UInt32.toNat_ofNat', Nat.mod_eq_of_lt hcount] at hread
  rw [List.append_nil]
  exact hread

/-- A list of layers survives the file exactly when its length fits its field and every layer is
readable. -/
theorem roundTrip_iff (layers : List ExportLayer) :
    RoundTrip layers ↔ layers.length < 4294967296 ∧ ∀ L ∈ layers, L.Readable := by
  refine ⟨RoundTrip.readable, ?_⟩
  rintro ⟨hcount, hlayers⟩
  refine ⟨⟨layers.map ExportLayer.loaded, ?_, ?_⟩, ?_⟩
  · have hread := readAlsLayers_ok hlayers []
    rw [List.append_nil] at hread
    rw [loadDecomposedLayersAls_writeDecomposed, List.length_map, UInt32.toNat_ofNat',
      Nat.mod_eq_of_lt hcount, hread, ok_bind]
    rfl
  · rw [List.forall₂_map_right_iff]
    exact List.forall₂_same.2 fun L _ => L.matches_loaded
  · intro L hL
    exact L.sniff_eq_zero.2 (hlayers L hL).framing

/-- A raw square matrix of 2048 rows, as an `o_proj` of that size is exported. -/
def rawSquareLayer : ExportLayer where
  name := str "model.layers.0.self_attn.o_proj"
  rows := 2048
  cols := 2048
  payload := .raw (List.replicate 4194304 0)
  rows_pos := by decide
  rows_lt := by decide
  cols_pos := by decide
  cols_lt := by decide
  wellFormed := trivial
  size_lt := by rw [Payload.bytes, floatBytes_length, List.length_replicate]; decide

/-- The file of one raw 2048 × 2048 layer is not read back: its payload has `2^24` bytes. -/
theorem not_roundTrip_rawSquareLayer : ¬ RoundTrip [rawSquareLayer] := by
  intro h
  have hsize : rawSquareLayer.payload.bytes.length = 16777216 := by
    rw [rawSquareLayer, Payload.bytes, floatBytes_length, List.length_replicate]
  have hframing := (h.readable.2 rawSquareLayer (List.mem_singleton_self _)).framing
  rw [hsize] at hframing
  exact hframing rfl

end Terllama
