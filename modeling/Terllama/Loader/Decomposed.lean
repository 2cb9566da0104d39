import Terllama.Base.Stream
import Terllama.Loader.Payload

/-!
# The reader of `model_decomposed.bin`

`load_decomposed_layers_als` of `src/loader.h`. A record is a name, two dimensions, and a body in
one of two layouts. The old layout goes on with a `u32` term count, the new one with a `u8` layer
type and a `u32` payload length; the reader tells them apart by the word after the dimensions
(`sniffAlsLayout`), which in the new layout holds the layer type and the three low bytes of the
length. `framingWord_*` say what the reader makes of that word.

The streams are never tested: a truncated file ends in a payload padded with zeros, or in the use
of a variable that was not read.
-/

namespace Terllama

/-! ## The old layout -/

/-- `decode_ternary`: two bits an element, `{non_zero, is_neg}`, the first element highest. -/
def decodeTernary (data : Bytes) (pos : Nat) : Exec Int := do
  let byte ← load data (pos * 2 / 8)
  let bits := (byte >>> UInt8.ofNat (6 - pos * 2 % 8)) &&& 0x3
  return if bits = 2 then 1 else if bits = 3 then -1 else 0

/-- `combined[i] |= bits`. -/
def orWord (combined : List UInt32) (i : Nat) (bits : UInt32) : Exec (List UInt32) := do
  let w ← load combined i
  return combined.set i (w ||| bits)

/-- The decoding of a term's packed codes to coalesced bitplane words. -/
def decodeCombined (packed : Bytes) (outF inF : Int) : Exec (List UInt32) := do
  let s ← i32 (inF + 15)
  let wordsPerRow := s.tdiv 16
  let nWords := sizeT (outF * wordsPerRow)
  vectorAlloc nWords 4
  (List.range outF.toNat).foldlM (fun combined r =>
    (List.range inF.toNat).foldlM (fun combined j => do
      let tv ← decodeTernary packed (r * inF.toNat + j)
      let absWord := r * wordsPerRow.toNat + j / 16
      let bit := UInt32.ofNat (j % 16)
      if tv = 1 then orWord combined absWord (1 <<< (bit + 16))
      else if tv = -1 then orWord combined absWord ((1 <<< (bit + 16)) ||| (1 <<< bit))
      else return combined) combined)
    (List.replicate nWords 0)

/-- The number of bytes of a term's packed codes: `(n_elements * 2 + 7) / 8`, in `size_t`. -/
def packedSize (nElements : Nat) : Nat := sizeT (sizeT (nElements * 2) + 7) / 8

/-- One term of the old layout: the exponent and the packed codes. -/
def readBitplaneTerm (nElements : Nat) (outF inF : Int) : StreamM BitplaneTerm := do
  let alphaExp ← readI32
  let packed ← readInto (List.replicate (packedSize nElements) 0)
  let combined ← decodeCombined packed outF inF
  return { alphaExp, nElements, combined }

/-- The terms of a record of the old layout. -/
def readBitplaneTerms (nElements : Nat) (outF inF : Int) : Nat → StreamM (List BitplaneTerm)
  | 0 => pure []
  | n + 1 => do
    let term ← readBitplaneTerm nElements outF inF
    let rest ← readBitplaneTerms nElements outF inF n
    return term :: rest

/-- The raw weights of a record of the old layout: a length and the `float`s. The vector holds the
whole words only, so that a length that is not a multiple of four overruns it. -/
def readRawWeights : StreamM (List F32) := do
  let dataLen ← readU32 "data_len"
  let data ← readInto (List.replicate dataLen.toNat 0)
  copyFloats data

/-! ## Records -/

/-- `sniff_als_layout`: 1 is the old layout, 0 the new one. -/
def sniffAlsLayout (x : UInt32) : Int := if x ≤ 32 then 1 else 0

/-- The body of a record of the old layout, whose term count is `x`. -/
def readOldBody (ld : LayerData) (nElements : Nat) (x : UInt32) : StreamM LayerData := do
  if x = 0 then
    let rawWeights ← readRawWeights
    return { ld with hasRawWeights := true, rawWeights }
  else
    let terms ← readBitplaneTerms nElements ld.outFeatures ld.inFeatures x.toNat
    return { ld with terms }

/-- The layer type in the word after the dimensions. -/
def layerTypeOf (x : UInt32) : UInt8 := (x &&& 0xFF).toUInt8

/-- The payload length, whose high byte is the next byte of the stream. -/
def dataLenOf (x : UInt32) (lenHi : UInt8) : Nat :=
  let low : UInt32 := (x >>> 8) &&& (0x00FFFFFF : UInt32)
  (low ||| (lenHi.toUInt32 <<< (24 : UInt32))).toNat

/-- The body of a record of the new layout, after the word `x`. -/
def readNewBody (ld : LayerData) (x : UInt32) : StreamM LayerData := do
  if layerTypeOf x > 2 then
    (raise "ALS layer: bad layer_type in model file" : Exec LayerData)
  else
    let lenHi ← readU8 "len_hi"
    let data ← readInto (List.replicate (dataLenOf x lenHi) 0)
    parseLayerTypeData ld (layerTypeOf x) data

/-- One record of `load_decomposed_layers_als`. -/
def readAlsLayer : StreamM LayerData := do
  let nameLen ← readU32 "name_len"
  let name ← readInto (List.replicate nameLen.toNat 0)
  let outFeatures ← readI32
  let inFeatures ← readI32
  let x ← readU32 "x"
  let ld : LayerData := { name, outFeatures, inFeatures }
  if sniffAlsLayout x = 1 then readOldBody ld (sizeT (outFeatures * inFeatures)) x
  else readNewBody ld x

/-- The record loop. -/
def readAlsLayers : Nat → StreamM (List LayerData)
  | 0 => pure []
  | n + 1 => do
    let ld ← readAlsLayer
    let rest ← readAlsLayers n
    return ld :: rest

/-- The magic number and the record count of the file. -/
def readAlsHeader : StreamM UInt32 := do
  let magic ← readU32 "magic"
  if magic ≠ 0xDEADBEEF then (raise "Bad magic in ALS model file" : Exec UInt32)
  else readU32 "num_layers"

/-- `load_decomposed_layers_als`, on the contents of the file. -/
def loadDecomposedLayersAls (file : Bytes) : Exec (List LayerData) := do
  let (numLayers, s) ← readAlsHeader (.open file)
  let (layers, _) ← readAlsLayers numLayers.toNat s
  return layers

/-! ## Records that were read -/

theorem readOldBody_header {ld ld' : LayerData} {nElements : Nat} {x : UInt32} {s s' : InStream}
    (h : readOldBody ld nElements x s = .ok (ld', s')) :
    ld'.header = ld.header := by
  unfold readOldBody at h
  split at h
  · obtain ⟨ws, s₁, -, h⟩ := StreamM.bind_eq_ok.1 h
    cases h
    rfl
  · obtain ⟨terms, s₁, -, h⟩ := StreamM.bind_eq_ok.1 h
    cases h
    rfl

theorem readNewBody_header {ld ld' : LayerData} {x : UInt32} {s s' : InStream}
    (h : readNewBody ld x s = .ok (ld', s')) :
    ld'.header = ld.header := by
  unfold readNewBody at h
  split at h
  · simp at h
  · obtain ⟨hi, s₁, -, h⟩ := StreamM.bind_eq_ok.1 h
    obtain ⟨data, s₂, -, h⟩ := StreamM.bind_eq_ok.1 h
    rw [StreamM.liftM_apply] at h
    obtain ⟨ld₁, hparse, h⟩ := Terllama.bind_eq_ok.1 h
    cases h
    exact (parseLayerTypeData_inv hparse).1

/-- A name the reader returns has the length its `u32` field gave. -/
theorem readAlsLayer_name_lt {s s' : InStream} {ld : LayerData}
    (h : readAlsLayer s = .ok (ld, s')) : ld.name.length < 4294967296 := by
  obtain ⟨nameLen, s₁, -, h⟩ := StreamM.bind_eq_ok.1 h
  obtain ⟨name, s₂, hname, h⟩ := StreamM.bind_eq_ok.1 h
  obtain ⟨outF, s₃, -, h⟩ := StreamM.bind_eq_ok.1 h
  obtain ⟨inF, s₄, -, h⟩ := StreamM.bind_eq_ok.1 h
  obtain ⟨x, s₅, -, h⟩ := StreamM.bind_eq_ok.1 h
  have hlen : name.length < 4294967296 := by
    rw [readInto_length hname, List.length_replicate]
    exact nameLen.toNat_lt
  have hheader : ld.header = (name, outF, inF) := by
    split at h
    · exact readOldBody_header h
    · exact readNewBody_header h
  rw [show ld.name = name from congrArg Prod.fst hheader]
  exact hlen

theorem readAlsLayers_length {n : Nat} {s s' : InStream} {lds : List LayerData}
    (h : readAlsLayers n s = .ok (lds, s')) : lds.length = n := by
  induction n generalizing s lds s' with
  | zero =>
    cases h
    rfl
  | succ n ih =>
    obtain ⟨ld, s₁, -, h⟩ := StreamM.bind_eq_ok.1 h
    obtain ⟨rest, s₂, hrest, h⟩ := StreamM.bind_eq_ok.1 h
    cases h
    rw [List.length_cons, ih hrest]

theorem readAlsLayers_name_lt {n : Nat} {s s' : InStream} {lds : List LayerData}
    (h : readAlsLayers n s = .ok (lds, s')) : ∀ ld ∈ lds, ld.name.length < 4294967296 := by
  induction n generalizing s lds s' with
  | zero =>
    cases h
    simp
  | succ n ih =>
    obtain ⟨ld, s₁, hld, h⟩ := StreamM.bind_eq_ok.1 h
    obtain ⟨rest, s₂, hrest, h⟩ := StreamM.bind_eq_ok.1 h
    cases h
    rw [List.forall_mem_cons]
    exact ⟨readAlsLayer_name_lt hld, ih hrest⟩

/-- A layer that the reader returns is a loaded one. -/
theorem readAlsLayer_loaded {s s' : InStream} {ld : LayerData}
    (h : readAlsLayer s = .ok (ld, s')) : ld.Loaded := by
  obtain ⟨nameLen, s₁, -, h⟩ := StreamM.bind_eq_ok.1 h
  obtain ⟨name, s₂, -, h⟩ := StreamM.bind_eq_ok.1 h
  obtain ⟨outF, s₃, hout, h⟩ := StreamM.bind_eq_ok.1 h
  obtain ⟨inF, s₄, -, h⟩ := StreamM.bind_eq_ok.1 h
  obtain ⟨x, s₅, -, h⟩ := StreamM.bind_eq_ok.1 h
  split at h
  · unfold readOldBody at h
    split at h
    · obtain ⟨ws, s₆, -, h⟩ := StreamM.bind_eq_ok.1 h
      cases h
      exact nofun
    · obtain ⟨terms, s₆, -, h⟩ := StreamM.bind_eq_ok.1 h
      cases h
      exact nofun
  · unfold readNewBody at h
    split at h
    · cases h
    · obtain ⟨lenHi, s₆, -, h⟩ := StreamM.bind_eq_ok.1 h
      obtain ⟨data, s₇, -, h⟩ := StreamM.bind_eq_ok.1 h
      rw [StreamM.liftM_apply] at h
      obtain ⟨ld', hparse, h⟩ := Terllama.bind_eq_ok.1 h
      cases h
      exact parseLayerTypeData_loaded (readI32_range hout) rfl hparse

theorem readAlsLayers_loaded {n : Nat} {s s' : InStream} {lds : List LayerData}
    (h : readAlsLayers n s = .ok (lds, s')) : ∀ ld ∈ lds, ld.Loaded := by
  induction n generalizing s lds s' with
  | zero =>
    cases h
    exact nofun
  | succ n ih =>
    obtain ⟨ld, s₁, hld, h⟩ := StreamM.bind_eq_ok.1 h
    obtain ⟨rest, s₂, hrest, h⟩ := StreamM.bind_eq_ok.1 h
    cases h
    rw [List.forall_mem_cons]
    exact ⟨readAlsLayer_loaded hld, ih hrest⟩

/-- So is every layer of `load_decomposed_layers_als`. -/
theorem loadDecomposedLayersAls_loaded {file : Bytes} {lds : List LayerData}
    (h : loadDecomposedLayersAls file = .ok lds) : ∀ ld ∈ lds, ld.Loaded := by
  obtain ⟨⟨numLayers, s⟩, -, h⟩ := Terllama.bind_eq_ok.1 h
  obtain ⟨⟨layers, s'⟩, hlayers, h⟩ := Terllama.bind_eq_ok.1 h
  cases h
  exact readAlsLayers_loaded hlayers

/-! ## The word after the dimensions -/

/-- The first four bytes of a new-layout body: the layer type and the low bytes of the length. -/
def framingWord (layerType : UInt8) (len : Nat) : UInt32 :=
  UInt32.ofNat (layerType.toNat + 256 * (len % 16777216))

theorem framingWord_toNat (layerType : UInt8) (len : Nat) :
    (framingWord layerType len).toNat = layerType.toNat + 256 * (len % 16777216) := by
  have ht := layerType.toNat_lt
  simp only [framingWord, UInt32.toNat_ofNat']
  omega

/-- The word is what the four bytes spell. -/
theorem leNat_framing (layerType : UInt8) (len : Nat) :
    leNat (layerType :: leBytes 3 len) = layerType.toNat + 256 * (len % 16777216) := by
  rw [leNat, leNat_leBytes]
  rfl

/-- A new record is taken for an old one exactly when the low bytes of its length are zero. -/
theorem sniffAlsLayout_framingWord {layerType : UInt8} (h : layerType ≤ 2) (len : Nat) :
    sniffAlsLayout (framingWord layerType len) = 0 ↔ len % 16777216 ≠ 0 := by
  have ht : layerType.toNat ≤ 2 := UInt8.le_iff_toNat_le.1 h
  have hiff : framingWord layerType len ≤ 32 ↔ len % 16777216 = 0 := by
    rw [UInt32.le_iff_toNat_le, framingWord_toNat, show (32 : UInt32).toNat = 32 from rfl]
    omega
  unfold sniffAlsLayout
  split
  · rename_i hle
    simp [hiff.1 hle]
  · rename_i hle
    simp [mt hiff.2 hle]

@[simp] theorem layerTypeOf_framingWord (layerType : UInt8) (len : Nat) :
    layerTypeOf (framingWord layerType len) = layerType := by
  have ht := layerType.toNat_lt
  apply UInt8.toNat_inj.1
  rw [layerTypeOf, UInt32.toNat_toUInt8, UInt32.toNat_and, framingWord_toNat,
    show (0xFF : UInt32).toNat = 2 ^ 8 - 1 from rfl, Nat.and_two_pow_sub_one_eq_mod]
  omega

/-- The length is reassembled from the word and the byte after it. -/
theorem dataLenOf_framingWord (layerType : UInt8) {len : Nat} (h : len < 4294967296) :
    dataLenOf (framingWord layerType len) (UInt8.ofNat (len / 16777216)) = len := by
  have ht := layerType.toNat_lt
  have hlo : ((framingWord layerType len >>> 8) &&& (0x00FFFFFF : UInt32)).toNat =
      len % 16777216 := by
    rw [UInt32.toNat_and, UInt32.toNat_shiftRight, framingWord_toNat,
      show (0x00FFFFFF : UInt32).toNat = 2 ^ 24 - 1 from rfl, Nat.and_two_pow_sub_one_eq_mod,
      show (8 : UInt32).toNat % 32 = 8 from rfl, Nat.shiftRight_eq_div_pow]
    omega
  have hhi : ((UInt8.ofNat (len / 16777216)).toUInt32 <<< (24 : UInt32)).toNat =
      (len / 16777216) <<< 24 := by
    have hlt : len / 16777216 < 256 := by omega
    rw [UInt32.toNat_shiftLeft, UInt8.toNat_toUInt32, UInt8.toNat_ofNat', Nat.mod_eq_of_lt hlt,
      show (24 : UInt32).toNat % 32 = 24 from rfl, Nat.shiftLeft_eq]
    omega
  rw [dataLenOf, UInt32.toNat_or, hlo, hhi, Nat.or_comm,
    ← Nat.shiftLeft_add_eq_or_of_lt (by omega), Nat.shiftLeft_eq]
  omega

end Terllama
