import Terllama.Convert.Decompose
import Terllama.Convert.Export
import Terllama.Convert.Extra
import Terllama.Loader.Directory

/-!
# The converter

`convert_model` of `src/convert/export.cpp`, from the parsed `config.json` and the tensors of a
checkpoint to the two files it writes. The downloads, the progress output and the parsing of JSON
and of safetensors files are left out.

The converter and the loader check different things. `convertModel` returns 0 on a model without
projections, on one whose `intermediate_size` is zero and on any number of terms, all of which the
loader or the forward pass refuses; `converted_accepted_iff` lists the conditions.
-/

namespace Terllama

/-! ## The linear layers -/

/-- `LinearRef`. -/
structure LinearRef where
  name : Bytes
  t : STTensor

/-- `k_layer_submodules`. -/
def layerSubmodules : List Bytes :=
  [str "self_attn.q_proj", str "self_attn.k_proj", str "self_attn.v_proj", str "self_attn.o_proj",
    str "mlp.gate_proj", str "mlp.up_proj", str "mlp.down_proj"]

/-- `contains_any`. -/
def containsAny (s : Bytes) (subs : List Bytes) : Bool := subs.any fun sub => (findSub sub s).isSome

/-- The pass of `enumerate_linears` for a submodule of layer `i`: a fused `qkv_proj` is taken where
the `q_proj` would be. -/
def layerLinear (tensors : TensorMap) (i : Nat) (sub : Bytes) : Option LinearRef :=
  let full := layerPrefix i ++ sub
  let qkv := layerPrefix i ++ str "self_attn.qkv_proj"
  let fused := if sub = str "self_attn.q_proj" then tensors (qkv ++ str ".weight") else none
  match fused with
  | some t => some ⟨qkv, t⟩
  | none => (tensors (full ++ str ".weight")).map fun t => ⟨full, t⟩

/-- `enumerate_linears`, or its error text. -/
def enumerateLinears (tensors : TensorMap) (cfg : ModelCfg) : Except Bytes (List LinearRef) :=
  let layers := (List.range cfg.numHiddenLayers.toNat).flatMap fun i =>
    layerSubmodules.filterMap (layerLinear tensors i)
  match tensors (str "lm_head.weight") with
  | some t => .ok (layers ++ [⟨str "lm_head", t⟩])
  | none =>
    match tensors (str "model.embed_tokens.weight") with
    | some t => .ok (layers ++ [⟨str "lm_head", t⟩])
    | none => .error (str "no lm_head.weight and no model.embed_tokens.weight")

/-! ## The records -/

/-- The lambda `emit_raw`. -/
def emitRaw (name : Bytes) (t : STTensor) : Exec OutLayer :=
  match t.shape with
  | [] => undefined "read outside the buffer"
  | d :: dims => .ok {
      name, outF := toInt32 d, inF := toInt32 (dims.headD d), layerType := 1
      data := floatBytes t.data }

/-- `q_dim`, and `kv_dim`, of `convert_model`. -/
def ModelCfg.qDim (cfg : ModelCfg) : Int :=
  cfg.numAttentionHeads * cfg.hiddenSize.tdiv cfg.numAttentionHeads

@[inherit_doc ModelCfg.qDim]
def ModelCfg.kvDim (cfg : ModelCfg) : Int :=
  cfg.numKeyValueHeads * cfg.hiddenSize.tdiv cfg.numAttentionHeads

/-- The name of a part of a fused projection. -/
def partName (name part : Bytes) : Bytes :=
  let pos := (findSub (str "qkv_proj") name).getD 0
  name.take pos ++ part ++ name.drop (pos + 8)

/-- One part of a fused projection: `dim` rows from row `rowOff` on, under the name of the part. -/
def splitPart (ref : LinearRef) (inF : Nat) (part : Bytes) (dim rowOff : Int) : Exec OutLayer := do
  let nelem ← i64 (dim * inF)
  vectorAlloc (sizeT (nelem * 4)) 1
  let off ← i64 (rowOff * inF)
  let ws ← slice ref.t.data (sizeT off) (sizeT nelem)
  return {
    name := partName ref.name part
    outF := toInt32 (sizeT dim), inF := toInt32 inF, layerType := 1, data := floatBytes ws }

/-- The names that `convert_model` quantizes. -/
def quantNames : List Bytes :=
  [str "q_proj", str "k_proj", str "v_proj", str "o_proj", str "gate_proj", str "up_proj",
    str "down_proj"]

section
variable {D : Type} (ops : DecomposeOps F32 D)

/-- The pass of the layer loop of `convert_model`; `none` is its `return 1`. -/
def exportLinear (cfg : ModelCfg) (numTerms : Nat) (ref : LinearRef) :
    Exec (Option (List OutLayer)) :=
  match ref.t.shape with
  | [] => undefined "read outside the buffer"
  | outF :: dims => do
    let inF := dims.headD 1
    if (findSub (str "qkv_proj") ref.name).isSome then
      if (outF : Int) ≠ cfg.qDim + 2 * cfg.kvDim then return none
      else
        let q ← splitPart ref inF (str "q_proj") cfg.qDim 0
        let k ← splitPart ref inF (str "k_proj") cfg.kvDim cfg.qDim
        let v ← splitPart ref inF (str "v_proj") cfg.kvDim (cfg.qDim + cfg.kvDim)
        return some [q, k, v]
    else if containsAny ref.name quantNames then
      let terms ← alsDecompose ops ref.t.data (toInt32 outF) (toInt32 inF) numTerms 5 128
      let data ← packAlsBlockTerms terms (toInt32 outF) (toInt32 inF) 128
      return some [{
        name := ref.name, outF := toInt32 outF, inF := toInt32 inF, layerType := 2, data }]
    else
      let layer ← emitRaw ref.name ref.t
      return some [layer]

/-- The layer loop of `convert_model`. -/
def exportLinears (cfg : ModelCfg) (numTerms : Nat) :
    List LinearRef → Exec (Option (List OutLayer))
  | [] => .ok (some [])
  | ref :: refs => do
    match ← exportLinear ops cfg numTerms ref with
    | none => return none
    | some layers =>
      match ← exportLinears cfg numTerms refs with
      | none => return none
      | some rest => return some (layers ++ rest)

/-- The pseudo-layers of one of the per-head norms. -/
def normRefs (cfg : ModelCfg) (tensors : TensorMap) (attr : String) : List LinearRef :=
  (List.range cfg.numHiddenLayers.toNat).filterMap fun i =>
    let nm := layerPrefix i ++ str "self_attn." ++ str attr
    (tensors (nm ++ str ".weight")).map fun t => ⟨nm, t⟩

/-- `has_q_norm` and `has_k_norm`: the norm is there for layer 0. -/
def hasNorm (tensors : TensorMap) (attr : String) : Bool :=
  (tensors (layerPrefix 0 ++ str "self_attn." ++ str attr ++ str ".weight")).isSome

/-- The pseudo-layers that `convert_model` appends. -/
def allNormRefs (cfg : ModelCfg) (tensors : TensorMap) : List LinearRef :=
  if hasNorm tensors "q_norm" ∨ hasNorm tensors "k_norm" then
    normRefs cfg tensors "q_norm" ++ normRefs cfg tensors "k_norm"
  else []

/-- The layer counts that are printed, in `int`. -/
def countLayers (cfg : ModelCfg) (tensors : TensorMap) (linears : List LinearRef) : Exec Int := do
  let total ← if hasNorm tensors "q_norm" then i32 cfg.numHiddenLayers else .ok 0
  let total ← if hasNorm tensors "k_norm" then i32 (total + cfg.numHiddenLayers) else .ok total
  i32 (toInt32 linears.length + total)

/-- `convert_model`: the files it leaves where it returns 0, and `none` where it returns 1.
`model_decomposed.bin` is the first. -/
def convertModel (numTerms : Int) (format : String) (j : JsonObject) (tensors : TensorMap) :
    Exec (Option (Bytes × Bytes)) :=
  if numTerms < 1 then .ok none
  else if format ≠ "als" ∧ format ≠ "gguf" then .ok none
  else
    match parseConfig j with
    | none => .ok none
    | some cfg =>
      match enumerateLinears tensors cfg with
      | .error _ => .ok none
      | .ok linears => do
        let _ ← countLayers cfg tensors linears
        match ← exportLinears ops cfg numTerms.toNat linears with
        | none => return none
        | some layers =>
          let norms ← (allNormRefs cfg tensors).mapM fun ref => emitRaw ref.name ref.t
          match writeExtra cfg tensors with
          | .error _ => return none
          | .ok extra => return some (writeDecomposed (layers ++ norms), extra)

end

/-! ## What is written -/

/-- The header of a record and the length of its payload. -/
structure RecordShape where
  name : Bytes
  rows : Nat
  cols : Nat
  layerType : UInt8
  len : Nat
  deriving DecidableEq, Repr

/-- The first dimension of a tensor. -/
def LinearRef.rows (ref : LinearRef) : Nat := ref.t.shape.headD 0

/-- The record of a raw layer. -/
def LinearRef.rawRecord (ref : LinearRef) : RecordShape :=
  ⟨ref.name, ref.rows, ref.t.shape.tail.headD ref.rows, 1, 4 * ref.t.data.length⟩

/-- The records of a linear layer, by the shape of its tensor. -/
def LinearRef.records (cfg : ModelCfg) (numTerms : Nat) (ref : LinearRef) : List RecordShape :=
  let cols := ref.t.shape.tail.headD 1
  if (findSub (str "qkv_proj") ref.name).isSome then
    let q := cfg.qDim.toNat
    let kv := cfg.kvDim.toNat
    [⟨partName ref.name (str "q_proj"), q, cols, 1, 4 * (q * cols)⟩,
      ⟨partName ref.name (str "k_proj"), kv, cols, 1, 4 * (kv * cols)⟩,
      ⟨partName ref.name (str "v_proj"), kv, cols, 1, 4 * (kv * cols)⟩]
  else if containsAny ref.name quantNames then
    [⟨ref.name, ref.rows, cols, 2, 4 + numTerms * (4 + tableSize ref.rows cols)⟩]
  else [ref.rawRecord]

/-- The records of `model_decomposed.bin` for a checkpoint, by the shapes of its tensors. -/
def exportRecords (cfg : ModelCfg) (tensors : TensorMap) (numTerms : Nat) : List RecordShape :=
  match enumerateLinears tensors cfg with
  | .error _ => []
  | .ok linears =>
    linears.flatMap (LinearRef.records cfg numTerms) ++
      (allNormRefs cfg tensors).map LinearRef.rawRecord

/-- A record that its layout can hold: the dimensions and the size of a block table are `int`s, the
payload length is a `u32`, and its low bytes are not all zero, which marks the old layout. -/
structure RecordShape.Fits (r : RecordShape) : Prop where
  rows_lt : r.rows < 2147483648
  cols_lt : r.cols < 2147483648
  len_lt : r.len < 4294967296
  framing : r.len % 16777216 ≠ 0
  table_le : r.layerType = 2 → tableSize r.rows r.cols ≤ 2147483647

/-- A layer of the run that has the shape of a record. -/
inductive Written {D : Type} (ops : DecomposeOps F32 D) (numTerms : Nat) :
    RecordShape → OutLayer → Prop where
  | raw (name : Bytes) (rows cols : Nat) (ws : List F32) :
    Written ops numTerms ⟨name, rows, cols, 1, 4 * ws.length⟩
      ⟨name, toInt32 rows, toInt32 cols, 1, floatBytes ws⟩
  | quant (name : Bytes) (rows cols : Nat) {W : List F32} {terms : List ALSTerm} {data : Bytes}
    (hterms : alsDecompose ops W (toInt32 rows) (toInt32 cols) numTerms 5 128 = .ok terms)
    (hdata : packAlsBlockTerms terms (toInt32 rows) (toInt32 cols) 128 = .ok data) :
    Written ops numTerms ⟨name, rows, cols, 2, 4 + numTerms * (4 + tableSize rows cols)⟩
      ⟨name, toInt32 rows, toInt32 cols, 2, data⟩

section
variable {D : Type} {ops : DecomposeOps F32 D} {cfg : ModelCfg} {numTerms : Nat}

theorem emitRaw_written {ref : LinearRef} {L : OutLayer} (h : emitRaw ref.name ref.t = .ok L) :
    Written ops numTerms ref.rawRecord L := by
  unfold emitRaw at h
  split at h
  · cases h
  · rename_i d dims hshape
    cases h
    rw [LinearRef.rawRecord, LinearRef.rows, hshape]
    exact .raw _ _ _ _

theorem splitPart_written {ref : LinearRef} {inF : Nat} {part : Bytes} {dim rowOff : Int}
    {L : OutLayer} (hdim : 0 ≤ dim) (h : splitPart ref inF part dim rowOff = .ok L) :
    Written ops numTerms
      ⟨partName ref.name part, dim.toNat, inF, 1, 4 * (dim.toNat * inF)⟩ L := by
  obtain ⟨nelem, hnelem, h⟩ := bind_eq_ok.1 h
  obtain ⟨_, -, h⟩ := bind_eq_ok.1 h
  obtain ⟨off, -, h⟩ := bind_eq_ok.1 h
  obtain ⟨ws, hws, h⟩ := bind_eq_ok.1 h
  cases h
  obtain ⟨rfl, -, hmax⟩ := i64_eq_ok.1 hnelem
  obtain ⟨rows, rfl⟩ := Int.eq_ofNat_of_zero_le hdim
  have hsize : sizeT ((rows : Int) * inF) = rows * inF := by
    rw [← Int.natCast_mul] at hmax ⊢
    rw [sizeT_of_nonneg (by omega) (by omega), Int.toNat_natCast]
  have hlen : ws.length = rows * inF := by
    obtain ⟨hle, rfl⟩ := slice_eq_ok.1 hws
    rw [hsize] at hle
    rw [List.length_take, List.length_drop, hsize]
    omega
  rw [toInt32_sizeT, Int.toNat_natCast, ← hlen]
  exact .raw (partName ref.name part) rows inF ws

theorem exportLinear_written (hcfg : cfg.Parsed) {ref : LinearRef} {layers : List OutLayer}
    (h : exportLinear ops cfg numTerms ref = .ok (some layers)) :
    List.Forall₂ (Written ops numTerms) (ref.records cfg numTerms) layers := by
  obtain ⟨hheads, -⟩ := hcfg.heads
  obtain ⟨hkvHeads, -⟩ := hcfg.kvHeads
  have hdim : 0 ≤ cfg.hiddenSize.tdiv cfg.numAttentionHeads :=
    Int.tdiv_nonneg hcfg.hidden.1.le hheads.le
  have hq : 0 ≤ cfg.qDim := Int.mul_nonneg hheads.le hdim
  have hkv : 0 ≤ cfg.kvDim := Int.mul_nonneg hkvHeads.le hdim
  unfold exportLinear at h
  unfold LinearRef.records
  split at h
  · cases h
  · rename_i rows dims hshape
    rw [LinearRef.rows, hshape]
    dsimp only
    split at h
    · rename_i hfused
      rw [if_pos hfused]
      split at h
      · cases h
      · obtain ⟨q, hq', h⟩ := bind_eq_ok.1 h
        obtain ⟨k, hk', h⟩ := bind_eq_ok.1 h
        obtain ⟨v, hv', h⟩ := bind_eq_ok.1 h
        cases h
        exact .cons (splitPart_written hq hq') (.cons (splitPart_written hkv hk')
          (.cons (splitPart_written hkv hv') .nil))
    · rename_i hfused
      rw [if_neg hfused]
      split at h
      · rename_i hquant
        rw [if_pos hquant]
        obtain ⟨terms, hterms, h⟩ := bind_eq_ok.1 h
        obtain ⟨data, hdata, h⟩ := bind_eq_ok.1 h
        cases h
        exact .cons (.quant _ _ _ hterms hdata) .nil
      · rename_i hquant
        rw [if_neg hquant]
        obtain ⟨L, hL, h⟩ := bind_eq_ok.1 h
        cases h
        exact .cons (emitRaw_written hL) .nil

theorem exportLinears_written (hcfg : cfg.Parsed) {refs : List LinearRef} {layers : List OutLayer}
    (h : exportLinears ops cfg numTerms refs = .ok (some layers)) :
    List.Forall₂ (Written ops numTerms) (refs.flatMap (LinearRef.records cfg numTerms)) layers := by
  induction refs generalizing layers with
  | nil =>
    cases h
    exact .nil
  | cons ref refs ih =>
    obtain ⟨first, hfirst, h⟩ := bind_eq_ok.1 h
    cases first with
    | none => cases h
    | some first =>
      obtain ⟨rest, hrest, h⟩ := bind_eq_ok.1 h
      cases rest with
      | none => cases h
      | some rest =>
        cases h
        rw [List.flatMap_cons]
        exact List.rel_append (exportLinear_written hcfg hfirst) (ih hrest)

theorem emitRaws_written {refs : List LinearRef} {layers : List OutLayer}
    (h : refs.mapM (fun ref => emitRaw ref.name ref.t) = .ok layers) :
    List.Forall₂ (Written ops numTerms) (refs.map LinearRef.rawRecord) layers := by
  induction refs generalizing layers with
  | nil =>
    cases h
    exact .nil
  | cons ref refs ih =>
    rw [List.mapM_cons] at h
    obtain ⟨L, hL, h⟩ := bind_eq_ok.1 h
    obtain ⟨rest, hrest, h⟩ := bind_eq_ok.1 h
    cases h
    exact .cons (emitRaw_written hL) (ih hrest)

/-- A run that returns 0 writes the records of its checkpoint, and the weights that `write_extra`
lets through. -/
theorem convertModel_written {format : String} {numTerms : Int} {j : JsonObject} {tensors : TensorMap}
    {decomposed extra : Bytes} (hcfg : parseConfig j = some cfg)
    (h : convertModel ops numTerms format j tensors = .ok (some (decomposed, extra))) :
    1 ≤ numTerms ∧ writeExtra cfg tensors = .ok extra ∧
      (∃ linears, enumerateLinears tensors cfg = .ok linears) ∧ ∃ layers,
        decomposed = writeDecomposed layers ∧
          List.Forall₂ (Written ops numTerms.toNat) (exportRecords cfg tensors numTerms.toNat)
            layers := by
  unfold convertModel at h
  split at h
  · cases h
  rename_i hpos
  split at h
  · cases h
  rw [hcfg] at h
  dsimp only at h
  unfold exportRecords
  cases hlinears : enumerateLinears tensors cfg with
  | error e =>
    rw [hlinears] at h
    cases h
  | ok linears =>
    rw [hlinears] at h
    obtain ⟨_, -, h⟩ := bind_eq_ok.1 h
    obtain ⟨layers, hlayers, h⟩ := bind_eq_ok.1 h
    cases layers with
    | none => cases h
    | some layers =>
      obtain ⟨norms, hnorms, h⟩ := bind_eq_ok.1 h
      cases hextra : writeExtra cfg tensors with
      | error e =>
        rw [hextra] at h
        cases h
      | ok extra =>
        rw [hextra] at h
        cases h
        exact ⟨by omega, rfl, ⟨linears, rfl⟩, _, rfl, List.rel_append
          (exportLinears_written (parseConfig_parsed hcfg) hlayers) (emitRaws_written hnorms)⟩

end

/-! ## What is read back -/

/-- The length of a container of tables of one shape. -/
theorem length_multi {rows cols : Nat} {terms : List (List BlockTerm)}
    (h : ∀ blocks ∈ terms, TermShape rows cols blocks) :
    (Payload.multi terms).bytes.length = 4 + terms.length * (4 + tableSize rows cols) := by
  have hterm : ∀ blocks ∈ terms, (termBytes blocks).length = 4 + tableSize rows cols := by
    intro blocks hb
    have hshape := h blocks hb
    rw [termBytes_length, length_blockBytes hshape.packed_length, hshape.length_eq, tableSize]
  rw [Payload.bytes, List.length_append, leBytes_length, List.length_flatMap,
    List.map_congr_left hterm, List.map_const', List.sum_replicate, smul_eq_mul]

section
variable {D : Type} {ops : DecomposeOps F32 D} {numTerms : Nat} {r : RecordShape} {L : OutLayer}

theorem Written.header (h : Written ops numTerms r L) :
    L.name = r.name ∧ L.outF = toInt32 r.rows ∧ L.inF = toInt32 r.cols ∧
      L.layerType = r.layerType := by
  cases h <;> exact ⟨rfl, rfl, rfl, rfl⟩

/-- A written record that fits its layout has the payload length of its shape, and its payload is
decoded exactly where a block layer has no more than 32 terms. -/
theorem Written.parses (h : Written ops numTerms r L) (hfit : r.Fits) (hpos : 1 ≤ numTerms) :
    L.data.length = r.len ∧
      ((∃ ld, parseLayerTypeData L.blank L.layerType L.data = .ok ld) ↔
        (r.layerType = 2 → numTerms ≤ 32)) := by
  cases h with
  | raw name rows cols ws =>
    refine ⟨floatBytes_length ws, fun _ htype => absurd htype (show (1 : UInt8) ≠ 2 by decide),
      fun _ => ?_⟩
    simp [parseLayerTypeData, copyFloats]
  | @quant name rows cols W terms data hterms hdata =>
    have hrows : toInt32 rows = rows := toInt32_of_lt hfit.rows_lt
    have hcols : toInt32 cols = cols := toInt32_of_lt hfit.cols_lt
    have hrowsLt : rows < 2147483648 := hfit.rows_lt
    have htable : tableSize rows cols ≤ 2147483647 := hfit.table_le rfl
    have hlen : 4 + numTerms * (4 + tableSize rows cols) < 4294967296 := hfit.len_lt
    rw [hrows, hcols] at hterms hdata
    obtain ⟨hcount, -, nb, hnb, hshape⟩ := alsDecompose_shape hterms
    have hcolsLe : cols ≤ 2147483519 := by exact_mod_cast ceilBlocks_128_le hnb
    rw [ceilBlocks_ok hcolsLe] at hnb
    cases hnb
    have hsize : sizeT ((rows : Int) * cols) = rows * cols := by
      have hlt : rows * cols < 2147483648 * 2147483648 :=
        Nat.mul_lt_mul_of_lt_of_le hrowsLt (by omega) (by decide)
      rw [← Int.natCast_mul, sizeT_of_nonneg (by omega) (by omega), Int.toNat_natCast]
    have hals : ∀ term ∈ terms, term.Shape rows cols := by
      intro term hterm
      obtain ⟨hscales, hternary, his⟩ := hshape term hterm
      exact ⟨hscales, hternary.trans hsize, his⟩
    unfold tableSize at htable hlen
    rw [packAlsBlockTerms_ok hcolsLe htable (by rw [hcount]; omega) hals] at hdata
    cases hdata
    have hblocks : ∀ blocks ∈ terms.map fun term => term.blocks rows cols,
        TermShape rows cols blocks ∧ blocks.length * 36 ≤ 2147483647 := by
      intro blocks hb
      obtain ⟨term, -, rfl⟩ := List.mem_map.1 hb
      have hterm := term.blocks_shape rows cols
      exact ⟨hterm, by rw [hterm.length_eq]; exact htable⟩
    constructor
    · rw [length_multi fun blocks hb => (hblocks blocks hb).1, List.length_map, hcount]
    · have hbound : numTerms < 4294967296 := by
        have := Nat.le_mul_of_pos_right numTerms (show 0 < 4 + rows * blocksPerRow cols * 36 by omega)
        omega
      rw [OutLayer.blank, hrows, hcols, parseLayerTypeData_multi _ hcolsLe rfl rfl
        (by rw [List.length_map, hcount]; exact hbound) hblocks, List.length_map, hcount]
      by_cases hle : numTerms ≤ 32
      · rw [if_neg (by omega)]
        have htables : LayerData.Tables {
            name := name, outFeatures := rows, inFeatures := cols, hasBlocks := true
            blockQk := 128, blockTerms := terms.map fun term => term.blocks rows cols } :=
          fun _ => ⟨⟨List.length_pos_iff.1 (by rw [List.length_map, hcount]; omega),
            by rw [List.length_map, hcount]; exact hle⟩, Int.natCast_nonneg rows,
            show (cols : Int) ≤ 2147483519 by exact_mod_cast hcolsLe,
            fun blocks hb => (hblocks blocks hb).1,
            by rw [Int.toNat_natCast, Int.toNat_natCast]; omega⟩
        obtain ⟨ld, hld, -⟩ := buildBlockContigCache_loaded rfl rfl htables
        exact iff_of_true ⟨ld, hld⟩ fun _ => hle
      · rw [if_pos (.inr (by omega))]
        refine iff_of_false ?_ fun h => hle (h rfl)
        rintro ⟨ld, hld⟩
        exact raise_ne_ok _ _ hld

end

end Terllama
