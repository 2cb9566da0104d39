import Terllama.Base.Decimal
import Terllama.Loader.Extra

/-!
# The writer of `model_extra.bin`

`parse_config` and `write_extra` of `src/convert/export.cpp`. The file is the nine fields of the
configuration, the embedding, the final norm and a pair of norms for each layer. The readers find
the final norm at `36 + vocab_size * hidden_size * 4`, which they compute in `int`; with positive
dimensions `extraRoundTrip_iff` makes the range of that sum the exact condition of the round trip.
-/

namespace Terllama

/-! ## The configuration -/

/-- A value in `config.json`: an integer with its conversion to `float`, another number with its
conversion, or a value of another type. -/
inductive JsonValue where
  | integer (n : Int) (asFloat : F32)
  | number (asFloat : F32)
  | other
  deriving DecidableEq, Repr

/-- The members of a JSON object. -/
abbrev JsonObject := String → Option JsonValue

/-- `ModelCfg`, with the defaults `1e-5f` and `10000.0f`. -/
structure ModelCfg where
  vocabSize : Int := 0
  hiddenSize : Int := 0
  intermediateSize : Int := 0
  numHiddenLayers : Int := 0
  numAttentionHeads : Int := 0
  numKeyValueHeads : Int := 0
  rmsNormEps : F32 := 0x3727C5AC
  ropeTheta : F32 := 0x461C4000
  maxPositionEmbeddings : Int := 0
  deriving DecidableEq, Repr

/-- `is_number_integer` and `get<int32_t>`, which keeps the low 32 bits. -/
def JsonObject.int (j : JsonObject) (key : String) : Option Int :=
  match j key with
  | some (.integer n _) => some (toInt32 (sizeT n))
  | _ => none

/-- `is_number` and `get<float>`. -/
def JsonObject.float (j : JsonObject) (key : String) : Option F32 :=
  match j key with
  | some (.integer _ x) => some x
  | some (.number x) => some x
  | _ => none

/-- `parse_config`, on the object that `config.json` holds. -/
def parseConfig (j : JsonObject) : Option ModelCfg := do
  let vocabSize ← j.int "vocab_size"
  let hiddenSize ← j.int "hidden_size"
  let intermediateSize ← j.int "intermediate_size"
  let numHiddenLayers ← j.int "num_hidden_layers"
  let numAttentionHeads ← j.int "num_attention_heads"
  let maxPositionEmbeddings ← j.int "max_position_embeddings"
  let rmsNormEps ← j.float "rms_norm_eps"
  let numKeyValueHeads := (j.int "num_key_value_heads").getD numAttentionHeads
  let ropeTheta := (j.float "rope_theta").getD 0x461C4000
  if vocabSize ≤ 0 ∨ hiddenSize ≤ 0 ∨ numHiddenLayers ≤ 0 ∨ numAttentionHeads ≤ 0 ∨
      numKeyValueHeads ≤ 0 then none
  else
    return { vocabSize, hiddenSize, intermediateSize, numHiddenLayers, numAttentionHeads,
             numKeyValueHeads, rmsNormEps, ropeTheta, maxPositionEmbeddings }

/-! ## The weights -/

/-- `STTensor`, as `parse_safetensors` builds it: dimensions that are not negative, and one element
for each index. -/
structure STTensor where
  shape : List Nat
  data : List F32
  data_length : data.length = shape.prod
  data_le : data.length ≤ vectorMaxSize 4

/-- The tensors of a checkpoint under their names. -/
abbrev TensorMap := Bytes → Option STTensor

/-- What `write_extra` writes after the configuration. -/
structure ExtraWeights where
  embedding : List F32
  finalNorm : List F32
  layerNorms : List NormWeights

/-- The lambda `req` of `write_extra`. -/
def TensorMap.req (tensors : TensorMap) (name : Bytes) : Except Bytes STTensor :=
  match tensors name with
  | some t => .ok t
  | none => .error (str "missing required weight: " ++ name)

/-- `"model.layers." + std::to_string(i) + "."`. -/
def layerPrefix (i : Nat) : Bytes := str "model.layers." ++ decimal i ++ str "."

/-- One norm of layer `i`, which has `hidden_size` elements. -/
def layerNorm (cfg : ModelCfg) (tensors : TensorMap) (i : Nat) (nn : String) :
    Except Bytes (List F32) := do
  let t ← tensors.req (layerPrefix i ++ str nn ++ str ".weight")
  if (t.data.length : Int) ≠ cfg.hiddenSize then
    .error (layerPrefix i ++ str nn ++ str ".weight size mismatch")
  else return t.data

/-- The final norm, which is zero where the checkpoint has none. -/
def finalNormOf (cfg : ModelCfg) (tensors : TensorMap) : Except Bytes (List F32) :=
  match tensors (str "model.norm.weight") with
  | some t =>
    if (t.data.length : Int) ≠ cfg.hiddenSize then .error (str "model.norm.weight size mismatch")
    else .ok t.data
  | none => .ok (List.replicate cfg.hiddenSize.toNat 0)

/-- The checks of `write_extra`, in their order, with the data each lets through. -/
def extraWeights (cfg : ModelCfg) (tensors : TensorMap) : Except Bytes ExtraWeights := do
  let emb ← tensors.req (str "model.embed_tokens.weight")
  if (emb.data.length : Int) ≠ cfg.vocabSize * cfg.hiddenSize then
    .error (str "embed_tokens size mismatch vs config")
  else
    let finalNorm ← finalNormOf cfg tensors
    let layerNorms ← (List.range cfg.numHiddenLayers.toNat).mapM fun i => do
      let inputLayernorm ← layerNorm cfg tensors i "input_layernorm"
      let postAttentionLayernorm ← layerNorm cfg tensors i "post_attention_layernorm"
      return { inputLayernorm, postAttentionLayernorm }
    return { embedding := emb.data, finalNorm, layerNorms }

/-- The nine fields of the file, in their order. -/
def ModelCfg.header (cfg : ModelCfg) : Bytes :=
  u32Bytes (sizeT cfg.vocabSize) ++ u32Bytes (sizeT cfg.hiddenSize) ++
    u32Bytes (sizeT cfg.intermediateSize) ++ u32Bytes (sizeT cfg.numHiddenLayers) ++
    u32Bytes (sizeT cfg.numAttentionHeads) ++ u32Bytes (sizeT cfg.numKeyValueHeads) ++
    cfg.rmsNormEps.toBytes ++ cfg.ropeTheta.toBytes ++ u32Bytes (sizeT cfg.maxPositionEmbeddings)

/-- The bytes after them. -/
def ExtraWeights.bytes (w : ExtraWeights) : Bytes :=
  floatBytes w.embedding ++ floatBytes w.finalNorm ++
    w.layerNorms.flatMap fun n => floatBytes n.inputLayernorm ++ floatBytes n.postAttentionLayernorm

/-- `write_extra`: the contents of the file, or the error text. Writes to the file are taken to
succeed. -/
def writeExtra (cfg : ModelCfg) (tensors : TensorMap) : Except Bytes Bytes := do
  let w ← extraWeights cfg tensors
  return cfg.header ++ w.bytes

/-! ## The configuration is read back -/

/-- The dimensions of a configuration that `parse_config` returned: `int32_t` values, positive but
for two that it does not test. -/
structure ModelCfg.Parsed (cfg : ModelCfg) : Prop where
  vocab : 0 < cfg.vocabSize ∧ cfg.vocabSize ≤ 2147483647
  hidden : 0 < cfg.hiddenSize ∧ cfg.hiddenSize ≤ 2147483647
  intermediate : -2147483648 ≤ cfg.intermediateSize ∧ cfg.intermediateSize ≤ 2147483647
  layers : 0 < cfg.numHiddenLayers ∧ cfg.numHiddenLayers ≤ 2147483647
  heads : 0 < cfg.numAttentionHeads ∧ cfg.numAttentionHeads ≤ 2147483647
  kvHeads : 0 < cfg.numKeyValueHeads ∧ cfg.numKeyValueHeads ≤ 2147483647
  positions : -2147483648 ≤ cfg.maxPositionEmbeddings ∧ cfg.maxPositionEmbeddings ≤ 2147483647

theorem JsonObject.int_range {j : JsonObject} {key : String} {v : Int} (h : j.int key = some v) :
    -2147483648 ≤ v ∧ v ≤ 2147483647 := by
  unfold JsonObject.int at h
  split at h
  · cases h
    exact toInt32_range _
  · cases h

theorem parseConfig_parsed {j : JsonObject} {cfg : ModelCfg} (h : parseConfig j = some cfg) :
    cfg.Parsed := by
  simp only [parseConfig, Option.bind_eq_bind, Option.bind_eq_some_iff] at h
  obtain ⟨vs, hvs, hs, hhs, is, his, nl, hnl, nah, hnah, mpe, hmpe, rne, hrne, h⟩ := h
  split at h
  · cases h
  rename_i hpos
  cases h
  simp only [not_or, not_le] at hpos
  obtain ⟨pvs, phs, pnl, pnah, pnkv⟩ := hpos
  have hkv : (j.int "num_key_value_heads").getD nah ≤ 2147483647 := by
    cases hj : j.int "num_key_value_heads" with
    | none => exact (JsonObject.int_range hnah).2
    | some v => exact (JsonObject.int_range hj).2
  exact ⟨⟨pvs, (JsonObject.int_range hvs).2⟩, ⟨phs, (JsonObject.int_range hhs).2⟩,
    JsonObject.int_range his, ⟨pnl, (JsonObject.int_range hnl).2⟩,
    ⟨pnah, (JsonObject.int_range hnah).2⟩, ⟨pnkv, hkv⟩, JsonObject.int_range hmpe⟩

/-- The validation of `load_config` on the fields of a written header. -/
def ModelCfg.Accepted (cfg : ModelCfg) : Prop :=
  0 < cfg.vocabSize ∧ 0 < cfg.hiddenSize ∧ 0 < cfg.intermediateSize ∧ 0 < cfg.numHiddenLayers ∧
    0 < cfg.numAttentionHeads ∧ 0 < cfg.numKeyValueHeads ∧
    0 < cfg.hiddenSize.tdiv cfg.numAttentionHeads ∧ 0 < cfg.maxPositionEmbeddings ∧
    cfg.maxPositionEmbeddings ≤ 1000000

instance (cfg : ModelCfg) : Decidable cfg.Accepted := inferInstanceAs (Decidable (_ ∧ _))

/-- The written dimensions, `eps` and `theta`, with the context length capped at 4096. -/
def ModelCfg.effective (cfg : ModelCfg) : ModelConfig where
  vocabSize := cfg.vocabSize
  hiddenSize := cfg.hiddenSize
  intermediateSize := cfg.intermediateSize
  numHiddenLayers := cfg.numHiddenLayers
  numAttentionHeads := cfg.numAttentionHeads
  numKeyValueHeads := cfg.numKeyValueHeads
  rmsNormEps := cfg.rmsNormEps
  ropeTheta := cfg.ropeTheta
  maxPositionEmbeddings := min cfg.maxPositionEmbeddings 4096
  headDim := cfg.hiddenSize.tdiv cfg.numAttentionHeads

/-- An `int32_t` is read back from its four bytes. -/
theorem intOf_u32Bytes {v : Int} (h : -2147483648 ≤ v ∧ v ≤ 2147483647) :
    intOf (u32Bytes (sizeT v)) = v := by
  rw [intOf, leNat_leBytes]
  unfold toInt32 sizeT
  split <;> omega

/-- The variables of `load_config` after a header that was read whole. -/
def ModelCfg.fields (cfg : ModelCfg) : ConfigHeader where
  vs := some cfg.vocabSize
  hs := some cfg.hiddenSize
  is := some cfg.intermediateSize
  nl := some cfg.numHiddenLayers
  nah := some cfg.numAttentionHeads
  nkv := some cfg.numKeyValueHeads
  rne := some cfg.rmsNormEps
  rt := some cfg.ropeTheta
  mpe := some cfg.maxPositionEmbeddings

theorem readHeader_header {cfg : ModelCfg} (h : cfg.Parsed) (rest : Bytes) :
    readHeader ⟨cfg.header ++ rest, false⟩ = .ok (cfg.fields, ⟨rest, false⟩) := by
  have hint : ∀ {v : Int}, 0 < v ∧ v ≤ 2147483647 → intOf (u32Bytes (sizeT v)) = v :=
    fun hv => intOf_u32Bytes ⟨by omega, hv.2⟩
  simp only [readHeader, ModelCfg.header, List.append_assoc, StreamM.bind_apply,
    readVar_append (leBytes_length 4 _), readVar_append (F32.toBytes_length _), ok_bind,
    StreamM.pure_apply, Option.map_some, hint h.vocab, hint h.hidden,
    intOf_u32Bytes h.intermediate, hint h.layers, hint h.heads, hint h.kvHeads,
    intOf_u32Bytes h.positions, F32.ofBytes_toBytes]
  rfl

/-- `load_config` on a file that starts with a written header. -/
theorem loadConfig_header {cfg : ModelCfg} (h : cfg.Parsed) (path : String) (rest : Bytes) :
    loadConfig path (cfg.header ++ rest) =
      if cfg.Accepted then .ok cfg.effective
      else raise ("Invalid model config in " ++ path ++ " (truncated or corrupt model header)") := by
  have hmin : (if cfg.maxPositionEmbeddings > 4096 then 4096 else cfg.maxPositionEmbeddings) =
      min cfg.maxPositionEmbeddings 4096 := by
    split <;> omega
  have hconfig : cfg.fields.config = .ok cfg.effective := by
    simp only [ConfigHeader.config, ModelCfg.fields, useVar, ok_bind, pure_eq_ok, hmin]
    rfl
  have hchecks : cfg.fields.checks.anyM id = .ok (decide ¬ cfg.Accepted) := by
    simp only [ConfigHeader.checks, ModelCfg.fields, notPositive, useVar, ok_bind, pure_eq_ok]
    refine (anyM_ok [_, _, _, _, _, _, _, _, _]).trans (congrArg Except.ok ?_)
    rw [Bool.eq_iff_iff]
    simp only [List.any_cons, List.any_nil, id_eq, Bool.or_false, Bool.or_eq_true,
      decide_eq_true_eq, ModelCfg.Accepted, not_and_or, not_lt, not_le]
  rw [loadConfig, InStream.open, readHeader_header h, ok_bind]
  dsimp only
  rw [hchecks, ok_bind, hconfig]
  by_cases hacc : cfg.Accepted
  · simp [hacc]
  · simp [hacc]

/-! ## The weights are read back -/

/-- Weights of the sizes that `write_extra` checks. -/
structure ExtraWeights.Shape (cfg : ModelCfg) (w : ExtraWeights) : Prop where
  embedding : (w.embedding.length : Int) = cfg.vocabSize * cfg.hiddenSize
  finalNorm : w.finalNorm.length = cfg.hiddenSize.toNat
  layers : w.layerNorms.length = cfg.numHiddenLayers.toNat
  norms : ∀ n ∈ w.layerNorms, ∃ a b : List F32, a.length = cfg.hiddenSize.toNat ∧
    b.length = cfg.hiddenSize.toNat ∧ n = { inputLayernorm := a, postAttentionLayernorm := b }

theorem layerNorm_length {cfg : ModelCfg} {tensors : TensorMap} {i : Nat} {nn : String}
    {ws : List F32} (h : layerNorm cfg tensors i nn = .ok ws) :
    ws.length = cfg.hiddenSize.toNat := by
  obtain ⟨t, -, h⟩ := bind_eq_ok.1 h
  split at h
  · cases h
  · rename_i hlen
    cases h
    omega

theorem extraWeights_shape {cfg : ModelCfg} {tensors : TensorMap} {w : ExtraWeights}
    (h : extraWeights cfg tensors = .ok w) : w.Shape cfg := by
  obtain ⟨emb, -, h⟩ := bind_eq_ok.1 h
  split at h
  · cases h
  rename_i hemb
  obtain ⟨finalNorm, hfinal, h⟩ := bind_eq_ok.1 h
  obtain ⟨layerNorms, hnorms, h⟩ := bind_eq_ok.1 h
  cases h
  have hloop := forall₂_of_mapM_ok hnorms
  refine ⟨not_ne_iff.1 hemb, ?_, ?_, ?_⟩
  · unfold finalNormOf at hfinal
    split at hfinal
    · split at hfinal
      · cases hfinal
      · rename_i hlen
        cases hfinal
        dsimp only
        omega
    · cases hfinal
      exact List.length_replicate
  · exact hloop.length_eq.symm.trans List.length_range
  · intro n hn
    obtain ⟨i, -, hi⟩ := exists_mem_of_forall₂ hloop.flip hn
    obtain ⟨a, ha, hi⟩ := bind_eq_ok.1 hi
    obtain ⟨b, hb, hi⟩ := bind_eq_ok.1 hi
    cases hi
    exact ⟨a, b, layerNorm_length ha, layerNorm_length hb, rfl⟩

@[simp] theorem ModelCfg.header_length (cfg : ModelCfg) : cfg.header.length = 36 := by
  simp [ModelCfg.header]

section
variable {cfg : ModelCfg} {w : ExtraWeights}

/-- The size of the embedding, as the readers compute it where that does not overflow. -/
theorem sizeT_embedding (h : w.Shape cfg)
    (hbound : cfg.vocabSize * cfg.hiddenSize ≤ 2147483647) :
    sizeT (cfg.vocabSize * cfg.hiddenSize) = w.embedding.length := by
  have hlen := h.embedding
  rw [sizeT_of_nonneg (by omega) (by omega), ← hlen, Int.toNat_natCast]

theorem loadEmbedding_ok (h : w.Shape cfg)
    (hbound : cfg.vocabSize * cfg.hiddenSize ≤ 2147483647) :
    loadEmbedding (cfg.header ++ w.bytes) cfg.effective = .ok w.embedding := by
  have hlen := h.embedding
  have hmax : w.embedding.length ≤ vectorMaxSize 4 := by
    rw [vectorMaxSize]
    omega
  simp only [loadEmbedding, ModelCfg.effective, i32_ok (by omega) hbound, ok_bind,
    sizeT_embedding h hbound, vectorAlloc_ok hmax,
    openAt_append (show (36 : Int) = _ from congrArg Nat.cast cfg.header_length.symm),
    ExtraWeights.bytes,
    List.append_assoc, readFloats_append, pure_eq_ok]

theorem loadFinalNorm_ok (hcfg : cfg.Parsed) (h : w.Shape cfg)
    (hbound : 36 + cfg.vocabSize * cfg.hiddenSize * 4 ≤ 2147483647) :
    loadFinalNorm (cfg.header ++ w.bytes) cfg.effective = .ok w.finalNorm := by
  have hlen := h.embedding
  obtain ⟨hpos, hle⟩ := hcfg.hidden
  have hsize : sizeT cfg.hiddenSize = w.finalNorm.length := by
    rw [sizeT_of_nonneg (by omega) (by omega), h.finalNorm]
  have hmax : w.finalNorm.length ≤ vectorMaxSize 4 := by
    rw [h.finalNorm, vectorMaxSize]
    omega
  have hsplit : cfg.header ++ w.bytes = (cfg.header ++ floatBytes w.embedding) ++
      (floatBytes w.finalNorm ++ w.layerNorms.flatMap fun n =>
        floatBytes n.inputLayernorm ++ floatBytes n.postAttentionLayernorm) := by
    simp only [ExtraWeights.bytes, List.append_assoc]
  have hoff : 36 + cfg.vocabSize * cfg.hiddenSize * 4 =
      ((cfg.header ++ floatBytes w.embedding).length : Int) := by
    rw [List.length_append, cfg.header_length, floatBytes_length]
    omega
  rw [hsplit]
  simp only [loadFinalNorm, ModelCfg.effective]
  rw [i32_ok (by omega) (by omega), ok_bind, i32_ok (by omega) (by omega), ok_bind,
    i32_ok (by omega) (by omega), ok_bind, hsize, vectorAlloc_ok hmax, ok_bind,
    openAt_append hoff, readFloats_append, ok_bind]
  rfl

/-- The final norm is found only where its offset is an `int`. -/
theorem le_of_loadFinalNorm {file : Bytes} {fn : List F32}
    (h : loadFinalNorm file cfg.effective = .ok fn) :
    36 + cfg.vocabSize * cfg.hiddenSize * 4 ≤ 2147483647 := by
  obtain ⟨entries, hentries, h⟩ := bind_eq_ok.1 h
  obtain ⟨bytes, hbytes, h⟩ := bind_eq_ok.1 h
  obtain ⟨offset, hoffset, -⟩ := bind_eq_ok.1 h
  obtain ⟨rfl, -⟩ := i32_eq_ok.1 hentries
  obtain ⟨rfl, -⟩ := i32_eq_ok.1 hbytes
  exact (i32_eq_ok.1 hoffset).2.2

/-- The pairs of norms that were written are read back one after the other. -/
theorem readNormPairs_ok (hpos : 0 < cfg.hiddenSize) (hle : cfg.hiddenSize * 4 ≤ 2147483647)
    {norms : List NormWeights}
    (hnorms : ∀ n ∈ norms, ∃ a b : List F32, a.length = cfg.hiddenSize.toNat ∧
      b.length = cfg.hiddenSize.toNat ∧
        n = { inputLayernorm := a, postAttentionLayernorm := b }) :
    readNormPairs cfg.effective norms.length
        ⟨norms.flatMap fun n => floatBytes n.inputLayernorm ++
          floatBytes n.postAttentionLayernorm, false⟩ =
      .ok (norms, ⟨[], false⟩) := by
  have hsize : sizeT cfg.hiddenSize = cfg.hiddenSize.toNat :=
    sizeT_of_nonneg (by omega) (by omega)
  have hmax : cfg.hiddenSize.toNat ≤ vectorMaxSize 4 := by
    rw [vectorMaxSize]
    omega
  induction norms with
  | nil => rfl
  | cons n norms ih =>
    rw [List.forall_mem_cons] at hnorms
    obtain ⟨⟨a, b, ha, hb, rfl⟩, hrest⟩ := hnorms
    have hread : ∀ rest, readNormPair cfg.effective ⟨floatBytes a ++ (floatBytes b ++ rest), false⟩ =
        .ok ({ inputLayernorm := a, postAttentionLayernorm := b }, ⟨rest, false⟩) := by
      intro rest
      have hfirst := readFloats_append a (floatBytes b ++ rest)
      have hsecond := readFloats_append b rest
      rw [ha] at hfirst
      rw [hb] at hsecond
      simp only [readNormPair, ModelCfg.effective, StreamM.bind_apply, StreamM.liftM_apply, hsize,
        vectorAlloc_ok hmax, i32_ok (show -2147483648 ≤ cfg.hiddenSize * 4 by omega) hle, ok_bind,
        hfirst, hsecond, StreamM.pure_apply]
    simp only [List.length_cons, readNormPairs, StreamM.bind_apply, List.flatMap_cons,
      List.append_assoc, hread, ok_bind, ih hrest, StreamM.pure_apply]

theorem loadLayerNorms_ok (hcfg : cfg.Parsed) (h : w.Shape cfg)
    (hbound : cfg.hiddenSize * 4 ≤ 2147483647) :
    loadLayerNorms (cfg.header ++ w.bytes) cfg.effective = .ok w.layerNorms := by
  have hlen := h.embedding
  obtain ⟨hvpos, hvle⟩ := hcfg.vocab
  obtain ⟨hpos, hle⟩ := hcfg.hidden
  obtain ⟨hlpos, hlle⟩ := hcfg.layers
  have harea : cfg.vocabSize * cfg.hiddenSize ≤ 2147483647 * 536870911 :=
    Int.mul_le_mul hvle (by omega) (by omega) (by omega)
  have hcount : sizeT cfg.numHiddenLayers ≤ vectorMaxSize sizeofNormWeights := by
    rw [sizeT_of_nonneg (by omega) (by omega), vectorMaxSize, sizeofNormWeights]
    omega
  have hsplit : cfg.header ++ w.bytes =
      (cfg.header ++ floatBytes w.embedding ++ floatBytes w.finalNorm) ++
        w.layerNorms.flatMap fun n =>
          floatBytes n.inputLayernorm ++ floatBytes n.postAttentionLayernorm := by
    simp only [ExtraWeights.bytes, List.append_assoc]
  have hoff : 36 + cfg.vocabSize * cfg.hiddenSize * 4 + cfg.hiddenSize * 4 =
      ((cfg.header ++ floatBytes w.embedding ++ floatBytes w.finalNorm).length : Int) := by
    rw [List.length_append, List.length_append, cfg.header_length, floatBytes_length,
      floatBytes_length, h.finalNorm]
    omega
  rw [hsplit]
  simp only [loadLayerNorms, ModelCfg.effective]
  rw [i64_ok (by omega) (by omega), ok_bind, i64_ok (by omega) (by omega), ok_bind,
    i64_ok (by omega) (by omega), ok_bind, i32_ok (by omega) hbound, ok_bind,
    i64_ok (by omega) (by omega), ok_bind, vectorAlloc_ok hcount, ok_bind, openAt_append hoff,
    ← h.layers]
  have hread := readNormPairs_ok hpos hbound h.norms
  rw [ModelCfg.effective] at hread
  rw [hread, ok_bind]
  rfl

end

/-! ## The round trip -/

/-- The readers return what was written. -/
structure ExtraReads (path : String) (cfg : ModelCfg) (w : ExtraWeights) (file : Bytes) :
    Prop where
  config : loadConfig path file = .ok cfg.effective
  embedding : loadEmbedding file cfg.effective = .ok w.embedding
  finalNorm : loadFinalNorm file cfg.effective = .ok w.finalNorm
  layerNorms : loadLayerNorms file cfg.effective = .ok w.layerNorms

/-- The file that `write_extra` wrote for these tensors is read back, with every offset and size in
the range of its type. -/
def ExtraRoundTrip (path : String) (cfg : ModelCfg) (tensors : TensorMap) (file : Bytes) : Prop :=
  ∃ w, extraWeights cfg tensors = .ok w ∧ ExtraReads path cfg w file

/-- A file of both sides' configurations is read back exactly when the byte offset of the final norm
is an `int`. -/
theorem extraRoundTrip_iff {j : JsonObject} {cfg : ModelCfg} {tensors : TensorMap}
    {path : String} {file : Bytes} {c : ModelConfig} (hparse : parseConfig j = some cfg)
    (hwrite : writeExtra cfg tensors = .ok file) (hload : loadConfig path file = .ok c) :
    ExtraRoundTrip path cfg tensors file ↔
      36 + cfg.vocabSize * cfg.hiddenSize * 4 ≤ 2147483647 := by
  have hcfg := parseConfig_parsed hparse
  obtain ⟨w, hw, hfile⟩ := bind_eq_ok.1 hwrite
  cases hfile
  have hshape := extraWeights_shape hw
  constructor
  · rintro ⟨w', -, hreads⟩
    exact le_of_loadFinalNorm hreads.finalNorm
  · intro hbound
    have hhidden : cfg.hiddenSize * 4 ≤ 2147483647 := by
      have hone : 1 * cfg.hiddenSize ≤ cfg.vocabSize * cfg.hiddenSize :=
        Int.mul_le_mul_of_nonneg_right hcfg.vocab.1 (by have h := hcfg.hidden.1; omega)
      omega
    have hconfig : loadConfig path (cfg.header ++ w.bytes) = .ok cfg.effective := by
      rw [loadConfig_header hcfg] at hload ⊢
      split at hload
      · rename_i hacc
        exact if_pos hacc
      · cases hload
    exact ⟨w, hw, hconfig, loadEmbedding_ok hshape (by omega),
      loadFinalNorm_ok hcfg hshape hbound, loadLayerNorms_ok hcfg hshape hhidden⟩

/-! ## A small and a large model -/

/-- A checkpoint of zeros: an embedding of `vocab` rows of `hidden` elements, and as many elements
in every other tensor. -/
def zeroTensors (vocab hidden : Nat) (h : vocab * hidden ≤ vectorMaxSize 4)
    (h' : hidden ≤ vectorMaxSize 4) : TensorMap := fun name =>
  if name = str "model.embed_tokens.weight" then
    some ⟨[vocab, hidden], List.replicate (vocab * hidden) 0, by simp, by simpa using h⟩
  else some ⟨[hidden], List.replicate hidden 0, by simp, by simpa using h'⟩

/-- A tensor of a layer is not the embedding. -/
theorem layerPrefix_ne_embed (i : Nat) (s : Bytes) :
    layerPrefix i ++ s ≠ str "model.embed_tokens.weight" := by
  intro h
  have htake := congrArg (List.take 7) h
  rw [layerPrefix, List.append_assoc, List.append_assoc,
    List.take_append_of_le_length (by decide)] at htake
  exact absurd htake (by decide)

theorem extraWeights_zeroTensors {cfg : ModelCfg} {vocab hidden : Nat}
    (h : vocab * hidden ≤ vectorMaxSize 4) (h' : hidden ≤ vectorMaxSize 4)
    (hvocab : cfg.vocabSize = vocab) (hhidden : cfg.hiddenSize = hidden) :
    ∃ w, extraWeights cfg (zeroTensors vocab hidden h h') = .ok w := by
  have hlayer : ∀ i nn, layerNorm cfg (zeroTensors vocab hidden h h') i nn =
      .ok (List.replicate hidden 0) := by
    intro i nn
    simp only [layerNorm, TensorMap.req, zeroTensors, List.append_assoc,
      if_neg (layerPrefix_ne_embed i _), ok_bind, List.length_replicate, hhidden, ne_eq,
      not_true_eq_false, if_false]
    rfl
  have hfinal : finalNormOf cfg (zeroTensors vocab hidden h h') =
      .ok (List.replicate hidden 0) := by
    rw [finalNormOf, zeroTensors, if_neg (by decide)]
    simp only [List.length_replicate, hhidden, ne_eq, not_true_eq_false, if_false]
  have hsize : ((vocab * hidden : Nat) : Int) = cfg.vocabSize * cfg.hiddenSize := by
    rw [hvocab, hhidden, Int.natCast_mul]
  have hpair : ∀ i ∈ List.range cfg.numHiddenLayers.toNat, (do
      let inputLayernorm ← layerNorm cfg (zeroTensors vocab hidden h h') i "input_layernorm"
      let postAttentionLayernorm ←
        layerNorm cfg (zeroTensors vocab hidden h h') i "post_attention_layernorm"
      return { inputLayernorm, postAttentionLayernorm }) =
        (.ok (NormWeights.mk (List.replicate hidden 0) (List.replicate hidden 0) [] [] [] []) :
          Except Bytes NormWeights) := by
    intro i _
    rw [hlayer, ok_bind, hlayer, ok_bind]
    rfl
  have hembed : (zeroTensors vocab hidden h h').req (str "model.embed_tokens.weight") =
      .ok ⟨[vocab, hidden], List.replicate (vocab * hidden) 0, by simp, by simpa using h⟩ := by
    rw [TensorMap.req, zeroTensors, if_pos rfl]
  rw [extraWeights, hembed, ok_bind, if_neg (by simp only [List.length_replicate, hsize, ne_eq,
    not_true_eq_false, not_false_eq_true]), hfinal, ok_bind, mapM_ok hpair, ok_bind]
  exact ⟨_, rfl⟩

/-- The `config.json` of a model of 151936 rows of 4096 elements and 36 layers. -/
def largeConfig : JsonObject := fun key =>
  match key with
  | "vocab_size" => some (.integer 151936 0x48146000)
  | "hidden_size" => some (.integer 4096 0x45800000)
  | "intermediate_size" => some (.integer 12288 0x46400000)
  | "num_hidden_layers" => some (.integer 36 0x42100000)
  | "num_attention_heads" => some (.integer 32 0x42000000)
  | "num_key_value_heads" => some (.integer 8 0x41000000)
  | "max_position_embeddings" => some (.integer 40960 0x47200000)
  | "rms_norm_eps" => some (.number 0x358637BD)
  | "rope_theta" => some (.integer 1000000 0x49742400)
  | _ => none

/-- What `parse_config` makes of it. -/
def largeCfg : ModelCfg where
  vocabSize := 151936
  hiddenSize := 4096
  intermediateSize := 12288
  numHiddenLayers := 36
  numAttentionHeads := 32
  numKeyValueHeads := 8
  rmsNormEps := 0x358637BD
  ropeTheta := 0x49742400
  maxPositionEmbeddings := 40960

/-- The tensors of the large model. -/
def largeTensors : TensorMap := zeroTensors 151936 4096 (by decide) (by decide)

/-- The large model passes both validations and is written, and its final norm is not read back. -/
theorem not_extraRoundTrip_large : ∃ file c, parseConfig largeConfig = some largeCfg ∧
    writeExtra largeCfg largeTensors = .ok file ∧
      loadConfig "model_extra.bin" file = .ok c ∧
        ¬ ExtraRoundTrip "model_extra.bin" largeCfg largeTensors file := by
  have hparse : parseConfig largeConfig = some largeCfg := by decide
  obtain ⟨w, hw⟩ : ∃ w, extraWeights largeCfg largeTensors = .ok w :=
    extraWeights_zeroTensors _ _ rfl rfl
  refine ⟨largeCfg.header ++ w.bytes, largeCfg.effective, hparse, ?_, ?_, ?_⟩
  · rw [writeExtra, hw, ok_bind]
    rfl
  · rw [loadConfig_header (parseConfig_parsed hparse)]
    exact if_pos (by decide)
  · rintro ⟨w', -, hreads⟩
    exact absurd (le_of_loadFinalNorm hreads.finalNorm) (by decide)

/-- The `config.json` of a model of two rows of two elements and one layer. -/
def smallConfig : JsonObject := fun key =>
  match key with
  | "vocab_size" | "hidden_size" | "intermediate_size" => some (.integer 2 0x40000000)
  | "num_hidden_layers" | "num_attention_heads" => some (.integer 1 0x3F800000)
  | "max_position_embeddings" => some (.integer 8 0x41000000)
  | "rms_norm_eps" => some (.number 0x358637BD)
  | _ => none

/-- What `parse_config` makes of it. -/
def smallCfg : ModelCfg where
  vocabSize := 2
  hiddenSize := 2
  intermediateSize := 2
  numHiddenLayers := 1
  numAttentionHeads := 1
  numKeyValueHeads := 1
  rmsNormEps := 0x358637BD
  maxPositionEmbeddings := 8

/-- The tensors of the small model. -/
def smallTensors : TensorMap := zeroTensors 2 2 (by decide) (by decide)

theorem extraRoundTrip_small : ∃ file, writeExtra smallCfg smallTensors = .ok file ∧
    (ExtraRoundTrip "model_extra.bin" smallCfg smallTensors file ↔
      36 + smallCfg.vocabSize * smallCfg.hiddenSize * 4 ≤ 2147483647) := by
  have hparse : parseConfig smallConfig = some smallCfg := by decide
  obtain ⟨w, hw⟩ : ∃ w, extraWeights smallCfg smallTensors = .ok w :=
    extraWeights_zeroTensors _ _ rfl rfl
  have hwrite : writeExtra smallCfg smallTensors = .ok (smallCfg.header ++ w.bytes) := by
    rw [writeExtra, hw, ok_bind]
    rfl
  have hload : loadConfig "model_extra.bin" (smallCfg.header ++ w.bytes) =
      .ok smallCfg.effective := by
    rw [loadConfig_header (parseConfig_parsed hparse)]
    exact if_pos (by decide)
  exact ⟨_, hwrite, extraRoundTrip_iff hparse hwrite hload⟩

end Terllama
