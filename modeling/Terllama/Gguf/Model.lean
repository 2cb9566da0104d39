import Terllama.Gguf.Tensor
import Terllama.Loader.Directory

/-!
# Loading a GGUF model

`load_gguf_model` of `src/gguf_loader.cpp` and the `.gguf` branch of `load_model_from` of
`src/loader.h`: the configuration and the tokenizer from the metadata, the embedding and the norms
from unquantized tensors, the projections of every layer and `lm_head` from quantized ones. Nothing
here ties the sizes of the tensors to the configuration; the range of a model's layers is the block
count that the metadata states.
-/

namespace Terllama

/-! ## The metadata -/

/-- A 64-bit value narrowed to an `int32_t`. -/
def int32Of (v : Int) : Int := toInt32 (v % 4294967296).toNat

/-- `find_tensor`. -/
def findTensor (tensors : List GGUFTensorInfo) (name : Bytes) : Option GGUFTensorInfo :=
  tensors.find? fun t => t.name == name

/-- The prefix of the keys of the architecture. -/
def GGUFFile.keyPrefix (gguf : GGUFFile) : Bytes :=
  (gguf.metadataStr.lookup (str "general.architecture")).getD (str "qwen3") ++ str "."

/-- The lambdas `get_int` and `get_float`: the value under the key of the architecture, under the
bare key, or the default. -/
def GGUFFile.getKey {α : Type} (gguf : GGUFFile) (entries : List (Bytes × α)) (key : Bytes)
    (dflt : α) : α :=
  ((entries.lookup (gguf.keyPrefix ++ key)).or (entries.lookup key)).getD dflt

/-- `get_int`. -/
def GGUFFile.getInt (gguf : GGUFFile) : Bytes → Int → Int := gguf.getKey gguf.metadataInt

/-- `get_float`. -/
def GGUFFile.getFloat (gguf : GGUFFile) : Bytes → F32 → F32 := gguf.getKey gguf.metadataFloat

/-- `Tokenizer::load_from_gguf`, where there are tokens. -/
def GGUFFile.tokenizer (gguf : GGUFFile) : Tokenizer :=
  if gguf.tokenizerTokens.isEmpty then {}
  else {
    vocab := gguf.tokenizerTokens
    scores := gguf.tokenizerScores
    types := gguf.tokenizerTypes
    modelType := if gguf.tokenizerModel.isEmpty then str "llama" else gguf.tokenizerModel
    bosId := gguf.bosTokenId
    eosId := gguf.eosTokenId
    valid := true }

/-- The quotient of two 64-bit values. -/
def div64 (a b : Int) : Exec Int :=
  if b = 0 then undefined "division by zero" else i64 (a.tdiv b)

/-- The configuration of a file whose embedding has `vocabSize` rows. -/
def GGUFFile.config (gguf : GGUFFile) (vocabSize : Int) : Exec ModelConfig := do
  let headCount := gguf.getInt (str "attention.head_count") (gguf.getInt (str "head_count") 0)
  let embeddingLength := gguf.getInt (str "embedding_length") 0
  let headDim ← div64 embeddingLength headCount
  return {
    vocabSize
    hiddenSize := int32Of embeddingLength
    intermediateSize := int32Of (gguf.getInt (str "feed_forward_length") 0)
    numHiddenLayers := int32Of (gguf.getInt (str "block_count") 0)
    numAttentionHeads := int32Of headCount
    numKeyValueHeads := int32Of (gguf.getInt (str "attention.head_count_kv") headCount)
    rmsNormEps := gguf.getFloat (str "attention.layer_norm_rms_epsilon") 0x358637BD
    ropeTheta := gguf.getFloat (str "rope.freq_base") 0x461C4000
    maxPositionEmbeddings := int32Of (gguf.getInt (str "context_length") 2048)
    headDim := int32Of headDim
    eosTokenId := int32Of gguf.eosTokenId }

/-! ## The tensors -/

/-- `out.resize(cfg.hidden_size, 1.0f)` on an empty vector. -/
def onesOf (hiddenSize : Int) : Exec (List F32) := do
  let _ ← vectorCheck "vector::_M_fill_insert" (sizeT hiddenSize) 4
  return List.replicate (sizeT hiddenSize) 0x3F800000

/-- A norm: the tensor of this name, ones where there is none, nothing where it cannot be
extracted. -/
def ggufNorm (gguf : GGUFFile) (hiddenSize : Int) (name : Bytes) : Exec (List F32) :=
  match findTensor gguf.tensors name with
  | some ti => do return (← extractF32Tensor gguf ti []).getD []
  | none => onesOf hiddenSize

/-- The final norm, under one of its two names. -/
def ggufFinalNorm (gguf : GGUFFile) (hiddenSize : Int) : Exec (List F32) :=
  match findTensor gguf.tensors (str "token_embd_norm.weight") with
  | some ti => do return (← extractF32Tensor gguf ti []).getD []
  | none => ggufNorm gguf hiddenSize (str "output_norm.weight")

/-- A tensor of block `i`. -/
def blockTensor (i : Nat) (part : Bytes) : Bytes := str "blk." ++ decimal i ++ str "." ++ part

/-- The norms of layer `i`. -/
def ggufLayerNorms (gguf : GGUFFile) (hiddenSize : Int) (i : Nat) : Exec NormWeights := do
  let inputLayernorm ← ggufNorm gguf hiddenSize (blockTensor i (str "attn_norm.weight"))
  let postAttentionLayernorm ← ggufNorm gguf hiddenSize (blockTensor i (str "ffn_norm.weight"))
  let attnSubNorm ← ggufNorm gguf hiddenSize (blockTensor i (str "attn_sub_norm.weight"))
  let ffnSubNorm ← ggufNorm gguf hiddenSize (blockTensor i (str "ffn_sub_norm.weight"))
  return { inputLayernorm, postAttentionLayernorm, attnSubNorm, ffnSubNorm }

/-- The projections of a layer: the tensor's name and the layer's. -/
def projections (i : Nat) : List (Bytes × Bytes) :=
  [(str "attn_q.weight", str "self_attn.q_proj"), (str "attn_k.weight", str "self_attn.k_proj"),
    (str "attn_v.weight", str "self_attn.v_proj"),
    (str "attn_output.weight", str "self_attn.o_proj"),
    (str "ffn_gate.weight", str "mlp.gate_proj"), (str "ffn_up.weight", str "mlp.up_proj"),
    (str "ffn_down.weight", str "mlp.down_proj")].map fun p =>
      (blockTensor i p.1, str "model.layers." ++ decimal i ++ str "." ++ p.2)

/-- `add_q2_layer`, which adds nothing where the tensor is missing or cannot be converted. -/
def addQ2Layer (gguf : GGUFFile) (tensor name : Bytes) : Exec (List LayerData) :=
  match findTensor gguf.tensors tensor with
  | some ti => do return (← convertQ20ToLayer gguf ti name).toList
  | none => .ok []

/-- The `lm_head` layer, of the tensor `output.weight`. -/
def ggufLmHead (gguf : GGUFFile) : Exec (List LayerData) :=
  match findTensor gguf.tensors (str "output.weight") with
  | none => .ok []
  | some ti =>
    if ti.type = ggmlTypeF32 ∨ ti.type = ggmlTypeF16 then do
      let outFeatures ← load ti.dims 1
      let inFeatures ← load ti.dims 0
      let rawWeights ← extractF32Tensor gguf ti []
      return [{
        name := str "lm_head"
        outFeatures := toInt32 outFeatures
        inFeatures := toInt32 inFeatures
        hasRawWeights := true
        rawWeights := rawWeights.getD [] }]
    else do
      let layer ← convertQ20ToLayer gguf ti (str "lm_head")
      return [layer.getD { name := str "lm_head" }]

/-! ## The loader -/

/-- The norms and the layers, and the sizes of the vectors that take them. -/
def ggufLayers (gguf : GGUFFile) (cfg : ModelConfig) : Exec (List NormWeights × List LayerData) := do
  let _ ← vectorCheck "vector::_M_default_append" (sizeT cfg.numHiddenLayers) sizeofNormWeights
  let count ← i32 (cfg.numHiddenLayers * 7)
  let count ← i32 (count + 1)
  if count < 0 then raise "vector::reserve"
  let layerNorms ← (List.range cfg.numHiddenLayers.toNat).mapM (ggufLayerNorms gguf cfg.hiddenSize)
  let layers ← (List.range cfg.numHiddenLayers.toNat).mapM fun i =>
    (projections i).mapM fun p => addQ2Layer gguf p.1 p.2
  let lmHead ← ggufLmHead gguf
  return (layerNorms, layers.flatten.flatten ++ lmHead)

/-- `load_gguf_model`, with `none` where it returns false. -/
def loadGgufModel (narrow : Nat → F32) (file : Bytes) : Exec (Option LoadedModel) := do
  let gguf ← parseGguf narrow file
  if !gguf.valid then return none
  if gguf.getInt (str "embedding_length") 0 = 0 then return none
  match findTensor gguf.tensors (str "token_embd.weight") with
  | none => return none
  | some embed =>
    match embed.dims with
    | _ :: rows :: _ => do
      let cfg ← gguf.config (toInt32 rows)
      match ← extractF32Tensor gguf embed [] with
      | none => return none
      | some embedding =>
        let finalNorm ← ggufFinalNorm gguf cfg.hiddenSize
        let (layerNorms, layers) ← ggufLayers gguf cfg
        return some { cfg, embedding, finalNorm, layerNorms, layers, tokenizer := gguf.tokenizer }
    | _ => return none

/-- `load_model_from` on the `.gguf` file at `path`. -/
def loadModelFromGguf (narrow : Nat → F32) (path : String) (file : Bytes) : Exec LoadedModel := do
  match ← loadGgufModel narrow file with
  | some m => return m
  | none => raise ("GGUF load failed: " ++ path)

end Terllama
