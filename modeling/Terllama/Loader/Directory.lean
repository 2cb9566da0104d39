import Terllama.Base.Decimal
import Terllama.Core.Tokenizer
import Terllama.Loader.Decomposed
import Terllama.Loader.Extra

/-!
# Loading a model directory

`load_model_from` of `src/loader.h` on a directory without a `.gguf` file: the configuration and the
norms of `model_extra.bin`, the layers of `model_decomposed.bin`, the width of a head taken from the
first query projection, and the per-head norms lifted out of the layer list (`liftNorms`).
-/

namespace Terllama

/-- A directory with the two files of a `.bin` model. The tokenizer block of the loader is given by
its outcome on the directory's `tokenizer.json`: the tokenizer it leaves, or the exception of an
access to a JSON value of another type. -/
structure ModelDir where
  path : String
  extra : Option Bytes
  decomposed : Option Bytes
  tokenizer : Exec Tokenizer

/-- `LoadedModel`. -/
structure LoadedModel where
  cfg : ModelConfig
  embedding : List F32
  finalNorm : List F32
  layerNorms : List NormWeights
  layers : List LayerData
  tokenizer : Tokenizer
  deriving DecidableEq, Repr

/-! ## After the layers are read -/

/-- `find_layer_index`, and the layer it is the index of. -/
def findLayer (layers : List LayerData) (name : String) : Exec LayerData :=
  match (layers.take (toInt32 layers.length).toNat).find? fun ld => ld.name == str name with
  | some ld => .ok ld
  | none => raise ("Layer not found in model file: " ++ name)

/-- The width of a head is that of the first query projection of layer 0. -/
def fixHeadDim (cfg : ModelConfig) (layers : List LayerData) : ModelConfig :=
  match layers.find? fun ld => ld.name == str "model.layers.0.self_attn.q_proj" with
  | some ld =>
    if 0 < cfg.numAttentionHeads then
      { cfg with headDim := ld.outFeatures.tdiv cfg.numAttentionHeads }
    else cfg
  | none => cfg

@[simp] theorem fixHeadDim_numHiddenLayers (c : ModelConfig) (layers : List LayerData) :
    (fixHeadDim c layers).numHiddenLayers = c.numHiddenLayers := by
  unfold fixHeadDim
  split
  · split <;> rfl
  · rfl

/-- The lambda `norm_layer_index`: the `N` of `model.layers.<N><suffix>`, or `-1`. -/
def normLayerIndex (nm suffix : Bytes) : Exec Int :=
  if nm.length ≤ suffix.length then .ok (-1)
  else if nm.drop (nm.length - suffix.length) ≠ suffix then .ok (-1)
  else
    let pre := nm.take (nm.length - suffix.length)
    let pfx := str "model.layers."
    if pre.take pfx.length ≠ pfx then .ok (-1)
    else
      let num := pre.drop pfx.length
      if num.isEmpty || !num.all isDigit then .ok (-1) else stoi num

/-- The norms after a pseudo-layer of indices `lq` and `lk`, which is dropped where its index is not
that of a layer or it has no raw weights. -/
def liftNorm (numLayers lq lk : Int) (ld : LayerData) (norms : List NormWeights) :
    List NormWeights :=
  let li := if 0 ≤ lq then lq else lk
  if li < numLayers ∧ ld.hasRawWeights then
    norms.modify li.toNat fun n =>
      if 0 ≤ lq then { n with qNorm := ld.rawWeights } else { n with kNorm := ld.rawWeights }
  else norms

/-- The loop that takes the `q_norm` and `k_norm` pseudo-layers out of the layer list. -/
def liftNorms (numLayers : Int) : List LayerData → List NormWeights →
    Exec (List LayerData × List NormWeights)
  | [], norms => .ok ([], norms)
  | ld :: layers, norms => do
    let lq ← normLayerIndex ld.name (str ".self_attn.q_norm")
    let lk ← normLayerIndex ld.name (str ".self_attn.k_norm")
    if 0 ≤ lq ∨ 0 ≤ lk then liftNorms numLayers layers (liftNorm numLayers lq lk ld norms)
    else
      let (kept, norms) ← liftNorms numLayers layers norms
      return (ld :: kept, norms)

/-- The guard of that loop. -/
def extractNorms (cfg : ModelConfig) (layers : List LayerData) (norms : List NormWeights) :
    Exec (List LayerData × List NormWeights) :=
  if toInt32 norms.length = cfg.numHiddenLayers then liftNorms cfg.numHiddenLayers layers norms
  else .ok (layers, norms)

/-- What `load_model_from` does after `load_decomposed_layers_als`. -/
def finishModel (cfg : ModelConfig) (embedding finalNorm : List F32)
    (layerNorms : List NormWeights) (layers : List LayerData) (tokenizer : Exec Tokenizer) :
    Exec LoadedModel := do
  let cfg := fixHeadDim cfg layers
  let (layers, layerNorms) ← extractNorms cfg layers layerNorms
  return { cfg, embedding, finalNorm, layerNorms, layers, tokenizer := ← tokenizer }

/-! ## The loader -/

/-- `load_model_from` on a directory without a `.gguf` file. -/
def loadModelFrom (dir : ModelDir) : Exec LoadedModel :=
  match dir.extra with
  | none => raise ("No model files found in " ++ dir.path)
  | some extra => do
    let cfg ← loadConfig (dir.path ++ "/model_extra.bin") extra
    let embedding ← loadEmbedding extra cfg
    let finalNorm ← loadFinalNorm extra cfg
    let layerNorms ← loadLayerNorms extra cfg
    match dir.decomposed with
    | none => raise ("No ALS weights (model_decomposed.bin) in " ++ dir.path)
    | some decomposed =>
      let layers ← loadDecomposedLayersAls decomposed
      finishModel cfg embedding finalNorm layerNorms layers dir.tokenizer

end Terllama
