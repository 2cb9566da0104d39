import Terllama.Core.Attention
import Terllama.Distributed.Protocol
import Terllama.Distributed.RangeReader
import Terllama.Gguf.Model
import Terllama.Loader.Norms

/-!
# Loading a shard

`load_model_shard` of `distributed/shard_loader.h`. What a worker loads follows the flags of the
request, what it does afterwards follows the flags derived from the range: `shard_owned_iff` says
when the two are the same, on both branches of the loader.
-/

namespace Terllama

/-! ## The loader -/

/-- `ShardModel`. -/
structure ShardModel where
  cfg : ModelConfig
  embedding : List F32
  finalNorm : List F32
  layerNorms : List NormWeights
  layers : List LayerData
  spec : ShardSpec
  rope : RoPECache
  kv : KVCache F32
  deriving DecidableEq, Repr

/-- A model directory: the `.gguf` file that `model_path_for` finds, with its path, and the two files
of a `.bin` model. -/
structure ShardDir where
  path : String
  gguf : Option (String × Bytes)
  extra : Option Bytes
  decomposed : Option Bytes

/-- What both branches load before the flags are derived. -/
structure ShardParts where
  cfg : ModelConfig
  embedding : List F32
  finalNorm : List F32
  layerNorms : List NormWeights
  layers : List LayerData

/-- The loop over the layers of a `.gguf` model. -/
def filterShard (spec : ShardSpec) : List LayerData → Exec (List LayerData)
  | [] => .ok []
  | ld :: layers => do
    let keep ← keepRecord spec.startLayer spec.endLayer spec.isLast ld.name
    let rest ← filterShard spec layers
    return if keep then ld :: rest else rest

/-- The `.gguf` branch: the whole model, and the layers of the range. -/
def shardOfGguf (narrow : Nat → F32) (path : String) (file : Bytes) (spec : ShardSpec) :
    Exec ShardParts := do
  let full ← loadModelFromGguf narrow path file
  let layers ← filterShard spec full.layers
  return {
    cfg := full.cfg
    embedding := full.embedding
    finalNorm := full.finalNorm
    layerNorms := full.layerNorms
    layers }

/-- The validation of the range. -/
def checkShardRange (spec : ShardSpec) (cfg : ModelConfig) : Exec Unit :=
  if spec.startLayer < 0 ∨ spec.endLayer < spec.startLayer ∨
      cfg.numHiddenLayers < spec.endLayer then
    raise ("Invalid shard range [" ++ toString spec.startLayer ++ ", " ++ toString spec.endLayer ++
      ") for model with " ++ toString cfg.numHiddenLayers ++ " layers")
  else .ok ()

/-- A part that only some shards load. -/
def loadIf (flag : Bool) (load : Exec (List F32)) : Exec (List F32) :=
  if flag then load else .ok []

/-- The `.bin` branch. -/
def shardOfBin (dir : ShardDir) (spec : ShardSpec) : Exec ShardParts :=
  match dir.extra with
  | none => raise ("No model files found in " ++ dir.path)
  | some extra => do
    let cfg ← loadConfig (dir.path ++ "/model_extra.bin") extra
    let _ ← checkShardRange spec cfg
    let embedding ← loadIf spec.isFirst (loadEmbedding extra cfg)
    let finalNorm ← loadIf spec.isLast (loadFinalNorm extra cfg)
    let layerNorms ← loadLayerNorms extra cfg
    match dir.decomposed with
    | none => raise ("Cannot open model file: " ++ dir.path ++ "/model_decomposed.bin")
    | some decomposed =>
      let layers ← loadDecomposedLayersAlsRange decomposed spec.startLayer spec.endLayer spec.isLast
      let cfg := fixHeadDim cfg layers
      let (layers, layerNorms) ← extractNorms cfg layers layerNorms
      return { cfg, embedding, finalNorm, layerNorms, layers }

/-- The branch of the loader that the directory asks for. -/
def shardParts (narrow : Nat → F32) (dir : ShardDir) (spec : ShardSpec) : Exec ShardParts :=
  match dir.gguf with
  | some (path, file) => shardOfGguf narrow path file spec
  | none => shardOfBin dir spec

/-- The specification with its flags derived from the range. -/
def ShardSpec.derived (spec : ShardSpec) (cfg : ModelConfig) : ShardSpec :=
  { spec with
    nLayers := cfg.numHiddenLayers
    isFirst := decide (spec.startLayer = 0)
    isLast := decide (spec.endLayer = cfg.numHiddenLayers) }

/-- `load_model_shard`. -/
def loadModelShard (narrow : Nat → F32) (trig : TrigOps) (dir : ShardDir) (spec : ShardSpec) :
    Exec ShardModel := do
  let parts ← shardParts narrow dir spec
  let cfg := parts.cfg
  let rope ← buildRopeCache trig cfg.maxPositionEmbeddings cfg.headDim cfg.ropeTheta
  let kv ← KVCache.create cfg.maxPositionEmbeddings cfg.numHiddenLayers cfg.numKeyValueHeads
    cfg.headDim cfg.hiddenSize
  return {
    cfg
    embedding := parts.embedding
    finalNorm := parts.finalNorm
    layerNorms := parts.layerNorms
    layers := parts.layers
    spec := spec.derived cfg
    rope
    kv }

/-! ## What a shard holds -/

/-- The list has an `lm_head` layer. -/
def HasLmHead (layers : List LayerData) : Prop := ∃ ld ∈ layers, ld.name = str "lm_head"

/-- The model of the directory has an `lm_head` layer: the `.gguf` model does, or the reader of the
shard's records finds one. -/
def ShardDir.HasLmHead (narrow : Nat → F32) (dir : ShardDir) (spec : ShardSpec) : Prop :=
  match dir.gguf with
  | some (path, file) =>
    ∃ full, loadModelFromGguf narrow path file = .ok full ∧ Terllama.HasLmHead full.layers
  | none =>
    ∃ decomposed layers, dir.decomposed = some decomposed ∧
      loadDecomposedLayersAlsRange decomposed spec.startLayer spec.endLayer true = .ok layers ∧
        Terllama.HasLmHead layers

/-- A shard holds what its flags say, where `lmHead` is that the model has an `lm_head`. -/
structure ShardModel.Owned (m : ShardModel) (lmHead : Prop) : Prop where
  embedding : m.embedding ≠ [] ↔ m.spec.isFirst = true
  finalNorm : m.finalNorm ≠ [] ↔ m.spec.isLast = true
  lmHead_kept : HasLmHead m.layers ↔ m.spec.isLast = true ∧ lmHead
  range : 0 ≤ m.spec.startLayer ∧ m.spec.startLayer ≤ m.spec.endLayer ∧
    m.spec.endLayer ≤ m.cfg.numHiddenLayers

/-- The request fits the directory: on the `.bin` branch, its flags are those of its range; on the
`.gguf` branch, its range lies in the model, starts at the first layer exactly if the file has an
embedding, ends at the last one exactly if it has a final norm, and the flag of the last shard is
that of the range if there is an `lm_head` to keep. -/
def ShardDir.Fits (narrow : Nat → F32) (dir : ShardDir) (spec : ShardSpec) : Prop :=
  match dir.gguf with
  | some (path, file) => ∃ full, loadModelFromGguf narrow path file = .ok full ∧
      (0 ≤ spec.startLayer ∧ spec.startLayer ≤ spec.endLayer ∧
        spec.endLayer ≤ full.cfg.numHiddenLayers) ∧
      (full.embedding ≠ [] ↔ spec.startLayer = 0) ∧
      (full.finalNorm ≠ [] ↔ spec.endLayer = full.cfg.numHiddenLayers) ∧
      (Terllama.HasLmHead full.layers →
        (spec.isLast = true ↔ spec.endLayer = full.cfg.numHiddenLayers))
  | none => ∃ extra cfg, dir.extra = some extra ∧
      loadConfig (dir.path ++ "/model_extra.bin") extra = .ok cfg ∧
      (spec.isFirst = true ↔ spec.startLayer = 0) ∧
      (spec.isLast = true ↔ spec.endLayer = cfg.numHiddenLayers)

/-! ## The layers that are kept -/

section
variable {start stop : Int} {includeLmHead : Bool}

/-- `lm_head` has no layer index, so that only the flag keeps it. -/
theorem keepRecord_lmHead (hstart : 0 ≤ start) :
    keepRecord start stop includeLmHead (str "lm_head") = .ok includeLmHead := by
  have hindex : parseLayerIndex (str "lm_head") = .ok (-1) := by decide
  have hout : ¬ (start ≤ -1 ∧ -1 < stop) := by omega
  rw [keepRecord, hindex, ok_bind, decide_eq_false hout]
  simp

/-- A record that the range reader keeps has a name of its range. -/
theorem readRangeLayer_kept {s s' : InStream} {ld : LayerData}
    (h : readRangeLayer start stop includeLmHead s = .ok (some ld, s')) :
    keepRecord start stop includeLmHead ld.name = .ok true := by
  obtain ⟨nameLen, s₁, -, h⟩ := StreamM.bind_eq_ok.1 h
  obtain ⟨name, s₂, -, h⟩ := StreamM.bind_eq_ok.1 h
  obtain ⟨outF, s₃, -, h⟩ := StreamM.bind_eq_ok.1 h
  obtain ⟨inF, s₄, -, h⟩ := StreamM.bind_eq_ok.1 h
  obtain ⟨x, s₅, -, h⟩ := StreamM.bind_eq_ok.1 h
  obtain ⟨keep, s₆, hkeep, h⟩ := StreamM.bind_eq_ok.1 h
  rw [StreamM.liftM_apply] at hkeep
  obtain ⟨keep', hkept, hlast⟩ := bind_eq_ok.1 hkeep
  cases hlast
  have hname : ld.name = name ∧ keep = true := by
    split at h
    · unfold readRangeOldBody at h
      split at h
      · obtain ⟨dataLen, s₇, -, h⟩ := StreamM.bind_eq_ok.1 h
        split at h
        · rename_i hk
          obtain ⟨data, s₈, -, h⟩ := StreamM.bind_eq_ok.1 h
          obtain ⟨ws, s₉, -, h⟩ := StreamM.bind_eq_ok.1 h
          cases h
          exact ⟨rfl, hk⟩
        · obtain ⟨u, s₈, -, h⟩ := StreamM.bind_eq_ok.1 h
          cases h
      · split at h
        · rename_i hk
          obtain ⟨terms, s₇, -, h⟩ := StreamM.bind_eq_ok.1 h
          cases h
          exact ⟨rfl, hk⟩
        · obtain ⟨off, s₇, -, h⟩ := StreamM.bind_eq_ok.1 h
          obtain ⟨u, s₈, -, h⟩ := StreamM.bind_eq_ok.1 h
          cases h
    · unfold readRangeNewBody at h
      obtain ⟨hi, s₇, -, h⟩ := StreamM.bind_eq_ok.1 h
      split at h
      · rename_i hk
        split at h
        · simp at h
        · obtain ⟨data, s₈, -, h⟩ := StreamM.bind_eq_ok.1 h
          obtain ⟨ld', s₉, hparse, h⟩ := StreamM.bind_eq_ok.1 h
          rw [StreamM.liftM_apply] at hparse
          obtain ⟨ld'', hparsed, hlast⟩ := bind_eq_ok.1 hparse
          cases hlast
          cases h
          exact ⟨congrArg Prod.fst (parseLayerTypeData_inv hparsed).1, hk⟩
      · obtain ⟨u, s₈, -, h⟩ := StreamM.bind_eq_ok.1 h
        cases h
  rw [hname.1, hkept, hname.2]

theorem readRangeLayers_kept {n : Nat} {s s' : InStream} {layers : List LayerData}
    (h : readRangeLayers start stop includeLmHead n s = .ok (layers, s')) :
    ∀ ld ∈ layers, keepRecord start stop includeLmHead ld.name = .ok true := by
  induction n generalizing s layers with
  | zero =>
    cases h
    exact nofun
  | succ n ih =>
    obtain ⟨ld?, s₁, hld, h⟩ := StreamM.bind_eq_ok.1 h
    obtain ⟨rest, s₂, hrest, h⟩ := StreamM.bind_eq_ok.1 h
    cases h
    intro ld hmem
    rcases List.mem_append.1 hmem with hmem | hmem
    · rw [Option.mem_toList] at hmem
      rw [hmem] at hld
      exact readRangeLayer_kept hld
    · exact ih hrest ld hmem

/-- Without the flag no `lm_head` is kept. -/
theorem loadRange_noLmHead {file : Bytes} {layers : List LayerData}
    (h : loadDecomposedLayersAlsRange file start stop false = .ok layers) :
    ¬ HasLmHead layers := by
  rintro ⟨ld, hmem, hname⟩
  unfold loadDecomposedLayersAlsRange at h
  split at h
  · cases h
  rename_i hrange
  obtain ⟨⟨n, s⟩, -, h⟩ := bind_eq_ok.1 h
  obtain ⟨count, -, h⟩ := bind_eq_ok.1 h
  obtain ⟨u, -, h⟩ := bind_eq_ok.1 h
  obtain ⟨⟨layers', s'⟩, hread, h⟩ := bind_eq_ok.1 h
  cases h
  have hkeep := readRangeLayers_kept hread ld hmem
  rw [hname, keepRecord_lmHead (by omega)] at hkeep
  cases hkeep

/-- The lifting of the norms leaves `lm_head` where it was. -/
theorem liftNorms_lmHead {numLayers : Int} {layers kept : List LayerData}
    {norms lifted : List NormWeights}
    (h : liftNorms numLayers layers norms = .ok (kept, lifted)) :
    HasLmHead kept ↔ HasLmHead layers := by
  induction layers generalizing norms kept lifted with
  | nil =>
    cases h
    exact Iff.rfl
  | cons ld layers ih =>
    obtain ⟨lq, hlq, h⟩ := bind_eq_ok.1 h
    obtain ⟨lk, hlk, h⟩ := bind_eq_ok.1 h
    split at h
    · rename_i hindex
      have hname : ld.name ≠ str "lm_head" := by
        intro hname
        have hq : normLayerIndex (str "lm_head") (str ".self_attn.q_norm") = .ok (-1) := by decide
        have hk : normLayerIndex (str "lm_head") (str ".self_attn.k_norm") = .ok (-1) := by decide
        rw [hname] at hlq hlk
        cases hlq.symm.trans hq
        cases hlk.symm.trans hk
        exact absurd hindex (by decide)
      rw [ih h, HasLmHead, HasLmHead, List.exists_mem_cons_iff, or_iff_right hname]
    · obtain ⟨⟨rest, norms'⟩, hrest, h⟩ := bind_eq_ok.1 h
      cases h
      have hiff := ih hrest
      unfold HasLmHead at hiff ⊢
      rw [List.exists_mem_cons_iff, List.exists_mem_cons_iff, hiff]

theorem extractNorms_lmHead {cfg : ModelConfig} {layers kept : List LayerData}
    {norms lifted : List NormWeights} (h : extractNorms cfg layers norms = .ok (kept, lifted)) :
    HasLmHead kept ↔ HasLmHead layers := by
  unfold extractNorms at h
  split at h
  · exact liftNorms_lmHead h
  · cases h
    exact Iff.rfl

/-- The loop over a `.gguf` model keeps `lm_head` where the flag says so. -/
theorem filterShard_lmHead {spec : ShardSpec} (hstart : 0 ≤ spec.startLayer)
    {layers kept : List LayerData} (h : filterShard spec layers = .ok kept) :
    HasLmHead kept ↔ spec.isLast = true ∧ HasLmHead layers := by
  induction layers generalizing kept with
  | nil =>
    cases h
    exact ⟨fun ⟨ld, hld, _⟩ => absurd hld nofun, fun h => h.2⟩
  | cons ld layers ih =>
    obtain ⟨keep, hkeep, h⟩ := bind_eq_ok.1 h
    obtain ⟨rest, hrest, h⟩ := bind_eq_ok.1 h
    cases h
    have hiff := ih hrest
    have hname : ld.name = str "lm_head" → keep = spec.isLast := by
      intro hname
      rw [hname, keepRecord_lmHead hstart] at hkeep
      cases hkeep
      rfl
    unfold HasLmHead at hiff ⊢
    rw [List.exists_mem_cons_iff]
    cases keep with
    | true =>
      rw [if_pos rfl, List.exists_mem_cons_iff, hiff]
      constructor
      · rintro (hld | ⟨hlast, hlm⟩)
        · exact ⟨(hname hld).symm, .inl hld⟩
        · exact ⟨hlast, .inr hlm⟩
      · rintro ⟨hlast, hld | hlm⟩
        · exact .inl hld
        · exact .inr ⟨hlast, hlm⟩
    | false =>
      rw [if_neg Bool.false_ne_true, hiff]
      refine and_congr_right fun hlast => (or_iff_right fun hld => ?_).symm
      exact absurd ((hname hld).trans hlast) Bool.false_ne_true

end

/-! ## The weights of the ends -/

/-- The embedding of a valid configuration is not empty. -/
theorem loadEmbedding_length {file : Bytes} {cfg : ModelConfig} {emb : List F32}
    (hvalid : cfg.Valid) (h : loadEmbedding file cfg = .ok emb) :
    (emb.length : Int) = cfg.vocabSize * cfg.hiddenSize := by
  obtain ⟨entries, hentries, h⟩ := bind_eq_ok.1 h
  obtain ⟨u, -, h⟩ := bind_eq_ok.1 h
  obtain ⟨⟨ws, s⟩, hread, h⟩ := bind_eq_ok.1 h
  cases h
  obtain ⟨ws', s', hread', hlen⟩ := readFloats_ok (sizeT entries) (.openAt file 36)
  cases hread.symm.trans hread'
  obtain ⟨rfl, hlo, hhi⟩ := i32_eq_ok.1 hentries
  have hpos : 0 ≤ cfg.vocabSize * cfg.hiddenSize :=
    Int.mul_nonneg hvalid.vocabSize.1.le hvalid.hiddenSize.1.le
  rw [hlen, sizeT_of_nonneg hpos (by omega), Int.toNat_of_nonneg hpos]

theorem loadFinalNorm_length {file : Bytes} {cfg : ModelConfig} {fn : List F32}
    (hvalid : cfg.Valid) (h : loadFinalNorm file cfg = .ok fn) :
    (fn.length : Int) = cfg.hiddenSize := by
  obtain ⟨entries, -, h⟩ := bind_eq_ok.1 h
  obtain ⟨bytes, -, h⟩ := bind_eq_ok.1 h
  obtain ⟨offset, -, h⟩ := bind_eq_ok.1 h
  obtain ⟨u, -, h⟩ := bind_eq_ok.1 h
  obtain ⟨⟨ws, s⟩, hread, h⟩ := bind_eq_ok.1 h
  cases h
  obtain ⟨ws', s', hread', hlen⟩ := readFloats_ok (sizeT cfg.hiddenSize) (.openAt file offset)
  cases hread.symm.trans hread'
  obtain ⟨hpos, hmax⟩ := hvalid.hiddenSize
  rw [hlen, sizeT_of_nonneg hpos.le (by omega), Int.toNat_of_nonneg hpos.le]

/-- A part that is loaded where a flag asks for it. -/
theorem loaded_iff {flag : Bool} {load : Exec (List F32)} {ws : List F32}
    (h : loadIf flag load = .ok ws) (hne : ∀ ws, load = .ok ws → ws ≠ []) :
    ws ≠ [] ↔ flag = true := by
  cases flag with
  | true => exact iff_of_true (hne ws h) rfl
  | false =>
    cases h
    exact iff_of_false (not_not_intro rfl) Bool.false_ne_true

theorem checkShardRange_ok {spec : ShardSpec} {cfg : ModelConfig} {u : Unit}
    (h : checkShardRange spec cfg = .ok u) : 0 ≤ spec.startLayer ∧
      spec.startLayer ≤ spec.endLayer ∧ spec.endLayer ≤ cfg.numHiddenLayers := by
  unfold checkShardRange at h
  split at h
  · cases h
  · omega

/-- What the `.bin` branch has loaded: the ends that the flags ask for, of a range in the model. -/
structure BinShard (dir : ShardDir) (spec : ShardSpec) (parts : ShardParts) : Prop where
  range : 0 ≤ spec.startLayer ∧ spec.startLayer ≤ spec.endLayer ∧
    spec.endLayer ≤ parts.cfg.numHiddenLayers
  embedding : parts.embedding ≠ [] ↔ spec.isFirst = true
  finalNorm : parts.finalNorm ≠ [] ↔ spec.isLast = true
  lmHead : ∃ decomposed layers, dir.decomposed = some decomposed ∧
    loadDecomposedLayersAlsRange decomposed spec.startLayer spec.endLayer spec.isLast = .ok layers ∧
      (HasLmHead parts.layers ↔ HasLmHead layers)
  config : ∃ extra cfg, dir.extra = some extra ∧
    loadConfig (dir.path ++ "/model_extra.bin") extra = .ok cfg ∧
      parts.cfg.numHiddenLayers = cfg.numHiddenLayers

theorem shardOfBin_spec {dir : ShardDir} {spec : ShardSpec} {parts : ShardParts}
    (h : shardOfBin dir spec = .ok parts) : BinShard dir spec parts := by
  unfold shardOfBin at h
  split at h
  · cases h
  rename_i extra hextra
  obtain ⟨cfg, hcfg, h⟩ := bind_eq_ok.1 h
  obtain ⟨u, hrange, h⟩ := bind_eq_ok.1 h
  obtain ⟨emb, hemb, h⟩ := bind_eq_ok.1 h
  obtain ⟨fn, hfn, h⟩ := bind_eq_ok.1 h
  obtain ⟨norms, hnorms, h⟩ := bind_eq_ok.1 h
  split at h
  · cases h
  rename_i decomposed hdecomposed
  obtain ⟨layers, hlayers, h⟩ := bind_eq_ok.1 h
  obtain ⟨⟨kept, lifted⟩, hlift, h⟩ := bind_eq_ok.1 h
  cases h
  have hvalid := loadConfig_valid hcfg
  have hcount := fixHeadDim_numHiddenLayers cfg layers
  refine ⟨?_, loaded_iff hemb fun ws hws hnil => ?_, loaded_iff hfn fun ws hws hnil => ?_,
    ⟨decomposed, layers, hdecomposed, hlayers, extractNorms_lmHead hlift⟩, extra, cfg, hextra, hcfg,
    hcount⟩
  · rw [hcount]
    exact checkShardRange_ok hrange
  · have hlen := loadEmbedding_length hvalid hws
    have hpos := Int.mul_pos hvalid.vocabSize.1 hvalid.hiddenSize.1
    rw [hnil] at hlen
    exact absurd hlen (by simpa using hpos.ne)
  · have hlen := loadFinalNorm_length hvalid hws
    have hpos := hvalid.hiddenSize.1
    rw [hnil] at hlen
    exact absurd hlen (by simpa using hpos.ne)

/-- The parts of a shard that was loaded are in it as they were loaded. -/
theorem loadModelShard_parts {narrow : Nat → F32} {trig : TrigOps} {dir : ShardDir}
    {spec : ShardSpec} {m : ShardModel} (h : loadModelShard narrow trig dir spec = .ok m) :
    ∃ parts, shardParts narrow dir spec = .ok parts ∧ m.cfg = parts.cfg ∧
      m.embedding = parts.embedding ∧ m.finalNorm = parts.finalNorm ∧ m.layers = parts.layers ∧
        m.spec = spec.derived parts.cfg := by
  obtain ⟨parts, hparts, h⟩ := bind_eq_ok.1 h
  obtain ⟨rope, -, h⟩ := bind_eq_ok.1 h
  obtain ⟨kv, -, h⟩ := bind_eq_ok.1 h
  cases h
  exact ⟨parts, hparts, rfl, rfl, rfl, rfl, rfl⟩

/-- A shard that was loaded holds what its flags say exactly if the request fits the directory. -/
theorem shard_owned_iff {narrow : Nat → F32} {trig : TrigOps} {dir : ShardDir} {spec : ShardSpec}
    {m : ShardModel} (h : loadModelShard narrow trig dir spec = .ok m) :
    m.Owned (dir.HasLmHead narrow spec) ↔ dir.Fits narrow spec := by
  obtain ⟨parts, hparts, hcfg, hemb, hfn, hlayers, hspec⟩ := loadModelShard_parts h
  have hflags : m.Owned (dir.HasLmHead narrow spec) ↔
      (parts.embedding ≠ [] ↔ spec.startLayer = 0) ∧
      (parts.finalNorm ≠ [] ↔ spec.endLayer = parts.cfg.numHiddenLayers) ∧
      (HasLmHead parts.layers ↔
        spec.endLayer = parts.cfg.numHiddenLayers ∧ dir.HasLmHead narrow spec) ∧
      (0 ≤ spec.startLayer ∧ spec.startLayer ≤ spec.endLayer ∧
        spec.endLayer ≤ parts.cfg.numHiddenLayers) := by
    constructor
    · rintro ⟨h₁, h₂, h₃, h₄⟩
      simp only [hcfg, hemb, hfn, hlayers, hspec, ShardSpec.derived, decide_eq_true_eq] at h₁ h₂ h₃ h₄
      exact ⟨h₁, h₂, h₃, h₄⟩
    · rintro ⟨h₁, h₂, h₃, h₄⟩
      refine ⟨?_, ?_, ?_, ?_⟩ <;>
        simp only [hcfg, hemb, hfn, hlayers, hspec, ShardSpec.derived, decide_eq_true_eq]
      exacts [h₁, h₂, h₃, h₄]
  rw [hflags]
  unfold shardParts at hparts
  unfold ShardDir.Fits ShardDir.HasLmHead
  split at hparts
  · rename_i path file _
    obtain ⟨full, hfull, hparts⟩ := bind_eq_ok.1 hparts
    obtain ⟨kept, hkept, hparts⟩ := bind_eq_ok.1 hparts
    cases hparts
    have hall : (∃ full', loadModelFromGguf narrow path file = .ok full' ∧
        HasLmHead full'.layers) ↔ HasLmHead full.layers := by
      rw [hfull]
      simp only [Except.ok.injEq, exists_eq_left']
    rw [hall]
    simp only [hfull, Except.ok.injEq, exists_eq_left']
    constructor
    · rintro ⟨h₁, h₂, h₃, hrange⟩
      rw [filterShard_lmHead hrange.1 hkept] at h₃
      refine ⟨hrange, h₁, h₂, fun hlm => ?_⟩
      simpa [hlm] using h₃
    · rintro ⟨hrange, h₁, h₂, h₃⟩
      refine ⟨h₁, h₂, ?_, hrange⟩
      rw [filterShard_lmHead hrange.1 hkept]
      exact and_congr_left h₃
  · obtain ⟨hrange, hembedding, hfinal, ⟨decomposed, layers, hdecomposed, hread, hlm⟩, extra, cfg,
      hextra, hload, hcount⟩ := shardOfBin_spec hparts
    have hcond : (∃ extra cfg, dir.extra = some extra ∧
        loadConfig (dir.path ++ "/model_extra.bin") extra = .ok cfg ∧
        (spec.isFirst = true ↔ spec.startLayer = 0) ∧
        (spec.isLast = true ↔ spec.endLayer = cfg.numHiddenLayers)) ↔
        (spec.isFirst = true ↔ spec.startLayer = 0) ∧
        (spec.isLast = true ↔ spec.endLayer = parts.cfg.numHiddenLayers) := by
      rw [hcount]
      constructor
      · rintro ⟨extra', cfg', hextra', hload', hboth⟩
        cases hextra.symm.trans hextra'
        cases hload.symm.trans hload'
        exact hboth
      · rintro hboth
        exact ⟨extra, cfg, hextra, hload, hboth⟩
    rw [hcond, hembedding, hfinal, hlm]
    constructor
    · rintro ⟨h₁, h₂, -, -⟩
      exact ⟨h₁, h₂⟩
    · rintro ⟨h₁, h₂⟩
      refine ⟨h₁, h₂, ?_, hrange⟩
      rw [← h₂]
      cases hlast : spec.isLast with
      | true =>
        rw [hlast] at hread
        constructor
        · exact fun hhas => ⟨rfl, decomposed, layers, hdecomposed, hread, hhas⟩
        · rintro ⟨-, decomposed', layers', hdecomposed', hread', hhas⟩
          cases hdecomposed.symm.trans hdecomposed'
          cases hread.symm.trans hread'
          exact hhas
      | false =>
        rw [hlast] at hread
        exact iff_of_false (loadRange_noLmHead hread) fun hboth => Bool.false_ne_true hboth.1

/-- The tiny `.bin` directory. -/
def tinyShardDir : ShardDir := ⟨"tiny", none, some tinyExtra, some tinyDecomposed⟩

/-- The entries do not matter here. -/
def flatTrig : TrigOps := ⟨fun _ _ _ _ => 0, fun _ _ _ _ => 0x3F800000⟩

/-- A request for all of its layers. -/
def wholeSpec : ShardSpec where
  endLayer := 1
  isFirst := true
  isLast := true

/-- The same request with the flags left out, which `from_json` takes for false. -/
def flaglessSpec : ShardSpec where
  endLayer := 1

theorem owned_tinyShard : ∃ m, loadModelShard (fun _ => 0) flatTrig tinyShardDir wholeSpec = .ok m ∧
    m.Owned (tinyShardDir.HasLmHead (fun _ => 0) wholeSpec) := by
  obtain ⟨m, hm⟩ : ∃ m, loadModelShard (fun _ => 0) flatTrig tinyShardDir wholeSpec = .ok m :=
    exists_eq_ok (by decide +kernel)
  have hcfg : loadConfig ("tiny" ++ "/model_extra.bin") tinyExtra = .ok tinyConfig := by
    decide +kernel
  exact ⟨m, hm, (shard_owned_iff hm).2 ⟨tinyExtra, tinyConfig, rfl, hcfg, by decide, by decide⟩⟩

/-- Without the flags, the shard of the first and last layer has neither an embedding nor a final
norm. -/
theorem not_owned_flagless :
    ∃ m, loadModelShard (fun _ => 0) flatTrig tinyShardDir flaglessSpec = .ok m ∧
      ¬ m.Owned (tinyShardDir.HasLmHead (fun _ => 0) flaglessSpec) := by
  obtain ⟨m, hm⟩ : ∃ m, loadModelShard (fun _ => 0) flatTrig tinyShardDir flaglessSpec = .ok m :=
    exists_eq_ok (by decide +kernel)
  have hparts : (loadModelShard (fun _ => 0) flatTrig tinyShardDir flaglessSpec).toOption.map
      (fun m => (m.embedding, m.spec.isFirst)) = some ([], true) := by
    decide +kernel
  rw [hm] at hparts
  obtain ⟨hemb, hfirst⟩ := Prod.mk.inj (Option.some.inj hparts)
  exact ⟨m, hm, fun howned => howned.embedding.2 hfirst hemb⟩

end Terllama
