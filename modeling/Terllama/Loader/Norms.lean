import Terllama.Loader.Truncated

/-!
# The norms lifted out of the layer list

What the loop of `load_model_from` over the layer list does, on the names themselves: a layer named
`model.layers.<digits>.self_attn.q_norm` or `.k_norm` leaves the list, and the last one of an index
that has raw weights gives the norm of that index (`norms_lifted`).
-/

namespace Terllama

/-! ## The configuration that was read -/

/-- What the validation of `load_config` leaves. -/
structure ModelConfig.Valid (cfg : ModelConfig) : Prop where
  vocabSize : 0 < cfg.vocabSize ∧ cfg.vocabSize ≤ 2147483647
  hiddenSize : 0 < cfg.hiddenSize ∧ cfg.hiddenSize ≤ 2147483647
  numHiddenLayers : 0 < cfg.numHiddenLayers ∧ cfg.numHiddenLayers ≤ 2147483647
  numAttentionHeads : 0 < cfg.numAttentionHeads ∧ cfg.numAttentionHeads ≤ 2147483647
  numKeyValueHeads : 0 < cfg.numKeyValueHeads ∧ cfg.numKeyValueHeads ≤ 2147483647
  maxPositionEmbeddings : 0 < cfg.maxPositionEmbeddings ∧ cfg.maxPositionEmbeddings ≤ 4096
  headDim : 0 < cfg.headDim ∧ cfg.headDim ≤ cfg.hiddenSize

/-- A field that passes its test has a positive value. -/
theorem exists_of_notPositive {x : Option Bytes} (h : notPositive (x.map intOf) = .ok false) :
    ∃ v, x.map intOf = some v ∧ 0 < v ∧ v ≤ 2147483647 := by
  cases x with
  | none => cases h
  | some bs =>
    refine ⟨intOf bs, rfl, ?_, (toInt32_range _).2⟩
    simp only [notPositive, useVar, Option.map_some, ok_bind, pure_eq_ok, Except.ok.injEq,
      decide_eq_false_iff_not, not_le] at h
    exact h

/-- A configuration that `load_config` returns is valid. -/
theorem loadConfig_valid {path : String} {file : Bytes} {cfg : ModelConfig}
    (h : loadConfig path file = .ok cfg) : cfg.Valid := by
  rw [loadConfig_eq] at h
  obtain ⟨b, hchecks, h⟩ := bind_eq_ok.1 h
  cases b with
  | true => cases h
  | false =>
    have hall := eq_ok_false_of_anyM hchecks
    simp only [ConfigHeader.checks, headerOf, List.forall_mem_cons, List.not_mem_nil,
      false_implies, implies_true, and_true] at hall
    obtain ⟨h₀, h₁, h₂, h₃, h₄, h₅, h₆, h₇, h₈⟩ := hall
    obtain ⟨vs, hvs, hvs'⟩ := exists_of_notPositive h₀
    obtain ⟨hs, hhs, hhs'⟩ := exists_of_notPositive h₁
    obtain ⟨is, his, -⟩ := exists_of_notPositive h₂
    obtain ⟨nl, hnl, hnl'⟩ := exists_of_notPositive h₃
    obtain ⟨nah, hnah, hnah'⟩ := exists_of_notPositive h₄
    obtain ⟨nkv, hnkv, hnkv'⟩ := exists_of_notPositive h₅
    obtain ⟨mpe, hmpe, hmpe'⟩ := exists_of_notPositive h₇
    simp only [hhs, hnah, useVar, ok_bind, pure_eq_ok, Except.ok.injEq, decide_eq_false_iff_not,
      not_le] at h₆
    simp only [ConfigHeader.config, headerOf, hvs, hhs, his, hnl, hnah, hnkv, hmpe, useVar,
      ok_bind] at h
    obtain ⟨rne, -, h⟩ := bind_eq_ok.1 h
    obtain ⟨rt, -, h⟩ := bind_eq_ok.1 h
    cases h
    refine ⟨hvs', hhs', hnl', hnah', hnkv', ?_, h₆, ?_⟩
    · dsimp only
      split <;> omega
    · exact Int.tdiv_le_self _ hhs'.1.le

theorem readNormPairs_length {cfg : ModelConfig} {n : Nat} {s s' : InStream}
    {norms : List NormWeights} (h : readNormPairs cfg n s = .ok (norms, s')) : norms.length = n := by
  induction n generalizing s norms with
  | zero =>
    cases h
    rfl
  | succ n ih =>
    obtain ⟨norm, s₁, -, h⟩ := StreamM.bind_eq_ok.1 h
    obtain ⟨rest, s₂, hrest, h⟩ := StreamM.bind_eq_ok.1 h
    cases h
    rw [List.length_cons, ih hrest]

/-- There are as many layer norms as layers. -/
theorem loadLayerNorms_length {file : Bytes} {cfg : ModelConfig} {norms : List NormWeights}
    (h : loadLayerNorms file cfg = .ok norms) : norms.length = cfg.numHiddenLayers.toNat := by
  unfold loadLayerNorms at h
  obtain ⟨entries, -, h⟩ := bind_eq_ok.1 h
  obtain ⟨bytes, -, h⟩ := bind_eq_ok.1 h
  obtain ⟨start, -, h⟩ := bind_eq_ok.1 h
  obtain ⟨norm, -, h⟩ := bind_eq_ok.1 h
  obtain ⟨offset, -, h⟩ := bind_eq_ok.1 h
  obtain ⟨u, -, h⟩ := bind_eq_ok.1 h
  obtain ⟨⟨norms', s⟩, hread, h⟩ := bind_eq_ok.1 h
  cases h
  exact readNormPairs_length hread

/-- The loop over the layer list runs. -/
theorem extractNorms_eq {file : Bytes} {cfg : ModelConfig} {norms : List NormWeights}
    (hvalid : cfg.Valid) (h : loadLayerNorms file cfg = .ok norms) (layers : List LayerData) :
    extractNorms (fixHeadDim cfg layers) layers norms =
      liftNorms cfg.numHiddenLayers layers norms := by
  have hlen := loadLayerNorms_length h
  obtain ⟨hpos, hmax⟩ := hvalid.numHiddenLayers
  rw [extractNorms, fixHeadDim_numHiddenLayers, if_pos]
  rw [toInt32_of_lt (by omega)]
  omega

/-! ## The names of pseudo-layers -/

/-- The layer is the pseudo-layer of index `n` with this suffix. -/
def NormOf (suffix : Bytes) (n : Nat) (ld : LayerData) : Prop :=
  ∃ digits, digits ≠ [] ∧ (∀ c ∈ digits, isDigit c = true) ∧ decimalValue digits = n ∧
    ld.name = str "model.layers." ++ digits ++ suffix

section
variable {suffix : Bytes} {ld : LayerData} {n : Nat}

/-- The lambda on the name of a pseudo-layer. -/
theorem normLayerIndex_of_normOf (h : NormOf suffix n ld) (hn : n ≤ 2147483647) :
    normLayerIndex ld.name suffix = .ok (n : Int) := by
  obtain ⟨digits, hne, hdigits, rfl, hname⟩ := h
  have hlen : ld.name.length - suffix.length = (str "model.layers." ++ digits).length := by
    rw [hname, List.length_append]
    omega
  have hpfx : 0 < (str "model.layers.").length := by decide
  have hcheck : (digits.isEmpty || !digits.all isDigit) = false := by
    rw [List.all_eq_true.2 hdigits, List.isEmpty_eq_false_iff.2 hne]
    rfl
  unfold normLayerIndex
  rw [hlen, if_neg (by rw [hname, List.length_append, List.length_append]; omega), hname,
    List.drop_left, if_neg (not_not_intro rfl)]
  dsimp only
  rw [List.take_left, List.take_left, if_neg (not_not_intro rfl), List.drop_left, hcheck,
    if_neg Bool.false_ne_true, stoi, if_pos hn]

/-- The lambda on any other name. -/
theorem normLayerIndex_of_not (h : ∀ n, ¬ NormOf suffix n ld) :
    normLayerIndex ld.name suffix = .ok (-1) := by
  unfold normLayerIndex
  split
  · rfl
  rename_i hlen
  split
  · rfl
  rename_i hsuffix
  dsimp only
  split
  · rfl
  rename_i hpfx
  split
  · rfl
  rename_i hcheck
  rw [Bool.or_eq_true, not_or, Bool.not_eq_true', Bool.not_eq_false, List.all_eq_true,
    Bool.not_eq_true, List.isEmpty_eq_false_iff] at hcheck
  refine absurd ⟨_, hcheck.1, hcheck.2, rfl, ?_⟩ (h _)
  conv_lhs => rw [← List.take_append_drop (ld.name.length - suffix.length) ld.name]
  rw [not_not.1 hsuffix]
  conv_lhs =>
    rw [← List.take_append_drop (str "model.layers.").length
      (ld.name.take (ld.name.length - suffix.length)), not_not.1 hpfx]

/-- A layer has one index at most. -/
theorem NormOf.index_eq {m : Nat} (hm : NormOf suffix m ld) (hn : NormOf suffix n ld) : m = n := by
  obtain ⟨d, -, -, rfl, hd⟩ := hm
  obtain ⟨d', -, -, rfl, hd'⟩ := hn
  have hsame := List.append_cancel_right (hd.symm.trans hd')
  rw [List.append_cancel_left hsame]

end

/-- The suffix of the norms of the queries. -/
def qNormSuffix : Bytes := str ".self_attn.q_norm"

/-- The suffix of the norms of the keys. -/
def kNormSuffix : Bytes := str ".self_attn.k_norm"

/-- No layer is the norm of both. -/
theorem NormOf.not_both {ld : LayerData} {m n : Nat} (hq : NormOf qNormSuffix m ld) :
    ¬ NormOf kNormSuffix n ld := by
  obtain ⟨d, -, -, -, hd⟩ := hq
  rintro ⟨d', -, -, -, hd'⟩
  have hends := (List.append_inj' (hd.symm.trans hd') (by decide)).2
  exact absurd hends (by decide)

/-- The layer is a pseudo-layer. -/
def IsNorm (ld : LayerData) : Prop := ∃ n, NormOf qNormSuffix n ld ∨ NormOf kNormSuffix n ld

/-- `lm_head` is not one. -/
theorem not_isNorm_lmHead {ld : LayerData} (h : ld.name = str "lm_head") : ¬ IsNorm ld := by
  have hlen : ∀ suffix : Bytes, 7 < suffix.length → ∀ n, ¬ NormOf suffix n ld := by
    rintro suffix hsuffix n ⟨digits, -, -, -, hname⟩
    have hlength := congrArg List.length (h.symm.trans hname)
    rw [List.length_append] at hlength
    have hseven : (str "lm_head").length = 7 := by decide
    omega
  rintro ⟨n, hq | hk⟩
  · exact hlen _ (by decide) n hq
  · exact hlen _ (by decide) n hk

/-! ## The lifting -/

section
open Classical

/-- The weights of the last raw pseudo-layer of index `n`, or `w` where there is none. -/
noncomputable def lastNorm (suffix : Bytes) (n : Nat) (layers : List LayerData) (w : List F32) :
    List F32 :=
  match (layers.filter fun ld => NormOf suffix n ld ∧ ld.hasRawWeights = true).getLast? with
  | some ld => ld.rawWeights
  | none => w

theorem lastNorm_nil (suffix : Bytes) (n : Nat) (w : List F32) : lastNorm suffix n [] w = w := rfl

/-- The first layer of a list counts where no later one does. -/
theorem lastNorm_cons (suffix : Bytes) (n : Nat) (ld : LayerData) (layers : List LayerData)
    (w : List F32) :
    lastNorm suffix n (ld :: layers) w = lastNorm suffix n layers
      (if NormOf suffix n ld ∧ ld.hasRawWeights = true then ld.rawWeights else w) := by
  unfold lastNorm
  by_cases hld : NormOf suffix n ld ∧ ld.hasRawWeights = true
  · rw [List.filter_cons_of_pos (by simpa using hld), if_pos hld, List.getLast?_cons]
    cases (layers.filter fun ld => NormOf suffix n ld ∧ ld.hasRawWeights = true).getLast? <;> rfl
  · rw [List.filter_cons_of_neg (by simpa using hld), if_neg hld]

/-- The norms of layer `n` after the lifting. -/
noncomputable def liftedNorm (layers : List LayerData) (n : Nat) (norm : NormWeights) :
    NormWeights :=
  { norm with
    qNorm := lastNorm qNormSuffix n layers norm.qNorm
    kNorm := lastNorm kNormSuffix n layers norm.kNorm }

theorem liftedNorm_singleton (ld : LayerData) (n : Nat) (norm : NormWeights) :
    liftedNorm [ld] n norm =
      { norm with
        qNorm := if NormOf qNormSuffix n ld ∧ ld.hasRawWeights = true then ld.rawWeights
          else norm.qNorm
        kNorm := if NormOf kNormSuffix n ld ∧ ld.hasRawWeights = true then ld.rawWeights
          else norm.kNorm } := by
  rw [liftedNorm, lastNorm_cons, lastNorm_cons, lastNorm_nil, lastNorm_nil]

/-- One entry of a list replaced. -/
theorem modify_eq_mapIdx {norms : List NormWeights} {m : Nat} {f : NormWeights → NormWeights}
    {g : Nat → NormWeights → NormWeights} (hsame : ∀ norm, g m norm = f norm)
    (hother : ∀ n norm, m ≠ n → g n norm = norm) : norms.modify m f = norms.mapIdx g := by
  refine List.ext_getElem? fun n => ?_
  rw [List.getElem?_mapIdx, List.getElem?_modify]
  cases norms[n]? with
  | none => rfl
  | some norm =>
    by_cases hmn : m = n
    · subst hmn
      simp [hsame]
    · simp [hmn, hother n norm hmn]

/-- The norms after a pseudo-layer of the queries. -/
theorem liftNorm_q {numLayers : Int} {norms : List NormWeights} {ld : LayerData} {m : Nat}
    (hm : (m : Int) < numLayers) (h : NormOf qNormSuffix m ld) (lk : Int) :
    liftNorm numLayers m lk ld norms = norms.mapIdx (liftedNorm [ld]) := by
  have hnever : ∀ n, ¬ NormOf kNormSuffix n ld := fun n => NormOf.not_both h
  have hiff : ∀ n, NormOf qNormSuffix n ld ↔ m = n := fun n =>
    ⟨fun hn => NormOf.index_eq h hn, fun hn => hn ▸ h⟩
  unfold liftNorm
  rw [if_pos (Int.natCast_nonneg m)]
  by_cases hraw : ld.hasRawWeights = true
  · rw [if_pos ⟨hm, hraw⟩]
    rw [Int.toNat_natCast]
    refine modify_eq_mapIdx (fun norm => ?_) fun n norm hmn => ?_
    · simp [liftedNorm_singleton, h, hraw, hnever]
    · simp [liftedNorm_singleton, hiff, hmn, hnever]
  · rw [if_neg fun hboth => hraw hboth.2]
    refine (List.mapIdx_eq_iff.2 fun n => ?_).symm
    cases norms[n]? with
    | none => rfl
    | some norm => simp [liftedNorm_singleton, hraw]

/-- The norms after a pseudo-layer of the keys. -/
theorem liftNorm_k {numLayers : Int} {norms : List NormWeights} {ld : LayerData} {m : Nat}
    (hm : (m : Int) < numLayers) (h : NormOf kNormSuffix m ld) :
    liftNorm numLayers (-1) m ld norms = norms.mapIdx (liftedNorm [ld]) := by
  have hnever : ∀ n, ¬ NormOf qNormSuffix n ld := fun n hq => NormOf.not_both hq h
  have hiff : ∀ n, NormOf kNormSuffix n ld ↔ m = n := fun n =>
    ⟨fun hn => NormOf.index_eq h hn, fun hn => hn ▸ h⟩
  have hneg : ¬ (0 : Int) ≤ -1 := by omega
  unfold liftNorm
  rw [if_neg hneg]
  by_cases hraw : ld.hasRawWeights = true
  · rw [if_pos ⟨hm, hraw⟩]
    rw [Int.toNat_natCast]
    refine modify_eq_mapIdx (fun norm => ?_) fun n norm hmn => ?_
    · simp [liftedNorm_singleton, h, hraw, hnever]
    · simp [liftedNorm_singleton, hiff, hmn, hnever]
  · rw [if_neg fun hboth => hraw hboth.2]
    refine (List.mapIdx_eq_iff.2 fun n => ?_).symm
    cases norms[n]? with
    | none => rfl
    | some norm => simp [liftedNorm_singleton, hraw]

theorem liftedNorm_cons (ld : LayerData) (layers : List LayerData) (n : Nat) (norm : NormWeights) :
    liftedNorm (ld :: layers) n norm = liftedNorm layers n (liftedNorm [ld] n norm) := by
  simp only [liftedNorm, lastNorm_cons, lastNorm_nil]

theorem liftedNorm_of_not {ld : LayerData} (h : ¬ IsNorm ld) (layers : List LayerData) (n : Nat)
    (norm : NormWeights) : liftedNorm (ld :: layers) n norm = liftedNorm layers n norm := by
  have hq : ¬ NormOf qNormSuffix n ld := fun hq => h ⟨n, .inl hq⟩
  have hk : ¬ NormOf kNormSuffix n ld := fun hk => h ⟨n, .inr hk⟩
  simp only [liftedNorm, lastNorm_cons, hq, hk, false_and, if_false]

/-- The loop over the layer list, on a list whose indices are those of layers. -/
theorem liftNorms_eq {numLayers : Int} (hmax : numLayers ≤ 2147483647) {layers : List LayerData}
    (h : ∀ ld ∈ layers, ∀ n, NormOf qNormSuffix n ld ∨ NormOf kNormSuffix n ld →
      (n : Int) < numLayers) (norms : List NormWeights) :
    liftNorms numLayers layers norms =
      .ok (layers.filter fun ld => ¬ IsNorm ld, norms.mapIdx (liftedNorm layers)) := by
  induction layers generalizing norms with
  | nil =>
    have hsame : norms.mapIdx (liftedNorm []) = norms := by
      rw [List.mapIdx_eq_iff]
      intro i
      cases norms[i]? <;> rfl
    rw [hsame]
    rfl
  | cons ld layers ih =>
    rw [List.forall_mem_cons] at h
    obtain ⟨hld, hrest⟩ := h
    have hcompose : (norms.mapIdx (liftedNorm [ld])).mapIdx (liftedNorm layers) =
        norms.mapIdx (liftedNorm (ld :: layers)) := by
      rw [List.mapIdx_mapIdx]
      exact congrArg (fun f => norms.mapIdx f)
        (funext fun n => funext fun norm => (liftedNorm_cons ld layers n norm).symm)
    rw [liftNorms]
    by_cases hq : ∃ n, NormOf qNormSuffix n ld
    · obtain ⟨n, hn⟩ := hq
      have hlt := hld n (.inl hn)
      rw [show str ".self_attn.q_norm" = qNormSuffix from rfl,
        show str ".self_attn.k_norm" = kNormSuffix from rfl,
        normLayerIndex_of_normOf hn (by omega), ok_bind,
        normLayerIndex_of_not fun m hm => NormOf.not_both hn hm, ok_bind,
        if_pos (.inl (Int.natCast_nonneg n)), ih hrest,
        List.filter_cons_of_neg (by simpa using ⟨n, .inl hn⟩),
        liftNorm_q hlt hn, hcompose]
    · by_cases hk : ∃ n, NormOf kNormSuffix n ld
      · obtain ⟨n, hn⟩ := hk
        have hlt := hld n (.inr hn)
        rw [show str ".self_attn.q_norm" = qNormSuffix from rfl,
          show str ".self_attn.k_norm" = kNormSuffix from rfl,
          normLayerIndex_of_normOf hn (by omega),
          normLayerIndex_of_not (not_exists.1 hq), ok_bind, ok_bind,
          if_pos (.inr (Int.natCast_nonneg n)), ih hrest,
          List.filter_cons_of_neg (by simpa using ⟨n, .inr hn⟩),
          liftNorm_k hlt hn, hcompose]
      · have hnot : ¬ IsNorm ld := by
          rintro ⟨n, hn | hn⟩
          · exact hq ⟨n, hn⟩
          · exact hk ⟨n, hn⟩
        have hsame : liftedNorm (ld :: layers) = liftedNorm layers :=
          funext fun n => funext fun norm => liftedNorm_of_not hnot layers n norm
        rw [show str ".self_attn.q_norm" = qNormSuffix from rfl,
          show str ".self_attn.k_norm" = kNormSuffix from rfl,
          normLayerIndex_of_not (not_exists.1 hq), normLayerIndex_of_not (not_exists.1 hk),
          ok_bind, ok_bind, if_neg (by omega), ih hrest,
          List.filter_cons_of_pos (by simpa using hnot), hsame]
        rfl

/-- What `load_model_from` makes of the parts it has read: exactly the pseudo-layers leave the list,
the last raw one of each index gives its norm, and nothing else changes. -/
theorem norms_lifted {dir : ModelDir} {extra decomposed : Bytes} {cfg : ModelConfig}
    {embedding finalNorm : List F32} {norms : List NormWeights} {layers : List LayerData}
    (hextra : dir.extra = some extra) (hdecomposed : dir.decomposed = some decomposed)
    (hcfg : loadConfig (dir.path ++ "/model_extra.bin") extra = .ok cfg)
    (hembedding : loadEmbedding extra cfg = .ok embedding)
    (hfinal : loadFinalNorm extra cfg = .ok finalNorm)
    (hnorms : loadLayerNorms extra cfg = .ok norms)
    (hlayers : loadDecomposedLayersAls decomposed = .ok layers)
    (hindex : ∀ ld ∈ layers, ∀ n, NormOf qNormSuffix n ld ∨ NormOf kNormSuffix n ld →
      (n : Int) < cfg.numHiddenLayers) :
    loadModelFrom dir = (do
      return {
        cfg := fixHeadDim cfg layers
        embedding
        finalNorm
        layerNorms := norms.mapIdx fun n norm =>
          { norm with
            qNorm := lastNorm qNormSuffix n layers norm.qNorm
            kNorm := lastNorm kNormSuffix n layers norm.kNorm }
        layers := layers.filter fun ld => ¬ IsNorm ld
        tokenizer := ← dir.tokenizer }) := by
  have hvalid := loadConfig_valid hcfg
  rw [loadModelFrom, hextra]
  dsimp only
  rw [hcfg, ok_bind, hembedding, ok_bind, hfinal, ok_bind, hnorms, ok_bind, hdecomposed]
  dsimp only
  rw [hlayers, ok_bind, finishModel]
  dsimp only
  rw [extractNorms_eq hvalid hnorms, liftNorms_eq hvalid.numHiddenLayers.2 hindex, ok_bind]
  rfl

end

/-- A raw record of one weight. -/
def weightRecord (name : Bytes) (w : F32) : Bytes :=
  u32Bytes name.length ++ name ++ u32Bytes 1 ++ u32Bytes 1 ++ u32Bytes 0 ++ u32Bytes 4 ++
    F32.toBytes w

/-- The layer of that record. -/
def weightLayer (name : Bytes) (w : F32) : LayerData where
  name := name
  outFeatures := 1
  inFeatures := 1
  hasRawWeights := true
  rawWeights := [w]

/-- A `model_decomposed.bin` with a projection between two norms of the queries. -/
def normRecords : Bytes :=
  u32Bytes 0xDEADBEEF ++ u32Bytes 3 ++ weightRecord (str "model.layers.0.self_attn.q_norm") 0x3F800000 ++
    weightRecord (str "model.layers.0.self_attn.q_proj") 0x3F800000 ++
    weightRecord (str "model.layers.0.self_attn.q_norm") 0x40000000

/-- The layers of that file. -/
def normLayers : List LayerData :=
  [weightLayer (str "model.layers.0.self_attn.q_norm") 0x3F800000,
    weightLayer (str "model.layers.0.self_attn.q_proj") 0x3F800000,
    weightLayer (str "model.layers.0.self_attn.q_norm") 0x40000000]

/-- The one index there is zero. -/
theorem normLayers_index {ld : LayerData} (hld : ld ∈ normLayers) {n : Nat}
    (h : NormOf qNormSuffix n ld ∨ NormOf kNormSuffix n ld) : n = 0 := by
  have hzero : NormOf qNormSuffix 0 (weightLayer (str "model.layers.0.self_attn.q_norm") 0) :=
    ⟨[48], by decide, List.all_eq_true.1 rfl, by decide, by decide⟩
  have hname : ld.name = str "model.layers.0.self_attn.q_norm" ∨
      ld.name = str "model.layers.0.self_attn.q_proj" := by
    simp only [normLayers, List.mem_cons, List.not_mem_nil, or_false] at hld
    rcases hld with rfl | rfl | rfl
    · exact .inl rfl
    · exact .inr rfl
    · exact .inl rfl
  have hlast : ∀ suffix m, NormOf suffix m ld → suffix <:+ ld.name := by
    rintro suffix m ⟨digits, -, -, -, hd⟩
    exact ⟨_, hd.symm⟩
  rcases hname with hname | hname
  · have hq : NormOf qNormSuffix 0 ld := by
      obtain ⟨digits, hd⟩ := hzero
      exact ⟨digits, hd.1, hd.2.1, hd.2.2.1, hname.trans hd.2.2.2⟩
    rcases h with h | h
    · exact h.index_eq hq
    · exact absurd h hq.not_both
  · rcases h with h | h
    · have hsuffix := hname ▸ hlast _ _ h
      exact absurd hsuffix (by decide)
    · have hsuffix := hname ▸ hlast _ _ h
      exact absurd hsuffix (by decide)

/-- The directory of these records, with the configuration of one layer. -/
def normDir : ModelDir := ⟨"norms", some tinyExtra, some normRecords, .ok default⟩

open Classical in
theorem norms_lifted_records :
    loadModelFrom normDir = .ok {
      cfg := fixHeadDim tinyConfig normLayers
      embedding := [0x3F800000]
      finalNorm := [0x3F800000]
      layerNorms := [⟨[0x3F800000], [0x3F800000], [], [], lastNorm qNormSuffix 0 normLayers [],
        lastNorm kNormSuffix 0 normLayers []⟩]
      layers := normLayers.filter fun ld => ¬ IsNorm ld
      tokenizer := default } := by
  have hcfg : loadConfig (normDir.path ++ "/model_extra.bin") tinyExtra = .ok tinyConfig := by
    decide +kernel
  have hindex : ∀ ld ∈ normLayers, ∀ n, NormOf qNormSuffix n ld ∨ NormOf kNormSuffix n ld →
      (n : Int) < tinyConfig.numHiddenLayers := by
    intro ld hld n h
    rw [normLayers_index hld h]
    decide
  have hembedding : loadEmbedding tinyExtra tinyConfig = .ok [0x3F800000] := by decide +kernel
  have hfinal : loadFinalNorm tinyExtra tinyConfig = .ok [0x3F800000] := by decide +kernel
  have hnorms : loadLayerNorms tinyExtra tinyConfig =
      .ok [⟨[0x3F800000], [0x3F800000], [], [], [], []⟩] := by
    decide +kernel
  have hlayers : loadDecomposedLayersAls normRecords = .ok normLayers := by decide +kernel
  have hextra : normDir.extra = some tinyExtra := rfl
  have hdecomposed : normDir.decomposed = some normRecords := rfl
  rw [norms_lifted hextra hdecomposed hcfg hembedding hfinal hnorms hlayers hindex]
  rfl

end Terllama
