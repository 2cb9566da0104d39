import Terllama.Convert.ConvertModel

/-!
# The models that the converter writes and the loader accepts

`convert_model` followed by `load_model_from`. Where every record fits its layout (`Framed`), the
loader takes the directory and finds the seven projections of every layer exactly under the
conditions of `Loadable`: the checks of `load_config`, the offset of the final norm, the limit on
the terms and the tokenizer belong to the loader alone, and the projections to the forward pass.
-/

namespace Terllama

/-! ## Names -/

/-- The index and the rest of a layer's name are read off it. -/
theorem layerPrefix_inj {i j : Nat} {s t : Bytes} (h : layerPrefix i ++ s = layerPrefix j ++ t) :
    i = j ∧ s = t := by
  simp only [layerPrefix, List.append_assoc] at h
  exact decimal_append_inj (c := 46) (by decide) (List.append_cancel_left h)

theorem layerPrefix_length_le {i : Nat} (h : i < 2147483648) : (layerPrefix i).length ≤ 24 := by
  have hdigits := decimal_length_le (show i < 10000000000 by omega)
  have hpfx : (str "model.layers.").length = 13 := by decide
  have hdot : (str ".").length = 1 := by decide
  rw [layerPrefix, List.length_append, List.length_append, hpfx, hdot]
  omega

/-- A byte of a layer's prefix is a letter of `model.layers.` or a digit. -/
theorem not_mem_layerPrefix {c : UInt8} (hword : c ∉ str "model.layers.") (hdigit : isDigit c = false)
    (i : Nat) : c ∉ layerPrefix i := by
  have hdot : c ∉ str "." := by
    intro h
    rw [show str "." = [46] by decide, List.mem_singleton] at h
    rw [h] at hword
    exact hword (by decide)
  intro h
  rw [layerPrefix, List.mem_append, List.mem_append] at h
  rcases h with (h | h) | h
  · exact hword h
  · rw [isDigit_of_mem_decimal h] at hdigit
    exact absurd hdigit (by decide)
  · exact hdot h

/-- Where `qkv_proj` occurs in the name of a submodule. -/
theorem findSub_layerPrefix (i : Nat) (s : Bytes) :
    findSub (str "qkv_proj") (layerPrefix i ++ s) =
      (findSub (str "qkv_proj") s).map ((layerPrefix i).length + ·) :=
  findSub_append (not_mem_layerPrefix (by decide) (by decide) i) _ s

/-- The parts of a fused projection have the names of the separate ones. -/
theorem partName_qkv (i : Nat) (part : Bytes) :
    partName (layerPrefix i ++ str "self_attn.qkv_proj") part =
      layerPrefix i ++ (str "self_attn." ++ part) := by
  have hfind : findSub (str "qkv_proj") (str "self_attn.qkv_proj") = some 10 := by decide
  have htake : (str "self_attn.qkv_proj").take 10 = str "self_attn." := by decide
  have hdrop : (str "self_attn.qkv_proj").drop (10 + 8) = [] := by decide
  rw [partName, findSub_layerPrefix, hfind, Option.map_some, Option.getD_some,
    List.take_length_add_append, htake, Nat.add_assoc, List.drop_length_add_append, hdrop,
    List.append_nil, List.append_assoc]

/-- A name that ends otherwise is not that of a pseudo-layer. -/
theorem normLayerIndex_of_tail {suffix tail : Bytes} (hle : tail.length ≤ suffix.length)
    (hne : suffix.drop (suffix.length - tail.length) ≠ tail) (pre : Bytes) :
    normLayerIndex (pre ++ tail) suffix = .ok (-1) := by
  unfold normLayerIndex
  split
  · rfl
  · rename_i hlen
    rw [List.length_append] at hlen
    refine if_pos fun heq => hne ?_
    rw [← heq, List.drop_drop, List.length_drop, List.length_append]
    have hpos : pre.length + tail.length - suffix.length + (pre.length + tail.length -
        (pre.length + tail.length - suffix.length) - tail.length) = pre.length := by omega
    rw [hpos, List.drop_left]

/-- The index of a pseudo-layer. -/
theorem normLayerIndex_layerPrefix {i : Nat} (hi : i ≤ 2147483647) (attr : Bytes) :
    normLayerIndex (layerPrefix i ++ (str "self_attn." ++ attr)) (str ".self_attn." ++ attr) =
      .ok (i : Int) := by
  have hname : layerPrefix i ++ (str "self_attn." ++ attr) =
      str "model.layers." ++ decimal i ++ (str ".self_attn." ++ attr) := by
    have hdot : str ".self_attn." = str "." ++ str "self_attn." := by decide
    simp only [layerPrefix, hdot, List.append_assoc]
  have hpfx : (str "model.layers.").length = 13 := by decide
  have hdigits : decimal i ≠ [] := decimal_ne_nil i
  have hall : (decimal i).all isDigit = true :=
    List.all_eq_true.2 fun _ h => isDigit_of_mem_decimal h
  have hlen : ∀ s : Bytes, (str "model.layers." ++ decimal i ++ s).length - s.length =
      (str "model.layers." ++ decimal i).length := by
    intro s
    rw [List.length_append]
    omega
  rw [hname, normLayerIndex, if_neg (by
    rw [List.length_append, List.length_append, hpfx]
    omega), hlen, List.drop_left, if_neg (not_not.2 rfl), List.take_left]
  dsimp only
  rw [List.take_left, if_neg (not_not.2 rfl), List.drop_left, hall, List.isEmpty_eq_false_iff.2 hdigits]
  exact stoi_decimal hi

/-- The lifting returns where every index can be read, and keeps the layers that have none. -/
theorem liftNorms_keeps {numLayers : Int} {layers : List LayerData}
    (h : ∀ ld ∈ layers, ∃ lq lk, normLayerIndex ld.name (str ".self_attn.q_norm") = .ok lq ∧
      normLayerIndex ld.name (str ".self_attn.k_norm") = .ok lk) (norms : List NormWeights) :
    ∃ kept lifted, liftNorms numLayers layers norms = .ok (kept, lifted) ∧
      (∀ ld ∈ kept, ld ∈ layers) ∧
        ∀ ld ∈ layers, normLayerIndex ld.name (str ".self_attn.q_norm") = .ok (-1) →
          normLayerIndex ld.name (str ".self_attn.k_norm") = .ok (-1) → ld ∈ kept := by
  induction layers generalizing norms with
  | nil => exact ⟨[], norms, rfl, nofun, nofun⟩
  | cons ld layers ih =>
    rw [List.forall_mem_cons] at h
    obtain ⟨⟨lq, lk, hlq, hlk⟩, hrest⟩ := h
    rw [liftNorms, hlq, ok_bind, hlk, ok_bind]
    split
    · rename_i hidx
      obtain ⟨kept, lifted, hrun, hsub, hkeep⟩ := ih hrest (liftNorm numLayers lq lk ld norms)
      refine ⟨kept, lifted, hrun, fun ld' h' => List.mem_cons_of_mem _ (hsub ld' h'), ?_⟩
      rw [List.forall_mem_cons]
      refine ⟨fun hq hk => ?_, hkeep⟩
      cases hlq.symm.trans hq
      cases hlk.symm.trans hk
      exact absurd hidx (by decide)
    · obtain ⟨kept, lifted, hrun, hsub, hkeep⟩ := ih hrest norms
      refine ⟨ld :: kept, lifted, by rw [hrun]; rfl, ?_, ?_⟩
      · intro ld' h'
        rcases List.mem_cons.1 h' with rfl | h'
        · exact List.mem_cons_self
        · exact List.mem_cons_of_mem _ (hsub ld' h')
      · rw [List.forall_mem_cons]
        exact ⟨fun _ _ => List.mem_cons_self,
          fun ld' h' hq hk => List.mem_cons_of_mem _ (hkeep ld' h' hq hk)⟩

/-! ## The names of the records -/

/-- A checkpoint has projection `sub` of layer `i`, on its own or as a part of a fused one. -/
def HasProjection (tensors : TensorMap) (i : Nat) (sub : Bytes) : Prop :=
  (tensors (layerPrefix i ++ sub ++ str ".weight")).isSome ∨
    (sub ∈ [str "self_attn.q_proj", str "self_attn.k_proj", str "self_attn.v_proj"] ∧
      (tensors (layerPrefix i ++ str "self_attn.qkv_proj" ++ str ".weight")).isSome)

section
variable {tensors : TensorMap} {cfg : ModelCfg} {numTerms : Nat}

/-- The records of a projection that is not fused. -/
theorem records_projection {i : Nat} {sub : Bytes} (hsub : sub ∈ layerSubmodules) (t : STTensor) :
    LinearRef.records cfg numTerms ⟨layerPrefix i ++ sub, t⟩ =
      [⟨layerPrefix i ++ sub, t.shape.headD 0, t.shape.tail.headD 1, 2,
        4 + numTerms * (4 + tableSize (t.shape.headD 0) (t.shape.tail.headD 1))⟩] := by
  have hplain : findSub (str "qkv_proj") sub = none :=
    (show ∀ sub ∈ layerSubmodules, findSub (str "qkv_proj") sub = none by decide) sub hsub
  have hquant : ∃ q ∈ quantNames, (findSub q sub).isSome :=
    (show ∀ sub ∈ layerSubmodules, ∃ q ∈ quantNames, (findSub q sub).isSome by decide) sub hsub
  obtain ⟨q, hq, hfind⟩ := hquant
  have hcontains : containsAny (layerPrefix i ++ sub) quantNames = true :=
    List.any_eq_true.2 ⟨q, hq, isSome_findSub_append hfind _⟩
  rw [LinearRef.records]
  dsimp only
  rw [findSub_layerPrefix, hplain, Option.map_none, if_neg (by decide), if_pos hcontains]
  rfl

/-- The names of the records of a fused projection. -/
theorem records_fused (i : Nat) (t : STTensor) :
    (LinearRef.records cfg numTerms ⟨layerPrefix i ++ str "self_attn.qkv_proj", t⟩).map
        RecordShape.name =
      [str "self_attn.q_proj", str "self_attn.k_proj", str "self_attn.v_proj"].map
        (layerPrefix i ++ ·) := by
  have hfused : (findSub (str "qkv_proj") (layerPrefix i ++ str "self_attn.qkv_proj")).isSome := by
    rw [findSub_layerPrefix, Option.isSome_map]
    decide
  have hparts : ∀ s : String, partName (layerPrefix i ++ str "self_attn.qkv_proj") (str s) =
      layerPrefix i ++ str ("self_attn." ++ s) := by
    intro s
    rw [partName_qkv, str_append]
  rw [LinearRef.records]
  dsimp only
  rw [if_pos hfused, hparts, hparts, hparts]
  rfl

theorem records_lmHead (t : STTensor) :
    LinearRef.records cfg numTerms ⟨str "lm_head", t⟩ =
      [LinearRef.rawRecord ⟨str "lm_head", t⟩] := by
  rw [LinearRef.records]
  dsimp only
  rw [if_neg (by decide), if_neg (by decide)]

/-- What `enumerate_linears` takes for a submodule: its own tensor or a fused one. -/
theorem layerLinear_eq_some {i : Nat} {sub : Bytes} {ref : LinearRef}
    (h : layerLinear tensors i sub = some ref) :
    (ref.name = layerPrefix i ++ sub ∧
        (tensors (layerPrefix i ++ sub ++ str ".weight")).isSome) ∨
      (ref.name = layerPrefix i ++ str "self_attn.qkv_proj" ∧
        (tensors (layerPrefix i ++ str "self_attn.qkv_proj" ++ str ".weight")).isSome) := by
  unfold layerLinear at h
  dsimp only at h
  split at h
  · rename_i t hfused
    cases h
    split at hfused
    · exact .inr ⟨rfl, Option.isSome_of_eq_some hfused⟩
    · cases hfused
  · obtain ⟨t, ht, rfl⟩ := Option.map_eq_some_iff.1 h
    exact .inl ⟨rfl, Option.isSome_of_eq_some ht⟩

/-- The records of a layer are named after projections that the checkpoint has. -/
theorem name_of_layerLinear {i : Nat} {sub : Bytes} (hsub : sub ∈ layerSubmodules)
    {ref : LinearRef} (h : layerLinear tensors i sub = some ref) {r : RecordShape}
    (hr : r ∈ ref.records cfg numTerms) :
    ∃ sub' ∈ layerSubmodules, r.name = layerPrefix i ++ sub' ∧ HasProjection tensors i sub' := by
  obtain ⟨name, t⟩ := ref
  rcases layerLinear_eq_some h with ⟨rfl, ht⟩ | ⟨rfl, ht⟩
  · rw [records_projection hsub, List.mem_singleton] at hr
    exact ⟨sub, hsub, by rw [hr], .inl ht⟩
  · have hname : r.name ∈ _ := List.mem_map_of_mem hr
    rw [records_fused, List.mem_map] at hname
    obtain ⟨part, hpart, hname⟩ := hname
    refine ⟨part, ?_, hname.symm, .inr ⟨hpart, ht⟩⟩
    exact (show ∀ part ∈ [str "self_attn.q_proj", str "self_attn.k_proj", str "self_attn.v_proj"],
      part ∈ layerSubmodules by decide) part hpart

/-- A projection that the checkpoint has gets a record. -/
theorem exists_record (cfg : ModelCfg) (numTerms : Nat) {i : Nat} {sub : Bytes}
    (hsub : sub ∈ layerSubmodules) (h : HasProjection tensors i sub) :
    ∃ s ∈ layerSubmodules, ∃ ref, layerLinear tensors i s = some ref ∧
      ∃ r ∈ ref.records cfg numTerms, r.name = layerPrefix i ++ sub := by
  cases hfused : tensors (layerPrefix i ++ str "self_attn.qkv_proj" ++ str ".weight") with
  | none =>
    rw [HasProjection, hfused] at h
    obtain ⟨t, ht⟩ := Option.isSome_iff_exists.1 (h.resolve_right fun h => absurd h.2 (by decide))
    refine ⟨sub, hsub, ⟨layerPrefix i ++ sub, t⟩, ?_, ?_⟩
    · simp only [layerLinear, hfused, ite_self, ht, Option.map_some]
    · rw [records_projection hsub]
      exact ⟨_, List.mem_singleton_self _, rfl⟩
  | some t =>
    by_cases hpart : sub ∈ [str "self_attn.q_proj", str "self_attn.k_proj", str "self_attn.v_proj"]
    · refine ⟨str "self_attn.q_proj", List.mem_cons_self,
        ⟨layerPrefix i ++ str "self_attn.qkv_proj", t⟩, ?_, ?_⟩
      · simp only [layerLinear, hfused, if_true]
      · have hname : layerPrefix i ++ sub ∈ (LinearRef.records cfg numTerms
            ⟨layerPrefix i ++ str "self_attn.qkv_proj", t⟩).map RecordShape.name := by
          rw [records_fused]
          exact List.mem_map_of_mem hpart
        exact List.mem_map.1 hname
    · obtain ⟨t', ht'⟩ := Option.isSome_iff_exists.1 (h.resolve_right fun h => hpart h.1)
      have hne : sub ≠ str "self_attn.q_proj" := by
        rintro rfl
        exact hpart List.mem_cons_self
      refine ⟨sub, hsub, ⟨layerPrefix i ++ sub, t'⟩, ?_, ?_⟩
      · simp only [layerLinear, if_neg hne, ht', Option.map_some]
      · rw [records_projection hsub]
        exact ⟨_, List.mem_singleton_self _, rfl⟩

theorem enumerateLinears_eq {linears : List LinearRef}
    (h : enumerateLinears tensors cfg = .ok linears) :
    ∃ t, linears = ((List.range cfg.numHiddenLayers.toNat).flatMap fun i =>
      layerSubmodules.filterMap (layerLinear tensors i)) ++ [⟨str "lm_head", t⟩] := by
  unfold enumerateLinears at h
  dsimp only at h
  split at h
  · cases h
    exact ⟨_, rfl⟩
  · split at h
    · cases h
      exact ⟨_, rfl⟩
    · cases h

/-- A record is that of a projection that the checkpoint has, of the output matrix, or of a
pseudo-layer. -/
theorem mem_exportRecords {linears : List LinearRef}
    (henum : enumerateLinears tensors cfg = .ok linears) {r : RecordShape}
    (h : r ∈ exportRecords cfg tensors numTerms) :
    (∃ i < cfg.numHiddenLayers.toNat, ∃ sub ∈ layerSubmodules,
        r.name = layerPrefix i ++ sub ∧ HasProjection tensors i sub) ∨
      r.name = str "lm_head" ∨
        ∃ i < cfg.numHiddenLayers.toNat, ∃ attr ∈ [str "q_norm", str "k_norm"],
          r.name = layerPrefix i ++ (str "self_attn." ++ attr) := by
  obtain ⟨t, rfl⟩ := enumerateLinears_eq henum
  rw [exportRecords, henum] at h
  rcases List.mem_append.1 h with h | h
  · obtain ⟨ref, href, hr⟩ := List.mem_flatMap.1 h
    rcases List.mem_append.1 href with href | href
    · obtain ⟨i, hi, href⟩ := List.mem_flatMap.1 href
      obtain ⟨sub, hsub, href⟩ := List.mem_filterMap.1 href
      obtain ⟨sub', hsub', hname⟩ := name_of_layerLinear hsub href hr
      exact .inl ⟨i, List.mem_range.1 hi, sub', hsub', hname⟩
    · rw [List.mem_singleton.1 href, records_lmHead, List.mem_singleton] at hr
      exact .inr (.inl (by rw [hr]; rfl))
  · obtain ⟨ref, href, rfl⟩ := List.mem_map.1 h
    have hnorm : ∀ attr : String, ref ∈ normRefs cfg tensors attr →
        ∃ i < cfg.numHiddenLayers.toNat,
          ref.name = layerPrefix i ++ (str "self_attn." ++ str attr) := by
      intro attr hmem
      obtain ⟨i, hi, hmem⟩ := List.mem_filterMap.1 hmem
      obtain ⟨t, -, rfl⟩ := Option.map_eq_some_iff.1 hmem
      exact ⟨i, List.mem_range.1 hi, List.append_assoc _ _ _⟩
    unfold allNormRefs at href
    split at href
    · rcases List.mem_append.1 href with href | href
      · obtain ⟨i, hi, hname⟩ := hnorm _ href
        exact .inr (.inr ⟨i, hi, _, by decide, hname⟩)
      · obtain ⟨i, hi, hname⟩ := hnorm _ href
        exact .inr (.inr ⟨i, hi, _, by decide, hname⟩)
    · cases href

theorem mem_exportRecords_of_layerLinear {linears : List LinearRef}
    (henum : enumerateLinears tensors cfg = .ok linears) {i : Nat}
    (hi : i < cfg.numHiddenLayers.toNat) {sub : Bytes} (hsub : sub ∈ layerSubmodules)
    {ref : LinearRef} (href : layerLinear tensors i sub = some ref) {r : RecordShape}
    (hr : r ∈ ref.records cfg numTerms) : r ∈ exportRecords cfg tensors numTerms := by
  obtain ⟨t, rfl⟩ := enumerateLinears_eq henum
  rw [exportRecords, henum]
  exact List.mem_append_left _ (List.mem_flatMap.2 ⟨ref, List.mem_append_left _
    (List.mem_flatMap.2 ⟨i, List.mem_range.2 hi, List.mem_filterMap.2 ⟨sub, hsub, href⟩⟩), hr⟩)

/-- A projection that cannot be fused is written as a block layer. -/
theorem exists_block_record {linears : List LinearRef}
    (henum : enumerateLinears tensors cfg = .ok linears) {i : Nat}
    (hi : i < cfg.numHiddenLayers.toNat) {sub : Bytes} (hsub : sub ∈ layerSubmodules)
    (hne : sub ≠ str "self_attn.q_proj")
    (h : (tensors (layerPrefix i ++ sub ++ str ".weight")).isSome) :
    ∃ r ∈ exportRecords cfg tensors numTerms, r.layerType = 2 := by
  obtain ⟨t, ht⟩ := Option.isSome_iff_exists.1 h
  have hlinear : layerLinear tensors i sub = some ⟨layerPrefix i ++ sub, t⟩ := by
    simp only [layerLinear, if_neg hne, ht, Option.map_some]
  obtain ⟨r, hr, htype⟩ : ∃ r ∈ LinearRef.records cfg numTerms ⟨layerPrefix i ++ sub, t⟩,
      r.layerType = 2 := by
    rw [records_projection hsub]
    exact ⟨_, List.mem_singleton_self _, rfl⟩
  exact ⟨r, mem_exportRecords_of_layerLinear henum hi hsub hlinear hr, htype⟩

/-- A layer's projection has a record exactly where the checkpoint has the projection. -/
theorem hasProjection_iff {linears : List LinearRef}
    (henum : enumerateLinears tensors cfg = .ok linears) {i : Nat}
    (hi : i < cfg.numHiddenLayers.toNat) {sub : Bytes} (hsub : sub ∈ layerSubmodules) :
    (∃ r ∈ exportRecords cfg tensors numTerms, r.name = layerPrefix i ++ sub) ↔
      HasProjection tensors i sub := by
  constructor
  · rintro ⟨r, hr, hname⟩
    rcases mem_exportRecords henum hr with ⟨i', -, sub', -, hname', hhas⟩ | hname' |
      ⟨i', -, attr, hattr, hname'⟩
    · obtain ⟨rfl, rfl⟩ := layerPrefix_inj (hname.symm.trans hname')
      exact hhas
    · have hfirst := congrArg (List.take 1) (hname.symm.trans hname')
      rw [layerPrefix, List.append_assoc, List.append_assoc,
        List.take_append_of_le_length (by decide)] at hfirst
      exact absurd hfirst (by decide)
    · obtain ⟨-, rfl⟩ := layerPrefix_inj (hname.symm.trans hname')
      exact absurd hsub ((show ∀ attr ∈ [str "q_norm", str "k_norm"],
        str "self_attn." ++ attr ∉ layerSubmodules by decide) attr hattr)
  · intro h
    obtain ⟨s, hs, ref, href, r, hr, hname⟩ := exists_record cfg numTerms hsub h
    exact ⟨r, mem_exportRecords_of_layerLinear henum hi hs href hr, hname⟩

end

/-! ## The written layers are read back -/

section
variable {D : Type} {ops : DecomposeOps F32 D} {cfg : ModelCfg} {tensors : TensorMap} {n : Nat}

theorem exportRecords_name_lt {linears : List LinearRef} (hcfg : cfg.Parsed)
    (henum : enumerateLinears tensors cfg = .ok linears) {r : RecordShape}
    (h : r ∈ exportRecords cfg tensors n) : r.name.length < 4294967296 := by
  have hlayers := hcfg.layers.2
  rcases mem_exportRecords henum h with ⟨i, hi, sub, hsub, hname, -⟩ | hname |
    ⟨i, hi, attr, hattr, hname⟩
  · have hpfx := layerPrefix_length_le (show i < 2147483648 by omega)
    have hlen := (show ∀ sub ∈ layerSubmodules, sub.length ≤ 20 by decide) sub hsub
    rw [hname, List.length_append]
    omega
  · rw [hname]
    decide
  · have hpfx := layerPrefix_length_le (show i < 2147483648 by omega)
    have hlen := (show ∀ attr ∈ [str "q_norm", str "k_norm"],
      (str "self_attn." ++ attr).length ≤ 20 by decide) attr hattr
    rw [hname, List.length_append]
    omega

/-- A written record that fits its layout is recognised. -/
theorem Written.framed {r : RecordShape} {L : OutLayer} (h : Written ops n r L) (hfit : r.Fits)
    (hpos : 1 ≤ n) (hname : r.name.length < 4294967296) : L.Framed := by
  obtain ⟨hnameEq, hout, hin, htype⟩ := h.header
  have hlen := (h.parses hfit hpos).1
  have hrows := hfit.rows_lt
  have hcols := hfit.cols_lt
  have htypeLe : L.layerType ≤ 2 := by
    rw [htype]
    cases h with
    | raw => exact (show (1 : UInt8) ≤ 2 by decide)
    | quant => exact (show (2 : UInt8) ≤ 2 by decide)
  rw [toInt32_of_lt hrows] at hout
  rw [toInt32_of_lt hcols] at hin
  exact ⟨hnameEq ▸ hname, by omega, by omega, htypeLe, hlen ▸ hfit.len_lt, hlen ▸ hfit.framing⟩

/-- The file of records that fit is read back where no block layer has more than 32 terms, and its
layers have the names of the records. -/
theorem load_written {records : List RecordShape} {layers : List OutLayer}
    (h : List.Forall₂ (Written ops n) records layers) (hpos : 1 ≤ n)
    (hcount : records.length < 4294967296) (hfits : ∀ r ∈ records, r.Fits)
    (hnames : ∀ r ∈ records, r.name.length < 4294967296) :
    ((∃ lds, loadDecomposedLayersAls (writeDecomposed layers) = .ok lds) ↔
        ∀ r ∈ records, r.layerType = 2 → n ≤ 32) ∧
      ∀ lds, loadDecomposedLayersAls (writeDecomposed layers) = .ok lds →
        lds.map LayerData.name = records.map RecordShape.name := by
  have hframed : ∀ L ∈ layers, L.Framed := by
    intro L hL
    obtain ⟨r, hr, hw⟩ := exists_mem_of_forall₂ h.flip hL
    exact Written.framed hw (hfits r hr) hpos (hnames r hr)
  rw [loadDecomposedLayersAls_framed (h.length_eq ▸ hcount) hframed]
  constructor
  · rw [exists_mapM_ok_iff]
    constructor
    · intro hparse r hr
      obtain ⟨L, hL, hw⟩ := exists_mem_of_forall₂ h hr
      exact (hw.parses (hfits r hr) hpos).2.1 (hparse L hL)
    · intro hterms L hL
      obtain ⟨r, hr, hw⟩ := exists_mem_of_forall₂ h.flip hL
      have hw : Written ops n r L := hw
      exact (hw.parses (hfits r hr) hpos).2.2 (hterms r hr)
  · intro lds hlds
    have hloaded := forall₂_of_mapM_ok hlds
    clear hcount hfits hnames hframed hlds
    induction h generalizing lds with
    | nil =>
      cases hloaded
      rfl
    | cons hw _ ih =>
      cases hloaded with
      | cons hparse hrest =>
        have hheader : _ = (OutLayer.blank _).header := (parseLayerTypeData_inv hparse).1
        have hname := (congrArg Prod.fst hheader).trans hw.header.1
        rw [List.map_cons, List.map_cons, ih _ hrest]
        exact congrArg (· :: _) hname

end

/-! ## After the layers are read -/

/-- The layers of a model whose pseudo-layers can all be lifted. -/
theorem finishModel_keeps (c : ModelConfig) (embedding finalNorm : List F32)
    (norms : List NormWeights) (tok : Tokenizer) {layers : List LayerData}
    (h : ∀ ld ∈ layers, ∃ lq lk, normLayerIndex ld.name (str ".self_attn.q_norm") = .ok lq ∧
      normLayerIndex ld.name (str ".self_attn.k_norm") = .ok lk) :
    ∃ m, finishModel c embedding finalNorm norms layers (.ok tok) = .ok m ∧
      m.cfg.numHiddenLayers = c.numHiddenLayers ∧ (∀ ld ∈ m.layers, ld ∈ layers) ∧
        ∀ ld ∈ layers, normLayerIndex ld.name (str ".self_attn.q_norm") = .ok (-1) →
          normLayerIndex ld.name (str ".self_attn.k_norm") = .ok (-1) → ld ∈ m.layers := by
  rw [finishModel, extractNorms]
  dsimp only
  split
  · obtain ⟨kept, lifted, hrun, hsub, hkeep⟩ := liftNorms_keeps h norms
    rw [hrun]
    exact ⟨_, rfl, fixHeadDim_numHiddenLayers c layers, hsub, hkeep⟩
  · exact ⟨_, rfl, fixHeadDim_numHiddenLayers c layers, fun _ hld => hld, fun _ hld _ _ => hld⟩

/-- The suffixes of the pseudo-layers. -/
def normSuffixes : List Bytes := [str ".self_attn.q_norm", str ".self_attn.k_norm"]

/-- A projection is not a pseudo-layer. -/
theorem normLayerIndex_projection (i : Nat) {sub suffix : Bytes} (hsub : sub ∈ layerSubmodules)
    (hsuffix : suffix ∈ normSuffixes) :
    normLayerIndex (layerPrefix i ++ sub) suffix = .ok (-1) := by
  have htail : sub.take (sub.length - 4) ++ str "proj" = sub :=
    (show ∀ sub ∈ layerSubmodules, sub.take (sub.length - 4) ++ str "proj" = sub by decide) sub hsub
  obtain ⟨hle, hne⟩ := (show ∀ suffix ∈ normSuffixes, (str "proj").length ≤ suffix.length ∧
    suffix.drop (suffix.length - (str "proj").length) ≠ str "proj" by decide) suffix hsuffix
  rw [← htail, ← List.append_assoc]
  exact normLayerIndex_of_tail hle hne _

/-- The index of every record of the converter can be read. -/
theorem exists_normLayerIndex {tensors : TensorMap} {cfg : ModelCfg} {n : Nat}
    {linears : List LinearRef} (hcfg : cfg.Parsed)
    (henum : enumerateLinears tensors cfg = .ok linears) {r : RecordShape}
    (h : r ∈ exportRecords cfg tensors n) {suffix : Bytes} (hsuffix : suffix ∈ normSuffixes) :
    ∃ idx, normLayerIndex r.name suffix = .ok idx := by
  have hlayers := hcfg.layers.2
  rcases mem_exportRecords henum h with ⟨i, hi, sub, hsub, hname, -⟩ | hname |
    ⟨i, hi, attr, hattr, hname⟩
  · rw [hname, normLayerIndex_projection i hsub hsuffix]
    exact ⟨_, rfl⟩
  · rw [hname]
    exact (show ∀ suffix ∈ normSuffixes, ∃ idx, normLayerIndex (str "lm_head") suffix = .ok idx from
      fun suffix h => ⟨-1, (show ∀ suffix ∈ normSuffixes,
        normLayerIndex (str "lm_head") suffix = .ok (-1) by decide) suffix h⟩) suffix hsuffix
  · rw [hname]
    by_cases heq : suffix = str ".self_attn." ++ attr
    · rw [heq, normLayerIndex_layerPrefix (by omega)]
      exact ⟨_, rfl⟩
    · obtain ⟨hle, hne⟩ := (show ∀ attr ∈ [str "q_norm", str "k_norm"], ∀ suffix ∈ normSuffixes,
        suffix ≠ str ".self_attn." ++ attr → attr.length ≤ suffix.length ∧
          suffix.drop (suffix.length - attr.length) ≠ attr by decide) attr hattr suffix hsuffix heq
      rw [← List.append_assoc, normLayerIndex_of_tail hle hne]
      exact ⟨_, rfl⟩

/-! ## Converter and loader -/

/-- The directory that `convert_model` leaves. -/
def convertedDir (path : String) (decomposed extra : Bytes) (tokenizer : Exec Tokenizer) :
    ModelDir where
  path := path
  extra := some extra
  decomposed := some decomposed
  tokenizer := tokenizer

/-- The loader takes the directory, and the layer list has the seven projections that
`transformer_block` looks up for every layer. -/
def LoaderAccepts (dir : ModelDir) : Prop :=
  ∃ m, loadModelFrom dir = .ok m ∧ ∀ i : Nat, (i : Int) < m.cfg.numHiddenLayers →
    ∀ sub ∈ layerSubmodules, ∃ ld ∈ m.layers, ld.name = layerPrefix i ++ sub

/-- Every record that the shapes of the tensors give fits its layout, and so does their number. -/
structure Framed (cfg : ModelCfg) (tensors : TensorMap) (numTerms : Nat) : Prop where
  count : (exportRecords cfg tensors numTerms).length < 4294967296
  fits : ∀ r ∈ exportRecords cfg tensors numTerms, r.Fits

/-- What the loader and the forward pass ask for on top of the checks of the converter. -/
structure Loadable (cfg : ModelCfg) (tensors : TensorMap) (numTerms : Int)
    (tokenizer : Exec Tokenizer) : Prop where
  config : cfg.Accepted
  offset : 36 + cfg.vocabSize * cfg.hiddenSize * 4 ≤ 2147483647
  terms : numTerms ≤ 32
  projections : ∀ i : Nat, (i : Int) < cfg.numHiddenLayers → ∀ sub ∈ layerSubmodules,
    HasProjection tensors i sub
  tokenizer : ∃ tok, tokenizer = .ok tok

/-- A converted model whose records fit is accepted by the loader, with all its projections, exactly
where it is loadable. -/
theorem converted_accepted_iff {D : Type} {ops : DecomposeOps F32 D} {numTerms : Int}
    {format : String} {j : JsonObject} {cfg : ModelCfg} {tensors : TensorMap}
    {decomposed extra : Bytes} (path : String) (tokenizer : Exec Tokenizer)
    (hcfg : parseConfig j = some cfg)
    (hrun : convertModel ops numTerms format j tensors = .ok (some (decomposed, extra)))
    (hframed : Framed cfg tensors numTerms.toNat) :
    LoaderAccepts (convertedDir path decomposed extra tokenizer) ↔
      Loadable cfg tensors numTerms tokenizer := by
  have hparsed := parseConfig_parsed hcfg
  obtain ⟨hpos, hextra, ⟨linears, henum⟩, layers, rfl, hwritten⟩ := convertModel_written hcfg hrun
  obtain ⟨w, hw, hfile⟩ := bind_eq_ok.1 hextra
  cases hfile
  have hshape := extraWeights_shape hw
  have hlayers := hparsed.layers
  obtain ⟨hterms, hnames⟩ := load_written hwritten (by omega) hframed.count hframed.fits
    fun r hr => exportRecords_name_lt hparsed henum hr
  -- the record of a layer that is read back
  have hrecord : ∀ lds, loadDecomposedLayersAls (writeDecomposed layers) = .ok lds →
      ∀ ld ∈ lds, ∃ r ∈ exportRecords cfg tensors numTerms.toNat, r.name = ld.name := by
    intro lds hlds ld hld
    have hname : ld.name ∈ lds.map LayerData.name := List.mem_map_of_mem hld
    rw [hnames lds hlds] at hname
    exact List.mem_map.1 hname
  have hindex : ∀ lds, loadDecomposedLayersAls (writeDecomposed layers) = .ok lds →
      ∀ ld ∈ lds, ∃ lq lk, normLayerIndex ld.name (str ".self_attn.q_norm") = .ok lq ∧
        normLayerIndex ld.name (str ".self_attn.k_norm") = .ok lk := by
    intro lds hlds ld hld
    obtain ⟨r, hr, hname⟩ := hrecord lds hlds ld hld
    obtain ⟨lq, hlq⟩ := exists_normLayerIndex hparsed henum hr
      (show str ".self_attn.q_norm" ∈ normSuffixes by decide)
    obtain ⟨lk, hlk⟩ := exists_normLayerIndex hparsed henum hr
      (show str ".self_attn.k_norm" ∈ normSuffixes by decide)
    rw [hname] at hlq hlk
    exact ⟨lq, lk, hlq, hlk⟩
  constructor
  · rintro ⟨m, hm, hproj⟩
    obtain ⟨c, hc, hm⟩ := bind_eq_ok.1 hm
    rw [loadConfig_header hparsed] at hc
    split at hc
    · rename_i haccepted
      cases hc
      obtain ⟨embedding, -, hm⟩ := bind_eq_ok.1 hm
      obtain ⟨finalNorm, hfinal, hm⟩ := bind_eq_ok.1 hm
      obtain ⟨norms, -, hm⟩ := bind_eq_ok.1 hm
      obtain ⟨lds, hlds, hm⟩ := bind_eq_ok.1 hm
      have htok : ∃ tok, tokenizer = .ok tok := by
        obtain ⟨_, -, hm⟩ := bind_eq_ok.1 hm
        obtain ⟨tok, htok, -⟩ := bind_eq_ok.1 hm
        exact ⟨tok, htok⟩
      obtain ⟨tok, rfl⟩ := htok
      obtain ⟨m', hm', hcount, hsub, -⟩ := finishModel_keeps cfg.effective embedding
        finalNorm norms tok (hindex lds hlds)
      cases hm'.symm.trans hm
      have hhas : ∀ i : Nat, (i : Int) < cfg.numHiddenLayers → ∀ sub ∈ layerSubmodules,
          HasProjection tensors i sub := by
        intro i hi sub hsubmodule
        obtain ⟨ld, hld, hname⟩ := hproj i (hcount ▸ hi) sub hsubmodule
        obtain ⟨r, hr, hr'⟩ := hrecord lds hlds ld (hsub ld hld)
        exact (hasProjection_iff henum (by omega) hsubmodule).1 ⟨r, hr, hr'.trans hname⟩
      refine ⟨haccepted, le_of_loadFinalNorm hfinal, ?_, hhas, tok, rfl⟩
      -- the output projection of the first layer is a block layer
      have ho := (hhas 0 (by omega) (str "self_attn.o_proj") (by decide)).resolve_right
        fun h => absurd h.1 (by decide)
      obtain ⟨r, hr, htype⟩ : ∃ r ∈ exportRecords cfg tensors numTerms.toNat, r.layerType = 2 :=
        exists_block_record henum (show 0 < cfg.numHiddenLayers.toNat by omega) (by decide)
          (by decide) ho
      have hle := hterms.1 ⟨lds, hlds⟩ r hr htype
      omega
    · cases hc
  · rintro ⟨haccepted, hoffset, hle, hhas, tok, rfl⟩
    have hhidden : cfg.hiddenSize * 4 ≤ 2147483647 := by
      have hone : 1 * cfg.hiddenSize ≤ cfg.vocabSize * cfg.hiddenSize :=
        Int.mul_le_mul_of_nonneg_right hparsed.vocab.1 (by have h := hparsed.hidden.1; omega)
      omega
    obtain ⟨lds, hlds⟩ := hterms.2 fun _ _ _ => by omega
    obtain ⟨m, hm, hcount, -, hkeep⟩ := finishModel_keeps cfg.effective w.embedding w.finalNorm
      w.layerNorms tok (hindex lds hlds)
    refine ⟨m, ?_, fun i hi sub hsub => ?_⟩
    · have hconfig : loadConfig (path ++ "/model_extra.bin") (cfg.header ++ w.bytes) =
          .ok cfg.effective := by
        rw [loadConfig_header hparsed, if_pos haccepted]
      rw [loadModelFrom, convertedDir]
      dsimp only
      rw [hconfig, ok_bind, loadEmbedding_ok hshape (by omega), ok_bind,
        loadFinalNorm_ok hparsed hshape hoffset, ok_bind, loadLayerNorms_ok hparsed hshape hhidden,
        ok_bind, hlds, ok_bind, hm]
    · have hcount : m.cfg.numHiddenLayers = cfg.numHiddenLayers := hcount
      have hi : (i : Int) < cfg.numHiddenLayers := hcount ▸ hi
      obtain ⟨r, hr, hname⟩ : ∃ r ∈ exportRecords cfg tensors numTerms.toNat,
          r.name = layerPrefix i ++ sub :=
        (hasProjection_iff henum (by omega) hsub).2 (hhas i hi sub hsub)
      have hmem : r.name ∈ lds.map LayerData.name := by
        rw [hnames lds hlds]
        exact List.mem_map_of_mem hr
      obtain ⟨ld, hld, hldName⟩ := List.mem_map.1 hmem
      have hname : ld.name = layerPrefix i ++ sub := hldName.trans hname
      refine ⟨ld, hkeep ld hld ?_ ?_, hname⟩
      · rw [hname]
        exact normLayerIndex_projection i hsub (by decide)
      · rw [hname]
        exact normLayerIndex_projection i hsub (by decide)

/-! ## Two small checkpoints -/

/-- A square tensor of zeros. -/
def zeroSquare : STTensor := ⟨[2, 2], [0, 0, 0, 0], rfl, by decide⟩

/-- A vector of zeros. -/
def zeroVector : STTensor := ⟨[2], [0, 0], rfl, by decide⟩

/-- The tensors of a model of one layer with tied embeddings. -/
def squareTensors : TensorMap := fun name =>
  if name = str "model.embed_tokens.weight" ∨
      name ∈ layerSubmodules.map (fun sub => layerPrefix 0 ++ sub ++ str ".weight") then
    some zeroSquare
  else if name ∈ [layerPrefix 0 ++ str "input_layernorm.weight",
      layerPrefix 0 ++ str "post_attention_layernorm.weight"] then some zeroVector
  else none

/-- The small model with a context of more than a million tokens. -/
def longConfig : JsonObject := fun key =>
  if key = "max_position_embeddings" then some (.integer 1010000 0x49769500) else smallConfig key

/-- What `parse_config` makes of it. -/
def longCfg : ModelCfg := { smallCfg with maxPositionEmbeddings := 1010000 }

theorem exists_run_square {j : JsonObject} (h : j = smallConfig ∨ j = longConfig) :
    ∃ decomposed extra,
      convertModel ratOps 1 "als" j squareTensors = .ok (some (decomposed, extra)) := by
  have hrun : (convertModel ratOps 1 "als" j squareTensors).toOption.join.isSome = true := by
    rcases h with rfl | rfl
    · decide +kernel
    · decide +kernel
  obtain ⟨⟨decomposed, extra⟩, hfiles⟩ := Option.isSome_iff_exists.1 hrun
  rw [Option.join_eq_some_iff] at hfiles
  refine ⟨decomposed, extra, ?_⟩
  cases hres : convertModel ratOps 1 "als" j squareTensors with
  | error e =>
    rw [hres] at hfiles
    cases hfiles
  | ok files =>
    rw [hres] at hfiles
    cases hfiles
    rfl

/-- The model with the long context is converted, and the loader refuses its configuration. -/
theorem not_accepted_longContext : ∃ decomposed extra,
    convertModel ratOps 1 "als" longConfig squareTensors = .ok (some (decomposed, extra)) ∧
      ¬ LoaderAccepts (convertedDir "model" decomposed extra (.ok default)) := by
  obtain ⟨decomposed, extra, hrun⟩ := exists_run_square (.inr rfl)
  have hcfg : parseConfig longConfig = some longCfg := by decide
  refine ⟨decomposed, extra, hrun, ?_⟩
  rintro ⟨m, hm, -⟩
  obtain ⟨-, hextra, -⟩ := convertModel_written hcfg hrun
  obtain ⟨w, -, hfile⟩ := bind_eq_ok.1 hextra
  cases hfile
  obtain ⟨c, hc, -⟩ := bind_eq_ok.1 hm
  rw [loadConfig_header (parseConfig_parsed hcfg), if_neg (by decide)] at hc
  exact absurd hc (raise_ne_ok _ _)

/-- The small model is converted and accepted. -/
theorem accepted_square : ∃ decomposed extra,
    convertModel ratOps 1 "als" smallConfig squareTensors = .ok (some (decomposed, extra)) ∧
      LoaderAccepts (convertedDir "model" decomposed extra (.ok default)) := by
  obtain ⟨decomposed, extra, hrun⟩ := exists_run_square (.inl rfl)
  have hcfg : parseConfig smallConfig = some smallCfg := by decide
  have hframed : Framed smallCfg squareTensors (1 : Int).toNat := by
    have hrecords : ∀ r ∈ exportRecords smallCfg squareTensors (1 : Int).toNat,
        r.rows < 2147483648 ∧ r.cols < 2147483648 ∧ r.len < 4294967296 ∧ r.len % 16777216 ≠ 0 ∧
          (r.layerType = 2 → tableSize r.rows r.cols ≤ 2147483647) := by decide +kernel
    refine ⟨by decide +kernel, fun r hr => ?_⟩
    obtain ⟨hrows, hcols, hlen, hframing, htable⟩ := hrecords r hr
    exact ⟨hrows, hcols, hlen, hframing, htable⟩
  refine ⟨decomposed, extra, hrun,
    (converted_accepted_iff "model" (.ok default) hcfg hrun hframed).2 ?_⟩
  refine ⟨by decide, by decide, by decide, fun i hi sub hsub => .inl ?_, default, rfl⟩
  obtain rfl : i = 0 := by
    have hone : smallCfg.numHiddenLayers = 1 := rfl
    omega
  exact (show ∀ sub ∈ layerSubmodules,
    (squareTensors (layerPrefix 0 ++ sub ++ str ".weight")).isSome by decide +kernel) sub hsub

end Terllama
