import Terllama.Loader.CutRecords

/-!
# Truncated models

What `load_model_from` makes of a directory of which one file was cut short. A shorter
`model_extra.bin` is never rejected: within its header `load_config` uses a variable that was not
read, and after it the readers pad with zeros. A shorter `model_decomposed.bin` is rejected in the
one case of `readAlsLayers_cut`, which `rejected_iff` states for whole directories.
-/

namespace Terllama

/-! ## A header that was cut -/

/-- The stream after `i` words of a file. -/
def afterWords (file : Bytes) (i : Nat) : InStream :=
  if 4 * i ≤ file.length then ⟨file.drop (4 * i), false⟩ else ⟨[], true⟩

/-- Word `i` of a file. -/
def wordAt (file : Bytes) (i : Nat) : Option Bytes :=
  if 4 * i + 4 ≤ file.length then some ((file.drop (4 * i)).take 4) else none

theorem readVar_afterWords (file : Bytes) (i : Nat) :
    readVar (afterWords file i) = .ok (wordAt file i, afterWords file (i + 1)) := by
  unfold afterWords wordAt readVar
  by_cases hi : 4 * i ≤ file.length
  · rw [if_pos hi, if_neg Bool.false_ne_true, List.length_drop]
    by_cases hw : 4 * i + 4 ≤ file.length
    · rw [if_neg (by omega), if_pos hw, if_pos (by omega), List.drop_drop]
      rfl
    · rw [if_pos (by omega), if_neg hw, if_neg (by omega)]
  · rw [if_neg hi, if_pos rfl, if_neg (by omega), if_neg (by omega)]

/-- A word of a file that was cut is the word of the whole file, or missing. -/
theorem wordAt_take {file : Bytes} {k : Nat} (hk : k ≤ file.length) (i : Nat) :
    wordAt (file.take k) i = if 4 * i + 4 ≤ k then wordAt file i else none := by
  unfold wordAt
  rw [List.length_take, min_eq_left hk]
  by_cases hi : 4 * i + 4 ≤ k
  · rw [if_pos hi, if_pos hi, if_pos (by omega), List.drop_take, List.take_take,
      min_eq_left (by omega)]
  · rw [if_neg hi, if_neg hi]

/-- The variables of `load_config` after its reads. -/
def headerOf (file : Bytes) : ConfigHeader where
  vs := (wordAt file 0).map intOf
  hs := (wordAt file 1).map intOf
  is := (wordAt file 2).map intOf
  nl := (wordAt file 3).map intOf
  nah := (wordAt file 4).map intOf
  nkv := (wordAt file 5).map intOf
  rne := (wordAt file 6).map F32.ofBytes
  rt := (wordAt file 7).map F32.ofBytes
  mpe := (wordAt file 8).map intOf

theorem readHeader_open (file : Bytes) :
    readHeader (.open file) = .ok (headerOf file, afterWords file 9) := by
  have hopen : InStream.open file = afterWords file 0 := by
    rw [afterWords, if_pos (Nat.zero_le _)]
    rfl
  simp only [hopen, readHeader, StreamM.bind_apply, readVar_afterWords, ok_bind,
    StreamM.pure_apply]
  rfl

theorem loadConfig_eq (path : String) (file : Bytes) :
    loadConfig path file = (do
      if ← (headerOf file).checks.anyM id then
        raise ("Invalid model config in " ++ path ++ " (truncated or corrupt model header)")
      else (headerOf file).config) := by
  rw [loadConfig, readHeader_open, ok_bind]

/-- A cut behind the header leaves the configuration as it was. -/
theorem loadConfig_take {file : Bytes} {k : Nat} (hk : k ≤ file.length) (hheader : 36 ≤ k)
    (path : String) : loadConfig path (file.take k) = loadConfig path file := by
  have hsame : headerOf (file.take k) = headerOf file := by
    have hword : ∀ i < 9, wordAt (file.take k) i = wordAt file i := fun i hi => by
      rw [wordAt_take hk, if_pos (by omega)]
    simp only [headerOf, hword 0 (by omega), hword 1 (by omega), hword 2 (by omega),
      hword 3 (by omega), hword 4 (by omega), hword 5 (by omega), hword 6 (by omega),
      hword 7 (by omega), hword 8 (by omega)]
  rw [loadConfig_eq, loadConfig_eq, hsame]

/-- A test of a variable that may have lost its value. -/
theorem notPositive_lost {x x' : Option Int} (h : x' = x ∨ x' = none) :
    notPositive x' = notPositive x ∨
      notPositive x' = undefined "use of an uninitialised variable" := by
  rcases h with rfl | rfl
  · exact .inl rfl
  · exact .inr rfl

/-- A cut in the header makes `load_config` use a variable without a value. -/
theorem loadConfig_cut {file : Bytes} {k : Nat} (hk : k ≤ file.length) (hheader : k < 36)
    {path : String} {cfg : ModelConfig} (h : loadConfig path file = .ok cfg) :
    loadConfig path (file.take k) = undefined "use of an uninitialised variable" := by
  rw [loadConfig_eq] at h ⊢
  obtain ⟨b, hchecks, h⟩ := bind_eq_ok.1 h
  cases b with
  | true => cases h
  | false =>
  have hall := eq_ok_false_of_anyM hchecks
  have hword : ∀ i, wordAt (file.take k) i = wordAt file i ∨ wordAt (file.take k) i = none := by
    intro i
    rw [wordAt_take hk]
    split
    · exact .inl rfl
    · exact .inr rfl
  have hvar : ∀ i, (wordAt (file.take k) i).map intOf = (wordAt file i).map intOf ∨
      (wordAt (file.take k) i).map intOf = none := fun i =>
    (hword i).imp (congrArg _) (congrArg (Option.map intOf))
  have hlast : (wordAt (file.take k) 8).map intOf = none := by
    rw [wordAt_take hk, if_neg (by omega)]
    rfl
  simp only [ConfigHeader.checks, headerOf, List.forall_mem_cons, List.not_mem_nil,
    false_implies, implies_true, and_true] at hall
  obtain ⟨h₀, h₁, h₂, h₃, h₄, h₅, h₆, h₇, h₈⟩ := hall
  rw [anyM_eq_error (e := .undefined "use of an uninitialised variable")]
  · rfl
  · simp only [ConfigHeader.checks, headerOf, List.forall_mem_cons, List.not_mem_nil,
      false_implies, implies_true, and_true]
    refine ⟨?_, ?_, ?_, ?_, ?_, ?_, ?_, ?_, ?_⟩
    · exact (notPositive_lost (hvar 0)).imp (·.trans h₀) id
    · exact (notPositive_lost (hvar 1)).imp (·.trans h₁) id
    · exact (notPositive_lost (hvar 2)).imp (·.trans h₂) id
    · exact (notPositive_lost (hvar 3)).imp (·.trans h₃) id
    · exact (notPositive_lost (hvar 4)).imp (·.trans h₄) id
    · exact (notPositive_lost (hvar 5)).imp (·.trans h₅) id
    · rcases hvar 1 with h1 | h1
      · rcases hvar 4 with h4 | h4
        · rw [h1, h4]
          exact .inl h₆
        · rw [h1, h4]
          cases (wordAt file 1).map intOf with
          | none => exact .inr rfl
          | some hs => exact .inr rfl
      · rw [h1]
        exact .inr rfl
    · exact (notPositive_lost (hvar 8)).imp (·.trans h₇) id
    · rw [hlast]
      exact .inr rfl
  · simp only [ConfigHeader.checks, headerOf, hlast]
    exact List.mem_of_getElem? (i := 7) rfl

/-! ## Weights that were cut -/

/-- A reader of the embedding that returned once returns on every file. -/
theorem loadEmbedding_returns {file : Bytes} {cfg : ModelConfig} {ws : List F32}
    (h : loadEmbedding file cfg = .ok ws) (file' : Bytes) :
    ∃ ws', loadEmbedding file' cfg = .ok ws' := by
  obtain ⟨entries, hentries, h⟩ := bind_eq_ok.1 h
  obtain ⟨u, halloc, -⟩ := bind_eq_ok.1 h
  obtain ⟨ws', s', hread, -⟩ := readFloats_ok (sizeT entries) (.openAt file' 36)
  refine ⟨ws', ?_⟩
  rw [loadEmbedding, hentries, ok_bind]
  dsimp only
  rw [halloc, ok_bind, hread]
  rfl

theorem loadFinalNorm_returns {file : Bytes} {cfg : ModelConfig} {ws : List F32}
    (h : loadFinalNorm file cfg = .ok ws) (file' : Bytes) :
    ∃ ws', loadFinalNorm file' cfg = .ok ws' := by
  obtain ⟨entries, hentries, h⟩ := bind_eq_ok.1 h
  obtain ⟨bytes, hbytes, h⟩ := bind_eq_ok.1 h
  obtain ⟨offset, hoffset, h⟩ := bind_eq_ok.1 h
  obtain ⟨u, halloc, -⟩ := bind_eq_ok.1 h
  obtain ⟨ws', s', hread, -⟩ := readFloats_ok (sizeT cfg.hiddenSize) (.openAt file' offset)
  refine ⟨ws', ?_⟩
  rw [loadFinalNorm, hentries, ok_bind, hbytes, ok_bind, hoffset, ok_bind]
  dsimp only
  rw [halloc, ok_bind, hread]
  rfl

theorem readNormPair_returns {cfg : ModelConfig} {s s' : InStream} {n : NormWeights}
    (h : readNormPair cfg s = .ok (n, s')) (s₁ : InStream) :
    ∃ n' s₁', readNormPair cfg s₁ = .ok (n', s₁') := by
  obtain ⟨u, s₂, halloc, h⟩ := StreamM.bind_eq_ok.1 h
  obtain ⟨norm, s₃, hnorm, -⟩ := StreamM.bind_eq_ok.1 h
  rw [StreamM.liftM_apply] at halloc hnorm
  obtain ⟨u, halloc, -⟩ := bind_eq_ok.1 halloc
  obtain ⟨norm, hnorm, -⟩ := bind_eq_ok.1 hnorm
  obtain ⟨a, s₄, ha, -⟩ := readFloats_ok (sizeT cfg.hiddenSize) s₁
  obtain ⟨b, s₅, hb, -⟩ := readFloats_ok (sizeT cfg.hiddenSize) s₄
  refine ⟨{ inputLayernorm := a, postAttentionLayernorm := b }, s₅, ?_⟩
  simp only [readNormPair, StreamM.bind_apply, StreamM.liftM_apply, halloc, hnorm, ok_bind, ha, hb, StreamM.pure_apply]

theorem readNormPairs_returns {cfg : ModelConfig} {n : Nat} {s s' : InStream}
    {norms : List NormWeights} (h : readNormPairs cfg n s = .ok (norms, s')) (s₁ : InStream) :
    ∃ norms' s₁', readNormPairs cfg n s₁ = .ok (norms', s₁') ∧ norms'.length = norms.length := by
  induction n generalizing s norms s₁ with
  | zero =>
    cases h
    exact ⟨[], s₁, rfl, rfl⟩
  | succ n ih =>
    obtain ⟨norm, s₂, hnorm, h⟩ := StreamM.bind_eq_ok.1 h
    obtain ⟨rest, s₃, hrest, h⟩ := StreamM.bind_eq_ok.1 h
    cases h
    obtain ⟨norm', s₄, hnorm'⟩ := readNormPair_returns hnorm s₁
    obtain ⟨rest', s₅, hrest', hlen⟩ := ih hrest s₄
    refine ⟨norm' :: rest', s₅, ?_, congrArg Nat.succ hlen⟩
    simp only [readNormPairs, StreamM.bind_apply, hnorm', ok_bind, hrest', StreamM.pure_apply]

theorem loadLayerNorms_returns {file : Bytes} {cfg : ModelConfig} {norms : List NormWeights}
    (h : loadLayerNorms file cfg = .ok norms) (file' : Bytes) :
    ∃ norms', loadLayerNorms file' cfg = .ok norms' ∧ norms'.length = norms.length := by
  obtain ⟨entries, hentries, h⟩ := bind_eq_ok.1 h
  obtain ⟨bytes, hbytes, h⟩ := bind_eq_ok.1 h
  obtain ⟨start, hstart, h⟩ := bind_eq_ok.1 h
  obtain ⟨norm, hnorm, h⟩ := bind_eq_ok.1 h
  obtain ⟨offset, hoffset, h⟩ := bind_eq_ok.1 h
  obtain ⟨u, halloc, h⟩ := bind_eq_ok.1 h
  obtain ⟨⟨norms₀, s⟩, hread, h⟩ := bind_eq_ok.1 h
  cases h
  obtain ⟨norms', s', hread', hlen⟩ := readNormPairs_returns hread (.openAt file' offset)
  refine ⟨norms', ?_, hlen⟩
  rw [loadLayerNorms, hentries, ok_bind, hbytes, ok_bind, hstart, ok_bind, hnorm, ok_bind,
    hoffset, ok_bind, halloc, ok_bind, hread', ok_bind]
  rfl

/-! ## After the layers -/

/-- The loop over the layer list looks at the names only, apart from the norms it stores. -/
theorem liftNorms_returns {numLayers : Int} {layers layers' kept : List LayerData}
    {norms lifted : List NormWeights} (h : liftNorms numLayers layers norms = .ok (kept, lifted))
    (hnames : layers'.map LayerData.name = layers.map LayerData.name) (norms' : List NormWeights) :
    ∃ r, liftNorms numLayers layers' norms' = .ok r := by
  induction layers generalizing layers' kept norms lifted norms' with
  | nil =>
    rw [List.map_nil, List.map_eq_nil_iff] at hnames
    exact ⟨_, by rw [hnames]; rfl⟩
  | cons ld layers ih =>
    obtain ⟨ld', rest', rfl, hname, hrest⟩ := List.map_eq_cons_iff.1 hnames
    obtain ⟨lq, hlq, h⟩ := bind_eq_ok.1 h
    obtain ⟨lk, hlk, h⟩ := bind_eq_ok.1 h
    rw [liftNorms, hname, hlq, ok_bind, hlk, ok_bind]
    split at h
    · rename_i hindex
      rw [if_pos hindex]
      exact ih h hrest _
    · rename_i hindex
      obtain ⟨p, hp, -⟩ := bind_eq_ok.1 h
      obtain ⟨r, hr⟩ := ih hp hrest norms'
      rw [if_neg hindex, hr]
      exact ⟨_, rfl⟩

/-- What follows the readers returns whenever it returned for layers of the same names. -/
theorem finishModel_returns {cfg : ModelConfig} {emb fn : List F32} (emb' fn' : List F32)
    {norms norms' : List NormWeights} {layers layers' : List LayerData} {tok : Exec Tokenizer}
    {m : LoadedModel} (h : finishModel cfg emb fn norms layers tok = .ok m)
    (hnorms : norms'.length = norms.length)
    (hnames : layers'.map LayerData.name = layers.map LayerData.name) :
    ∃ m', finishModel cfg emb' fn' norms' layers' tok = .ok m' := by
  obtain ⟨⟨kept, lifted⟩, hlift, h⟩ := bind_eq_ok.1 h
  obtain ⟨t, ht, -⟩ := bind_eq_ok.1 h
  have hlift' : ∃ r, extractNorms (fixHeadDim cfg layers') layers' norms' = .ok r := by
    unfold extractNorms at hlift ⊢
    rw [fixHeadDim_numHiddenLayers, hnorms]
    rw [fixHeadDim_numHiddenLayers] at hlift
    split at hlift
    · rename_i hguard
      rw [if_pos hguard]
      exact liftNorms_returns hlift hnames norms'
    · rename_i hguard
      rw [if_neg hguard]
      exact ⟨_, rfl⟩
  obtain ⟨⟨kept', lifted'⟩, hr⟩ := hlift'
  exact ⟨_, by rw [finishModel]; dsimp only; rw [hr, ok_bind, ht]; rfl⟩

/-! ## A directory with one file cut -/

/-- A directory whose two files the loader reads whole, to their last byte. -/
structure ValidPair (dir : ModelDir) (extra decomposed : Bytes) : Prop where
  extra_eq : dir.extra = some extra
  decomposed_eq : dir.decomposed = some decomposed
  loads : ∃ m, loadModelFrom dir = .ok m
  extra_whole : ∀ cfg, loadConfig (dir.path ++ "/model_extra.bin") extra = .ok cfg →
    (extra.length : Int) = 36 + cfg.vocabSize * cfg.hiddenSize * 4 + cfg.hiddenSize * 4 +
      cfg.numHiddenLayers * (cfg.hiddenSize * 8)
  decomposed_whole : ∃ n s lds, readAlsHeader (.open decomposed) = .ok (n, s) ∧
    readAlsLayers n.toNat s = .ok (lds, ⟨[], false⟩)

/-- One file of a pair and the number of bytes that are left of it. -/
inductive Truncation where
  | extra (k : Nat)
  | decomposed (k : Nat)
  deriving DecidableEq, Repr

/-- The directory with that file cut. -/
def ModelDir.cut (dir : ModelDir) : Truncation → ModelDir
  | .extra k => { dir with extra := dir.extra.map (List.take k) }
  | .decomposed k => { dir with decomposed := dir.decomposed.map (List.take k) }

/-- What is left is a strict prefix. -/
def Truncation.Strict (extra decomposed : Bytes) : Truncation → Prop
  | .extra k => k < extra.length
  | .decomposed k => k < decomposed.length

/-- The loader throws. -/
def Rejected (dir : ModelDir) : Prop := ∃ what, loadModelFrom dir = raise what

/-- The cut falls into the payload of a multi-term record of `model_decomposed.bin` and loses one of
its terms. -/
def Truncation.Loses (decomposed : Bytes) : Truncation → Prop
  | .extra _ => False
  | .decomposed k => 8 ≤ k ∧ ∃ records lds, RecordsOf decomposed records lds ∧
      CutLoses records (k - 8)

/-- A truncated pair is rejected exactly where a multi-term payload loses a term. -/
theorem rejected_iff {dir : ModelDir} {extra decomposed : Bytes}
    (h : ValidPair dir extra decomposed) {t : Truncation} (ht : t.Strict extra decomposed) :
    Rejected (dir.cut t) ↔ t.Loses decomposed := by
  obtain ⟨m, hload⟩ := h.loads
  rw [loadModelFrom, h.extra_eq] at hload
  dsimp only at hload
  obtain ⟨cfg, hcfg, hload⟩ := bind_eq_ok.1 hload
  obtain ⟨emb, hemb, hload⟩ := bind_eq_ok.1 hload
  obtain ⟨fn, hfn, hload⟩ := bind_eq_ok.1 hload
  obtain ⟨norms, hnorms, hload⟩ := bind_eq_ok.1 hload
  rw [h.decomposed_eq] at hload
  dsimp only at hload
  obtain ⟨lds, hlds, hfinish⟩ := bind_eq_ok.1 hload
  cases t with
  | extra k =>
    have hk : k < extra.length := ht
    refine ⟨?_, False.elim⟩
    rintro ⟨what, hraise⟩
    rw [loadModelFrom, ModelDir.cut, h.extra_eq] at hraise
    dsimp only [Option.map_some] at hraise
    rcases Nat.lt_or_ge k 36 with hheader | hheader
    · rw [loadConfig_cut hk.le hheader hcfg] at hraise
      cases hraise
    · obtain ⟨emb', hemb'⟩ := loadEmbedding_returns hemb (extra.take k)
      obtain ⟨fn', hfn'⟩ := loadFinalNorm_returns hfn (extra.take k)
      obtain ⟨norms', hnorms', hlen⟩ := loadLayerNorms_returns hnorms (extra.take k)
      obtain ⟨m', hm'⟩ := finishModel_returns emb' fn' hfinish hlen rfl
      rw [loadConfig_take hk.le hheader, hcfg, ok_bind, hemb', ok_bind, hfn', ok_bind, hnorms',
        ok_bind, h.decomposed_eq] at hraise
      dsimp only at hraise
      rw [hlds, ok_bind, hm'] at hraise
      cases hraise
  | decomposed k =>
    have hk : k < decomposed.length := ht
    obtain ⟨n, s, lds', hhead, hread⟩ := h.decomposed_whole
    obtain rfl : lds' = lds := by
      rw [loadDecomposedLayersAls, hhead, ok_bind] at hlds
      dsimp only at hlds
      rw [hread] at hlds
      cases hlds
      rfl
    have hrun : loadModelFrom (dir.cut (.decomposed k)) = (do
        let layers ← loadDecomposedLayersAls (decomposed.take k)
        finishModel cfg emb fn norms layers dir.tokenizer) := by
      rw [loadModelFrom, ModelDir.cut, h.extra_eq]
      dsimp only
      rw [hcfg, ok_bind, hemb, ok_bind, hfn, ok_bind, hnorms, ok_bind, h.decomposed_eq]
      rfl
    rw [Rejected, hrun]
    constructor
    · rintro ⟨what, hraise⟩
      obtain ⟨records, hrecords⟩ := exists_recordsOf hhead hread
      obtain ⟨-, hkept, hret⟩ := loadDecomposedLayersAls_cut hrecords hk
      by_contra hno
      have hquiet := hkept fun hl => hno ⟨hl.1, records, _, hrecords, hl.2⟩
      refine hquiet.bind (fun layers hlayers => ?_) what hraise
      obtain ⟨m', hm'⟩ := finishModel_returns emb fn hfinish rfl
        (hret layers hlayers)
      rw [hm']
      exact quiet_ok m'
    · rintro ⟨height, records, lds', hrecords, hloses⟩
      obtain ⟨hlost, -⟩ := loadDecomposedLayersAls_cut hrecords hk
      obtain ⟨what, hraise⟩ := hlost ⟨height, hloses⟩
      exact ⟨what, by rw [hraise]; rfl⟩

/-- A `model_extra.bin` with every dimension 1. -/
def tinyExtra : Bytes :=
  u32Bytes 1 ++ u32Bytes 1 ++ u32Bytes 1 ++ u32Bytes 1 ++ u32Bytes 1 ++ u32Bytes 1 ++
    F32.toBytes 0x3727C5AC ++ F32.toBytes 0x461C4000 ++ u32Bytes 1 ++
    floatBytes [0x3F800000, 0x3F800000, 0x3F800000, 0x3F800000]

/-- A `model_decomposed.bin` with one record of one block in a container of one term. -/
def tinyDecomposed : Bytes :=
  u32Bytes 0xDEADBEEF ++ u32Bytes 1 ++ u32Bytes 31 ++ str "model.layers.0.self_attn.q_proj" ++
    u32Bytes 1 ++ u32Bytes 1 ++ [2] ++ u32Bytes 44 ++
    (u32Bytes 1 ++ u32Bytes 36 ++ List.replicate 32 0x55 ++ floatBytes [0x3F800000])

/-- The directory of the two files. -/
def tinyDir : ModelDir := ⟨"tiny", some tinyExtra, some tinyDecomposed, .ok default⟩

/-- The configuration in its header. -/
def tinyConfig : ModelConfig where
  vocabSize := 1
  hiddenSize := 1
  intermediateSize := 1
  numHiddenLayers := 1
  numAttentionHeads := 1
  numKeyValueHeads := 1
  rmsNormEps := 0x3727C5AC
  ropeTheta := 0x461C4000
  maxPositionEmbeddings := 1
  headDim := 1

theorem exists_eq_ok {α : Type} {x : Exec α} (h : x.toOption.isSome) : ∃ a, x = .ok a := by
  cases x with
  | ok a => exact ⟨a, rfl⟩
  | error e => cases h

theorem validPair_tiny : ValidPair tinyDir tinyExtra tinyDecomposed := by
  refine ⟨rfl, rfl, exists_eq_ok (by decide +kernel), fun cfg hcfg => ?_, ?_⟩
  · have hload : loadConfig (tinyDir.path ++ "/model_extra.bin") tinyExtra = .ok tinyConfig := by
      decide +kernel
    rw [hload] at hcfg
    cases hcfg
    decide +kernel
  · refine ⟨1, ⟨tinyDecomposed.drop 8, false⟩, ?_⟩
    obtain ⟨⟨lds, s⟩, hread⟩ : ∃ p, readAlsLayers 1 ⟨tinyDecomposed.drop 8, false⟩ = .ok p :=
      exists_eq_ok (by decide +kernel)
    have hend : ((readAlsLayers 1 ⟨tinyDecomposed.drop 8, false⟩).toOption.map Prod.snd) =
        some ⟨[], false⟩ := by
      decide +kernel
    rw [hread] at hend
    cases hend
    exact ⟨lds, by decide +kernel, hread⟩

/-- The tiny pair, with its `model_extra.bin` cut after the header. -/
theorem rejected_tiny : Rejected (tinyDir.cut (.extra 36)) ↔
    (Truncation.extra 36).Loses tinyDecomposed :=
  rejected_iff validPair_tiny (show 36 < tinyExtra.length by decide)

/-- That directory is a truncated one, and the loader returns a model of zeros for it. -/
theorem not_rejected_tiny : ValidPair tinyDir tinyExtra tinyDecomposed ∧
    (Truncation.extra 36).Strict tinyExtra tinyDecomposed ∧
      ¬ Rejected (tinyDir.cut (.extra 36)) := by
  refine ⟨validPair_tiny, show 36 < tinyExtra.length by decide, ?_⟩
  rintro ⟨what, hraise⟩
  obtain ⟨m, hm⟩ : ∃ m, loadModelFrom (tinyDir.cut (.extra 36)) = .ok m :=
    exists_eq_ok (by decide +kernel)
  rw [hm] at hraise
  cases hraise

end Terllama
