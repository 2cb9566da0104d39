import Terllama.Gguf.Model
import Terllama.Gguf.Placement

/-!
# What loading a GGUF model checks

`load_config` of `src/loader.h` rejects a `.bin` header with a size that is not positive and caps
the context. `load_gguf_model` takes the sizes out of the metadata as they are and goes on where a
projection is missing. So a model that it returns has what `load_config` enforces exactly where the
file states it (`gguf_checked_iff`).
-/

namespace Terllama

/-! ## A checked model -/

/-- The types of the block formats: packed codes alone, and a scale with codes. -/
def KnownBlockType (type : Nat) : Prop := type = 36 ∨ type = ggmlTypeQ20 ∨ type = 42

/-- The blocks that the weights of a layer take. -/
def LayerData.neededBlocks (ld : LayerData) : Nat :=
  ld.outFeatures.toNat * blocksPerRow ld.inFeatures.toNat

/-- The layer has full blocks for all of its weights. -/
def LayerData.CoversWeights (ld : LayerData) : Prop :=
  ∃ blocks, ld.blockTerms = [blocks] ∧ ld.neededBlocks ≤ blocks.length ∧
    ∀ x ∈ blocks.take ld.neededBlocks, x.packed.length = 32

/-- The cap of `load_config` on the context. -/
def maxContext : Int := 4096

/-- What `load_config` makes sure of. -/
structure ModelConfig.Checked (cfg : ModelConfig) : Prop where
  vocab : 0 < cfg.vocabSize
  hidden : 0 < cfg.hiddenSize
  intermediate : 0 < cfg.intermediateSize
  layers : 0 < cfg.numHiddenLayers
  heads : 0 < cfg.numAttentionHeads
  kvHeads : 0 < cfg.numKeyValueHeads
  headDim : 0 < cfg.headDim
  context : 0 < cfg.maxPositionEmbeddings
  capped : cfg.maxPositionEmbeddings ≤ maxContext

/-- A model of a file: what `load_config` makes sure of, and every projection of every layer, out of
a tensor of a known type, with the data of its weights. -/
structure LoadedModel.Checked (m : LoadedModel) (gguf : GGUFFile) : Prop where
  config : m.cfg.Checked
  projections : ∀ i < m.cfg.numHiddenLayers.toNat, ∀ p ∈ projections i,
    (∃ ti, findTensor gguf.tensors p.1 = some ti ∧ KnownBlockType ti.type) ∧
    ∃ ld ∈ m.layers, ld.name = p.2 ∧ ld.CoversWeights

/-- Every model that `load_gguf_model` returns for the file is checked, and no head count of zero
has been a divisor. -/
def GgufChecked (narrow : Nat → F32) (file : Bytes) : Prop :=
  ∀ gguf m, parseGguf narrow file = .ok gguf → loadGgufModel narrow file = .ok (some m) →
    gguf.getInt (str "attention.head_count") (gguf.getInt (str "head_count") 0) ≠ 0 ∧ m.Checked gguf

/-! ## What a file states -/

/-- The number of rows of the embedding. -/
def GGUFFile.vocabRows (gguf : GGUFFile) : Option Nat :=
  (findTensor gguf.tensors (str "token_embd.weight")).bind fun ti => ti.dims[1]?

/-- The number of attention heads in the metadata. -/
def GGUFFile.headCount (gguf : GGUFFile) : Int :=
  gguf.getInt (str "attention.head_count") (gguf.getInt (str "head_count") 0)

/-- A tensor with at least as many blocks as its dimensions need as `int32_t` values. All dimensions
below `2^31` are so. -/
def GGUFTensorInfo.Covers (ti : GGUFTensorInfo) : Prop :=
  ∃ inFeatures outFeatures rest, ti.dims = inFeatures :: outFeatures :: rest ∧
    (toInt32 outFeatures).toNat * blocksPerRow (toInt32 inFeatures).toNat ≤
      outFeatures * (convertBlocks inFeatures).toNat

/-- The metadata states positive sizes, narrowed to `int32_t`, and a context within the cap. -/
structure GGUFFile.StatesConfig (gguf : GGUFFile) (vocabSize : Int) : Prop where
  vocab : 0 < vocabSize
  hidden : 0 < int32Of (gguf.getInt (str "embedding_length") 0)
  intermediate : 0 < int32Of (gguf.getInt (str "feed_forward_length") 0)
  layers : 0 < int32Of (gguf.getInt (str "block_count") 0)
  heads : 0 < int32Of gguf.headCount
  kvHeads : 0 < int32Of (gguf.getInt (str "attention.head_count_kv") gguf.headCount)
  headDim : 0 < int32Of ((gguf.getInt (str "embedding_length") 0).tdiv gguf.headCount)
  context : 0 < int32Of (gguf.getInt (str "context_length") 2048)
  capped : int32Of (gguf.getInt (str "context_length") 2048) ≤ maxContext

/-- The file states its sizes, and the tensors of the projections are there, of a known type and
with their blocks. -/
structure GGUFFile.States (gguf : GGUFFile) : Prop where
  config : ∀ rows, gguf.vocabRows = some rows → gguf.StatesConfig (toInt32 rows)
  tensors : ∀ i < (int32Of (gguf.getInt (str "block_count") 0)).toNat, ∀ p ∈ projections i,
    ∃ ti, findTensor gguf.tensors p.1 = some ti ∧ KnownBlockType ti.type ∧ ti.Covers

/-! ## A converted tensor -/

theorem buildBlockContigCache_blockTerms {ld ld' : LayerData}
    (h : buildBlockContigCache ld = .ok ld') : ld'.blockTerms = ld.blockTerms := by
  unfold buildBlockContigCache at h
  split at h
  · cases h
    rfl
  · obtain ⟨nb, -, h⟩ := bind_eq_ok.1 h
    obtain ⟨cache, -, h⟩ := bind_eq_ok.1 h
    cases h
    rfl

/-- The table that the loops leave has as many full blocks in front as they have visited. -/
theorem table_covers_iff {ti : GGUFTensorInfo} {data : Bytes} {inFeatures outFeatures : Nat}
    {blocks : List BlockTerm} (h : ConvertFits ti inFeatures outFeatures data.length)
    (hloops : convertLoops data ti outFeatures (convertBlocks inFeatures).toNat
      (List.replicate (pos64 (outFeatures * sizeT (convertBlocks inFeatures))) {}) = .ok blocks)
    (n : Nat) : (n ≤ blocks.length ∧ ∀ x ∈ blocks.take n, x.packed.length = 32) ↔
      n ≤ outFeatures * (convertBlocks inFeatures).toNat := by
  rcases Int.lt_or_le 0 (convertBlocks inFeatures) with hpos | hnone
  · obtain ⟨nb, hnb⟩ := Int.eq_ofNat_of_zero_le hpos.le
    have hfits := h.blocks hpos
    have hrange := toInt32_range (pos64 (inFeatures + q20BlockSize - 1) / q20BlockSize)
    have hnb' : nb ≤ 2147483647 := by
      have hle : convertBlocks inFeatures ≤ 2147483647 := hrange.2
      omega
    rw [hnb, Int.toNat_natCast] at hfits hloops
    rw [hnb, Int.toNat_natCast]
    rw [show sizeT (nb : Int) = nb by rw [sizeT_of_nonneg (by omega) (by omega), Int.toNat_natCast]]
      at hloops
    have htotal : outFeatures * nb ≤ 2147483648 ∧ (outFeatures * nb = 0 ∨
        ti.offset + outFeatures * nb * blockStride ti.type ≤ data.length) := by
      by_cases hrows : outFeatures = 0
      · subst hrows
        omega
      · exact ⟨(hfits hrows).1, .inr (hfits hrows).2⟩
    rw [show pos64 (outFeatures * nb) = outFeatures * nb from Nat.mod_eq_of_lt (by omega),
      convertLoops_ok htotal.1 htotal.2 List.length_replicate] at hloops
    cases hloops
    have hlen : (tensorBlocks data ti (outFeatures * nb)).length = outFeatures * nb := by
      rw [tensorBlocks, List.length_map, List.length_range]
    rw [hlen]
    exact and_iff_left fun x hx => packed_tensorBlocks htotal.2 x (List.mem_of_mem_take hx)
  · rw [Int.toNat_of_nonpos hnone, convertLoops_none] at hloops
    cases hloops
    rw [Int.toNat_of_nonpos hnone, Nat.mul_zero, Nat.le_zero, List.length_replicate]
    constructor
    · rintro ⟨hle, hfull⟩
      by_contra hne
      have hmem : ({} : BlockTerm) ∈ (List.replicate
          (pos64 (outFeatures * sizeT (convertBlocks inFeatures))) ({} : BlockTerm)).take n := by
        rw [List.take_replicate, List.mem_replicate]
        exact ⟨by omega, rfl⟩
      exact absurd (hfull _ hmem) (by decide)
    · rintro rfl
      exact ⟨Nat.zero_le _, by simp⟩

/-- A converted layer has full blocks for all of its weights exactly where its tensor has as
many. -/
theorem convert_covers_iff {gguf : GGUFFile} {ti : GGUFTensorInfo} {name : Bytes} {ld : LayerData}
    (h : convertQ20ToLayer gguf ti name = .ok (some ld)) :
    ld.name = name ∧ (ld.CoversWeights ↔ ti.Covers) := by
  have hfits := convert_returns_iff.1 ⟨_, h⟩
  unfold convertQ20ToLayer at h
  split at h
  · rename_i inFeatures outFeatures rest hdims
    have hfits := hfits _ _ _ hdims
    obtain ⟨_, -, h⟩ := bind_eq_ok.1 h
    obtain ⟨blocks, hloops, h⟩ := bind_eq_ok.1 h
    obtain ⟨ld', hbuild, h⟩ := bind_eq_ok.1 h
    cases h
    have hheader := buildBlockContigCache_header hbuild
    have hterms : ld.blockTerms = [blocks] := buildBlockContigCache_blockTerms hbuild
    have hout : ld.outFeatures = toInt32 outFeatures := congrArg (fun p => p.2.1) hheader
    have hin : ld.inFeatures = toInt32 inFeatures := congrArg (fun p => p.2.2) hheader
    refine ⟨congrArg Prod.fst hheader, ?_⟩
    have hcovers : ti.Covers ↔
        ld.neededBlocks ≤ outFeatures * (convertBlocks inFeatures).toNat := by
      rw [LayerData.neededBlocks, hout, hin]
      constructor
      · rintro ⟨i, o, r, hdims', hle⟩
        cases hdims.symm.trans hdims'
        exact hle
      · intro hle
        exact ⟨_, _, _, hdims, hle⟩
    have hblocks : ld.CoversWeights ↔ ld.neededBlocks ≤ blocks.length ∧
        ∀ x ∈ blocks.take ld.neededBlocks, x.packed.length = 32 := by
      rw [LayerData.CoversWeights, hterms]
      constructor
      · rintro ⟨blocks', hsame, h⟩
        cases hsame
        exact h
      · intro h
        exact ⟨_, rfl, h⟩
    rw [hcovers, hblocks]
    exact table_covers_iff hfits hloops _
  · cases h

/-! ## The layers of a model -/

theorem mem_flatten_of_mapM {α β : Type} {f : α → Exec (List β)} {l : List α} {bs : List (List β)}
    (h : l.mapM f = .ok bs) {x : β} :
    x ∈ bs.flatten ↔ ∃ a ∈ l, ∃ b, f a = .ok b ∧ x ∈ b := by
  induction l generalizing bs with
  | nil =>
    cases h
    simp
  | cons a l ih =>
    rw [List.mapM_cons] at h
    obtain ⟨b, hb, h⟩ := bind_eq_ok.1 h
    obtain ⟨bs', hbs, h⟩ := bind_eq_ok.1 h
    cases h
    rw [List.flatten_cons, List.mem_append, ih hbs]
    simp [hb]

/-- The layers are those of the projections that are found and converted, and `lm_head`. -/
theorem mem_ggufLayers {gguf : GGUFFile} {cfg : ModelConfig} {norms : List NormWeights}
    {layers : List LayerData} (h : ggufLayers gguf cfg = .ok (norms, layers)) :
    (∀ i < cfg.numHiddenLayers.toNat, ∀ p ∈ projections i, ∃ l, addQ2Layer gguf p.1 p.2 = .ok l) ∧
    ∀ ld, ld ∈ layers ↔ (∃ i < cfg.numHiddenLayers.toNat, ∃ p ∈ projections i,
      ∃ l, addQ2Layer gguf p.1 p.2 = .ok l ∧ ld ∈ l) ∨
        ∃ l, ggufLmHead gguf = .ok l ∧ ld ∈ l := by
  unfold ggufLayers at h
  obtain ⟨_, -, h⟩ := bind_eq_ok.1 h
  obtain ⟨_, -, h⟩ := bind_eq_ok.1 h
  obtain ⟨count, -, h⟩ := bind_eq_ok.1 h
  dsimp only at h
  split at h
  · cases h
  obtain ⟨norms', -, h⟩ := bind_eq_ok.1 h
  obtain ⟨lists, hlists, h⟩ := bind_eq_ok.1 h
  obtain ⟨lmHead, hhead, h⟩ := bind_eq_ok.1 h
  cases h
  have hrun : ∀ i < cfg.numHiddenLayers.toNat, ∃ ls,
      ((projections i).mapM fun p => addQ2Layer gguf p.1 p.2) = .ok ls := fun i hi =>
    exists_mapM_ok_iff.1 ⟨_, hlists⟩ i (List.mem_range.2 hi)
  refine ⟨fun i hi => exists_mapM_ok_iff.1 (hrun i hi), fun ld => ?_⟩
  rw [List.mem_append, List.mem_flatten, hhead]
  refine or_congr ?_ (by simp)
  constructor
  · rintro ⟨l, hl, hld⟩
    obtain ⟨i, hi, ls, hls, hmem⟩ := (mem_flatten_of_mapM hlists).1 hl
    obtain ⟨p, hp, l', hl', hld⟩ := (mem_flatten_of_mapM hls).1 (List.mem_flatten.2 ⟨l, hmem, hld⟩)
    exact ⟨i, List.mem_range.1 hi, p, hp, l', hl', hld⟩
  · rintro ⟨i, hi, p, hp, l, hl, hld⟩
    obtain ⟨ls, hls⟩ := hrun i hi
    obtain ⟨l', hl', hld⟩ := List.mem_flatten.1 ((mem_flatten_of_mapM hls).2 ⟨p, hp, l, hl, hld⟩)
    exact ⟨l', (mem_flatten_of_mapM hlists).2 ⟨i, List.mem_range.2 hi, ls, hls, hl'⟩, hld⟩

/-- The parts of the names of the tensors and of the layers. -/
def projectionNames : List (Bytes × Bytes) :=
  [(str "attn_q.weight", str "self_attn.q_proj"), (str "attn_k.weight", str "self_attn.k_proj"),
    (str "attn_v.weight", str "self_attn.v_proj"),
    (str "attn_output.weight", str "self_attn.o_proj"),
    (str "ffn_gate.weight", str "mlp.gate_proj"), (str "ffn_up.weight", str "mlp.up_proj"),
    (str "ffn_down.weight", str "mlp.down_proj")]

/-- The names of the layers tell the projections apart. -/
theorem projections_inj {i j : Nat} {p q : Bytes × Bytes} (hp : p ∈ projections i)
    (hq : q ∈ projections j) (h : p.2 = q.2) : p = q := by
  obtain ⟨a, ha, rfl⟩ := List.mem_map.1 hp
  obtain ⟨b, hb, rfl⟩ := List.mem_map.1 hq
  have hname : ∀ (k : Nat) (part : Bytes), str "model.layers." ++ decimal k ++ str "." ++ part =
      str "model.layers." ++ (decimal k ++ 46 :: part) := by
    intro k part
    rw [List.append_assoc, List.append_assoc]
    rfl
  have htable : ∀ a ∈ projectionNames, ∀ b ∈ projectionNames, a.2 = b.2 → a = b := by
    decide
  dsimp only at h ⊢
  rw [hname, hname] at h
  obtain ⟨rfl, hpart⟩ := decimal_append_inj (by decide) (List.append_cancel_left h)
  rw [htable a ha b hb hpart]

/-- `lm_head` has no name of a projection. -/
theorem lmHead_name {gguf : GGUFFile} {l : List LayerData} (h : ggufLmHead gguf = .ok l)
    {ld : LayerData} (hld : ld ∈ l) : ld.name = str "lm_head" := by
  unfold ggufLmHead at h
  split at h
  · cases h
    cases hld
  · split at h
    · obtain ⟨_, -, h⟩ := bind_eq_ok.1 h
      obtain ⟨_, -, h⟩ := bind_eq_ok.1 h
      obtain ⟨_, -, h⟩ := bind_eq_ok.1 h
      cases h
      rw [List.mem_singleton.1 hld]
    · obtain ⟨layer, hlayer, h⟩ := bind_eq_ok.1 h
      cases h
      rw [List.mem_singleton.1 hld]
      cases layer with
      | none => rfl
      | some layer => exact (convert_covers_iff hlayer).1

/-! ## The configuration -/

/-- The sizes of a configuration are what the metadata states. -/
theorem config_checked_iff {gguf : GGUFFile} {vocabSize : Int} {cfg : ModelConfig}
    (h : gguf.config vocabSize = .ok cfg) : gguf.headCount ≠ 0 ∧
      cfg.numHiddenLayers = int32Of (gguf.getInt (str "block_count") 0) ∧
      (cfg.Checked ↔ gguf.StatesConfig vocabSize) := by
  unfold GGUFFile.config at h
  obtain ⟨headDim, hdiv, h⟩ := bind_eq_ok.1 h
  cases h
  have hcount : gguf.headCount ≠ 0 ∧
      headDim = (gguf.getInt (str "embedding_length") 0).tdiv gguf.headCount := by
    unfold div64 at hdiv
    split at hdiv
    · cases hdiv
    · rename_i hne
      exact ⟨hne, (i64_eq_ok.1 hdiv).1⟩
  refine ⟨hcount.1, rfl, ?_⟩
  rw [hcount.2]
  constructor
  · intro hc
    exact ⟨hc.vocab, hc.hidden, hc.intermediate, hc.layers, hc.heads, hc.kvHeads, hc.headDim,
      hc.context, hc.capped⟩
  · intro hs
    exact ⟨hs.vocab, hs.hidden, hs.intermediate, hs.layers, hs.heads, hs.kvHeads, hs.headDim,
      hs.context, hs.capped⟩

/-! ## The models of a file -/

/-- What a load that returns true has run. -/
theorem loadGgufModel_inv {narrow : Nat → F32} {file : Bytes} {gguf : GGUFFile} {m : LoadedModel}
    (hparse : parseGguf narrow file = .ok gguf) (h : loadGgufModel narrow file = .ok (some m)) :
    ∃ rows norms, gguf.vocabRows = some rows ∧ gguf.config (toInt32 rows) = .ok m.cfg ∧
      ggufLayers gguf m.cfg = .ok (norms, m.layers) := by
  unfold loadGgufModel at h
  rw [hparse, ok_bind] at h
  split at h
  · cases h
  split at h
  · cases h
  split at h
  · cases h
  · rename_i embed hembed
    split at h
    · rename_i width rows rest hdims
      obtain ⟨cfg, hcfg, h⟩ := bind_eq_ok.1 h
      obtain ⟨embedding, -, h⟩ := bind_eq_ok.1 h
      split at h
      · cases h
      · obtain ⟨finalNorm, -, h⟩ := bind_eq_ok.1 h
        obtain ⟨⟨layerNorms, layers⟩, hlayers, h⟩ := bind_eq_ok.1 h
        cases h
        refine ⟨rows, layerNorms, ?_, hcfg, hlayers⟩
        rw [GGUFFile.vocabRows, hembed, Option.bind_some, hdims]
        rfl
    · cases h

/-- A projection is in the model, with the data of its weights, exactly where its tensor has
these. -/
theorem projection_covers_iff {gguf : GGUFFile} {cfg : ModelConfig} {norms : List NormWeights}
    {layers : List LayerData} (h : ggufLayers gguf cfg = .ok (norms, layers)) {i : Nat}
    (hi : i < cfg.numHiddenLayers.toNat) {p : Bytes × Bytes} (hp : p ∈ projections i) :
    (∃ ld ∈ layers, ld.name = p.2 ∧ ld.CoversWeights) ↔
      ∃ ti, findTensor gguf.tensors p.1 = some ti ∧ ti.Covers := by
  obtain ⟨hrun, hmem⟩ := mem_ggufLayers h
  constructor
  · rintro ⟨ld, hld, hname, hcovers⟩
    rcases (hmem ld).1 hld with ⟨j, hj, q, hq, l, hl, hld⟩ | ⟨l, hl, hld⟩
    · unfold addQ2Layer at hl
      split at hl
      · rename_i ti hti
        obtain ⟨layer, hconvert, hl⟩ := bind_eq_ok.1 hl
        cases hl
        obtain rfl := Option.mem_toList.1 hld
        obtain ⟨hlayer, hiff⟩ := convert_covers_iff hconvert
        obtain rfl := projections_inj hq hp (hlayer.symm.trans hname)
        exact ⟨ti, hti, hiff.1 hcovers⟩
      · cases hl
        cases hld
    · -- `lm_head` is no projection
      have hhead := (lmHead_name hl hld).symm.trans hname
      obtain ⟨a, ha, rfl⟩ := List.mem_map.1 hp
      have hlen := congrArg (List.take 1) hhead
      dsimp only at hlen
      rw [List.append_assoc, List.append_assoc] at hlen
      exact absurd hlen (by simp [str])
  · rintro ⟨ti, hti, hcovers⟩
    obtain ⟨l, hl⟩ := hrun i hi p hp
    have hl' := hl
    unfold addQ2Layer at hl
    rw [hti] at hl
    obtain ⟨layer, hconvert, hl⟩ := bind_eq_ok.1 hl
    cases hl
    cases layer with
    | none =>
      obtain ⟨a, b, rest, hdims, -⟩ := hcovers
      unfold convertQ20ToLayer at hconvert
      rw [hdims] at hconvert
      obtain ⟨_, -, hconvert⟩ := bind_eq_ok.1 hconvert
      obtain ⟨_, -, hconvert⟩ := bind_eq_ok.1 hconvert
      obtain ⟨_, -, hconvert⟩ := bind_eq_ok.1 hconvert
      cases hconvert
    | some ld =>
      obtain ⟨hname, hiff⟩ := convert_covers_iff hconvert
      exact ⟨ld, (hmem ld).2 (.inl ⟨i, hi, p, hp, _, hl', List.mem_singleton_self ld⟩), hname,
        hiff.2 hcovers⟩

/-- A model of a file is checked exactly where the file states what it should. -/
theorem model_checked_iff {narrow : Nat → F32} {file : Bytes} {gguf : GGUFFile} {m : LoadedModel}
    (hparse : parseGguf narrow file = .ok gguf) (h : loadGgufModel narrow file = .ok (some m)) :
    gguf.headCount ≠ 0 ∧ (m.Checked gguf ↔ gguf.States) := by
  obtain ⟨rows, norms, hrows, hcfg, hlayers⟩ := loadGgufModel_inv hparse h
  obtain ⟨hcount, hnl, hconfig⟩ := config_checked_iff hcfg
  refine ⟨hcount, ?_, ?_⟩
  · intro hc
    refine ⟨fun rows' hrows' => ?_, fun i hi p hp => ?_⟩
    · cases hrows.symm.trans hrows'
      exact hconfig.1 hc.config
    · rw [← hnl] at hi
      obtain ⟨⟨ti, hti, hknown⟩, hlayer⟩ := hc.projections i hi p hp
      obtain ⟨ti', hti', hcovers⟩ := (projection_covers_iff hlayers hi hp).1 hlayer
      cases hti.symm.trans hti'
      exact ⟨ti, hti, hknown, hcovers⟩
  · intro hs
    refine ⟨hconfig.2 (hs.config rows hrows), fun i hi p hp => ?_⟩
    obtain ⟨ti, hti, hknown, hcovers⟩ := hs.tensors i (hnl ▸ hi) p hp
    exact ⟨⟨ti, hti, hknown⟩, (projection_covers_iff hlayers hi hp).2 ⟨ti, hti, hcovers⟩⟩

/-- Every model that is loaded from a file is checked exactly where the file, if one is loaded from
it, states what it should. -/
theorem gguf_checked_iff (narrow : Nat → F32) (file : Bytes) : GgufChecked narrow file ↔
    ∀ gguf m, parseGguf narrow file = .ok gguf → loadGgufModel narrow file = .ok (some m) →
      gguf.States := by
  refine forall_congr' fun gguf => forall_congr' fun m => forall_congr' fun hparse =>
    forall_congr' fun h => ?_
  obtain ⟨hcount, hiff⟩ := model_checked_iff hparse h
  exact (and_iff_right hcount).trans hiff

/-- The metadata of a file that states a width and a number of heads, and nothing else. -/
def bareKvs : List GgufKv :=
  [⟨str "qwen3.embedding_length", .int .u32 1⟩, ⟨str "qwen3.attention.head_count", .int .u32 1⟩]

/-- The embedding of one number. -/
def bareEmbedding : GGUFTensorInfo where
  name := str "token_embd.weight"
  type := ggmlTypeF32
  dims := [1, 1]
  offset := 0

/-- The file. -/
def bareFile : Bytes :=
  ggufHeader 1 2 ++ encodeKvs bareKvs ++ bareEmbedding.encode ++ List.replicate 32 0

/-- The file is loaded, as a model without layers. -/
theorem not_gguf_checked_bareFile :
    (∃ m, loadGgufModel (fun _ => 0) bareFile = .ok (some m) ∧ m.cfg.numHiddenLayers = 0) ∧
      ¬ GgufChecked (fun _ => 0) bareFile := by
  have hload : ((loadGgufModel (fun _ => 0) bareFile).toOption.join.map
      fun m => m.cfg.numHiddenLayers) = some 0 := by
    decide +kernel
  obtain ⟨m, hm, hlayers⟩ := Option.map_eq_some_iff.1 hload
  have hsome := Option.join_eq_some_iff.1 hm
  have hok : loadGgufModel (fun _ => 0) bareFile = .ok (some m) := by
    cases hrun : loadGgufModel (fun _ => 0) bareFile with
    | error e =>
      rw [hrun] at hsome
      cases hsome
    | ok r =>
      rw [hrun] at hsome
      cases hsome
      rfl
  refine ⟨⟨m, hok, hlayers⟩, fun h => ?_⟩
  obtain ⟨gguf, hparse, -⟩ := bind_eq_ok.1 hok
  have hpos := (h gguf m hparse hok).2.config.layers
  rw [hlayers] at hpos
  exact absurd hpos (lt_irrefl 0)

end Terllama
