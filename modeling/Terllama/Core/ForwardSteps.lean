import Terllama.Base.InPlace
import Terllama.Core.CacheRows
import Terllama.Core.Reference

/-!
# The steps of the forward pass

Each loop of the pass takes the cells it works on from what they hold to what the reference
transformer has in their place (`Updates`), whatever else is in the buffers of the thread.
-/

namespace Terllama

namespace Forward

section
variable {α : Type} [Zero α] {fl : Arith α}

/-! ## Accesses by an `int` -/

section
variable {buf : List α} {off n : Nat} {x : Nat → α}

end

/-! ## Projections -/

/-- The offsets of the rows of a raw layer are `int`s: of the last one, in a layer that has rows. -/
def RawFits (ld : LayerData) : Prop :=
  ld.hasRawWeights = true → (ld.outFeatures - 1) * ld.inFeatures ≤ 2147483647

instance (ld : LayerData) : Decidable (RawFits ld) := inferInstanceAs (Decidable (_ → _))

/-- The layer maps `cols` numbers to `rows`: it reads the first `cols` of its input and writes the
rows of `f`, where the offsets of its rows are `int`s, and is undefined where they are not. -/
structure Maps (fl : Arith α) (ld : LayerData) (rows cols : Nat) (f : (Nat → α) → Nat → α) :
    Prop where
  outFeatures : ld.outFeatures = rows
  inFeatures : ld.inFeatures = cols
  rows_le : rows ≤ 2147483647
  run : RawFits ld → ∀ x : List α, cols ≤ x.length →
    fl.linear ld x = .ok ((List.range rows).map (f (x.getD · 0)))
  stop : ¬ RawFits ld → ∀ x out, fl.linear ld x ≠ .ok out
  reads : ∀ x y : Nat → α, (∀ i < cols, x i = y i) → f x = f y

/-- A projection that returns has rows with offsets that are `int`s. -/
theorem Maps.fits {ld : LayerData} {rows cols : Nat} {f : (Nat → α) → Nat → α}
    (h : Maps fl ld rows cols f) {x buf buf' : List α}
    (hrun : linearInto fl ld x buf = .ok buf') : RawFits ld := by
  obtain ⟨out, hout, -⟩ := Terllama.bind_eq_ok.1 hrun
  by_contra hfits
  exact h.stop hfits x out hout

/-! ## Norms -/

/-- The shape is that of a configuration. -/
structure Shape.Of (d : Shape) (cfg : ModelConfig) : Prop where
  heads : cfg.numAttentionHeads = d.heads
  kvHeads : cfg.numKeyValueHeads = d.kvHeads
  headDim : cfg.headDim = d.headDim
  hidden : cfg.hiddenSize = d.hidden
  inner : cfg.intermediateSize = d.inner
  vocab : cfg.vocabSize = d.vocab
  layers : cfg.numHiddenLayers = d.layers
  positions : cfg.maxPositionEmbeddings = d.positions
  eps : cfg.rmsNormEps = d.eps
  theta : cfg.ropeTheta = d.theta

/-- Every group has the same number of heads, and the queries and the cache have sizes that an `int`
holds. -/
structure Shape.Attends (d : Shape) : Prop where
  heads_pos : 0 < d.heads
  kvHeads_pos : 0 < d.kvHeads
  dvd : d.kvHeads ∣ d.heads
  heads_le : d.heads ≤ 2147483647
  headDim_le : d.headDim ≤ 2147483647
  query_le : d.queryDim ≤ 2147483647
  cacheHeads_le : d.positions * d.kvHeads ≤ 2147483647
  cache_le : d.positions * d.rowDim ≤ 2147483647

section
variable {d : Shape} {cfg : ModelConfig}

end

/-! ## The softmax -/

section
variable {d : Shape} {cfg : ModelConfig} {n pos : Nat}

/-- The sizes of the scores at a position. -/
structure ScoresFit (d : Shape) (pos : Nat) : Prop where
  pos_lt : pos < d.positions
  pos_le : pos < 2147483647
  offset : (d.heads - 1) * (pos + 1) ≤ 2147483647

theorem ScoresFit.head (hfit : ScoresFit d pos) {head : Nat} (hhead : head < d.heads) :
    head * (pos + 1) ≤ 2147483647 :=
  (Nat.mul_le_mul_right _ (by omega)).trans hfit.offset

theorem ScoresFit.total (hfit : ScoresFit d pos) : d.heads * (pos + 1) ≤ 4294967294 := by
  have hle : d.heads * (pos + 1) ≤ (d.heads - 1 + 1) * (pos + 1) :=
    Nat.mul_le_mul_right _ (by omega)
  rw [Nat.succ_mul] at hle
  have hoffset := hfit.offset
  have hpos := hfit.pos_le
  omega

end

end

end Forward

end Terllama
