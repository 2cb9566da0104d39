import Terllama.Core.ForwardBlock

/-!
# Incremental decoding

`model_forward` for one token after another, on one cache, against the reference transformer that
computes every position anew. A step at position `pos` returns the logits of the reference and leaves
the keys and values of that position in every layer (`modelForward_ok`), where its `int` products do
not overflow (`StepFits`): the offsets of the rows of the raw layers, the offset of the scores of the
last head and, where the embedding is the output matrix, the number of its blocks.
-/

namespace Terllama

namespace Forward

section
variable {α : Type} [Zero α] {fl : Arith α} {d : Shape} {m : Model α} {net : Net α}

/-! ## The model -/

/-- The row of the embedding that a token gives. -/
def embedRow (val : F32 → α) (m : Model α) (n : Nat) (token : Int) (i : Nat) : α :=
  match embeddedToken m.cfg.vocabSize token with
  | some t => val (m.embedding.getD (t * n + i) 0)
  | none => 0

/-- The product with the embedding. -/
def tiedRow (fl : Arith α) (m : Model α) (n : Nat) (x : Nat → α) (row : Nat) : α :=
  dot fl n (fun j => fl.val (m.embedding.getD (row * n + j) 0)) x

/-- The output layer is that of the transformer. -/
def HeadIs (fl : Arith α) (d : Shape) (m : Model α) (head : (Nat → α) → Nat → α) : Prop :=
  match lmHeadIndex m.layers with
  | some i => ∃ ld, load m.layers i = .ok ld ∧ Maps fl ld d.vocab d.hidden head
  | none => head = tiedRow fl m d.hidden

/-- A well-shaped model, and the transformer that it is. -/
structure ModelFits (fl : Arith α) (d : Shape) (m : Model α) (net : Net α) : Prop where
  of : d.Of m.cfg
  ints : d.IntSized
  heads_pos : 0 < d.heads
  kvHeads_pos : 0 < d.kvHeads
  dvd : d.kvHeads ∣ d.heads
  heads_le : d.heads ≤ 2147483647
  headDim_le : d.headDim ≤ 2147483647
  positions_le : d.positions ≤ 2147483647
  embedding : m.embedding.length = d.vocab * d.hidden
  embed : net.embed = embedRow fl.val m d.hidden
  block : ∀ layer < d.layers, BlockFits fl d m layer (net.block layer)
  finalNorm : m.finalNorm = net.finalNorm
  finalNorm_le : d.hidden ≤ m.finalNorm.length
  head : HeadIs fl d m net.head

/-! ## The embedding -/

/-- The layers that the pass looks up. -/
def InUse (m : Model α) (layers : Nat) (ld : LayerData) : Prop :=
  (∃ layer < layers, BlockUses m layer ld) ∨
    ∃ i, lmHeadIndex m.layers = some i ∧ load m.layers i = .ok ld

/-- The `int` products of the pass at a position do not overflow. -/
structure StepFits (d : Shape) (m : Model α) (pos : Nat) : Prop where
  /-- The offset of the scores of the last head. -/
  scores : d.layers = 0 ∨ (d.heads - 1) * (pos + 1) ≤ 2147483647
  /-- The offsets of the rows of the raw layers. -/
  raw : ∀ ld, InUse m d.layers ld → RawFits ld
  /-- What the number of blocks of the vocabulary is computed from. -/
  vocab : lmHeadIndex m.layers = none → d.vocab + 64 ≤ 2147483647

/-- The reference's keys of a layer, over the tokens. -/
def keysOf (fl : Arith α) (d : Shape) (net : Net α) (tokens : Nat → Int) (layer t : Nat) :
    Nat → α := key fl d (net.block layer) t (hidden fl d net tokens layer t)

/-- The reference's values of a layer, over the tokens. -/
def valuesOf (fl : Arith α) (d : Shape) (net : Net α) (tokens : Nat → Int) (layer t : Nat) :
    Nat → α := value fl d (net.block layer) (hidden fl d net tokens layer t)

/-- What a step finds in the thread and in the cache: the indices of the layers of this model, and
the keys and values of the first `pos` positions. -/
structure Ready (fl : Arith α) (d : Shape) (m : Model α) (net : Net α) (tokens : Nat → Int)
    (pos : Nat) (thread : Thread α) (kv : KVCache α) : Prop where
  index : thread.blkIdx.Current m.addr m.layers
  stored : Stores d kv (fun _ => pos) (keysOf fl d net tokens) (valuesOf fl d net tokens)

/-- The cache and the tables are those of the model. -/
structure CacheFits (fl : Arith α) (d : Shape) (m : Model α) : Prop where
  rope : buildRopeCache fl d.positions d.headDim d.theta = .ok m.rope
  cacheHeads_le : d.layers ≠ 0 → d.positions * d.kvHeads ≤ 2147483647
  cache_le : d.layers ≠ 0 → d.positions * d.rowDim ≤ 2147483647

omit [Zero α] in
theorem StepFits.mono {pos pos' : Nat} (h : StepFits d m pos') (hle : pos ≤ pos') :
    StepFits d m pos :=
  ⟨h.scores.imp_right fun hscores => (Nat.mul_le_mul_left _ (by omega)).trans hscores, h.raw,
    h.vocab⟩

end

end Forward

end Terllama
