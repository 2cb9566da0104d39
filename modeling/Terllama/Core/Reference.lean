import Terllama.Core.Forward

/-!
# The reference transformer

What the forward pass is meant to compute, on functions instead of buffers: every position is computed
from the tokens up to it, the keys and values of all of them included (`hidden`). It is stated over
the arithmetic of the pass, with the operations in the order of the source. `Terllama.Core.Incremental`
compares the passes with it, and reads it in a field.
-/

namespace Terllama

namespace Forward

/-- The sizes of a model. -/
structure Shape where
  heads : Nat
  kvHeads : Nat
  headDim : Nat
  hidden : Nat
  inner : Nat
  vocab : Nat
  layers : Nat
  positions : Nat
  eps : F32
  theta : F32

/-- The width of the queries. -/
def Shape.queryDim (d : Shape) : Nat := d.heads * d.headDim

/-- The width of a row of the cache. -/
def Shape.rowDim (d : Shape) : Nat := d.kvHeads * d.headDim

/-- The group that a head belongs to: as many heads share a row of keys as there are heads for each
group. -/
def Shape.group (d : Shape) (h : Nat) : Nat := h / (d.heads / d.kvHeads)

/-- The projections and the norms of a block. -/
structure Block (α : Type) where
  q : (Nat → α) → Nat → α
  k : (Nat → α) → Nat → α
  v : (Nat → α) → Nat → α
  o : (Nat → α) → Nat → α
  gate : (Nat → α) → Nat → α
  up : (Nat → α) → Nat → α
  down : (Nat → α) → Nat → α
  norms : NormWeights

/-- A transformer: the embedding of a token, the blocks, and the output layer behind the last norm. -/
structure Net (α : Type) where
  embed : Int → Nat → α
  block : Nat → Block α
  finalNorm : List F32
  head : (Nat → α) → Nat → α

section
variable {α : Type} [Zero α] (fl : Arith α)

/-! ## Operations on vectors -/

/-- The sum of the products of two vectors. -/
def dot (n : Nat) (a b : Nat → α) : α :=
  (List.range n).foldl (fun s j => fl.add s (fl.mul (a j) (b j))) 0

/-- The reciprocal root mean square. -/
def rms (n : Nat) (eps : F32) (x : Nat → α) : α :=
  fl.div (fl.ofInt 1) (fl.sqrt (fl.add (fl.div (dot fl n x x) (fl.ofInt n)) (fl.val eps)))

/-- The normed vector. -/
def normed (weight : List F32) (n : Nat) (eps : F32) (x : Nat → α) (i : Nat) : α :=
  fl.mul (x i) (fl.mul (fl.val (weight.getD i 0)) (rms fl n eps x))

omit [Zero α] in
/-- The elements of head `h`. -/
def headOf (hd : Nat) (y : Nat → α) (h j : Nat) : α := y (h * hd + j)

/-- The norms of the heads, where the model has them. -/
def headsNormed (norm : List F32) (hd : Nat) (eps : F32) (y : Nat → α) (i : Nat) : α :=
  if norm = [] then y i else normed fl norm hd eps (headOf hd y (i / hd)) (i % hd)

omit [Zero α] in
/-- The rotation of the pairs of each head; the last element of a head of odd width stays. -/
def rotated (sin cos : Nat → α) (hd : Nat) (y : Nat → α) (i : Nat) : α :=
  let j := i % hd
  if hd / 2 ≤ j / 2 then y i
  else if j % 2 = 0 then fl.sub (fl.mul (y i) (cos (j / 2))) (fl.mul (y (i + 1)) (sin (j / 2)))
  else fl.add (fl.mul (y (i - 1)) (sin (j / 2))) (fl.mul (y i) (cos (j / 2)))

/-- The score of a key. -/
def score (hd : Nat) (q k : Nat → α) : α := fl.div (dot fl hd q k) (fl.sqrt (fl.ofInt hd))

omit [Zero α] in
/-- The largest of `n` scores. -/
def maxOf (n : Nat) (s : Nat → α) : α :=
  (List.range n).foldl (fun best t => if fl.less best (s t) then s t else best) (s 0)

omit [Zero α] in
/-- The exponential of a score, below the largest one. -/
def expScore (n : Nat) (s : Nat → α) (t : Nat) : α := fl.exp (fl.sub (s t) (maxOf fl n s))

/-- The softmax of `n` scores. -/
def softmax (n : Nat) (s : Nat → α) (t : Nat) : α :=
  fl.div (expScore fl n s t)
    ((List.range n).foldl (fun sum u => fl.add sum (expScore fl n s u)) 0)

/-- The weighted sum of `n` vectors. -/
def weightedSum (n : Nat) (w : Nat → α) (v : Nat → Nat → α) (j : Nat) : α :=
  (List.range n).foldl (fun o t => fl.add o (fl.mul (w t) (v t j))) 0

omit [Zero α] in
/-- The residual connection. -/
def residual (sub : List F32) (x y : Nat → α) (i : Nat) : α :=
  if sub = [] then fl.add (y i) (x i)
  else fl.add (x i) (fl.mul (fl.val (sub.getD i 0)) (y i))

/-! ## A block -/

variable (d : Shape) (b : Block α)

omit [Zero α] in
/-- The rotation at a position. -/
def rotatedAt (pos : Nat) (y : Nat → α) : Nat → α :=
  let angle := ropeAngle fl d.theta d.headDim pos
  rotated fl (fun j => fl.sin (angle j)) (fun j => fl.cos (angle j)) d.headDim y

/-- What the projections of the attention read. -/
def attnInput (x : Nat → α) : Nat → α := normed fl b.norms.inputLayernorm d.hidden d.eps x

def query (pos : Nat) (x : Nat → α) : Nat → α :=
  rotatedAt fl d pos (headsNormed fl b.norms.qNorm d.headDim d.eps (b.q (attnInput fl d b x)))

def key (pos : Nat) (x : Nat → α) : Nat → α :=
  rotatedAt fl d pos (headsNormed fl b.norms.kNorm d.headDim d.eps (b.k (attnInput fl d b x)))

def value (x : Nat → α) : Nat → α := b.v (attnInput fl d b x)

/-- The score of the key at position `t` for head `h`. -/
def headScore (q : Nat → α) (keys : Nat → Nat → α) (h t : Nat) : α :=
  score fl d.headDim (headOf d.headDim q h) (headOf d.headDim (keys t) (d.group h))

/-- Head `h` at position `pos`, over the keys and values up to it. -/
def headAttention (q : Nat → α) (keys values : Nat → Nat → α) (pos h j : Nat) : α :=
  weightedSum fl (pos + 1) (softmax fl (pos + 1) (headScore fl d q keys h))
    (fun t => headOf d.headDim (values t) (d.group h)) j

/-- The causally masked attention at position `pos` over the inputs `xs`. -/
def causalAttention (xs : Nat → Nat → α) (pos i : Nat) : α :=
  headAttention fl d (query fl d b pos (xs pos)) (fun t => key fl d b t (xs t))
    (fun t => value fl d b (xs t)) pos (i / d.headDim) (i % d.headDim)

/-- The activations behind the attention. -/
def attnOutput (xs : Nat → Nat → α) (pos : Nat) : Nat → α :=
  residual fl b.norms.attnSubNorm (xs pos) (b.o (causalAttention fl d b xs pos))

/-- The hidden vector of the feed-forward part. -/
def gated (z : Nat → α) (i : Nat) : α := fl.mul (silu fl (b.gate z i)) (b.up z i)

/-- The activations behind the block. -/
def blockOutput (xs : Nat → Nat → α) (pos : Nat) : Nat → α :=
  let y := attnOutput fl d b xs pos
  residual fl b.norms.ffnSubNorm y
    (b.down (gated fl b (normed fl b.norms.postAttentionLayernorm d.hidden d.eps y)))

/-! ## The transformer -/

variable (net : Net α)

/-- The activations at every position behind the first blocks, from the embeddings of the tokens. -/
def hidden (tokens : Nat → Int) : Nat → Nat → Nat → α
  | 0 => fun pos => net.embed (tokens pos)
  | layer + 1 => blockOutput fl d (net.block layer) (hidden tokens layer)

/-- The logits at a position. -/
def logits (tokens : Nat → Int) (pos : Nat) : Nat → α :=
  net.head (normed fl net.finalNorm d.hidden d.eps (hidden fl d net tokens d.layers pos))

end

end Forward

end Terllama
