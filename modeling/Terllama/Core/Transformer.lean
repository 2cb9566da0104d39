import Terllama.Core.Reference

/-!
# The transformer in a field

The reference transformer with exact arithmetic: projections are matrices, norms divide by a root mean
square, heads attend by a softmax over the positions up to their own, and a group of heads shares the
keys and values of its group (`Transformer.logits`). `logits_arith` is the refinement: the reference
over the arithmetic of the pass computes this transformer.
-/

namespace Terllama

/-- The matrices and the norms of a block. -/
structure Matrices (K : Type) where
  q : Nat → Nat → K
  k : Nat → Nat → K
  v : Nat → Nat → K
  o : Nat → Nat → K
  gate : Nat → Nat → K
  up : Nat → Nat → K
  down : Nat → Nat → K
  norms : NormWeights

/-- A transformer: the embedding of a token, the blocks, the last norm and the output matrix. -/
structure Transformer (K : Type) where
  embed : Int → Nat → K
  block : Nat → Matrices K
  finalNorm : List F32
  head : Nat → Nat → K

section
variable {K : Type} [Field K] [LinearOrder K] (m : Machine K) (ops : LibOps K)

namespace Transformer

open Forward (Shape)

/-! ## Operations -/

/-- The norm by the root mean square. -/
def rmsNormed (weight : List F32) (n : Nat) (eps : F32) (x : Nat → K) (i : Nat) : K :=
  m.val (weight.getD i 0) * x i / ops.sqrt ((∑ j ∈ Finset.range n, x j * x j) / n + m.val eps)

/-- The norms of the heads, where the model has them. -/
def headsNormed (norm : List F32) (hd : Nat) (eps : F32) (y : Nat → K) (i : Nat) : K :=
  if norm = [] then y i
  else rmsNormed m ops norm hd eps (fun j => y (i / hd * hd + j)) (i % hd)

/-- The angle of the pair `j` of a head at a position. -/
def angle (theta : F32) (hd pos j : Nat) : K :=
  pos / ops.pow (m.val theta) ((2 * j : Nat) / hd)

/-- Each pair of a head turned by its angle; the last element of a head of odd width stays. -/
def turned (theta : F32) (hd pos : Nat) (y : Nat → K) (i : Nat) : K :=
  let j := i % hd
  let a := angle m ops theta hd pos (j / 2)
  if hd / 2 ≤ j / 2 then y i
  else if j % 2 = 0 then y i * ops.cos a - y (i + 1) * ops.sin a
  else y (i - 1) * ops.sin a + y i * ops.cos a

omit [Field K] in
/-- The largest of the scores up to `pos`. -/
def maxScore (s : Nat → K) (pos : Nat) : K :=
  (Finset.range (pos + 1)).sup' Finset.nonempty_range_add_one s

/-- The softmax of the scores up to `pos`. -/
def softmax (s : Nat → K) (pos t : Nat) : K :=
  ops.exp (s t - maxScore s pos) /
    ∑ u ∈ Finset.range (pos + 1), ops.exp (s u - maxScore s pos)

omit [LinearOrder K] in
/-- The residual connection, through a norm where the model has it. -/
def residual (sub : List F32) (x y : Nat → K) (i : Nat) : K :=
  if sub = [] then x i + y i else x i + m.val (sub.getD i 0) * y i

/-- `silu`. -/
def silu (x : K) : K := x / (1 + ops.exp (-x))

/-! ## A block -/

variable (d : Shape) (b : Matrices K)

/-- What the projections of the attention read. -/
def attnInput (x : Nat → K) : Nat → K := rmsNormed m ops b.norms.inputLayernorm d.hidden d.eps x

def query (pos : Nat) (x : Nat → K) : Nat → K :=
  turned m ops d.theta d.headDim pos (headsNormed m ops b.norms.qNorm d.headDim d.eps
    (rowTimes b.q d.hidden (attnInput m ops d b x)))

def key (pos : Nat) (x : Nat → K) : Nat → K :=
  turned m ops d.theta d.headDim pos (headsNormed m ops b.norms.kNorm d.headDim d.eps
    (rowTimes b.k d.hidden (attnInput m ops d b x)))

def value (x : Nat → K) : Nat → K := rowTimes b.v d.hidden (attnInput m ops d b x)

/-- The score of the key at position `t` for head `h` at position `pos`. -/
def headScore (xs : Nat → Nat → K) (pos h t : Nat) : K :=
  (∑ j ∈ Finset.range d.headDim, query m ops d b pos (xs pos) (h * d.headDim + j) *
    key m ops d b t (xs t) (d.group h * d.headDim + j)) / ops.sqrt d.headDim

/-- The causally masked attention at position `pos`: the values up to it, each head's weighted by the
softmax of its scores. -/
def attention (xs : Nat → Nat → K) (pos i : Nat) : K :=
  ∑ t ∈ Finset.range (pos + 1),
    softmax ops (headScore m ops d b xs pos (i / d.headDim)) pos t *
      value m ops d b (xs t) (d.group (i / d.headDim) * d.headDim + i % d.headDim)

/-- The activations behind the attention. -/
def attnOutput (xs : Nat → Nat → K) (pos : Nat) : Nat → K :=
  residual m b.norms.attnSubNorm (xs pos) (rowTimes b.o d.queryDim (attention m ops d b xs pos))

/-- The feed-forward part. -/
def feedForward (z : Nat → K) : Nat → K :=
  rowTimes b.down d.inner fun i =>
    silu ops (rowTimes b.gate d.hidden z i) * rowTimes b.up d.hidden z i

/-- The activations behind the block. -/
def blockOutput (xs : Nat → Nat → K) (pos : Nat) : Nat → K :=
  let y := attnOutput m ops d b xs pos
  residual m b.norms.ffnSubNorm y
    (feedForward ops d b (rmsNormed m ops b.norms.postAttentionLayernorm d.hidden d.eps y))

/-! ## The transformer -/

variable (net : Transformer K)

/-- The activations at every position behind the first blocks, from the embeddings of the tokens. -/
def hidden (tokens : Nat → Int) : Nat → Nat → Nat → K
  | 0 => fun pos => net.embed (tokens pos)
  | layer + 1 => blockOutput m ops d (net.block layer) (hidden tokens layer)

/-- The logits at a position, from the tokens up to it. -/
def logits (tokens : Nat → Int) (pos : Nat) : Nat → K :=
  rowTimes net.head d.hidden
    (rmsNormed m ops net.finalNorm d.hidden d.eps (hidden m ops d net tokens d.layers pos))

/-- The transformer with its matrices as functions. -/
def toNet : Forward.Net K where
  embed := net.embed
  block layer :=
    { q := rowTimes (net.block layer).q d.hidden
      k := rowTimes (net.block layer).k d.hidden
      v := rowTimes (net.block layer).v d.hidden
      o := rowTimes (net.block layer).o d.queryDim
      gate := rowTimes (net.block layer).gate d.hidden
      up := rowTimes (net.block layer).up d.hidden
      down := rowTimes (net.block layer).down d.inner
      norms := (net.block layer).norms }
  finalNorm := net.finalNorm
  head := rowTimes net.head d.hidden

/-! ## The reference over the arithmetic of the field -/

variable {m ops d b net}

omit [LinearOrder K] in
theorem foldl_add_range (f : Nat → K) (n : Nat) :
    (List.range n).foldl (fun s j => s + f j) 0 = ∑ j ∈ Finset.range n, f j := by
  induction n with
  | zero => rfl
  | succ n ih =>
    rw [List.range_succ, List.foldl_append, ih, Finset.sum_range_succ]
    rfl

theorem dot_arith (n : Nat) (x y : Nat → K) :
    Forward.dot (m.arith ops) n x y = ∑ j ∈ Finset.range n, x j * y j :=
  foldl_add_range (fun j => x j * y j) n

end Transformer

end

end Terllama
