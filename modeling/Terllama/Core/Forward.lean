import Terllama.Core.Attention
import Terllama.Core.LayerIndex
import Terllama.Kernel.Mote
import Terllama.Loader.Extra

/-!
# The forward pass

`rms_norm`, `apply_rope`, `attention`, `mlp_forward`, `transformer_block` and `model_forward` of
`src/core/inference.cpp` over an arbitrary arithmetic, with the buffers that a thread keeps from token
to token (`Thread`). The kernels behind `ternary_linear_dispatch` and `mote_ternary_linear` are two of
the operations of the arithmetic; `Machine.arith` is the exact one, with the kernels of
`Terllama.Kernel`. What the source writes to logs and to debug files is left out.
-/

namespace Terllama

namespace Forward

/-- The operations on the numbers of a pass. -/
structure Arith (α : Type) where
  /-- The number of a stored float. -/
  val : F32 → α
  /-- The conversion of an `int` to `float`. -/
  ofInt : Int → α
  add : α → α → α
  sub : α → α → α
  mul : α → α → α
  div : α → α → α
  neg : α → α
  sqrt : α → α
  exp : α → α
  sin : α → α
  cos : α → α
  pow : α → α → α
  less : α → α → Bool
  /-- The rows that `ternary_linear_dispatch` writes. -/
  linear : LayerData → List α → Exec (List α)
  /-- What `mote_ternary_linear` leaves in its output. -/
  mote : MoTELayerData → List α → List α → Int → Int → Exec (List α)

/-- `RoPECache`. -/
structure RoPECache (α : Type) where
  sin : List α
  cos : List α
  maxSeqLen : Int
  headDim : Int
  deriving DecidableEq, Repr

/-- The `thread_local` buffers. -/
structure Thread (α : Type) where
  x : List α := []
  logits : List α := []
  attnQ : List α := []
  attnK : List α := []
  attnV : List α := []
  attnScores : List α := []
  attnOut : List α := []
  gate : List α := []
  up : List α := []
  residual : List α := []
  blkIdx : TblkIndexCache := {}
  deriving DecidableEq, Repr

/-- The arguments of `model_forward` that do not change from token to token; `addr` is the address of
the vector of layers. -/
structure Model (α : Type) where
  cfg : ModelConfig
  embedding : List F32
  addr : Nat
  layers : List LayerData
  finalNorm : List F32
  layerNorms : List NormWeights
  rope : RoPECache α
  moteLayers : Option (List MoTELayerData)

/-- What a part of the pass leaves: the activations, the buffers of the thread, and the cache. -/
structure Pass (α : Type) where
  x : List α
  thread : Thread α
  kv : KVCache α
  deriving DecidableEq, Repr

section
variable {α : Type} [Zero α] (fl : Arith α)

/-! ## Buffers -/

/-- `scratch_resize`. -/
def scratchResize (buf : List α) (n : Nat) : Exec (List α) :=
  if buf.length < n then
    if n ≤ vectorMaxSize 4 then .ok (vectorResize buf n 0) else raise "vector::_M_default_append"
  else .ok buf

/-- `resize`, where the buffer does not have the size. -/
def exactResize (buf : List α) (n : Nat) : Exec (List α) :=
  if buf.length ≠ n then
    if n ≤ vectorMaxSize 4 then .ok (vectorResize buf n 0) else raise "vector::_M_default_append"
  else .ok buf

omit [Zero α] in
/-- `std::copy(x, x + n, buf)`. -/
def copyInto (x : List α) (n : Int) (buf : List α) : Exec (List α) := do
  writeAt buf 0 (← ptrRange x n)

/-- `ternary_linear_dispatch`. -/
def linearInto (layer : LayerData) (x buf : List α) : Exec (List α) := do
  writeAt buf 0 (← fl.linear layer x)

/-- The sum of the products of two runs of `n` elements. -/
def dotRows (a b : List α) (offA offB : Int) (n : Nat) : Exec α :=
  (List.range n).foldlM (fun s (j : Nat) => do
    let x ← loadAt a (offA + j)
    let y ← loadAt b (offB + j)
    return fl.add s (fl.mul x y)) 0

/-! ## Norms -/

/-- `rms_norm` of the `n` elements from `off` on. -/
def rmsNormAt (weight : List F32) (n : Int) (eps : F32) (off : Int) (x : List α) :
    Exec (List α) := do
  let ss ← dotRows fl x x off off n.toNat
  let rms := fl.div (fl.ofInt 1) (fl.sqrt (fl.add (fl.div ss (fl.ofInt n)) (fl.val eps)))
  (List.range n.toNat).foldlM (fun x (i : Nat) => do
    let xi ← loadAt x (off + i)
    let w ← load weight i
    storeAt x (off + i) (fl.mul xi (fl.mul (fl.val w) rms))) x

/-- `rms_norm`. -/
def rmsNorm (x : List α) (weight : List F32) (n : Int) (eps : F32) : Exec (List α) :=
  rmsNormAt fl weight n eps 0 x

/-- The norms of the heads of the queries or of the keys, where the model has them. -/
def headNorms (norm : List F32) (nHeads headDim : Int) (eps : F32) (buf : List α) :
    Exec (List α) :=
  if norm ≠ [] ∧ toInt32 norm.length = headDim then
    (List.range nHeads.toNat).foldlM (fun buf (h : Nat) => do
      let off ← i32 (h * headDim)
      rmsNormAt fl norm headDim eps off buf) buf
  else .ok buf

/-! ## The rotation -/

/-- The angle of the pair `j` at a position. -/
def ropeAngle (theta : F32) (headDim : Int) (pos j : Nat) : α :=
  let exponent := fl.div (fl.mul (fl.ofInt 2) (fl.ofInt j)) (fl.ofInt headDim)
  fl.mul (fl.ofInt pos) (fl.div (fl.ofInt 1) (fl.pow (fl.val theta) exponent))

/-- The loops of `build_rope_cache` over one of its tables. -/
def ropeTable (entry : Nat → Nat → α) (maxSeqLen half : Int) : Exec (List α) := do
  let n ← i32 (maxSeqLen * half)
  if n < 0 then raise "vector::_M_default_append"
  else
    (List.range maxSeqLen.toNat).foldlM (fun table pos =>
      (List.range half.toNat).foldlM (fun table j =>
        writeAt table (pos * half.toNat + j) [entry pos j]) table) (List.replicate n.toNat 0)

/-- `build_rope_cache`. -/
def buildRopeCache (maxSeqLen headDim : Int) (theta : F32) : Exec (RoPECache α) := do
  let angle := ropeAngle fl theta headDim
  let sin ← ropeTable (fun pos j => fl.sin (angle pos j)) maxSeqLen (headDim.tdiv 2)
  let cos ← ropeTable (fun pos j => fl.cos (angle pos j)) maxSeqLen (headDim.tdiv 2)
  return { sin, cos, maxSeqLen, headDim }

omit [Zero α] in
/-- The pass over the pair `j` of the head at `off`. -/
def rotatePair (rope : RoPECache α) (base off : Int) (buf : List α) (j : Nat) :
    Exec (List α) := do
  let x0 ← loadAt buf (off + 2 * j)
  let x1 ← loadAt buf (off + (2 * j + 1))
  let cos ← loadAt rope.cos (base + j)
  let sin ← loadAt rope.sin (base + j)
  let buf ← storeAt buf (off + 2 * j) (fl.sub (fl.mul x0 cos) (fl.mul x1 sin))
  storeAt buf (off + (2 * j + 1)) (fl.add (fl.mul x0 sin) (fl.mul x1 cos))

omit [Zero α] in
/-- The loop over the heads of a buffer. -/
def rotateHeads (rope : RoPECache α) (base nHeads headDim : Int) (buf : List α) :
    Exec (List α) :=
  (List.range nHeads.toNat).foldlM (fun buf (h : Nat) => do
    let off ← i32 (h * headDim)
    (List.range (headDim.tdiv 2).toNat).foldlM (rotatePair fl rope base off) buf) buf

/-! ## Attention -/

/-- The row of a position and a group of heads in a buffer of the cache: `kh * HD + t * KV * HD`. -/
def cacheRow (cfg : ModelConfig) (kh : Int) (t : Nat) : Exec Int := do
  let head ← i32 (kh * cfg.headDim)
  let row ← i32 (t * cfg.numKeyValueHeads)
  let row ← i32 (row * cfg.headDim)
  return head + row

/-- The loop over the positions that scores the keys for head `h`. -/
def headScores (cfg : ModelConfig) (g : Int) (q keys : List α) (kvLen : Int) (scores : List α)
    (h : Nat) : Exec (List α) := do
  let kh ← div32 h g
  let qOff ← i32 (h * cfg.headDim)
  let sOff ← i32 (h * kvLen)
  (List.range kvLen.toNat).foldlM (fun scores (t : Nat) => do
    let row ← cacheRow cfg kh t
    let s ← dotRows fl q keys qOff row cfg.headDim.toNat
    storeAt scores (sOff + t) (fl.div s (fl.sqrt (fl.ofInt cfg.headDim)))) scores

omit [Zero α] in
/-- `*std::max_element` of the scores of a head. -/
def maxScore (scores : List α) (off kvLen : Int) : Exec α := do
  let first ← loadAt scores off
  (List.range kvLen.toNat).foldlM (fun best (t : Nat) => do
    let s ← loadAt scores (off + t)
    return if fl.less best s then s else best) first

/-- The softmax of the scores of head `h`. -/
def softmaxHead (kvLen : Int) (scores : List α) (h : Nat) : Exec (List α) := do
  let off ← i32 (h * kvLen)
  let maxv ← maxScore fl scores off kvLen
  let weights ← (List.range kvLen.toNat).foldlM (fun (p : List α × α) (t : Nat) => do
    let s ← loadAt p.1 (off + t)
    let e := fl.exp (fl.sub s maxv)
    let scores ← storeAt p.1 (off + t) e
    return (scores, fl.add p.2 e)) (scores, 0)
  (List.range kvLen.toNat).foldlM (fun scores (t : Nat) => do
    let s ← loadAt scores (off + t)
    storeAt scores (off + t) (fl.div s weights.2)) weights.1

omit [Zero α] in
/-- The loops that weight the values for head `h`. -/
def headOutput (cfg : ModelConfig) (g : Int) (values scores : List α) (kvLen : Int) (out : List α)
    (h : Nat) : Exec (List α) := do
  let kh ← div32 h g
  let oOff ← i32 (h * cfg.headDim)
  let sOff ← i32 (h * kvLen)
  (List.range kvLen.toNat).foldlM (fun out (t : Nat) => do
    let row ← cacheRow cfg kh t
    (List.range cfg.headDim.toNat).foldlM (fun out (j : Nat) => do
      let o ← loadAt out (oOff + j)
      let s ← loadAt scores (sOff + t)
      let v ← loadAt values (row + j)
      storeAt out (oOff + j) (fl.add o (fl.mul s v))) out) out

/-- `attention` behind the cache: the scores and the output of the heads. -/
def attend (cfg : ModelConfig) (g : Int) (layer : Nat) (thread : Thread α) (kv : KVCache α) :
    Exec (Thread α) := do
  let kvLen ← kv.length layer
  let keys ← load kv.kCache layer
  let values ← load kv.vCache layer
  let heads := List.range cfg.numAttentionHeads.toNat
  let scores ← scratchResize thread.attnScores (sizeT (cfg.numAttentionHeads * kvLen))
  let scores ← heads.foldlM (headScores fl cfg g thread.attnQ keys kvLen) scores
  let scores ← heads.foldlM (softmaxHead fl kvLen) scores
  let nq := sizeT (cfg.numAttentionHeads * cfg.headDim)
  let out ← scratchResize thread.attnOut nq
  let out ← writeAt out 0 (List.replicate nq 0)
  let out ← heads.foldlM (headOutput fl cfg g values scores kvLen) out
  return { thread with attnScores := scores, attnOut := out }

/-- The projections of a layer. -/
structure AttnLayers where
  q : LayerData
  k : LayerData
  v : LayerData
  o : LayerData

/-- `attention` up to the cache: the rotated queries and keys, and the values. -/
def attentionRows (cfg : ModelConfig) (proj : AttnLayers) (qNorm kNorm : List F32)
    (rope : RoPECache α) (seqPos : Int) (x : List α) (thread : Thread α) : Exec (Thread α) := do
  let nq := sizeT (cfg.numAttentionHeads * cfg.headDim)
  let nkv := sizeT (cfg.numKeyValueHeads * cfg.headDim)
  let q ← scratchResize thread.attnQ nq
  let k ← scratchResize thread.attnK nkv
  let v ← scratchResize thread.attnV nkv
  let q ← linearInto fl proj.q x q
  let k ← linearInto fl proj.k x k
  let v ← linearInto fl proj.v x v
  let q ← headNorms fl qNorm cfg.numAttentionHeads cfg.headDim cfg.rmsNormEps q
  let k ← headNorms fl kNorm cfg.numKeyValueHeads cfg.headDim cfg.rmsNormEps k
  let base ← i32 (seqPos * cfg.headDim.tdiv 2)
  let q ← rotateHeads fl rope base cfg.numAttentionHeads cfg.headDim q
  let k ← rotateHeads fl rope base cfg.numKeyValueHeads cfg.headDim k
  return { thread with attnQ := q, attnK := k, attnV := v }

/-- `attention`. -/
def attention (cfg : ModelConfig) (proj : AttnLayers) (qNorm kNorm : List F32)
    (rope : RoPECache α) (seqPos : Int) (layer : Nat) (p : Pass α) : Exec (Pass α) := do
  let g ← div32 cfg.numAttentionHeads cfg.numKeyValueHeads
  let thread ← attentionRows fl cfg proj qNorm kNorm rope seqPos p.x p.thread
  let kv ← p.kv.append layer thread.attnK thread.attnV seqPos
  let thread ← attend fl cfg g layer thread kv
  let x ← linearInto fl proj.o thread.attnOut p.x
  return { x, thread, kv }

/-! ## The feed-forward part -/

omit [Zero α] in
/-- `silu`. -/
def silu (x : α) : α := fl.div x (fl.add (fl.ofInt 1) (fl.exp (fl.neg x)))

/-- `mlp_forward`. -/
def mlpForward (gateProj upProj downProj : LayerData) (intermediateSize : Int) (p : Pass α) :
    Exec (Pass α) := do
  let gate ← scratchResize p.thread.gate (sizeT intermediateSize)
  let up ← scratchResize p.thread.up (sizeT intermediateSize)
  let gate ← linearInto fl gateProj p.x gate
  let up ← linearInto fl upProj p.x up
  let gate ← (List.range intermediateSize.toNat).foldlM (fun gate i => do
    let g ← load gate i
    let u ← load up i
    writeAt gate i [fl.mul (silu fl g) u]) gate
  let x ← linearInto fl downProj gate p.x
  return { p with x, thread := { p.thread with gate, up } }

omit [Zero α] in
/-- The MoTE layer of a block, if it has one. -/
def moteLayerOf (moteLayers : Option (List MoTELayerData)) (layer : Nat) : Option MoTELayerData :=
  (moteLayers.bind fun ls => (ls.take (toInt32 ls.length).toNat)[layer]?).filter (·.isMote)

/-- The feed-forward part of a block. -/
def feedForward (m : Model α) (layer : Nat) (p : Pass α) : Exec (Pass α) :=
  match moteLayerOf m.moteLayers layer with
  | some mote => do
    let x ← fl.mote mote p.x p.x m.cfg.hiddenSize m.cfg.intermediateSize
    return { p with x }
  | none => do
    let found := cachedMlpIdx m.addr m.layers layer p.thread.blkIdx
    let im ← found.1
    let gate ← load m.layers im.g.toNat
    let up ← load m.layers im.u.toNat
    let down ← load m.layers im.d.toNat
    mlpForward fl gate up down m.cfg.intermediateSize
      { p with thread := { p.thread with blkIdx := found.2 } }

/-! ## The pass -/

/-- The residual connection: `x[i] = residual[i] + sub[i] * x[i]`, or `x[i] += residual[i]` where
the model has no such norm. -/
def addResidual (sub : List F32) (n : Int) (residual x : List α) : Exec (List α) :=
  (List.range n.toNat).foldlM (fun x i => do
    let xi ← load x i
    let r ← load residual i
    if sub = [] then writeAt x i [fl.add xi r]
    else do
      let w ← load sub i
      writeAt x i [fl.add r (fl.mul (fl.val w) xi)]) x

/-- The projections that `transformer_block` looks up. -/
def attnLayers (layers : List LayerData) (a : AttnIdx) : Exec AttnLayers := do
  let q ← load layers a.q.toNat
  let k ← load layers a.k.toNat
  let v ← load layers a.v.toNat
  let o ← load layers a.o.toNat
  return { q, k, v, o }

/-- `transformer_block`. -/
def transformerBlock (m : Model α) (norms : NormWeights) (seqPos : Int) (layer : Nat) (p : Pass α) :
    Exec (Pass α) := do
  let hs := m.cfg.hiddenSize
  let eps := m.cfg.rmsNormEps
  let found := cachedAttnIdx m.addr m.layers layer p.thread.blkIdx
  let ia ← found.1
  let residual ← scratchResize p.thread.residual (sizeT hs)
  let residual ← copyInto p.x hs residual
  let x ← rmsNorm fl p.x norms.inputLayernorm hs eps
  let proj ← attnLayers m.layers ia
  let thread := { p.thread with blkIdx := found.2, residual }
  let p ← attention fl m.cfg proj norms.qNorm norms.kNorm m.rope seqPos layer { p with x, thread }
  let x ← addResidual fl norms.attnSubNorm hs p.thread.residual p.x
  let residual ← copyInto x hs p.thread.residual
  let x ← rmsNorm fl x norms.postAttentionLayernorm hs eps
  let p ← feedForward fl m layer { p with x, thread := { p.thread with residual } }
  let x ← addResidual fl norms.ffnSubNorm hs p.thread.residual p.x
  return { p with x }

/-- The token whose row of the embedding is read; `none` where there is no vocabulary. -/
def embeddedToken (vocabSize token : Int) : Option Nat :=
  if 0 ≤ token ∧ token < vocabSize then some token.toNat
  else if 0 < vocabSize then some 0 else none

/-- The embedding lookup into `tls_x`. -/
def embedToken (m : Model α) (token : Int) (x : List α) : Exec (List α) := do
  let n := sizeT m.cfg.hiddenSize
  let x ← exactResize x n
  match embeddedToken m.cfg.vocabSize token with
  | some t => do
    let row ← slice m.embedding (t * n) n
    writeAt x 0 (row.map fl.val)
  | none => return List.replicate n 0

/-- The index of the layer `lm_head`. -/
def lmHeadIndex (layers : List LayerData) : Option Nat :=
  (layers.take (toInt32 layers.length).toNat).findIdx? fun ld => ld.name == str "lm_head"

/-- The product of the activations with a row of the embedding. -/
def tiedLogit (m : Model α) (x : List α) (row : Nat) : Exec α :=
  (List.range m.cfg.hiddenSize.toNat).foldlM (fun dot j => do
    let e ← load m.embedding (row * sizeT m.cfg.hiddenSize + j)
    let xj ← load x j
    return fl.add dot (fl.mul (fl.val e) xj)) 0

/-- The loop over a block of rows of the vocabulary. -/
def tiedBlock (m : Model α) (x logits : List α) (b : Nat) : Exec (List α) := do
  let v0 ← i32 (b * 64)
  let v1 ← i32 (v0 + 64)
  (List.range (min v1 m.cfg.vocabSize - v0).toNat).foldlM (fun logits (k : Nat) => do
    let dot ← tiedLogit fl m x (v0 + k).toNat
    storeAt logits (v0 + k) dot) logits

/-- The loop over the blocks of the vocabulary where the embedding is the output matrix. -/
def tiedLogits (m : Model α) (x logits : List α) : Exec (List α) := do
  let n ← i32 (m.cfg.vocabSize + 64)
  let n ← i32 (n - 1)
  (List.range (n.tdiv 64).toNat).foldlM (tiedBlock fl m x) logits

/-- The logits into `tls_logits`. -/
def lmHead (m : Model α) (x logits : List α) : Exec (List α) := do
  let logits ← exactResize logits (sizeT m.cfg.vocabSize)
  match lmHeadIndex m.layers with
  | some i => do
    let layer ← load m.layers i
    linearInto fl layer x logits
  | none => tiedLogits fl m x logits

/-- `model_forward`: what it leaves in `tls_logits` and in the cache. -/
def modelForward (m : Model α) (token seqPos : Int) (thread : Thread α) (kv : KVCache α) :
    Exec (Thread α × KVCache α) := do
  let x ← embedToken fl m token thread.x
  let p ← (List.range m.cfg.numHiddenLayers.toNat).foldlM (fun p layer => do
    let norms ← load m.layerNorms layer
    transformerBlock fl m norms seqPos layer p) { x, thread, kv }
  let x ← rmsNorm fl p.x m.finalNorm m.cfg.hiddenSize m.cfg.rmsNormEps
  let logits ← lmHead fl m x p.thread.logits
  return ({ p.thread with x, logits }, p.kv)

/-- `model_forward` for one token after another, the first at position `pos`. -/
def decode (m : Model α) (pos : Nat) (tokens : List Int) (thread : Thread α) (kv : KVCache α) :
    Exec (Thread α × KVCache α) :=
  match tokens with
  | [] => .ok (thread, kv)
  | token :: tokens => do
    let r ← modelForward fl m token pos thread kv
    decode m (pos + 1) tokens r.1 r.2

end

end Forward

/-- What the pass takes from the standard library. -/
structure LibOps (K : Type) extends MoteOps K where
  sqrt : K → K
  sin : K → K
  cos : K → K
  pow : K → K → K

open Forward in
/-- Exact arithmetic in a field, with the functions of the standard library abstract. -/
def Machine.arith {K : Type} [Field K] [LinearOrder K] (m : Machine K) (ops : LibOps K) :
    Arith K where
  val := m.val
  ofInt n := n
  add := (· + ·)
  sub := (· - ·)
  mul := (· * ·)
  div := (· / ·)
  neg := (- ·)
  sqrt := ops.sqrt
  exp := ops.exp
  sin := ops.sin
  cos := ops.cos
  pow := ops.pow
  less a b := decide (a < b)
  linear := ternaryLinearDispatch m
  mote := moteTernaryLinear m ops.toMoteOps

end Terllama
