import Terllama.Core.Sampling
import Terllama.Kernel.PlaneLayer
import Terllama.Loader.Mote

/-!
# The MoTE feed-forward pass

`mote_ternary_linear` of `src/kernel_mote.cpp`: a router picks the `top_k` most probable experts, and
their weighted hidden vectors are added to that of the shared expert. One projection goes down from
the sum, the shared one (`moteTernaryLinear_ok`); the down projections of the experts are never read.
`moteTernaryLinear_iff` compares this with the mixture that the data model declares.
-/

namespace Terllama

/-- `Scored`: a router probability and the expert it belongs to. -/
structure Scored (K : Type) where
  prob : K
  idx : Nat
  deriving DecidableEq

/-- What the pass takes from the standard library. -/
structure MoteOps (K : Type) where
  /-- `std::exp`. -/
  exp : K → K
  /-- `std::partial_sort` of the first `n` places by descending `prob`. -/
  partialSort : Nat → List (Scored K) → List (Scored K)

section
variable {K : Type} [Field K] [LinearOrder K] (m : Machine K) (ops : MoteOps K)

/-! ## The pass -/

/-- `silu_mote`. -/
def siluMote (x : K) : K := x / (1 + ops.exp (-x))

/-- A vector of `n` zeros. -/
def floatVector (n : Int) : Exec (List K) := do
  vectorAlloc (sizeT n) 4
  return List.replicate (sizeT n) 0

/-- A call of `ternary_linear_dispatch` that writes to a buffer. -/
def linearInto (layer : LayerData) (x buf : List K) : Exec (List K) := do
  let out ← ternaryLinearDispatch m layer x
  writeAt buf 0 out

/-- A loop over the first `n` elements of the gate and the up buffer. -/
def combineBufs (f : K → K → K) (gate up : List K) (n : Nat) : Exec (List K) :=
  (List.range n).mapM fun i => do
    let g ← load gate i
    let u ← load up i
    return f g u

/-- The router: one logit for each expert. -/
def routerLogits (mote : MoTELayerData) (x : List K) (hiddenSize : Int) : Exec (List K) := do
  let _ : List K ← floatVector mote.numExperts
  (List.range mote.numExperts.toNat).mapM fun (k : Nat) => do
    let sum ← (List.range hiddenSize.toNat).foldlM (fun sum i => do
      let xi ← load x i
      let row ← i32 (i * mote.numExperts)
      let idx ← i32 (row + k)
      let w ← load mote.routerWeight idx.toNat
      return sum + xi * m.val w) 0
    return sum * m.val mote.routerScale

/-- The softmax of the logits; 0x2EDBE6FF is `1e-10f`. -/
def routerProbs (logits : List K) : Exec (List K) := do
  let maxLogit ← load logits (maxElement logits)
  let exps := logits.map fun l => ops.exp (l - maxLogit)
  let sumProbs := exps.foldl (fun sum p => sum + p) 0
  let invSum := 1 / (sumProbs + m.val 0x2EDBE6FF)
  return exps.map fun p => p * invSum

/-- The scored experts, with the `topk` best in front. -/
def scoredExperts (probs : List K) (topk : Int) : Exec (List (Scored K)) :=
  if topk < 0 then undefined "iterator before the beginning"
  else .ok (ops.partialSort topk.toNat
    ((List.range probs.length).map fun k => ⟨probs.getD k 0, k⟩))

/-- A pass over the routed expert at place `e`. -/
def routedExpert (mote : MoTELayerData) (x : List K) (n : Nat) (scored : List (Scored K))
    (bufs : List K × List K × List K) (e : Nat) : Exec (List K × List K × List K) := do
  let s ← load scored e
  let gateLayer ← load mote.expertGate s.idx
  let gate ← linearInto m gateLayer x bufs.1
  let upLayer ← load mote.expertUp s.idx
  let up ← linearInto m upLayer x bufs.2.1
  let dest ← combineBufs (fun g u => s.prob * siluMote ops g * u) gate up n
  let contrib ← writeAt bufs.2.2 (e * n) dest
  return (gate, up, contrib)

/-- `mote_ternary_linear`: what it leaves in `output`. -/
def moteTernaryLinear (mote : MoTELayerData) (x output : List K)
    (hiddenSize intermediateSize : Int) : Exec (List K) :=
  if mote.numExperts = 0 ∨ mote.isMote = false then do
    let gate ← floatVector intermediateSize
    let up ← floatVector intermediateSize
    let gate ← linearInto m mote.gateProj x gate
    let up ← linearInto m mote.upProj x up
    let gate ← combineBufs (fun g u => siluMote ops g * u) gate up intermediateSize.toNat
    linearInto m mote.downProj gate output
  else do
    let logits ← routerLogits m mote x hiddenSize
    let probs ← routerProbs m ops logits
    let topk := min mote.topK mote.numExperts
    let scored ← scoredExperts ops probs topk
    let n := intermediateSize.toNat
    let gate ← floatVector intermediateSize
    let up ← floatVector intermediateSize
    let gate ← linearInto m mote.gateProj x gate
    let up ← linearInto m mote.upProj x up
    let combined ← combineBufs (fun g u => siluMote ops g * u) gate up n
    let contrib ← floatVector (topk * intermediateSize)
    let (_, _, contrib) ← (List.range topk.toNat).foldlM (routedExpert m ops mote x n scored)
      (gate, up, contrib)
    let combined ← (List.range n).mapM fun i => do
      let c ← load combined i
      (List.range topk.toNat).foldlM (fun acc e => do
        let d ← load contrib (e * n + i)
        return acc + d) c
    linearInto m mote.downProj combined output

/-! ## What the pass is meant to compute -/

/-- The weights of the projections: those of the shared expert, and those of each routed one. -/
structure MoteWeights (K : Type) where
  gate : Nat → Nat → K
  up : Nat → Nat → K
  down : Nat → Nat → K
  expertGate : Nat → Nat → Nat → K
  expertUp : Nat → Nat → Nat → K
  expertDown : Nat → Nat → Nat → K

/-- A row of a matrix times a vector. -/
def rowTimes (w : Nat → Nat → K) (cols : Nat) (x : Nat → K) (row : Nat) : K :=
  ∑ j ∈ Finset.range cols, w row j * x j

/-- The hidden vector of an expert: `silu(gate x) * up x`. -/
def moteHidden (gate up : Nat → Nat → K) (cols : Nat) (x : Nat → K) (i : Nat) : K :=
  siluMote ops (rowTimes gate cols x i) * rowTimes up cols x i

/-- The logit of expert `k` of `n`. -/
def moteLogit (mote : MoTELayerData) (cols n : Nat) (x : Nat → K) (k : Nat) : K :=
  (∑ i ∈ Finset.range cols, x i * m.val (mote.routerWeight.getD (i * n + k) 0)) *
    m.val mote.routerScale

/-- The weight of a logit before the weights are normed: its distance to the largest one. -/
def moteExp (logits : List K) (l : K) : K :=
  ops.exp (l - logits.getD (maxElement logits) 0)

/-- The probabilities of the experts: the softmax of their logits. -/
def moteProbs (logits : List K) : List K :=
  logits.map fun l => moteExp ops logits l *
    (1 / ((logits.map (moteExp ops logits)).sum + m.val 0x2EDBE6FF))

/-- The experts in a list of probabilities. -/
def scored (probs : List K) : List (Scored K) :=
  (List.range probs.length).map fun k => ⟨probs.getD k 0, k⟩

/-- The `topk` experts that the router picks out of `n`. -/
def moteTop (mote : MoTELayerData) (cols n topk : Nat) (x : Nat → K) : List (Scored K) :=
  (ops.partialSort topk
    (scored (moteProbs m ops ((List.range n).map (moteLogit m mote cols n x))))).take topk

/-- The mixture: the shared expert, and the routed experts by their probabilities, each through its
own projections. -/
def moteMixture (w : MoteWeights K) (top : List (Scored K)) (cols inner : Nat) (x : Nat → K)
    (row : Nat) : K :=
  rowTimes w.down inner (moteHidden ops w.gate w.up cols x) row +
    (top.map fun s => s.prob * rowTimes (w.expertDown s.idx) inner
      (moteHidden ops (w.expertGate s.idx) (w.expertUp s.idx) cols x) row).sum

/-- What the routed experts' own projections make of the routed part, less what the shared one
does. -/
def moteDefect (w : MoteWeights K) (top : List (Scored K)) (cols inner : Nat) (x : Nat → K)
    (row : Nat) : K :=
  (top.map fun s => s.prob * rowTimes (fun r i => w.expertDown s.idx r i - w.down r i) inner
    (moteHidden ops (w.expertGate s.idx) (w.expertUp s.idx) cols x) row).sum

/-- A layer computes a matrix of `rows` rows and `cols` columns. -/
def LayerData.Computes (ld : LayerData) (rows cols : Nat) (w : Nat → Nat → K) : Prop :=
  ∀ x : List K, cols ≤ x.length →
    ternaryLinearDispatch m ld x = .ok ((List.range rows).map (rowTimes w cols (x.getD · 0)))

/-- A MoTE layer of `n` experts between `cols` and `inner` elements, `topk` of which are used. -/
structure MoTELayerData.Forward (mote : MoTELayerData) (w : MoteWeights K)
    (cols inner n topk : Nat) : Prop where
  isMote : mote.isMote = true
  numExperts : mote.numExperts = n
  topK : mote.topK = topk
  topk_pos : 1 ≤ topk
  topk_le : topk ≤ n
  n_le : n ≤ 2147483647
  inner_le : inner ≤ 2147483647
  contrib_le : topk * inner ≤ 2305843009213693951
  router : mote.routerWeight.length = cols * n
  router_le : cols * n ≤ 2147483647
  gate : mote.gateProj.Computes m inner cols w.gate
  up : mote.upProj.Computes m inner cols w.up
  down : mote.downProj.Computes m cols inner w.down
  expertGate_length : mote.expertGate.length = n
  expertUp_length : mote.expertUp.length = n
  expertGate : ∀ e < n, (mote.expertGate.getD e default).Computes m inner cols (w.expertGate e)
  expertUp : ∀ e < n, (mote.expertUp.getD e default).Computes m inner cols (w.expertUp e)
  expertDown : ∀ e < n, (mote.expertDown.getD e default).Computes m cols inner (w.expertDown e)

/-- `std::partial_sort`: the elements are the same, the first `n` are in descending order, and none
behind them is greater. -/
structure MoteOps.PartialSorts (ops : MoteOps K) : Prop where
  perm : ∀ n l, (ops.partialSort n l).Perm l
  sorted : ∀ n l, ((ops.partialSort n l).take n).Pairwise fun a b => b.prob ≤ a.prob
  rest : ∀ n l, ∀ a ∈ (ops.partialSort n l).take n, ∀ b ∈ (ops.partialSort n l).drop n,
    b.prob ≤ a.prob

variable {m ops}

/-! ## What the steps compute -/

omit [LinearOrder K] in
theorem floatVector_ok {n : Nat} (h : n ≤ 2305843009213693951) :
    floatVector (n : Int) = .ok (List.replicate n (0 : K)) := by
  have hsize : sizeT (n : Int) = n := by
    rw [sizeT_of_nonneg (by omega) (by omega), Int.toNat_natCast]
  rw [floatVector, hsize, vectorAlloc_ok (by unfold vectorMaxSize; omega)]
  rfl

theorem linearInto_ok {ld : LayerData} {rows cols : Nat} {w : Nat → Nat → K}
    (h : ld.Computes m rows cols w) {x buf : List K} (hx : cols ≤ x.length)
    (hbuf : buf.length = rows) :
    linearInto m ld x buf = .ok ((List.range rows).map (rowTimes w cols (x.getD · 0))) := by
  rw [linearInto, h x hx, ok_bind]
  exact (fills_writeAt 0 _).run (by rw [hbuf, List.length_map, List.length_range])

omit [LinearOrder K] in
theorem combineBufs_ok (f : K → K → K) (g u : Nat → K) (n : Nat) :
    combineBufs f ((List.range n).map g) ((List.range n).map u) n =
      .ok ((List.range n).map fun i => f (g i) (u i)) := by
  refine mapM_ok fun i hi => ?_
  have hi := List.mem_range.1 hi
  rw [load_getD (by rwa [List.length_map, List.length_range]) 0, ok_bind,
    load_getD (by rwa [List.length_map, List.length_range]) 0, ok_bind, getD_map_range _ hi,
    getD_map_range _ hi]
  rfl

omit [LinearOrder K] in
/-- The router computes the logits. -/
theorem routerLogits_ok {mote : MoTELayerData} {cols n : Nat} (hn : mote.numExperts = n)
    (hn' : n ≤ 2147483647) (hrouter : mote.routerWeight.length = cols * n)
    (hle : cols * n ≤ 2147483647) {x : List K} (hx : cols ≤ x.length) :
    routerLogits m mote x cols =
      .ok ((List.range n).map (moteLogit m mote cols n (x.getD · 0))) := by
  rw [routerLogits, hn, floatVector_ok (by omega), ok_bind]
  simp only [Int.toNat_natCast]
  refine mapM_ok fun k hk => ?_
  have hk := List.mem_range.1 hk
  have hstep : ∀ acc, ∀ i < cols, (do
      let xi ← load x i
      let row ← i32 (i * (n : Int))
      let idx ← i32 (row + k)
      let w ← load mote.routerWeight idx.toNat
      return acc + xi * m.val w) =
      .ok (acc + x.getD i 0 * m.val (mote.routerWeight.getD (i * n + k) 0)) := by
    intro acc i hi
    have hrow := Nat.mul_le_mul_right n (Nat.succ_le_of_lt hi)
    rw [Nat.succ_mul] at hrow
    have hcast : (i : Int) * n = (i * n : Nat) := (Int.natCast_mul i n).symm
    rw [load_getD (by omega) 0, ok_bind, hcast, i32_ok (by omega) (by omega), ok_bind,
      i32_ok (by omega) (by omega), ok_bind, ← Int.natCast_add, Int.toNat_natCast,
      load_getD (by omega) 0, ok_bind]
    rfl
  rw [foldlM_range_add hstep, ok_bind, zero_add]
  rfl

/-- The softmax of the logits. -/
theorem routerProbs_ok {logits : List K} (h : logits ≠ []) :
    routerProbs m ops logits = .ok (moteProbs m ops logits) := by
  rw [routerProbs, load_getD (maxElement_lt h) 0, ok_bind, moteProbs]
  dsimp only
  rw [← List.sum_eq_foldl, List.map_map]
  rfl

/-! ## The routed experts -/

section
variable {mote : MoTELayerData} {w : MoteWeights K} {cols inner n topk : Nat} {x : List K}

omit [Field K] in
theorem MoteOps.PartialSorts.length_eq (h : ops.PartialSorts) (n : Nat) (l : List (Scored K)) :
    (ops.partialSort n l).length = l.length := (h.perm n l).length_eq

/-- The router picks experts that are there. -/
theorem idx_lt_of_mem_scored (hops : ops.PartialSorts) {probs : List K} {s : Scored K}
    (hs : s ∈ ops.partialSort topk (scored probs)) : s.idx < probs.length := by
  have hs := (hops.perm _ _).mem_iff.1 hs
  obtain ⟨k, hk, rfl⟩ := List.mem_map.1 hs
  exact List.mem_range.1 hk

/-- The pass over the routed expert at place `e` stores its weighted hidden vector. -/
theorem routedExpert_ok (ops : MoteOps K) (h : mote.Forward m w cols inner n topk) (hx : cols ≤ x.length)
    {sc : List (Scored K)} {e : Nat} (he : e < sc.length) (hidx : sc[e].idx < n)
    {bufs : List K × List K × List K} (hgate : bufs.1.length = inner)
    (hup : bufs.2.1.length = inner) (hroom : e * inner + inner ≤ bufs.2.2.length) :
    ∃ bufs', routedExpert m ops mote x inner sc bufs e = .ok bufs' ∧ bufs'.1.length = inner ∧
      bufs'.2.1.length = inner ∧ bufs'.2.2.length = bufs.2.2.length ∧
      ∀ i d, bufs'.2.2.getD i d = if e * inner ≤ i ∧ i < e * inner + inner then
        sc[e].prob * moteHidden ops (w.expertGate sc[e].idx) (w.expertUp sc[e].idx) cols
          (x.getD · 0) (i - e * inner)
        else bufs.2.2.getD i d := by
  have hlen : ∀ f : Nat → K, ((List.range inner).map f).length = inner := fun f => by
    rw [List.length_map, List.length_range]
  have hspace : e * inner + ((List.range inner).map fun i =>
      sc[e].prob * siluMote ops (rowTimes (w.expertGate sc[e].idx) cols (x.getD · 0) i) *
        rowTimes (w.expertUp sc[e].idx) cols (x.getD · 0) i).length ≤ bufs.2.2.length := by
    rwa [hlen]
  obtain ⟨contrib, hwrite, hsize, hget⟩ := (fills_writeAt (e * inner) _).frame hspace
  have hload : load sc e = .ok sc[e] := load_eq (List.getElem?_eq_getElem he)
  refine ⟨((List.range inner).map (rowTimes (w.expertGate sc[e].idx) cols (x.getD · 0)),
    (List.range inner).map (rowTimes (w.expertUp sc[e].idx) cols (x.getD · 0)), contrib),
    ?_, hlen _, hlen _, hsize, fun i d => ?_⟩
  · rw [routedExpert, hload, ok_bind, load_getD (by rwa [h.expertGate_length]) default, ok_bind,
      linearInto_ok (h.expertGate _ hidx) hx hgate, ok_bind,
      load_getD (by rwa [h.expertUp_length]) default, ok_bind,
      linearInto_ok (h.expertUp _ hidx) hx hup, ok_bind, combineBufs_ok, ok_bind, hwrite, ok_bind]
    rfl
  · rw [hget, hlen]
    split
    · next hin => rw [getD_map_range _ (by omega), moteHidden, mul_assoc]
    · rfl

/-- The contributions of the first routed experts are in their places. -/
structure Contributions (ops : MoteOps K) (w : MoteWeights K) (cols inner topk : Nat) (x : List K)
    (sc : List (Scored K)) (e : Nat) (bufs : List K × List K × List K) : Prop where
  gate : bufs.1.length = inner
  up : bufs.2.1.length = inner
  length_eq : bufs.2.2.length = topk * inner
  placed : ∀ e' < e, ∀ i < inner, ∀ s, sc[e']? = some s → bufs.2.2.getD (e' * inner + i) 0 =
    s.prob * moteHidden ops (w.expertGate s.idx) (w.expertUp s.idx) cols (x.getD · 0) i

/-- The loop over the routed experts. -/
theorem routedExperts_ok (ops : MoteOps K) (h : mote.Forward m w cols inner n topk)
    (hx : cols ≤ x.length) {sc : List (Scored K)} (hlen : topk ≤ sc.length)
    (hidx : ∀ s ∈ sc, s.idx < n) (bufs : List K × List K × List K) (hgate : bufs.1.length = inner)
    (hup : bufs.2.1.length = inner) (hsize : bufs.2.2.length = topk * inner) :
    ∃ bufs', (List.range topk).foldlM (routedExpert m ops mote x inner sc) bufs = .ok bufs' ∧
      Contributions ops w cols inner topk x sc topk bufs' := by
  refine foldlM_range_total (I := fun e bufs => Contributions ops w cols inner topk x sc e bufs)
    ⟨hgate, hup, hsize, fun e' he' => absurd he' (Nat.not_lt_zero e')⟩ fun e he bufs hinv => ?_
  have helt : e < sc.length := he.trans_le hlen
  have hplace := Nat.mul_le_mul_right inner (Nat.succ_le_of_lt he)
  rw [Nat.succ_mul] at hplace
  obtain ⟨bufs', hrun, hgate', hup', hsize', hget⟩ := routedExpert_ok ops h hx helt
    (hidx _ (List.getElem_mem helt)) hinv.gate hinv.up (hplace.trans hinv.length_eq.ge)
  refine ⟨bufs', hrun, hgate', hup', hsize'.trans hinv.length_eq, fun e' he' i hi s hs => ?_⟩
  rw [hget]
  rcases Nat.lt_succ_iff_lt_or_eq.1 he' with hlt | rfl
  · have hbefore := Nat.mul_le_mul_right inner (Nat.succ_le_of_lt hlt)
    rw [Nat.succ_mul] at hbefore
    rw [if_neg (by omega), hinv.placed e' hlt i hi s hs]
  · rw [List.getElem?_eq_getElem helt] at hs
    obtain rfl := Option.some.inj hs
    rw [if_pos (by omega), Nat.add_sub_cancel_left]

/-- The pass returns the shared down projection of the sum of all hidden vectors. -/
theorem moteTernaryLinear_ok (hops : ops.PartialSorts) (h : mote.Forward m w cols inner n topk)
    (hx : cols ≤ x.length) {output : List K} (hout : output.length = cols) :
    moteTernaryLinear m ops mote x output cols inner =
      .ok ((List.range cols).map (rowTimes w.down inner fun i =>
        moteHidden ops w.gate w.up cols (x.getD · 0) i +
          ((moteTop m ops mote cols n topk (x.getD · 0)).map fun s => s.prob *
            moteHidden ops (w.expertGate s.idx) (w.expertUp s.idx) cols (x.getD · 0) i).sum)) := by
  have hpos := h.topk_pos
  have hle := h.topk_le
  have hn := h.n_le
  have hinner := h.inner_le
  have hzeros : (List.replicate inner (0 : K)).length = inner := List.length_replicate
  have hrange : ∀ f : Nat → K, ((List.range inner).map f).length = inner := fun f => by
    rw [List.length_map, List.length_range]
  have hguard : ¬ (mote.numExperts = 0 ∨ mote.isMote = false) := by
    rw [h.numExperts, h.isMote]
    simp
    omega
  have hmin : min mote.topK mote.numExperts = (topk : Int) := by
    rw [h.topK, h.numExperts]
    omega
  have hlogits : (List.range n).map (moteLogit m mote cols n (x.getD · 0)) ≠ [] := by
    simp
    omega
  have hcontrib : floatVector ((topk : Int) * inner) = .ok (List.replicate (topk * inner) (0 : K)) := by
    rw [← Int.natCast_mul]
    exact floatVector_ok h.contrib_le
  -- the experts in the order of the router
  generalize hprobs : moteProbs m ops ((List.range n).map (moteLogit m mote cols n (x.getD · 0))) =
    probs
  have hcount : probs.length = n := by
    rw [← hprobs, moteProbs, List.length_map, List.length_map, List.length_range]
  have hscored : scoredExperts ops probs (topk : Int) =
      .ok (ops.partialSort topk (scored probs)) := by
    rw [scoredExperts, if_neg (by omega), Int.toNat_natCast, scored]
  have hlen : (ops.partialSort topk (scored probs)).length = n := by
    rw [hops.length_eq, scored, List.length_map, List.length_range, hcount]
  obtain ⟨bufs, hrun, hinv⟩ := routedExperts_ok ops h hx (hle.trans hlen.ge)
    (fun s hs => hcount ▸ idx_lt_of_mem_scored hops hs)
    ((List.range inner).map (rowTimes w.gate cols (x.getD · 0)),
      (List.range inner).map (rowTimes w.up cols (x.getD · 0)), List.replicate (topk * inner) 0)
    (hrange _) (hrange _) List.length_replicate
  have hcombined : ∀ i ∈ List.range inner, (do
      let c ← load ((List.range inner).map fun i =>
        siluMote ops (rowTimes w.gate cols (x.getD · 0) i) * rowTimes w.up cols (x.getD · 0) i) i
      (List.range topk).foldlM (fun acc e => do
        let d ← load bufs.2.2 (e * inner + i)
        return acc + d) c) =
      .ok (moteHidden ops w.gate w.up cols (x.getD · 0) i +
        ((moteTop m ops mote cols n topk (x.getD · 0)).map fun s => s.prob *
          moteHidden ops (w.expertGate s.idx) (w.expertUp s.idx) cols (x.getD · 0) i).sum) := by
    intro i hi
    have hi := List.mem_range.1 hi
    have htop : moteTop m ops mote cols n topk (x.getD · 0) =
        (ops.partialSort topk (scored probs)).take topk := by rw [moteTop, hprobs]
    have htake : ((ops.partialSort topk (scored probs)).take topk).length = topk := by
      rw [List.length_take, hlen, Nat.min_eq_left hle]
    have hstep : ∀ acc, ∀ e < topk, (do
        let d ← load bufs.2.2 (e * inner + i)
        return acc + d) = .ok (acc +
          (fun s : Scored K => s.prob * moteHidden ops (w.expertGate s.idx) (w.expertUp s.idx)
            cols (x.getD · 0) i) (((ops.partialSort topk (scored probs)).take topk).getD e ⟨0, 0⟩)) := by
      intro acc e he
      have hplace := Nat.mul_le_mul_right inner (Nat.succ_le_of_lt he)
      rw [Nat.succ_mul] at hplace
      have hget : (ops.partialSort topk (scored probs))[e]? =
          some (((ops.partialSort topk (scored probs)).take topk).getD e ⟨0, 0⟩) := by
        rw [List.getD_eq_getElem _ _ (by rwa [htake]), List.getElem_take,
          List.getElem?_eq_getElem]
      rw [load_getD (by rw [hinv.length_eq]; omega) 0, ok_bind,
        hinv.placed e he i hi _ hget]
      rfl
    rw [load_getD (by rwa [hrange]) 0, ok_bind, getD_map_range _ hi, foldlM_range_add hstep, htop]
    have hsum := sum_range_getD ((ops.partialSort topk (scored probs)).take topk) ⟨0, 0⟩
      fun s => s.prob * moteHidden ops (w.expertGate s.idx) (w.expertUp s.idx) cols (x.getD · 0) i
    rw [htake] at hsum
    rw [hsum]
    rfl
  rw [moteTernaryLinear, if_neg hguard, routerLogits_ok h.numExperts hn h.router h.router_le hx,
    ok_bind, routerProbs_ok hlogits, hprobs, ok_bind]
  dsimp only
  rw [hmin, hscored, ok_bind, floatVector_ok (by omega), ok_bind, ok_bind,
    linearInto_ok h.gate hx hzeros, ok_bind, linearInto_ok h.up hx hzeros, ok_bind,
    Int.toNat_natCast, combineBufs_ok, ok_bind, hcontrib, ok_bind, Int.toNat_natCast, hrun, ok_bind]
  rw [mapM_ok hcombined, ok_bind, linearInto_ok h.down (hrange _).ge hout]
  refine congrArg Except.ok (List.map_congr_left fun row _ => Finset.sum_congr rfl fun i hi => ?_)
  exact congrArg _ (getD_map_range _ (Finset.mem_range.1 hi) 0)

/-! ## The mixture -/

omit [LinearOrder K] in
theorem rowTimes_add (a : Nat → Nat → K) (cols : Nat) (x y : Nat → K) (row : Nat) :
    rowTimes a cols (fun i => x i + y i) row = rowTimes a cols x row + rowTimes a cols y row := by
  rw [rowTimes, rowTimes, rowTimes, ← Finset.sum_add_distrib]
  exact Finset.sum_congr rfl fun i _ => mul_add _ _ _

omit [LinearOrder K] in
/-- A matrix times a weighted sum of vectors. -/
theorem rowTimes_sum (a : Nat → Nat → K) (cols : Nat) (top : List (Scored K))
    (x : Scored K → Nat → K) (row : Nat) :
    rowTimes a cols (fun i => (top.map fun s => s.prob * x s i).sum) row =
      (top.map fun s => s.prob * rowTimes a cols (x s) row).sum := by
  induction top with
  | nil => simp [rowTimes]
  | cons s top ih =>
    have hcons : (fun i => ((s :: top).map fun s => s.prob * x s i).sum) =
        fun i => s.prob * x s i + (top.map fun s => s.prob * x s i).sum := by
      funext i
      rw [List.map_cons, List.sum_cons]
    rw [hcons, rowTimes_add, ih, List.map_cons, List.sum_cons, rowTimes, rowTimes, Finset.mul_sum]
    refine congrArg (· + _) (Finset.sum_congr rfl fun i _ => ?_)
    ring

omit [LinearOrder K] in
/-- The pass falls short of the mixture by what the experts' own projections would add. -/
theorem mixture_eq (w : MoteWeights K) (top : List (Scored K)) (cols inner : Nat) (x : Nat → K)
    (row : Nat) :
    moteMixture ops w top cols inner x row = rowTimes w.down inner (fun i =>
      moteHidden ops w.gate w.up cols x i + (top.map fun s => s.prob *
        moteHidden ops (w.expertGate s.idx) (w.expertUp s.idx) cols x i).sum) row +
      moteDefect ops w top cols inner x row := by
  have hdown : ∀ s : Scored K, rowTimes (w.expertDown s.idx) inner
      (moteHidden ops (w.expertGate s.idx) (w.expertUp s.idx) cols x) row =
      rowTimes w.down inner (moteHidden ops (w.expertGate s.idx) (w.expertUp s.idx) cols x) row +
        rowTimes (fun r i => w.expertDown s.idx r i - w.down r i) inner
          (moteHidden ops (w.expertGate s.idx) (w.expertUp s.idx) cols x) row := by
    intro s
    rw [rowTimes, rowTimes, rowTimes, ← Finset.sum_add_distrib]
    exact Finset.sum_congr rfl fun i _ => by ring
  have hsum : (top.map fun s => s.prob * rowTimes (w.expertDown s.idx) inner
      (moteHidden ops (w.expertGate s.idx) (w.expertUp s.idx) cols x) row).sum =
      (top.map fun s => s.prob * rowTimes w.down inner
        (moteHidden ops (w.expertGate s.idx) (w.expertUp s.idx) cols x) row).sum +
        moteDefect ops w top cols inner x row := by
    rw [moteDefect, ← List.sum_map_add]
    exact congrArg List.sum (List.map_congr_left fun s _ => by rw [hdown s, mul_add])
  rw [moteMixture, hsum, rowTimes_add, rowTimes_sum w.down inner top fun s =>
    moteHidden ops (w.expertGate s.idx) (w.expertUp s.idx) cols x, add_assoc]

/-! ## Layers that compute a matrix -/

section
variable {ld : LayerData} {rows cols : Nat}

/-- A raw layer computes its weights, where the offsets of its rows are `int`s. -/
theorem computes_raw_of_offsets (hraw : ld.hasRawWeights = true) (hout : ld.outFeatures = rows)
    (hin : ld.inFeatures = cols) (hlen : rows * cols ≤ ld.rawWeights.length)
    (hle : ∀ row < rows, row * cols ≤ 2147483647) :
    ld.Computes m rows cols fun r j => m.val (ld.rawWeights.getD (r * cols + j) 0) := by
  intro x hx
  -- the rows are counted by an `int`
  have hrange : (List.range rows >>= fun row => pure (row : Int)) = (List.range rows).map Nat.cast :=
    List.flatMap_pure_eq_map _ _
  rw [ternaryLinearDispatch, if_pos hraw, rawLinear, hout, hin]
  simp only [Int.toNat_natCast]
  rw [hrange, List.mapM_map]
  refine mapM_ok fun row hrow => ?_
  rw [Function.comp_apply]
  have hoffset := hle row (List.mem_range.1 hrow)
  have hrow := Nat.mul_le_mul_right cols (Nat.succ_le_of_lt (List.mem_range.1 hrow))
  rw [Nat.succ_mul] at hrow
  have hcast : (row : Int) * cols = (row * cols : Nat) := (Int.natCast_mul row cols).symm
  rw [hcast, i32_ok (by omega) (by omega), ok_bind, Int.toNat_natCast]
  have hstep : ∀ acc, ∀ j < cols, (do
      let wj ← load ld.rawWeights (row * cols + j)
      let xj ← load x j
      return acc + m.val wj * xj) =
      .ok (acc + m.val (ld.rawWeights.getD (row * cols + j) 0) * x.getD j 0) := by
    intro acc j hj
    rw [load_getD (by omega) 0, ok_bind, load_getD (by omega) 0, ok_bind]
    rfl
  rw [foldlM_range_add hstep, zero_add]
  rfl

/-- A raw layer of a size that an `int` holds computes its weights. -/
theorem computes_raw (hraw : ld.hasRawWeights = true) (hout : ld.outFeatures = rows)
    (hin : ld.inFeatures = cols) (hlen : rows * cols ≤ ld.rawWeights.length)
    (hle : rows * cols ≤ 2147483647) :
    ld.Computes m rows cols fun r j => m.val (ld.rawWeights.getD (r * cols + j) 0) :=
  computes_raw_of_offsets hraw hout hin hlen fun _ hrow =>
    (Nat.mul_le_mul_right cols hrow.le).trans hle

/-- A raw layer that returns has rows with offsets that are `int`s. -/
theorem rawLinear_offsets (hout : ld.outFeatures = rows) (hin : ld.inFeatures = cols) {x y : List K}
    (h : rawLinear m ld x = .ok y) {row : Nat} (hrow : row < rows) : row * cols ≤ 2147483647 := by
  have hrange : (List.range rows >>= fun row => pure (row : Int)) = (List.range rows).map Nat.cast :=
    List.flatMap_pure_eq_map _ _
  rw [rawLinear, hout, hin] at h
  simp only [Int.toNat_natCast] at h
  rw [hrange] at h
  obtain ⟨b, hb⟩ := exists_mapM_ok_iff.1 ⟨y, h⟩ (row : Int)
    (List.mem_map.2 ⟨row, List.mem_range.2 hrow, rfl⟩)
  obtain ⟨off, hoff, -⟩ := bind_eq_ok.1 hb
  obtain ⟨-, -, hle⟩ := i32_eq_ok.1 hoff
  rw [← Int.natCast_mul] at hle
  omega

/-- A cached block layer computes its block terms, on a CPU without vector extensions. -/
theorem computes_blocks (hcpu : m.cpu = .x86_64Scalar) (h : ld.BlockLayer rows cols)
    (hraw : ld.hasRawWeights = false) (hcols : 0 < cols) (hcols' : cols ≤ 2147483519) :
    ld.Computes m rows cols fun r j => ∑ t ∈ Finset.range ld.blockTerms.length,
      let block := (ld.blockTerms.getD t []).getD (r * blocksPerRow cols + j / colBlockSize) default
      m.val block.scale * blockCode block.packed (j % colBlockSize) := by
  intro x hx
  have harch : ternaryLinearBlocks m ld x .unknown = ternaryLinearBlocks m ld x .x86_64Scalar := by
    rw [ternaryLinearBlocks_cached h hcols hcols', ternaryLinearBlocks_cached h hcols hcols']
    exact congrArg (fun arch => blockKernel m arch _) hcpu
  rw [ternaryLinearDispatch, hraw, if_neg (by decide), h.hasBlocks, if_pos rfl, harch,
    ternaryLinearBlocks_scalar h hcols hcols' hx]
  refine congrArg Except.ok (List.map_congr_left fun row _ => ?_)
  rw [blockTermsDot, Finset.sum_comm, rowTimes]
  exact Finset.sum_congr rfl fun j _ => (Finset.sum_mul _ _ _).symm

/-- A bitplane layer computes its terms, on a CPU without vector extensions. -/
theorem computes_planes (hcpu : m.cpu = .x86_64Scalar) (h : ld.PlaneLayer rows cols)
    (hraw : ld.hasRawWeights = false) (hblocks : ld.hasBlocks = false) :
    ld.Computes m rows cols fun r j =>
      (ld.activeTerms.map fun term => 2 ^ term.alphaExp * (term.value cols r j : K)).sum := by
  intro x hx
  have hcan : m.CanRead cols x := ⟨hx, fun h => by
    rw [hcpu] at h
    exact absurd h (by decide)⟩
  rw [ternaryLinearDispatch, hraw, if_neg (by decide), hblocks, if_neg (by decide),
    ternaryLinear_planes h hcan]
  refine congrArg Except.ok (List.map_congr_left fun row _ => ?_)
  rw [planeTermsDot, rowTimes]
  induction ld.activeTerms with
  | nil => simp
  | cons term terms ih =>
    rw [List.map_cons, List.sum_cons, ih, Finset.mul_sum, ← Finset.sum_add_distrib]
    refine Finset.sum_congr rfl fun j _ => ?_
    rw [List.map_cons, List.sum_cons]
    ring

end

/-- The pass returns, and gives the mixture exactly where the routed experts' own projections and
the shared one agree on the routed part. -/
theorem moteTernaryLinear_iff (m : Machine K) (ops : MoteOps K) (hops : ops.PartialSorts)
    (h : mote.Forward m w cols inner n topk) (hx : cols ≤ x.length) {output : List K}
    (hout : output.length = cols) :
    ∃ y, moteTernaryLinear m ops mote x output cols inner = .ok y ∧ y.length = cols ∧
      (y = (List.range cols).map (moteMixture ops w
          (moteTop m ops mote cols n topk (x.getD · 0)) cols inner (x.getD · 0)) ↔
        ∀ row < cols, moteDefect ops w (moteTop m ops mote cols n topk (x.getD · 0)) cols inner
          (x.getD · 0) row = 0) := by
  refine ⟨_, moteTernaryLinear_ok hops h hx hout, by rw [List.length_map, List.length_range], ?_⟩
  rw [List.map_inj_left]
  simp only [List.mem_range, mixture_eq, left_eq_add]

end

end

/-! ## One expert -/

/-- The experts in descending order of probability. -/
def sortScored (l : List (Scored ℚ)) : List (Scored ℚ) :=
  l.insertionSort fun a b => b.prob ≤ a.prob

/-- Rational operations: the exponential by the start of its series. -/
def rationalMoteOps : MoteOps ℚ := ⟨fun t => 1 + t + t ^ 2 / 2, fun _ => sortScored⟩

theorem rationalMoteOps_partialSorts : rationalMoteOps.PartialSorts := by
  have hsorted : ∀ l : List (Scored ℚ), (sortScored l).Pairwise fun a b => b.prob ≤ a.prob := by
    intro l
    have htotal : Std.Total fun a b : Scored ℚ => b.prob ≤ a.prob :=
      ⟨fun a b => le_total b.prob a.prob⟩
    have htrans : IsTrans (Scored ℚ) fun a b => b.prob ≤ a.prob :=
      ⟨fun a b c hab hbc => hbc.trans hab⟩
    exact List.pairwise_insertionSort _ l
  refine ⟨fun n l => List.perm_insertionSort _ l, fun n l => ?_, fun n l a ha b hb => ?_⟩
  · exact (hsorted l).sublist (List.take_sublist n _)
  · have hsplit := hsorted l
    rw [← List.take_append_drop n (sortScored l), List.pairwise_append] at hsplit
    exact hsplit.2.2 a ha b hb

/-- A raw layer of one weight. -/
def oneWeightLayer (w : F32) : LayerData where
  outFeatures := 1
  inFeatures := 1
  hasRawWeights := true
  rawWeights := [w]

/-- A layer with one expert, whose down projection is `down`; all other weights are one. -/
def oneExpert (down : F32) : MoTELayerData where
  gateProj := oneWeightLayer 0x3F800000
  upProj := oneWeightLayer 0x3F800000
  downProj := oneWeightLayer 0x3F800000
  numExperts := 1
  topK := 1
  expertGate := [oneWeightLayer 0x3F800000]
  expertUp := [oneWeightLayer 0x3F800000]
  expertDown := [oneWeightLayer down]
  routerWeight := [0x3F800000]
  isMote := true

/-- Its weights. -/
def oneExpertWeights (down : F32) : MoteWeights ℚ where
  gate _ _ := ratMachine.val 0x3F800000
  up _ _ := ratMachine.val 0x3F800000
  down _ _ := ratMachine.val 0x3F800000
  expertGate _ _ _ := ratMachine.val 0x3F800000
  expertUp _ _ _ := ratMachine.val 0x3F800000
  expertDown _ _ _ := ratMachine.val down

theorem computes_oneWeightLayer (w : F32) :
    (oneWeightLayer w).Computes ratMachine 1 1 fun _ _ => ratMachine.val w := by
  have hlen : 1 * 1 ≤ (oneWeightLayer w).rawWeights.length := Nat.le_refl 1
  have hraw : (oneWeightLayer w).Computes ratMachine 1 1 fun r j =>
      ratMachine.val ((oneWeightLayer w).rawWeights.getD (r * 1 + j) 0) :=
    computes_raw rfl rfl rfl hlen (by decide)
  intro x hx
  rw [hraw x hx]
  rfl

theorem oneExpert_forward (down : F32) :
    (oneExpert down).Forward ratMachine (oneExpertWeights down) 1 1 1 1 := by
  have hone : ∀ e < 1, e = 0 := fun e he => by omega
  exact {
    isMote := rfl
    numExperts := rfl
    topK := rfl
    topk_pos := by decide
    topk_le := by decide
    n_le := by decide
    inner_le := by decide
    contrib_le := by decide
    router := rfl
    router_le := by decide
    gate := computes_oneWeightLayer _
    up := computes_oneWeightLayer _
    down := computes_oneWeightLayer _
    expertGate_length := rfl
    expertUp_length := rfl
    expertGate := fun e he => by
      rw [hone e he]
      exact computes_oneWeightLayer _
    expertUp := fun e he => by
      rw [hone e he]
      exact computes_oneWeightLayer _
    expertDown := fun e he => by
      rw [hone e he]
      exact computes_oneWeightLayer _ }

theorem moteTernaryLinear_oneExpert : rationalMoteOps.PartialSorts ∧
    (oneExpert 0x40000000).Forward ratMachine (oneExpertWeights 0x40000000) 1 1 1 1 ∧
    ∃ y, moteTernaryLinear ratMachine rationalMoteOps (oneExpert 0x40000000) [1] [0] (1 : Nat)
        (1 : Nat) = .ok y ∧ y.length = 1 ∧
      (y = (List.range 1).map (moteMixture rationalMoteOps (oneExpertWeights 0x40000000)
          (moteTop ratMachine rationalMoteOps (oneExpert 0x40000000) 1 1 1 ([1].getD · 0)) 1 1
          ([1].getD · 0)) ↔
        ∀ row < 1, moteDefect rationalMoteOps (oneExpertWeights 0x40000000)
          (moteTop ratMachine rationalMoteOps (oneExpert 0x40000000) 1 1 1 ([1].getD · 0)) 1 1
          ([1].getD · 0) row = 0) :=
  ⟨rationalMoteOps_partialSorts, oneExpert_forward _,
    moteTernaryLinear_iff ratMachine rationalMoteOps rationalMoteOps_partialSorts
      (oneExpert_forward 0x40000000) (x := [1]) (by decide) (show [(0 : ℚ)].length = 1 from rfl)⟩

/-- The expert's down projection doubles, and the pass does not. -/
theorem not_moteTernaryLinear :
    (oneExpert 0x40000000).Forward ratMachine (oneExpertWeights 0x40000000) 1 1 1 1 ∧
    ∃ y, moteTernaryLinear ratMachine rationalMoteOps (oneExpert 0x40000000) [1] [0] (1 : Nat)
        (1 : Nat) = .ok y ∧
      y ≠ (List.range 1).map (moteMixture rationalMoteOps (oneExpertWeights 0x40000000)
        (moteTop ratMachine rationalMoteOps (oneExpert 0x40000000) 1 1 1 ([1].getD · 0)) 1 1
        ([1].getD · 0)) := by
  refine ⟨oneExpert_forward _, _, moteTernaryLinear_ok rationalMoteOps_partialSorts
    (oneExpert_forward 0x40000000) (x := [1]) (by decide) (show [(0 : ℚ)].length = 1 from rfl), ?_⟩
  decide +kernel

end Terllama
