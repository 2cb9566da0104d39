import Terllama.Distributed.Shard
import Terllama.Distributed.Wire

/-!
# The requests of a worker

`Worker::handle_forward` and `Worker::handle_reset` of `distributed/worker.cpp` on a shard that was
loaded. The position of a forward call comes from the wire; the cache refuses one outside its range
and the rotary tables are indexed with it all the same. `worker_run_safe`: where every call that gets
as far as the layers has a position of the cache, the run stays inside the buffers whatever the order
of the positions is.

The weights and norms of the layers are given by what they compute (`WorkerOps`); the indices that are
modelled are those of the embedding, the rotary tables, the cache and the scores.
-/

namespace Terllama

/-! ## A forward call -/

/-- What the layers of a shard compute: the floats, the projections of layer `i` on the state, the
state after layer `i` from the one before and the output of its heads, and the logits. `toInt` is the
conversion of a `float` to `int`. -/
structure WorkerOps where
  float : FloatOps
  proj : ProjectionOps
  finish : Nat → List F32 → List F32 → List F32
  logits : List F32 → List F32
  toInt : F32 → Int

/-- An answer of the worker: an error with its status, or the packed output. -/
inductive ForwardAnswer where
  | error (status : Nat) (what : String)
  | output (payload : Bytes)
  deriving DecidableEq, Repr

/-- The state that goes into the first layer, with `none` for an input of a kind that is not valid
for this shard. -/
def forwardInput (ops : WorkerOps) (m : ShardModel) (inputKind : UInt32) (data : List F32) :
    Exec (Option (List F32)) := do
  let _ ← vectorAlloc (sizeT m.cfg.hiddenSize) 4
  if m.spec.isFirst ∧ inputKind = inputToken then
    match data with
    | [] => raise "token input missing"
    | w :: _ =>
      let token := ops.toInt w
      if token < 0 ∨ m.cfg.vocabSize ≤ token then raise "token id out of range"
      else
        let row ← slice m.embedding (sizeT (token * m.cfg.hiddenSize)) m.cfg.hiddenSize.toNat
        return some row
  else if inputKind = inputHidden then
    if data.length ≠ sizeT m.cfg.hiddenSize then raise "hidden state size mismatch"
    else return some data
  else return none

/-- The names of the layers that the attention of layer `i` needs. -/
def attnNames (i : Nat) : List String :=
  ["q_proj", "k_proj", "v_proj", "o_proj"].map fun proj =>
    "model.layers." ++ toString i ++ ".self_attn." ++ proj

/-- The names of the layers of its feed-forward part. -/
def mlpNames (i : Nat) : List String :=
  ["gate_proj", "up_proj", "down_proj"].map fun proj =>
    "model.layers." ++ toString i ++ ".mlp." ++ proj

/-- `cached_attn_idx` and `cached_mlp_idx`, which throw where one of the layers is missing. -/
def findLayers (layers : List LayerData) : List String → Exec Unit
  | [] => .ok ()
  | name :: names => do
    let _ ← findLayer layers name
    findLayers layers names

/-- `transformer_block`. -/
def transformerBlock (ops : WorkerOps) (m : ShardModel) (scratch : List F32) (seqPos : Int)
    (layer : Nat) (x : List F32) (kv : KVCache F32) : Exec (List F32) × KVCache F32 :=
  match findLayers m.layers (attnNames layer) with
  | .error e => (.error e, kv)
  | .ok _ =>
    match attention ops.float ops.proj m.cfg m.rope scratch seqPos layer x kv with
    | (.error e, kv) => (.error e, kv)
    | (.ok out, kv) =>
      ((findLayers m.layers (mlpNames layer)).map fun _ => ops.finish layer x out, kv)

/-- The loop over the layers of the shard. -/
def forwardLayers (ops : WorkerOps) (m : ShardModel) (scratch : List F32) (seqPos : Int) :
    List Nat → List F32 → KVCache F32 → Exec (List F32) × KVCache F32
  | [], x, kv => (.ok x, kv)
  | layer :: layers, x, kv =>
    match transformerBlock ops m scratch seqPos layer x kv with
    | (.ok x, kv) => forwardLayers ops m scratch seqPos layers x kv
    | (.error e, kv) => (.error e, kv)

/-- The layers of the range, whose indices are not negative. -/
def shardLayers (spec : ShardSpec) : Exec (List Nat) :=
  if spec.startLayer < 0 ∧ spec.startLayer < spec.endLayer then
    undefined "read outside the buffer"
  else .ok (List.range' spec.startLayer.toNat (spec.endLayer - spec.startLayer).toNat)

/-- The logits of the last shard, the state of any other. -/
def forwardOutput (ops : WorkerOps) (m : ShardModel) (x : List F32) : Exec (List F32) :=
  if m.spec.isLast then do
    let _ ← findLayer m.layers "lm_head"
    let _ ← vectorAlloc (sizeT m.cfg.vocabSize) 4
    return ops.logits x
  else .ok x

/-- The `try` block of `handle_forward`, on a shard: the answer, or what leaves the block, and the
cache as it is then. -/
def forwardPass (ops : WorkerOps) (m : ShardModel) (scratch : List F32) (seqPos : Int)
    (inputKind : UInt32) (data : List F32) : Exec ForwardAnswer × KVCache F32 :=
  match forwardInput ops m inputKind data with
  | .error e => (.error e, m.kv)
  | .ok none => (.ok (.error 400 "input_kind not valid for this shard"), m.kv)
  | .ok (some x) =>
    match shardLayers m.spec with
    | .error e => (.error e, m.kv)
    | .ok layers =>
      match forwardLayers ops m scratch seqPos layers x m.kv with
      | (.error e, kv) => (.error e, kv)
      | (.ok x, kv) => ((forwardOutput ops m x).map fun out => .output (packForwardResponse out), kv)

/-- `handle_forward`: an exception is answered, with the cache as it left it. -/
def handleForward (ops : WorkerOps) (m : ShardModel) (body : Bytes) (scratch : List F32) :
    Exec (ForwardAnswer × ShardModel) :=
  match unpackForwardRequest body with
  | none => .ok (.error 400 "malformed forward request", m)
  | some (seqPos, inputKind, data) =>
    match forwardPass ops m scratch seqPos inputKind data with
    | (.ok answer, kv) => .ok (answer, { m with kv })
    | (.error (.exception what), kv) => .ok (.error 500 ("forward failed: " ++ what), { m with kv })
    | (.error (.undefined why), _) => undefined why

/-! ## A run of requests -/

/-- The requests to a loaded shard. A forward call comes with the scores that its thread kept. -/
inductive ShardRequest where
  | forward (body : Bytes) (scratch : List F32)
  | reset

/-- `handle_reset`; an exception leaves the shard as it was. -/
def handleReset (m : ShardModel) : Exec ShardModel :=
  match KVCache.create m.cfg.maxPositionEmbeddings m.cfg.numHiddenLayers m.cfg.numKeyValueHeads
      m.cfg.headDim m.cfg.hiddenSize with
  | .ok kv => .ok { m with kv }
  | .error (.exception _) => .ok m
  | .error (.undefined why) => undefined why

/-- The shard after a request. -/
def serveShard (ops : WorkerOps) (m : ShardModel) : ShardRequest → Exec ShardModel
  | .forward body scratch => do return (← handleForward ops m body scratch).2
  | .reset => handleReset m

/-- The shard after a row of requests. -/
def serveAll (ops : WorkerOps) (m : ShardModel) (requests : List ShardRequest) : Exec ShardModel :=
  requests.foldlM (serveShard ops) m

/-! ## What the requests rely on -/

/-- The embedding has the row of a token that is taken. -/
def ShardModel.TokenFits (m : ShardModel) (ops : WorkerOps) (inputKind : UInt32) (data : List F32) :
    Prop :=
  m.spec.isFirst = true → inputKind = inputToken → ∀ w ∈ data.head?, 0 ≤ ops.toInt w →
    ops.toInt w < m.cfg.vocabSize → (ops.toInt w + 1) * m.cfg.hiddenSize ≤ m.embedding.length

/-- The shard takes this input. -/
def ShardModel.Accepts (m : ShardModel) (ops : WorkerOps) (inputKind : UInt32) (data : List F32) :
    Prop :=
  if m.spec.isFirst = true ∧ inputKind = inputToken then
    ∃ w ∈ data.head?, 0 ≤ ops.toInt w ∧ ops.toInt w < m.cfg.vocabSize
  else inputKind = inputHidden ∧ data.length = sizeT m.cfg.hiddenSize

/-- The projections of the attention of a layer are there. -/
def ShardModel.HasAttention (m : ShardModel) (layer : Nat) : Prop :=
  ∀ name ∈ attnNames layer, ∃ ld, findLayer m.layers name = .ok ld

/-- The request fits the shard: the row of its token lies in the embedding, and if its input gets as
far as the attention of the first layer, its position fits. -/
def ShardModel.Fits (m : ShardModel) (ops : WorkerOps) : ShardRequest → Prop
  | .forward body _ => ∀ seqPos inputKind data,
    unpackForwardRequest body = some (seqPos, inputKind, data) →
      m.TokenFits ops inputKind data ∧
      (m.Accepts ops inputKind data → m.spec.startLayer < m.spec.endLayer →
        m.HasAttention m.spec.startLayer.toNat → PositionFits m.cfg seqPos)
  | .reset => True

/-- The buffers of a shard have the sizes that its configuration gives them, and its range lies in
the model. -/
structure ShardModel.Sized (m : ShardModel) : Prop where
  rope : m.rope.Sized m.cfg.maxPositionEmbeddings m.cfg.headDim
  kv : m.kv.Sized m.cfg
  range : 0 ≤ m.spec.startLayer ∧ m.spec.startLayer ≤ m.spec.endLayer ∧
    m.spec.endLayer ≤ m.cfg.numHiddenLayers
  hidden : -2147483648 ≤ m.cfg.hiddenSize

theorem loadModelFromGguf_hiddenSize {narrow : Nat → F32} {path : String} {file : Bytes}
    {m : LoadedModel} (h : loadModelFromGguf narrow path file = .ok m) :
    -2147483648 ≤ m.cfg.hiddenSize := by
  obtain ⟨m', hm', h⟩ := bind_eq_ok.1 h
  cases m' with
  | none => cases h
  | some m' =>
    cases h
    obtain ⟨gguf, -, h⟩ := bind_eq_ok.1 hm'
    split at h
    · cases h
    split at h
    · cases h
    split at h
    · cases h
    split at h
    · obtain ⟨cfg, hcfg, h⟩ := bind_eq_ok.1 h
      obtain ⟨emb, -, h⟩ := bind_eq_ok.1 h
      cases emb with
      | none => cases h
      | some emb =>
        obtain ⟨fn, -, h⟩ := bind_eq_ok.1 h
        obtain ⟨layers, -, h⟩ := bind_eq_ok.1 h
        cases h
        obtain ⟨hd, -, hcfg⟩ := bind_eq_ok.1 hcfg
        cases hcfg
        exact (toInt32_range _).1
    · cases h

/-- The width of the state is an `int`. -/
theorem shardParts_hiddenSize {narrow : Nat → F32} {dir : ShardDir} {spec : ShardSpec}
    {parts : ShardParts} (h : shardParts narrow dir spec = .ok parts) :
    -2147483648 ≤ parts.cfg.hiddenSize := by
  unfold shardParts at h
  split at h
  · obtain ⟨full, hfull, h⟩ := bind_eq_ok.1 h
    obtain ⟨kept, -, h⟩ := bind_eq_ok.1 h
    cases h
    exact loadModelFromGguf_hiddenSize hfull
  · unfold shardOfBin at h
    split at h
    · cases h
    obtain ⟨cfg, hcfg, h⟩ := bind_eq_ok.1 h
    obtain ⟨u, -, h⟩ := bind_eq_ok.1 h
    obtain ⟨emb, -, h⟩ := bind_eq_ok.1 h
    obtain ⟨fn, -, h⟩ := bind_eq_ok.1 h
    obtain ⟨norms, -, h⟩ := bind_eq_ok.1 h
    split at h
    · cases h
    obtain ⟨layers, -, h⟩ := bind_eq_ok.1 h
    obtain ⟨⟨kept, lifted⟩, -, h⟩ := bind_eq_ok.1 h
    cases h
    have hpos := (loadConfig_valid hcfg).hiddenSize.1
    have hsame : (fixHeadDim cfg layers).hiddenSize = cfg.hiddenSize := by
      unfold fixHeadDim
      split
      · split <;> rfl
      · rfl
    dsimp only
    omega

/-- A shard that was loaded has its sizes, where it holds what its flags say. -/
theorem loadModelShard_sized {narrow : Nat → F32} {trig : TrigOps} {dir : ShardDir}
    {spec : ShardSpec} {m : ShardModel} (h : loadModelShard narrow trig dir spec = .ok m)
    {lmHead : Prop} (howned : m.Owned lmHead) : m.Sized := by
  obtain ⟨parts, hparts, h⟩ := bind_eq_ok.1 h
  obtain ⟨rope, hrope, h⟩ := bind_eq_ok.1 h
  obtain ⟨kv, hkv, h⟩ := bind_eq_ok.1 h
  cases h
  exact ⟨buildRopeCache_sized hrope, KVCache.create_sized hkv, howned.range,
    shardParts_hiddenSize hparts⟩

section
variable {ops : WorkerOps} {m : ShardModel}

/-- The input of a request that fits is defined. -/
theorem forwardInput_ensures (hhidden : -2147483648 ≤ m.cfg.hiddenSize) {inputKind : UInt32}
    {data : List F32} (hfits : m.TokenFits ops inputKind data) :
    Ensures (forwardInput ops m inputKind data) fun input =>
      input ≠ none → m.Accepts ops inputKind data := by
  refine ensures_bind.2 (ensures_vectorAlloc.2 fun hsize => ?_)
  have hpos : 0 ≤ m.cfg.hiddenSize := by
    unfold vectorMaxSize sizeT at hsize
    omega
  unfold ShardModel.Accepts
  split
  · rename_i hkind
    cases data with
    | nil => exact ensures_raise _ _
    | cons w rest =>
      dsimp only
      split
      · exact ensures_raise _ _
      · rename_i htoken
        obtain ⟨htoken₀, htoken⟩ := not_or.1 htoken
        have hrow := hfits hkind.1 hkind.2 w rfl (not_lt.1 htoken₀) (not_le.1 htoken)
        have hstart : 0 ≤ ops.toInt w * m.cfg.hiddenSize := Int.mul_nonneg (not_lt.1 htoken₀) hpos
        have hwrap : (sizeT (ops.toInt w * m.cfg.hiddenSize) : Int) ≤
            ops.toInt w * m.cfg.hiddenSize := by
          unfold sizeT
          omega
        rw [Int.add_mul, Int.one_mul] at hrow
        rw [slice_ok (by omega)]
        exact fun _ => ⟨w, rfl, not_lt.1 htoken₀, not_le.1 htoken⟩
  · split
    · rename_i hhid
      split
      · exact ensures_raise _ _
      · rename_i hlen
        exact fun _ => ⟨hhid, not_ne_iff.1 hlen⟩
    · exact fun hne => absurd rfl hne

theorem findLayer_ensures (layers : List LayerData) (name : String) :
    Ensures (findLayer layers name) fun ld => findLayer layers name = .ok ld := by
  unfold findLayer
  split
  · rfl
  · exact ensures_raise _ _

/-- The layers of the names are there where nothing is thrown. -/
theorem findLayers_ensures (layers : List LayerData) (names : List String) :
    Ensures (findLayers layers names) fun _ =>
      ∀ name ∈ names, ∃ ld, findLayer layers name = .ok ld := by
  induction names with
  | nil => exact nofun
  | cons name names ih =>
    refine (findLayer_ensures layers name).bind fun ld hld => ih.mono fun _ hrest => ?_
    exact List.forall_mem_cons.2 ⟨⟨ld, hld⟩, hrest⟩

/-- A block at a position that fits where its attention is there. -/
theorem transformerBlock_ensures (hm : m.Sized) {pos : Int} {layer : Nat}
    (hf : m.HasAttention layer → PositionFits m.cfg pos) {kv : KVCache F32} (hkv : kv.Sized m.cfg)
    (hlayer : (layer : Int) < m.cfg.numHiddenLayers) (scratch x : List F32) :
    Ensures (transformerBlock ops m scratch pos layer x kv).1 (fun _ => PositionFits m.cfg pos) ∧
      (transformerBlock ops m scratch pos layer x kv).2.Sized m.cfg := by
  have hattn := findLayers_ensures m.layers (attnNames layer)
  unfold transformerBlock
  cases hfind : findLayers m.layers (attnNames layer) with
  | error e =>
    rw [hfind] at hattn
    cases e with
    | exception what => exact ⟨ensures_raise what _, hkv⟩
    | undefined why => exact absurd hattn (not_ensures_undefined why _)
  | ok u =>
    rw [hfind] at hattn
    have hfits := hf hattn
    obtain ⟨hout, hkv'⟩ := @attention_ensures ops.float ops.proj m.cfg m.rope pos hfits hm.rope kv hkv
      layer hlayer scratch x
    dsimp only
    split
    · rename_i e kv' hpass
      rw [hpass] at hout hkv'
      refine ⟨?_, hkv'⟩
      cases e with
      | exception what => exact ensures_raise what _
      | undefined why => exact absurd hout (not_ensures_undefined why _)
    · rename_i out kv' hpass
      rw [hpass] at hkv'
      refine ⟨?_, hkv'⟩
      have hmlp := findLayers_ensures m.layers (mlpNames layer)
      exact (hmlp.map).mono fun _ _ => hfits

/-- The loop over the layers at a position that fits where the attention of the first one is there. -/
theorem forwardLayers_ensures (hm : m.Sized) {pos : Int} (scratch : List F32) {layers : List Nat}
    (hf : ∀ first ∈ layers.head?, m.HasAttention first → PositionFits m.cfg pos)
    (hlayers : ∀ i ∈ layers, (i : Int) < m.cfg.numHiddenLayers) (x : List F32) {kv : KVCache F32}
    (hkv : kv.Sized m.cfg) :
    Ensures (forwardLayers ops m scratch pos layers x kv).1 (fun _ => True) ∧
      (forwardLayers ops m scratch pos layers x kv).2.Sized m.cfg := by
  induction layers generalizing x kv with
  | nil => exact ⟨trivial, hkv⟩
  | cons layer layers ih =>
    rw [List.forall_mem_cons] at hlayers
    obtain ⟨hout, hkv'⟩ :=
      @transformerBlock_ensures ops m hm pos layer (hf layer rfl) kv hkv hlayers.1 scratch x
    rw [forwardLayers]
    split
    · rename_i x' kv' hblock
      rw [hblock] at hout hkv'
      exact ih (fun _ _ _ => hout) hlayers.2 x' hkv'
    · rename_i e kv' hblock
      rw [hblock] at hout hkv'
      refine ⟨?_, hkv'⟩
      cases e with
      | exception what => exact ensures_raise what _
      | undefined why => exact absurd hout (not_ensures_undefined why _)

theorem forwardOutput_defined (x : List F32) : Ensures (forwardOutput ops m x) fun _ => True := by
  unfold forwardOutput
  split
  · refine (findLayer_ensures m.layers "lm_head").bind fun _ _ => ?_
    exact ensures_bind.2 (ensures_vectorAlloc.2 fun _ => trivial)
  · trivial

/-- What leaves the `try` block of a request that fits. -/
theorem forwardPass_ensures (hm : m.Sized) (scratch : List F32) {pos : Int} {inputKind : UInt32}
    {data : List F32} (htoken : m.TokenFits ops inputKind data)
    (hposition : m.Accepts ops inputKind data → m.spec.startLayer < m.spec.endLayer →
      m.HasAttention m.spec.startLayer.toNat → PositionFits m.cfg pos) :
    Ensures (forwardPass ops m scratch pos inputKind data).1 (fun _ => True) ∧
      (forwardPass ops m scratch pos inputKind data).2.Sized m.cfg := by
  have hinput := @forwardInput_ensures ops m hm.hidden inputKind data htoken
  obtain ⟨hstart, hrange, hend⟩ := hm.range
  unfold forwardPass
  split
  · rename_i e he
    rw [he] at hinput
    cases e with
    | exception what => exact ⟨ensures_raise what _, hm.kv⟩
    | undefined why => exact absurd hinput (not_ensures_undefined why _)
  · exact ⟨trivial, hm.kv⟩
  rename_i x hx
  rw [hx] at hinput
  rw [shardLayers, if_neg (by omega)]
  dsimp only
  obtain ⟨hout, hkv⟩ := @forwardLayers_ensures ops m hm pos scratch
    (List.range' m.spec.startLayer.toNat (m.spec.endLayer - m.spec.startLayer).toNat)
    (fun first hfirst => by
      rw [List.head?_range'] at hfirst
      split at hfirst
      · cases hfirst
      · cases hfirst
        exact hposition (hinput (Option.some_ne_none x)) (by omega))
    (fun i hi => by
      rw [List.mem_range'_1] at hi
      omega) x m.kv hm.kv
  split
  · rename_i e kv he
    rw [he] at hout hkv
    refine ⟨?_, hkv⟩
    cases e with
    | exception what => exact ensures_raise what _
    | undefined why => exact absurd hout (not_ensures_undefined why _)
  · rename_i x' kv hx'
    rw [hx'] at hkv
    exact ⟨(forwardOutput_defined x').map.mono fun _ _ => trivial, hkv⟩

/-- A forward call that fits is answered. -/
theorem handleForward_fits (hm : m.Sized) {body : Bytes} {scratch : List F32}
    (hfits : m.Fits ops (.forward body scratch)) :
    ∃ answer kv, handleForward ops m body scratch = .ok (answer, { m with kv }) ∧
      kv.Sized m.cfg := by
  unfold handleForward
  split
  · exact ⟨_, m.kv, rfl, hm.kv⟩
  · rename_i seqPos inputKind data hbody
    obtain ⟨htoken, hposition⟩ := hfits seqPos inputKind data hbody
    obtain ⟨hout, hkv⟩ := forwardPass_ensures hm scratch htoken hposition
    split
    · rename_i answer kv hpass
      rw [hpass] at hkv
      exact ⟨_, kv, rfl, hkv⟩
    · rename_i what kv hpass
      rw [hpass] at hkv
      exact ⟨_, kv, rfl, hkv⟩
    · rename_i why kv hpass
      rw [hpass] at hout
      exact absurd hout (not_ensures_undefined why _)

/-- The cache of a shard that was loaded can be made again. -/
theorem handleReset_sized (hm : m.Sized) :
    ∃ kv, handleReset m = .ok { m with kv } ∧ kv.Sized m.cfg := by
  have hlayers : 0 ≤ m.cfg.numHiddenLayers := by
    obtain ⟨hstart, hrange, hend⟩ := hm.range
    omega
  obtain ⟨kv, hkv⟩ := KVCache.create_again hm.kv hlayers
  refine ⟨kv, ?_, KVCache.create_sized hkv⟩
  rw [handleReset, hkv]

/-- One request that fits is served, and leaves a shard with the same configuration and sizes. -/
theorem serveShard_fits (hm : m.Sized) {request : ShardRequest} (hfits : m.Fits ops request) :
    ∃ kv, serveShard ops m request = .ok { m with kv } ∧ kv.Sized m.cfg := by
  cases request with
  | forward body scratch =>
    obtain ⟨answer, kv, hanswer, hkv⟩ := handleForward_fits hm hfits
    refine ⟨kv, ?_, hkv⟩
    rw [serveShard, hanswer]
    rfl
  | reset => exact handleReset_sized hm

/-- The cache has no part in what a shard accepts. -/
theorem ShardModel.fits_kv (kv : KVCache F32) (request : ShardRequest) :
    ShardModel.Fits { m with kv } ops request ↔ m.Fits ops request := by
  cases request with
  | forward body scratch => exact Iff.rfl
  | reset => exact Iff.rfl

theorem ShardModel.Sized.withCache (hm : m.Sized) {kv : KVCache F32} (hkv : kv.Sized m.cfg) :
    ShardModel.Sized { m with kv } :=
  ⟨hm.rope, hkv, hm.range, hm.hidden⟩

/-- A row of requests that fit is served. -/
theorem serveAll_fits (hm : m.Sized) {requests : List ShardRequest}
    (hfits : ∀ request ∈ requests, m.Fits ops request) :
    ∃ kv, serveAll ops m requests = .ok { m with kv } ∧ kv.Sized m.cfg := by
  induction requests generalizing m with
  | nil => exact ⟨m.kv, rfl, hm.kv⟩
  | cons request requests ih =>
    rw [List.forall_mem_cons] at hfits
    obtain ⟨kv, hserve, hkv⟩ := serveShard_fits hm hfits.1
    obtain ⟨kv', hrest, hkv'⟩ := ih (hm.withCache hkv) fun request' hmem =>
      (ShardModel.fits_kv kv request').2 (hfits.2 request' hmem)
    refine ⟨kv', ?_, hkv'⟩
    rw [serveAll, List.foldlM_cons, hserve]
    exact hrest

/-- A shard that was loaded and holds what its flags say serves every row of requests that fit it,
and only the cache changes. -/
theorem worker_run_safe {narrow : Nat → F32} {trig : TrigOps} {dir : ShardDir} {spec : ShardSpec}
    (hload : loadModelShard narrow trig dir spec = .ok m) (howned : m.Owned (dir.HasLmHead narrow spec))
    {requests : List ShardRequest} (hfits : ∀ request ∈ requests, m.Fits ops request) :
    ∃ kv, serveAll ops m requests = .ok { m with kv } := by
  obtain ⟨kv, hserve, -⟩ := serveAll_fits (loadModelShard_sized hload howned) hfits
  exact ⟨kv, hserve⟩

end

/-- A raw record of weights that are all one. -/
def onesRecord (name : String) (outF inF : Nat) : Bytes :=
  u32Bytes (str name).length ++ str name ++ u32Bytes outF ++ u32Bytes inF ++ u32Bytes 0 ++
    u32Bytes (4 * (outF * inF)) ++ floatBytes (List.replicate (outF * inF) 0x3F800000)

/-- A `model_extra.bin` with one layer, one head of two numbers and two positions. -/
def pairExtra : Bytes :=
  u32Bytes 1 ++ u32Bytes 2 ++ u32Bytes 1 ++ u32Bytes 1 ++ u32Bytes 1 ++ u32Bytes 1 ++
    F32.toBytes 0x3727C5AC ++ F32.toBytes 0x461C4000 ++ u32Bytes 2 ++
    floatBytes (List.replicate 8 0x3F800000)

/-- The layers of this model. -/
def pairDecomposed : Bytes :=
  u32Bytes 0xDEADBEEF ++ u32Bytes 8 ++
    ((attnNames 0).flatMap fun name => onesRecord name 2 2) ++
    onesRecord "model.layers.0.mlp.gate_proj" 1 2 ++ onesRecord "model.layers.0.mlp.up_proj" 1 2 ++
    onesRecord "model.layers.0.mlp.down_proj" 2 1 ++ onesRecord "lm_head" 1 2

/-- The directory of the two files. -/
def pairShardDir : ShardDir := ⟨"pair", none, some pairExtra, some pairDecomposed⟩

/-- The configuration of this model. -/
def pairConfig : ModelConfig where
  vocabSize := 1
  hiddenSize := 2
  intermediateSize := 1
  numHiddenLayers := 1
  numAttentionHeads := 1
  numKeyValueHeads := 1
  rmsNormEps := 0x3727C5AC
  ropeTheta := 0x461C4000
  maxPositionEmbeddings := 2
  headDim := 2

/-- The values do not matter here. -/
def flatOps : WorkerOps where
  float := ⟨fun a _ => a, fun a _ => a, fun a _ => a, fun a _ => a, id, id, fun _ _ => false⟩
  proj := ⟨fun _ x => x, fun _ x => x, fun _ x => x⟩
  finish := fun _ x _ => x
  logits := id
  toInt := fun _ => 0

/-- What the loader makes of the directory. -/
theorem loadModelShard_pair : ∃ m,
    loadModelShard (fun _ => 0) flatTrig pairShardDir wholeSpec = .ok m ∧ m.cfg = pairConfig ∧
      m.spec = wholeSpec.derived pairConfig ∧ m.embedding = [0x3F800000, 0x3F800000] ∧
        m.Owned (pairShardDir.HasLmHead (fun _ => 0) wholeSpec) := by
  obtain ⟨m, hm⟩ : ∃ m, loadModelShard (fun _ => 0) flatTrig pairShardDir wholeSpec = .ok m :=
    exists_eq_ok (by decide +kernel)
  have hparts : (loadModelShard (fun _ => 0) flatTrig pairShardDir wholeSpec).toOption.map
      (fun m => (m.cfg, m.spec, m.embedding, m.finalNorm,
        m.layers.any fun ld => ld.name == str "lm_head")) =
      some (pairConfig, wholeSpec.derived pairConfig, [0x3F800000, 0x3F800000],
        [0x3F800000, 0x3F800000], true) := by
    decide +kernel
  rw [hm] at hparts
  simp only [Except.toOption, Option.map_some, Option.some.injEq, Prod.mk.injEq, List.any_eq_true,
    beq_iff_eq] at hparts
  obtain ⟨hcfg, hspec, hemb, hfn, hlm⟩ := hparts
  have hdir : pairShardDir.HasLmHead (fun _ => 0) wholeSpec := by
    obtain ⟨layers, hlayers⟩ : ∃ layers,
        loadDecomposedLayersAlsRange pairDecomposed 0 1 true = .ok layers :=
      exists_eq_ok (by decide +kernel)
    have hany : (loadDecomposedLayersAlsRange pairDecomposed 0 1 true).toOption.map
        (fun layers => layers.any fun ld => ld.name == str "lm_head") = some true := by
      decide +kernel
    rw [hlayers] at hany
    simp only [Except.toOption, Option.map_some, Option.some.injEq, List.any_eq_true,
      beq_iff_eq] at hany
    exact ⟨pairDecomposed, layers, rfl, hlayers, hany⟩
  refine ⟨m, hm, hcfg, hspec, hemb, ?_, ?_, ?_, ?_⟩
  · rw [hemb, hspec]
    decide
  · rw [hfn, hspec]
    decide
  · rw [hspec]
    exact iff_of_true hlm ⟨rfl, hdir⟩
  · rw [hspec, hcfg]
    decide

/-- The two positions of this model fit. -/
theorem positionFits_pair {pos : Int} (h₀ : 0 ≤ pos) (h : pos < 2) : PositionFits pairConfig pos := by
  refine ⟨h₀, h, by decide, by decide, fun head hhead => ?_⟩
  obtain rfl : head = 0 := Nat.lt_one_iff.1 hhead
  refine ⟨by decide, by decide, ?_, .inr ⟨by decide, by decide, ?_⟩⟩
  · rw [Int.natCast_zero, Int.zero_mul]
    decide
  · change 0 + pos * 1 < 2 * 1
    omega

/-- Positions that are repeated and out of order, and a reset in between. -/
def pairRequests : List ShardRequest :=
  [.forward (packForwardRequest 1 inputToken [0]) [], .forward (packForwardRequest 0 inputToken [0]) [],
    .forward (packForwardRequest 0 inputHidden [0, 0]) [0], .reset,
    .forward (packForwardRequest 1 inputHidden [0, 0]) [0, 0]]

theorem worker_run_safe_pair : ∃ m kv,
    loadModelShard (fun _ => 0) flatTrig pairShardDir wholeSpec = .ok m ∧
      serveAll flatOps m pairRequests = .ok { m with kv } := by
  obtain ⟨m, hload, hcfg, hspec, hemb, howned⟩ := loadModelShard_pair
  have hfits : ∀ pos ∈ ([0, 1] : List Int), ∀ kind data scratch,
      unpackForwardRequest (packForwardRequest pos kind data) = some (pos, kind, data) →
      m.Fits flatOps (.forward (packForwardRequest pos kind data) scratch) := by
    intro pos hpos kind data scratch hunpack seqPos inputKind data' hbody
    cases hunpack.symm.trans hbody
    have hrange : 0 ≤ pos ∧ pos < 2 := by
      simp only [List.mem_cons, List.not_mem_nil, or_false] at hpos
      omega
    refine ⟨fun _ _ w _ _ _ => ?_, fun _ _ _ => ?_⟩
    · rw [hcfg, hemb]
      exact le_refl (2 : Int)
    · rw [hcfg]
      exact positionFits_pair hrange.1 hrange.2
  obtain ⟨kv, hserve⟩ := @worker_run_safe flatOps m (fun _ => 0) flatTrig pairShardDir wholeSpec hload
    howned pairRequests (by
      simp only [pairRequests, List.forall_mem_cons]
      refine ⟨hfits 1 (by decide) _ _ _ (by decide +kernel), hfits 0 (by decide) _ _ _ (by decide +kernel),
        hfits 0 (by decide) _ _ _ (by decide +kernel), trivial,
        hfits 1 (by decide) _ _ _ (by decide +kernel), nofun⟩)
  exact ⟨m, kv, hload, hserve⟩

/-- At position `0xFFFFFFFF` the rotation reads in front of its tables. -/
theorem worker_reads_outside : ∃ m,
    loadModelShard (fun _ => 0) flatTrig pairShardDir wholeSpec = .ok m ∧
      m.Owned (pairShardDir.HasLmHead (fun _ => 0) wholeSpec) ∧
        ¬ Defined (handleForward flatOps m (packForwardRequest (-1) inputHidden [0, 0]) []) := by
  obtain ⟨m, hload, -, -, -, howned⟩ := loadModelShard_pair
  have hforward : (loadModelShard (fun _ => 0) flatTrig pairShardDir wholeSpec).toOption.map
      (fun m => handleForward flatOps m (packForwardRequest (-1) inputHidden [0, 0]) []) =
      some (undefined "read outside the buffer") := by
    decide +kernel
  rw [hload] at hforward
  refine ⟨m, hload, howned, fun hdefined => hdefined _ (Option.some.inj hforward)⟩

end Terllama
