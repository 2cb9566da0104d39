import Terllama.Kernel.Dispatch
import Terllama.Loader.Directory
import Terllama.Loader.Mote

/-!
# Building a MoTE model

`cmd_mote_build` of `src/mote_builder.cpp` from the loaded dense model on: the feed-forward layers
become the shared experts, the routed experts are made of their terms, and the router gets its
initial weights. The `float` arithmetic of the builder is in `MoteFloats`.

`moteBuild_preserved_iff` compares the model in memory with the one read back from the file that was
written of it.
-/

namespace Terllama

/-- The `float` arithmetic of the builder. -/
structure MoteFloats where
  /-- `scale * (0.8f + 0.4f * e / max(1, n - 1))`, for expert `e` of `n`. -/
  perturb : Int → Nat → F32 → F32
  /-- `w + noise(rng)`, for weight `j` of `len` of expert `e`, in the order of the draws. -/
  noise : Nat → Nat → Nat → F32 → F32
  /-- `0.01f * (k + 1) / n`. -/
  router : Int → Nat → F32

/-- `sizeof(LayerData)`. -/
def sizeofLayerData : Nat := 320

/-- `sizeof(MoTELayerData)`. -/
def sizeofMoTELayerData : Nat := 1088

/-- `expert_layers.resize(num_experts)` on an empty vector. -/
def resizeExperts (numExperts : Int) (ld : LayerData) : Exec (List LayerData) :=
  if sizeT numExperts ≤ vectorMaxSize sizeofLayerData then
    .ok (List.replicate (sizeT numExperts) ld)
  else raise "vector::_M_default_append"

/-! ## Distribution -/

/-- `distribute_als_terms`. -/
def distributeAlsTerms (src : LayerData) (numExperts : Int) : Exec (List LayerData) := do
  let experts ← resizeExperts numExperts
    { outFeatures := src.outFeatures, inFeatures := src.inFeatures }
  let experts ← (List.range src.numTerms.toNat).foldlM (fun experts t => do
    if numExperts = 0 then undefined "division by zero"
    else
      let st ← load src.terms t
      return experts.modify (t % numExperts.toNat) fun et =>
        { et with terms := et.terms ++ [st] }) experts
  return experts.map fun ld => { ld with numTerms := toInt32 ld.terms.length }

/-- `decode_block_ternary` into a zeroed vector of `qk` elements. -/
def decodeBlockTernary (packed : Bytes) (qk : Nat) : Exec (List Int) := do
  let packed ← slice packed 0 (qk / 4)
  return (List.range (4 * (qk / 4))).map (blockCode packed) ++ List.replicate (qk % 4) 0

/-- The bits of a ternary value in a word of a bitplane term. -/
def planeBits (tv : Int) (bit : Nat) : UInt32 :=
  if tv = 1 then 1 <<< UInt32.ofNat (bit + 16)
  else if tv = -1 then 1 <<< UInt32.ofNat (bit + 16) ||| 1 <<< UInt32.ofNat bit
  else 0

/-- Block `b` of row `row` in the loops that build `combined`. -/
def combineBlock (src : LayerData) (blocks : List BlockTerm) (wordsPerRow nBlocks : Int)
    (combined : List UInt32) (row b : Nat) : Exec (List UInt32) := do
  let qk := src.blockQk
  let rowIdx ← i32 (row * nBlocks)
  let blockIdx ← i32 (rowIdx + b)
  let blockStart ← i32 (b * qk)
  let blockEnd ← i32 (blockStart + qk)
  let blockSize ← i32 (min blockEnd src.inFeatures - blockStart)
  let block ← load blocks (sizeT blockIdx)
  let decoded ← decodeBlockTernary block.packed qk.toNat
  (List.range blockSize.toNat).foldlM (fun combined j => do
    let tv ← load decoded j
    let k ← i32 (blockStart + j)
    let absWord := sizeT (row * wordsPerRow + k / 16)
    if planeBits tv (k % 16).toNat = 0 then return combined
    else
      let word ← load combined absWord
      writeAt combined absWord [word ||| planeBits tv (k % 16).toNat]) combined

/-- The bitplane term that `distribute_block_terms` adds to an expert. -/
def combinedTerm (src : LayerData) (blocks : List BlockTerm) : Exec BitplaneTerm := do
  let width ← i32 (src.inFeatures + 15)
  let wordsPerRow := width.tdiv 16
  let nWords := sizeT (src.outFeatures * wordsPerRow)
  vectorAlloc nWords 4
  let nBlocks ← ceilBlocks src.inFeatures src.blockQk
  vectorAlloc (sizeT src.blockQk) 1
  let combined ← (List.range src.outFeatures.toNat).foldlM (fun combined row =>
    (List.range nBlocks.toNat).foldlM (fun combined b =>
      combineBlock src blocks wordsPerRow nBlocks combined row b) combined)
    (List.replicate nWords 0)
  return { nElements := sizeT (src.outFeatures * src.inFeatures), combined }

/-- `distribute_block_terms`. -/
def distributeBlockTerms (ops : MoteFloats) (src : LayerData) (numExperts : Int) :
    Exec (List LayerData) := do
  let experts ← resizeExperts numExperts {}
  experts.zipIdx.mapM fun (ld, e) => do
    let first ← load src.blockTerms 0
    let term ← combinedTerm src first
    return { ld with
      outFeatures := src.outFeatures
      inFeatures := src.inFeatures
      hasBlocks := true
      blockQk := src.blockQk
      hasRawWeights := false
      blockTerms := [first.map fun b => { b with scale := ops.perturb numExperts e b.scale }]
      numTerms := 1
      terms := [term] }

/-- `distribute_raw_weights`. -/
def distributeRawWeights (ops : MoteFloats) (src : LayerData) (numExperts : Int) :
    Exec (List LayerData) := do
  let experts ← resizeExperts numExperts {}
  return experts.mapIdx fun e ld => { ld with
    outFeatures := src.outFeatures
    inFeatures := src.inFeatures
    hasRawWeights := true
    hasBlocks := false
    rawWeights :=
      if numExperts > 1 then src.rawWeights.mapIdx (ops.noise src.rawWeights.length e)
      else src.rawWeights }

/-- `distribute_layer`. -/
def distributeLayer (ops : MoteFloats) (src : LayerData) (numExperts : Int) :
    Exec (List LayerData) :=
  if src.hasRawWeights then distributeRawWeights ops src numExperts
  else if src.hasBlocks then distributeBlockTerms ops src numExperts
  else distributeAlsTerms src numExperts

/-! ## The build -/

/-- The loop that sets the expert names. -/
def nameExperts (pfx suffix : String) (experts : List LayerData) : List LayerData :=
  experts.mapIdx fun e ld =>
    { ld with name := str (pfx ++ ".mote.expert." ++ toString e ++ suffix) }

/-- The initial router weights. -/
def initRouter (ops : MoteFloats) (hiddenSize numExperts : Int) : Exec (List F32) :=
  let n := sizeT (hiddenSize * numExperts)
  if n ≤ vectorMaxSize 4 then
    (List.range hiddenSize.toNat).foldlM (fun router h =>
      (List.range numExperts.toNat).foldlM (fun router (k : Nat) => do
        let row ← i32 (h * numExperts)
        let idx ← i32 (row + k)
        writeAt router (sizeT idx) [ops.router numExperts k]) router)
      (List.replicate n 0)
  else raise "vector::_M_default_append"

/-- A pass of the layer loop of `cmd_mote_build`. -/
def buildMoteLayer (ops : MoteFloats) (cfg : ModelConfig) (layers : List LayerData)
    (numExperts topK : Int) (i : Nat) : Exec MoTELayerData := do
  let pfx := "model.layers." ++ toString i
  let gate ← findLayer layers (pfx ++ ".mlp.gate_proj")
  let up ← findLayer layers (pfx ++ ".mlp.up_proj")
  let down ← findLayer layers (pfx ++ ".mlp.down_proj")
  let expertGate ← distributeLayer ops gate numExperts
  let expertUp ← distributeLayer ops up numExperts
  let expertDown ← distributeLayer ops down numExperts
  let routerWeight ← initRouter ops cfg.hiddenSize numExperts
  -- the debug line reads the terms of the first expert
  let _ ← load expertGate 0
  return {
    gateProj := { gate with name := str (pfx ++ ".mote.gate_proj") }
    upProj := { up with name := str (pfx ++ ".mote.up_proj") }
    downProj := { down with name := str (pfx ++ ".mote.down_proj") }
    numExperts
    topK
    expertGate := nameExperts pfx ".gate_proj" expertGate
    expertUp := nameExperts pfx ".up_proj" expertUp
    expertDown := nameExperts pfx ".down_proj" expertDown
    routerWeight
    routerScale := 0x3F800000
    isMote := true }

/-- The layers that `cmd_mote_build` makes of a dense model. -/
def moteBuild (ops : MoteFloats) (cfg : ModelConfig) (layers : List LayerData)
    (numExperts topK : Int) : Exec (List MoTELayerData) := do
  vectorAlloc (sizeT cfg.numHiddenLayers) sizeofMoTELayerData
  (List.range cfg.numHiddenLayers.toNat).mapM (buildMoteLayer ops cfg layers numExperts topK)

/-! ## What a save and a load preserve -/

section
variable {K : Type} [Field K] [LinearOrder K] (m : Machine K)

/-- Two layers with the same name, dimensions and linear map. -/
structure SameLayer (a b : LayerData) : Prop where
  name : a.name = b.name
  outFeatures : a.outFeatures = b.outFeatures
  inFeatures : a.inFeatures = b.inFeatures
  map : ∀ x : List K, a.inFeatures.toNat ≤ x.length →
    ternaryLinearDispatch m a x = ternaryLinearDispatch m b x

/-- Two layers of a MoTE model with the same shared and routed experts and the same router. -/
structure SameMoteLayer (a b : MoTELayerData) : Prop where
  gateProj : SameLayer m a.gateProj b.gateProj
  upProj : SameLayer m a.upProj b.upProj
  downProj : SameLayer m a.downProj b.downProj
  expertGate : List.Forall₂ (SameLayer m) a.expertGate b.expertGate
  expertUp : List.Forall₂ (SameLayer m) a.expertUp b.expertUp
  expertDown : List.Forall₂ (SameLayer m) a.expertDown b.expertDown
  routerWeight : a.routerWeight = b.routerWeight
  numExperts : a.numExperts = b.numExperts
  topK : a.topK = b.topK

/-- The file written of a model is read back as the same model. -/
def Preserved (config : MoTEConfig) (moteLayers : List MoTELayerData) : Prop :=
  ∃ file moteLayers', saveMoteModel config moteLayers = .ok file ∧
    loadMoteLayers file = .ok moteLayers' ∧
    List.Forall₂ (SameMoteLayer m) moteLayers moteLayers'

end

/-! ### Linear maps -/

section
variable {K : Type} [Field K] [LinearOrder K] {m : Machine K} {ld : LayerData}

/-- A layer with block terms comes back as a cached layer with the first set of them. -/
theorem LayerData.Storable.blockLayer_reread (h : ld.Storable) (hraw : ld.hasRawWeights = false)
    (hblocks : ld.hasBlocks = true) (lname : Bytes) :
    (ld.reread lname).BlockLayer ld.outFeatures.toNat ld.inFeatures.toNat ∧
      (ld.reread lname).blockTerms = ld.blockTerms.take 1 := by
  obtain ⟨blocks, sets, hsets, hshape, -⟩ := h.blocks hblocks
  obtain ⟨hpos, -⟩ := h.columns hblocks
  have hrows := h.rows hblocks
  have hreread : ld.reread lname = (ld.firstSet lname).withCache (termCaches ld.outFeatures.toNat
      (blocksPerRow ld.inFeatures.toNat) (ld.blockTerms.take 1)) := by
    rw [LayerData.reread, hraw, hblocks, if_neg (by decide), if_pos rfl]
  have hfirst : ld.blockTerms.take 1 = [blocks] := by rw [hsets]; rfl
  rw [hreread]
  refine ⟨⟨rfl, rfl, (Int.toNat_of_nonneg hrows).symm, (Int.toNat_of_nonneg hpos.le).symm, ?_, ?_,
    ?_, rfl, rfl⟩, rfl⟩
  · change 0 < (ld.blockTerms.take 1).length
    simp [hfirst]
  · change (ld.blockTerms.take 1).length ≤ 32
    simp [hfirst]
  · change ∀ set ∈ ld.blockTerms.take 1, _
    rw [hfirst]
    exact List.forall_mem_singleton.2 hshape

omit [Field K] [LinearOrder K] in
/-- Cached layers with the same block terms give the kernels the same arguments. -/
theorem LayerData.BlockLayer.blockArgs_eq {a b : LayerData} {rows cols : Nat}
    (ha : a.BlockLayer rows cols) (hb : b.BlockLayer rows cols) (h : a.blockTerms = b.blockTerms)
    (nTerms nBlocks : Nat) (x : List K) :
    blockArgs m a nTerms nBlocks x = blockArgs m b nTerms nBlocks x := by
  have hfield : ∀ {β : Type} (f : LayerData → β),
      f (a.withCache (termCaches rows (blocksPerRow cols) a.blockTerms)) =
        f (b.withCache (termCaches rows (blocksPerRow cols) b.blockTerms)) → f a = f b :=
    fun f hf => (congrArg f ha.cache).trans (hf.trans (congrArg f hb.cache).symm)
  have hdata := hfield LayerData.termBlockData (by rw [h]; rfl)
  have hscales := hfield LayerData.termBlockScales (by rw [h]; rfl)
  have hcontig := hfield LayerData.termContigData (by rw [h]; rfl)
  have hcontig' := hfield LayerData.termContigScales (by rw [h]; rfl)
  simp only [blockArgs, hdata, hscales, hcontig, hcontig', ha.outFeatures, hb.outFeatures,
    ha.inFeatures, hb.inFeatures]

/-- The linear map of a layer is kept where it has no second set of block terms. -/
theorem dispatch_reread (h : ld.Storable)
    (hblocks : ld.hasRawWeights = false → ld.hasBlocks = true → ld.blockTerms.length = 1 ∧
      ld.BlockLayer ld.outFeatures.toNat ld.inFeatures.toNat) (lname : Bytes) (x : List K) :
    ternaryLinearDispatch m (ld.reread lname) x = ternaryLinearDispatch m ld x := by
  cases hraw : ld.hasRawWeights with
  | true =>
    rw [ternaryLinearDispatch, ternaryLinearDispatch, LayerData.reread, hraw]
    rfl
  | false =>
    cases hb : ld.hasBlocks with
    | false =>
      rw [ternaryLinearDispatch, ternaryLinearDispatch, LayerData.reread, hraw, hb]
      rfl
    | true =>
      obtain ⟨hone, hlayer⟩ := hblocks hraw hb
      obtain ⟨hlayer', hterms⟩ := h.blockLayer_reread hraw hb lname
      obtain ⟨hpos, hmax⟩ := h.columns hb
      have htake : ld.blockTerms.take 1 = ld.blockTerms := List.take_of_length_le hone.le
      have hraw' : (ld.reread lname).hasRawWeights = false := by
        rw [LayerData.reread, hraw, hb]
        rfl
      have hterms := hterms.trans htake
      rw [ternaryLinearDispatch, ternaryLinearDispatch, hraw, hraw', hlayer'.hasBlocks, hb]
      simp only [Bool.false_eq_true, if_false, if_true]
      rw [ternaryLinearBlocks_cached hlayer' (by omega) (by omega),
        ternaryLinearBlocks_cached hlayer (by omega) (by omega), hterms,
        hlayer'.blockArgs_eq hlayer hterms]

/-- A layer with several sets of block terms comes back with the linear map of the first. -/
theorem ternaryLinearBlocks_reread (h : ld.Storable) (hraw : ld.hasRawWeights = false)
    (hblocks : ld.hasBlocks = true) (lname : Bytes) {x : List K}
    (hx : ld.inFeatures.toNat ≤ x.length) :
    ternaryLinearBlocks m (ld.reread lname) x .x86_64Scalar =
      .ok ((List.range ld.outFeatures.toNat).map
        (blockTermsDot m.val (ld.blockTerms.take 1) ld.inFeatures.toNat x)) := by
  obtain ⟨hlayer, hterms⟩ := h.blockLayer_reread hraw hblocks lname
  obtain ⟨hpos, hmax⟩ := h.columns hblocks
  rw [ternaryLinearBlocks_scalar hlayer (by omega) (by omega) hx, hterms]

end

/-! ### Names -/

/-- A layer is read under the name of its record, with the name of its part behind it. -/
theorem readLd_name {lname s s' : Bytes} {ld : LayerData} (h : readLd lname s = .ok (ld, s')) :
    ld.name = lname := by
  obtain ⟨_, _, -, h⟩ := CursorM.bind_eq_ok.1 h
  obtain ⟨_, _, -, h⟩ := CursorM.bind_eq_ok.1 h
  obtain ⟨_, _, -, h⟩ := CursorM.bind_eq_ok.1 h
  obtain ⟨_, _, -, h⟩ := CursorM.bind_eq_ok.1 h
  cases h
  rfl

theorem readMoteLayer_name {lname s s' : Bytes} {ml : MoTELayerData}
    (h : readMoteLayer lname s = .ok (ml, s')) :
    ml.gateProj.name = lname ++ str ".gate_proj" := by
  obtain ⟨_, _, -, h⟩ := CursorM.bind_eq_ok.1 h
  obtain ⟨_, _, -, h⟩ := CursorM.bind_eq_ok.1 h
  obtain ⟨_, _, -, h⟩ := CursorM.bind_eq_ok.1 h
  obtain ⟨gateProj, _, hgate, h⟩ := CursorM.bind_eq_ok.1 h
  obtain ⟨_, _, -, h⟩ := CursorM.bind_eq_ok.1 h
  obtain ⟨_, _, -, h⟩ := CursorM.bind_eq_ok.1 h
  obtain ⟨_, _, -, h⟩ := CursorM.bind_eq_ok.1 h
  obtain ⟨_, _, -, h⟩ := CursorM.bind_eq_ok.1 h
  obtain ⟨_, _, -, h⟩ := CursorM.bind_eq_ok.1 h
  obtain ⟨_, _, -, h⟩ := CursorM.bind_eq_ok.1 h
  cases h
  exact readLd_name hgate

/-- The name the first record of a file bears comes back as a prefix of the name of its gate. -/
theorem load_first_name {config : MoTEConfig} (hexperts : IsI32 config.numExperts)
    (htop : IsI32 config.topK) {ml : MoTELayerData} {mls : List MoTELayerData}
    (hname : ml.gateProj.name.length < 4294967296) (hlen : (ml :: mls).length < 4294967296)
    {file : Bytes} (hsave : saveMoteModel config (ml :: mls) = .ok file)
    {loaded : List MoTELayerData} (hload : loadMoteLayers file = .ok loaded) :
    ∃ ml' mls', loaded = ml' :: mls' ∧
      ml'.gateProj.name = ml.gateProj.name ++ str ".gate_proj" := by
  obtain ⟨records, hrecords, hfile⟩ := bind_eq_ok.1 hsave
  cases hfile
  rw [List.mapM_cons] at hrecords
  obtain ⟨record, hrecord, hrecords⟩ := bind_eq_ok.1 hrecords
  obtain ⟨rest, -, hrecords⟩ := bind_eq_ok.1 hrecords
  cases hrecords
  obtain ⟨experts, -, hrecord⟩ := bind_eq_ok.1 hrecord
  cases hrecord
  rw [loadMoteLayers, readsOff_moteHead (moteConfigText_length hexperts htop) hlen,
    ok_bind] at hload
  obtain ⟨⟨layers, s⟩, hlayers, hload⟩ := bind_eq_ok.1 hload
  cases hload
  rw [List.length_cons, List.range_succ_eq_map, List.mapM_cons] at hlayers
  obtain ⟨ml', _, hfirst, hlayers⟩ := CursorM.bind_eq_ok.1 hlayers
  obtain ⟨mls', _, -, hlayers⟩ := CursorM.bind_eq_ok.1 hlayers
  cases hlayers
  refine ⟨ml', mls', rfl, ?_⟩
  simp only [List.flatten_cons, List.append_assoc, nextMoteLayer] at hfirst
  rw [run_sized hname] at hfirst
  exact readMoteLayer_name hfirst

section
variable {K : Type} [Field K] [LinearOrder K] {m : Machine K} {config : MoTEConfig}

/-- A model with a layer is not preserved: its first shared gate projection changes its name. -/
theorem not_preserved_cons (hexperts : IsI32 config.numExperts) (htop : IsI32 config.topK)
    {ml : MoTELayerData} {mls : List MoTELayerData}
    (hname : ml.gateProj.name.length < 4294967296) (hlen : (ml :: mls).length < 4294967296) :
    ¬ Preserved m config (ml :: mls) := by
  rintro ⟨file, loaded, hsave, hload, hsame⟩
  obtain ⟨ml', mls', rfl, hname'⟩ := load_first_name hexperts htop hname hlen hsave hload
  cases hsame with
  | cons hfirst _ =>
    have hself := congrArg List.length (hfirst.gateProj.name.trans hname')
    rw [List.length_append, show (str ".gate_proj").length = 10 from rfl] at hself
    omega

/-- A model without layers is preserved. -/
theorem preserved_nil (hexperts : IsI32 config.numExperts) (htop : IsI32 config.topK) :
    Preserved m config [] := by
  have hround := @loadMoteLayers_saveMoteModel config [] hexperts htop (Nat.zero_lt_succ _)
    fun ml hml => absurd hml List.not_mem_nil
  obtain ⟨file, hsave, hload⟩ := bind_eq_ok.1 hround
  exact ⟨file, [], hsave, hload, .nil⟩

/-- The names of a built layer. -/
theorem buildMoteLayer_name {ops : MoteFloats} {cfg : ModelConfig} {layers : List LayerData}
    {numExperts topK : Int} {i : Nat} {ml : MoTELayerData}
    (h : buildMoteLayer ops cfg layers numExperts topK i = .ok ml) :
    ml.gateProj.name = str ("model.layers." ++ toString i ++ ".mote.gate_proj") := by
  obtain ⟨_, -, h⟩ := bind_eq_ok.1 h
  obtain ⟨_, -, h⟩ := bind_eq_ok.1 h
  obtain ⟨_, -, h⟩ := bind_eq_ok.1 h
  obtain ⟨_, -, h⟩ := bind_eq_ok.1 h
  obtain ⟨_, -, h⟩ := bind_eq_ok.1 h
  obtain ⟨_, -, h⟩ := bind_eq_ok.1 h
  obtain ⟨_, -, h⟩ := bind_eq_ok.1 h
  obtain ⟨_, -, h⟩ := bind_eq_ok.1 h
  cases h
  rfl

/-- What a build is read back from its file as is the same model if and only if it has no
transformer layer. -/
theorem moteBuild_preserved_iff (ops : MoteFloats) {cfg : ModelConfig} {layers : List LayerData}
    {numExperts topK : Int} {moteLayers : List MoTELayerData} (hexperts : IsI32 numExperts)
    (htop : IsI32 topK) (hlayers : IsI32 cfg.numHiddenLayers)
    (h : moteBuild ops cfg layers numExperts topK = .ok moteLayers) :
    Preserved m ⟨numExperts, topK, true⟩ moteLayers ↔ cfg.numHiddenLayers = 0 := by
  obtain ⟨_, halloc, hbuild⟩ := bind_eq_ok.1 h
  have halloc := le_of_vectorAlloc halloc
  have hnonneg : 0 ≤ cfg.numHiddenLayers := by
    -- a negative number of layers is a size no vector has
    by_contra hneg
    have hlow := hlayers.1
    rw [sizeT, vectorMaxSize, sizeofMoTELayerData] at halloc
    omega
  obtain ⟨n, hn⟩ := Int.eq_ofNat_of_zero_le hnonneg
  have hmax := hlayers.2
  rw [hn, Int.toNat_natCast] at hbuild
  cases n with
  | zero =>
    cases hbuild
    exact iff_of_true (preserved_nil hexperts htop) hn
  | succ n =>
    have hcount := (forall₂_of_mapM_ok hbuild).length_eq
    rw [List.range_succ_eq_map, List.mapM_cons] at hbuild
    obtain ⟨ml, hfirst, hbuild⟩ := bind_eq_ok.1 hbuild
    obtain ⟨mls, -, hbuild⟩ := bind_eq_ok.1 hbuild
    cases hbuild
    rw [List.length_range] at hcount
    have hname : ml.gateProj.name.length < 4294967296 := by
      rw [buildMoteLayer_name hfirst]
      decide
    exact iff_of_false (not_preserved_cons hexperts htop hname (by omega)) (by omega)

end

/-- A layer of one weight. -/
def oneWeight (name : String) : LayerData where
  name := str name
  outFeatures := 1
  inFeatures := 1
  hasRawWeights := true
  rawWeights := [0x3F800000]

/-- A dense model of one transformer layer with one weight in each feed-forward layer. -/
def oneWeightLayers : List LayerData :=
  [oneWeight "model.layers.0.mlp.gate_proj", oneWeight "model.layers.0.mlp.up_proj",
    oneWeight "model.layers.0.mlp.down_proj"]

/-- Its configuration, as far as the builder reads it. -/
def oneWeightConfig (numHiddenLayers : Int) : ModelConfig where
  vocabSize := 1
  hiddenSize := 1
  intermediateSize := 1
  numHiddenLayers := numHiddenLayers
  numAttentionHeads := 1
  numKeyValueHeads := 1
  rmsNormEps := 0x3727C5AC
  ropeTheta := 0x461C4000
  maxPositionEmbeddings := 1
  headDim := 1

/-- The arithmetic of the builder where there is one expert: raw weights get no noise, and the
router weight is `0.01f`. -/
def oneExpertFloats : MoteFloats := ⟨fun _ _ s => s, fun _ _ _ w => w, fun _ _ => 0x3C23D70A⟩

/-- The MoTE layer of one expert that is built of it. -/
def oneWeightMote : MoTELayerData where
  gateProj := oneWeight "model.layers.0.mote.gate_proj"
  upProj := oneWeight "model.layers.0.mote.up_proj"
  downProj := oneWeight "model.layers.0.mote.down_proj"
  numExperts := 1
  topK := 1
  expertGate := [oneWeight "model.layers.0.mote.expert.0.gate_proj"]
  expertUp := [oneWeight "model.layers.0.mote.expert.0.up_proj"]
  expertDown := [oneWeight "model.layers.0.mote.expert.0.down_proj"]
  routerWeight := [0x3C23D70A]
  isMote := true

theorem moteBuild_oneWeight :
    moteBuild oneExpertFloats (oneWeightConfig 1) oneWeightLayers 1 1 = .ok [oneWeightMote] := by
  decide +kernel

/-- The condition decides the model of one layer, which is built. -/
theorem preserved_iff_oneWeight :
    moteBuild oneExpertFloats (oneWeightConfig 1) oneWeightLayers 1 1 = .ok [oneWeightMote] ∧
      (Preserved ratMachine ⟨1, 1, true⟩ [oneWeightMote] ↔ (oneWeightConfig 1).numHiddenLayers = 0) :=
  ⟨moteBuild_oneWeight, moteBuild_preserved_iff oneExpertFloats (by decide) (by decide) (by decide)
    moteBuild_oneWeight⟩

/-- The model of one layer is written to a file that holds another model. -/
theorem not_preserved_oneWeight :
    moteBuild oneExpertFloats (oneWeightConfig 1) oneWeightLayers 1 1 = .ok [oneWeightMote] ∧
      ¬ Preserved ratMachine ⟨1, 1, true⟩ [oneWeightMote] :=
  ⟨moteBuild_oneWeight, not_preserved_cons (by decide) (by decide) (by decide) (by decide)⟩

end Terllama
