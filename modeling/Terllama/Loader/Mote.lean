import Terllama.Base.Cursor
import Terllama.Base.Decimal
import Terllama.Loader.Payload

/-!
# The MoTE file

`save_mote_model` and `load_mote_layers` of `src/loader.h`: the layers of a mixture-of-experts model
with their router weights, each layer in the form `serialize_layer_data` gives it.

The serializer keeps the first set of block terms of a layer, and the loader names the layers it
reads after the name of the record they stand in; `LayerData.reread` is a layer after both.
`loadMoteLayers_saveMoteModel` says that this is all that a save and a load change.
-/

namespace Terllama

/-- `MoTEConfig`. -/
structure MoTEConfig where
  numExperts : Int := 4
  topK : Int := 1
  useSharedExpert : Bool := true
  deriving DecidableEq, Repr

/-- `MoTELayerData`: the shared expert, the routed experts, and the router. -/
structure MoTELayerData where
  gateProj : LayerData := {}
  upProj : LayerData := {}
  downProj : LayerData := {}
  numExperts : Int := 0
  topK : Int := 1
  expertGate : List LayerData := []
  expertUp : List LayerData := []
  expertDown : List LayerData := []
  routerWeight : List F32 := []
  routerScale : F32 := 0x3F800000
  isMote : Bool := false
  deriving DecidableEq, Repr

/-- `MOTE_MAGIC`. -/
def moteMagic : Nat := 0x45544F4D

/-- A buffer behind its length, which is a `uint32_t`. -/
def sized (data : Bytes) : Bytes := u32Bytes data.length ++ data.take (data.length % 4294967296)

/-! ## Saving -/

/-- A block of `serialize_layer_data`. -/
def serializeBlock (block : BlockTerm) : Bytes := sized block.packed ++ block.scale.toBytes

/-- A bitplane term of `serialize_layer_data`. -/
def serializeTerm (term : BitplaneTerm) : Bytes :=
  i32Bytes term.alphaExp ++ leBytes 8 term.nElements ++ sized (floatBytes term.combined)

/-- `serialize_layer_data`. -/
def serializeLayerData (ld : LayerData) : Bytes :=
  let head := sized ld.name ++ i32Bytes ld.outFeatures ++ i32Bytes ld.inFeatures ++
    i32Bytes ld.numTerms ++ [if ld.hasRawWeights then 1 else 0]
  if ld.hasRawWeights then head ++ sized (floatBytes ld.rawWeights)
  else
    let head := head ++ [if ld.hasBlocks then 1 else 0]
    match ld.hasBlocks, ld.blockTerms with
    -- the first term set: a MoTE file stores a single one
    | true, blocks :: _ =>
      head ++ u32Bytes blocks.length ++ i32Bytes ld.blockQk ++ blocks.flatMap serializeBlock
    | _, _ => head ++ u32Bytes ld.terms.length ++ ld.terms.flatMap serializeTerm

/-- The lambda `write_ld`. -/
def writeLd (ld : LayerData) : Bytes := sized (serializeLayerData ld)

/-- The three layers of expert `e`. -/
def saveExpert (ml : MoTELayerData) (e : Nat) : Exec Bytes := do
  let gate ← load ml.expertGate e
  let up ← load ml.expertUp e
  let down ← load ml.expertDown e
  return writeLd gate ++ writeLd up ++ writeLd down

/-- The record of a layer: it bears the name of the shared gate projection. -/
def saveMoteLayer (ml : MoTELayerData) : Exec Bytes := do
  let experts ← (List.range ml.numExperts.toNat).mapM (saveExpert ml)
  return sized ml.gateProj.name ++ i32Bytes ml.numExperts ++ i32Bytes ml.topK ++ [1] ++
    writeLd ml.gateProj ++ writeLd ml.upProj ++ writeLd ml.downProj ++ experts.flatten ++
    sized (floatBytes ml.routerWeight)

/-- The configuration text. -/
def moteConfigText (config : MoTEConfig) : Bytes :=
  str "\x7b\"num_experts\":" ++ signedDecimal config.numExperts ++ str ",\"top_k\":" ++
    signedDecimal config.topK ++ str ",\"use_shared_expert\":" ++
    (if config.useSharedExpert then str "true" else str "false") ++ str "\x7d"

/-- The file that `save_mote_model` writes. -/
def saveMoteModel (config : MoTEConfig) (moteLayers : List MoTELayerData) : Exec Bytes := do
  let records ← moteLayers.mapM saveMoteLayer
  return u32Bytes moteMagic ++ sized (moteConfigText config) ++ u32Bytes moteLayers.length ++
    records.flatten

/-! ## Loading -/

/-- A block of `deserialize_layer_data`. -/
def deserializeBlock : CursorM BlockTerm := do
  let ps ← takeU32
  let packed ← takeBytes ps
  let scale ← takeBytes 4
  return { packed, scale := F32.ofBytes scale }

/-- A bitplane term of `deserialize_layer_data`. -/
def deserializeTerm : CursorM BitplaneTerm := do
  let alphaExp ← takeU32
  let ne ← takeBytes 8
  let cs ← takeU32
  let combined ← copyFloats (← takeBytes cs)
  return { alphaExp := toInt32 alphaExp, nElements := leNat ne, combined }

/-- The block terms of `deserialize_layer_data`, and the cache it builds. -/
def deserializeBlocks (ld : LayerData) : CursorM LayerData := do
  let nb ← takeU32
  let qk ← takeU32
  let blocks ← (List.range nb).mapM fun _ => deserializeBlock
  buildBlockContigCache
    { ld with hasBlocks := true, blockQk := toInt32 qk, blockTerms := [blocks] }

/-- `deserialize_layer_data`. -/
def deserializeLayerData : CursorM LayerData := do
  let nl ← takeU32
  let name ← takeBytes nl
  let outFeatures ← takeU32
  let inFeatures ← takeU32
  let numTerms ← takeU32
  let ld : LayerData := {
    name
    outFeatures := toInt32 outFeatures
    inFeatures := toInt32 inFeatures
    numTerms := toInt32 numTerms }
  let hasRaw ← takeU8
  if hasRaw ≠ 0 then
    let dw ← takeU32
    let rawWeights ← copyFloats (← takeBytes dw)
    return { ld with hasRawWeights := true, rawWeights }
  else
    let hasBlocks ← takeU8
    if hasBlocks ≠ 0 then deserializeBlocks ld
    else
      let nterms ← takeU32
      let terms ← (List.range nterms).mapM fun _ => deserializeTerm
      return { ld with terms }

/-- The lambda `read_ld`: the next layer starts where the size of this one says. -/
def readLd (lname : Bytes) : CursorM LayerData := do
  let lsz ← takeU32
  let buf ← get
  let (ld, _) ← deserializeLayerData buf
  skipBytes lsz
  return { ld with name := lname }

/-- The three layers of expert `e`. -/
def readExpert (lname : Bytes) (e : Nat) : CursorM (LayerData × LayerData × LayerData) := do
  let es := lname ++ str ".expert." ++ decimal e
  let gate ← readLd (es ++ str ".gate_proj")
  let up ← readLd (es ++ str ".up_proj")
  let down ← readLd (es ++ str ".down_proj")
  return (gate, up, down)

/-- The expert loop, after the tables of the experts were resized. -/
def readExperts (lname : Bytes) (numExperts : Int) :
    CursorM (List (LayerData × LayerData × LayerData)) :=
  if numExperts < 0 then liftM (raise "vector::_M_default_append" : Exec _)
  else (List.range numExperts.toNat).mapM (readExpert lname)

/-- The record of a layer, behind its name. -/
def readMoteLayer (lname : Bytes) : CursorM MoTELayerData := do
  let numExperts ← takeU32
  let topK ← takeU32
  let _ ← takeU8
  let gateProj ← readLd (lname ++ str ".gate_proj")
  let upProj ← readLd (lname ++ str ".up_proj")
  let downProj ← readLd (lname ++ str ".down_proj")
  let experts ← readExperts lname (toInt32 numExperts)
  let rwl ← takeU32
  let routerWeight ← copyFloats (← takeBytes rwl)
  return {
    gateProj
    upProj
    downProj
    numExperts := toInt32 numExperts
    topK := toInt32 topK
    expertGate := experts.map fun e => e.1
    expertUp := experts.map fun e => e.2.1
    expertDown := experts.map fun e => e.2.2
    routerWeight
    routerScale := 0x3F800000
    isMote := true }

/-- A pass of the layer loop. -/
def nextMoteLayer : CursorM MoTELayerData := do
  let nl ← takeU32
  let lname ← takeBytes nl
  readMoteLayer lname

/-- The head of the file: the magic number, the configuration, which is passed over, and the number
of layers. -/
def readMoteHead : CursorM Nat := do
  let magic ← takeU32
  if magic ≠ moteMagic then liftM (raise "Bad MoTE magic in model file" : Exec Unit)
  let cfgLen ← takeU32
  skipBytes cfgLen
  takeU32

/-- `load_mote_layers`. -/
def loadMoteLayers (file : Bytes) : Exec (List MoTELayerData) := do
  let (numLayers, rest) ← readMoteHead file
  let (layers, _) ← ((List.range numLayers).mapM fun _ => nextMoteLayer) rest
  return layers

/-! ## What a save and a load keep -/

theorem readsOff_i32Bytes (n : Int) : ReadsOff takeU32 (i32Bytes n) (n % 4294967296).toNat :=
  readsOff_takeU32 (by omega)

/-- A buffer whose length its `uint32_t` holds. -/
theorem sized_append {data : Bytes} (h : data.length < 4294967296) (rest : Bytes) :
    sized data ++ rest = u32Bytes data.length ++ (data ++ rest) := by
  rw [sized, Nat.mod_eq_of_lt h, List.take_length, List.append_assoc]

/-- Such a buffer, read behind its length. -/
theorem run_sized {α : Type} {data : Bytes} (h : data.length < 4294967296) (f : Bytes → CursorM α)
    (rest : Bytes) :
    (do let n ← takeU32; let bytes ← takeBytes n; f bytes) (sized data ++ rest) = f data rest := by
  rw [sized_append h, (readsOff_takeU32 h).run, (readsOff_takeBytes rfl).run]

theorem copyFloats_floatBytes (ws : List F32) : copyFloats (floatBytes ws) = .ok ws := by
  rw [copyFloats, floatBytes_length, if_pos (by omega), floatsOf_floatBytes]

/-- Words, read behind the number of their bytes. -/
theorem run_sizedFloats {α : Type} {ws : List F32} (h : 4 * ws.length < 4294967296)
    (f : List F32 → CursorM α) (rest : Bytes) :
    (do let n ← takeU32; let ws ← copyFloats (← takeBytes n); f ws) (sized (floatBytes ws) ++ rest) =
      f ws rest := by
  rw [run_sized (by rwa [floatBytes_length]), CursorM.run_liftM (copyFloats_floatBytes ws)]

/-- A block whose codes a `uint32_t` counts. -/
theorem readsOff_serializeBlock {block : BlockTerm} (h : block.packed.length < 4294967296) :
    ReadsOff deserializeBlock (serializeBlock block) block := by
  intro rest
  rw [serializeBlock, List.append_assoc, deserializeBlock, run_sized h,
    (readsOff_takeBytes block.scale.toBytes_length).run, F32.ofBytes_toBytes]
  rfl

/-- A term whose members have the widths of their types. -/
structure BitplaneTerm.Storable (term : BitplaneTerm) : Prop where
  alphaExp : IsI32 term.alphaExp
  nElements : term.nElements < 18446744073709551616
  combined : 4 * term.combined.length < 4294967296

theorem readsOff_serializeTerm {term : BitplaneTerm} (h : term.Storable) :
    ReadsOff deserializeTerm (serializeTerm term) term := by
  intro rest
  have hne : leNat (leBytes 8 term.nElements) = term.nElements := leNat_leBytes_of_lt h.nElements
  rw [serializeTerm, List.append_assoc, List.append_assoc, deserializeTerm,
    (readsOff_i32Bytes _).run, (readsOff_takeBytes (leBytes_length 8 _)).run,
    run_sizedFloats h.combined, toInt32_emod h.alphaExp, hne]
  rfl

/-! ### Layers -/

/-- A layer as the loader of a dense model or the builder makes it, in the widths of its types:
block terms have the shape of its dimensions. -/
structure LayerData.Storable (ld : LayerData) : Prop where
  name : ld.name.length < 4294967296
  outFeatures : IsI32 ld.outFeatures
  inFeatures : IsI32 ld.inFeatures
  numTerms : IsI32 ld.numTerms
  raw : ld.hasRawWeights = true → 4 * ld.rawWeights.length < 4294967296
  blockQk : ld.hasBlocks = true → ld.blockQk = 128
  columns : ld.hasBlocks = true → 0 < ld.inFeatures ∧ ld.inFeatures ≤ 2147483519
  rows : ld.hasBlocks = true → 0 ≤ ld.outFeatures
  blocks : ld.hasBlocks = true → ∃ blocks rest, ld.blockTerms = blocks :: rest ∧
    TermShape ld.outFeatures.toNat ld.inFeatures.toNat blocks ∧ blocks.length < 4294967296
  terms : ld.terms.length < 4294967296 ∧ ∀ term ∈ ld.terms, term.Storable
  size : (serializeLayerData ld).length < 4294967296

/-- The first set of the block terms of a layer, on its own. -/
def LayerData.firstSet (ld : LayerData) (lname : Bytes) : LayerData where
  name := lname
  outFeatures := ld.outFeatures
  inFeatures := ld.inFeatures
  numTerms := ld.numTerms
  hasBlocks := true
  blockTerms := ld.blockTerms.take 1

/-- A layer after a save and a load: a new name, and the first set of its block terms, cached. -/
def LayerData.reread (ld : LayerData) (lname : Bytes) : LayerData :=
  let head : LayerData := {
    name := lname
    outFeatures := ld.outFeatures
    inFeatures := ld.inFeatures
    numTerms := ld.numTerms }
  if ld.hasRawWeights then { head with hasRawWeights := true, rawWeights := ld.rawWeights }
  else if ld.hasBlocks then
    (ld.firstSet lname).withCache
      (termCaches ld.outFeatures.toNat (blocksPerRow ld.inFeatures.toNat) (ld.blockTerms.take 1))
  else { head with terms := ld.terms }

@[simp] theorem LayerData.reread_name (ld : LayerData) (lname : Bytes) :
    (ld.reread lname).name = lname := by
  unfold LayerData.reread
  split
  · rfl
  · split <;> rfl

/-- The name is the only thing that `read_ld` changes of what it reads. -/
theorem LayerData.reread_rename (ld : LayerData) (lname lname' : Bytes) :
    { ld.reread lname with name := lname' } = ld.reread lname' := by
  unfold LayerData.reread
  split
  · rfl
  · split <;> rfl

/-- The cache of the first set is built. -/
theorem LayerData.Storable.cache_firstSet {ld : LayerData} (h : ld.Storable)
    (hblocks : ld.hasBlocks = true) (lname : Bytes) :
    buildBlockContigCache (ld.firstSet lname) = .ok ((ld.firstSet lname).withCache
      (termCaches ld.outFeatures.toNat (blocksPerRow ld.inFeatures.toNat)
        (ld.blockTerms.take 1))) := by
  obtain ⟨hpos, hmax⟩ := h.columns hblocks
  obtain ⟨blocks, sets, hsets, hshape, -⟩ := h.blocks hblocks
  have hrows := h.rows hblocks
  have hrange := h.outFeatures.2
  have hfit : ld.outFeatures.toNat * blocksPerRow ld.inFeatures.toNat ≤ 288230376151711743 := by
    have hle : blocksPerRow ld.inFeatures.toNat ≤ 16777216 := by unfold blocksPerRow; omega
    have hmul := Nat.mul_le_mul (show ld.outFeatures.toNat ≤ 2147483647 by omega) hle
    omega
  have hout : (ld.firstSet lname).outFeatures = (ld.outFeatures.toNat : Nat) :=
    (Int.toNat_of_nonneg hrows).symm
  have hin : (ld.firstSet lname).inFeatures = (ld.inFeatures.toNat : Nat) :=
    (Int.toNat_of_nonneg hpos.le).symm
  have hfirst : (ld.firstSet lname).blockTerms = [blocks] := by
    rw [LayerData.firstSet, hsets]
    rfl
  exact buildBlockContigCache_ok (ld.firstSet lname) rfl rfl hout hin (by omega) (by omega)
    (by simp [hfirst]) (by simpa [hfirst] using hshape) hfit

/-- The decoder reads a layer off its serialization. -/
theorem readsOff_serializeLayerData {ld : LayerData} (h : ld.Storable) :
    ReadsOff deserializeLayerData (serializeLayerData ld) (ld.reread ld.name) := by
  intro rest
  rw [deserializeLayerData, serializeLayerData, LayerData.reread]
  by_cases hraw : ld.hasRawWeights = true
  · simp only [hraw, if_true, List.append_assoc]
    rw [run_sized h.name, (readsOff_i32Bytes _).run, (readsOff_i32Bytes _).run,
      (readsOff_i32Bytes _).run, (readsOff_takeU8 1).run, if_pos (by decide),
      run_sizedFloats (h.raw hraw), toInt32_emod h.outFeatures, toInt32_emod h.inFeatures,
      toInt32_emod h.numTerms]
    rfl
  · have hraw : ld.hasRawWeights = false := eq_false_of_ne_true hraw
    by_cases hblocks : ld.hasBlocks = true
    · obtain ⟨blocks, sets, hsets, hshape, hcount⟩ := h.blocks hblocks
      have hpacked : ∀ block ∈ blocks, block.packed.length < 4294967296 := fun block hb => by
        rw [hshape.packed_length block hb]
        decide
      have hread := readsOff_repeat fun block hb => readsOff_serializeBlock (hpacked block hb)
      rw [List.map_id'] at hread
      simp only [hraw, hblocks, hsets, LayerData.firstSet, Bool.false_eq_true, if_true, if_false,
        List.append_assoc]
      rw [run_sized h.name, (readsOff_i32Bytes _).run, (readsOff_i32Bytes _).run,
        (readsOff_i32Bytes _).run, (readsOff_takeU8 0).run, if_neg (by decide),
        (readsOff_takeU8 1).run, if_pos (by decide), deserializeBlocks,
        (readsOff_takeU32 hcount).run, (readsOff_i32Bytes _).run, hread.run,
        toInt32_emod h.outFeatures, toInt32_emod h.inFeatures, toInt32_emod h.numTerms,
        h.blockQk hblocks, toInt32_emod (by decide), CursorM.liftM_apply]
      have hcache := h.cache_firstSet hblocks ld.name
      rw [LayerData.firstSet, hsets] at hcache
      exact congrArg (· >>= fun ld' => (.ok (ld', rest) : Exec (LayerData × Bytes))) hcache
    · have hblocks : ld.hasBlocks = false := eq_false_of_ne_true hblocks
      have hread := readsOff_repeat fun term ht => readsOff_serializeTerm (h.terms.2 term ht)
      rw [List.map_id'] at hread
      simp only [hraw, hblocks, Bool.false_eq_true, if_false, List.append_assoc]
      rw [run_sized h.name, (readsOff_i32Bytes _).run, (readsOff_i32Bytes _).run,
        (readsOff_i32Bytes _).run, (readsOff_takeU8 0).run, if_neg (by decide),
        (readsOff_takeU8 0).run, if_neg (by decide), (readsOff_takeU32 h.terms.1).run, hread.run,
        toInt32_emod h.outFeatures, toInt32_emod h.inFeatures, toInt32_emod h.numTerms]
      rfl

/-- The next layer is read off its size and its serialization. -/
theorem readsOff_writeLd {ld : LayerData} (h : ld.Storable) (lname : Bytes) :
    ReadsOff (readLd lname) (writeLd ld) (ld.reread lname) := by
  intro rest
  rw [writeLd, sized_append h.size, readLd, (readsOff_takeU32 h.size).run, CursorM.run_get,
    CursorM.run_liftM (readsOff_serializeLayerData h rest)]
  simp only
  rw [CursorM.run_skipBytes, LayerData.reread_rename]
  rfl

/-! ### Models -/

/-- A layer of a model whose experts are as many as it says. -/
structure MoTELayerData.Storable (ml : MoTELayerData) : Prop where
  numExperts : IsI32 ml.numExperts
  nonneg : 0 ≤ ml.numExperts
  topK : IsI32 ml.topK
  shared : ml.gateProj.Storable ∧ ml.upProj.Storable ∧ ml.downProj.Storable
  expertGate : ml.expertGate.length = ml.numExperts.toNat ∧ ∀ ld ∈ ml.expertGate, ld.Storable
  expertUp : ml.expertUp.length = ml.numExperts.toNat ∧ ∀ ld ∈ ml.expertUp, ld.Storable
  expertDown : ml.expertDown.length = ml.numExperts.toNat ∧ ∀ ld ∈ ml.expertDown, ld.Storable
  router : 4 * ml.routerWeight.length < 4294967296

/-- A table of experts after a save and a load. -/
def rereadExperts (experts : List LayerData) (n : Nat) (lname suffix : Bytes) : List LayerData :=
  (List.range n).map fun e =>
    (experts.getD e default).reread (lname ++ str ".expert." ++ decimal e ++ suffix)

/-- A layer of a model after a save and a load. -/
def MoTELayerData.reread (ml : MoTELayerData) : MoTELayerData where
  gateProj := ml.gateProj.reread (ml.gateProj.name ++ str ".gate_proj")
  upProj := ml.upProj.reread (ml.gateProj.name ++ str ".up_proj")
  downProj := ml.downProj.reread (ml.gateProj.name ++ str ".down_proj")
  numExperts := ml.numExperts
  topK := ml.topK
  expertGate :=
    rereadExperts ml.expertGate ml.numExperts.toNat ml.gateProj.name (str ".gate_proj")
  expertUp := rereadExperts ml.expertUp ml.numExperts.toNat ml.gateProj.name (str ".up_proj")
  expertDown :=
    rereadExperts ml.expertDown ml.numExperts.toNat ml.gateProj.name (str ".down_proj")
  routerWeight := ml.routerWeight
  routerScale := 0x3F800000
  isMote := true

/-- The bytes of the three layers of an expert. -/
def expertBytes (ml : MoTELayerData) (e : Nat) : Bytes :=
  writeLd (ml.expertGate.getD e default) ++ writeLd (ml.expertUp.getD e default) ++
    writeLd (ml.expertDown.getD e default)

/-- A member of a table of `n` experts. -/
theorem storable_getD {experts : List LayerData} {n e : Nat}
    (h : experts.length = n ∧ ∀ ld ∈ experts, ld.Storable) (he : e < n) :
    load experts e = .ok (experts.getD e default) ∧ (experts.getD e default).Storable := by
  have he : e < experts.length := h.1 ▸ he
  refine ⟨load_getD he default, h.2 _ ?_⟩
  rw [List.getD_eq_getElem _ _ he]
  exact List.getElem_mem he

theorem saveExpert_ok {ml : MoTELayerData} (h : ml.Storable) {e : Nat}
    (he : e < ml.numExperts.toNat) : saveExpert ml e = .ok (expertBytes ml e) := by
  rw [saveExpert, (storable_getD h.expertGate he).1, (storable_getD h.expertUp he).1,
    (storable_getD h.expertDown he).1]
  rfl

/-- The three layers of an expert are read off their bytes. -/
theorem readsOff_expertBytes {ml : MoTELayerData} (h : ml.Storable) (lname : Bytes) {e : Nat}
    (he : e < ml.numExperts.toNat) : ReadsOff (readExpert lname e) (expertBytes ml e)
      ((ml.expertGate.getD e default).reread
          (lname ++ str ".expert." ++ decimal e ++ str ".gate_proj"),
        (ml.expertUp.getD e default).reread (lname ++ str ".expert." ++ decimal e ++ str ".up_proj"),
        (ml.expertDown.getD e default).reread
          (lname ++ str ".expert." ++ decimal e ++ str ".down_proj")) := by
  intro rest
  rw [expertBytes, List.append_assoc, List.append_assoc, readExpert,
    (readsOff_writeLd (storable_getD h.expertGate he).2 _).run,
    (readsOff_writeLd (storable_getD h.expertUp he).2 _).run,
    (readsOff_writeLd (storable_getD h.expertDown he).2 _).run]
  rfl

/-- The record of a layer. -/
def moteLayerBytes (ml : MoTELayerData) : Bytes :=
  sized ml.gateProj.name ++ i32Bytes ml.numExperts ++ i32Bytes ml.topK ++ [1] ++
    writeLd ml.gateProj ++ writeLd ml.upProj ++ writeLd ml.downProj ++
    (List.range ml.numExperts.toNat).flatMap (expertBytes ml) ++
    sized (floatBytes ml.routerWeight)

theorem saveMoteLayer_ok {ml : MoTELayerData} (h : ml.Storable) :
    saveMoteLayer ml = .ok (moteLayerBytes ml) := by
  have hexperts := mapM_ok (l := List.range ml.numExperts.toNat) fun e he =>
    saveExpert_ok h (List.mem_range.1 he)
  rw [saveMoteLayer, hexperts, ok_bind, moteLayerBytes, List.flatMap]
  rfl

/-- A layer is read off its record. -/
theorem readsOff_moteLayerBytes {ml : MoTELayerData} (h : ml.Storable) :
    ReadsOff nextMoteLayer (moteLayerBytes ml) ml.reread := by
  intro rest
  obtain ⟨hgate, hup, hdown⟩ := h.shared
  have hexperts := readsOff_mapM (l := List.range ml.numExperts.toNat) fun e he =>
    readsOff_expertBytes h ml.gateProj.name (List.mem_range.1 he)
  have hsign : ¬ ml.numExperts < 0 := not_lt.2 h.nonneg
  simp only [moteLayerBytes, List.append_assoc]
  rw [nextMoteLayer, run_sized hgate.name, readMoteLayer, (readsOff_i32Bytes _).run,
    (readsOff_i32Bytes _).run, (readsOff_takeU8 1).run, (readsOff_writeLd hgate _).run,
    (readsOff_writeLd hup _).run, (readsOff_writeLd hdown _).run, toInt32_emod h.numExperts,
    readExperts, if_neg hsign, hexperts.run, run_sizedFloats h.router, toInt32_emod h.topK]
  simp only [CursorM.pure_apply, List.map_map]
  rfl

/-- The configuration text of a model whose numbers are `int`s. -/
theorem moteConfigText_length {config : MoTEConfig} (hexperts : IsI32 config.numExperts)
    (htop : IsI32 config.topK) : (moteConfigText config).length < 4294967296 := by
  have hdecimal : ∀ {n : Int}, IsI32 n → (signedDecimal n).length ≤ 11 := by
    rintro n ⟨hlo, hhi⟩
    have hlen := decimal_length_le (show n.natAbs < 10000000000 by omega)
    unfold signedDecimal
    split
    · rw [List.length_append, show (str "-").length = 1 from rfl]
      omega
    · omega
  have h₁ := hdecimal hexperts
  have h₂ := hdecimal htop
  have h₃ : (if config.useSharedExpert then str "true" else str "false").length ≤ 5 := by
    split <;> decide
  simp only [moteConfigText, List.length_append]
  have hlits : (str "\x7b\"num_experts\":").length = 15 ∧ (str ",\"top_k\":").length = 9 ∧
      (str ",\"use_shared_expert\":").length = 21 ∧ (str "\x7d").length = 1 := by decide
  omega

/-- The head is read off its bytes. -/
theorem readsOff_moteHead {text : Bytes} {n : Nat} (htext : text.length < 4294967296)
    (hn : n < 4294967296) :
    ReadsOff readMoteHead (u32Bytes moteMagic ++ sized text ++ u32Bytes n) n := by
  intro rest
  rw [List.append_assoc, List.append_assoc, readMoteHead,
    (readsOff_takeU32 (show moteMagic < 4294967296 by decide)).run, sized_append htext]
  simp only [ne_eq, not_true_eq_false, if_false]
  rw [(readsOff_takeU32 htext).run, CursorM.run_skipBytes]
  exact readsOff_takeU32 hn rest

/-- A save and a load of a model keep every layer up to `MoTELayerData.reread`. -/
theorem loadMoteLayers_saveMoteModel {config : MoTEConfig} {moteLayers : List MoTELayerData}
    (hexperts : IsI32 config.numExperts) (htop : IsI32 config.topK)
    (hlen : moteLayers.length < 4294967296) (hlayers : ∀ ml ∈ moteLayers, ml.Storable) :
    (saveMoteModel config moteLayers >>= loadMoteLayers) =
      .ok (moteLayers.map MoTELayerData.reread) := by
  have hrecords := mapM_ok fun ml hml => saveMoteLayer_ok (hlayers ml hml)
  have hhead := readsOff_moteHead (moteConfigText_length hexperts htop) hlen
    (moteLayers.flatMap moteLayerBytes)
  have hread := readsOff_repeat fun ml hml => readsOff_moteLayerBytes (hlayers ml hml)
  have hlast := hread []
  rw [List.append_nil] at hlast
  rw [saveMoteModel, hrecords, ok_bind, pure_eq_ok, ok_bind, ← List.flatMap, loadMoteLayers, hhead,
    ok_bind]
  simp only [hlast, ok_bind, pure_eq_ok]

end Terllama
