import Terllama.Loader.Blocks

/-!
# Layer payloads

`parse_layer_type_data` of `src/loader.h`, the payload decoder of the layer-type record layout, and
the payloads an exporter writes (`Payload`): raw weights, one table of blocks, or a container of
several. `parseLayerTypeData_ok` is the round trip of a payload; its premise on the column count is
the one under which `(in_f + qk - 1) / qk` does not overflow.
-/

namespace Terllama

/-- The term loop of `parse_layer_type_data` at `layer_type` 2: `n` terms from `pos` on. -/
def parseTerms (data : Bytes) (outF inF qk : Int) : Nat → Nat → Exec (List (List BlockTerm))
  | 0, _ => .ok []
  | n + 1, pos => do
    if pos + 4 > data.length then
      raise "ALS multi-term: truncated term length in model file"
    else
      let tlen := leNat (← slice data pos 4)
      let pos := pos + 4
      if pos + tlen > data.length then
        raise "ALS multi-term: truncated term data in model file"
      else
        let blocks ← parseBlockTerms (← slice data pos tlen) outF inF qk
        let rest ← parseTerms data outF inF qk n (pos + tlen)
        return blocks :: rest

/-- `memcpy` of a payload into a vector of `float`s, which holds the whole words only. -/
def copyFloats (data : Bytes) : Exec (List F32) :=
  if data.length % 4 = 0 then .ok (floatsOf data) else undefined "write outside the buffer"

/-- `parse_layer_type_data` with `build_combined` false, as at every call. -/
def parseLayerTypeData (ld : LayerData) (layerType : UInt8) (data : Bytes) : Exec LayerData := do
  let qk : Int := 128
  let ld := { ld with hasBlocks := true, blockQk := qk }
  if layerType = 1 then
    let rawWeights ← copyFloats data
    return { ld with hasRawWeights := true, hasBlocks := false, rawWeights }
  else if layerType = 2 then
    if data.length < 4 then raise "ALS multi-term: bad header in model file"
    else
      let numTerms := leNat (← slice data 0 4)
      if numTerms = 0 ∨ numTerms > 32 then
        raise "ALS multi-term: invalid num_terms in model file"
      else
        let blockTerms ← parseTerms data ld.outFeatures ld.inFeatures qk numTerms 4
        buildBlockContigCache { ld with blockTerms }
  else
    let blocks ← parseBlockTerms data ld.outFeatures ld.inFeatures qk
    buildBlockContigCache { ld with blockTerms := [blocks] }

/-! ## Well-formed payloads -/

/-- What a layer record carries: raw weights, one table of blocks, or several. -/
inductive Payload where
  | raw (ws : List F32)
  | single (blocks : List BlockTerm)
  | multi (terms : List (List BlockTerm))
  deriving DecidableEq, Repr

/-- The `layer_type` of a payload. -/
def Payload.layerType : Payload → UInt8
  | .raw _ => 1
  | .single _ => 0
  | .multi _ => 2

/-- A length-prefixed table of blocks. -/
def termBytes (blocks : List BlockTerm) : Bytes :=
  u32Bytes (blocks.flatMap BlockTerm.bytes).length ++ blocks.flatMap BlockTerm.bytes

/-- The bytes of a payload. -/
def Payload.bytes : Payload → Bytes
  | .raw ws => floatBytes ws
  | .single blocks => blocks.flatMap BlockTerm.bytes
  | .multi terms => u32Bytes terms.length ++ terms.flatMap termBytes

/-- The shape a payload must have in a layer of `rows` rows and `cols` columns. -/
def Payload.WellFormed (rows cols : Nat) : Payload → Prop
  | .raw _ => True
  | .single blocks => TermShape rows cols blocks
  | .multi terms => terms ≠ [] ∧ terms.length ≤ 32 ∧ ∀ blocks ∈ terms, TermShape rows cols blocks

/-- The block tables of a payload. -/
def Payload.terms : Payload → List (List BlockTerm)
  | .raw _ => []
  | .single blocks => [blocks]
  | .multi terms => terms

/-- The layer data a payload is decoded to, on top of what the record header set. -/
def LayerData.load (ld : LayerData) (rows cols : Nat) : Payload → LayerData
  | .raw ws => { ld with hasBlocks := false, blockQk := 128, hasRawWeights := true, rawWeights := ws }
  | p => { ld with hasBlocks := true, blockQk := 128, blockTerms := p.terms }.withCache
      (termCaches rows (blocksPerRow cols) p.terms)

theorem termBytes_length (blocks : List BlockTerm) :
    (termBytes blocks).length = 4 + (blocks.flatMap BlockTerm.bytes).length := by
  rw [termBytes, List.length_append, leBytes_length]

/-- A table inside a payload of fewer than `2^31` bytes is itself that short. -/
theorem length_termBytes_le {terms : List (List BlockTerm)} {blocks : List BlockTerm}
    (h : blocks ∈ terms) : (termBytes blocks).length ≤ (terms.flatMap termBytes).length := by
  rw [List.length_flatMap]
  exact List.le_sum_of_mem (List.mem_map_of_mem h)

/-- The term loop, from the position of the first of the remaining terms. -/
theorem parseTerms_ok {rows cols : Nat} (hcols : cols ≤ 2147483519)
    (terms : List (List BlockTerm)) (pre : Bytes)
    (hterms : ∀ blocks ∈ terms, TermShape rows cols blocks ∧ blocks.length * 36 ≤ 2147483647) :
    parseTerms (pre ++ terms.flatMap termBytes) rows cols 128 terms.length pre.length =
      .ok terms := by
  induction terms generalizing pre with
  | nil => rfl
  | cons blocks terms ih =>
    obtain ⟨hshape, hfit⟩ := hterms blocks (by simp)
    have hsize := length_blockBytes hshape.packed_length
    have hdata : pre ++ (blocks :: terms).flatMap termBytes =
        pre ++ termBytes blocks ++ terms.flatMap termBytes := by
      rw [List.flatMap_cons, List.append_assoc]
    have hlen : slice (pre ++ termBytes blocks ++ terms.flatMap termBytes) pre.length 4 =
        .ok (u32Bytes (blocks.length * 36)) := by
      rw [← Nat.add_zero pre.length, slice_append rfl (by rw [termBytes_length]; omega), termBytes,
        slice_ok (by simp), List.drop_zero, List.take_left' (leBytes_length _ _), hsize]
    have hterm : slice (pre ++ termBytes blocks ++ terms.flatMap termBytes) (pre.length + 4)
        (blocks.length * 36) = .ok (blocks.flatMap BlockTerm.bytes) := by
      rw [slice_append rfl (by rw [termBytes_length]; omega), termBytes,
        slice_ok (by rw [List.length_append, leBytes_length, hsize]),
        List.drop_left' (leBytes_length _ _), ← hsize, List.take_length]
    have hnat : leNat (u32Bytes (blocks.length * 36)) = blocks.length * 36 :=
      leNat_leBytes_of_lt (by omega)
    have hih := ih (pre ++ termBytes blocks) fun b hb => hterms b (by simp [hb])
    have hpos : (pre ++ termBytes blocks).length = pre.length + 4 + blocks.length * 36 := by
      rw [List.length_append, termBytes_length, hsize]; omega
    have htotal : pre.length + 4 + blocks.length * 36 ≤
        (pre ++ termBytes blocks ++ terms.flatMap termBytes).length := by
      rw [List.length_append, hpos]; omega
    rw [hpos] at hih
    rw [List.length_cons, parseTerms, hdata, if_neg (by omega), hlen, ok_bind, hnat,
      if_neg (by omega), hterm, ok_bind,
      parseBlockTerms_ok hcols hshape.length_eq hshape.packed_length hfit, ok_bind, hih,
      ok_bind]
    rfl

/-- The tables of a payload of fewer than `2^31` bytes have that few bytes themselves. -/
theorem Payload.WellFormed.fits {rows cols : Nat} {p : Payload} (hp : p.WellFormed rows cols)
    (hlen : p.bytes.length ≤ 2147483647) : ∀ blocks ∈ p.terms, blocks.length * 36 ≤ 2147483647 := by
  cases p with
  | raw ws => exact fun blocks hb => absurd hb List.not_mem_nil
  | single blocks =>
    have hshape : TermShape rows cols blocks := hp
    intro b hb
    rw [List.mem_singleton.1 hb, ← length_blockBytes hshape.packed_length]
    exact hlen
  | multi terms =>
    obtain ⟨-, -, hshapes⟩ := hp
    intro blocks hb
    have hb : blocks ∈ terms := hb
    have h₁ := length_termBytes_le hb
    rw [termBytes_length, length_blockBytes (hshapes blocks hb).packed_length] at h₁
    rw [Payload.bytes, List.length_append] at hlen
    omega

/-- What becomes of a container of block tables: it is refused where it holds none or more than
32. -/
theorem parseLayerTypeData_multi (ld : LayerData) {rows cols : Nat}
    {terms : List (List BlockTerm)} (hcols : cols ≤ 2147483519) (hout : ld.outFeatures = rows)
    (hin : ld.inFeatures = cols) (hcount : terms.length < 4294967296)
    (hterms : ∀ blocks ∈ terms, TermShape rows cols blocks ∧ blocks.length * 36 ≤ 2147483647) :
    parseLayerTypeData ld 2 (Payload.multi terms).bytes =
      if terms.length = 0 ∨ terms.length > 32 then
        raise "ALS multi-term: invalid num_terms in model file"
      else buildBlockContigCache
        { ld with hasBlocks := true, blockQk := 128, blockTerms := terms } := by
  have hbytes : (Payload.multi terms).bytes = u32Bytes terms.length ++ terms.flatMap termBytes :=
    rfl
  have hhead : slice (u32Bytes terms.length ++ terms.flatMap termBytes) 0 4 =
      .ok (u32Bytes terms.length) := by
    rw [slice_ok (by simp), List.drop_zero, List.take_left' (leBytes_length _ _)]
  have hnat : leNat (u32Bytes terms.length) = terms.length := leNat_leBytes_of_lt (by omega)
  have hparse := parseTerms_ok hcols terms (u32Bytes terms.length) hterms
  rw [leBytes_length] at hparse
  simp only [parseLayerTypeData, hout, hin, hbytes]
  rw [if_neg (by decide), if_pos trivial, if_neg (by simp), hhead, ok_bind, hnat, hparse, ok_bind,
    ← hout, ← hin]

/-- A well-formed payload is decoded to the layer it describes. -/
theorem parseLayerTypeData_ok (ld : LayerData) {rows cols : Nat} {p : Payload} (hcols : 0 < cols)
    (hout : ld.outFeatures = rows) (hin : ld.inFeatures = cols)
    (hcols' : p.layerType ≠ 1 → cols ≤ 2147483519) (hp : p.WellFormed rows cols)
    (hfits : ∀ blocks ∈ p.terms, blocks.length * 36 ≤ 2147483647) :
    parseLayerTypeData ld p.layerType p.bytes = .ok (ld.load rows cols p) := by
  cases p with
  | raw ws =>
    simp [parseLayerTypeData, Payload.layerType, Payload.bytes, copyFloats, LayerData.load]
  | single blocks =>
    have hshape : TermShape rows cols blocks := hp
    have hcols' := hcols' (show (0 : UInt8) ≠ 1 by decide)
    have hfit : blocks.length * 36 ≤ 2147483647 := hfits blocks (List.mem_singleton_self _)
    have hcount : rows * blocksPerRow cols ≤ 288230376151711743 := by
      rw [← hshape.length_eq]; omega
    have hbuild := buildBlockContigCache_ok
      { ld with hasBlocks := true, blockQk := 128, blockTerms := [blocks] }
      rfl rfl hout hin hcols hcols' (by simp) (by simpa using hshape) hcount
    simp only [parseLayerTypeData, Payload.layerType, Payload.bytes, hout, hin]
    rw [if_neg (by decide), if_neg (by decide), parseBlockTerms_ok hcols' hshape.length_eq
      hshape.packed_length hfit, ok_bind, ← hout, ← hin]
    exact hbuild
  | multi terms =>
    obtain ⟨hne, hle, hshapes⟩ := hp
    have hcols' := hcols' (show (2 : UInt8) ≠ 1 by decide)
    have hfits : ∀ blocks ∈ terms, blocks.length * 36 ≤ 2147483647 := hfits
    have hpos : 0 < terms.length := List.length_pos_iff.2 hne
    obtain ⟨blocks, hb⟩ := List.exists_mem_of_ne_nil _ hne
    have hcount : rows * blocksPerRow cols ≤ 288230376151711743 := by
      have := hfits blocks hb
      rw [← (hshapes blocks hb).length_eq]
      omega
    have hparse := parseLayerTypeData_multi ld hcols' hout hin (by omega)
      fun b hb => ⟨hshapes b hb, hfits b hb⟩
    have hbuild := buildBlockContigCache_ok
      { ld with hasBlocks := true, blockQk := 128, blockTerms := terms }
      rfl rfl hout hin hcols hcols' hne hshapes hcount
    rw [if_neg (by omega)] at hparse
    exact hparse.trans hbuild

/-- A layer loaded from a payload of block tables is a cached block layer. -/
theorem LayerData.blockLayer_load (ld : LayerData) {rows cols : Nat} {p : Payload}
    (hout : ld.outFeatures = rows) (hin : ld.inFeatures = cols) (htype : p.layerType ≠ 1)
    (hp : p.WellFormed rows cols) : (ld.load rows cols p).BlockLayer rows cols := by
  cases p with
  | raw ws => exact absurd rfl htype
  | single blocks =>
    refine ⟨rfl, rfl, hout, hin, Nat.one_pos, (by decide : 1 ≤ 32), fun b hb => ?_, rfl, rfl⟩
    rw [List.mem_singleton.1 hb]
    exact hp
  | multi terms =>
    obtain ⟨hne, hle, hshapes⟩ := hp
    exact ⟨rfl, rfl, hout, hin, List.length_pos_iff.2 hne, hle, hshapes, rfl, rfl⟩

/-! ## Payloads that were decoded -/

theorem ceilBlocks_of_parseTerms {data : Bytes} {outF inF qk : Int} {n pos : Nat}
    {terms : List (List BlockTerm)} (h : parseTerms data outF inF qk (n + 1) pos = .ok terms) :
    ∃ nb, ceilBlocks inF qk = .ok nb := by
  rw [parseTerms] at h
  split at h
  · cases h
  · obtain ⟨len, -, h⟩ := bind_eq_ok.1 h
    dsimp only at h
    split at h
    · cases h
    · obtain ⟨bytes, -, h⟩ := bind_eq_ok.1 h
      obtain ⟨blocks, hblocks, -⟩ := bind_eq_ok.1 h
      exact ceilBlocks_of_parseBlockTerms hblocks

/-- What a payload that was decoded leaves: the header, and unless it is raw, a block count of a row
that does not overflow. -/
theorem parseLayerTypeData_inv {ld ld' : LayerData} {t : UInt8} {data : Bytes}
    (h : parseLayerTypeData ld t data = .ok ld') :
    ld'.header = ld.header ∧ (t ≠ 1 → ∃ nb, ceilBlocks ld.inFeatures 128 = .ok nb) := by
  unfold parseLayerTypeData at h
  split at h
  · rename_i ht
    obtain ⟨ws, -, h⟩ := bind_eq_ok.1 h
    cases h
    exact ⟨rfl, fun hne => absurd ht hne⟩
  · split at h
    · split at h
      · cases h
      · obtain ⟨head, -, h⟩ := bind_eq_ok.1 h
        dsimp only at h
        split at h
        · cases h
        · rename_i hnum
          obtain ⟨terms, hterms, h⟩ := bind_eq_ok.1 h
          obtain ⟨n, hn⟩ := Nat.exists_eq_succ_of_ne_zero (fun hz => hnum (.inl hz))
          rw [hn] at hterms
          have hheader := buildBlockContigCache_header h
          exact ⟨hheader, fun _ => ceilBlocks_of_parseTerms hterms⟩
    · dsimp only at h
      obtain ⟨blocks, hblocks, h⟩ := bind_eq_ok.1 h
      have hheader := buildBlockContigCache_header h
      exact ⟨hheader, fun _ => ceilBlocks_of_parseBlockTerms hblocks⟩

/-- The tables of a multi-term payload that was decoded for a layer with columns. -/
theorem parseTerms_shape {data : Bytes} {outF inF : Int} {n pos : Nat}
    {terms : List (List BlockTerm)} (hout : -2147483648 ≤ outF ∧ outF ≤ 2147483647) (hin : 0 < inF)
    (h : parseTerms data outF inF 128 n pos = .ok terms) :
    terms.length = n ∧ ∀ blocks ∈ terms, 0 ≤ outF ∧ inF ≤ 2147483519 ∧
      TermShape outF.toNat inF.toNat blocks ∧
      outF.toNat * blocksPerRow inF.toNat ≤ 288230376151711743 := by
  induction n generalizing pos terms with
  | zero =>
    cases h
    exact ⟨rfl, nofun⟩
  | succ n ih =>
    rw [parseTerms] at h
    split at h
    · cases h
    · obtain ⟨len, -, h⟩ := bind_eq_ok.1 h
      dsimp only at h
      split at h
      · cases h
      · obtain ⟨bytes, -, h⟩ := bind_eq_ok.1 h
        obtain ⟨blocks, hblocks, h⟩ := bind_eq_ok.1 h
        obtain ⟨rest, hrest, h⟩ := bind_eq_ok.1 h
        cases h
        obtain ⟨hlen, hshapes⟩ := ih hrest
        rw [List.length_cons, hlen, List.forall_mem_cons]
        exact ⟨rfl, parseBlockTerms_shape hout hin hblocks, hshapes⟩

/-- The tables of a multi-term payload have the shape of the layer. -/
theorem tables_of_parseTerms (ld : LayerData) {data : Bytes} {n pos : Nat}
    {terms : List (List BlockTerm)}
    (hout : -2147483648 ≤ ld.outFeatures ∧ ld.outFeatures ≤ 2147483647) (hpos : 0 < n)
    (hle : n ≤ 32) (hterms : ld.blockTerms = terms)
    (h : parseTerms data ld.outFeatures ld.inFeatures 128 n pos = .ok terms) : ld.Tables := by
  intro hin
  obtain ⟨hlen, hshapes⟩ := parseTerms_shape hout hin h
  obtain ⟨hrows, hcols, -, hfit⟩ := hshapes _ (List.getElem_mem (hlen ▸ hpos))
  rw [hterms]
  exact ⟨⟨List.length_pos_iff.1 (hlen ▸ hpos), hlen ▸ hle⟩, hrows, hcols,
    fun blocks hb => (hshapes blocks hb).2.2.1, hfit⟩

/-- So has the table of a single-term payload. -/
theorem tables_of_parseBlockTerms (ld : LayerData) {data : Bytes} {blocks : List BlockTerm}
    (hout : -2147483648 ≤ ld.outFeatures ∧ ld.outFeatures ≤ 2147483647)
    (hterms : ld.blockTerms = [blocks])
    (h : parseBlockTerms data ld.outFeatures ld.inFeatures 128 = .ok blocks) : ld.Tables := by
  intro hin
  obtain ⟨hrows, hcols, hshape, hfit⟩ := parseBlockTerms_shape hout hin h
  rw [hterms]
  refine ⟨⟨List.cons_ne_nil _ _, Nat.le_of_ble_eq_true rfl⟩, hrows, hcols, fun blocks' hb => ?_,
    hfit⟩
  cases List.mem_singleton.1 hb
  exact hshape

/-- A layer that `parse_layer_type_data` returns is a loaded one. -/
theorem parseLayerTypeData_loaded {ld ld' : LayerData} {t : UInt8} {data : Bytes}
    (hout : -2147483648 ≤ ld.outFeatures ∧ ld.outFeatures ≤ 2147483647)
    (hfresh : ld.termCacheBuilt = false) (h : parseLayerTypeData ld t data = .ok ld') :
    ld'.Loaded := by
  unfold parseLayerTypeData at h
  split at h
  · obtain ⟨ws, -, h⟩ := bind_eq_ok.1 h
    cases h
    intro hbuilt
    exact absurd hbuilt (by rw [hfresh]; exact Bool.false_ne_true)
  · split at h
    · split at h
      · cases h
      · obtain ⟨head, -, h⟩ := bind_eq_ok.1 h
        dsimp only at h
        split at h
        · cases h
        · rename_i hnum
          obtain ⟨terms, hterms, h⟩ := bind_eq_ok.1 h
          have htables := tables_of_parseTerms { ld with
              hasBlocks := true, blockQk := 128, blockTerms := terms }
            hout (by omega) (by omega) rfl hterms
          obtain ⟨ld'', hcache, hloaded⟩ := buildBlockContigCache_loaded rfl rfl htables
          rw [hcache] at h
          cases h
          exact hloaded
    · dsimp only at h
      obtain ⟨blocks, hblocks, h⟩ := bind_eq_ok.1 h
      have htables := tables_of_parseBlockTerms { ld with
          hasBlocks := true, blockQk := 128, blockTerms := [blocks] }
        hout rfl hblocks
      obtain ⟨ld'', hcache, hloaded⟩ := buildBlockContigCache_loaded rfl rfl htables
      rw [hcache] at h
      cases h
      exact hloaded

end Terllama
