import Terllama.Base.Guard
import Terllama.Loader.Mote

/-!
# Reads of a MoTE file

`moteSafe_iff` is the exact condition under which `load_mote_layers` and `deserialize_layer_data` stay
inside the file or throw. Nothing in them tests a length: the loader passes over each layer by the
size in front of it, while the decoder reads the layer's fields from there with a position of its own,
which nothing compares with that size. A file is read past its end wherever it lays out more than it
holds.

What a row of layers needs is a `Track`: a layer whose table gives the cache a negative number of
bytes or rows ends the reading with an exception, and nothing behind it is read.
-/

namespace Terllama

/-! ## The cache of a table -/

/-- The table has the size of the layer's dimensions, so that the cache does not skip it. -/
def TableFull (outF inF qk : Int) (blocks : List BlockTerm) : Prop :=
  blocks.length = sizeT (outF * (inF + qk - 1).tdiv qk)

/-- What the cache needs of a table, where the layer has columns: a block size that it can divide by
and add to the columns, and as many codes in each block as it copies. -/
def CacheFits (outF inF qk : Int) (blocks : List BlockTerm) : Prop :=
  0 < inF → qk ≠ 0 ∧ inF + qk ≤ 2147483647 ∧
    (TableFull outF inF qk blocks → 0 ≤ outF →
      ∀ block ∈ blocks, qk.tdiv 4 ≤ block.packed.length)

/-- The cache of a table throws: the codes or the rows of a full table are a negative number. -/
def CacheStops (outF inF qk : Int) (blocks : List BlockTerm) : Prop :=
  0 < inF ∧ TableFull outF inF qk blocks ∧ (outF < 0 ∨ qk.tdiv 4 < 0 ∧ blocks ≠ [])

/-- A quotient of `int`s, apart from the one that overflows. -/
theorem isI32_tdiv {a b : Int} (ha : IsI32 a) (h : b ≠ -1 ∨ -2147483648 < a) : IsI32 (a.tdiv b) := by
  have habs : (a.tdiv b).natAbs = a.natAbs / b.natAbs := Int.natAbs_tdiv a b
  have hle : a.natAbs / b.natAbs ≤ a.natAbs := Nat.div_le_self _ _
  obtain ⟨hlo, hhi⟩ := ha
  by_cases hmin : a = -2147483648
  · have hne : b ≠ -1 := h.resolve_right (by omega)
    subst hmin
    rcases Int.lt_or_le b 0 with hneg | hpos
    · have htwo : 2 ≤ b.natAbs := by omega
      have hhalf : (2147483648 : Nat) / b.natAbs ≤ 2147483648 / 2 :=
        Nat.div_le_div_left htwo (by decide)
      have hsize : Int.natAbs (-2147483648) = 2147483648 := rfl
      rw [hsize] at habs
      constructor <;> omega
    · have hsign : Int.tdiv (-2147483648) b ≤ 0 := by
        rw [Int.neg_tdiv]
        exact neg_nonpos.2 (Int.tdiv_nonneg (by decide) hpos)
      constructor <;> omega
  · constructor <;> omega

/-- The number of blocks of a row, for a layer with columns. -/
theorem ensures_ceilBlocks {inF qk : Int} (hpos : 0 < inF) (hqk : IsI32 qk) {Q : Int → Prop} :
    Ensures (ceilBlocks inF qk) Q ↔
      (qk ≠ 0 ∧ inF + qk ≤ 2147483647) ∧ Q ((inF + qk - 1).tdiv qk) := by
  obtain ⟨hlo, hhi⟩ := hqk
  rw [ceilBlocks, ensures_bind, ensures_i32, ensures_bind, ensures_i32]
  have hmax : IsI32 (inF + qk) ∧ IsI32 (inF + qk - 1) ↔ inF + qk ≤ 2147483647 := by
    unfold IsI32
    omega
  rw [← and_assoc, hmax, and_comm (a := qk ≠ 0), and_assoc]
  refine and_congr_right fun hle => ?_
  unfold divI32
  by_cases hzero : qk = 0
  · rw [if_pos hzero]
    exact ⟨False.elim, fun h => absurd hzero h.1⟩
  · have hquot : IsI32 ((inF + qk - 1).tdiv qk) :=
      isI32_tdiv ⟨by omega, by omega⟩ (by omega)
    rw [if_neg hzero, ensures_i32, and_iff_right hquot, and_iff_right hzero]

/-- The number of elements of a full table, and of bytes of its codes. -/
theorem TableFull.sizes {outF inF qk : Int} {blocks : List BlockTerm} (hout : IsI32 outF)
    (hnb : IsI32 ((inF + qk - 1).tdiv qk)) (hlen : blocks.length < 4294967296)
    (h : TableFull outF inF qk blocks) (c : Int) :
    sizeT (outF * (inF + qk - 1).tdiv qk * c) = sizeT (blocks.length * c) ∧
      (0 ≤ outF → blocks.length = outF.toNat * ((inF + qk - 1).tdiv qk).toNat) := by
  unfold TableFull at h
  generalize (inF + qk - 1).tdiv qk = nb at *
  have hmod : ((blocks.length : Nat) : Int) = outF * nb % 18446744073709551616 := by
    rw [h, sizeT]
    omega
  constructor
  · unfold sizeT
    rw [hmod, Int.mul_emod (outF * nb % _), Int.emod_emod_of_dvd _ (dvd_refl _), ← Int.mul_emod]
  · intro hpos
    obtain ⟨rows, rfl⟩ := Int.eq_ofNat_of_zero_le hpos
    have hrows : rows ≤ 2147483647 := by exact_mod_cast hout.2
    rcases Int.lt_or_le nb 0 with hneg | hnbpos
    · obtain ⟨k, rfl⟩ : ∃ k : Nat, nb = -k := ⟨nb.natAbs, by omega⟩
      have hk : k ≤ 2147483648 := by have := hnb.1; omega
      have hprod : rows * k ≤ 2147483647 * 2147483648 := Nat.mul_le_mul hrows hk
      have hcast : (rows : Int) * -(k : Int) = -((rows * k : Nat) : Int) := by push_cast; ring
      rw [hcast] at hmod
      rw [show (-(k : Int)).toNat = 0 by omega, Nat.mul_zero]
      omega
    · obtain ⟨k, rfl⟩ := Int.eq_ofNat_of_zero_le hnbpos
      have hk : k ≤ 2147483647 := by exact_mod_cast hnb.2
      have hprod : rows * k ≤ 2147483647 * 2147483647 := Nat.mul_le_mul hrows hk
      rw [← Int.natCast_mul] at hmod
      rw [Int.toNat_natCast, Int.toNat_natCast]
      omega

/-- The term loop's buffers for a full table: a negative number of codes or rows has no vector. -/
theorem ensures_sizeTerm {outF inF qk : Int} {blocks : List BlockTerm} (hout : IsI32 outF)
    (hqk : IsI32 qk) (hnb : IsI32 ((inF + qk - 1).tdiv qk)) (hlen : blocks.length < 4294967296)
    (h : TableFull outF inF qk blocks) {Q : Unit → Prop} :
    Ensures (sizeTerm outF ((inF + qk - 1).tdiv qk) (qk.tdiv 4)) Q ↔
      (outF < 0 ∨ qk.tdiv 4 < 0 ∧ blocks ≠ []) ∨ Q () := by
  obtain ⟨hbytes, -⟩ := h.sizes hout hnb hlen (qk.tdiv 4)
  obtain ⟨hqlo, hqhi⟩ := hqk
  have habs : (qk.tdiv 4).natAbs = qk.natAbs / 4 := Int.natAbs_tdiv qk 4
  have hcodes : (qk.tdiv 4).natAbs ≤ 536870912 := by omega
  have hne : blocks ≠ [] ↔ 0 < blocks.length := List.length_pos_iff.symm
  have hscales : sizeT (outF * (inF + qk - 1).tdiv qk) = blocks.length := h.symm
  have hsmall : blocks.length ≤ vectorMaxSize 4 := by
    rw [vectorMaxSize]
    omega
  rw [sizeTerm, hbytes, hscales, hne, ensures_bind, ensures_vectorAlloc, ensures_bind,
    ensures_vectorAlloc, forall_prop_of_true hsmall]
  generalize qk.tdiv 4 = codes at *
  generalize blocks.length = n at *
  have hbytes' : sizeT ((n : Int) * codes) ≤ vectorMaxSize 1 ↔ ¬ (codes < 0 ∧ 0 < n) := by
    rw [sizeT, vectorMaxSize]
    rcases Int.lt_or_le codes 0 with hneg | hpos
    · obtain ⟨k, rfl⟩ : ∃ k : Nat, codes = -k := ⟨codes.natAbs, by omega⟩
      have hk : k ≤ 536870912 := by omega
      have hprod : n * k ≤ 4294967296 * 536870912 := Nat.mul_le_mul hlen.le hk
      have hcast : (n : Int) * -(k : Int) = -((n * k : Nat) : Int) := by push_cast; ring
      have hzero : n * k = 0 ↔ n = 0 := by
        rw [Nat.mul_eq_zero]
        omega
      rw [hcast]
      omega
    · obtain ⟨k, rfl⟩ := Int.eq_ofNat_of_zero_le hpos
      have hk : k ≤ 536870912 := by omega
      have hprod : n * k ≤ 4294967296 * 536870912 := Nat.mul_le_mul hlen.le hk
      rw [← Int.natCast_mul]
      omega
  rw [hbytes']
  by_cases hneg : outF < 0
  · rw [if_pos hneg]
    exact ⟨fun _ => .inl (.inl hneg), fun _ _ => ensures_raise _ _⟩
  · rw [if_neg hneg, or_iff_right hneg]
    exact imp_iff_not_or.trans (by rw [not_not]; exact Iff.rfl)

/-- The term loop throws nothing once its buffers are there. -/
theorem quiet_contigTerm (outF nBlocks codesPerBlock t : Nat) (blocks : List BlockTerm) :
    Quiet (contigTerm outF nBlocks codesPerBlock t blocks) := by
  refine Quiet.bind (quiet_foldlM (fun _ _ _ => quiet_foldlM (fun tcd b _ => ?_) _) _) fun _ _ =>
    Quiet.bind (quiet_foldlM (fun _ _ _ => quiet_foldlM (fun tcs b _ => ?_) _) _) fun _ _ =>
      quiet_ok _
  · exact (quiet_load _ _).bind fun _ _ => (quiet_slice _ _ _).bind fun _ _ => quiet_writeAt _ _ _
  · exact (quiet_load _ _).bind fun _ _ => quiet_writeAt _ _ _

/-- The term loop on a full table. -/
theorem ensures_contigTerms {ld : LayerData} {blocks : List BlockTerm} (hterms : ld.blockTerms = [blocks])
    (hout : IsI32 ld.outFeatures) (hqk : IsI32 ld.blockQk)
    (hnb : IsI32 ((ld.inFeatures + ld.blockQk - 1).tdiv ld.blockQk))
    (hlen : blocks.length < 4294967296) (P : Prop) :
    Ensures (contigTerms ld ((ld.inFeatures + ld.blockQk - 1).tdiv ld.blockQk)) (fun _ => P) ↔
      (TableFull ld.outFeatures ld.inFeatures ld.blockQk blocks → 0 ≤ ld.outFeatures →
        ∀ block ∈ blocks, ld.blockQk.tdiv 4 ≤ block.packed.length) ∧
      (TableFull ld.outFeatures ld.inFeatures ld.blockQk blocks ∧
        (ld.outFeatures < 0 ∨ ld.blockQk.tdiv 4 < 0 ∧ blocks ≠ []) ∨ P) := by
  rw [contigTerms, hterms, List.zipIdx_singleton, List.mapM_cons, List.mapM_nil, ensures_bind]
  dsimp only
  by_cases hfull : TableFull ld.outFeatures ld.inFeatures ld.blockQk blocks
  · have hmatch : ¬ blocks.length ≠
        sizeT (ld.outFeatures * (ld.inFeatures + ld.blockQk - 1).tdiv ld.blockQk) := not_not.2 hfull
    rw [if_neg hmatch, ensures_bind, ensures_sizeTerm hout hqk hnb hlen hfull,
      forall_prop_of_true hfull, and_iff_right hfull]
    by_cases hstop : ld.outFeatures < 0 ∨ ld.blockQk.tdiv 4 < 0 ∧ blocks ≠ []
    · refine ⟨fun _ => ⟨fun hpos block hblock => ?_, .inl hstop⟩, fun _ => .inl hstop⟩
      have hneg := (hstop.resolve_left hpos.not_gt).1
      omega
    · obtain ⟨hpos, hcodes⟩ := not_or.1 hstop
      have hsize := (hfull.sizes hout hnb hlen 1).2 (not_lt.1 hpos)
      rw [or_iff_right hstop, or_iff_right hstop, (quiet_contigTerm _ _ _ _ _).ensures_iff,
        forall_prop_of_true (not_lt.1 hpos)]
      have hreturns := @contigTerm_returns_iff blocks _ _ (ld.blockQk.tdiv 4).toNat 0 hsize
      have hnat : (∀ block ∈ blocks, (ld.blockQk.tdiv 4).toNat ≤ block.packed.length) ↔
          ∀ block ∈ blocks, ld.blockQk.tdiv 4 ≤ block.packed.length :=
        forall₂_congr fun block _ => by omega
      rw [← hnat, ← hreturns]
      exact ⟨fun ⟨c, hc, hP⟩ => ⟨⟨c, hc⟩, hP⟩, fun ⟨⟨c, hc⟩, hP⟩ => ⟨c, hc, hP⟩⟩
  · have hskip : blocks.length ≠
        sizeT (ld.outFeatures * (ld.inFeatures + ld.blockQk - 1).tdiv ld.blockQk) := hfull
    rw [if_pos hskip, ensures_ok]
    exact ⟨fun hP => ⟨fun h => absurd h hfull, .inr hP⟩, fun h => h.2.resolve_left fun h => hfull h.1⟩

/-- The cache of a layer with one table of blocks. -/
theorem ensures_buildCache {ld : LayerData} {blocks : List BlockTerm} (hblocks : ld.hasBlocks = true)
    (hterms : ld.blockTerms = [blocks]) (hout : IsI32 ld.outFeatures) (hqk : IsI32 ld.blockQk)
    (hlen : blocks.length < 4294967296) (P : Prop) :
    Ensures (buildBlockContigCache ld) (fun _ => P) ↔
      CacheFits ld.outFeatures ld.inFeatures ld.blockQk blocks ∧
        (CacheStops ld.outFeatures ld.inFeatures ld.blockQk blocks ∨ P) := by
  unfold CacheFits CacheStops buildBlockContigCache
  by_cases hpos : 0 < ld.inFeatures
  · have hguard : (!ld.hasBlocks || ld.blockTerms.isEmpty || decide (ld.inFeatures ≤ 0)) = false := by
      simp [hblocks, hterms, hpos]
    rw [hguard, if_neg (by decide), forall_prop_of_true hpos, and_iff_right hpos, ensures_bind,
      ensures_ceilBlocks hpos hqk, ← and_assoc (b := _ ≤ _), and_assoc (c := _ ∨ _)]
    refine and_congr_right fun hdiv => ?_
    have hnb : IsI32 ((ld.inFeatures + ld.blockQk - 1).tdiv ld.blockQk) := by
      obtain ⟨hlo, hhi⟩ := hqk
      exact isI32_tdiv ⟨by omega, by omega⟩ (by omega)
    rw [ensures_bind]
    exact ensures_contigTerms hterms hout hqk hnb hlen P
  · have hguard : (!ld.hasBlocks || ld.blockTerms.isEmpty || decide (ld.inFeatures ≤ 0)) = true := by
      simp [Int.not_lt.1 hpos]
    rw [hguard, if_pos rfl, ensures_ok, and_iff_right fun h => absurd h hpos,
      or_iff_right fun h => hpos h.1]

/-! ## The fields of a layer -/

/-- What is left behind a buffer with its length. -/
def pastSized (s : Bytes) : Bytes := s.drop (4 + frontWord s)

/-- A buffer with its length lies inside. -/
def SizedFits (s : Bytes) : Prop := 4 + frontWord s ≤ s.length

/-- A buffer of whole `float`s, with its length. -/
def FloatsFit (s : Bytes) : Prop := SizedFits s ∧ frontWord s % 4 = 0

/-- A block: its codes with their length, and its scale. -/
def BlockFits (s : Bytes) : Prop := 8 + frontWord s ≤ s.length

/-- The block in front of what is left. -/
def frontBlock (s : Bytes) : BlockTerm where
  packed := (s.drop 4).take (frontWord s)
  scale := F32.ofBytes ((s.drop (4 + frontWord s)).take 4)

/-- What is left behind a block. -/
def pastBlock (s : Bytes) : Bytes := s.drop (8 + frontWord s)

/-- A bitplane term: its exponent, its number of elements, and its words. -/
def TermFits (s : Bytes) : Prop := 12 ≤ s.length ∧ FloatsFit (s.drop 12)

/-- What is left behind a bitplane term. -/
def pastTerm (s : Bytes) : Bytes := pastSized (s.drop 12)

/-- A table of blocks: its size and its block size, the blocks, and what their cache needs. -/
def TableFits (outF inF : Int) (s : Bytes) : Prop :=
  8 ≤ s.length ∧ (∀ i < frontWord s, BlockFits (pastBlock^[i] (s.drop 8))) ∧
    CacheFits outF inF (toInt32 (frontWord (s.drop 4)))
      ((List.range (frontWord s)).map fun i => frontBlock (pastBlock^[i] (s.drop 8)))

/-- The cache of a table of blocks throws. -/
def TableStops (outF inF : Int) (s : Bytes) : Prop :=
  CacheStops outF inF (toInt32 (frontWord (s.drop 4)))
    ((List.range (frontWord s)).map fun i => frontBlock (pastBlock^[i] (s.drop 8)))

/-- A row of bitplane terms behind its length. -/
def TermsFit (s : Bytes) : Prop := 4 ≤ s.length ∧ ∀ i < frontWord s, TermFits (pastTerm^[i] (s.drop 4))

/-- A layer behind its name: the dimensions, the flags, and the weights that these announce. -/
def BodyFits (s : Bytes) : Prop :=
  13 ≤ s.length ∧
    if (s.drop 12).headD 0 ≠ 0 then FloatsFit (s.drop 13)
    else 14 ≤ s.length ∧
      if (s.drop 13).headD 0 ≠ 0 then
        TableFits (toInt32 (frontWord s)) (toInt32 (frontWord (s.drop 4))) (s.drop 14)
      else TermsFit (s.drop 14)

/-- A layer behind its name that ends in an exception. -/
def BodyStops (s : Bytes) : Prop :=
  (s.drop 12).headD 0 = 0 ∧ (s.drop 13).headD 0 ≠ 0 ∧
    TableStops (toInt32 (frontWord s)) (toInt32 (frontWord (s.drop 4))) (s.drop 14)

/-- A layer: its name, and the rest. -/
def LayerFits (s : Bytes) : Prop := SizedFits s ∧ BodyFits (pastSized s)

theorem ensures_copyFloats {data : Bytes} {Q : List F32 → Prop} :
    Ensures (copyFloats data) Q ↔ data.length % 4 = 0 ∧ Q (floatsOf data) := by
  unfold copyFloats
  split
  · rename_i h
    exact (and_iff_right h).symm
  · rename_i h
    exact ⟨False.elim, fun hQ => absurd hQ.1 h⟩

section
variable {α : Type} {s : Bytes}

/-- A buffer behind its length. -/
theorem safe_sized {f : Bytes → CursorM α} {Q : α → Bytes → Prop} :
    CursorM.Safe (do let n ← takeU32; let bytes ← takeBytes n; f bytes) Q s ↔
      SizedFits s ∧ (f ((s.drop 4).take (frontWord s))).Safe Q (pastSized s) := by
  rw [CursorM.safe_bind, CursorM.safe_takeU32, CursorM.safe_bind, CursorM.safe_takeBytes,
    List.length_drop, List.drop_drop, ← and_assoc]
  refine and_congr_left fun _ => ?_
  unfold SizedFits
  omega

/-- `float`s behind the number of their bytes. -/
theorem safe_floats {f : List F32 → CursorM α} {Q : α → Bytes → Prop} :
    CursorM.Safe (do let n ← takeU32; let ws ← copyFloats (← takeBytes n); f ws) Q s ↔
      FloatsFit s ∧ (f (floatsOf ((s.drop 4).take (frontWord s)))).Safe Q (pastSized s) := by
  rw [safe_sized, CursorM.safe_bind, CursorM.safe_liftM, ensures_copyFloats, ← and_assoc, FloatsFit]
  refine and_congr_left fun _ => and_congr_right fun h => ?_
  have hlen : ((s.drop 4).take (frontWord s)).length = frontWord s := by
    rw [List.length_take, List.length_drop]
    unfold SizedFits at h
    omega
  rw [hlen]

theorem safe_deserializeBlock {Q : BlockTerm → Bytes → Prop} :
    deserializeBlock.Safe Q s ↔ BlockFits s ∧ Q (frontBlock s) (pastBlock s) := by
  rw [deserializeBlock, safe_sized, CursorM.safe_bind, CursorM.safe_takeBytes, CursorM.safe_pure,
    ← and_assoc, pastSized, List.drop_drop, List.length_drop]
  have hfits : SizedFits s ∧ 4 ≤ s.length - (4 + frontWord s) ↔ BlockFits s := by
    unfold SizedFits BlockFits
    omega
  rw [hfits, pastBlock, frontBlock, show 4 + frontWord s + 4 = 8 + frontWord s by omega]

theorem safe_deserializeTerm {Q : BitplaneTerm → Bytes → Prop} :
    deserializeTerm.Safe Q s ↔ TermFits s ∧
      Q { alphaExp := toInt32 (frontWord s)
          nElements := leNat ((s.drop 4).take 8)
          combined := floatsOf (((s.drop 12).drop 4).take (frontWord (s.drop 12))) } (pastTerm s) := by
  rw [deserializeTerm, CursorM.safe_bind, CursorM.safe_takeU32, CursorM.safe_bind,
    CursorM.safe_takeBytes, List.drop_drop, safe_floats, CursorM.safe_pure, List.length_drop,
    ← and_assoc, ← and_assoc, pastTerm, TermFits]
  refine and_congr_left fun _ => and_congr_left fun _ => ?_
  omega

theorem isI32_toInt32 (n : Nat) : IsI32 (toInt32 n) := toInt32_range n

/-- The block terms of a layer, where nothing but their safety matters. -/
theorem safe_deserializeBlocks {ld : LayerData} (hout : IsI32 ld.outFeatures) (P : Prop) :
    (deserializeBlocks ld).Safe (fun _ _ => P) s ↔
      TableFits ld.outFeatures ld.inFeatures s ∧
        (TableStops ld.outFeatures ld.inFeatures s ∨ P) := by
  have hlen : ((List.range (frontWord s)).map fun i =>
      frontBlock (pastBlock^[i] (s.drop 8))).length < 4294967296 := by
    rw [List.length_map, List.length_range]
    exact frontWord_lt s
  have hcache := @ensures_buildCache { ld with
      hasBlocks := true
      blockQk := toInt32 (frontWord (s.drop 4))
      blockTerms := [(List.range (frontWord s)).map fun i => frontBlock (pastBlock^[i] (s.drop 8))] }
    _ rfl rfl hout (isI32_toInt32 _) hlen P
  rw [deserializeBlocks, CursorM.safe_bind, CursorM.safe_takeU32, CursorM.safe_bind,
    CursorM.safe_takeU32, List.drop_drop, CursorM.safe_bind,
    CursorM.safe_repeat fun Q s => safe_deserializeBlock, CursorM.safe_liftM, hcache,
    TableFits, TableStops, List.length_drop, ← and_assoc, ← and_assoc, ← and_assoc, ← and_assoc]
  refine and_congr_left fun _ => and_congr_left fun _ => and_congr_left fun _ => ?_
  omega

/-- The layer decoder, where nothing but its safety matters. -/
theorem safe_deserializeLayerData (P : Prop) :
    deserializeLayerData.Safe (fun _ _ => P) s ↔
      LayerFits s ∧ (BodyStops (pastSized s) ∨ P) := by
  rw [deserializeLayerData, safe_sized, LayerFits, and_assoc]
  refine and_congr_right fun _ => ?_
  generalize pastSized s = s
  have hhead : ∀ rest : Prop, (4 ≤ s.length ∧ 4 ≤ s.length - 4 ∧ 4 ≤ s.length - 4 - 4 ∧
      1 ≤ s.length - 4 - 4 - 4 ∧ rest) ↔ 13 ≤ s.length ∧ rest := by
    intro rest
    rw [← and_assoc, ← and_assoc, ← and_assoc]
    refine and_congr_left fun _ => ?_
    omega
  simp only [CursorM.safe_bind, CursorM.safe_takeU32, CursorM.safe_takeU8, List.drop_drop,
    List.length_drop, Nat.reduceAdd]
  rw [hhead, BodyFits, BodyStops, and_assoc]
  refine and_congr_right fun hlen => ?_
  by_cases hraw : (s.drop 12).headD 0 = 0
  · have hraw' : ¬ (s.drop 12).headD 0 ≠ 0 := not_not.2 hraw
    rw [if_neg hraw', if_neg hraw', and_iff_right hraw, CursorM.safe_bind, CursorM.safe_takeU8,
      List.length_drop, List.drop_drop, and_assoc]
    have hflag : 1 ≤ s.length - 13 ↔ 14 ≤ s.length := by omega
    rw [hflag]
    refine and_congr_right fun _ => ?_
    by_cases hblocks : (s.drop 13).headD 0 = 0
    · have hblocks' : ¬ (s.drop 13).headD 0 ≠ 0 := not_not.2 hblocks
      rw [if_neg hblocks', if_neg hblocks', CursorM.safe_bind, CursorM.safe_takeU32,
        CursorM.safe_bind, CursorM.safe_repeat fun Q s => safe_deserializeTerm, CursorM.safe_pure,
        TermsFit, ← and_assoc]
      exact and_congr_right fun _ => (or_iff_right fun h => hblocks' h.1).symm
    · rw [if_pos hblocks, if_pos hblocks, safe_deserializeBlocks (isI32_toInt32 _),
        and_iff_right hblocks]
  · rw [if_pos hraw, if_pos hraw, safe_floats, CursorM.safe_pure]
    exact and_congr_right fun _ => (or_iff_right fun h => hraw h.1).symm

/-- The next layer starts where the size in front of this one says. -/
theorem readLd_position {lname rest rest' : Bytes} {ld : LayerData}
    (h : readLd lname rest = .ok (ld, rest')) : rest' = rest.drop (4 + frontWord rest) := by
  obtain ⟨lsz, s₁, hlsz, h⟩ := CursorM.bind_eq_ok.1 h
  obtain ⟨bytes, s₂, hbytes, hlsz⟩ := CursorM.bind_eq_ok.1 hlsz
  cases hlsz
  unfold takeBytes at hbytes
  split at hbytes
  · cases hbytes
    rw [CursorM.run_get] at h
    obtain ⟨p, s₃, hp, h⟩ := CursorM.bind_eq_ok.1 h
    obtain ⟨q, hq, hp⟩ := bind_eq_ok.1 hp
    cases hp
    cases h
    rw [List.drop_drop]
    rfl
  · cases hbytes

/-- The layers in a row: each a size, a layer that lies inside, and the next one where the size
says. -/
def layerTrack : Track where
  fits s := 4 ≤ s.length ∧ LayerFits (s.drop 4)
  stops s := BodyStops (pastSized (s.drop 4))
  past := pastSized

theorem along_readLd (lname : Bytes) : (readLd lname).Along layerTrack 1 := by
  refine CursorM.along_one fun next s => ?_
  have hlayer : Ensures (deserializeLayerData (s.drop 4)) (fun _ => next (pastSized s)) ↔ _ :=
    safe_deserializeLayerData (next (pastSized s))
  rw [readLd, CursorM.safe_bind, CursorM.safe_takeU32, CursorM.safe_bind, CursorM.safe_get,
    CursorM.safe_bind, CursorM.safe_liftM]
  simp only [CursorM.safe_bind, CursorM.safe_skipBytes, CursorM.safe_pure, List.drop_drop]
  rw [show (fun a : LayerData × Bytes => next (s.drop (4 + frontWord s))) =
    fun _ => next (pastSized s) from rfl, hlayer, ← and_assoc]
  rfl

theorem along_readExpert (lname : Bytes) (e : Nat) : (readExpert lname e).Along layerTrack 3 :=
  (along_readLd _).bind fun _ => (along_readLd _).bind fun _ => (along_readLd _).bind fun _ =>
    CursorM.along_pure _

/-- The layers of a record, of which the words behind the name count the experts: the three shared
ones, and three for each expert. -/
def recordLayers (s : Bytes) : Nat := 3 + (toInt32 (frontWord s)).toNat * 3

/-- The shared layers of a record, as its loader reads them. -/
def readShared (lname : Bytes) : CursorM (LayerData × LayerData × LayerData) := do
  let gateProj ← readLd (lname ++ str ".gate_proj")
  let upProj ← readLd (lname ++ str ".up_proj")
  let downProj ← readLd (lname ++ str ".down_proj")
  return (gateProj, upProj, downProj)

theorem along_readShared (lname : Bytes) : (readShared lname).Along layerTrack 3 :=
  (along_readLd _).bind fun _ => (along_readLd _).bind fun _ => (along_readLd _).bind fun _ =>
    CursorM.along_pure _

/-- A negative number of experts ends the reading. -/
theorem safe_readExperts (lname : Bytes) (numExperts : Int) (next : Bytes → Prop) (s : Bytes) :
    (readExperts lname numExperts).Safe (fun _ => next) s ↔
      layerTrack.Fits (numExperts.toNat * 3) s ∧
        ((numExperts < 0 ∨ layerTrack.Stops (numExperts.toNat * 3) s) ∨
          next (pastSized^[numExperts.toNat * 3] s)) := by
  rcases Int.lt_or_le numExperts 0 with hneg | hpos
  · rw [readExperts, if_pos hneg, Int.toNat_of_nonpos hneg.le]
    exact iff_of_true (CursorM.safe_raise _) ⟨Track.fits_zero, .inl (.inl hneg)⟩
  · have hloop := CursorM.Along.mapM (along_readExpert lname) (List.range numExperts.toNat)
    rw [List.length_range] at hloop
    rw [readExperts, if_neg hpos.not_gt, hloop, or_iff_right hpos.not_gt]
    rfl

/-- The layers of a record. -/
theorem safe_readLayers (lname : Bytes) (numExperts : Int) (next : Bytes → Prop) :
    (readShared lname).Safe (fun _ => (readExperts lname numExperts).Safe fun _ => next) s ↔
      layerTrack.Fits (3 + numExperts.toNat * 3) s ∧
        ((numExperts < 0 ∨ layerTrack.Stops (3 + numExperts.toNat * 3) s) ∨
          next (pastSized^[3 + numExperts.toNat * 3] s)) := by
  rw [along_readShared lname _ s, safe_readExperts, Track.fits_add, Track.stops_add,
    Nat.add_comm 3 (numExperts.toNat * 3), Function.iterate_add_apply]
  have hpast : layerTrack.past = pastSized := rfl
  rw [hpast]
  tauto

/-! ## The records of a file -/

/-- Where the router weights of a record start. -/
def routerAt (s : Bytes) : Bytes :=
  pastSized^[recordLayers (pastSized s)] ((pastSized s).drop 9)

/-- A record that ends in an exception: a negative number of experts, or a layer that does. -/
def RecordStops (s : Bytes) : Prop :=
  toInt32 (frontWord (pastSized s)) < 0 ∨
    layerTrack.Stops (recordLayers (pastSized s)) ((pastSized s).drop 9)

/-- A record: the name, two numbers and a flag, the layers, and the router weights. -/
structure RecordFits (s : Bytes) : Prop where
  name : SizedFits s
  head : 9 ≤ (pastSized s).length
  layers : layerTrack.Fits (recordLayers (pastSized s)) ((pastSized s).drop 9)
  router : RecordStops s ∨ FloatsFit (routerAt s)

/-- The records in a row. -/
def recordTrack : Track where
  fits := RecordFits
  stops := RecordStops
  past s := pastSized (routerAt s)

/-- The experts and the router weights of a record. -/
theorem safe_recordTail {β : Type} (lname : Bytes) (numExperts : Int)
    (g : List (LayerData × LayerData × LayerData) → List F32 → β) (next : Bytes → Prop) (s : Bytes) :
    CursorM.Safe (do
      let experts ← readExperts lname numExperts
      let rwl ← takeU32
      let routerWeight ← copyFloats (← takeBytes rwl)
      return g experts routerWeight) (fun _ => next) s ↔
    (readExperts lname numExperts).Safe (fun _ s' => FloatsFit s' ∧ next (pastSized s')) s :=
  CursorM.safe_bind.trans (CursorM.safe_congr fun _ _ =>
    safe_floats.trans (and_congr_right fun _ => CursorM.safe_pure _))

/-- The record of a layer, where nothing but its safety matters. -/
theorem safe_nextMoteLayer (next : Bytes → Prop) :
    nextMoteLayer.Safe (fun _ => next) s ↔
      RecordFits s ∧ (RecordStops s ∨ next (pastSized (routerAt s))) := by
  have hshared : ∀ lname, readMoteLayer lname = (do
      let numExperts ← takeU32
      let topK ← takeU32
      let _ ← takeU8
      let p ← readShared lname
      let experts ← readExperts lname (toInt32 numExperts)
      let rwl ← takeU32
      let routerWeight ← copyFloats (← takeBytes rwl)
      return {
        gateProj := p.1
        upProj := p.2.1
        downProj := p.2.2
        numExperts := toInt32 numExperts
        topK := toInt32 topK
        expertGate := experts.map fun e => e.1
        expertUp := experts.map fun e => e.2.1
        expertDown := experts.map fun e => e.2.2
        routerWeight
        routerScale := 0x3F800000
        isMote := true }) := by
    intro lname
    simp only [readMoteLayer, readShared, bind_assoc, pure_bind]
  have hhead : ∀ (t : Bytes) (rest : Prop), (4 ≤ t.length ∧ 4 ≤ t.length - 4 ∧
      1 ≤ t.length - 4 - 4 ∧ rest) ↔ 9 ≤ t.length ∧ rest := by
    intro t rest
    rw [← and_assoc, ← and_assoc]
    refine and_congr_left fun _ => ?_
    omega
  have hfits : RecordFits s ↔ SizedFits s ∧ 9 ≤ (pastSized s).length ∧
      layerTrack.Fits (recordLayers (pastSized s)) ((pastSized s).drop 9) ∧
        (RecordStops s ∨ FloatsFit (routerAt s)) := by
    constructor
    · intro h
      exact ⟨h.name, h.head, h.layers, h.router⟩
    · rintro ⟨hname, hnine, hlayers, hrouter⟩
      exact ⟨hname, hnine, hlayers, hrouter⟩
  rw [nextMoteLayer, safe_sized, hshared, hfits, and_assoc]
  refine and_congr_right fun _ => ?_
  rw [CursorM.safe_bind, CursorM.safe_takeU32, CursorM.safe_bind, CursorM.safe_takeU32,
    CursorM.safe_bind, CursorM.safe_takeU8, List.drop_drop, List.drop_drop, List.length_drop,
    List.length_drop, Nat.sub_add_eq, hhead, and_assoc]
  refine and_congr_right fun _ => ?_
  rw [CursorM.safe_bind, CursorM.safe_congr fun p s' => safe_recordTail _ _ _ next s']
  simp only [Nat.reduceAdd]
  have hlayers := safe_readLayers (s := (pastSized s).drop 9) ((s.drop 4).take (frontWord s))
    (toInt32 (frontWord (pastSized s))) fun s' => FloatsFit s' ∧ next (pastSized s')
  rw [hlayers, and_assoc, ← or_and_left]
  rfl

theorem along_nextMoteLayer : nextMoteLayer.Along recordTrack 1 :=
  CursorM.along_one fun next _ => safe_nextMoteLayer next

end

/-! ## Files -/

/-- The file holds what it lays out: its head, and the records that this counts, up to the first that
ends in an exception. -/
structure MoteFits (file : Bytes) : Prop where
  head : 4 ≤ (pastSized (file.drop 4)).length
  records : recordTrack.Fits (frontWord (pastSized (file.drop 4))) ((pastSized (file.drop 4)).drop 4)

/-- The loader reads inside the file or throws, and goes on behind each layer where the size in front
of the layer says. -/
structure MoteSafe (file : Bytes) : Prop where
  inside : Defined (loadMoteLayers file)
  position : ∀ {lname rest rest' : Bytes} {ld : LayerData},
    readLd lname rest = .ok (ld, rest') → rest' = rest.drop (4 + frontWord rest)

/-- The loader is safe on a file with its magic number exactly where the file holds what it lays
out. -/
theorem moteSafe_iff {file : Bytes} (hmagic : file.take 4 = u32Bytes moteMagic) :
    MoteSafe file ↔ MoteFits file := by
  have hword : frontWord file = moteMagic := by
    rw [frontWord, hmagic]
    exact leNat_leBytes_of_lt (by decide)
  have hlen : 4 ≤ file.length := by
    have h := congrArg List.length hmagic
    rw [List.length_take, show (u32Bytes moteMagic).length = 4 from rfl] at h
    omega
  have hloop := CursorM.Along.mapM (fun _ => along_nextMoteLayer)
    (List.range (frontWord (pastSized (file.drop 4))))
  have hhead : ∀ Q, readMoteHead.Safe Q file ↔ 4 ≤ (pastSized (file.drop 4)).length ∧
      Q (frontWord (pastSized (file.drop 4))) ((pastSized (file.drop 4)).drop 4) := by
    intro Q
    rw [readMoteHead, CursorM.safe_bind, CursorM.safe_takeU32, hword, and_iff_right hlen]
    simp only [ne_eq, not_true_eq_false, if_false, CursorM.safe_bind, CursorM.safe_takeU32,
      CursorM.safe_skipBytes]
    rw [List.drop_drop (l := file.drop 4), pastSized, ← and_assoc]
    refine and_congr_left fun _ => and_iff_right_of_imp fun h => ?_
    rw [List.length_drop] at h
    omega
  have hload : Defined (loadMoteLayers file) ↔ MoteFits file := by
    rw [defined_iff_ensures, loadMoteLayers, ensures_bind]
    refine (hhead fun numLayers rest =>
      Ensures (((List.range numLayers).mapM fun _ => nextMoteLayer) rest >>= fun p => .ok p.1)
        fun _ => True).trans ?_
    rw [List.length_range, Nat.mul_one] at hloop
    have hrecords := hloop (fun _ => True) ((pastSized (file.drop 4)).drop 4)
    rw [or_iff_right_of_imp fun _ => trivial, and_true] at hrecords
    rw [ensures_bind]
    exact ⟨fun h => ⟨h.1, hrecords.1 h.2⟩, fun h => ⟨h.head, hrecords.2 h.records⟩⟩
  exact ⟨fun h => hload.1 h.inside, fun h => ⟨hload.2 h, readLd_position⟩⟩

/-- A layer of one raw weight, behind its size. -/
def rawRecord : Bytes :=
  writeLd { outFeatures := 1, inFeatures := 1, hasRawWeights := true, rawWeights := [0x3F800000] }

/-- The head of a file of `n` records, without a configuration. -/
def moteHead (n : Nat) : Bytes := u32Bytes moteMagic ++ u32Bytes 0 ++ u32Bytes n

/-- The head of a record without a name and without experts. -/
def recordHead : Bytes := u32Bytes 0 ++ u32Bytes 0 ++ u32Bytes 0 ++ [1]

/-- A file with one record of raw layers and one router weight. -/
def rawMote : Bytes :=
  moteHead 1 ++ recordHead ++ rawRecord ++ rawRecord ++ rawRecord ++ sized (floatBytes [0x3F800000])

theorem moteSafe_rawMote : MoteSafe rawMote := by
  refine (moteSafe_iff (by decide +kernel)).2 ⟨by decide +kernel, ?_⟩
  have hone : frontWord (pastSized (rawMote.drop 4)) = 1 := by decide +kernel
  rw [hone, Track.fits_one]
  have hlayers : recordLayers (pastSized ((pastSized (rawMote.drop 4)).drop 4)) = 3 := by
    decide +kernel
  refine ⟨?_, by decide +kernel, ?_, .inr ⟨?_, ?_⟩⟩
  · unfold SizedFits
    decide +kernel
  · rw [hlayers]
    intro i hi _
    have hcase : i = 0 ∨ i = 1 ∨ i = 2 := by omega
    rcases hcase with rfl | rfl | rfl
    all_goals
      refine ⟨by decide +kernel, ?_, by decide +kernel, ?_⟩
      · unfold SizedFits
        decide +kernel
      · rw [if_pos (by decide +kernel)]
        unfold FloatsFit SizedFits
        decide +kernel
  · unfold SizedFits routerAt
    decide +kernel
  · unfold routerAt
    decide +kernel

/-- A file that ends behind its magic number. -/
def cutMote : Bytes := u32Bytes moteMagic

/-- A file whose first layer has one block of no codes, and a block size of four. -/
def emptyBlockMote : Bytes :=
  moteHead 1 ++ recordHead ++ writeLd {
    outFeatures := 1
    inFeatures := 1
    hasBlocks := true
    blockQk := 4
    blockTerms := [[{ packed := [], scale := 0x3F800000 }]] }

/-- A file that is cut behind its magic number is read past its end, and so are the codes of a block
that has fewer than the block size of its layer. -/
theorem not_moteSafe_cutMote :
    loadMoteLayers cutMote = undefined "read outside the buffer" ∧
    loadMoteLayers emptyBlockMote = undefined "read outside the buffer" ∧
    cutMote.take 4 = u32Bytes moteMagic ∧ emptyBlockMote.take 4 = u32Bytes moteMagic ∧
    ¬ MoteSafe cutMote ∧ ¬ MoteSafe emptyBlockMote := by
  have hcut : loadMoteLayers cutMote = undefined "read outside the buffer" := by
    decide +kernel
  have hempty : loadMoteLayers emptyBlockMote = undefined "read outside the buffer" := by
    decide +kernel
  refine ⟨hcut, hempty, by decide +kernel, by decide +kernel, ?_, ?_⟩
  · intro h
    exact h.inside _ hcut
  · intro h
    exact h.inside _ hempty

end Terllama
