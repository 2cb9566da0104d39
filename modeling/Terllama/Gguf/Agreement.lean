import Terllama.Gguf.Tensor
import Terllama.Kernel.PlaneLayer

/-!
# The two decoders of a Q2_0 tensor

`extract_f32_tensor` walks a tensor as a sequence of blocks and places each at `b * qk`, an
`uint32_t`. `convert_q2_0_to_layer` walks it row by row, in 64 bits. From 2 ^ 25 blocks on the first
goes round: a block is stored where an earlier one was (`Slots`), and the places beyond stay zero.
`decoders_agree_iff` says which tensors both read alike.
-/

namespace Terllama

/-! ## What the flat decoder stores -/

/-- The code of element `j` of the codes at byte `codes`. -/
def q20Code (data : Bytes) (codes j : Nat) : UInt8 :=
  (data.getD (codes + j / 4) 0 >>> UInt8.ofNat (6 - j % 4 * 2)) &&& 0x03

/-- The scale at a byte. -/
def q20Scale (data : Bytes) (pos : Nat) : F32 :=
  fp16ToFp32 (UInt16.ofNat (leNat ((data.drop pos).take 2)))

/-- The word of element `k` of block `b` of a tensor at byte `src`. -/
def q20Word (data : Bytes) (src b k : Nat) : F32 :=
  scaleCode (q20Code data (src + b * 34 + 2) k) (q20Scale data (src + b * 34))

theorem fills_extractCodes {data : Bytes} {codes n : Nat} (h : codes + (n + 3) / 4 ≤ data.length)
    (scale : F32) (start : Nat) :
    Fills (extractCodes data codes scale start n) start
      ((List.range n).map fun j => scaleCode (q20Code data codes j) scale) := by
  have hloop : Fills (extractCodes data codes scale start n) start
      ((List.range n).flatMap fun j => [scaleCode (q20Code data codes j) scale]) := by
    refine Fills.foldlM (s := 1) (fun _ _ => rfl) fun j hj => ?_
    rw [Nat.mul_one]
    simp only [load_getD (show codes + j / 4 < data.length by omega) 0, ok_bind]
    exact fills_writeAt _ _
  rwa [← List.map_eq_flatMap] at hloop

/-- The blocks that a 32-bit position tells apart: `2 ^ 32 / 128`. -/
def q20Slots : Nat := 33554432

/-- A pass stores a block at its slot, or nothing where the count of the elements left goes round
to zero. -/
theorem fills_extractBlock {data : Bytes} {src B b : Nat} (hb : b < B)
    (hin : src + B * 34 ≤ data.length) (hsize : B * 34 < 4294967296) :
    Fills (fun out => extractBlock data src (B * 128) out b) (b % q20Slots * 128)
      (if b % q20Slots = B % q20Slots then [] else (List.range 128).map (q20Word data src b)) := by
  have hpos : b * 34 % 4294967296 = b * 34 := Nat.mod_eq_of_lt (by omega)
  have hstart : b * 128 % 4294967296 = b % q20Slots * 128 := by
    unfold q20Slots
    omega
  have hlen : q20BlockLength (B * 128) b = if b % q20Slots = B % q20Slots then 0 else 128 := by
    unfold q20BlockLength q20BlockSize q20Slots
    split <;> omega
  have hscale : slice data (src + b * 34) 2 = .ok ((data.drop (src + b * 34)).take 2) :=
    slice_ok (by omega)
  have hstep : (fun out => extractBlock data src (B * 128) out b) =
      extractCodes data (src + b * 34 + 2) (q20Scale data (src + b * 34)) (b % q20Slots * 128)
        (if b % q20Slots = B % q20Slots then 0 else 128) := by
    funext out
    rw [extractBlock, q20BlockBytes, q20BlockSize, hpos, hstart, hlen]
    dsimp only
    rw [hscale, ok_bind]
    rfl
  rw [hstep]
  split
  · exact fills_nil _
  · exact fills_extractCodes (by omega) _ _

/-- A buffer of `B` blocks after `i` passes over `M` slots: a slot holds the last block stored there,
and the slots beyond `M` are zero, as is the one whose blocks are skipped. -/
structure Slots (W : Nat → Nat → F32) (M B i : Nat) (flat : List F32) : Prop where
  length_eq : flat.length = B * 128
  empty : ∀ c k, k < 128 → M ≤ c ∨ c % M = B % M → flat.getD (c * 128 + k) 0 = 0
  last : ∀ b k, k < 128 → b < i → i ≤ b + M → b % M ≠ B % M →
    flat.getD (b % M * 128 + k) 0 = W b k

theorem slots_zero (W : Nat → Nat → F32) (M B : Nat) :
    Slots W M B 0 (List.replicate (B * 128) 0) where
  length_eq := List.length_replicate
  empty c k _ _ := by
    rw [List.getD_eq_getElem?_getD, List.getElem?_replicate]
    split <;> rfl
  last b k _ hb := absurd hb (Nat.not_lt_zero b)

/-- A pass keeps the slots. -/
theorem Slots.step {W : Nat → Nat → F32} {M B i : Nat} {flat : List F32} (h : Slots W M B i flat)
    (hM : 0 < M) (hi : i < B) {step : List F32 → Exec (List F32)}
    (hstep : Fills step (i % M * 128)
      (if i % M = B % M then [] else (List.range 128).map (W i))) :
    ∃ flat', step flat = .ok flat' ∧ Slots W M B (i + 1) flat' := by
  have hslot : i % M < M := Nat.mod_lt i hM
  have hle : i % M ≤ i := Nat.mod_le i M
  by_cases hskip : i % M = B % M
  · rw [if_pos hskip] at hstep
    have hroom : i % M * 128 + ([] : List F32).length ≤ flat.length := by
      rw [h.length_eq, List.length_nil]
      omega
    obtain ⟨flat', hrun, hlen, hget⟩ := hstep.frame hroom
    have hsame : ∀ j, flat'.getD j 0 = flat.getD j 0 := fun j => by
      rw [hget, List.length_nil, if_neg (by omega)]
    refine ⟨flat', hrun, hlen.trans h.length_eq, fun c k hk hc => ?_, fun b k hk hb hlast hne => ?_⟩
    · rw [hsame, h.empty c k hk hc]
    · have hbi : b ≠ i := fun hbi => hne (hbi ▸ hskip)
      rw [hsame, h.last b k hk (by omega) (by omega) hne]
  · rw [if_neg hskip] at hstep
    have hsize : ((List.range 128).map (W i)).length = 128 := by
      rw [List.length_map, List.length_range]
    have hroom : i % M * 128 + ((List.range 128).map (W i)).length ≤ flat.length := by
      rw [h.length_eq, hsize]
      omega
    obtain ⟨flat', hrun, hlen, hget⟩ := hstep.frame hroom
    rw [hsize] at hget
    have hother : ∀ c k, k < 128 → c ≠ i % M →
        flat'.getD (c * 128 + k) 0 = flat.getD (c * 128 + k) 0 := fun c k hk hc => by
      rw [hget, if_neg (by omega)]
    refine ⟨flat', hrun, hlen.trans h.length_eq, fun c k hk hc => ?_, fun b k hk hb hlast hne => ?_⟩
    · have hc' : c ≠ i % M := by
        rintro rfl
        rcases hc with hc | hc
        · omega
        · exact hskip (by rwa [Nat.mod_mod] at hc)
      rw [hother c k hk hc', h.empty c k hk hc]
    · rcases Nat.lt_succ_iff_lt_or_eq.1 hb with hlt | rfl
      · have hne' : b % M ≠ i % M := fun heq => by
          -- the blocks of a slot are `M` apart
          have hdvd : M ∣ i - b := (Nat.modEq_iff_dvd' hlt.le).1 heq
          have := Nat.le_of_dvd (by omega) hdvd
          omega
        rw [hother _ k hk hne', h.last b k hk hlt (by omega) hne]
      · rw [hget, if_pos (by omega), Nat.add_sub_cancel_left, getD_map_range _ hk]

/-- The flat decoder on a tensor of `B` blocks. -/
theorem extractQ20_slots {data : Bytes} {src B : Nat} (hin : src + B * 34 ≤ data.length)
    (hsize : B * 34 < 4294967296) :
    ∃ flat, extractQ20 data src (List.replicate (B * 128) 0) (B * 128) = .ok flat ∧
      Slots (q20Word data src) q20Slots B B flat := by
  have hcount : q20BlockCount (B * 128) = B := by
    unfold q20BlockCount q20BlockSize pos64
    omega
  rw [extractQ20, hcount]
  refine foldlM_range_total (I := fun i flat => Slots (q20Word data src) q20Slots B i flat)
    (slots_zero _ _ _) fun i hi flat hslots => ?_
  exact hslots.step (by decide) hi (fills_extractBlock hi hin hsize)

/-- A slot that is stored to again holds a block from `M` on. -/
theorem Slots.wrapped {W : Nat → Nat → F32} {M B c : Nat} {flat : List F32}
    (h : Slots W M B B flat) (hM : 0 < M) (hc : c < M) (hroom : c + M ≤ B)
    (hskip : c % M ≠ B % M) :
    ∃ b < B, M ≤ b ∧ ∀ k < 128, flat.getD (c * 128 + k) 0 = W b k := by
  have hmod : c % M = c := Nat.mod_eq_of_lt hc
  have hdiv := Nat.div_add_mod (B - 1 - c) M
  have hlt := Nat.mod_lt (B - 1 - c) hM
  have hne : B ≠ c + M := fun heq => hskip (by rw [heq, Nat.add_mod_right])
  have hpos : 1 ≤ (B - 1 - c) / M := (Nat.one_le_div_iff hM).2 (by omega)
  have hstep := Nat.mul_le_mul_left M hpos
  have hslot : (c + M * ((B - 1 - c) / M)) % M = c := by rw [Nat.add_mul_mod_self_left, hmod]
  refine ⟨c + M * ((B - 1 - c) / M), by omega, by omega, fun k hk => ?_⟩
  have hlast := h.last (c + M * ((B - 1 - c) / M)) k hk (by omega) (by omega)
    (by rwa [hslot, ← hmod])
  rwa [hslot] at hlast

/-- A slot that is stored to once holds its block. -/
theorem Slots.once {W : Nat → Nat → F32} {M B c : Nat} {flat : List F32} (h : Slots W M B B flat)
    (hcB : c < B) (hc : c < M) (hroom : B < c + M) {k : Nat} (hk : k < 128) :
    flat.getD (c * 128 + k) 0 = W c k := by
  have hmod : c % M = c := Nat.mod_eq_of_lt hc
  have hother : c % M ≠ B % M := fun heq => by
    have hdvd : M ∣ B - c := (Nat.modEq_iff_dvd' hcB.le).1 heq
    have := Nat.le_of_dvd (by omega) hdvd
    omega
  have hlast := h.last c k hk hcB hroom.le hother
  rwa [hmod] at hlast

/-- The slots read as the blocks do exactly where the blocks that share a slot, or have none, are
zero. -/
theorem Slots.agree_iff {K : Type} [Zero K] {W : Nat → Nat → F32} {M B : Nat} {flat : List F32}
    (h : Slots W M B B flat) (hM : 0 < M) {v : F32 → K} (hzero : v 0 = 0) :
    (∀ c < B, ∀ k < 128, v (flat.getD (c * 128 + k) 0) = v (W c k)) ↔
      ∀ c < B, c + M ≤ B ∨ M ≤ c → ∀ k < 128, v (W c k) = 0 := by
  constructor
  · intro hagree
    have hbeyond : ∀ c < B, M ≤ c → ∀ k < 128, v (W c k) = 0 := fun c hc hle k hk => by
      rw [← hagree c hc k hk, h.empty c k hk (.inl hle), hzero]
    intro c hc hcase k hk
    by_cases hle : M ≤ c
    · exact hbeyond c hc hle k hk
    · by_cases hskip : c % M = B % M
      · rw [← hagree c hc k hk, h.empty c k hk (.inr hskip), hzero]
      · obtain ⟨b, hb, hMb, hlast⟩ := h.wrapped hM (by omega) (hcase.resolve_right hle) hskip
        rw [← hagree c hc k hk, hlast k hk]
        exact hbeyond b hb hMb k hk
  · intro hnone c hc k hk
    by_cases hcase : c + M ≤ B ∨ M ≤ c
    · rw [hnone c hc hcase k hk]
      by_cases hempty : M ≤ c ∨ c % M = B % M
      · rw [h.empty c k hk hempty, hzero]
      · rw [not_or] at hempty
        obtain ⟨b, hb, hMb, hlast⟩ := h.wrapped hM (by omega)
          (hcase.resolve_right hempty.1) hempty.2
        rw [hlast k hk]
        exact hnone b hb (.inr hMb) k hk
    · rw [h.once hc (by omega) (by omega) hk]

/-! ## The tensors -/

/-- A Q2_0 tensor of `outF` rows of `inF` columns, in whole blocks, whose data lies in the file and
takes fewer than `2 ^ 32` bytes. No code is 3. -/
structure Q20Tensor (gguf : GGUFFile) (ti : GGUFTensorInfo) (inF outF : Nat) : Prop where
  dims : ti.dims = [inF, outF]
  type : ti.type = ggmlTypeQ20 ∨ ti.type = 42
  aligned : 128 ∣ inF
  inside : ti.offset + outF * (inF / 128) * 34 ≤ gguf.fileData.length
  size : outF * (inF / 128) * 34 < 4294967296
  codes : ∀ b < outF * (inF / 128), ∀ k < 128,
    q20Code gguf.fileData (ti.offset + b * 34 + 2) k ≠ 3

section
variable {gguf : GGUFFile} {ti : GGUFTensorInfo} {inF outF : Nat}

theorem Q20Tensor.cols_eq (h : Q20Tensor gguf ti inF outF) : inF / 128 * 128 = inF :=
  Nat.div_mul_cancel h.aligned

/-- The elements of the tensor, counted by the decoder and by blocks. -/
theorem Q20Tensor.nElems_eq (h : Q20Tensor gguf ti inF outF) :
    ti.nElems = outF * (inF / 128) * 128 := by
  have hsize := h.size
  have hprod : outF * (inF / 128) * 128 = inF * outF := by
    rw [Nat.mul_assoc, h.cols_eq, Nat.mul_comm]
  have hwrap : pos64 (pos64 (1 * inF) * outF) = inF * outF % 18446744073709551616 := by
    rw [pos64, pos64, Nat.one_mul, Nat.mod_mul_mod]
  rw [GGUFTensorInfo.nElems, h.dims, List.foldl_cons, List.foldl_cons, List.foldl_nil, hwrap,
    ← hprod]
  omega

/-- The flat decoder on a tensor that passes its test. -/
theorem Q20Tensor.extract (h : Q20Tensor gguf ti inF outF)
    (htest : pos64 (ti.offset + 4) ≤ gguf.fileData.length) :
    ∃ flat, extractF32Tensor gguf ti [] = .ok (some flat) ∧
      Slots (q20Word gguf.fileData ti.offset) q20Slots (outF * (inF / 128)) (outF * (inF / 128))
        flat := by
  have hsize := h.size
  have hf32 : ti.type ≠ ggmlTypeF32 := by
    rcases h.type with htype | htype <;> rw [htype] <;> decide
  have hf16 : ti.type ≠ ggmlTypeF16 := by
    rcases h.type with htype | htype <;> rw [htype] <;> decide
  obtain ⟨flat, hrun, hslots⟩ := extractQ20_slots h.inside hsize
  refine ⟨flat, ?_, hslots⟩
  rw [extractF32Tensor, if_neg (Nat.not_lt.2 htest)]
  dsimp only
  rw [if_neg hf32, if_neg hf16, if_pos h.type, h.nElems_eq, vectorCheck,
    if_pos (by unfold vectorMaxSize; omega), ok_bind, vectorResize_nil, hrun]
  rfl

/-- The blocks of the tensor fill the table of its layer. -/
theorem Q20Tensor.shape (h : Q20Tensor gguf ti inF outF) :
    TermShape outF inF (tensorBlocks gguf.fileData ti (outF * (inF / 128))) where
  length_eq := by
    have hcols := h.cols_eq
    have hblocks : blocksPerRow inF = inF / 128 := by
      unfold blocksPerRow
      omega
    rw [tensorBlocks, List.length_map, List.length_range, hblocks]
  packed_length := by
    have hstride : blockStride ti.type = 34 := if_neg (by
      rcases h.type with htype | htype <;> rw [htype] <;> decide)
    exact packed_tensorBlocks (.inr (by rw [hstride]; exact h.inside))

/-- The layer of a tensor whose dimensions are `int32_t` values. -/
theorem Q20Tensor.convert (h : Q20Tensor gguf ti inF outF) (hcols : inF ≤ 2147483519)
    (hrows : outF ≤ 2147483647) (name : Bytes) :
    ∃ layer, convertQ20ToLayer gguf ti name = .ok (some layer) ∧ layer.outFeatures = outF ∧
      layer.inFeatures = inF ∧ layer.numTerms = 0 ∧
      layer.blockTerms = [tensorBlocks gguf.fileData ti (outF * (inF / 128))] ∧
      (0 < inF → layer.BlockLayer outF inF) := by
  have hsize := h.size
  have hwidth := h.cols_eq
  have hstride : blockStride ti.type = 34 := if_neg (by
    rcases h.type with htype | htype <;> rw [htype] <;> decide)
  have hnb : convertBlocks inF = (inF / 128 : Nat) := by
    have hdiv : pos64 (inF + q20BlockSize - 1) / q20BlockSize = inF / 128 := by
      unfold pos64 q20BlockSize
      omega
    rw [convertBlocks, hdiv, toInt32_of_lt (by omega)]
  have hsizeT : sizeT ((inF / 128 : Nat) : Int) = inF / 128 := by
    rw [sizeT_of_nonneg (by omega) (by omega), Int.toNat_natCast]
  have htotal : pos64 (outF * (inF / 128)) = outF * (inF / 128) := Nat.mod_eq_of_lt (by omega)
  have hloops : convertLoops gguf.fileData ti outF (inF / 128)
      (List.replicate (outF * (inF / 128)) {}) =
      .ok (tensorBlocks gguf.fileData ti (outF * (inF / 128))) :=
    convertLoops_ok (by omega) (.inr (by rw [hstride]; exact h.inside)) List.length_replicate
  have hrun : convertQ20ToLayer gguf ti name = (do
      return some (← buildBlockContigCache {
        name, outFeatures := outF, inFeatures := inF
        hasBlocks := true, numTerms := 0, blockQk := 128
        blockTerms := [tensorBlocks gguf.fileData ti (outF * (inF / 128))] })) := by
    rw [convertQ20ToLayer, h.dims]
    dsimp only
    rw [hnb, hsizeT, htotal, vectorCheck, if_pos (by unfold vectorMaxSize; omega), ok_bind,
      Int.toNat_natCast, hloops, ok_bind, toInt32_of_lt (by omega), toInt32_of_lt (by omega)]
  rw [hrun]
  rcases Nat.eq_zero_or_pos inF with hzero | hpos
  · subst hzero
    exact ⟨_, rfl, rfl, rfl, rfl, rfl, fun hpos => absurd hpos (Nat.lt_irrefl 0)⟩
  · have hshape := h.shape
    have hfit : outF * blocksPerRow inF ≤ 288230376151711743 := by
      have hlen := hshape.length_eq
      rw [tensorBlocks, List.length_map, List.length_range] at hlen
      omega
    have hshapes : ∀ blocks ∈ [tensorBlocks gguf.fileData ti (outF * (inF / 128))],
        TermShape outF inF blocks := by simpa using hshape
    rw [buildBlockContigCache_ok _ rfl rfl rfl rfl hpos hcols (List.cons_ne_nil _ _) hshapes hfit]
    refine ⟨_, rfl, rfl, rfl, rfl, rfl, fun _ => ?_⟩
    exact ⟨rfl, rfl, rfl, rfl, Nat.one_pos, show 1 ≤ 32 by decide, hshapes, rfl, rfl⟩

/-- A layer that is converted has the dimensions of its tensor, as `int32_t` values. -/
theorem Q20Tensor.convert_dims (h : Q20Tensor gguf ti inF outF) {name : Bytes} {layer : LayerData}
    (hconvert : convertQ20ToLayer gguf ti name = .ok (some layer)) :
    layer.outFeatures = toInt32 outF ∧ layer.inFeatures = toInt32 inF := by
  rw [convertQ20ToLayer, h.dims] at hconvert
  dsimp only at hconvert
  obtain ⟨_, -, hconvert⟩ := bind_eq_ok.1 hconvert
  obtain ⟨blocks, -, hconvert⟩ := bind_eq_ok.1 hconvert
  obtain ⟨layer', hbuild, hconvert⟩ := bind_eq_ok.1 hconvert
  cases hconvert
  have hheader := buildBlockContigCache_header hbuild
  exact ⟨congrArg (fun p => p.2.1) hheader, congrArg (fun p => p.2.2) hheader⟩

theorem toInt32_eq_natCast {n : Nat} (h : toInt32 n = n) : n ≤ 2147483647 := by
  have hrange := toInt32_range n
  omega

end

/-! ## What the readings stand for -/

section
variable {K : Type} [Field K]

/-- The weight of element `k` of block `b` of a tensor at byte `src`: the scale times the code less
one. -/
def q20Weight (val : F32 → K) (data : Bytes) (src b k : Nat) : K :=
  val (q20Scale data (src + b * 34)) *
    (((q20Code data (src + b * 34 + 2) k).toNat - 1 : Int) : K)

/-- Products of a float with the weights -1, 0 and 1 are exact. -/
def ScalesExactly (val : F32 → K) : Prop :=
  ∀ (code : UInt8) (scale : F32), code.toNat ≤ 2 →
    val (scaleCode code scale) = val scale * ((code.toNat - 1 : Int) : K)

theorem ScalesExactly.val_zero {val : F32 → K} (h : ScalesExactly val) : val 0 = 0 := by
  have hone := h 1 0 (by decide)
  have hword : scaleCode 1 0 = 0 := by decide
  rw [hword] at hone
  simpa using hone

theorem q20Code_le (data : Bytes) (codes j : Nat) (h : q20Code data codes j ≠ 3) :
    (q20Code data codes j).toNat ≤ 2 := by
  have hle : (q20Code data codes j).toNat ≤ 3 := by
    rw [q20Code, UInt8.toNat_and]
    exact Nat.and_le_right
  have hne : (q20Code data codes j).toNat ≠ 3 := fun heq => h (UInt8.toNat_inj.1 heq)
  omega

/-- The word of a weight. -/
theorem val_q20Word {val : F32 → K} (hval : ScalesExactly val) {data : Bytes} {src b k : Nat}
    (h : q20Code data (src + b * 34 + 2) k ≠ 3) :
    val (q20Word data src b k) = q20Weight val data src b k :=
  hval _ _ (q20Code_le _ _ _ h)

/-- The weights that a block of a layer holds. -/
theorem q20BlockAt_weight (val : F32 → K) {data : Bytes} {type src b k : Nat} (htype : type ≠ 36)
    (hk : k < 128) :
    val (q20BlockAt data type (src + b * 34)).scale *
      (blockCode (q20BlockAt data type (src + b * 34)).packed k : K) =
      q20Weight val data src b k := by
  have hshift : (6 - 2 * UInt8.ofNat (k % 4) : UInt8) = UInt8.ofNat (6 - k % 4 * 2) := by
    have hmod := Nat.mod_lt k (show 0 < 4 by decide)
    interval_cases k % 4 <;> rfl
  have hget : ((data.drop (src + b * 34 + 2)).take 32).getD (k / 4) 0 =
      data.getD (src + b * 34 + 2 + k / 4) 0 := by
    rw [List.getD_eq_getElem?_getD, List.getD_eq_getElem?_getD, List.getElem?_take,
      if_pos (by omega), List.getElem?_drop]
  have hcode : blockCode (q20BlockAt data type (src + b * 34)).packed k =
      (q20Code data (src + b * 34 + 2) k).toNat - 1 := by
    rw [q20BlockAt, if_neg htype, blockCode, hget, hshift]
    rfl
  rw [hcode, q20BlockAt, if_neg htype]
  rfl

variable [LinearOrder K] (m : Machine K)

/-- Both decoders take the tensor, and read the same weights: the float at `r * in_f + c` is the
scale times the code less one of block `c / 128` of row `r`, and so is the weight in the layer, which
computes the product with the flat matrix. -/
def DecodersAgree (gguf : GGUFFile) (ti : GGUFTensorInfo) (inF outF : Nat) (name : Bytes) : Prop :=
  ∃ flat layer, extractF32Tensor gguf ti [] = .ok (some flat) ∧
    convertQ20ToLayer gguf ti name = .ok (some layer) ∧
    layer.outFeatures = outF ∧ layer.inFeatures = inF ∧
    (∀ r < outF, ∀ c < inF, m.val (flat.getD (r * inF + c) 0) =
      q20Weight m.val gguf.fileData ti.offset (r * (inF / 128) + c / 128) (c % 128)) ∧
    ∀ x : List K, inF ≤ x.length → ternaryLinearBlocks m layer x .x86_64Scalar =
      .ok ((List.range outF).map fun r =>
        ∑ c ∈ Finset.range inF, m.val (flat.getD (r * inF + c) 0) * x.getD c 0)

/-- The tensor passes the test of the flat decoder, its dimensions are `int32_t` values that a row of
blocks does not take beyond an `int`, and the blocks that share a slot of the flat decoder, or have
none, are zero. -/
structure DecodersFit (gguf : GGUFFile) (ti : GGUFTensorInfo) (inF outF : Nat) : Prop where
  test : pos64 (ti.offset + 4) ≤ gguf.fileData.length
  cols : inF ≤ 2147483519
  rows : outF ≤ 2147483647
  slots : ∀ b < outF * (inF / 128),
    b + q20Slots ≤ outF * (inF / 128) ∨ q20Slots ≤ b →
      ∀ k < 128, q20Weight m.val gguf.fileData ti.offset b k = 0

variable {m} {gguf : GGUFFile} {ti : GGUFTensorInfo} {inF outF : Nat}

/-- The elements of a matrix, row by row and block by block. -/
theorem forall_rows_iff {rows nb : Nat} {P : Nat → Nat → Prop} :
    (∀ r < rows, ∀ c < nb * 128, P (r * nb + c / 128) (c % 128)) ↔
      ∀ b < rows * nb, ∀ k < 128, P b k := by
  constructor
  · intro h b hb k hk
    have hnb : 0 < nb := Nat.pos_of_mul_pos_left (by omega : 0 < rows * nb)
    have hr : b / nb < rows := Nat.div_lt_of_lt_mul (by rwa [Nat.mul_comm])
    have hmod := Nat.mod_lt b hnb
    have hat := h (b / nb) hr (b % nb * 128 + k) (by omega)
    rwa [show (b % nb * 128 + k) / 128 = b % nb by omega,
      show (b % nb * 128 + k) % 128 = k by omega, Nat.div_add_mod'] at hat
  · intro h r hr c hc
    have hrows := Nat.mul_le_mul_right nb (Nat.succ_le_of_lt hr)
    rw [Nat.succ_mul] at hrows
    exact h _ (by omega) _ (Nat.mod_lt _ (by decide))

omit [LinearOrder K] in
/-- The flat decoder reads the weights exactly where the slots allow it. -/
theorem Q20Tensor.flat_iff (h : Q20Tensor gguf ti inF outF) (hval : ScalesExactly m.val)
    {flat : List F32} (hflat : Slots (q20Word gguf.fileData ti.offset) q20Slots
      (outF * (inF / 128)) (outF * (inF / 128)) flat) :
    (∀ r < outF, ∀ c < inF, m.val (flat.getD (r * inF + c) 0) =
      q20Weight m.val gguf.fileData ti.offset (r * (inF / 128) + c / 128) (c % 128)) ↔
    ∀ b < outF * (inF / 128), b + q20Slots ≤ outF * (inF / 128) ∨ q20Slots ≤ b →
      ∀ k < 128, q20Weight m.val gguf.fileData ti.offset b k = 0 := by
  have hcols := h.cols_eq
  have hagree := hflat.agree_iff (by decide) hval.val_zero
  have hword : ∀ b < outF * (inF / 128), ∀ k < 128,
      m.val (q20Word gguf.fileData ti.offset b k) =
        q20Weight m.val gguf.fileData ti.offset b k :=
    fun b hb k hk => val_q20Word hval (h.codes b hb k hk)
  have hplace : ∀ r c, r * inF + c = (r * (inF / 128) + c / 128) * 128 + c % 128 := fun r c => by
    conv_lhs => rw [← hcols, ← Nat.mul_assoc, ← Nat.div_add_mod' c 128]
    rw [Nat.add_mul, Nat.add_assoc]
  have hrows := @forall_rows_iff outF (inF / 128) fun b k =>
    m.val (flat.getD (b * 128 + k) 0) = q20Weight m.val gguf.fileData ti.offset b k
  rw [hcols] at hrows
  simp only [hplace]
  rw [hrows]
  constructor
  · intro heq b hb hcase k hk
    rw [← hword b hb k hk]
    exact hagree.1 (fun c hc k hk => (heq c hc k hk).trans (hword c hc k hk).symm) b hb hcase k hk
  · intro hnone b hb k hk
    rw [← hword b hb k hk]
    exact hagree.2 (fun c hc hcase k hk => (hword c hc k hk).trans (hnone c hc hcase k hk)) b hb k hk

/-- The layer of a tensor computes its weights. -/
theorem Q20Tensor.linear (h : Q20Tensor gguf ti inF outF) {layer : LayerData}
    (hout : layer.outFeatures = outF) (hin : layer.inFeatures = inF) (hnum : layer.numTerms = 0)
    (hterms : layer.blockTerms = [tensorBlocks gguf.fileData ti (outF * (inF / 128))])
    (hlayer : 0 < inF → layer.BlockLayer outF inF) (hcols : inF ≤ 2147483519) {x : List K}
    (hx : inF ≤ x.length) :
    ternaryLinearBlocks m layer x .x86_64Scalar = .ok ((List.range outF).map fun r =>
      ∑ c ∈ Finset.range inF,
        q20Weight m.val gguf.fileData ti.offset (r * (inF / 128) + c / 128) (c % 128) *
          x.getD c 0) := by
  have hwidth := h.cols_eq
  have htype : ti.type ≠ 36 := by rcases h.type with htype | htype <;> rw [htype] <;> decide
  rcases Nat.eq_zero_or_pos inF with hzero | hpos
  · have hguard : (!layer.hasBlocks || layer.blockTerms.isEmpty ||
        decide (layer.inFeatures = 0)) = true := by
      rw [hin, hzero]
      simp
    rw [ternaryLinearBlocks, if_pos hguard, ternaryLinear_noTerms hnum, hout, Int.toNat_natCast,
      hzero]
    simp
  · have hblocks : blocksPerRow inF = inF / 128 := by
      unfold blocksPerRow
      omega
    rw [ternaryLinearBlocks_scalar (hlayer hpos) hpos hcols hx, hterms]
    refine congrArg Except.ok (List.map_congr_left fun r hr => ?_)
    have hr := List.mem_range.1 hr
    rw [blockTermsDot, List.length_singleton, Finset.sum_range_one]
    refine Finset.sum_congr rfl fun c hc => ?_
    have hc := Finset.mem_range.1 hc
    have hrows := Nat.mul_le_mul_right (inF / 128) (Nat.succ_le_of_lt hr)
    rw [Nat.succ_mul] at hrows
    have hstride : blockStride ti.type = 34 := if_neg htype
    rw [List.getD_cons_zero, hblocks, colBlockSize, tensorBlocks, getD_map_range _ (by omega),
      hstride]
    dsimp only
    rw [q20BlockAt_weight m.val htype (Nat.mod_lt _ (by decide))]

/-- Decoders that agree took a tensor that fits them. -/
theorem DecodersAgree.fit (hval : ScalesExactly m.val) (h : Q20Tensor gguf ti inF outF)
    {name : Bytes} (hagree : DecodersAgree m gguf ti inF outF name) :
    DecodersFit m gguf ti inF outF := by
  obtain ⟨flat, layer, hextract, hconvert, hout, hin, hweights, -⟩ := hagree
  have htest : pos64 (ti.offset + 4) ≤ gguf.fileData.length := by
    by_contra hfails
    rw [extractF32Tensor, if_pos (Nat.not_le.1 hfails)] at hextract
    cases hextract
  obtain ⟨flat', hextract', hslots⟩ := h.extract htest
  cases hextract'.symm.trans hextract
  have hfits := convert_returns_iff.1 ⟨_, hconvert⟩ inF outF [] h.dims
  obtain ⟨hout', hin'⟩ := h.convert_dims hconvert
  have hrows := toInt32_eq_natCast (hout'.symm.trans hout)
  have hcols := toInt32_eq_natCast (hin'.symm.trans hin)
  have hle := hfits.columns
  rw [← hin', hin] at hle
  exact ⟨htest, by omega, by omega, (h.flat_iff hval hslots).1 hweights⟩

/-- The two decoders agree on a tensor exactly where it passes the test of the one, has dimensions
for the other, and no block that counts is lost to the 32-bit positions. -/
theorem decoders_agree_iff (m : Machine K) (hval : ScalesExactly m.val)
    (h : Q20Tensor gguf ti inF outF) (name : Bytes) :
    DecodersAgree m gguf ti inF outF name ↔ DecodersFit m gguf ti inF outF := by
  refine ⟨fun hagree => hagree.fit hval h, ?_⟩
  rintro ⟨htest, hcols, hrows, hnone⟩
  obtain ⟨flat, hextract, hslots⟩ := h.extract htest
  obtain ⟨layer, hconvert, hout, hin, hnum, hterms, hlayer⟩ := h.convert hcols hrows name
  have hweights := (h.flat_iff hval hslots).2 hnone
  refine ⟨flat, layer, hextract, hconvert, hout, hin, hweights, fun x hx => ?_⟩
  rw [h.linear hout hin hnum hterms hlayer hcols hx]
  refine congrArg Except.ok (List.map_congr_left fun r hr => Finset.sum_congr rfl fun c hc => ?_)
  rw [hweights r (List.mem_range.1 hr) c (Finset.mem_range.1 hc)]

end

/-! ## Exact arithmetic on numbers -/

/-- Exact rational arithmetic on the words that are numbers. -/
def numberMachine : Machine ℚ := ⟨F32.number, truncRat, .x86_64Scalar⟩

/-- A word that is no number. -/
theorem number_special {scale : F32} (h : 0x7F800000 < scale &&& 0x7FFFFFFF) :
    scale.number = 0 ∧ (scale ||| 0x00400000).number = 0 := by
  rw [UInt32.lt_iff_toNat_lt, F32.toNat_abs] at h
  refine ⟨F32.number_of_ge h.le, F32.number_of_ge ?_⟩
  have hmod := Nat.or_mod_two_pow (a := scale.toNat) (b := 4194304) (n := 31)
  have hle : scale.toNat % 2147483648 ≤ (scale ||| 0x00400000).toNat % 2147483648 := by
    rw [UInt32.toNat_or]
    exact Nat.left_le_or.trans hmod.ge
  exact h.le.trans hle

theorem numberMachine_scalesExactly : ScalesExactly numberMachine.val := by
  intro code scale hcode
  change (scaleCode code scale).number = scale.number * ((code.toNat - 1 : Int) : ℚ)
  rw [scaleCode]
  split
  · next hnan => rw [(number_special hnan).1, (number_special hnan).2, zero_mul]
  · split
    · next hone =>
        subst hone
        have hzero : (UInt8.toNat 1 - 1 : Int) = 0 := by decide
        rw [hzero, Int.cast_zero, mul_zero]
        split
        · decide +kernel
        · exact F32.number_sign scale
    · next hone =>
        split
        · next hzero =>
            subst hzero
            have hneg : (UInt8.toNat 0 - 1 : Int) = -1 := by decide
            rw [F32.number_flip, hneg, Int.cast_neg, Int.cast_one, mul_neg_one]
        · next hzero =>
            have hne : code.toNat ≠ 1 := fun h => hone (UInt8.toNat_inj.1 h)
            have hne' : code.toNat ≠ 0 := fun h => hzero (UInt8.toNat_inj.1 h)
            have htwo : code.toNat = 2 := by omega
            rw [htwo]
            norm_num

/-- A file with one block: the scale one, and the weights 1. -/
def oneBlock : GGUFFile := { fileData := [0x00, 0x3C] ++ List.replicate 32 0xAA }

/-- A tensor of type 10 at the start of a file. -/
def q20Info (inF outF : Nat) : GGUFTensorInfo := ⟨str "token_embd.weight", 10, [inF, outF], 0⟩

theorem oneBlock_q20Tensor : Q20Tensor oneBlock (q20Info 128 1) 128 1 where
  dims := rfl
  type := .inl rfl
  aligned := by decide
  inside := by decide
  size := by decide
  codes := by decide +kernel

theorem decoders_agree_block : ScalesExactly numberMachine.val ∧
    Q20Tensor oneBlock (q20Info 128 1) 128 1 ∧
    (DecodersAgree numberMachine oneBlock (q20Info 128 1) 128 1 [] ↔
      DecodersFit numberMachine oneBlock (q20Info 128 1) 128 1) :=
  ⟨numberMachine_scalesExactly, oneBlock_q20Tensor,
    decoders_agree_iff numberMachine numberMachine_scalesExactly oneBlock_q20Tensor []⟩

/-- A file of `n` such blocks. -/
def blockFile (n : Nat) : GGUFFile :=
  { fileData := (List.range n).flatMap fun _ => oneBlock.fileData }

theorem blockFile_getD {n b j : Nat} (hb : b < n) (hj : j < 34) :
    (blockFile n).fileData.getD (b * 34 + j) 0 = oneBlock.fileData.getD j 0 := by
  have hget := getElem?_flatMap (f := fun _ => oneBlock.fileData) (s := 34) (fun _ _ => rfl) hb hj
  have hdata : (blockFile n).fileData = (List.range n).flatMap fun _ => oneBlock.fileData := rfl
  rw [List.getD_eq_getElem?_getD, List.getD_eq_getElem?_getD, hdata, hget]

theorem blockFile_code {n b k : Nat} (hb : b < n) (hk : k < 128) :
    q20Code (blockFile n).fileData (0 + b * 34 + 2) k = 2 := by
  have hbyte : ∀ i < 32, oneBlock.fileData.getD (2 + i) 0 = 0xAA := by decide
  have hshift : ∀ i < 4, ((0xAA : UInt8) >>> UInt8.ofNat (6 - i * 2)) &&& 0x03 = 2 := by decide
  rw [q20Code, Nat.zero_add, Nat.add_assoc, blockFile_getD hb (by omega), hbyte _ (by omega)]
  exact hshift _ (Nat.mod_lt _ (by decide))

/-- The scale of the first block. -/
theorem blockFile_scale (n : Nat) : q20Scale (blockFile (n + 1)).fileData 0 = 0x3F800000 := by
  have hbytes : (blockFile (n + 1)).fileData.take 2 = [0x00, 0x3C] := by
    rw [blockFile, List.range_succ_eq_map, List.flatMap_cons, oneBlock]
    rfl
  rw [q20Scale, List.drop_zero, hbytes]
  decide

theorem blockFile_q20Tensor {inF outF : Nat} (haligned : 128 ∣ inF)
    (hsize : outF * (inF / 128) * 34 < 4294967296) :
    Q20Tensor (blockFile (outF * (inF / 128))) (q20Info inF outF) inF outF where
  dims := rfl
  type := .inl rfl
  aligned := haligned
  inside := by
    have hlen : (blockFile (outF * (inF / 128))).fileData.length = outF * (inF / 128) * 34 :=
      length_flatMap_range fun _ _ => rfl
    rw [hlen]
    exact (Nat.zero_add _).le
  size := hsize
  codes b hb k hk := by
    have hcode : q20Code (blockFile (outF * (inF / 128))).fileData
        ((q20Info inF outF).offset + b * 34 + 2) k = 2 := blockFile_code hb hk
    rw [hcode]
    decide

/-- Of a tensor of `2 ^ 32` ones, the flat decoder leaves the first block out. -/
theorem not_decoders_agree :
    Q20Tensor (blockFile (262144 * (16384 / 128))) (q20Info 16384 262144) 16384 262144 ∧
      ¬ DecodersAgree numberMachine (blockFile (262144 * (16384 / 128))) (q20Info 16384 262144)
        16384 262144 [] := by
  have htensor : Q20Tensor (blockFile (262144 * (16384 / 128))) (q20Info 16384 262144)
      16384 262144 := blockFile_q20Tensor (by decide) (by decide)
  refine ⟨htensor, fun hagree => ?_⟩
  have hfit := hagree.fit numberMachine_scalesExactly htensor
  have hzero := hfit.slots 0 (by decide) (.inl (by decide)) 0 (by decide)
  have hblocks : 262144 * (16384 / 128) = 33554431 + 1 := by decide
  rw [hblocks] at hzero
  have hcode := blockFile_code (n := 33554431 + 1) (b := 0) (k := 0) (by decide) (by decide)
  have hone : q20Weight numberMachine.val (blockFile (33554431 + 1)).fileData 0 0 0 = 1 := by
    rw [q20Weight, hcode, Nat.zero_mul, Nat.zero_add, blockFile_scale]
    decide +kernel
  exact one_ne_zero (hone.symm.trans hzero)

end Terllama
