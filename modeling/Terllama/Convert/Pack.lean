import Terllama.Kernel.Dispatch
import Terllama.Loader.Payload

/-!
# Packing block terms

`pack_als_block_into` and `pack_als_block_terms` of `src/convert/als_decompose.cpp`, and the meaning
of what they pack. `packAlsBlockTerms_ok` says that the packed bytes are those of the payload whose
block tables hold the terms (`ALSTerm.blocks`), so that the loader's lemmas apply to them;
`als_layer_semantics` follows a list of terms through packing, parsing and the scalar kernel.
-/

namespace Terllama

/-- `ALSTerm`. -/
structure ALSTerm where
  scales : List F32
  ternary : List Int
  deriving DecidableEq, Repr

/-! ## The packer -/

/-- The codes of a block: 1 everywhere, then the codes of the block's columns. -/
def blockCodes (ternary : List Int) (row : Nat) (inF start qk : Int) : Exec (List UInt8) := do
  let blockEnd ← i32 (start + qk)
  let bw ← i32 (min blockEnd inF - start)
  (List.range bw.toNat).foldlM (fun codes c => do
    let v ← load ternary (sizeT (row * inF) + sizeT start + c)
    writeAt codes c [ternaryCode v]) (List.replicate qk.toNat 1)

/-- The code bytes of a block, stored one by one at `off`. -/
def storeCodes (codes : List UInt8) (codesPerBlock off : Nat) (dst : Bytes) : Exec Bytes :=
  (List.range codesPerBlock).foldlM (fun dst g => do
    let c₀ ← load codes (4 * g)
    let c₁ ← load codes (4 * g + 1)
    let c₂ ← load codes (4 * g + 2)
    let c₃ ← load codes (4 * g + 3)
    writeAt dst (off + g) [codeByte c₀ c₁ c₂ c₃]) dst

/-- One pass of the loops of `pack_als_block_into`, with `base` the offset of `dst` in its buffer. -/
def packBlock (term : ALSTerm) (base : Nat) (inF qk rowStride : Int) (dst : Bytes) (row b : Nat) :
    Exec Bytes := do
  let codesPerBlock := qk.tdiv 4
  let start ← i32 (b * qk)
  let codes ← blockCodes term.ternary row inF start qk
  let off := base + (sizeT (row * rowStride) + sizeT (b * (codesPerBlock + 4)))
  let dst ← storeCodes codes codesPerBlock.toNat off dst
  let scale ← load term.scales b
  writeAt dst (off + codesPerBlock.toNat) scale.toBytes

/-- `pack_als_block_into`. -/
def packAlsBlockInto (term : ALSTerm) (base : Nat) (outF inF qk : Int) (dst : Bytes) :
    Exec Bytes := do
  let nBlocks := toInt32 term.scales.length
  let rowStride ← i32 (nBlocks * (qk.tdiv 4 + 4))
  (List.range outF.toNat).foldlM (fun dst row =>
    (List.range nBlocks.toNat).foldlM (fun dst b =>
      packBlock term base inF qk rowStride dst row b) dst) dst

/-- The body of the term loop of `pack_als_block_terms`. -/
def packTerm (outF inF qk : Int) (buf : Bytes) (term : ALSTerm) : Exec Bytes := do
  let rowStride := sizeT (term.scales.length * (qk.tdiv 4 + 4))
  let blobLen := sizeT (outF * rowStride) % 4294967296
  let buf := buf ++ u32Bytes blobLen
  let base := buf.length
  packAlsBlockInto term base outF inF qk (vectorResize buf (base + blobLen) 0)

/-- `pack_als_block_terms`. -/
def packAlsBlockTerms (terms : List ALSTerm) (outF inF qk : Int) : Exec Bytes := do
  let nBlocks ← ceilBlocks inF qk
  let perRow := sizeT (nBlocks * (qk.tdiv 4 + 4))
  vectorAlloc (sizeT (4 + terms.length * (4 + outF * perRow))) 1
  terms.foldlM (packTerm outF inF qk) (u32Bytes terms.length)

/-! ## What is packed -/

/-- Terms of the shape of a layer of `rows` rows and `cols` columns. -/
structure ALSTerm.Shape (rows cols : Nat) (term : ALSTerm) : Prop where
  scales : term.scales.length = blocksPerRow cols
  ternary : term.ternary.length = rows * cols
  isTernary : ∀ v ∈ term.ternary, IsTernary v

/-- The weight of a term at a row and a column, zero past the last column. -/
def ALSTerm.weightAt (term : ALSTerm) (cols row j : Nat) : Int :=
  if j < cols then term.ternary.getD (row * cols + j) 0 else 0

/-- The block of a term at a row and a block index. -/
def ALSTerm.block (term : ALSTerm) (cols row b : Nat) : BlockTerm where
  packed := packCodes (fun c => term.weightAt cols row (b * colBlockSize + c)) 32
  scale := term.scales.getD b 0

/-- The block table of a term. -/
def ALSTerm.blocks (term : ALSTerm) (rows cols : Nat) : List BlockTerm :=
  (List.range rows).flatMap fun row => (List.range (blocksPerRow cols)).map (term.block cols row)

section
variable {term : ALSTerm} {rows cols : Nat}

theorem ALSTerm.Shape.weightAt_isTernary (h : term.Shape rows cols) (row j : Nat) :
    IsTernary (term.weightAt cols row j) := by
  unfold ALSTerm.weightAt
  split
  · rw [List.getD_eq_getElem?_getD]
    rcases hv : term.ternary[row * cols + j]? with _ | v
    · exact .inr (.inl rfl)
    · exact h.isTernary v (List.mem_of_getElem? hv)
  · exact .inr (.inl rfl)

theorem ALSTerm.block_packed_length (term : ALSTerm) (cols row b : Nat) :
    (term.block cols row b).packed.length = 32 := by
  rw [ALSTerm.block, packCodes_length]

/-- The weights of a block. -/
theorem ALSTerm.Shape.blockCode_block (h : term.Shape rows cols) (row b : Nat) {k : Nat}
    (hk : k < colBlockSize) :
    blockCode (term.block cols row b).packed k =
      term.weightAt cols row (b * colBlockSize + k) := by
  have hpack := blockCode_packCodes (v := fun c => term.weightAt cols row (b * colBlockSize + c))
    (n := 32) (j := k) (by rw [colBlockSize] at hk; omega) fun k _ => h.weightAt_isTernary row _
  rw [ALSTerm.block]
  exact hpack

theorem ALSTerm.blocks_shape (term : ALSTerm) (rows cols : Nat) :
    TermShape rows cols (term.blocks rows cols) where
  length_eq := by
    rw [ALSTerm.blocks, length_flatMap_range fun i _ => by rw [List.length_map, List.length_range]]
  packed_length x hx := by
    obtain ⟨row, -, hx⟩ := List.mem_flatMap.1 hx
    obtain ⟨b, -, rfl⟩ := List.mem_map.1 hx
    exact term.block_packed_length cols row b

/-- The block of the table at a row and a block index. -/
theorem ALSTerm.blocks_getD (term : ALSTerm) {rows cols row b : Nat} (hrow : row < rows)
    (hb : b < blocksPerRow cols) :
    (term.blocks rows cols).getD (row * blocksPerRow cols + b) default =
      term.block cols row b := by
  rw [List.getD_eq_getElem?_getD, ALSTerm.blocks, getElem?_flatMap
    (fun i _ => by rw [List.length_map, List.length_range]) hrow hb, List.getElem?_map,
    List.getElem?_range hb]
  rfl

end

/-! ## The packed bytes -/

/-- The bytes of a block of `qk` columns: its codes and its scale. -/
def ALSTerm.blockBytes (term : ALSTerm) (cols qk row b : Nat) : Bytes :=
  packCodes (fun c => term.weightAt cols row (b * qk + c)) (qk / 4) ++
    (term.scales.getD b 0).toBytes

/-- The bytes of a term, row by row. -/
def ALSTerm.bytes (term : ALSTerm) (rows cols qk : Nat) : Bytes :=
  (List.range rows).flatMap fun row =>
    (List.range term.scales.length).flatMap (term.blockBytes cols qk row)

theorem ALSTerm.blockBytes_length (term : ALSTerm) (cols n row b : Nat) :
    (term.blockBytes cols (4 * n) row b).length = n + 4 := by
  rw [ALSTerm.blockBytes, List.length_append, packCodes_length, F32.toBytes_length,
    Nat.mul_div_cancel_left n (by decide)]

theorem ALSTerm.bytes_length (term : ALSTerm) (rows cols n : Nat) :
    (term.bytes rows cols (4 * n)).length = rows * (term.scales.length * (n + 4)) := by
  rw [ALSTerm.bytes]
  exact length_flatMap_range fun row _ =>
    length_flatMap_range fun b _ => term.blockBytes_length cols n row b

/-- The sizes of a layer that the packer gets through: `n` code bytes a block, `nb` blocks a row,
each of them starting at a column, and a row that fits an `int`. -/
structure PackSizes (rows cols n nb : Nat) : Prop where
  starts : ∀ b < nb, b * (4 * n) < cols
  inF_qk : cols + 4 * n ≤ 2147483647
  stride : nb * (n + 4) ≤ 2147483647
  table : rows * (nb * (n + 4)) < 4294967296
  ternary : rows * cols < 18446744073709551616

section
variable {term : ALSTerm} {rows cols n nb : Nat}

/-- The codes of a block, padded with the code of zero. -/
theorem blockCodes_ok (h : PackSizes rows cols n nb) (hternary : term.ternary.length = rows * cols)
    {row b : Nat} (hrow : row < rows) (hb : b < nb) :
    blockCodes term.ternary row cols (b * (4 * n) : Nat) (4 * n : Nat) =
      .ok ((List.range (4 * n)).map fun c =>
        ternaryCode (term.weightAt cols row (b * (4 * n) + c))) := by
  have hstart := h.starts b hb
  have hover := h.inF_qk
  have hfit := h.ternary
  generalize 4 * n = qk at *
  have hrowEnd : (row + 1) * cols ≤ rows * cols := Nat.mul_le_mul_right _ hrow
  rw [Nat.succ_mul] at hrowEnd
  have hbw : min ((b * qk : Nat) + (qk : Int)) cols - (b * qk : Nat) =
      (min qk (cols - b * qk) : Nat) := by omega
  have hoff : sizeT ((row : Int) * cols) = row * cols := by
    rw [← Int.natCast_mul, sizeT_of_nonneg (by omega) (by omega), Int.toNat_natCast]
  have hstartT : sizeT ((b * qk : Nat) : Int) = b * qk := by
    rw [sizeT_of_nonneg (by omega) (by omega), Int.toNat_natCast]
  have hfill : Fills (fun codes => (List.range (min qk (cols - b * qk))).foldlM (fun codes c => do
      let v ← load term.ternary (row * cols + b * qk + c)
      writeAt codes c [ternaryCode v]) codes) 0
      ((List.range (min qk (cols - b * qk))).flatMap fun c =>
        [ternaryCode (term.weightAt cols row (b * qk + c))]) := by
    refine Fills.foldlM (s := 1) (fun _ _ => rfl) fun c hc => ?_
    have hweight : term.weightAt cols row (b * qk + c) =
        term.ternary.getD (row * cols + b * qk + c) 0 := by
      rw [ALSTerm.weightAt, if_pos (by omega), Nat.add_assoc]
    rw [Nat.zero_add, Nat.mul_one, hweight]
    simp only [load_getD (show row * cols + b * qk + c < term.ternary.length by
      rw [hternary]; omega) 0, ok_bind]
    exact fills_writeAt _ _
  have hrun := hfill [] (List.replicate (min qk (cols - b * qk)) 1)
    (List.replicate (qk - min qk (cols - b * qk)) 1) rfl (by simp)
  rw [List.nil_append, ← List.replicate_add, Nat.add_sub_cancel' (by omega)] at hrun
  dsimp only at hrun
  rw [blockCodes, i32_ok (by omega) (by omega), ok_bind, hbw, i32_ok (by omega) (by omega),
    ok_bind, hoff, hstartT]
  simp only [Int.toNat_natCast]
  rw [hrun]
  refine congrArg Except.ok ?_
  have hpad : List.replicate (qk - min qk (cols - b * qk)) 1 =
      (List.range (qk - min qk (cols - b * qk))).map fun c =>
        ternaryCode (term.weightAt cols row (b * qk + (min qk (cols - b * qk) + c))) := by
    refine List.ext_getElem (by simp) fun c h₁ h₂ => ?_
    have hc : c < qk - min qk (cols - b * qk) := by simpa using h₁
    rw [List.getElem_replicate, List.getElem_map, List.getElem_range, ALSTerm.weightAt,
      if_neg (by omega)]
    rfl
  rw [List.nil_append, ← List.map_eq_flatMap, hpad,
    map_range_append (fun c => ternaryCode (term.weightAt cols row (b * qk + c))),
    Nat.add_sub_cancel' (by omega)]

/-- The code bytes of a block fill `n` bytes. -/
theorem fills_storeCodes (v : Nat → Int) (n off : Nat) :
    Fills (storeCodes ((List.range (4 * n)).map fun c => ternaryCode (v c)) n off) off
      (packCodes v n) := by
  have hload : ∀ g < n, ∀ k < 4,
      load ((List.range (4 * n)).map fun c => ternaryCode (v c)) (4 * g + k) =
        .ok (ternaryCode (v (4 * g + k))) := by
    intro g hg k hk
    rw [load_getD (by rw [List.length_map, List.length_range]; omega) 0,
      getD_map_range _ (by omega)]
  have hfill : Fills (storeCodes ((List.range (4 * n)).map fun c => ternaryCode (v c)) n off) off
      ((List.range n).flatMap fun g => [codeByte (ternaryCode (v (4 * g)))
        (ternaryCode (v (4 * g + 1))) (ternaryCode (v (4 * g + 2)))
        (ternaryCode (v (4 * g + 3)))]) := by
    refine Fills.foldlM (s := 1) (fun _ _ => rfl) fun g hg => ?_
    have h₀ := hload g hg 0 (by omega)
    rw [Nat.add_zero] at h₀
    simp only [h₀, hload g hg 1 (by omega), hload g hg 2 (by omega), hload g hg 3 (by omega),
      ok_bind, Nat.mul_one]
    exact fills_writeAt _ _
  rw [← List.map_eq_flatMap] at hfill
  exact hfill

/-- A quarter of a block length. -/
theorem tdiv_four (n : Nat) : ((4 * n : Nat) : Int).tdiv 4 = n := by
  rw [Int.natCast_mul]
  exact Int.mul_tdiv_cancel_left _ (by decide)

/-- A pass of the packing loops stores the block of its row and index. -/
theorem fills_packBlock (h : PackSizes rows cols n nb) (hternary : term.ternary.length = rows * cols)
    (hscales : term.scales.length = nb) {row b : Nat} (hrow : row < rows) (hb : b < nb)
    (base : Nat) :
    Fills (fun dst => packBlock term base cols (4 * n : Nat) (nb * (n + 4) : Nat) dst row b)
      (base + row * (nb * (n + 4)) + b * (n + 4)) (term.blockBytes cols (4 * n) row b) := by
  have hrowEnd : (row + 1) * (nb * (n + 4)) ≤ rows * (nb * (n + 4)) := Nat.mul_le_mul_right _ hrow
  have hblockEnd : (b + 1) * (n + 4) ≤ nb * (n + 4) := Nat.mul_le_mul_right _ hb
  rw [Nat.succ_mul] at hrowEnd hblockEnd
  have htable := h.table
  have hover := h.inF_qk
  have hstarts := h.starts b hb
  have hstart : ((b : Int) * (4 * n : Nat)) = (b * (4 * n) : Nat) := by push_cast; ring
  have hrowOff : sizeT ((row : Int) * (nb * (n + 4) : Nat)) = row * (nb * (n + 4)) := by
    rw [← Int.natCast_mul, sizeT_of_nonneg (by omega) (by omega), Int.toNat_natCast]
  have hblockOff : sizeT ((b : Int) * (n + 4)) = b * (n + 4) := by
    rw [show ((b : Int) * (n + 4)) = (b * (n + 4) : Nat) by push_cast; ring,
      sizeT_of_nonneg (by omega) (by omega), Int.toNat_natCast]
  have hscale : load term.scales b = .ok (term.scales.getD b 0) :=
    load_getD (by rw [hscales]; exact hb) 0
  have hcodes := blockCodes_ok h hternary hrow hb
  have happ := (fills_storeCodes (fun c => term.weightAt cols row (b * (4 * n) + c)) n
    (base + (row * (nb * (n + 4)) + b * (n + 4)))).append
      (fills_writeAt _ (term.scales.getD b 0).toBytes)
  rw [packCodes_length] at happ
  rw [Nat.add_assoc, ALSTerm.blockBytes, Nat.mul_div_cancel_left n (by decide)]
  intro pre mid post hpre hmid
  have hrun := happ pre mid post hpre hmid
  have hpack : packBlock term base cols (4 * n : Nat) (nb * (n + 4) : Nat) (pre ++ mid ++ post)
      row b = (storeCodes ((List.range (4 * n)).map fun c =>
          ternaryCode (term.weightAt cols row (b * (4 * n) + c))) n
          (base + (row * (nb * (n + 4)) + b * (n + 4))) (pre ++ mid ++ post) >>= fun dst =>
        writeAt dst (base + (row * (nb * (n + 4)) + b * (n + 4)) + n)
          (term.scales.getD b 0).toBytes) := by
    rw [packBlock, hstart, i32_ok (by omega) (by omega), ok_bind, hcodes, ok_bind]
    simp only [tdiv_four, Int.toNat_natCast, hrowOff, hblockOff, hscale, ok_bind]
  exact hpack.trans hrun

/-- A term is packed to its bytes. -/
theorem fills_packAlsBlockInto (h : PackSizes rows cols n nb)
    (hternary : term.ternary.length = rows * cols) (hscales : term.scales.length = nb) (base : Nat) :
    Fills (packAlsBlockInto term base rows cols (4 * n : Nat)) base
      (term.bytes rows cols (4 * n)) := by
  have hstride : (nb : Int) * (n + 4) = (nb * (n + 4) : Nat) := by push_cast; ring
  have hfits := h.stride
  have hnb : nb ≤ nb * (n + 4) := Nat.le_mul_of_pos_right nb (by omega)
  have hfill := Fills.foldlM₂_at (s := n + 4)
    (fun row hrow b hb => term.blockBytes_length cols n row b)
    (fun row hrow b hb => fills_packBlock h hternary hscales hrow hb base)
  rw [ALSTerm.bytes, hscales]
  intro pre mid post hpre hmid
  have hrun := hfill pre mid post hpre hmid
  rw [packAlsBlockInto, hscales, toInt32_of_lt (by omega), tdiv_four, hstride,
    i32_ok (by omega) (by omega), ok_bind, Int.toNat_natCast, Int.toNat_natCast]
  exact hrun

/-- The term loop appends the length and the bytes of a term. -/
theorem packTerm_ok (h : PackSizes rows cols n nb) (hternary : term.ternary.length = rows * cols)
    (hscales : term.scales.length = nb) (buf : Bytes) :
    packTerm rows cols (4 * n : Nat) buf term =
      .ok (buf ++ (u32Bytes (rows * (nb * (n + 4))) ++ term.bytes rows cols (4 * n))) := by
  have hfits := h.stride
  have htable := h.table
  have hsize := term.bytes_length rows cols n
  rw [hscales] at hsize
  have hstride : sizeT ((term.scales.length : Int) * (n + 4)) = nb * (n + 4) := by
    rw [hscales, show (nb : Int) * (n + 4) = (nb * (n + 4) : Nat) by push_cast; ring,
      sizeT_of_nonneg (by omega) (by omega), Int.toNat_natCast]
  have hblob : sizeT ((rows : Int) * (nb * (n + 4) : Nat)) % 4294967296 =
      rows * (nb * (n + 4)) := by
    rw [← Int.natCast_mul, sizeT_of_nonneg (by omega) (by omega), Int.toNat_natCast,
      Nat.mod_eq_of_lt (by omega)]
  have hresize : ∀ a : Bytes, vectorResize a (a.length + rows * (nb * (n + 4))) 0 =
      a ++ List.replicate (rows * (nb * (n + 4))) 0 ++ [] := by
    intro a
    rw [vectorResize, List.take_of_length_le (by omega), Nat.add_sub_cancel_left, List.append_nil]
  have hrun := fills_packAlsBlockInto h hternary hscales
    (buf ++ u32Bytes (rows * (nb * (n + 4)))).length (buf ++ u32Bytes (rows * (nb * (n + 4))))
    (List.replicate (rows * (nb * (n + 4))) 0) [] rfl (by rw [hsize, List.length_replicate])
  rw [packTerm]
  simp only [tdiv_four, hstride, hblob, hresize]
  rw [hrun, List.append_nil, List.append_assoc]

/-- The terms are packed one after the other, each behind its length. -/
theorem packTerms_ok (h : PackSizes rows cols n nb) {terms : List ALSTerm}
    (hternary : ∀ term ∈ terms, term.ternary.length = rows * cols)
    (hscales : ∀ term ∈ terms, term.scales.length = nb) (buf : Bytes) :
    terms.foldlM (packTerm rows cols (4 * n : Nat)) buf = .ok (buf ++ terms.flatMap fun term =>
      u32Bytes (rows * (nb * (n + 4))) ++ term.bytes rows cols (4 * n)) := by
  induction terms generalizing buf with
  | nil => exact congrArg Except.ok (List.append_nil buf).symm
  | cons term terms ih =>
    rw [List.forall_mem_cons] at hternary hscales
    rw [List.foldlM_cons, packTerm_ok h hternary.1 hscales.1, ok_bind, ih hternary.2 hscales.2,
      List.flatMap_cons, List.append_assoc]

end

/-- The bytes of a term in blocks of 128 columns are those of its block table. -/
theorem ALSTerm.bytes_eq (term : ALSTerm) {rows cols : Nat}
    (h : term.scales.length = blocksPerRow cols) :
    term.bytes rows cols 128 = (term.blocks rows cols).flatMap BlockTerm.bytes := by
  rw [ALSTerm.bytes, ALSTerm.blocks, List.flatMap_assoc, h]
  simp only [List.flatMap_map]
  rfl

/-- The terms are packed to the payload of their block tables. -/
theorem packAlsBlockTerms_ok {terms : List ALSTerm} {rows cols : Nat} (hcols : cols ≤ 2147483519)
    (hfit : rows * blocksPerRow cols * 36 ≤ 2147483647)
    (hsize : terms.length * (4 + rows * blocksPerRow cols * 36) ≤ 9223372036854775803)
    (hterms : ∀ term ∈ terms, term.Shape rows cols) :
    packAlsBlockTerms terms rows cols 128 =
      .ok (Payload.multi (terms.map fun term => term.blocks rows cols)).bytes := by
  have hrow := rowBytes_le hcols
  have hassoc : rows * (blocksPerRow cols * 36) = rows * blocksPerRow cols * 36 :=
    (Nat.mul_assoc _ _ _).symm
  have hsizes : PackSizes rows cols 32 (blocksPerRow cols) := by
    have hnb : cols ≤ blocksPerRow cols * 128 := by unfold blocksPerRow; omega
    refine ⟨fun b hb => ?_, by omega, hrow, ?_, ?_⟩
    · unfold blocksPerRow at hb
      omega
    · rw [hassoc]
      omega
    · calc rows * cols ≤ rows * (blocksPerRow cols * 128) := Nat.mul_le_mul_left _ hnb
        _ = rows * blocksPerRow cols * 128 := by ring
        _ < 18446744073709551616 := by omega
  have hperRow : sizeT ((blocksPerRow cols : Int) * (32 + 4)) = blocksPerRow cols * 36 := by
    rw [show (blocksPerRow cols : Int) * (32 + 4) = (blocksPerRow cols * 36 : Nat) by
      push_cast; ring, sizeT_of_nonneg (by omega) (by omega), Int.toNat_natCast]
  have hreserve : sizeT (4 + (terms.length : Int) * (4 + rows * (blocksPerRow cols * 36 : Nat))) ≤
      vectorMaxSize 1 := by
    rw [show 4 + (terms.length : Int) * (4 + rows * (blocksPerRow cols * 36 : Nat)) =
      (4 + terms.length * (4 + rows * blocksPerRow cols * 36) : Nat) by push_cast; ring,
      sizeT_of_nonneg (by omega) (by omega), Int.toNat_natCast, vectorMaxSize]
    omega
  have hbytes : (terms.flatMap fun term =>
        u32Bytes (rows * (blocksPerRow cols * 36)) ++ term.bytes rows cols 128) =
      (terms.map fun term => term.blocks rows cols).flatMap termBytes := by
    rw [List.flatMap_map, List.flatMap_def, List.flatMap_def]
    refine congrArg List.flatten (List.map_congr_left fun term hterm => ?_)
    have hshape := term.blocks_shape rows cols
    rw [termBytes, ← term.bytes_eq (hterms term hterm).scales, term.bytes_length rows cols 32,
      (hterms term hterm).scales]
  rw [packAlsBlockTerms, ceilBlocks_ok hcols, ok_bind]
  simp only [show (128 : Int).tdiv 4 = 32 from rfl, hperRow]
  rw [vectorAlloc_ok hreserve, ok_bind, Payload.bytes, List.length_map, ← hbytes]
  exact packTerms_ok hsizes (fun t ht => (hterms t ht).ternary) (fun t ht => (hterms t ht).scales) _

/-! ## The layer that is packed -/

/-- The linear map of the packed block tables is that of the terms. -/
theorem blockTermsDot_blocks {K : Type} [Field K] {terms : List ALSTerm} {rows cols : Nat}
    (hterms : ∀ term ∈ terms, term.Shape rows cols) (val : F32 → K) (x : List K) {row : Nat}
    (hrow : row < rows) :
    blockTermsDot val (terms.map fun term => term.blocks rows cols) cols x row =
      ∑ t ∈ Finset.range terms.length, ∑ j ∈ Finset.range cols,
        val ((terms.getD t ⟨[], []⟩).scales.getD (j / colBlockSize) 0) *
          ((terms.getD t ⟨[], []⟩).ternary.getD (row * cols + j) 0 : K) * x.getD j 0 := by
  rw [blockTermsDot, List.length_map]
  refine Finset.sum_congr rfl fun t ht => Finset.sum_congr rfl fun j hj => ?_
  have ht := Finset.mem_range.1 ht
  have hj := Finset.mem_range.1 hj
  have hb : j / colBlockSize < blocksPerRow cols := by
    unfold blocksPerRow colBlockSize
    omega
  have hmod : j % colBlockSize < colBlockSize := Nat.mod_lt _ (by decide)
  have hshape : (terms.getD t ⟨[], []⟩).Shape rows cols := by
    rw [List.getD_eq_getElem _ _ ht]
    exact hterms _ (List.getElem_mem ht)
  have htable : (terms.map fun term => term.blocks rows cols).getD t [] =
      (terms.getD t ⟨[], []⟩).blocks rows cols := by
    simp [List.getD_eq_getElem?_getD, List.getElem?_eq_getElem ht]
  dsimp only
  rw [htable, ALSTerm.blocks_getD _ hrow hb, hshape.blockCode_block row _ hmod, Nat.div_add_mod',
    ALSTerm.weightAt, if_pos hj]
  rfl

/-- Terms that are packed, parsed as a multi-term layer and run through the scalar block kernel
compute their linear map: at row `r`, the sum over terms `t` and columns `j` of
`scales[t][j / 128] * ternary[t][r * in_f + j] * x[j]`. -/
theorem als_layer_semantics {K : Type} [Field K] [LinearOrder K] (m : Machine K) {rows cols : Nat}
    (hrows : 0 < rows) (hcols : 0 < cols) (hcols' : cols ≤ 2147483519)
    (hfit : rows * blocksPerRow cols * 36 ≤ 2147483647) {terms : List ALSTerm} (hne : terms ≠ [])
    (hlen : terms.length ≤ 32) (hterms : ∀ term ∈ terms, term.Shape rows cols) (name : Bytes)
    {x : List K} (hx : cols ≤ x.length) :
    ∃ bytes ld, packAlsBlockTerms terms rows cols 128 = .ok bytes ∧
      parseLayerTypeData { name, outFeatures := rows, inFeatures := cols } 2 bytes = .ok ld ∧
      ternaryLinearBlocks m ld x .x86_64Scalar = .ok ((List.range rows).map fun row =>
        ∑ t ∈ Finset.range terms.length, ∑ j ∈ Finset.range cols,
          m.val ((terms.getD t ⟨[], []⟩).scales.getD (j / colBlockSize) 0) *
            ((terms.getD t ⟨[], []⟩).ternary.getD (row * cols + j) 0 : K) * x.getD j 0) := by
  have hwf : (Payload.multi (terms.map fun term => term.blocks rows cols)).WellFormed rows cols := by
    refine ⟨by simpa using hne, by simpa using hlen, fun blocks hb => ?_⟩
    obtain ⟨term, -, rfl⟩ := List.mem_map.1 hb
    exact term.blocks_shape rows cols
  have hfits : ∀ blocks ∈ (Payload.multi (terms.map fun term => term.blocks rows cols)).terms,
      blocks.length * 36 ≤ 2147483647 := by
    intro blocks hb
    obtain ⟨term, -, rfl⟩ := List.mem_map.1 hb
    rw [(term.blocks_shape rows cols).length_eq]
    exact hfit
  let ld : LayerData := { name, outFeatures := rows, inFeatures := cols }
  have hparse := parseLayerTypeData_ok ld hcols rfl rfl (fun _ => hcols') hwf hfits
  have htype : (Payload.multi (terms.map fun term => term.blocks rows cols)).layerType ≠ 1 :=
    show (2 : UInt8) ≠ 1 by decide
  have hlayer := ld.blockLayer_load rfl rfl htype hwf
  have hsize : terms.length * (4 + rows * blocksPerRow cols * 36) ≤ 32 * 2147483651 :=
    Nat.mul_le_mul hlen (by omega)
  refine ⟨_, _, packAlsBlockTerms_ok hcols' hfit (by omega) hterms, hparse, ?_⟩
  rw [ternaryLinearBlocks_scalar hlayer hcols hcols' hx]
  refine congrArg Except.ok (List.map_congr_left fun row hrow => ?_)
  exact blockTermsDot_blocks hterms m.val x (List.mem_range.1 hrow)

/-- One term on a layer of two rows and three columns, with the scale 1.5. -/
def smallTerm : ALSTerm := ⟨[0x3FC00000], [1, 0, -1, -1, -1, 1]⟩

theorem smallTerm_shape : smallTerm.Shape 2 3 := ⟨by decide, by decide, by decide⟩

/-- A small layer from its terms to its output. -/
theorem als_layer_semantics_smallTerm : ∃ bytes ld, packAlsBlockTerms [smallTerm] 2 3 128 = .ok bytes ∧
    parseLayerTypeData { name := str "lm_head", outFeatures := 2, inFeatures := 3 } 2 bytes = .ok ld ∧
    ternaryLinearBlocks ratMachine ld [2, 3, 5] .x86_64Scalar = .ok [-9 / 2, 0] := by
  obtain ⟨bytes, ld, hpack, hparse, hrun⟩ := @als_layer_semantics ℚ _ _ ratMachine 2 3
    (by decide) (by decide) (by decide) (by decide) [smallTerm] (by decide) (by decide)
    (by simpa using smallTerm_shape) (str "lm_head") [2, 3, 5] (by decide)
  refine ⟨bytes, ld, hpack, hparse, hrun.trans ?_⟩
  decide +kernel

end Terllama
