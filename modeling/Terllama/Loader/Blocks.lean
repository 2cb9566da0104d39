import Mathlib.Data.List.GetD
import Mathlib.Tactic
import Terllama.Base.Buffer
import Terllama.Model

/-!
# Block tables and their kernel cache

`parse_block_terms` and `build_block_contig_cache` of `src/loader.h`: a payload of packed blocks is
cut into `BlockTerm`s, row by row and block by block, and copied into the flat buffers and row
pointers the block kernels read.

The two index lemmas, `parseBlockTerms_ok` and `contigTerm_ok`, replace the strides of the nested
row and block loops by the order of the table: on the bytes of a full table the parse returns the
table, and the flat buffers are the codes and the scales of the table in order.
-/

namespace Terllama

/-- An `int` division, undefined at a zero divisor. -/
def divI32 (a b : Int) : Exec Int :=
  if b = 0 then undefined "division by zero" else i32 (a.tdiv b)

/-- `(in_f + qk - 1) / qk`, in `int`. -/
def ceilBlocks (inF qk : Int) : Exec Int := do
  let s ← i32 (inF + qk)
  let s ← i32 (s - 1)
  divI32 s qk

/-- The bytes of a `BlockTerm` in a `std::vector`. -/
def sizeofBlockTerm : Nat := 32

/-- One pass of the loops of `parse_block_terms`: block `b` of row `row`. -/
def parseBlock (data : Bytes) (nBlocks codesPerBlock rowStride : Int) (blocks : List BlockTerm)
    (row b : Nat) : Exec (List BlockTerm) := do
  let rowIdx ← i32 (row * nBlocks)
  let blockIdx ← i32 (rowIdx + b)
  let rowOff ← i32 (row * rowStride)
  let blockOff ← i32 (b * (codesPerBlock + 4))
  let offset ← i32 (rowOff + blockOff)
  let codesEnd ← i32 (offset + codesPerBlock)
  let blockEnd ← i32 (codesEnd + 4)
  if blockEnd > toInt32 data.length then
    raise "ALS block data truncated in model file"
  else
    let packed ← slice data (sizeT offset) codesPerBlock.toNat
    let scale ← slice data (sizeT (offset + codesPerBlock)) 4
    writeAt blocks (sizeT blockIdx) [⟨packed, F32.ofBytes scale⟩]

/-- `parse_block_terms`. -/
def parseBlockTerms (data : Bytes) (outF inF qk : Int) : Exec (List BlockTerm) := do
  let nBlocks ← ceilBlocks inF qk
  let codesPerBlock := qk.tdiv 4
  let n := sizeT (outF * nBlocks)
  vectorAlloc n sizeofBlockTerm
  let rowStride ← i32 (nBlocks * (codesPerBlock + 4))
  (List.range outF.toNat).foldlM (fun blocks row =>
    (List.range nBlocks.toNat).foldlM (fun blocks b =>
      parseBlock data nBlocks codesPerBlock rowStride blocks row b) blocks)
    (List.replicate n default)

/-! ### What the nested loops leave -/

/-- The bytes of a block in a payload: its codes, then its scale. -/
def BlockTerm.bytes (block : BlockTerm) : Bytes := block.packed ++ block.scale.toBytes

/-- The number of 128-element blocks of a row. -/
def blocksPerRow (cols : Nat) : Nat := (cols + 127) / 128

theorem ceilBlocks_ok {cols : Nat} (h : cols ≤ 2147483519) :
    ceilBlocks cols 128 = .ok (blocksPerRow cols) := by
  have hdiv : ((cols : Int) + 128 - 1).tdiv 128 = (blocksPerRow cols : Nat) := by
    rw [Int.tdiv_eq_ediv_of_nonneg (by omega), blocksPerRow]
    omega
  have hlt : blocksPerRow cols ≤ 2147483647 := by unfold blocksPerRow; omega
  rw [ceilBlocks, i32_ok (by omega) (by omega), ok_bind, i32_ok (by omega) (by omega), ok_bind,
    divI32, if_neg (by decide), hdiv, i32_ok (by omega) (by omega)]

theorem ceilBlocks_128_le {inF nb : Int} (h : ceilBlocks inF 128 = .ok nb) : inF ≤ 2147483519 := by
  obtain ⟨s, hs, -⟩ := bind_eq_ok.1 h
  have := (i32_eq_ok.1 hs).2.2
  omega

theorem blocksPerRow_pos {cols : Nat} (h : 0 < cols) : 0 < blocksPerRow cols := by
  unfold blocksPerRow; omega

/-- The bytes of a row are always an `int`. -/
theorem rowBytes_le {cols : Nat} (h : cols ≤ 2147483519) :
    blocksPerRow cols * 36 ≤ 2147483647 := by
  unfold blocksPerRow; omega

/-- Two pieces of the bytes of a list of blocks: the codes and the scale of block `i`. -/
theorem slice_blockBytes {blocks : List BlockTerm} (hpacked : ∀ x ∈ blocks, x.packed.length = 32)
    {i : Nat} (hi : i < blocks.length) :
    slice (blocks.flatMap BlockTerm.bytes) (i * 36) 32 = .ok (blocks.getD i default).packed ∧
      slice (blocks.flatMap BlockTerm.bytes) (i * 36 + 32) 4 =
        .ok (blocks.getD i default).scale.toBytes := by
  have hpk : ∀ j < blocks.length, (blocks.getD j default).packed.length = 32 := by
    intro j hj
    rw [List.getD_eq_getElem _ _ hj]
    exact hpacked _ (List.getElem_mem hj)
  have hbytes : ∀ j < blocks.length, (blocks.getD j default).bytes.length = 36 := by
    intro j hj
    rw [BlockTerm.bytes, List.length_append, F32.toBytes_length, hpk j hj]
  have htable : blocks.flatMap BlockTerm.bytes =
      (List.range blocks.length).flatMap fun j => (blocks.getD j default).bytes := by
    conv_lhs => rw [← map_getD_range blocks default]
    rw [List.flatMap_map]
  have hsum : (blocks.getD i default).bytes.length = 32 + 4 := hbytes i hi
  constructor
  · rw [htable, ← Nat.add_zero (i * 36), slice_flatMap hbytes hi (by omega),
      slice_ok (by omega), List.drop_zero, BlockTerm.bytes, List.take_left' (hpk i hi)]
  · rw [htable, slice_flatMap hbytes hi (by omega), slice_ok (by omega), BlockTerm.bytes,
      List.drop_left' (hpk i hi), List.take_of_length_le (by rw [F32.toBytes_length])]

theorem length_blockBytes {blocks : List BlockTerm}
    (hpacked : ∀ x ∈ blocks, x.packed.length = 32) :
    (blocks.flatMap BlockTerm.bytes).length = blocks.length * 36 := by
  rw [List.length_flatMap, List.map_congr_left (g := fun _ => 36)]
  · simp
  · intro x hx
    rw [BlockTerm.bytes, List.length_append, F32.toBytes_length, hpacked x hx]

/-- A pass of the loops stores the block whose bytes stand at its index. -/
theorem parseBlock_eq {blocks : List BlockTerm} {rows nb : Nat}
    (hlen : blocks.length = rows * nb) (hpacked : ∀ x ∈ blocks, x.packed.length = 32)
    (hfit : blocks.length * 36 ≤ 2147483647) {row b : Nat} (hrow : row < rows) (hb : b < nb)
    (acc : List BlockTerm) :
    parseBlock (blocks.flatMap BlockTerm.bytes) nb 32 (nb * 36 : Nat) acc row b =
      writeAt acc (row * nb + b) [blocks.getD (row * nb + b) default] := by
  have hidx : row * nb + b < blocks.length := by
    have : (row + 1) * nb ≤ rows * nb := Nat.mul_le_mul_right nb hrow
    rw [Nat.succ_mul] at this
    omega
  obtain ⟨hcodes, hscale⟩ := slice_blockBytes hpacked hidx
  have hsize := length_blockBytes hpacked
  have hrowOff : (row : Int) * (nb * 36 : Nat) = ((row * nb) * 36 : Nat) := by push_cast; ring
  have hrowIdx : (row : Int) * nb = (row * nb : Nat) := by push_cast; ring
  generalize hi : row * nb = i at *
  have hoff : ((i * 36 : Nat) : Int) + b * (32 + 4) = ((i + b) * 36 : Nat) := by push_cast; ring
  have hend : ((i + b) * 36 : Nat) + (32 : Int) = ((i + b) * 36 + 32 : Nat) := by push_cast; ring
  rw [parseBlock, hrowIdx, hrowOff, i32_ok (by omega) (by omega), ok_bind,
    i32_ok (by omega) (by omega), ok_bind, i32_ok (by omega) (by omega), ok_bind,
    i32_ok (by omega) (by omega), ok_bind, hoff, i32_ok (by omega) (by omega), ok_bind, hend,
    i32_ok (by omega) (by omega), ok_bind, i32_ok (by omega) (by omega), ok_bind,
    toInt32_of_lt (by omega), if_neg (by omega), sizeT_of_nonneg (by omega) (by omega),
    sizeT_of_nonneg (by omega) (by omega), sizeT_of_nonneg (by omega) (by omega)]
  simp only [Int.toNat_natCast]
  rw [show (32 : Int).toNat = 32 from rfl, hcodes, ok_bind, hscale, ok_bind,
    F32.ofBytes_toBytes]
  rfl

/-- The row and block loops of a parse, on the bytes of a full table of blocks. -/
theorem parseBlockTerms_ok {blocks : List BlockTerm} {rows cols : Nat}
    (hcols : cols ≤ 2147483519) (hlen : blocks.length = rows * blocksPerRow cols)
    (hpacked : ∀ x ∈ blocks, x.packed.length = 32) (hfit : blocks.length * 36 ≤ 2147483647) :
    parseBlockTerms (blocks.flatMap BlockTerm.bytes) rows cols 128 = .ok blocks := by
  have hrow := rowBytes_le hcols
  have hsize : ((rows : Int) * blocksPerRow cols : Int) = (blocks.length : Int) := by
    rw [hlen]; push_cast; ring
  have hstride : (blocksPerRow cols : Int) * (32 + 4) = (blocksPerRow cols * 36 : Nat) := by
    push_cast; ring
  have hfill : Fills (fun acc => (List.range rows).foldlM (fun acc row =>
      (List.range (blocksPerRow cols)).foldlM (fun acc b =>
        parseBlock (blocks.flatMap BlockTerm.bytes) (blocksPerRow cols) 32
          (blocksPerRow cols * 36 : Nat) acc row b) acc) acc) 0
      ((List.range rows).flatMap fun row => (List.range (blocksPerRow cols)).flatMap fun b =>
        [blocks.getD (row * blocksPerRow cols + b) default]) := by
    refine Fills.foldlM₂ (s := 1) (fun _ _ _ _ => rfl) ?_
    intro row hrow b hb
    simp only [parseBlock_eq hlen hpacked hfit hrow hb, Nat.mul_one]
    exact fills_writeAt _ _
  have htable : ((List.range rows).flatMap fun row =>
      (List.range (blocksPerRow cols)).flatMap fun b =>
        [blocks.getD (row * blocksPerRow cols + b) default]) = blocks := by
    simp only [← List.map_eq_flatMap]
    rw [flatMap_range_map fun i => blocks.getD i default, ← hlen, map_getD_range]
  rw [htable] at hfill
  rw [parseBlockTerms, ceilBlocks_ok hcols, ok_bind]
  simp only [show (128 : Int).tdiv 4 = 32 from rfl, hsize, hstride, Int.toNat_natCast]
  rw [sizeT_of_nonneg (by omega) (by omega), vectorAlloc_ok
    (by rw [vectorMaxSize, sizeofBlockTerm]; omega), ok_bind, i32_ok (by omega) (by omega),
    ok_bind]
  exact hfill.run (by simp)

/-- A table is decoded only if the block count of a row does not overflow. -/
theorem ceilBlocks_of_parseBlockTerms {data : Bytes} {outF inF qk : Int} {blocks : List BlockTerm}
    (h : parseBlockTerms data outF inF qk = .ok blocks) : ∃ nb, ceilBlocks inF qk = .ok nb := by
  obtain ⟨nb, hnb, -⟩ := bind_eq_ok.1 h
  exact ⟨nb, hnb⟩

/-! ### Any payload -/

/-- The block at index `i` of a payload. -/
def blockAt (data : Bytes) (i : Nat) : BlockTerm :=
  ⟨(data.drop (i * 36)).take 32, F32.ofBytes ((data.drop (i * 36 + 32)).take 4)⟩

/-- A pass of the loops, where the offsets do not overflow: it stores the block at its index, if the
payload holds it. -/
theorem parseBlock_blockAt {data : Bytes} {rows nb : Nat} (hfit : rows * nb * 36 ≤ 2147483647)
    (hdata : data.length < 2147483648) {row b : Nat} (hrow : row < rows) (hb : b < nb)
    (acc : List BlockTerm) :
    parseBlock data nb 32 (nb * 36 : Nat) acc row b =
      if data.length < (row * nb + b + 1) * 36 then raise "ALS block data truncated in model file"
      else writeAt acc (row * nb + b) [blockAt data (row * nb + b)] := by
  have hidx : row * nb + b < rows * nb := by
    have : (row + 1) * nb ≤ rows * nb := Nat.mul_le_mul_right nb hrow
    rw [Nat.succ_mul] at this
    omega
  have hrowOff : (row : Int) * (nb * 36 : Nat) = ((row * nb) * 36 : Nat) := by push_cast; ring
  have hrowIdx : (row : Int) * nb = (row * nb : Nat) := by push_cast; ring
  generalize hi : row * nb = i at *
  have hoff : ((i * 36 : Nat) : Int) + b * (32 + 4) = ((i + b) * 36 : Nat) := by push_cast; ring
  have hend : ((i + b) * 36 : Nat) + (32 : Int) = ((i + b) * 36 + 32 : Nat) := by push_cast; ring
  rw [parseBlock, hrowIdx, hrowOff, i32_ok (by omega) (by omega), ok_bind,
    i32_ok (by omega) (by omega), ok_bind, i32_ok (by omega) (by omega), ok_bind,
    i32_ok (by omega) (by omega), ok_bind, hoff, i32_ok (by omega) (by omega), ok_bind, hend,
    i32_ok (by omega) (by omega), ok_bind, i32_ok (by omega) (by omega), ok_bind,
    toInt32_of_lt hdata]
  by_cases hlt : data.length < (i + b + 1) * 36
  · rw [if_pos hlt, if_pos (by omega)]
  · rw [if_neg hlt, if_neg (by omega), sizeT_of_nonneg (by omega) (by omega),
      sizeT_of_nonneg (by omega) (by omega), sizeT_of_nonneg (by omega) (by omega)]
    simp only [Int.toNat_natCast]
    rw [show (32 : Int).toNat = 32 from rfl, slice_ok (by omega), ok_bind, slice_ok (by omega),
      ok_bind]
    rfl

/-- The number of bytes a table of `rows` rows and `cols` columns takes. -/
def tableSize (rows cols : Nat) : Nat := rows * blocksPerRow cols * 36

/-- `parse_block_terms` on any payload, where the table's size is an `int`. -/
theorem parseBlockTerms_eq {data : Bytes} {rows cols : Nat} (hcols : cols ≤ 2147483519)
    (hstride : blocksPerRow cols * 36 ≤ 2147483647) (hfit : tableSize rows cols ≤ 2147483647)
    (hdata : data.length < 2147483648) :
    parseBlockTerms data rows cols 128 =
      if data.length < tableSize rows cols then raise "ALS block data truncated in model file"
      else .ok ((List.range (rows * blocksPerRow cols)).map (blockAt data)) := by
  unfold tableSize at *
  have hsize : ((rows : Int) * blocksPerRow cols : Int) = (rows * blocksPerRow cols : Nat) := by
    push_cast; ring
  have hrowStride : (blocksPerRow cols : Int) * (32 + 4) = (blocksPerRow cols * 36 : Nat) := by
    push_cast; ring
  rw [parseBlockTerms, ceilBlocks_ok hcols, ok_bind]
  simp only [show (128 : Int).tdiv 4 = 32 from rfl, hsize, hrowStride, Int.toNat_natCast]
  rw [sizeT_of_nonneg (by omega) (by omega), vectorAlloc_ok
    (by rw [vectorMaxSize, sizeofBlockTerm]; omega), ok_bind, i32_ok (by omega) (by omega),
    ok_bind, Int.toNat_natCast]
  have hblock := fun row (hrow : row < rows) b (hb : b < blocksPerRow cols) acc =>
    parseBlock_blockAt hfit hdata hrow hb acc
  generalize blocksPerRow cols = nb at *
  have hidx : ∀ row < rows, row * nb + nb ≤ rows * nb := by
    intro row hrow
    have h : (row + 1) * nb ≤ rows * nb := Nat.mul_le_mul_right nb hrow
    rwa [Nat.succ_mul] at h
  by_cases hlt : data.length < rows * nb * 36
  · rw [if_pos hlt]
    -- every pass keeps the table or throws, and all passes would read the whole of it
    refine (foldlM_range_outcome (I := fun row (acc : List BlockTerm) =>
      acc.length = rows * nb ∧ row * nb * 36 ≤ data.length) (e := Fault.exception _)
      ⟨List.length_replicate, by omega⟩ ?_).resolve_left ?_
    · rintro row hrow acc ⟨hlen, hread⟩
      rw [Nat.succ_mul]
      refine foldlM_range_outcome (I := fun b (acc : List BlockTerm) =>
        acc.length = rows * nb ∧ (row * nb + b) * 36 ≤ data.length) ⟨hlen, hread⟩ ?_
      rintro b hb acc ⟨hlen, hread⟩
      have hrow' := hidx row hrow
      rw [hblock row hrow b hb]
      split
      · exact .inr rfl
      · refine .inl ⟨_, if_pos (by rw [List.length_singleton]; omega), ?_, by omega⟩
        simp only [List.length_append, List.length_take, List.length_drop, List.length_singleton]
        omega
    · rintro ⟨acc, -, -, hread⟩
      omega
  · rw [if_neg hlt]
    have hfill : Fills (fun acc => (List.range rows).foldlM (fun acc row =>
        (List.range nb).foldlM (fun acc b =>
          parseBlock data nb 32 (nb * 36 : Nat) acc row b) acc) acc) 0
        ((List.range rows).flatMap fun row => (List.range nb).flatMap fun b =>
          [blockAt data (row * nb + b)]) := by
      refine Fills.foldlM₂ (s := 1) (fun _ _ _ _ => rfl) ?_
      intro row hrow b hb
      have hrow' := hidx row hrow
      have hin : ¬ data.length < (row * nb + b + 1) * 36 := by omega
      simp only [hblock row hrow b hb, Nat.mul_one, if_neg hin]
      exact fills_writeAt _ _
    simp only [← List.map_eq_flatMap] at hfill
    rw [flatMap_range_map (blockAt data)] at hfill
    exact hfill.run (by simp)
/-- A table without blocks is decoded without a look at the payload. -/
theorem parseBlockTerms_empty {outF inF : Int} (h : outF ≤ 0 ∨ inF ≤ 0) (data data' : Bytes) :
    parseBlockTerms data outF inF 128 = parseBlockTerms data' outF inF 128 := by
  rw [parseBlockTerms, parseBlockTerms]
  cases hnb : ceilBlocks inF 128 with
  | error e => simp only [error_bind]
  | ok nb =>
    simp only [ok_bind]
    have hzero : outF.toNat = 0 ∨ nb.toNat = 0 := by
      refine h.imp (fun h => by omega) fun h => ?_
      obtain ⟨s, hs, hnb⟩ := bind_eq_ok.1 hnb
      obtain ⟨s', hs', hnb⟩ := bind_eq_ok.1 hnb
      obtain ⟨rfl, -⟩ := i32_eq_ok.1 hs
      obtain ⟨rfl, -⟩ := i32_eq_ok.1 hs'
      rw [divI32, if_neg (by decide)] at hnb
      obtain ⟨rfl, -⟩ := i32_eq_ok.1 hnb
      rw [Int.tdiv_eq_ediv, show Int.sign 128 = 1 from rfl]
      split <;> omega
    rcases hzero with hzero | hzero <;> simp only [hzero, List.range_zero, List.foldlM_nil]

/-- A table with blocks that was decoded lies inside its payload, and its size is an `int`. -/
theorem parseBlockTerms_fits {data : Bytes} {rows cols : Nat} {blocks : List BlockTerm}
    (hrows : 0 < rows) (hcols : 0 < cols) (hdata : data.length < 4294967296)
    (h : parseBlockTerms data rows cols 128 = .ok blocks) :
    cols ≤ 2147483519 ∧ blocksPerRow cols * 36 ≤ 2147483647 ∧
      tableSize rows cols ≤ 2147483647 ∧ data.length < 2147483648 ∧
        tableSize rows cols ≤ data.length := by
  obtain ⟨nb, hnb, h⟩ := bind_eq_ok.1 h
  have hle : cols ≤ 2147483519 := by exact_mod_cast ceilBlocks_128_le hnb
  rw [ceilBlocks_ok hle] at hnb
  cases hnb
  obtain ⟨_, -, h⟩ := bind_eq_ok.1 h
  obtain ⟨rowStride, hstride, h⟩ := bind_eq_ok.1 h
  obtain ⟨rfl, -, hstride⟩ := i32_eq_ok.1 hstride
  simp only [show (128 : Int).tdiv 4 = 32 from rfl, Int.toNat_natCast] at h hstride
  have hpos := blocksPerRow_pos hcols
  unfold tableSize
  generalize blocksPerRow cols = nb at *
  have hend : rows * nb = 0 ∨ ((rows * nb * 36 : Nat) : Int) ≤ toInt32 data.length := by
    refine foldlM_range_partial (I := fun row (_ : List BlockTerm) =>
      row * nb = 0 ∨ ((row * nb * 36 : Nat) : Int) ≤ toInt32 data.length)
      (.inl (Nat.zero_mul nb)) ?_ h
    intro row _ acc acc' hacc hrow
    rw [Nat.succ_mul]
    refine foldlM_range_partial (I := fun b (_ : List BlockTerm) =>
      row * nb + b = 0 ∨ (((row * nb + b) * 36 : Nat) : Int) ≤ toInt32 data.length) hacc ?_ hrow
    intro b _ acc acc' _ hb
    obtain ⟨rowIdx, -, hb⟩ := bind_eq_ok.1 hb
    obtain ⟨blockIdx, -, hb⟩ := bind_eq_ok.1 hb
    obtain ⟨rowOff, hrowOff, hb⟩ := bind_eq_ok.1 hb
    obtain ⟨blockOff, hblockOff, hb⟩ := bind_eq_ok.1 hb
    obtain ⟨offset, hoffset, hb⟩ := bind_eq_ok.1 hb
    obtain ⟨codesEnd, hcodesEnd, hb⟩ := bind_eq_ok.1 hb
    obtain ⟨blockEnd, hblockEnd, hb⟩ := bind_eq_ok.1 hb
    split at hb
    · cases hb
    rename_i hinside
    obtain ⟨rfl, -⟩ := i32_eq_ok.1 hrowOff
    obtain ⟨rfl, -⟩ := i32_eq_ok.1 hblockOff
    obtain ⟨rfl, -⟩ := i32_eq_ok.1 hoffset
    obtain ⟨rfl, -⟩ := i32_eq_ok.1 hcodesEnd
    obtain ⟨rfl, -⟩ := i32_eq_ok.1 hblockEnd
    refine .inr ((le_of_eq ?_).trans (not_lt.1 hinside))
    push_cast
    ring
  have htotal : 0 < rows * nb := Nat.mul_pos hrows hpos
  have hle' := hend.resolve_left (by omega)
  have hmax := (toInt32_range data.length).2
  have hlt : data.length < 2147483648 := (toInt32_nonneg_iff hdata).1 (by omega)
  rw [toInt32_of_lt hlt] at hle'
  exact ⟨hle, by exact_mod_cast hstride, by omega, hlt, by omega⟩

/-- What becomes of a table that was decoded, from a payload that is no longer than its own: it is
decoded where the payload holds it. -/
theorem parseBlockTerms_shorter {data : Bytes} {outF inF : Int} {blocks : List BlockTerm}
    (hdata : data.length < 4294967296) (h : parseBlockTerms data outF inF 128 = .ok blocks)
    (data' : Bytes) (hle : data'.length ≤ data.length) :
    (data'.length < tableSize outF.toNat inF.toNat →
      parseBlockTerms data' outF inF 128 = raise "ALS block data truncated in model file") ∧
    (tableSize outF.toNat inF.toNat ≤ data'.length →
      ∃ blocks', parseBlockTerms data' outF inF 128 = .ok blocks') := by
  by_cases hpos : 0 < outF ∧ 0 < inF
  · obtain ⟨rows, rfl⟩ := Int.eq_ofNat_of_zero_le hpos.1.le
    obtain ⟨cols, rfl⟩ := Int.eq_ofNat_of_zero_le hpos.2.le
    obtain ⟨hcols, hstride, hfit, hlt, -⟩ :=
      parseBlockTerms_fits (by omega) (by omega) hdata h
    rw [parseBlockTerms_eq hcols hstride hfit (by omega), Int.toNat_natCast, Int.toNat_natCast]
    exact ⟨fun hshort => if_pos hshort, fun hlong => ⟨_, if_neg (not_lt.2 hlong)⟩⟩
  · have hempty : outF ≤ 0 ∨ inF ≤ 0 := by omega
    have hzero : tableSize outF.toNat inF.toNat = 0 := by
      rcases hempty with hempty | hempty
      · rw [tableSize, Int.toNat_of_nonpos hempty, Nat.zero_mul, Nat.zero_mul]
      · rw [tableSize, Int.toNat_of_nonpos hempty]
        rfl
    rw [hzero, parseBlockTerms_empty hempty data' data]
    exact ⟨fun hshort => absurd hshort (Nat.not_lt_zero _), fun _ => ⟨blocks, h⟩⟩

/-! ## The contiguous cache -/

/-- The cache entries of one term: its flat buffers and the row pointers into them. -/
structure TermCache where
  contigData : Bytes
  contigScales : List F32
  blockData : List RowPtr
  blockScales : List RowPtr
  deriving DecidableEq, Repr

/-- The body of the term loop of `build_block_contig_cache` for a term of the right size. The one
loop of the source that copies codes and scales is written as two, one for each buffer. -/
def contigTerm (outF nBlocks codesPerBlock t : Nat) (blocks : List BlockTerm) :
    Exec TermCache := do
  let contigData ← (List.range outF).foldlM (fun tcd row =>
    (List.range nBlocks).foldlM (fun tcd b => do
      let block ← load blocks (row * nBlocks + b)
      let codes ← slice block.packed 0 codesPerBlock
      writeAt tcd (row * (nBlocks * codesPerBlock) + b * codesPerBlock) codes) tcd)
    (List.replicate (outF * (nBlocks * codesPerBlock)) 0)
  let contigScales ← (List.range outF).foldlM (fun tcs row =>
    (List.range nBlocks).foldlM (fun tcs b => do
      let block ← load blocks (row * nBlocks + b)
      writeAt tcs (row * nBlocks + b) [block.scale]) tcs)
    (List.replicate (outF * nBlocks) 0)
  return {
    contigData, contigScales
    blockData := (List.range outF).map fun row => ⟨t, row * (nBlocks * codesPerBlock)⟩
    blockScales := (List.range outF).map fun row => ⟨t, row * nBlocks⟩ }

/-- The cache entries of a full table of blocks: the codes and the scales in table order, and the
row pointers into them. -/
def tableCache (rows nb t : Nat) (blocks : List BlockTerm) : TermCache where
  contigData := blocks.flatMap BlockTerm.packed
  contigScales := blocks.map BlockTerm.scale
  blockData := (List.range rows).map fun row => ⟨t, row * (nb * 32)⟩
  blockScales := (List.range rows).map fun row => ⟨t, row * nb⟩

/-- The term loop on a full table. -/
theorem contigTerm_ok {blocks : List BlockTerm} {rows nb : Nat} (hlen : blocks.length = rows * nb)
    (hpacked : ∀ x ∈ blocks, x.packed.length = 32) (t : Nat) :
    contigTerm rows nb 32 t blocks = .ok (tableCache rows nb t blocks) := by
  have hidx : ∀ {row b}, row < rows → b < nb → row * nb + b < blocks.length := by
    intro row b hrow hb
    have : (row + 1) * nb ≤ rows * nb := Nat.mul_le_mul_right nb hrow
    rw [Nat.succ_mul] at this
    omega
  have hload : ∀ {row b}, row < rows → b < nb →
      load blocks (row * nb + b) = .ok (blocks.getD (row * nb + b) default) := by
    intro row b hrow hb
    exact load_eq (by rw [List.getD_eq_getElem _ _ (hidx hrow hb)]; exact List.getElem?_eq_getElem _)
  have hpk : ∀ {row b}, row < rows → b < nb →
      (blocks.getD (row * nb + b) default).packed.length = 32 := by
    intro row b hrow hb
    rw [List.getD_eq_getElem _ _ (hidx hrow hb)]
    exact hpacked _ (List.getElem_mem _)
  have hdata : Fills (fun tcd => (List.range rows).foldlM (fun tcd row =>
      (List.range nb).foldlM (fun tcd b => do
        let block ← load blocks (row * nb + b)
        let codes ← slice block.packed 0 32
        writeAt tcd (row * (nb * 32) + b * 32) codes) tcd) tcd) 0
      ((List.range rows).flatMap fun row => (List.range nb).flatMap fun b =>
        (blocks.getD (row * nb + b) default).packed) := by
    refine Fills.foldlM₂ (s := 32) (fun row hrow b hb => hpk hrow hb) ?_
    intro row hrow b hb
    have hcodes : slice (blocks.getD (row * nb + b) default).packed 0 32 =
        .ok (blocks.getD (row * nb + b) default).packed := by
      conv_lhs => rw [← hpk hrow hb]
      exact slice_all _
    simp only [hload hrow hb, ok_bind, hcodes]
    exact fills_writeAt _ _
  have hscales : Fills (fun tcs => (List.range rows).foldlM (fun tcs row =>
      (List.range nb).foldlM (fun tcs b => do
        let block ← load blocks (row * nb + b)
        writeAt tcs (row * nb + b) [block.scale]) tcs) tcs) 0
      ((List.range rows).flatMap fun row => (List.range nb).flatMap fun b =>
        [(blocks.getD (row * nb + b) default).scale]) := by
    refine Fills.foldlM₂ (s := 1) (fun _ _ _ _ => rfl) ?_
    intro row hrow b hb
    simp only [hload hrow hb, ok_bind, Nat.mul_one]
    exact fills_writeAt _ _
  have hdataEq : ((List.range rows).flatMap fun row => (List.range nb).flatMap fun b =>
      (blocks.getD (row * nb + b) default).packed) = blocks.flatMap BlockTerm.packed := by
    conv_rhs => rw [← map_getD_range blocks default, hlen, ← flatMap_range_map]
    rw [List.flatMap_assoc]
    simp only [List.flatMap_map]
  have hscalesEq : ((List.range rows).flatMap fun row => (List.range nb).flatMap fun b =>
      [(blocks.getD (row * nb + b) default).scale]) = blocks.map BlockTerm.scale := by
    conv_rhs => rw [← map_getD_range blocks default, hlen, ← flatMap_range_map]
    rw [List.map_flatMap]
    simp only [← List.map_eq_flatMap, List.map_map, Function.comp_def]
  rw [hdataEq] at hdata
  rw [hscalesEq] at hscales
  have hsize : (blocks.flatMap BlockTerm.packed).length = rows * (nb * 32) := by
    rw [List.length_flatMap, List.map_congr_left (g := fun _ => 32) hpacked]
    simp [hlen, Nat.mul_assoc]
  rw [contigTerm, hdata.run (by simp [hsize]), ok_bind, hscales.run (by simp [hlen]), ok_bind]
  rfl

/-- The loops of the term loop return where every block has the codes they copy. -/
theorem contigTerm_returns_iff {blocks : List BlockTerm} {rows nb codes t : Nat}
    (hlen : blocks.length = rows * nb) :
    (∃ cache, contigTerm rows nb codes t blocks = .ok cache) ↔
      ∀ block ∈ blocks, codes ≤ block.packed.length := by
  have hload : ∀ row < rows, ∀ b < nb,
      load blocks (row * nb + b) = .ok (blocks.getD (row * nb + b) default) :=
    fun row hrow b hb => load_getD (hlen ▸ place_lt hrow hb) default
  have hdata := @pieceLoops_iff _ (fun row b => do
      let block ← load blocks (row * nb + b)
      slice block.packed 0 codes) rows nb codes
    (List.replicate (rows * (nb * codes)) (0 : UInt8)) List.length_replicate
    fun row hrow b hb p hp => by
        rw [hload row hrow b hb, ok_bind] at hp
        exact slice_length hp
  have hscales := @pieceLoops_iff _ (fun row b => do
      let block ← load blocks (row * nb + b)
      .ok [block.scale]) rows nb 1
    (List.replicate (rows * nb) (0 : F32)) (by rw [List.length_replicate, Nat.mul_one])
    fun row hrow b hb p hp => by
        rw [hload row hrow b hb, ok_bind] at hp
        cases hp
        rfl
  simp only [bind_assoc, ok_bind, Nat.mul_one] at hdata hscales
  have hcopied : ∃ tcs, (List.range rows).foldlM (fun tcs row =>
      (List.range nb).foldlM (fun tcs b => do
        let block ← load blocks (row * nb + b)
        writeAt tcs (row * nb + b) [block.scale]) tcs)
      (List.replicate (rows * nb) (0 : F32)) = .ok tcs :=
    hscales.2 fun row hrow b hb => ⟨_, by rw [hload row hrow b hb, ok_bind]⟩
  obtain ⟨tcs, htcs⟩ := hcopied
  have hcopies : (∃ cache, contigTerm rows nb codes t blocks = .ok cache) ↔
      ∀ row < rows, ∀ b < nb, codes ≤ (blocks.getD (row * nb + b) default).packed.length := by
    have hiff : ∀ row < rows, ∀ b < nb, (∃ p, (do
          let block ← load blocks (row * nb + b)
          slice block.packed 0 codes) = .ok p) ↔
        codes ≤ (blocks.getD (row * nb + b) default).packed.length := by
      intro row hrow b hb
      rw [hload row hrow b hb, ok_bind]
      constructor
      · rintro ⟨p, hp⟩
        have hin := (slice_eq_ok.1 hp).1
        omega
      · intro h
        exact ⟨_, slice_ok (by omega)⟩
    constructor
    · rintro ⟨cache, h⟩
      obtain ⟨tcd, htcd, -⟩ := bind_eq_ok.1 h
      exact fun row hrow b hb => (hiff row hrow b hb).1 (hdata.1 ⟨tcd, htcd⟩ row hrow b hb)
    · intro h
      obtain ⟨tcd, htcd⟩ := hdata.2 fun row hrow b hb => (hiff row hrow b hb).2 (h row hrow b hb)
      rw [contigTerm, htcd, ok_bind, htcs, ok_bind]
      exact ⟨_, rfl⟩
  rw [hcopies]
  constructor
  · intro h block hblock
    obtain ⟨i, hi, rfl⟩ := List.mem_iff_getElem.1 hblock
    have hnb : 0 < nb := Nat.pos_of_ne_zero fun hzero => by
      rw [hlen, hzero, Nat.mul_zero] at hi
      exact Nat.not_lt_zero i hi
    have hrow : i / nb < rows := (Nat.div_lt_iff_lt_mul hnb).2 (hlen ▸ hi)
    have hplace := h (i / nb) hrow (i % nb) (Nat.mod_lt i hnb)
    rwa [Nat.div_add_mod', List.getD_eq_getElem _ _ hi] at hplace
  · intro h row hrow b hb
    have hi : row * nb + b < blocks.length := hlen ▸ place_lt hrow hb
    rw [List.getD_eq_getElem _ _ hi]
    exact h _ (List.getElem_mem hi)

/-- The cache entries a term already has. -/
def LayerData.termCache (ld : LayerData) (t : Nat) : TermCache where
  contigData := ld.termContigData.getD t []
  contigScales := ld.termContigScales.getD t []
  blockData := ld.termBlockData.getD t []
  blockScales := ld.termBlockScales.getD t []

/-- The layer with these cache entries, one for each term, marked as built. -/
def LayerData.withCache (ld : LayerData) (cache : List TermCache) : LayerData :=
  { ld with
    termContigData := cache.map TermCache.contigData
    termContigScales := cache.map TermCache.contigScales
    termBlockData := cache.map TermCache.blockData
    termBlockScales := cache.map TermCache.blockScales
    termCacheBuilt := true }

/-- The sizes of the buffers of a term, as `assign` and `resize` check them. -/
def sizeTerm (outF nBlocks codesPerBlock : Int) : Exec Unit := do
  vectorAlloc (sizeT (outF * nBlocks * codesPerBlock)) 1
  vectorAlloc (sizeT (outF * nBlocks)) 4
  if outF < 0 then raise "vector::_M_default_append"
  else return ()

/-- The sizes of a table that a vector holds. -/
theorem sizeTerm_ok {rows nb : Nat} (h : rows * nb ≤ 288230376151711743) :
    sizeTerm rows nb 32 = .ok () := by
  have hcodes : sizeT ((rows : Int) * nb * 32) = rows * nb * 32 := by
    rw [sizeT_of_nonneg (by positivity) (by exact_mod_cast (by omega))]
    exact_mod_cast Int.toNat_natCast _
  have hscales : sizeT ((rows : Int) * nb) = rows * nb := by
    rw [sizeT_of_nonneg (by positivity) (by exact_mod_cast (by omega))]
    exact_mod_cast Int.toNat_natCast _
  rw [sizeTerm, hcodes, hscales, vectorAlloc_ok (by rw [vectorMaxSize]; omega), ok_bind,
    vectorAlloc_ok (by rw [vectorMaxSize]; omega), ok_bind, if_neg (by omega)]
  rfl

/-- The term loop of `build_block_contig_cache`. -/
def contigTerms (ld : LayerData) (nBlocks : Int) : Exec (List TermCache) :=
  let codesPerBlock := ld.blockQk.tdiv 4
  ld.blockTerms.zipIdx.mapM fun (blocks, t) =>
    -- a malformed term is skipped: it keeps the entries `resize` left it
    if blocks.length ≠ sizeT (ld.outFeatures * nBlocks) then .ok (ld.termCache t)
    else do
      sizeTerm ld.outFeatures nBlocks codesPerBlock
      contigTerm ld.outFeatures.toNat nBlocks.toNat codesPerBlock.toNat t blocks

/-- `build_block_contig_cache`. -/
def buildBlockContigCache (ld : LayerData) : Exec LayerData :=
  if !ld.hasBlocks || ld.blockTerms.isEmpty || ld.inFeatures ≤ 0 then
    .ok { ld with termCacheBuilt := false }
  else do
    let nBlocks ← ceilBlocks ld.inFeatures ld.blockQk
    let cache ← contigTerms ld nBlocks
    return ld.withCache cache

/-- The cache leaves the name of a layer alone. -/
theorem buildBlockContigCache_header {ld ld' : LayerData}
    (h : buildBlockContigCache ld = .ok ld') : ld'.header = ld.header := by
  unfold buildBlockContigCache at h
  split at h
  · cases h
    rfl
  · obtain ⟨nb, -, h⟩ := bind_eq_ok.1 h
    obtain ⟨cache, -, h⟩ := bind_eq_ok.1 h
    cases h
    rfl

/-- A full table of blocks for a layer of `rows` rows and `cols` columns. -/
structure TermShape (rows cols : Nat) (blocks : List BlockTerm) : Prop where
  length_eq : blocks.length = rows * blocksPerRow cols
  packed_length : ∀ x ∈ blocks, x.packed.length = 32

theorem TermShape.idx_lt {rows cols : Nat} {blocks : List BlockTerm}
    (h : TermShape rows cols blocks) {row b : Nat} (hrow : row < rows)
    (hb : b < blocksPerRow cols) : row * blocksPerRow cols + b < blocks.length := by
  have : (row + 1) * blocksPerRow cols ≤ rows * blocksPerRow cols := Nat.mul_le_mul_right _ hrow
  rw [Nat.succ_mul] at this
  rw [h.length_eq]
  omega

/-- The codes of a full table, in order. -/
theorem TermShape.length_codes {rows cols : Nat} {blocks : List BlockTerm}
    (h : TermShape rows cols blocks) :
    (blocks.flatMap BlockTerm.packed).length = rows * blocksPerRow cols * 32 := by
  rw [List.length_flatMap, List.map_congr_left (g := fun _ => 32) h.packed_length]
  simp [h.length_eq]

/-- The cache of full tables: each term's flat buffers, with row pointers into that term. -/
def termCaches (rows nb : Nat) (terms : List (List BlockTerm)) : List TermCache :=
  terms.zipIdx.map fun (blocks, t) => tableCache rows nb t blocks

theorem getElem?_termCaches (rows nb : Nat) (terms : List (List BlockTerm)) (t : Nat) :
    (termCaches rows nb terms)[t]? = terms[t]?.map (tableCache rows nb t) := by
  rw [termCaches, List.getElem?_map, List.getElem?_zipIdx]
  cases terms[t]? <;> simp

@[simp] theorem termCaches_length (rows nb : Nat) (terms : List (List BlockTerm)) :
    (termCaches rows nb terms).length = terms.length := by
  simp [termCaches]

/-- The cache built for well-shaped terms. -/
theorem buildBlockContigCache_ok (ld : LayerData) {rows cols : Nat} (hblocks : ld.hasBlocks)
    (hqk : ld.blockQk = 128) (hout : ld.outFeatures = rows) (hin : ld.inFeatures = cols)
    (hcols : 0 < cols) (hcols' : cols ≤ 2147483519) (hne : ld.blockTerms ≠ [])
    (hterms : ∀ blocks ∈ ld.blockTerms, TermShape rows cols blocks)
    (hfit : rows * blocksPerRow cols ≤ 288230376151711743) :
    buildBlockContigCache ld =
      .ok (ld.withCache (termCaches rows (blocksPerRow cols) ld.blockTerms)) := by
  have hguard : (!ld.hasBlocks || ld.blockTerms.isEmpty || decide (ld.inFeatures ≤ 0)) = false := by
    have hpos : ¬ ld.inFeatures ≤ 0 := by omega
    simp [hblocks, hne, hpos]
  have hscales : sizeT ((rows : Int) * blocksPerRow cols) = rows * blocksPerRow cols := by
    rw [← Int.natCast_mul, sizeT_of_nonneg (by omega) (by exact_mod_cast (by omega)),
      Int.toNat_natCast]
  have hcodes : (128 : Int).tdiv 4 = 32 := rfl
  have hcache : contigTerms ld (blocksPerRow cols) =
      .ok (termCaches rows (blocksPerRow cols) ld.blockTerms) := by
    refine mapM_ok ?_
    rintro ⟨blocks, t⟩ hmem
    have hshape := hterms blocks (List.fst_mem_of_mem_zipIdx hmem)
    simp only [hout, hqk, hscales, hshape.length_eq, ne_eq, not_true_eq_false, if_false, hcodes,
      sizeTerm_ok hfit, ok_bind]
    exact contigTerm_ok hshape.length_eq hshape.packed_length t
  rw [buildBlockContigCache, hguard, if_neg (by decide), hin, hqk, ceilBlocks_ok hcols', ok_bind,
    hcache, ok_bind]
  rfl

/-! ## Cached layers -/

/-- A layer with block tables of the shape of its dimensions and the cache of these tables. -/
structure LayerData.BlockLayer (ld : LayerData) (rows cols : Nat) : Prop where
  hasBlocks : ld.hasBlocks = true
  blockQk : ld.blockQk = 128
  outFeatures : ld.outFeatures = rows
  inFeatures : ld.inFeatures = cols
  terms_pos : 0 < ld.blockTerms.length
  terms_le : ld.blockTerms.length ≤ 32
  shape : ∀ blocks ∈ ld.blockTerms, TermShape rows cols blocks
  built : ld.termCacheBuilt = true
  cache : ld = ld.withCache (termCaches rows (blocksPerRow cols) ld.blockTerms)

theorem LayerData.BlockLayer.shapeAt {ld : LayerData} {rows cols : Nat}
    (h : ld.BlockLayer rows cols) {t : Nat}
    (ht : t < ld.blockTerms.length) : TermShape rows cols (ld.blockTerms.getD t []) := by
  rw [List.getD_eq_getElem _ _ ht]
  exact h.shape _ (List.getElem_mem ht)

/-- The cache entries of a term of a cached layer. -/
theorem LayerData.BlockLayer.cacheAt {ld : LayerData} {rows cols : Nat}
    (h : ld.BlockLayer rows cols) {t : Nat}
    (ht : t < ld.blockTerms.length) :
    let cache := tableCache rows (blocksPerRow cols) t (ld.blockTerms.getD t [])
    ld.termContigData[t]? = some cache.contigData ∧
      ld.termContigScales[t]? = some cache.contigScales ∧
      ld.termBlockData[t]? = some cache.blockData ∧
      ld.termBlockScales[t]? = some cache.blockScales := by
  have hterms : ld.blockTerms[t]? = some (ld.blockTerms.getD t []) := by
    rw [List.getD_eq_getElem _ _ ht]
    exact List.getElem?_eq_getElem ht
  have hcache := getElem?_termCaches rows (blocksPerRow cols) ld.blockTerms t
  rw [hterms, Option.map_some] at hcache
  generalize tableCache rows (blocksPerRow cols) t (ld.blockTerms.getD t []) = cache at hcache ⊢
  rw [h.cache]
  simp only [LayerData.withCache, List.getElem?_map, hcache, Option.map_some, and_self]

/-- The row pointers of a cached layer, term by term. -/
theorem LayerData.BlockLayer.mem_blockData {ld : LayerData} {rows cols : Nat}
    (h : ld.BlockLayer rows cols) {ps : List RowPtr} (hps : ps ∈ ld.termBlockData) :
    ∃ t < ld.blockTerms.length,
      ps = (List.range rows).map fun row => ⟨t, row * (blocksPerRow cols * 32)⟩ := by
  obtain ⟨t, ht⟩ := List.mem_iff_getElem?.1 hps
  have hlen : ld.termBlockData.length = ld.blockTerms.length := by
    rw [h.cache]
    simp [LayerData.withCache]
  have htlt : t < ld.blockTerms.length := hlen ▸ (List.getElem?_eq_some_iff.1 ht).1
  obtain ⟨-, -, hdata, -⟩ := h.cacheAt htlt
  exact ⟨t, htlt, Option.some.inj (ht.symm.trans hdata)⟩

theorem LayerData.BlockLayer.mem_blockScales {ld : LayerData} {rows cols : Nat}
    (h : ld.BlockLayer rows cols) {ps : List RowPtr} (hps : ps ∈ ld.termBlockScales) :
    ∃ t < ld.blockTerms.length,
      ps = (List.range rows).map fun row => ⟨t, row * blocksPerRow cols⟩ := by
  obtain ⟨t, ht⟩ := List.mem_iff_getElem?.1 hps
  have hlen : ld.termBlockScales.length = ld.blockTerms.length := by
    rw [h.cache]
    simp [LayerData.withCache]
  have htlt : t < ld.blockTerms.length := hlen ▸ (List.getElem?_eq_some_iff.1 ht).1
  obtain ⟨-, -, -, hscales⟩ := h.cacheAt htlt
  exact ⟨t, htlt, Option.some.inj (ht.symm.trans hscales)⟩

/-- A layer as a loader returns it: if its cache is marked as built, it is a cached block layer. -/
def LayerData.Loaded (ld : LayerData) : Prop :=
  ld.termCacheBuilt = true →
    ∃ rows cols : Nat, ld.BlockLayer rows cols ∧ 0 < cols ∧ cols ≤ 2147483519

/-- Tables of the shape of the layer, where the layer has columns. -/
def LayerData.Tables (ld : LayerData) : Prop :=
  0 < ld.inFeatures → (ld.blockTerms ≠ [] ∧ ld.blockTerms.length ≤ 32) ∧
    0 ≤ ld.outFeatures ∧ ld.inFeatures ≤ 2147483519 ∧
    (∀ blocks ∈ ld.blockTerms, TermShape ld.outFeatures.toNat ld.inFeatures.toNat blocks) ∧
    ld.outFeatures.toNat * blocksPerRow ld.inFeatures.toNat ≤ 288230376151711743

/-- `build_block_contig_cache` returns on well-shaped tables, and makes the layer a loaded one. -/
theorem buildBlockContigCache_loaded {ld : LayerData} (hblocks : ld.hasBlocks)
    (hqk : ld.blockQk = 128) (hshape : ld.Tables) :
    ∃ ld', buildBlockContigCache ld = .ok ld' ∧ ld'.Loaded := by
  rcases lt_or_ge 0 ld.inFeatures with hin | hin
  · obtain ⟨⟨hne, hterms⟩, hout, hcols, hshapes, hfit⟩ := hshape hin
    have hrows : ld.outFeatures = (ld.outFeatures.toNat : Nat) := (Int.toNat_of_nonneg hout).symm
    have hcolsEq : ld.inFeatures = (ld.inFeatures.toNat : Nat) :=
      (Int.toNat_of_nonneg hin.le).symm
    have hcols : ld.inFeatures.toNat ≤ 2147483519 := by omega
    have hpos : 0 < ld.inFeatures.toNat := by omega
    refine ⟨_, buildBlockContigCache_ok ld hblocks hqk hrows hcolsEq hpos hcols hne hshapes hfit,
      fun _ => ⟨ld.outFeatures.toNat, ld.inFeatures.toNat, ?_, hpos, hcols⟩⟩
    exact ⟨hblocks, hqk, hrows, hcolsEq, List.length_pos_iff.2 hne, hterms, hshapes, rfl, rfl⟩
  · have hskip : (!ld.hasBlocks || ld.blockTerms.isEmpty || decide (ld.inFeatures ≤ 0)) = true := by
      rw [decide_eq_true hin, Bool.or_true]
    exact ⟨_, if_pos hskip, nofun⟩

/-! ## Tables that were decoded -/

/-- The first `k` blocks of a table of `n` have their codes. -/
structure DecodedTo (n : Nat) (blocks : List BlockTerm) (k : Nat) : Prop where
  length_eq : blocks.length = n
  packed_length : ∀ i < k, (blocks.getD i default).packed.length = 32

/-- One pass of the loops decodes the next block. -/
theorem DecodedTo.step {data : Bytes} {rowStride : Int} {blocks blocks' : List BlockTerm}
    {n nb row b : Nat} (h : DecodedTo n blocks (row * nb + b))
    (hrun : parseBlock data nb 32 rowStride blocks row b = .ok blocks') :
    DecodedTo n blocks' (row * nb + (b + 1)) := by
  obtain ⟨rowIdx, hrowIdx, hrun⟩ := bind_eq_ok.1 hrun
  obtain ⟨blockIdx, hblockIdx, hrun⟩ := bind_eq_ok.1 hrun
  obtain ⟨rowOff, -, hrun⟩ := bind_eq_ok.1 hrun
  obtain ⟨blockOff, -, hrun⟩ := bind_eq_ok.1 hrun
  obtain ⟨offset, -, hrun⟩ := bind_eq_ok.1 hrun
  obtain ⟨codesEnd, -, hrun⟩ := bind_eq_ok.1 hrun
  obtain ⟨blockEnd, -, hrun⟩ := bind_eq_ok.1 hrun
  split at hrun
  · cases hrun
  obtain ⟨packed, hpacked, hrun⟩ := bind_eq_ok.1 hrun
  obtain ⟨scale, -, hrun⟩ := bind_eq_ok.1 hrun
  obtain ⟨rfl, -⟩ := i32_eq_ok.1 hrowIdx
  obtain ⟨rfl, -, hmax⟩ := i32_eq_ok.1 hblockIdx
  have hcast : (row : Int) * nb + b = (row * nb + b : Nat) := by push_cast; ring
  rw [hcast] at hrun hmax
  rw [sizeT_of_nonneg (by omega) (by omega), Int.toNat_natCast] at hrun
  obtain ⟨hlt, rfl⟩ := writeAt_singleton_eq_ok hrun
  obtain ⟨hinside, rfl⟩ := slice_eq_ok.1 hpacked
  refine ⟨by rw [List.length_set, h.length_eq], fun i hi => ?_⟩
  have hi : i < row * nb + b ∨ i = row * nb + b := by omega
  rcases hi with hi | rfl
  · have hne : row * nb + b ≠ i := ne_of_gt hi
    rw [List.getD_eq_getElem?_getD, List.getElem?_set_ne hne, ← List.getD_eq_getElem?_getD]
    exact h.packed_length i hi
  · rw [List.getD_eq_getElem?_getD, List.getElem?_set_self hlt, Option.getD_some,
      List.length_take, List.length_drop]
    rw [show (32 : Int).toNat = 32 from rfl] at hinside
    exact min_eq_left (by omega)

/-- A table that was decoded for a layer with columns is full, and the rows are not negative. -/
theorem parseBlockTerms_shape {data : Bytes} {outF inF : Int} {blocks : List BlockTerm}
    (hout : -2147483648 ≤ outF ∧ outF ≤ 2147483647) (hin : 0 < inF)
    (h : parseBlockTerms data outF inF 128 = .ok blocks) :
    0 ≤ outF ∧ inF ≤ 2147483519 ∧ TermShape outF.toNat inF.toNat blocks ∧
      outF.toNat * blocksPerRow inF.toNat ≤ 288230376151711743 := by
  obtain ⟨nb, hnb, h⟩ := bind_eq_ok.1 h
  have hcols := ceilBlocks_128_le hnb
  obtain ⟨cols, rfl⟩ := Int.eq_ofNat_of_zero_le hin.le
  rw [ceilBlocks_ok (by exact_mod_cast hcols)] at hnb
  cases hnb
  obtain ⟨_, halloc, h⟩ := bind_eq_ok.1 h
  have halloc := le_of_vectorAlloc halloc
  obtain ⟨rowStride, -, h⟩ := bind_eq_ok.1 h
  have hcast : (128 : Int).tdiv 4 = 32 := rfl
  simp only [hcast, Int.toNat_natCast] at halloc h
  have hcols' : cols ≤ 2147483519 := by exact_mod_cast hcols
  have hpos := blocksPerRow_pos (show 0 < cols by omega)
  have hle : blocksPerRow cols ≤ 16777216 := by unfold blocksPerRow; omega
  have hrows : 0 ≤ outF := by
    -- a negative product wraps to a size no vector has
    by_contra hneg
    have hlow : outF * blocksPerRow cols ≥ -2147483648 * 16777216 :=
      (Int.mul_le_mul_of_nonneg_right hout.1 (Int.natCast_nonneg _)).trans' (by omega)
    have hhigh : outF * blocksPerRow cols < 0 :=
      mul_neg_of_neg_of_pos (by omega) (by exact_mod_cast hpos)
    rw [sizeT, vectorMaxSize, sizeofBlockTerm] at halloc
    omega
  obtain ⟨rows, rfl⟩ := Int.eq_ofNat_of_zero_le hrows
  have hmul : rows * blocksPerRow cols ≤ 2147483647 * 16777216 := Nat.mul_le_mul (by omega) hle
  have hsize : sizeT ((rows : Int) * blocksPerRow cols) = rows * blocksPerRow cols := by
    rw [← Int.natCast_mul, sizeT_of_nonneg (by omega) (by omega), Int.toNat_natCast]
  rw [Int.toNat_natCast, hsize] at h
  have hend : DecodedTo (rows * blocksPerRow cols) blocks (rows * blocksPerRow cols) := by
    refine foldlM_range_partial (I := fun row acc =>
      DecodedTo (rows * blocksPerRow cols) acc (row * blocksPerRow cols)) ?_ ?_ h
    · refine ⟨List.length_replicate, fun i hi => ?_⟩
      rw [Nat.zero_mul] at hi
      exact absurd hi (Nat.not_lt_zero i)
    · intro row _ acc acc' hacc hrow
      rw [Nat.succ_mul]
      exact foldlM_range_partial
        (I := fun b acc => DecodedTo (rows * blocksPerRow cols) acc (row * blocksPerRow cols + b))
        hacc (fun b _ acc acc' hacc hb => hacc.step hb) hrow
  refine ⟨hrows, hcols, ⟨hend.length_eq, fun x hx => ?_⟩, ?_⟩
  · obtain ⟨i, hi, rfl⟩ := List.getElem_of_mem hx
    rw [← List.getD_eq_getElem _ default hi]
    exact hend.packed_length i (hend.length_eq ▸ hi)
  · rw [Int.toNat_natCast, Int.toNat_natCast]
    omega

end Terllama
