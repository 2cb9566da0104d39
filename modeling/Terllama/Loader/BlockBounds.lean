import Terllama.Base.Guard
import Terllama.Loader.Payload

/-!
# Reads of a block payload

`parse_block_terms` adds the size of a block to the offset of a block in `int`, and compares the sum
with the length of the payload. As long as the comparison passes, the offsets grow by 36 and stay
below that length; so no offset overflows, and the sum overflows at one block only, number 59652323,
whose end would be 20 bytes above the largest `int`. `blockReads_iff` gives the payloads that get
there: those of at least 2147483628 bytes whose length is still an `int`, for more blocks than that.

A length of `2 ^ 31` and more is negative as an `int`, and the first comparison fails.
-/

namespace Terllama

/-- The number of blocks that lie below the largest `int`: the next one starts below it and ends
above. -/
def lastBlock : Nat := 59652323

/-- The blocks whose ends are not `int`s: the table has them, and the payload reaches to the first. -/
def GuardOverflows (outF inF : Int) (len : Nat) : Prop :=
  lastBlock < outF.toNat * blocksPerRow inF.toNat ∧ lastBlock * 36 ≤ len ∧ len < 2147483648

theorem toInt32_le_of_lt {n : Nat} (h : n < 4294967296) : toInt32 n ≤ n := by
  unfold toInt32
  rw [Nat.mod_eq_of_lt h]
  split <;> omega

/-- A pass of the loops that comes behind passes that read blocks: its offset is an `int`. -/
theorem parseBlock_offset {data : Bytes} {rows nb row b : Nat} (hdata : data.length < 4294967296)
    (hrow : row < rows) (hb : b < nb) {blocks : List BlockTerm} (hlen : blocks.length = rows * nb)
    (hread : ((row * nb + b) * 36 : Nat) ≤ max (toInt32 data.length) 0) :
    (row * nb + b < lastBlock →
      ((row * nb + b + 1) * 36 : Nat) ≤ toInt32 data.length ∧
        (∃ blocks', parseBlock data nb 32 (nb * 36 : Nat) blocks row b = .ok blocks' ∧
          blocks'.length = rows * nb) ∨
      toInt32 data.length < ((row * nb + b + 1) * 36 : Nat) ∧
        parseBlock data nb 32 (nb * 36 : Nat) blocks row b =
          raise "ALS block data truncated in model file") ∧
    (row * nb + b = lastBlock →
      parseBlock data nb 32 (nb * 36 : Nat) blocks row b = undefined "signed integer overflow") := by
  have hidx : row * nb + b < rows * nb := place_lt hrow hb
  have hrowOff : (row : Int) * (nb * 36 : Nat) = ((row * nb) * 36 : Nat) := by push_cast; ring
  have hrowIdx : (row : Int) * nb = (row * nb : Nat) := by push_cast; ring
  have hmax := (toInt32_range data.length).2
  have hle := toInt32_le_of_lt hdata
  unfold lastBlock
  generalize hi : row * nb = i at *
  have hoff : ((i * 36 : Nat) : Int) + b * (32 + 4) = ((i + b) * 36 : Nat) := by push_cast; ring
  have hend : ((i + b) * 36 : Nat) + (32 : Int) = ((i + b) * 36 + 32 : Nat) := by push_cast; ring
  have hprefix : (i + b) * 36 ≤ 2147483647 := by omega
  rw [parseBlock, hrowIdx, hrowOff, i32_ok (by omega) (by omega), ok_bind,
    i32_ok (by omega) (by omega), ok_bind, i32_ok (by omega) (by omega), ok_bind,
    i32_ok (by omega) (by omega), ok_bind, hoff, i32_ok (by omega) (by omega), ok_bind, hend]
  constructor
  · intro hbelow
    rw [i32_ok (by omega) (by omega), ok_bind, i32_ok (by omega) (by omega), ok_bind]
    by_cases hlt : toInt32 data.length < ((i + b + 1) * 36 : Nat)
    · exact .inr ⟨hlt, if_pos (by omega)⟩
    · refine .inl ⟨not_lt.1 hlt, ?_⟩
      rw [if_neg (by omega), sizeT_of_nonneg (by omega) (by omega),
        sizeT_of_nonneg (by omega) (by omega), sizeT_of_nonneg (by omega) (by omega)]
      simp only [Int.toNat_natCast]
      rw [show (32 : Int).toNat = 32 from rfl, slice_ok (by omega), ok_bind, slice_ok (by omega),
        ok_bind, ← hlen]
      refine writeAt_inside ?_
      rw [List.length_singleton, hlen]
      omega
  · intro hlast
    have hover : ¬ (-2147483648 ≤ (((i + b) * 36 + 32 : Nat) : Int) ∧
        (((i + b) * 36 + 32 : Nat) : Int) ≤ 2147483647) := by omega
    rw [i32, if_neg hover]
    rfl

/-- The loops over a table, where no pass comes to the block whose end overflows: they return or
throw. -/
theorem parseLoops_defined {data : Bytes} {rows nb : Nat} (hdata : data.length < 4294967296)
    (hgo : ¬ (lastBlock < rows * nb ∧ lastBlock * 36 ≤ data.length ∧ data.length < 2147483648)) :
    Defined ((List.range rows).foldlM (fun blocks row => (List.range nb).foldlM (fun blocks b =>
      parseBlock data nb 32 (nb * 36 : Nat) blocks row b) blocks)
      (List.replicate (rows * nb) (default : BlockTerm))) := by
  have hloops := @foldlM_range_outcome _ _
    (fun blocks row => (List.range nb).foldlM (fun blocks b =>
      parseBlock data nb 32 (nb * 36 : Nat) blocks row b) blocks)
    (fun row blocks => blocks.length = rows * nb ∧
      ((row * nb * 36 : Nat) : Int) ≤ max (toInt32 data.length) 0)
    rows (List.replicate (rows * nb) (default : BlockTerm))
    (.exception "ALS block data truncated in model file") ⟨List.length_replicate, by omega⟩ ?_
  · rcases hloops with ⟨blocks, h, -⟩ | h
    · rw [h]
      exact defined_ok blocks
    · rw [h]
      exact defined_raise _
  rintro row hrow blocks ⟨hlen, hread⟩
  rw [Nat.succ_mul]
  refine foldlM_range_outcome (I := fun b (blocks : List BlockTerm) => blocks.length = rows * nb ∧
    (((row * nb + b) * 36 : Nat) : Int) ≤ max (toInt32 data.length) 0) ⟨hlen, hread⟩ ?_
  rintro b hb blocks ⟨hlen, hread⟩
  have hidx : row * nb + b < rows * nb := place_lt hrow hb
  have hbelow : row * nb + b < lastBlock := by
    -- the passes before read blocks up to here, so the payload reaches as far
    by_contra hge
    have hle := toInt32_le_of_lt hdata
    have hmax := (toInt32_range data.length).2
    have hsign := toInt32_nonneg_iff hdata
    unfold lastBlock at *
    exact hgo ⟨by omega, by omega, by omega⟩
  rcases (parseBlock_offset hdata hrow hb hlen hread).1 hbelow with ⟨hnext, blocks', h, hlen'⟩ | h
  · exact .inl ⟨blocks', h, hlen', by rw [← Nat.add_assoc]; omega⟩
  · exact .inr h.2

/-- The loops over a table that has the block whose end overflows, on a payload that reaches to it. -/
theorem parseLoops_undefined {data : Bytes} {rows nb : Nat} (hblocks : lastBlock < rows * nb)
    (hreach : lastBlock * 36 ≤ data.length) (hdata : data.length < 2147483648) :
    (List.range rows).foldlM (fun blocks row => (List.range nb).foldlM (fun blocks b =>
      parseBlock data nb 32 (nb * 36 : Nat) blocks row b) blocks)
      (List.replicate (rows * nb) (default : BlockTerm)) = undefined "signed integer overflow" := by
  refine (foldlM_range_outcome (I := fun row (blocks : List BlockTerm) =>
    blocks.length = rows * nb ∧ row * nb ≤ lastBlock) (e := Fault.undefined _)
    ⟨List.length_replicate, by omega⟩ ?_).resolve_left ?_
  · rintro row hrow blocks ⟨hlen, hread⟩
    rw [Nat.succ_mul]
    refine foldlM_range_outcome (I := fun b (blocks : List BlockTerm) =>
      blocks.length = rows * nb ∧ row * nb + b ≤ lastBlock) ⟨hlen, hread⟩ ?_
    rintro b hb blocks ⟨hlen, hread⟩
    have hint := toInt32_of_lt hdata
    have hoffset : (((row * nb + b) * 36 : Nat) : Int) ≤ max (toInt32 data.length) 0 := by
      rw [hint]
      unfold lastBlock at *
      omega
    obtain ⟨hbelow, hlast⟩ := parseBlock_offset (by omega) hrow hb hlen hoffset
    rcases hread.lt_or_eq with hlt | heq
    · refine .inl ?_
      rcases hbelow hlt with ⟨-, blocks', h, hlen'⟩ | ⟨hshort, -⟩
      · exact ⟨blocks', h, hlen', hlt⟩
      · rw [hint] at hshort
        unfold lastBlock at *
        omega
    · exact .inr (hlast heq)
  · rintro ⟨blocks, -, -, hread⟩
    omega

/-- The number of blocks of a row, in `int`. -/
theorem ceilBlocks_128 {inF : Int} (hin : IsI32 inF) :
    (inF ≤ 2147483519 → ceilBlocks inF 128 = .ok ((inF + 127).tdiv 128)) ∧
      (2147483519 < inF → ceilBlocks inF 128 = undefined "signed integer overflow") := by
  obtain ⟨hlo, hhi⟩ := hin
  have hsum : inF + 128 - 1 = inF + 127 := by omega
  constructor
  · intro hle
    have habs : ((inF + 127).tdiv 128).natAbs = (inF + 127).natAbs / 128 := Int.natAbs_tdiv _ 128
    rw [ceilBlocks, i32_ok (by omega) (by omega), ok_bind, hsum, i32_ok (by omega) (by omega),
      ok_bind, divI32, if_neg (by decide), i32_ok (by omega) (by omega)]
  · intro hlt
    rw [ceilBlocks, i32, if_neg (by omega)]
    rfl

/-- `parse_block_terms` returns or throws where the number of blocks of a row is an `int` and no
comparison overflows. -/
theorem parseBlockTerms_defined_iff {outF inF : Int} (hout : IsI32 outF) (hin : IsI32 inF)
    {data : Bytes} (hdata : data.length < 4294967296) :
    Defined (parseBlockTerms data outF inF 128) ↔
      inF ≤ 2147483519 ∧ ¬ GuardOverflows outF inF data.length := by
  obtain ⟨hceil, hover⟩ := ceilBlocks_128 hin
  rcases Int.lt_or_le 2147483519 inF with hcols | hcols
  · rw [parseBlockTerms, hover hcols]
    exact ⟨fun h => absurd h (not_defined_undefined _), fun h => absurd h.1 hcols.not_ge⟩
  rw [and_iff_right hcols]
  by_cases hpos : 0 < outF ∧ 0 < inF
  · obtain ⟨rows, rfl⟩ := Int.eq_ofNat_of_zero_le hpos.1.le
    obtain ⟨cols, rfl⟩ := Int.eq_ofNat_of_zero_le hpos.2.le
    have hcols' : cols ≤ 2147483519 := by exact_mod_cast hcols
    have hrows : rows ≤ 2147483647 := by exact_mod_cast hout.2
    have hnb : blocksPerRow cols ≤ 16777216 := by
      unfold blocksPerRow
      omega
    have hmul : rows * blocksPerRow cols ≤ 2147483647 * 16777216 := Nat.mul_le_mul hrows hnb
    have hsize : ((rows : Int) * blocksPerRow cols : Int) = (rows * blocksPerRow cols : Nat) := by
      push_cast
      ring
    have hstride : (blocksPerRow cols : Int) * (32 + 4) = (blocksPerRow cols * 36 : Nat) := by
      push_cast
      ring
    rw [parseBlockTerms, ceilBlocks_ok hcols', ok_bind]
    simp only [show (128 : Int).tdiv 4 = 32 from rfl, hsize, hstride, Int.toNat_natCast]
    rw [sizeT_of_nonneg (by omega) (by omega), vectorAlloc_ok
      (by rw [vectorMaxSize, sizeofBlockTerm]; omega), ok_bind, i32_ok (by omega) (by omega),
      ok_bind, Int.toNat_natCast, GuardOverflows, Int.toNat_natCast, Int.toNat_natCast]
    constructor
    · rintro h ⟨hblocks, hreach, hlen⟩
      rw [parseLoops_undefined hblocks hreach hlen] at h
      exact not_defined_undefined _ h
    · exact parseLoops_defined hdata
  · have hnone : outF.toNat * blocksPerRow inF.toNat = 0 := by
      rcases not_and_or.1 hpos with hrows | hcols
      · rw [Int.toNat_of_nonpos (not_lt.1 hrows), Nat.zero_mul]
      · rw [Int.toNat_of_nonpos (not_lt.1 hcols)]
        rfl
    have hgo : ¬ GuardOverflows outF inF data.length := by
      rintro ⟨hblocks, -⟩
      rw [hnone] at hblocks
      exact Nat.not_lt_zero _ hblocks
    refine iff_of_true ?_ hgo
    have habs : ((inF + 127).tdiv 128).natAbs = (inF + 127).natAbs / 128 := Int.natAbs_tdiv _ 128
    obtain ⟨hlo, -⟩ := hin
    have hcodes : (128 : Int).tdiv 4 = 32 := rfl
    rw [defined_iff_ensures, parseBlockTerms, hceil hcols, ok_bind, ensures_bind,
      ensures_vectorAlloc]
    intro _
    rw [ensures_bind, ensures_i32, hcodes]
    refine ⟨⟨by omega, by omega⟩, ?_⟩
    have hloops : outF.toNat = 0 ∨ ((inF + 127).tdiv 128).toNat = 0 := by
      refine (not_and_or.1 hpos).imp (fun h => by omega) fun h => ?_
      rw [Int.tdiv_eq_ediv, show Int.sign 128 = 1 from rfl]
      split <;> omega
    rcases hloops with hzero | hzero
    · rw [hzero]
      trivial
    · rw [hzero, ← defined_iff_ensures]
      exact (foldlM_ok (g := fun blocks _ => blocks) _ _ fun _ _ _ => rfl) ▸ defined_ok _

/-! ## The walk over the terms of a container -/

/-- The term loop of `parse_layer_type_data` with any decoder of the terms' blocks. -/
def walkTerms (parse : Bytes → Exec (List BlockTerm)) (data : Bytes) :
    Nat → Nat → Exec (List (List BlockTerm))
  | 0, _ => .ok []
  | n + 1, pos => do
    if pos + 4 > data.length then
      raise "ALS multi-term: truncated term length in model file"
    else
      let tlen := leNat (← slice data pos 4)
      let pos := pos + 4
      if pos + tlen > data.length then
        raise "ALS multi-term: truncated term data in model file"
      else
        let blocks ← parse (← slice data pos tlen)
        let rest ← walkTerms parse data n (pos + tlen)
        return blocks :: rest

theorem parseTerms_eq_walkTerms (data : Bytes) (outF inF qk : Int) (n pos : Nat) :
    parseTerms data outF inF qk n pos =
      walkTerms (fun piece => parseBlockTerms piece outF inF qk) data n pos := by
  induction n generalizing pos with
  | zero => rfl
  | succ n ih => simp only [parseTerms, walkTerms, ih]

/-- The walk reads inside the payload and passes slices of it: with a decoder that is defined on
every slice, it is defined, for any number of terms and from any position on. -/
def WalkInside (data : Bytes) : Prop :=
  ∀ parse : Bytes → Exec (List BlockTerm), (∀ piece, Defined (parse piece)) →
    ∀ n pos, Defined (walkTerms parse data n pos)

/-- Both slices of a step are behind a test of their ends. -/
theorem walkInside (data : Bytes) : WalkInside data := by
  intro parse hparse n
  induction n with
  | zero => exact fun _ => defined_ok _
  | succ n ih =>
    intro pos
    rw [walkTerms]
    split
    · exact defined_raise _
    · rename_i hword
      rw [slice_ok (not_lt.1 hword), ok_bind]
      dsimp only
      split
      · exact defined_raise _
      · rename_i hslice
        rw [slice_ok (not_lt.1 hslice), ok_bind]
        exact (hparse _).bind fun blocks _ => (ih _).bind fun rest _ => defined_ok _

/-- A block payload is decoded without undefined behaviour exactly where its number of columns leaves
room for the rounding to whole blocks and no comparison overflows; the walk over the terms of a
container never leaves the payload. -/
theorem blockReads_iff {outF inF : Int} (hout : IsI32 outF) (hin : IsI32 inF) {data : Bytes}
    (hdata : data.length < 4294967296) :
    (Defined (parseBlockTerms data outF inF 128) ∧ WalkInside data) ↔
      inF ≤ 2147483519 ∧ ¬ GuardOverflows outF inF data.length := by
  rw [parseBlockTerms_defined_iff hout hin hdata, and_iff_left (walkInside data)]

theorem blockReads_oneBlock :
    Defined (parseBlockTerms (List.replicate 36 0) 1 100 128) ∧ WalkInside (List.replicate 36 0) := by
  refine (blockReads_iff (by decide) (by decide) (by decide)).2 ⟨by decide, ?_⟩
  rintro ⟨-, hreach, -⟩
  exact absurd hreach (by decide)

/-- The largest payload of whole blocks whose length is an `int`, for a layer with one more row. -/
theorem not_blockReads :
    ¬ Defined (parseBlockTerms (List.replicate 2147483628 0) 59652324 1 128) ∧
    ¬ Defined (parseBlockTerms [] 1 2147483647 128) := by
  constructor
  · rw [parseBlockTerms_defined_iff (by decide) (by decide)
      (by rw [List.length_replicate]; decide)]
    rintro ⟨-, hgo⟩
    refine hgo ⟨by decide, ?_, ?_⟩ <;> rw [List.length_replicate]
    · decide
    · decide
  · rw [parseBlockTerms_defined_iff (by decide) (by decide) (by decide)]
    exact fun h => absurd h.1 (by decide)

end Terllama
