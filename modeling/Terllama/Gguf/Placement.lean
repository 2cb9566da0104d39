import Terllama.Base.Dependence
import Terllama.Gguf.Section

/-!
# The placement of tensors

In a file that conforms to GGUF v3 the offset of a tensor counts from the data section, which starts
behind the tensor table at the next multiple of the alignment. Both decoders add the offset to the
start of the file. What they look at ends before the last byte of the tensor, so that they decode its
bytes only where it has none (`placed_iff`).
-/

namespace Terllama

/-! ## Files that conform -/

/-- The types that `extract_f32_tensor` decodes. -/
def ExtractKnows (ti : GGUFTensorInfo) : Prop :=
  ti.type = ggmlTypeF32 ∨ ti.type = ggmlTypeF16 ∨ ti.type = ggmlTypeQ20 ∨ ti.type = 42

/-- The matrices that `convert_q2_0_to_layer` decodes. -/
def ConvertKnows (ti : GGUFTensorInfo) : Prop :=
  (ti.type = ggmlTypeQ20 ∨ ti.type = 42 ∨ ti.type = 36) ∧ ∃ cols rows, ti.dims = [cols, rows]

/-- The bytes of a tensor of one of these types. -/
def GGUFTensorInfo.byteSize (ti : GGUFTensorInfo) : Nat :=
  if ti.type = ggmlTypeF32 then ti.dims.prod * 4
  else if ti.type = ggmlTypeF16 then ti.dims.prod * 2
  else ti.dims.prod / q20BlockSize * blockStride ti.type

/-- The bytes of a tensor info. -/
def GGUFTensorInfo.encode (ti : GGUFTensorInfo) : Bytes :=
  encodeStr ti.name ++ leBytes 4 ti.dims.length ++ ti.dims.flatMap (leBytes 8) ++
    leBytes 4 ti.type ++ leBytes 8 ti.offset

/-- The bytes of a tensor table. -/
def encodeInfos (infos : List GGUFTensorInfo) : Bytes := infos.flatMap GGUFTensorInfo.encode

/-- The alignment of the data section. -/
def alignment (kvs : List GgufKv) : Nat :=
  match kvs.find? fun kv => kv.key = str "general.alignment" with
  | some { value := .int _ v, .. } => v.toNat
  | _ => 32

/-- The end of the tensor table. -/
def tableEnd (kvs : List GgufKv) (infos : List GGUFTensorInfo) : Nat :=
  24 + (encodeKvs kvs).length + (encodeInfos infos).length

/-- The start of the data section. -/
def dataStart (kvs : List GgufKv) (infos : List GGUFTensorInfo) : Nat :=
  (tableEnd kvs infos + alignment kvs - 1) / alignment kvs * alignment kvs

/-- A tensor info whose fields fit their words, and whose quantized rows are whole blocks. -/
structure GGUFTensorInfo.WellFormed (ti : GGUFTensorInfo) : Prop where
  name : ti.name.length < 18446744073709551616
  rank : ti.dims.length < 4294967296
  dims : ∀ d ∈ ti.dims, d < 18446744073709551616
  type : ti.type < 4294967296
  offset : ti.offset < 18446744073709551616
  elems : ti.dims.prod < 9223372036854775808
  blocks : ti.type = ggmlTypeQ20 ∨ ti.type = 42 ∨ ti.type = 36 →
    ∃ cols rest, ti.dims = cols :: rest ∧ q20BlockSize ∣ cols

/-- A file with the section `kvs`, the tensor table `infos` and the data of the tensors at their
offsets in the data section. -/
structure GgufConformant (kvs : List GgufKv) (infos : List GGUFTensorInfo) (file : Bytes) :
    Prop where
  section_wf : SectionWellFormed kvs
  infos_wf : ∀ ti ∈ infos, ti.WellFormed
  counts : kvs.length < 18446744073709551616 ∧ infos.length < 18446744073709551616
  aligned : 0 < alignment kvs ∧ ∀ ti ∈ infos, alignment kvs ∣ ti.offset
  file_eq : ∃ data, file = ggufHeader infos.length kvs.length ++ encodeKvs kvs ++
    encodeInfos infos ++ List.replicate (dataStart kvs infos - tableEnd kvs infos) 0 ++ data
  data : ∀ ti ∈ infos, ExtractKnows ti ∨ ConvertKnows ti →
    dataStart kvs infos + ti.offset + ti.byteSize ≤ file.length
  length_le : file.length ≤ vectorMaxSize 1

/-- The decoders decode the bytes of a tensor in the data section that starts at `start`. -/
structure Placed (size start : Nat) (ti : GGUFTensorInfo) : Prop where
  extract : ExtractKnows ti → ∀ (gguf : GGUFFile) (out : List F32),
    Decodes (fun data : Bytes => extractF32Tensor { gguf with fileData := data } ti out) size
      (start + ti.offset) ti.byteSize
  convert : ConvertKnows ti → ∀ (gguf : GGUFFile) (name : Bytes),
    Decodes (fun data : Bytes => convertQ20ToLayer { gguf with fileData := data } ti name) size
      (start + ti.offset) ti.byteSize

/-! ## What the decoders look at -/

/-- A product of `size_t` values is the product modulo the width of the type. -/
theorem foldl_pos64_mul (dims : List Nat) (n : Nat) :
    pos64 (dims.foldl (fun n d => pos64 (n * d)) n) = pos64 (n * dims.prod) := by
  induction dims generalizing n with
  | nil => rw [List.foldl_nil, List.prod_nil, Nat.mul_one]
  | cons d dims ih =>
    rw [List.foldl_cons, ih, List.prod_cons, ← Nat.mul_assoc]
    exact (Nat.mod_mul_mod _ _ _)

/-- The element count of a tensor whose product of dimensions does not wrap. -/
theorem nElems_eq {ti : GGUFTensorInfo} (h : ti.dims.prod < 9223372036854775808) :
    ti.nElems = ti.dims.prod := by
  have hmod := foldl_pos64_mul ti.dims 1
  rw [Nat.one_mul] at hmod
  have hlt : ti.nElems < 18446744073709551616 := by
    unfold GGUFTensorInfo.nElems
    rcases List.eq_nil_or_concat' ti.dims with hnil | ⟨init, d, hlast⟩
    · rw [hnil]
      decide
    · rw [hlast, List.foldl_concat]
      exact Nat.mod_lt _ (by decide)
  have heq : pos64 ti.nElems = pos64 ti.dims.prod := hmod
  rwa [pos64, pos64, Nat.mod_eq_of_lt hlt, Nat.mod_eq_of_lt (by omega)] at heq

section
variable {data data' : Bytes} {ti : GGUFTensorInfo}

/-- The batch loops look at the halves of the elements. -/
theorem decodeBatch_congr {decode : UInt16 → F32} {base n : Nat} {dst : List F32}
    (h : AgreeOn data data' base (base + n * 2)) :
    decodeBatch decode data base dst n = decodeBatch decode data' base dst n := by
  unfold decodeBatch
  have hwide : ∀ (dst : List F32), ∀ q ∈ List.range (n / 4),
      slice data (base + 4 * q * 2) 8 = slice data' (base + 4 * q * 2) 8 := by
    intro dst q hq
    have hlt := List.mem_range.1 hq
    exact h.slice (by omega) (by omega)
  have hlast : ∀ (dst : List F32), ∀ j ∈ List.range (n % 4),
      slice data (base + (n / 4 * 4 + j) * 2) 2 = slice data' (base + (n / 4 * 4 + j) * 2) 2 := by
    intro dst j hj
    have hlt := List.mem_range.1 hj
    exact h.slice (by omega) (by omega)
  rw [foldlM_congr fun dst q hq => by rw [hwide dst q hq]]
  refine congrArg _ (funext fun dst' => foldlM_congr (fun dst j hj => ?_) dst')
  dsimp only
  rw [hlast dst j hj]

/-- The loops over the blocks of a tensor look at these blocks. -/
theorem extractQ20_congr {src n : Nat} {out : List F32} (hn : n < 9223372036854775808)
    (hblocks : q20BlockSize ∣ n)
    (h : AgreeOn data data' src (src + n / q20BlockSize * q20BlockBytes)) :
    extractQ20 data src out n = extractQ20 data' src out n := by
  obtain ⟨count, rfl⟩ := hblocks
  rw [Nat.mul_div_cancel_left count (show 0 < q20BlockSize by decide)] at h
  refine foldlM_congr (fun out b hb => ?_) out
  have hlt : b < count := by
    have hb' := List.mem_range.1 hb
    simp only [q20BlockCount, q20BlockSize, pos64] at hb' hn
    omega
  have hblock : b * q20BlockBytes % 4294967296 + q20BlockBytes ≤ count * q20BlockBytes := by
    have hle : (b + 1) * q20BlockBytes ≤ count * q20BlockBytes := Nat.mul_le_mul_right _ hlt
    have hmod := Nat.mod_le (b * q20BlockBytes) 4294967296
    rw [Nat.succ_mul] at hle
    omega
  unfold extractBlock
  dsimp only
  rw [h.slice (by omega) (by simp only [q20BlockBytes] at *; omega)]
  refine congrArg _ (funext fun scale => ?_)
  refine foldlM_congr (fun out j hj => ?_) out
  have hj' := List.mem_range.1 hj
  have hlen : q20BlockLength (q20BlockSize * count) b ≤ 128 := Nat.min_le_left _ _
  rw [h.load (by omega) (by simp only [q20BlockBytes] at *; omega)]

/-- A block looks at its bytes. -/
theorem readBlock_congr {lo hi type pos : Nat} (h : AgreeOn data data' lo hi) (hlo : lo ≤ pos)
    (hhi : pos + blockStride type ≤ hi) : readBlock data type pos = readBlock data' type pos := by
  unfold readBlock
  unfold blockStride q20BlockBytes at hhi
  split
  · rename_i htype
    rw [if_pos htype] at hhi
    rw [h.slice hlo hhi]
  · rename_i htype
    rw [if_neg htype] at hhi
    rw [h.slice hlo (by omega), h.slice (show lo ≤ pos + 2 by omega) (by omega)]

/-- The loops over the rows and the blocks of a tensor look at its blocks. -/
theorem convertLoops_congr {rows nb : Nat} {blocks : List BlockTerm}
    (h : AgreeOn data data' ti.offset (ti.offset + rows * nb * blockStride ti.type)) :
    convertLoops data ti rows nb blocks = convertLoops data' ti rows nb blocks := by
  refine foldlM_congr (fun blocks row hrow => foldlM_congr (fun blocks b hb => ?_) blocks) blocks
  have hidx : row * nb + b < rows * nb := by
    have hrow' : (row + 1) * nb ≤ rows * nb := Nat.mul_le_mul_right nb (List.mem_range.1 hrow)
    have hb' := List.mem_range.1 hb
    rw [Nat.succ_mul] at hrow'
    omega
  -- a position that wraps is before the one that it stands for
  have hpos : pos64 (pos64 (row * nb + b) * blockStride ti.type) + blockStride ti.type ≤
      rows * nb * blockStride ti.type := by
    have hle := Nat.mul_le_mul_right (blockStride ti.type)
      (show pos64 (row * nb + b) + 1 ≤ rows * nb from (Nat.mod_le _ _).trans_lt hidx)
    have hmod := Nat.mod_le (pos64 (row * nb + b) * blockStride ti.type) 18446744073709551616
    rw [Nat.succ_mul] at hle
    unfold pos64 at hle hmod ⊢
    omega
  dsimp only
  rw [readBlock_congr h (by omega) (by omega)]

/-- `extract_f32_tensor` looks at as many bytes as the tensor has, from its offset in the file on. -/
theorem extract_congr (hwf : ti.WellFormed) (gguf : GGUFFile)
    (out : List F32) (h : AgreeOn data data' ti.offset (ti.offset + ti.byteSize)) :
    extractF32Tensor { gguf with fileData := data } ti out =
      extractF32Tensor { gguf with fileData := data' } ti out := by
  have hn := nElems_eq hwf.elems
  have helems := hwf.elems
  unfold extractF32Tensor
  unfold GGUFTensorInfo.byteSize at h
  dsimp only
  rw [h.length_eq, hn]
  split
  · rfl
  · split
    · rename_i htype
      rw [if_pos htype] at h
      rw [h.slice le_rfl le_rfl]
    · rename_i hF32
      rw [if_neg hF32] at h
      split
      · rename_i htype
        rw [if_pos htype] at h
        rw [decodeF16Batch, decodeBatch_congr h]
      · rename_i hF16
        rw [if_neg hF16] at h
        split
        · rename_i htype
          obtain ⟨cols, rest, hdims, hcols⟩ := hwf.blocks (htype.imp id .inl)
          have hblocks : q20BlockSize ∣ ti.dims.prod := by
            rw [hdims, List.prod_cons]
            exact hcols.mul_right _
          have hstride : blockStride ti.type = q20BlockBytes := by
            refine if_neg fun h36 => ?_
            rw [h36] at htype
            exact absurd htype (by decide)
          rw [hstride] at h
          rw [extractQ20_congr helems hblocks h]
        · rfl

/-- `convert_q2_0_to_layer` looks at no more bytes than the tensor has, from its offset in the file
on. -/
theorem convert_congr (hwf : ti.WellFormed) (hknown : ConvertKnows ti) (gguf : GGUFFile)
    (name : Bytes) (h : AgreeOn data data' ti.offset (ti.offset + ti.byteSize)) :
    convertQ20ToLayer { gguf with fileData := data } ti name =
      convertQ20ToLayer { gguf with fileData := data' } ti name := by
  obtain ⟨htype, cols, rows, hdims⟩ := hknown
  obtain ⟨cols', rest, hdims', count, hcols⟩ := hwf.blocks htype
  obtain rfl : cols = cols' := List.head_eq_of_cons_eq (hdims.symm.trans hdims')
  have hwide : cols < 18446744073709551616 := hwf.dims cols (by rw [hdims]; exact .head _)
  have hsize : ti.byteSize = count * rows * blockStride ti.type := by
    have hprod : ti.dims.prod / q20BlockSize = count * rows := by
      rw [hdims, hcols, List.prod_cons, List.prod_cons, List.prod_nil, Nat.mul_one, Nat.mul_assoc,
        Nat.mul_div_cancel_left _ (show 0 < q20BlockSize by decide)]
    unfold GGUFTensorInfo.byteSize
    rw [hprod, if_neg (by rcases htype with h | h | h <;> rw [h] <;> decide),
      if_neg (by rcases htype with h | h | h <;> rw [h] <;> decide)]
  have hblocks : (convertBlocks cols).toNat ≤ count := by
    simp only [convertBlocks, toInt32, pos64, q20BlockSize] at hcols ⊢
    omega
  have hloops : convertLoops data ti rows (convertBlocks cols).toNat =
      convertLoops data' ti rows (convertBlocks cols).toNat := by
    refine funext fun blocks => convertLoops_congr ⟨h.length_eq, fun i hlo hhi => ?_⟩
    refine h.getElem? i hlo (hhi.trans_le ?_)
    rw [hsize, Nat.mul_comm count]
    exact Nat.add_le_add_left (Nat.mul_le_mul_right _ (Nat.mul_le_mul_left _ hblocks)) _
  unfold convertQ20ToLayer
  rw [hdims]
  dsimp only
  rw [hloops]

end

/-! ## The tensor table -/

/-- The loops over words, on words that are there. -/
theorem readWords_hasAt {α : Type} {p : Bytes} (hp : p.length ≤ vectorMaxSize 1) {w : Nat}
    (conv : Nat → α) {ws : List Nat} (hws : ∀ v ∈ ws, v < 256 ^ w) {off : Nat}
    (h : HasAt p off (ws.flatMap (leBytes w))) (hoff : off ≤ p.length) (words : List α) :
    readWords (rWord w) conv p ws.length (words, off) =
      .ok (words ++ ws.map conv, off + ws.length * w) := by
  induction ws generalizing off words with
  | nil => rw [List.map_nil, List.append_nil, List.length_nil, Nat.zero_mul]; rfl
  | cons v ws ih =>
    obtain ⟨hv, hrest⟩ := List.forall_mem_cons.1 hws
    rw [List.flatMap_cons, hasAt_append, leBytes_length] at h
    have hend := h.1.le hoff
    rw [leBytes_length] at hend
    have hread : rWord w p off = .ok (v, off + w) := by
      rw [rWord_hasAt hp h.1 hoff (leBytes_length w v), leNat_leBytes_of_lt hv]
    have htail := ih hrest h.2 hend (words ++ [conv v])
    rw [List.length_cons, readWords, hread, ok_bind]
    dsimp only
    rw [htail, List.append_assoc, List.map_cons, List.singleton_append, Nat.succ_mul,
      Nat.add_assoc, Nat.add_comm w]

/-- The bytes of a number of words. -/
theorem flatMap_leBytes_length (w : Nat) (ws : List Nat) :
    (ws.flatMap (leBytes w)).length = ws.length * w := by
  induction ws with
  | nil => exact (Nat.zero_mul w).symm
  | cons v ws ih =>
    rw [List.flatMap_cons, List.length_append, leBytes_length, ih, List.length_cons, Nat.succ_mul,
      Nat.add_comm]

/-- The bytes of a tensor info. -/
theorem GGUFTensorInfo.encode_length (ti : GGUFTensorInfo) :
    ti.encode.length = 8 + ti.name.length + 4 + ti.dims.length * 8 + 4 + 8 := by
  rw [GGUFTensorInfo.encode, List.length_append, List.length_append, List.length_append,
    List.length_append, encodeStr, List.length_append, leBytes_length, leBytes_length,
    leBytes_length, leBytes_length, flatMap_leBytes_length]

/-- The loop over the tensor infos, on a table that is there. -/
theorem readInfos_hasAt {p : Bytes} (hp : p.length ≤ vectorMaxSize 1) {infos : List GGUFTensorInfo}
    (hwf : ∀ ti ∈ infos, ti.WellFormed) {off : Nat} (h : HasAt p off (encodeInfos infos))
    (hoff : off ≤ p.length) (tensors : List GGUFTensorInfo) :
    readInfos p infos.length (tensors, off) =
      .ok (tensors ++ infos, off + (encodeInfos infos).length) := by
  induction infos generalizing off tensors with
  | nil => rw [List.append_nil]; rfl
  | cons ti infos ih =>
    obtain ⟨hti, hrest⟩ := List.forall_mem_cons.1 hwf
    rw [encodeInfos, List.flatMap_cons, hasAt_append] at h
    obtain ⟨hhead, htail⟩ := h
    have hend := hhead.le hoff
    have htable := ih hrest htail hend (tensors ++ [ti])
    have hname : (encodeStr ti.name).length = 8 + ti.name.length := by
      rw [encodeStr, List.length_append, leBytes_length]
    rw [ti.encode_length] at hend htable
    rw [GGUFTensorInfo.encode, hasAt_append, hasAt_append, hasAt_append, hasAt_append] at hhead
    simp only [List.length_append, hname, leBytes_length, flatMap_leBytes_length] at hhead
    obtain ⟨⟨⟨⟨hstr, hrank⟩, hdims⟩, htype⟩, hoffset⟩ := hhead
    simp only [← Nat.add_assoc] at hrank hdims htype hoffset htable hend
    have hread₁ := rstr_hasAt hp hstr hoff hti.name
    have hread₂ := rWord_hasAt hp hrank (by omega) (leBytes_length 4 _)
    have hread₃ := readWords_hasAt hp id hti.dims hdims (by omega) []
    have hread₄ := rWord_hasAt hp htype (by omega) (leBytes_length 4 _)
    have hread₅ := rWord_hasAt hp hoffset (by omega) (leBytes_length 8 _)
    rw [leNat_leBytes_of_lt (by exact hti.rank)] at hread₂
    rw [leNat_leBytes_of_lt (by exact hti.type)] at hread₄
    rw [leNat_leBytes_of_lt (by exact hti.offset)] at hread₅
    rw [List.nil_append, List.map_id] at hread₃
    have hbreak : ¬ pos64 (off + 8 + ti.name.length + 4) > p.length := by
      rw [pos64_of_le hp (by omega)]
      omega
    rw [List.length_cons, readInfos, hread₁, ok_bind]
    dsimp only
    rw [if_neg hbreak, r32, hread₂, ok_bind]
    dsimp only
    rw [readDims, r64, hread₃, ok_bind]
    dsimp only
    rw [hread₄, ok_bind]
    dsimp only
    rw [hread₅, ok_bind]
    dsimp only
    rw [htable, List.append_assoc, List.singleton_append, encodeInfos, encodeInfos,
      List.flatMap_cons, List.length_append, ti.encode_length]
    simp only [← Nat.add_assoc]

/-- The header of a file. -/
theorem parseGguf_header (narrow : Nat → F32) {file : Bytes} (hp : file.length ≤ vectorMaxSize 1)
    {tensorCount kvCount : Nat} (htensors : tensorCount < 18446744073709551616)
    (hkvs : kvCount < 18446744073709551616) (h : HasAt file 0 (ggufHeader tensorCount kvCount)) :
    parseGguf narrow file = (readKvs narrow file kvCount ({ fileData := file }, 24) >>= fun s =>
      readInfos file tensorCount (s.1.tensors, s.2) >>= fun t =>
        .ok { s.1 with tensors := t.1, valid := true }) := by
  have hend := h.le (Nat.zero_le _)
  have hlen : (ggufHeader tensorCount kvCount).length = 24 := rfl
  rw [hlen] at hend
  rw [ggufHeader, hasAt_append, hasAt_append, hasAt_append] at h
  simp only [List.length_append, leBytes_length, Nat.zero_add] at h
  obtain ⟨⟨⟨hmagic, hversion⟩, hcount⟩, hcount'⟩ := h
  have hread₁ : r32 file 0 = .ok (ggufMagic, 4) := rWord_hasAt hp hmagic (by omega) rfl
  have hread₂ : r32 file 4 = .ok (ggufVersion, 8) := rWord_hasAt hp hversion (by omega) rfl
  have hread₃ := rWord_hasAt hp hcount (by omega) (leBytes_length 8 _)
  have hread₄ := rWord_hasAt hp hcount' (by omega) (leBytes_length 8 _)
  rw [leNat_leBytes_of_lt (by exact htensors)] at hread₃
  rw [leNat_leBytes_of_lt (by exact hkvs)] at hread₄
  rw [parseGguf, vectorCheck, if_pos hp, ok_bind]
  dsimp only
  rw [hread₁, ok_bind]
  dsimp only
  rw [if_neg (by decide), hread₂, ok_bind]
  dsimp only
  rw [if_neg (by decide), r64, hread₃, ok_bind]
  dsimp only
  rw [hread₄, ok_bind]
  rfl

/-- The parser on a file that conforms and whose pairs it reads to their end. -/
theorem parseGguf_conformant (narrow : Nat → F32) {kvs : List GgufKv} {infos : List GGUFTensorInfo}
    {file : Bytes} (h : GgufConformant kvs infos file) (hplain : ∀ kv ∈ kvs, kv.Plain) :
    ∃ gguf, parseGguf narrow file = .ok gguf ∧ gguf.valid = true ∧ gguf.tensors = infos ∧
      gguf.fileData = file := by
  have hp := h.length_le
  obtain ⟨data, hfile⟩ := h.file_eq
  have hat : HasAt file 0 (ggufHeader infos.length kvs.length ++ (encodeKvs kvs ++
      encodeInfos infos)) := by
    refine ⟨List.replicate (dataStart kvs infos - tableEnd kvs infos) 0 ++ data, ?_⟩
    rw [List.drop_zero, hfile]
    simp only [List.append_assoc]
  have hhead := hasAt_append.1 hat
  have hlen : (ggufHeader infos.length kvs.length).length = 24 := rfl
  have hoff := hhead.1.le (Nat.zero_le _)
  rw [hlen, Nat.zero_add] at hhead hoff
  obtain ⟨hsection, htable⟩ := hasAt_append.1 hhead.2
  have hend := hsection.le hoff
  obtain ⟨gguf, hrun, -⟩ := readKvs_plain hp narrow h.section_wf.key_length h.section_wf.values
    hplain hsection hoff 0 { fileData := file }
  have hkvs : readKvs narrow file kvs.length ({ fileData := file }, 24) =
      .ok (gguf, 24 + (encodeKvs kvs).length) := hrun
  obtain ⟨htensors, hdata⟩ := sameFile_readKvs hkvs
  refine ⟨{ gguf with tensors := infos, valid := true }, ?_, rfl, rfl, hdata⟩
  rw [parseGguf_header narrow hp h.counts.2 h.counts.1 hhead.1, hkvs, ok_bind]
  dsimp only
  rw [htensors, readInfos_hasAt hp h.infos_wf htable hend, ok_bind]
  rfl

/-! ## The placement -/

/-- The data section is behind the header. -/
theorem dataStart_pos {kvs : List GgufKv} (infos : List GGUFTensorInfo) (h : 0 < alignment kvs) :
    0 < dataStart kvs infos := by
  unfold dataStart tableEnd
  refine Nat.mul_pos (Nat.div_pos ?_ h) h
  omega

/-- In every file that conforms, the decoders decode the bytes of the tensors exactly where these have
none; and the parser returns the tensors of the table, where it reads the section to its end. -/
theorem placed_iff (narrow : Nat → F32) {kvs : List GgufKv} {infos : List GGUFTensorInfo}
    {file : Bytes} (h : GgufConformant kvs infos file) :
    ((∀ ti ∈ infos, Placed file.length (dataStart kvs infos) ti) ↔
      ∀ ti ∈ infos, ExtractKnows ti ∨ ConvertKnows ti → ti.byteSize = 0) ∧
    ((∀ kv ∈ kvs, kv.Plain) → ∃ gguf, parseGguf narrow file = .ok gguf ∧ gguf.valid = true ∧
      gguf.tensors = infos ∧ gguf.fileData = file) := by
  refine ⟨forall₂_congr fun ti hti => ?_, parseGguf_conformant narrow h⟩
  have hwf := h.infos_wf ti hti
  have hlt : ti.offset < dataStart kvs infos + ti.offset :=
    Nat.lt_add_of_pos_left (dataStart_pos infos h.aligned.1)
  have hextract := fun (gguf : GGUFFile) (out : List F32) =>
    decodes_displaced_iff hlt fun (data data' : Bytes) (_ : data.length = file.length) hsame =>
      extract_congr hwf gguf out hsame
  have hconvert := fun (hknown : ConvertKnows ti) (gguf : GGUFFile) (name : Bytes) =>
    decodes_displaced_iff hlt fun (data data' : Bytes) (_ : data.length = file.length) hsame =>
      convert_congr hwf hknown gguf name hsame
  constructor
  · rintro hplaced (hknown | hknown)
    · exact (hextract {} []).1 (hplaced.extract hknown {} [])
    · exact (hconvert hknown {} []).1 (hplaced.convert hknown {} [])
  · intro hsize
    exact {
      extract := fun hknown gguf out => (hextract gguf out).2 (hsize (.inl hknown))
      convert := fun hknown gguf name => (hconvert hknown gguf name).2 (hsize (.inr hknown)) }

/-- A tensor of one `float` at the start of the data section. -/
def oneFloat : GGUFTensorInfo := { name := str "w", type := ggmlTypeF32, dims := [1], offset := 0 }

/-- A tensor without elements. -/
def noFloats : GGUFTensorInfo := { oneFloat with dims := [0] }

/-- A file with one tensor and these bytes of data. -/
def oneTensorFile (ti : GGUFTensorInfo) (data : Bytes) : Bytes :=
  ggufHeader 1 0 ++ ti.encode ++ List.replicate 7 0 ++ data

theorem oneTensorFile_conformant {ti : GGUFTensorInfo} {data : Bytes}
    (hti : ti = oneFloat ∧ data = [0, 0, 128, 63] ∨ ti = noFloats ∧ data = []) :
    GgufConformant [] [ti] (oneTensorFile ti data) where
  section_wf := { keys := List.nodup_nil, key_length := nofun, values := nofun }
  infos_wf := by
    intro ti' hti'
    rw [List.mem_singleton.1 hti']
    rcases hti with ⟨rfl, -⟩ | ⟨rfl, -⟩ <;>
      exact {
        name := by decide
        rank := by decide
        dims := by decide
        type := by decide
        offset := by decide
        elems := by decide
        blocks := fun h => absurd h (by decide) }
  counts := by
    rw [List.length_singleton, List.length_nil]
    decide
  aligned := by
    refine ⟨by decide, fun ti' hti' => ?_⟩
    rw [List.mem_singleton.1 hti']
    rcases hti with ⟨rfl, -⟩ | ⟨rfl, -⟩ <;> exact Nat.dvd_zero _
  file_eq := by
    refine ⟨data, ?_⟩
    rcases hti with ⟨rfl, rfl⟩ | ⟨rfl, rfl⟩ <;> rfl
  data := by
    intro ti' hti' _
    rw [List.mem_singleton.1 hti']
    rcases hti with ⟨rfl, rfl⟩ | ⟨rfl, rfl⟩ <;> decide
  length_le := by
    rcases hti with ⟨rfl, rfl⟩ | ⟨rfl, rfl⟩ <;> decide

theorem placed_noFloats :
    (∀ ti ∈ [noFloats], Placed (oneTensorFile noFloats []).length (dataStart [] [noFloats]) ti) ∧
    ∃ gguf, parseGguf (fun _ => 0) (oneTensorFile noFloats []) = .ok gguf ∧
      gguf.tensors = [noFloats] := by
  have hconf := oneTensorFile_conformant (.inr ⟨rfl, rfl⟩)
  have hiff := placed_iff (fun _ => 0) hconf
  obtain ⟨gguf, hparse, -, htensors, -⟩ := hiff.2 nofun
  refine ⟨hiff.1.2 fun ti hti _ => ?_, gguf, hparse, htensors⟩
  rw [List.mem_singleton.1 hti]
  rfl

/-- The tensor `1.0` of a file that conforms is decoded as the magic of the file. -/
theorem not_placed_oneFloat :
    GgufConformant [] [oneFloat] (oneTensorFile oneFloat [0, 0, 128, 63]) ∧
    dataStart [] [oneFloat] = 64 ∧
    (oneTensorFile oneFloat [0, 0, 128, 63]).drop 64 = [0, 0, 128, 63] ∧
    extractF32Tensor { fileData := oneTensorFile oneFloat [0, 0, 128, 63] } oneFloat [] =
      .ok (some [0x46554747]) ∧
    ¬ Placed (oneTensorFile oneFloat [0, 0, 128, 63]).length (dataStart [] [oneFloat]) oneFloat := by
  have hbytes : extractF32Tensor { fileData := oneTensorFile oneFloat [0, 0, 128, 63] } oneFloat [] =
      .ok (some [0x46554747]) := by
    decide +kernel
  refine ⟨oneTensorFile_conformant (.inl ⟨rfl, rfl⟩), rfl, rfl, hbytes, fun h => ?_⟩
  have hother : extractF32Tensor
      { fileData := (oneTensorFile oneFloat [0, 0, 128, 63]).set 0 0 } oneFloat [] =
        .ok (some [0x46554700]) := by
    decide +kernel
  have hdepends := (h.extract (.inl rfl) {} [] 0).1 ⟨oneTensorFile oneFloat [0, 0, 128, 63],
    (oneTensorFile oneFloat [0, 0, 128, 63]).set 0 0, rfl, List.length_set, fun j hj =>
      (List.getElem?_set_ne hj.symm).symm, fun heq => by
        have hsame := hbytes.symm.trans (heq.trans hother)
        exact absurd hsame (by decide)⟩
  exact absurd hdepends.1 (by decide)

end Terllama
