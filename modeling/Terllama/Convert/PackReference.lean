import Terllama.Convert.Pack

/-!
# The packer of the Python exporter

`pack_als_block` and `pack_als_block_terms` of `scripts/export_ternary_model_bitnet.py`, and the
native packer held against them. Python's integers do not overflow, and the packed bytes are the ones
that `ALSTerm.bytes` gives; the native packer returns the same bytes where its block count and its
row stride fit an `int`, and is undefined elsewhere.
-/

namespace Terllama

/-! ## The exporter -/

/-- `struct.pack('<I', n)`. -/
def structPackI (n : Nat) : Exec Bytes :=
  if n < 4294967296 then .ok (u32Bytes n)
  else raise "'I' format requires 0 <= number <= 4294967295"

/-- `block.reshape(-1, 4)`, with each row packed into a byte. -/
def packQuads : List UInt8 → Exec Bytes
  | c₀ :: c₁ :: c₂ :: c₃ :: cs => do return codeByte c₀ c₁ c₂ c₃ :: (← packQuads cs)
  | [] => .ok []
  | _ => raise "shape '[-1, 4]' is invalid for the block"

/-- A pass of the loops of `pack_als_block`, over the codes of the tensor. -/
def packBlockPy (codes : List UInt8) (scales : List F32) (inF qk : Nat) (buf : Bytes)
    (row b : Nat) : Exec Bytes := do
  let start := b * qk
  let stop := min (start + qk) inF
  let block := (((codes.drop (row * inF)).take inF).drop start).take (stop - start)
  let block := if ((stop : Int) - start) < qk then
      block ++ List.replicate ((qk : Int) - (stop - start)).toNat 1
    else block
  let packed ← packQuads block
  let scale ← load scales b
  return buf ++ packed ++ scale.toBytes

/-- `pack_als_block`. -/
def packAlsBlockPy (term : ALSTerm) (outF inF qk : Nat) : Exec Bytes :=
  let codes := term.ternary.map ternaryCode
  (List.range outF).foldlM (fun buf row =>
    (List.range term.scales.length).foldlM (fun buf b =>
      packBlockPy codes term.scales inF qk buf row b) buf) []

/-- `pack_als_block_terms`. -/
def packAlsBlockTermsPy (terms : List ALSTerm) (outF inF qk : Nat) : Exec Bytes := do
  let buf ← structPackI terms.length
  terms.foldlM (fun buf term => do
    let blob ← packAlsBlockPy term outF inF qk
    let len ← structPackI blob.length
    return buf ++ len ++ blob) buf

/-! ## Its bytes -/

/-- Whole quads are packed one after the other. -/
theorem packQuads_map (f : Nat → UInt8) (n : Nat) :
    packQuads ((List.range (4 * n)).map f) = .ok ((List.range n).map fun g =>
      codeByte (f (4 * g)) (f (4 * g + 1)) (f (4 * g + 2)) (f (4 * g + 3))) := by
  induction n generalizing f with
  | zero => rfl
  | succ n ih =>
    have hquad : (List.range (4 * (n + 1))).map f =
        f 0 :: f 1 :: f 2 :: f 3 :: (List.range (4 * n)).map fun c => f (4 + c) := by
      rw [show 4 * (n + 1) = 4 + 4 * n by ring, List.range_add, List.map_append, List.map_map]
      rfl
    have htail : (List.range (n + 1)).map (fun g =>
          codeByte (f (4 * g)) (f (4 * g + 1)) (f (4 * g + 2)) (f (4 * g + 3))) =
        codeByte (f 0) (f 1) (f 2) (f 3) :: (List.range n).map fun g =>
          codeByte (f (4 + 4 * g)) (f (4 + (4 * g + 1))) (f (4 + (4 * g + 2)))
            (f (4 + (4 * g + 3))) := by
      rw [List.range_succ_eq_map, List.map_cons, List.map_map]
      refine congrArg (List.cons _) (List.map_congr_left fun g _ => ?_)
      simp only [Function.comp_apply, Nat.succ_eq_add_one]
      ring_nf
    rw [hquad, packQuads, ih, htail]
    rfl

section
variable {term : ALSTerm} {rows cols n : Nat}

/-- The codes of a block, padded with the code of zero. -/
theorem block_codes (hternary : term.ternary.length = rows * cols) {row start qk : Nat}
    (hrow : row < rows) (hstart : start < cols) :
    ((((term.ternary.map ternaryCode).drop (row * cols)).take cols).drop start).take
        (min (start + qk) cols - start) ++
      List.replicate (qk - (min (start + qk) cols - start)) 1 =
      (List.range qk).map fun c => ternaryCode (term.weightAt cols row (start + c)) := by
  have hrowEnd : (row + 1) * cols ≤ rows * cols := Nat.mul_le_mul_right _ hrow
  rw [Nat.succ_mul] at hrowEnd
  refine List.ext_getElem ?_ fun c h₁ h₂ => ?_
  · simp only [List.length_append, List.length_take, List.length_drop, List.length_map,
      List.length_replicate, List.length_range, hternary]
    omega
  · have hc : c < qk := by simpa using h₂
    rw [List.getElem_map, List.getElem_range, ALSTerm.weightAt]
    by_cases hin : start + c < cols
    · rw [if_pos hin, List.getElem_append_left (by
        simp only [List.length_take, List.length_drop, List.length_map, hternary]
        omega), List.getElem_take, List.getElem_drop, List.getElem_take, List.getElem_drop,
        List.getElem_map, List.getD_eq_getElem _ _ (by rw [hternary]; omega)]
    · rw [if_neg hin, List.getElem_append_right (by
        simp only [List.length_take, List.length_drop, List.length_map, hternary]
        omega), List.getElem_replicate]
      rfl

theorem packBlockPy_ok (hternary : term.ternary.length = rows * cols) {row b : Nat}
    (hrow : row < rows) (hb : b < term.scales.length) (hstart : b * (4 * n) < cols) (buf : Bytes) :
    packBlockPy (term.ternary.map ternaryCode) term.scales cols (4 * n) buf row b =
      .ok (buf ++ term.blockBytes cols (4 * n) row b) := by
  have hcodes := @block_codes _ _ _ hternary _ _ (4 * n) hrow hstart
  have hblock : (if ((min (b * (4 * n) + 4 * n) cols : Nat) : Int) - (b * (4 * n) : Nat) <
        (4 * n : Nat) then
      ((((term.ternary.map ternaryCode).drop (row * cols)).take cols).drop (b * (4 * n))).take
          (min (b * (4 * n) + 4 * n) cols - b * (4 * n)) ++
        List.replicate (((4 * n : Nat) : Int) - ((min (b * (4 * n) + 4 * n) cols : Nat) -
          (b * (4 * n) : Nat))).toNat 1
    else ((((term.ternary.map ternaryCode).drop (row * cols)).take cols).drop (b * (4 * n))).take
          (min (b * (4 * n) + 4 * n) cols - b * (4 * n))) =
      (List.range (4 * n)).map fun c =>
        ternaryCode (term.weightAt cols row (b * (4 * n) + c)) := by
    rw [← hcodes]
    split
    · refine congrArg (_ ++ List.replicate · _) ?_
      omega
    · have hnone : 4 * n - (min (b * (4 * n) + 4 * n) cols - b * (4 * n)) = 0 := by omega
      rw [hnone, List.replicate_zero, List.append_nil]
  rw [packBlockPy, hblock, packQuads_map, ok_bind, load_getD hb 0, ok_bind, ALSTerm.blockBytes,
    Nat.mul_div_cancel_left n (by decide), pure_eq_ok, List.append_assoc]
  rfl

/-- A growing buffer gets the pieces of a loop one after the other. -/
theorem foldlM_append_range {step : Bytes → Nat → Exec Bytes} {f : Nat → Bytes} {m : Nat}
    (h : ∀ i < m, ∀ buf, step buf i = .ok (buf ++ f i)) (buf : Bytes) :
    (List.range m).foldlM step buf = .ok (buf ++ (List.range m).flatMap f) := by
  induction m with
  | zero => exact congrArg Except.ok (List.append_nil buf).symm
  | succ m ih =>
    rw [List.range_succ, List.foldlM_append, ih fun i hi => h i (Nat.lt_succ_of_lt hi), ok_bind,
      List.foldlM_cons, h m (Nat.lt_succ_self m), ok_bind, List.flatMap_append,
      List.flatMap_singleton, List.append_assoc]
    rfl

/-- A term is packed to its bytes. -/
theorem packAlsBlockPy_ok (hternary : term.ternary.length = rows * cols)
    (hstarts : ∀ b < term.scales.length, b * (4 * n) < cols) :
    packAlsBlockPy term rows cols (4 * n) = .ok (term.bytes rows cols (4 * n)) := by
  refine foldlM_append_range (fun row hrow buf => ?_) []
  exact foldlM_append_range
    (fun b hb buf => packBlockPy_ok hternary hrow hb (hstarts b hb) buf) buf

/-- The terms are packed one after the other, each behind its length. -/
theorem packAlsBlockTermsPy_ok {terms : List ALSTerm} {nb : Nat}
    (hternary : ∀ term ∈ terms, term.ternary.length = rows * cols)
    (hscales : ∀ term ∈ terms, term.scales.length = nb) (hstarts : ∀ b < nb, b * (4 * n) < cols)
    (hcount : terms.length < 4294967296)
    (htable : terms ≠ [] → rows * (nb * (n + 4)) < 4294967296) :
    packAlsBlockTermsPy terms rows cols (4 * n) = .ok (u32Bytes terms.length ++
      terms.flatMap fun term =>
        u32Bytes (rows * (nb * (n + 4))) ++ term.bytes rows cols (4 * n)) := by
  rw [packAlsBlockTermsPy, structPackI, if_pos hcount, ok_bind]
  generalize u32Bytes terms.length = buf
  clear hcount
  induction terms generalizing buf with
  | nil => exact congrArg Except.ok (List.append_nil buf).symm
  | cons term terms ih =>
    rw [List.forall_mem_cons] at hternary hscales
    have hlt := htable (List.cons_ne_nil term terms)
    have hpack := packAlsBlockPy_ok hternary.1 (by rw [hscales.1]; exact hstarts)
    rw [List.foldlM_cons, hpack, ok_bind, term.bytes_length, hscales.1, structPackI, if_pos hlt,
      ok_bind, pure_eq_ok, ok_bind, ih hternary.2 hscales.2 fun _ => hlt, List.flatMap_cons]
    simp only [List.append_assoc]

end

/-! ## The two packers -/

/-- The number of blocks of a row. -/
def blockCount (inF qk : Nat) : Nat := (inF + qk - 1) / qk

theorem blockCount_starts {inF qk b : Nat} (hin : 1 ≤ inF) (hb : b < blockCount inF qk) :
    b * qk < inF := by
  have hle : (b + 1) * qk ≤ inF + qk - 1 :=
    (Nat.mul_le_mul_right qk hb).trans (Nat.div_mul_le_self _ _)
  rw [Nat.succ_mul] at hle
  omega

theorem ceilBlocks_eq {inF qk : Nat} (hqk : 0 < qk) :
    ceilBlocks inF qk =
      if inF + qk ≤ 2147483647 then .ok (blockCount inF qk : Int)
      else undefined "signed integer overflow" := by
  rw [ceilBlocks]
  split
  · rename_i h
    have hdiv : ((inF : Int) + qk - 1).tdiv qk = (blockCount inF qk : Nat) := by
      rw [show (inF : Int) + qk - 1 = (inF + qk - 1 : Nat) by omega, blockCount]
      rfl
    have hle : blockCount inF qk ≤ inF + qk - 1 := Nat.div_le_self _ _
    rw [i32_ok (by omega) (by omega), ok_bind, i32_ok (by omega) (by omega), ok_bind, divI32,
      if_neg (by omega), hdiv, i32_ok (by omega) (by omega)]
  · rename_i h
    rw [i32, if_neg (by omega), undefined_bind]

/-- The terms of a layer: ternary matrices of its shape, and a scale for each block of a row. -/
structure LayerTerms (outF inF qk : Nat) (terms : List ALSTerm) : Prop where
  ternary : ∀ term ∈ terms, term.ternary.length = outF * inF
  isTernary : ∀ term ∈ terms, ∀ v ∈ term.ternary, IsTernary v
  scales : ∀ term ∈ terms, term.scales.length = blockCount inF qk
  size : 4 + terms.length * (4 + outF * (blockCount inF qk * (qk / 4 + 4))) < 4294967296

/-- A term is packed only if its row stride fits an `int`. -/
theorem stride_of_packTerm {term : ALSTerm} {rows cols : Int} {n nb : Nat}
    (hscales : term.scales.length = nb) (hnb : nb ≤ 2147483647) {buf buf' : Bytes}
    (h : packTerm rows cols (4 * n : Nat) buf term = .ok buf') : nb * (n + 4) ≤ 2147483647 := by
  rw [packTerm, packAlsBlockInto] at h
  obtain ⟨rowStride, hstride, -⟩ := bind_eq_ok.1 h
  obtain ⟨-, -, hle⟩ := i32_eq_ok.1 hstride
  rw [hscales, toInt32_of_lt (by omega), tdiv_four] at hle
  exact_mod_cast hle

/-- The native packer returns the bytes of the exporter exactly where its block count and its row
stride fit an `int`. -/
theorem packAlsBlockTerms_eq_py_iff {outF inF qk : Nat} {terms : List ALSTerm} (hout : outF ≤ 2147483647) (hin : 1 ≤ inF) (hin' : inF ≤ 2147483647) (hqk : 0 < qk)
    (h4 : 4 ∣ qk) (hqk' : qk ≤ 2147483647) (h : LayerTerms outF inF qk terms) :
    packAlsBlockTerms terms outF inF qk = packAlsBlockTermsPy terms outF inF qk ↔
      inF + qk ≤ 2147483647 ∧
        (terms = [] ∨ blockCount inF qk * (qk / 4 + 4) ≤ 2147483647) := by
  obtain ⟨n, rfl⟩ := h4
  have hsize := h.size
  rw [Nat.mul_div_cancel_left n (by decide)] at hsize ⊢
  have hstarts : ∀ b < blockCount inF (4 * n), b * (4 * n) < inF := fun b => blockCount_starts hin
  have htable : terms ≠ [] → outF * (blockCount inF (4 * n) * (n + 4)) < 4294967296 := by
    intro hne
    have hle := Nat.le_mul_of_pos_left (4 + outF * (blockCount inF (4 * n) * (n + 4)))
      (List.length_pos_iff.2 hne)
    omega
  have hcount : blockCount inF (4 * n) ≤ inF + 4 * n - 1 := Nat.div_le_self _ _
  have hterms : terms.length ≤ terms.length * (4 + outF * (blockCount inF (4 * n) * (n + 4))) :=
    Nat.le_mul_of_pos_right _ (by omega)
  have hpy := packAlsBlockTermsPy_ok h.ternary h.scales hstarts (by omega) htable
  constructor
  · intro heq
    rw [hpy, packAlsBlockTerms, ceilBlocks_eq hqk] at heq
    split at heq
    · rename_i hover
      refine ⟨hover, ?_⟩
      obtain ⟨_, _, heq⟩ := bind_eq_ok.1 heq
      obtain ⟨_, -, heq⟩ := bind_eq_ok.1 heq
      cases terms with
      | nil => exact .inl rfl
      | cons term terms =>
        right
        rw [List.foldlM_cons] at heq
        obtain ⟨_, hterm, -⟩ := bind_eq_ok.1 heq
        exact stride_of_packTerm (h.scales term List.mem_cons_self) (by omega) hterm
    · exact absurd heq (by rw [undefined_bind]; exact undefined_ne_ok _ _)
  · rintro ⟨hover, hstride⟩
    have hrow : blockCount inF (4 * n) * (n + 4) ≤ 2147483647 * 536870915 :=
      Nat.mul_le_mul (by omega) (by omega)
    have hperRow : sizeT ((blockCount inF (4 * n) : Int) * (n + 4)) =
        blockCount inF (4 * n) * (n + 4) := by
      rw [show (blockCount inF (4 * n) : Int) * (n + 4) = (blockCount inF (4 * n) * (n + 4) : Nat) by
        push_cast; ring, sizeT_of_nonneg (by omega) (by omega), Int.toNat_natCast]
    have hreserve : sizeT (4 + (terms.length : Int) *
        (4 + outF * (blockCount inF (4 * n) * (n + 4) : Nat))) ≤ vectorMaxSize 1 := by
      rw [show 4 + (terms.length : Int) * (4 + outF * (blockCount inF (4 * n) * (n + 4) : Nat)) =
        (4 + terms.length * (4 + outF * (blockCount inF (4 * n) * (n + 4))) : Nat) by push_cast; ring,
        sizeT_of_nonneg (by omega) (by omega), Int.toNat_natCast, vectorMaxSize]
      omega
    rw [hpy, packAlsBlockTerms, ceilBlocks_eq hqk, if_pos hover, ok_bind]
    simp only [tdiv_four, hperRow]
    rw [vectorAlloc_ok hreserve, ok_bind]
    rcases hstride with rfl | hstride
    · exact congrArg Except.ok (List.append_nil _).symm
    · have hternary : outF * inF < 18446744073709551616 := by
        calc outF * inF ≤ 2147483647 * 2147483647 := Nat.mul_le_mul hout hin'
          _ < 18446744073709551616 := by decide
      by_cases hne : terms = []
      · subst hne
        exact congrArg Except.ok (List.append_nil _).symm
      · exact packTerms_ok ⟨hstarts, hover, hstride, htable hne, hternary⟩ h.ternary h.scales _

/-- A layer of two rows and three columns. -/
theorem packAlsBlockTerms_eq_py_smallTerm :
    packAlsBlockTerms [smallTerm] 2 3 128 = packAlsBlockTermsPy [smallTerm] 2 3 128 := by
  have h := @packAlsBlockTerms_eq_py_iff 2 3 128 [smallTerm] (by decide) (by decide) (by decide)
    (by decide) (by decide) (by decide) ⟨by decide, by decide, by decide, by decide⟩
  exact h.2 ⟨by decide, .inr (by decide)⟩

/-- A term of one row that is as long as an `int` allows. -/
def longTerm : ALSTerm := ⟨List.replicate 16777216 0, List.replicate 2147483647 0⟩

theorem blockCount_longTerm : blockCount 2147483647 128 = 16777216 := by
  decide

theorem longTerm_shape : LayerTerms 1 2147483647 128 [longTerm] where
  ternary := by
    rw [List.forall_mem_singleton]
    exact List.length_replicate
  isTernary := by
    rw [List.forall_mem_singleton]
    intro v hv
    exact .inr (.inl (List.eq_of_mem_replicate hv))
  scales := by
    rw [List.forall_mem_singleton, blockCount_longTerm]
    exact List.length_replicate
  size := by
    rw [blockCount_longTerm, List.length_singleton]
    decide

/-- The native packer overflows on a layer of one row and `2^31 - 1` columns. -/
theorem packAlsBlockTerms_longTerm :
    LayerTerms 1 2147483647 128 [longTerm] ∧
    packAlsBlockTerms [longTerm] 1 2147483647 128 = undefined "signed integer overflow" ∧
    (∃ bytes, packAlsBlockTermsPy [longTerm] 1 2147483647 128 = .ok bytes) ∧
    packAlsBlockTerms [longTerm] 1 2147483647 128 ≠
      packAlsBlockTermsPy [longTerm] 1 2147483647 128 := by
  have hnative : packAlsBlockTerms [longTerm] 1 2147483647 128 =
      undefined "signed integer overflow" := rfl
  have hpy : ∃ bytes, packAlsBlockTermsPy [longTerm] 1 2147483647 (4 * 32) = .ok bytes :=
    ⟨_, packAlsBlockTermsPy_ok longTerm_shape.ternary longTerm_shape.scales
      (fun b => blockCount_starts (by decide)) (by decide) fun _ => by
        rw [blockCount_longTerm]
        decide⟩
  refine ⟨longTerm_shape, hnative, hpy, ?_⟩
  obtain ⟨bytes, hbytes⟩ := hpy
  rw [hnative, hbytes]
  exact undefined_ne_ok _ _

end Terllama
