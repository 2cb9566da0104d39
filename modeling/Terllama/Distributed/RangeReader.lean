import Terllama.Base.Ranges
import Terllama.Base.Decimal
import Terllama.Loader.Decomposed

/-!
# The range reader of a shard

`parse_layer_index` and `load_decomposed_layers_als_range` of `distributed/shard_loader.h`. The
reader has the record framing of `loadDecomposedLayersAls` twice: once for the records of its layers,
which it decodes, and once for all others, which it seeks past.

Both readers stand at the same offset after every record (`readRangeLayer_eq`), so that the range
reader returns the sub-list of its layers wherever it returns (`loadRange_eq`). It does not return on
a file with a layer index above the range of an `int`, even outside its own layers: the index of
every record is parsed, and `std::stoi` throws.
-/

namespace Terllama

/-! ## The layer index in a name -/

/-- `parse_layer_index`: the `N` of `model.layers.<N>.<suffix>`, or `-1`. -/
def parseLayerIndex (name : Bytes) : Exec Int :=
  let pfx := str "model.layers."
  if name.take pfx.length ≠ pfx then .ok (-1)
  else
    let rest := name.drop pfx.length
    match rest.findIdx? (· == 46) with
    | none => .ok (-1)
    | some dot =>
      let num := rest.take dot
      if dot = 0 then .ok (-1)
      else if num.isEmpty || !num.all isDigit then .ok (-1)
      else stoi num

/-- The reader of the layers `[start, end)`, with or without `lm_head`, keeps a record of this
name. -/
def keepRecord (start stop : Int) (includeLmHead : Bool) (name : Bytes) : Exec Bool := do
  let li ← parseLayerIndex name
  return (decide (start ≤ li ∧ li < stop)) || (includeLmHead && name == str "lm_head")

/-! ## The reader -/

/-- The body of a record of the old layout: decoded when kept, else sought past. -/
def readRangeOldBody (keep : Bool) (ld : LayerData) (nElements : Nat) (x : UInt32) :
    StreamM (Option LayerData) := do
  if x = 0 then
    let dataLen ← readU32 "data_len"
    if keep then
      let data ← readInto (List.replicate dataLen.toNat 0)
      let rawWeights ← copyFloats data
      return some { ld with hasRawWeights := true, rawWeights }
    else
      seekCur dataLen.toNat
      return none
  else if keep then
    let terms ← readBitplaneTerms nElements ld.outFeatures ld.inFeatures x.toNat
    return some { ld with terms }
  else
    let off ← i64 (x.toNat * (4 + packedSize nElements))
    seekCur off.toNat
    return none

/-- The body of a record of the new layout: decoded when kept, else sought past. -/
def readRangeNewBody (keep : Bool) (ld : LayerData) (x : UInt32) : StreamM (Option LayerData) := do
  let lenHi ← readU8 "len_hi"
  if keep then
    if layerTypeOf x > 2 then
      (raise "ALS layer: bad layer_type in model file" : Exec (Option LayerData))
    else
      let data ← readInto (List.replicate (dataLenOf x lenHi) 0)
      let ld ← parseLayerTypeData ld (layerTypeOf x) data
      return some ld
  else
    seekCur (dataLenOf x lenHi)
    return none

/-- One record of `load_decomposed_layers_als_range`. -/
def readRangeLayer (start stop : Int) (includeLmHead : Bool) : StreamM (Option LayerData) := do
  let nameLen ← readU32 "name_len"
  let name ← readInto (List.replicate nameLen.toNat 0)
  let outF ← readU32 "out_f"
  let inF ← readU32 "in_f"
  let x ← readU32 "x"
  let keep ← keepRecord start stop includeLmHead name
  let ld : LayerData :=
    { name, outFeatures := toInt32 outF.toNat, inFeatures := toInt32 inF.toNat }
  if sniffAlsLayout x = 1 then readRangeOldBody keep ld (sizeT (outF.toNat * inF.toNat)) x
  else readRangeNewBody keep ld x

/-- The record loop; `kept` grows by the records that are kept. -/
def readRangeLayers (start stop : Int) (includeLmHead : Bool) : Nat → StreamM (List LayerData)
  | 0 => pure []
  | n + 1 => do
    let ld ← readRangeLayer start stop includeLmHead
    let rest ← readRangeLayers start stop includeLmHead n
    return ld.toList ++ rest

/-- `load_decomposed_layers_als_range`, on the contents of the file. The argument of `reserve` is an
`int` expression. -/
def loadDecomposedLayersAlsRange (file : Bytes) (start stop : Int) (includeLmHead : Bool) :
    Exec (List LayerData) := do
  if start < 0 ∨ stop < start then
    raise ("Invalid shard layer range: [" ++ toString start ++ ", " ++ toString stop ++ ")")
  else
    let (numLayers, s) ← readAlsHeader (.open file)
    let count ← i32 (stop - start)
    let _ ← i32 (count + if includeLmHead then 1 else 0)
    let (layers, _) ← readRangeLayers start stop includeLmHead numLayers.toNat s
    return layers

example : parseLayerIndex (str "model.layers.12.mlp.up_proj") = .ok 12 := by decide

example : parseLayerIndex (str "model.layers.12") = .ok (-1) := by decide

/-! ## The two readers on one record -/

/-- What becomes of a record that was read. -/
def keepIf (keep : Bool) (ld : LayerData) : Option LayerData := if keep then some ld else none

theorem takes_readBitplaneTerm (nElements : Nat) (outF inF : Int) :
    Takes (readBitplaneTerm nElements outF inF) (4 + packedSize nElements) := by
  have hpacked : ∀ alphaExp : Int, Takes (do
      let packed ← readInto (List.replicate (packedSize nElements) 0)
      let combined ← decodeCombined packed outF inF
      return ({ alphaExp, nElements, combined } : BitplaneTerm)) (packedSize nElements) := by
    intro alphaExp
    have h := (takes_readInto (List.replicate (packedSize nElements) 0)).bind fun packed =>
      (takes_liftM (decodeCombined packed outF inF)).map fun combined =>
        ({ alphaExp, nElements, combined } : BitplaneTerm)
    rwa [List.length_replicate] at h
  exact takes_readI32.bind hpacked

theorem takes_readBitplaneTerms (nElements : Nat) (outF inF : Int) (n : Nat) :
    Takes (readBitplaneTerms nElements outF inF n) (n * (4 + packedSize nElements)) := by
  induction n with
  | zero =>
    rw [Nat.zero_mul]
    exact takes_pure []
  | succ n ih =>
    rw [Nat.succ_mul, Nat.add_comm (n * _)]
    exact (takes_readBitplaneTerm nElements outF inF).bind fun term => ih.map _

theorem advances_readOldBody (ld : LayerData) (nElements : Nat) (x : UInt32) :
    Advances (readOldBody ld nElements x) := by
  unfold readOldBody
  split
  · refine Advances.bind ?_ fun ws => advances_pure _
    refine (advances_readU32 _).bind fun dataLen => ?_
    exact (advances_readInto _).bind fun data => advances_liftM _
  · exact (takes_readBitplaneTerms _ _ _ _).advances.bind fun terms => advances_pure _

theorem advances_readNewBody (ld : LayerData) (x : UInt32) : Advances (readNewBody ld x) := by
  unfold readNewBody
  split
  · exact advances_liftM _
  · refine (takes_readU8 _).advances.bind fun lenHi => ?_
    exact (advances_readInto _).bind fun data => advances_liftM _

theorem advances_readAlsLayer : Advances readAlsLayer := by
  refine (advances_readU32 _).bind fun nameLen => (advances_readInto _).bind fun name => ?_
  refine takes_readI32.advances.bind fun outF => takes_readI32.advances.bind fun inF => ?_
  refine (advances_readU32 _).bind fun x => ?_
  dsimp only
  split
  · exact advances_readOldBody _ _ _
  · exact advances_readNewBody _ _

theorem advances_readAlsLayers (n : Nat) : Advances (readAlsLayers n) := by
  induction n with
  | zero => exact advances_pure []
  | succ n ih => exact advances_readAlsLayer.bind fun ld => ih.bind fun rest => advances_pure _

section
variable {ld ld' : LayerData} {x : UInt32} {s s' : InStream}

/-- On the body of an old record. -/
theorem readRangeOldBody_eq {nElements : Nat} (hsize : s.rest.length ≤ 9223372036854775807)
    (h : readOldBody ld nElements x s = .ok (ld', s')) (hfail : s'.fail = false) (keep : Bool) :
    readRangeOldBody keep ld nElements x s = .ok (keepIf keep ld', s') := by
  rw [readOldBody] at h
  rw [readRangeOldBody]
  split at h
  · rename_i hx
    rw [if_pos hx]
    obtain ⟨ws, s₁, hraw, h⟩ := StreamM.bind_eq_ok.1 h
    cases h
    obtain ⟨dataLen, s₂, hlen, hraw⟩ := StreamM.bind_eq_ok.1 hraw
    obtain ⟨data, s₃, hdata, hcopy⟩ := StreamM.bind_eq_ok.1 hraw
    rw [StreamM.bind_apply, hlen, ok_bind]
    cases keep with
    | true =>
      rw [if_pos rfl]
      rw [StreamM.bind_apply, hdata, ok_bind, StreamM.bind_apply, hcopy]
      rfl
    | false =>
      have htakes := (takes_liftM (copyFloats data)) s₃ ws s' hcopy hfail
      have hs₃ : s' = s₃ := by
        rw [htakes.2.2, List.drop_zero, ← htakes.1]
      rw [if_neg Bool.false_ne_true, StreamM.bind_apply]
      have hseek := (takes_readInto _).seekCur hdata (hs₃ ▸ hfail)
      rw [List.length_replicate] at hseek
      rw [hseek, hs₃]
      rfl
  · rename_i hx
    rw [if_neg hx]
    obtain ⟨terms, s₁, hterms, h⟩ := StreamM.bind_eq_ok.1 h
    cases h
    cases keep with
    | true =>
      rw [if_pos rfl, StreamM.bind_apply, hterms]
      rfl
    | false =>
      have htakes := takes_readBitplaneTerms nElements ld.outFeatures ld.inFeatures x.toNat
      obtain ⟨-, hlen, -⟩ := htakes s terms s' hterms hfail
      have hcast : ((x.toNat : Int) * (4 + (packedSize nElements : Nat))) =
          (x.toNat * (4 + packedSize nElements) : Nat) := by push_cast; ring
      rw [if_neg Bool.false_ne_true, hcast, StreamM.bind_apply, StreamM.liftM_apply,
        i64_ok (by omega) (by omega), ok_bind, ok_bind, StreamM.bind_apply, Int.toNat_natCast,
        htakes.seekCur hterms hfail]
      rfl

/-- On the body of a new record. -/
theorem readRangeNewBody_eq (h : readNewBody ld x s = .ok (ld', s')) (hfail : s'.fail = false)
    (keep : Bool) : readRangeNewBody keep ld x s = .ok (keepIf keep ld', s') := by
  rw [readNewBody] at h
  split at h
  · cases h
  rename_i htype
  obtain ⟨hi, s₁, hlen, h⟩ := StreamM.bind_eq_ok.1 h
  obtain ⟨data, s₂, hdata, hparse⟩ := StreamM.bind_eq_ok.1 h
  rw [readRangeNewBody, StreamM.bind_apply, hlen, ok_bind]
  cases keep with
  | true =>
    rw [if_pos rfl, if_neg htype, StreamM.bind_apply, hdata, ok_bind, StreamM.bind_apply, hparse]
    rfl
  | false =>
    have htakes := (takes_liftM (parseLayerTypeData ld (layerTypeOf x) data)) s₂ ld' s' hparse hfail
    have hs₂ : s' = s₂ := by
      rw [htakes.2.2, List.drop_zero, ← htakes.1]
    have hseek := (takes_readInto _).seekCur hdata (hs₂ ▸ hfail)
    rw [List.length_replicate] at hseek
    rw [if_neg Bool.false_ne_true, StreamM.bind_apply, hseek, hs₂]
    rfl

/-- A dimension that both readers read: the field of the layer, and the word of the range reader. -/
theorem readU32_of_readI32 {v : Int} (var : String) (h : readI32 s = .ok (v, s'))
    (hfail : s'.fail = false) :
    ∃ w : UInt32, readU32 var s = .ok (w, s') ∧ toInt32 w.toNat = v := by
  obtain ⟨hs, hlen, rfl⟩ := takes_readI32 s v s' h hfail
  obtain ⟨bs, s₁, hread, h⟩ := StreamM.bind_eq_ok.1 h
  cases h
  obtain ⟨-, -, hs₁⟩ := takes_readInto _ s bs _ hread rfl
  have hfresh : readFresh 4 var s = .ok (bs, ⟨s.rest.drop 4, false⟩) := by
    rw [readFresh, if_neg (by rw [hs]; simp [hlen])]
    rw [readInto, if_neg (by rw [hs]; exact Bool.false_ne_true)] at hread
    have hbs := congrArg Prod.fst (Except.ok.inj hread)
    simp only [List.length_cons, List.length_nil, Nat.reduceAdd, List.length_take,
      Nat.min_eq_left hlen, List.drop_succ_cons, List.drop_zero, List.append_nil] at hbs
    rw [hbs]
  refine ⟨UInt32.ofNat (leNat bs), ?_, ?_⟩
  · rw [readU32, StreamM.bind_apply, hfresh]
    rfl
  · rw [UInt32.toNat_ofNat']
    simp [toInt32]

/-- The range reader on a record that the other reader has read, with dimensions that are not
negative: it keeps or drops the layer and stands at the same place. -/
theorem readRangeLayer_eq (start stop : Int) (includeLmHead : Bool)
    (hsize : s.rest.length ≤ 9223372036854775807) (h : readAlsLayer s = .ok (ld, s'))
    (hfail : s'.fail = false) (hdims : 0 ≤ ld.outFeatures ∧ 0 ≤ ld.inFeatures) :
    readRangeLayer start stop includeLmHead s =
      keepRecord start stop includeLmHead ld.name >>= fun keep => .ok (keepIf keep ld, s') := by
  obtain ⟨nameLen, s₁, hnameLen, h⟩ := StreamM.bind_eq_ok.1 h
  obtain ⟨name, s₂, hname, h⟩ := StreamM.bind_eq_ok.1 h
  obtain ⟨outF, s₃, houtF, h⟩ := StreamM.bind_eq_ok.1 h
  obtain ⟨inF, s₄, hinF, h⟩ := StreamM.bind_eq_ok.1 h
  obtain ⟨x, s₅, hx, h⟩ := StreamM.bind_eq_ok.1 h
  have hbody : s₅.fail = false ∧ s'.rest.length ≤ s₅.rest.length ∧
      ld.header = (name, outF, inF) := by
    split at h
    · obtain ⟨hs₅, hlen⟩ := advances_readOldBody _ _ _ s₅ ld s' h hfail
      exact ⟨hs₅, hlen, readOldBody_header h⟩
    · obtain ⟨hs₅, hlen⟩ := advances_readNewBody _ _ s₅ ld s' h hfail
      exact ⟨hs₅, hlen, readNewBody_header h⟩
  obtain ⟨hs₅, -, hheader⟩ := hbody
  obtain ⟨hs₄, hlen₅⟩ := advances_readU32 _ s₄ x s₅ hx hs₅
  obtain ⟨hs₃, hlen₄⟩ := takes_readI32.advances s₃ inF s₄ hinF hs₄
  obtain ⟨hs₂, hlen₃⟩ := takes_readI32.advances s₂ outF s₃ houtF hs₃
  obtain ⟨hs₁, hlen₂⟩ := advances_readInto _ s₁ name s₂ hname hs₂
  obtain ⟨-, hlen₁⟩ := advances_readU32 _ s nameLen s₁ hnameLen hs₁
  obtain ⟨outW, houtW, hout⟩ := readU32_of_readI32 "out_f" houtF hs₃
  obtain ⟨inW, hinW, hin⟩ := readU32_of_readI32 "in_f" hinF hs₄
  obtain ⟨rfl, rfl, rfl⟩ : ld.name = name ∧ ld.outFeatures = outF ∧ ld.inFeatures = inF := by
    simpa [LayerData.header] using hheader
  have hmul : sizeT (outW.toNat * inW.toNat) = sizeT (ld.outFeatures * ld.inFeatures) := by
    rw [← hout, ← hin] at hdims ⊢
    rw [toInt32_of_lt ((toInt32_nonneg_iff outW.toNat_lt).1 hdims.1),
      toInt32_of_lt ((toInt32_nonneg_iff inW.toNat_lt).1 hdims.2)]
  rw [readRangeLayer, StreamM.bind_apply, hnameLen, ok_bind, StreamM.bind_apply, hname, ok_bind,
    StreamM.bind_apply, houtW, ok_bind, StreamM.bind_apply, hinW, ok_bind, StreamM.bind_apply, hx,
    ok_bind, StreamM.bind_apply, StreamM.liftM_apply, bind_assoc]
  refine bind_congr fun keep => ?_
  rw [ok_bind]
  dsimp only
  rw [hmul, hout, hin]
  split at h
  · rename_i hsniff
    rw [if_pos hsniff]
    exact readRangeOldBody_eq (by omega) h hfail keep
  · rename_i hsniff
    rw [if_neg hsniff]
    exact readRangeNewBody_eq h hfail keep

end

/-! ## The layers of a range -/

/-- The name has a layer index that does not fit an `int`. -/
def OverflowsIndex (name : Bytes) : Prop :=
  ∃ digits suffix, name = str "model.layers." ++ digits ++ [46] ++ suffix ∧
    (∀ c ∈ digits, isDigit c = true) ∧ 2147483647 < decimalValue digits

/-- The layer index of the name lies in `[start, stop)`, or the name is `lm_head` and that is
included. -/
def inShard (start stop : Int) (includeLmHead : Bool) (ld : LayerData) : Bool :=
  (match parseLayerIndex ld.name with
    | .ok li => decide (start ≤ li ∧ li < stop)
    | .error _ => false) ||
  (includeLmHead && ld.name == str "lm_head")

/-- `parse_layer_index` on a name with an index. -/
theorem parseLayerIndex_indexed {digits : Bytes} (hne : digits ≠ [])
    (hdigits : ∀ c ∈ digits, isDigit c = true) (suffix : Bytes) :
    parseLayerIndex (str "model.layers." ++ digits ++ [46] ++ suffix) = stoi digits := by
  have hdot : (digits ++ 46 :: suffix).findIdx? (· == 46) = some digits.length := by
    have hnone : digits.findIdx? (· == 46) = none := by
      rw [List.findIdx?_eq_none_iff]
      intro c hc
      rw [beq_eq_false_iff_ne]
      rintro rfl
      exact absurd (hdigits 46 hc) (by decide)
    rw [List.findIdx?_append, hnone, List.findIdx?_cons, if_pos (by decide)]
    simp
  have hlen : digits.length ≠ 0 := mt List.length_eq_zero_iff.1 hne
  have hcheck : (digits.isEmpty || !digits.all isDigit) = false := by
    rw [List.all_eq_true.2 hdigits, List.isEmpty_eq_false_iff.2 hne]
    rfl
  rw [parseLayerIndex, List.append_assoc, List.append_assoc, List.take_left, List.drop_left,
    if_neg (not_not_intro rfl), List.singleton_append]
  simp only [hdot, List.take_left, if_neg hlen, hcheck, if_neg Bool.false_ne_true]

/-- `parse_layer_index` throws exactly on the names whose index does not fit. -/
theorem parseLayerIndex_ok_iff (name : Bytes) :
    (∃ li, parseLayerIndex name = .ok li) ↔ ¬ OverflowsIndex name := by
  constructor
  · rintro ⟨li, hli⟩ ⟨digits, suffix, rfl, hdigits, hbig⟩
    have hne : digits ≠ [] := by
      rintro rfl
      exact absurd hbig (by decide)
    rw [parseLayerIndex_indexed hne hdigits, stoi, if_neg (not_le.2 hbig)] at hli
    cases hli
  · intro h
    rw [parseLayerIndex]
    dsimp only
    split
    · exact ⟨-1, rfl⟩
    rename_i hpfx
    split
    · exact ⟨-1, rfl⟩
    rename_i dot hdot
    split
    · exact ⟨-1, rfl⟩
    split
    · exact ⟨-1, rfl⟩
    rename_i hcheck
    obtain ⟨hlt, hbyte, -⟩ := List.findIdx?_eq_some_iff_getElem.1 hdot
    rw [stoi]
    split
    · exact ⟨_, rfl⟩
    rename_i hbig
    have hall : ∀ c ∈ (name.drop (str "model.layers.").length).take dot, isDigit c = true := by
      intro c hc
      rw [Bool.or_eq_true, not_or, Bool.not_eq_true', Bool.not_eq_false] at hcheck
      exact List.all_eq_true.1 hcheck.2 c hc
    refine absurd ⟨_, (name.drop (str "model.layers.").length).drop (dot + 1), ?_, hall,
      not_le.1 hbig⟩ h
    rw [← beq_iff_eq.1 hbyte, List.append_assoc, List.append_assoc, List.singleton_append,
      List.cons_getElem_drop_succ, List.take_append_drop]
    conv_lhs => rw [← List.take_append_drop (str "model.layers.").length name, not_ne_iff.1 hpfx]

/-- The layers that the range reader keeps. -/
def keptLayers (start stop : Int) (includeLmHead : Bool) : List LayerData → Exec (List LayerData)
  | [] => .ok []
  | ld :: lds => do
    let keep ← keepRecord start stop includeLmHead ld.name
    let rest ← keptLayers start stop includeLmHead lds
    return (keepIf keep ld).toList ++ rest

section
variable {start stop : Int} {includeLmHead : Bool}

theorem keepRecord_eq_ok {ld : LayerData} {keep : Bool} :
    keepRecord start stop includeLmHead ld.name = .ok keep ↔
      ¬ OverflowsIndex ld.name ∧ keep = inShard start stop includeLmHead ld := by
  rw [← parseLayerIndex_ok_iff, keepRecord, inShard]
  cases parseLayerIndex ld.name with
  | error e => simp
  | ok li =>
    simp only [ok_bind, pure_eq_ok, Except.ok.injEq, exists_eq', true_and]
    exact eq_comm

/-- They are the sub-list of the layers of the range, if every index fits. -/
theorem keptLayers_eq_ok {lds out : List LayerData} :
    keptLayers start stop includeLmHead lds = .ok out ↔
      (∀ ld ∈ lds, ¬ OverflowsIndex ld.name) ∧
        out = lds.filter (inShard start stop includeLmHead) := by
  induction lds generalizing out with
  | nil => simp [keptLayers, eq_comm]
  | cons ld lds ih =>
    rw [List.forall_mem_cons, keptLayers, bind_eq_ok]
    constructor
    · rintro ⟨keep, hkeep, h⟩
      obtain ⟨rest, hrest, h⟩ := bind_eq_ok.1 h
      cases h
      obtain ⟨hname, rfl⟩ := keepRecord_eq_ok.1 hkeep
      obtain ⟨hnames, rfl⟩ := ih.1 hrest
      refine ⟨⟨hname, hnames⟩, ?_⟩
      rw [List.filter_cons, keepIf]
      split <;> rfl
    · rintro ⟨⟨hname, hnames⟩, rfl⟩
      refine ⟨_, keepRecord_eq_ok.2 ⟨hname, rfl⟩, ?_⟩
      rw [ih.2 ⟨hnames, rfl⟩, ok_bind, List.filter_cons, keepIf]
      split <;> rfl

/-- The range reader on records that the other reader has read. -/
theorem readRangeLayers_eq {n : Nat} {s s' : InStream} {lds : List LayerData}
    (hsize : s.rest.length ≤ 9223372036854775807) (h : readAlsLayers n s = .ok (lds, s'))
    (hfail : s'.fail = false) (hdims : ∀ ld ∈ lds, 0 ≤ ld.outFeatures ∧ 0 ≤ ld.inFeatures) :
    readRangeLayers start stop includeLmHead n s =
      keptLayers start stop includeLmHead lds >>= fun kept => .ok (kept, s') := by
  induction n generalizing s lds with
  | zero =>
    cases h
    rfl
  | succ n ih =>
    obtain ⟨ld, s₁, hld, h⟩ := StreamM.bind_eq_ok.1 h
    obtain ⟨rest, s₂, hrest, h⟩ := StreamM.bind_eq_ok.1 h
    cases h
    obtain ⟨hs₁, -⟩ := advances_readAlsLayers n s₁ rest s' hrest hfail
    obtain ⟨-, hlen⟩ := advances_readAlsLayer s ld s₁ hld hs₁
    obtain ⟨hdim, hdims⟩ := List.forall_mem_cons.1 hdims
    have ih := ih (hlen.trans hsize) hrest hdims
    rw [readRangeLayers, StreamM.bind_apply,
      readRangeLayer_eq start stop includeLmHead hsize hld hs₁ hdim, keptLayers, bind_assoc,
      bind_assoc]
    refine bind_congr fun keep => ?_
    rw [ok_bind, StreamM.bind_apply, ih, bind_assoc, bind_assoc]
    rfl

end

/-! ## The file -/

/-- A well-formed `model_decomposed.bin` with these layers: the records lie inside the file, and
their dimensions are not negative. -/
structure WellFormedFile (file : Bytes) (layers : List LayerData) : Prop where
  size_le : file.length ≤ 9223372036854775807
  records : ∃ numLayers s s', readAlsHeader (.open file) = .ok (numLayers, s) ∧
    readAlsLayers numLayers.toNat s = .ok (layers, s') ∧ s'.fail = false
  dims : ∀ ld ∈ layers, 0 ≤ ld.outFeatures ∧ 0 ≤ ld.inFeatures

section
variable {file : Bytes} {layers : List LayerData}

theorem WellFormedFile.load (h : WellFormedFile file layers) :
    loadDecomposedLayersAls file = .ok layers := by
  obtain ⟨numLayers, s, s', hheader, hlayers, -⟩ := h.records
  rw [loadDecomposedLayersAls, hheader, ok_bind]
  dsimp only
  rw [hlayers]
  rfl

theorem advances_readAlsHeader : Advances readAlsHeader := by
  refine (advances_readU32 _).bind fun magic => ?_
  split
  · exact advances_liftM _
  · exact advances_readU32 _

/-- The range reader on a well-formed file. -/
theorem loadRange_eq (h : WellFormedFile file layers) {start stop : Int} (hstart : 0 ≤ start)
    (hle : start ≤ stop) (includeLmHead : Bool) :
    loadDecomposedLayersAlsRange file start stop includeLmHead = (do
      let count ← i32 (stop - start)
      let _ ← i32 (count + if includeLmHead then 1 else 0)
      keptLayers start stop includeLmHead layers) := by
  obtain ⟨numLayers, s, s', hheader, hlayers, hfail⟩ := h.records
  obtain ⟨hs, -⟩ := advances_readAlsLayers _ s layers s' hlayers hfail
  obtain ⟨-, hlen⟩ := advances_readAlsHeader _ _ s hheader hs
  rw [loadDecomposedLayersAlsRange, if_neg (by omega), hheader, ok_bind]
  refine bind_congr fun count => bind_congr fun cap => ?_
  rw [readRangeLayers_eq (hlen.trans h.size_le) hlayers hfail h.dims, bind_assoc]
  exact bind_pure _

/-- The range reader returns the layers of its range exactly if every layer index of the file fits,
and the number of layers it may keep does. -/
theorem loadRange_eq_filter_iff (h : WellFormedFile file layers) {start stop : Int}
    (hstart : 0 ≤ start) (hle : start ≤ stop) (hmax : stop ≤ 2147483647) (includeLmHead : Bool) :
    loadDecomposedLayersAlsRange file start stop includeLmHead =
        .ok (layers.filter (inShard start stop includeLmHead)) ↔
      (∀ ld ∈ layers, ¬ OverflowsIndex ld.name) ∧
        stop - start + (if includeLmHead then 1 else 0) ≤ 2147483647 := by
  have hbit : (0 : Int) ≤ if includeLmHead then 1 else 0 := by
    split <;> decide
  rw [loadRange_eq h hstart hle, i32_ok (by omega) (by omega), ok_bind, bind_eq_ok]
  constructor
  · rintro ⟨cap, hcap, hkept⟩
    exact ⟨(keptLayers_eq_ok.1 hkept).1, (i32_eq_ok.1 hcap).2.2⟩
  · rintro ⟨hnames, hcap⟩
    exact ⟨_, i32_ok (by omega) hcap, keptLayers_eq_ok.2 ⟨hnames, rfl⟩⟩

/-- A layer with an index is in the shards whose range holds the index. -/
theorem inShard_iff {ld : LayerData} {li : Int} (hli : parseLayerIndex ld.name = .ok li)
    (hnonneg : 0 ≤ li) (start stop : Int) (includeLmHead : Bool) :
    inShard start stop includeLmHead ld = true ↔ InRange li (start, stop) := by
  have hname : (ld.name == str "lm_head") = false := by
    rw [beq_eq_false_iff_ne]
    intro heq
    rw [heq, show parseLayerIndex (str "lm_head") = .ok (-1) by decide] at hli
    cases hli
    exact absurd hnonneg (by decide)
  rw [inShard, hli, hname, Bool.and_false, Bool.or_false]
  exact decide_eq_true_iff

end

/-- The range reader on every range of every well-formed file: it returns the sub-list of its layers
exactly if the indices and the number of kept layers fit an `int`. Then over a partition of the
layers every layer record is loaded by exactly one shard, unchanged. -/
theorem range_reader_exact {file : Bytes} {layers : List LayerData}
    (h : WellFormedFile file layers) :
    loadDecomposedLayersAls file = .ok layers ∧
    (∀ start stop includeLmHead, 0 ≤ start → start ≤ stop → stop ≤ 2147483647 →
      (loadDecomposedLayersAlsRange file start stop includeLmHead =
          .ok (layers.filter (inShard start stop includeLmHead)) ↔
        (∀ ld ∈ layers, ¬ OverflowsIndex ld.name) ∧
          stop - start + (if includeLmHead then 1 else 0) ≤ 2147483647)) ∧
    ∀ (nLayers : Int) (shards : List ((Int × Int) × Bool)), nLayers ≤ 2147483647 →
      Consecutive 0 nLayers (shards.map Prod.fst) → (∀ ld ∈ layers, ¬ OverflowsIndex ld.name) →
      (∀ s ∈ shards, s.1.2 - s.1.1 + (if s.2 then 1 else 0) ≤ 2147483647) →
      ∃ kept : (Int × Int) × Bool → List LayerData,
        (∀ s ∈ shards, loadDecomposedLayersAlsRange file s.1.1 s.1.2 s.2 = .ok (kept s)) ∧
        ∀ ld ∈ layers, ∀ li, parseLayerIndex ld.name = .ok li → 0 ≤ li → li < nLayers →
          shards.countP (fun s => ld ∈ kept s) = 1 := by
  refine ⟨h.load, fun start stop includeLmHead hstart hle hmax =>
    loadRange_eq_filter_iff h hstart hle hmax includeLmHead, ?_⟩
  intro nLayers shards hmax hcons hnames hcap
  refine ⟨fun s => layers.filter (inShard s.1.1 s.1.2 s.2), fun s hs => ?_, ?_⟩
  · have hrange := List.mem_map_of_mem (f := Prod.fst) hs
    have hle : s.1.1 ≤ s.1.2 := hcons.le_of_mem hrange
    have hlo := hcons.le_fst hrange
    have hhi := hcons.snd_le hrange
    exact (loadRange_eq_filter_iff h hlo hle (hhi.trans hmax) s.2).2 ⟨hnames, hcap s hs⟩
  · intro ld hld li hli hnonneg hlt
    have hcount := hcons.countP_eq li
    rw [if_pos ⟨hnonneg, hlt⟩, List.countP_map] at hcount
    rw [← hcount]
    refine List.countP_congr fun s _ => ?_
    rw [decide_eq_true_iff, Function.comp_apply, decide_eq_true_iff, List.mem_filter]
    exact (and_iff_right hld).trans (inShard_iff hli hnonneg _ _ _)

/-- A file of two raw records without weights, in the two layouts. -/
def twoRecords (name₀ name₁ : Bytes) : Bytes :=
  u32Bytes 0xDEADBEEF ++ u32Bytes 2 ++
    (u32Bytes name₀.length ++ name₀ ++ u32Bytes 3 ++ u32Bytes 5 ++ u32Bytes 0 ++ u32Bytes 0) ++
    (u32Bytes name₁.length ++ name₁ ++ u32Bytes 3 ++ u32Bytes 5 ++ [1] ++ u32Bytes 4 ++
      [0, 0, 0x80, 0x3F])

/-- The layers of such a file. -/
def twoLayers (name₀ name₁ : Bytes) : List LayerData :=
  [{ name := name₀, outFeatures := 3, inFeatures := 5, hasRawWeights := true },
    { name := name₁, outFeatures := 3, inFeatures := 5, hasRawWeights := true,
      rawWeights := [0x3F800000] }]

/-- The file of a projection of layer 1 and of `lm_head`, and two of its shards. -/
theorem range_reader_exact_small :
    loadDecomposedLayersAlsRange (twoRecords (str "model.layers.1.mlp.up_proj") (str "lm_head"))
        0 2 true = .ok (twoLayers (str "model.layers.1.mlp.up_proj") (str "lm_head")) ∧
      loadDecomposedLayersAlsRange (twoRecords (str "model.layers.1.mlp.up_proj") (str "lm_head"))
        2 3 false = .ok [] := by
  have hfile : WellFormedFile (twoRecords (str "model.layers.1.mlp.up_proj") (str "lm_head"))
      (twoLayers (str "model.layers.1.mlp.up_proj") (str "lm_head")) :=
    ⟨by decide, ⟨2, _, ⟨[], false⟩, rfl, by decide, rfl⟩, by decide⟩
  obtain ⟨-, hrange, -⟩ := range_reader_exact hfile
  have hnames : ∀ ld ∈ twoLayers (str "model.layers.1.mlp.up_proj") (str "lm_head"),
      ¬ OverflowsIndex ld.name := by
    intro ld hld
    rw [← parseLayerIndex_ok_iff]
    rcases List.mem_cons.1 hld with rfl | hld
    · exact ⟨1, by decide⟩
    · cases List.mem_singleton.1 hld
      exact ⟨-1, by decide⟩
  exact ⟨(hrange 0 2 true (by decide) (by decide) (by decide)).2 ⟨hnames, by decide⟩,
    (hrange 2 3 false (by decide) (by decide) (by decide)).2 ⟨hnames, by decide⟩⟩

/-- A record with the index `2^31` makes the range reader throw, whatever its own layers are. -/
theorem not_range_reader_exact_overflow :
    ∃ file layers, WellFormedFile file layers ∧ loadDecomposedLayersAls file = .ok layers ∧
      loadDecomposedLayersAlsRange file 0 2 false = raise "stoi" ∧
      loadDecomposedLayersAlsRange file 0 2 false ≠ .ok (layers.filter (inShard 0 2 false)) := by
  refine ⟨twoRecords (str "model.layers.1.mlp.up_proj") (str "model.layers.2147483648.w"),
    twoLayers (str "model.layers.1.mlp.up_proj") (str "model.layers.2147483648.w"),
    ⟨by decide, ⟨2, _, ⟨[], false⟩, rfl, by decide, rfl⟩, by decide⟩, by decide, by decide, ?_⟩
  decide

end Terllama
