import Terllama.Convert.Extra
import Terllama.Convert.Half

/-!
# Parsing safetensors

`parse_safetensors` of `src/convert/safetensors.cpp`. The JSON parser is a parameter: any function
from the bytes of the header to a value. What the parser returns is untrusted; `parseEntry_cases`
says what is left of it when an entry has passed all checks, and `parseSafetensors_faithful` what the tensors
are when the file has.
-/

namespace Terllama

/-! ## The header -/

/-- A parsed JSON value, with the two types of integers of the library. -/
inductive HeaderValue where
  | null
  | boolean (b : Bool)
  | integer (n : Int64)
  | unsigned (n : UInt64)
  | float (word : UInt64)
  | string (s : Bytes)
  | array (elems : List HeaderValue)
  | object (members : List (Bytes × HeaderValue))

/-- `type_name`. -/
def HeaderValue.typeName : HeaderValue → String
  | .null => "null"
  | .boolean _ => "boolean"
  | .integer _ | .unsigned _ | .float _ => "number"
  | .string _ => "string"
  | .array _ => "array"
  | .object _ => "object"

/-- The integer that a value is. -/
def HeaderValue.int? : HeaderValue → Option Int
  | .integer n => some n.toInt
  | .unsigned n => some n.toNat
  | _ => none

/-- `get<int64_t>()` of an integer. -/
def HeaderValue.toInt64? : HeaderValue → Option Int
  | .integer n => some n.toInt
  | .unsigned n => some n.toInt64.toInt
  | _ => none

/-- `get<uint64_t>()` of an integer. -/
def HeaderValue.toUInt64? : HeaderValue → Option Nat
  | .integer n => some n.toUInt64.toNat
  | .unsigned n => some n.toNat
  | _ => none

/-- The member of an object. -/
def headerMember (key : String) (t : List (Bytes × HeaderValue)) : Option HeaderValue :=
  (t.find? fun m => m.1 = str key).map (·.2)

/-- `t.value("dtype", "")`. -/
def dtypeOf (t : List (Bytes × HeaderValue)) : Exec Bytes :=
  match headerMember "dtype" t with
  | none => .ok []
  | some (.string s) => .ok s
  | some v => raise ("[json.exception.type_error.302] type must be string, but is " ++ v.typeName)

/-- An element of the shape: an integer that is not negative as an `int64_t`. -/
def shapeDim (d : HeaderValue) : Option Nat := do
  let v ← d.toInt64?
  if v < 0 then none else some v.toNat

/-- The shape of an entry. -/
def shapeOf (t : List (Bytes × HeaderValue)) : Option (List Nat) :=
  match headerMember "shape" t with
  | some (.array ds) => ds.mapM shapeDim
  | _ => none

/-- The data offsets of an entry. -/
def offsetsOf (t : List (Bytes × HeaderValue)) : Option (Nat × Nat) :=
  match headerMember "data_offsets" t with
  | some (.array [a, b]) => do return (← a.toUInt64?, ← b.toUInt64?)
  | _ => none

/-- The element count, guarded against overflow. -/
def elemCount : Nat → List Nat → Option Nat
  | nelem, [] => some nelem
  | nelem, d :: ds =>
    if d ≠ 0 ∧ nelem > 18446744073709551615 / d then none
    else elemCount (nelem * d % 18446744073709551616) ds

/-- The bytes of an element. -/
def elemSize (dtype : Bytes) : Option Nat :=
  if dtype = str "F32" then some 4
  else if dtype = str "F16" then some 2
  else if dtype = str "BF16" then some 2
  else none

/-! ## The tensors -/

/-- `STTensor`, before anything is known of it. -/
structure ParsedTensor where
  name : Bytes
  shape : List Nat
  dtype : Bytes
  data : List F32
  deriving DecidableEq, Repr

/-- The decoding of the data of a tensor, at byte `src` of the buffer. -/
def decodeData (buf : Bytes) (dtype : Bytes) (src nelem : Nat) : Exec (List F32) :=
  if dtype = str "F32" then do
    let bytes ← slice buf src (nelem * 4)
    return floatsOf bytes
  else if dtype = str "F16" then f16sToF32 buf src (List.replicate nelem 0) nelem
  else bf16sToF32 buf src (List.replicate nelem 0) nelem

/-- What the loop over the header does with an entry. -/
inductive EntryResult where
  /-- `return false`. -/
  | fail
  /-- `continue`. -/
  | skip
  | tensor (t : ParsedTensor)

/-- The body of the loop on an entry that is an object; the data region starts at `dataOff`. -/
def parseEntry (buf : Bytes) (dataOff : Nat) (name : Bytes) (t : List (Bytes × HeaderValue)) :
    Exec EntryResult := do
  let dtype ← dtypeOf t
  match shapeOf t, offsetsOf t with
  | some shape, some (start, stop) =>
    if start > stop ∨ stop > buf.length - dataOff then return .fail
    else
      match elemCount 1 shape with
      | none => return .fail
      | some nelem =>
        match elemSize dtype with
        | none => return .skip
        | some esize =>
          if nelem * esize % 18446744073709551616 ≠ stop - start then return .fail
          else if nelem > vectorMaxSize 4 then return .fail
          else
            let data ← decodeData buf dtype (dataOff + start) nelem
            return .tensor { name, shape, dtype, data }
  | _, _ => return .fail

/-- The loop over the header. -/
def parseEntries (buf : Bytes) (dataOff : Nat) :
    List (Bytes × HeaderValue) → List ParsedTensor → Exec (Option (List ParsedTensor))
  | [], out => .ok (some out)
  | (key, value) :: entries, out =>
    if (str "__").isPrefixOf key then parseEntries buf dataOff entries out
    else
      match value with
      | .object t => do
        match ← parseEntry buf dataOff key t with
        | .fail => return none
        | .skip => parseEntries buf dataOff entries out
        | .tensor tt => parseEntries buf dataOff entries (out ++ [tt])
      | _ => parseEntries buf dataOff entries out

/-- `parse_safetensors`, with `none` where it returns false. -/
def parseSafetensors (parse : Bytes → Except String HeaderValue) (buf : Bytes) :
    Exec (Option (List ParsedTensor)) := do
  if buf.length < 8 then return none
  else
    let head ← slice buf 0 8
    let jsonLen := leNat head
    if jsonLen > buf.length - 8 then return none
    else if (8 + jsonLen) % 8 ≠ 0 then return none
    else
      let text ← slice buf 8 jsonLen
      match parse text with
      | .error _ => return none
      | .ok (.object entries) => parseEntries buf (8 + jsonLen) entries []
      | .ok _ => return none

/-! ## What an entry stands for -/

/-- The dtypes that are decoded. -/
def knownDtypes : List Bytes := [str "F32", str "F16", str "BF16"]

/-- The halves of a range of bytes. -/
def halvesOf (bytes : Bytes) : List UInt16 :=
  (List.range (bytes.length / 2)).map (halfAt bytes 0)

/-- The elements of a range of bytes, decoded one by one. -/
def decodeElems (dtype : Bytes) (bytes : Bytes) : List F32 :=
  if dtype = str "F32" then floatsOf bytes
  else (halvesOf bytes).map (if dtype = str "F16" then f16ToF32 else bf16ToF32)

/-- The integers that an array holds. -/
def ints? : HeaderValue → Option (List Int)
  | .array ds => ds.mapM HeaderValue.int?
  | _ => none

/-- The tensor `tt` is what the members `t` of the header say of `key`: its shape, and the decoding of
the range of the data region, which starts at `dataOff`, that the data offsets name. -/
structure Denotes (buf : Bytes) (dataOff : Nat) (key : Bytes) (t : List (Bytes × HeaderValue))
    (tt : ParsedTensor) : Prop where
  name : tt.name = key
  dtype : headerMember "dtype" t = some (.string tt.dtype) ∧ tt.dtype ∈ knownDtypes
  shape : (headerMember "shape" t).bind ints? = some (tt.shape.map Int.ofNat)
  data_length : tt.data.length = tt.shape.prod
  data_le : tt.data.length ≤ vectorMaxSize 4
  data : ∃ s e : Nat, (headerMember "data_offsets" t).bind ints? = some [(s : Int), (e : Int)] ∧
    s ≤ e ∧ dataOff + e ≤ buf.length ∧
    tt.data = decodeElems tt.dtype ((buf.drop (dataOff + s)).take (e - s))

/-- The tensor as the exporter takes it. -/
def Denotes.toSTTensor {buf : Bytes} {dataOff : Nat} {key : Bytes}
    {t : List (Bytes × HeaderValue)} {tt : ParsedTensor} (h : Denotes buf dataOff key t tt) :
    STTensor :=
  ⟨tt.shape, tt.data, h.data_length, h.data_le⟩

/-! ## The checks of an entry -/

/-- A product that passed the guard did not wrap. -/
theorem elemCount_eq {ds : List Nat} {nelem n : Nat} (h : elemCount nelem ds = some n)
    (hnelem : nelem < 18446744073709551616) : n = nelem * ds.prod ∧ n < 18446744073709551616 := by
  induction ds generalizing nelem with
  | nil =>
    cases h
    exact ⟨by rw [List.prod_nil, Nat.mul_one], hnelem⟩
  | cons d ds ih =>
    rw [elemCount] at h
    split at h
    · cases h
    · rename_i hguard
      have hlt : nelem * d < 18446744073709551616 := by
        by_cases hd : d = 0
        · rw [hd, Nat.mul_zero]
          exact Nat.two_pow_pos 64
        · have hle : nelem ≤ 18446744073709551615 / d :=
            Nat.le_of_not_gt fun hgt => hguard ⟨hd, hgt⟩
          exact Nat.lt_succ_of_le ((Nat.le_div_iff_mul_le (Nat.pos_of_ne_zero hd)).1 hle)
      rw [Nat.mod_eq_of_lt hlt] at h
      obtain ⟨hn, hbound⟩ := ih h hlt
      exact ⟨by rw [hn, List.prod_cons, Nat.mul_assoc], hbound⟩

/-- The conversion to `int64_t` keeps the lower half of the range. -/
theorem toInt_toInt64 (n : UInt64) : n.toInt64.toInt =
    if 2 * n.toNat < 18446744073709551616 then (n.toNat : Int)
    else n.toNat - (18446744073709551616 : Nat) :=
  BitVec.toInt_eq_toNat_cond n.toBitVec

/-- A dimension is the integer that it was read from. -/
theorem int?_of_shapeDim {d : HeaderValue} {n : Nat} (h : shapeDim d = some n) :
    d.int? = some (n : Int) := by
  rw [shapeDim, Option.bind_eq_bind, Option.bind_eq_some_iff] at h
  obtain ⟨v, hv, h⟩ := h
  split at h
  · cases h
  · rename_i hneg
    cases h
    rw [Int.toNat_of_nonneg (Int.not_lt.1 hneg)]
    cases d with
    | integer m => exact hv
    | unsigned m =>
      have hm := m.toNat_lt
      have hv : m.toInt64.toInt = v := Option.some.inj hv
      have hm' : (m.toNat : Int) = v := by
        rw [← hv, toInt_toInt64] at hneg ⊢
        split at hneg
        · rename_i hlow
          rw [if_pos hlow]
        · omega
      exact congrArg some hm'
    | _ => cases hv

/-- An offset inside a vector is the integer that it was read from. -/
theorem int?_of_toUInt64? {d : HeaderValue} {n : Nat} (h : d.toUInt64? = some n)
    (hn : n ≤ vectorMaxSize 1) : d.int? = some (n : Int) := by
  cases d with
  | integer m =>
    have hm : m.toUInt64.toNat = n := Option.some.inj h
    have hn : n ≤ 9223372036854775807 := hn
    have hint : m.toInt = (n : Int) := by
      rw [← Int64.toInt64_toUInt64 m, toInt_toInt64, hm, if_pos (by omega)]
    exact congrArg some hint
  | unsigned m =>
    cases h
    rfl
  | _ => cases h

/-- The batches decode a range of a buffer as they would decode it alone. -/
theorem decodeBatch_range (decode : UInt16 → F32) {buf : Bytes} {src n : Nat}
    (h : src + n * 2 ≤ buf.length) :
    decodeBatch decode buf src (List.replicate n 0) n =
      .ok ((halvesOf ((buf.drop src).take (n * 2))).map decode) := by
  have hlen : ((buf.drop src).take (n * 2)).length = n * 2 := by
    rw [List.length_take, List.length_drop]
    omega
  rw [(fills_decodeBatch decode h).run (by simp), halvesOf, hlen,
    Nat.mul_div_cancel n Nat.two_pos, List.map_map]
  refine congrArg Except.ok (List.map_congr_left fun i hi => ?_)
  have hi' : i < n := List.mem_range.1 hi
  rw [Function.comp_apply, halfAt, halfAt, Nat.zero_add, List.drop_take, List.take_take,
    List.drop_drop, Nat.min_eq_left (by omega)]

/-- A list of integers whose elements were all read. -/
theorem mapM_int? {read : HeaderValue → Option Nat} {ds : List HeaderValue} {ns : List Nat}
    (h : ds.mapM read = some ns)
    (hread : ∀ d n, n ∈ ns → read d = some n → d.int? = some (n : Int)) :
    ds.mapM HeaderValue.int? = some (ns.map Int.ofNat) := by
  induction ds generalizing ns with
  | nil =>
    rw [List.mapM_nil] at h
    cases h
    rfl
  | cons d ds ih =>
    rw [List.mapM_cons, Option.bind_eq_bind, Option.bind_eq_some_iff] at h
    obtain ⟨n, hn, h⟩ := h
    rw [Option.bind_eq_bind, Option.bind_eq_some_iff] at h
    obtain ⟨ns', hns, h⟩ := h
    cases h
    rw [List.mapM_cons, hread d n (by simp) hn,
      ih hns fun d' m hm => hread d' m (List.mem_cons_of_mem _ hm)]
    rfl

/-- The shape of an entry is the list of integers that it names. -/
theorem ints?_of_shapeOf {t : List (Bytes × HeaderValue)} {shape : List Nat}
    (h : shapeOf t = some shape) :
    (headerMember "shape" t).bind ints? = some (shape.map Int.ofNat) := by
  unfold shapeOf at h
  split at h
  · rename_i ds hds
    rw [hds]
    exact mapM_int? h fun d n _ hd => int?_of_shapeDim hd
  · cases h

/-- Offsets inside a vector are the two integers that the entry names. -/
theorem ints?_of_offsetsOf {t : List (Bytes × HeaderValue)} {s e : Nat}
    (h : offsetsOf t = some (s, e)) (hs : s ≤ e) (he : e ≤ vectorMaxSize 1) :
    (headerMember "data_offsets" t).bind ints? = some [(s : Int), (e : Int)] := by
  unfold offsetsOf at h
  split at h
  · rename_i a b hab
    rw [Option.bind_eq_bind, Option.bind_eq_some_iff] at h
    obtain ⟨s', hs', h⟩ := h
    rw [Option.bind_eq_some_iff] at h
    obtain ⟨e', he', h⟩ := h
    cases h
    rw [hab]
    show [a, b].mapM HeaderValue.int? = _
    rw [List.mapM_cons, List.mapM_cons, int?_of_toUInt64? hs' (hs.trans he),
      int?_of_toUInt64? he' he]
    rfl
  · cases h

/-- The decoding of a range inside the buffer. -/
theorem decodeData_ok {buf dtype : Bytes} {src nelem esize : Nat}
    (hsize : elemSize dtype = some esize) (h : src + nelem * esize ≤ buf.length) :
    decodeData buf dtype src nelem =
        .ok (decodeElems dtype ((buf.drop src).take (nelem * esize))) ∧
      (decodeElems dtype ((buf.drop src).take (nelem * esize))).length = nelem := by
  have hlen : ((buf.drop src).take (nelem * esize)).length = nelem * esize := by
    rw [List.length_take, List.length_drop]
    omega
  unfold elemSize at hsize
  split at hsize
  · rename_i hdtype
    cases hsize
    rw [decodeData, decodeElems, if_pos hdtype, if_pos hdtype, slice_ok h]
    exact ⟨rfl, by rw [floatsOf_length, hlen, Nat.mul_div_cancel nelem (by decide)]⟩
  · rename_i hF32
    have hesize : esize = 2 := by
      split at hsize
      · exact (Option.some.inj hsize).symm
      · split at hsize
        · exact (Option.some.inj hsize).symm
        · cases hsize
    subst hesize
    rw [decodeData, decodeElems, if_neg hF32, if_neg hF32]
    refine ⟨?_, by rw [List.length_map, halvesOf, List.length_map, List.length_range, hlen,
      Nat.mul_div_cancel nelem Nat.two_pos]⟩
    split
    · exact decodeBatch_range f16ToF32 h
    · exact decodeBatch_range bf16ToF32 h

/-- The dtypes with an element size are the known ones. -/
theorem mem_knownDtypes_iff {dtype : Bytes} : dtype ∈ knownDtypes ↔ (elemSize dtype).isSome := by
  simp only [knownDtypes, List.mem_cons, List.not_mem_nil, or_false, elemSize]
  split
  · simp_all
  · split
    · simp_all
    · split <;> simp_all

theorem elemSize_le {dtype : Bytes} {esize : Nat} (h : elemSize dtype = some esize) :
    esize ≤ 4 := by
  unfold elemSize at h
  split at h
  · cases h
    exact Nat.le_refl 4
  · split at h
    · cases h
      decide
    · split at h
      · cases h
        decide
      · cases h

/-- A dtype that is a string is the one returned, and no other dtype is known. -/
theorem dtypeOf_cases (t : List (Bytes × HeaderValue)) :
    (∃ what, dtypeOf t = raise what) ∨
    ∃ dtype, dtypeOf t = .ok dtype ∧
      (∀ d, headerMember "dtype" t = some (.string d) → dtype = d) ∧
      ((elemSize dtype).isSome → headerMember "dtype" t = some (.string dtype)) := by
  unfold dtypeOf
  split
  · rename_i hnone
    have hempty : ¬ (elemSize []).isSome := by decide
    refine .inr ⟨[], rfl, fun d hd => ?_, fun h => absurd h hempty⟩
    cases hnone.symm.trans hd
  · rename_i s hs
    refine .inr ⟨s, rfl, fun d hd => ?_, fun _ => hs⟩
    cases hs.symm.trans hd
    rfl
  · exact .inl ⟨_, rfl⟩

/-- An entry never leads outside the buffer, and one that passes all checks denotes its tensor. -/
theorem parseEntry_cases {buf : Bytes} {dataOff : Nat} (hbuf : buf.length ≤ vectorMaxSize 1)
    (hoff : dataOff ≤ buf.length) (key : Bytes) (t : List (Bytes × HeaderValue)) :
    (∃ what, parseEntry buf dataOff key t = raise what) ∨
    parseEntry buf dataOff key t = .ok .fail ∨
    (parseEntry buf dataOff key t = .ok .skip ∧
      ∀ dtype ∈ knownDtypes, headerMember "dtype" t ≠ some (.string dtype)) ∨
    ∃ tt, parseEntry buf dataOff key t = .ok (.tensor tt) ∧ Denotes buf dataOff key t tt := by
  unfold parseEntry
  rcases dtypeOf_cases t with ⟨what, hdtype⟩ | ⟨dtype, hdtype, hmember⟩
  · rw [hdtype]
    exact .inl ⟨what, rfl⟩
  · rw [hdtype, ok_bind]
    split
    · rename_i shape start stop hshape hoffsets
      split
      · exact .inr (.inl rfl)
      · rename_i hrange
        rw [not_or, Nat.not_lt, Nat.not_lt] at hrange
        obtain ⟨hstart, hstop⟩ := hrange
        cases hcount : elemCount 1 shape with
        | none => exact .inr (.inl rfl)
        | some nelem =>
          obtain ⟨hnelem, -⟩ := elemCount_eq hcount (by decide)
          rw [Nat.one_mul] at hnelem
          cases hsize : elemSize dtype with
          | none =>
            refine .inr (.inr (.inl ⟨rfl, fun d hd heq => ?_⟩))
            rw [mem_knownDtypes_iff, ← hmember.1 d heq, hsize] at hd
            cases hd
          | some esize =>
            dsimp only
            split
            · exact .inr (.inl rfl)
            · rename_i hexpected
              split
              · exact .inr (.inl rfl)
              · rename_i hmax
                -- at most `2 ^ 61 - 1` elements of at most four bytes: the size has not wrapped
                have hbytes : nelem * esize = stop - start := by
                  have hesize := elemSize_le hsize
                  have hle : nelem * esize ≤ nelem * 4 := Nat.mul_le_mul_left nelem hesize
                  have hfew : nelem ≤ 2305843009213693951 := Nat.le_of_not_gt hmax
                  omega
                have hin : dataOff + start + nelem * esize ≤ buf.length := by omega
                obtain ⟨hdata, hlen⟩ := decodeData_ok hsize hin
                rw [hdata, ok_bind]
                refine .inr (.inr (.inr ⟨_, rfl, ?_⟩))
                exact {
                  name := rfl
                  dtype := ⟨hmember.2 (by rw [hsize]; rfl),
                    mem_knownDtypes_iff.2 (by rw [hsize]; rfl)⟩
                  shape := ints?_of_shapeOf hshape
                  data_length := hlen.trans hnelem
                  data_le := hlen.le.trans (Nat.le_of_not_gt hmax)
                  data := ⟨start, stop, ints?_of_offsetsOf hoffsets hstart (by omega), hstart,
                    by omega, by rw [hbytes]⟩ }
    · exact .inr (.inl rfl)

/-! ## The file -/

/-- The entry of a tensor that is decoded. -/
def tensorEntry : Bytes × HeaderValue → Bool
  | (key, .object t) =>
    !(str "__").isPrefixOf key && knownDtypes.any fun dtype =>
      match headerMember "dtype" t with
      | some (.string s) => s = dtype
      | _ => false
  | _ => false

theorem tensorEntry_iff {key : Bytes} {t : List (Bytes × HeaderValue)} :
    tensorEntry (key, .object t) ↔ (str "__").isPrefixOf key = false ∧
      ∃ dtype ∈ knownDtypes, headerMember "dtype" t = some (.string dtype) := by
  rw [tensorEntry, Bool.and_eq_true, Bool.not_eq_true', List.any_eq_true]
  refine and_congr_right fun _ => exists_congr fun dtype => and_congr_right fun _ => ?_
  split
  · rename_i s hs
    rw [hs, decide_eq_true_eq, Option.some.injEq, HeaderValue.string.injEq]
  · rename_i hother
    exact ⟨fun h => absurd h Bool.false_ne_true, fun h => absurd h (hother dtype)⟩

/-- The tensor that an entry of the header denotes. -/
def EntryDenotes (buf : Bytes) (dataOff : Nat) (entry : Bytes × HeaderValue)
    (tt : ParsedTensor) : Prop :=
  ∃ t, entry.2 = .object t ∧ Denotes buf dataOff entry.1 t tt

/-- The loop over the header appends the tensors of the entries that are decoded, in their order. -/
theorem parseEntries_cases {buf : Bytes} {dataOff : Nat} (hbuf : buf.length ≤ vectorMaxSize 1)
    (hoff : dataOff ≤ buf.length) (entries : List (Bytes × HeaderValue))
    (out : List ParsedTensor) :
    (∃ what, parseEntries buf dataOff entries out = raise what) ∨
    parseEntries buf dataOff entries out = .ok none ∨
    ∃ tts, parseEntries buf dataOff entries out = .ok (some (out ++ tts)) ∧
      List.Forall₂ (EntryDenotes buf dataOff) (entries.filter tensorEntry) tts := by
  induction entries generalizing out with
  | nil => exact .inr (.inr ⟨[], by rw [List.append_nil]; rfl, .nil⟩)
  | cons entry entries ih =>
    obtain ⟨key, value⟩ := entry
    cases value with
    | object t =>
      rw [parseEntries]
      split
      · rename_i hreserved
        have hskip : tensorEntry (key, .object t) = false := by
          rw [tensorEntry, hreserved]
          rfl
        rw [List.filter_cons_of_neg (by rw [hskip]; decide)]
        exact ih out
      · rename_i hreserved
        rw [Bool.not_eq_true] at hreserved
        rcases parseEntry_cases hbuf hoff key t with
          ⟨what, h⟩ | h | ⟨h, hunknown⟩ | ⟨tt, h, hdenotes⟩
        · rw [h]
          exact .inl ⟨what, rfl⟩
        · rw [h]
          exact .inr (.inl rfl)
        · have hskip : ¬ tensorEntry (key, .object t) := by
            rw [tensorEntry_iff]
            rintro ⟨-, dtype, hknown, hdtype⟩
            exact hunknown dtype hknown hdtype
          rw [h, List.filter_cons_of_neg hskip]
          exact ih out
        · have hkept : tensorEntry (key, .object t) :=
            tensorEntry_iff.2 ⟨hreserved, tt.dtype, hdenotes.dtype.2, hdenotes.dtype.1⟩
          rw [h, List.filter_cons_of_pos hkept]
          rcases ih (out ++ [tt]) with ⟨what, hrest⟩ | hrest | ⟨tts, hrest, hall⟩
          · exact .inl ⟨what, hrest⟩
          · exact .inr (.inl hrest)
          · refine .inr (.inr ⟨tt :: tts, ?_, .cons ⟨t, rfl, hdenotes⟩ hall⟩)
            rw [List.append_assoc] at hrest
            exact hrest
    | _ =>
      simp only [parseEntries, ite_self]
      exact ih out

/-- The tensors have the names of their entries. -/
theorem names_of_forall₂ {buf : Bytes} {dataOff : Nat} {entries : List (Bytes × HeaderValue)}
    {tts : List ParsedTensor} (h : List.Forall₂ (EntryDenotes buf dataOff) entries tts) :
    tts.map (·.name) = entries.map (·.1) := by
  induction h with
  | nil => rfl
  | cons hd _ ih =>
    obtain ⟨t, -, hdenotes⟩ := hd
    rw [List.map_cons, List.map_cons, hdenotes.name, ih]

/-- With distinct keys, one tensor has the name of an entry that is decoded. -/
theorem returned_once {buf : Bytes} {dataOff : Nat} {entries : List (Bytes × HeaderValue)}
    {tts : List ParsedTensor}
    (h : List.Forall₂ (EntryDenotes buf dataOff) (entries.filter tensorEntry) tts)
    (hnodup : (entries.map (·.1)).Nodup) {entry : Bytes × HeaderValue} (hmem : entry ∈ entries)
    (hentry : tensorEntry entry) : (tts.filter (·.name = entry.1)).length = 1 := by
  have hkeys : ((entries.filter tensorEntry).map (·.1)).Nodup :=
    hnodup.sublist (List.filter_sublist.map _)
  have hkey : entry.1 ∈ (entries.filter tensorEntry).map (·.1) :=
    List.mem_map_of_mem (List.mem_filter.2 ⟨hmem, hentry⟩)
  rw [← names_of_forall₂ h] at hkeys hkey
  have hcount := List.count_eq_one_of_mem hkeys hkey
  rw [List.count_eq_countP, List.countP_map, List.countP_eq_length_filter] at hcount
  rw [← hcount]
  refine congrArg List.length (List.filter_congr fun tt _ => ?_)
  rw [Function.comp_apply, beq_eq_decide]

/-- `parse_safetensors` reads inside the buffer, and the tensors of a file are what its header says of
them, in the order of the entries with a known dtype and a name that is not reserved; with distinct
keys each of these is there exactly once. -/
theorem parseSafetensors_faithful (parse : Bytes → Except String HeaderValue) (buf : Bytes)
    (hbuf : buf.length ≤ vectorMaxSize 1) :
    (∀ why, parseSafetensors parse buf ≠ undefined why) ∧
    ∀ out, parseSafetensors parse buf = .ok (some out) →
      ∃ entries, parse ((buf.drop 8).take (leNat (buf.take 8))) = .ok (.object entries) ∧
        List.Forall₂ (EntryDenotes buf (8 + leNat (buf.take 8))) (entries.filter tensorEntry) out ∧
        ((entries.map (·.1)).Nodup → ∀ entry ∈ entries, tensorEntry entry →
          (out.filter (·.name = entry.1)).length = 1) := by
  unfold parseSafetensors
  split
  · exact ⟨nofun, nofun⟩
  · rename_i hshort
    rw [slice_ok (by omega : 0 + 8 ≤ buf.length), ok_bind, List.drop_zero]
    dsimp only
    split
    · exact ⟨nofun, nofun⟩
    · rename_i hfits
      split
      · exact ⟨nofun, nofun⟩
      · rw [slice_ok (by omega), ok_bind]
        split
        · exact ⟨nofun, nofun⟩
        · rename_i entries hparse
          have hoff : 8 + leNat (buf.take 8) ≤ buf.length := by omega
          rcases parseEntries_cases hbuf hoff entries [] with
            ⟨what, h⟩ | h | ⟨tts, h, hall⟩
          · rw [h]
            exact ⟨nofun, nofun⟩
          · rw [h]
            exact ⟨nofun, nofun⟩
          · rw [h]
            refine ⟨nofun, fun out hout => ?_⟩
            cases hout
            exact ⟨entries, hparse, hall, fun hnodup entry hmem hentry =>
              returned_once hall hnodup hmem hentry⟩
        · exact ⟨nofun, nofun⟩

/-- A header of one tensor of two halves, behind a checkpoint with metadata. -/
def sampleHeader : HeaderValue :=
  .object [(str "__metadata__", .object []),
    (str "w", .object [(str "dtype", .string (str "F16")), (str "shape", .array [.unsigned 2]),
      (str "data_offsets", .array [.unsigned 0, .unsigned 4])])]

theorem parseSafetensors_faithful_sample :
    ∃ out, parseSafetensors (fun _ => .ok sampleHeader)
        (leBytes 8 8 ++ List.replicate 8 32 ++ [0, 0x3C, 0, 0xC0]) = .ok (some out) ∧
      out = [⟨str "w", [2], str "F16", [0x3F800000, 0xC0000000]⟩] ∧
      (out.filter (·.name = str "w")).length = 1 := by
  have hrun : parseSafetensors (fun _ => .ok sampleHeader)
      (leBytes 8 8 ++ List.replicate 8 32 ++ [0, 0x3C, 0, 0xC0]) =
        .ok (some [⟨str "w", [2], str "F16", [0x3F800000, 0xC0000000]⟩]) := by
    decide +kernel
  have hfaithful := parseSafetensors_faithful (fun _ => .ok sampleHeader)
    (leBytes 8 8 ++ List.replicate 8 32 ++ [0, 0x3C, 0, 0xC0]) (by decide)
  obtain ⟨entries, hentries, -, honce⟩ := hfaithful.2 _ hrun
  cases hentries
  exact ⟨_, hrun, rfl, honce (by decide) _ (List.mem_cons_of_mem _ (by exact .head _)) (by decide)⟩

end Terllama
