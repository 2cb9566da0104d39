import Terllama.Gguf.Safety

/-!
# The metadata section

The grammar of a metadata section of GGUF v3, `GgufKv.encode`, and what the loop over the key-value
pairs makes of it. A pair is read to its end unless it is an array of booleans or of arrays, whose
elements the loop takes to be four bytes long (`readKvs_plain`); what is recorded of it is then
`Records`.
-/

namespace Terllama

/-! ## The grammar -/

/-- The integer types of a value. -/
inductive IntType where
  | u8
  | i8
  | u16
  | i16
  | u32
  | i32
  | u64
  | i64
  deriving DecidableEq, Repr

/-- The bytes of an integer. -/
def IntType.width : IntType → Nat
  | .u8 | .i8 => 1
  | .u16 | .i16 => 2
  | .u32 | .i32 => 4
  | .u64 | .i64 => 8

/-- The value type of an integer type. -/
def IntType.valueType : IntType → GGUFValueType
  | .u8 => .uint8
  | .i8 => .int8
  | .u16 => .uint16
  | .i16 => .int16
  | .u32 => .uint32
  | .i32 => .int32
  | .u64 => .uint64
  | .i64 => .int64

/-- Whether the type has negative values. -/
def IntType.signed : IntType → Bool
  | .u8 | .u16 | .u32 | .u64 => false
  | .i8 | .i16 | .i32 | .i64 => true

/-- A value of an integer type. -/
def IntType.InRange (t : IntType) (v : Int) : Prop :=
  if t.signed then -(256 ^ t.width : Nat) ≤ 2 * v ∧ 2 * v < (256 ^ t.width : Nat)
  else 0 ≤ v ∧ v < (256 ^ t.width : Nat)

instance IntType.decidableInRange (t : IntType) (v : Int) : Decidable (t.InRange v) := by
  unfold IntType.InRange
  infer_instance

/-- The bytes of an integer, in two's complement. -/
def IntType.encode (t : IntType) (v : Int) : Bytes :=
  leBytes t.width (v % (256 ^ t.width : Nat)).toNat

/-- A metadata value. -/
inductive GgufValue where
  | int (t : IntType) (v : Int)
  | float32 (w : UInt32)
  | float64 (w : UInt64)
  | bool (b : Bool)
  | string (s : Bytes)
  | array (elemType : GGUFValueType) (elems : List GgufValue)

/-- The type of a value. -/
def GgufValue.valueType : GgufValue → GGUFValueType
  | .int t _ => t.valueType
  | .float32 _ => .float32
  | .float64 _ => .float64
  | .bool _ => .bool
  | .string _ => .string
  | .array _ _ => .array

/-- The bytes of a string, after its length. -/
def encodeStr (s : Bytes) : Bytes := leBytes 8 s.length ++ s

mutual

/-- The bytes of a value. -/
def GgufValue.encode : GgufValue → Bytes
  | .int t v => t.encode v
  | .float32 w => leBytes 4 w.toNat
  | .float64 w => leBytes 8 w.toNat
  | .bool b => [if b then 1 else 0]
  | .string s => encodeStr s
  | .array t elems => leBytes 4 t.code ++ leBytes 8 elems.length ++ encodeElems elems

/-- The bytes of the elements of an array. -/
def encodeElems : List GgufValue → Bytes
  | [] => []
  | v :: vs => v.encode ++ encodeElems vs

end

/-- A value whose integers and lengths are in range, and whose arrays have elements of their type. -/
inductive GgufValue.WellFormed : GgufValue → Prop where
  | int {t : IntType} {v : Int} : t.InRange v → WellFormed (.int t v)
  | float32 {w : UInt32} : WellFormed (.float32 w)
  | float64 {w : UInt64} : WellFormed (.float64 w)
  | bool {b : Bool} : WellFormed (.bool b)
  | string {s : Bytes} : s.length < 18446744073709551616 → WellFormed (.string s)
  | array {t : GGUFValueType} {elems : List GgufValue} :
    elems.length < 18446744073709551616 → (∀ e ∈ elems, e.valueType = t) →
    (∀ e ∈ elems, WellFormed e) → WellFormed (.array t elems)

/-- A key-value pair. -/
structure GgufKv where
  key : Bytes
  value : GgufValue

/-- The bytes of a pair. -/
def GgufKv.encode (kv : GgufKv) : Bytes :=
  encodeStr kv.key ++ leBytes 4 kv.value.valueType.code ++ kv.value.encode

/-- A metadata section: distinct keys and well-formed values. -/
structure SectionWellFormed (kvs : List GgufKv) : Prop where
  keys : (kvs.map (·.key)).Nodup
  key_length : ∀ kv ∈ kvs, kv.key.length < 18446744073709551616
  values : ∀ kv ∈ kvs, kv.value.WellFormed

/-! ## Bytes at a position -/

/-- The file has these bytes at a position. -/
def HasAt (p : Bytes) (off : Nat) (bs : Bytes) : Prop := bs <+: p.drop off

theorem hasAt_append {p : Bytes} {off : Nat} {a b : Bytes} :
    HasAt p off (a ++ b) ↔ HasAt p off a ∧ HasAt p (off + a.length) b := by
  constructor
  · rintro ⟨rest, h⟩
    rw [List.append_assoc] at h
    refine ⟨⟨b ++ rest, h⟩, rest, ?_⟩
    rw [← List.drop_drop, ← h, List.drop_left]
  · rintro ⟨⟨rest, h⟩, rest', h'⟩
    rw [← List.drop_drop, ← h, List.drop_left] at h'
    exact ⟨rest', by rw [List.append_assoc, h', h]⟩

theorem HasAt.take {p : Bytes} {off : Nat} {bs : Bytes} (h : HasAt p off bs) :
    (p.drop off).take bs.length = bs := by
  obtain ⟨rest, h⟩ := h
  rw [← h, List.take_left]

theorem HasAt.le {p : Bytes} {off : Nat} {bs : Bytes} (h : HasAt p off bs) (hoff : off ≤ p.length) :
    off + bs.length ≤ p.length := by
  have hlen := List.IsPrefix.length_le h
  rw [List.length_drop] at hlen
  omega

theorem HasAt.leAt {p : Bytes} {off n : Nat} {bs : Bytes} (h : HasAt p off bs)
    (hn : bs.length = n) : leAt n p off = leNat bs := by
  subst hn
  rw [Terllama.leAt, h.take]

/-- The length and the characters of a string. -/
theorem HasAt.str {p : Bytes} {off : Nat} {s : Bytes} (h : HasAt p off (encodeStr s))
    (hs : s.length < 18446744073709551616) :
    strLayout p off = ([(off, 8), (off + 8, s.length)], off + 8 + s.length) ∧ strAt p off = s := by
  obtain ⟨hlen, hchars⟩ := hasAt_append.1 h
  have hword : Terllama.leAt 8 p off = s.length := by
    rw [hlen.leAt (leBytes_length 8 _), leNat_leBytes_of_lt (by exact hs)]
  rw [leBytes_length] at hchars
  exact ⟨by rw [strLayout, hword], by rw [strAt, hword, hchars.take]⟩

/-! ## The layout of a value -/

/-- A pair whose value the loop reads to its end: no array of booleans or of arrays that has elements,
and no more tokens than a vector can hold. -/
def GgufKv.Plain (kv : GgufKv) : Prop :=
  match kv.value with
  | .array t elems => (t = .bool ∨ t = .array → elems = []) ∧
      (kv.key = str "tokenizer.ggml.tokens" ∧ t = .string → elems.length ≤ vectorMaxSize 32)
  | _ => True

theorem IntType.encode_length (t : IntType) (v : Int) : (t.encode v).length = t.width :=
  leBytes_length _ _

/-- The elements of an array of words. -/
theorem encodeElems_length {t : GGUFValueType} (hbool : t ≠ .bool) (harray : t ≠ .array)
    (hstring : t ≠ .string) {elems : List GgufValue} (h : ∀ e ∈ elems, e.valueType = t) :
    (encodeElems elems).length = elems.length * skipWidth (some t) := by
  induction elems with
  | nil => exact (Nat.zero_mul _).symm
  | cons e elems ih =>
    obtain ⟨he, hrest⟩ := List.forall_mem_cons.1 h
    have hwidth : e.encode.length = skipWidth (some t) := by
      subst he
      cases e with
      | int t v =>
        rw [GgufValue.encode, IntType.encode_length]
        cases t <;> rfl
      | float32 w => exact leBytes_length 4 _
      | float64 w => exact leBytes_length 8 _
      | bool b => exact absurd rfl hbool
      | string s => exact absurd rfl hstring
      | array t elems => exact absurd rfl harray
    rw [encodeElems, List.length_append, ih hrest, hwidth, List.length_cons, Nat.succ_mul,
      Nat.add_comm]

theorem eq_string {e : GgufValue} (h : e.valueType = .string) : ∃ s, e = .string s := by
  cases e with
  | string s => exact ⟨s, rfl⟩
  | int t v => cases t <;> cases h
  | _ => cases h

/-- The strings of an array. -/
theorem strsLayout_encode {p : Bytes} {elems : List GgufValue}
    (htype : ∀ e ∈ elems, e.valueType = .string) (hwf : ∀ e ∈ elems, e.WellFormed) {off : Nat}
    (h : HasAt p off (encodeElems elems)) (hoff : off ≤ p.length) :
    Inside p.length (strsLayout p elems.length off).1 ∧
      (strsLayout p elems.length off).2 = off + (encodeElems elems).length := by
  induction elems generalizing off with
  | nil => exact ⟨inside_nil _, rfl⟩
  | cons e elems ih =>
    obtain ⟨he, hrest⟩ := List.forall_mem_cons.1 htype
    obtain ⟨hewf, hwf'⟩ := List.forall_mem_cons.1 hwf
    obtain ⟨s, rfl⟩ := eq_string he
    cases hewf with
    | string hs =>
      rw [encodeElems, hasAt_append] at h
      obtain ⟨hstr, htail⟩ := h
      have hend := hstr.le hoff
      have hlen : (GgufValue.string s).encode.length = 8 + s.length := by
        rw [GgufValue.encode, encodeStr, List.length_append, leBytes_length]
      rw [hlen, ← Nat.add_assoc] at hend htail
      obtain ⟨hin, hnext⟩ := ih hrest hwf' htail hend
      rw [List.length_cons, strsLayout, (HasAt.str hstr hs).1, encodeElems, List.length_append,
        hlen, hnext]
      dsimp only
      refine ⟨?_, by omega⟩
      simp only [inside_append, inside_cons, inside_nil, and_true]
      exact ⟨⟨by omega, hend⟩, hin⟩

/-- The elements of an array in a plain pair. -/
theorem elemsLayout_encode {p : Bytes} (hp : p.length ≤ vectorMaxSize 1) {key : Bytes}
    {t : GGUFValueType} {elems : List GgufValue}
    (hplain : GgufKv.Plain ⟨key, .array t elems⟩)
    (hwf : (GgufValue.array t elems).WellFormed) {off : Nat}
    (h : HasAt p off (encodeElems elems)) (hoff : off ≤ p.length) :
    Inside p.length (elemsLayout p key (some t) elems.length off).1 ∧
      (elemsLayout p key (some t) elems.length off).2 = off + (encodeElems elems).length := by
  obtain ⟨hempty, htokens⟩ := hplain
  have hend := h.le hoff
  cases hwf with
  | array hcount htype hwf =>
    unfold elemsLayout
    split
    · rename_i hstring
      cases hstring
      rw [if_neg fun hmany => absurd (htokens ⟨hmany.1, rfl⟩) (Nat.not_le.2 hmany.2)]
      exact strsLayout_encode htype hwf h hoff
    · rename_i hstring
      have hlen : (encodeElems elems).length = elems.length * skipWidth (some t) := by
        by_cases hskip : t = .bool ∨ t = .array
        · rw [hempty hskip]
          exact (Nat.zero_mul _).symm
        · rw [not_or] at hskip
          exact encodeElems_length hskip.1 hskip.2 (fun hs => hstring (by rw [hs])) htype
      split
      · rename_i hwords
        have hwidth : skipWidth (some t) = 4 := by
          rcases hwords with ⟨-, hwords⟩ | ⟨-, hwords⟩ <;> rw [hwords] <;> rfl
        rw [hwidth, Nat.mul_comm] at hlen
        rw [hlen] at hend
        exact ⟨inside_cons.2 ⟨hend, inside_nil _⟩, by rw [hlen]⟩
      · rw [hlen] at hend
        exact ⟨inside_nil _, by rw [hlen]; exact pos64_of_le hp hend⟩

/-! ## What is recorded of a pair -/

/-- The value that an `int64_t` entry keeps of an integer. -/
def IntType.stored (t : IntType) (v : Int) : Int :=
  if t = .u64 ∧ 9223372036854775808 ≤ v then v - 18446744073709551616 else v

/-- The integer that a pair records. -/
def GgufValue.intEntry : GgufValue → Option Int
  | .int t v => some (t.stored v)
  | .bool b => some (if b then 1 else 0)
  | _ => none

/-- The token id that a pair sets, under the key of one. -/
def GgufValue.tokenEntry : GgufValue → Option Int
  | .int .i32 v => some v
  | _ => none

/-- The key of the first token id. -/
def bosKey : Bytes := str "tokenizer.ggml.bos_token_id"

/-- The key of the second token id. -/
def eosKey : Bytes := str "tokenizer.ggml.eos_token_id"

/-- What a pair changes in the integers and in the token ids. -/
structure Records (kv : GgufKv) (gguf gguf' : GGUFFile) : Prop where
  ints : ∀ key, gguf'.metadataInt.lookup key =
    if kv.key = key then kv.value.intEntry.or (gguf.metadataInt.lookup key)
    else gguf.metadataInt.lookup key
  bos : gguf'.bosTokenId =
    if kv.key = bosKey then kv.value.tokenEntry.getD gguf.bosTokenId else gguf.bosTokenId
  eos : gguf'.eosTokenId =
    if kv.key = eosKey then kv.value.tokenEntry.getD gguf.eosTokenId else gguf.eosTokenId

/-- A pair that changes none of them. -/
theorem Records.of_eq {kv : GgufKv} {gguf gguf' : GGUFFile} (hint : kv.value.intEntry = none)
    (htoken : kv.value.tokenEntry = none) (hints : gguf'.metadataInt = gguf.metadataInt)
    (hbos : gguf'.bosTokenId = gguf.bosTokenId) (heos : gguf'.eosTokenId = gguf.eosTokenId) :
    Records kv gguf gguf' where
  ints key := by rw [hint, hints, Option.none_or, ite_self]
  bos := by rw [htoken, hbos, Option.getD_none, ite_self]
  eos := by rw [htoken, heos, Option.getD_none, ite_self]

/-- The entry that `metadata_int[key] = v` makes. -/
theorem lookup_setInt (gguf : GGUFFile) (key : Bytes) (v : Int) (k : Bytes) :
    (gguf.setInt key v).metadataInt.lookup k =
      if key = k then some v else gguf.metadataInt.lookup k := by
  rw [GGUFFile.setInt, List.lookup_cons]
  by_cases hk : key = k
  · rw [if_pos hk, hk, beq_self_eq_true]
  · rw [if_neg hk, beq_eq_false_iff_ne.2 (Ne.symm hk)]

theorem records_setInt {kv : GgufKv} {gguf : GGUFFile} {v : Int}
    (hint : kv.value.intEntry = some v) (htoken : kv.value.tokenEntry = none) :
    Records kv gguf (gguf.setInt kv.key v) where
  ints key := by rw [lookup_setInt, hint, Option.some_or]
  bos := by rw [htoken, Option.getD_none, ite_self]; rfl
  eos := by rw [htoken, Option.getD_none, ite_self]; rfl

theorem records_setInt32 {kv : GgufKv} {gguf : GGUFFile} {v : Int}
    (hvalue : kv.value = .int .i32 v) : Records kv gguf (gguf.setInt32 kv.key v) where
  ints key := by
    have hstored : IntType.stored .i32 v = v := if_neg fun h => nomatch h.1
    have hlookup := lookup_setInt gguf kv.key v key
    rw [hvalue, GgufValue.intEntry, hstored, Option.some_or, ← hlookup]
    unfold GGUFFile.setInt32
    dsimp only
    split <;> split <;> rfl
  bos := by
    rw [hvalue]
    unfold GGUFFile.setInt32 bosKey
    dsimp only
    split <;> split <;> rfl
  eos := by
    rw [hvalue]
    unfold GGUFFile.setInt32 eosKey
    dsimp only
    split <;> split <;> rfl

/-- The value of a word of an integer type, as the loop takes it. -/
def IntType.ofWord (t : IntType) (n : Nat) : Int :=
  match t with
  | .u8 | .u16 | .u32 => n
  | .i8 => signedWord 8 n
  | .i16 => signedWord 16 n
  | .i32 => signedWord 32 n
  | .u64 | .i64 => signedWord 64 n

theorem IntType.ofWord_encode {t : IntType} {v : Int} (h : t.InRange v) :
    t.ofWord (leNat (t.encode v)) = t.stored v := by
  have hword : leNat (t.encode v) = (v % (256 ^ t.width : Nat)).toNat :=
    leNat_leBytes_of_lt (by
      have hpos : 0 < 256 ^ t.width := Nat.pow_pos (by decide)
      have hlt := Int.emod_lt_of_pos v (Int.natCast_pos.2 hpos)
      have hge := Int.emod_nonneg v (Int.natCast_pos.2 hpos).ne'
      omega)
  rw [hword]
  cases t <;> simp [IntType.InRange, IntType.signed, IntType.width, IntType.ofWord, IntType.stored,
    signedWord] at h ⊢ <;> (try split_ifs) <;> omega

/-! ## The loop -/

theorem rWord_hasAt {p : Bytes} (hp : p.length ≤ vectorMaxSize 1) {off n : Nat} {bs : Bytes}
    (h : HasAt p off bs) (hoff : off ≤ p.length) (hn : bs.length = n) :
    rWord n p off = .ok (leNat bs, off + n) := by
  have hend := h.le hoff
  rw [hn] at hend
  obtain ⟨v, hv⟩ := (follows_rWord hp n off).returns (inside_cons.2 ⟨hend, inside_nil _⟩)
  rw [hv, rWord_value hv, h.leAt hn]

theorem rstr_hasAt {p : Bytes} (hp : p.length ≤ vectorMaxSize 1) {off : Nat} {s : Bytes}
    (h : HasAt p off (encodeStr s)) (hoff : off ≤ p.length)
    (hs : s.length < 18446744073709551616) : rstr p off = .ok (s, off + 8 + s.length) := by
  obtain ⟨hlayout, hchars⟩ := HasAt.str h hs
  have hend := h.le hoff
  rw [encodeStr, List.length_append, leBytes_length] at hend
  have hfollows := follows_rstr hp off
  rw [hlayout] at hfollows
  obtain ⟨v, hv⟩ := hfollows.returns (inside_cons.2
    ⟨by dsimp only; omega, inside_cons.2 ⟨by dsimp only; omega, inside_nil _⟩⟩)
  rw [hv, rstr_value hp hv, hchars]

/-- A value that is one word. -/
theorem readScalar_hasAt {p : Bytes} (hp : p.length ≤ vectorMaxSize 1) {off n : Nat} {bs : Bytes}
    (h : HasAt p off bs) (hoff : off ≤ p.length) (hn : bs.length = n) (record : Nat → GGUFFile) :
    readScalar (rWord n p off) record = .ok (record (leNat bs), off + bs.length) := by
  rw [readScalar, rWord_hasAt hp h hoff hn, hn]
  rfl

/-- The switch on an integer. -/
theorem readValue_int (narrow : Nat → F32) (p key : Bytes) (t : IntType) (gguf : GGUFFile)
    (off : Nat) : readValue narrow p key t.valueType.code gguf off =
      readScalar (rWord t.width p off) fun n =>
        if t = .i32 then gguf.setInt32 key (t.ofWord n) else gguf.setInt key (t.ofWord n) := by
  cases t <;> rfl

/-- The value of a plain pair is read to its end, and recorded. -/
theorem readValue_plain {p : Bytes} (hp : p.length ≤ vectorMaxSize 1) (narrow : Nat → F32)
    {kv : GgufKv} (hwf : kv.value.WellFormed) (hplain : kv.Plain) {off : Nat}
    (h : HasAt p off kv.value.encode) (hoff : off ≤ p.length) (gguf : GGUFFile) :
    ∃ gguf', readValue narrow p kv.key kv.value.valueType.code gguf off =
      .ok (gguf', off + kv.value.encode.length) ∧ Records kv gguf gguf' := by
  obtain ⟨key, value⟩ := kv
  cases value with
  | int t v =>
    cases hwf with
    | int hrange =>
      refine ⟨_, (readValue_int narrow p key t gguf off).trans
        (readScalar_hasAt hp h hoff (t.encode_length v) _), ?_⟩
      have hword : t.ofWord (leNat (GgufValue.int t v).encode) = t.stored v :=
        IntType.ofWord_encode hrange
      dsimp only
      rw [hword]
      split
      · rename_i ht
        subst ht
        rw [show IntType.stored .i32 v = v from if_neg fun h => nomatch h.1]
        exact records_setInt32 rfl
      · rename_i ht
        refine records_setInt rfl ?_
        cases t <;> first | rfl | exact absurd rfl ht
  | float32 w =>
    have hread := readScalar_hasAt hp h hoff (leBytes_length 4 w.toNat) fun n =>
      gguf.setFloat key (UInt32.ofNat n)
    exact ⟨_, hread, Records.of_eq rfl rfl rfl rfl rfl⟩
  | float64 w =>
    have hread := readScalar_hasAt hp h hoff (leBytes_length 8 w.toNat) fun n =>
      gguf.setFloat key (narrow n)
    exact ⟨_, hread, Records.of_eq rfl rfl rfl rfl rfl⟩
  | bool b =>
    have hread := readScalar_hasAt hp h hoff rfl fun n =>
      gguf.setInt key (if n = 0 then 0 else 1)
    refine ⟨_, hread, records_setInt ?_ rfl⟩
    cases b <;> rfl
  | string s =>
    cases hwf with
    | string hs =>
      have hread := rstr_hasAt hp h hoff hs
      have hlen : off + 8 + s.length = off + (encodeStr s).length := by
        rw [encodeStr, List.length_append, leBytes_length, Nat.add_assoc]
      refine ⟨gguf.setStr key s, ?_, ?_⟩
      · rw [hlen] at hread
        show (rstr p off >>= fun r => .ok (gguf.setStr key r.1, r.2)) = _
        rw [hread]
        rfl
      · unfold GGUFFile.setStr
        split <;> exact Records.of_eq rfl rfl rfl rfl rfl
  | array t elems =>
    cases hwf with
    | array hcount htypes hwfs =>
      have hall := h
      dsimp only at h
      rw [GgufValue.encode, hasAt_append, hasAt_append, List.length_append, leBytes_length,
        leBytes_length] at h
      obtain ⟨⟨htype, hlen⟩, helems⟩ := h
      have hend := hall.le hoff
      have hsize : (GgufValue.array t elems).encode.length = 12 + (encodeElems elems).length := by
        rw [GgufValue.encode, List.length_append, List.length_append, leBytes_length,
          leBytes_length]
      dsimp only at hend ⊢
      rw [hsize] at hend ⊢
      have hread₁ : r32 p off = .ok (t.code, off + 4) := by
        have hcode : leNat (leBytes 4 t.code) = t.code := leNat_leBytes_of_lt (by
          cases t <;> decide)
        rw [← hcode]
        exact rWord_hasAt hp htype hoff (leBytes_length 4 _)
      have hread₂ : r64 p (off + 4) = .ok (elems.length, off + 4 + 8) := by
        have hcode : leNat (leBytes 8 elems.length) = elems.length := leNat_leBytes_of_lt hcount
        rw [← hcode]
        exact rWord_hasAt hp hlen (by omega) (leBytes_length 8 _)
      have hlayout := elemsLayout_encode hp hplain (.array hcount htypes hwfs) helems (by omega)
      have hfollows := follows_readElems hp key (some t) elems.length gguf
        (show off + (4 + 8) ≤ p.length by omega)
      obtain ⟨gguf', hread₃⟩ := hfollows.returns hlayout.1
      rw [hlayout.2] at hread₃
      refine ⟨gguf', ?_, ?_⟩
      · have hnext : pos64 (off + 4) = off + 4 := pos64_of_le hp (by omega)
        have hbreak : ¬ pos64 (off + 4) > p.length := by
          rw [hnext]
          omega
        show (if pos64 (off + 4) > p.length then _ else _) = _
        rw [if_neg hbreak, hread₁, ok_bind]
        dsimp only
        rw [hread₂, ok_bind]
        dsimp only
        rw [GGUFValueType.ofCode_code, Nat.add_assoc off 4 8, ← Nat.add_assoc off 12]
        exact hread₃
      · obtain ⟨_, _, _, rfl⟩ := readElems_value hread₃
        exact Records.of_eq rfl rfl rfl rfl rfl

/-- The bytes of a section. -/
def encodeKvs (kvs : List GgufKv) : Bytes := kvs.flatMap GgufKv.encode

/-- What the pairs of a section change, one after the other. -/
def RecordsAll : List GgufKv → GGUFFile → GGUFFile → Prop
  | [], gguf, gguf' => gguf' = gguf
  | kv :: kvs, gguf, gguf' => ∃ gguf₁, Records kv gguf gguf₁ ∧ RecordsAll kvs gguf₁ gguf'

/-- The loop up to the value of a pair. -/
theorem readKvs_cons {p : Bytes} (hp : p.length ≤ vectorMaxSize 1) (narrow : Nat → F32)
    {kv : GgufKv} (hkey : kv.key.length < 18446744073709551616) {off : Nat}
    (h : HasAt p off kv.encode) (hoff : off ≤ p.length) (n : Nat) (gguf : GGUFFile) :
    readKvs narrow p (n + 1) (gguf, off) =
      (readValue narrow p kv.key kv.value.valueType.code gguf (off + 8 + kv.key.length + 4) >>=
        readKvs narrow p n) ∧
    HasAt p (off + 8 + kv.key.length + 4) kv.value.encode ∧
    off + 8 + kv.key.length + 4 + kv.value.encode.length = off + kv.encode.length := by
  have hend := h.le hoff
  have hstrLen : (encodeStr kv.key).length = 8 + kv.key.length := by
    rw [encodeStr, List.length_append, leBytes_length]
  have hlen : kv.encode.length = 8 + kv.key.length + 4 + kv.value.encode.length := by
    rw [GgufKv.encode, List.length_append, List.length_append, hstrLen, leBytes_length]
  rw [GgufKv.encode, hasAt_append, hasAt_append, List.length_append, hstrLen, leBytes_length,
    ← Nat.add_assoc off, ← Nat.add_assoc off, ← Nat.add_assoc off] at h
  obtain ⟨⟨hstr, hcode⟩, hvalue⟩ := h
  rw [hlen] at hend
  have hread₁ := rstr_hasAt hp hstr hoff hkey
  have hread₂ : r32 p (off + 8 + kv.key.length) =
      .ok (kv.value.valueType.code, off + 8 + kv.key.length + 4) := by
    have hword : leNat (leBytes 4 kv.value.valueType.code) = kv.value.valueType.code :=
      leNat_leBytes_of_lt (by cases kv.value.valueType <;> decide)
    conv_rhs => rw [← hword]
    exact rWord_hasAt hp hcode (by omega) (leBytes_length 4 _)
  have hnext : pos64 (off + 8 + kv.key.length + 4) = off + 8 + kv.key.length + 4 :=
    pos64_of_le hp (by omega)
  refine ⟨?_, hvalue, by omega⟩
  rw [readKvs, hread₁, ok_bind]
  dsimp only
  rw [if_neg (by rw [hnext]; omega), hread₂]
  rfl

/-- A section of plain pairs is read to its end, and each pair is recorded. -/
theorem readKvs_plain {p : Bytes} (hp : p.length ≤ vectorMaxSize 1) (narrow : Nat → F32)
    {kvs : List GgufKv} (hkeys : ∀ kv ∈ kvs, kv.key.length < 18446744073709551616)
    (hwf : ∀ kv ∈ kvs, kv.value.WellFormed) (hplain : ∀ kv ∈ kvs, kv.Plain) {off : Nat}
    (h : HasAt p off (encodeKvs kvs)) (hoff : off ≤ p.length) (n : Nat) (gguf : GGUFFile) :
    ∃ gguf', readKvs narrow p (kvs.length + n) (gguf, off) =
      readKvs narrow p n (gguf', off + (encodeKvs kvs).length) ∧ RecordsAll kvs gguf gguf' := by
  induction kvs generalizing off gguf with
  | nil => exact ⟨gguf, by rw [List.length_nil, Nat.zero_add]; rfl, rfl⟩
  | cons kv kvs ih =>
    rw [encodeKvs, List.flatMap_cons, hasAt_append] at h
    obtain ⟨hkv, hrest⟩ := h
    obtain ⟨hkey, hkeys⟩ := List.forall_mem_cons.1 hkeys
    obtain ⟨hvalue, hwf⟩ := List.forall_mem_cons.1 hwf
    obtain ⟨hkvPlain, hplain⟩ := List.forall_mem_cons.1 hplain
    have hend := hkv.le hoff
    obtain ⟨hloop, hat, hlen⟩ := readKvs_cons hp narrow hkey hkv hoff (kvs.length + n) gguf
    obtain ⟨gguf₁, hread, hrecords⟩ :=
      readValue_plain hp narrow hvalue hkvPlain hat (by omega) gguf
    obtain ⟨gguf', hrun, hall⟩ := ih hkeys hwf hplain hrest hend gguf₁
    refine ⟨gguf', ?_, gguf₁, hrecords, hall⟩
    rw [List.length_cons, Nat.add_right_comm, hloop, hread, hlen, ok_bind, hrun, encodeKvs, encodeKvs,
      List.flatMap_cons, List.length_append, Nat.add_assoc]

/-! ## What a section records -/

section
variable {α : Type} (field : GGUFFile → α) {key : Bytes} (change : GgufKv → α → α)

/-- A field that only the pairs of one key change stays as it is where no pair has the key. -/
theorem RecordsAll.unchanged
    (hstep : ∀ {kv gguf gguf'}, Records kv gguf gguf' →
      field gguf' = if kv.key = key then change kv (field gguf) else field gguf)
    {kvs : List GgufKv} {gguf gguf' : GGUFFile} (h : RecordsAll kvs gguf gguf')
    (hkey : ∀ kv ∈ kvs, kv.key ≠ key) : field gguf' = field gguf := by
  induction kvs generalizing gguf with
  | nil => exact congrArg field h
  | cons kv kvs ih =>
    obtain ⟨gguf₁, hfirst, hrest⟩ := h
    obtain ⟨hne, hkeys⟩ := List.forall_mem_cons.1 hkey
    rw [ih hrest hkeys, hstep hfirst, if_neg hne]

/-- With distinct keys, the field is what the one pair of the key makes of it. -/
theorem RecordsAll.changed
    (hstep : ∀ {kv gguf gguf'}, Records kv gguf gguf' →
      field gguf' = if kv.key = key then change kv (field gguf) else field gguf)
    {kvs : List GgufKv} {gguf gguf' : GGUFFile} (h : RecordsAll kvs gguf gguf')
    (hkeys : (kvs.map (·.key)).Nodup) {kv : GgufKv} (hkv : kv ∈ kvs) (hkey : kv.key = key) :
    field gguf' = change kv (field gguf) := by
  induction kvs generalizing gguf with
  | nil => cases hkv
  | cons kv' kvs ih =>
    obtain ⟨gguf₁, hfirst, hrest⟩ := h
    rw [List.map_cons, List.nodup_cons] at hkeys
    rcases List.mem_cons.1 hkv with rfl | hkv
    · have hothers : ∀ other ∈ kvs, other.key ≠ key := by
        intro other hother heq
        exact hkeys.1 (List.mem_map.2 ⟨other, hother, heq.trans hkey.symm⟩)
      rw [RecordsAll.unchanged field change hstep hrest hothers, hstep hfirst, if_pos hkey]
    · have hne : kv'.key ≠ key := by
        intro heq
        exact hkeys.1 (List.mem_map.2 ⟨kv, hkv, hkey.trans heq.symm⟩)
      rw [ih hrest hkeys.2 hkv, hstep hfirst, if_neg hne]

end

/-- The metadata of a parsed file is in sync with its section: the loop ends where the section does,
every integer is recorded with its value, and so are the two token ids. -/
def InSync (narrow : Nat → F32) (file : Bytes) (kvs : List GgufKv) : Prop :=
  ∃ gguf, readKvs narrow file kvs.length ({ fileData := file }, 24) =
      .ok (gguf, 24 + (encodeKvs kvs).length) ∧
    ∀ kv ∈ kvs, ∀ t v, kv.value = .int t v → gguf.metadataInt.lookup kv.key = some v ∧
      (kv.key = bosKey → gguf.bosTokenId = v) ∧ (kv.key = eosKey → gguf.eosTokenId = v)

/-- A pair that is recorded as it stands: an integer that an `int64_t` holds, and under the keys of
the token ids an `INT32` or the value that they have without a pair. -/
def GgufKv.Kept (kv : GgufKv) : Prop :=
  ∀ t v, kv.value = .int t v → (t = .u64 → v < 9223372036854775808) ∧
    (kv.key = bosKey ∨ kv.key = eosKey → t = .i32 ∨ v = -1)

theorem stored_eq_iff {t : IntType} {v : Int} :
    t.stored v = v ↔ (t = .u64 → v < 9223372036854775808) := by
  unfold IntType.stored
  by_cases ht : t = .u64
  · simp only [ht, true_and, forall_const]
    split <;> omega
  · simp [ht]

theorem tokenEntry_getD_iff {t : IntType} {v : Int} :
    (GgufValue.int t v).tokenEntry.getD (-1) = v ↔ t = .i32 ∨ v = -1 := by
  cases t <;> simp [GgufValue.tokenEntry, eq_comm]

/-- The recorded pairs are in sync exactly where they are kept. -/
theorem recordsAll_kept_iff {kvs : List GgufKv} (hkeys : (kvs.map (·.key)).Nodup)
    {gguf gguf' : GGUFFile} (h : RecordsAll kvs gguf gguf') (hbos : gguf.bosTokenId = -1)
    (heos : gguf.eosTokenId = -1) :
    (∀ kv ∈ kvs, ∀ t v, kv.value = .int t v → gguf'.metadataInt.lookup kv.key = some v ∧
      (kv.key = bosKey → gguf'.bosTokenId = v) ∧ (kv.key = eosKey → gguf'.eosTokenId = v)) ↔
    ∀ kv ∈ kvs, kv.Kept := by
  refine forall₂_congr fun kv hkv => forall₃_congr fun t v hv => ?_
  have hint := h.changed (fun gguf : GGUFFile => gguf.metadataInt.lookup kv.key)
    (fun kv old => kv.value.intEntry.or old) (fun hrecords => hrecords.ints kv.key) hkeys hkv rfl
  have hbos' := fun hkey : kv.key = bosKey => h.changed GGUFFile.bosTokenId
    (fun kv old => kv.value.tokenEntry.getD old) Records.bos hkeys hkv hkey
  have heos' := fun hkey : kv.key = eosKey => h.changed GGUFFile.eosTokenId
    (fun kv old => kv.value.tokenEntry.getD old) Records.eos hkeys hkv hkey
  simp only [hv, GgufValue.intEntry, Option.some_or, hbos, heos] at hint hbos' heos'
  rw [hint, Option.some.injEq, stored_eq_iff, or_imp]
  refine and_congr_right fun _ => and_congr (forall_congr' fun hkey => ?_)
    (forall_congr' fun hkey => ?_)
  · rw [hbos' hkey, tokenEntry_getD_iff]
  · rw [heos' hkey, tokenEntry_getD_iff]

/-! ## Arrays that are not read to their end -/

theorem encodeElems_bools {elems : List GgufValue} (h : ∀ e ∈ elems, e.valueType = .bool) :
    (encodeElems elems).length = elems.length := by
  induction elems with
  | nil => rfl
  | cons e elems ih =>
    obtain ⟨he, hrest⟩ := List.forall_mem_cons.1 h
    have hone : e.encode.length = 1 := by
      cases e with
      | bool b => rfl
      | int t v => cases t <;> cases he
      | _ => cases he
    rw [encodeElems, List.length_append, ih hrest, hone, List.length_cons, Nat.add_comm]

theorem encodeElems_arrays {elems : List GgufValue} (h : ∀ e ∈ elems, e.valueType = .array) :
    12 * elems.length ≤ (encodeElems elems).length := by
  induction elems with
  | nil => exact Nat.zero_le _
  | cons e elems ih =>
    obtain ⟨he, hrest⟩ := List.forall_mem_cons.1 h
    have htwelve : 12 ≤ e.encode.length := by
      cases e with
      | array t elems =>
        rw [GgufValue.encode, List.length_append, List.length_append, leBytes_length,
          leBytes_length]
        exact Nat.le_add_right _ _
      | int t v => cases t <;> cases he
      | _ => cases he
    have hih := ih hrest
    rw [encodeElems, List.length_append, List.length_cons]
    omega

/-- Four bytes for each of `n` elements are not one byte for each, with a position that wraps. -/
theorem four_wraps_ne {off n wraps : Nat} (hpos : 0 < n) (hwraps : wraps < 2) :
    18446744073709551616 * wraps + (off + n) ≠ off + n * 4 := by
  intro h
  -- it wraps at most once, and `3` does not divide `2 ^ 64`
  interval_cases wraps <;> omega

/-- The fields of an array of booleans or of arrays end elsewhere than its bytes. -/
theorem elemsLayout_skipped {p : Bytes} (hp : p.length ≤ vectorMaxSize 1) {key : Bytes}
    {t : GGUFValueType} (ht : t = .bool ∨ t = .array) {elems : List GgufValue} (hne : elems ≠ [])
    (htype : ∀ e ∈ elems, e.valueType = t) {off : Nat}
    (hend : off + (encodeElems elems).length ≤ p.length) :
    (elemsLayout p key (some t) elems.length off).2 ≠ off + (encodeElems elems).length := by
  have hmax : p.length ≤ 9223372036854775807 := hp
  have hpos := List.length_pos_of_ne_nil hne
  have hlayout : elemsLayout p key (some t) elems.length off =
      ([], pos64 (off + elems.length * 4)) := by
    have hwords : ¬ (key = str "tokenizer.ggml.scores" ∧ some t = some .float32 ∨
        key = str "tokenizer.ggml.types" ∧ some t = some .int32) := by
      rcases ht with rfl | rfl <;> simp
    have hwidth : skipWidth (some t) = 4 := by
      rcases ht with rfl | rfl <;> rfl
    rw [elemsLayout, if_neg (by rcases ht with rfl | rfl <;> simp), if_neg hwords, hwidth]
  rw [hlayout]
  dsimp only
  rcases ht with rfl | rfl
  · rw [encodeElems_bools htype] at hend ⊢
    have hwraps : (off + elems.length * 4) / 18446744073709551616 < 2 :=
      Nat.div_lt_of_lt_mul (by omega)
    intro hsame
    have hdiv := Nat.div_add_mod (off + elems.length * 4) 18446744073709551616
    rw [pos64] at hsame
    rw [hsame] at hdiv
    exact four_wraps_ne hpos hwraps hdiv
  · have hlen := encodeElems_arrays htype
    rw [pos64_of_le hp (by omega)]
    omega

/-- The fields of an array. -/
theorem valueLayout_array {p : Bytes} (hp : p.length ≤ vectorMaxSize 1) {key : Bytes}
    {t : GGUFValueType} {elems : List GgufValue} (hcount : elems.length < 18446744073709551616)
    {off : Nat} (h : HasAt p off (GgufValue.array t elems).encode)
    (hend : off + (GgufValue.array t elems).encode.length ≤ p.length) :
    valueLayout p key (GgufValue.array t elems).valueType.code off =
      ([(off, 4), (off + 4, 8)] ++ (elemsLayout p key (some t) elems.length (off + 12)).1,
        (elemsLayout p key (some t) elems.length (off + 12)).2) := by
  rw [GgufValue.encode, List.length_append, List.length_append, leBytes_length,
    leBytes_length] at hend
  rw [GgufValue.encode, hasAt_append, hasAt_append, leBytes_length] at h
  obtain ⟨⟨htype, hlen⟩, -⟩ := h
  have hcode : leAt 4 p off = t.code := by
    rw [htype.leAt (leBytes_length 4 _), leNat_leBytes_of_lt (by cases t <;> decide)]
  have hword : leAt 8 p (off + 4) = elems.length := by
    rw [hlen.leAt (leBytes_length 8 _), leNat_leBytes_of_lt (by exact hcount)]
  have hbreak : ¬ pos64 (off + 4) > p.length := by
    rw [pos64_of_le hp (by omega)]
    omega
  show (if pos64 (off + 4) > p.length then _ else _) = _
  rw [if_neg hbreak, hcode, hword, GGUFValueType.ofCode_code]

/-- A pair that is not plain is not read to its end. -/
theorem not_plain_end {p : Bytes} (hp : p.length ≤ vectorMaxSize 1) {narrow : Nat → F32}
    {kv : GgufKv} (hkey : kv.key.length < 18446744073709551616) (hwf : kv.value.WellFormed)
    (hplain : ¬ kv.Plain) {off : Nat} (h : HasAt p off kv.encode) (hoff : off ≤ p.length)
    {gguf gguf' : GGUFFile} :
    readKvs narrow p 1 (gguf, off) ≠ .ok (gguf', off + kv.encode.length) := by
  intro hrun
  obtain ⟨hloop, hat, hlen⟩ := readKvs_cons hp narrow hkey h hoff 0 gguf
  have hend := h.le hoff
  rw [hloop] at hrun
  obtain ⟨⟨gguf₁, next⟩, hread, hrest⟩ := bind_eq_ok.1 hrun
  cases hrest
  obtain ⟨hin, hnext⟩ := (follows_readValue hp narrow kv.key _ gguf _).inside hread
  obtain ⟨key, value⟩ := kv
  cases value with
  | array t elems =>
    cases hwf with
    | array hcount htype hwfs =>
      rw [valueLayout_array hp hcount hat (by dsimp only at hlen ⊢; omega)] at hin hnext
      have hsize : (GgufValue.array t elems).encode.length = 12 + (encodeElems elems).length := by
        rw [GgufValue.encode, List.length_append, List.length_append, leBytes_length,
          leBytes_length]
      dsimp only at hlen hin hnext
      rw [hsize] at hlen
      by_cases hskip : (t = .bool ∨ t = .array) ∧ elems ≠ []
      · have hout : off + 8 + key.length + 4 + 12 + (encodeElems elems).length ≤ p.length := by omega
        refine elemsLayout_skipped hp hskip.1 hskip.2 htype hout (hnext.symm.trans ?_)
        omega
      · have hmany : (key = str "tokenizer.ggml.tokens" ∧ t = .string) ∧
            elems.length > vectorMaxSize 32 := by
          by_contra hfew
          refine hplain ⟨fun ht => ?_, fun htokens => ?_⟩
          · by_contra hne
            exact hskip ⟨ht, hne⟩
          · by_contra hgt
            exact hfew ⟨htokens, Nat.lt_of_not_le hgt⟩
        obtain ⟨⟨htokens, rfl⟩, hmany⟩ := hmany
        unfold elemsLayout at hin
        rw [if_pos rfl, if_pos ⟨htokens, hmany⟩] at hin
        exact absurd ((inside_append.1 hin).2 _ (.head _)) (Nat.not_succ_le_self _)
  | _ => exact hplain trivial

/-- A section is in sync where all of its pairs are plain and kept, and, where all but the last are
plain, only there. -/
theorem inSync_iff (narrow : Nat → F32) {head rest file : Bytes} {kvs : List GgufKv}
    (hhead : head.length = 24) (hfile : file = head ++ encodeKvs kvs ++ rest)
    (hsize : file.length ≤ vectorMaxSize 1) (hwf : SectionWellFormed kvs) :
    ((∀ kv ∈ kvs, kv.Plain ∧ kv.Kept) → InSync narrow file kvs) ∧
    ((∀ kv ∈ kvs.dropLast, kv.Plain) → InSync narrow file kvs → ∀ kv ∈ kvs, kv.Plain ∧ kv.Kept) := by
  have hat : HasAt file 24 (encodeKvs kvs) := by
    refine ⟨rest, ?_⟩
    rw [hfile, List.append_assoc, ← hhead, List.drop_left]
  have hoff : 24 ≤ file.length := by
    rw [hfile, List.length_append, List.length_append]
    omega
  have hkept : (∀ kv ∈ kvs, kv.Plain) → (InSync narrow file kvs ↔ ∀ kv ∈ kvs, kv.Kept) := by
    intro hplain
    obtain ⟨gguf, hrun, hall⟩ := readKvs_plain hsize narrow hwf.key_length hwf.values hplain hat hoff
      0 { fileData := file }
    have hiff := recordsAll_kept_iff hwf.keys hall rfl rfl
    constructor
    · rintro ⟨gguf', hrun', hsync⟩
      cases hrun.symm.trans hrun'
      exact hiff.1 hsync
    · intro h
      exact ⟨gguf, hrun, hiff.2 h⟩
  constructor
  · intro h
    exact (hkept fun kv hkv => (h kv hkv).1).2 fun kv hkv => (h kv hkv).2
  · intro hinit hsync
    have hplain : ∀ kv ∈ kvs, kv.Plain := by
      rcases List.eq_nil_or_concat' kvs with rfl | ⟨init, last, rfl⟩
      · exact nofun
      · rw [List.dropLast_concat] at hinit
        have hlast : last.Plain := by
          by_contra hlast
          have hmem : last ∈ init ++ [last] := List.mem_append_right _ (.head _)
          rw [encodeKvs, List.flatMap_append, hasAt_append] at hat
          obtain ⟨hatInit, hatLast⟩ := hat
          rw [List.flatMap_singleton] at hatLast
          obtain ⟨gguf, hrun, -⟩ := readKvs_plain hsize narrow
            (fun kv hkv => hwf.key_length kv (List.mem_append_left _ hkv))
            (fun kv hkv => hwf.values kv (List.mem_append_left _ hkv)) hinit hatInit hoff 1
            { fileData := file }
          obtain ⟨gguf', hrun', -⟩ := hsync
          rw [List.length_append, List.length_singleton, hrun, encodeKvs, encodeKvs,
            List.flatMap_append, List.flatMap_singleton, List.length_append,
            ← Nat.add_assoc] at hrun'
          exact not_plain_end hsize (hwf.key_length last hmem) (hwf.values last hmem) hlast hatLast
            (hatInit.le hoff) hrun'
        intro kv hkv
        rcases List.mem_append.1 hkv with hkv | hkv
        · exact hinit kv hkv
        · rw [List.mem_singleton.1 hkv]
          exact hlast
    exact fun kv hkv => ⟨hplain kv hkv, (hkept hplain).1 hsync kv hkv⟩

/-- A section with an array of one boolean before the vocabulary size. -/
def boolSection : List GgufKv :=
  [⟨str "b", .array .bool [.bool true]⟩, ⟨str "n", .int .u32 7⟩]

/-- A section with a token id that is stored as a `UINT32`. -/
def tokenSection : List GgufKv := [⟨bosKey, .int .u32 1⟩]

/-- A section of plain pairs. -/
def plainSection : List GgufKv :=
  [⟨str "a", .array .string [.string (str "x")]⟩, ⟨bosKey, .int .i32 1⟩]

theorem inSync_plainSection :
    InSync (fun _ => 0) (ggufHeader 0 2 ++ encodeKvs plainSection ++ []) plainSection := by
  have hwf : SectionWellFormed plainSection := {
    keys := by decide
    key_length := by
      intro kv hkv
      fin_cases hkv <;> decide
    values := by
      intro kv hkv
      fin_cases hkv
      · refine .array (by decide) (by simp [GgufValue.valueType]) ?_
        intro e he
        cases List.mem_singleton.1 he
        exact .string (by decide)
      · exact .int (by decide) }
  refine (inSync_iff (fun _ => 0) (show (ggufHeader 0 2).length = 24 from rfl) rfl (by decide) hwf).1 ?_
  intro kv hkv
  fin_cases hkv
  · exact ⟨⟨by decide, fun _ => by decide⟩, nofun⟩
  · refine ⟨trivial, fun t v hv => ?_⟩
    cases hv
    exact ⟨nofun, fun _ => .inl rfl⟩

/-- Behind an array of booleans the loop is out of step, and a token id of another width is not
kept. -/
theorem not_inSync_boolSection :
    SectionWellFormed boolSection ∧ SectionWellFormed tokenSection ∧
    ¬ InSync (fun _ => 0) (ggufHeader 0 2 ++ encodeKvs boolSection) boolSection ∧
    ¬ InSync (fun _ => 0) (ggufHeader 0 1 ++ encodeKvs tokenSection) tokenSection := by
  refine ⟨?_, ?_, ?_, ?_⟩
  · exact {
      keys := by decide
      key_length := by
        intro kv hkv
        fin_cases hkv <;> decide
      values := by
        intro kv hkv
        fin_cases hkv
        · refine .array (by decide) (by simp [GgufValue.valueType]) ?_
          intro e he
          cases List.mem_singleton.1 he
          exact .bool
        · exact .int (by decide) }
  · exact {
      keys := by decide
      key_length := by
        intro kv hkv
        fin_cases hkv
        decide
      values := by
        intro kv hkv
        fin_cases hkv
        exact .int (by decide) }
  · have hrun : readKvs (fun _ => 0) (ggufHeader 0 2 ++ encodeKvs boolSection) 2
        ({ fileData := ggufHeader 0 2 ++ encodeKvs boolSection }, 24) =
          undefined "read outside the buffer" := by
      decide +kernel
    rintro ⟨gguf, h, -⟩
    cases hrun.symm.trans h
  · have hrun : readKvs (fun _ => 0) (ggufHeader 0 1 ++ encodeKvs tokenSection) 1
        ({ fileData := ggufHeader 0 1 ++ encodeKvs tokenSection }, 24) =
          .ok ({ metadataInt := [(bosKey, 1)]
                 fileData := ggufHeader 0 1 ++ encodeKvs tokenSection }, 67) := by
      decide +kernel
    rintro ⟨gguf, h, hsync⟩
    cases hrun.symm.trans h
    have hbos := (hsync _ (.head _) .u32 1 rfl).2.1 rfl
    cases hbos

end Terllama
