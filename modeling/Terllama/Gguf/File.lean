import Terllama.Base.Buffer
import Terllama.Base.Bytes

/-!
# The GGUF parser

`parse_gguf_internal` of `src/gguf_loader.cpp`, on the bytes of a file. The read helpers test
nothing: a read at `off` is a slice of the file, undefined where the file ends before it. Positions
are `size_t` values and wrap. A map is the list of its assignments, the latest first. The conversion
of a `double` to `float` is a parameter.
-/

namespace Terllama

/-! ## The data model -/

/-- `GGUFValueType`. -/
inductive GGUFValueType where
  | uint8
  | int8
  | uint16
  | int16
  | uint32
  | int32
  | float32
  | bool
  | string
  | array
  | uint64
  | int64
  | float64
  deriving DecidableEq, Repr

/-- The constant of a value type. -/
def GGUFValueType.code : GGUFValueType → Nat
  | .uint8 => 0
  | .int8 => 1
  | .uint16 => 2
  | .int16 => 3
  | .uint32 => 4
  | .int32 => 5
  | .float32 => 6
  | .bool => 7
  | .string => 8
  | .array => 9
  | .uint64 => 10
  | .int64 => 11
  | .float64 => 12

/-- The value type of a constant. -/
def GGUFValueType.ofCode : Nat → Option GGUFValueType
  | 0 => some .uint8
  | 1 => some .int8
  | 2 => some .uint16
  | 3 => some .int16
  | 4 => some .uint32
  | 5 => some .int32
  | 6 => some .float32
  | 7 => some .bool
  | 8 => some .string
  | 9 => some .array
  | 10 => some .uint64
  | 11 => some .int64
  | 12 => some .float64
  | _ => none

@[simp] theorem GGUFValueType.ofCode_code (t : GGUFValueType) : ofCode t.code = some t := by
  cases t <;> rfl

/-- `GGUFTensorInfo`. -/
structure GGUFTensorInfo where
  name : Bytes
  type : Nat
  dims : List Nat
  offset : Nat
  deriving DecidableEq, Repr

/-- `GGUFFile`. -/
structure GGUFFile where
  metadataStr : List (Bytes × Bytes) := []
  metadataInt : List (Bytes × Int) := []
  metadataFloat : List (Bytes × F32) := []
  tensors : List GGUFTensorInfo := []
  fileData : Bytes := []
  valid : Bool := false
  tokenizerTokens : List Bytes := []
  tokenizerScores : List F32 := []
  tokenizerTypes : List Int := []
  tokenizerModel : Bytes := []
  bosTokenId : Int := -1
  eosTokenId : Int := -1
  deriving DecidableEq, Repr

/-- `gguf.metadata_int[key] = v`. -/
def GGUFFile.setInt (gguf : GGUFFile) (key : Bytes) (v : Int) : GGUFFile :=
  { gguf with metadataInt := (key, v) :: gguf.metadataInt }

/-- `gguf.metadata_float[key] = v`. -/
def GGUFFile.setFloat (gguf : GGUFFile) (key : Bytes) (v : F32) : GGUFFile :=
  { gguf with metadataFloat := (key, v) :: gguf.metadataFloat }

/-- `GGUF_MAGIC`. -/
def ggufMagic : Nat := 0x46554747

/-- `GGUF_VERSION`. -/
def ggufVersion : Nat := 3

/-! ## The read helpers -/

/-- A position, which is a `size_t`. -/
def pos64 (n : Nat) : Nat := n % 18446744073709551616

/-- The `r` helpers: a little-endian word of `n` bytes. -/
def rWord (n : Nat) (p : Bytes) (off : Nat) : Exec (Nat × Nat) := do
  let v ← slice p off n
  return (leNat v, pos64 (off + n))

/-- `r8`. -/
def r8 : Bytes → Nat → Exec (Nat × Nat) := rWord 1

/-- `r16`. -/
def r16 : Bytes → Nat → Exec (Nat × Nat) := rWord 2

/-- `r32`. -/
def r32 : Bytes → Nat → Exec (Nat × Nat) := rWord 4

/-- `r64`. -/
def r64 : Bytes → Nat → Exec (Nat × Nat) := rWord 8

/-- `rf32`, which copies the same four bytes into a `float`. -/
def rf32 : Bytes → Nat → Exec (Nat × Nat) := rWord 4

/-- The largest length of a `std::string`. -/
def stringMaxSize : Nat := 9223372036854775806

/-- `rstr`. -/
def rstr (p : Bytes) (off : Nat) : Exec (Bytes × Nat) := do
  let (len, off) ← r64 p off
  if len > stringMaxSize then raise "basic_string::_M_create"
  else
    let s ← slice p off len
    return (s, pos64 (off + len))

/-- The conversion of a word of `bits` bits to the signed type of its width. -/
def signedWord (bits v : Nat) : Int := if v < 2 ^ (bits - 1) then v else (v : Int) - (2 ^ bits : Nat)

/-! ## Arrays -/

/-- The size check of a `std::vector` operation that grows the vector, with the text of the exception
where it fails. -/
def vectorCheck (what : String) (n size : Nat) : Exec Unit :=
  if n ≤ vectorMaxSize size then .ok () else raise what

/-- The loop over `tokenizer.ggml.tokens`. -/
def readTokens (p : Bytes) : Nat → List Bytes × Nat → Exec (List Bytes × Nat)
  | 0, s => .ok s
  | n + 1, (tokens, off) => do
    let (s, off) ← rstr p off
    readTokens p n (tokens ++ [s], off)

/-- The loops that read words one by one and keep what `conv` makes of each. -/
def readWords {α : Type} (read : Bytes → Nat → Exec (Nat × Nat)) (conv : Nat → α) (p : Bytes) :
    Nat → List α × Nat → Exec (List α × Nat)
  | 0, s => .ok s
  | n + 1, (words, off) => do
    let (v, off) ← read p off
    readWords read conv p n (words ++ [conv v], off)

/-- The inner switch of the loop that skips an array. -/
def skipElem (p : Bytes) (elemType : Option GGUFValueType) (off : Nat) : Exec Nat :=
  match elemType with
  | some .uint8 | some .int8 => .ok (pos64 (off + 1))
  | some .uint16 | some .int16 => .ok (pos64 (off + 2))
  | some .uint32 | some .int32 | some .float32 => .ok (pos64 (off + 4))
  | some .uint64 | some .int64 | some .float64 => .ok (pos64 (off + 8))
  | some .string => do
    let (_, off) ← rstr p off
    return off
  | some .bool | some .array | none => .ok (pos64 (off + 4))

/-- The loop that skips an array. -/
def skipElems (p : Bytes) (elemType : Option GGUFValueType) : Nat → Nat → Exec Nat
  | 0, off => .ok off
  | n + 1, off => do
    let off ← skipElem p elemType off
    skipElems p elemType n off

/-- The elements of an array under `key`. -/
def readElems (p : Bytes) (key : Bytes) (elemType : Option GGUFValueType) (elemCount : Nat)
    (gguf : GGUFFile) (off : Nat) : Exec (GGUFFile × Nat) := do
  if key = str "tokenizer.ggml.tokens" ∧ elemType = some .string then
    let _ ← vectorCheck "vector::reserve" elemCount 32
    let (tokens, off) ← readTokens p elemCount (gguf.tokenizerTokens, off)
    return ({ gguf with tokenizerTokens := tokens }, off)
  else if key = str "tokenizer.ggml.scores" ∧ elemType = some .float32 then
    let _ ← vectorCheck "vector::reserve" elemCount 4
    let (scores, off) ← readWords rf32 UInt32.ofNat p elemCount (gguf.tokenizerScores, off)
    return ({ gguf with tokenizerScores := scores }, off)
  else if key = str "tokenizer.ggml.types" ∧ elemType = some .int32 then
    let _ ← vectorCheck "vector::reserve" elemCount 4
    let (types, off) ← readWords r32 toInt32 p elemCount (gguf.tokenizerTypes, off)
    return ({ gguf with tokenizerTypes := types }, off)
  else
    let off ← skipElems p elemType elemCount off
    return (gguf, off)

/-! ## The metadata -/

/-- The `INT32` case, where the two token ids are kept. -/
def GGUFFile.setInt32 (gguf : GGUFFile) (key : Bytes) (iv : Int) : GGUFFile :=
  let gguf := gguf.setInt key iv
  let gguf := if key = str "tokenizer.ggml.bos_token_id" then { gguf with bosTokenId := iv } else gguf
  if key = str "tokenizer.ggml.eos_token_id" then { gguf with eosTokenId := iv } else gguf

/-- The `STRING` case. -/
def GGUFFile.setStr (gguf : GGUFFile) (key v : Bytes) : GGUFFile :=
  if key = str "tokenizer.ggml.model" then { gguf with tokenizerModel := v }
  else { gguf with metadataStr := (key, v) :: gguf.metadataStr }

/-- A value that is one word, and what is recorded of it. -/
def readScalar (word : Exec (Nat × Nat)) (record : Nat → GGUFFile) : Exec (GGUFFile × Nat) := do
  let (v, off) ← word
  return (record v, off)

/-- The switch over the value type. -/
def readValue (narrow : Nat → F32) (p key : Bytes) (valType : Nat) (gguf : GGUFFile) (off : Nat) :
    Exec (GGUFFile × Nat) :=
  match GGUFValueType.ofCode valType with
  | some .uint8 => readScalar (r8 p off) (fun v => gguf.setInt key v)
  | some .int8 => readScalar (r8 p off) (fun v => gguf.setInt key (signedWord 8 v))
  | some .uint16 => readScalar (r16 p off) (fun v => gguf.setInt key v)
  | some .int16 => readScalar (r16 p off) (fun v => gguf.setInt key (signedWord 16 v))
  | some .uint32 => readScalar (r32 p off) (fun v => gguf.setInt key v)
  | some .int32 => readScalar (r32 p off) (fun v => gguf.setInt32 key (signedWord 32 v))
  | some .uint64 | some .int64 => readScalar (r64 p off) (fun v => gguf.setInt key (signedWord 64 v))
  | some .float32 => readScalar (rf32 p off) (fun v => gguf.setFloat key (UInt32.ofNat v))
  | some .float64 => readScalar (r64 p off) (fun v => gguf.setFloat key (narrow v))
  | some .bool => readScalar (r8 p off) (fun v => gguf.setInt key (if v = 0 then 0 else 1))
  | some .string => do
    let (v, off) ← rstr p off
    return (gguf.setStr key v, off)
  | some .array =>
    -- this `break` leaves the switch, not the loop over the pairs
    if pos64 (off + 4) > p.length then .ok (gguf, off)
    else do
      let (elemType, off) ← r32 p off
      let (elemCount, off) ← r64 p off
      readElems p key (GGUFValueType.ofCode elemType) elemCount gguf off
  | none => .ok (gguf, pos64 (off + 4))

/-- The loop over the key-value pairs. -/
def readKvs (narrow : Nat → F32) (p : Bytes) :
    Nat → GGUFFile × Nat → Exec (GGUFFile × Nat)
  | 0, s => .ok s
  | n + 1, (gguf, off) => do
    let (key, off) ← rstr p off
    if pos64 (off + 4) > p.length then .ok (gguf, off)
    else
      let (valType, off) ← r32 p off
      let s ← readValue narrow p key valType gguf off
      readKvs narrow p n s

/-! ## The tensor table -/

/-- The loop over the dimensions. -/
def readDims : Bytes → Nat → List Nat × Nat → Exec (List Nat × Nat) := readWords r64 id

/-- The loop over the tensor infos. -/
def readInfos (p : Bytes) : Nat → List GGUFTensorInfo × Nat → Exec (List GGUFTensorInfo × Nat)
  | 0, s => .ok s
  | n + 1, (tensors, off) => do
    let (name, off) ← rstr p off
    if pos64 (off + 4) > p.length then .ok (tensors, off)
    else
      let (nDims, off) ← r32 p off
      let (dims, off) ← readDims p nDims ([], off)
      let (type, off) ← r32 p off
      let (offset, off) ← r64 p off
      readInfos p n (tensors ++ [{ name, type, dims, offset }], off)

/-- `parse_gguf_internal`, on the contents of the file at `path`. -/
def parseGguf (narrow : Nat → F32) (file : Bytes) : Exec GGUFFile := do
  let _ ← vectorCheck "vector::_M_default_append" file.length 1
  let gguf : GGUFFile := { fileData := file }
  let (magic, off) ← r32 file 0
  if magic ≠ ggufMagic then return gguf
  else
    let (version, off) ← r32 file off
    if version > ggufVersion then return gguf
    else
      let (tensorCount, off) ← r64 file off
      let (metadataKvCount, off) ← r64 file off
      let (gguf, off) ← readKvs narrow file metadataKvCount (gguf, off)
      let (tensors, _) ← readInfos file tensorCount (gguf.tensors, off)
      return { gguf with tensors, valid := true }

end Terllama
