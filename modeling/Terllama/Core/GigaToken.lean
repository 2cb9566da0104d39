import Mathlib.Algebra.Order.Ring.Int
import Terllama.Base.Buffer
import Terllama.Base.Bytes

/-!
# The GigaToken wrapper

`GigaTokenWrapper::encode` and `GigaTokenWrapper::decode` of `core/gigatoken_wrapper.cpp` over the C
interface of the library, which reports how much it has written into a buffer of a given capacity.
`encode` calls it again with twice the capacity as long as the buffer is full; `decode` has one
buffer of 65536 bytes, so that a longer text is cut (`wrapper_complete_iff`).
-/

namespace Terllama

/-- The library with a tokenizer: what it makes of a buffer and of a count of its elements. -/
structure GigaLib where
  encodeIds : Bytes → Int → List UInt32
  decodeText : List UInt32 → Int → Bytes
  /-- No ids decode to no text. -/
  decodeText_nil : decodeText [] 0 = []

/-- The ids of a text. -/
def GigaLib.encoded (lib : GigaLib) (text : Bytes) : List UInt32 :=
  lib.encodeIds text text.length

/-- The text of a list of ids. -/
def GigaLib.decoded (lib : GigaLib) (ids : List UInt32) : Bytes :=
  lib.decodeText ids ids.length

section
variable {α : Type}

/-- A result written over the beginning of a buffer: the buffer, and the reported length. -/
def writeResult (result buf : List α) (room : Int) : List α × Int :=
  let written := result.take room.toNat
  (written ++ buf.drop written.length, written.length)

/-- What is left of the buffer behind the reported length is cut off. -/
theorem vectorResize_writeResult (result buf : List α) (room : Int) (a : α) :
    vectorResize (writeResult result buf room).1 (writeResult result buf room).2.toNat a =
      result.take room.toNat := by
  simp only [vectorResize, writeResult, Int.toNat_natCast]
  rw [List.take_left, List.length_append, Nat.sub_eq_zero_of_le (Nat.le_add_right _ _),
    List.replicate_zero, List.append_nil]

end

/-- `gt_encode`. -/
def GigaLib.gtEncode (lib : GigaLib) (text : Bytes) (count : Int) (ids : List UInt32) (cap : Int) :
    List UInt32 × Int :=
  writeResult (lib.encodeIds text count) ids cap

/-- `gt_decode`, which keeps a byte for the end of the string. -/
def GigaLib.gtDecode (lib : GigaLib) (ids : List UInt32) (count : Int) (buf : Bytes) (cap : Int) :
    Bytes × Int :=
  writeResult (lib.decodeText ids count) buf (cap - 1)

/-- The loop of `encode`; `none` where the calls are not enough. -/
def GigaLib.encodeLoop (lib : GigaLib) (text : Bytes) :
    Nat → List UInt32 → Int → Option (Exec (List UInt32))
  | 0, _, _ => none
  | calls + 1, ids, cap =>
    let (ids, outLen) :=
      lib.gtEncode text (toInt32 text.length) (vectorResize ids cap.toNat 0) cap
    if outLen < cap then some (.ok (vectorResize ids outLen.toNat 0))
    else
      match i32 (cap * 2) with
      | .error fault => some (.error fault)
      | .ok cap => encodeLoop lib text calls ids cap

/-- The capacity that `encode` begins with. -/
def initialCap (size : Nat) : Int :=
  let initial : Int := (size / 4 + 64 : Nat)
  if initial > 64 then min initial 2147483647 else 64

/-- `GigaTokenWrapper::encode` with a tokenizer, for a number of calls of the library. -/
def GigaLib.encode (lib : GigaLib) (calls : Nat) (text : Bytes) : Option (Exec (List UInt32)) :=
  lib.encodeLoop text calls [] (initialCap text.length)

/-- `GigaTokenWrapper::decode` with a tokenizer. The buffer is that of the thread, which holds what
the call before has left. -/
def GigaLib.decode (lib : GigaLib) (buf : Bytes) (ids : List UInt32) : Bytes :=
  if ids.isEmpty then []
  else
    let (buf, outLen) :=
      lib.gtDecode ids (toInt32 ids.length) (vectorResize buf 65536 0) 65536
    vectorResize buf outLen.toNat 0

/-- The text of the ids fits the buffer, and the count of the ids an `int32_t`. A greater count
wraps: there the library has to make the same text of the wrapped count. -/
def DecodeFits (lib : GigaLib) (ids : List UInt32) : Prop :=
  (lib.decoded ids).length ≤ 65535 ∧
    (2147483648 ≤ ids.length →
      (lib.decodeText ids (toInt32 ids.length)).take 65535 = lib.decoded ids)

/-! ## Encoding -/

section
variable {lib : GigaLib} {text : Bytes}

/-- One call. -/
theorem GigaLib.encodeLoop_succ (lib : GigaLib) (htext : text.length < 1073741824) (calls : Nat)
    (ids : List UInt32) {cap : Int} (hcap : 0 < cap) :
    ∃ ids', lib.encodeLoop text (calls + 1) ids cap =
      if (lib.encoded text).length < cap then some (.ok (lib.encoded text))
      else
        match i32 (cap * 2) with
        | .error fault => some (.error fault)
        | .ok cap => lib.encodeLoop text calls ids' cap := by
  have hcount : toInt32 text.length = text.length := toInt32_of_lt (by omega)
  refine ⟨(lib.gtEncode text text.length (vectorResize ids cap.toNat 0) cap).1, ?_⟩
  have hlen : (lib.gtEncode text text.length (vectorResize ids cap.toNat 0) cap).2 =
      min cap (lib.encoded text).length := by
    simp only [gtEncode, writeResult, List.length_take, encoded]
    omega
  have hresult := vectorResize_writeResult (lib.encoded text) (vectorResize ids cap.toNat 0) cap 0
  rw [encodeLoop, hcount]
  simp only [hlen, inf_lt_left, not_le]
  split
  · next hlt =>
    change vectorResize (lib.gtEncode text text.length _ cap).1
      (lib.gtEncode text text.length _ cap).2.toNat 0 = _ at hresult
    rw [hlen, List.take_of_length_le (by omega)] at hresult
    rw [hresult]
  · rfl

/-- The calls are enough once the capacity has grown past the number of the ids. It does not
overflow: it is doubled only where it is at most that number. -/
theorem GigaLib.encodeLoop_eq (htext : text.length < 1073741824)
    (hids : (lib.encoded text).length ≤ text.length) {calls : Nat} {cap : Int}
    (hcap : 0 < cap) (hgrown : (lib.encoded text).length < cap * 2 ^ calls) (ids : List UInt32) :
    lib.encodeLoop text (calls + 1) ids cap = some (.ok (lib.encoded text)) := by
  induction calls generalizing cap ids with
  | zero =>
    obtain ⟨ids', h⟩ := lib.encodeLoop_succ htext 0 ids hcap
    rw [pow_zero, mul_one] at hgrown
    rw [h, if_pos hgrown]
  | succ calls ih =>
    obtain ⟨ids', h⟩ := lib.encodeLoop_succ htext (calls + 1) ids hcap
    rw [h]
    split
    · rfl
    · next hfull =>
      rw [i32_ok (by omega) (by omega)]
      refine ih (by omega) ?_ ids'
      rwa [pow_succ', ← mul_assoc] at hgrown

/-- Three calls are enough: the first capacity is more than a quarter of the size of the text. -/
theorem GigaLib.encode_eq (htext : text.length < 1073741824)
    (hids : (lib.encoded text).length ≤ text.length) (calls : Nat) :
    lib.encode (calls + 3) text = some (.ok (lib.encoded text)) := by
  have hinitial : 0 < initialCap text.length ∧
      (text.length : Int) < initialCap text.length * 4 := by
    simp only [initialCap]
    split <;> omega
  have hfour : (4 : Int) ≤ 2 ^ (calls + 2) := by
    have hone : (1 : Int) ≤ 2 ^ calls := one_le_pow₀ (by decide)
    rw [pow_add]
    omega
  refine encodeLoop_eq htext hids hinitial.1 ?_ []
  calc ((lib.encoded text).length : Int) ≤ text.length := Int.ofNat_le.2 hids
    _ < initialCap text.length * 4 := hinitial.2
    _ ≤ initialCap text.length * 2 ^ (calls + 2) :=
      mul_le_mul_of_nonneg_left hfour (by omega)

end

/-! ## Decoding -/

/-- Of the text of the ids the buffer takes 65535 bytes. -/
theorem GigaLib.decode_eq (lib : GigaLib) (buf : Bytes) {ids : List UInt32} (hids : ids ≠ []) :
    lib.decode buf ids = (lib.decodeText ids (toInt32 ids.length)).take 65535 := by
  rw [decode, if_neg (by rwa [List.isEmpty_iff])]
  exact vectorResize_writeResult _ _ 65535 0

/-- `encode` returns the ids of the text after three calls at most, whatever the library has for
them, and never overflows its capacity. `decode` returns the text of the ids exactly where it fits
the buffer. -/
theorem wrapper_complete_iff (lib : GigaLib) :
    (∀ text, text.length < 1073741824 → (lib.encoded text).length ≤ text.length →
      ∀ calls, lib.encode (calls + 3) text = some (.ok (lib.encoded text))) ∧
    ∀ buf ids, lib.decode buf ids = lib.decoded ids ↔ DecodeFits lib ids := by
  refine ⟨fun text htext hids calls => GigaLib.encode_eq htext hids calls, fun buf ids => ?_⟩
  by_cases hnil : ids = []
  · have hempty : lib.decoded [] = [] := lib.decodeText_nil
    subst hnil
    refine iff_of_true hempty.symm ⟨?_, ?_⟩
    · rw [hempty]
      exact Nat.zero_le _
    · intro h
      exact absurd h (by decide)
  · rw [lib.decode_eq buf hnil, DecodeFits]
    by_cases hlen : ids.length < 2147483648
    · rw [toInt32_of_lt hlen]
      rw [and_iff_left fun h => absurd h (Nat.not_le.2 hlen)]
      constructor
      · intro h
        rw [← h]
        exact List.length_take_le _ _
      · exact List.take_of_length_le
    · constructor
      · intro h
        refine ⟨?_, fun _ => h⟩
        rw [← h]
        exact List.length_take_le _ _
      · rintro ⟨-, h⟩
        exact h (Nat.not_lt.1 hlen)

/-- A tokenizer in which each id is the letter x. -/
def letterGiga : GigaLib where
  encodeIds _ _ := []
  decodeText ids count := (ids.take count.toNat).map fun _ => 120
  decodeText_nil := rfl

/-- Of 65536 letters the last is missing. -/
theorem decode_cut :
    (letterGiga.decode [] (List.replicate 65536 0)).length = 65535 ∧
      letterGiga.decode [] (List.replicate 65536 0) ≠
        letterGiga.decoded (List.replicate 65536 0) := by
  have hlen : (List.replicate 65536 (0 : UInt32)).length = 65536 := List.length_replicate
  generalize List.replicate 65536 (0 : UInt32) = ids at hlen ⊢
  have hne : ids ≠ [] := by
    rintro rfl
    cases hlen
  have hdecoded : (letterGiga.decoded ids).length = 65536 := by
    rw [GigaLib.decoded, letterGiga, List.length_map, Int.toNat_natCast, List.take_length, hlen]
  have hcut : (letterGiga.decode [] ids).length = 65535 := by
    have hcount : toInt32 ids.length = ids.length := toInt32_of_lt (by omega)
    rw [letterGiga.decode_eq [] hne, hcount]
    change ((letterGiga.decoded ids).take 65535).length = _
    rw [List.length_take, hdecoded]
    rfl
  refine ⟨hcut, fun h => ?_⟩
  rw [h, hdecoded] at hcut
  exact absurd hcut (by decide)

end Terllama
