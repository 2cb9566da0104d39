import Mathlib.Tactic
import Terllama.Distributed.Protocol

/-!
# The messages of the forward calls

`pack_forward_request`, `pack_forward_response` and their readers of `distributed/protocol.h`. Both
messages end in a count and as many floats (`countedFloats`); a reader looks at the front of a body
only, so that packing what it read gives back the part that it looked at.
-/

namespace Terllama

/-- `kForwardMagic`. -/
def forwardMagic : Nat := 0x544C4652

/-- `kInputToken`. -/
def inputToken : UInt32 := 0

/-- `kInputHidden`. -/
def inputHidden : UInt32 := 1

/-! ## The two messages -/

/-- `pack_forward_request`. The count is the low word of the size. -/
def packForwardRequest (seqPos : Int) (inputKind : UInt32) (data : List F32) : Bytes :=
  u32Bytes forwardMagic ++ i32Bytes seqPos ++ u32Bytes inputKind.toNat ++ u32Bytes data.length ++
    floatBytes data

/-- The count at `pos` and the floats behind it, where the body has them all. -/
def countedFloats (body : Bytes) (pos : Nat) : Option (List F32) :=
  let count := leNat ((body.drop pos).take 4)
  if body.length < pos + 4 + count * 4 then none
  else some (floatsOf ((body.drop (pos + 4)).take (count * 4)))

/-- `unpack_forward_request`, with `none` where it returns false. -/
def unpackForwardRequest (body : Bytes) : Option (Int × UInt32 × List F32) :=
  if body.length < 16 then none
  else if leNat (body.take 4) ≠ forwardMagic then none
  else do
    let data ← countedFloats body 12
    return (toInt32 (leNat ((body.drop 4).take 4)), UInt32.ofNat (leNat ((body.drop 8).take 4)), data)

/-- `pack_forward_response`. -/
def packForwardResponse (data : List F32) : Bytes :=
  u32Bytes forwardMagic ++ u32Bytes data.length ++ floatBytes data

/-- `unpack_forward_response`, with `none` where it returns false. -/
def unpackForwardResponse (body : Bytes) : Option (List F32) :=
  if body.length < 8 then none
  else if leNat (body.take 4) ≠ forwardMagic then none
  else countedFloats body 4

/-! ## A count with its floats -/

theorem F32.toBytes_ofBytes {bs : Bytes} (h : bs.length = 4) : (F32.ofBytes bs).toBytes = bs := by
  have hlt : leNat bs < 4294967296 := by
    have hlt := leNat_lt bs
    rwa [h] at hlt
  rw [F32.ofBytes, F32.toBytes, UInt32.toNat_ofNat_of_lt' hlt]
  conv_lhs => rw [← h]
  exact leBytes_leNat bs

/-- A buffer of whole words is the bytes of its floats. -/
theorem floatBytes_floatsOf {bs : Bytes} {n : Nat} (h : bs.length = n * 4) :
    floatBytes (floatsOf bs) = bs := by
  induction n generalizing bs with
  | zero =>
    rw [List.length_eq_zero_iff.1 (h.trans (Nat.zero_mul 4))]
    rfl
  | succ n ih =>
    have hhead : (bs.take 4).length = 4 := by
      rw [List.length_take]
      omega
    have htail : (bs.drop 4).length = n * 4 := by
      rw [List.length_drop]
      omega
    conv_lhs => rw [← List.take_append_drop 4 bs]
    rw [floatsOf_append hhead, floatBytes_cons, F32.toBytes_ofBytes hhead, ih htail,
      List.take_append_drop]

/-- A word is the bytes of its value. -/
theorem u32Bytes_leNat {bs : Bytes} (h : bs.length = 4) : u32Bytes (leNat bs) = bs := by
  conv_lhs => rw [u32Bytes, ← h]
  exact leBytes_leNat bs

theorem i32Bytes_toInt32 {bs : Bytes} (h : bs.length = 4) : i32Bytes (toInt32 (leNat bs)) = bs := by
  have hlt : leNat bs < 4294967296 := by
    have hlt := leNat_lt bs
    rwa [h] at hlt
  have hback : (toInt32 (leNat bs) % 4294967296).toNat = leNat bs := by
    unfold toInt32
    rw [Nat.mod_eq_of_lt hlt]
    split <;> omega
  rw [i32Bytes, hback, u32Bytes_leNat h]

section
variable {head : Bytes} {data : List F32} {pos : Nat}

/-- The count of a message. -/
theorem count_eq (hhead : head.length = pos) (hdata : data.length < 4294967296) :
    leNat (((head ++ u32Bytes data.length ++ floatBytes data).drop pos).take 4) = data.length := by
  rw [List.append_assoc, ← hhead, List.drop_left, List.take_left' (leBytes_length 4 _),
    leNat_leBytes_of_lt hdata]

theorem message_length (hhead : head.length = pos) :
    (head ++ u32Bytes data.length ++ floatBytes data).length = pos + 4 + data.length * 4 := by
  rw [List.length_append, List.length_append, leBytes_length, floatBytes_length, hhead]
  omega

/-- The floats of a message are read back. -/
theorem countedFloats_message (hhead : head.length = pos) (hdata : data.length < 4294967296) :
    countedFloats (head ++ u32Bytes data.length ++ floatBytes data) pos = some data := by
  have hlen : (head ++ u32Bytes data.length).length = pos + 4 := by
    rw [List.length_append, leBytes_length, hhead]
  rw [countedFloats, count_eq hhead hdata, message_length hhead, if_neg (lt_irrefl _), List.drop_left' hlen, List.take_of_length_le, floatsOf_floatBytes]
  rw [floatBytes_length, Nat.mul_comm]

/-- A message that was cut behind its count has too few floats. -/
theorem countedFloats_cut (hhead : head.length = pos) (hdata : data.length < 4294967296) {k : Nat}
    (hcount : pos + 4 ≤ k) (hk : k < pos + 4 + data.length * 4) :
    countedFloats ((head ++ u32Bytes data.length ++ floatBytes data).take k) pos = none := by
  have hsame : leNat ((((head ++ u32Bytes data.length ++ floatBytes data).take k).drop pos).take 4) =
      data.length := by
    rw [List.drop_take, List.take_take, min_eq_left (by omega), count_eq hhead hdata]
  rw [countedFloats, hsame, List.length_take, message_length hhead, if_pos]
  omega

/-- What was read, written again, is the front of the body. -/
theorem countedFloats_repack {body : Bytes} (h : countedFloats body pos = some data)
    (hcount : pos + 4 ≤ body.length) :
    data.length < 4294967296 ∧
      body.take pos ++ u32Bytes data.length ++ floatBytes data <+: body := by
  unfold countedFloats at h
  dsimp only at h
  split at h
  · cases h
  rename_i hfits
  cases h
  have hword : ((body.drop pos).take 4).length = 4 := by
    rw [List.length_take, List.length_drop]
    omega
  have hlt := leNat_lt ((body.drop pos).take 4)
  have hword' : u32Bytes (leNat ((body.drop pos).take 4)) = (body.drop pos).take 4 :=
    u32Bytes_leNat hword
  rw [hword] at hlt
  have hsize : ((body.drop (pos + 4)).take (leNat ((body.drop pos).take 4) * 4)).length =
      leNat ((body.drop pos).take 4) * 4 := by
    rw [List.length_take, List.length_drop]
    omega
  have hcountEq : (floatsOf ((body.drop (pos + 4)).take (leNat ((body.drop pos).take 4) * 4))).length =
      leNat ((body.drop pos).take 4) := by
    rw [floatsOf_length, hsize, Nat.mul_div_cancel _ (by omega)]
  rw [hcountEq, floatBytes_floatsOf hsize, hword']
  rw [← List.take_add, ← List.take_add]
  exact ⟨hlt, List.take_prefix _ _⟩

end

/-! ## The codec -/

/-- The three words in front of the count of a request. -/
def requestHead (seqPos : Int) (inputKind : UInt32) : Bytes :=
  u32Bytes forwardMagic ++ i32Bytes seqPos ++ u32Bytes inputKind.toNat

theorem packForwardRequest_eq (seqPos : Int) (inputKind : UInt32) (data : List F32) :
    packForwardRequest seqPos inputKind data =
      requestHead seqPos inputKind ++ u32Bytes data.length ++ floatBytes data := rfl

theorem packForwardResponse_eq (data : List F32) :
    packForwardResponse data = u32Bytes forwardMagic ++ u32Bytes data.length ++ floatBytes data := rfl

theorem requestHead_length (seqPos : Int) (inputKind : UInt32) :
    (requestHead seqPos inputKind).length = 12 := by
  simp [requestHead, i32Bytes]

/-- The words of a request are read back. -/
theorem requestHead_words {seqPos : Int} (hpos : IsI32 seqPos) (inputKind : UInt32) (rest : Bytes) :
    leNat ((requestHead seqPos inputKind ++ rest).take 4) = forwardMagic ∧
      toInt32 (leNat (((requestHead seqPos inputKind ++ rest).drop 4).take 4)) = seqPos ∧
      UInt32.ofNat (leNat (((requestHead seqPos inputKind ++ rest).drop 8).take 4)) = inputKind := by
  have hmagic : (u32Bytes forwardMagic).length = 4 := leBytes_length 4 _
  have hword : (i32Bytes seqPos).length = 4 := leBytes_length 4 _
  have hkind : (u32Bytes inputKind.toNat).length = 4 := leBytes_length 4 _
  have hboth : (u32Bytes forwardMagic ++ i32Bytes seqPos).length = 8 := by
    rw [List.length_append, hmagic, hword]
  have hpos' : leNat (i32Bytes seqPos) = (seqPos % 4294967296).toNat := by
    rw [i32Bytes]
    exact leNat_leBytes_of_lt (by omega)
  have hkind' : leNat (u32Bytes inputKind.toNat) = inputKind.toNat :=
    leNat_leBytes_of_lt inputKind.toNat_lt
  unfold requestHead
  refine ⟨?_, ?_, ?_⟩
  · rw [List.append_assoc, List.append_assoc, List.take_left' hmagic]
    exact leNat_leBytes_of_lt (by decide)
  · rw [List.append_assoc, List.append_assoc, List.drop_left' hmagic, List.take_left' hword, hpos',
      toInt32_emod hpos]
  · rw [List.append_assoc, List.drop_left' hboth, List.take_left' hkind, hkind', UInt32.ofNat_toNat]

/-- The reader of requests inverts the writer. -/
theorem unpack_packForwardRequest {seqPos : Int} (hpos : IsI32 seqPos) (inputKind : UInt32)
    {data : List F32} (hdata : data.length < 4294967296) :
    unpackForwardRequest (packForwardRequest seqPos inputKind data) =
      some (seqPos, inputKind, data) := by
  have hhead := requestHead_length seqPos inputKind
  obtain ⟨hmagic, hseq, hkind⟩ :=
    requestHead_words hpos inputKind (u32Bytes data.length ++ floatBytes data)
  rw [← List.append_assoc] at hmagic hseq hkind
  have hlen : ¬ (requestHead seqPos inputKind ++ u32Bytes data.length ++
      floatBytes data).length < 16 := by
    rw [message_length hhead]
    omega
  rw [packForwardRequest_eq, unpackForwardRequest, if_neg hlen, if_neg (not_not_intro hmagic),
    countedFloats_message hhead hdata, hseq, hkind]
  rfl

/-- A request that was cut is rejected. -/
theorem unpackForwardRequest_cut (seqPos : Int) (inputKind : UInt32) {data : List F32}
    (hdata : data.length < 4294967296) {k : Nat}
    (hk : k < (packForwardRequest seqPos inputKind data).length) :
    unpackForwardRequest ((packForwardRequest seqPos inputKind data).take k) = none := by
  have hhead := requestHead_length seqPos inputKind
  rw [packForwardRequest_eq, message_length hhead] at hk
  rw [packForwardRequest_eq, unpackForwardRequest, List.length_take, message_length hhead]
  split
  · rfl
  · split
    · rfl
    · rw [countedFloats_cut hhead hdata (by omega) hk]
      rfl

/-- What the reader of requests accepts begins with what the writer makes of it. -/
theorem packForwardRequest_prefix {body : Bytes} {seqPos : Int} {inputKind : UInt32}
    {data : List F32} (h : unpackForwardRequest body = some (seqPos, inputKind, data)) :
    packForwardRequest seqPos inputKind data <+: body := by
  unfold unpackForwardRequest at h
  split at h
  · cases h
  rename_i hlen
  split at h
  · cases h
  rename_i hmagic
  obtain ⟨data', hdata, hwords⟩ := Option.bind_eq_some_iff.1 h
  cases hwords
  have hword : ∀ k ≤ 12, ((body.drop k).take 4).length = 4 := fun k hk => by
    rw [List.length_take, List.length_drop]
    omega
  have hkind : (UInt32.ofNat (leNat ((body.drop 8).take 4))).toNat = leNat ((body.drop 8).take 4) := by
    have hlt := leNat_lt ((body.drop 8).take 4)
    rw [hword 8 (by omega)] at hlt
    exact UInt32.toNat_ofNat_of_lt' hlt
  have hfront : requestHead (toInt32 (leNat ((body.drop 4).take 4)))
      (UInt32.ofNat (leNat ((body.drop 8).take 4))) = body.take 12 := by
    have hfirst : u32Bytes forwardMagic = body.take 4 := by
      rw [← not_not.1 hmagic]
      exact u32Bytes_leNat (hword 0 (by omega))
    rw [requestHead, hfirst, i32Bytes_toInt32 (hword 4 (by omega)), hkind,
      u32Bytes_leNat (hword 8 (by omega)), ← List.take_add, ← List.take_add]
  rw [packForwardRequest_eq, hfront]
  exact (countedFloats_repack hdata (by omega)).2

/-- The reader of responses inverts the writer. -/
theorem unpack_packForwardResponse {data : List F32} (hdata : data.length < 4294967296) :
    unpackForwardResponse (packForwardResponse data) = some data := by
  have hhead : (u32Bytes forwardMagic).length = 4 := leBytes_length 4 _
  have hlen : ¬ (u32Bytes forwardMagic ++ u32Bytes data.length ++ floatBytes data).length < 8 := by
    rw [message_length hhead]
    omega
  have hmagic : leNat ((u32Bytes forwardMagic ++ u32Bytes data.length ++ floatBytes data).take 4) =
      forwardMagic := by
    rw [List.append_assoc, List.take_left' hhead]
    exact leNat_leBytes_of_lt (by decide)
  rw [packForwardResponse_eq, unpackForwardResponse, if_neg hlen, if_neg (not_not_intro hmagic),
    countedFloats_message hhead hdata]

/-- A response that was cut is rejected. -/
theorem unpackForwardResponse_cut {data : List F32} (hdata : data.length < 4294967296) {k : Nat}
    (hk : k < (packForwardResponse data).length) :
    unpackForwardResponse ((packForwardResponse data).take k) = none := by
  have hhead : (u32Bytes forwardMagic).length = 4 := leBytes_length 4 _
  rw [packForwardResponse_eq, message_length hhead] at hk
  rw [packForwardResponse_eq, unpackForwardResponse, List.length_take, message_length hhead]
  split
  · rfl
  · split
    · rfl
    · exact countedFloats_cut hhead hdata (by omega) hk

/-- What the reader of responses accepts begins with what the writer makes of it. -/
theorem packForwardResponse_prefix {body : Bytes} {data : List F32}
    (h : unpackForwardResponse body = some data) : packForwardResponse data <+: body := by
  unfold unpackForwardResponse at h
  split at h
  · cases h
  rename_i hlen
  split at h
  · cases h
  rename_i hmagic
  have hfirst : u32Bytes forwardMagic = body.take 4 := by
    rw [← not_not.1 hmagic]
    refine u32Bytes_leNat ?_
    rw [List.length_take]
    omega
  rw [packForwardResponse_eq, hfirst]
  exact (countedFloats_repack h (by omega)).2

/-- The readers invert the writers, accept no strict prefix of what they wrote, and read only what
the writer gives back. -/
theorem forward_codec :
    (∀ (seqPos : Int) (inputKind : UInt32) (data : List F32), IsI32 seqPos →
      data.length < 4294967296 →
      unpackForwardRequest (packForwardRequest seqPos inputKind data) =
          some (seqPos, inputKind, data) ∧
        ∀ k < (packForwardRequest seqPos inputKind data).length,
          unpackForwardRequest ((packForwardRequest seqPos inputKind data).take k) = none) ∧
    (∀ (body : Bytes) (seqPos : Int) (inputKind : UInt32) (data : List F32),
      unpackForwardRequest body = some (seqPos, inputKind, data) →
        packForwardRequest seqPos inputKind data <+: body) ∧
    (∀ data : List F32, data.length < 4294967296 →
      unpackForwardResponse (packForwardResponse data) = some data ∧
        ∀ k < (packForwardResponse data).length,
          unpackForwardResponse ((packForwardResponse data).take k) = none) ∧
    (∀ (body : Bytes) (data : List F32), unpackForwardResponse body = some data →
      packForwardResponse data <+: body) :=
  ⟨fun _ inputKind _ hpos hdata =>
      ⟨unpack_packForwardRequest hpos inputKind hdata,
        fun _ => unpackForwardRequest_cut _ inputKind hdata⟩,
    fun _ _ _ _ => packForwardRequest_prefix,
    fun _ hdata => ⟨unpack_packForwardResponse hdata, fun _ => unpackForwardResponse_cut hdata⟩,
    fun _ _ => packForwardResponse_prefix⟩

/-- A request with a negative position and one NaN. -/
theorem forward_codec_nan :
    unpackForwardRequest (packForwardRequest (-1) inputHidden [0x7FC00001]) =
        some (-1, inputHidden, [0x7FC00001]) ∧
      unpackForwardRequest ((packForwardRequest (-1) inputHidden [0x7FC00001]).take 19) = none ∧
      packForwardResponse [0x7FC00001] <+: packForwardResponse [0x7FC00001] ++ [0] := by
  obtain ⟨hrequest, -, -, hresponse⟩ := forward_codec
  obtain ⟨hback, hcut⟩ := hrequest (-1) inputHidden [0x7FC00001] (by decide) (by decide)
  exact ⟨hback, hcut 19 (by decide), hresponse _ _ (by decide)⟩

end Terllama
