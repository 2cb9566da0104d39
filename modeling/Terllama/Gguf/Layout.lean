import Terllama.Base.Layout
import Terllama.Gguf.File

/-!
# The layout of a GGUF file

The fields that the parser reads, as the file's own lengths, counts and types lay them out. The
functions here are total: past the end of the file a word is read as far as it goes. `follows_readKvs`
and `follows_readInfos` tie the loops of the parser to the layout, and `parseGguf_ok_iff` makes it the
exact condition under which the parser returns.
-/

namespace Terllama

/-! ## Fields -/

/-- The word of `n` bytes at a position. -/
def leAt (n : Nat) (p : Bytes) (off : Nat) : Nat := leNat ((p.drop off).take n)

/-- The fields of a string, its length and its characters, and the position after it. -/
def strLayout (p : Bytes) (off : Nat) : List (Nat × Nat) × Nat :=
  ([(off, 8), (off + 8, leAt 8 p off)], off + 8 + leAt 8 p off)

/-- The characters of a string. -/
def strAt (p : Bytes) (off : Nat) : Bytes := (p.drop (off + 8)).take (leAt 8 p off)

/-- The fields of `n` strings in a row. -/
def strsLayout (p : Bytes) : Nat → Nat → List (Nat × Nat) × Nat
  | 0, off => ([], off)
  | n + 1, off =>
    let rest := strsLayout p n (strLayout p off).2
    ((strLayout p off).1 ++ rest.1, rest.2)

/-- The bytes that the parser skips for an element of an array. -/
def skipWidth : Option GGUFValueType → Nat
  | some .uint8 | some .int8 => 1
  | some .uint16 | some .int16 => 2
  | some .uint64 | some .int64 | some .float64 => 8
  | _ => 4

/-- The fields of the elements of an array. Only strings and the two tokenizer arrays of words are
read. A number of tokens that no vector can hold is rejected before they are read: it lays out a
field that lies inside no file. -/
def elemsLayout (p key : Bytes) (elemType : Option GGUFValueType) (n off : Nat) :
    List (Nat × Nat) × Nat :=
  if elemType = some .string then
    if key = str "tokenizer.ggml.tokens" ∧ n > vectorMaxSize 32 then ([(p.length, 1)], off)
    else strsLayout p n off
  else if key = str "tokenizer.ggml.scores" ∧ elemType = some .float32 ∨
      key = str "tokenizer.ggml.types" ∧ elemType = some .int32 then
    ([(off, 4 * n)], off + 4 * n)
  else ([], pos64 (off + n * skipWidth elemType))

/-- The bytes of a value that is one word. -/
def scalarWidth : GGUFValueType → Option Nat
  | .uint8 | .int8 | .bool => some 1
  | .uint16 | .int16 => some 2
  | .uint32 | .int32 | .float32 => some 4
  | .uint64 | .int64 | .float64 => some 8
  | .string | .array => none

/-- The fields of a value. -/
def valueLayout (p key : Bytes) (valType off : Nat) : List (Nat × Nat) × Nat :=
  match GGUFValueType.ofCode valType with
  | none => ([], pos64 (off + 4))
  | some .string => strLayout p off
  | some .array =>
    if pos64 (off + 4) > p.length then ([], off)
    else
      let elems := elemsLayout p key (GGUFValueType.ofCode (leAt 4 p off)) (leAt 8 p (off + 4))
        (off + 12)
      ([(off, 4), (off + 4, 8)] ++ elems.1, elems.2)
  | some t => ([(off, (scalarWidth t).getD 0)], off + (scalarWidth t).getD 0)

/-- The fields of `n` key-value pairs. -/
def kvsLayout (p : Bytes) : Nat → Nat → List (Nat × Nat) × Nat
  | 0, off => ([], off)
  | n + 1, off =>
    let key := strLayout p off
    if pos64 (key.2 + 4) > p.length then key
    else
      let value := valueLayout p (strAt p off) (leAt 4 p key.2) (key.2 + 4)
      let rest := kvsLayout p n value.2
      (key.1 ++ (key.2, 4) :: value.1 ++ rest.1, rest.2)

/-- The fields of `n` tensor infos. -/
def infosLayout (p : Bytes) : Nat → Nat → List (Nat × Nat) × Nat
  | 0, off => ([], off)
  | n + 1, off =>
    let name := strLayout p off
    if pos64 (name.2 + 4) > p.length then name
    else
      let nDims := leAt 4 p name.2
      let stop := name.2 + 4 + 8 * nDims
      let rest := infosLayout p n (stop + 4 + 8)
      (name.1 ++ (name.2, 4) :: (name.2 + 4, 8 * nDims) :: (stop, 4) :: (stop + 4, 8) :: rest.1,
        rest.2)

/-- The tensor infos in their fields. -/
def infosAt (p : Bytes) : Nat → Nat → List GGUFTensorInfo
  | 0, _ => []
  | n + 1, off =>
    let name := strLayout p off
    if pos64 (name.2 + 4) > p.length then []
    else
      let nDims := leAt 4 p name.2
      let stop := name.2 + 4 + 8 * nDims
      { name := strAt p off
        type := leAt 4 p stop
        dims := (List.range nDims).map fun d => leAt 8 p (name.2 + 4 + 8 * d)
        offset := leAt 8 p (stop + 4) } :: infosAt p n (stop + 4 + 8)

/-- A file that the parser takes for a GGUF file of a version that it knows. -/
def KnownHeader (p : Bytes) : Prop := leAt 4 p 0 = ggufMagic ∧ leAt 4 p 4 ≤ ggufVersion

instance (p : Bytes) : Decidable (KnownHeader p) := inferInstanceAs (Decidable (_ ∧ _))

/-- The fields of a file. -/
def fileLayout (p : Bytes) : List (Nat × Nat) :=
  if leAt 4 p 0 ≠ ggufMagic then [(0, 4)]
  else if leAt 4 p 4 > ggufVersion then [(0, 4), (4, 4)]
  else
    let kvs := kvsLayout p (leAt 8 p 16) 24
    [(0, 4), (4, 4), (8, 8), (16, 8)] ++ kvs.1 ++ (infosLayout p (leAt 8 p 8) kvs.2).1

/-- The tensor table of a file. -/
def fileTable (p : Bytes) : List GGUFTensorInfo :=
  if KnownHeader p then infosAt p (leAt 8 p 8) (kvsLayout p (leAt 8 p 16) 24).2 else []

/-! ## The readers -/

section
variable {p : Bytes} (hp : p.length ≤ vectorMaxSize 1)
include hp

theorem pos64_of_le {n : Nat} (h : n ≤ p.length) : pos64 n = n := by
  have hmax : p.length ≤ 9223372036854775807 := hp
  exact Nat.mod_eq_of_lt (by omega)

theorem follows_rWord (n off : Nat) : Follows p.length (rWord n p off) [(off, n)] (off + n) where
  returns h := by
    have hin : off + n ≤ p.length := h _ (.head _)
    exact ⟨leAt n p off, by rw [rWord, slice_ok hin, ok_bind, pos64_of_le hp hin]; rfl⟩
  inside h := by
    obtain ⟨v, hv, h⟩ := bind_eq_ok.1 h
    obtain ⟨hin, -⟩ := slice_eq_ok.1 hv
    cases h
    exact ⟨inside_cons.2 ⟨hin, inside_nil _⟩, pos64_of_le hp hin⟩

omit hp in
theorem rWord_value {n off v next : Nat} (h : rWord n p off = .ok (v, next)) :
    v = leAt n p off := by
  obtain ⟨bytes, hv, h⟩ := bind_eq_ok.1 h
  cases h
  rw [(slice_eq_ok.1 hv).2]
  rfl

theorem follows_rstr (off : Nat) :
    Follows p.length (rstr p off) (strLayout p off).1 (strLayout p off).2 := by
  have hmax : p.length ≤ 9223372036854775807 := hp
  refine (follows_rWord hp 8 off).cons fun len hlen => ?_
  have hval := rWord_value hlen
  subst hval
  exact {
    returns := fun h => by
      have hin : off + 8 + leAt 8 p off ≤ p.length := h _ (.head _)
      have hlen : ¬ leAt 8 p off > stringMaxSize := by
        unfold stringMaxSize
        omega
      dsimp only
      rw [if_neg hlen, slice_ok hin, ok_bind, pos64_of_le hp hin]
      exact ⟨_, rfl⟩
    inside := fun h => by
      dsimp only at h
      split at h
      · cases h
      · obtain ⟨s, hs, h⟩ := bind_eq_ok.1 h
        obtain ⟨hin, -⟩ := slice_eq_ok.1 hs
        cases h
        exact ⟨inside_cons.2 ⟨hin, inside_nil _⟩, pos64_of_le hp hin⟩ }

theorem rstr_value {off next : Nat} {s : Bytes} (h : rstr p off = .ok (s, next)) :
    s = strAt p off := by
  obtain ⟨⟨len, off'⟩, hlen, h⟩ := bind_eq_ok.1 h
  have hval := rWord_value hlen
  have hoff := ((follows_rWord hp 8 off).inside hlen).2
  subst hval hoff
  dsimp only at h
  split at h
  · cases h
  · obtain ⟨s', hs, h⟩ := bind_eq_ok.1 h
    cases h
    exact (slice_eq_ok.1 hs).2

theorem follows_readTokens (n : Nat) (tokens : List Bytes) (off : Nat) :
    Follows p.length (readTokens p n (tokens, off)) (strsLayout p n off).1
      (strsLayout p n off).2 := by
  induction n generalizing tokens off with
  | zero => exact Follows.ok _ _ _
  | succ n ih =>
    rw [readTokens, strsLayout]
    exact (follows_rstr hp off).bind fun s _ => ih (tokens ++ [s]) _

theorem follows_readWords {α : Type} {read : Bytes → Nat → Exec (Nat × Nat)} {w : Nat}
    (hread : read = rWord w) (conv : Nat → α) (n : Nat) (words : List α) {off : Nat}
    (hoff : off ≤ p.length) :
    Follows p.length (readWords read conv p n (words, off)) [(off, w * n)] (off + w * n) := by
  subst hread
  induction n generalizing words off with
  | zero =>
    exact (Follows.ok _ words off).congr
      ⟨fun _ => inside_cons.2 ⟨hoff, inside_nil _⟩, fun _ => inside_nil _⟩
  | succ n ih =>
    rw [show off + w * (n + 1) = off + w + w * n by ring]
    have hloop : Follows p.length (readWords (rWord w) conv p (n + 1) (words, off))
        [(off, w), (off + w, w * n)] (off + w + w * n) := by
      refine (follows_rWord hp w off).cons fun v hv => ?_
      exact ih (words ++ [conv v]) (((follows_rWord hp w off).inside hv).1 _ (.head _))
    refine hloop.congr ?_
    simp only [inside_cons, inside_nil, and_true, Nat.mul_succ]
    omega

theorem readWords_value {α : Type} {read : Bytes → Nat → Exec (Nat × Nat)} {w : Nat}
    (hread : read = rWord w) {conv : Nat → α} {n : Nat} {words ws : List α} {off next : Nat}
    (h : readWords read conv p n (words, off) = .ok (ws, next)) :
    ws = words ++ (List.range n).map fun i => conv (leAt w p (off + w * i)) := by
  subst hread
  induction n generalizing words off with
  | zero =>
    cases h
    rw [List.range_zero, List.map_nil, List.append_nil]
  | succ n ih =>
    obtain ⟨⟨v, off'⟩, hv, h⟩ := bind_eq_ok.1 h
    have hval := rWord_value hv
    have hoff := ((follows_rWord hp w off).inside hv).2
    subst hval hoff
    rw [ih h, List.range_succ_eq_map, List.map_cons, List.map_map, List.append_assoc]
    refine congrArg (words ++ ·) (congrArg (_ :: ·) (List.map_congr_left fun i _ => ?_))
    rw [Function.comp_apply, Nat.mul_succ, Nat.add_assoc, Nat.add_comm w]

/-- The loop over an array of strings that is not kept. -/
theorem follows_skipStrings {α : Type} (v : α) (n off : Nat) :
    Follows p.length (skipElems p (some .string) n off >>= fun off => .ok (v, off))
      (strsLayout p n off).1 (strsLayout p n off).2 := by
  induction n generalizing off with
  | zero => exact Follows.ok _ v _
  | succ n ih =>
    rw [skipElems, skipElem, bind_assoc, bind_assoc]
    exact (follows_rstr hp off).bind fun _ _ => ih _

omit hp in
/-- The loop over an array of another type skips it, whatever the file holds. -/
theorem skipElems_eq {elemType : Option GGUFValueType} (h : elemType ≠ some .string) (n off : Nat)
    (hoff : off < 18446744073709551616) :
    skipElems p elemType n off = .ok (pos64 (off + n * skipWidth elemType)) := by
  induction n generalizing off with
  | zero => 
    rw [Nat.zero_mul, Nat.add_zero, pos64, Nat.mod_eq_of_lt hoff]
    rfl
  | succ n ih =>
    have hstep : skipElem p elemType off = .ok (pos64 (off + skipWidth elemType)) := by
      rcases elemType with _ | t
      · rfl
      · cases t with
        | string => exact absurd rfl h
        | _ => rfl
    have hlt : pos64 (off + skipWidth elemType) < 18446744073709551616 :=
      Nat.mod_lt _ (by decide)
    rw [skipElems, hstep, ok_bind, ih _ hlt, pos64, pos64, pos64, Nat.mod_add_mod]
    congr 2
    ring

/-- The elements of an array that starts inside the file. -/
theorem follows_readElems (key : Bytes) (elemType : Option GGUFValueType) (n : Nat)
    (gguf : GGUFFile) {off : Nat} (hoff : off ≤ p.length) :
    Follows p.length (readElems p key elemType n gguf off) (elemsLayout p key elemType n off).1
      (elemsLayout p key elemType n off).2 := by
  have hmax : p.length ≤ 9223372036854775807 := hp
  unfold readElems elemsLayout
  split
  · rename_i htokens
    rw [if_pos htokens.2]
    split
    · rename_i hmany
      rw [vectorCheck, if_neg (Nat.not_le.2 hmany.2), raise_bind]
      exact Follows.fails fun hin => absurd (hin _ (.head _)) (Nat.not_succ_le_self _)
    · rename_i hfew
      have hn : n ≤ vectorMaxSize 32 := Nat.le_of_not_gt fun hgt => hfew ⟨htokens.1, hgt⟩
      rw [vectorCheck, if_pos hn, ok_bind]
      exact Follows.record (follows_readTokens hp n gguf.tokenizerTokens off)
        fun tokens => ⟨_, rfl⟩
  · rename_i htokens
    split
    · rename_i hscores
      rw [if_neg (by rw [hscores.2]; decide), if_pos (.inl hscores)]
      refine Follows.check (Follows.record
        (follows_readWords hp rfl UInt32.ofNat n gguf.tokenizerScores hoff)
        fun scores => ⟨_, rfl⟩) fun hin => ?_
      have hlen : off + 4 * n ≤ p.length := hin _ (.head _)
      exact if_pos (show n ≤ 2305843009213693951 by omega)
    · rename_i hscores
      split
      · rename_i htypes
        rw [if_neg (by rw [htypes.2]; decide), if_pos (.inr htypes)]
        refine Follows.check (Follows.record
          (follows_readWords hp rfl toInt32 n gguf.tokenizerTypes hoff)
          fun types => ⟨_, rfl⟩) fun hin => ?_
        have hlen : off + 4 * n ≤ p.length := hin _ (.head _)
        exact if_pos (show n ≤ 2305843009213693951 by omega)
      · rename_i htypes
        split
        · rename_i hstring
          subst hstring
          rw [if_neg fun h => htokens ⟨h.1, rfl⟩]
          exact follows_skipStrings hp gguf n off
        · rename_i hstring
          rw [if_neg (not_or.2 ⟨hscores, htypes⟩), skipElems_eq hstring n off (by omega), ok_bind]
          exact Follows.ok _ _ _

/-- A value that is one word. -/
theorem follows_readScalar {n off : Nat} (record : Nat → GGUFFile) :
    Follows p.length (readScalar (rWord n p off) record) [(off, n)] (off + n) :=
  (follows_rWord hp n off).record fun v => ⟨record v, rfl⟩

/-- The switch over the value type. -/
theorem follows_readValue (narrow : Nat → F32) (key : Bytes) (valType : Nat) (gguf : GGUFFile)
    (off : Nat) :
    Follows p.length (readValue narrow p key valType gguf off) (valueLayout p key valType off).1
      (valueLayout p key valType off).2 := by
  unfold readValue valueLayout
  cases GGUFValueType.ofCode valType with
  | none => exact Follows.ok _ _ _
  | some t =>
    cases t with
    | string => exact (follows_rstr hp off).record fun v => ⟨_, rfl⟩
    | array =>
      dsimp only
      split
      · exact Follows.ok _ _ _
      · refine (follows_rWord hp 4 off).cons fun elemType htype => ?_
        have htype := rWord_value htype
        subst htype
        refine (follows_rWord hp 8 (off + 4)).bind fun elemCount hcount => ?_
        have hin := ((follows_rWord hp 8 (off + 4)).inside hcount).1 _ (.head _)
        have hcount := rWord_value hcount
        subst hcount
        exact follows_readElems hp key _ _ gguf hin
    | _ => exact follows_readScalar hp _

/-- The loop over the key-value pairs. -/
theorem follows_readKvs (narrow : Nat → F32) (n : Nat) (gguf : GGUFFile) (off : Nat) :
    Follows p.length (readKvs narrow p n (gguf, off)) (kvsLayout p n off).1
      (kvsLayout p n off).2 := by
  induction n generalizing gguf off with
  | zero => exact Follows.ok _ _ _
  | succ n ih =>
    rw [readKvs, kvsLayout]
    split
    · rename_i hend
      refine Follows.record (follows_rstr hp off) fun key => ⟨gguf, ?_⟩
      exact if_pos hend
    · rename_i hend
      dsimp only
      rw [List.append_assoc]
      refine (follows_rstr hp off).bind fun key hkey => ?_
      have hkey := rstr_value hp hkey
      subst hkey
      dsimp only
      rw [if_neg hend]
      refine (follows_rWord hp 4 _).bind fun valType htype => ?_
      have htype := rWord_value htype
      subst htype
      exact (follows_readValue hp narrow _ _ gguf _).bind fun gguf' _ => ih gguf' _

/-- The loop over the tensor infos. -/
theorem follows_readInfos (n : Nat) (tensors : List GGUFTensorInfo) (off : Nat) :
    Follows p.length (readInfos p n (tensors, off)) (infosLayout p n off).1
      (infosLayout p n off).2 := by
  induction n generalizing tensors off with
  | zero => exact Follows.ok _ _ _
  | succ n ih =>
    rw [readInfos, infosLayout]
    dsimp only
    split
    · rename_i hend
      refine Follows.record (follows_rstr hp off) fun name => ⟨tensors, ?_⟩
      exact if_pos hend
    · rename_i hend
      refine (follows_rstr hp off).bind fun name hname => ?_
      dsimp only
      rw [if_neg hend]
      refine (follows_rWord hp 4 _).cons fun nDims hdims => ?_
      have hin := ((follows_rWord hp 4 _).inside hdims).1 _ (.head _)
      have hdims := rWord_value hdims
      subst hdims
      refine (follows_readWords hp rfl id _ [] hin).cons fun dims _ => ?_
      refine (follows_rWord hp 4 _).cons fun type _ => ?_
      exact (follows_rWord hp 8 _).bind fun offset _ => ih _ _

/-- The tensor infos that the loop returns. -/
theorem readInfos_value {n : Nat} {tensors ts : List GGUFTensorInfo} {off next : Nat}
    (h : readInfos p n (tensors, off) = .ok (ts, next)) : ts = tensors ++ infosAt p n off := by
  induction n generalizing tensors off with
  | zero =>
    cases h
    exact (List.append_nil _).symm
  | succ n ih =>
    obtain ⟨⟨name, e⟩, hname, h⟩ := bind_eq_ok.1 h
    have hval := rstr_value hp hname
    have he := ((follows_rstr hp off).inside hname).2
    subst hval he
    dsimp only at h
    rw [infosAt]
    dsimp only
    split at h
    · rename_i hend
      cases h
      rw [if_pos hend, List.append_nil]
    · rename_i hend
      rw [if_neg hend]
      obtain ⟨⟨nDims, e⟩, hdims, h⟩ := bind_eq_ok.1 h
      have hval := rWord_value hdims
      obtain ⟨hin, he⟩ := (follows_rWord hp 4 _).inside hdims
      subst hval he
      obtain ⟨⟨dims, e⟩, hds, h⟩ := bind_eq_ok.1 h
      have hval := readWords_value hp rfl hds
      have he := ((follows_readWords hp rfl id _ [] (hin _ (.head _))).inside hds).2
      subst hval he
      obtain ⟨⟨type, e⟩, htype, h⟩ := bind_eq_ok.1 h
      have hval := rWord_value htype
      have he := ((follows_rWord hp 4 _).inside htype).2
      subst hval he
      obtain ⟨⟨offset, e⟩, hoffset, h⟩ := bind_eq_ok.1 h
      have hval := rWord_value hoffset
      have he := ((follows_rWord hp 8 _).inside hoffset).2
      subst hval he
      rw [ih h, List.append_assoc]
      rfl

end

/-! ## The file -/

/-- The metadata loop leaves the tensors and the bytes alone. -/
def SameFile (gguf gguf' : GGUFFile) : Prop :=
  gguf'.tensors = gguf.tensors ∧ gguf'.fileData = gguf.fileData

theorem sameFile_setInt32 (gguf : GGUFFile) (key : Bytes) (v : Int) :
    SameFile gguf (gguf.setInt32 key v) := by
  unfold GGUFFile.setInt32
  dsimp only
  split <;> split <;> exact ⟨rfl, rfl⟩

theorem sameFile_setStr (gguf : GGUFFile) (key v : Bytes) : SameFile gguf (gguf.setStr key v) := by
  unfold GGUFFile.setStr
  split <;> exact ⟨rfl, rfl⟩

theorem sameFile_readScalar {word : Exec (Nat × Nat)} {record : Nat → GGUFFile}
    {gguf gguf' : GGUFFile} {next : Nat} (h : readScalar word record = .ok (gguf', next))
    (hrecord : ∀ v, SameFile gguf (record v)) : SameFile gguf gguf' := by
  obtain ⟨⟨v, off⟩, -, h⟩ := bind_eq_ok.1 h
  cases h
  exact hrecord v

/-- The elements of an array go to the tokenizer, or nowhere. -/
theorem readElems_value {p key : Bytes} {elemType : Option GGUFValueType} {n off next : Nat}
    {gguf gguf' : GGUFFile} (h : readElems p key elemType n gguf off = .ok (gguf', next)) :
    ∃ tokens scores types, gguf' = { gguf with
      tokenizerTokens := tokens, tokenizerScores := scores, tokenizerTypes := types } := by
  unfold readElems at h
  split at h
  · obtain ⟨_, -, h⟩ := bind_eq_ok.1 h
    obtain ⟨_, -, h⟩ := bind_eq_ok.1 h
    cases h
    exact ⟨_, _, _, rfl⟩
  · split at h
    · obtain ⟨_, -, h⟩ := bind_eq_ok.1 h
      obtain ⟨_, -, h⟩ := bind_eq_ok.1 h
      cases h
      exact ⟨_, _, _, rfl⟩
    · split at h
      · obtain ⟨_, -, h⟩ := bind_eq_ok.1 h
        obtain ⟨_, -, h⟩ := bind_eq_ok.1 h
        cases h
        exact ⟨_, _, _, rfl⟩
      · obtain ⟨_, -, h⟩ := bind_eq_ok.1 h
        cases h
        exact ⟨_, _, _, rfl⟩

theorem sameFile_readValue {narrow : Nat → F32} {p key : Bytes} {valType off next : Nat}
    {gguf gguf' : GGUFFile} (h : readValue narrow p key valType gguf off = .ok (gguf', next)) :
    SameFile gguf gguf' := by
  unfold readValue at h
  cases hcode : GGUFValueType.ofCode valType with
  | none =>
    rw [hcode] at h
    cases h
    exact ⟨rfl, rfl⟩
  | some t =>
    rw [hcode] at h
    cases t with
    | string =>
      obtain ⟨_, -, h⟩ := bind_eq_ok.1 h
      cases h
      exact sameFile_setStr _ _ _
    | array =>
      dsimp only at h
      split at h
      · cases h
        exact ⟨rfl, rfl⟩
      · obtain ⟨_, -, h⟩ := bind_eq_ok.1 h
        obtain ⟨_, -, h⟩ := bind_eq_ok.1 h
        obtain ⟨_, _, _, rfl⟩ := readElems_value h
        exact ⟨rfl, rfl⟩
    | int32 => exact sameFile_readScalar h fun v => sameFile_setInt32 _ _ _
    | _ => exact sameFile_readScalar h fun v => ⟨rfl, rfl⟩

theorem sameFile_readKvs {narrow : Nat → F32} {p : Bytes} {n off next : Nat}
    {gguf gguf' : GGUFFile} (h : readKvs narrow p n (gguf, off) = .ok (gguf', next)) :
    SameFile gguf gguf' := by
  induction n generalizing gguf off with
  | zero =>
    cases h
    exact ⟨rfl, rfl⟩
  | succ n ih =>
    obtain ⟨_, -, h⟩ := bind_eq_ok.1 h
    dsimp only at h
    split at h
    · cases h
      exact ⟨rfl, rfl⟩
    · obtain ⟨_, -, h⟩ := bind_eq_ok.1 h
      obtain ⟨⟨gguf₁, _⟩, hvalue, h⟩ := bind_eq_ok.1 h
      have hfirst := sameFile_readValue hvalue
      have hrest := ih h
      exact ⟨hrest.1.trans hfirst.1, hrest.2.trans hfirst.2⟩

/-- A file that holds the fields it lays out is parsed. -/
theorem parseGguf_returns (narrow : Nat → F32) {file : Bytes} (hp : file.length ≤ vectorMaxSize 1)
    (h : Inside file.length (fileLayout file)) : ∃ gguf, parseGguf narrow file = .ok gguf := by
  have hword : ∀ {n off}, off + n ≤ file.length →
      rWord n file off = .ok (leAt n file off, off + n) := by
    intro n off hin
    obtain ⟨v, hv⟩ := (follows_rWord hp n off).returns (inside_cons.2 ⟨hin, inside_nil _⟩)
    rw [hv, rWord_value hv]
  unfold parseGguf
  rw [vectorCheck, if_pos hp, ok_bind]
  unfold fileLayout at h
  have hmagic : r32 file 0 = .ok (leAt 4 file 0, 4) := hword (h (0, 4) (by split_ifs <;> simp))
  rw [hmagic, ok_bind]
  dsimp only
  split at h
  · rename_i hbad
    rw [if_pos hbad]
    exact ⟨_, rfl⟩
  · rename_i hgood
    have hversion : r32 file 4 = .ok (leAt 4 file 4, 8) :=
      hword (h (4, 4) (by split_ifs <;> simp))
    rw [if_neg hgood, hversion, ok_bind]
    dsimp only
    split at h
    · rename_i hnew
      rw [if_pos hnew]
      exact ⟨_, rfl⟩
    · rename_i hold
      obtain ⟨hhead, hinfos⟩ := inside_append.1 h
      obtain ⟨hhead, hkvs⟩ := inside_append.1 hhead
      have hcount : r64 file 8 = .ok (leAt 8 file 8, 16) := hword (hhead (8, 8) (by simp))
      have hkvCount : r64 file 16 = .ok (leAt 8 file 16, 24) := hword (hhead (16, 8) (by simp))
      obtain ⟨gguf, hgguf⟩ := (follows_readKvs hp narrow (leAt 8 file 16)
        { fileData := file } 24).returns hkvs
      obtain ⟨tensors, htensors⟩ := (follows_readInfos hp (leAt 8 file 8) gguf.tensors
        (kvsLayout file (leAt 8 file 16) 24).2).returns hinfos
      rw [if_neg hold, hcount, ok_bind]
      dsimp only
      rw [hkvCount, ok_bind]
      dsimp only
      rw [hgguf, ok_bind]
      dsimp only
      rw [htensors, ok_bind]
      exact ⟨_, rfl⟩

/-- A file that is parsed holds the fields it lays out, and the parser returns the tensor table of
these fields. -/
theorem parseGguf_inv {narrow : Nat → F32} {file : Bytes} {gguf : GGUFFile}
    (h : parseGguf narrow file = .ok gguf) :
    file.length ≤ vectorMaxSize 1 ∧ Inside file.length (fileLayout file) ∧
      gguf.tensors = fileTable file ∧ gguf.fileData = file := by
  unfold parseGguf at h
  obtain ⟨_, hcheck, h⟩ := bind_eq_ok.1 h
  have hp : file.length ≤ vectorMaxSize 1 := by
    unfold vectorCheck at hcheck
    split at hcheck
    · assumption
    · cases hcheck
  refine ⟨hp, ?_⟩
  obtain ⟨⟨magic, off⟩, hmagic, h⟩ := bind_eq_ok.1 h
  obtain ⟨hin₀, hoff⟩ := (follows_rWord hp 4 0).inside hmagic
  have hval := rWord_value hmagic
  subst hval hoff
  unfold fileLayout fileTable
  dsimp only at h
  split at h
  · rename_i hbad
    cases h
    rw [if_pos hbad, if_neg fun hknown => hbad hknown.1]
    exact ⟨hin₀, rfl, rfl⟩
  · rename_i hgood
    rw [if_neg hgood]
    rw [not_not] at hgood
    obtain ⟨⟨version, off⟩, hversion, h⟩ := bind_eq_ok.1 h
    obtain ⟨hin₁, hoff⟩ := (follows_rWord hp 4 4).inside hversion
    have hval := rWord_value hversion
    subst hval hoff
    dsimp only at h
    split at h
    · rename_i hnew
      cases h
      rw [if_pos hnew, if_neg fun hknown => absurd hknown.2 (Nat.not_le.2 hnew)]
      exact ⟨inside_append.2 ⟨hin₀, hin₁⟩, rfl, rfl⟩
    · rename_i hold
      rw [if_neg hold, if_pos ⟨hgood, Nat.le_of_not_gt hold⟩]
      obtain ⟨⟨tensorCount, off⟩, hcount, h⟩ := bind_eq_ok.1 h
      obtain ⟨hin₂, hoff⟩ := (follows_rWord hp 8 8).inside hcount
      have hval := rWord_value hcount
      subst hval hoff
      obtain ⟨⟨kvCount, off⟩, hkvCount, h⟩ := bind_eq_ok.1 h
      obtain ⟨hin₃, hoff⟩ := (follows_rWord hp 8 16).inside hkvCount
      have hval := rWord_value hkvCount
      subst hval hoff
      obtain ⟨⟨gguf₁, off⟩, hkvs, h⟩ := bind_eq_ok.1 h
      obtain ⟨hin₄, hoff⟩ := (follows_readKvs hp narrow _ _ 24).inside hkvs
      have hsame := sameFile_readKvs hkvs
      subst hoff
      obtain ⟨⟨tensors, off⟩, hinfos, h⟩ := bind_eq_ok.1 h
      obtain ⟨hin₅, -⟩ := (follows_readInfos hp _ _ _).inside hinfos
      have htensors := readInfos_value hp hinfos
      cases h
      refine ⟨?_, ?_, hsame.2⟩
      · simp only [inside_append, inside_cons] at *
        tauto
      · rw [htensors, hsame.1]
        rfl

/-- The parser returns exactly on a file that holds the fields it lays out. -/
theorem parseGguf_ok_iff (narrow : Nat → F32) (file : Bytes) :
    (∃ gguf, parseGguf narrow file = .ok gguf) ↔
      file.length ≤ vectorMaxSize 1 ∧ Inside file.length (fileLayout file) := by
  constructor
  · rintro ⟨gguf, h⟩
    exact ⟨(parseGguf_inv h).1, (parseGguf_inv h).2.1⟩
  · rintro ⟨hp, h⟩
    exact parseGguf_returns narrow hp h

end Terllama
