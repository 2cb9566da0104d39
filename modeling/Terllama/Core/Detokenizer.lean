import Mathlib.Data.List.DropRight
import Mathlib.Data.List.TakeWhile
import Terllama.Base.Exec
import Terllama.Core.Tokenizer

/-!
# The text of token ids

`Tokenizer::decode` of `src/core/tokenizer.cpp`, the fallback of `src/server/handlers.cpp` and
`distributed/coordinator.cpp` on the GigaToken library, and the text of an answer that is not
streamed: the text of prompt and output, cut at the length of the text of the prompt.
`generated_text_iff` says for which prompts and outputs the cut is the text of the output.
-/

namespace Terllama

/-! ## Leading runs -/

section
variable {α : Type} (p : α → Bool)

/-- A list in front leaves no trace where all of it is dropped. -/
theorem dropWhile_append_iff (xs ys : List α) :
    (xs ++ ys).dropWhile p = ys.dropWhile p ↔ ∀ x ∈ xs, p x := by
  refine ⟨fun h => ?_, fun h => List.dropWhile_append_of_pos h⟩
  rw [List.dropWhile_append] at h
  split at h
  · rename_i hnil
    exact List.dropWhile_eq_nil_iff.1 (List.isEmpty_iff.1 hnil)
  · rename_i hne
    -- What is left of the list in front makes the left side longer than `ys`.
    have hpos : 0 < (xs.dropWhile p).length :=
      List.length_pos_iff.2 fun hnil => hne (List.isEmpty_iff.2 hnil)
    have hle := (List.dropWhile_sublist p (l := ys)).length_le
    have hlen := congrArg List.length h
    rw [List.length_append] at hlen
    omega

/-- Where a cut of two lists leaves the second one, up to what is dropped. -/
theorem dropWhile_drop_append_iff (xs ys : List α) (n : Nat) :
    ((xs ++ ys).drop n).dropWhile p = ys.dropWhile p ↔
      (∀ x ∈ xs.drop n, p x) ∧ ∀ y ∈ ys.take (n - xs.length), p y := by
  rw [List.drop_append]
  rcases Nat.le_total n xs.length with hle | hge
  · rw [Nat.sub_eq_zero_of_le hle, List.drop_zero, List.take_zero, dropWhile_append_iff]
    exact (and_iff_left nofun).symm
  · rw [List.drop_of_length_le hge, List.nil_append]
    have hsplit : ys.dropWhile p =
        (ys.take (n - xs.length) ++ ys.drop (n - xs.length)).dropWhile p := by
      rw [List.take_append_drop]
    rw [hsplit, eq_comm, dropWhile_append_iff]
    exact (and_iff_right nofun).symm

end

/-! ## `Tokenizer::decode` -/

/-- `hex_val`. -/
def hexVal (c : UInt8) : Option UInt8 :=
  if 0x30 ≤ c ∧ c ≤ 0x39 then some (c - 0x30)
  else if 0x41 ≤ c ∧ c ≤ 0x46 then some (c - 0x41 + 10)
  else if 0x61 ≤ c ∧ c ≤ 0x66 then some (c - 0x61 + 10)
  else none

/-- `is_byte_fallback`: the byte of a token such as `<0x0A>`. -/
def byteFallback : Bytes → Option UInt8
  | [lt, zero, x, hi, lo, gt] =>
    if lt ≠ 0x3C ∨ zero ≠ 0x30 ∨ x ≠ 0x78 then none
    else if gt ≠ 0x3E then none
    else do
      let hi ← hexVal hi
      let lo ← hexVal lo
      return hi <<< 4 ||| lo
  | _ => none

/-- The bytes of a token with a space for each `▁`. -/
def expandMarks : Bytes → Bytes
  | [] => []
  | a :: b :: c :: rest =>
    if a = 0xE2 ∧ b = 0x96 ∧ c = 0x81 then 0x20 :: expandMarks rest
    else a :: expandMarks (b :: c :: rest)
  | a :: rest => a :: expandMarks rest

/-- The tokens without a text: out of range, a control token, BOS or EOS. -/
def Tokenizer.skips (t : Tokenizer) (id : Int) : Bool :=
  id < 0 || id ≥ toInt32 t.vocab.length ||
    (id < toInt32 t.types.length && t.types.getD id.toNat 0 == 3) || id == t.bosId || id == t.eosId

/-- What a token adds to `result`. -/
def Tokenizer.piece (t : Tokenizer) (id : Int) : Bytes :=
  if t.skips id then []
  else
    let token := t.vocab.getD id.toNat []
    if t.modelType = str "llama" then
      match byteFallback token with
      | some byteVal => [byteVal]
      | none => expandMarks token
    else token

/-- `result` after the loop over the tokens. -/
def Tokenizer.text (t : Tokenizer) (ids : List Int) : Bytes := ids.flatMap t.piece

/-- The space that SentencePiece adds is taken away. -/
def Tokenizer.stripLeading (t : Tokenizer) (result : Bytes) : Bytes :=
  if t.modelType = str "llama" ∧ result.head? = some 0x20 then result.tail else result

/-- `Tokenizer::decode`. -/
def Tokenizer.decode (t : Tokenizer) (ids : List Int) : Bytes :=
  if !t.valid || t.vocab.isEmpty then str "?"
  else if t.modelType = str "gpt2" then str "?"
  else t.stripLeading (t.text ids)

/-! ## The fallback -/

/-- What `decode_with_fallback` returns of the native tokenizer. -/
def Usable (native : Bytes) : Prop := native ≠ [] ∧ native ≠ str "?"

instance (native : Bytes) : Decidable (Usable native) := inferInstanceAs (Decidable (_ ∧ _))

/-- The text of the GigaToken library, which is empty on an error; there is no library without a
`tokenizer.json`. -/
def gigaText (giga : Option (List UInt32 → Bytes)) (ids : List Int) : Bytes :=
  match giga with
  | some decode => decode (ids.map UInt32.ofInt)
  | none => []

/-- `decode_with_fallback`. -/
def decodeWithFallback (t : Tokenizer) (giga : Option (List UInt32 → Bytes)) (ids : List Int) :
    Bytes :=
  let native := t.decode ids
  if Usable native then native else gigaText giga ids

/-- `Coordinator::decode`. -/
def Coordinator.decode (t : Tokenizer) (giga : Option (List UInt32 → Bytes)) (ids : List Int) :
    Bytes :=
  let native := t.decode ids
  if Usable native then native else gigaText giga ids

/-! ## The text of an answer -/

/-- A text without its leading spaces. -/
def dropSpaces (text : Bytes) : Bytes := text.dropWhile (· == 0x20)

/-- A text of spaces. -/
def AllSpaces (text : Bytes) : Prop := ∀ c ∈ text, (c == 0x20) = true

/-- `generated_text`, from the decoder of the server or of the coordinator. -/
def generatedText (decode : List Int → Bytes) (prompt out : List Int) : Bytes :=
  let decoded := decode (prompt ++ out)
  let promptDecoded := decode prompt
  if decoded.length > promptDecoded.length then dropSpaces (decoded.drop promptDecoded.length)
  else decoded

/-- Where a text is cut for a prompt of that many bytes. -/
def cutAt (promptLength : Nat) (decoded : Bytes) : Nat :=
  if decoded.length > promptLength then promptLength else 0

/-- The prompts and outputs whose text is cut where the output starts. The native text of the prompt
is usable, and the output adds to it, unless the prompt is only spaces; or it is not usable but the
text of both is, and only spaces stand between the cut, at the length of GigaToken's prompt, and the
end of the native prompt; or both texts are GigaToken's, and the cut leaves the output. -/
def Tokenizer.CutFits (t : Tokenizer) (giga : Option (List UInt32 → Bytes))
    (prompt out : List Int) : Prop :=
  if Usable (t.decode prompt) then t.text out ≠ [] ∨ AllSpaces (t.decode prompt)
  else if Usable (t.decode (prompt ++ out)) then
    let cut := cutAt (gigaText giga prompt).length (t.decode (prompt ++ out))
    AllSpaces ((t.decode prompt).drop cut) ∧
      AllSpaces (((t.decode (prompt ++ out)).drop (t.decode prompt).length).take
        (cut - (t.decode prompt).length))
  else
    let both := gigaText giga (prompt ++ out)
    dropSpaces (both.drop (cutAt (gigaText giga prompt).length both)) = dropSpaces (t.decode out)

/-! ## Decoding two lists -/

theorem dropSpaces_cons_space (text : Bytes) : dropSpaces (0x20 :: text) = dropSpaces text := rfl

section
variable (t : Tokenizer)

theorem Tokenizer.text_append (xs ys : List Int) : t.text (xs ++ ys) = t.text xs ++ t.text ys :=
  List.flatMap_append

@[simp] theorem Tokenizer.dropSpaces_stripLeading (result : Bytes) :
    dropSpaces (t.stripLeading result) = dropSpaces result := by
  unfold Tokenizer.stripLeading
  split
  · rename_i h
    cases result with
    | nil => rfl
    | cons c rest =>
      obtain rfl : c = 0x20 := Option.some.inj h.2
      exact (dropSpaces_cons_space rest).symm
  · rfl

theorem Tokenizer.stripLeading_append {first : Bytes} (h : first ≠ []) (second : Bytes) :
    t.stripLeading (first ++ second) = t.stripLeading first ++ second := by
  cases first with
  | nil => exact absurd rfl h
  | cons c rest =>
    unfold Tokenizer.stripLeading
    rw [List.cons_append, List.head?_cons, List.head?_cons, List.tail_cons, List.tail_cons]
    split
    · rfl
    · rfl

/-- The tokenizers with a native decoder. -/
def Tokenizer.Decodes (t : Tokenizer) : Prop :=
  t.valid = true ∧ t.vocab ≠ [] ∧ t.modelType ≠ str "gpt2"

variable {t}

theorem Tokenizer.decode_eq (h : t.Decodes) (ids : List Int) :
    t.decode ids = t.stripLeading (t.text ids) := by
  have hvocab : t.vocab.isEmpty = false := List.isEmpty_eq_false_iff.2 h.2.1
  rw [Tokenizer.decode, h.1, hvocab, if_neg (by simp), if_neg h.2.2]

theorem Tokenizer.decode_eq_question (h : ¬ t.Decodes) (ids : List Int) :
    t.decode ids = str "?" := by
  unfold Tokenizer.decode
  split
  · rfl
  · rename_i hready
    simp only [Bool.or_eq_true, Bool.not_eq_true', List.isEmpty_iff, not_or,
      Bool.not_eq_false] at hready
    split
    · rfl
    · rename_i hmodel
      exact absurd ⟨hready.1, hready.2, hmodel⟩ h

/-- A usable text comes from the native decoder. -/
theorem Tokenizer.decodes_of_usable {ids : List Int} (h : Usable (t.decode ids)) : t.Decodes := by
  by_contra hnot
  exact h.2 (decode_eq_question hnot ids)

/-- The text of two lists is that of the first one and, up to its leading spaces, that of the second
one. -/
theorem Tokenizer.decode_append (h : t.Decodes) (xs ys : List Int) :
    ∃ rest, t.decode (xs ++ ys) = t.decode xs ++ rest ∧
      dropSpaces rest = dropSpaces (t.decode ys) ∧ (t.decode xs ≠ [] → rest = t.text ys) := by
  simp only [decode_eq h, text_append]
  rcases eq_or_ne (t.text xs) [] with hnil | hne
  · have hstrip : t.stripLeading [] = [] := by
      rw [stripLeading, if_neg fun h => nomatch h.2]
    refine ⟨t.stripLeading (t.text ys), ?_, rfl, fun hne => ?_⟩
    · rw [hnil, hstrip, List.nil_append, List.nil_append]
    · rw [hnil] at hne
      exact absurd hstrip hne
  · exact ⟨t.text ys, stripLeading_append t hne _, (dropSpaces_stripLeading t _).symm, fun _ => rfl⟩

/-- A usable text stays so with a text behind it. -/
theorem Usable.append {text : Bytes} (h : Usable text) (rest : Bytes) : Usable (text ++ rest) := by
  refine ⟨fun hnil => h.1 (List.append_eq_nil_iff.1 hnil).1, fun hquestion => ?_⟩
  rcases List.append_eq_singleton_iff.1 hquestion with ⟨hnil, -⟩ | ⟨htext, -⟩
  · exact h.1 hnil
  · exact h.2 htext

/-! ## The text of an answer and its cut -/

theorem dropSpaces_generatedText (decode : List Int → Bytes) (prompt out : List Int) :
    dropSpaces (generatedText decode prompt out) =
      dropSpaces ((decode (prompt ++ out)).drop
        (cutAt (decode prompt).length (decode (prompt ++ out)))) := by
  unfold generatedText cutAt
  dsimp only
  split
  · exact List.dropWhile_idempotent _ _
  · rw [List.drop_zero]

/-- The cut behind a usable prompt. -/
theorem cut_usable {text rest : Bytes} :
    dropSpaces ((text ++ rest).drop (cutAt text.length (text ++ rest))) = dropSpaces rest ↔
      rest ≠ [] ∨ AllSpaces text := by
  unfold cutAt
  cases rest with
  | nil =>
    rw [List.append_nil, if_neg (lt_irrefl _), List.drop_zero, or_iff_right (fun h => h rfl)]
    exact List.dropWhile_eq_nil_iff
  | cons c rest =>
    have hlonger : (text ++ c :: rest).length > text.length := by
      rw [List.length_append, List.length_cons]
      omega
    rw [if_pos hlonger, List.drop_left]
    exact iff_of_true rfl (Or.inl (List.cons_ne_nil c rest))

variable (giga : Option (List UInt32 → Bytes))

theorem decodeWithFallback_of_usable {ids : List Int} (h : Usable (t.decode ids)) :
    decodeWithFallback t giga ids = t.decode ids := if_pos h

theorem decodeWithFallback_of_not_usable {ids : List Int} (h : ¬ Usable (t.decode ids)) :
    decodeWithFallback t giga ids = gigaText giga ids := if_neg h

theorem generatedText_fits_iff (prompt out : List Int) :
    dropSpaces (generatedText (decodeWithFallback t giga) prompt out) = dropSpaces (t.decode out) ↔
      t.CutFits giga prompt out := by
  rw [dropSpaces_generatedText, Tokenizer.CutFits]
  by_cases hprompt : Usable (t.decode prompt)
  · obtain ⟨rest, hboth, hout, hrest⟩ :=
      Tokenizer.decode_append (Tokenizer.decodes_of_usable hprompt) prompt out
    have husable : Usable (t.decode (prompt ++ out)) := hboth ▸ hprompt.append rest
    rw [if_pos hprompt, decodeWithFallback_of_usable giga hprompt,
      decodeWithFallback_of_usable giga husable, hboth, ← hout, cut_usable, hrest hprompt.1]
  · rw [if_neg hprompt, decodeWithFallback_of_not_usable giga hprompt]
    by_cases husable : Usable (t.decode (prompt ++ out))
    · obtain ⟨rest, hboth, hout, -⟩ :=
        Tokenizer.decode_append (Tokenizer.decodes_of_usable husable) prompt out
      rw [if_pos husable, decodeWithFallback_of_usable giga husable, hboth, ← hout,
        List.drop_left]
      exact dropWhile_drop_append_iff _ _ _ _
    · rw [if_neg husable, decodeWithFallback_of_not_usable giga husable]

end

/-- The text of an answer, on the server and on the coordinator, is that of the output, up to leading
spaces, exactly where the cut fits. -/
theorem generated_text_iff (t : Tokenizer) (giga : Option (List UInt32 → Bytes))
    (prompt out : List Int) :
    (dropSpaces (generatedText (decodeWithFallback t giga) prompt out) = dropSpaces (t.decode out) ↔
      t.CutFits giga prompt out) ∧
    (dropSpaces (generatedText (Coordinator.decode t giga) prompt out) = dropSpaces (t.decode out) ↔
      t.CutFits giga prompt out) :=
  ⟨generatedText_fits_iff giga prompt out, generatedText_fits_iff giga prompt out⟩

/-- A tokenizer with a word, and EOS behind it. -/
def wordAndEos : Tokenizer where
  vocab := [str "hi", str "</s>"]
  modelType := str "llama"
  eosId := 1
  valid := true

/-- The library on the same vocabulary. -/
def wordGiga (ids : List UInt32) : Bytes := (ids.filter (· == 0)).flatMap fun _ => str "hi"

/-- Where the output is EOS alone, the answer is the prompt. -/
theorem generated_text_prompt :
    generatedText (decodeWithFallback wordAndEos (some wordGiga)) [0] [1] = str "hi" ∧
      wordAndEos.decode [1] = [] ∧
      ¬ ∀ (t : Tokenizer) (giga : Option (List UInt32 → Bytes)) (prompt out : List Int),
        t.valid = true → t.modelType = str "llama" → prompt ≠ [] →
          dropSpaces (generatedText (decodeWithFallback t giga) prompt out) =
            dropSpaces (t.decode out) := by
  refine ⟨by decide, by decide, fun h => ?_⟩
  have hword := h wordAndEos (some wordGiga) [0] [1] rfl rfl (List.cons_ne_nil 0 [])
  revert hword
  decide

end Terllama
