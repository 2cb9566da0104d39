import Terllama.Core.Detokenizer
import Terllama.Core.GigaToken
import Terllama.Server.Streaming

/-!
# The text of a stream

A stream decodes its tokens in batches (`batches` of `Server/Streaming.lean`). `Tokenizer::decode`
takes a leading space away from each of them, a batch without a text goes to the GigaToken library,
and the characters of byte tokens are cut where a batch ends. `stream_homomorphic_iff` says for
which tokens the emitted texts are nevertheless the text of all tokens.
-/

namespace Terllama

/-! ## Pieces of a list -/

/-- Lists that are no longer than their counterparts make the same list only piece by piece. -/
theorem flatten_eq_iff_of_length_le {α : Type} {xs ys : List (List α)}
    (h : List.Forall₂ (fun x y => x.length ≤ y.length) xs ys) :
    xs.flatten = ys.flatten ↔ xs = ys := by
  refine ⟨fun heq => ?_, fun heq => by rw [heq]⟩
  have hle : ∀ {us vs : List (List α)}, List.Forall₂ (fun x y => x.length ≤ y.length) us vs →
      us.flatten.length ≤ vs.flatten.length := by
    intro us vs huv
    induction huv with
    | nil => exact le_rfl
    | cons hhead _ ih =>
      rw [List.flatten_cons, List.flatten_cons, List.length_append, List.length_append]
      exact Nat.add_le_add hhead ih
  induction h with
  | nil => rfl
  | cons hhead htail ih =>
    rw [List.flatten_cons, List.flatten_cons] at heq
    have hlen := congrArg List.length heq
    rw [List.length_append, List.length_append] at hlen
    have htails := hle htail
    obtain ⟨hx, hxs⟩ := List.append_inj heq (by omega)
    rw [hx, ih hxs]

/-! ## The streams of the routes -/

/-- The streaming branches: those of the handlers, and those of the coordinator. -/
inductive StreamRoute where
  | handler
  | coordinator (eosTokenId : Int)

/-- The tokens at which a branch flushes. -/
def StreamRoute.isEos : StreamRoute → Int → Bool
  | .handler => fun tok => tok = 0
  | .coordinator eosTokenId => fun tok => tok = eosTokenId

/-- The decoder of a branch. -/
def StreamRoute.decode : StreamRoute → Tokenizer → Option (List UInt32 → Bytes) → List Int → Bytes
  | .handler => decodeWithFallback
  | .coordinator _ => Coordinator.decode

/-- The text fields that a branch emits. -/
def StreamRoute.emitted (r : StreamRoute) (decode : List Int → Bytes) (toks : List Int) :
    List Bytes :=
  match r with
  | .handler => (handleStream decode (fun ts text => .ok (ts ++ [text])) toks []).2.sink
  | .coordinator eosTokenId =>
    (coordinatorStream decode (fun ts text => .ok (ts ++ [text])) eosTokenId toks []).2.sink

/-- The emitted texts make up the text of all tokens, and all of them can be escaped where that text
is UTF-8. -/
def Homomorphic (decode : List Int → Bytes) (toks : List Int) (emitted : List Bytes) : Prop :=
  emitted.flatten = decode toks ∧
    (ValidUtf8 (decode toks) → ∀ text ∈ emitted, ∃ out, dumpEscaped text = .ok out)

/-- The batches of a branch. -/
def StreamRoute.batches (r : StreamRoute) (toks : List Int) : List (List Int) :=
  Terllama.batches r.isEos [] toks

theorem foldlM_collect (ts acc : List Bytes) :
    ts.foldlM (fun ts text => (.ok (ts ++ [text]) : Exec (List Bytes))) acc = .ok (acc ++ ts) := by
  induction ts generalizing acc with
  | nil => rw [List.append_nil]; rfl
  | cons t ts ih =>
    rw [List.foldlM_cons, ok_bind, ih, List.append_assoc, List.singleton_append]

theorem StreamRoute.emitted_eq (r : StreamRoute) (decode : List Int → Bytes) (toks : List Int) :
    r.emitted decode toks = texts decode (r.batches toks) := by
  cases r with
  | handler =>
    obtain ⟨s, hrun⟩ : ∃ s, handleStream decode
        (fun ts text => (.ok (ts ++ [text]) : Exec (List Bytes))) toks [] = _ :=
      handleStream_eq toks []
    rw [emitted, hrun, foldlM_collect]
    rfl
  | coordinator eosTokenId =>
    obtain ⟨s, hrun⟩ : ∃ s, coordinatorStream decode
        (fun ts text => (.ok (ts ++ [text]) : Exec (List Bytes))) eosTokenId toks [] = _ :=
      coordinatorStream_eq eosTokenId toks []
    rw [emitted, hrun, foldlM_collect]
    rfl

section
variable {isEos : Int → Bool}

theorem flatten_batches (buf toks : List Int) : (batches isEos buf toks).flatten = buf ++ toks := by
  induction toks generalizing buf with
  | nil =>
    rw [batches, List.append_nil]
    split
    · rename_i hnil
      rw [hnil]
      rfl
    · rw [List.flatten_cons, List.flatten_nil, List.append_nil]
  | cons tok toks ih =>
    rw [batches]
    split
    · rw [List.flatten_cons, ih, List.nil_append, List.append_assoc, List.singleton_append]
    · rw [ih, List.append_assoc, List.singleton_append]

theorem batches_ne_nil (buf toks : List Int) : ∀ b ∈ batches isEos buf toks, b ≠ [] := by
  induction toks generalizing buf with
  | nil =>
    rw [batches]
    split
    · simp
    · simpa
  | cons tok toks ih =>
    rw [batches]
    split
    · intro b hb
      rcases List.mem_cons.1 hb with rfl | hb
      · simp
      · exact ih [] b hb
    · exact ih _

end

theorem flatten_texts (decode : List Int → Bytes) (bs : List (List Int)) :
    (texts decode bs).flatten = (bs.map decode).flatten := by
  induction bs with
  | nil => rfl
  | cons b bs ih =>
    rcases eq_or_ne (decode b) [] with hnil | hne
    · rw [texts_cons_nil hnil, ih, List.map_cons, List.flatten_cons, hnil, List.nil_append]
    · rw [texts_cons hne, List.flatten_cons, ih, List.map_cons, List.flatten_cons]

theorem validUtf8_nil : ValidUtf8 [] := .nil

/-- All emitted texts can be escaped exactly where the texts of all batches are UTF-8. -/
theorem forall_texts_escape (decode : List Int → Bytes) (bs : List (List Int)) :
    (∀ text ∈ texts decode bs, ∃ out, dumpEscaped text = .ok out) ↔
      ∀ b ∈ bs, ValidUtf8 (decode b) := by
  simp only [dumpEscaped_isOk_iff, texts, List.mem_filter, List.mem_map, decide_eq_true_eq]
  constructor
  · intro h b hb
    rcases eq_or_ne (decode b) [] with hnil | hne
    · rw [hnil]
      exact validUtf8_nil
    · exact h _ ⟨⟨b, hb, rfl⟩, hne⟩
  · rintro h text ⟨⟨b, hb, rfl⟩, -⟩
    exact h b hb

/-! ## Tokenizers with native texts -/

/-- A SentencePiece tokenizer with a vocabulary. -/
structure LlamaTokenizer extends Tokenizer where
  valid_eq : valid = true
  vocab_ne : vocab ≠ []
  modelType_eq : modelType = str "llama"

section
variable (t : LlamaTokenizer)

/-- What a batch owes to the text of all tokens, behind the text of the tokens before it. -/
def LlamaTokenizer.due (before text : Bytes) : Bytes :=
  if before = [] then t.stripLeading text else text

/-- What the batches owe. -/
def LlamaTokenizer.dues (before : Bytes) : List (List Int) → List Bytes
  | [] => []
  | b :: bs => t.due before (t.text b) :: dues (before ++ t.text b) bs

/-- What is decoded of a list before a leading space is taken away. -/
def LlamaTokenizer.rawText (giga : Option (List UInt32 → Bytes)) (ids : List Int) : Bytes :=
  if Usable (t.decode ids) then t.text ids else gigaText giga ids

/-- No batch loses a part of the native text: one with a usable text does not begin with a space,
unless it is the first one with a text, and for another one GigaToken returns what it owes. -/
def LlamaTokenizer.PartsKept (giga : Option (List UInt32 → Bytes)) (before : Bytes) :
    List (List Int) → Prop
  | [] => True
  | b :: bs =>
    (if Usable (t.decode b) then before = [] ∨ (t.text b).head? ≠ some 0x20
      else gigaText giga b = t.due before (t.text b)) ∧
        PartsKept giga (before ++ t.text b) bs

/-- GigaToken returns no more than a batch without a usable text owes. -/
def LlamaTokenizer.GigaShort (giga : Option (List UInt32 → Bytes)) (before : Bytes) :
    List (List Int) → Prop
  | [] => True
  | b :: bs =>
    (¬ Usable (t.decode b) →
      (gigaText giga b).length ≤ (t.due before (t.text b)).length) ∧
        GigaShort giga (before ++ t.text b) bs

/-- No text is lost between the batches: where all tokens have a usable native text, no batch loses
its part of it, and elsewhere GigaToken has the same text for the batches as for all tokens. -/
def LlamaTokenizer.TextKept (giga : Option (List UInt32 → Bytes)) (bs : List (List Int)) : Prop :=
  if Usable (t.decode bs.flatten) then t.PartsKept giga [] bs
  else (bs.map (gigaText giga)).flatten = gigaText giga bs.flatten

/-- No character is cut between the batches. -/
def LlamaTokenizer.CharsKept (giga : Option (List UInt32 → Bytes)) (bs : List (List Int)) : Prop :=
  ValidUtf8 (t.rawText giga bs.flatten) → ∀ b ∈ bs, ValidUtf8 (t.rawText giga b)

/-- Every batch but a single one has a usable native text, none but the first one begins with a
space, and no character is cut between them. -/
def LlamaTokenizer.NativeKept (bs : List (List Int)) : Prop :=
  bs.length ≤ 1 ∨
    (∀ b ∈ bs, Usable (t.decode b)) ∧ (∀ b ∈ bs.tail, (t.text b).head? ≠ some 0x20) ∧
      (ValidUtf8 (t.text bs.flatten) → ∀ b ∈ bs, ValidUtf8 (t.text b))

variable {t}

theorem LlamaTokenizer.decodes : t.toTokenizer.Decodes := by
  refine ⟨t.valid_eq, t.vocab_ne, ?_⟩
  rw [t.modelType_eq]
  decide

theorem LlamaTokenizer.stripLeading_cons (c : UInt8) (text : Bytes) :
    t.stripLeading (c :: text) = if c = 0x20 then text else c :: text := by
  rw [Tokenizer.stripLeading, List.head?_cons, List.tail_cons]
  simp [t.modelType_eq]

theorem LlamaTokenizer.stripLeading_nil : t.stripLeading [] = [] := by
  rw [Tokenizer.stripLeading, if_neg (by simp)]

theorem LlamaTokenizer.length_stripLeading (text : Bytes) :
    (t.stripLeading text).length ≤ text.length := by
  cases text with
  | nil => rw [stripLeading_nil]
  | cons c text =>
    rw [stripLeading_cons]
    split
    · exact Nat.le_succ _
    · exact le_rfl

theorem LlamaTokenizer.stripLeading_eq_self (text : Bytes) :
    t.stripLeading text = text ↔ text.head? ≠ some 0x20 := by
  cases text with
  | nil => simp [stripLeading_nil]
  | cons c text =>
    rw [stripLeading_cons, List.head?_cons]
    split
    · rename_i hspace
      simp [hspace]
    · rename_i hspace
      simp [hspace]

/-- A leading space does not matter for the characters. -/
theorem LlamaTokenizer.validUtf8_stripLeading (text : Bytes) :
    ValidUtf8 (t.stripLeading text) ↔ ValidUtf8 text := by
  cases text with
  | nil => rw [stripLeading_nil]
  | cons c text =>
    rw [stripLeading_cons]
    split
    · rename_i hspace
      rw [hspace, ← accepts_iff (0x20 :: text), Utf8Accepts,
        show utf8Next 0 0x20 = 0 by decide, accepts_iff,
        and_iff_right (by decide)]
    · rfl

/-- The text of all tokens is what the batches owe. -/
theorem LlamaTokenizer.stripLeading_append (before text : Bytes) :
    t.stripLeading (before ++ text) = t.stripLeading before ++ t.due before text := by
  unfold due
  split
  · rename_i hnil
    rw [hnil, stripLeading_nil, List.nil_append, List.nil_append]
  · rename_i hne
    exact Tokenizer.stripLeading_append t.toTokenizer hne text

theorem LlamaTokenizer.flatten_dues (before : Bytes) (bs : List (List Int)) :
    t.stripLeading before ++ (t.dues before bs).flatten =
      t.stripLeading (before ++ t.text bs.flatten) := by
  induction bs generalizing before with
  | nil =>
    have htext : t.text [] = [] := rfl
    rw [dues, List.flatten_nil, List.flatten_nil, htext, List.append_nil, List.append_nil]
  | cons b bs ih =>
    rw [dues, List.flatten_cons, List.flatten_cons, Tokenizer.text_append, ← List.append_assoc,
      ← List.append_assoc, ← ih, stripLeading_append]

theorem Usable.prepend {text : Bytes} (h : Usable text) (first : Bytes) :
    Usable (first ++ text) := by
  refine ⟨fun hnil => h.1 (List.append_eq_nil_iff.1 hnil).2, fun hquestion => ?_⟩
  rcases List.append_eq_singleton_iff.1 hquestion with ⟨-, htext⟩ | ⟨-, hnil⟩
  · exact h.2 htext
  · exact h.1 hnil

/-- What a batch with a usable text owes is usable. -/
theorem LlamaTokenizer.usable_due {text : Bytes} (h : Usable (t.stripLeading text))
    (before : Bytes) : Usable (t.due before text) := by
  unfold due
  split
  · exact h
  · cases text with
    | nil =>
      rw [stripLeading_nil] at h
      exact h
    | cons c text =>
      rw [stripLeading_cons] at h
      split at h
      · exact h.prepend [c]
      · exact h

/-- The text of all tokens is usable where that of one batch is. -/
theorem LlamaTokenizer.usable_flatten {bs : List (List Int)} {b : List Int} (hb : b ∈ bs)
    (h : Usable (t.decode b)) : Usable (t.decode bs.flatten) := by
  obtain ⟨pre, post, rfl⟩ := List.append_of_mem hb
  rw [Tokenizer.decode_eq decodes] at h ⊢
  rw [List.flatten_append, List.flatten_cons, Tokenizer.text_append, Tokenizer.text_append,
    stripLeading_append]
  refine Usable.prepend ?_ _
  have hdue := usable_due h (t.text pre.flatten)
  unfold due at hdue ⊢
  split
  · rename_i hnil
    rw [if_pos hnil] at hdue
    rw [stripLeading_append]
    exact hdue.append _
  · rename_i hne
    rw [if_neg hne] at hdue
    exact hdue.append _

/-! ## What the batches are decoded to -/

variable {giga : Option (List UInt32 → Bytes)}

theorem LlamaTokenizer.length_stripLeading_le_due (before text : Bytes) :
    (t.stripLeading text).length ≤ (t.due before text).length := by
  unfold due
  split
  · exact le_rfl
  · exact length_stripLeading text

theorem LlamaTokenizer.stripLeading_eq_due (before text : Bytes) :
    t.stripLeading text = t.due before text ↔ before = [] ∨ text.head? ≠ some 0x20 := by
  unfold due
  split
  · rename_i hnil
    exact iff_of_true rfl (.inl hnil)
  · rename_i hne
    rw [or_iff_right hne]
    exact stripLeading_eq_self text

theorem LlamaTokenizer.fallback_of_usable {ids : List Int} (h : Usable (t.decode ids)) :
    decodeWithFallback t.toTokenizer giga ids = t.stripLeading (t.text ids) := by
  rw [decodeWithFallback_of_usable giga h, Tokenizer.decode_eq decodes]

/-- The batches are decoded to what they owe where they keep their parts. -/
theorem LlamaTokenizer.partsKept_iff (before : Bytes) (bs : List (List Int)) :
    t.PartsKept giga before bs ↔
      bs.map (decodeWithFallback t.toTokenizer giga) = t.dues before bs := by
  induction bs generalizing before with
  | nil => exact iff_of_true trivial rfl
  | cons b bs ih =>
    rw [PartsKept, dues, List.map_cons, List.cons.injEq, ih]
    refine and_congr_left fun _ => ?_
    split
    · rename_i husable
      rw [fallback_of_usable husable, stripLeading_eq_due]
    · rename_i husable
      rw [decodeWithFallback_of_not_usable giga husable]

theorem LlamaTokenizer.GigaShort.forall₂ {before : Bytes} {bs : List (List Int)}
    (h : t.GigaShort giga before bs) :
    List.Forall₂ (fun x y => x.length ≤ y.length)
      (bs.map (decodeWithFallback t.toTokenizer giga)) (t.dues before bs) := by
  induction bs generalizing before with
  | nil => exact .nil
  | cons b bs ih =>
    rw [GigaShort] at h
    rw [List.map_cons, dues]
    refine .cons ?_ (ih h.2)
    by_cases husable : Usable (t.decode b)
    · rw [fallback_of_usable husable]
      exact length_stripLeading_le_due before (t.text b)
    · rw [decodeWithFallback_of_not_usable giga husable]
      exact h.1 husable

/-- The texts of the batches make up the text of all tokens exactly where none is lost. -/
theorem LlamaTokenizer.textKept_iff {bs : List (List Int)} (h : t.GigaShort giga [] bs) :
    (bs.map (decodeWithFallback t.toTokenizer giga)).flatten =
      decodeWithFallback t.toTokenizer giga bs.flatten ↔ t.TextKept giga bs := by
  unfold TextKept
  split
  · rename_i husable
    have hdues := t.flatten_dues [] bs
    rw [stripLeading_nil, List.nil_append, List.nil_append] at hdues
    rw [fallback_of_usable husable, ← hdues, flatten_eq_iff_of_length_le h.forall₂, partsKept_iff]
  · rename_i husable
    have hbatches : bs.map (decodeWithFallback t.toTokenizer giga) = bs.map (gigaText giga) := by
      refine List.map_congr_left fun b hb => ?_
      exact decodeWithFallback_of_not_usable giga fun husable' =>
        husable (usable_flatten hb husable')
    rw [hbatches, decodeWithFallback_of_not_usable giga husable]

theorem LlamaTokenizer.validUtf8_fallback (ids : List Int) :
    ValidUtf8 (decodeWithFallback t.toTokenizer giga ids) ↔ ValidUtf8 (t.rawText giga ids) := by
  unfold rawText
  split
  · rename_i husable
    rw [fallback_of_usable husable, validUtf8_stripLeading]
  · rename_i husable
    rw [decodeWithFallback_of_not_usable giga husable]

theorem homomorphic_texts (decode : List Int → Bytes) (bs : List (List Int)) :
    Homomorphic decode bs.flatten (texts decode bs) ↔
      (bs.map decode).flatten = decode bs.flatten ∧
        (ValidUtf8 (decode bs.flatten) → ∀ b ∈ bs, ValidUtf8 (decode b)) := by
  rw [Homomorphic, flatten_texts, forall_texts_escape]

theorem LlamaTokenizer.homomorphic_iff {bs : List (List Int)} (h : t.GigaShort giga [] bs) :
    Homomorphic (decodeWithFallback t.toTokenizer giga) bs.flatten
        (texts (decodeWithFallback t.toTokenizer giga) bs) ↔
      t.TextKept giga bs ∧ t.CharsKept giga bs := by
  simp only [homomorphic_texts, textKept_iff h, CharsKept, validUtf8_fallback]

/-! ## All libraries -/

theorem LlamaTokenizer.gigaShort_of_usable {before : Bytes} {bs : List (List Int)}
    (h : ∀ b ∈ bs, Usable (t.decode b)) : t.GigaShort giga before bs := by
  induction bs generalizing before with
  | nil => trivial
  | cons b bs ih =>
    rw [GigaShort]
    exact ⟨fun hnot => absurd (h b List.mem_cons_self) hnot,
      ih fun b' hb' => h b' (List.mem_cons_of_mem _ hb')⟩

/-- Behind a text, batches with usable texts keep their parts where none begins with a space. -/
theorem LlamaTokenizer.partsKept_of_usable {before : Bytes} {bs : List (List Int)}
    (h : ∀ b ∈ bs, Usable (t.decode b)) (hbefore : before ≠ []) :
    t.PartsKept giga before bs ↔ ∀ b ∈ bs, (t.text b).head? ≠ some 0x20 := by
  induction bs generalizing before with
  | nil => simp [PartsKept]
  | cons b bs ih =>
    rw [PartsKept, if_pos (h b List.mem_cons_self), or_iff_right hbefore, List.forall_mem_cons,
      ih (fun b' hb' => h b' (List.mem_cons_of_mem _ hb'))
        fun hnil => hbefore (List.append_eq_nil_iff.1 hnil).1]

theorem LlamaTokenizer.text_ne_nil {ids : List Int} (h : Usable (t.decode ids)) :
    t.text ids ≠ [] := by
  intro hnil
  rw [Tokenizer.decode_eq decodes, hnil, stripLeading_nil] at h
  exact h.1 rfl

/-- Usable batches are kept without a look at GigaToken. -/
theorem LlamaTokenizer.kept_of_usable {bs : List (List Int)} (hne : bs ≠ [])
    (h : ∀ b ∈ bs, Usable (t.decode b)) :
    t.TextKept giga bs ∧ t.CharsKept giga bs ↔
      (∀ b ∈ bs.tail, (t.text b).head? ≠ some 0x20) ∧
        (ValidUtf8 (t.text bs.flatten) → ∀ b ∈ bs, ValidUtf8 (t.text b)) := by
  cases bs with
  | nil => exact absurd rfl hne
  | cons b bs =>
    obtain ⟨hb, hbs⟩ := List.forall_mem_cons.1 h
    have hwhole : Usable (t.decode (b :: bs).flatten) := usable_flatten List.mem_cons_self hb
    have hraw : ∀ ids, Usable (t.decode ids) → t.rawText giga ids = t.text ids := fun ids hids =>
      if_pos hids
    have hfirst : ([] : Bytes) = [] ∨ (t.text b).head? ≠ some 0x20 := .inl rfl
    rw [TextKept, if_pos hwhole, CharsKept, hraw _ hwhole, PartsKept, if_pos hb,
      and_iff_right hfirst, List.nil_append, partsKept_of_usable hbs (text_ne_nil hb),
      List.tail_cons]
    refine and_congr_right fun _ => imp_congr_right fun _ => forall₂_congr fun b' hb' => ?_
    rw [hraw b' (h b' hb')]

/-- The library of a model, if there is one, behind the wrapper. -/
def gigaOf (lib : Option GigaLib) (buf : Bytes) : Option (List UInt32 → Bytes) :=
  lib.map fun lib => lib.decode buf

/-- A library that knows a text for the lists of one length. -/
def lengthGiga (n : Nat) (h : n ≠ 0) : GigaLib where
  encodeIds _ _ := []
  decodeText ids _ := if ids.length = n then str "x" else []
  decodeText_nil := if_neg fun hn => h hn.symm

theorem gigaText_lengthGiga {n : Nat} (h : n ≠ 0) (ids : List Int) :
    gigaText (gigaOf (some (lengthGiga n h)) []) ids = if ids.length = n then str "x" else [] := by
  change (lengthGiga n h).decode [] (ids.map UInt32.ofInt) = _
  cases ids with
  | nil => rw [if_neg fun hn => h hn.symm]; rfl
  | cons id ids =>
    rw [GigaLib.decode_eq _ _ (by simp)]
    change List.take 65535 (if ((id :: ids).map UInt32.ofInt).length = n then str "x" else []) = _
    rw [List.length_map]
    split
    · rfl
    · rfl

/-- Where two libraries make the same text, they have the same texts for a batch. -/
theorem LlamaTokenizer.gigaText_eq_of_flatten_eq {giga' : Option (List UInt32 → Bytes)}
    {bs : List (List Int)} (hle : ∀ b ∈ bs, (gigaText giga b).length ≤ (gigaText giga' b).length)
    (h : (bs.map (decodeWithFallback t.toTokenizer giga)).flatten =
      (bs.map (decodeWithFallback t.toTokenizer giga')).flatten)
    {b : List Int} (hb : b ∈ bs) (husable : ¬ Usable (t.decode b)) :
    gigaText giga b = gigaText giga' b := by
  rw [flatten_eq_iff_of_length_le] at h
  · have hdecode := List.map_inj_left.1 h b hb
    rwa [decodeWithFallback_of_not_usable giga husable,
      decodeWithFallback_of_not_usable giga' husable] at hdecode
  · rw [List.forall₂_map_left_iff, List.forall₂_map_right_iff]
    refine List.forall₂_same.2 fun b hb => ?_
    by_cases husable : Usable (t.decode b)
    · rw [fallback_of_usable husable, fallback_of_usable husable]
    · rw [decodeWithFallback_of_not_usable giga husable,
        decodeWithFallback_of_not_usable giga' husable]
      exact hle b hb

/-- If the texts of two batches or more are kept with every library, all of them are native. -/
theorem LlamaTokenizer.usable_of_forall_lib {bs : List (List Int)} (hlen : 1 < bs.length)
    (hne : ∀ b ∈ bs, b ≠ [])
    (h : ∀ lib, (bs.map (decodeWithFallback t.toTokenizer (gigaOf lib []))).flatten =
      decodeWithFallback t.toTokenizer (gigaOf lib []) bs.flatten) :
    ∀ b ∈ bs, Usable (t.decode b) := by
  intro b hb
  by_contra husable
  by_cases hwhole : Usable (t.decode bs.flatten)
  · -- a library that has a text for this batch makes another text than none
    have hb0 : b.length ≠ 0 := fun h0 => hne b hb (List.length_eq_zero_iff.1 h0)
    have hnone := h none
    have hsome := h (some (lengthGiga b.length hb0))
    rw [fallback_of_usable hwhole] at hnone hsome
    have htext := gigaText_eq_of_flatten_eq (fun _ _ => Nat.zero_le _) (hnone.trans hsome.symm) hb
      husable
    rw [gigaText_lengthGiga hb0, if_pos rfl] at htext
    cases htext
  · -- a library that has a text for all tokens only
    have hshort : ∀ b ∈ bs, b.length < bs.flatten.length := by
      intro b hb
      obtain ⟨pre, post, rfl⟩ := List.append_of_mem hb
      rw [List.flatten_append, List.flatten_cons, List.length_append, List.length_append]
      rw [List.length_append, List.length_cons] at hlen
      rcases List.eq_nil_or_concat pre with rfl | ⟨pre, c, rfl⟩
      · cases post with
        | nil => simp at hlen
        | cons c post =>
          have hc := List.length_pos_iff.2 (hne c (by simp))
          rw [List.flatten_cons, List.length_append]
          omega
      · have hc := List.length_pos_iff.2 (hne c (by simp))
        rw [List.concat_eq_append, List.flatten_append, List.length_append, List.flatten_singleton]
        omega
    have h0 : bs.flatten.length ≠ 0 := by
      have hb := hshort b hb
      omega
    have hsome := h (some (lengthGiga bs.flatten.length h0))
    have hbatches : (bs.map (decodeWithFallback t.toTokenizer
        (gigaOf (some (lengthGiga bs.flatten.length h0)) []))).flatten = [] := by
      refine List.flatten_eq_nil_iff.2 fun text htext => ?_
      obtain ⟨c, hc, rfl⟩ := List.mem_map.1 htext
      rw [decodeWithFallback_of_not_usable _ fun husable => hwhole (usable_flatten hc husable),
        gigaText_lengthGiga, if_neg (hshort c hc).ne]
    rw [hbatches, decodeWithFallback_of_not_usable _ hwhole, gigaText_lengthGiga, if_pos rfl]
      at hsome
    cases hsome

theorem LlamaTokenizer.decode_nil (lib : Option GigaLib) (buf : Bytes) :
    decodeWithFallback t.toTokenizer (gigaOf lib buf) [] = [] := by
  have hnot : ¬ Usable (t.decode []) := by
    rw [Tokenizer.decode_eq decodes]
    exact fun h => h.1 stripLeading_nil
  rw [decodeWithFallback_of_not_usable _ hnot]
  cases lib with
  | none => rfl
  | some lib => rfl

/-- With every library the texts of the batches are kept exactly where the native ones are. -/
theorem LlamaTokenizer.nativeKept_iff {bs : List (List Int)} (hne : ∀ b ∈ bs, b ≠ []) :
    (∀ lib buf, Homomorphic (decodeWithFallback t.toTokenizer (gigaOf lib buf)) bs.flatten
      (texts (decodeWithFallback t.toTokenizer (gigaOf lib buf)) bs)) ↔ t.NativeKept bs := by
  rcases Nat.lt_or_ge 1 bs.length with hlen | hlen
  · rw [NativeKept, or_iff_right (Nat.not_le.2 hlen)]
    have hbs : bs ≠ [] := by
      rintro rfl
      exact absurd hlen (by decide)
    constructor
    · intro h
      have husable := usable_of_forall_lib hlen hne fun lib =>
        ((homomorphic_texts _ bs).1 (h lib [])).1
      exact ⟨husable, (kept_of_usable hbs husable).1
        ((homomorphic_iff (gigaShort_of_usable husable)).1 (h none []))⟩
    · rintro ⟨husable, hkept⟩ lib buf
      exact (homomorphic_iff (gigaShort_of_usable husable)).2 ((kept_of_usable hbs husable).2 hkept)
  · refine iff_of_true (fun lib buf => ?_) (.inl hlen)
    rw [homomorphic_texts]
    rcases bs with - | ⟨b, - | ⟨c, bs⟩⟩
    · rw [List.flatten_nil, decode_nil]
      exact ⟨rfl, fun _ b hb => absurd hb List.not_mem_nil⟩
    · rw [List.flatten_singleton, List.map_singleton, List.flatten_singleton]
      refine ⟨rfl, fun hvalid b' hb' => ?_⟩
      rwa [List.mem_singleton.1 hb']
    · simp at hlen

end

/-! ## Streams -/

/-- The texts that a stream emits make up the text of all tokens, and can be escaped, exactly where
its batches keep all of the text and cut no character; with every library that there may be exactly
where they are native, none but the first begins with a space, and none cuts a character. -/
theorem stream_homomorphic_iff (r : StreamRoute) (t : LlamaTokenizer) (toks : List Int) :
    (∀ giga, t.GigaShort giga [] (r.batches toks) →
      (Homomorphic (r.decode t.toTokenizer giga) toks
          (r.emitted (r.decode t.toTokenizer giga) toks) ↔
        t.TextKept giga (r.batches toks) ∧ t.CharsKept giga (r.batches toks))) ∧
    ((∀ lib buf, Homomorphic (r.decode t.toTokenizer (gigaOf lib buf)) toks
        (r.emitted (r.decode t.toTokenizer (gigaOf lib buf)) toks)) ↔
      t.NativeKept (r.batches toks)) := by
  have hdecode : r.decode = decodeWithFallback := by
    cases r with
    | handler => rfl
    | coordinator eosTokenId => rfl
  have htoks : (r.batches toks).flatten = toks := flatten_batches [] toks
  have hne : ∀ b ∈ r.batches toks, b ≠ [] := batches_ne_nil [] toks
  simp only [hdecode, StreamRoute.emitted_eq]
  constructor
  · intro giga hshort
    rw [← LlamaTokenizer.homomorphic_iff hshort, htoks]
  · rw [← LlamaTokenizer.nativeKept_iff hne, htoks]

/-- A vocabulary of a word and the two bytes of a character. -/
def wordAndBytes : LlamaTokenizer where
  vocab := [str "<unk>", [0xE2, 0x96, 0x81, 0x61], str "<0xC3>", str "<0xA9>"]
  modelType := str "llama"
  valid := true
  valid_eq := rfl
  vocab_ne := by decide
  modelType_eq := rfl

/-- The seventeenth word loses its space, and a character of the sixteenth and seventeenth token is
cut, so that its second half cannot be escaped. -/
theorem stream_not_homomorphic :
    (StreamRoute.handler.emitted (decodeWithFallback wordAndBytes.toTokenizer none)
        (List.replicate 17 1) = [str "a a a a a a a a a a a a a a a a", str "a"] ∧
      decodeWithFallback wordAndBytes.toTokenizer none (List.replicate 17 1) =
        str "a a a a a a a a a a a a a a a a a") ∧
    (ValidUtf8 (decodeWithFallback wordAndBytes.toTokenizer none (List.replicate 15 1 ++ [2, 3])) ∧
      [0xA9] ∈ StreamRoute.handler.emitted (decodeWithFallback wordAndBytes.toTokenizer none)
        (List.replicate 15 1 ++ [2, 3]) ∧
      ¬ ∃ out, dumpEscaped [0xA9] = .ok out) ∧
    ¬ ∀ (r : StreamRoute) (t : LlamaTokenizer) (toks : List Int),
      Homomorphic (r.decode t.toTokenizer none) toks
        (r.emitted (r.decode t.toTokenizer none) toks) := by
  have hwords : StreamRoute.handler.emitted (decodeWithFallback wordAndBytes.toTokenizer none)
      (List.replicate 17 1) = [str "a a a a a a a a a a a a a a a a", str "a"] := by
    rw [StreamRoute.emitted_eq]
    decide +kernel
  have hwhole : decodeWithFallback wordAndBytes.toTokenizer none (List.replicate 17 1) =
      str "a a a a a a a a a a a a a a a a a" := by
    decide +kernel
  have hcut : [0xA9] ∈ StreamRoute.handler.emitted
      (decodeWithFallback wordAndBytes.toTokenizer none) (List.replicate 15 1 ++ [2, 3]) := by
    rw [StreamRoute.emitted_eq]
    decide +kernel
  refine ⟨⟨hwords, hwhole⟩, ⟨by decide +kernel, hcut, ?_⟩, fun h => ?_⟩
  · rw [dumpEscaped_isOk_iff]
    decide
  · have hflatten := (h .handler wordAndBytes (List.replicate 17 1)).1
    rw [StreamRoute.decode, hwords, hwhole] at hflatten
    exact absurd hflatten (by decide)

end Terllama
