import Mathlib.Data.List.Induction
import Mathlib.Data.List.Sort
import Mathlib.Order.Lattice
import Terllama.Base.Buffer
import Terllama.Core.Tokenizer

/-!
# The vocabulary of `tokenizer.json`

`Tokenizer::load_from_tokenizer_json` of `src/core/tokenizer.cpp`, on the value that the JSON parser
returns. The entries of `model.vocab` and of `added_tokens` are sorted by their ids and appended one
after the other; a gap is filled, and an entry whose place is taken is dropped. The sizes are compared
as `int`s.

`load_vocabulary` says what the three vectors hold. An added token with an empty content is no entry.
-/

namespace Terllama

/-! ## JSON values -/

/-- A JSON value as the parser returns it. A number that is not an integer is given by its integer
part, and the members of an object are in the order of their keys. -/
inductive JsonDoc where
  | null
  | boolean (b : Bool)
  | integer (n : Int)
  | float (whole : Int)
  | string (s : Bytes)
  | array (elems : List JsonDoc)
  | object (members : List (Bytes × JsonDoc))

namespace JsonDoc

/-- `type_name`. -/
def typeName : JsonDoc → String
  | null => "null"
  | boolean _ => "boolean"
  | integer _ | float _ => "number"
  | string _ => "string"
  | array _ => "array"
  | object _ => "object"

/-- `find`, which finds nothing in a value that is not an object. -/
def member (j : JsonDoc) (key : String) : Option JsonDoc :=
  match j with
  | object members => (members.find? fun m => m.1 == str key).map Prod.snd
  | _ => none

/-- `is_object`. -/
def isObject : JsonDoc → Bool
  | object _ => true
  | _ => false

/-- What a range-based `for` goes over. -/
def elements : JsonDoc → List JsonDoc
  | null => []
  | array elems => elems
  | object members => members.map Prod.snd
  | j => [j]

/-- `get<int>`, which keeps the low 32 bits of an integer. -/
def getInt : JsonDoc → Exec Int
  | integer n => .ok (toInt32 (sizeT n))
  | float whole =>
    if -2147483648 ≤ whole ∧ whole ≤ 2147483647 then .ok whole
    else undefined "conversion of a double that is not an int"
  | boolean b => .ok (if b then 1 else 0)
  | j => raise ("[json.exception.type_error.302] type must be number, but is " ++ j.typeName)

/-- `get<std::string>`. -/
def getString : JsonDoc → Exec Bytes
  | string s => .ok s
  | j => raise ("[json.exception.type_error.302] type must be string, but is " ++ j.typeName)

/-- `get<bool>`. -/
def getBool : JsonDoc → Exec Bool
  | boolean b => .ok b
  | j => raise ("[json.exception.type_error.302] type must be boolean, but is " ++ j.typeName)

/-- `value`, with the conversion of the type that is asked for. -/
def value {α : Type} (get : JsonDoc → Exec α) (j : JsonDoc) (key : String) (default : α) : Exec α :=
  match j with
  | object _ =>
    match j.member key with
    | some v => get v
    | none => .ok default
  | _ => raise ("[json.exception.type_error.306] cannot use value() with " ++ j.typeName)

end JsonDoc

/-! ## The loader -/

/-- The filler of a gap, U+2581. -/
def gapFiller : Bytes := [0xE2, 0x96, 0x81]

/-- The elements of `added_tokens`, if it is an array, that are objects. -/
def addedTokens (j : JsonDoc) : List JsonDoc :=
  match j.member "added_tokens" with
  | some (.array elems) => elems.filter JsonDoc.isObject
  | _ => []

/-- The pre-tokenizer is at the byte level, or a sequence with one that is. -/
def isByteLevel (j : JsonDoc) : Exec Bool :=
  match j.member "pre_tokenizer" with
  | some (.object members) => do
    let type ← JsonDoc.value JsonDoc.getString (.object members) "type" []
    if type = str "Sequence" then
      let nested := ((JsonDoc.object members).member "pretokenizers").getD .null
      nested.elements.foldlM (fun found pt => do
        let type ← JsonDoc.value JsonDoc.getString pt "type" []
        return found || type == str "ByteLevel") false
    else return type == str "ByteLevel"
  | _ => .ok false

/-- The pairs of an id and a content in `model.vocab`. -/
def vocabEntries (model : JsonDoc) : Exec (List (Int × Bytes)) :=
  match model.member "vocab" with
  | some (.object members) => members.mapM fun m => do return (← m.2.getInt, m.1)
  | _ => .ok []

/-- The pair of an added token, if it has one. -/
def addedEntry (token : JsonDoc) : Exec (List (Int × Bytes)) := do
  let id ← JsonDoc.value JsonDoc.getInt token "id" (-1)
  let content ← JsonDoc.value JsonDoc.getString token "content" []
  return if 0 ≤ id ∧ content ≠ [] then [(id, content)] else []

/-- The order of the pairs. -/
def EntryLe (a b : Int × Bytes) : Prop := a.1 < b.1 ∨ a.1 = b.1 ∧ a.2 ≤ b.2

instance (a b : Int × Bytes) : Decidable (EntryLe a b) :=
  inferInstanceAs (Decidable (_ ∨ _))

/-- The body of the loop over the sorted pairs: the gap in front of the id is filled, and the content
appended if its place is free. -/
def placeToken (vocab : List Bytes) (entry : Int × Bytes) : List Bytes :=
  if entry.1 < 0 then vocab
  else
    let vocab := vocab ++ List.replicate (entry.1 - toInt32 vocab.length).toNat gapFiller
    if toInt32 vocab.length = entry.1 then vocab ++ [entry.2] else vocab

/-- The body of the loop that marks the special tokens. -/
def markSpecial (types : List Int) (token : JsonDoc) : Exec (List Int) := do
  let id ← JsonDoc.value JsonDoc.getInt token "id" (-1)
  let special ← JsonDoc.value JsonDoc.getBool token "special" false
  return if 0 ≤ id ∧ id < toInt32 types.length ∧ special then types.set id.toNat 3 else types

/-- The ids that the loop for the begin and the end of a text keeps. -/
structure TextIds where
  bosId : Int := -1
  eosId : Int := -1
  firstSpecial : Int := -1

/-- The body of that loop. -/
def TextIds.next (ids : TextIds) (token : JsonDoc) : Exec TextIds := do
  let id ← JsonDoc.value JsonDoc.getInt token "id" (-1)
  let content ← JsonDoc.value JsonDoc.getString token "content" []
  let special ← JsonDoc.value JsonDoc.getBool token "special" false
  let ids := if content = str "<|endoftext|>" ∧ 0 ≤ id then
    { ids with
      bosId := if ids.bosId < 0 then id else ids.bosId
      eosId := id } else ids
  return if special ∧ ids.firstSpecial < 0 then { ids with firstSpecial := id } else ids

/-- `load_from_tokenizer_json` behind the parser, with `none` where it returns false. -/
def loadTokenizerJson (j : JsonDoc) : Exec (Option Tokenizer) :=
  match j.member "model" with
  | none => .ok none
  | some model => do
    let type ← JsonDoc.value JsonDoc.getString model "type" []
    if type ≠ str "BPE" ∧ type ≠ str "Unigram" ∧ type ≠ str "WordPiece" ∧
        type ≠ str "SentencePiece" then return none
    else
      let byteLevel ← isByteLevel j
      let modelType := if type = str "BPE" ∧ byteLevel then str "gpt2" else str "llama"
      let base ← vocabEntries model
      let added ← (addedTokens j).mapM addedEntry
      let ordered := base ++ added.flatten
      if ordered = [] then return none
      else
        let vocab := (ordered.insertionSort EntryLe).foldl placeToken []
        let types ← (addedTokens j).foldlM markSpecial (List.replicate vocab.length 0)
        let ids ← (addedTokens j).foldlM TextIds.next {}
        return some {
          vocab
          scores := List.replicate vocab.length 0
          types
          modelType
          bosId := if ids.bosId < 0 then ids.firstSpecial else ids.bosId
          eosId := if ids.eosId < 0 then ids.firstSpecial else ids.eosId
          valid := modelType == str "llama" }

/-- `load_from_tokenizer_json`, with `none` for a file that cannot be opened or parsed. -/
def loadFromTokenizerJson (file : Option JsonDoc) : Exec (Option Tokenizer) :=
  match file with
  | none => .ok none
  | some j => loadTokenizerJson j

/-! ## The entries -/

/-- `model.vocab` maps the content to the id. -/
def InBaseVocab (j : JsonDoc) (id : Int) (content : Bytes) : Prop :=
  ∃ model members v, j.member "model" = some model ∧
    model.member "vocab" = some (.object members) ∧ (content, v) ∈ members ∧ v.getInt = .ok id

/-- An added token has the id and the content. -/
def IsAdded (j : JsonDoc) (id : Int) (content : Bytes) : Prop :=
  ∃ token ∈ addedTokens j, JsonDoc.value JsonDoc.getInt token "id" (-1) = .ok id ∧
    JsonDoc.value JsonDoc.getString token "content" [] = .ok content

/-- An entry of the union of both, without the added tokens that have an empty content. -/
def VocabEntry (j : JsonDoc) (id : Int) (content : Bytes) : Prop :=
  InBaseVocab j id content ∨ 0 ≤ id ∧ content ≠ [] ∧ IsAdded j id content

/-- An added token with the id is marked as special. -/
def SpecialId (j : JsonDoc) (id : Int) : Prop :=
  ∃ token ∈ addedTokens j, JsonDoc.value JsonDoc.getInt token "id" (-1) = .ok id ∧
    JsonDoc.value JsonDoc.getBool token "special" false = .ok true

/-- The vectors of a tokenizer are those of the file: a content at each id that has one, the filler in
the gaps up to the last one, and the type of the special tokens. -/
structure VocabularyOf (j : JsonDoc) (t : Tokenizer) : Prop where
  content : ∀ (n : Nat) s, VocabEntry j n s → t.vocab[n]? = some s
  gap : ∀ n < t.vocab.length, (∀ s, ¬ VocabEntry j n s) → t.vocab[n]? = some gapFiller
  vocab_length : ∀ n, n < t.vocab.length ↔ ∃ id s, VocabEntry j id s ∧ (n : Int) ≤ id
  scores_length : t.scores.length = t.vocab.length
  types_length : t.types.length = t.vocab.length
  special : ∀ n < t.vocab.length, t.types[n]? = some 3 ↔ SpecialId j n

section
variable {j model : JsonDoc}

/-- The pairs of `model.vocab`. -/
theorem mem_vocabEntries {entries : List (Int × Bytes)} (hmodel : j.member "model" = some model)
    (h : vocabEntries model = .ok entries) (id : Int) (content : Bytes) :
    (id, content) ∈ entries ↔ InBaseVocab j id content := by
  unfold vocabEntries at h
  split at h
  · rename_i members hvocab
    have hall := forall₂_of_mapM_ok h
    constructor
    · intro hmem
      obtain ⟨m, hm, hpair⟩ := exists_mem_of_forall₂ hall.flip hmem
      obtain ⟨id', hid, hpair⟩ := bind_eq_ok.1 hpair
      cases hpair
      exact ⟨model, members, m.2, hmodel, hvocab, hm, hid⟩
    · rintro ⟨model', members', v, hmodel', hvocab', hm, hid⟩
      cases hmodel.symm.trans hmodel'
      cases hvocab.symm.trans hvocab'
      obtain ⟨entry, hentry, hpair⟩ := exists_mem_of_forall₂ hall hm
      obtain ⟨id', hid', hpair⟩ := bind_eq_ok.1 hpair
      cases hid.symm.trans hid'
      cases hpair
      exact hentry
  · rename_i hvocab
    cases h
    refine iff_of_false List.not_mem_nil ?_
    rintro ⟨model', members', v, hmodel', hvocab', -⟩
    cases hmodel.symm.trans hmodel'
    exact hvocab members' hvocab'

/-- The pairs of the added tokens. -/
theorem mem_addedEntries {added : List (List (Int × Bytes))}
    (h : (addedTokens j).mapM addedEntry = .ok added) (id : Int) (content : Bytes) :
    (id, content) ∈ added.flatten ↔ 0 ≤ id ∧ content ≠ [] ∧ IsAdded j id content := by
  have hall := forall₂_of_mapM_ok h
  have hentry : ∀ token entries, addedEntry token = .ok entries → ((id, content) ∈ entries ↔
      0 ≤ id ∧ content ≠ [] ∧ JsonDoc.value JsonDoc.getInt token "id" (-1) = .ok id ∧
        JsonDoc.value JsonDoc.getString token "content" [] = .ok content) := by
    intro token entries hentries
    obtain ⟨id', hid, hentries⟩ := bind_eq_ok.1 hentries
    obtain ⟨content', hcontent, hentries⟩ := bind_eq_ok.1 hentries
    cases hentries
    rw [hid, hcontent]
    simp only [Except.ok.injEq]
    split
    · rename_i hkept
      rw [List.mem_singleton, Prod.mk.injEq]
      constructor
      · rintro ⟨rfl, rfl⟩
        exact ⟨hkept.1, hkept.2, rfl, rfl⟩
      · rintro ⟨-, -, rfl, rfl⟩
        exact ⟨rfl, rfl⟩
    · rename_i hskip
      refine iff_of_false List.not_mem_nil ?_
      rintro ⟨hid₀, hne, rfl, rfl⟩
      exact hskip ⟨hid₀, hne⟩
  rw [List.mem_flatten]
  constructor
  · rintro ⟨entries, hentries, hmem⟩
    obtain ⟨token, htoken, hof⟩ := exists_mem_of_forall₂ hall.flip hentries
    obtain ⟨hid₀, hne, hid, hcontent⟩ := (hentry token entries hof).1 hmem
    exact ⟨hid₀, hne, token, htoken, hid, hcontent⟩
  · rintro ⟨hid₀, hne, token, htoken, hid, hcontent⟩
    obtain ⟨entries, hentries, hof⟩ := exists_mem_of_forall₂ hall htoken
    exact ⟨entries, hentries, (hentry token entries hof).2 ⟨hid₀, hne, hid, hcontent⟩⟩

/-- The pairs of the file are the entries. -/
theorem vocabEntry_iff {base : List (Int × Bytes)} {added : List (List (Int × Bytes))}
    (hmodel : j.member "model" = some model) (hbase : vocabEntries model = .ok base)
    (hadded : (addedTokens j).mapM addedEntry = .ok added) (id : Int) (content : Bytes) :
    VocabEntry j id content ↔ (id, content) ∈ base ++ added.flatten := by
  rw [List.mem_append, mem_vocabEntries hmodel hbase, mem_addedEntries hadded]
  rfl

end

/-! ## The loop over the sorted pairs -/

/-- The vector after some of the pairs: it reaches to the last of their ids, and holds their contents
and the filler in between. -/
structure PlacedTokens (entries : List (Int × Bytes)) (vocab : List Bytes) : Prop where
  length : ∀ n : Nat, n < vocab.length ↔ ∃ e ∈ entries, (n : Int) ≤ e.1
  content : ∀ e ∈ entries, ∀ n : Nat, e.1 = n → vocab[n]? = some e.2
  gap : ∀ n < vocab.length, (∀ e ∈ entries, e.1 ≠ n) → vocab[n]? = some gapFiller

section
variable {entries : List (Int × Bytes)} {vocab : List Bytes} {e : Int × Bytes}

theorem placedTokens_nil : PlacedTokens [] [] :=
  ⟨fun n => iff_of_false (Nat.not_lt_zero n) nofun, nofun, nofun⟩

theorem toInt32_eq {n : Nat} (h : n < 2147483648) : toInt32 n = n := by
  unfold toInt32
  omega

/-- The pass at an id that is at most the next one. -/
theorem placeToken_eq {m : Nat} (hid : e.1 = m) (hmax : m < 2147483647)
    (hlen : vocab.length ≤ m + 1) : placeToken vocab e =
      if vocab.length ≤ m then vocab ++ List.replicate (m - vocab.length) gapFiller ++ [e.2]
      else vocab := by
  have hpad : ((m : Int) - toInt32 vocab.length).toNat = m - vocab.length := by
    rw [toInt32_eq (by omega)]
    omega
  rw [placeToken, hid, if_neg (by omega), hpad]
  dsimp only
  rcases Nat.lt_or_ge m vocab.length with hlong | hle
  · have hsame : vocab ++ List.replicate (m - vocab.length) gapFiller = vocab := by
      rw [Nat.sub_eq_zero_of_le hlong.le, List.replicate_zero, List.append_nil]
    rw [hsame, toInt32_eq (by omega), if_neg (by omega), if_neg (by omega)]
  · have hnext : (vocab ++ List.replicate (m - vocab.length) gapFiller).length = m := by
      rw [List.length_append, List.length_replicate]
      omega
    rw [hnext, toInt32_eq (by omega), if_pos rfl, if_pos hle]

/-- The pass at an entry whose id is not below the others. -/
theorem PlacedTokens.place (h : PlacedTokens entries vocab) (hlast : ∀ d ∈ entries, d.1 ≤ e.1)
    (hmax : e.1 < 2147483647) (hone : ∀ d ∈ entries, d.1 = e.1 → 0 ≤ e.1 → d.2 = e.2) :
    PlacedTokens (entries ++ [e]) (placeToken vocab e) := by
  rcases lt_or_ge e.1 0 with hneg | hnonneg
  · have hskip : placeToken vocab e = vocab := if_pos hneg
    have hmem : ∀ {d}, d ∈ entries ++ [e] → d ∈ entries ∨ d = e := fun hd =>
      (List.mem_append.1 hd).imp_right List.mem_singleton.1
    rw [hskip]
    refine ⟨fun n => (h.length n).trans ⟨?_, ?_⟩, fun d hd n hn => ?_, fun n hn hfree =>
      h.gap n hn fun d hd => hfree d (List.mem_append_left _ hd)⟩
    · rintro ⟨d, hd, hle⟩
      exact ⟨d, List.mem_append_left _ hd, hle⟩
    · rintro ⟨d, hd, hle⟩
      rcases hmem hd with hd | rfl
      · exact ⟨d, hd, hle⟩
      · omega
    · rcases hmem hd with hd | rfl
      · exact h.content d hd n hn
      · omega
  obtain ⟨m, hm⟩ := Int.eq_ofNat_of_zero_le hnonneg
  have hlen : vocab.length ≤ m + 1 := by
    by_contra hlong
    obtain ⟨d, hd, hle⟩ := (h.length (m + 1)).1 (by omega)
    have hd := hlast d hd
    omega
  rw [placeToken_eq hm (by omega) hlen]
  split
  · rename_i hnew
    have hpad : (vocab ++ List.replicate (m - vocab.length) gapFiller).length = m := by
      rw [List.length_append, List.length_replicate]
      omega
    refine ⟨fun n => ?_, fun d hd n hn => ?_, fun n hn hfree => ?_⟩
    · rw [List.length_append, hpad, List.length_singleton]
      constructor
      · intro hlt
        exact ⟨e, List.mem_append_right _ (List.mem_singleton_self e), by omega⟩
      · rintro ⟨d, hd, hle⟩
        rcases List.mem_append.1 hd with hd | hd
        · have hd := hlast d hd
          omega
        · rw [List.mem_singleton.1 hd] at hle
          omega
    · rcases List.mem_append.1 hd with hd | hd
      · have hold := h.content d hd n hn
        have hlt : n < vocab.length := (h.length n).2 ⟨d, hd, hn.ge⟩
        rw [List.append_assoc, List.getElem?_append_left hlt, hold]
      · obtain rfl := List.mem_singleton.1 hd
        obtain rfl : n = m := by omega
        conv_lhs => rw [← hpad]
        rw [hpad, List.getElem?_append_right hpad.le, hpad, Nat.sub_self]
        rfl
    · rw [List.length_append, hpad, List.length_singleton] at hn
      have hne : n ≠ m := by
        rintro rfl
        exact hfree e (List.mem_append_right _ (List.mem_singleton_self e)) hm
      rw [List.getElem?_append_left (by omega)]
      rcases lt_or_ge n vocab.length with hlt | hge
      · rw [List.getElem?_append_left hlt]
        exact h.gap n hlt fun d hd => hfree d (List.mem_append_left _ hd)
      · rw [List.getElem?_append_right hge, List.getElem?_replicate, if_pos (by omega)]
  · rename_i hold
    obtain ⟨d, hd, hle⟩ := (h.length m).1 (by omega)
    have hsame : d.1 = e.1 := by
      have hd := hlast d hd
      omega
    refine ⟨fun n => ?_, fun d' hd' n hn => ?_, fun n hn hfree =>
      h.gap n hn fun d hd => hfree d (List.mem_append_left _ hd)⟩
    · rw [h.length n]
      constructor
      · rintro ⟨d', hd', hle'⟩
        exact ⟨d', List.mem_append_left _ hd', hle'⟩
      · rintro ⟨d', hd', hle'⟩
        rcases List.mem_append.1 hd' with hd' | hd'
        · exact ⟨d', hd', hle'⟩
        · rw [List.mem_singleton.1 hd', ← hsame] at hle'
          exact ⟨d, hd, hle'⟩
    · rcases List.mem_append.1 hd' with hd' | hd'
      · exact h.content d' hd' n hn
      · rw [List.mem_singleton.1 hd'] at hn ⊢
        rw [← hone d hd hsame hnonneg]
        exact h.content d hd n (hsame.trans hn)

/-- The vector of sorted pairs. -/
theorem placed_foldl (hsorted : entries.Pairwise fun a b => a.1 ≤ b.1)
    (hmax : ∀ e ∈ entries, e.1 < 2147483647)
    (hone : ∀ d ∈ entries, ∀ e ∈ entries, d.1 = e.1 → 0 ≤ e.1 → d.2 = e.2) :
    PlacedTokens entries (entries.foldl placeToken []) := by
  induction entries using List.reverseRecOn with
  | nil => exact placedTokens_nil
  | append_singleton entries e ih =>
    obtain ⟨hbefore, -, hlast⟩ := List.pairwise_append.1 hsorted
    have hmem : ∀ {d}, d ∈ entries → d ∈ entries ++ [e] := List.mem_append_left _
    have he : e ∈ entries ++ [e] := List.mem_append_right _ (List.mem_singleton_self e)
    rw [List.foldl_append]
    exact (ih hbefore (fun d hd => hmax d (hmem hd))
      fun c hc d hd => hone c (hmem hc) d (hmem hd)).place
        (fun d hd => hlast d hd e (List.mem_singleton_self e)) (hmax e he)
        fun d hd => hone d (hmem hd) e he

instance : IsTrans (Int × Bytes) EntryLe where
  trans a b c := by
    rintro (hab | ⟨hab, hab'⟩) (hbc | ⟨hbc, hbc'⟩)
    · exact .inl (hab.trans hbc)
    · exact .inl (hbc ▸ hab)
    · exact .inl (hab ▸ hbc)
    · exact .inr ⟨hab.trans hbc, List.le_trans hab' hbc'⟩

instance : Std.Total EntryLe where
  total a b := by
    rcases lt_trichotomy a.1 b.1 with h | h | h
    · exact .inl (.inl h)
    · exact (List.le_total a.2 b.2).imp (fun h' => .inr ⟨h, h'⟩) fun h' => .inr ⟨h.symm, h'⟩
    · exact .inr (.inl h)

theorem sorted_insertionSort (entries : List (Int × Bytes)) :
    (entries.insertionSort EntryLe).Pairwise fun a b => a.1 ≤ b.1 :=
  (List.pairwise_insertionSort EntryLe entries).imp fun hab =>
    hab.elim le_of_lt fun h => h.1.le

end

/-! ## The special tokens -/

/-- One added token marks its id if it is special. -/
theorem markSpecial_ok {token : JsonDoc} {types types' : List Int}
    (h : markSpecial types token = .ok types') (hsize : types.length ≤ 2147483647) :
    types'.length = types.length ∧ ∀ n < types.length, types'[n]? = some 3 ↔
      types[n]? = some 3 ∨ JsonDoc.value JsonDoc.getInt token "id" (-1) = .ok (n : Int) ∧
        JsonDoc.value JsonDoc.getBool token "special" false = .ok true := by
  obtain ⟨id, hid, h⟩ := bind_eq_ok.1 h
  obtain ⟨special, hspecial, h⟩ := bind_eq_ok.1 h
  cases h
  rw [hid, hspecial, toInt32_eq (by omega)]
  simp only [Except.ok.injEq]
  split
  · rename_i hmark
    refine ⟨List.length_set, fun n hn => ?_⟩
    rcases eq_or_ne id.toNat n with heq | hne
    · rw [heq, List.getElem?_set_self hn]
      exact iff_of_true rfl (.inr ⟨by omega, hmark.2.2⟩)
    · rw [List.getElem?_set_ne hne, or_iff_left]
      rintro ⟨rfl, -⟩
      exact hne (Int.toNat_natCast n)
  · rename_i hskip
    refine ⟨rfl, fun n hn => ?_⟩
    rw [or_iff_left]
    rintro ⟨rfl, hspecial'⟩
    exact hskip ⟨by omega, by omega, hspecial'⟩

theorem markSpecial_all {tokens : List JsonDoc} {types types' : List Int}
    (h : tokens.foldlM markSpecial types = .ok types') (hsize : types.length ≤ 2147483647) :
    types'.length = types.length ∧ ∀ n < types.length, types'[n]? = some 3 ↔
      types[n]? = some 3 ∨ ∃ token ∈ tokens,
        JsonDoc.value JsonDoc.getInt token "id" (-1) = .ok (n : Int) ∧
          JsonDoc.value JsonDoc.getBool token "special" false = .ok true := by
  induction tokens generalizing types with
  | nil =>
    cases h
    exact ⟨rfl, fun n _ => ⟨.inl, fun h => h.resolve_right nofun⟩⟩
  | cons token tokens ih =>
    rw [List.foldlM_cons] at h
    obtain ⟨next, hnext, h⟩ := bind_eq_ok.1 h
    obtain ⟨hlen, hmarked⟩ := markSpecial_ok hnext hsize
    obtain ⟨hlen', hmarked'⟩ := ih h (hlen.trans_le hsize)
    refine ⟨hlen'.trans hlen, fun n hn => ?_⟩
    rw [hmarked' n (hlen.symm ▸ hn), hmarked n hn, or_assoc, List.exists_mem_cons_iff]

/-! ## The vocabulary -/

/-- Where the entries give each id one content and their ids are below the last `int`, the vectors of
a tokenizer that was loaded are those of the file. -/
theorem load_vocabulary {j : JsonDoc} {t : Tokenizer}
    (h : loadFromTokenizerJson (some j) = .ok (some t))
    (hone : ∀ (id : Nat) s s', VocabEntry j id s → VocabEntry j id s' → s = s')
    (hmax : ∀ id s, VocabEntry j id s → id < 2147483647) : VocabularyOf j t := by
  rw [loadFromTokenizerJson, loadTokenizerJson] at h
  split at h
  · cases h
  rename_i model hmodel
  obtain ⟨type, -, h⟩ := bind_eq_ok.1 h
  split at h
  · cases h
  obtain ⟨byteLevel, -, h⟩ := bind_eq_ok.1 h
  obtain ⟨base, hbase, h⟩ := bind_eq_ok.1 h
  obtain ⟨added, hadded, h⟩ := bind_eq_ok.1 h
  dsimp only at h
  split at h
  · cases h
  obtain ⟨types, htypes, h⟩ := bind_eq_ok.1 h
  obtain ⟨ids, -, h⟩ := bind_eq_ok.1 h
  cases h
  have hentries : ∀ e, e ∈ (base ++ added.flatten).insertionSort EntryLe ↔ VocabEntry j e.1 e.2 := by
    intro e
    rw [List.mem_insertionSort, vocabEntry_iff hmodel hbase hadded]
  have hplaced := @placed_foldl ((base ++ added.flatten).insertionSort EntryLe) (sorted_insertionSort _)
    (fun e he => hmax e.1 e.2 ((hentries e).1 he)) fun d hd e he hsame hnonneg => by
      obtain ⟨n, hn⟩ := Int.eq_ofNat_of_zero_le hnonneg
      have hd := (hentries d).1 hd
      have he := (hentries e).1 he
      rw [hsame, hn] at hd
      rw [hn] at he
      exact hone n d.2 e.2 hd he
  have hsize : (((base ++ added.flatten).insertionSort EntryLe).foldl placeToken []).length ≤
      2147483647 := by
    by_contra hlong
    obtain ⟨e, he, hle⟩ := (hplaced.length 2147483647).1 (not_le.1 hlong)
    have hlt := hmax e.1 e.2 ((hentries e).1 he)
    omega
  obtain ⟨hlen, hmarked⟩ := markSpecial_all htypes (by rwa [List.length_replicate])
  rw [List.length_replicate] at hlen hmarked
  refine ⟨fun n s hs => hplaced.content (n, s) ((hentries _).2 hs) n rfl, fun n hn hfree => ?_,
    fun n => ?_, List.length_replicate, hlen, fun n hn => ?_⟩
  · refine hplaced.gap n hn fun e he hid => ?_
    have he := (hentries e).1 he
    rw [hid] at he
    exact hfree e.2 he
  · rw [hplaced.length n]
    constructor
    · rintro ⟨e, he, hle⟩
      exact ⟨e.1, e.2, (hentries e).1 he, hle⟩
    · rintro ⟨id, s, he, hle⟩
      exact ⟨(id, s), (hentries (id, s)).2 he, hle⟩
  · rw [hmarked n hn, List.getElem?_replicate, if_pos hn]
    exact or_iff_right (by simp)

/-- A file with a gap, and a special token behind it. -/
def gapDoc : JsonDoc :=
  .object [(str "added_tokens", .array [.object [(str "content", .string (str "<s>")),
      (str "id", .integer 3), (str "special", .boolean true)]]),
    (str "model", .object [(str "type", .string (str "Unigram")),
      (str "vocab", .object [(str "a", .integer 1), (str "b", .integer 0)])])]

theorem load_vocabulary_gap : ∃ t, loadFromTokenizerJson (some gapDoc) = .ok (some t) ∧
    t.vocab = [str "b", str "a", gapFiller, str "<s>"] ∧ VocabularyOf gapDoc t := by
  have hload : loadFromTokenizerJson (some gapDoc) = .ok (some {
      vocab := [str "b", str "a", gapFiller, str "<s>"]
      scores := [0, 0, 0, 0]
      types := [0, 0, 0, 3]
      modelType := str "llama"
      bosId := 3
      eosId := 3
      valid := true }) := by
    decide +kernel
  have hentries : ∀ id s, VocabEntry gapDoc id s ↔
      (id, s) ∈ [((1 : Int), str "a"), (0, str "b"), (3, str "<s>")] :=
    @vocabEntry_iff gapDoc _ [(1, str "a"), (0, str "b")] [[(3, str "<s>")]] rfl rfl rfl
  refine ⟨_, hload, rfl, load_vocabulary hload (fun id s s' hs hs' => ?_) fun id s hs => ?_⟩
  · rw [hentries] at hs hs'
    simp only [List.mem_cons, Prod.mk.injEq, List.not_mem_nil, or_false] at hs hs'
    rcases hs with ⟨hid, rfl⟩ | ⟨hid, rfl⟩ | ⟨hid, rfl⟩ <;>
      rcases hs' with ⟨hid', rfl⟩ | ⟨hid', rfl⟩ | ⟨hid', rfl⟩ <;> first | rfl | omega
  · rw [hentries] at hs
    simp only [List.mem_cons, Prod.mk.injEq, List.not_mem_nil, or_false] at hs
    omega

/-- A file with an added token that has an empty content. -/
def emptyTokenDoc : JsonDoc :=
  .object [(str "added_tokens", .array [.object [(str "content", .string []),
      (str "id", .integer 1)]]),
    (str "model", .object [(str "type", .string (str "Unigram")),
      (str "vocab", .object [(str "a", .integer 0)])])]

/-- The id of this token is not in the vocabulary, although each id has one content. -/
theorem vocabulary_without_emptyToken : ∃ t,
    loadFromTokenizerJson (some emptyTokenDoc) = .ok (some t) ∧
      (∀ id s s', InBaseVocab emptyTokenDoc id s ∨ IsAdded emptyTokenDoc id s →
        InBaseVocab emptyTokenDoc id s' ∨ IsAdded emptyTokenDoc id s' → s = s') ∧
      IsAdded emptyTokenDoc 1 [] ∧ t.vocab.length = 1 := by
  have hload : loadFromTokenizerJson (some emptyTokenDoc) = .ok (some {
      vocab := [str "a"]
      scores := [0]
      types := [0]
      modelType := str "llama"
      bosId := -1
      eosId := -1
      valid := true }) := by
    decide +kernel
  have hbase : ∀ id s, InBaseVocab emptyTokenDoc id s ↔ (id, s) ∈ [((0 : Int), str "a")] :=
    fun id s => (@mem_vocabEntries emptyTokenDoc _ [(0, str "a")] rfl rfl id s).symm
  have hadded : ∀ id s, IsAdded emptyTokenDoc id s ↔ id = 1 ∧ s = [] := by
    intro id s
    constructor
    · rintro ⟨token, htoken, hid, hs⟩
      obtain rfl := List.mem_singleton.1 htoken
      cases hid
      cases hs
      exact ⟨rfl, rfl⟩
    · rintro ⟨rfl, rfl⟩
      exact ⟨_, List.mem_singleton_self _, rfl, rfl⟩
  refine ⟨_, hload, fun id s s' hs hs' => ?_, (hadded 1 []).2 ⟨rfl, rfl⟩, rfl⟩
  rw [hbase, hadded, List.mem_singleton, Prod.mk.injEq] at hs hs'
  rcases hs with ⟨hid, rfl⟩ | ⟨hid, rfl⟩ <;> rcases hs' with ⟨hid', rfl⟩ | ⟨hid', rfl⟩ <;>
    first | rfl | omega

end Terllama
