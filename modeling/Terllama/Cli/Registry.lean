import Terllama.Base.Decimal
import Terllama.Base.Runs

/-!
# The registry file

`pull` and `rm` of `src/cli/commands.cpp` keep the installed models in `models.json`: each reads the
whole file, writes the new text to a file of its own and renames that over the registry. The lock
around the three steps is one of the process, so that the steps of several processes interleave
(`RegistryState.step`). `registry_current_iff` says which runs keep the registry right: a rename
undoes every change of the listing since its process has read the file.
-/

namespace Terllama

/-! ## The text of the registry -/

/-- What a block of the registry begins with. -/
def idOpen : Bytes := str "\x7b\"id\""

/-- What a block of the registry ends with. -/
def blockClose : Bytes := str "\x7d"

/-- The blocks that the loop of `cmd_rm` and of `add_model_entry` takes out of a text. Every block
takes a byte at least, so that the length of the text bounds their number. -/
def blocksFrom : Nat → Bytes → List Bytes
  | 0, _ => []
  | fuel + 1, content =>
    match findSub idOpen content with
    | none => []
    | some start =>
      match findSub blockClose (content.drop start) with
      | none => []
      | some len =>
        (content.drop start).take (len + 1) :: blocksFrom fuel (content.drop (start + len + 1))

/-- The blocks of a registry file. -/
def registryBlocks (content : Bytes) : List Bytes := blocksFrom content.length content

/-- The id in a block. -/
def blockId (block : Bytes) : Option Bytes :=
  match findSub (str "\"id\":\"") block with
  | none => none
  | some p =>
    (findSub (str "\"") (block.drop (p + 6))).map fun q => (block.drop (p + 6)).take q

/-- The ids that a registry file lists. -/
def listedIds (content : Bytes) : List Bytes := (registryBlocks content).filterMap blockId

/-- What a registry file begins with. -/
def registryHeader : Bytes := str "\x7b\n  \"models\": [\n"

/-- What a registry file ends with. -/
def registryFooter : Bytes := str "\n  ]\n\x7d\n"

/-! ## The operations -/

/-- `is_valid_hf_repo`. -/
def isValidHfRepo (repo : Bytes) : Bool :=
  !repo.isEmpty && (findSub (str "..") repo).isNone &&
    match repo.idxOf? 47 with
    | none => false
    | some slash =>
      !(repo.drop (slash + 1)).contains 47 &&
        (repo.take slash ++ repo.drop (slash + 1)).all fun c =>
          65 ≤ c && c ≤ 90 || 97 ≤ c && c ≤ 122 || 48 ≤ c && c ≤ 57 || c == 95 || c == 46 || c == 45

/-- `slugify`. -/
def slugify (repo : Bytes) : Bytes := repo.map fun c => if c = 47 then 45 else c

/-- The formats that `pull` records. -/
inductive PullFormat where
  | als
  | gguf
  deriving DecidableEq, Repr

/-- The name of a format. -/
def PullFormat.name : PullFormat → Bytes
  | .als => str "als"
  | .gguf => str "gguf"

/-- What `pull` records of a model that it has downloaded. -/
structure PulledModel where
  hfRepo : Bytes
  valid : isValidHfRepo hfRepo = true
  format : PullFormat
  size : Int
  /-- The text of `strftime`. -/
  timestamp : Bytes
  digits : ∀ c ∈ timestamp, isDigit c = true ∨ c ∈ str "- :"

/-- The id of a pulled model. -/
def PulledModel.modelId (m : PulledModel) : Bytes := slugify m.hfRepo

/-- The block of a pulled model. -/
def PulledModel.entry (m : PulledModel) : Bytes :=
  str "\x7b\"id\":\"" ++ m.modelId ++ str "\",\"format\":\"" ++ m.format.name ++
    str "\",\"size\":" ++ signedDecimal m.size ++ str ",\"downloaded\":\"" ++ m.timestamp ++
    str "\"\x7d"

/-- `add_model_entry`: the text that it writes for the text that it read. -/
def addModelEntry (m : PulledModel) (content : Bytes) : Bytes :=
  let entries := (registryBlocks content).filter (fun block => blockId block != some m.modelId) ++
    [m.entry]
  registryHeader ++ (str ",\n").intercalate (entries.map (str "    " ++ ·)) ++ registryFooter

/-- The blocks that `cmd_rm` writes back. One without an id is left out. -/
def keepsBlock (modelId block : Bytes) : Bool :=
  match blockId block with
  | none => false
  | some existing => existing != modelId

/-- `cmd_rm`: the text that it writes for the text that it read. -/
def removeModelEntry (modelId : Bytes) (content : Bytes) : Bytes :=
  registryHeader ++ (str ",").intercalate ((registryBlocks content).filter (keepsBlock modelId)) ++
    registryFooter

/-- A command that changes the registry. -/
inductive RegistryOp where
  | add (m : PulledModel)
  | rm (modelId : Bytes)

/-- The id that a command is about. -/
def RegistryOp.modelId : RegistryOp → Bytes
  | .add m => m.modelId
  | .rm modelId => modelId

/-- The text that a command writes for the text that it read. -/
def RegistryOp.rewrite : RegistryOp → Bytes → Bytes
  | .add m => addModelEntry m
  | .rm modelId => removeModelEntry modelId

/-! ## What a rewritten file lists -/

/-- A block as the loop takes it: it ends at its first closing brace. -/
def IsBlock (b : Bytes) : Prop := ∃ body, 125 ∉ body ∧ b = idOpen ++ body ++ blockClose

theorem IsBlock.length_pos {b : Bytes} (h : IsBlock b) : 0 < b.length := by
  obtain ⟨body, -, rfl⟩ := h
  exact Nat.zero_lt_succ _

/-- No block begins in a piece. -/
def Blockless (piece : Bytes) : Prop :=
  ∀ s, findSub idOpen (piece ++ s) = (findSub idOpen s).map (piece.length + ·)

theorem blockless_of_not_mem {piece : Bytes} (h : 123 ∉ piece) : Blockless piece :=
  fun s => findSub_append h _ s

theorem blockless_nil : Blockless [] := blockless_of_not_mem List.not_mem_nil

theorem Blockless.append {a b : Bytes} (ha : Blockless a) (hb : Blockless b) :
    Blockless (a ++ b) := by
  intro s
  rw [List.append_assoc, ha, hb, Option.map_map, List.length_append]
  refine congrArg (Option.map · _) (funext fun n => ?_)
  rw [Function.comp_apply]
  omega

/-- The brace of the header is followed by the end of its line. -/
theorem blockless_header : Blockless registryHeader := by
  have hbrace : Blockless (str "\x7b\n") := by
    intro s
    have hfirst : idOpen.isPrefixOf (str "\x7b\n" ++ s) = false := rfl
    have hrest : (123 : UInt8) ∉ str "\n" := by decide
    have hnext := findSub_append hrest (str "\"id\"") s
    change findSub idOpen (123 :: (str "\n" ++ s)) = _
    change idOpen.isPrefixOf (123 :: (str "\n" ++ s)) = false at hfirst
    rw [findSub, hfirst, if_neg (by decide)]
    change (findSub idOpen (str "\n" ++ s)).map (1 + ·) = _
    change findSub idOpen (str "\n" ++ s) = _ at hnext
    rw [hnext, Option.map_map]
    refine congrArg (Option.map · _) (funext fun n => ?_)
    change 1 + (1 + n) = 2 + n
    omega
  have hrest : Blockless (str "  \"models\": [\n") := blockless_of_not_mem (by decide)
  exact hbrace.append hrest

/-- A block is found behind a piece in which none begins. -/
theorem findSub_block {piece b : Bytes} (hpiece : Blockless piece) (hb : IsBlock b) (rest : Bytes) :
    findSub idOpen (piece ++ (b ++ rest)) = some piece.length := by
  obtain ⟨body, -, rfl⟩ := hb
  have hfound : findSub idOpen (idOpen ++ body ++ blockClose ++ rest) = some 0 := rfl
  rw [hpiece, hfound, Option.map_some, Nat.add_zero]

/-- The end of a block is its last byte. -/
theorem findSub_close {b : Bytes} (hb : IsBlock b) (rest : Bytes) :
    ∃ len, findSub blockClose (b ++ rest) = some len ∧ b.length = len + 1 := by
  obtain ⟨body, hbody, rfl⟩ := hb
  have hmem : 125 ∉ idOpen ++ body := by
    rw [List.mem_append, not_or]
    exact ⟨by decide, hbody⟩
  have hlast : findSub blockClose (blockClose ++ rest) = some 0 := rfl
  refine ⟨(idOpen ++ body).length, ?_, ?_⟩
  · rw [List.append_assoc, show blockClose = 125 :: [] from rfl, findSub_append hmem]
    exact congrArg (Option.map _) hlast
  · rw [List.length_append]
    rfl

/-- One turn of the loop. -/
theorem blocksFrom_block {piece b : Bytes} (hpiece : Blockless piece) (hb : IsBlock b)
    (rest : Bytes) (fuel : Nat) :
    blocksFrom (fuel + 1) (piece ++ (b ++ rest)) = b :: blocksFrom fuel rest := by
  obtain ⟨len, hlen, hlength⟩ := findSub_close hb rest
  have hdrop : (piece ++ (b ++ rest)).drop piece.length = b ++ rest := List.drop_left
  have hrest : (piece ++ (b ++ rest)).drop (piece.length + len + 1) = rest := by
    rw [Nat.add_assoc, ← hlength, ← List.append_assoc, ← List.length_append, List.drop_left]
  rw [blocksFrom, findSub_block hpiece hb]
  simp only
  rw [hdrop, hlen]
  simp only
  rw [hrest, ← hlength, List.take_left]

/-- The loop ends at a piece in which no block begins. -/
theorem blocksFrom_blockless {piece : Bytes} (hpiece : Blockless piece) (fuel : Nat) :
    blocksFrom fuel piece = [] := by
  have hnone : findSub idOpen piece = none := by
    have h := hpiece []
    rwa [List.append_nil] at h
  cases fuel with
  | zero => rfl
  | succ fuel => rw [blocksFrom, hnone]

/-- The loop takes out the blocks between which none begins. -/
theorem blocksFrom_flatMap {sep footer : Bytes} (hsep : Blockless sep) (hfooter : Blockless footer)
    {bs : List Bytes} (hbs : ∀ b ∈ bs, IsBlock b) {fuel : Nat} (hfuel : bs.length ≤ fuel) :
    blocksFrom fuel (bs.flatMap (sep ++ ·) ++ footer) = bs := by
  induction bs generalizing fuel with
  | nil => exact blocksFrom_blockless hfooter fuel
  | cons b bs ih =>
    obtain ⟨fuel, rfl⟩ : ∃ n, fuel = n + 1 := Nat.exists_eq_add_of_le' (Nat.zero_lt_of_lt hfuel)
    have hrest := ih (fun b' hb' => hbs b' (List.mem_cons_of_mem _ hb'))
      (Nat.le_of_succ_le_succ hfuel)
    rw [List.flatMap_cons, List.append_assoc, List.append_assoc,
      blocksFrom_block hsep (hbs b List.mem_cons_self), hrest]

/-- The text that is found stands where it is found. -/
theorem append_drop_of_findSub {pat s : Bytes} {n : Nat} (h : findSub pat s = some n) :
    ∃ rest, s.drop n = pat ++ rest := by
  induction s generalizing n with
  | nil =>
    rw [findSub] at h
    split at h
    · next hpat => exact ⟨[], by rw [List.isEmpty_iff.1 hpat, List.drop_nil]; rfl⟩
    · cases h
  | cons c s ih =>
    rw [findSub] at h
    split at h
    · next hpat =>
      obtain ⟨rest, hrest⟩ := List.isPrefixOf_iff_prefix.1 hpat
      cases h
      exact ⟨rest, hrest.symm⟩
    · obtain ⟨m, hm, rfl⟩ := Option.map_eq_some_iff.1 h
      rw [Nat.add_comm, List.drop_succ_cons]
      exact ih hm

/-- A byte is found where it stands first. -/
theorem not_mem_take_of_findSub {c : UInt8} {s : Bytes} {n : Nat} (h : findSub [c] s = some n) :
    c ∉ s.take n := by
  induction s generalizing n with
  | nil => cases h
  | cons d s ih =>
    rw [findSub] at h
    split at h
    · cases h
      exact List.not_mem_nil
    · next hne =>
      obtain ⟨m, hm, rfl⟩ := Option.map_eq_some_iff.1 h
      rw [Nat.add_comm, List.take_succ_cons, List.mem_cons, not_or]
      refine ⟨?_, ih hm⟩
      rintro rfl
      simp at hne

/-- What the loop takes out are blocks. -/
theorem isBlock_of_mem_blocksFrom {fuel : Nat} {content b : Bytes}
    (h : b ∈ blocksFrom fuel content) : IsBlock b := by
  induction fuel generalizing content with
  | zero => cases h
  | succ fuel ih =>
    rw [blocksFrom] at h
    split at h
    · cases h
    · next start hstart =>
      split at h
      · cases h
      · next len hlen =>
        rcases List.mem_cons.1 h with rfl | h
        · obtain ⟨rest, hrest⟩ := append_drop_of_findSub hstart
          obtain ⟨tail, htail⟩ := append_drop_of_findSub hlen
          have hopen : 125 ∉ idOpen := by decide
          have hfirst := not_mem_take_of_findSub hlen
          rw [hrest] at hlen htail hfirst ⊢
          rw [show blockClose = 125 :: [] from rfl, findSub_append hopen, Option.map_eq_some_iff]
            at hlen
          obtain ⟨m, -, rfl⟩ := hlen
          rw [List.take_length_add_append] at hfirst
          refine ⟨rest.take m, fun hmem => hfirst (List.mem_append_right _ hmem), ?_⟩
          rw [List.drop_length_add_append] at htail
          rw [Nat.add_assoc, List.take_length_add_append, List.take_add, htail, List.append_assoc]
          rfl
        · exact ih h

/-! ## The ids of a rewritten file -/

/-- A list with a separator between its elements. -/
theorem intercalate_cons_eq (sep b : Bytes) (bs : List Bytes) :
    sep.intercalate (b :: bs) = b ++ bs.flatMap (sep ++ ·) := by
  induction bs generalizing b with
  | nil => simp
  | cons b' bs ih =>
    rw [List.intercalate_cons_cons, ih, List.flatMap_cons]
    simp only [List.append_assoc]

/-- A text with blocks between pieces in which none begins has these blocks. -/
theorem registryBlocks_intercalate {header indent sep footer : Bytes} (hheader : Blockless header)
    (hindent : Blockless indent) (hsep : Blockless sep) (hfooter : Blockless footer)
    {bs : List Bytes} (hbs : ∀ b ∈ bs, IsBlock b) :
    registryBlocks (header ++ sep.intercalate (bs.map (indent ++ ·)) ++ footer) = bs := by
  cases bs with
  | nil => exact blocksFrom_blockless ((hheader.append blockless_nil).append hfooter) _
  | cons b bs =>
    have hlength : ∀ {cs : List Bytes}, (∀ c ∈ cs, IsBlock c) →
        cs.length ≤ (cs.flatMap (sep ++ indent ++ ·)).length := by
      intro cs hcs
      induction cs with
      | nil => exact Nat.zero_le _
      | cons c cs ih =>
        have hrest := ih fun c' hc' => hcs c' (List.mem_cons_of_mem _ hc')
        have hfirst := (hcs c List.mem_cons_self).length_pos
        rw [List.flatMap_cons, List.length_append, List.length_append, List.length_cons]
        omega
    have hrest : ∀ c ∈ bs, IsBlock c := fun c hc => hbs c (List.mem_cons_of_mem _ hc)
    have htext : header ++ sep.intercalate ((b :: bs).map (indent ++ ·)) ++ footer =
        (header ++ indent) ++ (b ++ (bs.flatMap (sep ++ indent ++ ·) ++ footer)) := by
      rw [List.map_cons, intercalate_cons_eq, List.flatMap_map]
      simp only [List.append_assoc]
    have hb := (hbs b List.mem_cons_self).length_pos
    have hbs' := hlength hrest
    obtain ⟨fuel, hle, hfuel⟩ : ∃ fuel, bs.length ≤ fuel ∧ ((header ++ indent) ++
        (b ++ (bs.flatMap (sep ++ indent ++ ·) ++ footer))).length = fuel + 1 := by
      refine ⟨_, Nat.le_pred_of_lt ?_, (Nat.succ_pred_eq_of_pos ?_).symm⟩
      all_goals
        simp only [List.length_append] at hbs' ⊢
        omega
    rw [registryBlocks, htext, hfuel,
      blocksFrom_block (hheader.append hindent) (hbs b List.mem_cons_self),
      blocksFrom_flatMap (hsep.append hindent) hfooter hrest hle]

/-- A slug has neither quotes nor braces. -/
theorem not_mem_slugify {repo : Bytes} (h : isValidHfRepo repo = true) {c : UInt8}
    (hc : c = 34 ∨ c = 125) : c ∉ slugify repo := by
  rw [slugify, List.mem_map]
  rintro ⟨d, hd, rfl⟩
  have hslash : d ≠ 47 := by
    rintro rfl
    revert hc
    decide
  rw [if_neg hslash] at hc
  rw [isValidHfRepo, Bool.and_eq_true] at h
  have h := h.2
  split at h
  · cases h
  · next slash hslash' =>
    obtain ⟨hlt, hget, -⟩ := List.idxOf?_eq_some_iff.1 hslash'
    have hsplit : repo.take slash ++ 47 :: repo.drop (slash + 1) = repo := by
      rw [← hget, ← List.drop_eq_getElem_cons hlt, List.take_append_drop]
    rw [Bool.and_eq_true, List.all_eq_true] at h
    have hmem : d ∈ repo.take slash ++ repo.drop (slash + 1) := by
      rw [← hsplit] at hd
      simpa [hslash] using hd
    have hsafe := h.2 d hmem
    revert hsafe
    rcases hc with rfl | rfl <;> decide

/-- The entry of a pulled model is a block. -/
theorem PulledModel.isBlock_entry (m : PulledModel) : IsBlock m.entry := by
  refine ⟨str ":\"" ++ m.modelId ++ str "\",\"format\":\"" ++ m.format.name ++ str "\",\"size\":" ++
    signedDecimal m.size ++ str ",\"downloaded\":\"" ++ m.timestamp ++ str "\"", ?_, ?_⟩
  · have hid : 125 ∉ m.modelId := not_mem_slugify m.valid (.inr rfl)
    have hformat : 125 ∉ m.format.name := by cases m.format <;> decide
    have hsize : 125 ∉ signedDecimal m.size := by
      intro hmem
      have := mem_signedDecimal hmem
      revert this
      decide
    have htimestamp : 125 ∉ m.timestamp := by
      intro hmem
      have := m.digits _ hmem
      revert this
      decide
    simp only [List.mem_append, not_or]
    exact ⟨⟨⟨⟨⟨⟨⟨⟨by decide, hid⟩, by decide⟩, hformat⟩, by decide⟩, hsize⟩, by decide⟩,
      htimestamp⟩, by decide⟩
  · simp only [PulledModel.entry, List.append_assoc]
    rfl

/-- The id of a pulled model is read back from its entry. -/
theorem PulledModel.blockId_entry (m : PulledModel) : blockId m.entry = some m.modelId := by
  obtain ⟨rest, hrest⟩ : ∃ rest, m.entry = str "\x7b" ++ (str "\"id\":\"" ++ (m.modelId ++
      (34 :: rest))) := by
    refine ⟨str ",\"format\":\"" ++ (m.format.name ++ (str "\",\"size\":" ++
      (signedDecimal m.size ++ (str ",\"downloaded\":\"" ++ (m.timestamp ++ str "\"\x7d"))))), ?_⟩
    simp only [PulledModel.entry, List.append_assoc]
    rfl
  have hid : 34 ∉ m.modelId := not_mem_slugify m.valid (.inl rfl)
  have hkey : findSub (str "\"id\":\"") m.entry = some 1 := by
    rw [hrest]
    rfl
  have hdrop : m.entry.drop (1 + 6) = m.modelId ++ 34 :: rest := by
    rw [hrest]
    rfl
  have hquote : findSub (str "\"") (m.modelId ++ 34 :: rest) = some m.modelId.length :=
    findSub_append hid [] (34 :: rest)
  rw [blockId, hkey]
  simp only
  rw [hdrop, hquote, Option.map_some, List.take_left]

/-- The blocks of the file that `add_model_entry` writes. -/
theorem registryBlocks_addModelEntry (m : PulledModel) (content : Bytes) :
    registryBlocks (addModelEntry m content) =
      (registryBlocks content).filter (fun block => blockId block != some m.modelId) ++
        [m.entry] := by
  refine registryBlocks_intercalate blockless_header (blockless_of_not_mem (by decide))
    (blockless_of_not_mem (by decide)) (blockless_of_not_mem (by decide)) fun b hb => ?_
  rcases List.mem_append.1 hb with hb | hb
  · exact isBlock_of_mem_blocksFrom (List.mem_filter.1 hb).1
  · rw [List.mem_singleton.1 hb]
    exact m.isBlock_entry

/-- The blocks of the file that `cmd_rm` writes. -/
theorem registryBlocks_removeModelEntry (modelId content : Bytes) :
    registryBlocks (removeModelEntry modelId content) =
      (registryBlocks content).filter (keepsBlock modelId) := by
  have hblocks := fun b (hb : b ∈ (registryBlocks content).filter (keepsBlock modelId)) =>
    isBlock_of_mem_blocksFrom (List.mem_filter.1 hb).1
  have hcomma : Blockless (str ",") := blockless_of_not_mem (by decide)
  have hfooter : Blockless registryFooter := blockless_of_not_mem (by decide)
  have h := registryBlocks_intercalate blockless_header blockless_nil hcomma hfooter hblocks
  simp only [List.nil_append, List.map_id'] at h
  exact h

/-- After an add the file lists the id and what the text that was read lists. -/
theorem mem_listedIds_addModelEntry (m : PulledModel) (content id : Bytes) :
    id ∈ listedIds (addModelEntry m content) ↔ id = m.modelId ∨ id ∈ listedIds content := by
  unfold listedIds
  rw [registryBlocks_addModelEntry, List.filterMap_append, List.mem_append, List.filterMap_cons,
    m.blockId_entry, List.filterMap_nil, List.mem_singleton]
  simp only [List.mem_filterMap, List.mem_filter, bne_iff_ne]
  constructor
  · rintro (⟨b, ⟨hb, -⟩, hid⟩ | rfl)
    · exact .inr ⟨b, hb, hid⟩
    · exact .inl rfl
  · rintro (rfl | ⟨b, hb, hid⟩)
    · exact .inr rfl
    · by_cases heq : id = m.modelId
      · exact .inr heq
      · refine .inl ⟨b, ⟨hb, ?_⟩, hid⟩
        rw [hid]
        exact fun h => heq (Option.some_injective _ h)

/-- After a removal the file lists what the text that was read lists, but for the id. -/
theorem mem_listedIds_removeModelEntry (modelId content id : Bytes) :
    id ∈ listedIds (removeModelEntry modelId content) ↔ id ≠ modelId ∧ id ∈ listedIds content := by
  unfold listedIds
  rw [registryBlocks_removeModelEntry]
  simp only [List.mem_filterMap, List.mem_filter]
  constructor
  · rintro ⟨b, ⟨hb, hkeeps⟩, hid⟩
    rw [keepsBlock, hid] at hkeeps
    exact ⟨bne_iff_ne.1 hkeeps, b, hb, hid⟩
  · rintro ⟨hne, b, hb, hid⟩
    refine ⟨b, ⟨hb, ?_⟩, hid⟩
    rw [keepsBlock, hid]
    exact bne_iff_ne.2 hne

/-! ## Processes -/

/-- The registry file, the commands that have read it and not yet renamed theirs over it, with the
text that each read, and the commands that have completed, the last first. -/
structure RegistryState where
  file : Option Bytes := none
  pending : Nat → Option (RegistryOp × Bytes) := fun _ => none
  completed : List RegistryOp := []

/-- The text that a process reads, empty without a file. -/
def RegistryState.content (s : RegistryState) : Bytes := s.file.getD []

/-- A process reads the registry, or renames its new file over it, or fails to write that file. -/
inductive RegistryEvent where
  | read (pid : Nat) (op : RegistryOp)
  | rename (pid : Nat)
  | fail (pid : Nat)

/-- One step of a process. `cmd_rm` is done where there is no file. -/
def RegistryState.step (s : RegistryState) : RegistryEvent → Option RegistryState
  | .read pid op =>
    match s.pending pid with
    | some _ => none
    | none =>
      match op, s.file with
      | .rm modelId, none => some { s with completed := .rm modelId :: s.completed }
      | op, file =>
        some { s with pending := Function.update s.pending pid (some (op, file.getD [])) }
  | .rename pid =>
    match s.pending pid with
    | none => none
    | some (op, content) =>
      some {
        file := some (op.rewrite content)
        pending := Function.update s.pending pid none
        completed := op :: s.completed }
  | .fail pid =>
    match s.pending pid with
    | none => none
    | some _ => some { s with pending := Function.update s.pending pid none }

/-- The last completed command about an id was an add; an id without one is listed as before. -/
def LastAdded (before : Bytes) : List RegistryOp → Bytes → Prop
  | [], id => id ∈ listedIds before
  | .add m :: ops, id => id = m.modelId ∨ LastAdded before ops id
  | .rm modelId :: ops, id => id ≠ modelId ∧ LastAdded before ops id

/-- The registry lists exactly the ids whose last completed command was an add. -/
def RegistryState.Current (before : Bytes) (s : RegistryState) : Prop :=
  ∀ id, id ∈ listedIds s.content ↔ LastAdded before s.completed id

/-- The text that a process read lists what the file lists when it renames, but for its own id. -/
def RegistryState.Fresh (s : RegistryState) : RegistryEvent → Prop
  | .rename pid => ∀ op content, s.pending pid = some (op, content) →
      ∀ id, id ≠ op.modelId → (id ∈ listedIds content ↔ id ∈ listedIds s.content)
  | _ => True

/-- What a command makes of the listing of the text that it read. -/
theorem RegistryOp.mem_listedIds_rewrite (op : RegistryOp) (before content : Bytes)
    (ops : List RegistryOp) {id : Bytes} (h : id ∈ listedIds content ↔ LastAdded before ops id) :
    id ∈ listedIds (op.rewrite content) ↔ LastAdded before (op :: ops) id := by
  cases op with
  | add m => exact (mem_listedIds_addModelEntry m content id).trans (or_congr_right h)
  | rm modelId =>
    exact (mem_listedIds_removeModelEntry modelId content id).trans (and_congr_right' h)

/-- For its own id what a command read makes no difference. -/
theorem RegistryOp.mem_listedIds_self (op : RegistryOp) (before content : Bytes)
    (ops : List RegistryOp) :
    op.modelId ∈ listedIds (op.rewrite content) ↔ LastAdded before (op :: ops) op.modelId := by
  cases op with
  | add m => exact iff_of_true ((mem_listedIds_addModelEntry m content _).2 (.inl rfl)) (.inl rfl)
  | rm modelId =>
    exact iff_of_false (fun h => ((mem_listedIds_removeModelEntry modelId content _).1 h).1 rfl)
      fun h => h.1 rfl

/-- For the ids that it is not about a command keeps what it read. -/
theorem RegistryOp.mem_listedIds_of_ne (op : RegistryOp) (content : Bytes) {id : Bytes}
    (h : id ≠ op.modelId) : id ∈ listedIds (op.rewrite content) ↔ id ∈ listedIds content := by
  cases op with
  | add m => exact (mem_listedIds_addModelEntry m content id).trans (or_iff_right h)
  | rm modelId => exact (mem_listedIds_removeModelEntry modelId content id).trans (and_iff_right h)

theorem LastAdded.cons_of_ne {before id : Bytes} {op : RegistryOp} (h : id ≠ op.modelId)
    (ops : List RegistryOp) : LastAdded before (op :: ops) id ↔ LastAdded before ops id := by
  cases op with
  | add m => exact or_iff_right h
  | rm modelId => exact and_iff_right h

/-- From a state with a current registry, one step leads to a current registry exactly where it is
fresh. -/
theorem RegistryState.current_step_iff {before : Bytes} {s s' : RegistryState} {e : RegistryEvent}
    (h : s.Current before) (hstep : s.step e = some s') : s'.Current before ↔ s.Fresh e := by
  cases e with
  | read pid op =>
    refine iff_of_true ?_ trivial
    simp only [step] at hstep
    split at hstep
    · cases hstep
    · split at hstep
      · next modelId hfile =>
        cases hstep
        intro id
        have hcontent : listedIds s.content = [] := by rw [content, hfile]; rfl
        have hid := h id
        rw [hcontent] at hid
        show id ∈ listedIds s.content ↔ id ≠ modelId ∧ LastAdded before s.completed id
        rw [hcontent, ← hid]
        simp
      · cases hstep
        exact h
  | rename pid =>
    rw [RegistryState.step] at hstep
    split at hstep
    · cases hstep
    · next op content hpending =>
      cases hstep
      constructor
      · intro hcurrent op' content' hpending' id hne
        cases hpending.symm.trans hpending'
        have hid : id ∈ listedIds (op.rewrite content) ↔ LastAdded before (op :: s.completed) id :=
          hcurrent id
        rw [op.mem_listedIds_of_ne content hne, LastAdded.cons_of_ne hne] at hid
        exact hid.trans (h id).symm
      · intro hfresh id
        show id ∈ listedIds (op.rewrite content) ↔ LastAdded before (op :: s.completed) id
        by_cases hid : id = op.modelId
        · subst hid
          exact op.mem_listedIds_self before content s.completed
        · rw [op.mem_listedIds_of_ne content hid, LastAdded.cons_of_ne hid]
          exact (hfresh op content hpending id hid).trans (h id)
  | fail pid =>
    refine iff_of_true ?_ trivial
    rw [RegistryState.step] at hstep
    split at hstep
    · cases hstep
    · cases hstep
      exact h

/-- The registry stays current through a run of any processes exactly where each renames its file
while the text that it read still lists, but for its own id, what the registry lists. -/
theorem registry_current_iff (file : Option Bytes) (events : List RegistryEvent) :
    Always RegistryState.step (RegistryState.Current (file.getD [])) events { file } ↔
      EachStep RegistryState.step RegistryState.Fresh events { file } :=
  always_iff_eachStep (I := RegistryState.Current (file.getD []))
    (fun _ _ _ hcurrent hfresh hstep => (RegistryState.current_step_iff hcurrent hstep).2 hfresh)
    (fun _ _ _ hcurrent hstep => RegistryState.current_step_iff hcurrent hstep)
    (fun _ => Iff.rfl) fun _ => Iff.rfl

/-- The first of two models that are pulled at the same time. -/
def pulledTinyLlama : PulledModel where
  hfRepo := str "TinyLlama/TinyLlama-1.1B-Chat-v1.0"
  valid := by decide
  format := .als
  size := 145752064
  timestamp := str "2025-01-01 12:00:00"
  digits := by decide +kernel

/-- The second of two models that are pulled at the same time. -/
def pulledSmolLM2 : PulledModel where
  hfRepo := str "HuggingFaceTB/SmolLM2-135M"
  valid := by decide
  format := .als
  size := 56623104
  timestamp := str "2025-01-01 12:00:01"
  digits := by decide +kernel

/-- Two processes pull one model each and both read the registry before either renames. The entry of
the first is lost. -/
theorem not_current_twoPulls :
    pulledTinyLlama.modelId ≠ pulledSmolLM2.modelId ∧
      ¬ Always RegistryState.step (RegistryState.Current [])
        [.read 1 (.add pulledTinyLlama), .read 2 (.add pulledSmolLM2), .rename 1, .rename 2]
        {} := by
  have hne : pulledTinyLlama.modelId ≠ pulledSmolLM2.modelId := by decide
  refine ⟨hne, fun h => ?_⟩
  have hlast := h.last rfl
  have hadded := (hlast pulledTinyLlama.modelId).2 (.inr (.inl rfl))
  rcases (mem_listedIds_addModelEntry pulledSmolLM2 [] _).1 hadded with hid | hid
  · exact hne hid
  · cases hid

end Terllama
