import Terllama.Cli.Registry

/-!
# The registry as a map

The calls of `add_model_entry`, `cmd_rm` and `cmd_list` of one process (`src/cli/commands.cpp`).
`cmd_list` finds the fields of a block by their quoted names, each writer lays the file out in its
own way, and `write_state_file` may fail at each of its steps. `registry_is_map` is that the listing
is nevertheless that of a map from ids to formats and sizes.
-/

namespace Terllama

/-! ## Writing a state file -/

/-- The files that `write_state_file` touches: the registry and the new one next to it. -/
structure RegistryFiles where
  registry : Option Bytes := none
  tmp : Option Bytes := none
  deriving DecidableEq, Repr

/-- What a call of `write` does. -/
inductive WriteResult where
  | wrote (n : Nat)
  /-- `EINTR`. -/
  | interrupted
  | failed
  deriving DecidableEq, Repr

/-- What the system calls of `write_state_file` do: `open`, the calls of `write` (the last of them
writes what is left) and `rename`. The results of `fsync` and `close` make no difference. -/
structure WriteOutcome where
  opens : Bool
  writes : List WriteResult
  renames : Bool
  deriving DecidableEq, Repr

/-- The loop over the calls of `write`: what is in the file at its end, `none` where one fails. -/
def writeLoop : List WriteResult → Bytes → Bytes → Option Bytes
  | [], rest, written => some (written ++ rest)
  | r :: rs, rest, written =>
    if rest.isEmpty then some written
    else
      match r with
      | .wrote n => writeLoop rs (rest.drop n) (written ++ rest.take n)
      | .interrupted => writeLoop rs rest written
      | .failed => none

/-- `write_state_file`. -/
def writeStateFile (w : WriteOutcome) (content : Bytes) (files : RegistryFiles) :
    Bool × RegistryFiles :=
  if !w.opens then (false, files)
  else
    match writeLoop w.writes content [] with
    | none => (false, { files with tmp := none })
    | some written =>
      if !w.renames then (false, { files with tmp := none })
      else (true, ⟨some written, none⟩)

/-! ## The commands -/

/-- The bytes of ids and formats. -/
def isIdByte (c : UInt8) : Bool :=
  65 ≤ c && c ≤ 90 || 97 ≤ c && c ≤ 122 || 48 ≤ c && c ≤ 57 || c == 95 || c == 46 || c == 45

/-- What `add_model_entry` is called with, and the text that `strftime` gives it. -/
structure ModelEntry where
  modelId : Bytes
  format : Bytes
  size : Int
  timestamp : Bytes
  id_ne_nil : modelId ≠ []
  id_bytes : ∀ c ∈ modelId, isIdByte c = true
  format_bytes : ∀ c ∈ format, isIdByte c = true
  /-- An `int64_t`. -/
  size_range : -9223372036854775808 ≤ size ∧ size ≤ 9223372036854775807
  timestamp_bytes : ∀ c ∈ timestamp, c ≠ 34 ∧ c ≠ 125

/-- `new_entry`. -/
def ModelEntry.block (e : ModelEntry) : Bytes :=
  str "\x7b\"id\":\"" ++ e.modelId ++ str "\",\"format\":\"" ++ e.format ++
    str "\",\"size\":" ++ signedDecimal e.size ++ str ",\"downloaded\":\"" ++ e.timestamp ++
    str "\"\x7d"

/-- The text that `add_model_entry` writes for the text that it read. -/
def addEntry (e : ModelEntry) (content : Bytes) : Bytes :=
  let entries := (registryBlocks content).filter (fun block => blockId block != some e.modelId) ++
    [e.block]
  registryHeader ++ (str ",\n").intercalate (entries.map (str "    " ++ ·)) ++ registryFooter

/-- `sanitize_model_id`. -/
def sanitizeModelId (id : Bytes) : Bytes :=
  if id.isEmpty then []
  else if (findSub (str "..") id).isSome then []
  else if (findSub (str "/") id).isSome then []
  else if (findSub (str "\\") id).isSome then []
  else id

/-- A call of one of the commands that change the registry, with what the system does. For `cmd_rm`
that is first whether the directory of the model is there, inside the models directory. -/
inductive CliCall where
  | add (e : ModelEntry) (w : WriteOutcome)
  | rm (modelId : Bytes) (found : Bool) (w : WriteOutcome)

/-- A call: whether it succeeds, and the files after it. -/
def CliCall.run (files : RegistryFiles) : CliCall → Bool × RegistryFiles
  | .add e w => writeStateFile w (addEntry e (files.registry.getD [])) files
  | .rm modelId found w =>
    if (sanitizeModelId modelId).isEmpty || !found then (false, files)
    else
      match files.registry with
      | none => (true, files)
      | some content => writeStateFile w (removeModelEntry modelId content) files

/-- The files, and the calls that have succeeded, the last first. -/
structure CliState where
  files : RegistryFiles := {}
  succeeded : List CliCall := []

/-- A call, from a state. -/
def CliState.step (s : CliState) (call : CliCall) : CliState :=
  let (succeeds, files) := call.run s.files
  { files := files
    succeeded := if succeeds then call :: s.succeeded else s.succeeded }

/-- The calls of a process, from the state without a registry. -/
def CliState.run (calls : List CliCall) : CliState := calls.foldl CliState.step {}

/-- The format and the size of the last call about an id, where that call was an add. -/
def lastAdd : List CliCall → Bytes → Option (Bytes × Int)
  | [], _ => none
  | .add e _ :: calls, id => if id = e.modelId then some (e.format, e.size) else lastAdd calls id
  | .rm modelId _ _ :: calls, id => if id = modelId then none else lastAdd calls id

/-- What `cmd_list` reads of a block. -/
structure ListedModel where
  id : Bytes
  format : Bytes
  size : Int
  timestamp : Bytes
  deriving DecidableEq, Repr

/-- `extract`. -/
def extractField (block key : Bytes) : Bytes :=
  let search := str "\"" ++ key ++ str "\":\""
  match findSub search block with
  | none => []
  | some p =>
    match findSub (str "\"") (block.drop (p + search.length)) with
    | none => []
    | some q => (block.drop (p + search.length)).take q

/-- `extract_num`. -/
def extractNum (block key : Bytes) : Exec Int :=
  let search := str "\"" ++ key ++ str "\":"
  match findSub search block with
  | none => .ok 0
  | some p =>
    match (block.drop (p + search.length)).findIdx? fun c => c == 44 || c == 125 with
    | none => .ok 0
    | some q => stoll ((block.drop (p + search.length)).take q)

/-- The body of the loop of `cmd_list`; a block without an id is not listed. -/
def listBlock (block : Bytes) : Exec (List ListedModel) := do
  let id := extractField block (str "id")
  let fmt := extractField block (str "format")
  let sz ← extractNum block (str "size")
  let ts := extractField block (str "downloaded")
  return if id.isEmpty then [] else [⟨id, fmt, sz, ts⟩]

/-- `cmd_list`: what it lists, where the models directory is there. -/
def cmdList (dirThere : Bool) (registry : Option Bytes) : Exec (List ListedModel) :=
  if !dirThere then .ok []
  else
    match registry with
    | none => .ok []
    | some content => do
      let lists ← (registryBlocks content).mapM listBlock
      return lists.flatten

/-! ## Fields between quotes -/

/-- The pattern is found, and what follows it. -/
def Found (pat text rest : Bytes) : Prop :=
  ∃ p, findSub pat text = some p ∧ text.drop (p + pat.length) = rest

section
variable {pat text rest : Bytes}

theorem found_here (c : UInt8) (pat rest : Bytes) : Found (c :: pat) (c :: pat ++ rest) rest := by
  refine ⟨0, ?_, ?_⟩
  · rw [List.cons_append, findSub, ← List.cons_append,
      if_pos (List.isPrefixOf_iff_prefix.2 (List.prefix_append _ _))]
  · rw [Nat.zero_add, List.drop_left]

/-- Behind a piece in which it does not begin. -/
theorem Found.behind {piece : Bytes} (h : Found pat text rest)
    (hpiece : findSub pat (piece ++ text) = (findSub pat text).map (piece.length + ·)) :
    Found pat (piece ++ text) rest := by
  obtain ⟨p, hp, hrest⟩ := h
  refine ⟨piece.length + p, by rw [hpiece, hp, Option.map_some], ?_⟩
  rw [Nat.add_assoc, List.drop_length_add_append, hrest]

theorem Found.behind_bytes {piece : Bytes} (h : Found (34 :: pat) text rest) (hpiece : 34 ∉ piece) :
    Found (34 :: pat) (piece ++ text) rest :=
  h.behind (findSub_append hpiece pat text)

/-- Quoted texts are the same up to their closing quotes. -/
theorem quoted_inj {key val xs ys : Bytes} (hkey : 34 ∉ key) (hval : 34 ∉ val)
    (h : key ++ 34 :: xs = val ++ 34 :: ys) : key = val ∧ xs = ys := by
  have htake : ∀ {zs : Bytes} (us : Bytes), 34 ∉ zs →
      (zs ++ 34 :: us).takeWhile (· != 34) = zs := by
    intro zs us hzs
    have hall : ∀ c ∈ zs, (c != 34) = true := by
      intro c hc
      rw [bne_iff_ne]
      rintro rfl
      exact hzs hc
    rw [List.takeWhile_append_of_pos hall, List.takeWhile_cons_of_neg (by decide), List.append_nil]
  have heq : key = val := by rw [← htake xs hkey, h, htake ys hval]
  subst heq
  exact ⟨rfl, (List.cons.inj (List.append_cancel_left h)).2⟩

/-- A quoted text is passed over where the pattern is another one: it differs in the text, or in the
byte behind the closing quote. -/
theorem findSub_quoted {key val more : Bytes} {c d : UInt8} (hkey : 34 ∉ key) (hval : 34 ∉ val)
    (hc : c ∉ key) (hne : key ≠ []) (hdiff : key ≠ val ∨ d ≠ c) (s : Bytes) :
    findSub (34 :: (key ++ 34 :: d :: more)) (34 :: (val ++ [34]) ++ c :: s) =
      (findSub (34 :: (key ++ 34 :: d :: more)) (c :: s)).map
        ((34 :: (val ++ [34])).length + ·) := by
  have hopen : (34 :: (key ++ 34 :: d :: more)).isPrefixOf (34 :: (val ++ 34 :: c :: s)) =
      false := by
    rw [Bool.eq_false_iff]
    intro hpre
    obtain ⟨t, ht⟩ := List.isPrefixOf_iff_prefix.1 hpre
    rw [List.cons_append, List.append_assoc] at ht
    obtain ⟨hval, hbyte⟩ := quoted_inj hkey hval (List.cons.inj ht).2
    rcases hdiff with hne | hne
    · exact hne hval
    · exact hne (List.cons.inj hbyte).1
  have hclose : (34 :: (key ++ 34 :: d :: more)).isPrefixOf (34 :: c :: s) = false := by
    rw [Bool.eq_false_iff]
    intro hpre
    obtain ⟨t, ht⟩ := List.isPrefixOf_iff_prefix.1 hpre
    cases key with
    | nil => exact hne rfl
    | cons k key =>
      obtain rfl : k = c := (List.cons.inj (List.cons.inj ht).2).1
      exact hc List.mem_cons_self
  have htext : 34 :: (val ++ [34]) ++ c :: s = 34 :: (val ++ 34 :: c :: s) := by simp
  rw [htext, findSub, hopen, if_neg Bool.false_ne_true, findSub_append hval, findSub, hclose,
    if_neg Bool.false_ne_true, Option.map_map, Option.map_map]
  refine congrArg (Option.map · _) (funext fun n => ?_)
  simp only [Function.comp_apply, List.length_cons, List.length_append, List.length_nil]
  omega

theorem Found.behind_quoted {key val more s : Bytes} {c d : UInt8}
    (h : Found (34 :: (key ++ 34 :: d :: more)) (c :: s) rest) (hkey : 34 ∉ key ∧ key ≠ [])
    (hval : 34 ∉ val) (hc : c ∉ key) (hdiff : key ≠ val ∨ d ≠ c) :
    Found (34 :: (key ++ 34 :: d :: more)) (34 :: (val ++ 34 :: c :: s)) rest := by
  have hbehind := h.behind (findSub_quoted hkey.1 hval hc hkey.2 hdiff s)
  have htext : 34 :: (val ++ [34]) ++ c :: s = 34 :: (val ++ 34 :: c :: s) := by simp
  rwa [htext] at hbehind

theorem extractField_eq {block key value : Bytes} (hvalue : 34 ∉ value)
    (h : Found (str "\"" ++ key ++ str "\":\"") block (value ++ 34 :: rest)) :
    extractField block key = value := by
  obtain ⟨p, hp, hrest⟩ := h
  have hquote : findSub (str "\"") (value ++ 34 :: rest) = some value.length :=
    findSub_append hvalue [] (34 :: rest)
  unfold extractField
  simp only [hp, hrest, hquote, List.take_left]

theorem extractNum_eq {block key value : Bytes} (hvalue : 44 ∉ value ∧ 125 ∉ value)
    (h : Found (str "\"" ++ key ++ str "\":") block (value ++ 44 :: rest)) :
    extractNum block key = stoll value := by
  obtain ⟨p, hp, hrest⟩ := h
  have hend : (value ++ 44 :: rest).findIdx? (fun c => c == 44 || c == 125) =
      some value.length := by
    have hnone : value.findIdx? (fun c => c == 44 || c == 125) = none := by
      rw [List.findIdx?_eq_none_iff]
      intro c hc
      rw [Bool.eq_false_iff, ne_eq, Bool.or_eq_true, beq_iff_eq, beq_iff_eq]
      rintro (rfl | rfl)
      · exact hvalue.1 hc
      · exact hvalue.2 hc
    rw [List.findIdx?_append, hnone, List.findIdx?_cons]
    simp
  unfold extractNum
  simp only [hp, hrest, hend, List.take_left]

/-- Behind a field with another key, and the comma that follows it. -/
theorem Found.behind_field {key more k v s : Bytes}
    (h : Found (34 :: (key ++ 34 :: 58 :: more)) (34 :: s) rest) (hkey : 34 ∉ key ∧ key ≠ [])
    (hsep : 58 ∉ key ∧ 44 ∉ key) (hk : 34 ∉ k) (hne : key ≠ k) (hv : 34 ∉ v) :
    Found (34 :: (key ++ 34 :: 58 :: more))
      (34 :: (k ++ 34 :: 58 :: 34 :: (v ++ 34 :: 44 :: 34 :: s))) rest := by
  have hcomma : Found (34 :: (key ++ 34 :: 58 :: more)) ([44] ++ 34 :: s) rest :=
    h.behind_bytes (by decide)
  have hvalue := Found.behind_quoted hcomma hkey hv hsep.2 (.inr (by decide))
  have hcolon : Found (34 :: (key ++ 34 :: 58 :: more))
      ([58] ++ 34 :: (v ++ 34 :: 44 :: 34 :: s)) rest := hvalue.behind_bytes (by decide)
  exact Found.behind_quoted hcolon hkey hk hsep.1 (.inl hne)

end

/-! ## The block of an entry -/

section
variable (e : ModelEntry)

/-- The bytes of ids and formats are neither quotes nor braces. -/
theorem not_mem_of_isIdByte {s : Bytes} (h : ∀ c ∈ s, isIdByte c = true) {c : UInt8}
    (hc : c = 34 ∨ c = 125) : c ∉ s := by
  intro hmem
  have hbyte := h c hmem
  rcases hc with rfl | rfl <;> exact absurd hbyte (by decide)

/-- The bytes of a number are none of the separators. -/
theorem not_mem_signedDecimal {n : Int} {c : UInt8} (hc : c = 34 ∨ c = 44 ∨ c = 125) :
    c ∉ signedDecimal n := by
  intro hmem
  have hbyte := mem_signedDecimal hmem
  revert hbyte
  rcases hc with rfl | rfl | rfl <;> decide

/-- A block, field by field. -/
theorem ModelEntry.block_eq : e.block =
    [123] ++ 34 :: (str "id" ++ 34 :: 58 :: 34 :: (e.modelId ++ 34 :: 44 ::
      34 :: (str "format" ++ 34 :: 58 :: 34 :: (e.format ++ 34 :: 44 ::
        34 :: (str "size" ++ 34 :: 58 :: (signedDecimal e.size ++ 44 ::
          34 :: (str "downloaded" ++ 34 :: 58 :: 34 :: (e.timestamp ++ 34 :: [125])))))))) := by
  simp only [ModelEntry.block, List.append_assoc]
  rfl

theorem ModelEntry.isBlock_block : IsBlock e.block := by
  refine ⟨str ":\"" ++ e.modelId ++ str "\",\"format\":\"" ++ e.format ++ str "\",\"size\":" ++
    signedDecimal e.size ++ str ",\"downloaded\":\"" ++ e.timestamp ++ str "\"", ?_, ?_⟩
  · have hid : 125 ∉ e.modelId := not_mem_of_isIdByte e.id_bytes (.inr rfl)
    have hformat : 125 ∉ e.format := not_mem_of_isIdByte e.format_bytes (.inr rfl)
    have hsize : 125 ∉ signedDecimal e.size := not_mem_signedDecimal (.inr (.inr rfl))
    have htimestamp : 125 ∉ e.timestamp := fun hmem => (e.timestamp_bytes 125 hmem).2 rfl
    simp only [List.mem_append, not_or]
    exact ⟨⟨⟨⟨⟨⟨⟨⟨by decide, hid⟩, by decide⟩, hformat⟩, by decide⟩, hsize⟩, by decide⟩,
      htimestamp⟩, by decide⟩
  · simp only [ModelEntry.block, List.append_assoc]
    rfl

/-- The id of the entry, where the readers look for it. -/
theorem ModelEntry.found_id :
    ∃ rest, Found (str "\"id\":\"") e.block (e.modelId ++ 34 :: rest) := by
  constructor
  rw [e.block_eq]
  refine Found.behind_bytes ?_ (by decide)
  exact found_here 34 (str "id" ++ [34, 58, 34]) _

/-- `add_model_entry` and `cmd_rm` read the id of the entry. -/
theorem ModelEntry.blockId_block : blockId e.block = some e.modelId := by
  obtain ⟨rest, p, hp, hrest⟩ := e.found_id
  have hid : 34 ∉ e.modelId := not_mem_of_isIdByte e.id_bytes (.inl rfl)
  have hquote : findSub (str "\"") (e.modelId ++ 34 :: rest) = some e.modelId.length :=
    findSub_append hid [] (34 :: rest)
  change e.block.drop (p + 6) = _ at hrest
  rw [blockId, hp]
  simp only [hrest, hquote, Option.map_some, List.take_left]

/-- `cmd_list` reads the id of the entry. -/
theorem ModelEntry.extractField_id : extractField e.block (str "id") = e.modelId := by
  have hid : 34 ∉ e.modelId := not_mem_of_isIdByte e.id_bytes (.inl rfl)
  obtain ⟨rest, hfound⟩ := e.found_id
  exact extractField_eq hid hfound

/-- It reads the format. -/
theorem ModelEntry.extractField_format : extractField e.block (str "format") = e.format := by
  have hid : 34 ∉ e.modelId := not_mem_of_isIdByte e.id_bytes (.inl rfl)
  have hformat : 34 ∉ e.format := not_mem_of_isIdByte e.format_bytes (.inl rfl)
  apply extractField_eq hformat
  rw [e.block_eq]
  refine Found.behind_bytes ?_ (by decide)
  refine Found.behind_field ?_ (by decide) (by decide) (by decide) (by decide) hid
  exact found_here 34 (str "format" ++ [34, 58, 34]) _

/-- It reads the size. -/
theorem ModelEntry.extractNum_size : extractNum e.block (str "size") = .ok e.size := by
  have hid : 34 ∉ e.modelId := not_mem_of_isIdByte e.id_bytes (.inl rfl)
  have hformat : 34 ∉ e.format := not_mem_of_isIdByte e.format_bytes (.inl rfl)
  have hsize : 44 ∉ signedDecimal e.size ∧ 125 ∉ signedDecimal e.size :=
    ⟨not_mem_signedDecimal (.inr (.inl rfl)), not_mem_signedDecimal (.inr (.inr rfl))⟩
  rw [← stoll_signedDecimal e.size_range.1 e.size_range.2]
  apply extractNum_eq hsize
  rw [e.block_eq]
  refine Found.behind_bytes ?_ (by decide)
  refine Found.behind_field ?_ (by decide) (by decide) (by decide) (by decide) hid
  refine Found.behind_field ?_ (by decide) (by decide) (by decide) (by decide) hformat
  exact found_here 34 (str "size" ++ [34, 58]) _

/-- It reads the timestamp. -/
theorem ModelEntry.extractField_downloaded :
    extractField e.block (str "downloaded") = e.timestamp := by
  have hid : 34 ∉ e.modelId := not_mem_of_isIdByte e.id_bytes (.inl rfl)
  have hformat : 34 ∉ e.format := not_mem_of_isIdByte e.format_bytes (.inl rfl)
  have htimestamp : 34 ∉ e.timestamp := fun hmem => (e.timestamp_bytes 34 hmem).1 rfl
  have hsize : 34 ∉ [58] ++ signedDecimal e.size ++ [44] := by
    simp only [List.mem_append, not_or]
    exact ⟨⟨by decide, not_mem_signedDecimal (.inl rfl)⟩, by decide⟩
  apply extractField_eq htimestamp
  rw [e.block_eq]
  refine Found.behind_bytes ?_ (by decide)
  refine Found.behind_field ?_ (by decide) (by decide) (by decide) (by decide) hid
  refine Found.behind_field ?_ (by decide) (by decide) (by decide) (by decide) hformat
  refine Found.behind_quoted ?_ (by decide) (by decide) (by decide) (.inl (by decide))
  have hbehind := Found.behind_bytes
    (found_here 34 (str "downloaded" ++ [34, 58, 34]) (e.timestamp ++ 34 :: [125])) hsize
  simp only [List.append_assoc] at hbehind
  exact hbehind

/-- What `cmd_list` lists of an entry. -/
def ModelEntry.listed : ListedModel := ⟨e.modelId, e.format, e.size, e.timestamp⟩

/-- The block of an entry is listed as the entry. -/
theorem ModelEntry.listBlock_block : listBlock e.block = .ok [e.listed] := by
  have hne : e.modelId.isEmpty = false := by
    rw [List.isEmpty_eq_false_iff]
    exact e.id_ne_nil
  rw [listBlock, e.extractField_id, e.extractField_format, e.extractNum_size,
    e.extractField_downloaded]
  simp [hne, ModelEntry.listed]

end

/-! ## The entries of a registry -/

/-- The registry holds the blocks of these entries, one for each id. -/
structure Holds (registry : Option Bytes) (entries : List ModelEntry) : Prop where
  blocks : registryBlocks (registry.getD []) = entries.map ModelEntry.block
  nodup : (entries.map ModelEntry.modelId).Nodup

theorem holds_none : Holds none [] := ⟨rfl, List.nodup_nil⟩

/-- `cmd_list` lists the entries. -/
theorem Holds.cmdList {registry : Option Bytes} {entries : List ModelEntry}
    (h : Holds registry entries) :
    cmdList true registry = .ok (entries.map ModelEntry.listed) := by
  have hlists : ∀ es : List ModelEntry,
      (es.map ModelEntry.block).mapM listBlock = Except.ok (es.map fun e => [e.listed]) := by
    intro es
    induction es with
    | nil => rfl
    | cons e es ih =>
      rw [List.map_cons, List.mapM_cons, e.listBlock_block, ih]
      rfl
  have hblocks := h.blocks
  cases registry with
  | none =>
    have hnil : entries = [] := List.map_eq_nil_iff.1 hblocks.symm
    rw [hnil]
    rfl
  | some content =>
    rw [Option.getD_some] at hblocks
    have hflatten : (entries.map fun e => [e.listed]).flatten = entries.map ModelEntry.listed := by
      rw [← List.flatMap_def, List.map_eq_flatMap]
    simp only [Terllama.cmdList, hblocks, hlists, ← hflatten]
    rfl

/-- The blocks of the file that `add_model_entry` writes. -/
theorem registryBlocks_addEntry (e : ModelEntry) (content : Bytes) :
    registryBlocks (addEntry e content) =
      (registryBlocks content).filter (fun block => blockId block != some e.modelId) ++
        [e.block] := by
  refine registryBlocks_intercalate blockless_header (blockless_of_not_mem (by decide))
    (blockless_of_not_mem (by decide)) (blockless_of_not_mem (by decide)) fun b hb => ?_
  rcases List.mem_append.1 hb with hb | hb
  · exact isBlock_of_mem_blocksFrom (List.mem_filter.1 hb).1
  · rw [List.mem_singleton.1 hb]
    exact e.isBlock_block

/-- What `add_model_entry` writes holds the other entries and the new one. -/
theorem Holds.addEntry {registry : Option Bytes} {entries : List ModelEntry}
    (h : Holds registry entries) (e : ModelEntry) :
    Holds (some (addEntry e (registry.getD [])))
      (entries.filter (fun e' => e'.modelId != e.modelId) ++ [e]) := by
  constructor
  · rw [Option.getD_some, registryBlocks_addEntry, h.blocks, List.filter_map, List.map_append]
    have hkeeps : (fun block => blockId block != some e.modelId) ∘ ModelEntry.block =
        fun e' => e'.modelId != e.modelId := by
      funext e'
      rw [Function.comp_apply, e'.blockId_block]
      rfl
    rw [hkeeps]
    rfl
  · rw [List.map_append, List.nodup_append]
    refine ⟨?_, by simp, ?_⟩
    · exact h.nodup.sublist (List.filter_sublist.map _)
    · intro id hid id' hid'
      obtain ⟨e', he', rfl⟩ := List.mem_map.1 hid
      rw [List.mem_singleton.1 hid']
      exact bne_iff_ne.1 (List.mem_filter.1 he').2

/-- What `cmd_rm` writes holds the other entries. -/
theorem Holds.removeModelEntry {content : Bytes} {entries : List ModelEntry}
    (h : Holds (some content) entries) (modelId : Bytes) :
    Holds (some (removeModelEntry modelId content))
      (entries.filter (fun e => e.modelId != modelId)) := by
  constructor
  · have hblocks := h.blocks
    rw [Option.getD_some] at hblocks ⊢
    have hkeeps : keepsBlock modelId ∘ ModelEntry.block = fun e => e.modelId != modelId := by
      funext e
      rw [Function.comp_apply, keepsBlock, e.blockId_block]
    rw [registryBlocks_removeModelEntry, hblocks, List.filter_map, hkeeps]
  · exact h.nodup.sublist (List.filter_sublist.map _)

/-! ## Failing writes -/

/-- The loop writes the whole text, or fails. -/
theorem writeLoop_eq {rs : List WriteResult} {rest written result : Bytes}
    (h : writeLoop rs rest written = some result) : result = written ++ rest := by
  induction rs generalizing rest written with
  | nil => exact (Option.some.inj h).symm
  | cons r rs ih =>
    unfold writeLoop at h
    split at h
    · next hempty =>
      rw [List.isEmpty_iff.1 hempty, List.append_nil]
      exact (Option.some.inj h).symm
    · cases r with
      | wrote n =>
        rw [ih h, List.append_assoc, List.take_append_drop]
      | interrupted => exact ih h
      | failed => cases h

/-- A write that succeeds leaves the text in the registry, and one that fails leaves the registry as
it was. -/
theorem writeStateFile_registry (w : WriteOutcome) (content : Bytes) (files : RegistryFiles) :
    (writeStateFile w content files).2.registry =
      if (writeStateFile w content files).1 then some content else files.registry := by
  unfold writeStateFile
  split
  · rfl
  · split
    · rfl
    · next written hwritten =>
      have hall := writeLoop_eq hwritten
      rw [List.nil_append] at hall
      split
      · rfl
      · rw [hall]
        rfl

/-- A call that fails leaves the registry as it was. -/
theorem CliCall.registry_of_fails (files : RegistryFiles) (call : CliCall)
    (h : (call.run files).1 = false) : (call.run files).2.registry = files.registry := by
  cases call with
  | add e w =>
    change (writeStateFile _ _ _).1 = _ at h
    change (writeStateFile _ _ _).2.registry = _
    rw [writeStateFile_registry, h, if_neg Bool.false_ne_true]
  | rm modelId found w =>
    rw [CliCall.run] at h ⊢
    split at h
    · next hnone => rw [if_pos hnone]
    · next hsome =>
      rw [if_neg hsome]
      split at h
      · cases h
      · rw [writeStateFile_registry, h, if_neg Bool.false_ne_true]

/-! ## The map -/

/-- The registry holds these entries, and they are those of the last calls. -/
structure CliState.Lists (s : CliState) (entries : List ModelEntry) : Prop where
  holds : Holds s.files.registry entries
  last : ∀ id format size, (∃ e ∈ entries, e.modelId = id ∧ e.format = format ∧ e.size = size) ↔
    lastAdd s.succeeded id = some (format, size)

/-- A call that fails changes nothing that is listed. -/
theorem CliState.Lists.fail {s : CliState} {entries : List ModelEntry} (h : s.Lists entries)
    {call : CliCall} (hfails : (call.run s.files).1 = false) : (s.step call).Lists entries := by
  have hregistry := call.registry_of_fails s.files hfails
  have hsucceeded : (s.step call).succeeded = s.succeeded := by
    simp only [CliState.step, hfails, Bool.false_eq_true, if_false]
  constructor
  · change Holds (call.run s.files).2.registry entries
    rw [hregistry]
    exact h.holds
  · rw [hsucceeded]
    exact h.last

/-- The entries after an add. -/
theorem CliState.Lists.add {s : CliState} {entries : List ModelEntry} (h : s.Lists entries)
    (e : ModelEntry) (w : WriteOutcome) (hsucceeds : ((CliCall.add e w).run s.files).1 = true) :
    (s.step (.add e w)).Lists (entries.filter (fun e' => e'.modelId != e.modelId) ++ [e]) := by
  have hsucceeded : (s.step (.add e w)).succeeded = .add e w :: s.succeeded := by
    simp only [CliState.step, hsucceeds, if_true]
  constructor
  · change Holds ((CliCall.add e w).run s.files).2.registry _
    change (writeStateFile _ _ _).1 = _ at hsucceeds
    rw [CliCall.run, writeStateFile_registry, hsucceeds, if_pos rfl]
    exact h.holds.addEntry e
  · intro id format size
    rw [hsucceeded, lastAdd]
    split
    · next hid =>
      rw [hid, Option.some.injEq, Prod.mk.injEq]
      constructor
      · rintro ⟨e', he', hsame, rfl, rfl⟩
        rcases List.mem_append.1 he' with he' | he'
        · exact absurd hsame (bne_iff_ne.1 (List.mem_filter.1 he').2)
        · rw [List.mem_singleton.1 he']
          exact ⟨rfl, rfl⟩
      · rintro ⟨rfl, rfl⟩
        exact ⟨e, List.mem_append_right _ List.mem_cons_self, rfl, rfl, rfl⟩
    · next hid =>
      rw [← h.last]
      constructor
      · rintro ⟨e', he', rfl, hrest⟩
        rcases List.mem_append.1 he' with he' | he'
        · exact ⟨e', (List.mem_filter.1 he').1, rfl, hrest⟩
        · exact absurd (congrArg ModelEntry.modelId (List.mem_singleton.1 he')) hid
      · rintro ⟨e', he', rfl, hrest⟩
        refine ⟨e', List.mem_append_left _ ?_, rfl, hrest⟩
        exact List.mem_filter.2 ⟨he', bne_iff_ne.2 hid⟩

/-- The entries after a removal. -/
theorem CliState.Lists.rm {s : CliState} {entries : List ModelEntry} (h : s.Lists entries)
    (modelId : Bytes) (found : Bool) (w : WriteOutcome)
    (hsucceeds : ((CliCall.rm modelId found w).run s.files).1 = true) :
    (s.step (.rm modelId found w)).Lists (entries.filter (fun e => e.modelId != modelId)) := by
  have hsucceeded : (s.step (.rm modelId found w)).succeeded =
      .rm modelId found w :: s.succeeded := by
    simp only [CliState.step, hsucceeds, if_true]
  constructor
  · change Holds ((CliCall.rm modelId found w).run s.files).2.registry _
    rw [CliCall.run] at hsucceeds ⊢
    split at hsucceeds
    · cases hsucceeds
    · next hfound =>
      rw [if_neg hfound]
      split at hsucceeds
      · next hnone =>
        have hblocks := h.holds.blocks
        rw [hnone] at hblocks
        have hnil : entries = [] := List.map_eq_nil_iff.1 hblocks.symm
        rw [hnil, hnone]
        exact holds_none
      · next content hcontent =>
        rw [writeStateFile_registry, hsucceeds, if_pos rfl]
        have hholds := h.holds
        rw [hcontent] at hholds
        exact hholds.removeModelEntry modelId
  · intro id format size
    rw [hsucceeded, lastAdd]
    split
    · next hid =>
      refine iff_of_false ?_ (Option.some_ne_none _).symm
      rintro ⟨e, he, rfl, -⟩
      exact bne_iff_ne.1 (List.mem_filter.1 he).2 hid
    · next hid =>
      rw [← h.last]
      constructor
      · rintro ⟨e, he, hrest⟩
        exact ⟨e, (List.mem_filter.1 he).1, hrest⟩
      · rintro ⟨e, he, rfl, hrest⟩
        exact ⟨e, List.mem_filter.2 ⟨he, bne_iff_ne.2 hid⟩, rfl, hrest⟩

/-- One call. -/
theorem CliState.Lists.step {s : CliState} {entries : List ModelEntry} (h : s.Lists entries)
    (call : CliCall) : ∃ entries', (s.step call).Lists entries' := by
  cases hrun : (call.run s.files).1 with
  | false => exact ⟨entries, h.fail hrun⟩
  | true =>
    cases call with
    | add e w => exact ⟨_, h.add e w hrun⟩
    | rm modelId found w => exact ⟨_, h.rm modelId found w hrun⟩

/-- The calls of a process. -/
theorem CliState.lists_run (calls : List CliCall) :
    ∃ entries, (CliState.run calls).Lists entries := by
  have hfoldl : ∀ (cs : List CliCall) (s : CliState) (entries : List ModelEntry),
      s.Lists entries → ∃ entries', (cs.foldl CliState.step s).Lists entries' := by
    intro cs
    induction cs with
    | nil => exact fun s entries h => ⟨entries, h⟩
    | cons call cs ih =>
      intro s entries h
      obtain ⟨entries', h'⟩ := h.step call
      exact ih _ _ h'
  have hinit : CliState.Lists {} [] := by
    refine ⟨holds_none, fun id format size => iff_of_false ?_ (Option.some_ne_none _).symm⟩
    rintro ⟨e, he, -⟩
    cases he
  exact hfoldl calls {} [] hinit

/-- After any calls, with whatever failures, `cmd_list` lists an id once at most, and those whose
last successful call was an add with the format and the size of that add. A call that fails leaves
the registry as it was. -/
theorem registry_is_map (calls : List CliCall) :
    (∃ listed, cmdList true (CliState.run calls).files.registry = .ok listed ∧
      (listed.map ListedModel.id).Nodup ∧
      ∀ id format size, (∃ l ∈ listed, l.id = id ∧ l.format = format ∧ l.size = size) ↔
        lastAdd (CliState.run calls).succeeded id = some (format, size)) ∧
    ∀ call : CliCall, (call.run (CliState.run calls).files).1 = false →
      (call.run (CliState.run calls).files).2.registry =
        (CliState.run calls).files.registry := by
  obtain ⟨entries, h⟩ := CliState.lists_run calls
  refine ⟨⟨_, h.holds.cmdList, ?_, ?_⟩, fun call hfails => call.registry_of_fails _ hfails⟩
  · rw [List.map_map]
    exact h.holds.nodup
  · intro id format size
    rw [← h.last]
    constructor
    · rintro ⟨l, hl, hfields⟩
      obtain ⟨e, he, rfl⟩ := List.mem_map.1 hl
      exact ⟨e, he, hfields⟩
    · rintro ⟨e, he, hfields⟩
      exact ⟨e.listed, List.mem_map_of_mem he, hfields⟩

end Terllama
