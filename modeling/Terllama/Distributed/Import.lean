import Mathlib.Data.List.TakeWhile
import Terllama.Base.Decimal

/-!
# Importing a model from a peer

`import_model_from` of `distributed/node.cpp`: the files that a peer lists are downloaded one after
the other, each to a part file that is renamed to its final name. A model counts as present as soon
as `model_extra.bin` is there (`dirHasModel`), at whatever place of the list it stands, and neither
the writes nor the rename are checked. `importModelFrom_allOrNothing_iff` says when an import is all
or nothing nevertheless.
-/

namespace Terllama

/-! ## The files of a model -/

/-- `valid_model_name`. -/
def validModelName (name : Bytes) : Bool :=
  if name.isEmpty || name == str "." || name == str ".." || name.head? == some 46 then false
  else !name.contains 47

/-- The files of a model directory. -/
abbrev ImportDir := Bytes → Option Bytes

/-- The name that the operating system sees: it ends at the first zero byte. -/
def cPath (name : Bytes) : Bytes := name.takeWhile (· ≠ 0)

/-- The part file of a download. -/
def partFile (name : Bytes) : Bytes := cPath (str "." ++ name ++ str ".part")

/-- `dir_has_model`. -/
def dirHasModel (dir : ImportDir) : Bool := (dir (str "model_extra.bin")).isSome

/-- A file in the list of a peer. The digest is not read. -/
structure ListedFile where
  name : Bytes
  size : Int
  sha256 : Bytes
  deriving DecidableEq, Repr

/-- What happens when a file is downloaded: whether its part file can be opened, what the peer sends
and whether with status 200, how many of these bytes are written, and whether the part file can be
renamed. -/
structure FileTransfer where
  opens : Bool
  streamed : Bytes
  received : Bool
  written : Nat
  renames : Bool
  deriving DecidableEq, Repr

/-- The bytes in the part file at the end of a download. -/
def FileTransfer.stored (t : FileTransfer) : Bytes := t.streamed.take t.written

/-! ## The import -/

/-- The loop of `import_model_from` over the listed files. -/
def importFiles (path : Bytes) :
    List (ListedFile × FileTransfer) → ImportDir → Except Bytes Unit × ImportDir
  | [], dir => (.ok (), dir)
  | (f, t) :: rest, dir =>
    if validModelName f.name = false then
      (.error (str "refusing unsafe file name " ++ f.name), dir)
    else if t.opens = false then
      (.error (str "cannot write " ++ path ++ str "/." ++ f.name ++ str ".part"), dir)
    else
      let dir := Function.update dir (partFile f.name) (some t.stored)
      if t.received = false ∨ (t.streamed.length : Int) ≠ f.size then
        (.error (str "download of " ++ f.name ++ str " failed (got " ++
            decimal t.streamed.length ++ str " of " ++ signedDecimal f.size ++ str " bytes)"),
          Function.update dir (partFile f.name) none)
      else if t.renames then
        importFiles path rest (Function.update (Function.update dir (partFile f.name) none)
          (cPath f.name) (some t.stored))
      else importFiles path rest dir

/-- What a peer answers that is asked for the files of a model. -/
inductive FileListing where
  | unreachable
  | malformed (what : Bytes)
  | files (listed : List (ListedFile × FileTransfer))

/-- The files of an answer, each with its download. -/
def FileListing.entries : FileListing → List (ListedFile × FileTransfer)
  | .files listed => listed
  | _ => []

/-- `Node::import_model_from`. -/
def importModelFrom (modelsDir fromHost : Bytes) (fromPort : Int) (model : Bytes)
    (listing : FileListing) (dir : ImportDir) : Except Bytes Unit × ImportDir :=
  if validModelName model = false then (.error (str "invalid model name"), dir)
  else
    match listing with
    | .unreachable =>
      (.error (str "cannot list files at " ++ fromHost ++ str ":" ++ signedDecimal fromPort ++
        str "/node/files/" ++ model), dir)
    | .malformed what => (.error (str "bad file list: " ++ what), dir)
    | .files [] => (.error (str "model has no files"), dir)
    | .files listed => importFiles (modelsDir ++ str "/" ++ model) listed dir

/-! ## All or nothing -/

/-- A failed import leaves a model absent that was absent, and after a successful one every listed
file holds the bytes that the peer sent, of the digest that it listed. -/
structure AllOrNothing (sha256 : Bytes → Bytes) (listing : FileListing) (dir : ImportDir)
    (result : Except Bytes Unit × ImportDir) : Prop where
  nothing : ∀ err, result.1 = .error err → dirHasModel dir = false → dirHasModel result.2 = false
  all : result.1 = .ok () → ∀ p ∈ listing.entries,
    result.2 (cPath p.1.name) = some p.2.streamed ∧ sha256 p.2.streamed = p.1.sha256

/-- The loop goes on behind a file. -/
def completes (p : ListedFile × FileTransfer) : Bool :=
  validModelName p.1.name && p.2.opens && p.2.received &&
    decide ((p.2.streamed.length : Int) = p.1.size)

/-- What is under a name after the downloads of some files: the last of that name that was renamed,
or else what was there before. -/
def installed (files : List (ListedFile × FileTransfer)) (dir : ImportDir) (name : Bytes) :
    Option Bytes :=
  ((files.reverse.find? fun p => p.2.renames && cPath p.1.name == name).map (·.2.stored)).or
    (dir name)

/-- The downloads are harmless for a directory: where one of them fails, no file before it becomes
`model_extra.bin`; where none does, what the last of a name leaves there is what the peer sent, of
the listed digest. -/
structure HarmlessTransfers (sha256 : Bytes → Bytes) (files : List (ListedFile × FileTransfer))
    (dir : ImportDir) : Prop where
  failed : files.all completes = false → dirHasModel dir = false →
    ∀ p ∈ files.takeWhile completes, p.2.renames = true → cPath p.1.name ≠ str "model_extra.bin"
  succeeded : files.all completes = true → ∀ p ∈ files,
    installed files dir (cPath p.1.name) = some p.2.streamed ∧ sha256 p.2.streamed = p.1.sha256

/-- Part files are hidden, other files are not. -/
theorem partFile_ne {k : Bytes} (hk : k.head? ≠ some 46) (name : Bytes) : k ≠ partFile name := by
  rintro rfl
  exact hk rfl

theorem head_cPath_ne {name : Bytes} (h : validModelName name = true) :
    (cPath name).head? ≠ some 46 := by
  cases name with
  | nil => exact nofun
  | cons c name =>
    rw [cPath, List.takeWhile_cons]
    split
    · rintro ⟨⟩
      simp [validModelName] at h
    · exact nofun

theorem installed_nil (dir : ImportDir) (k : Bytes) : installed [] dir k = dir k := rfl

/-- What a completed download changes under a name. -/
theorem installed_cons {p : ListedFile × FileTransfer} {dir dir' : ImportDir} {k : Bytes}
    (h : dir' k = if p.2.renames = true ∧ cPath p.1.name = k then some p.2.stored else dir k)
    (files : List (ListedFile × FileTransfer)) :
    installed (p :: files) dir k = installed files dir' k := by
  unfold installed
  rw [List.reverse_cons, List.find?_append, h]
  cases hrest : files.reverse.find? fun p => p.2.renames && cPath p.1.name == k with
  | some q => rfl
  | none =>
    by_cases hp : p.2.renames = true ∧ cPath p.1.name = k
    · simp [hp]
    · simp [hp]

/-- The loop returns without an error exactly where every download completes. -/
theorem importFiles_ok_iff (path : Bytes) (files : List (ListedFile × FileTransfer))
    (dir : ImportDir) : (importFiles path files dir).1 = .ok () ↔ files.all completes = true := by
  induction files generalizing dir with
  | nil => simp [importFiles]
  | cons p rest ih =>
    obtain ⟨f, t⟩ := p
    rw [List.all_cons, Bool.and_eq_true]
    simp only [importFiles]
    split
    · next hname => simp [completes, hname]
    · next hname =>
      split
      · next hopens => simp [completes, hopens]
      · next hopens =>
        split
        · next hgot =>
          refine iff_of_false nofun fun h => ?_
          have hcompletes := h.1
          simp only [completes, Bool.and_eq_true, decide_eq_true_eq] at hcompletes
          rcases hgot with hgot | hgot
          · exact Bool.false_ne_true (hgot.symm.trans hcompletes.1.2)
          · exact hgot hcompletes.2
        · next hgot =>
          rw [not_or, not_not] at hgot
          have hcompletes : completes (f, t) = true := by simp [completes, hname, hopens, hgot]
          rw [and_iff_right hcompletes]
          split <;> exact ih _

/-- What the loop leaves under a name that is not hidden. -/
theorem importFiles_dir (path : Bytes) (files : List (ListedFile × FileTransfer)) (dir : ImportDir)
    {k : Bytes} (hk : k.head? ≠ some 46) :
    (importFiles path files dir).2 k = installed (files.takeWhile completes) dir k := by
  induction files generalizing dir with
  | nil => rfl
  | cons p rest ih =>
    obtain ⟨f, t⟩ := p
    have hpart := partFile_ne hk f.name
    rw [List.takeWhile_cons]
    simp only [importFiles]
    split
    · next hname => simp [completes, hname, installed_nil]
    · next hname =>
      split
      · next hopens => simp [completes, hopens, installed_nil]
      · next hopens =>
        split
        · next hgot =>
          have hcompletes : ¬ completes (f, t) = true := by
            simp only [completes, Bool.and_eq_true, decide_eq_true_eq]
            rintro ⟨⟨-, hreceived⟩, hsize⟩
            rcases hgot with hgot | hgot
            · exact Bool.false_ne_true (hgot.symm.trans hreceived)
            · exact hgot hsize
          rw [if_neg hcompletes, installed_nil]
          simp only [Function.update_of_ne hpart]
        · next hgot =>
          rw [not_or, not_not] at hgot
          have hcompletes : completes (f, t) = true := by simp [completes, hname, hopens, hgot]
          rw [if_pos hcompletes]
          split
          · next hrenames =>
            rw [ih]
            refine (installed_cons ?_ _).symm
            simp [hrenames, Function.update_apply, hpart, eq_comm]
          · next hrenames =>
            rw [ih]
            refine (installed_cons ?_ _).symm
            simp [hrenames, hpart]

/-- Whether `model_extra.bin` is there after the downloads of some files. -/
theorem installed_extra_isSome {dir : ImportDir} (habsent : dirHasModel dir = false)
    (files : List (ListedFile × FileTransfer)) :
    (installed files dir (str "model_extra.bin")).isSome = false ↔
      ∀ p ∈ files, p.2.renames = true → cPath p.1.name ≠ str "model_extra.bin" := by
  have hnone : dir (str "model_extra.bin") = none := Option.isSome_eq_false_iff.1 habsent |>
    Option.isNone_iff_eq_none.1
  rw [installed, hnone, Option.or_none, Option.isSome_map, ← Bool.not_eq_true, List.find?_isSome]
  simp

/-- The loop is all or nothing exactly where the downloads are harmless. -/
theorem importFiles_allOrNothing_iff (sha256 : Bytes → Bytes) (path : Bytes)
    (files : List (ListedFile × FileTransfer)) (dir : ImportDir) :
    AllOrNothing sha256 (.files files) dir (importFiles path files dir) ↔
      HarmlessTransfers sha256 files dir := by
  have hok := importFiles_ok_iff path files dir
  have hextra := importFiles_dir path files dir (k := str "model_extra.bin") (by decide)
  have hprefix : files.all completes = true → files.takeWhile completes = files := by
    rw [List.all_eq_true]
    exact List.takeWhile_eq_self_iff.2
  have hvalid : files.all completes = true → ∀ p ∈ files, (cPath p.1.name).head? ≠ some 46 := by
    rw [List.all_eq_true]
    intro hall p hp
    have hcompletes := hall p hp
    simp only [completes, Bool.and_eq_true] at hcompletes
    exact head_cPath_ne hcompletes.1.1.1
  constructor
  · intro h
    constructor
    · intro hfail habsent
      cases hresult : (importFiles path files dir).1 with
      | ok u => exact absurd (hok.1 hresult) (Bool.not_eq_true _ ▸ hfail)
      | error err =>
        have hnothing := h.nothing err hresult habsent
        rw [dirHasModel, hextra] at hnothing
        exact (installed_extra_isSome habsent _).1 hnothing
    · intro hall p hp
      have hfile := h.all (hok.2 hall) p hp
      rwa [importFiles_dir path files dir (hvalid hall p hp), hprefix hall] at hfile
  · intro h
    constructor
    · intro err hresult habsent
      have hfail : files.all completes = false := by
        rw [← Bool.not_eq_true, ← hok, hresult]
        exact nofun
      rw [dirHasModel, hextra]
      exact (installed_extra_isSome habsent _).2 (h.failed hfail habsent)
    · intro hresult p hp
      have hall := hok.1 hresult
      rw [importFiles_dir path files dir (hvalid hall p hp), hprefix hall]
      exact h.succeeded hall p hp

/-- An import is all or nothing exactly where its downloads are harmless: where one fails, no file
before it becomes `model_extra.bin`, and where all complete, each name ends up with what the peer
sent for it. -/
theorem importModelFrom_allOrNothing_iff (sha256 : Bytes → Bytes) (modelsDir fromHost : Bytes)
    (fromPort : Int) (model : Bytes) (listing : FileListing) (dir : ImportDir) :
    AllOrNothing sha256 listing dir
        (importModelFrom modelsDir fromHost fromPort model listing dir) ↔
      (validModelName model = true → HarmlessTransfers sha256 listing.entries dir) := by
  have hempty : HarmlessTransfers sha256 [] dir := ⟨nofun, nofun⟩
  have hkept : ∀ err, listing.entries = [] → AllOrNothing sha256 listing dir (.error err, dir) := by
    intro err hentries
    refine ⟨fun _ _ habsent => habsent, nofun⟩
  unfold importModelFrom
  split
  · next hmodel =>
    refine iff_of_true ⟨fun _ _ habsent => habsent, nofun⟩ fun hvalid => ?_
    exact absurd hvalid (Bool.not_eq_true _ ▸ hmodel)
  · next hmodel =>
    rw [Bool.not_eq_false] at hmodel
    rw [imp_iff_right hmodel]
    split
    · exact iff_of_true ⟨fun _ _ habsent => habsent, nofun⟩ hempty
    · exact iff_of_true ⟨fun _ _ habsent => habsent, nofun⟩ hempty
    · exact iff_of_true ⟨fun _ _ habsent => habsent, nofun⟩ hempty
    · exact importFiles_allOrNothing_iff sha256 _ _ dir

/-- The files of a converted model as a peer lists them, by their names, and the download of the
last fails. -/
def interruptedImport : FileListing :=
  .files [
    ({ name := str "model_decomposed.bin", size := 2, sha256 := [] },
      { opens := true, streamed := [1, 2], received := true, written := 2, renames := true }),
    ({ name := str "model_extra.bin", size := 1, sha256 := [] },
      { opens := true, streamed := [3], received := true, written := 1, renames := true }),
    ({ name := str "tokenizer.json", size := 3, sha256 := [] },
      { opens := true, streamed := [4], received := false, written := 1, renames := true })]

/-- The download of `tokenizer.json` breaks off, the import fails, and the model counts as
present. -/
theorem not_allOrNothing_interruptedImport :
    ¬ ∃ sha256, AllOrNothing sha256 interruptedImport (fun _ => none)
      (importModelFrom (str "/models") (str "10.0.0.2") 7001 (str "m") interruptedImport
        fun _ => none) := by
  rintro ⟨sha256, h⟩
  have hpresent := h.nothing _ rfl rfl
  revert hpresent
  decide

end Terllama
