import Terllama.Base.FileTree
import Terllama.Cli.Listing

/-!
# The removal of models

`delete_model` of `src-tauri/src/commands.rs` and `cmd_rm` of `src/cli/commands.cpp`: what they take
away from a tree without links. `delete_model` joins the id to the models directory as it comes, so
that an empty id, dots and an absolute path lead to another directory; `cmd_rm` rejects all of these
but the single dot, which leaves it in the models directory (`removals_spare_iff`).
`validate_registry_id`, which the other commands call first, lets the single dot pass as well.
-/

namespace Terllama

/-! ## Paths -/

/-- The models directory and everything below it have paths of names. -/
abbrev ModelPath := List Bytes

/-- The meaning of a component. -/
def pathStep (c : Bytes) : PathStep Bytes :=
  if c = [] ∨ c = str "." then .stay else if c = str ".." then .up else .name c

/-- The components of a path. -/
def pathSteps (path : Bytes) : List (PathStep Bytes) := (path.splitOn 47).map pathStep

/-- `Path::join` on a directory: an absolute path replaces it. -/
def joinPath (dir : ModelPath) (path : Bytes) : List (PathStep Bytes) :=
  if path.head? = some 47 then pathSteps path else dir.map .name ++ pathSteps path

section
variable {t : FileTree Bytes} {dir q : ModelPath}

theorem pathSteps_of_no_slash {id : Bytes} (h : 47 ∉ id) : pathSteps id = [pathStep id] := by
  rw [pathSteps, List.splitOn_eq_singleton h, List.map_singleton]

theorem pathStep_name {id : Bytes} (hne : id ≠ []) (hdot : id ≠ str ".") (hdots : id ≠ str "..") :
    pathStep id = .name id := by
  rw [pathStep, if_neg (by simp [hne, hdot]), if_neg hdots]

theorem normalizeSteps_dir (dir : ModelPath) (steps : List (PathStep Bytes)) :
    normalizeSteps [] (dir.map .name ++ steps) = normalizeSteps dir steps := by
  rw [normalizeSteps_append, normalizeSteps_names, List.nil_append]

end

/-! ## The models directory -/

/-- `validate_model_component`. -/
def validateModelComponent (model : Bytes) (allowSlash : Bool) : Except Bytes Unit :=
  let segments := model.splitOn 47
  let valid := !model.isEmpty && (findSub (str "..") model).isNone &&
    decide (segments.length ≤ 2) && segments.all (fun s => !s.isEmpty) &&
      model.all (fun c => isIdByte c || allowSlash && c == 47)
  if valid then .ok () else .error (str "invalid model id")

/-- `validate_model_id`. -/
def validateModelId (model : Bytes) : Except Bytes Unit := validateModelComponent model true

/-- `validate_registry_id`. -/
def validateRegistryId (model : Bytes) : Except Bytes Unit := validateModelComponent model false

/-- What `validate_registry_id` accepts is a name or a single dot: joined to the models directory it
leads to a model, or to the models directory itself. -/
theorem resolve_of_validated {t : FileTree Bytes} {dir q : ModelPath} {id : Bytes}
    (h : validateRegistryId id = .ok ()) (hq : t.resolve [] (joinPath dir id) = some q) :
    q = if id = str "." then dir else dir ++ [id] := by
  have hvalid : ((!id.isEmpty && (findSub (str "..") id).isNone &&
      decide ((id.splitOn 47).length ≤ 2) && (id.splitOn 47).all (fun s => !s.isEmpty)) &&
        id.all (fun c => isIdByte c || false && c == 47)) = true := by
    by_contra hnot
    rw [validateRegistryId, validateModelComponent, if_neg hnot] at h
    cases h
  simp only [Bool.and_eq_true, Bool.false_and, Bool.or_false, List.all_eq_true] at hvalid
  obtain ⟨⟨⟨⟨hne, hdots⟩, -⟩, -⟩, hbytes⟩ := hvalid
  have hslash : 47 ∉ id := fun hmem => absurd (hbytes 47 hmem) (by decide)
  have hnil : id ≠ [] := by
    rintro rfl
    exact absurd hne (by decide)
  have hhead : id.head? ≠ some 47 := fun hhead => hslash (List.mem_of_mem_head? hhead)
  have hpath := (FileTree.resolve_eq_some hq).1
  rw [joinPath, if_neg hhead, normalizeSteps_dir, pathSteps_of_no_slash hslash] at hpath
  split
  · rename_i hdot
    rw [hdot] at hpath
    exact hpath
  · rename_i hdot
    have hup : id ≠ str ".." := by
      rintro rfl
      exact absurd hdots (by decide)
    rwa [pathStep_name hnil hdot hup] at hpath

end Terllama
