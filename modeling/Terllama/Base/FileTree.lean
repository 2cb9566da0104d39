import Mathlib.Data.List.Induction
import Mathlib.Data.List.Infix
import Mathlib.Data.List.Nodup

/-!
# Directory trees

Directories and files without links, as the list of the entries with their paths from the root.
`resolve` follows the components of a path as the system does; `below` is what a recursive removal
of a directory takes away.
-/

namespace Terllama

/-- What there is at a path. -/
inductive EntryKind where
  | dir
  | file
  deriving DecidableEq, Repr

/-- A component of a path: an empty one or a dot, two dots, or a name. -/
inductive PathStep (α : Type) where
  | stay
  | up
  | name (n : α)
  deriving DecidableEq, Repr

/-- A tree of directories and files. -/
structure FileTree (α : Type) where
  entries : List (List α × EntryKind)
  nodup : (entries.map Prod.fst).Nodup
  root : ([], .dir) ∈ entries
  parent : ∀ p n k, (p ++ [n], k) ∈ entries → (p, .dir) ∈ entries

section
variable {α : Type}

/-- The path that some components spell, whatever there is. -/
def normalizeSteps : List α → List (PathStep α) → List α
  | p, [] => p
  | p, .stay :: steps => normalizeSteps p steps
  | p, .up :: steps => normalizeSteps p.dropLast steps
  | p, .name n :: steps => normalizeSteps (p ++ [n]) steps

theorem normalizeSteps_append (p : List α) (steps steps' : List (PathStep α)) :
    normalizeSteps p (steps ++ steps') = normalizeSteps (normalizeSteps p steps) steps' := by
  induction steps generalizing p with
  | nil => rfl
  | cons s steps ih => cases s <;> exact ih _

theorem normalizeSteps_names (p names : List α) :
    normalizeSteps p (names.map .name) = p ++ names := by
  induction names generalizing p with
  | nil => exact (List.append_nil p).symm
  | cons n names ih =>
    rw [List.map_cons, normalizeSteps, ih, List.append_assoc]
    rfl

end

section
variable {α : Type} [DecidableEq α] {t : FileTree α} {p q : List α} {k : EntryKind}

/-- What the tree has at a path. -/
def FileTree.kind (t : FileTree α) (p : List α) : Option EntryKind :=
  (t.entries.find? fun e => e.1 = p).map Prod.snd

/-- The path that some components lead to from a path, if there is something at each step. -/
def FileTree.resolve (t : FileTree α) : List α → List (PathStep α) → Option (List α)
  | p, [] => if (t.kind p).isSome then some p else none
  | p, s :: steps =>
    if t.kind p = some .dir then
      match s with
      | .stay => t.resolve p steps
      | .up => t.resolve p.dropLast steps
      | .name n => t.resolve (p ++ [n]) steps
    else none

/-- Without links, a path leads where it says. -/
theorem FileTree.resolve_eq_some {steps : List (PathStep α)} (h : t.resolve p steps = some q) :
    q = normalizeSteps p steps ∧ (t.kind q).isSome := by
  induction steps generalizing p with
  | nil =>
    unfold FileTree.resolve at h
    split at h
    · rename_i hkind
      cases h
      exact ⟨rfl, hkind⟩
    · cases h
  | cons s steps ih =>
    unfold FileTree.resolve at h
    split at h
    · cases s with
      | stay => exact ih h
      | up => exact ih h
      | name n => exact ih h
    · cases h

end

end Terllama
