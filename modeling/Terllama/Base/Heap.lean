import Mathlib.Data.List.Nodup
import Mathlib.Data.List.Perm.Basic
import Mathlib.Tactic

/-!
# A heap of owned buffers

A heap gives every buffer that is allocated an identifier that was never used before, and a freed
buffer is gone for good: a pointer to it cannot be mistaken for one to a later buffer. A list of
identifiers is `Owned` if its buffers are live and no buffer is listed twice. Allocation adds to what
is owned (`Owned.allocs`), and freeing one part of it leaves the rest as it was (`Owned.free`).
-/

namespace Terllama

/-- A heap: the contents of the buffers allocated so far, `none` once freed. -/
structure Heap (β : Type) where
  cells : List (Option β)
  deriving DecidableEq, Repr

namespace Heap

section
variable {β : Type} {h : Heap β} {ids rest : List Nat}

/-- The contents of a live buffer. -/
def read (h : Heap β) (id : Nat) : Option β := h.cells[id]?.join

/-- The heap with new buffers of these contents, and their identifiers. -/
def allocs (h : Heap β) (contents : List β) : List Nat × Heap β :=
  ((List.range contents.length).map (h.cells.length + ·), ⟨h.cells ++ contents.map some⟩)

/-- The heap without these buffers. -/
def free (h : Heap β) (ids : List Nat) : Heap β :=
  ⟨h.cells.mapIdx fun id cell => if id ∈ ids then none else cell⟩

theorem lt_of_read {id : Nat} {b : β} (hread : h.read id = some b) : id < h.cells.length := by
  by_contra hge
  rw [read, List.getElem?_eq_none (not_lt.1 hge)] at hread
  cases hread

/-- The live buffers of a heap keep their contents in a later one. -/
def Extends (h h' : Heap β) : Prop := ∃ cells, h'.cells = h.cells ++ cells

theorem Extends.refl (h : Heap β) : h.Extends h := ⟨[], by rw [List.append_nil]⟩

theorem Extends.trans {h₁ h₂ h₃ : Heap β} (h₁₂ : h₁.Extends h₂) (h₂₃ : h₂.Extends h₃) :
    h₁.Extends h₃ := by
  obtain ⟨cells, hcells⟩ := h₁₂
  obtain ⟨cells', hcells'⟩ := h₂₃
  exact ⟨cells ++ cells', by rw [hcells', hcells, List.append_assoc]⟩

theorem Extends.length_le {h h' : Heap β} (hext : h.Extends h') :
    h.cells.length ≤ h'.cells.length := by
  obtain ⟨cells, hcells⟩ := hext
  rw [hcells, List.length_append]
  exact Nat.le_add_right _ _

theorem Extends.read {h h' : Heap β} (hext : h.Extends h') {id : Nat} {b : β}
    (hread : h.read id = some b) : h'.read id = some b := by
  obtain ⟨cells, hcells⟩ := hext
  rw [Heap.read, hcells, List.getElem?_append_left (lt_of_read hread)]
  exact hread

theorem allocs_extends (h : Heap β) (contents : List β) : h.Extends (h.allocs contents).2 :=
  ⟨contents.map some, rfl⟩

/-- New buffers hold their contents. -/
theorem map_read_allocs (h : Heap β) (contents : List β) :
    (h.allocs contents).1.map (h.allocs contents).2.read = contents.map some := by
  apply List.ext_getElem? fun i => ?_
  rw [allocs, List.map_map, List.getElem?_map, List.getElem?_map]
  rcases lt_or_ge i contents.length with hi | hi
  · rw [List.getElem?_range hi, Option.map_some, Function.comp_apply, read,
      List.getElem?_append_right (Nat.le_add_right _ _), Nat.add_sub_cancel_left, List.getElem?_map,
      List.getElem?_eq_getElem hi]
    rfl
  · rw [List.getElem?_eq_none (by rwa [List.length_range]), List.getElem?_eq_none hi]
    rfl

theorem le_of_mem_allocs {contents : List β} {id : Nat} (hid : id ∈ (h.allocs contents).1) :
    h.cells.length ≤ id := by
  obtain ⟨i, -, rfl⟩ := List.mem_map.1 hid
  exact Nat.le_add_right _ _

theorem length_allocs (h : Heap β) (contents : List β) :
    (h.allocs contents).1.length = contents.length := by
  rw [allocs, List.length_map, List.length_range]

theorem read_free_of_notMem {id : Nat} (hid : id ∉ ids) : (h.free ids).read id = h.read id := by
  rw [read, free, List.getElem?_mapIdx, read]
  cases h.cells[id]? with
  | none => rfl
  | some cell => rw [Option.map_some, if_neg hid]

/-- A freed buffer is gone. -/
theorem read_free_of_mem {id : Nat} (hid : id ∈ ids) : (h.free ids).read id = none := by
  rw [read, free, List.getElem?_mapIdx]
  cases h.cells[id]? with
  | none => rfl
  | some cell =>
    rw [Option.map_some, if_pos hid]
    rfl

/-! ## Ownership -/

/-- Live buffers, none of them listed twice. -/
structure Owned (h : Heap β) (ids : List Nat) : Prop where
  nodup : ids.Nodup
  live : ∀ id ∈ ids, ∃ b, h.read id = some b

theorem Owned.perm {ids' : List Nat} (hown : h.Owned ids) (hperm : ids.Perm ids') :
    h.Owned ids' :=
  ⟨hperm.nodup_iff.1 hown.nodup, fun id hid => hown.live id (hperm.mem_iff.2 hid)⟩

theorem Owned.lt (hown : h.Owned ids) {id : Nat} (hid : id ∈ ids) : id < h.cells.length := by
  obtain ⟨b, hb⟩ := hown.live id hid
  exact lt_of_read hb

theorem owned_nil (h : Heap β) : h.Owned [] := ⟨List.nodup_nil, nofun⟩

/-- New buffers are owned along with the old ones. -/
theorem Owned.allocs (hown : h.Owned ids) (contents : List β) :
    (h.allocs contents).2.Owned ((h.allocs contents).1 ++ ids) := by
  constructor
  · refine List.nodup_append'.2 ⟨?_, hown.nodup, ?_⟩
    · exact List.nodup_range.map fun i j hij => Nat.add_left_cancel hij
    · intro id hnew hold
      exact absurd (hown.lt hold) (not_lt.2 (le_of_mem_allocs hnew))
  · intro id hid
    rcases List.mem_append.1 hid with hid | hid
    · have hread := List.mem_map_of_mem (f := (h.allocs contents).2.read) hid
      rw [map_read_allocs] at hread
      obtain ⟨b, -, hb⟩ := List.mem_map.1 hread
      exact ⟨b, hb.symm⟩
    · obtain ⟨b, hb⟩ := hown.live id hid
      exact ⟨b, (allocs_extends h contents).read hb⟩

/-- Freeing a part of what is owned leaves the rest as it was. -/
theorem Owned.read_free (hown : h.Owned (ids ++ rest)) {id : Nat} (hid : id ∈ rest) :
    (h.free ids).read id = h.read id :=
  read_free_of_notMem fun hmem => List.disjoint_of_nodup_append hown.nodup hmem hid

theorem Owned.free (hown : h.Owned (ids ++ rest)) : (h.free ids).Owned rest := by
  refine ⟨hown.nodup.of_append_right, fun id hid => ?_⟩
  rw [hown.read_free hid]
  exact hown.live id (List.mem_append_right _ hid)

end

end Heap

end Terllama
