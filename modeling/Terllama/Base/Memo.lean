import Mathlib.Logic.Function.Basic
import Mathlib.Tactic.Common

/-!
# A memo of the object used last

A memo keeps what lookups found in an object and starts again when they go on in another one. It
knows the object by its address alone. `allFresh_iff` says when what it returns is what is there: an
object may not change under its address between two lookups of one key, unless there is one in
another object between them.
-/

namespace Terllama

/-- A lookup of a key in the object at an address, and what is there to be found. -/
structure Lookup (A K E V : Type) where
  addr : A
  key : K
  fresh : Except E V

/-- The object of the last lookup, and what was found in it. -/
structure Memo (A K V : Type) where
  owner : Option A := none
  table : K → Option V := fun _ => none

section
variable {A K E V : Type} [DecidableEq A]

/-- The memo for lookups at an address. -/
def Memo.at (m : Memo A K V) (a : A) : Memo A K V :=
  if m.owner = some a then m else { owner := some a }

variable {m : Memo A K V} {k : K} {v : V}

@[simp] theorem Memo.owner_at (m : Memo A K V) (a : A) : (m.at a).owner = some a := by
  unfold Memo.at
  split
  · assumption
  · rfl

theorem Memo.at_of_owner {a : A} (h : m.owner = some a) : m.at a = m := if_pos h

theorem Memo.table_at {a : A} (h : (m.at a).table k = some v) :
    m.owner = some a ∧ m.table k = some v := by
  unfold Memo.at at h
  split at h
  · rename_i howner
    exact ⟨howner, h⟩
  · cases h

variable [DecidableEq K]

/-- A lookup through the memo. -/
def Memo.lookup (m : Memo A K V) (l : Lookup A K E V) : Except E V × Memo A K V :=
  match (m.at l.addr).table l.key with
  | some v => (.ok v, m.at l.addr)
  | none =>
    match l.fresh with
    | .error e => (.error e, m.at l.addr)
    | .ok v => (.ok v, ⟨some l.addr, Function.update (m.at l.addr).table l.key (some v)⟩)

/-- Every lookup returns what is there. -/
def Memo.AllFresh (m : Memo A K V) : List (Lookup A K E V) → Prop
  | [] => True
  | l :: ls => (m.lookup l).1 = l.fresh ∧ (m.lookup l).2.AllFresh ls

/-- As long as the lookups stay at an address, those of the key find the value. -/
def Finds (a : A) (k : K) (v : V) : List (Lookup A K E V) → Prop
  | [] => True
  | l :: ls => l.addr = a → (l.key = k → l.fresh = .ok v) ∧ Finds a k v ls

/-- What a lookup finds, the later ones of its key find as well, as long as they stay at its
address. -/
def Coherent : List (Lookup A K E V) → Prop
  | [] => True
  | l :: ls => (∀ v, l.fresh = .ok v → Finds l.addr l.key v ls) ∧ Coherent ls

variable {l : Lookup A K E V}

theorem Memo.lookup_hit (h : (m.at l.addr).table l.key = some v) :
    m.lookup l = (.ok v, m.at l.addr) := by
  rw [Memo.lookup, h]

theorem Memo.lookup_error {e : E} (h : (m.at l.addr).table l.key = none) (he : l.fresh = .error e) :
    m.lookup l = (.error e, m.at l.addr) := by
  rw [Memo.lookup, h]
  dsimp only
  rw [he]

theorem Memo.lookup_miss (h : (m.at l.addr).table l.key = none) (hv : l.fresh = .ok v) :
    m.lookup l = (.ok v, ⟨some l.addr, Function.update (m.at l.addr).table l.key (some v)⟩) := by
  rw [Memo.lookup, h]
  dsimp only
  rw [hv]

/-- A lookup returns what is there or what the memo holds. -/
theorem Memo.lookup_result (m : Memo A K V) (l : Lookup A K E V) :
    (m.lookup l).1 = l.fresh ∨
      ∃ v, (m.at l.addr).table l.key = some v ∧ (m.lookup l).1 = .ok v := by
  cases hmemo : (m.at l.addr).table l.key with
  | some v => exact Or.inr ⟨v, rfl, by rw [lookup_hit hmemo]⟩
  | none =>
    cases hfresh : l.fresh with
    | error e => exact Or.inl (by rw [lookup_error hmemo hfresh])
    | ok v => exact Or.inl (by rw [lookup_miss hmemo hfresh])

@[simp] theorem Memo.owner_lookup (m : Memo A K V) (l : Lookup A K E V) :
    (m.lookup l).2.owner = some l.addr := by
  cases hmemo : (m.at l.addr).table l.key with
  | some v => rw [lookup_hit hmemo, owner_at]
  | none =>
    cases hfresh : l.fresh with
    | error e => rw [lookup_error hmemo hfresh, owner_at]
    | ok v => rw [lookup_miss hmemo hfresh]

/-- What is returned is kept. -/
theorem Memo.table_lookup_of_ok (h : (m.lookup l).1 = .ok v) :
    (m.lookup l).2.table l.key = some v := by
  cases hmemo : (m.at l.addr).table l.key with
  | some w =>
    rw [lookup_hit hmemo] at h ⊢
    rw [hmemo, Except.ok.inj h]
  | none =>
    cases hfresh : l.fresh with
    | error e =>
      rw [lookup_error hmemo hfresh] at h
      cases h
    | ok w =>
      rw [lookup_miss hmemo hfresh] at h ⊢
      exact (Function.update_self ..).trans (congrArg some (Except.ok.inj h))

/-- What is held for the address is kept. -/
theorem Memo.table_lookup_keep (h : (m.at l.addr).table k = some v) :
    (m.lookup l).2.table k = some v := by
  cases hmemo : (m.at l.addr).table l.key with
  | some w => rw [lookup_hit hmemo, h]
  | none =>
    cases hfresh : l.fresh with
    | error e => rw [lookup_error hmemo hfresh, h]
    | ok w =>
      have hne : k ≠ l.key := by
        rintro rfl
        rw [hmemo] at h
        cases h
      rw [lookup_miss hmemo hfresh]
      exact (Function.update_of_ne hne ..).trans h

/-- What is held was held before or was there. -/
theorem Memo.table_lookup_origin (h : (m.lookup l).2.table k = some v) :
    (m.at l.addr).table k = some v ∨ k = l.key ∧ l.fresh = .ok v := by
  cases hmemo : (m.at l.addr).table l.key with
  | some w =>
    rw [lookup_hit hmemo] at h
    exact Or.inl h
  | none =>
    cases hfresh : l.fresh with
    | error e =>
      rw [lookup_error hmemo hfresh] at h
      exact Or.inl h
    | ok w =>
      rw [lookup_miss hmemo hfresh] at h
      dsimp only at h
      by_cases hkey : k = l.key
      · subst hkey
        rw [Function.update_self] at h
        exact Or.inr ⟨rfl, congrArg _ (Option.some.inj h)⟩
      · rw [Function.update_of_ne hkey] at h
        exact Or.inl h

/-- What the memo holds for the object at an address is what is there to be found. -/
def Memo.Knows (m : Memo A K V) (a : A) (fresh : K → Except E V) : Prop :=
  m.owner = some a → ∀ k v, m.table k = some v → fresh k = .ok v

/-- A lookup through a memo that knows what is there. -/
theorem Memo.Knows.lookup {a : A} {fresh : K → Except E V} (h : m.Knows a fresh) (k : K) :
    (m.lookup ⟨a, k, fresh k⟩).1 = fresh k ∧ (m.lookup ⟨a, k, fresh k⟩).2.Knows a fresh := by
  constructor
  · rcases m.lookup_result ⟨a, k, fresh k⟩ with hfresh | ⟨v, hmemo, hresult⟩
    · exact hfresh
    · obtain ⟨howner, hk⟩ := table_at hmemo
      exact hresult.trans (h howner k v hk).symm
  · intro _ k' v hk'
    rcases table_lookup_origin hk' with hold | ⟨rfl, hfresh⟩
    · obtain ⟨howner, hold⟩ := table_at hold
      exact h howner k' v hold
    · exact hfresh

/-- A run of lookups on from a memo. -/
theorem Memo.allFresh_iff_finds (m : Memo A K V) (ls : List (Lookup A K E V)) :
    m.AllFresh ls ↔
      Coherent ls ∧ ∀ a k v, m.owner = some a → m.table k = some v → Finds a k v ls := by
  induction ls generalizing m with
  | nil => exact iff_of_true trivial ⟨trivial, fun _ _ _ _ _ => trivial⟩
  | cons l ls ih =>
    rw [Memo.AllFresh, ih, Coherent]
    simp only [owner_lookup, Option.some.injEq]
    constructor
    · rintro ⟨hresult, hrest, hfinds⟩
      refine ⟨⟨fun v hv => ?_, hrest⟩, fun a k v howner hk haddr => ?_⟩
      · exact hfinds l.addr l.key v rfl (table_lookup_of_ok (hresult.trans hv))
      · subst haddr
        rw [← at_of_owner howner] at hk
        refine ⟨fun hkey => ?_, hfinds l.addr k v rfl (table_lookup_keep hk)⟩
        rw [← hresult, lookup_hit (hkey ▸ hk)]
    · rintro ⟨⟨hlater, hrest⟩, hfinds⟩
      refine ⟨?_, hrest, ?_⟩
      · rcases m.lookup_result l with hfresh | ⟨v, hmemo, hresult⟩
        · exact hfresh
        · obtain ⟨howner, hk⟩ := table_at hmemo
          exact hresult.trans ((hfinds l.addr l.key v howner hk rfl).1 rfl).symm
      · rintro a k v rfl hk
        rcases table_lookup_origin hk with hold | ⟨rfl, hfresh⟩
        · obtain ⟨howner, hold⟩ := table_at hold
          exact (hfinds l.addr k v howner hold rfl).2
        · exact hlater v hfresh

/-- A run of lookups from the start. -/
theorem allFresh_iff (ls : List (Lookup A K E V)) :
    ({} : Memo A K V).AllFresh ls ↔ Coherent ls := by
  rw [Memo.allFresh_iff_finds]
  exact and_iff_left fun _ _ _ howner => nomatch howner

end

end Terllama
