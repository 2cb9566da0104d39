import Mathlib.Data.List.Induction
import Mathlib.Data.List.TakeWhile
import Mathlib.Order.Lattice

/-!
# Sliding windows

A sliding window admits an event if fewer than a bound of the events that it admitted for the same key
lie in a window before it. `admitted` is this in terms of the whole log. A queue of the times of a key
that is cut off at the front holds the window of a log (`HoldsWindow`): what is missing from it is too
old for every time to come.
-/

namespace Terllama

section
variable {T : Type} [LinearOrder T]

/-- The queue holds the end of the log, and what it leaves out is before `lo`. -/
structure HoldsWindow (lo : T) (log queue : List T) : Prop where
  sorted : log.Pairwise (· ≤ ·)
  split : ∃ old, log = old ++ queue ∧ ∀ t ∈ old, t < lo

variable {lo lo' : T} {log queue : List T}

theorem holdsWindow_nil (lo : T) : HoldsWindow lo [] [] :=
  ⟨.nil, [], rfl, nofun⟩

theorem HoldsWindow.mono (h : HoldsWindow lo log queue) (hlo : lo ≤ lo') :
    HoldsWindow lo' log queue := by
  obtain ⟨old, hlog, hold⟩ := h.split
  exact ⟨h.sorted, old, hlog, fun t ht => (hold t ht).trans_le hlo⟩

/-- The front of the queue that is before `lo` is cut off. -/
theorem HoldsWindow.expire (h : HoldsWindow lo log queue) :
    HoldsWindow lo log (queue.dropWhile (· < lo)) := by
  obtain ⟨old, hlog, hold⟩ := h.split
  refine ⟨h.sorted, old ++ queue.takeWhile (· < lo), ?_, fun t ht => ?_⟩
  · rw [List.append_assoc, List.takeWhile_append_dropWhile, hlog]
  · rcases List.mem_append.1 ht with ht | ht
    · exact hold t ht
    · simpa using List.mem_takeWhile_imp ht

/-- In a sorted queue, what is left after the cut is what is not before `lo`. -/
theorem dropWhile_lt_eq_filter (h : queue.Pairwise (· ≤ ·)) (lo : T) :
    queue.dropWhile (· < lo) = queue.filter (lo ≤ ·) := by
  induction queue with
  | nil => rfl
  | cons t queue ih =>
    rw [List.pairwise_cons] at h
    rcases lt_or_ge t lo with hlt | hge
    · simp [hlt, ih h.2]
    · have hall : ∀ s ∈ queue, lo ≤ s := fun s hs => hge.trans (h.1 s hs)
      have hkeep : queue.filter (lo ≤ ·) = queue := by simpa using hall
      simp [hge.not_gt, hge, hkeep]

/-- After the cut, the queue has as many times as the log has in the window. -/
theorem HoldsWindow.length_expire (h : HoldsWindow lo log queue) :
    (queue.dropWhile (· < lo)).length = log.countP (lo ≤ ·) := by
  obtain ⟨old, rfl, hold⟩ := h.split
  have hqueue : queue.Pairwise (· ≤ ·) := (List.pairwise_append.1 h.sorted).2.1
  have hzero : old.countP (lo ≤ ·) = 0 := by
    rw [List.countP_eq_zero]
    intro t ht
    simpa using hold t ht
  rw [dropWhile_lt_eq_filter hqueue, List.countP_append, hzero, Nat.zero_add,
    List.countP_eq_length_filter]

/-- A time that is not before those of the log goes to the end of both. -/
theorem HoldsWindow.push (h : HoldsWindow lo log queue) {t : T} (ht : ∀ s ∈ log, s ≤ t) :
    HoldsWindow lo (log ++ [t]) (queue ++ [t]) := by
  obtain ⟨old, hlog, hold⟩ := h.split
  refine ⟨List.pairwise_append.2 ⟨h.sorted, List.pairwise_singleton _ _, fun s hs u hu => ?_⟩, old, ?_,
    hold⟩
  · rw [List.mem_singleton.1 hu]
    exact ht s hs
  · rw [hlog, List.append_assoc]

end

section
variable {κ T : Type} [DecidableEq κ]

/-- The times of a key in a log. -/
def timesOf (key : κ) (log : List (κ × T)) : List T :=
  (log.filter fun e => e.1 = key).map Prod.snd

/-- An event goes to the end of the times of its key. -/
theorem timesOf_concat (key : κ) (log : List (κ × T)) (e : κ × T) : timesOf key (log ++ [e]) =
    if key = e.1 then timesOf key log ++ [e.2] else timesOf key log := by
  unfold timesOf
  split
  · rename_i hkey
    simp [hkey]
  · rename_i hkey
    simp [Ne.symm hkey]

variable [LinearOrder T]

/-- Fewer than `bound` events of the key are in the log from the start of the window on. -/
def Admits (bound : Nat) (start : T → T) (log : List (κ × T)) (e : κ × T) : Prop :=
  (timesOf e.1 log).countP (start e.2 ≤ ·) < bound

instance (bound : Nat) (start : T → T) (log : List (κ × T)) (e : κ × T) :
    Decidable (Admits bound start log e) :=
  inferInstanceAs (Decidable (_ < _))

/-- The events of a trace that a sliding window admits; `start t` is the start of the window that ends
at `t`. -/
def admitted (bound : Nat) (start : T → T) (trace : List (κ × T)) : List (κ × T) :=
  trace.foldl (fun log e => if Admits bound start log e then log ++ [e] else log) []

variable {bound : Nat} {start : T → T}

theorem admitted_concat (trace : List (κ × T)) (e : κ × T) :
    admitted bound start (trace ++ [e]) =
      if Admits bound start (admitted bound start trace) e then admitted bound start trace ++ [e]
      else admitted bound start trace := by
  rw [admitted, List.foldl_append]
  rfl

theorem admitted_subset (trace : List (κ × T)) : admitted bound start trace ⊆ trace := by
  induction trace using List.reverseRecOn with
  | nil => exact List.Subset.refl []
  | append_singleton trace e ih =>
    rw [admitted_concat]
    split
    · exact List.append_subset.2 ⟨List.subset_append_of_subset_left [e] ih,
        List.subset_append_right trace [e]⟩
    · exact List.subset_append_of_subset_left [e] ih

/-- What is admitted of a key is what is admitted of the events of this key alone. -/
theorem filter_admitted (key : κ) (trace : List (κ × T)) :
    (admitted bound start trace).filter (fun e => e.1 = key) =
      admitted bound start (trace.filter fun e => e.1 = key) := by
  induction trace using List.reverseRecOn with
  | nil => rfl
  | append_singleton trace e ih =>
    rw [admitted_concat, List.filter_append]
    rcases eq_or_ne e.1 key with hkey | hkey
    · have hone : [e].filter (fun e => e.1 = key) = [e] := by simp [hkey]
      have hsame : Admits bound start (admitted bound start (trace.filter fun e => e.1 = key)) e ↔
          Admits bound start (admitted bound start trace) e := by
        simp [← ih, Admits, timesOf, hkey]
      rw [hone, admitted_concat, if_congr hsame rfl rfl]
      split
      · rw [List.filter_append, ih, hone]
      · exact ih
    · have hnone : [e].filter (fun e => e.1 = key) = [] := by simp [hkey]
      rw [hnone, List.append_nil, ← ih]
      split
      · rw [List.filter_append, hnone, List.append_nil]
      · rfl

end

end Terllama
