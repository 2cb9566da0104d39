import Terllama.Base.Buffer

/-!
# The part of a buffer that a function depends on

A function of a buffer depends on a position where two buffers that differ there only lead to
different results. `Decodes` says that the positions are exactly those of a range. A function that
looks at one range decodes another one only if both are empty (`decodes_displaced_iff`).
-/

namespace Terllama

section
variable {α β γ : Type}

/-- Two buffers that hold the same elements from `lo` up to `hi`. -/
structure AgreeOn (buf buf' : List α) (lo hi : Nat) : Prop where
  length_eq : buf.length = buf'.length
  getElem? : ∀ i, lo ≤ i → i < hi → buf[i]? = buf'[i]?

/-- The result of `run` on buffers of `size` elements depends on the element at `i`. -/
def DependsOn (run : List α → β) (size i : Nat) : Prop :=
  ∃ buf buf' : List α, buf.length = size ∧ buf'.length = size ∧ (∀ j ≠ i, buf[j]? = buf'[j]?) ∧
    run buf ≠ run buf'

/-- `run` decodes the `n` elements from `start` on: it depends on these and on no others. -/
def Decodes (run : List α → β) (size start n : Nat) : Prop :=
  ∀ i, DependsOn run size i ↔ start ≤ i ∧ i < start + n

/-- A function that looks at the `n` elements from `pos` on decodes the `n` elements from a later
position on only if there are none. -/
theorem decodes_displaced_iff {run : List α → β} {size pos start n : Nat} (hlt : pos < start)
    (hrun : ∀ buf buf' : List α, buf.length = size → AgreeOn buf buf' pos (pos + n) →
      run buf = run buf') : Decodes run size start n ↔ n = 0 := by
  constructor
  · intro h
    by_contra hne
    -- the last element of the later range is behind the range that is looked at
    obtain ⟨buf, buf', hlen, hlen', hsame, hdiff⟩ :=
      (h (start + (n - 1))).2 ⟨Nat.le_add_right _ _, by omega⟩
    exact hdiff (hrun buf buf' hlen ⟨hlen.trans hlen'.symm, fun i _ hi => hsame i (by omega)⟩)
  · rintro rfl i
    refine ⟨?_, fun hi => by omega⟩
    rintro ⟨buf, buf', hlen, hlen', -, hdiff⟩
    exact absurd (hrun buf buf' hlen ⟨hlen.trans hlen'.symm, fun i hi hi' => by omega⟩) hdiff

variable {buf buf' : List α} {lo hi : Nat}

/-- A slice of a range that two buffers agree on. -/
theorem AgreeOn.slice (h : AgreeOn buf buf' lo hi) {off len : Nat} (hlo : lo ≤ off)
    (hhi : off + len ≤ hi) : slice buf off len = slice buf' off len := by
  unfold Terllama.slice
  rw [h.length_eq]
  have hsame : (buf.drop off).take len = (buf'.drop off).take len := by
    refine List.ext_getElem? fun i => ?_
    rw [List.getElem?_take, List.getElem?_take, List.getElem?_drop, List.getElem?_drop]
    split
    · exact h.getElem? (off + i) (by omega) (by omega)
    · rfl
  rw [hsame]

/-- An element of a range that two buffers agree on. -/
theorem AgreeOn.load (h : AgreeOn buf buf' lo hi) {i : Nat} (hlo : lo ≤ i) (hhi : i < hi) :
    load buf i = load buf' i := by
  unfold Terllama.load
  rw [h.getElem? i hlo hhi]

/-- Two loops with the same passes. -/
theorem foldlM_congr {f g : β → γ → Exec β} {l : List γ} (h : ∀ b, ∀ c ∈ l, f b c = g b c) (b : β) :
    l.foldlM f b = l.foldlM g b := by
  induction l generalizing b with
  | nil => rfl
  | cons c l ih =>
    rw [List.foldlM_cons, List.foldlM_cons, h b c (.head _)]
    exact congrArg _ (funext fun b' => ih (fun b c hc => h b c (List.mem_cons_of_mem _ hc)) b')

end

end Terllama
