import Terllama.Base.Lanes

/-!
# Executions that fail exactly under a condition

`FailsIff x e P` says that `x` ends in `e` where `P` holds and returns where it does not. The rules
take the condition of a sequence or a loop to the conditions of its steps: a sequence fails when one
of its steps does, whichever comes first. They are for executions whose only fault is `e`, such as
the reads of a kernel from one buffer.
-/

namespace Terllama

variable {ε α β : Type _}

/-- The execution ends in `e` if `P` holds and returns otherwise. -/
structure FailsIff (x : Except ε α) (e : ε) (P : Prop) : Prop where
  fails : P → x = .error e
  returns : ¬ P → ∃ a, x = .ok a

variable {e : ε} {P Q : Prop}

theorem failsIff_ok (a : α) : FailsIff (.ok a) e False := ⟨False.elim, fun _ => ⟨a, rfl⟩⟩

theorem failsIff_error : FailsIff (.error e : Except ε α) e True :=
  ⟨fun _ => rfl, fun h => absurd trivial h⟩

theorem FailsIff.congr {x : Except ε α} (h : FailsIff x e P) (hPQ : P ↔ Q) : FailsIff x e Q :=
  ⟨fun hQ => h.fails (hPQ.2 hQ), fun hQ => h.returns fun hP => hQ (hPQ.1 hP)⟩

/-- And the execution returns under its negation. -/
theorem FailsIff.exists_ok_iff {x : Except ε α} (h : FailsIff x e P) : (∃ a, x = .ok a) ↔ ¬ P := by
  refine ⟨?_, h.returns⟩
  rintro ⟨a, ha⟩ hP
  rw [h.fails hP] at ha
  cases ha

/-- A guarded step. -/
theorem FailsIff.ite {x y : Except ε α} {c : Prop} [Decidable c] (hx : c → FailsIff x e P)
    (hy : ¬ c → FailsIff y e Q) : FailsIff (if c then x else y) e (c ∧ P ∨ ¬ c ∧ Q) := by
  split
  · rename_i hc
    exact (hx hc).congr (by simp [hc])
  · rename_i hc
    exact (hy hc).congr (by simp [hc])

/-- A sequence of two steps, the second of which may use what the first returned. -/
theorem FailsIff.bind {x : Except ε α} {f : α → Except ε β} (hx : FailsIff x e P)
    (hf : ∀ a, x = .ok a → FailsIff (f a) e Q) : FailsIff (x >>= f) e (P ∨ Q) := by
  by_cases hP : P
  · rw [hx.fails hP]
    exact failsIff_error.congr (by simp [hP])
  · obtain ⟨a, ha⟩ := hx.returns hP
    rw [ha, ok_bind]
    exact (hf a ha).congr (by simp [hP])

/-- A loop that collects what its passes return. -/
theorem failsIff_mapM {f : α → Except ε β} {R : α → Prop} {l : List α}
    (h : ∀ a ∈ l, FailsIff (f a) e (R a)) : FailsIff (l.mapM f) e (∃ a ∈ l, R a) := by
  induction l with
  | nil => exact (failsIff_ok []).congr (by simp)
  | cons a l ih =>
    rw [List.forall_mem_cons] at h
    rw [List.mapM_cons]
    refine (h.1.bind fun b _ => (ih h.2).bind fun bs _ => failsIff_ok (b :: bs)).congr ?_
    rw [List.exists_mem_cons_iff, or_false]

/-- A loop that accumulates, with an invariant of the accumulator under which the condition of a
pass does not depend on it. -/
theorem failsIff_foldlM_inv {f : β → α → Except ε β} {I : β → Prop} {R : α → Prop} {l : List α}
    (h : ∀ b, I b → ∀ a ∈ l, FailsIff (f b a) e (R a) ∧ ∀ b', f b a = .ok b' → I b') {b : β}
    (hb : I b) :
    FailsIff (l.foldlM f b) e (∃ a ∈ l, R a) ∧ ∀ b', l.foldlM f b = .ok b' → I b' := by
  induction l generalizing b with
  | nil =>
    refine ⟨(failsIff_ok b).congr (by simp), fun b' hb' => ?_⟩
    cases hb'
    exact hb
  | cons a l ih =>
    obtain ⟨hpass, hinv⟩ := h b hb a List.mem_cons_self
    have htail := fun b' hb' =>
      ih (fun b hb a ha => h b hb a (List.mem_cons_of_mem _ ha)) (hinv b' hb')
    rw [List.foldlM_cons]
    constructor
    · refine (hpass.bind fun b' hb' => (htail b' hb').1).congr ?_
      rw [List.exists_mem_cons_iff]
    · intro b' hrun
      obtain ⟨b₁, hb₁, hrun⟩ := bind_eq_ok.1 hrun
      exact (htail b₁ hb₁).2 b' hrun

/-- A loop that accumulates, the conditions of whose passes do not depend on the accumulator. -/
theorem failsIff_foldlM {f : β → α → Except ε β} {R : α → Prop} {l : List α}
    (h : ∀ b, ∀ a ∈ l, FailsIff (f b a) e (R a)) (b : β) :
    FailsIff (l.foldlM f b) e (∃ a ∈ l, R a) :=
  (failsIff_foldlM_inv (I := fun _ => True) (fun b _ a ha => ⟨h b a ha, fun _ _ => trivial⟩)
    trivial).1

/-- A counting loop. -/
theorem failsIff_foldlM_range {f : β → Nat → Except ε β} {R : Nat → Prop} {n : Nat}
    (h : ∀ b, ∀ i < n, FailsIff (f b i) e (R i)) (b : β) :
    FailsIff ((List.range n).foldlM f b) e (∃ i < n, R i) := by
  refine (failsIff_foldlM (R := R) (fun b i hi => h b i (List.mem_range.1 hi)) b).congr ?_
  simp only [List.mem_range]

/-! ## Reads -/

/-- The fault of a read that leaves its buffer. -/
def readFault : Fault := .undefined "read outside the buffer"

theorem loadu_failsIff {α : Type} (n : Nat) (buf : List α) (off : Nat) (d : α) :
    FailsIff (loadu n buf off d) readFault (buf.length < off + n) := by
  refine (FailsIff.ite (fun _ => failsIff_ok _) fun _ => failsIff_error).congr ?_
  rw [and_false, and_true, false_or, Nat.not_le]

end Terllama
