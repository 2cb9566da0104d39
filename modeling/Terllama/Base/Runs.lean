import Mathlib.Data.Option.Basic

/-!
# Runs of a transition system

A partial step function takes a state and an event; a run takes the events of a list in order and
ends at the first that cannot be taken. `Always` is about the states that a run reaches, `EachStep`
about the steps that it takes. The rule `always_iff_eachStep` reduces the first to the second: an
invariant has to tell, for one step, when the state behind it is a good one.
-/

namespace Terllama

section
variable {σ ε : Type} (step : σ → ε → Option σ)

/-- `P` holds of every state that the events lead to. -/
def Always (P : σ → Prop) : List ε → σ → Prop
  | [], s => P s
  | e :: es, s => P s ∧ ∀ s', step s e = some s' → Always P es s'

/-- `C` holds of every step that is taken, of its event and the state before it. -/
def EachStep (C : σ → ε → Prop) : List ε → σ → Prop
  | [], _ => True
  | e :: es, s => ∀ s', step s e = some s' → C s e ∧ EachStep C es s'

variable {step} {P I : σ → Prop} {C : σ → ε → Prop}

theorem Always.head {es : List ε} {s : σ} (h : Always step P es s) : P s := by
  cases es with
  | nil => exact h
  | cons e es => exact h.1

/-- The state at the end of a run. -/
theorem Always.last {es : List ε} {s s' : σ} (h : Always step P es s)
    (hrun : es.foldlM step s = some s') : P s' := by
  induction es generalizing s with
  | nil =>
    cases hrun
    exact h
  | cons e es ih =>
    obtain ⟨s₁, hs₁, hrun⟩ := Option.bind_eq_some_iff.1 hrun
    exact ih (h.2 s₁ hs₁) hrun

/-- What an invariant implies holds wherever the invariant does. -/
theorem Always.mono {Q : σ → Prop} (hPQ : ∀ s, P s → Q s) {es : List ε} {s : σ}
    (h : Always step P es s) : Always step Q es s := by
  induction es generalizing s with
  | nil => exact hPQ s h
  | cons e es ih => exact ⟨hPQ s h.1, fun s' hs' => ih (h.2 s' hs')⟩

/-- An invariant of the steps that meet a condition holds throughout a run of such steps. -/
theorem always_of_eachStep (hstep : ∀ s e s', I s → C s e → step s e = some s' → I s')
    {es : List ε} {s : σ} (hinit : I s) (h : EachStep step C es s) : Always step I es s := by
  induction es generalizing s with
  | nil => exact hinit
  | cons e es ih =>
    refine ⟨hinit, fun s' hs' => ?_⟩
    obtain ⟨hC, hrest⟩ := h s' hs'
    exact ih (hstep s e s' hinit hC hs') hrest

/-- An invariant of all steps holds throughout a run. -/
theorem always_of_step (hstep : ∀ s e s', I s → step s e = some s' → I s') {es : List ε} {s : σ}
    (hinit : I s) : Always step I es s := by
  induction es generalizing s with
  | nil => exact hinit
  | cons e es ih => exact ⟨hinit, fun s' hs' => ih (hstep s e s' hinit hs')⟩

/-- What steps with a condition do under an invariant that they keep, every step of a run of such
steps does. -/
theorem EachStep.of_invariant {D : σ → ε → Prop}
    (hI : ∀ s e s', I s → C s e → step s e = some s' → I s')
    (hD : ∀ s e s', I s → C s e → step s e = some s' → D s e) {es : List ε} {s : σ} (hinit : I s)
    (h : EachStep step C es s) : EachStep step D es s := by
  induction es generalizing s with
  | nil => trivial
  | cons e es ih =>
    intro s' hs'
    obtain ⟨hC, hrest⟩ := h s' hs'
    exact ⟨hD s e s' hinit hC hs', ih (hI s e s' hinit hC hs') hrest⟩

/-- The condition holds of a step behind the beginning of a run. -/
theorem EachStep.at_end {es : List ε} {e : ε} {s s' : σ} (h : EachStep step C (es ++ [e]) s)
    (hrun : es.foldlM step s = some s') (hstep : (step s' e).isSome) : C s' e := by
  induction es generalizing s with
  | nil =>
    cases hrun
    obtain ⟨s₁, hs₁⟩ := Option.isSome_iff_exists.1 hstep
    exact (h s₁ hs₁).1
  | cons d es ih =>
    obtain ⟨s₁, hs₁, hrun⟩ := Option.bind_eq_some_iff.1 hrun
    exact ih (h s₁ hs₁).2 hrun

/-- Under an invariant that the steps with a condition keep, and under which a step leads to a good
state exactly where it meets the condition, a run stays in good states exactly where all of its steps
meet it. -/
theorem always_iff_eachStep (hI : ∀ s e s', I s → C s e → step s e = some s' → I s')
    (hP : ∀ s e s', I s → step s e = some s' → (P s' ↔ C s e)) {es : List ε} {s : σ}
    (hinit : I s) (hgood : P s) : Always step P es s ↔ EachStep step C es s := by
  induction es generalizing s with
  | nil => exact ⟨fun _ => trivial, fun _ => hgood⟩
  | cons e es ih =>
    constructor
    · intro h s' hs'
      have hP' := (h.2 s' hs').head
      have hC := (hP s e s' hinit hs').1 hP'
      exact ⟨hC, (ih (hI s e s' hinit hC hs') hP').1 (h.2 s' hs')⟩
    · intro h
      refine ⟨hgood, fun s' hs' => ?_⟩
      obtain ⟨hC, hrest⟩ := h s' hs'
      exact (ih (hI s e s' hinit hC hs') ((hP s e s' hinit hs').2 hC)).2 hrest

/-- An invariant that every step keeps holds at the end of a run. -/
theorem invariant_last (hI : ∀ s e s', I s → step s e = some s' → I s') {es : List ε} {s s' : σ}
    (hinit : I s) (hrun : es.foldlM step s = some s') : I s' := by
  induction es generalizing s with
  | nil =>
    cases hrun
    exact hinit
  | cons e es ih =>
    obtain ⟨s₁, hs₁, hrun⟩ := Option.bind_eq_some_iff.1 hrun
    exact ih (hI s e s₁ hinit hs₁) hrun

/-- Where a step keeps a property exactly if it meets a condition, and no step restores it, the
property holds at the end of a run exactly if it holds at the beginning and every step meets the
condition. -/
theorem last_iff_eachStep (hI : ∀ s e s', I s → step s e = some s' → I s')
    (hP : ∀ s e s', I s → step s e = some s' → (P s' ↔ P s ∧ C s e)) {es : List ε} {s s' : σ}
    (hinit : I s) (hrun : es.foldlM step s = some s') : P s' ↔ P s ∧ EachStep step C es s := by
  induction es generalizing s with
  | nil =>
    cases hrun
    exact (and_iff_left trivial).symm
  | cons e es ih =>
    obtain ⟨s₁, hs₁, hrun⟩ := Option.bind_eq_some_iff.1 hrun
    rw [ih (hI s e s₁ hinit hs₁) hrun, hP s e s₁ hinit hs₁, and_assoc]
    refine and_congr_right fun _ => ⟨fun h s₂ hs₂ => ?_, fun h => h s₁ hs₁⟩
    cases hs₁.symm.trans hs₂
    exact h

end

/-! ## Loops as runs -/

section
variable {δ α β : Type}

theorem toOption_eq_some {x : Except δ α} {a : α} : x.toOption = some a ↔ x = .ok a := by
  cases x <;> simp [Except.toOption]

/-- A loop that can fail is a run of its passes, up to the failure. -/
theorem toOption_foldlM (f : β → α → Except δ β) (l : List α) (b : β) :
    (l.foldlM f b).toOption = l.foldlM (fun b a => (f b a).toOption) b := by
  induction l generalizing b with
  | nil => rfl
  | cons a l ih =>
    rw [List.foldlM_cons, List.foldlM_cons]
    cases f b a with
    | error e => rfl
    | ok b' => exact ih b'

end

end Terllama
