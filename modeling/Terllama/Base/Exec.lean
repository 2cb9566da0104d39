import Mathlib.Data.List.Forall2
import Mathlib.Tactic.Common

/-!
# Executions that may throw or be undefined

A function of the source is translated to a function into `Exec`: it returns a value, it lets an
exception leave it (`Fault.exception`, with the text of the exception), or it has no defined
behaviour (`Fault.undefined`): a signed overflow, an access outside a buffer, a read of an
uninitialised variable. The two kinds of fault are kept apart because the callers catch the first
and nothing catches the second.

Signed 32-bit arithmetic is on `Int` through `i32`, which is undefined outside the range of an
`int`; `size_t` arithmetic wraps (`sizeT`).
-/

namespace Terllama

/-- Why an execution has no result. -/
inductive Fault where
  /-- An exception with this text leaves the function. -/
  | exception (what : String)
  /-- The behaviour is undefined. -/
  | undefined (why : String)
  deriving DecidableEq, Repr

/-- A computation that returns, throws, or is undefined. -/
abbrev Exec := Except Fault

/-- `throw std::runtime_error(what)`. -/
def raise {α : Type _} (what : String) : Exec α := .error (.exception what)

/-- Undefined behaviour. -/
def undefined {α : Type _} (why : String) : Exec α := .error (.undefined why)

instance {α : Type _} [DecidableEq α] : DecidableEq (Exec α)
  | .ok a, .ok b => decidable_of_iff (a = b) (by simp)
  | .error e, .error f => decidable_of_iff (e = f) (by simp)
  | .ok _, .error _ => .isFalse nofun
  | .error _, .ok _ => .isFalse nofun

section
variable {ε α β γ : Type _}

@[simp] theorem pure_eq_ok (a : α) : (pure a : Except ε α) = .ok a := rfl

@[simp] theorem ok_bind (a : α) (f : α → Except ε β) : (Except.ok a >>= f) = f a := rfl

@[simp] theorem error_bind (e : ε) (f : α → Except ε β) :
    ((.error e : Except ε α) >>= f) = .error e := rfl

@[simp] theorem raise_bind (s : String) (f : α → Exec β) :
    (raise s >>= f) = raise s := rfl

@[simp] theorem undefined_bind (s : String) (f : α → Exec β) :
    (undefined s >>= f) = undefined s := rfl

@[simp] theorem raise_ne_ok (s : String) (a : α) : raise s ≠ Except.ok a := nofun

@[simp] theorem undefined_ne_ok (s : String) (a : α) : undefined s ≠ Except.ok a := nofun

/-- A bind returns exactly when both of its halves do. -/
theorem bind_eq_ok {x : Except ε α} {f : α → Except ε β} {b : β} :
    (x >>= f) = .ok b ↔ ∃ a, x = .ok a ∧ f a = .ok b := by
  cases x <;> simp

/-! ## Loops -/

/-- A loop whose passes all return, returns the list of what they return. -/
theorem mapM_ok {f : α → Except ε β} {g : α → β} {l : List α} (h : ∀ a ∈ l, f a = .ok (g a)) :
    l.mapM f = .ok (l.map g) := by
  induction l with
  | nil => rfl
  | cons a l ih =>
    rw [List.mapM_cons, h a (by simp), ok_bind, ih fun b hb => h b (by simp [hb])]
    rfl

/-- A loop that returns has passes that all return, with the results in order. -/
theorem forall₂_of_mapM_ok {f : α → Except ε β} {l : List α} {bs : List β}
    (h : l.mapM f = .ok bs) : List.Forall₂ (fun a b => f a = .ok b) l bs := by
  induction l generalizing bs with
  | nil =>
    rw [List.mapM_nil] at h
    cases h
    exact .nil
  | cons a l ih =>
    rw [List.mapM_cons] at h
    obtain ⟨b, hb, h⟩ := bind_eq_ok.1 h
    obtain ⟨bs', hbs, h⟩ := bind_eq_ok.1 h
    cases h
    exact .cons hb (ih hbs)

/-- A loop returns exactly when all of its passes do. -/
theorem exists_mapM_ok_iff {f : α → Except ε β} {l : List α} :
    (∃ bs, l.mapM f = .ok bs) ↔ ∀ a ∈ l, ∃ b, f a = .ok b := by
  induction l with
  | nil => exact ⟨fun _ => nofun, fun _ => ⟨[], rfl⟩⟩
  | cons a l ih =>
    rw [List.mapM_cons, List.forall_mem_cons, ← ih]
    constructor
    · rintro ⟨bs, h⟩
      obtain ⟨b, hb, h⟩ := bind_eq_ok.1 h
      obtain ⟨bs', hbs, -⟩ := bind_eq_ok.1 h
      exact ⟨⟨b, hb⟩, bs', hbs⟩
    · rintro ⟨⟨b, hb⟩, bs, hbs⟩
      exact ⟨b :: bs, by rw [hb, ok_bind, hbs]; rfl⟩

/-- The partner of an element in a pair of related lists. -/
theorem exists_mem_of_forall₂ {R : α → β → Prop} {l : List α} {l' : List β}
    (h : List.Forall₂ R l l') {a : α} (ha : a ∈ l) : ∃ b ∈ l', R a b := by
  induction h with
  | nil => simp at ha
  | @cons x y l l' hxy _ ih =>
    rcases List.mem_cons.1 ha with rfl | ha
    · exact ⟨y, by simp, hxy⟩
    · obtain ⟨b, hb, hab⟩ := ih ha
      exact ⟨b, by simp [hb], hab⟩

/-- A disjunction whose disjuncts all have a value. -/
theorem anyM_ok (bs : List Bool) :
    (bs.map fun b => (.ok b : Except ε Bool)).anyM id = .ok (bs.any id) := by
  induction bs with
  | nil => rfl
  | cons b bs ih =>
    cases b with
    | true => rfl
    | false => exact ih

/-- The disjuncts of a disjunction that is false. -/
theorem eq_ok_false_of_anyM {l : List (Except ε Bool)} (h : l.anyM id = .ok false) :
    ∀ x ∈ l, x = .ok false := by
  induction l with
  | nil => exact nofun
  | cons x l ih =>
    rw [List.anyM] at h
    obtain ⟨b, hb, h⟩ := bind_eq_ok.1 h
    cases b with
    | true => cases h
    | false => exact List.forall_mem_cons.2 ⟨hb, ih h⟩

/-- A disjunction of disjuncts that are false or end in `e`, and not all false, ends in `e`. -/
theorem anyM_eq_error {l : List (Except ε Bool)} {e : ε}
    (h : ∀ x ∈ l, x = .ok false ∨ x = .error e) (hsome : .error e ∈ l) :
    l.anyM id = .error e := by
  induction l with
  | nil => cases hsome
  | cons x l ih =>
    rw [List.forall_mem_cons] at h
    rw [List.anyM, id]
    rcases h.1 with hx | hx
    · rw [hx, ok_bind]
      rcases List.mem_cons.1 hsome with hx' | hl
      · exact absurd (hx'.trans hx) nofun
      · exact ih h.2 hl
    · rw [hx, error_bind]

/-- A loop that threads a state through passes that all return, returns the folded state. -/
theorem foldlM_ok {f : β → α → Exec β} {g : β → α → β} (l : List α) (b : β)
    (h : ∀ b, ∀ a ∈ l, f b a = .ok (g b a)) : l.foldlM f b = .ok (l.foldl g b) := by
  induction l generalizing b with
  | nil => rfl
  | cons a l ih =>
    rw [List.foldlM_cons, h b a (by simp), ok_bind, ih _ fun b c hc => h b c (by simp [hc])]
    rfl

/-- The total rule of a counting loop: every pass that starts in its invariant returns, and ends in
the invariant of the next one. -/
theorem foldlM_range_total {step : β → Nat → Exec β} {I : Nat → β → Prop} {n : Nat} {b : β}
    (hinit : I 0 b)
    (hstep : ∀ i < n, ∀ b, I i b → ∃ b', step b i = .ok b' ∧ I (i + 1) b') :
    ∃ b', (List.range n).foldlM step b = .ok b' ∧ I n b' := by
  induction n with
  | zero => exact ⟨b, rfl, hinit⟩
  | succ n ih =>
    obtain ⟨b₁, hrun, hinv⟩ := ih fun i hi => hstep i (Nat.lt_succ_of_lt hi)
    obtain ⟨b₂, hlast, hinv'⟩ := hstep n (Nat.lt_succ_self n) b₁ hinv
    refine ⟨b₂, ?_, hinv'⟩
    rw [List.range_succ, List.foldlM_append, hrun, ok_bind, List.foldlM_cons, hlast, ok_bind]
    rfl

/-- The partial rule of a counting loop: where it returns, each pass has kept the invariant. -/
theorem foldlM_range_partial {step : β → Nat → Exec β} {I : Nat → β → Prop} {n : Nat}
    {b b' : β}
    (hinit : I 0 b)
    (hstep : ∀ i < n, ∀ b b', I i b → step b i = .ok b' → I (i + 1) b')
    (hrun : (List.range n).foldlM step b = .ok b') : I n b' := by
  induction n generalizing b' with
  | zero =>
    cases hrun
    exact hinit
  | succ n ih =>
    rw [List.range_succ, List.foldlM_append] at hrun
    obtain ⟨b₁, hrun, hlast⟩ := bind_eq_ok.1 hrun
    rw [List.foldlM_cons] at hlast
    obtain ⟨b₂, hlast, hend⟩ := bind_eq_ok.1 hlast
    cases hend
    exact hstep n (Nat.lt_succ_self n) b₁ b'
      (ih (fun i hi => hstep i (Nat.lt_succ_of_lt hi)) hrun) hlast

/-- The exact rule of a counting loop whose state keeps an invariant: it returns where all of its
passes do, and each pass returns under its own condition. -/
theorem foldlM_range_iff {step : β → Nat → Exec β} {I : β → Prop} {P : Nat → Prop} {n : Nat} {b : β}
    (hinit : I b) (hstep : ∀ i < n, ∀ b, I b → (P i → ∃ b', step b i = .ok b') ∧
      ∀ b', step b i = .ok b' → P i ∧ I b') :
    ((∀ i < n, P i) → ∃ b', (List.range n).foldlM step b = .ok b') ∧
      ∀ b', (List.range n).foldlM step b = .ok b' → (∀ i < n, P i) ∧ I b' := by
  constructor
  · intro hP
    obtain ⟨b', hb', -⟩ := foldlM_range_total (I := fun _ => I) hinit fun i hi b hb => by
      obtain ⟨b', hb'⟩ := (hstep i hi b hb).1 (hP i hi)
      exact ⟨b', hb', ((hstep i hi b hb).2 b' hb').2⟩
    exact ⟨b', hb'⟩
  · intro b' hrun
    refine foldlM_range_partial (I := fun i b => (∀ j < i, P j) ∧ I b) ⟨nofun, hinit⟩ ?_ hrun
    rintro i hi b b' ⟨hP, hb⟩ hpass
    obtain ⟨hPi, hb'⟩ := (hstep i hi b hb).2 b' hpass
    refine ⟨fun j hj => ?_, hb'⟩
    rcases Nat.lt_succ_iff_lt_or_eq.1 hj with hj | rfl
    · exact hP j hj
    · exact hPi

/-- The outcome rule of a counting loop whose passes either keep its invariant or end in `e`. -/
theorem foldlM_range_outcome {step : β → Nat → Except ε β} {I : Nat → β → Prop}
    {n : Nat} {b : β} {e : ε} (hinit : I 0 b)
    (hstep : ∀ i < n, ∀ b, I i b →
      (∃ b', step b i = .ok b' ∧ I (i + 1) b') ∨ step b i = .error e) :
    (∃ b', (List.range n).foldlM step b = .ok b' ∧ I n b') ∨
      (List.range n).foldlM step b = .error e := by
  induction n with
  | zero => exact .inl ⟨b, rfl, hinit⟩
  | succ n ih =>
    have ih := ih fun i hi => hstep i (Nat.lt_succ_of_lt hi)
    rw [List.range_succ, List.foldlM_append]
    rcases ih with ⟨b₁, hrun, hinv⟩ | hrun
    · rw [hrun, ok_bind, List.foldlM_cons]
      rcases hstep n (Nat.lt_succ_self n) b₁ hinv with ⟨b₂, hlast, hinv'⟩ | hlast
      · exact .inl ⟨b₂, by rw [hlast, ok_bind]; rfl, hinv'⟩
      · exact .inr (by rw [hlast, error_bind])
    · exact .inr (by rw [hrun, error_bind])

end

/-! ## Executions that do not throw -/

section
variable {α β : Type _}

/-- No exception leaves the execution: it returns or is undefined. -/
def Quiet (x : Exec α) : Prop := ∀ what, x ≠ raise what

theorem quiet_ok (a : α) : Quiet (.ok a) := nofun

theorem quiet_undefined (why : String) : Quiet (undefined why : Exec α) := nofun

theorem Quiet.bind {x : Exec α} {f : α → Exec β} (hx : Quiet x)
    (hf : ∀ a, x = .ok a → Quiet (f a)) : Quiet (x >>= f) := by
  cases x with
  | ok a => exact hf a rfl
  | error e =>
    cases e with
    | exception what => exact absurd rfl (hx what)
    | undefined why => exact quiet_undefined why

/-- A loop of passes that do not throw does not throw. -/
theorem quiet_foldlM {f : β → α → Exec β} {l : List α} (h : ∀ b, ∀ a ∈ l, Quiet (f b a)) (b : β) :
    Quiet (l.foldlM f b) := by
  induction l generalizing b with
  | nil => exact quiet_ok b
  | cons a l ih =>
    rw [List.foldlM_cons]
    exact (h b a (by simp)).bind fun b' _ => ih (fun b a ha => h b a (by simp [ha])) b'

end

/-! ## Machine integers -/

/-- The value of an `int` expression, undefined where it overflows. -/
def i32 (n : Int) : Exec Int :=
  if -2147483648 ≤ n ∧ n ≤ 2147483647 then .ok n else undefined "signed integer overflow"

/-- The value of a 64-bit signed expression, undefined where it overflows. -/
def i64 (n : Int) : Exec Int :=
  if -9223372036854775808 ≤ n ∧ n ≤ 9223372036854775807 then .ok n
  else undefined "signed integer overflow"

/-- A `size_t` expression, reduced modulo `2^64`. -/
def sizeT (n : Int) : Nat := (n % 18446744073709551616).toNat

/-- The conversion of an unsigned word to `int`. -/
def toInt32 (n : Nat) : Int :=
  if n % 4294967296 < 2147483648 then (n % 4294967296 : Nat)
  else (n % 4294967296 : Nat) - 4294967296

/-- A value of an `int32_t`. -/
def IsI32 (n : Int) : Prop := -2147483648 ≤ n ∧ n ≤ 2147483647

instance (n : Int) : Decidable (IsI32 n) := inferInstanceAs (Decidable (_ ∧ _))

theorem toInt32_emod {n : Int} (h : IsI32 n) : toInt32 (n % 4294967296).toNat = n := by
  obtain ⟨hlo, hhi⟩ := h
  unfold toInt32
  rw [Nat.mod_eq_of_lt (by omega)]
  split <;> omega

theorem i32_ok {n : Int} (h₁ : -2147483648 ≤ n) (h₂ : n ≤ 2147483647) : i32 n = .ok n := by
  simp [i32, h₁, h₂]

theorem i64_ok {n : Int} (h₁ : -9223372036854775808 ≤ n) (h₂ : n ≤ 9223372036854775807) :
    i64 n = .ok n := by
  simp [i64, h₁, h₂]

theorem quiet_i32 (n : Int) : Quiet (i32 n) := by
  unfold i32
  split
  · exact quiet_ok n
  · exact quiet_undefined _

/-- An `int` expression has its exact value or none. -/
theorem i32_eq_ok {n m : Int} :
    i32 n = .ok m ↔ m = n ∧ -2147483648 ≤ n ∧ n ≤ 2147483647 := by
  unfold i32
  split
  · rename_i h
    simp only [Except.ok.injEq, h, and_self, and_true]
    exact eq_comm
  · rename_i h
    simp [h]

theorem i64_eq_ok {n m : Int} :
    i64 n = .ok m ↔ m = n ∧ -9223372036854775808 ≤ n ∧ n ≤ 9223372036854775807 := by
  unfold i64
  split
  · rename_i h
    simp only [Except.ok.injEq, h, and_self, and_true]
    exact eq_comm
  · rename_i h
    simp [h]

theorem sizeT_of_nonneg {n : Int} (h₀ : 0 ≤ n) (h : n < 18446744073709551616) :
    sizeT n = n.toNat := by
  rw [sizeT, Int.emod_eq_of_lt h₀ h]

theorem toInt32_of_lt {n : Nat} (h : n < 2147483648) : toInt32 n = n := by
  unfold toInt32
  rw [Nat.mod_eq_of_lt (by omega), if_pos h]

/-- A conversion to `int` sees the low 32 bits only. -/
theorem toInt32_sizeT (n : Nat) : toInt32 (sizeT n) = toInt32 n := by
  have hmod : sizeT (n : Int) % 4294967296 = n % 4294967296 := by
    unfold sizeT
    omega
  rw [toInt32, toInt32, hmod]

theorem toInt32_range (n : Nat) : -2147483648 ≤ toInt32 n ∧ toInt32 n ≤ 2147483647 := by
  unfold toInt32
  split <;> omega

theorem toInt32_nonneg_iff {n : Nat} (h : n < 4294967296) :
    0 ≤ toInt32 n ↔ n < 2147483648 := by
  unfold toInt32
  rw [Nat.mod_eq_of_lt h]
  split <;> omega

/-- The largest number of elements a `std::vector` of elements of `size` bytes may have. -/
def vectorMaxSize (size : Nat) : Nat := 9223372036854775807 / size

/-- The size check of the `std::vector` constructors and of `assign`; allocation itself is taken
to succeed. -/
def vectorAlloc (n size : Nat) : Exec Unit :=
  if n ≤ vectorMaxSize size then .ok ()
  else raise "cannot create std::vector larger than max_size()"

theorem vectorAlloc_ok {n size : Nat} (h : n ≤ vectorMaxSize size) :
    vectorAlloc n size = .ok () := by
  simp [vectorAlloc, h]

theorem le_of_vectorAlloc {n size : Nat} {u : Unit} (h : vectorAlloc n size = .ok u) :
    n ≤ vectorMaxSize size := by
  unfold vectorAlloc at h
  split at h
  · assumption
  · cases h

end Terllama
