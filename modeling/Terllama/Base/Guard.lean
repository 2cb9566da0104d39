import Mathlib.Logic.Function.Iterate
import Terllama.Base.Cursor

/-!
# Readers that stay inside

`Defined x` says that an execution returns or throws, `Ensures x Q` that it does and that `Q` holds of
what it returns. `x.Safe Q s` is the weakest precondition of a reader at `s`, what a buffer holds from
the position on. The rules take the condition of a reader to conditions of its steps.

A format is often a row of records of which some end the reading with an exception. `Track` describes
such a row by what a record needs, which records end it, and where the next one starts; `Along` ties a
reader to a number of records of a track, and composes (`Along.bind`, `Along.mapM`).
-/

namespace Terllama

section
variable {α β : Type}

/-- The execution returns or throws. -/
def Defined (x : Exec α) : Prop := ∀ why, x ≠ undefined why

theorem defined_ok (a : α) : Defined (.ok a : Exec α) := nofun

theorem defined_raise (what : String) : Defined (raise what : Exec α) := nofun

theorem not_defined_undefined (why : String) : ¬ Defined (undefined why : Exec α) :=
  fun h => h why rfl

/-- A sequence of steps that are defined. -/
theorem Defined.bind {x : Exec α} {f : α → Exec β} (hx : Defined x)
    (hf : ∀ a, x = .ok a → Defined (f a)) : Defined (x >>= f) := by
  cases x with
  | ok a => exact hf a rfl
  | error e =>
    cases e with
    | exception what => exact defined_raise what
    | undefined why => exact absurd rfl (hx why)

/-- The execution is defined, and `Q` holds of what it returns. -/
def Ensures (x : Exec α) (Q : α → Prop) : Prop :=
  match x with
  | .ok a => Q a
  | .error (.exception _) => True
  | .error (.undefined _) => False

theorem defined_iff_ensures {x : Exec α} : Defined x ↔ Ensures x fun _ => True := by
  cases x with
  | ok a => exact ⟨fun _ => trivial, fun _ => nofun⟩
  | error e =>
    cases e with
    | exception what => exact ⟨fun _ => trivial, fun _ => nofun⟩
    | undefined why => exact ⟨fun h => absurd rfl (h why), False.elim⟩

@[simp] theorem ensures_ok {a : α} {Q : α → Prop} : Ensures (.ok a) Q ↔ Q a := Iff.rfl

theorem ensures_raise (what : String) (Q : α → Prop) : Ensures (raise what) Q := trivial

theorem not_ensures_undefined (why : String) (Q : α → Prop) : ¬ Ensures (undefined why) Q := id

theorem ensures_congr {x : Exec α} {Q Q' : α → Prop} (h : ∀ a, Q a ↔ Q' a) :
    Ensures x Q ↔ Ensures x Q' := by
  rw [funext fun a => propext (h a)]

theorem ensures_bind {x : Exec α} {f : α → Exec β} {Q : β → Prop} :
    Ensures (x >>= f) Q ↔ Ensures x fun a => Ensures (f a) Q := by
  cases x with
  | ok a => exact Iff.rfl
  | error e =>
    cases e with
    | exception what => exact Iff.rfl
    | undefined why => exact Iff.rfl

theorem Ensures.mono {x : Exec α} {Q Q' : α → Prop} (h : Ensures x Q) (hQ : ∀ a, Q a → Q' a) :
    Ensures x Q' := by
  cases x with
  | ok a => exact hQ a h
  | error e =>
    cases e with
    | exception what => exact trivial
    | undefined why => exact h

theorem Ensures.bind {x : Exec α} {f : α → Exec β} {P : α → Prop} {Q : β → Prop} (hx : Ensures x P)
    (hf : ∀ a, P a → Ensures (f a) Q) : Ensures (x >>= f) Q :=
  ensures_bind.2 (hx.mono hf)

theorem Ensures.map {x : Exec α} {f : α → β} {P : α → Prop} (hx : Ensures x P) :
    Ensures (x.map f) fun b => ∃ a, P a ∧ f a = b := by
  cases x with
  | ok a => exact ⟨a, hx, rfl⟩
  | error e =>
    cases e with
    | exception what => exact trivial
    | undefined why => exact hx

/-- A counting loop whose passes keep an invariant. -/
theorem ensures_foldlM_range {step : β → Nat → Exec β} {I : Nat → β → Prop} {n : Nat} {b : β}
    (hinit : I 0 b) (hstep : ∀ i < n, ∀ b, I i b → Ensures (step b i) (I (i + 1))) :
    Ensures ((List.range n).foldlM step b) (I n) := by
  induction n with
  | zero => exact hinit
  | succ n ih =>
    rw [List.range_succ, List.foldlM_append]
    refine (ih fun i hi => hstep i (Nat.lt_succ_of_lt hi)).bind fun b' hb' => ?_
    rw [List.foldlM_cons]
    exact (hstep n (Nat.lt_succ_self n) b' hb').bind fun b'' hb'' => hb''

/-- An execution that throws nothing ensures what holds of the value it returns. -/
theorem Quiet.ensures_iff {x : Exec α} (h : Quiet x) {Q : α → Prop} :
    Ensures x Q ↔ ∃ a, x = .ok a ∧ Q a := by
  cases x with
  | ok a => exact ⟨fun hQ => ⟨a, rfl, hQ⟩, fun ⟨b, hb, hQ⟩ => by cases hb; exact hQ⟩
  | error e =>
    cases e with
    | exception what => exact absurd rfl (h what)
    | undefined why => exact ⟨False.elim, fun ⟨_, hb, _⟩ => nomatch hb⟩

/-- An `int` expression is defined where its value is one. -/
theorem ensures_i32 {n : Int} {Q : Int → Prop} : Ensures (i32 n) Q ↔ IsI32 n ∧ Q n := by
  unfold i32
  split
  · rename_i h
    exact (and_iff_right h).symm
  · rename_i h
    exact ⟨False.elim, fun hQ => absurd hQ.1 h⟩

/-- A size that a vector may not have ends in an exception. -/
theorem ensures_vectorAlloc {n size : Nat} {Q : Unit → Prop} :
    Ensures (vectorAlloc n size) Q ↔ (n ≤ vectorMaxSize size → Q ()) := by
  unfold vectorAlloc
  split
  · rename_i h
    exact ⟨fun hQ _ => hQ, fun hQ => hQ h⟩
  · rename_i h
    exact ⟨fun _ hle => absurd hle h, fun _ => ensures_raise _ _⟩

/-- The reader is defined at `s`, and `Q` holds of its value and what is left where it returns. -/
def CursorM.Safe (x : CursorM α) (Q : α → Bytes → Prop) (s : Bytes) : Prop :=
  Ensures (x s) fun p => Q p.1 p.2

variable {x : CursorM α} {f : α → CursorM β} {Q : α → Bytes → Prop} {R : β → Bytes → Prop} {s : Bytes}

theorem CursorM.safe_congr {Q' : α → Bytes → Prop} (h : ∀ a s, Q a s ↔ Q' a s) :
    x.Safe Q s ↔ x.Safe Q' s :=
  ensures_congr fun p => h p.1 p.2

/-- A reader that returns is safe where its value and the rest meet the condition. -/
theorem CursorM.safe_of_ok {a : α} {s' : Bytes} (h : x s = .ok (a, s')) : x.Safe Q s ↔ Q a s' := by
  rw [CursorM.Safe, h, ensures_ok]

@[simp] theorem CursorM.safe_pure (a : α) : CursorM.Safe (pure a) Q s ↔ Q a s := Iff.rfl

@[simp] theorem CursorM.safe_bind :
    CursorM.Safe (x >>= f) R s ↔ x.Safe (fun a s' => (f a).Safe R s') s := by
  rw [CursorM.Safe, CursorM.bind_apply, ensures_bind]
  exact Iff.rfl

/-- A step outside the buffer. -/
@[simp] theorem CursorM.safe_liftM (y : Exec α) :
    CursorM.Safe (liftM y) Q s ↔ Ensures y fun a => Q a s := by
  rw [CursorM.Safe, CursorM.liftM_apply, ensures_bind]
  exact Iff.rfl

/-- A step that throws. -/
theorem CursorM.safe_raise (what : String) :
    CursorM.Safe (liftM (raise what : Exec α) : CursorM α) Q s := by
  rw [CursorM.safe_liftM]
  exact ensures_raise what _

@[simp] theorem CursorM.safe_get {Q : Bytes → Bytes → Prop} :
    CursorM.Safe (get : CursorM Bytes) Q s ↔ Q s s :=
  CursorM.safe_of_ok rfl

@[simp] theorem CursorM.safe_takeBytes {Q : Bytes → Bytes → Prop} (n : Nat) :
    CursorM.Safe (takeBytes n) Q s ↔ n ≤ s.length ∧ Q (s.take n) (s.drop n) := by
  by_cases h : n ≤ s.length
  · rw [CursorM.safe_of_ok (if_pos h)]
    exact ⟨fun hQ => ⟨h, hQ⟩, fun hQ => hQ.2⟩
  · have hcut : takeBytes n s = undefined "read outside the buffer" := if_neg h
    refine ⟨fun hQ => ?_, fun hQ => absurd hQ.1 h⟩
    rw [CursorM.Safe, hcut] at hQ
    exact absurd hQ (not_ensures_undefined _ _)

/-- The `uint32_t` at the front of what is left. -/
def frontWord (s : Bytes) : Nat := leNat (s.take 4)

theorem frontWord_lt (s : Bytes) : frontWord s < 4294967296 := by
  have hlen : (s.take 4).length ≤ 4 := List.length_take_le 4 s
  exact (leNat_lt (s.take 4)).trans_le (Nat.pow_le_pow_right (by decide) hlen)

@[simp] theorem CursorM.safe_takeU32 {Q : Nat → Bytes → Prop} :
    CursorM.Safe takeU32 Q s ↔ 4 ≤ s.length ∧ Q (frontWord s) (s.drop 4) := by
  rw [takeU32, CursorM.safe_bind, CursorM.safe_takeBytes, CursorM.safe_pure]
  rfl

@[simp] theorem CursorM.safe_takeU8 {Q : UInt8 → Bytes → Prop} :
    CursorM.Safe takeU8 Q s ↔ 1 ≤ s.length ∧ Q (s.headD 0) (s.drop 1) := by
  rw [takeU8, CursorM.safe_bind, CursorM.safe_takeBytes]
  refine and_congr_right fun h => ?_
  rw [CursorM.safe_pure]
  cases s with
  | nil => exact absurd h (by decide)
  | cons b s => simp [leNat]

@[simp] theorem CursorM.safe_skipBytes {Q : Unit → Bytes → Prop} (n : Nat) :
    CursorM.Safe (skipBytes n) Q s ↔ Q () (s.drop n) :=
  CursorM.safe_of_ok rfl

/-! ## Rows of values -/

/-- A counted loop of passes with a value each that depends on nothing but what is left. -/
theorem CursorM.safe_repeat {fits : Bytes → Prop} {value : Bytes → α} {past : Bytes → Bytes}
    (h : ∀ Q s, x.Safe Q s ↔ fits s ∧ Q (value s) (past s)) (n : Nat) (Q : List α → Bytes → Prop)
    (s : Bytes) :
    CursorM.Safe ((List.range n).mapM fun _ => x) Q s ↔
      (∀ i < n, fits (past^[i] s)) ∧
        Q ((List.range n).map fun i => value (past^[i] s)) (past^[n] s) := by
  induction n generalizing Q s with
  | zero => simp
  | succ n ih =>
    rw [List.range_succ_eq_map, List.mapM_cons, List.mapM_map, CursorM.safe_bind, h]
    simp only [CursorM.safe_bind, CursorM.safe_pure, ih, List.map_cons, List.map_map,
      Function.comp_def, Function.iterate_succ_apply, Function.iterate_zero_apply]
    rw [Nat.forall_lt_succ_left, and_assoc]
    rfl

/-! ## Rows of records -/

/-- A row of records: what a record needs, which records end the reading with an exception, and where
the next one starts. -/
structure Track where
  fits : Bytes → Prop
  stops : Bytes → Prop
  past : Bytes → Bytes

/-- `n` records have what they need, up to the first that ends the reading. -/
def Track.Fits (t : Track) (n : Nat) (s : Bytes) : Prop :=
  ∀ i < n, (∀ j < i, ¬ t.stops (t.past^[j] s)) → t.fits (t.past^[i] s)

/-- One of `n` records ends the reading. -/
def Track.Stops (t : Track) (n : Nat) (s : Bytes) : Prop := ∃ i < n, t.stops (t.past^[i] s)

variable {t : Track} {m n : Nat}

theorem Track.fits_succ :
    t.Fits (n + 1) s ↔ t.fits s ∧ (t.stops s ∨ t.Fits n (t.past s)) := by
  constructor
  · intro h
    refine ⟨h 0 (Nat.succ_pos n) nofun, or_iff_not_imp_left.2 fun hgo i hi hbefore => ?_⟩
    refine h (i + 1) (Nat.succ_lt_succ hi) fun j hj => ?_
    cases j with
    | zero => exact hgo
    | succ j => exact hbefore j (Nat.lt_of_succ_lt_succ hj)
  · rintro ⟨hfirst, hrest⟩ i hi hbefore
    cases i with
    | zero => exact hfirst
    | succ i =>
      have hgo : ¬ t.stops s := hbefore 0 (Nat.succ_pos i)
      exact hrest.resolve_left hgo i (Nat.lt_of_succ_lt_succ hi)
        fun j hj => hbefore (j + 1) (Nat.succ_lt_succ hj)

theorem Track.stops_succ : t.Stops (n + 1) s ↔ t.stops s ∨ t.Stops n (t.past s) := by
  constructor
  · rintro ⟨i, hi, hstop⟩
    cases i with
    | zero => exact .inl hstop
    | succ i => exact .inr ⟨i, Nat.lt_of_succ_lt_succ hi, hstop⟩
  · rintro (hstop | ⟨i, hi, hstop⟩)
    · exact ⟨0, Nat.succ_pos n, hstop⟩
    · exact ⟨i + 1, Nat.succ_lt_succ hi, hstop⟩

theorem Track.fits_zero : t.Fits 0 s := nofun

theorem Track.not_stops_zero : ¬ t.Stops 0 s := nofun

theorem Track.fits_one : t.Fits 1 s ↔ t.fits s := by
  rw [Track.fits_succ]
  exact and_iff_left (.inr Track.fits_zero)

theorem Track.stops_one : t.Stops 1 s ↔ t.stops s := by
  rw [Track.stops_succ]
  exact or_iff_left Track.not_stops_zero

theorem Track.stops_add :
    t.Stops (m + n) s ↔ t.Stops m s ∨ t.Stops n (t.past^[m] s) := by
  induction m generalizing s with
  | zero =>
    rw [Nat.zero_add, or_iff_right Track.not_stops_zero, Function.iterate_zero_apply]
  | succ m ih =>
    rw [Nat.succ_add, Track.stops_succ, ih, Track.stops_succ, or_assoc, Function.iterate_succ_apply]

theorem Track.fits_add :
    t.Fits (m + n) s ↔ t.Fits m s ∧ (t.Stops m s ∨ t.Fits n (t.past^[m] s)) := by
  induction m generalizing s with
  | zero =>
    rw [Nat.zero_add, and_iff_right Track.fits_zero, or_iff_right Track.not_stops_zero,
      Function.iterate_zero_apply]
  | succ m ih =>
    rw [Nat.succ_add, Track.fits_succ, ih, Track.fits_succ, Track.stops_succ,
      Function.iterate_succ_apply]
    tauto

/-- The reader goes along `n` records of a track, whatever it makes of them. -/
def CursorM.Along (x : CursorM α) (t : Track) (n : Nat) : Prop :=
  ∀ (next : Bytes → Prop) (s : Bytes),
    x.Safe (fun _ => next) s ↔ t.Fits n s ∧ (t.Stops n s ∨ next (t.past^[n] s))

/-- A reader of one record. -/
theorem CursorM.along_one
    (h : ∀ (next : Bytes → Prop) (s : Bytes),
      x.Safe (fun _ => next) s ↔ t.fits s ∧ (t.stops s ∨ next (t.past s))) : x.Along t 1 := by
  intro next s
  rw [h, Track.fits_one, Track.stops_one, Function.iterate_one]

theorem CursorM.along_pure (a : α) : CursorM.Along (pure a) t 0 := by
  intro next s
  rw [CursorM.safe_pure]
  exact ⟨fun h => ⟨Track.fits_zero, .inr h⟩, fun h => h.2.resolve_left Track.not_stops_zero⟩

/-- Two readers in a row, the second along its records whatever the first made of its own. -/
theorem CursorM.Along.bind (hx : x.Along t m) (hf : ∀ a, (f a).Along t n) :
    CursorM.Along (x >>= f) t (m + n) := by
  intro next s
  rw [CursorM.safe_bind, CursorM.safe_congr fun a s' => hf a next s', hx, Track.fits_add,
    Track.stops_add, Nat.add_comm, Function.iterate_add_apply]
  tauto

/-- A loop whose passes all go along the same number of records. -/
theorem CursorM.Along.mapM {ι : Type} {f : ι → CursorM α} (h : ∀ i, (f i).Along t m) (l : List ι) :
    CursorM.Along (l.mapM f) t (l.length * m) := by
  induction l with
  | nil =>
    rw [List.length_nil, Nat.zero_mul]
    exact CursorM.along_pure []
  | cons i l ih =>
    rw [List.mapM_cons, List.length_cons, Nat.succ_mul, Nat.add_comm]
    exact (h i).bind fun a => ih.bind fun as => CursorM.along_pure (a :: as)

end

end Terllama
