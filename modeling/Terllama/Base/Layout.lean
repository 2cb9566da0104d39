import Terllama.Base.Buffer

/-!
# Readers and the fields they read

A reader takes a position in a buffer and returns a value with the next position. `Follows` ties it to
the fields that a layout gives it: it returns exactly where all of them lie inside the buffer, and
then at the position that the layout ends at. Readers compose with their layouts (`Follows.bind`).
-/

namespace Terllama

section
variable {α β : Type}

/-- The fields, each a position and a length, lie inside a buffer of `n` bytes. -/
def Inside (n : Nat) (fields : List (Nat × Nat)) : Prop := ∀ f ∈ fields, f.1 + f.2 ≤ n

instance (n : Nat) (fields : List (Nat × Nat)) : Decidable (Inside n fields) :=
  inferInstanceAs (Decidable (∀ f ∈ fields, f.1 + f.2 ≤ n))

theorem inside_nil (n : Nat) : Inside n [] := nofun

theorem inside_cons {n : Nat} {f : Nat × Nat} {fields : List (Nat × Nat)} :
    Inside n (f :: fields) ↔ f.1 + f.2 ≤ n ∧ Inside n fields :=
  List.forall_mem_cons

theorem inside_append {n : Nat} {a b : List (Nat × Nat)} :
    Inside n (a ++ b) ↔ Inside n a ∧ Inside n b :=
  List.forall_mem_append

/-- The reader `x` on a buffer of `n` bytes returns exactly where the fields lie inside the buffer,
and then at position `next`. -/
structure Follows (n : Nat) (x : Exec (α × Nat)) (fields : List (Nat × Nat)) (next : Nat) : Prop where
  returns : Inside n fields → ∃ v, x = .ok (v, next)
  inside : ∀ {v : α} {off : Nat}, x = .ok (v, off) → Inside n fields ∧ off = next

variable {n next next' : Nat} {x : Exec (α × Nat)} {fields fields' : List (Nat × Nat)}

/-- A reader that reads nothing. -/
theorem Follows.ok (n : Nat) (v : α) (off : Nat) : Follows n (.ok (v, off)) [] off where
  returns _ := ⟨v, rfl⟩
  inside h := by
    cases h
    exact ⟨inside_nil n, rfl⟩

/-- A reader that fails, under a layout that lies inside no buffer of the size. -/
theorem Follows.fails {what : String} (h : ¬ Inside n fields) :
    Follows n (raise what : Exec (α × Nat)) fields next where
  returns hin := absurd hin h
  inside hv := nomatch hv

/-- A reader and one that goes on from where it ended. -/
theorem Follows.bind {f : α × Nat → Exec (β × Nat)} (hx : Follows n x fields next)
    (hf : ∀ v, x = .ok (v, next) → Follows n (f (v, next)) fields' next') :
    Follows n (x >>= f) (fields ++ fields') next' where
  returns h := by
    obtain ⟨hin, hin'⟩ := inside_append.1 h
    obtain ⟨v, hv⟩ := hx.returns hin
    obtain ⟨w, hw⟩ := (hf v hv).returns hin'
    exact ⟨w, by rw [hv, ok_bind, hw]⟩
  inside h := by
    obtain ⟨⟨v, off⟩, hv, hw⟩ := bind_eq_ok.1 h
    obtain ⟨hin, hoff⟩ := hx.inside hv
    subst hoff
    obtain ⟨hin', hnext⟩ := (hf v hv).inside hw
    exact ⟨inside_append.2 ⟨hin, hin'⟩, hnext⟩

/-- A reader of one field and one that goes on from where it ended. -/
theorem Follows.cons {field : Nat × Nat} {f : α × Nat → Exec (β × Nat)}
    (hx : Follows n x [field] next)
    (hf : ∀ v, x = .ok (v, next) → Follows n (f (v, next)) fields' next') :
    Follows n (x >>= f) (field :: fields') next' :=
  hx.bind hf

/-- A check before a reader, which passes where the fields lie inside the buffer. -/
theorem Follows.check {c : Exec Unit} {f : Unit → Exec (α × Nat)}
    (hf : Follows n (f ()) fields next) (hc : Inside n fields → c = .ok ()) :
    Follows n (c >>= f) fields next where
  returns h := by
    rw [hc h, ok_bind]
    exact hf.returns h
  inside h := by
    obtain ⟨_, -, h⟩ := bind_eq_ok.1 h
    exact hf.inside h

/-- Another list of the same fields. -/
theorem Follows.congr (hx : Follows n x fields next) (h : Inside n fields ↔ Inside n fields') :
    Follows n x fields' next where
  returns hin := hx.returns (h.2 hin)
  inside hv := (hx.inside hv).imp_left h.1

/-- A reader whose value is recorded. -/
theorem Follows.record {f : α × Nat → Exec (β × Nat)} (hx : Follows n x fields next)
    (hf : ∀ v, ∃ w, f (v, next) = .ok (w, next)) : Follows n (x >>= f) fields next := by
  rw [← List.append_nil fields]
  refine hx.bind fun v _ => ?_
  obtain ⟨w, hw⟩ := hf v
  rw [hw]
  exact Follows.ok n w next

end

end Terllama
