import Terllama.Base.Bytes
import Terllama.Base.Exec

/-!
# Reading a buffer front to back

`CursorM` moves a position through a buffer in memory; its state is what the buffer holds from the
position on. A read past the end is undefined. `ReadsOff x bytes a` says that `x` reads the value `a`
off `bytes`, whatever follows them: the decoders of a record are put together with `ReadsOff.bind`,
and those of a table with `readsOff_mapM`.
-/

namespace Terllama

/-- A computation that moves a position through a buffer. -/
abbrev CursorM := StateT Bytes Exec

/-- The next `n` bytes. -/
def takeBytes (n : Nat) : CursorM Bytes := fun rest =>
  if n ≤ rest.length then .ok (rest.take n, rest.drop n)
  else undefined "read outside the buffer"

/-- A `uint32_t` copied out of the buffer. -/
def takeU32 : CursorM Nat := do return leNat (← takeBytes 4)

/-- A byte of the buffer. -/
def takeU8 : CursorM UInt8 := do return UInt8.ofNat (leNat (← takeBytes 1))

/-- `pos += n`. -/
def skipBytes (n : Nat) : CursorM Unit := fun rest => .ok ((), rest.drop n)

section
variable {α β : Type}

@[simp] theorem CursorM.bind_apply (x : CursorM α) (f : α → CursorM β) (s : Bytes) :
    (x >>= f) s = x s >>= fun p => f p.1 p.2 := rfl

@[simp] theorem CursorM.pure_apply (a : α) (s : Bytes) : (pure a : CursorM α) s = .ok (a, s) := rfl

@[simp] theorem CursorM.monadLift_apply (x : Exec α) (s : Bytes) :
    (monadLift x : CursorM α) s = x >>= fun a => .ok (a, s) := rfl

@[simp] theorem CursorM.liftM_apply (x : Exec α) (s : Bytes) :
    (liftM x : CursorM α) s = x >>= fun a => .ok (a, s) := rfl

theorem CursorM.run_get (f : Bytes → CursorM β) (s : Bytes) : ((get : CursorM Bytes) >>= f) s = f s s :=
  rfl

theorem CursorM.run_skipBytes (f : Unit → CursorM β) (bytes rest : Bytes) :
    (skipBytes bytes.length >>= f) (bytes ++ rest) = f () rest := by
  rw [CursorM.bind_apply, skipBytes, List.drop_left, ok_bind]

/-- A sequence of reads returns exactly when both halves do. -/
theorem CursorM.bind_eq_ok {x : CursorM α} {f : α → CursorM β} {s : Bytes} {p : β × Bytes} :
    (x >>= f) s = .ok p ↔ ∃ a s', x s = .ok (a, s') ∧ f a s' = .ok p := by
  rw [CursorM.bind_apply, Terllama.bind_eq_ok]
  exact ⟨fun ⟨⟨a, s'⟩, h⟩ => ⟨a, s', h⟩, fun ⟨a, s', h⟩ => ⟨(a, s'), h⟩⟩

/-- `x` reads `a` off `bytes`, whatever follows. -/
def ReadsOff (x : CursorM α) (bytes : Bytes) (a : α) : Prop :=
  ∀ rest, x (bytes ++ rest) = .ok (a, rest)

theorem readsOff_pure (a : α) : ReadsOff (pure a) [] a := fun _ => rfl

/-- A step outside the buffer that returns. -/
theorem CursorM.run_liftM {x : Exec α} {a : α} (h : x = .ok a) (f : α → CursorM β) (s : Bytes) :
    ((liftM x : CursorM α) >>= f) s = f a s := by
  rw [CursorM.bind_apply, CursorM.liftM_apply, h]
  rfl

theorem ReadsOff.bind {x : CursorM α} {f : α → CursorM β} {b₁ b₂ : Bytes} {a : α} {b : β}
    (hx : ReadsOff x b₁ a) (hf : ReadsOff (f a) b₂ b) : ReadsOff (x >>= f) (b₁ ++ b₂) b := by
  intro rest
  rw [CursorM.bind_apply, List.append_assoc, hx, ok_bind]
  exact hf rest

/-- The first step of a sequence, run on its bytes. -/
theorem ReadsOff.run {x : CursorM α} {bytes : Bytes} {a : α} (hx : ReadsOff x bytes a)
    (f : α → CursorM β) (rest : Bytes) : (x >>= f) (bytes ++ rest) = f a rest := by
  rw [CursorM.bind_apply, hx, ok_bind]

/-- A last step that reads nothing. -/
theorem ReadsOff.map {x : CursorM α} {bytes : Bytes} {a : α} (hx : ReadsOff x bytes a) (f : α → β) :
    ReadsOff (do let a ← x; return f a) bytes (f a) := by
  have h : ReadsOff (x >>= fun a => pure (f a)) (bytes ++ []) (f a) := hx.bind (readsOff_pure (f a))
  rwa [List.append_nil] at h

theorem readsOff_takeBytes {bytes : Bytes} {n : Nat} (h : bytes.length = n) :
    ReadsOff (takeBytes n) bytes bytes := by
  intro rest
  subst h
  simp [takeBytes]

theorem readsOff_takeU32 {n : Nat} (h : n < 4294967296) : ReadsOff takeU32 (u32Bytes n) n := by
  have hn : leNat (u32Bytes n) = n := leNat_leBytes_of_lt h
  have hread := (readsOff_takeBytes (leBytes_length 4 n)).map leNat
  rwa [hn] at hread

theorem readsOff_takeU8 (b : UInt8) : ReadsOff takeU8 [b] b := by
  have hb : UInt8.ofNat (leNat [b]) = b := by simp [leNat]
  have hread := (readsOff_takeBytes (show [b].length = 1 from rfl)).map fun bs => UInt8.ofNat (leNat bs)
  rwa [hb] at hread

/-- A loop reads the table of what its passes read. -/
theorem readsOff_mapM {ι : Type} {f : ι → CursorM α} {bytes : ι → Bytes} {g : ι → α} {l : List ι}
    (h : ∀ i ∈ l, ReadsOff (f i) (bytes i) (g i)) :
    ReadsOff (l.mapM f) (l.flatMap bytes) (l.map g) := by
  induction l with
  | nil => exact readsOff_pure []
  | cons i l ih =>
    rw [List.forall_mem_cons] at h
    rw [List.mapM_cons, List.flatMap_cons, List.map_cons]
    exact h.1.bind ((ih h.2).map (g i :: ·))

/-- A counted loop reads a list off the bytes of its elements. -/
theorem readsOff_repeat {ι : Type} {x : CursorM α} {bytes : ι → Bytes} {g : ι → α} {l : List ι}
    (h : ∀ i ∈ l, ReadsOff x (bytes i) (g i)) :
    ReadsOff ((List.range l.length).mapM fun _ => x) (l.flatMap bytes) (l.map g) := by
  induction l with
  | nil => exact readsOff_pure []
  | cons i l ih =>
    rw [List.forall_mem_cons] at h
    rw [List.length_cons, List.range_succ_eq_map, List.mapM_cons, List.mapM_map, List.flatMap_cons,
      List.map_cons]
    exact h.1.bind ((ih h.2).map (g i :: ·))

end

end Terllama
