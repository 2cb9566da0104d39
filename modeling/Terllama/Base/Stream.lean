import Terllama.Base.Exec
import Terllama.Base.Bytes

/-!
# Reading a file as a stream

`InStream` is a `std::ifstream` opened in binary mode: the bytes not read yet and the failure bit.
A read that finds too few bytes delivers those it finds and sets the failure bit, and every later
read delivers nothing. What the destination then holds depends on the destination: `readInto`
keeps the bytes it held before, while a variable that was never initialised has no value, so that
`readFresh` is undefined (the source tests no stream after a read).
-/

namespace Terllama

/-- An input file stream: the bytes ahead of the read position, and the failure bit. -/
structure InStream where
  rest : Bytes
  fail : Bool
  deriving DecidableEq, Repr

/-- A computation that reads from a stream. -/
abbrev StreamM := StateT InStream Exec

/-- The stream of a file that was just opened. -/
def InStream.open (file : Bytes) : InStream := ⟨file, false⟩

/-- `f.read(dst, n)` where the `n` bytes at `dst` are `old`. -/
def readInto (old : Bytes) : StreamM Bytes := fun s =>
  if s.fail then .ok (old, s)
  else
    let got := s.rest.take old.length
    .ok (got ++ old.drop got.length, ⟨s.rest.drop old.length, got.length < old.length⟩)

/-- `f.read(dst, n)` where `dst` is an uninitialised variable. -/
def readFresh (n : Nat) (var : String) : StreamM Bytes := fun s =>
  if s.fail ∨ s.rest.length < n then undefined s!"use of uninitialised {var}"
  else .ok (s.rest.take n, ⟨s.rest.drop n, false⟩)

/-- A `uint32_t` read into an uninitialised variable. -/
def readU32 (var : String) : StreamM UInt32 := do
  return UInt32.ofNat (leNat (← readFresh 4 var))

/-- A `uint8_t` read into an uninitialised variable. -/
def readU8 (var : String) : StreamM UInt8 := do
  return UInt8.ofNat (leNat (← readFresh 1 var))

/-- An `int32_t` read into a field that holds `0`. -/
def readI32 : StreamM Int := do
  return toInt32 (leNat (← readInto [0, 0, 0, 0]))

/-- `f.seekg(n, std::ios::cur)`, which does nothing on a failed stream. -/
def seekCur (n : Nat) : StreamM Unit := fun s =>
  if s.fail then .ok ((), s) else .ok ((), ⟨s.rest.drop n, false⟩)

/-! ## One read at a time -/

section
variable {α β : Type}

@[simp] theorem StreamM.bind_apply (x : StreamM α) (f : α → StreamM β) (s : InStream) :
    (x >>= f) s = x s >>= fun p => f p.1 p.2 := rfl

@[simp] theorem StreamM.pure_apply (a : α) (s : InStream) :
    (pure a : StreamM α) s = .ok (a, s) := rfl

@[simp] theorem StreamM.liftM_apply (x : Exec α) (s : InStream) :
    (liftM x : StreamM α) s = x >>= fun a => .ok (a, s) := rfl

@[simp] theorem StreamM.monadLift_apply (x : Exec α) (s : InStream) :
    (monadLift x : StreamM α) s = x >>= fun a => .ok (a, s) := rfl

/-- A sequence of reads returns exactly when both halves do. -/
theorem StreamM.bind_eq_ok {x : StreamM α} {f : α → StreamM β} {s : InStream}
    {p : β × InStream} :
    (x >>= f) s = .ok p ↔ ∃ a s', x s = .ok (a, s') ∧ f a s' = .ok p := by
  rw [StreamM.bind_apply, Terllama.bind_eq_ok]
  exact ⟨fun ⟨⟨a, s'⟩, h⟩ => ⟨a, s', h⟩, fun ⟨a, s', h⟩ => ⟨(a, s'), h⟩⟩

end

/-- A read of bytes that are there. -/
theorem readInto_append (old : Bytes) {a : Bytes} (h : a.length = old.length) (rest : Bytes) :
    readInto old ⟨a ++ rest, false⟩ = .ok (a, ⟨rest, false⟩) := by
  simp [readInto, ← h]

theorem readFresh_append {a : Bytes} {n : Nat} (h : a.length = n) (var : String) (rest : Bytes) :
    readFresh n var ⟨a ++ rest, false⟩ = .ok (a, ⟨rest, false⟩) := by
  simp [readFresh, ← h]

theorem readU32_append (n : Nat) (var : String) (rest : Bytes) :
    readU32 var ⟨u32Bytes n ++ rest, false⟩ = .ok (UInt32.ofNat n, ⟨rest, false⟩) := by
  have hn : UInt32.ofNat (leNat (u32Bytes n)) = UInt32.ofNat n := by
    apply UInt32.toNat_inj.1
    rw [leNat_leBytes, UInt32.toNat_ofNat', UInt32.toNat_ofNat']
    omega
  simp [readU32, readFresh_append (leBytes_length 4 n), hn]

theorem readU8_cons (b : UInt8) (var : String) (rest : Bytes) :
    readU8 var ⟨b :: rest, false⟩ = .ok (b, ⟨rest, false⟩) := by
  have h : readFresh 1 var ⟨b :: rest, false⟩ = .ok ([b], ⟨rest, false⟩) :=
    readFresh_append (a := [b]) rfl var rest
  simp [readU8, h, leNat]

theorem readI32_append (n : Nat) (rest : Bytes) :
    readI32 ⟨u32Bytes n ++ rest, false⟩ = .ok (toInt32 n, ⟨rest, false⟩) := by
  have hn : toInt32 (leNat (u32Bytes n)) = toInt32 n := by
    rw [leNat_leBytes]
    simp only [toInt32]
    omega
  simp [readI32, readInto_append [0, 0, 0, 0] (leBytes_length 4 n), hn]

theorem readInto_length {old bs : Bytes} {s s' : InStream} (h : readInto old s = .ok (bs, s')) :
    bs.length = old.length := by
  unfold readInto at h
  split at h
  · simp only [Except.ok.injEq, Prod.mk.injEq] at h
    rw [← h.1]
  · simp only [Except.ok.injEq, Prod.mk.injEq] at h
    rw [← h.1]
    simp

/-- A field that was read is in the range of an `int`. -/
theorem readI32_range {v : Int} {s s' : InStream} (h : readI32 s = .ok (v, s')) :
    -2147483648 ≤ v ∧ v ≤ 2147483647 := by
  obtain ⟨bs, s₁, -, h⟩ := StreamM.bind_eq_ok.1 h
  cases h
  exact toInt32_range _

/-- What a read of an uninitialised variable that returns has consumed. -/
theorem readFresh_eq_ok {n : Nat} {var : String} {s s' : InStream} {bs : Bytes}
    (h : readFresh n var s = .ok (bs, s')) :
    s.fail = false ∧ bs.length = n ∧ s.rest = bs ++ s'.rest ∧ s'.fail = false := by
  unfold readFresh at h
  split at h
  · simp at h
  · rename_i hs
    simp only [not_or, Bool.not_eq_true, not_lt] at hs
    simp only [Except.ok.injEq, Prod.mk.injEq] at h
    obtain ⟨rfl, rfl⟩ := h
    simp [hs.1, hs.2]

theorem readU32_eq_ok {var : String} {s s' : InStream} {v : UInt32}
    (h : readU32 var s = .ok (v, s')) :
    ∃ bs : Bytes, bs.length = 4 ∧ v = UInt32.ofNat (leNat bs) ∧ s = ⟨bs ++ s'.rest, false⟩ := by
  obtain ⟨bs, s₁, hread, h⟩ := StreamM.bind_eq_ok.1 h
  cases h
  obtain ⟨hfail, hlen, hrest, -⟩ := readFresh_eq_ok hread
  exact ⟨bs, hlen, rfl, by rw [← hrest, ← hfail]⟩

/-- What a read into a buffer has consumed where it was not short. -/
theorem readInto_eq_ok {old bs : Bytes} {s s' : InStream} (h : readInto old s = .ok (bs, s'))
    (hfail : s'.fail = false) : s = ⟨bs ++ s'.rest, false⟩ := by
  unfold readInto at h
  split at h
  · rename_i hs
    cases h
    exact absurd (hs.symm.trans hfail) (by decide)
  · rename_i hs
    cases h
    have hlen := of_decide_eq_false hfail
    rw [List.length_take] at hlen
    have hdrop : old.drop (s.rest.take old.length).length = [] :=
      List.drop_eq_nil_of_le (by rw [List.length_take]; omega)
    rw [hdrop, List.append_nil, List.take_append_drop, ← eq_false_of_ne_true hs]

theorem readI32_eq_ok {s s' : InStream} {v : Int} (h : readI32 s = .ok (v, s'))
    (hfail : s'.fail = false) :
    ∃ bs : Bytes, bs.length = 4 ∧ v = toInt32 (leNat bs) ∧ s = ⟨bs ++ s'.rest, false⟩ := by
  obtain ⟨bs, s₁, hread, h⟩ := StreamM.bind_eq_ok.1 h
  cases h
  exact ⟨bs, readInto_length hread, rfl, readInto_eq_ok hread hfail⟩

/-! ## Reads that stay inside the file -/

section
variable {α β : Type}

/-- Where `x` returns and leaves a stream that has not failed, it has taken the next `n` bytes. -/
def Takes (x : StreamM α) (n : Nat) : Prop :=
  ∀ s a s', x s = .ok (a, s') → s'.fail = false →
    s.fail = false ∧ n ≤ s.rest.length ∧ s' = ⟨s.rest.drop n, false⟩

theorem takes_pure (a : α) : Takes (pure a) 0 := by
  intro s a s' h hfail
  cases h
  exact ⟨hfail, Nat.zero_le _, by rw [List.drop_zero, ← hfail]⟩

theorem takes_liftM (x : Exec α) : Takes (liftM x : StreamM α) 0 := by
  intro s a s' h hfail
  rw [StreamM.liftM_apply] at h
  obtain ⟨b, -, h⟩ := Terllama.bind_eq_ok.1 h
  exact takes_pure b s a s' h hfail

theorem Takes.bind {x : StreamM α} {f : α → StreamM β} {m n : Nat} (hx : Takes x m)
    (hf : ∀ a, Takes (f a) n) : Takes (x >>= f) (m + n) := by
  intro s b s' h hfail
  obtain ⟨a, s₁, hfirst, h⟩ := StreamM.bind_eq_ok.1 h
  obtain ⟨hfail₁, hlen₁, rfl⟩ := hf a s₁ b s' h hfail
  obtain ⟨hfail₀, hlen, rfl⟩ := hx s a s₁ hfirst hfail₁
  rw [List.length_drop] at hlen₁
  exact ⟨hfail₀, by omega, by rw [List.drop_drop]⟩

theorem Takes.map {x : StreamM α} {n : Nat} (hx : Takes x n) (f : α → β) :
    Takes (do let a ← x; return f a) n := by
  have h := hx.bind fun a => takes_pure (f a)
  rwa [Nat.add_zero] at h

theorem takes_readInto (old : Bytes) : Takes (readInto old) old.length := by
  intro s a s' h hfail
  unfold readInto at h
  split at h
  · rename_i hs
    cases h
    exact absurd hfail (by rw [hs]; decide)
  · rename_i hs
    cases h
    have hlen := of_decide_eq_false hfail
    rw [List.length_take] at hlen
    exact ⟨eq_false_of_ne_true hs, by omega, by rw [← hfail]⟩

theorem takes_readFresh (n : Nat) (var : String) : Takes (readFresh n var) n := by
  intro s a s' h hfail
  unfold readFresh at h
  split at h
  · cases h
  · rename_i hs
    cases h
    exact ⟨eq_false_of_ne_true fun hs' => hs (.inl hs'), not_lt.1 fun hs' => hs (.inr hs'), rfl⟩

theorem takes_readU32 (var : String) : Takes (readU32 var) 4 := (takes_readFresh 4 var).map _

theorem takes_readU8 (var : String) : Takes (readU8 var) 1 := (takes_readFresh 1 var).map _

theorem takes_readI32 : Takes readI32 4 := (takes_readInto [0, 0, 0, 0]).map _

/-- Where `x` returns and leaves a stream that has not failed, it did not start on a failed one and
left no more to read. -/
def Advances (x : StreamM α) : Prop :=
  ∀ s a s', x s = .ok (a, s') → s'.fail = false →
    s.fail = false ∧ s'.rest.length ≤ s.rest.length

theorem Takes.advances {x : StreamM α} {n : Nat} (hx : Takes x n) : Advances x := by
  intro s a s' h hfail
  obtain ⟨hs, -, rfl⟩ := hx s a s' h hfail
  exact ⟨hs, by rw [List.length_drop]; exact Nat.sub_le _ _⟩

theorem Advances.bind {x : StreamM α} {f : α → StreamM β} (hx : Advances x)
    (hf : ∀ a, Advances (f a)) : Advances (x >>= f) := by
  intro s b s' h hfail
  obtain ⟨a, s₁, hfirst, h⟩ := StreamM.bind_eq_ok.1 h
  obtain ⟨hfail₁, hlen₁⟩ := hf a s₁ b s' h hfail
  obtain ⟨hfail₀, hlen⟩ := hx s a s₁ hfirst hfail₁
  exact ⟨hfail₀, hlen₁.trans hlen⟩

theorem advances_pure (a : α) : Advances (pure a) := (takes_pure a).advances

theorem advances_liftM (x : Exec α) : Advances (liftM x : StreamM α) := (takes_liftM x).advances

theorem advances_readInto (old : Bytes) : Advances (readInto old) := (takes_readInto old).advances

theorem advances_readU32 (var : String) : Advances (readU32 var) := (takes_readU32 var).advances

/-- Bytes that a read has taken may be sought past instead. -/
theorem Takes.seekCur {x : StreamM α} {n : Nat} (hx : Takes x n) {s s' : InStream} {a : α}
    (h : x s = .ok (a, s')) (hfail : s'.fail = false) : seekCur n s = .ok ((), s') := by
  obtain ⟨hs, -, rfl⟩ := hx s a s' h hfail
  rw [Terllama.seekCur, hs, if_neg Bool.false_ne_true]

end

/-! ## Reads that are local -/

section
variable {α β : Type}

/-- A run of `x` that leaves a stream that has not failed has read a piece of the file, and does the
same whatever follows that piece. -/
def Reads (x : StreamM α) : Prop :=
  ∀ s v s', x s = .ok (v, s') → s'.fail = false →
    ∃ a, s = ⟨a ++ s'.rest, false⟩ ∧ ∀ rest, x ⟨a ++ rest, false⟩ = .ok (v, ⟨rest, false⟩)

theorem reads_pure (a : α) : Reads (pure a) := by
  intro s v s' h hfail
  cases h
  exact ⟨[], by rw [List.nil_append, ← hfail], fun rest => rfl⟩

theorem reads_liftM (x : Exec α) : Reads (liftM x : StreamM α) := by
  intro s v s' h hfail
  rw [StreamM.liftM_apply] at h
  obtain ⟨b, hb, h⟩ := Terllama.bind_eq_ok.1 h
  cases h
  refine ⟨[], by rw [List.nil_append, ← hfail], fun rest => ?_⟩
  rw [StreamM.liftM_apply, hb]
  rfl

theorem Reads.bind {x : StreamM α} {f : α → StreamM β} (hx : Reads x) (hf : ∀ a, Reads (f a)) :
    Reads (x >>= f) := by
  intro s v s' h hfail
  obtain ⟨a, s₁, hfirst, h⟩ := StreamM.bind_eq_ok.1 h
  obtain ⟨p₂, rfl, hsecond⟩ := hf a s₁ v s' h hfail
  obtain ⟨p₁, rfl, hfirst'⟩ := hx s a _ hfirst rfl
  refine ⟨p₁ ++ p₂, by rw [List.append_assoc], fun rest => ?_⟩
  rw [StreamM.bind_apply, List.append_assoc, hfirst', ok_bind]
  exact hsecond rest

theorem reads_readInto (old : Bytes) : Reads (readInto old) := by
  rintro ⟨bytes, fail⟩ v s' h hfail
  obtain ⟨hs, hlen, rfl⟩ := takes_readInto old _ v s' h hfail
  obtain rfl : fail = false := hs
  have hrun := readInto_append old (List.length_take_of_le hlen)
  have hhere := hrun (bytes.drop old.length)
  rw [List.take_append_drop, h] at hhere
  cases hhere
  exact ⟨bytes.take old.length, by rw [List.take_append_drop], hrun⟩

theorem reads_readFresh (n : Nat) (var : String) : Reads (readFresh n var) := by
  intro s v s' h hfail
  obtain ⟨hs, hlen, hsplit, -⟩ := readFresh_eq_ok h
  exact ⟨v, by rw [← hsplit, ← hs], readFresh_append hlen var⟩

theorem reads_readU32 (var : String) : Reads (readU32 var) :=
  (reads_readFresh 4 var).bind fun _ => reads_pure _

theorem reads_readU8 (var : String) : Reads (readU8 var) :=
  (reads_readFresh 1 var).bind fun _ => reads_pure _

theorem reads_readI32 : Reads readI32 := (reads_readInto _).bind fun _ => reads_pure _

/-- Where a run reads the whole of a file, it fails on every file that ends earlier, if it returns. -/
theorem Reads.fail_of_cut {x : StreamM α} (hx : Reads x) {file : Bytes} {v v' : α} {s' : InStream}
    (h : x ⟨file, false⟩ = .ok (v, ⟨[], false⟩)) {n : Nat} (hn : n < file.length)
    (hcut : x ⟨file.take n, false⟩ = .ok (v', s')) : s'.fail = true := by
  by_contra hfail
  obtain ⟨a, hsplit, hrun⟩ := hx _ v' s' hcut (eq_false_of_ne_true hfail)
  have htake : file.take n = a ++ s'.rest := congrArg InStream.rest hsplit
  have hfile : file = a ++ (s'.rest ++ file.drop n) := by
    rw [← List.append_assoc, ← htake, List.take_append_drop]
  have hwhole := hrun (s'.rest ++ file.drop n)
  rw [← hfile, h] at hwhole
  cases hrest : s'.rest ++ file.drop n with
  | nil =>
    have hdrop := (List.append_eq_nil_iff.1 hrest).2
    rw [List.drop_eq_nil_iff] at hdrop
    omega
  | cons b bs =>
    rw [hrest] at hwhole
    cases hwhole

/-! ## Reads past the end -/

/-- Fewer than `n` bytes can be read. -/
def InStream.Short (s : InStream) (n : Nat) : Prop := s.fail = true ∨ s.rest.length < n

theorem readFresh_short {s : InStream} {n : Nat} (h : s.Short n) (var : String) :
    ∃ why, readFresh n var s = undefined why := by
  exact ⟨_, if_pos h⟩

theorem readU32_short {s : InStream} (h : s.Short 4) (var : String) :
    ∃ why, readU32 var s = undefined why := by
  obtain ⟨why, hread⟩ := readFresh_short h var
  exact ⟨why, by rw [readU32, StreamM.bind_apply, hread]; rfl⟩

theorem readU8_short {s : InStream} (h : s.Short 1) (var : String) :
    ∃ why, readU8 var s = undefined why := by
  obtain ⟨why, hread⟩ := readFresh_short h var
  exact ⟨why, by rw [readU8, StreamM.bind_apply, hread]; rfl⟩

/-- A read into a buffer returns, and leaves what the file does not fill as it was. -/
theorem readInto_short {s : InStream} (old : Bytes) {n : Nat} (h : s.Short (old.length + n)) :
    ∃ v s', readInto old s = .ok (v, s') ∧ s'.Short n := by
  unfold readInto
  split
  · rename_i hs
    exact ⟨old, s, rfl, .inl hs⟩
  · rename_i hs
    refine ⟨_, _, rfl, ?_⟩
    rcases h with hfail | hlen
    · exact absurd hfail hs
    · rcases Nat.lt_or_ge s.rest.length old.length with hlt | hge
      · exact .inl (decide_eq_true (by rw [List.length_take]; omega))
      · exact .inr (by rw [List.length_drop]; omega)

theorem readI32_short {s : InStream} {n : Nat} (h : s.Short (4 + n)) :
    ∃ v s', readI32 s = .ok (v, s') ∧ s'.Short n := by
  obtain ⟨v, s', hread, hshort⟩ := readInto_short [0, 0, 0, 0] h
  exact ⟨toInt32 (leNat v), s', by rw [readI32, StreamM.bind_apply, hread]; rfl, hshort⟩

end
/-! ## Bytes that a reader takes for a value -/

section
variable {α β : Type}

/-- `x` reads `a` off `bytes`, whatever follows them in the stream. -/
def Parses (x : StreamM α) (bytes : Bytes) (a : α) : Prop :=
  ∀ rest, x ⟨bytes ++ rest, false⟩ = .ok (a, ⟨rest, false⟩)

theorem parses_pure (a : α) : Parses (pure a) [] a := fun _ => rfl

theorem parses_liftM {x : Exec α} {a : α} (h : x = .ok a) : Parses (liftM x : StreamM α) [] a := by
  intro rest
  rw [StreamM.liftM_apply, h]
  rfl

theorem Parses.bind {x : StreamM α} {f : α → StreamM β} {b₁ b₂ : Bytes} {a : α} {b : β}
    (hx : Parses x b₁ a) (hf : Parses (f a) b₂ b) : Parses (x >>= f) (b₁ ++ b₂) b := by
  intro rest
  rw [StreamM.bind_apply, List.append_assoc, hx, ok_bind]
  exact hf rest

/-- A step outside the stream, before one that reads. -/
theorem Parses.liftM_bind {x : Exec α} {f : α → StreamM β} {bytes : Bytes} {a : α} {b : β}
    (h : x = .ok a) (hf : Parses (f a) bytes b) : Parses ((liftM x : StreamM α) >>= f) bytes b :=
  (parses_liftM h).bind hf

/-- A step that reads nothing, behind one that does. -/
theorem Parses.bind_nil {x : StreamM α} {f : α → StreamM β} {bytes : Bytes} {a : α} {b : β}
    (hx : Parses x bytes a) (hf : Parses (f a) [] b) : Parses (x >>= f) bytes b := by
  have h := hx.bind hf
  rwa [List.append_nil] at h

/-- The first step of a sequence, run on its bytes. -/
theorem Parses.run {x : StreamM α} {bytes : Bytes} {a : α} (hx : Parses x bytes a)
    (f : α → StreamM β) (rest : Bytes) :
    (x >>= f) ⟨bytes ++ rest, false⟩ = f a ⟨rest, false⟩ := by
  rw [StreamM.bind_apply, hx, ok_bind]

theorem parses_readInto {old bytes : Bytes} (h : bytes.length = old.length) :
    Parses (readInto old) bytes bytes := readInto_append old h

theorem parses_readU32 (n : Nat) (var : String) :
    Parses (readU32 var) (u32Bytes n) (UInt32.ofNat n) := readU32_append n var

theorem parses_readI32 {n : Int} (h : IsI32 n) : Parses readI32 (i32Bytes n) n := by
  intro rest
  rw [i32Bytes, readI32_append, toInt32_emod h]

end

end Terllama
