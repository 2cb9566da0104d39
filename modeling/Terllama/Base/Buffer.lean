import Mathlib.Data.List.GetD
import Terllama.Base.Exec

/-!
# Buffers read and written at an offset

`slice` and `writeAt` are the bulk accesses of a buffer (`memcpy`, a loop over consecutive
elements): undefined unless the whole range lies inside. Most loops of the source write equal
pieces at equal distances. `Fills` says what such a loop does to a buffer, `Fills.foldlM` composes
a loop from its passes, and `slice_flatMap` reads one piece back; nested loops compose by applying
the rule twice.
-/

namespace Terllama

section
variable {α : Type _}

/-- The `len` elements of a buffer from `off` on. -/
def slice (buf : List α) (off len : Nat) : Exec (List α) :=
  if off + len ≤ buf.length then .ok ((buf.drop off).take len)
  else undefined "read outside the buffer"

/-- The buffer with `vals` stored from `off` on. -/
def writeAt (buf : List α) (off : Nat) (vals : List α) : Exec (List α) :=
  if off + vals.length ≤ buf.length then
    .ok (buf.take off ++ vals ++ buf.drop (off + vals.length))
  else undefined "write outside the buffer"

/-- The elements from a pointer to the one `n` after it. -/
def ptrRange (buf : List α) (n : Int) : Exec (List α) :=
  if 0 ≤ n then slice buf 0 n.toNat else undefined "range that ends before it starts"

/-- The element of a buffer at `i`. -/
def load (buf : List α) (i : Nat) : Exec α :=
  match buf[i]? with
  | some a => .ok a
  | none => undefined "read outside the buffer"

/-- The element at `i` of a buffer that is indexed by an `int`. -/
def loadAt (buf : List α) (i : Int) : Exec α :=
  if i < 0 then undefined "read outside the buffer" else load buf i.toNat

/-- The buffer with `a` stored at `i`. -/
def storeAt (buf : List α) (i : Int) (a : α) : Exec (List α) :=
  if i < 0 then undefined "write outside the buffer" else writeAt buf i.toNat [a]

/-- `std::vector::resize`: the elements kept, and copies of `a` for the new ones. -/
def vectorResize (buf : List α) (n : Nat) (a : α) : List α :=
  buf.take n ++ List.replicate (n - buf.length) a

@[simp] theorem vectorResize_nil (n : Nat) (a : α) :
    vectorResize [] n a = List.replicate n a := by
  simp [vectorResize]

@[simp] theorem vectorResize_length (buf : List α) (n : Nat) (a : α) :
    (vectorResize buf n a).length = n := by
  simp [vectorResize]; omega

theorem slice_ok {buf : List α} {off len : Nat} (h : off + len ≤ buf.length) :
    slice buf off len = .ok ((buf.drop off).take len) := by
  simp [slice, h]

/-- A slice that returns lies inside its buffer. -/
theorem slice_eq_ok {buf out : List α} {off len : Nat} :
    slice buf off len = .ok out ↔
      off + len ≤ buf.length ∧ out = (buf.drop off).take len := by
  unfold slice
  split
  · rename_i h
    simp only [Except.ok.injEq, h, true_and]
    exact eq_comm
  · rename_i h
    simp [h]

@[simp] theorem slice_all (buf : List α) : slice buf 0 buf.length = .ok buf := by
  simp [slice]

/-- A store of one element that returns. -/
theorem writeAt_singleton_eq_ok {buf buf' : List α} {off : Nat} {a : α}
    (h : writeAt buf off [a] = .ok buf') : off < buf.length ∧ buf' = buf.set off a := by
  unfold writeAt at h
  split at h
  · rename_i hle
    have hlt : off < buf.length := hle
    cases h
    refine ⟨hlt, ?_⟩
    rw [List.set_eq_take_append_cons_drop, if_pos hlt, List.append_assoc]
    rfl
  · cases h

theorem load_eq {buf : List α} {i : Nat} {a : α} (h : buf[i]? = some a) :
    load buf i = .ok a := by
  simp [load, h]

theorem getElem?_of_load {buf : List α} {i : Nat} {a : α} (h : load buf i = .ok a) :
    buf[i]? = some a := by
  unfold load at h
  split at h
  · rename_i hsome
    cases h
    exact hsome
  · cases h

theorem quiet_load (buf : List α) (i : Nat) : Quiet (load buf i) := by
  unfold load
  split
  · exact quiet_ok _
  · exact quiet_undefined _

theorem quiet_slice (buf : List α) (off len : Nat) : Quiet (slice buf off len) := by
  unfold slice
  split
  · exact quiet_ok _
  · exact quiet_undefined _

theorem quiet_writeAt (buf : List α) (off : Nat) (vals : List α) : Quiet (writeAt buf off vals) := by
  unfold writeAt
  split
  · exact quiet_ok _
  · exact quiet_undefined _

theorem load_getD {buf : List α} {i : Nat} (h : i < buf.length) (d : α) :
    load buf i = .ok (buf.getD i d) := by
  rw [List.getD_eq_getElem _ _ h]
  exact load_eq (List.getElem?_eq_getElem h)

/-- A slice inside the middle one of three pieces is a slice of that piece. -/
theorem slice_append {pre mid post : List α} {off k len : Nat} (hpre : pre.length = off)
    (h : k + len ≤ mid.length) :
    slice (pre ++ mid ++ post) (off + k) len = slice mid k len := by
  have hbuf : off + k + len ≤ (pre ++ mid ++ post).length := by
    simp only [List.length_append]; omega
  have hdrop : (pre ++ mid ++ post).drop (off + k) = mid.drop k ++ post := by
    rw [List.append_assoc, ← List.drop_drop, ← hpre, List.drop_left,
      List.drop_append_of_le_length (by omega)]
  rw [slice_ok hbuf, slice_ok h, hdrop, List.take_append_of_le_length
    (by rw [List.length_drop]; omega)]

/-! ## Strided loops -/

/-- `step` replaces the elements of a buffer from `off` on by `out`, and no others. -/
def Fills (step : List α → Exec (List α)) (off : Nat) (out : List α) : Prop :=
  ∀ pre mid post, pre.length = off → mid.length = out.length →
    step (pre ++ mid ++ post) = .ok (pre ++ out ++ post)

/-- A bulk store fills its range. -/
theorem fills_writeAt (off : Nat) (vals : List α) :
    Fills (fun buf => writeAt buf off vals) off vals := by
  intro pre mid post hpre hmid
  have hlen : off + vals.length ≤ (pre ++ mid ++ post).length := by
    simp only [List.length_append]; omega
  have htake : (pre ++ mid ++ post).take off = pre := by
    rw [List.append_assoc, ← hpre, List.take_left]
  have hdrop : (pre ++ mid ++ post).drop (off + vals.length) = post := by
    rw [← hpre, ← hmid, ← List.length_append, List.drop_left]
  simp only [writeAt, if_pos hlen, htake, hdrop]

/-- A step that fills nothing. -/
theorem fills_nil (off : Nat) : Fills (fun buf : List α => .ok buf) off [] := by
  intro pre mid post _ hmid
  rw [List.length_nil, List.length_eq_zero_iff] at hmid
  subst hmid
  rfl

/-- Two steps that fill neighbouring ranges fill the joined range. -/
theorem Fills.append {f g : List α → Exec (List α)} {off : Nat} {a b : List α}
    (hf : Fills f off a) (hg : Fills g (off + a.length) b) :
    Fills (fun buf => f buf >>= g) off (a ++ b) := by
  intro pre mid post hpre hmid
  rw [List.length_append] at hmid
  have hsplit : pre ++ mid ++ post =
      pre ++ mid.take a.length ++ (mid.drop a.length ++ post) := by
    simp only [List.append_assoc, List.append_cancel_left_eq]
    rw [← List.append_assoc, List.take_append_drop]
  have hjoin : pre ++ a ++ (mid.drop a.length ++ post) =
      (pre ++ a) ++ mid.drop a.length ++ post := by
    simp only [List.append_assoc]
  simp only [hsplit, hf pre (mid.take a.length) (mid.drop a.length ++ post) hpre
    (by rw [List.length_take]; omega), ok_bind, hjoin]
  rw [hg (pre ++ a) _ post (by rw [List.length_append]; omega)
    (by rw [List.length_drop]; omega), List.append_assoc pre a b]

/-- Equal pieces have equal distances. -/
theorem length_flatMap_range {f : Nat → List α} {n s : Nat} (hlen : ∀ i < n, (f i).length = s) :
    ((List.range n).flatMap f).length = n * s := by
  rw [List.length_flatMap, List.map_congr_left (g := fun _ => s)
    (fun i hi => hlen i (List.mem_range.1 hi))]
  simp

/-- A loop whose passes fill neighbouring ranges fills their concatenation. -/
theorem Fills.foldlM_at {step : List α → Nat → Exec (List α)} {f : Nat → List α} {p : Nat → Nat}
    {n : Nat} (hpos : ∀ i < n, p (i + 1) = p i + (f i).length)
    (hstep : ∀ i < n, Fills (fun buf => step buf i) (p i) (f i)) :
    Fills (fun buf => (List.range n).foldlM step buf) (p 0) ((List.range n).flatMap f) ∧
      p n = p 0 + ((List.range n).flatMap f).length := by
  induction n with
  | zero => exact ⟨fills_nil (p 0), rfl⟩
  | succ n ih =>
    obtain ⟨hfills, hend⟩ := ih (fun i hi => hpos i (by omega)) fun i hi => hstep i (by omega)
    constructor
    · have happ := hfills.append (hend ▸ hstep n (by omega))
      simpa only [List.range_succ, List.foldlM_append, List.foldlM_cons, List.foldlM_nil,
        bind_pure, List.flatMap_append, List.flatMap_singleton] using happ
    · rw [hpos n (by omega), hend, List.range_succ, List.flatMap_append, List.flatMap_singleton,
        List.length_append, Nat.add_assoc]

/-- A loop whose `i`-th pass fills `s` elements at distance `i * s` fills their concatenation. -/
theorem Fills.foldlM {step : List α → Nat → Exec (List α)} {f : Nat → List α} {off s n : Nat}
    (hlen : ∀ i < n, (f i).length = s)
    (hstep : ∀ i < n, Fills (fun buf => step buf i) (off + i * s) (f i)) :
    Fills (fun buf => (List.range n).foldlM step buf) off ((List.range n).flatMap f) := by
  have h := (Fills.foldlM_at (p := fun i => off + i * s) (fun i hi => by
    rw [hlen i hi, Nat.succ_mul, Nat.add_assoc]) hstep).1
  rwa [Nat.zero_mul, Nat.add_zero] at h

/-- Two nested loops whose passes fill `s` elements each, row by row and without gaps, from `off`
on. -/
theorem Fills.foldlM₂_at {step : List α → Nat → Nat → Exec (List α)} {f : Nat → Nat → List α}
    {off s m n : Nat} (hlen : ∀ i < m, ∀ j < n, (f i j).length = s)
    (hstep : ∀ i < m, ∀ j < n,
      Fills (fun buf => step buf i j) (off + i * (n * s) + j * s) (f i j)) :
    Fills (fun buf => (List.range m).foldlM (fun buf i =>
        (List.range n).foldlM (fun buf j => step buf i j) buf) buf) off
      ((List.range m).flatMap fun i => (List.range n).flatMap (f i)) := by
  refine Fills.foldlM (s := n * s) (fun i hi => length_flatMap_range (hlen i hi)) ?_
  intro i hi
  exact Fills.foldlM (hlen i hi) (hstep i hi)

/-- The same from the start of the buffer. -/
theorem Fills.foldlM₂ {step : List α → Nat → Nat → Exec (List α)} {f : Nat → Nat → List α}
    {s m n : Nat} (hlen : ∀ i < m, ∀ j < n, (f i j).length = s)
    (hstep : ∀ i < m, ∀ j < n, Fills (fun buf => step buf i j) (i * (n * s) + j * s) (f i j)) :
    Fills (fun buf => (List.range m).foldlM (fun buf i =>
        (List.range n).foldlM (fun buf j => step buf i j) buf) buf) 0
      ((List.range m).flatMap fun i => (List.range n).flatMap (f i)) := by
  refine Fills.foldlM₂_at hlen fun i hi j hj => ?_
  rw [Nat.zero_add]
  exact hstep i hi j hj

/-- A filling step on a buffer of exactly its size. -/
theorem Fills.run {step : List α → Exec (List α)} {out buf : List α} (h : Fills step 0 out)
    (hlen : buf.length = out.length) : step buf = .ok out := by
  simpa using h [] buf [] rfl hlen

/-- What a step that fills a range leaves in a buffer that has the range. -/
theorem Fills.frame {step : List α → Exec (List α)} {off : Nat} {out buf : List α}
    (h : Fills step off out) (hlen : off + out.length ≤ buf.length) :
    ∃ buf', step buf = .ok buf' ∧ buf'.length = buf.length ∧
      ∀ i d, buf'.getD i d =
        if off ≤ i ∧ i < off + out.length then out.getD (i - off) d else buf.getD i d := by
  have hpre : (buf.take off).length = off := by rw [List.length_take]; omega
  have hmid : ((buf.drop off).take out.length).length = out.length := by
    rw [List.length_take, List.length_drop]
    omega
  have hbuf : buf.take off ++ (buf.drop off).take out.length ++ buf.drop (off + out.length) =
      buf := by
    rw [← List.drop_drop, List.append_assoc, List.take_append_drop, List.take_append_drop]
  refine ⟨_, by conv_lhs => rw [← hbuf]
                exact h _ _ _ hpre hmid, ?_, fun i d => ?_⟩
  · simp only [List.length_append, List.length_drop, hpre]
    omega
  · simp only [List.getD_eq_getElem?_getD, List.getElem?_append, List.length_append, hpre,
      List.getElem?_take, List.getElem?_drop]
    by_cases hlo : i < off
    · rw [if_pos (by omega), if_pos hlo, if_pos hlo, if_neg (by omega)]
    · by_cases hhi : i < off + out.length
      · rw [if_pos hhi, if_neg hlo, if_pos (by omega)]
      · rw [if_neg hhi, if_neg (by omega), show off + out.length + (i - (off + out.length)) = i by
          omega]

/-! ## Loops that copy pieces -/

theorem slice_length {buf out : List α} {off len : Nat} (h : slice buf off len = .ok out) :
    out.length = len := by
  obtain ⟨hin, rfl⟩ := slice_eq_ok.1 h
  rw [List.length_take, List.length_drop]
  omega

/-- A store inside a buffer returns, and one that returns keeps the length. -/
theorem writeAt_inside {buf : List α} {off : Nat} {vals : List α}
    (h : off + vals.length ≤ buf.length) :
    ∃ buf', writeAt buf off vals = .ok buf' ∧ buf'.length = buf.length := by
  refine ⟨_, if_pos h, ?_⟩
  simp only [List.length_append, List.length_take, List.length_drop]
  omega

/-- The place of a row and a column in row-major order. -/
theorem place_lt {rows nb row b : Nat} (hrow : row < rows) (hb : b < nb) :
    row * nb + b < rows * nb := by
  have hnext : (row + 1) * nb ≤ rows * nb := Nat.mul_le_mul_right nb hrow
  rw [Nat.succ_mul] at hnext
  omega

/-- Two loops that copy pieces of `s` elements side by side into a buffer that holds them all return
where every piece is there. -/
theorem pieceLoops_iff {piece : Nat → Nat → Exec (List α)} {rows nb s : Nat} {buf : List α}
    (hbuf : buf.length = rows * (nb * s))
    (hpiece : ∀ row < rows, ∀ b < nb, ∀ p, piece row b = .ok p → p.length = s) :
    (∃ buf', (List.range rows).foldlM (fun buf row =>
        (List.range nb).foldlM (fun buf b => do
          let p ← piece row b
          writeAt buf (row * (nb * s) + b * s) p) buf) buf = .ok buf') ↔
      ∀ row < rows, ∀ b < nb, ∃ p, piece row b = .ok p := by
  have hloops := @foldlM_range_iff _
    (fun buf row => (List.range nb).foldlM (fun buf b => do
      let p ← piece row b
      writeAt buf (row * (nb * s) + b * s) p) buf)
    (fun buf => buf.length = rows * (nb * s))
    (fun row => ∀ b < nb, ∃ p, piece row b = .ok p) rows buf hbuf ?_
  · exact ⟨fun ⟨buf', h⟩ => (hloops.2 buf' h).1, hloops.1⟩
  intro row hrow buf hbuf
  refine foldlM_range_iff (I := fun buf : List α => buf.length = rows * (nb * s))
    (P := fun b => ∃ p, piece row b = .ok p) hbuf fun b hb buf hbuf => ?_
  have hplace : row * (nb * s) + b * s + s ≤ rows * (nb * s) := by
    have hle := Nat.mul_le_mul_right s (Nat.succ_le_of_lt (place_lt hrow hb))
    rw [Nat.succ_mul, Nat.add_mul, Nat.mul_assoc, Nat.mul_assoc] at hle
    exact hle
  have hwrite : ∀ p, piece row b = .ok p → ∃ buf',
      writeAt buf (row * (nb * s) + b * s) p = .ok buf' ∧ buf'.length = buf.length := by
    intro p hp
    exact writeAt_inside (by rw [hpiece row hrow b hb p hp, hbuf]; exact hplace)
  constructor
  · rintro ⟨p, hp⟩
    obtain ⟨buf', hbuf', -⟩ := hwrite p hp
    exact ⟨buf', by rw [hp, ok_bind, hbuf']⟩
  · intro buf' h
    obtain ⟨p, hp, h⟩ := bind_eq_ok.1 h
    obtain ⟨buf'', hbuf'', hlen⟩ := hwrite p hp
    cases h.symm.trans hbuf''
    exact ⟨⟨p, hp⟩, hlen.trans hbuf⟩

/-! ## Pieces at equal distances -/

variable {f : Nat → List α} {n s : Nat}

/-- The `i`-th of equal pieces starts at `i * s`. -/
theorem flatMap_range_split (hlen : ∀ i < n, (f i).length = s) {i : Nat} (hi : i < n) :
    ∃ pre post, pre.length = i * s ∧ (List.range n).flatMap f = pre ++ f i ++ post := by
  induction n with
  | zero => omega
  | succ n ih =>
    have hlen' : ∀ i < n, (f i).length = s := fun i hi => hlen i (by omega)
    rw [List.range_succ, List.flatMap_append, List.flatMap_singleton]
    rcases Nat.lt_succ_iff_lt_or_eq.1 hi with hlt | rfl
    · obtain ⟨pre, post, hpre, heq⟩ := ih hlen' hlt
      exact ⟨pre, post ++ f n, hpre, by rw [heq, List.append_assoc (pre ++ f i)]⟩
    · exact ⟨_, [], length_flatMap_range hlen', by simp⟩

/-- A range inside the `i`-th of equal pieces is read from that piece. -/
theorem slice_flatMap (hlen : ∀ i < n, (f i).length = s) {i k len : Nat} (hi : i < n)
    (h : k + len ≤ s) :
    slice ((List.range n).flatMap f) (i * s + k) len = slice (f i) k len := by
  obtain ⟨pre, post, hpre, heq⟩ := flatMap_range_split hlen hi
  rw [heq, slice_append hpre (by rw [hlen i hi]; exact h)]

/-- The element `k` of the `i`-th of equal pieces. -/
theorem getElem?_flatMap (hlen : ∀ i < n, (f i).length = s) {i k : Nat} (hi : i < n)
    (hk : k < s) : ((List.range n).flatMap f)[i * s + k]? = (f i)[k]? := by
  obtain ⟨pre, post, hpre, heq⟩ := flatMap_range_split hlen hi
  rw [heq, List.append_assoc, ← hpre, List.getElem?_append_right (by omega),
    Nat.add_sub_cancel_left, List.getElem?_append_left (by rw [hlen i hi]; exact hk)]

/-- A nested loop over rows and columns visits the flat indices in order. -/
theorem flatMap_range_map {m n : Nat} (g : Nat → α) :
    (List.range m).flatMap (fun i => (List.range n).map fun j => g (i * n + j)) =
      (List.range (m * n)).map g := by
  induction m with
  | zero => simp
  | succ m ih =>
    rw [List.range_succ, List.flatMap_append, ih, Nat.succ_mul, List.range_add, List.map_append,
      List.map_map]
    simp [Function.comp_def]

/-- An entry of a table. -/
theorem getD_map_range {β : Type _} (f : Nat → β) {n i : Nat} (h : i < n) (d : β) :
    ((List.range n).map f).getD i d = f i := by
  rw [List.getD_eq_getElem?_getD, List.getElem?_map, List.getElem?_range h, Option.map_some,
    Option.getD_some]

/-- A list is the table of its elements. -/
theorem map_getD_range (l : List α) (d : α) :
    (List.range l.length).map (fun i => l.getD i d) = l := by
  apply List.ext_getElem (by simp)
  intro i h₁ h₂
  simp [h₂]

/-- A map over a list is a table. -/
theorem map_eq_map_range {β : Type _} (l : List α) (d : α) (f : α → β) :
    l.map f = (List.range l.length).map fun i => f (l.getD i d) := by
  conv_lhs => rw [← map_getD_range l d, List.map_map]
  rfl

/-- A table in two parts. -/
theorem map_range_append {β : Type _} (f : Nat → β) (m n : Nat) :
    (List.range m).map f ++ (List.range n).map (fun k => f (m + k)) =
      (List.range (m + n)).map f := by
  rw [List.range_add, List.map_append, List.map_map]
  rfl

/-- A nested loop whose last piece is short visits the flat indices in order too. -/
theorem flatMap_range_map_min (g : Nat → α) {q n m : Nat} (h : n ≤ m * q) :
    (List.range m).flatMap (fun i => (List.range (min q (n - i * q))).map fun j => g (i * q + j)) =
      (List.range n).map g := by
  have hpart : ∀ m, (List.range m).flatMap
      (fun i => (List.range (min q (n - i * q))).map fun j => g (i * q + j)) =
      (List.range (min (m * q) n)).map g := by
    intro m
    induction m with
    | zero => simp
    | succ m ih =>
      rw [List.range_succ, List.flatMap_append, ih, List.flatMap_singleton]
      rcases Nat.lt_or_ge (m * q) n with hlt | hge
      · have hnext : min ((m + 1) * q) n = m * q + min q (n - m * q) := by
          rw [Nat.succ_mul]
          omega
        rw [Nat.min_eq_left (Nat.le_of_lt hlt), map_range_append, hnext]
      · have hnext : min ((m + 1) * q) n = n := by
          rw [Nat.succ_mul]
          omega
        rw [Nat.min_eq_right hge, hnext, Nat.sub_eq_zero_of_le hge, Nat.min_zero, List.range_zero,
          List.map_nil, List.append_nil]
  rw [hpart, Nat.min_eq_right h]

end

end Terllama
