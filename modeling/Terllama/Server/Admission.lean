import Terllama.Base.Lanes
import Terllama.Base.Runs
import Terllama.Core.Attention
import Terllama.Loader.Truncated

/-!
# Admission control

`get_model_size_bytes`, `get_kv_cache_size_bytes`, `try_reserve_request` and `RequestGuard` of
`src/server/handlers.cpp`, for any number of calls at once. A step is the acquisition or the release
of `g_admission_mutex`, a section under `g_model_mutex`, or an operation on an atomic variable; the
guards of the requests are released at any time, without the mutex.

`admission_safe`: the counter is the number of reservations that are not released, and their memory
stays below the limit. Between the reading of the counter and its increment it can only fall.
-/

namespace Terllama

/-! ## The sizes -/

/-- The fields of `ServerModelState` that the sizes are taken from. -/
structure ServerModelState where
  cfg : ModelConfig
  embedding : List F32
  layers : List LayerData
  finalNorm : List F32
  layerNorms : List NormWeights
  rope : RoPECache
  modelDir : String
  loaded : Bool

/-- The bytes of the data of a layer. -/
def layerSizeBytes (l : LayerData) : Nat :=
  l.rawWeights.length * 4 + (l.terms.map fun t => t.combined.length * 4).sum +
    (l.blockTerms.map fun set => (set.map fun b => b.packed.length).sum).sum

/-- `get_model_size_bytes`; `fileSize` is the size of a file that `stat` finds. -/
def getModelSizeBytes (g : ServerModelState) (fileSize : String → Option Nat) : Nat :=
  if !g.loaded then
    if g.modelDir.isEmpty then 0
    else sizeT ((["/model_extra.bin", "/model_decomposed.bin", "/model.gguf"].map fun file =>
      (fileSize (g.modelDir ++ file)).getD 0).sum : Nat)
  else
    sizeT (g.embedding.length * 4 + g.finalNorm.length * 4 +
      (g.layerNorms.map fun w =>
        w.inputLayernorm.length * 4 + w.postAttentionLayernorm.length * 4).sum +
      (g.layers.map layerSizeBytes).sum + g.rope.sin.length * 4 + g.rope.cos.length * 4 : Nat)

/-- `get_kv_cache_size_bytes`. -/
def getKvCacheSizeBytes (g : ServerModelState) : Nat :=
  if !g.loaded then 128 * 1024 * 1024
  else sizeT (g.cfg.numHiddenLayers * g.cfg.maxPositionEmbeddings * g.cfg.numKeyValueHeads *
    g.cfg.headDim * 4 * 2)

/-! ## The steps -/

/-- Where a call of `try_reserve_request` is, and then the guard of its reservation. -/
inductive ReserveCall where
  /-- Before the mutex. -/
  | waiting
  /-- At the test of the limit. -/
  | locked
  | measuring
  | sized (modelMem : Nat)
  | measured (modelMem kvMem : Nat)
  | counted (modelMem kvMem : Nat) (active : Int)
  /-- Before the increment. -/
  | admitted
  /-- Behind the increment, with the mutex. -/
  | reserving
  | refusing
  /-- It has returned false. -/
  | refused
  /-- It has returned true, and the guard is there. -/
  | granted
  /-- In the destructor of the guard, behind the decrement. -/
  | releasing
  | released
  deriving DecidableEq, Repr

/-- The call has the mutex. -/
def ReserveCall.inSection : ReserveCall → Bool
  | .locked | .measuring | .sized _ | .measured _ _ | .counted _ _ _ | .admitted | .reserving
  | .refusing => true
  | .waiting | .refused | .granted | .releasing | .released => false

/-- The reservation is made and not released. -/
def ReserveCall.reserved : ReserveCall → Bool
  | .reserving | .granted => true
  | .waiting | .locked | .measuring | .sized _ | .measured _ _ | .counted _ _ _ | .admitted
  | .refusing | .refused | .releasing | .released => false

/-- The variables of the admission control: `g_active_requests`, `g_last_request_time`, the holder of
`g_admission_mutex`, and the calls so far. -/
structure AdmissionState where
  active : Int := 0
  lastRequestTime : Int := 0
  lock : Option Nat := none
  calls : List ReserveCall := []
  deriving DecidableEq, Repr

/-- A new call, or the next step of a call at a time. -/
inductive AdmissionEvent where
  | call
  | advance (i : Nat) (now : Int)
  deriving DecidableEq, Repr

/-- A call is at a new place. -/
def AdmissionState.moved (s : AdmissionState) (i : Nat) (c : ReserveCall) : AdmissionState :=
  { s with calls := s.calls.set i c }

@[simp] theorem AdmissionState.moved_active (s : AdmissionState) (i : Nat) (c : ReserveCall) :
    (s.moved i c).active = s.active := rfl

section
variable (g : ServerModelState) (fileSize : String → Option Nat) (limit : Nat)

/-- The next step of a call. There is none for a call that waits for the mutex while another has it,
for one that has ended, and where `active + 1` is not an `int`. -/
def AdmissionState.advance (s : AdmissionState) (i : Nat) (now : Int) :
    ReserveCall → Option AdmissionState
  | .waiting => if s.lock.isSome then none else some { s.moved i .locked with lock := some i }
  | .locked => some (s.moved i (if 0 < limit then .measuring else .admitted))
  | .measuring => some (s.moved i (.sized (getModelSizeBytes g fileSize)))
  | .sized modelMem => some (s.moved i (.measured modelMem (getKvCacheSizeBytes g)))
  | .measured modelMem kvMem => some (s.moved i (.counted modelMem kvMem s.active))
  | .counted modelMem kvMem active =>
    if 2147483647 < active + 1 then none
    else if limit < sizeT (modelMem + sizeT (active + 1) * kvMem) then some (s.moved i .refusing)
    else some (s.moved i .admitted)
  | .admitted => some { s.moved i .reserving with active := wrap32 (s.active + 1) }
  | .reserving => some { s.moved i .granted with lock := none }
  | .refusing => some { s.moved i .refused with lock := none }
  | .granted => some { s.moved i .releasing with active := wrap32 (s.active - 1) }
  | .releasing => some { s.moved i .released with lastRequestTime := now }
  | .refused | .released => none

/-- A step of the system. -/
def AdmissionState.step (s : AdmissionState) : AdmissionEvent → Option AdmissionState
  | .call => some { s with calls := s.calls ++ [.waiting] }
  | .advance i now => s.calls[i]?.bind (s.advance g fileSize limit i now)

/-! ## The invariant -/

/-- The counter is the number of reservations that are not released, and these fit the limit. -/
structure AdmissionState.Bounded (s : AdmissionState) : Prop where
  count : s.active = s.calls.countP ReserveCall.reserved
  nonneg : 0 ≤ s.active
  fits : 0 < s.active →
    (getModelSizeBytes g fileSize : Int) + s.active * getKvCacheSizeBytes g ≤ limit

/-- What a call knows at a place, of the counter as it is now. -/
def ReserveCall.Knows (active : Int) : ReserveCall → Prop
  | .sized modelMem => modelMem = getModelSizeBytes g fileSize
  | .measured modelMem kvMem =>
    modelMem = getModelSizeBytes g fileSize ∧ kvMem = getKvCacheSizeBytes g
  | .counted modelMem kvMem read =>
    modelMem = getModelSizeBytes g fileSize ∧ kvMem = getKvCacheSizeBytes g ∧ active ≤ read ∧
      0 ≤ read ∧ (0 < read →
        (getModelSizeBytes g fileSize : Int) + read * getKvCacheSizeBytes g ≤ limit)
  | .admitted => active < 2147483647 ∧
    (getModelSizeBytes g fileSize : Int) + (active + 1) * getKvCacheSizeBytes g ≤ limit
  | .waiting | .locked | .measuring | .reserving | .refusing | .refused | .granted | .releasing
  | .released => True

/-- The invariant of the admission control: the calls in the section are the holder of the mutex, and
each call knows what it has read. -/
structure AdmissionState.Inv (s : AdmissionState) : Prop extends s.Bounded g fileSize limit where
  range : s.active ≤ 2147483647
  holder : ∀ i, s.lock = some i → i < s.calls.length
  lock : ∀ (i : Nat) (c : ReserveCall), s.calls[i]? = some c → (c.inSection = true ↔ s.lock = some i)
  knows : ∀ (i : Nat) (c : ReserveCall), s.calls[i]? = some c → c.Knows g fileSize limit s.active

end

/-- The change of a count by a new element. -/
theorem countP_set_eq {α : Type} (p : α → Bool) {l : List α} {i : Nat} {a : α} (h : l[i]? = some a)
    (b : α) : ((l.set i b).countP p : Int) =
      l.countP p - (if p a then 1 else 0) + (if p b then 1 else 0) := by
  obtain ⟨hi, rfl⟩ := List.getElem?_eq_some_iff.1 h
  rw [List.countP_set hi]
  split
  · rename_i hp
    have hpos : 0 < l.countP p := List.countP_pos_iff.2 ⟨_, List.getElem_mem hi, hp⟩
    split <;> omega
  · split <;> omega

section
variable {g : ServerModelState} {fileSize : String → Option Nat} {limit : Nat} {s : AdmissionState}
  {i : Nat} {c c' : ReserveCall}

/-- The place of one call changes, and the variables with it. -/
theorem AdmissionState.Inv.update (h : s.Inv g fileSize limit) (hi : s.calls[i]? = some c)
    {active time : Int} {lock : Option Nat}
    (hcount : active = s.active - (if c.reserved then 1 else 0) + (if c'.reserved then 1 else 0))
    (hnonneg : 0 ≤ active) (hrange : active ≤ 2147483647)
    (hfits : 0 < active →
      (getModelSizeBytes g fileSize : Int) + active * getKvCacheSizeBytes g ≤ limit)
    (hholder : ∀ j, lock = some j → j < s.calls.length)
    (hlock : c'.inSection = true ↔ lock = some i)
    (hothers : ∀ j d, j ≠ i → s.calls[j]? = some d →
      (d.inSection = true ↔ lock = some j) ∧ d.Knows g fileSize limit active)
    (hknows : c'.Knows g fileSize limit active) :
    AdmissionState.Inv g fileSize limit ⟨active, time, lock, s.calls.set i c'⟩ := by
  have hcalls : ∀ j d, (s.calls.set i c')[j]? = some d →
      (d.inSection = true ↔ lock = some j) ∧ d.Knows g fileSize limit active := by
    intro j d hj
    rcases eq_or_ne j i with rfl | hne
    · rw [List.getElem?_set_self (List.getElem?_eq_some_iff.1 hi).1] at hj
      cases hj
      exact ⟨hlock, hknows⟩
    · rw [List.getElem?_set_ne hne.symm] at hj
      exact hothers j d hne hj
  refine ⟨⟨?_, hnonneg, hfits⟩, hrange, fun j hj => ?_, fun j d hj => (hcalls j d hj).1,
    fun j d hj => (hcalls j d hj).2⟩
  · dsimp only
    rw [countP_set_eq _ hi, hcount, h.count]
  · rw [List.length_set]
    exact hholder j hj

/-- A step that changes nothing but what one call knows. -/
theorem AdmissionState.Inv.moved (h : s.Inv g fileSize limit) (hi : s.calls[i]? = some c)
    (hsection : c'.inSection = c.inSection) (hreserved : c'.reserved = c.reserved)
    (hknows : c'.Knows g fileSize limit s.active) : (s.moved i c').Inv g fileSize limit := by
  refine h.update hi ?_ h.nonneg h.range h.fits h.holder ?_
    (fun j d _ hj => ⟨h.lock j d hj, h.knows j d hj⟩) hknows
  · rw [hreserved, sub_add_cancel]
  · rw [hsection]
    exact h.lock i c hi

/-- What the others know when the counter falls. -/
theorem ReserveCall.Knows.falls {active : Int} (h : c.Knows g fileSize limit active) :
    c.Knows g fileSize limit (active - 1) := by
  have hkv : (0 : Int) ≤ getKvCacheSizeBytes g := Int.natCast_nonneg _
  cases c with
  | counted modelMem kvMem read =>
    obtain ⟨hmodel, hkvMem, hle, hread⟩ := h
    exact ⟨hmodel, hkvMem, by omega, hread⟩
  | admitted =>
    obtain ⟨hlt, hfits⟩ := h
    refine ⟨by omega, ?_⟩
    rw [Int.add_mul, Int.one_mul] at hfits
    rw [sub_add_cancel]
    omega
  | sized modelMem => exact h
  | measured modelMem kvMem => exact h
  | waiting | locked | measuring | reserving | refusing | refused | granted | releasing | released =>
    trivial

/-- Outside the section a call knows nothing of the counter. -/
theorem ReserveCall.knows_of_outside (h : c.inSection = false) (active : Int) :
    c.Knows g fileSize limit active := by
  cases c with
  | waiting | reserving | refused | granted | releasing | released => trivial
  | locked | measuring | refusing => trivial
  | sized _ => cases h
  | measured _ _ => cases h
  | counted _ _ _ => cases h
  | admitted => cases h

/-- The projected memory is what it is without the arithmetic of `size_t`, where the counter that was
read fits the limit. -/
theorem projected_eq {model kv : Nat} (hsizes : max model limit + kv < 18446744073709551616)
    {read : Int} (hread : 0 ≤ read) (hint : read + 1 ≤ 2147483647)
    (hfits : 0 < read → (model : Int) + read * kv ≤ limit) :
    (sizeT (model + sizeT (read + 1) * kv) : Int) = model + (read + 1) * kv := by
  obtain ⟨n, rfl⟩ := Int.eq_ofNat_of_zero_le hread
  have hnext : sizeT (n + 1) = n + 1 := by
    unfold sizeT
    omega
  have hsmall : model + (n + 1) * kv < 18446744073709551616 := by
    rw [Nat.add_mul, Nat.one_mul]
    rcases Nat.eq_zero_or_pos n with rfl | hpos
    · rw [Nat.zero_mul]
      omega
    · have hle : model + n * kv ≤ limit := by exact_mod_cast hfits (by omega)
      omega
  have hsum : ((model : Int) + (sizeT ((n : Int) + 1) : Nat) * kv) =
      ((model + (n + 1) * kv : Nat) : Int) := by
    rw [hnext]
    push_cast
    ring
  rw [hsum, sizeT, Int.emod_eq_of_lt (Int.natCast_nonneg _) (by exact_mod_cast hsmall)]
  push_cast
  rw [Int.toNat_of_nonneg (by positivity)]

/-- A step of a call keeps the invariant. -/
theorem AdmissionState.Inv.advance (hlimit : 0 < limit)
    (hsizes : max (getModelSizeBytes g fileSize) limit + getKvCacheSizeBytes g <
      18446744073709551616)
    (h : s.Inv g fileSize limit) (hi : s.calls[i]? = some c) {now : Int} {s' : AdmissionState}
    (hstep : s.advance g fileSize limit i now c = some s') : s'.Inv g fileSize limit := by
  have hlock := h.lock i c hi
  have hothers : s.lock = some i → ∀ j d, j ≠ i → s.calls[j]? = some d → d.inSection = false := by
    intro hheld j d hne hj
    rw [← Bool.not_eq_true, h.lock j d hj, hheld, Option.some.injEq]
    exact hne.symm
  cases c with
  | waiting =>
    rw [AdmissionState.advance] at hstep
    split at hstep
    · cases hstep
    · rename_i hfree
      cases hstep
      refine h.update hi (by simp [ReserveCall.reserved]) h.nonneg h.range h.fits
        (fun j hj => ?_) (by simp [ReserveCall.inSection])
        (fun j d hne hj => ⟨?_, h.knows j d hj⟩) trivial
      · cases hj
        exact (List.getElem?_eq_some_iff.1 hi).1
      · rw [h.lock j d hj, Option.not_isSome_iff_eq_none.1 hfree]
        simp [Ne.symm hne]
  | locked =>
    rw [AdmissionState.advance, if_pos hlimit] at hstep
    cases hstep
    exact h.moved hi rfl rfl trivial
  | measuring =>
    cases hstep
    exact h.moved hi rfl rfl rfl
  | sized modelMem =>
    cases hstep
    exact h.moved hi rfl rfl ⟨h.knows i _ hi, rfl⟩
  | measured modelMem kvMem =>
    cases hstep
    obtain ⟨hmodel, hkvMem⟩ := h.knows i _ hi
    exact h.moved hi rfl rfl ⟨hmodel, hkvMem, le_rfl, h.nonneg, h.fits⟩
  | counted modelMem kvMem read =>
    obtain ⟨rfl, rfl, hle, hread, hfits⟩ := h.knows i _ hi
    rw [AdmissionState.advance] at hstep
    split at hstep
    · cases hstep
    rename_i hint
    split at hstep
    · cases hstep
      exact h.moved hi rfl rfl trivial
    · rename_i hpass
      cases hstep
      refine h.moved hi rfl rfl ⟨by omega, ?_⟩
      have hkv : (0 : Int) ≤ getKvCacheSizeBytes g := Int.natCast_nonneg _
      have hprojected := projected_eq hsizes hread (by omega) hfits
      have hmono : (s.active + 1) * (getKvCacheSizeBytes g : Int) ≤
          (read + 1) * getKvCacheSizeBytes g :=
        Int.mul_le_mul_of_nonneg_right (by omega) hkv
      omega
  | admitted =>
    cases hstep
    obtain ⟨hlt, hfits⟩ := h.knows i _ hi
    have hwrap : wrap32 (s.active + 1) = s.active + 1 := by
      have hnonneg := h.nonneg
      exact wrap32_eq (abs_lt.2 ⟨by omega, by omega⟩)
    have hheld := hlock.1 rfl
    rw [hwrap]
    refine h.update hi (by simp [ReserveCall.reserved]) (by have := h.nonneg; omega) (by omega)
      (fun _ => hfits) h.holder hlock (fun j d hne hj => ?_) trivial
    exact ⟨h.lock j d hj, ReserveCall.knows_of_outside (hothers hheld j d hne hj) _⟩
  | reserving =>
    cases hstep
    have hheld := hlock.1 rfl
    refine h.update hi (by simp [ReserveCall.reserved]) h.nonneg h.range h.fits nofun
      (by simp [ReserveCall.inSection]) (fun j d hne hj => ⟨?_, h.knows j d hj⟩) trivial
    rw [hothers hheld j d hne hj]
    simp
  | refusing =>
    cases hstep
    have hheld := hlock.1 rfl
    refine h.update hi (by simp [ReserveCall.reserved]) h.nonneg h.range h.fits nofun
      (by simp [ReserveCall.inSection]) (fun j d hne hj => ⟨?_, h.knows j d hj⟩) trivial
    rw [hothers hheld j d hne hj]
    simp
  | granted =>
    cases hstep
    have hpos : 0 < s.active := by
      have hmem : 0 < s.calls.countP ReserveCall.reserved :=
        List.countP_pos_iff.2 ⟨_, List.mem_of_getElem? hi, rfl⟩
      rw [h.count]
      exact_mod_cast hmem
    have hrange := h.range
    have hwrap : wrap32 (s.active - 1) = s.active - 1 :=
      wrap32_eq (abs_lt.2 ⟨by omega, by omega⟩)
    rw [hwrap]
    refine h.update hi (by simp [ReserveCall.reserved]) (by omega) (by omega) (fun _ => ?_) h.holder hlock
      (fun j d hne hj => ⟨h.lock j d hj, (h.knows j d hj).falls⟩) trivial
    have hfits := h.fits hpos
    have hkv : (0 : Int) ≤ getKvCacheSizeBytes g := Int.natCast_nonneg _
    rw [Int.sub_mul, Int.one_mul]
    omega
  | releasing =>
    cases hstep
    exact h.update hi (by simp [ReserveCall.reserved]) h.nonneg h.range h.fits h.holder hlock
      (fun j d _ hj => ⟨h.lock j d hj, h.knows j d hj⟩) trivial
  | refused => cases hstep
  | released => cases hstep

/-- A step of the system keeps the invariant. -/
theorem AdmissionState.Inv.step (hlimit : 0 < limit)
    (hsizes : max (getModelSizeBytes g fileSize) limit + getKvCacheSizeBytes g <
      18446744073709551616)
    (h : s.Inv g fileSize limit) {e : AdmissionEvent} {s' : AdmissionState}
    (hstep : s.step g fileSize limit e = some s') : s'.Inv g fileSize limit := by
  cases e with
  | advance i now =>
    obtain ⟨c, hi, hc⟩ := Option.bind_eq_some_iff.1 hstep
    exact h.advance hlimit hsizes hi hc
  | call =>
    cases hstep
    have hnew : ∀ (i : Nat) (c : ReserveCall), (s.calls ++ [.waiting])[i]? = some c →
        s.calls[i]? = some c ∨ i = s.calls.length ∧ c = .waiting := by
      intro i c hi
      rcases lt_trichotomy i s.calls.length with hlt | rfl | hgt
      · rw [List.getElem?_append_left hlt] at hi
        exact .inl hi
      · rw [List.getElem?_concat_length] at hi
        exact .inr ⟨rfl, (Option.some.inj hi).symm⟩
      · rw [List.getElem?_eq_none (by simpa using hgt)] at hi
        cases hi
    refine ⟨⟨?_, h.nonneg, h.fits⟩, h.range, fun i hi => ?_, fun i c hi => ?_, fun i c hi => ?_⟩
    · simp [List.countP_append, ReserveCall.reserved, h.count]
    · rw [List.length_append]
      exact Nat.lt_add_right 1 (h.holder i hi)
    · rcases hnew i c hi with hi | ⟨rfl, rfl⟩
      · exact h.lock i c hi
      · refine iff_of_false Bool.false_ne_true fun hheld => ?_
        exact Nat.lt_irrefl _ (h.holder _ hheld)
    · rcases hnew i c hi with hi | ⟨rfl, rfl⟩
      · exact h.knows i c hi
      · trivial

/-- In every interleaving of calls and guards, the counter is the number of reservations that are not
released, and the memory of these fits the limit. -/
theorem admission_safe (hlimit : 0 < limit)
    (hsizes : max (getModelSizeBytes g fileSize) limit + getKvCacheSizeBytes g <
      18446744073709551616) (events : List AdmissionEvent) :
    Always (AdmissionState.step g fileSize limit) (AdmissionState.Bounded g fileSize limit) events
      {} := by
  have hinit : AdmissionState.Inv g fileSize limit {} :=
    ⟨⟨rfl, le_rfl, nofun⟩, by decide, nofun, nofun, nofun⟩
  exact (always_of_step (fun s e s' h hstep => h.step hlimit hsizes hstep) hinit).mono
    fun s h => h.toBounded

end

/-- A loaded model whose cache takes 8 bytes for each request. -/
def tinyServerModel : ServerModelState where
  cfg := tinyConfig
  embedding := [0x3F800000]
  layers := []
  finalNorm := [0x3F800000]
  layerNorms := []
  rope := ⟨[], [], 1, 1⟩
  modelDir := "tiny"
  loaded := true

/-- A call that ends with a reservation. -/
def grantedCall (i : Nat) : List AdmissionEvent :=
  .call :: List.replicate 8 (.advance i 0)

/-- Two calls, of which the second comes when the first has released its reservation. -/
theorem admission_safe_tiny :
    Always (AdmissionState.step tinyServerModel (fun _ => none) 16)
      (AdmissionState.Bounded tinyServerModel (fun _ => none) 16)
      (grantedCall 0 ++ [.advance 0 1, .advance 0 2] ++ grantedCall 1) {} :=
  admission_safe (by decide) (by decide) _

end Terllama
