import Terllama.Core.GigaToken
import Terllama.Core.Tokenizer
import Terllama.Server.Admission

/-!
# Requests and the keep-alive watchdog

The path of a completion request of `src/server/handlers.cpp` to its generation
(`touch_last_request`, the check of `g_model.loaded`, `init_server`, `try_reserve_request`,
`get_model_snapshot`, `RequestGuard`), and the watchdog of `src/server.cpp`, for any number of
requests at once. A step is a section under a mutex, or an operation on one of the variables that
have none.

The watchdog tests that the server is idle before it takes the mutex, and a request counts as active
only behind the check that the model is loaded. `serves_loaded` is about the runs in which no
request is between its check and its snapshot when the model is unloaded; in the others a request
can run on the cleared model, and leave its copy in the cache for those behind it
(`serves_cleared`).
-/

namespace Terllama

/-! ## The shared model -/

/-- The fields of `ModelSnap`, and those of `ServerModelState` that it copies. -/
structure ModelSnap where
  cfg : ModelConfig
  embedding : List F32
  layers : List LayerData
  finalNorm : List F32
  layerNorms : List NormWeights
  rope : RoPECache
  tokenizer : Tokenizer
  gigatoken : Option GigaLib

/-- `g_model`. -/
structure GlobalModel where
  data : ModelSnap
  modelDir : String
  loaded : Bool

/-- What the watchdog leaves of the data. -/
def ModelSnap.cleared (m : ModelSnap) : ModelSnap :=
  { m with
    embedding := []
    layers := []
    finalNorm := []
    layerNorms := []
    rope := { m.rope with sin := [], cos := [] } }

/-- The part of the model that the sizes are taken from. -/
def GlobalModel.sizes (g : GlobalModel) : ServerModelState where
  cfg := g.data.cfg
  embedding := g.data.embedding
  layers := g.data.layers
  finalNorm := g.data.finalNorm
  layerNorms := g.data.layerNorms
  rope := g.data.rope
  modelDir := g.modelDir
  loaded := g.loaded

/-- What the loading in `init_server` comes to: the data of the model, or an exception and what has
been assigned before it. -/
inductive LoadOutcome where
  | completed (m : ModelSnap)
  | threw (left : ModelSnap)

/-- `init_server`, with the snapshot cache that it invalidates. -/
def GlobalModel.initServer (g : GlobalModel) (cache : Option ModelSnap) (modelDir : String)
    (outcome : LoadOutcome) : Bool × GlobalModel × Option ModelSnap :=
  if g.loaded then (true, g, cache)
  else
    match outcome with
    | .completed m => (true, { data := m, modelDir := modelDir, loaded := true }, none)
    | .threw left => (false, { data := left, modelDir := modelDir, loaded := false }, cache)

/-- `try_reserve_request`: whether there is room for one request more. -/
def tryReserveRequest (g : GlobalModel) (fileSize : String → Option Nat) (limit : Nat)
    (active : Int) : Bool :=
  if 0 < limit then
    decide (sizeT (getModelSizeBytes g.sizes fileSize +
      sizeT (active + 1) * getKvCacheSizeBytes g.sizes) ≤ limit)
  else true

/-! ## The steps -/

/-- Where a completion request is. -/
inductive ServeRequest where
  | arrived
  /-- Behind `touch_last_request`. -/
  | touched
  /-- It has found no model, and calls `init_server`. -/
  | reloading (modelDir : String)
  /-- It has found a model, or loaded one. -/
  | passed
  /-- It has a slot. -/
  | reserved
  /-- Its prompt is tokenized, and it calls `get_model_snapshot`. -/
  | tokenized
  /-- It has found no cached snapshot. -/
  | building
  /-- It has copied the model. -/
  | built (fresh : ModelSnap)
  /-- `get_model_snapshot` has returned. -/
  | generating (snap : ModelSnap)
  /-- In the destructor of the guard, behind the decrement. -/
  | releasing
  | ended

/-- The request is between its check of the model and the return of `get_model_snapshot`. -/
def ServeRequest.unserved : ServeRequest → Bool
  | .passed | .reserved | .tokenized | .building | .built _ => true
  | .arrived | .touched | .reloading _ | .generating _ | .releasing | .ended => false

/-- Where the watchdog is. -/
inductive Watchdog where
  | sleeping
  | sawLoaded
  | readNow (now : Int)
  | readLast (now last : Int)
  /-- The server is idle, and it waits for the mutex of the model. -/
  | idle

/-- The shared variables, and where the threads are. -/
structure ServeState where
  model : GlobalModel
  snapshotCache : Option ModelSnap := none
  active : Int := 0
  lastRequestTime : Int
  clock : Int
  requests : List ServeRequest := []
  watchdog : Watchdog := .sleeping

/-- What happens next: time passes, a request comes, takes a step, loads the model or is answered
with an error, or the watchdog takes a step. -/
inductive ServeEvent where
  | tick (ms : Nat)
  | arrive
  | advance (i : Nat)
  | reload (i : Nat) (outcome : LoadOutcome)
  | reject (i : Nat)
  | watch

/-- The server behind its first `init_server`. -/
def ServeState.started (m : ModelSnap) (modelDir : String) (time : Int) : ServeState where
  model := { data := m, modelDir := modelDir, loaded := true }
  lastRequestTime := time
  clock := time

/-- A request is at a new place. -/
def ServeState.moved (s : ServeState) (i : Nat) (r : ServeRequest) : ServeState :=
  { s with requests := s.requests.set i r }

section
variable (fileSize : String → Option Nat) (limit : Nat) (keepAliveMs : Int)

/-- The next step of a request, but for `init_server`. -/
def ServeState.advance (s : ServeState) (i : Nat) : ServeRequest → Option ServeState
  | .arrived => some { s.moved i .touched with lastRequestTime := s.clock }
  | .touched =>
    if s.model.loaded then some (s.moved i .passed)
    else if s.model.modelDir.isEmpty then some (s.moved i .ended)
    else some (s.moved i (.reloading s.model.modelDir))
  | .reloading _ => none
  | .passed =>
    if tryReserveRequest s.model fileSize limit s.active then
      some { s.moved i .reserved with active := wrap32 (s.active + 1) }
    else some (s.moved i .ended)
  | .reserved => some (s.moved i .tokenized)
  | .tokenized =>
    match s.snapshotCache with
    | some cached => some (s.moved i (.generating cached))
    | none => some (s.moved i .building)
  | .building => some (s.moved i (.built s.model.data))
  | .built fresh =>
    let cached := s.snapshotCache.getD fresh
    some { s.moved i (.generating cached) with snapshotCache := some cached }
  | .generating _ => some { s.moved i .releasing with active := wrap32 (s.active - 1) }
  | .releasing => some { s.moved i .ended with lastRequestTime := s.clock }
  | .ended => none

/-- `init_server`, called by a request. -/
def ServeState.reload (s : ServeState) (i : Nat) (outcome : LoadOutcome) :
    ServeRequest → Option ServeState
  | .reloading modelDir =>
    let result := s.model.initServer s.snapshotCache modelDir outcome
    some { s.moved i (if result.1 then .passed else .ended) with
      model := result.2.1
      snapshotCache := result.2.2 }
  | .arrived | .touched | .passed | .reserved | .tokenized | .building | .built _
  | .generating _ | .releasing | .ended => none

/-- An answer with an error: without a slot for a request that is not allowed, and with one for a
bad body, a prompt that is too long and an exception. -/
def ServeState.reject (s : ServeState) (i : Nat) : ServeRequest → Option ServeState
  | .touched => some (s.moved i .ended)
  | .reserved | .tokenized | .building | .built _ =>
    some { s.moved i .releasing with active := wrap32 (s.active - 1) }
  | .arrived | .reloading _ | .passed | .generating _ | .releasing | .ended => none

/-- The next step of the watchdog. -/
def ServeState.watch (s : ServeState) : Watchdog → ServeState
  | .sleeping => if s.model.loaded then { s with watchdog := .sawLoaded } else s
  | .sawLoaded => { s with watchdog := .readNow s.clock }
  | .readNow now => { s with watchdog := .readLast now s.lastRequestTime }
  | .readLast now last =>
    if now - last > keepAliveMs ∧ s.active = 0 then { s with watchdog := .idle }
    else { s with watchdog := .sleeping }
  | .idle =>
    { s with
      model := { s.model with data := s.model.data.cleared, loaded := false }
      snapshotCache := none
      watchdog := .sleeping }

/-- A step of the server. -/
def ServeState.step (s : ServeState) : ServeEvent → Option ServeState
  | .tick ms => some { s with clock := s.clock + ms }
  | .arrive => some { s with requests := s.requests ++ [.arrived] }
  | .advance i => s.requests[i]?.bind (s.advance fileSize limit i)
  | .reload i outcome => s.requests[i]?.bind (s.reload i outcome)
  | .reject i => s.requests[i]?.bind (s.reject i)
  | .watch => some (s.watch keepAliveMs s.watchdog)

/-- A request that gets its snapshot in this step gets the data of the model, which is loaded. -/
def ServesLoaded (s : ServeState) (e : ServeEvent) : Prop :=
  ∀ s', s.step fileSize limit keepAliveMs e = some s' →
    ∀ (i : Nat) (snap : ModelSnap), s'.requests[i]? = some (.generating snap) →
      s.requests[i]? ≠ some (.generating snap) → s'.model.loaded = true ∧ snap = s'.model.data

/-- The watchdog unloads the model only when no request waits for its snapshot. -/
def Undisturbed (s : ServeState) (e : ServeEvent) : Prop :=
  e = .watch → s.watchdog = .idle → ∀ r ∈ s.requests, r.unserved = false

end

/-! ## The invariant -/

/-- What holds as long as no request is disturbed: a request that is to be served has a model, and
every copy that it can get is one of this model. -/
structure ServeState.Inv (s : ServeState) : Prop where
  cache : ∀ snap, s.snapshotCache = some snap → s.model.loaded = true ∧ snap = s.model.data
  unserved : ∀ r ∈ s.requests, r.unserved = true → s.model.loaded = true
  built : ∀ fresh, .built fresh ∈ s.requests → fresh = s.model.data

section
variable {fileSize : String → Option Nat} {limit : Nat} {keepAliveMs : Int} {s s' : ServeState}
  {i : Nat} {r r' : ServeRequest}

/-- A step of one request that leaves the model alone. -/
theorem ServeState.Inv.moved (h : s.Inv) {cache : Option ModelSnap} {active time : Int}
    (hcache : ∀ snap, cache = some snap → s.model.loaded = true ∧ snap = s.model.data)
    (hunserved : r'.unserved = true → s.model.loaded = true)
    (hbuilt : ∀ fresh, r' = .built fresh → fresh = s.model.data) :
    ServeState.Inv { s.moved i r' with
      snapshotCache := cache
      active := active
      lastRequestTime := time } := by
  refine ⟨hcache, fun q hq hwaits => ?_, fun fresh hfresh => ?_⟩
  · rcases List.mem_or_eq_of_mem_set hq with hq | rfl
    · exact h.unserved q hq hwaits
    · exact hunserved hwaits
  · rcases List.mem_or_eq_of_mem_set hfresh with hq | heq
    · exact h.built fresh hq
    · exact hbuilt fresh heq.symm

/-- A step of one request to a place where it does not wait for a snapshot. -/
theorem ServeState.Inv.left (h : s.Inv) (hr : r'.unserved = false) {active time : Int} :
    ServeState.Inv { s.moved i r' with active := active, lastRequestTime := time } := by
  refine h.moved h.cache (fun hwaits => ?_) fun fresh hfresh => ?_
  · rw [hr] at hwaits
    cases hwaits
  · rw [hfresh] at hr
    cases hr

/-- A step of a request keeps the invariant. -/
theorem ServeState.Inv.advance (h : s.Inv) (hr : r ∈ s.requests)
    (hstep : s.advance fileSize limit i r = some s') : s'.Inv := by
  have hmodel : r.unserved = true → s.model.loaded = true := h.unserved r hr
  cases r with
  | arrived =>
    cases hstep
    exact h.left rfl
  | touched =>
    rw [ServeState.advance] at hstep
    split_ifs at hstep with hloaded hdir
    · cases hstep
      exact h.moved h.cache (fun _ => hloaded) (by simp)
    · cases hstep
      exact h.left rfl
    · cases hstep
      exact h.left rfl
  | reloading modelDir => cases hstep
  | passed =>
    rw [ServeState.advance] at hstep
    split at hstep
    · cases hstep
      exact h.moved h.cache (fun _ => hmodel rfl) (by simp)
    · cases hstep
      exact h.left rfl
  | reserved =>
    cases hstep
    exact h.moved h.cache (fun _ => hmodel rfl) (by simp)
  | tokenized =>
    rw [ServeState.advance] at hstep
    split at hstep
    · cases hstep
      exact h.left rfl
    · cases hstep
      exact h.moved h.cache (fun _ => hmodel rfl) (by simp)
  | building =>
    cases hstep
    refine h.moved h.cache (fun _ => hmodel rfl) fun fresh hfresh => ?_
    cases hfresh
    rfl
  | built fresh =>
    cases hstep
    refine h.moved (fun snap hsnap => ?_) (by simp [ServeRequest.unserved]) (by simp)
    cases hcache : s.snapshotCache with
    | none =>
      rw [hcache] at hsnap
      cases hsnap
      exact ⟨hmodel rfl, h.built fresh hr⟩
    | some cached =>
      rw [hcache] at hsnap
      cases hsnap
      exact h.cache cached hcache
  | generating snap =>
    cases hstep
    exact h.left rfl
  | releasing =>
    cases hstep
    exact h.left rfl
  | ended => cases hstep

theorem GlobalModel.initServer_loaded {g : GlobalModel} (h : g.loaded = true)
    (cache : Option ModelSnap) (modelDir : String) (outcome : LoadOutcome) :
    g.initServer cache modelDir outcome = (true, g, cache) := if_pos h

theorem GlobalModel.initServer_unloaded {g : GlobalModel} (h : ¬ g.loaded = true)
    (cache : Option ModelSnap) (modelDir : String) (outcome : LoadOutcome) :
    g.initServer cache modelDir outcome =
      match outcome with
      | .completed m => (true, { data := m, modelDir := modelDir, loaded := true }, none)
      | .threw left => (false, { data := left, modelDir := modelDir, loaded := false }, cache) :=
  if_neg h

/-- `init_server` keeps the invariant: where it replaces the model, no request waits for a snapshot
and none is cached. -/
theorem ServeState.Inv.reload (h : s.Inv) {outcome : LoadOutcome}
    (hstep : s.reload i outcome r = some s') : s'.Inv := by
  cases r with
  | reloading modelDir =>
    dsimp only [ServeState.reload] at hstep
    by_cases hloaded : s.model.loaded = true
    · rw [GlobalModel.initServer_loaded hloaded] at hstep
      cases hstep
      exact h.moved h.cache (fun _ => hloaded) (by simp)
    · rw [GlobalModel.initServer_unloaded hloaded] at hstep
      have hnone : s.snapshotCache = none := by
        refine Option.eq_none_iff_forall_ne_some.2 fun snap hsnap => ?_
        exact hloaded (h.cache snap hsnap).1
      have hserved : ∀ q ∈ s.requests, q.unserved = false := by
        intro q hq
        by_contra hwaits
        exact hloaded (h.unserved q hq (by simpa using hwaits))
      have hbuilt : ∀ fresh, .built fresh ∉ s.requests := by
        intro fresh hfresh
        exact absurd (hserved _ hfresh) (by simp [ServeRequest.unserved])
      cases outcome with
      | completed m =>
        cases hstep
        refine ⟨fun snap hsnap => absurd hsnap (by simp), fun _ _ _ => rfl, fun fresh hfresh => ?_⟩
        rcases List.mem_or_eq_of_mem_set hfresh with hq | heq
        · exact absurd hq (hbuilt fresh)
        · cases heq
      | threw left =>
        cases hstep
        refine ⟨fun snap hsnap => ?_, fun q hq hwaits => ?_, fun fresh hfresh => ?_⟩
        · change s.snapshotCache = some snap at hsnap
          rw [hnone] at hsnap
          cases hsnap
        · rcases List.mem_or_eq_of_mem_set hq with hq | rfl
          · rw [hserved q hq] at hwaits
            cases hwaits
          · cases hwaits
        · rcases List.mem_or_eq_of_mem_set hfresh with hq | heq
          · exact absurd hq (hbuilt fresh)
          · cases heq
  | arrived => cases hstep
  | touched => cases hstep
  | passed => cases hstep
  | reserved => cases hstep
  | tokenized => cases hstep
  | building => cases hstep
  | built fresh => cases hstep
  | generating snap => cases hstep
  | releasing => cases hstep
  | ended => cases hstep

theorem ServeState.Inv.reject (h : s.Inv) (hstep : s.reject i r = some s') : s'.Inv := by
  cases r with
  | touched | reserved | tokenized | building | built =>
    cases hstep
    exact h.left rfl
  | arrived | reloading | passed | generating | releasing | ended => cases hstep

/-- A step of the watchdog keeps the invariant where it disturbs no request. -/
theorem ServeState.Inv.watch (h : s.Inv)
    (hquiet : s.watchdog = .idle → ∀ r ∈ s.requests, r.unserved = false) :
    (s.watch keepAliveMs s.watchdog).Inv := by
  have hkeep : ∀ w, ServeState.Inv { s with watchdog := w } := fun w =>
    ⟨h.cache, h.unserved, h.built⟩
  cases hw : s.watchdog with
  | sleeping =>
    rw [ServeState.watch]
    split
    · exact hkeep _
    · exact h
  | sawLoaded => exact hkeep _
  | readNow now => exact hkeep _
  | readLast now last =>
    rw [ServeState.watch]
    split
    · exact hkeep _
    · exact hkeep _
  | idle =>
    have hserved := hquiet hw
    refine ⟨fun snap hsnap => absurd hsnap (by simp [ServeState.watch]), fun q hq hwaits => ?_,
      fun fresh hfresh => ?_⟩
    · rw [hserved q hq] at hwaits
      cases hwaits
    · exact absurd (hserved _ hfresh) (by simp [ServeRequest.unserved])

/-- A step that disturbs no request keeps the invariant. -/
theorem ServeState.Inv.step (h : s.Inv) {e : ServeEvent} (hquiet : Undisturbed s e)
    (hstep : s.step fileSize limit keepAliveMs e = some s') : s'.Inv := by
  cases e with
  | tick ms =>
    cases hstep
    exact ⟨h.cache, h.unserved, h.built⟩
  | arrive =>
    cases hstep
    refine ⟨h.cache, fun q hq hwaits => ?_, fun fresh hfresh => ?_⟩
    · rcases List.mem_append.1 hq with hq | hq
      · exact h.unserved q hq hwaits
      · rw [List.mem_singleton.1 hq] at hwaits
        cases hwaits
    · rcases List.mem_append.1 hfresh with hq | hq
      · exact h.built fresh hq
      · cases List.mem_singleton.1 hq
  | advance i =>
    obtain ⟨r, hr, hstep⟩ := Option.bind_eq_some_iff.1 hstep
    exact h.advance (List.mem_of_getElem? hr) hstep
  | reload i outcome =>
    obtain ⟨r, -, hstep⟩ := Option.bind_eq_some_iff.1 hstep
    exact h.reload hstep
  | reject i =>
    obtain ⟨r, -, hstep⟩ := Option.bind_eq_some_iff.1 hstep
    exact h.reject hstep
  | watch =>
    cases hstep
    exact h.watch (hquiet rfl)

/-! ## Snapshots -/

/-- Of the requests, only one that moves can come to its generation. -/
theorem eq_generating_of_set {requests : List ServeRequest} {i j : Nat} {snap : ModelSnap}
    (h : (requests.set j r')[i]? = some (.generating snap))
    (hnot : requests[i]? ≠ some (.generating snap)) : r' = .generating snap := by
  rw [List.getElem?_set] at h
  split at h
  · split at h
    · exact Option.some.inj h
    · cases h
  · exact absurd h hnot

/-- Under the invariant `get_model_snapshot` returns the data of the model. -/
theorem ServeState.Inv.serves (h : s.Inv) (e : ServeEvent) :
    ServesLoaded fileSize limit keepAliveMs s e := by
  intro s' hstep i snap hi hnot
  cases e with
  | tick ms =>
    cases hstep
    exact absurd hi hnot
  | arrive =>
    cases hstep
    rcases List.mem_append.1 (List.mem_of_getElem? hi) with hmem | hmem
    · refine absurd ?_ hnot
      rcases Nat.lt_or_ge i s.requests.length with hlt | hge
      · rwa [List.getElem?_append_left hlt] at hi
      · have hnew := hi
        rw [List.getElem?_append_right hge] at hnew
        cases List.mem_singleton.1 (List.mem_of_getElem? hnew)
    · cases List.mem_singleton.1 hmem
  | advance j =>
    obtain ⟨r, hr, hstep⟩ := Option.bind_eq_some_iff.1 hstep
    have hmem : r ∈ s.requests := List.mem_of_getElem? hr
    cases r with
    | arrived | reserved | building | generating | releasing =>
      cases hstep
      cases eq_generating_of_set hi hnot
    | touched =>
      rw [ServeState.advance] at hstep
      split_ifs at hstep
      all_goals
        cases hstep
        cases eq_generating_of_set hi hnot
    | passed =>
      rw [ServeState.advance] at hstep
      split at hstep
      all_goals
        cases hstep
        cases eq_generating_of_set hi hnot
    | tokenized =>
      rw [ServeState.advance] at hstep
      split at hstep
      · rename_i cached hcache
        cases hstep
        rw [← ServeRequest.generating.inj (eq_generating_of_set hi hnot)]
        exact h.cache cached hcache
      · cases hstep
        cases eq_generating_of_set hi hnot
    | built fresh =>
      cases hstep
      rw [← ServeRequest.generating.inj (eq_generating_of_set hi hnot)]
      cases hcache : s.snapshotCache with
      | none => exact ⟨h.unserved _ hmem rfl, h.built fresh hmem⟩
      | some cached => exact h.cache cached hcache
    | reloading | ended => cases hstep
  | reload j outcome =>
    obtain ⟨r, -, hstep⟩ := Option.bind_eq_some_iff.1 hstep
    cases r with
    | reloading modelDir =>
      cases hstep
      have hmoved := eq_generating_of_set hi hnot
      split_ifs at hmoved
    | arrived | touched | passed | reserved | tokenized | building | built | generating | releasing
    | ended => cases hstep
  | reject j =>
    obtain ⟨r, -, hstep⟩ := Option.bind_eq_some_iff.1 hstep
    cases r with
    | touched | reserved | tokenized | building | built =>
      cases hstep
      cases eq_generating_of_set hi hnot
    | arrived | reloading | passed | generating | releasing | ended => cases hstep
  | watch =>
    cases hstep
    refine absurd ?_ hnot
    have hrequests : (s.watch keepAliveMs s.watchdog).requests = s.requests := by
      cases s.watchdog with
      | sleeping => rw [ServeState.watch]; split <;> rfl
      | sawLoaded | readNow | idle => rfl
      | readLast now last => rw [ServeState.watch]; split <;> rfl
    rwa [hrequests] at hi

end

/-! ## Runs -/

/-- In every interleaving of requests, reloads and the watchdog in which the model is not unloaded
while a request is between its check of the model and its snapshot, every request that comes to its
generation has the data of the model that is loaded at that moment. -/
theorem serves_loaded (fileSize : String → Option Nat) (limit : Nat) (keepAliveMs : Int)
    (m : ModelSnap) (modelDir : String) (time : Int) (events : List ServeEvent)
    (h : EachStep (ServeState.step fileSize limit keepAliveMs) Undisturbed events
      (.started m modelDir time)) :
    EachStep (ServeState.step fileSize limit keepAliveMs) (ServesLoaded fileSize limit keepAliveMs)
      events (.started m modelDir time) := by
  have hinit : (ServeState.started m modelDir time).Inv :=
    ⟨fun _ h => absurd h (by simp [ServeState.started]), fun _ _ _ => rfl,
      fun _ h => absurd h (by simp [ServeState.started])⟩
  exact h.of_invariant (fun _ _ _ hI hquiet hstep => hI.step hquiet hstep)
    (fun _ _ _ hI _ _ => hI.serves _) hinit

/-- A model of one weight. -/
def tinySnap : ModelSnap where
  cfg := tinyConfig
  embedding := [0x3F800000]
  layers := []
  finalNorm := [0x3F800000]
  layerNorms := []
  rope := ⟨[], [], 1, 1⟩
  tokenizer := {}
  gigatoken := none

/-- The watchdog up to the mutex of the model, for a server that has been idle for 5 ms. -/
def idleTest : List ServeEvent := [.tick 5, .watch, .watch, .watch, .watch]

/-- A request that comes to an unloaded model is served from the one that it loads. -/
theorem serves_loaded_reload :
    EachStep (ServeState.step (fun _ => none) 0 1) (ServesLoaded (fun _ => none) 0 1)
      (idleTest ++ [.watch, .arrive, .advance 0, .advance 0, .reload 0 (.completed tinySnap),
        .advance 0, .advance 0, .advance 0, .advance 0, .advance 0])
      (.started tinySnap "tiny" 0) := by
  refine serves_loaded _ _ _ _ _ _ _ ?_
  simp [EachStep, Undisturbed, idleTest, ServeState.step, ServeState.watch, ServeState.started]

/-- A request that passes its check before the model is unloaded, and the reload behind it. -/
def clearedRun : List ServeEvent :=
  idleTest ++ [.arrive, .advance 0, .advance 0, .watch, .advance 0, .advance 0, .advance 0,
    .advance 0, .arrive, .advance 1, .advance 1, .reload 1 (.completed tinySnap), .advance 0,
    .advance 1, .advance 1]

/-- Behind it, the next request is about to get its snapshot. -/
def clearedState : ServeState where
  model := { data := tinySnap, modelDir := "tiny", loaded := true }
  snapshotCache := some tinySnap.cleared
  active := 2
  lastRequestTime := 5
  clock := 5
  requests := [.generating tinySnap.cleared, .tokenized]

/-- The request generates on the cleared model, and so does the next one, on a model that is loaded
again, from the snapshot that the first one has cached. -/
theorem serves_cleared :
    (∃ s, (clearedRun ++ [ServeEvent.advance 1]).foldlM (ServeState.step (fun _ => none) 0 1)
        (.started tinySnap "tiny" 0) = some s ∧
      s.model = { data := tinySnap, modelDir := "tiny", loaded := true } ∧
      s.requests = [.generating tinySnap.cleared, .generating tinySnap.cleared]) ∧
    tinySnap.embedding ≠ [] ∧ tinySnap.cleared.embedding = [] ∧
    ¬ EachStep (ServeState.step (fun _ => none) 0 1) (ServesLoaded (fun _ => none) 0 1)
      (clearedRun ++ [ServeEvent.advance 1]) (.started tinySnap "tiny" 0) := by
  have hrun : clearedRun.foldlM (ServeState.step (fun _ => none) 0 1)
      (.started tinySnap "tiny" 0) = some clearedState := rfl
  refine ⟨⟨clearedState.moved 1 (.generating tinySnap.cleared), ?_, rfl, rfl⟩, by decide, rfl,
    fun h => ?_⟩
  · rw [List.foldlM_append, hrun]
    rfl
  · have hserves := h.at_end hrun rfl
    have hnot : clearedState.requests[1]? ≠ some (.generating tinySnap.cleared) := by
      simp [clearedState]
    exact absurd (congrArg ModelSnap.embedding (hserves _ rfl 1 _ rfl hnot).2) (by decide)

end Terllama
