import Terllama.Base.Bytes
import Terllama.Base.Runs

/-!
# The server manager of the desktop application

`ServerManager` of `src-tauri/src/server.rs`. Each mutex guards one field, and a call of `start` runs
from one of its await points to the next, so that other calls run in between (`step`). `sound_iff`
says which runs keep the manager's fields in order. Two steps can break them. A start that fails
before its child is spawned leaves the status at `Starting`, and one that becomes healthy while the
manager holds a child drops that child, which goes on running.
-/

namespace Terllama

/-! ## The state -/

/-- `ServerStatus`. -/
inductive ServerStatus where
  | stopped
  | starting
  | running
  | error (message : Bytes)
  deriving DecidableEq, Repr

/-- The await points of `start`. Behind the first the call has a child and counts its retries. -/
inductive AwaitPoint where
  | resolveHfRepo
  | sleep (child retry : Nat)
  | get (child retry : Nat)
  deriving DecidableEq, Repr

/-- The child that a call holds in its local variable. -/
def AwaitPoint.child? : AwaitPoint → Option Nat
  | .resolveHfRepo => none
  | .sleep child _ | .get child _ => some child

/-- A call of `start` that waits. -/
structure StartCall where
  modelId : Bytes
  port : Nat
  awaiting : AwaitPoint
  deriving DecidableEq, Repr

/-- `ServerManager`, the calls of `start` that are in flight, what those returned that are not, and
the children: the model that each was spawned for, and those that have been waited for. -/
structure ServerManager where
  status : ServerStatus := .stopped
  process : Option Nat := none
  currentModel : Option Bytes := none
  port : Nat := 8375
  calls : Nat → Option StartCall := fun _ => none
  results : List (Except Bytes Unit) := []
  spawned : List Bytes := []
  waited : List Nat := []

/-- A call goes on to an await point. -/
def ServerManager.suspend (s : ServerManager) (call : Nat) (c : StartCall) : ServerManager :=
  { s with calls := Function.update s.calls call (some c) }

/-- A call returns. -/
def ServerManager.finish (s : ServerManager) (call : Nat) (result : Except Bytes Unit) :
    ServerManager :=
  { s with calls := Function.update s.calls call none, results := result :: s.results }

/-! ## The steps -/

/-- The outcomes of the part of `start` that spawns the child. -/
inductive Launch where
  | binaryNotFound
  | logDirFailed (e : Bytes)
  | spawnFailed (e : Bytes)
  | spawned
  deriving DecidableEq, Repr

/-- The error that a launch returns. -/
def Launch.error? : Launch → Option Bytes
  | .binaryNotFound => some (str "terllama binary not found in PATH or common locations")
  | .logDirFailed e => some (str "Failed to create log dir: " ++ e)
  | .spawnFailed e => some (str "Failed to start server: " ++ e)
  | .spawned => none

/-- The parts of the calls between two await points, with what the operating system and the engine
answer. The lines of an engine that failed are in `detail`. -/
inductive ManagerEvent where
  | start (call : Nat) (modelId : Bytes) (port : Nat)
  | launch (call : Nat) (outcome : Launch)
  | wake (call : Nat) (exited : Option Bytes)
  | response (call : Nat) (healthy : Bool) (detail : Bytes)
  | stop
  deriving DecidableEq, Repr

/-- `max_retries`. -/
def maxRetries : Nat := 60

/-- The end of the messages of a failed start. -/
def failureDetail (logDir modelId detail : Bytes) : Bytes :=
  detail ++ str " Log file: " ++ logDir ++ str "/server-" ++ modelId ++ str ".log"

/-- The child of a call has failed, and has been waited for. -/
def ServerManager.fail (s : ServerManager) (logDir : Bytes) (call child : Nat) (c : StartCall)
    (what detail : Bytes) : ServerManager :=
  { s with
    status := .error (what ++ failureDetail logDir c.modelId detail)
    waited := child :: s.waited }.finish call
      (.error (str "Server failed to start within 30 seconds. " ++
        failureDetail logDir c.modelId detail))

/-- `ServerManager::stop`. -/
def ServerManager.stop (s : ServerManager) : ServerManager :=
  { s with
    waited := s.process.toList ++ s.waited
    process := none
    status := .stopped
    currentModel := none }

/-- The end of a start whose child answers. -/
def ServerManager.succeed (s : ServerManager) (call child : Nat) (c : StartCall) : ServerManager :=
  { s with
    status := .running
    process := some child
    currentModel := some c.modelId
    port := c.port }.finish call (.ok ())

/-- `ServerManager::start` between two await points, and `stop`. -/
def ServerManager.step (logDir : Bytes) (s : ServerManager) : ManagerEvent → Option ServerManager
  | .start call modelId port =>
    match s.calls call with
    | some _ => none
    | none => some ({ s with status := .starting }.suspend call
        { modelId, port, awaiting := .resolveHfRepo })
  | .launch call outcome =>
    match s.calls call with
    | some { modelId, port, awaiting := .resolveHfRepo } =>
      match outcome.error? with
      | some message => some (s.finish call (.error message))
      | none => some ({ s with spawned := s.spawned ++ [modelId] }.suspend call
          { modelId, port, awaiting := .sleep s.spawned.length 0 })
    | _ => none
  | .wake call exited =>
    match s.calls call with
    | some { modelId, port, awaiting := .sleep child retry } =>
      match exited with
      | some detail => some (s.fail logDir call child { modelId, port, awaiting := .sleep child retry }
          (str "Server failed to start. ") detail)
      | none => some (s.suspend call { modelId, port, awaiting := .get child retry })
    | _ => none
  | .response call healthy detail =>
    match s.calls call with
    | some { modelId, port, awaiting := .get child retry } =>
      if healthy then
        some (s.succeed call child { modelId, port, awaiting := .get child retry })
      else if retry + 1 < maxRetries then
        some (s.suspend call { modelId, port, awaiting := .sleep child (retry + 1) })
      else
        some (s.fail logDir call child { modelId, port, awaiting := .get child retry }
          (str "Server failed to start within 30s. ") detail)
    | _ => none
  | .stop => some s.stop

/-! ## Sound states -/

/-- A start is in flight. -/
def ServerManager.InFlight (s : ServerManager) : Prop := ∃ call c, s.calls call = some c

/-- A call in flight holds the child that it spawned. -/
def ServerManager.Holds (s : ServerManager) (call child : Nat) : Prop :=
  ∃ c, s.calls call = some c ∧ c.awaiting.child? = some child

/-- The fields of the manager are in order: after a start that failed, and without another in flight,
the status is not `Starting`; while the status is `Running` the manager holds the child spawned for
the current model; and a child that no start in flight holds is the one that the manager holds, or has
been waited for. -/
structure ServerManager.Sound (s : ServerManager) : Prop where
  settled : (∃ e, .error e ∈ s.results) → ¬ s.InFlight → s.status ≠ .starting
  running : s.status = .running → ∃ child modelId, s.process = some child ∧
    s.currentModel = some modelId ∧ s.spawned[child]? = some modelId
  children : ∀ child < s.spawned.length, (∀ call, ¬ s.Holds call child) →
    s.process = some child ∨ child ∈ s.waited

/-- What every step that is careful keeps. -/
structure ServerManager.Inv (s : ServerManager) : Prop where
  starting : s.status = .starting → s.InFlight
  running : s.status = .running → ∃ child modelId, s.process = some child ∧
    s.currentModel = some modelId ∧ s.spawned[child]? = some modelId
  children : ∀ child < s.spawned.length, (∀ call, ¬ s.Holds call child) →
    s.process = some child ∨ child ∈ s.waited
  held : ∀ call c child, s.calls call = some c → c.awaiting.child? = some child →
    s.spawned[child]? = some c.modelId ∧ s.process ≠ some child ∧ child ∉ s.waited
  distinct : ∀ call call' child, s.Holds call child → s.Holds call' child → call = call'
  process : ∀ child, s.process = some child → child < s.spawned.length ∧ child ∉ s.waited
  waited : ∀ child ∈ s.waited, child < s.spawned.length

theorem ServerManager.Inv.sound {s : ServerManager} (h : s.Inv) : s.Sound where
  settled _ hidle hstatus := hidle (h.starting hstatus)
  running := h.running
  children := h.children

/-- A start fails before its child is spawned only where another start is in flight or the status is
not `Starting`, and one becomes healthy only where the manager holds no child. -/
def ServerManager.Careful (s : ServerManager) : ManagerEvent → Prop
  | .launch call outcome =>
    outcome = .spawned ∨ s.status ≠ .starting ∨ ∃ other, other ≠ call ∧ s.calls other ≠ none
  | .response _ healthy _ => healthy = true → s.process = none
  | _ => True

section
variable {s s' : ServerManager} {call child : Nat} {c : StartCall}

theorem ServerManager.suspend_calls (s : ServerManager) (call : Nat) (c : StartCall) (k : Nat) :
    (s.suspend call c).calls k = if k = call then some c else s.calls k :=
  Function.update_apply ..

theorem ServerManager.finish_calls (s : ServerManager) (call : Nat) (r : Except Bytes Unit) (k : Nat) :
    (s.finish call r).calls k = if k = call then none else s.calls k :=
  Function.update_apply ..

/-- A call goes on and holds the same child. -/
theorem ServerManager.Inv.suspend (h : s.Inv) (hcall : s.calls call = some c) {c' : StartCall}
    (hmodel : c'.modelId = c.modelId) (hchild : c'.awaiting.child? = c.awaiting.child?) :
    (s.suspend call c').Inv := by
  have hholds : ∀ k ch, (s.suspend call c').Holds k ch ↔ s.Holds k ch := by
    intro k ch
    unfold Holds
    rw [suspend_calls]
    by_cases hk : k = call
    · subst hk
      simp [hcall, hchild]
    · rw [if_neg hk]
  exact {
    starting := fun _ => ⟨call, c', by rw [suspend_calls, if_pos rfl]⟩
    running := h.running
    children := fun ch hch hnone => h.children ch hch fun k hk => hnone k ((hholds k ch).2 hk)
    held := fun k ck ch hk hch => by
      rw [suspend_calls] at hk
      split at hk
      · cases hk
        rw [hmodel]
        exact h.held call c ch hcall (hchild ▸ hch)
      · exact h.held k ck ch hk hch
    distinct := fun k k' ch hk hk' =>
      h.distinct k k' ch ((hholds k ch).1 hk) ((hholds k' ch).1 hk')
    process := h.process
    waited := h.waited }

theorem ServerManager.finish_holds (s : ServerManager) (call : Nat) (r : Except Bytes Unit)
    (k ch : Nat) : (s.finish call r).Holds k ch ↔ k ≠ call ∧ s.Holds k ch := by
  unfold Holds
  rw [finish_calls]
  by_cases hk : k = call
  · simp [hk]
  · simp [hk]

/-- A call begins. -/
theorem ServerManager.Inv.start (h : s.Inv) (hcall : s.calls call = none) (modelId : Bytes)
    (port : Nat) : ({ s with status := .starting }.suspend call
      { modelId, port, awaiting := .resolveHfRepo } : ServerManager).Inv := by
  have hholds : ∀ k ch, ({ s with status := .starting }.suspend call
      { modelId, port, awaiting := .resolveHfRepo } : ServerManager).Holds k ch ↔ s.Holds k ch := by
    intro k ch
    unfold Holds
    rw [suspend_calls]
    by_cases hk : k = call
    · subst hk
      simp [hcall, AwaitPoint.child?]
    · rw [if_neg hk]
  exact {
    starting := fun _ => ⟨call, _, by rw [suspend_calls, if_pos rfl]⟩
    running := nofun
    children := fun ch hch hnone => h.children ch hch fun k hk => hnone k ((hholds k ch).2 hk)
    held := fun k ck ch hk hch => by
      rw [suspend_calls] at hk
      split at hk
      · cases hk
        cases hch
      · exact h.held k ck ch hk hch
    distinct := fun k k' ch hk hk' =>
      h.distinct k k' ch ((hholds k ch).1 hk) ((hholds k' ch).1 hk')
    process := h.process
    waited := h.waited }

/-- A call returns that holds no child. -/
theorem ServerManager.Inv.finish (h : s.Inv) (hcall : s.calls call = some c)
    (hchild : c.awaiting.child? = none) (r : Except Bytes Unit)
    (hstarting : s.status = .starting → ∃ other, other ≠ call ∧ s.calls other ≠ none) :
    (s.finish call r).Inv := by
  have hholds : ∀ k ch, (s.finish call r).Holds k ch ↔ s.Holds k ch := by
    intro k ch
    rw [finish_holds]
    refine ⟨And.right, fun hk => ⟨?_, hk⟩⟩
    rintro rfl
    obtain ⟨c', hc', hch⟩ := hk
    cases hcall.symm.trans hc'
    cases hchild.symm.trans hch
  exact {
    starting := fun hstatus => by
      obtain ⟨other, hne, hother⟩ := hstarting hstatus
      obtain ⟨c', hc'⟩ := Option.ne_none_iff_exists'.1 hother
      exact ⟨other, c', by rw [finish_calls, if_neg hne, hc']⟩
    running := h.running
    children := fun ch hch hnone => h.children ch hch fun k hk => hnone k ((hholds k ch).2 hk)
    held := fun k ck ch hk hch => by
      rw [finish_calls] at hk
      split at hk
      · cases hk
      · exact h.held k ck ch hk hch
    distinct := fun k k' ch hk hk' =>
      h.distinct k k' ch ((hholds k ch).1 hk) ((hholds k' ch).1 hk')
    process := h.process
    waited := h.waited }

/-- A call spawns its child. -/
theorem ServerManager.Inv.spawn (h : s.Inv) {modelId : Bytes} {port : Nat}
    (hcall : s.calls call = some { modelId, port, awaiting := .resolveHfRepo }) :
    ({ s with spawned := s.spawned ++ [modelId] }.suspend call
      { modelId, port, awaiting := .sleep s.spawned.length 0 } : ServerManager).Inv := by
  have hholds : ∀ k ch, ({ s with spawned := s.spawned ++ [modelId] }.suspend call
      { modelId, port, awaiting := .sleep s.spawned.length 0 } : ServerManager).Holds k ch ↔
      k = call ∧ ch = s.spawned.length ∨ s.Holds k ch := by
    intro k ch
    unfold Holds
    rw [suspend_calls]
    by_cases hk : k = call
    · subst hk
      simp [hcall, AwaitPoint.child?, eq_comm]
    · simp [hk]
  have hlt : ∀ k ch, s.Holds k ch → ch < s.spawned.length := by
    rintro k ch ⟨ck, hck, hch⟩
    exact (List.getElem?_eq_some_iff.1 (h.held k ck ch hck hch).1).1
  have happend : ∀ (ch : Nat) (m : Bytes), s.spawned[ch]? = some m → (s.spawned ++ [modelId])[ch]? = some m := by
    intro ch m hm
    rwa [List.getElem?_append_left (List.getElem?_eq_some_iff.1 hm).1]
  have hlength : (s.spawned ++ [modelId]).length = s.spawned.length + 1 := by
    rw [List.length_append, List.length_singleton]
  exact {
    starting := fun _ => ⟨call, _, by rw [suspend_calls, if_pos rfl]⟩
    running := fun hstatus => by
      obtain ⟨ch, m, hprocess, hmodel, hspawned⟩ := h.running hstatus
      exact ⟨ch, m, hprocess, hmodel, happend ch m hspawned⟩
    children := fun ch hch hnone => by
      have hch' : ch < s.spawned.length + 1 := hch.trans_eq hlength
      rcases Nat.lt_succ_iff_lt_or_eq.1 hch' with hlt' | rfl
      · exact h.children ch hlt' fun k hk => hnone k ((hholds k ch).2 (.inr hk))
      · exact absurd ((hholds call _).2 (.inl ⟨rfl, rfl⟩)) (hnone call)
    held := fun k ck ch hk hch => by
      rw [suspend_calls] at hk
      split at hk
      · cases hk
        cases hch
        exact ⟨List.getElem?_concat_length, fun hprocess => Nat.lt_irrefl _ (h.process _ hprocess).1,
          fun hwaited => Nat.lt_irrefl _ (h.waited _ hwaited)⟩
      · obtain ⟨hspawned, hrest⟩ := h.held k ck ch hk hch
        exact ⟨happend ch _ hspawned, hrest⟩
    distinct := fun k k' ch hk hk' => by
      rcases (hholds k ch).1 hk with ⟨hk, hch⟩ | hk
      · rcases (hholds k' ch).1 hk' with ⟨hk', -⟩ | hk'
        · exact hk.trans hk'.symm
        · exact absurd (hlt k' ch hk') hch.not_lt
      · rcases (hholds k' ch).1 hk' with ⟨-, hch⟩ | hk'
        · exact absurd (hlt k ch hk) hch.not_lt
        · exact h.distinct k k' ch hk hk'
    process := fun ch hch => by
      obtain ⟨hlt', hwaited⟩ := h.process ch hch
      exact ⟨(Nat.lt_succ_of_lt hlt').trans_eq hlength.symm, hwaited⟩
    waited := fun ch hch => (Nat.lt_succ_of_lt (h.waited ch hch)).trans_eq hlength.symm }

/-- A call returns whose child has been waited for. -/
theorem ServerManager.Inv.fail (h : s.Inv) (hcall : s.calls call = some c)
    (hchild : c.awaiting.child? = some child) (logDir what detail : Bytes) :
    (s.fail logDir call child c what detail).Inv := by
  have hholds : ∀ k ch, (s.fail logDir call child c what detail).Holds k ch ↔
      k ≠ call ∧ s.Holds k ch := fun k ch => finish_holds _ call _ k ch
  have hmine : s.Holds call child := ⟨c, hcall, hchild⟩
  have hspawned := (h.held call c child hcall hchild).1
  exact {
    starting := nofun
    running := nofun
    children := fun ch hch hnone => by
      by_cases hch' : ch = child
      · exact .inr (hch' ▸ List.mem_cons_self)
      · have hnone' : ∀ k, ¬ s.Holds k ch := by
          rintro k hk
          refine hnone k ((hholds k ch).2 ⟨?_, hk⟩)
          rintro rfl
          obtain ⟨c', hc', hchild'⟩ := hk
          cases hcall.symm.trans hc'
          exact hch' (Option.some_injective _ (hchild'.symm.trans hchild))
        exact (h.children ch hch hnone').imp_right (List.mem_cons_of_mem _)
    held := fun k ck ch hk hch => by
      have hk' : k ≠ call ∧ s.calls k = some ck := by
        rw [ServerManager.fail, finish_calls] at hk
        split at hk
        · cases hk
        · exact ⟨‹_›, hk⟩
      obtain ⟨hch₁, hch₂, hch₃⟩ := h.held k ck ch hk'.2 hch
      refine ⟨hch₁, hch₂, fun hmem => ?_⟩
      rcases List.mem_cons.1 hmem with rfl | hmem
      · exact hk'.1 (h.distinct k call ch ⟨ck, hk'.2, hch⟩ hmine)
      · exact hch₃ hmem
    distinct := fun k k' ch hk hk' =>
      h.distinct k k' ch ((hholds k ch).1 hk).2 ((hholds k' ch).1 hk').2
    process := fun ch hch => by
      obtain ⟨hlt, hwaited⟩ := h.process ch hch
      refine ⟨hlt, fun hmem => ?_⟩
      rcases List.mem_cons.1 hmem with rfl | hmem
      · exact (h.held call c ch hcall hchild).2.1 hch
      · exact hwaited hmem
    waited := fun ch hch => by
      rcases List.mem_cons.1 hch with rfl | hch
      · exact (List.getElem?_eq_some_iff.1 hspawned).1
      · exact h.waited ch hch }

/-- A call returns whose child answers, while the manager holds none. -/
theorem ServerManager.Inv.succeed (h : s.Inv) (hcall : s.calls call = some c)
    (hchild : c.awaiting.child? = some child) (hprocess : s.process = none) :
    (s.succeed call child c).Inv := by
  have hholds : ∀ k ch, (s.succeed call child c).Holds k ch ↔ k ≠ call ∧ s.Holds k ch :=
    fun k ch => finish_holds _ call _ k ch
  have hmine : s.Holds call child := ⟨c, hcall, hchild⟩
  obtain ⟨hspawned, -, hwaited⟩ := h.held call c child hcall hchild
  exact {
    starting := nofun
    running := fun _ => ⟨child, c.modelId, rfl, rfl, hspawned⟩
    children := fun ch hch hnone => by
      by_cases hch' : ch = child
      · exact .inl (hch' ▸ rfl)
      · have hnone' : ∀ k, ¬ s.Holds k ch := by
          rintro k hk
          refine hnone k ((hholds k ch).2 ⟨?_, hk⟩)
          rintro rfl
          obtain ⟨c', hc', hchild'⟩ := hk
          cases hcall.symm.trans hc'
          exact hch' (Option.some_injective _ (hchild'.symm.trans hchild))
        rcases h.children ch hch hnone' with hheld | hmem
        · cases hprocess.symm.trans hheld
        · exact .inr hmem
    held := fun k ck ch hk hch => by
      have hk' : k ≠ call ∧ s.calls k = some ck := by
        rw [ServerManager.succeed, finish_calls] at hk
        split at hk
        · cases hk
        · exact ⟨‹_›, hk⟩
      obtain ⟨hch₁, -, hch₃⟩ := h.held k ck ch hk'.2 hch
      refine ⟨hch₁, fun heq => ?_, hch₃⟩
      cases heq
      exact hk'.1 (h.distinct k call _ ⟨ck, hk'.2, hch⟩ hmine)
    distinct := fun k k' ch hk hk' =>
      h.distinct k k' ch ((hholds k ch).1 hk).2 ((hholds k' ch).1 hk').2
    process := fun ch hch => by
      cases hch
      exact ⟨(List.getElem?_eq_some_iff.1 hspawned).1, hwaited⟩
    waited := h.waited }

/-- The manager gives up its child. -/
theorem ServerManager.Inv.stop (h : s.Inv) : s.stop.Inv where
  starting := nofun
  running := nofun
  children ch hch hnone := by
    rcases h.children ch hch hnone with hheld | hmem
    · exact .inr (List.mem_append_left _ (Option.mem_toList.2 hheld))
    · exact .inr (List.mem_append_right _ hmem)
  held k ck ch hk hch := by
    obtain ⟨hch₁, hch₂, hch₃⟩ := h.held k ck ch hk hch
    refine ⟨hch₁, nofun, fun hmem => ?_⟩
    rcases List.mem_append.1 hmem with hmem | hmem
    · exact hch₂ (Option.mem_toList.1 hmem)
    · exact hch₃ hmem
  distinct := h.distinct
  process := nofun
  waited ch hch := by
    rcases List.mem_append.1 hch with hmem | hmem
    · exact (h.process ch (Option.mem_toList.1 hmem)).1
    · exact h.waited ch hmem

end

/-! ## Runs -/

/-- A careful step keeps the invariant, and a step into a sound state is careful. -/
theorem ServerManager.Inv.step {logDir : Bytes} {s s' : ServerManager} {e : ManagerEvent} (h : s.Inv)
    (hstep : s.step logDir e = some s') :
    (s.Careful e → s'.Inv) ∧ (s'.Sound → s.Careful e) := by
  cases e with
  | start call modelId port =>
    rw [ServerManager.step] at hstep
    split at hstep
    · cases hstep
    · cases hstep
      exact ⟨fun _ => h.start ‹_› modelId port, fun _ => trivial⟩
  | launch call outcome =>
    rw [ServerManager.step] at hstep
    split at hstep
    · rename_i modelId port hcall
      split at hstep
      · rename_i message herror
        cases hstep
        have hfailed : outcome ≠ .spawned := by
          rintro rfl
          cases herror
        constructor
        · intro hcareful
          refine h.finish hcall rfl _ fun hstatus => ?_
          rcases hcareful with rfl | hne | hother
          · exact absurd rfl hfailed
          · exact absurd hstatus hne
          · exact hother
        · intro hsound
          by_contra hcareful
          simp only [Careful, not_or, not_not, not_exists, not_and] at hcareful
          obtain ⟨-, hstatus, hothers⟩ := hcareful
          refine hsound.settled ⟨message, List.mem_cons_self⟩ ?_ hstatus
          rintro ⟨k, ck, hk⟩
          rw [finish_calls] at hk
          split at hk
          · cases hk
          · rename_i hne
            cases (hothers k hne).symm.trans hk
      · rename_i herror
        cases hstep
        have hspawned : outcome = .spawned := by
          cases outcome <;> first | rfl | cases herror
        exact ⟨fun _ => h.spawn hcall, fun _ => .inl hspawned⟩
    · cases hstep
  | wake call exited =>
    rw [ServerManager.step] at hstep
    split at hstep
    · rename_i modelId port child retry hcall
      split at hstep
      · cases hstep
        exact ⟨fun _ => h.fail hcall rfl _ _ _, fun _ => trivial⟩
      · cases hstep
        exact ⟨fun _ => h.suspend hcall rfl rfl, fun _ => trivial⟩
    · cases hstep
  | response call healthy detail =>
    rw [ServerManager.step] at hstep
    split at hstep
    · rename_i modelId port child retry hcall
      split at hstep
      · rename_i hhealthy
        cases hstep
        refine ⟨fun hcareful => h.succeed hcall rfl (hcareful hhealthy), fun hsound _ => ?_⟩
        by_contra hprocess
        obtain ⟨old, hold⟩ := Option.ne_none_iff_exists'.1 hprocess
        -- the child that the manager held is nobody's now
        obtain ⟨hlt, hwaited⟩ := h.process old hold
        have hne := (h.held call _ child hcall rfl).2.1
        rcases hsound.children old hlt fun k hk => by
          obtain ⟨-, ck, hck, hch⟩ := (finish_holds _ call _ k old).1 hk
          exact (h.held k ck old hck hch).2.1 hold with hheld | hmem
        · cases hheld
          exact hne hold
        · exact hwaited hmem
      · rename_i hhealthy
        have hcareful : s.Careful (.response call healthy detail) := fun h => absurd h hhealthy
        split at hstep
        · cases hstep
          exact ⟨fun _ => h.suspend hcall rfl rfl, fun _ => hcareful⟩
        · cases hstep
          exact ⟨fun _ => h.fail hcall rfl _ _ _, fun _ => hcareful⟩
    · cases hstep
  | stop =>
    cases hstep
    exact ⟨fun _ => h.stop, fun _ => trivial⟩

theorem ServerManager.inv_new : ({} : ServerManager).Inv where
  starting := nofun
  running := nofun
  children := nofun
  held := nofun
  distinct := by
    rintro call call' child ⟨c, hc, -⟩
    cases hc
  process := nofun
  waited := nofun

/-- Every run of starts and stops, interleaved at the await points, keeps the manager sound exactly
where all of its steps are careful. -/
theorem serverManager_sound_iff (logDir : Bytes) (es : List ManagerEvent) :
    Always (ServerManager.step logDir) ServerManager.Sound es {} ↔
      EachStep (ServerManager.step logDir) ServerManager.Careful es {} :=
  always_iff_eachStep (fun _ _ _ h hcareful hstep => (h.step hstep).1 hcareful)
    (fun _ _ _ h hstep => ⟨(h.step hstep).2, fun hcareful => ((h.step hstep).1 hcareful).sound⟩)
    ServerManager.inv_new ServerManager.inv_new.sound

/-- A start that finds no binary. -/
def failedStart : List ManagerEvent := [.start 0 (str "a") 8375, .launch 0 .binaryNotFound]

/-- Two starts, one behind the other, that both succeed. -/
def twoStarts : List ManagerEvent :=
  [.start 0 (str "a") 8375, .launch 0 .spawned, .wake 0 none, .response 0 true [],
    .start 1 (str "b") 8375, .launch 1 .spawned, .wake 1 none, .response 1 true []]

/-- A start that finds no binary leaves the status at `Starting`, and a second start that succeeds
leaves the child of the first to itself. -/
theorem not_sound_failedStart :
    ¬ Always (ServerManager.step []) ServerManager.Sound failedStart {} ∧
    ¬ Always (ServerManager.step []) ServerManager.Sound twoStarts {} := by
  constructor
  · intro h
    have hsound := h.last rfl
    refine hsound.settled ⟨_, List.mem_cons_self⟩ ?_ rfl
    rintro ⟨k, c, hc⟩
    rw [ServerManager.finish_calls, ServerManager.suspend_calls] at hc
    split at hc <;> cases hc
  · intro h
    have hsound := h.last rfl
    refine (hsound.children 0 (by decide) ?_).elim nofun nofun
    rintro call ⟨c, hc, -⟩
    -- both calls have returned
    match call with
    | 0 => cases hc
    | 1 => cases hc
    | _ + 2 => cases hc

end Terllama
