import Terllama.Base.Runs
import Terllama.Distributed.Node

/-!
# The workers of a cluster

How `handle_start_model`, `handle_stop_model`, `handle_start_worker` and `handle_stop_worker` of
`distributed/node.cpp` start and stop worker processes across the nodes. A leader asks its peers for
workers and cleans up behind a start that fails; replies get lost, peers expire, processes exit, and
the steps of all calls interleave (`WorkerNet.step`).

`workers_sound_of_eachStep` is what the bookkeeping guarantees: as long as no entry of
`worker_pids_` is overwritten while its worker lives, no call gives up on a worker that may be
running, and every stop reaches its node, no worker is lost.
-/

namespace Terllama

/-! ## Processes and calls -/

/-- Where a worker listens: its node and its port. -/
def WorkerInfo.place (w : WorkerInfo) : Nat × Nat := (w.nodeId, w.port)

/-- A worker process: where it was spawned, and the `handle_start_model` that it was spawned for. -/
structure WorkerProc where
  place : Nat × Nat
  call : Option Nat
  alive : Bool
  deriving DecidableEq, Repr

/-- How far a leader has got with a model: it starts the next worker, waits for its own or for the
reply of a peer, serves, or stops the workers one after the other, of a start that has failed or by
`handle_stop_model`. The clusters that serve are those in `running_`. -/
inductive LeaderPhase where
  | spawning (rest : List WorkerInfo)
  | waiting (process : Nat) (w : WorkerInfo) (rest : List WorkerInfo)
  | requested (request : Nat) (w : WorkerInfo) (rest : List WorkerInfo)
  | serving (clusterPort : Nat)
  | cleaning (todo : List WorkerInfo) (stop : Bool)
  | failed
  | stopped
  deriving DecidableEq, Repr

/-- A `handle_start_model` and what becomes of its cluster: the leader, and the workers so far. -/
structure LeaderCall where
  nodeId : Nat
  workers : List WorkerInfo
  phase : LeaderPhase
  deriving DecidableEq, Repr

/-- How far a peer has got with a `handle_start_worker`. -/
inductive RequestPhase where
  | received
  | waiting (process : Nat)
  | replied (ok : Bool)
  deriving DecidableEq, Repr

/-- A `handle_start_worker`, and the `handle_start_model` that asks for it, if any. -/
structure WorkerRequest where
  place : Nat × Nat
  call : Option Nat
  phase : RequestPhase
  deriving DecidableEq, Repr

/-- The worker processes of all nodes, the `worker_pids_` of the nodes by node and port, and the
calls. -/
structure WorkerNet where
  procs : Nat → Option WorkerProc := fun _ => none
  workerPids : Nat × Nat → Option Nat := fun _ => none
  calls : Nat → Option LeaderCall := fun _ => none
  requests : Nat → Option WorkerRequest := fun _ => none

namespace WorkerNet

/-- `spawn_process` of a worker, and its entry in `worker_pids_`. -/
def spawn (s : WorkerNet) (process : Nat) (p : WorkerProc) : WorkerNet :=
  { s with
    procs := Function.update s.procs process (some p)
    workerPids := Function.update s.workerPids p.place (some process) }

/-- A process has been killed, or has exited. -/
def kill (s : WorkerNet) (process : Nat) : WorkerNet :=
  let p := (s.procs process).map fun p => { p with alive := false }
  { s with procs := Function.update s.procs process p }

/-- The entry of a place is erased from `worker_pids_`. -/
def forget (s : WorkerNet) (place : Nat × Nat) : WorkerNet :=
  { s with workerPids := Function.update s.workerPids place none }

/-- `stop_local_worker`. -/
def stopLocalWorker (s : WorkerNet) (place : Nat × Nat) : WorkerNet :=
  match s.workerPids place with
  | none => s
  | some process => (s.forget place).kill process

/-- A leader goes on. -/
def setCall (s : WorkerNet) (call : Nat) (c : LeaderCall) : WorkerNet :=
  { s with calls := Function.update s.calls call (some c) }

/-- A peer goes on with a request. -/
def setRequest (s : WorkerNet) (request : Nat) (r : WorkerRequest) : WorkerNet :=
  { s with requests := Function.update s.requests request (some r) }

theorem setCall_calls (s : WorkerNet) (call : Nat) (c : LeaderCall) (call' : Nat) :
    (s.setCall call c).calls call' = if call' = call then some c else s.calls call' :=
  Function.update_apply ..

theorem setRequest_requests (s : WorkerNet) (request : Nat) (r : WorkerRequest) (request' : Nat) :
    (s.setRequest request r).requests request' =
      if request' = request then some r else s.requests request' :=
  Function.update_apply ..

/-- Of two entries of a request the last one counts. -/
theorem setRequest_setCall_setRequest (s : WorkerNet) (request call : Nat) (r r' : WorkerRequest)
    (c : LeaderCall) : ((s.setRequest request r).setCall call c).setRequest request r' =
      (s.setCall call c).setRequest request r' := by
  simp [setCall, setRequest, Function.update_idem]

end WorkerNet

/-! ## The steps -/

/-- What a leader does next. It gives up where it finds no port, or cannot spawn its worker or bring
up the cluster. A stop that is not delivered is lost, or its peer has expired. -/
inductive LeaderStep where
  | giveUp
  | spawn (port process : Nat)
  | health (ok : Bool)
  | request (port request : Nat)
  | reply
  | lost
  | up (clusterPort : Nat)
  | stopModel (clusterPort : Nat)
  | clean (delivered : Bool)
  | finish
  deriving DecidableEq, Repr

/-- What a peer does next that starts a worker. -/
inductive PeerStep where
  | spawn (process : Option Nat)
  | health (ok : Bool)
  deriving DecidableEq, Repr

/-- The steps of all calls, and processes that exit. -/
inductive WorkerEvent where
  | startModel (call nodeId : Nat) (parts : List WorkerInfo)
  | leader (call : Nat) (step : LeaderStep)
  | startWorker (request : Nat) (place : Nat × Nat)
  | peer (request : Nat) (step : PeerStep)
  | stopWorker (place : Nat × Nat)
  | exit (process : Nat)
  deriving DecidableEq, Repr

/-- One step of a leader. -/
def LeaderCall.step (s : WorkerNet) (call : Nat) (c : LeaderCall) : LeaderStep → Option WorkerNet
  | .giveUp =>
    match c.phase with
    | .spawning _ => some (s.setCall call { c with phase := .cleaning c.workers false })
    | _ => none
  | .spawn port process =>
    match c.phase with
    | .spawning (w :: rest) =>
      if w.nodeId = c.nodeId ∧ s.procs process = none then
        let s := s.setCall call { c with phase := .waiting process { w with port } rest }
        some (s.spawn process { place := (w.nodeId, port), call := some call, alive := true })
      else none
    | _ => none
  | .health ok =>
    match c.phase with
    | .waiting process w rest =>
      if ok then
        some (s.setCall call { c with workers := c.workers ++ [w], phase := .spawning rest })
      else some ((s.kill process).setCall call { c with phase := .cleaning c.workers false })
    | _ => none
  | .request port request =>
    match c.phase with
    | .spawning (w :: rest) =>
      if w.nodeId ≠ c.nodeId ∧ s.requests request = none then
        let s := s.setCall call { c with phase := .requested request { w with port } rest }
        some (s.setRequest request
          { place := (w.nodeId, port), call := some call, phase := .received })
      else none
    | _ => none
  | .reply =>
    match c.phase with
    | .requested request w rest =>
      match s.requests request with
      | some { phase := .replied ok, .. } =>
        if ok then
          some (s.setCall call { c with workers := c.workers ++ [w], phase := .spawning rest })
        else some (s.setCall call { c with phase := .cleaning c.workers false })
      | _ => none
    | _ => none
  | .lost =>
    match c.phase with
    | .requested _ _ _ => some (s.setCall call { c with phase := .cleaning c.workers false })
    | _ => none
  | .up clusterPort =>
    match c.phase with
    | .spawning [] => some (s.setCall call { c with phase := .serving clusterPort })
    | _ => none
  | .stopModel clusterPort =>
    match c.phase with
    | .serving port =>
      if port = clusterPort then some (s.setCall call { c with phase := .cleaning c.workers true })
      else none
    | _ => none
  | .clean delivered =>
    match c.phase with
    | .cleaning (w :: todo) stop =>
      let s := if w.nodeId = c.nodeId ∨ delivered = true then s.stopLocalWorker w.place else s
      some (s.setCall call { c with phase := .cleaning todo stop })
    | _ => none
  | .finish =>
    match c.phase with
    | .cleaning [] stop =>
      some (s.setCall call { c with phase := if stop then .stopped else .failed })
    | _ => none

/-- One step of a peer that starts a worker. -/
def WorkerRequest.step (s : WorkerNet) (request : Nat) (r : WorkerRequest) :
    PeerStep → Option WorkerNet
  | .spawn none =>
    match r.phase with
    | .received => some (s.setRequest request { r with phase := .replied false })
    | _ => none
  | .spawn (some process) =>
    match r.phase with
    | .received =>
      if s.procs process = none then
        some ((s.setRequest request { r with phase := .waiting process }).spawn process
          { place := r.place, call := r.call, alive := true })
      else none
    | _ => none
  | .health ok =>
    match r.phase with
    | .waiting process =>
      if ok then some (s.setRequest request { r with phase := .replied true })
      else
        let s := (s.kill process).forget r.place
        some (s.setRequest request { r with phase := .replied false })
    | _ => none

/-- One step of any call. -/
def WorkerNet.step (s : WorkerNet) : WorkerEvent → Option WorkerNet
  | .startModel call nodeId parts =>
    if s.calls call = none ∧ parts.head?.map (·.nodeId) = some nodeId then
      some (s.setCall call { nodeId, workers := [], phase := .spawning parts })
    else none
  | .leader call step =>
    match s.calls call with
    | none => none
    | some c => c.step s call step
  | .startWorker request place =>
    if s.requests request = none then
      some (s.setRequest request { place, call := none, phase := .received })
    else none
  | .peer request step =>
    match s.requests request with
    | none => none
    | some r => r.step s request step
  | .stopWorker place => some (s.stopLocalWorker place)
  | .exit process => some (s.kill process)

/-! ## No worker is lost -/

/-- A process that has been spawned at a place is the one that `worker_pids_` has there. -/
def WorkerNet.Tracked (s : WorkerNet) (process : Nat) (p : WorkerProc) : Prop :=
  s.procs process = some p ∧ s.workerPids p.place = some process

/-- Every live worker is in `worker_pids_` of its node. A start that has failed leaves no worker
running or tracked, and a cluster that has been stopped leaves none running. -/
structure WorkerNet.Sound (s : WorkerNet) : Prop where
  reachable : ∀ process p, s.procs process = some p → p.alive = true →
    ∃ port, s.workerPids (p.place.1, port) = some process
  failed : ∀ call c, s.calls call = some c → c.phase = .failed →
    ∀ process p, s.procs process = some p → p.call = some call →
      p.alive = false ∧ ∀ place, s.workerPids place ≠ some process
  stopped : ∀ call c, s.calls call = some c → c.phase = .stopped →
    ∀ process p, s.procs process = some p → p.call = some call → p.alive = false

/-- The entry of a place, if any, is of a process that does not live. -/
def WorkerNet.Vacant (s : WorkerNet) (place : Nat × Nat) : Prop :=
  ∀ process p, s.workerPids place = some process → s.procs process = some p → p.alive = false

/-- A step that loses no worker: a worker is spawned only where the port has no live one, and
becomes healthy where the leader spawned it itself; a failed peer erases the entry of its own worker
or of none that lives; a reply is lost only from a peer that has started nothing; and a stop gets to
its node, or there is nothing to stop. -/
def WorkerNet.Careful (s : WorkerNet) : WorkerEvent → Prop
  | .leader call (.spawn port _) => ∀ c w rest, s.calls call = some c →
      c.phase = .spawning (w :: rest) → s.Vacant (w.nodeId, port)
  | .leader _ (.health ok) => ok = true
  | .leader call .lost => ∀ c request w rest r, s.calls call = some c →
      c.phase = .requested request w rest → s.requests request = some r → r.phase = .replied false
  | .leader call (.clean delivered) => ∀ c w todo stop, s.calls call = some c →
      c.phase = .cleaning (w :: todo) stop →
      w.nodeId = c.nodeId ∨ delivered = true ∨ s.workerPids w.place = none
  | .peer request (.spawn (some _)) => ∀ r, s.requests request = some r → s.Vacant r.place
  | .peer request (.health false) => ∀ r process, s.requests request = some r →
      r.phase = .waiting process →
      s.workerPids r.place = some process ∨ s.Vacant r.place
  | _ => True

/-! ## What careful steps keep -/

/-- One of some workers is at a place. -/
def At (workers : List WorkerInfo) (place : Nat × Nat) : Prop := ∃ w ∈ workers, w.place = place

theorem at_append_singleton {workers : List WorkerInfo} {w : WorkerInfo} {place : Nat × Nat} :
    At (workers ++ [w]) place ↔ At workers place ∨ w.place = place := by
  simp [At, or_and_right, exists_or]

/-- The peer of a request has a worker running, as far as it knows. -/
def RequestPhase.holds : RequestPhase → Prop
  | .received => False
  | .waiting _ => True
  | .replied ok => ok = true

/-- The places where a leader still has to look for workers of its cluster. -/
def LeaderCall.Covers (s : WorkerNet) (c : LeaderCall) (place : Nat × Nat) : Prop :=
  match c.phase with
  | .spawning _ => At c.workers place
  | .waiting _ w _ => At c.workers place ∨ w.place = place
  | .requested request w _ => At c.workers place ∨
      w.place = place ∧ ∃ r, s.requests request = some r ∧ r.phase.holds
  | .serving _ => At c.workers place
  | .cleaning todo _ => At todo place
  | .failed => False
  | .stopped => False

/-- The entries of `worker_pids_` are those of the live workers, and of some that live no more, and
each of them is where its leader will look for it. -/
structure WorkerNet.Inv (s : WorkerNet) : Prop where
  live : ∀ process p, s.procs process = some p → p.alive = true →
    s.workerPids p.place = some process
  own : ∀ place process, s.workerPids place = some process →
    ∃ p, s.procs process = some p ∧ p.place = place
  known : ∀ process p call, s.procs process = some p → p.call = some call → s.calls call ≠ none
  covered : ∀ call c process p, s.calls call = some c → s.Tracked process p → p.call = some call →
    c.Covers s p.place
  asked : ∀ call c request w rest, s.calls call = some c → c.phase = .requested request w rest →
    ∃ r, s.requests request = some r ∧ r.call = some call ∧ r.place = w.place
  pending : ∀ request r call, s.requests request = some r → r.call = some call →
    (∀ ok, r.phase ≠ .replied ok) →
    ∃ c w rest, s.calls call = some c ∧ c.phase = .requested request w rest ∧ r.place = w.place

namespace WorkerNet

section
variable {s s' : WorkerNet}

/-- What is tracked nowhere is not alive, so that a leader that has nowhere to look has left
nothing. -/
theorem Inv.gone (h : s.Inv) {call process : Nat} {c : LeaderCall} {p : WorkerProc}
    (hc : s.calls call = some c) (hcovers : ∀ place, ¬ c.Covers s place)
    (hp : s.procs process = some p) (hcall : p.call = some call) :
    p.alive = false ∧ ∀ place, s.workerPids place ≠ some process := by
  have huntracked : s.workerPids p.place ≠ some process :=
    fun htracked => hcovers _ (h.covered call c process p hc ⟨hp, htracked⟩ hcall)
  constructor
  · rw [← Bool.not_eq_true]
    exact fun halive => huntracked (h.live process p hp halive)
  · intro place htracked
    obtain ⟨p', hp', hplace⟩ := h.own place process htracked
    cases hp.symm.trans hp'
    exact huntracked (hplace ▸ htracked)

theorem Inv.sound (h : s.Inv) : s.Sound where
  reachable process p hp halive := ⟨p.place.2, h.live process p hp halive⟩
  failed call c hc hphase process p hp hcall := by
    refine h.gone hc (fun place hcovers => ?_) hp hcall
    rwa [LeaderCall.Covers, hphase] at hcovers
  stopped call c hc hphase process p hp hcall := by
    refine (h.gone hc (fun place hcovers => ?_) hp hcall).1
    rwa [LeaderCall.Covers, hphase] at hcovers

theorem covers_congr (h : s'.requests = s.requests) (c : LeaderCall) (place : Nat × Nat) :
    c.Covers s' place ↔ c.Covers s place := by
  unfold LeaderCall.Covers
  rw [h]

/-- What a killed process was. -/
theorem kill_procs {process killed : Nat} {p' : WorkerProc}
    (h : (s.kill killed).procs process = some p') : ∃ p, s.procs process = some p ∧
      p.place = p'.place ∧ p.call = p'.call ∧
      (p'.alive = true → p.alive = true ∧ process ≠ killed) := by
  by_cases hprocess : process = killed
  · subst hprocess
    have hmap : ((s.procs process).map fun p => { p with alive := false }) = some p' := by
      simpa [kill] using h
    obtain ⟨p, hp, rfl⟩ := Option.map_eq_some_iff.1 hmap
    exact ⟨p, hp, rfl, rfl, nofun⟩
  · have hp : s.procs process = some p' := by simpa [kill, hprocess] using h
    exact ⟨p', hp, rfl, rfl, fun halive => ⟨halive, hprocess⟩⟩

/-- A process is killed. -/
theorem Inv.kill (h : s.Inv) (killed : Nat) : (s.kill killed).Inv where
  live process p' hp' halive := by
    obtain ⟨p, hp, hplace, -, hlive⟩ := kill_procs hp'
    rw [← hplace]
    exact h.live process p hp (hlive halive).1
  own place process hpid := by
    obtain ⟨p, hp, hplace⟩ := h.own place process hpid
    by_cases hprocess : process = killed
    · subst hprocess
      exact ⟨{ p with alive := false }, by simp [WorkerNet.kill, hp], hplace⟩
    · exact ⟨p, by simp [WorkerNet.kill, hprocess, hp], hplace⟩
  known process p' call hp' hcall := by
    obtain ⟨p, hp, -, hcall', -⟩ := kill_procs hp'
    exact h.known process p call hp (hcall'.trans hcall)
  covered call c process p' hc htracked hcall := by
    obtain ⟨p, hp, hplace, hcall', -⟩ := kill_procs htracked.1
    have hpid : s.workerPids p.place = some process := hplace ▸ htracked.2
    refine (covers_congr (s := s) rfl _ _).2 ?_
    rw [← hplace]
    exact h.covered call c process p hc ⟨hp, hpid⟩ (hcall'.trans hcall)
  asked := h.asked
  pending := h.pending

theorem forget_workerPids {place place' : Nat × Nat} {process : Nat}
    (h : (s.forget place).workerPids place' = some process) :
    place' ≠ place ∧ s.workerPids place' = some process := by
  by_cases hplace : place' = place
  · subst hplace
    simp [forget] at h
  · exact ⟨hplace, by simpa [forget, hplace] using h⟩

/-- An entry is erased of which no process lives. -/
theorem Inv.forget (h : s.Inv) {place : Nat × Nat} (hvacant : s.Vacant place) :
    (s.forget place).Inv where
  live process p hp halive := by
    have hpid := h.live process p hp halive
    have hne : p.place ≠ place := by
      rintro rfl
      exact Bool.false_ne_true ((hvacant process p hpid hp).symm.trans halive)
    simpa [WorkerNet.forget, hne] using hpid
  own place' process hpid := h.own place' process (forget_workerPids hpid).2
  known := h.known
  covered call c process p hc htracked hcall := by
    refine (covers_congr (s := s) rfl _ _).2 ?_
    exact h.covered call c process p hc ⟨htracked.1, (forget_workerPids htracked.2).2⟩ hcall
  asked := h.asked
  pending := h.pending

/-- The entry of a killed process stands for no live one. -/
theorem vacant_kill {place : Nat × Nat} {process : Nat}
    (h : s.workerPids place = some process ∨ s.Vacant place) : (s.kill process).Vacant place := by
  intro process' p' hpid hp'
  obtain ⟨p, hp, -, -, hlive⟩ := kill_procs hp'
  rw [← Bool.not_eq_true]
  intro halive
  rcases h with h | h
  · have hpid' : s.workerPids place = some process' := hpid
    exact (hlive halive).2 (Option.some_injective _ (hpid'.symm.trans h))
  · exact Bool.false_ne_true ((h process' p hpid hp).symm.trans (hlive halive).1)

/-- A worker is stopped. -/
theorem Inv.stopLocalWorker (h : s.Inv) (place : Nat × Nat) : (s.stopLocalWorker place).Inv := by
  rw [WorkerNet.stopLocalWorker]
  split
  · exact h
  · next process hpid => exact (h.kill process).forget (vacant_kill (.inl hpid))

/-- What stopping a worker changes for others. -/
theorem stopLocalWorker_spec (s : WorkerNet) (place : Nat × Nat) :
    (s.stopLocalWorker place).calls = s.calls ∧
      (s.stopLocalWorker place).requests = s.requests ∧
      (s.stopLocalWorker place).workerPids place = none := by
  rw [WorkerNet.stopLocalWorker]
  split
  · next hpid => exact ⟨rfl, rfl, hpid⟩
  · exact ⟨rfl, rfl, Function.update_self ..⟩

/-- A leader goes on. -/
theorem Inv.setCall (h : s.Inv) {call : Nat} {c : LeaderCall}
    (hcovered : ∀ process p, s.Tracked process p → p.call = some call → c.Covers s p.place)
    (hasked : ∀ request w rest, c.phase = .requested request w rest →
      ∃ r, s.requests request = some r ∧ r.call = some call ∧ r.place = w.place)
    (hpending : ∀ request r, s.requests request = some r → r.call = some call →
      (∀ ok, r.phase ≠ .replied ok) →
      ∃ w rest, c.phase = .requested request w rest ∧ r.place = w.place) :
    (s.setCall call c).Inv := by
  have hcalls := setCall_calls s call c
  exact {
    live := h.live
    own := h.own
    known := fun process p call' hp hcall => by
      rw [hcalls]
      split
      · exact nofun
      · exact h.known process p call' hp hcall
    covered := fun call' c' process p hc' htracked hcall => by
      refine (covers_congr (s := s) rfl _ _).2 ?_
      rw [hcalls] at hc'
      split at hc'
      · next heq =>
        subst heq
        cases hc'
        exact hcovered process p htracked hcall
      · exact h.covered call' c' process p hc' htracked hcall
    asked := fun call' c' request w rest hc' hphase => by
      rw [hcalls] at hc'
      split at hc'
      · next heq =>
        subst heq
        cases hc'
        exact hasked request w rest hphase
      · exact h.asked call' c' request w rest hc' hphase
    pending := fun request r call' hr hcall hphase => by
      rw [hcalls]
      split
      · next heq =>
        subst heq
        obtain ⟨w, rest, hc, hplace⟩ := hpending request r hr hcall hphase
        exact ⟨c, w, rest, rfl, hc, hplace⟩
      · exact h.pending request r call' hr hcall hphase }

/-- A peer goes on. Where its worker is gone, there is no entry for it. -/
theorem Inv.setRequest (h : s.Inv) {request : Nat} {r : WorkerRequest}
    (hheld : ∀ r₀, s.requests request = some r₀ → r.place = r₀.place ∧ r.call = r₀.call ∧
      (r₀.phase.holds → r.phase.holds ∨ s.workerPids r.place = none))
    (hpending : ∀ call, r.call = some call → (∀ ok, r.phase ≠ .replied ok) →
      ∃ c w rest, s.calls call = some c ∧ c.phase = .requested request w rest ∧
        r.place = w.place) : (s.setRequest request r).Inv := by
  have hrequests := setRequest_requests s request r
  exact {
    live := h.live
    own := h.own
    known := h.known
    covered := fun call c process p hc htracked hcall => by
      have hcovers := h.covered call c process p hc htracked hcall
      unfold LeaderCall.Covers at hcovers ⊢
      cases hphase : c.phase with
      | requested request' w rest =>
        rw [hphase] at hcovers
        rcases hcovers with hat | ⟨hplace, r₁, hr₁, hholds⟩
        · exact .inl hat
        · refine .inr ⟨hplace, ?_⟩
          rw [hrequests]
          split
          · next heq =>
            subst heq
            obtain ⟨hplace', -, hheld⟩ := hheld r₁ hr₁
            obtain ⟨r₂, hr₂, -, hplace₂⟩ := h.asked call c request' w rest hc hphase
            cases hr₁.symm.trans hr₂
            rcases hheld hholds with hholds | hnone
            · exact ⟨r, rfl, hholds⟩
            · have hpid := htracked.2
              have heq : r.place = p.place := hplace'.trans (hplace₂.trans hplace)
              rw [← heq] at hpid
              cases hnone.symm.trans hpid
          · exact ⟨r₁, hr₁, hholds⟩
      | _ =>
        rw [hphase] at hcovers
        exact hcovers
    asked := fun call c request' w rest hc hphase => by
      obtain ⟨r₁, hr₁, hcall, hplace⟩ := h.asked call c request' w rest hc hphase
      rw [hrequests]
      split
      · next heq =>
        subst heq
        obtain ⟨hplace', hcall', -⟩ := hheld r₁ hr₁
        exact ⟨r, rfl, hcall'.trans hcall, hplace'.trans hplace⟩
      · exact ⟨r₁, hr₁, hcall, hplace⟩
    pending := fun request' r₁ call hr₁ hcall hphase => by
      rw [hrequests] at hr₁
      split at hr₁
      · next heq =>
        subst heq
        cases hr₁
        exact hpending call hcall hphase
      · exact h.pending request' r₁ call hr₁ hcall hphase }

/-- A worker is spawned where no other lives, and where its leader will look for it. -/
theorem Inv.spawn (h : s.Inv) {process : Nat} {p : WorkerProc} (hnew : s.procs process = none)
    (hvacant : s.Vacant p.place)
    (hknown : ∀ call, p.call = some call → ∃ c, s.calls call = some c ∧ c.Covers s p.place) :
    (s.spawn process p).Inv := by
  have hprocs : ∀ process' p', (s.spawn process p).procs process' = some p' →
      process' = process ∧ p' = p ∨ process' ≠ process ∧ s.procs process' = some p' := by
    intro process' p' hp'
    by_cases heq : process' = process
    · subst heq
      exact .inl ⟨rfl, by simpa [WorkerNet.spawn, eq_comm] using hp'⟩
    · exact .inr ⟨heq, by simpa [WorkerNet.spawn, heq] using hp'⟩
  have hpids : ∀ place, (s.spawn process p).workerPids place =
      if place = p.place then some process else s.workerPids place :=
    fun place => Function.update_apply ..
  exact {
    live := fun process' p' hp' halive => by
      rw [hpids]
      rcases hprocs process' p' hp' with ⟨rfl, rfl⟩ | ⟨-, hp'⟩
      · rw [if_pos rfl]
      · have hpid := h.live process' p' hp' halive
        have hne : p'.place ≠ p.place := by
          intro heq
          rw [heq] at hpid
          exact Bool.false_ne_true ((hvacant process' p' hpid hp').symm.trans halive)
        rw [if_neg hne, hpid]
    own := fun place process' hpid => by
      rw [hpids] at hpid
      split at hpid
      · next heq =>
        cases hpid
        exact ⟨p, Function.update_self .., heq.symm⟩
      · obtain ⟨p', hp', hplace⟩ := h.own place process' hpid
        have hne : process' ≠ process := by
          rintro rfl
          cases hnew.symm.trans hp'
        exact ⟨p', by simpa [WorkerNet.spawn, hne] using hp', hplace⟩
    known := fun process' p' call hp' hcall => by
      rcases hprocs process' p' hp' with ⟨rfl, rfl⟩ | ⟨-, hp'⟩
      · obtain ⟨c, hc, -⟩ := hknown call hcall
        exact Option.ne_none_iff_exists'.2 ⟨c, hc⟩
      · exact h.known process' p' call hp' hcall
    covered := fun call c process' p' hc htracked hcall => by
      refine (covers_congr (s := s) rfl _ _).2 ?_
      obtain ⟨hp', hpid⟩ := htracked
      rw [hpids] at hpid
      rcases hprocs process' p' hp' with ⟨rfl, rfl⟩ | ⟨hne, hp'⟩
      · obtain ⟨c', hc', hcovers⟩ := hknown call hcall
        cases hc'.symm.trans hc
        exact hcovers
      · split at hpid
        · cases hpid
          exact absurd rfl hne
        · exact h.covered call c process' p' hc ⟨hp', hpid⟩ hcall
    asked := h.asked
    pending := h.pending }

/-- A leader goes on that waits for no reply, before or after. -/
theorem Inv.advance (h : s.Inv) {call : Nat} {c c' : LeaderCall} (hc : s.calls call = some c)
    (hphase : ∀ request w rest, c.phase ≠ .requested request w rest)
    (hphase' : ∀ request w rest, c'.phase ≠ .requested request w rest)
    (hcovers : ∀ process p, s.Tracked process p → c.Covers s p.place → c'.Covers s p.place) :
    (s.setCall call c').Inv := by
  refine h.setCall (fun process p htracked hcall => ?_) (fun request w rest hrequested => ?_) ?_
  · exact hcovers process p htracked (h.covered call c process p hc htracked hcall)
  · exact absurd hrequested (hphase' request w rest)
  · intro request r hr hcall hopen
    obtain ⟨c₁, w, rest, hc₁, hrequested, -⟩ := h.pending request r call hr hcall hopen
    cases hc.symm.trans hc₁
    exact absurd hrequested (hphase request w rest)

/-- A leader goes on whose peer has replied. -/
theorem Inv.answer (h : s.Inv) {call request : Nat} {c c' : LeaderCall} {w : WorkerInfo}
    {rest : List WorkerInfo} {r : WorkerRequest} {ok : Bool} (hc : s.calls call = some c)
    (hphase : c.phase = .requested request w rest) (hr : s.requests request = some r)
    (hreplied : r.phase = .replied ok)
    (hphase' : ∀ request w rest, c'.phase ≠ .requested request w rest)
    (hcovers : ∀ process p, s.Tracked process p →
      (At c.workers p.place ∨ w.place = p.place ∧ ok = true) → c'.Covers s p.place) :
    (s.setCall call c').Inv := by
  refine h.setCall (fun process p htracked hcall => ?_) (fun request w rest hrequested => ?_) ?_
  · have hcovered := h.covered call c process p hc htracked hcall
    rw [LeaderCall.Covers, hphase] at hcovered
    refine hcovers process p htracked (hcovered.imp_right fun hheld => ⟨hheld.1, ?_⟩)
    obtain ⟨r₁, hr₁, hholds⟩ := hheld.2
    cases hr.symm.trans hr₁
    rw [hreplied] at hholds
    exact hholds
  · exact absurd hrequested (hphase' request w rest)
  · intro request₁ r₁ hr₁ hcall hopen
    obtain ⟨c₁, w₁, rest₁, hc₁, hrequested, -⟩ := h.pending request₁ r₁ call hr₁ hcall hopen
    cases hc.symm.trans hc₁
    cases hphase.symm.trans hrequested
    cases hr.symm.trans hr₁
    exact absurd hreplied (hopen ok)

/-- A careful step of a leader. -/
theorem Inv.leader (h : s.Inv) {call : Nat} {c : LeaderCall} {e : LeaderStep}
    (hc : s.calls call = some c) (hcareful : s.Careful (.leader call e))
    (hstep : c.step s call e = some s') : s'.Inv := by
  cases e with
  | giveUp =>
    rw [LeaderCall.step] at hstep
    split at hstep
    · next rest hphase =>
      cases hstep
      refine h.advance hc (by simp [hphase]) (by simp) fun process p _ hcovers => ?_
      rwa [LeaderCall.Covers, hphase] at hcovers
    · cases hstep
  | spawn port process =>
    rw [LeaderCall.step] at hstep
    split at hstep
    · next w rest hphase =>
      split at hstep
      · next hready =>
        cases hstep
        have hvacant := hcareful c w rest hc hphase
        have hwaiting : (s.setCall call
            { c with phase := .waiting process { w with port } rest }).Inv := by
          refine h.advance hc (by simp [hphase]) (by simp) fun process p _ hcovers => .inl ?_
          rwa [LeaderCall.Covers, hphase] at hcovers
        refine hwaiting.spawn hready.2 hvacant ?_
        rintro _ ⟨⟩
        exact ⟨_, Function.update_self .., .inr rfl⟩
      · cases hstep
    · cases hstep
  | health ok =>
    rw [LeaderCall.step] at hstep
    split at hstep
    · next process w rest hphase =>
      cases (hcareful : ok = true)
      cases hstep
      refine h.advance hc (by simp [hphase]) (by simp) fun process p _ hcovers => ?_
      rw [LeaderCall.Covers, hphase] at hcovers
      exact at_append_singleton.2 hcovers
    · cases hstep
  | request port request =>
    rw [LeaderCall.step] at hstep
    split at hstep
    · next w rest hphase =>
      split at hstep
      · next hready =>
        cases hstep
        -- The request is entered as one that has been refused, so that nobody waits for it yet.
        have hrefused : (s.setRequest request
            { place := (w.nodeId, port), call := some call, phase := .replied false }).Inv := by
          refine h.setRequest (fun r₀ hr₀ => ?_) fun _ _ hopen => absurd rfl (hopen false)
          cases hready.2.symm.trans hr₀
        have hrequested : (WorkerNet.setCall _ call
            { c with phase := .requested request { w with port } rest }).Inv :=
          hrefused.setCall (fun process p htracked hcall => .inl ?_)
            (fun request' w' rest' heq => ?_) fun request' r hr hcall hopen => ?_
        · have hreceived : (WorkerNet.setRequest _ request
              { place := (w.nodeId, port), call := some call, phase := .received }).Inv :=
            hrequested.setRequest (fun r₀ hr₀ => ?_) fun call' hcall' _ => ?_
          · rwa [setRequest_setCall_setRequest] at hreceived
          · have hr₀' : (s.setRequest request _).requests request = some r₀ := hr₀
            rw [setRequest_requests, if_pos rfl] at hr₀'
            cases hr₀'
            exact ⟨rfl, rfl, nofun⟩
          · cases hcall'
            exact ⟨_, _, _, Function.update_self .., rfl, rfl⟩
        · have hcovers := h.covered call c process p hc htracked hcall
          rwa [LeaderCall.Covers, hphase] at hcovers
        · cases heq
          exact ⟨_, Function.update_self .., rfl, rfl⟩
        · rw [setRequest_requests] at hr
          split at hr
          · cases hr
            exact absurd rfl (hopen false)
          · obtain ⟨c₁, w₁, rest₁, hc₁, hphase₁, -⟩ := h.pending request' r call hr hcall hopen
            cases hc.symm.trans hc₁
            cases hphase.symm.trans hphase₁
      · cases hstep
    · cases hstep
  | reply =>
    rw [LeaderCall.step] at hstep
    split at hstep
    · next request w rest hphase =>
      split at hstep
      · next place call' ok hr =>
        split at hstep
        · next hok =>
          cases hstep
          refine h.answer hc hphase hr rfl (by simp) fun process p _ hcovers => ?_
          exact at_append_singleton.2 (hcovers.imp_right And.left)
        · next hok =>
          cases hstep
          refine h.answer hc hphase hr rfl (by simp) fun process p _ hcovers => ?_
          exact hcovers.resolve_right fun hheld => hok hheld.2
      · cases hstep
    · cases hstep
  | lost =>
    rw [LeaderCall.step] at hstep
    split at hstep
    · next request w rest hphase =>
      cases hstep
      obtain ⟨r, hr, -, -⟩ := h.asked call c request w rest hc hphase
      have hreplied := hcareful c request w rest r hc hphase hr
      refine h.answer hc hphase hr hreplied (by simp) fun process p _ hcovers => ?_
      exact hcovers.resolve_right fun hheld => Bool.false_ne_true hheld.2
    · cases hstep
  | up clusterPort =>
    rw [LeaderCall.step] at hstep
    split at hstep
    · next hphase =>
      cases hstep
      refine h.advance hc (by simp [hphase]) (by simp) fun process p _ hcovers => ?_
      rwa [LeaderCall.Covers, hphase] at hcovers
    · cases hstep
  | stopModel clusterPort =>
    rw [LeaderCall.step] at hstep
    split at hstep
    · next port hphase =>
      split at hstep
      · cases hstep
        refine h.advance hc (by simp [hphase]) (by simp) fun process p _ hcovers => ?_
        rwa [LeaderCall.Covers, hphase] at hcovers
      · cases hstep
    · cases hstep
  | clean delivered =>
    rw [LeaderCall.step] at hstep
    split at hstep
    · next w todo stop hphase =>
      cases hstep
      have hstopped : ∃ s₁ : WorkerNet, (if w.nodeId = c.nodeId ∨ delivered = true then
          s.stopLocalWorker w.place else s) = s₁ ∧ s₁.Inv ∧ s₁.calls = s.calls ∧
            s₁.workerPids w.place = none := by
        obtain ⟨hcalls, -, hnone⟩ := s.stopLocalWorker_spec w.place
        split
        · exact ⟨_, rfl, h.stopLocalWorker w.place, hcalls, hnone⟩
        · next hlost =>
          refine ⟨s, rfl, h, rfl, ?_⟩
          rcases hcareful c w todo stop hc hphase with hown | hdelivered | hnone
          · exact absurd (.inl hown) hlost
          · exact absurd (.inr hdelivered) hlost
          · exact hnone
      obtain ⟨s₁, heq, h₁, hcalls, hnone⟩ := hstopped
      simp only [heq]
      rw [← hcalls] at hc
      refine h₁.advance hc (by simp [hphase]) (by simp) fun process p htracked hcovers => ?_
      rw [LeaderCall.Covers, hphase] at hcovers
      obtain ⟨w', hw', hplace⟩ := hcovers
      rcases List.mem_cons.1 hw' with rfl | hw'
      · have hpid := htracked.2
        rw [← hplace, hnone] at hpid
        cases hpid
      · exact ⟨w', hw', hplace⟩
    · cases hstep
  | finish =>
    rw [LeaderCall.step] at hstep
    split at hstep
    · next stop hphase =>
      cases hstep
      refine h.advance hc (by simp [hphase]) (by cases stop <;> simp) fun process p _ hcovers => ?_
      rw [LeaderCall.Covers, hphase] at hcovers
      obtain ⟨w, hw, -⟩ := hcovers
      cases hw
    · cases hstep

/-- A careful step of a peer. -/
theorem Inv.peer (h : s.Inv) {request : Nat} {r : WorkerRequest} {e : PeerStep}
    (hr : s.requests request = some r) (hcareful : s.Careful (.peer request e))
    (hstep : r.step s request e = some s') : s'.Inv := by
  have hwaits : ∀ call, r.call = some call → (∀ ok, r.phase ≠ .replied ok) →
      ∃ c w rest, s.calls call = some c ∧ c.phase = .requested request w rest ∧
        r.place = w.place := fun call hcall hopen => h.pending request r call hr hcall hopen
  cases e with
  | spawn process =>
    cases process with
    | none =>
      rw [WorkerRequest.step] at hstep
      split at hstep
      · next hphase =>
        cases hstep
        refine h.setRequest (fun r₀ hr₀ => ?_) fun _ _ hopen => absurd rfl (hopen false)
        cases hr.symm.trans hr₀
        refine ⟨rfl, rfl, fun hholds => ?_⟩
        rw [hphase] at hholds
        exact hholds.elim
      · cases hstep
    | some process =>
      rw [WorkerRequest.step] at hstep
      split at hstep
      · next hphase =>
        split at hstep
        · next hnew =>
          cases hstep
          have hopen : ∀ ok, r.phase ≠ .replied ok := by simp [hphase]
          have hwaiting : (s.setRequest request { r with phase := .waiting process }).Inv := by
            refine h.setRequest (fun r₀ hr₀ => ?_) fun call hcall _ => hwaits call hcall hopen
            cases hr.symm.trans hr₀
            exact ⟨rfl, rfl, fun _ => .inl trivial⟩
          refine hwaiting.spawn hnew (hcareful r hr) fun call hcall => ?_
          obtain ⟨c, w, rest, hc, hphase', hplace⟩ := hwaits call hcall hopen
          refine ⟨c, hc, ?_⟩
          rw [LeaderCall.Covers, hphase']
          exact .inr ⟨hplace.symm, _, Function.update_self .., trivial⟩
        · cases hstep
      · cases hstep
  | health ok =>
    rw [WorkerRequest.step] at hstep
    split at hstep
    · next process hphase =>
      split at hstep
      · cases hstep
        refine h.setRequest (fun r₀ hr₀ => ?_) fun _ _ hopen => absurd rfl (hopen true)
        cases hr.symm.trans hr₀
        exact ⟨rfl, rfl, fun _ => .inl rfl⟩
      · next hok =>
        cases hstep
        rw [Bool.not_eq_true] at hok
        subst hok
        have hvacant : (s.kill process).Vacant r.place :=
          vacant_kill (hcareful r process hr hphase)
        refine ((h.kill process).forget hvacant).setRequest (fun r₀ hr₀ => ?_)
          fun _ _ hopen => absurd rfl (hopen false)
        cases hr.symm.trans hr₀
        exact ⟨rfl, rfl, fun _ => .inr (Function.update_self ..)⟩
    · cases hstep

/-- A careful step. -/
theorem Inv.step (h : s.Inv) {e : WorkerEvent} (hcareful : s.Careful e)
    (hstep : s.step e = some s') : s'.Inv := by
  cases e with
  | startModel call nodeId parts =>
    rw [WorkerNet.step] at hstep
    split at hstep
    · next hnew =>
      cases hstep
      refine h.setCall (fun process p htracked hcall => ?_) nofun fun request r hr hcall hopen => ?_
      · exact absurd hnew.1 (h.known process p call htracked.1 hcall)
      · obtain ⟨c, w, rest, hc, -⟩ := h.pending request r call hr hcall hopen
        cases hnew.1.symm.trans hc
    · cases hstep
  | leader call step =>
    rw [WorkerNet.step] at hstep
    split at hstep
    · cases hstep
    · next c hc => exact h.leader hc hcareful hstep
  | startWorker request place =>
    rw [WorkerNet.step] at hstep
    split at hstep
    · next hnew =>
      cases hstep
      refine h.setRequest (fun r₀ hr₀ => ?_) nofun
      cases hnew.symm.trans hr₀
    · cases hstep
  | peer request step =>
    rw [WorkerNet.step] at hstep
    split at hstep
    · cases hstep
    · next r hr => exact h.peer hr hcareful hstep
  | stopWorker place =>
    cases hstep
    exact h.stopLocalWorker place
  | exit process =>
    cases hstep
    exact h.kill process

end

end WorkerNet

/-- In every run of careful steps, of any calls on any nodes, no worker is lost. -/
theorem workers_sound_of_eachStep (events : List WorkerEvent)
    (h : EachStep WorkerNet.step WorkerNet.Careful events {}) :
    Always WorkerNet.step WorkerNet.Sound events {} := by
  have hinit : ({} : WorkerNet).Inv := ⟨nofun, nofun, nofun, nofun, nofun, nofun⟩
  have hinv := always_of_eachStep
    (fun s e s' hs hcareful hstep => WorkerNet.Inv.step hs hcareful hstep) hinit h
  exact hinv.mono fun s hs => hs.sound

/-- A leader with one peer starts a worker of its own and one there, and stops the cluster. -/
def startAndStop : List WorkerEvent :=
  [.startModel 0 1 [{ nodeId := 1, port := 0, start := 0, stop := 2 },
      { nodeId := 2, port := 0, start := 2, stop := 4 }],
    .leader 0 (.spawn 47900 0), .leader 0 (.health true), .leader 0 (.request 47900 0),
    .peer 0 (.spawn (some 1)), .peer 0 (.health true), .leader 0 .reply, .leader 0 (.up 48000),
    .leader 0 (.stopModel 48000), .leader 0 (.clean true), .leader 0 (.clean true),
    .leader 0 .finish]

/-- The worker of the leader does not get healthy in time. -/
def unhealthyStart : List WorkerEvent :=
  [.startModel 0 1 [{ nodeId := 1, port := 0, start := 0, stop := 4 }],
    .leader 0 (.spawn 47900 0), .leader 0 (.health false), .leader 0 .finish]

theorem sound_startAndStop : Always WorkerNet.step WorkerNet.Sound startAndStop {} := by
  refine workers_sound_of_eachStep _ ?_
  rintro s₁ ⟨⟩
  refine ⟨trivial, ?_⟩
  rintro s₂ ⟨⟩
  refine ⟨?_, ?_⟩
  · rintro c w rest ⟨⟩ ⟨⟩ process p ⟨⟩
  rintro s₃ ⟨⟩
  refine ⟨rfl, ?_⟩
  rintro s₄ ⟨⟩
  refine ⟨trivial, ?_⟩
  rintro s₅ ⟨⟩
  refine ⟨?_, ?_⟩
  · rintro r ⟨⟩ process p ⟨⟩
  rintro s₆ ⟨⟩
  refine ⟨trivial, ?_⟩
  rintro s₇ ⟨⟩
  refine ⟨trivial, ?_⟩
  rintro s₈ ⟨⟩
  refine ⟨trivial, ?_⟩
  rintro s₉ ⟨⟩
  refine ⟨trivial, ?_⟩
  rintro s₁₀ ⟨⟩
  refine ⟨fun _ _ _ _ _ _ => .inr (.inl rfl), ?_⟩
  rintro s₁₁ ⟨⟩
  refine ⟨fun _ _ _ _ _ _ => .inr (.inl rfl), ?_⟩
  rintro s₁₂ ⟨⟩
  exact ⟨trivial, trivial⟩

/-- A start whose own worker is not healthy in time fails and leaves it in `worker_pids_`. -/
theorem not_sound_unhealthyStart :
    ¬ Always WorkerNet.step WorkerNet.Sound unhealthyStart {} := by
  intro h
  have hlast := h.last rfl
  have hgone := (hlast.failed 0 _ rfl rfl 0 _ rfl rfl).2 (1, 47900)
  exact hgone rfl

end Terllama
