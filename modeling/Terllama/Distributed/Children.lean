import Mathlib.Data.List.Perm.Subperm
import Terllama.Base.Runs
import Terllama.Distributed.Node

/-!
# The children of a node

The pids that a node keeps in `children_`, `worker_pids_` and `running_` of `distributed/node.cpp`,
and what its handlers and `Node::stop` send signals to. The operating system may give a pid again
once it has been waited for, so that a signal is only safe while the pid is that of a child which
has not been (`NodeProcs.unreaped`).

No handler takes a pid out of `children_`, and `shutdown_children` kills a child once more after it
has been waited for. `stop_strays_iff` says which runs send no signal astray.
-/

namespace Terllama

/-! ## Signals -/

/-- The tables of a node, its children that have not been waited for, and the pids that signals were
sent to that were none of these. -/
structure NodeProcs where
  children : List Nat := []
  workerPids : Nat → Option Nat := fun _ => none
  running : List RunningCluster := []
  unreaped : List Nat := []
  strays : List Nat := []

/-- What becomes of a process that a handler tries to spawn: nothing, or a process with a pid that
gets healthy in time or does not. -/
inductive Spawned where
  | failed
  | process (pid : Nat) (healthy : Bool)
  deriving DecidableEq, Repr

/-- A `handle_start_model` that gets as far as the local worker: the ports that it finds, the layers
of its worker, whether the start of each remote worker succeeds, and what becomes of its own
processes. -/
structure StartModelRun where
  model : Bytes
  port : Nat
  start : Int
  stop : Int
  worker : Spawned
  remotes : List (WorkerInfo × Bool)
  clusterPort : Nat
  cluster : Spawned
  exits : Nat → Bool

/-- The workers of a start that runs on node `nodeId`, up to the first that fails. -/
def StartModelRun.workers (r : StartModelRun) (nodeId : Nat) : List WorkerInfo :=
  { nodeId, port := r.port, start := r.start, stop := r.stop } ::
    (r.remotes.takeWhile (·.2)).map fun p => p.1

namespace NodeProcs

/-- The entry of a port in `worker_pids_`. -/
def setWorkerPid (s : NodeProcs) (port : Nat) (pid : Option Nat) : NodeProcs :=
  { s with workerPids := Function.update s.workerPids port pid }

theorem setWorkerPid_workerPids (s : NodeProcs) (port : Nat) (pid : Option Nat) (port' : Nat) :
    (s.setWorkerPid port pid).workerPids port' = if port' = port then pid else s.workerPids port' :=
  Function.update_apply ..

/-- `kill`. -/
def kill (s : NodeProcs) (pid : Nat) : NodeProcs :=
  if pid ∈ s.unreaped then s else { s with strays := pid :: s.strays }

/-- `waitpid` on a child that exits. -/
def waitpid (s : NodeProcs) (pid : Nat) : NodeProcs := { s with unreaped := s.unreaped.erase pid }

/-- `spawn_process` returns a new pid, which goes into `children_`. -/
def spawn (s : NodeProcs) (pid : Nat) : Option NodeProcs :=
  if 0 < pid ∧ pid ∉ s.unreaped then
    some { s with unreaped := s.unreaped ++ [pid], children := s.children ++ [pid] }
  else none

/-- `kill_child`, where `exits` tells whether a child exits within five seconds of a `SIGTERM`. -/
def killChild (exits : Nat → Bool) (s : NodeProcs) (pid : Nat) : NodeProcs :=
  if pid = 0 then s
  else if exits pid = true ∧ pid ∈ s.unreaped then (s.kill pid).waitpid pid
  else ((s.kill pid).kill pid).waitpid pid

/-- `stop_local_worker`. -/
def stopLocalWorker (exits : Nat → Bool) (s : NodeProcs) (port : Nat) : NodeProcs :=
  match s.workerPids port with
  | none => s
  | some pid =>
    killChild exits (s.setWorkerPid port none) pid

/-- The workers of a cluster are stopped, those of other nodes by a request to these. -/
def stopWorkers (nodeId : Nat) (exits : Nat → Bool) (s : NodeProcs) (workers : List WorkerInfo) :
    NodeProcs :=
  workers.foldl (fun s w => if w.nodeId = nodeId then s.stopLocalWorker exits w.port else s) s

/-! ## The handlers -/

/-- `cleanup_partial_cluster`. It waits for the cluster as long as that takes. -/
def cleanupPartialCluster (nodeId : Nat) (exits : Nat → Bool) (s : NodeProcs)
    (workers : List WorkerInfo) (clusterPid : Nat) : NodeProcs :=
  let s := if 0 < clusterPid then (s.kill clusterPid).waitpid clusterPid else s
  s.stopWorkers nodeId exits workers

/-- `handle_start_model`. -/
def startModel (nodeId : Nat) (s : NodeProcs) (r : StartModelRun) : Option NodeProcs :=
  match r.worker with
  | .failed => some (s.cleanupPartialCluster nodeId r.exits [] 0)
  | .process pid healthy => do
    let s ← s.spawn pid
    let s := s.setWorkerPid r.port (some pid)
    if healthy = false then return s.cleanupPartialCluster nodeId r.exits [] pid
    if r.remotes.all (·.2) = false then
      return s.cleanupPartialCluster nodeId r.exits (r.workers nodeId) 0
    match r.cluster with
    | .failed => return s.cleanupPartialCluster nodeId r.exits (r.workers nodeId) 0
    | .process clusterPid up =>
      let s ← s.spawn clusterPid
      if up = false then
        return s.cleanupPartialCluster nodeId r.exits (r.workers nodeId) clusterPid
      return { s with running := s.running ++ [{
        model := r.model, clusterPort := r.clusterPort, clusterPid, workers := r.workers nodeId }] }

/-- `handle_stop_model`. -/
def stopModel (nodeId : Nat) (exits : Nat → Bool) (s : NodeProcs) (clusterPort : Nat) : NodeProcs :=
  match takeCluster clusterPort s.running with
  | none => s
  | some (rc, running) =>
    (killChild exits { s with running } rc.clusterPid).stopWorkers nodeId exits rc.workers

/-- `handle_start_worker`, behind its checks of the model. -/
def startWorker (exits : Nat → Bool) (s : NodeProcs) (start stop : Int) (port : Nat)
    (worker : Spawned) : Option NodeProcs :=
  if start < 0 ∨ stop ≤ start ∨ port = 0 then some s
  else
    match worker with
    | .failed => some s
    | .process pid healthy => do
      let s ← s.spawn pid
      let s := s.setWorkerPid port (some pid)
      if healthy = true then return s
      let s := s.killChild exits pid
      return s.setWorkerPid port none

/-- `handle_stop_worker`. -/
def stopWorker (exits : Nat → Bool) (s : NodeProcs) (port : Nat) : NodeProcs :=
  if 0 < port then s.stopLocalWorker exits port else s

/-- The second loop of `shutdown_children`, for one child: it is killed also where it has exited. -/
def shutdownChild (exits : Nat → Bool) (s : NodeProcs) (pid : Nat) : NodeProcs :=
  let s := if exits pid = true ∧ pid ∈ s.unreaped then s.waitpid pid else s
  (s.kill pid).waitpid pid

/-- `shutdown_children`. -/
def shutdownChildren (exits : Nat → Bool) (s : NodeProcs) : NodeProcs :=
  { s.children.foldl (shutdownChild exits) (s.children.foldl kill s) with children := [] }

/-- `Node::stop`. The workers of other nodes are stopped by requests to these. -/
def stop (exits : Nat → Bool) (s : NodeProcs) : NodeProcs :=
  shutdownChildren exits { s with running := [] }

end NodeProcs

/-- A request to a node, with what comes of it. -/
inductive NodeRequest where
  | startModel (r : StartModelRun)
  | stopModel (clusterPort : Nat) (exits : Nat → Bool)
  | startWorker (start stop : Int) (port : Nat) (worker : Spawned) (exits : Nat → Bool)
  | stopWorker (port : Nat) (exits : Nat → Bool)

/-- A request is handled. A pid is not given while it is that of a child. -/
def NodeProcs.step (nodeId : Nat) (s : NodeProcs) : NodeRequest → Option NodeProcs
  | .startModel r => s.startModel nodeId r
  | .stopModel clusterPort exits => some (s.stopModel nodeId exits clusterPort)
  | .startWorker start stop port worker exits => s.startWorker exits start stop port worker
  | .stopWorker port exits => some (s.stopWorker exits port)

/-! ## Safe runs -/

/-- A request that ends no child: it starts nothing or everything, or finds nothing to stop. -/
def NodeProcs.Calm (s : NodeProcs) : NodeRequest → Prop
  | .startModel r => r.worker = .failed ∨
      (∃ pid, r.worker = .process pid true) ∧ r.remotes.all (·.2) = true ∧
        ∃ pid, r.cluster = .process pid true
  | .stopModel clusterPort _ => takeCluster clusterPort s.running = none
  | .startWorker start stop port worker _ =>
    start < 0 ∨ stop ≤ start ∨ port = 0 ∨ ∀ pid, worker ≠ .process pid false
  | .stopWorker port _ => port = 0 ∨ s.workerPids port = none

/-- What every handler keeps: the children not waited for are distinct and are children, and the
pids in the other tables are pids. -/
structure NodeProcs.Tidy (s : NodeProcs) : Prop where
  nodup : s.unreaped.Nodup
  subset : s.unreaped ⊆ s.children
  worker : ∀ port pid, s.workerPids port = some pid → 0 < pid
  cluster : ∀ rc ∈ s.running, 0 < rc.clusterPid

/-- No signal has gone astray and every child is still to be waited for. -/
def NodeProcs.Intact (s : NodeProcs) : Prop :=
  s.strays = [] ∧ s.unreaped.length = s.children.length

/-- What signals and waiting do to a node: no child is new, and what has gone astray stays. -/
structure NodeProcs.Fades (s s' : NodeProcs) : Prop where
  children : s'.children = s.children
  unreaped : s'.unreaped.Sublist s.unreaped
  strays : s'.strays = [] → s.strays = []
  worker : ∀ port pid, s'.workerPids port = some pid → s.workerPids port = some pid
  cluster : s'.running ⊆ s.running

namespace NodeProcs

section
variable {s s' s'' : NodeProcs} {pid : Nat}

theorem Fades.refl (s : NodeProcs) : s.Fades s where
  children := rfl
  unreaped := List.Sublist.refl _
  strays h := h
  worker _ _ h := h
  cluster := List.Subset.refl _

theorem Fades.trans (h : s.Fades s') (h' : s'.Fades s'') : s.Fades s'' where
  children := h'.children.trans h.children
  unreaped := h'.unreaped.trans h.unreaped
  strays hs := h.strays (h'.strays hs)
  worker port pid hp := h.worker port pid (h'.worker port pid hp)
  cluster := List.Subset.trans h'.cluster h.cluster

theorem Fades.tidy (h : s.Fades s') (hs : s.Tidy) : s'.Tidy where
  nodup := hs.nodup.sublist h.unreaped
  subset _ hpid := h.children ▸ hs.subset (h.unreaped.subset hpid)
  worker port pid hp := hs.worker port pid (h.worker port pid hp)
  cluster rc hrc := hs.cluster rc (h.cluster hrc)

theorem Tidy.length_le (h : s.Tidy) : s.unreaped.length ≤ s.children.length :=
  (h.nodup.subperm h.subset).length_le

theorem Fades.intact (h : s.Fades s') (hs : s.Tidy) (h' : s'.Intact) : s.Intact := by
  refine ⟨h.strays h'.1, hs.length_le.antisymm ?_⟩
  rw [← h.children, ← h'.2]
  exact h.unreaped.length_le

theorem fades_kill (s : NodeProcs) (pid : Nat) : s.Fades (s.kill pid) := by
  rw [kill]
  split
  · exact .refl s
  · exact { Fades.refl s with strays := nofun }

theorem fades_waitpid (s : NodeProcs) (pid : Nat) : s.Fades (s.waitpid pid) :=
  { Fades.refl s with unreaped := List.erase_sublist }

/-- A table of a node forgets. -/
theorem fades_setWorkerPid (s : NodeProcs) (port : Nat) : s.Fades (s.setWorkerPid port none) := by
  refine { Fades.refl s with worker := fun port' pid h => ?_ }
  rw [setWorkerPid_workerPids] at h
  split at h
  · cases h
  · exact h

theorem fades_killChild (exits : Nat → Bool) (s : NodeProcs) (pid : Nat) :
    s.Fades (s.killChild exits pid) := by
  rw [killChild]
  split
  · exact .refl s
  · split
    · exact (fades_kill s pid).trans (fades_waitpid _ pid)
    · exact ((fades_kill s pid).trans (fades_kill _ pid)).trans (fades_waitpid _ pid)

theorem fades_stopLocalWorker (exits : Nat → Bool) (s : NodeProcs) (port : Nat) :
    s.Fades (s.stopLocalWorker exits port) := by
  rw [stopLocalWorker]
  split
  · exact .refl s
  · exact (fades_setWorkerPid s port).trans (fades_killChild exits _ _)

theorem fades_stopWorkers (nodeId : Nat) (exits : Nat → Bool) (s : NodeProcs)
    (workers : List WorkerInfo) : s.Fades (s.stopWorkers nodeId exits workers) := by
  induction workers generalizing s with
  | nil => exact .refl s
  | cons w workers ih =>
    rw [stopWorkers, List.foldl_cons]
    split
    · exact (fades_stopLocalWorker exits s w.port).trans (ih _)
    · exact ih s

theorem fades_cleanup (nodeId : Nat) (exits : Nat → Bool) (s : NodeProcs)
    (workers : List WorkerInfo) (clusterPid : Nat) :
    s.Fades (s.cleanupPartialCluster nodeId exits workers clusterPid) := by
  rw [cleanupPartialCluster]
  split
  · exact ((fades_kill s clusterPid).trans (fades_waitpid _ clusterPid)).trans
      (fades_stopWorkers nodeId exits _ workers)
  · exact fades_stopWorkers nodeId exits s workers

/-- A child that has been signalled and waited for is gone for good. -/
theorem not_intact_kill_waitpid (hs : s.Tidy) (pid : Nat) :
    ¬ ((s.kill pid).waitpid pid).Intact := by
  intro h
  rw [kill] at h
  split at h
  · next hmem =>
    have hlength := h.2
    have hle := hs.length_le
    have hpos := List.length_pos_of_mem hmem
    change (s.unreaped.erase pid).length = s.children.length at hlength
    rw [List.length_erase_of_mem hmem] at hlength
    omega
  · exact List.cons_ne_nil _ _ h.1

theorem not_intact_killChild (exits : Nat → Bool) (hs : s.Tidy) (hpid : 0 < pid) :
    ¬ (s.killChild exits pid).Intact := by
  rw [killChild, if_neg hpid.ne']
  split
  · exact not_intact_kill_waitpid hs pid
  · exact not_intact_kill_waitpid ((fades_kill s pid).tidy hs) pid

/-- A worker that is found is gone for good. -/
theorem not_intact_stopLocalWorker (exits : Nat → Bool) (hs : s.Tidy) {port : Nat}
    (h : s.workerPids port ≠ none) : ¬ (s.stopLocalWorker exits port).Intact := by
  obtain ⟨pid, hpid⟩ := Option.ne_none_iff_exists'.1 h
  rw [stopLocalWorker, hpid]
  exact not_intact_killChild exits ((fades_setWorkerPid s port).tidy hs) (hs.worker port pid hpid)

/-- Where the first worker of a cluster is found, it is gone for good. -/
theorem not_intact_stopWorkers (nodeId : Nat) (exits : Nat → Bool) (hs : s.Tidy)
    (workers : List WorkerInfo) {w : WorkerInfo} (hw : w.nodeId = nodeId)
    (h : s.workerPids w.port ≠ none) : ¬ (s.stopWorkers nodeId exits (w :: workers)).Intact := by
  rw [stopWorkers, List.foldl_cons, if_pos hw]
  intro hintact
  have hfades := fades_stopWorkers nodeId exits (s.stopLocalWorker exits w.port) workers
  have htidy := (fades_stopLocalWorker exits s w.port).tidy hs
  exact not_intact_stopLocalWorker exits hs h (hfades.intact htidy hintact)

theorem not_intact_cleanup (nodeId : Nat) (exits : Nat → Bool) (hs : s.Tidy)
    (workers : List WorkerInfo) (hpid : 0 < pid) :
    ¬ (s.cleanupPartialCluster nodeId exits workers pid).Intact := by
  rw [cleanupPartialCluster, if_pos hpid]
  intro hintact
  have hfades := fades_stopWorkers nodeId exits ((s.kill pid).waitpid pid) workers
  have htidy := ((fades_kill s pid).trans (fades_waitpid _ pid)).tidy hs
  exact not_intact_kill_waitpid hs pid (hfades.intact htidy hintact)

/-- A new child. -/
theorem spawn_spec (h : s.spawn pid = some s') : 0 < pid ∧ pid ∉ s.unreaped ∧
    s' = { s with unreaped := s.unreaped ++ [pid], children := s.children ++ [pid] } := by
  rw [spawn] at h
  split at h
  · next hpid =>
    cases h
    exact ⟨hpid.1, hpid.2, rfl⟩
  · cases h

theorem Tidy.spawn (hs : s.Tidy) (h : s.spawn pid = some s') :
    s'.Tidy ∧ (s'.Intact ↔ s.Intact) := by
  obtain ⟨-, hnew, rfl⟩ := spawn_spec h
  refine ⟨{ hs with nodup := ?_, subset := ?_ }, ?_⟩
  · exact List.nodup_append.2 ⟨hs.nodup, List.pairwise_singleton _ _, by
      rintro a ha b hb rfl
      exact hnew (List.mem_singleton.1 hb ▸ ha)⟩
  · exact List.append_subset.2 ⟨fun a ha => List.mem_append_left _ (hs.subset ha),
      fun a ha => List.mem_append_right _ ha⟩
  · simp [Intact]

/-- A new worker on a port. -/
theorem Tidy.track (hs : s.Tidy) (hpid : 0 < pid) (port : Nat) :
    (s.setWorkerPid port (some pid)).Tidy := by
  refine { hs with worker := fun port' pid' h => ?_ }
  rw [setWorkerPid_workerPids] at h
  split at h
  · cases h
    exact hpid
  · exact hs.worker port' pid' h

/-- Without a cluster to kill, a cleanup stops the workers. -/
theorem cleanup_zero (nodeId : Nat) (exits : Nat → Bool) (s : NodeProcs)
    (workers : List WorkerInfo) :
    s.cleanupPartialCluster nodeId exits workers 0 = s.stopWorkers nodeId exits workers := rfl

/-- A start of a model keeps the tables in order, and ends no child exactly if it is calm. -/
theorem Tidy.startModel {nodeId : Nat} {r : StartModelRun} (hs : s.Tidy)
    (h : s.startModel nodeId r = some s') :
    s'.Tidy ∧ (s'.Intact ↔ s.Intact ∧ s.Calm (.startModel r)) := by
  rw [NodeProcs.startModel] at h
  cases hworker : r.worker with
  | failed =>
    rw [hworker] at h
    cases h
    exact ⟨hs, (and_iff_left (.inl hworker)).symm⟩
  | process pid healthy =>
    rw [hworker] at h
    obtain ⟨s₁, hspawn, h⟩ := Option.bind_eq_some_iff.1 h
    obtain ⟨hs₁, hintact₁⟩ := hs.spawn hspawn
    have hpid := (spawn_spec hspawn).1
    have hs₂ := hs₁.track hpid r.port
    have htracked : (s₁.setWorkerPid r.port (some pid)).workerPids r.port ≠ none := by
      rw [setWorkerPid_workerPids, if_pos rfl]
      exact nofun
    have hcalm : s.Calm (.startModel r) → healthy = true ∧ r.remotes.all (·.2) = true ∧
        ∃ clusterPid, r.cluster = .process clusterPid true := by
      rintro (hfailed | ⟨⟨pid', hprocess⟩, hremotes, hcluster⟩)
      · cases hworker.symm.trans hfailed
      · cases hworker.symm.trans hprocess
        exact ⟨rfl, hremotes, hcluster⟩
    simp only at h
    split at h
    · next hunhealthy =>
      cases h
      refine ⟨(fades_cleanup nodeId r.exits _ [] pid).tidy hs₂, iff_of_false ?_ ?_⟩
      · exact not_intact_cleanup nodeId r.exits hs₂ [] hpid
      · rintro ⟨-, hcalm'⟩
        exact Bool.false_ne_true (hunhealthy.symm.trans (hcalm hcalm').1)
    · next hhealthy =>
      split at h
      · next hremotes =>
        cases h
        refine ⟨(fades_cleanup nodeId r.exits _ _ 0).tidy hs₂, iff_of_false ?_ ?_⟩
        · rw [cleanup_zero]
          exact not_intact_stopWorkers nodeId r.exits hs₂ _ rfl htracked
        · rintro ⟨-, hcalm'⟩
          exact Bool.false_ne_true (hremotes.symm.trans (hcalm hcalm').2.1)
      · next hremotes =>
        cases hcluster : r.cluster with
        | failed =>
          rw [hcluster] at h
          cases h
          refine ⟨(fades_cleanup nodeId r.exits _ _ 0).tidy hs₂, iff_of_false ?_ ?_⟩
          · rw [cleanup_zero]
            exact not_intact_stopWorkers nodeId r.exits hs₂ _ rfl htracked
          · rintro ⟨-, hcalm'⟩
            obtain ⟨clusterPid, hprocess⟩ := (hcalm hcalm').2.2
            cases hcluster.symm.trans hprocess
        | process clusterPid up =>
          rw [hcluster] at h
          obtain ⟨s₃, hspawn₃, h⟩ := Option.bind_eq_some_iff.1 h
          obtain ⟨hs₃, hintact₃⟩ := hs₂.spawn hspawn₃
          have hclusterPid := (spawn_spec hspawn₃).1
          split at h
          · next hdown =>
            cases h
            refine ⟨(fades_cleanup nodeId r.exits _ _ clusterPid).tidy hs₃, iff_of_false ?_ ?_⟩
            · exact not_intact_cleanup nodeId r.exits hs₃ _ hclusterPid
            · rintro ⟨-, hcalm'⟩
              obtain ⟨clusterPid', hprocess⟩ := (hcalm hcalm').2.2
              cases hcluster.symm.trans hprocess
              cases hdown
          · next hup =>
            cases h
            refine ⟨{ hs₃ with cluster := fun rc hrc => ?_ }, ?_⟩
            · rcases List.mem_append.1 hrc with hrc | hrc
              · exact hs₃.cluster rc hrc
              · rw [List.mem_singleton.1 hrc]
                exact hclusterPid
            · rw [Bool.not_eq_false] at hhealthy hremotes hup
              subst hhealthy hup
              have hcalm' : s.Calm (.startModel r) :=
                .inr ⟨⟨pid, hworker⟩, hremotes, clusterPid, hcluster⟩
              rw [and_iff_left hcalm']
              exact hintact₃.trans hintact₁

theorem Tidy.stopModel (nodeId : Nat) (exits : Nat → Bool) (hs : s.Tidy) (clusterPort : Nat) :
    (s.stopModel nodeId exits clusterPort).Tidy ∧
      ((s.stopModel nodeId exits clusterPort).Intact ↔
        s.Intact ∧ s.Calm (.stopModel clusterPort exits)) := by
  rw [NodeProcs.stopModel]
  cases hfound : takeCluster clusterPort s.running with
  | none => exact ⟨hs, (and_iff_left hfound).symm⟩
  | some found =>
    obtain ⟨rc, running⟩ := found
    have hperm := takeCluster_perm hfound
    have hfades : s.Fades { s with running } := { Fades.refl s with
      cluster := fun rc' hrc' => hperm.mem_iff.2 (List.mem_cons_of_mem _ hrc') }
    have hpid := hs.cluster rc (hperm.mem_iff.2 List.mem_cons_self)
    have hs₁ := hfades.tidy hs
    have hs₂ := (fades_killChild exits { s with running } rc.clusterPid).tidy hs₁
    have hrest := fades_stopWorkers nodeId exits (killChild exits { s with running } rc.clusterPid)
      rc.workers
    refine ⟨hrest.tidy hs₂, iff_of_false (fun hintact => ?_) ?_⟩
    · exact not_intact_killChild exits hs₁ hpid (hrest.intact hs₂ hintact)
    · rintro ⟨-, hcalm⟩
      cases hfound.symm.trans hcalm

theorem Tidy.stopWorker (exits : Nat → Bool) (hs : s.Tidy) (port : Nat) :
    (s.stopWorker exits port).Tidy ∧
      ((s.stopWorker exits port).Intact ↔ s.Intact ∧ s.Calm (.stopWorker port exits)) := by
  rw [NodeProcs.stopWorker]
  split
  · next hport =>
    refine ⟨(fades_stopLocalWorker exits s port).tidy hs, ?_⟩
    cases hfound : s.workerPids port with
    | none =>
      rw [stopLocalWorker, hfound]
      exact (and_iff_left (.inr hfound)).symm
    | some pid =>
      refine iff_of_false (not_intact_stopLocalWorker exits hs ?_) ?_
      · rw [hfound]
        exact nofun
      · rintro ⟨-, hzero | hnone⟩
        · exact hport.ne' hzero
        · cases hfound.symm.trans hnone
  · next hport => exact ⟨hs, (and_iff_left (.inl (Nat.eq_zero_of_not_pos hport))).symm⟩

theorem Tidy.startWorker {exits : Nat → Bool} {start stop : Int} {port : Nat} {worker : Spawned}
    (hs : s.Tidy) (h : s.startWorker exits start stop port worker = some s') :
    s'.Tidy ∧ (s'.Intact ↔ s.Intact ∧ s.Calm (.startWorker start stop port worker exits)) := by
  unfold NodeProcs.startWorker at h
  split at h
  · next hpayload =>
    cases h
    refine ⟨hs, (and_iff_left ?_).symm⟩
    rcases hpayload with h | h | h
    · exact .inl h
    · exact .inr (.inl h)
    · exact .inr (.inr (.inl h))
  · next hpayload =>
    cases worker with
    | failed =>
      cases h
      exact ⟨hs, (and_iff_left (.inr (.inr (.inr nofun)))).symm⟩
    | process pid healthy =>
      obtain ⟨s₁, hspawn, h⟩ := Option.bind_eq_some_iff.1 h
      obtain ⟨hs₁, hintact₁⟩ := hs.spawn hspawn
      have hpid := (spawn_spec hspawn).1
      have hs₂ := hs₁.track hpid port
      simp only at h
      split at h
      · next hhealthy =>
        cases h
        subst hhealthy
        have hcalm : s.Calm (.startWorker start stop port (.process pid true) exits) :=
          .inr (.inr (.inr nofun))
        rw [and_iff_left hcalm]
        exact ⟨hs₂, hintact₁⟩
      · next hunhealthy =>
        cases h
        rw [Bool.not_eq_true] at hunhealthy
        subst hunhealthy
        have hkill := fades_killChild exits (s₁.setWorkerPid port (some pid)) pid
        have hforget := fades_setWorkerPid
          (killChild exits (s₁.setWorkerPid port (some pid)) pid) port
        refine ⟨hforget.tidy (hkill.tidy hs₂), iff_of_false (fun hintact => ?_) ?_⟩
        · exact not_intact_killChild exits hs₂ hpid (hforget.intact (hkill.tidy hs₂) hintact)
        · rintro ⟨-, hcalm⟩
          rcases hcalm with h | h | h | h
          · exact hpayload (.inl h)
          · exact hpayload (.inr (.inl h))
          · exact hpayload (.inr (.inr h))
          · exact h pid rfl

/-- Every handler keeps the tables in order, and ends no child exactly if its request is calm. -/
theorem Tidy.step {nodeId : Nat} {r : NodeRequest} (hs : s.Tidy) (h : s.step nodeId r = some s') :
    s'.Tidy ∧ (s'.Intact ↔ s.Intact ∧ s.Calm r) := by
  cases r with
  | startModel r => exact hs.startModel h
  | stopModel clusterPort exits =>
    cases h
    exact hs.stopModel nodeId exits clusterPort
  | startWorker start stop port worker exits => exact hs.startWorker h
  | stopWorker port exits =>
    cases h
    exact hs.stopWorker exits port

/-! ## The end of a node -/

/-- The first signals of a shutdown. -/
theorem foldl_kill (pids : List Nat) (s : NodeProcs) : (pids.foldl kill s).unreaped = s.unreaped ∧
    ((pids.foldl kill s).strays = [] ↔ s.strays = [] ∧ ∀ pid ∈ pids, pid ∈ s.unreaped) := by
  induction pids generalizing s with
  | nil => simp
  | cons pid pids ih =>
    have hkill : (s.kill pid).unreaped = s.unreaped ∧
        ((s.kill pid).strays = [] ↔ s.strays = [] ∧ pid ∈ s.unreaped) := by
      rw [kill]
      split
      · next hmem => exact ⟨rfl, (and_iff_left hmem).symm⟩
      · next hmem => exact ⟨rfl, iff_of_false nofun fun h => hmem h.2⟩
    rw [List.foldl_cons, (ih _).1, (ih _).2, hkill.1, hkill.2, List.forall_mem_cons, and_assoc]
    exact ⟨rfl, Iff.rfl⟩

/-- One child of a shutdown. -/
theorem shutdownChild_spec (exits : Nat → Bool) (hs : s.unreaped.Nodup) (pid : Nat) :
    (s.shutdownChild exits pid).unreaped = s.unreaped.erase pid ∧
      ((s.shutdownChild exits pid).strays = [] ↔
        s.strays = [] ∧ pid ∈ s.unreaped ∧ exits pid = false) := by
  simp only [shutdownChild]
  split
  · next h =>
    have hgone : pid ∉ (s.waitpid pid).unreaped := hs.not_mem_erase
    have herase : (s.unreaped.erase pid).erase pid = s.unreaped.erase pid :=
      List.erase_of_not_mem hgone
    rw [kill, if_neg hgone]
    refine ⟨herase, iff_of_false nofun ?_⟩
    rintro ⟨-, -, hexits⟩
    exact Bool.false_ne_true (hexits.symm.trans h.1)
  · next h =>
    rw [kill]
    split
    · next hmem =>
      have hexits : exits pid = false := by
        rw [← Bool.not_eq_true]
        exact fun hexits => h ⟨hexits, hmem⟩
      exact ⟨rfl, (and_iff_left ⟨hmem, hexits⟩).symm⟩
    · next hmem => exact ⟨rfl, iff_of_false nofun fun h' => hmem h'.2.1⟩

/-- The last signals of a shutdown. -/
theorem foldl_shutdownChild (exits : Nat → Bool) (pids : List Nat) (hs : s.unreaped.Nodup) :
    (pids.foldl (shutdownChild exits) s).strays = [] ↔
      s.strays = [] ∧ pids.Nodup ∧ ∀ pid ∈ pids, pid ∈ s.unreaped ∧ exits pid = false := by
  induction pids generalizing s with
  | nil => simp
  | cons pid pids ih =>
    obtain ⟨hunreaped, hstrays⟩ := shutdownChild_spec exits hs pid
    have hmem : ∀ a, a ∈ s.unreaped.erase pid ↔ a ≠ pid ∧ a ∈ s.unreaped :=
      fun a => hs.mem_erase_iff
    rw [List.foldl_cons, ih (hunreaped ▸ hs.erase pid), hstrays, hunreaped]
    simp only [hmem, List.nodup_cons, List.forall_mem_cons]
    constructor
    · rintro ⟨⟨hs, hpid, hexits⟩, hnodup, hpids⟩
      refine ⟨hs, ⟨fun hin => (hpids pid hin).1.1 rfl, hnodup⟩, ⟨hpid, hexits⟩, ?_⟩
      exact fun a ha => ⟨(hpids a ha).1.2, (hpids a ha).2⟩
    · rintro ⟨hs, ⟨hnew, hnodup⟩, ⟨hpid, hexits⟩, hpids⟩
      refine ⟨⟨hs, hpid, hexits⟩, hnodup, fun a ha => ⟨⟨?_, (hpids a ha).1⟩, (hpids a ha).2⟩⟩
      rintro rfl
      exact hnew ha

/-- No signal of a shutdown goes astray exactly where no child is lost and none exits in time. -/
theorem Tidy.stop_strays (exits : Nat → Bool) (hs : s.Tidy) :
    (s.stop exits).strays = [] ↔ s.Intact ∧ ∀ pid ∈ s.children, exits pid = false := by
  obtain ⟨hunreaped, hstrays⟩ := foldl_kill s.children { s with running := [] }
  have hnodup : (s.children.foldl kill { s with running := [] }).unreaped.Nodup := by
    rw [hunreaped]
    exact hs.nodup
  have hstop : (s.stop exits).strays = (s.children.foldl (shutdownChild exits)
      (s.children.foldl kill { s with running := [] })).strays := rfl
  rw [hstop, foldl_shutdownChild exits _ hnodup, hstrays, hunreaped]
  constructor
  · rintro ⟨⟨hclean, hmem⟩, hchildren, hall⟩
    refine ⟨⟨hclean, hs.length_le.antisymm ?_⟩, fun pid hpid => (hall pid hpid).2⟩
    exact (hchildren.subperm hmem).length_le
  · rintro ⟨⟨hclean, hlength⟩, hexits⟩
    have hperm := (hs.nodup.subperm hs.subset).perm_of_length_le hlength.ge
    have hmem : ∀ pid ∈ s.children, pid ∈ s.unreaped := fun pid hpid => hperm.mem_iff.2 hpid
    refine ⟨⟨hclean, hmem⟩, hperm.nodup_iff.1 hs.nodup, fun pid hpid => ?_⟩
    exact ⟨hmem pid hpid, hexits pid hpid⟩

end

end NodeProcs

/-- In a run of requests that ends in `Node::stop`, every signal is sent to a child that has not
been waited for exactly where no request ends a child, and no child exits within five seconds of
the `SIGTERM` of the shutdown. -/
theorem stop_strays_iff (nodeId : Nat) (requests : List NodeRequest) (exits : Nat → Bool) :
    ∀ s, requests.foldlM (NodeProcs.step nodeId) {} = some s →
      ((s.stop exits).strays = [] ↔
        EachStep (NodeProcs.step nodeId) NodeProcs.Calm requests {} ∧
          ∀ pid ∈ s.children, exits pid = false) := by
  intro s hrun
  have hinit : ({} : NodeProcs).Tidy :=
    ⟨List.nodup_nil, List.Subset.refl _, nofun, nofun⟩
  have htidy := invariant_last (fun _ _ _ hs hstep => (NodeProcs.Tidy.step hs hstep).1) hinit hrun
  have hintact := last_iff_eachStep (P := NodeProcs.Intact)
    (fun _ _ _ hs hstep => (NodeProcs.Tidy.step hs hstep).1)
    (fun _ _ _ hs hstep => (NodeProcs.Tidy.step hs hstep).2) hinit hrun
  have hclean : ({} : NodeProcs).Intact := ⟨rfl, rfl⟩
  rw [htidy.stop_strays exits, hintact]
  exact and_congr_left fun _ => and_iff_right hclean

/-- A worker that is started, and a shutdown that it does not notice. -/
theorem stop_strays_oneWorker :
    ∃ s, [NodeRequest.startWorker 0 4 47900 (.process 7 true) fun _ => true].foldlM
        (NodeProcs.step 1) {} = some s ∧ (s.stop fun _ => false).strays = [] := by
  refine ⟨_, rfl, (stop_strays_iff 1 [.startWorker 0 4 47900 (.process 7 true) fun _ => true]
    (fun _ => false) _ rfl).2 ⟨?_, fun _ _ => rfl⟩⟩
  rintro s ⟨⟩
  exact ⟨.inr (.inr (.inr nofun)), trivial⟩

/-- A worker that is started and exits on the `SIGTERM` of the shutdown is sent a `SIGKILL` after it
has been waited for. -/
theorem not_stop_strays_oneWorker :
    ¬ ∀ (requests : List NodeRequest) (s : NodeProcs) (exits : Nat → Bool),
      requests.foldlM (NodeProcs.step 1) {} = some s → (s.stop exits).strays = [] := by
  intro h
  have hstrays := h [.startWorker 0 4 47900 (.process 7 true) fun _ => true] _ (fun _ => true) rfl
  revert hstrays
  decide

end Terllama
