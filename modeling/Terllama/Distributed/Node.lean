import Terllama.Base.Bytes

/-!
# The records of a node

What the node daemon of `distributed/node.h` keeps of the clusters that it leads. The names and
hosts in the records are only shown and dialled, and are left out.
-/

namespace Terllama

/-- `WorkerInfo`: a worker of a cluster, with its node and its layers. -/
structure WorkerInfo where
  nodeId : Nat
  port : Nat
  start : Int
  stop : Int
  deriving DecidableEq, Repr

/-- `RunningCluster`. -/
structure RunningCluster where
  model : Bytes
  clusterPort : Nat
  clusterPid : Nat
  workers : List WorkerInfo
  deriving DecidableEq, Repr

/-- The search of `handle_stop_model`: the first cluster on a port, taken out of the list. -/
def takeCluster (port : Nat) : List RunningCluster → Option (RunningCluster × List RunningCluster)
  | [] => none
  | rc :: running =>
    if rc.clusterPort = port then some (rc, running)
    else (takeCluster port running).map fun found => (found.1, rc :: found.2)

theorem takeCluster_perm {port : Nat} {running rest : List RunningCluster} {rc : RunningCluster}
    (h : takeCluster port running = some (rc, rest)) : running.Perm (rc :: rest) := by
  induction running generalizing rest with
  | nil => cases h
  | cons rc' running ih =>
    rw [takeCluster] at h
    split at h
    · cases h
      exact List.Perm.refl _
    · obtain ⟨⟨rc₁, rest₁⟩, hfound, hpair⟩ := Option.map_eq_some_iff.1 h
      cases hpair
      exact ((ih hfound).cons rc').trans (List.Perm.swap rc₁ rc' rest₁)

end Terllama
