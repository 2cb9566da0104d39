import Terllama.Model
import Terllama.Distributed.Partitioner

/-!
# The coordinator

`Coordinator::start` of `distributed/coordinator.cpp` up to the point where every worker has its
shard: it reads the health of the workers, adopts the shards they already hold if these line up with
the model, and otherwise computes a plan and sends it to them. The answers of the workers and the
configuration on disk are parameters.

Whichever way the plan comes about, the shards it installs cover the layers (`start_covers`).
-/

namespace Terllama

/-- The calls of the coordinator to its workers, by the index of the worker. -/
structure WorkerCalls where
  getHealth : Nat → Exec HealthInfo
  postLoad : Nat → LoadRequest → Exec Unit

/-- The health of one worker; an unhealthy one ends the start. -/
def checkHealth (workers : WorkerCalls) (i : Nat) : Exec HealthInfo := do
  let h ← workers.getHealth i
  if !h.ok then
    raise ("worker " ++ toString i ++ " unhealthy: " ++ h.error)
  else
    return h

/-- The worker reports a shard with at least one layer. -/
def HealthInfo.preloaded (h : HealthInfo) : Bool :=
  h.modelLoaded && !(h.shard.endLayer ≤ h.shard.startLayer)

/-- The loop that follows the pre-loaded shards: whether each starts where the one before it ends,
and where the last one it looked at ends. -/
def followPlan : Int → List ShardSpec → Bool × Int
  | expect, [] => (true, expect)
  | expect, s :: pre => if s.startLayer ≠ expect then (false, expect) else followPlan s.endLayer pre

/-- The pre-loaded shards are a plan for the model. -/
def validPlan (reports : List HealthInfo) (numHiddenLayers : Int) : Bool :=
  reports.all HealthInfo.preloaded &&
    (let (follows, expect) := followPlan 0 (reports.map HealthInfo.shard)
     follows && expect == numHiddenLayers)

/-- The shards for the workers: those they report if these are a plan, else computed ones. -/
def choosePlan (reports : List HealthInfo) (numHiddenLayers localModelSize : Int) :
    Exec (List ShardSpec) :=
  if validPlan reports numHiddenLayers then .ok (reports.map HealthInfo.shard)
  else
    let rams := reports.map fun h =>
      if h.ramAvailableBytes ≤ 0 then localModelSize else h.ramAvailableBytes
    computeShards numHiddenLayers (toInt32 reports.length) rams localModelSize

/-- One pass of the loop that assigns the shards: a worker keeps an adopted shard and is sent a
computed one. -/
def assignShard (workers : WorkerCalls) (modelPath : Bytes) (valid : Bool)
    (shards installed : List ShardSpec) (i : Nat) : Exec (List ShardSpec) := do
  let shard ← load shards i
  if valid then return installed ++ [shard]
  else
    workers.postLoad i { modelPath, shard }
    return installed ++ [shard]

/-- `Coordinator::start`, steps 1 to 4: the shards it installs, one for each worker. -/
def Coordinator.start (n : Nat) (workers : WorkerCalls) (modelPath : Bytes) (localModelSize : Int)
    (loadConfig : Exec ModelConfig) : Exec (List ShardSpec) := do
  let reports ← (List.range n).mapM (checkHealth workers)
  let cfg ← loadConfig
  let shards ← choosePlan reports cfg.numHiddenLayers localModelSize
  (List.range n).foldlM
    (assignShard workers modelPath (validPlan reports cfg.numHiddenLayers) shards) []

/-! ## The installed plan -/

/-- Shards that the loop follows to the end are consecutive. -/
theorem consecutive_of_followPlan {expect stop : Int} {pre : List ShardSpec}
    (hne : ∀ s ∈ pre, s.startLayer < s.endLayer) (h : followPlan expect pre = (true, stop)) :
    Consecutive expect stop (pre.map ShardSpec.range) := by
  induction pre generalizing expect with
  | nil =>
    cases h
    rfl
  | cons s pre ih =>
    rw [followPlan] at h
    split at h
    · cases h
    · rename_i hstart
      exact ⟨not_ne_iff.1 hstart, (hne s (by simp)).le,
        ih (fun s hs => hne s (List.mem_cons_of_mem _ hs)) h⟩

/-- Pre-loaded shards that pass the check of `start` cover the layers of the model. -/
theorem covers_of_validPlan {reports : List HealthInfo} {nLayers : Int}
    (h : validPlan reports nLayers = true) : Covers nLayers (reports.map HealthInfo.shard) := by
  obtain ⟨hall, hfollow⟩ := Bool.and_eq_true_iff.1 h
  have hne : ∀ s ∈ reports.map HealthInfo.shard, s.startLayer < s.endLayer := by
    intro s hs
    obtain ⟨report, hreport, rfl⟩ := List.mem_map.1 hs
    have hpre := List.all_eq_true.1 hall report hreport
    obtain ⟨-, hlt⟩ := Bool.and_eq_true_iff.1 hpre
    simpa using hlt
  cases hend : followPlan 0 (reports.map HealthInfo.shard) with
  | mk follows stop =>
    rw [hend] at hfollow
    obtain ⟨hfollows, hstop⟩ := Bool.and_eq_true_iff.1 hfollow
    obtain rfl : follows = true := hfollows
    obtain rfl : stop = nLayers := beq_iff_eq.1 hstop
    exact ⟨hne, consecutive_of_followPlan hne hend⟩

/-- The last loop of `start` installs the shards of the plan. -/
theorem assignShards_eq {n : Nat} {workers : WorkerCalls} {modelPath : Bytes} {valid : Bool}
    {shards plan : List ShardSpec} (hlen : shards.length = n)
    (hrun : (List.range n).foldlM (assignShard workers modelPath valid shards) [] = .ok plan) :
    plan = shards := by
  have hend := foldlM_range_partial (I := fun i installed => installed = shards.take i) rfl ?_ hrun
  · rw [hend, List.take_of_length_le hlen.le]
  rintro i hi _ installed' rfl hstep
  have hi' : i < shards.length := hlen.symm ▸ hi
  rw [assignShard, load_eq (List.getElem?_eq_getElem hi'), ok_bind] at hstep
  rw [List.take_add_one, List.getElem?_eq_getElem hi', Option.toList_some]
  split at hstep
  · cases hstep
    rfl
  · obtain ⟨-, -, hstep⟩ := bind_eq_ok.1 hstep
    cases hstep
    rfl

/-- A plan that `start` chooses covers the layers of the model. It is a computed one, or the one that
the workers report. -/
theorem choosePlan_covers {reports : List HealthInfo} {nLayers localModelSize : Int}
    {plan : List ShardSpec} (hsize : 0 ≤ localModelSize) (hmax : nLayers ≤ 2147483647)
    (hrun : choosePlan reports nLayers localModelSize = .ok plan) :
    plan.length = reports.length ∧ Covers nLayers plan ∧
      ((∀ s ∈ plan, s.FlagsOf nLayers) ∨ plan = reports.map HealthInfo.shard) := by
  rw [choosePlan] at hrun
  split at hrun
  · rename_i hvalid
    cases hrun
    exact ⟨List.length_map _, covers_of_validPlan hvalid, .inr rfl⟩
  · have hrams : ∀ b ∈ reports.map fun h =>
        if h.ramAvailableBytes ≤ 0 then localModelSize else h.ramAvailableBytes, 0 ≤ b := by
      intro b hb
      obtain ⟨report, -, rfl⟩ := List.mem_map.1 hb
      split
      · exact hsize
      · omega
    obtain ⟨-, hlen, hcovers, hflags, -⟩ := computeShards_covers hrams hmax hrun
    exact ⟨by rw [← hlen, List.length_map], hcovers, .inl hflags⟩

/-- The plan that `start` installs covers the layers of its model. It is a computed one, or the one
that the workers report. -/
theorem start_covers {n : Nat} {workers : WorkerCalls} {modelPath : Bytes} {localModelSize : Int}
    {cfg : ModelConfig} {plan : List ShardSpec} (hsize : 0 ≤ localModelSize)
    (hmax : cfg.numHiddenLayers ≤ 2147483647)
    (hrun : Coordinator.start n workers modelPath localModelSize (.ok cfg) = .ok plan) :
    plan.length = n ∧ Covers cfg.numHiddenLayers plan ∧
      ((∀ s ∈ plan, s.FlagsOf cfg.numHiddenLayers) ∨
        ∀ s ∈ plan, ∃ i < n, ∃ h, workers.getHealth i = .ok h ∧ h.shard = s) := by
  rw [Coordinator.start] at hrun
  obtain ⟨reports, hreports, hrun⟩ := bind_eq_ok.1 hrun
  have hreports := forall₂_of_mapM_ok hreports
  have hlen : reports.length = n := by rw [← hreports.length_eq, List.length_range]
  rw [ok_bind] at hrun
  obtain ⟨shards, hshards, hrun⟩ := bind_eq_ok.1 hrun
  obtain ⟨hplan, hcovers, hflags⟩ := choosePlan_covers hsize hmax hshards
  obtain rfl := assignShards_eq (hplan.trans hlen) hrun
  refine ⟨hplan.trans hlen, hcovers, hflags.imp_right fun hadopted s hs => ?_⟩
  obtain ⟨report, hreport, rfl⟩ := List.mem_map.1 (hadopted ▸ hs)
  obtain ⟨i, hi, hcheck⟩ := exists_mem_of_forall₂ hreports.flip hreport
  obtain ⟨h, hh, hcheck⟩ := bind_eq_ok.1 hcheck
  split at hcheck
  · cases hcheck
  · cases hcheck
    exact ⟨i, List.mem_range.1 hi, report, hh, rfl⟩

/-- Partitioning. For at least one node, at least as many layers and any RAM, the allocation inside
`compute_shards` returns positive counts that add up to the layers. Shards that `compute_shards`
returns, and those that `start` installs, hold every layer in exactly one shard; their first and
last flags are those of the ranks, for adopted shards if they are those of the ranges. -/
theorem partition_covers :
    (∀ (nLayers worldSize : Int) (rams : List Int), 1 ≤ worldSize → worldSize ≤ nLayers →
      nLayers ≤ 2147483647 → (rams.length : Int) = worldSize → (∀ b ∈ rams, 0 ≤ b) →
      ∃ counts, allocateLayersProportionally nLayers (ramFractions worldSize rams) = .ok counts ∧
        (counts.length : Int) = worldSize ∧ (∀ c ∈ counts, 1 ≤ c) ∧ counts.sum = nLayers) ∧
    (∀ (nLayers worldSize modelSize : Int) (rams : List Int) (plan : List ShardSpec),
      nLayers ≤ 2147483647 → (∀ b ∈ rams, 0 ≤ b) →
      computeShards nLayers worldSize rams modelSize = .ok plan →
      (plan.length : Int) = worldSize ∧
        (∀ (i : Nat) (s : ShardSpec), plan[i]? = some s → s.deviceRank = i) ∧
        Covers nLayers plan ∧ FlagsByRank plan ∧
        ∀ k, plan.countP (fun s => InRange k s.range) = if 0 ≤ k ∧ k < nLayers then 1 else 0) ∧
    ∀ (n : Nat) (workers : WorkerCalls) (modelPath : Bytes) (localModelSize : Int)
      (cfg : ModelConfig) (plan : List ShardSpec), 0 ≤ localModelSize →
      cfg.numHiddenLayers ≤ 2147483647 →
      Coordinator.start n workers modelPath localModelSize (.ok cfg) = .ok plan →
      plan.length = n ∧ Covers cfg.numHiddenLayers plan ∧
        (∀ k, plan.countP (fun s => InRange k s.range) =
          if 0 ≤ k ∧ k < cfg.numHiddenLayers then 1 else 0) ∧
        ((∀ i < n, ∀ h, workers.getHealth i = .ok h → h.shard.FlagsOf cfg.numHiddenLayers) →
          FlagsByRank plan) := by
  refine ⟨?_, ?_, ?_⟩
  · intro nLayers worldSize rams hw hle hmax hlen hrams
    obtain ⟨hshares, hfrac⟩ := ramFractions_shares hw hlen hrams
    obtain ⟨counts, hrun, hcounts, hone⟩ := allocateLayersProportionally_ok hshares
      (hfrac.le.trans hle) hmax
    refine ⟨counts, hrun, by rw [hcounts.length_eq, hfrac], fun c hc => ?_, hcounts.sum_eq⟩
    obtain ⟨j, hj, rfl⟩ := List.getElem_of_mem hc
    rw [← List.getD_eq_getElem _ 0 hj]
    exact hone j (hcounts.length_eq ▸ hj)
  · intro nLayers worldSize modelSize rams plan hmax hrams hrun
    obtain ⟨hlen, -, hcovers, hflags, hranks⟩ := computeShards_covers hrams hmax hrun
    exact ⟨hlen, hranks, hcovers, hcovers.flagsByRank hflags, hcovers.countP_eq⟩
  · intro n workers modelPath localModelSize cfg plan hsize hmax hrun
    obtain ⟨hlen, hcovers, hflags⟩ := start_covers hsize hmax hrun
    refine ⟨hlen, hcovers, hcovers.countP_eq, fun hreports => hcovers.flagsByRank ?_⟩
    rcases hflags with hflags | hadopted
    · exact hflags
    · intro s hs
      obtain ⟨i, hi, h, hh, rfl⟩ := hadopted s hs
      exact hreports i hi h hh

/-- Two workers that hold the halves of a model of four layers. -/
def halfWorkers : WorkerCalls where
  getHealth i := .ok {
    ok := true, modelLoaded := true
    shard := {
      deviceRank := i, worldSize := 2, startLayer := 2 * i, endLayer := 2 * i + 2, nLayers := 4
      isFirst := (2 * i : Int) == 0, isLast := (2 * i + 2 : Int) == 4 } }
  postLoad _ _ := raise "no load request is sent"

/-- Three nodes of which one has no RAM, and a plan that is adopted. -/
theorem partition_covers_small :
    (∃ counts, allocateLayersProportionally 4 (ramFractions 3 [0, 5, 1000]) = .ok counts ∧
      (counts.length : Int) = 3 ∧ (∀ c ∈ counts, 1 ≤ c) ∧ counts.sum = 4) ∧
    ∃ plan, Coordinator.start 2 halfWorkers [] 0 (.ok { (default : ModelConfig) with
      numHiddenLayers := 4 }) = .ok plan ∧ FlagsByRank plan := by
  obtain ⟨hallocate, -, hstart⟩ := partition_covers
  refine ⟨hallocate 4 3 [0, 5, 1000] (by decide) (by decide) (by decide) (by decide) (by decide),
    (List.range 2).map fun i => ⟨i, 2, 2 * i, 2 * i + 2, 4, (2 * i : Int) == 0,
      (2 * i + 2 : Int) == 4⟩, rfl, ?_⟩
  refine (hstart 2 halfWorkers [] 0 { (default : ModelConfig) with numHiddenLayers := 4 } _ le_rfl
    (by decide) rfl).2.2.2 ?_
  intro i _ h hh
  cases hh
  exact ⟨rfl, rfl⟩

end Terllama
