import Terllama.Distributed.Coordinator

/-!
# What the workers of a cluster hold

`Coordinator::start` once more, with the workers as states: `Worker::load_model` replaces the shard
of a worker (`WorkerState.loadModel`), and `Worker::handle_health` reports the shard and its
directory (`WorkerState.health`). The coordinator adopts shards that line up without a look at their
directories. `start_serves_iff` says when all the workers that serve hold layers of one model.
-/

namespace Terllama

/-- A `Worker`: the shard that it has loaded, if any, and from which directory. -/
structure WorkerState where
  loaded : Option ShardSpec := none
  modelDir : Bytes := []
  ramAvailableBytes : Int := 0
  modelSizeBytes : Int := 0
  deriving DecidableEq, Repr

/-- `Worker::load_model`, once the shard has been read. -/
def WorkerState.loadModel (w : WorkerState) (lr : LoadRequest) : WorkerState :=
  { w with loaded := some lr.shard, modelDir := lr.modelPath }

/-- `Worker::handle_health`. -/
def WorkerState.health (w : WorkerState) : HealthInfo where
  ok := true
  modelLoaded := w.loaded.isSome
  modelDir := w.modelDir
  shard := w.loaded.getD {}
  ramAvailableBytes := w.ramAvailableBytes
  modelSizeBytes := w.modelSizeBytes

/-- The calls to workers in these states. A worker can fail to load a shard. -/
def callsTo (workers : List WorkerState) (loads : Nat → LoadRequest → Exec Unit) : WorkerCalls where
  getHealth i :=
    match workers[i]? with
    | some w => .ok w.health
    | none => raise ("worker " ++ toString i ++ " health request failed")
  postLoad := loads

/-- One pass of the loop that assigns the shards, with the workers. -/
def assignShardTo (loads : Nat → LoadRequest → Exec Unit) (modelPath : Bytes) (valid : Bool)
    (shards : List ShardSpec) (installed : List ShardSpec × List WorkerState) (i : Nat) :
    Exec (List ShardSpec × List WorkerState) := do
  let shard ← load shards i
  if valid then return (installed.1 ++ [shard], installed.2)
  else
    loads i { modelPath, shard }
    return (installed.1 ++ [shard], installed.2.modify i (·.loadModel { modelPath, shard }))

/-- `Coordinator::start`, steps 1 to 4, with the workers: the shards that it installs, and the
workers behind it. -/
def Coordinator.startOn (workers : List WorkerState) (loads : Nat → LoadRequest → Exec Unit)
    (modelPath : Bytes) (localModelSize : Int) (loadConfig : Exec ModelConfig) :
    Exec (List ShardSpec × List WorkerState) := do
  let reports ← (List.range workers.length).mapM (checkHealth (callsTo workers loads))
  let cfg ← loadConfig
  let shards ← choosePlan reports cfg.numHiddenLayers localModelSize
  (List.range workers.length).foldlM
    (assignShardTo loads modelPath (validPlan reports cfg.numHiddenLayers) shards) ([], workers)

/-- The reports of workers in these states. -/
def reportsOf (workers : List WorkerState) : List HealthInfo := workers.map WorkerState.health

theorem mapM_checkHealth (workers : List WorkerState) (loads : Nat → LoadRequest → Exec Unit) :
    (List.range workers.length).mapM (checkHealth (callsTo workers loads)) =
      .ok (reportsOf workers) := by
  have hcheck : ∀ i ∈ List.range workers.length, checkHealth (callsTo workers loads) i =
      .ok (workers.getD i {}).health := by
    intro i hi
    have hi' := List.mem_range.1 hi
    have hget : (callsTo workers loads).getHealth i = .ok (workers.getD i {}).health := by
      simp only [callsTo, List.getElem?_eq_getElem hi', List.getD_eq_getElem _ _ hi']
    rw [checkHealth, hget]
    rfl
  rw [mapM_ok hcheck]
  refine congrArg Except.ok (List.ext_getElem ?_ fun i h₁ h₂ => ?_)
  · rw [reportsOf, List.length_map, List.length_map, List.length_range]
  · have hi : i < workers.length := by rwa [reportsOf, List.length_map] at h₂
    simp only [reportsOf, List.getElem_map, List.getElem_range, List.getD_eq_getElem _ _ hi]

/-- The loop that assigns the shards, with the workers left out. -/
theorem assignShards_of_assignShardsTo {workers workers' : List WorkerState}
    {loads : Nat → LoadRequest → Exec Unit} {modelPath : Bytes} {valid : Bool}
    {shards installed plan : List ShardSpec} {is : List Nat} {workers₀ : List WorkerState}
    (h : is.foldlM (assignShardTo loads modelPath valid shards) (installed, workers₀) =
      .ok (plan, workers')) :
    is.foldlM (assignShard (callsTo workers loads) modelPath valid shards) installed =
      .ok plan := by
  induction is generalizing installed workers₀ with
  | nil =>
    cases h
    rfl
  | cons i is ih =>
    rw [List.foldlM_cons] at h ⊢
    obtain ⟨⟨installed₁, workers₁⟩, hstep, h⟩ := bind_eq_ok.1 h
    refine bind_eq_ok.2 ⟨installed₁, ?_, ih h⟩
    rw [assignShardTo] at hstep
    obtain ⟨shard, hshard, hstep⟩ := bind_eq_ok.1 hstep
    rw [assignShard, hshard, ok_bind]
    split at hstep
    · next hvalid =>
      cases hstep
      rw [if_pos hvalid]
      rfl
    · next hvalid =>
      obtain ⟨u, hload, hstep⟩ := bind_eq_ok.1 hstep
      cases hstep
      rw [if_neg hvalid]
      exact bind_eq_ok.2 ⟨u, hload, rfl⟩

/-- With the workers left out, it is `Coordinator.start`. -/
theorem start_of_startOn {workers workers' : List WorkerState}
    {loads : Nat → LoadRequest → Exec Unit} {modelPath : Bytes} {localModelSize : Int}
    {loadConfig : Exec ModelConfig} {plan : List ShardSpec}
    (h : Coordinator.startOn workers loads modelPath localModelSize loadConfig =
      .ok (plan, workers')) :
    Coordinator.start workers.length (callsTo workers loads) modelPath localModelSize loadConfig =
      .ok plan := by
  rw [Coordinator.startOn, mapM_checkHealth, ok_bind] at h
  rw [Coordinator.start, mapM_checkHealth, ok_bind]
  obtain ⟨cfg, hcfg, h⟩ := bind_eq_ok.1 h
  obtain ⟨shards, hshards, h⟩ := bind_eq_ok.1 h
  exact bind_eq_ok.2 ⟨cfg, hcfg, bind_eq_ok.2 ⟨shards, hshards, assignShards_of_assignShardsTo h⟩⟩

/-- The loop that assigns an adopted plan leaves the workers as they are, and one that sends a
computed plan has every worker load its shard. -/
theorem assignShardsTo_eq {workers workers' : List WorkerState}
    {loads : Nat → LoadRequest → Exec Unit} {modelPath : Bytes} {valid : Bool}
    {shards plan : List ShardSpec} {n : Nat}
    (hrun : (List.range n).foldlM (assignShardTo loads modelPath valid shards) ([], workers) =
      .ok (plan, workers')) :
    n ≤ shards.length ∧ plan = shards.take n ∧
      ∀ i : Nat, workers'[i]? = if valid = true ∨ n ≤ i then workers[i]? else
        workers[i]?.map fun w =>
          WorkerState.loadModel w { modelPath, shard := shards.getD i {} } := by
  have hend := foldlM_range_partial
    (I := fun n (st : List ShardSpec × List WorkerState) => n ≤ shards.length ∧
      st.1 = shards.take n ∧ ∀ i : Nat, st.2[i]? = if valid = true ∨ n ≤ i then workers[i]? else
        workers[i]?.map fun w => WorkerState.loadModel w { modelPath, shard := shards.getD i {} })
    ⟨Nat.zero_le _, rfl, fun i => (if_pos (.inr (Nat.zero_le i))).symm⟩ ?_ hrun
  · exact hend
  rintro i - ⟨installed, workers₁⟩ ⟨installed', workers₂⟩ ⟨hle, rfl, hworkers⟩ hstep
  rw [assignShardTo] at hstep
  obtain ⟨shard, hshard, hstep⟩ := bind_eq_ok.1 hstep
  have hget := getElem?_of_load hshard
  have hlt := (List.getElem?_eq_some_iff.1 hget).1
  have htake : shards.take i ++ [shard] = shards.take (i + 1) := by
    rw [List.take_add_one, hget, Option.toList_some]
  split at hstep
  · next hvalid =>
    cases hstep
    refine ⟨hlt, htake, fun j => ?_⟩
    rw [hworkers j, if_pos (.inl hvalid), if_pos (.inl hvalid)]
  · next hvalid =>
    obtain ⟨-, -, hstep⟩ := bind_eq_ok.1 hstep
    cases hstep
    refine ⟨hlt, htake, fun j => ?_⟩
    have hshard' : shards.getD i {} = shard := by rw [List.getD_eq_getElem?_getD, hget]; rfl
    rw [List.getElem?_modify, hworkers j]
    by_cases hj : i = j
    · subst hj
      rw [if_pos (.inr (Nat.le_refl _)), if_neg (by simp [hvalid]), hshard']
      simp
    · have hlt' : (valid = true ∨ i + 1 ≤ j) ↔ (valid = true ∨ i ≤ j) :=
        or_congr_right (by omega)
      simp only [hlt', hj, if_false, id_map']

/-- The workers hold the layers that the plan gives them, of the model at a path. -/
def Serves {M : Type} (modelAt : Bytes → M) (modelPath : Bytes) (plan : List ShardSpec)
    (workers : List WorkerState) : Prop :=
  ∀ (i : Nat) (w : WorkerState), workers[i]? = some w → modelAt w.modelDir = modelAt modelPath ∧
    ∃ held shard : ShardSpec,
      w.loaded = some held ∧ plan[i]? = some shard ∧ held.range = shard.range

/-- The workers of a start hold what the plan gives them, of the model of the coordinator, exactly
where the shards are not adopted or come from that model. -/
theorem start_serves_iff {M : Type} (modelAt : Bytes → M) {workers workers' : List WorkerState}
    {loads : Nat → LoadRequest → Exec Unit} {modelPath : Bytes} {localModelSize : Int}
    {cfg : ModelConfig} {plan : List ShardSpec}
    (hrun : Coordinator.startOn workers loads modelPath localModelSize (.ok cfg) =
      .ok (plan, workers')) :
    Serves modelAt modelPath plan workers' ↔
      (validPlan (reportsOf workers) cfg.numHiddenLayers = true →
        ∀ w ∈ workers, modelAt w.modelDir = modelAt modelPath) := by
  rw [Coordinator.startOn, mapM_checkHealth, ok_bind, ok_bind] at hrun
  obtain ⟨shards, hshards, hrun⟩ := bind_eq_ok.1 hrun
  obtain ⟨hlen, rfl, hworkers⟩ := assignShardsTo_eq hrun
  cases hvalid : validPlan (reportsOf workers) cfg.numHiddenLayers with
  | true =>
    rw [hvalid] at hworkers
    have hsame : workers' = workers := List.ext_getElem? fun i => by
      rw [hworkers i, if_pos (.inl rfl)]
    rw [choosePlan, if_pos hvalid] at hshards
    cases hshards
    rw [hsame, imp_iff_right rfl]
    constructor
    · intro hserves w hw
      obtain ⟨i, hi⟩ := List.mem_iff_getElem?.1 hw
      exact (hserves i w hi).1
    · intro hdirs i w hw
      have hmem := List.mem_of_getElem? hw
      have hpre : w.health.preloaded = true :=
        List.all_eq_true.1 (Bool.and_eq_true_iff.1 hvalid).1 w.health (List.mem_map_of_mem hmem)
      obtain ⟨held, hheld⟩ := Option.isSome_iff_exists.1 (Bool.and_eq_true_iff.1 hpre).1
      refine ⟨hdirs w hmem, held, held, hheld, ?_, rfl⟩
      have hlt := (List.getElem?_eq_some_iff.1 hw).1
      rw [List.getElem?_take_of_lt hlt, List.getElem?_map, reportsOf, List.getElem?_map, hw]
      simp only [Option.map_some, WorkerState.health, hheld, Option.getD_some]
  | false =>
    rw [hvalid] at hworkers
    refine iff_of_true (fun i w hw => ?_) fun h => absurd h Bool.false_ne_true
    have hlt : i < workers.length := by
      by_contra hge
      rw [hworkers i, if_pos (.inr (not_lt.1 hge)), List.getElem?_eq_none (not_lt.1 hge)] at hw
      cases hw
    rw [hworkers i, if_neg (by simp [hlt]), List.getElem?_eq_getElem hlt, Option.map_some] at hw
    cases hw
    refine ⟨rfl, _, _, rfl, ?_, rfl⟩
    rw [List.getElem?_take_of_lt hlt, List.getD_eq_getElem _ _ (hlt.trans_le hlen),
      List.getElem?_eq_getElem (hlt.trans_le hlen)]

/-- A worker with the two layers of a model. -/
def loadedWorker (modelDir : Bytes) : WorkerState where
  loaded := some { startLayer := 0, endLayer := 2, nLayers := 2, isFirst := true, isLast := true }
  modelDir := modelDir

/-- A worker that has loaded the model of the coordinator is adopted and serves. -/
theorem serves_loadedWorker :
    ∃ plan workers', Coordinator.startOn [loadedWorker (str "/models/a")]
        (fun _ _ => raise "no load request is sent") (str "/models/a") 0
        (.ok { (default : ModelConfig) with numHiddenLayers := 2 }) = .ok (plan, workers') ∧
      Serves id (str "/models/a") plan workers' := by
  have hrun : Coordinator.startOn [loadedWorker (str "/models/a")]
      (fun _ _ => raise "no load request is sent") (str "/models/a") 0
      (.ok { (default : ModelConfig) with numHiddenLayers := 2 }) = .ok (_, _) := rfl
  refine ⟨_, _, hrun, (start_serves_iff id hrun).2 ?_⟩
  intro _ w hw
  rw [List.mem_singleton.1 hw]
  rfl

/-- A worker that has loaded another model with as many layers is adopted, too. -/
theorem not_serves_loadedWorker :
    ∃ plan workers', Coordinator.startOn [loadedWorker (str "/models/b")]
        (fun _ _ => raise "no load request is sent") (str "/models/a") 0
        (.ok { (default : ModelConfig) with numHiddenLayers := 2 }) = .ok (plan, workers') ∧
      ¬ Serves id (str "/models/a") plan workers' := by
  refine ⟨_, _, rfl, fun h => ?_⟩
  have hdir := (h 0 (loadedWorker (str "/models/b")) rfl).1
  revert hdir
  decide

end Terllama
