import Mathlib.Algebra.BigOperators.Group.Finset.Piecewise
import Mathlib.Algebra.Order.BigOperators.Group.Finset
import Terllama.Base.Runs
import Terllama.Distributed.Node

/-!
# The budget of running clusters

`handle_start_model` of `distributed/node.cpp` adds up the clusters of all nodes, one node after the
other, and records its own cluster long after that. In between other calls on any node go on
(`Network.step`). `totalRunning_le_of_eachStep` is what the check guarantees: the sum is still an
upper bound as long as no node that a start has counted records a cluster behind its back, and no
count gets lost on the way.
-/

namespace Terllama

/-- `kMaxRunningClusters`. -/
def kMaxRunningClusters : Nat := 3

/-- A `handle_start_model` in flight: the nodes that it has still to count, its own first, what it
has counted, and whether it has passed the check. -/
structure StartModel where
  nodeId : Nat
  model : Bytes
  toCount : List Nat
  totalRunning : Nat
  admitted : Bool
  deriving DecidableEq, Repr

/-- The nodes with the clusters that they have recorded, and the calls in flight. -/
structure Network where
  running : Nat → List RunningCluster := fun _ => []
  starts : Nat → Option StartModel := fun _ => none

/-- What a call on a node does next. Everything between the check and the record can fail. -/
inductive NetworkEvent where
  | start (call nodeId : Nat) (model : Bytes)
  | count (call : Nat) (answered : Bool)
  | check (call : Nat)
  | fail (call : Nat)
  | record (call clusterPort clusterPid : Nat) (workers : List WorkerInfo)
  | stop (nodeId clusterPort : Nat)
  deriving DecidableEq, Repr

/-- `peer_running_count`, and the count of the own clusters. A peer that does not answer counts for
nothing. -/
def Network.runningCount (s : Network) (c : StartModel) (nodeId : Nat) (answered : Bool) : Nat :=
  if nodeId = c.nodeId ∨ answered = true then (s.running nodeId).length else 0

/-- One step of a call, in a network of nodes that see each other. -/
def Network.step (ids : List Nat) (s : Network) : NetworkEvent → Option Network
  | .start call nodeId model =>
    if s.starts call = none ∧ nodeId ∈ ids then
      some { s with starts := Function.update s.starts call (some {
        nodeId, model, toCount := nodeId :: ids.filter (· ≠ nodeId), totalRunning := 0,
        admitted := false }) }
    else none
  | .count call answered =>
    match s.starts call with
    | none => none
    | some c =>
      match c.toCount with
      | [] => none
      | nodeId :: rest =>
        some { s with starts := Function.update s.starts call (some { c with
          toCount := rest
          totalRunning := c.totalRunning + s.runningCount c nodeId answered }) }
  | .check call =>
    match s.starts call with
    | none => none
    | some c =>
      if c.toCount ≠ [] ∨ c.admitted = true then none
      else if c.totalRunning ≥ kMaxRunningClusters then
        some { s with starts := Function.update s.starts call none }
      else
        some { s with starts := Function.update s.starts call (some { c with admitted := true }) }
  | .fail call =>
    match s.starts call with
    | none => none
    | some _ => some { s with starts := Function.update s.starts call none }
  | .record call clusterPort clusterPid workers =>
    match s.starts call with
    | none => none
    | some c =>
      if c.admitted = true then
        some {
          running := Function.update s.running c.nodeId
            (s.running c.nodeId ++ [{ model := c.model, clusterPort, clusterPid, workers }])
          starts := Function.update s.starts call none }
      else none
  | .stop nodeId clusterPort =>
    match takeCluster clusterPort (s.running nodeId) with
    | none => some s
    | some (_, rest) => some { s with running := Function.update s.running nodeId rest }

/-- The clusters recorded across the nodes. -/
def Network.totalRunning (ids : List Nat) (s : Network) : Nat :=
  ∑ n ∈ ids.toFinset, (s.running n).length

/-- A step that leaves the counts of the other calls upper bounds: an unanswered count is of a node
without clusters, and a cluster is recorded only where every other start has its node still to
count. -/
def Network.CountsHold (s : Network) : NetworkEvent → Prop
  | .count call answered => ∀ c nodeId rest, s.starts call = some c → c.toCount = nodeId :: rest →
      nodeId = c.nodeId ∨ answered = true ∨ s.running nodeId = []
  | .record call _ _ _ => ∀ c other c', s.starts call = some c → other ≠ call →
      s.starts other = some c' → c.nodeId ∈ c'.toCount
  | _ => True

/-- The clusters of the nodes that a start has counted. -/
def Network.counted (ids : List Nat) (s : Network) (c : StartModel) : Nat :=
  ∑ n ∈ ids.toFinset with n ∉ c.toCount, (s.running n).length

/-- What the steps that leave the counts upper bounds keep. -/
structure Network.Bounded (ids : List Nat) (s : Network) : Prop where
  total : s.totalRunning ids ≤ kMaxRunningClusters
  counted : ∀ call c, s.starts call = some c → s.counted ids c ≤ c.totalRunning
  admitted : ∀ call c, s.starts call = some c → c.admitted = true →
    c.toCount = [] ∧ c.totalRunning < kMaxRunningClusters

section
variable {ids : List Nat} {s s' : Network}

/-- The calls in flight after one of them has gone on or has ended. -/
theorem forall_starts_update {P : Nat → StartModel → Prop} {starts : Nat → Option StartModel}
    {call : Nat} {o : Option StartModel} (hcall : ∀ c, o = some c → P call c)
    (hother : ∀ k c, k ≠ call → starts k = some c → P k c) :
    ∀ k c, Function.update starts call o k = some c → P k c := by
  intro k c hk
  by_cases hkcall : k = call
  · subst hkcall
    rw [Function.update_self] at hk
    exact hcall c hk
  · rw [Function.update_of_ne hkcall] at hk
    exact hother k c hkcall hk

/-- A call goes on, or ends, and no cluster is recorded. -/
theorem Network.Bounded.update (h : s.Bounded ids) (call : Nat) {o : Option StartModel}
    (hcounted : ∀ c, o = some c → s.counted ids c ≤ c.totalRunning)
    (hadmitted : ∀ c, o = some c → c.admitted = true →
      c.toCount = [] ∧ c.totalRunning < kMaxRunningClusters) :
    ({ s with starts := Function.update s.starts call o } : Network).Bounded ids where
  total := h.total
  counted := forall_starts_update hcounted fun k c _ hk => h.counted k c hk
  admitted := forall_starts_update hadmitted fun k c _ hk => h.admitted k c hk

/-- Where no node has more clusters than before, none of the sums is greater. -/
theorem Network.counted_mono {running : Nat → List RunningCluster}
    (h : ∀ n, (running n).length ≤ (s.running n).length) (c : StartModel) :
    ({ s with running } : Network).counted ids c ≤ s.counted ids c :=
  Finset.sum_le_sum fun n _ => h n

/-- A start counts one more node. -/
theorem Network.counted_cons (s : Network) (c : StartModel) {nodeId : Nat} {rest : List Nat}
    (hcount : c.toCount = nodeId :: rest) (totalRunning : Nat) :
    s.counted ids { c with toCount := rest, totalRunning } ≤
      s.counted ids c + (s.running nodeId).length := by
  have hsub : ids.toFinset.filter (· ∉ rest) ⊆
      insert nodeId (ids.toFinset.filter (· ∉ c.toCount)) := by
    intro n hn
    rw [Finset.mem_filter] at hn
    rw [Finset.mem_insert, Finset.mem_filter, hcount, List.mem_cons, not_or]
    by_cases heq : n = nodeId
    · exact .inl heq
    · exact .inr ⟨hn.1, heq, hn.2⟩
  have hnot : nodeId ∉ ids.toFinset.filter (· ∉ c.toCount) := by
    rw [Finset.mem_filter, hcount]
    exact fun hn => hn.2 List.mem_cons_self
  calc s.counted ids { c with toCount := rest, totalRunning }
      ≤ ∑ n ∈ insert nodeId (ids.toFinset.filter (· ∉ c.toCount)), (s.running n).length :=
        Finset.sum_le_sum_of_subset hsub
    _ = (s.running nodeId).length + s.counted ids c := Finset.sum_insert hnot
    _ = s.counted ids c + (s.running nodeId).length := Nat.add_comm _ _

/-- A cluster more on one node. -/
theorem Network.totalRunning_record_le (s : Network) (nodeId : Nat) (rc : RunningCluster)
    (starts : Nat → Option StartModel) :
    ({ running := Function.update s.running nodeId (s.running nodeId ++ [rc]), starts } :
      Network).totalRunning ids ≤ s.totalRunning ids + 1 := by
  have hone : ∀ n, (Function.update s.running nodeId (s.running nodeId ++ [rc]) n).length =
      (s.running n).length + if n = nodeId then 1 else 0 := by
    intro n
    by_cases hn : n = nodeId
    · subst hn
      simp
    · rw [Function.update_of_ne hn, if_neg hn, Nat.add_zero]
  calc ∑ n ∈ ids.toFinset, (Function.update s.running nodeId (s.running nodeId ++ [rc]) n).length
      = s.totalRunning ids + ∑ n ∈ ids.toFinset, if n = nodeId then 1 else 0 := by
        simp only [hone, Finset.sum_add_distrib, totalRunning]
    _ ≤ s.totalRunning ids + 1 := by
        rw [Finset.sum_ite_eq']
        split <;> omega

/-- What a start has counted that has counted every node. -/
theorem Network.counted_eq_total (s : Network) {c : StartModel} (hcount : c.toCount = []) :
    s.counted ids c = s.totalRunning ids := by
  rw [counted, totalRunning, hcount, Finset.filter_true_of_mem fun _ _ => List.not_mem_nil]

/-- A cluster more on a node that a start has still to count. -/
theorem Network.counted_record (s : Network) {c : StartModel} {nodeId : Nat}
    (hmem : nodeId ∈ c.toCount) (running : List RunningCluster)
    (starts : Nat → Option StartModel) :
    ({ running := Function.update s.running nodeId running, starts } : Network).counted ids c =
      s.counted ids c := by
  refine Finset.sum_congr rfl fun n hn => ?_
  have hne : n ≠ nodeId := by
    rintro rfl
    exact (Finset.mem_filter.1 hn).2 hmem
  show (Function.update s.running nodeId running n).length = (s.running n).length
  rw [Function.update_of_ne hne]

/-- Steps that leave the counts upper bounds keep the bound. -/
theorem Network.Bounded.step {e : NetworkEvent} (h : s.Bounded ids) (hcounts : s.CountsHold e)
    (hstep : s.step ids e = some s') : s'.Bounded ids := by
  cases e with
  | start call nodeId model =>
    rw [Network.step] at hstep
    split at hstep
    · cases hstep
      refine h.update call ?_ ?_
      · rintro c ⟨⟩
        refine (Finset.sum_eq_zero fun n hn => ?_).le
        obtain ⟨hids, hnew⟩ := Finset.mem_filter.1 hn
        refine absurd ?_ hnew
        rw [List.mem_cons, List.mem_filter]
        by_cases heq : n = nodeId
        · exact .inl heq
        · exact .inr ⟨List.mem_toFinset.1 hids, decide_eq_true heq⟩
      · rintro c ⟨⟩
        exact nofun
    · cases hstep
  | count call answered =>
    rw [Network.step] at hstep
    split at hstep
    · cases hstep
    · next c hc =>
      split at hstep
      · cases hstep
      · next nodeId rest hcount =>
        cases hstep
        refine h.update call ?_ ?_
        · rintro c' ⟨⟩
          have hnode : (s.running nodeId).length ≤ s.runningCount c nodeId answered := by
            rw [runningCount]
            split
            · exact Nat.le_refl _
            · next hlost =>
              rw [not_or] at hlost
              rcases hcounts c nodeId rest hc hcount with hown | hanswered | hempty
              · exact absurd hown hlost.1
              · exact absurd hanswered hlost.2
              · rw [hempty]
                exact Nat.le_refl _
          calc s.counted ids { c with toCount := rest, totalRunning := _ }
              ≤ s.counted ids c + (s.running nodeId).length := s.counted_cons c hcount _
            _ ≤ c.totalRunning + s.runningCount c nodeId answered :=
              Nat.add_le_add (h.counted call c hc) hnode
        · rintro c' ⟨⟩ hadmitted
          have := (h.admitted call c hc hadmitted).1
          cases hcount.symm.trans this
  | check call =>
    rw [Network.step] at hstep
    split at hstep
    · cases hstep
    · next c hc =>
      split at hstep
      · cases hstep
      · next hready =>
        rw [not_or, not_not] at hready
        split at hstep
        · cases hstep
          exact h.update call nofun nofun
        · next hlt =>
          cases hstep
          refine h.update call ?_ ?_
          · rintro c' ⟨⟩
            exact h.counted call c hc
          · rintro c' ⟨⟩ -
            exact ⟨hready.1, not_le.1 hlt⟩
  | fail call =>
    rw [Network.step] at hstep
    split at hstep
    · cases hstep
    · cases hstep
      exact h.update call nofun nofun
  | record call clusterPort clusterPid workers =>
    rw [Network.step] at hstep
    split at hstep
    · cases hstep
    · next c hc =>
      split at hstep
      · next hadmitted =>
        cases hstep
        obtain ⟨hcount, hlt⟩ := h.admitted call c hc hadmitted
        have hbelow : s.totalRunning ids < kMaxRunningClusters := by
          rw [← s.counted_eq_total hcount]
          exact (h.counted call c hc).trans_lt hlt
        exact {
          total := (s.totalRunning_record_le _ _ _).trans hbelow
          counted := forall_starts_update nofun fun k c' hk hc' => by
            rw [s.counted_record (hcounts c k c' hc hk hc')]
            exact h.counted k c' hc'
          admitted := forall_starts_update nofun fun k c' _ hc' => h.admitted k c' hc' }
      · cases hstep
  | stop nodeId clusterPort =>
    rw [Network.step] at hstep
    split at hstep
    · cases hstep
      exact h
    · next rc rest hfound =>
      cases hstep
      have hless : ∀ n,
          (Function.update s.running nodeId rest n).length ≤ (s.running n).length := by
        intro n
        by_cases hn : n = nodeId
        · subst hn
          rw [Function.update_self, (takeCluster_perm hfound).length_eq]
          exact Nat.le_succ _
        · rw [Function.update_of_ne hn]
      exact {
        total := (Finset.sum_le_sum fun n _ => hless n).trans h.total
        counted := fun k c hk => (Network.counted_mono hless c).trans (h.counted k c hk)
        admitted := h.admitted }

end

/-- In every run in which no count is lost, and no start records a cluster on a node that another
start has counted, the clusters across the nodes stay within the budget. -/
theorem totalRunning_le_of_eachStep (ids : List Nat) (events : List NetworkEvent)
    (h : EachStep (Network.step ids) Network.CountsHold events {}) :
    Always (Network.step ids) (fun s => s.totalRunning ids ≤ kMaxRunningClusters) events {} := by
  have hinit : ({} : Network).Bounded ids := {
    total := (Finset.sum_eq_zero fun _ _ => rfl).trans_le (Nat.zero_le _)
    counted := nofun
    admitted := nofun }
  have hinv := always_of_eachStep
    (fun s e s' hs hcounts hstep => Network.Bounded.step hs hcounts hstep) hinit h
  exact hinv.mono fun s hs => hs.total

/-- A start begins and another records before it counts. -/
theorem totalRunning_le_twoStarts :
    Always (Network.step [1]) (fun s => s.totalRunning [1] ≤ kMaxRunningClusters)
      [.start 0 1 [], .count 0 true, .check 0, .start 1 1 [], .record 0 48000 7 [], .count 1 true]
      {} := by
  refine totalRunning_le_of_eachStep _ _ ?_
  rintro s₁ ⟨⟩
  refine ⟨trivial, ?_⟩
  rintro s₂ ⟨⟩
  refine ⟨fun _ _ _ _ _ => .inr (.inl rfl), ?_⟩
  rintro s₃ ⟨⟩
  refine ⟨trivial, ?_⟩
  rintro s₄ ⟨⟩
  refine ⟨trivial, ?_⟩
  rintro s₅ ⟨⟩
  refine ⟨?_, ?_⟩
  · intro c other c' hc hne hc'
    cases hc
    by_cases hother : other = 1
    · subst hother
      cases hc'
      exact List.mem_cons_self
    · simp [hne, hother] at hc'
  · rintro s₆ ⟨⟩
    exact ⟨fun _ _ _ _ _ => .inr (.inl rfl), trivial⟩

/-- Four starts on one node that count before any of them records. -/
theorem not_totalRunning_le_fourStarts :
    ¬ Always (Network.step [1]) (fun s => s.totalRunning [1] ≤ kMaxRunningClusters)
      [.start 0 1 [], .start 1 1 [], .start 2 1 [], .start 3 1 [],
        .count 0 true, .count 1 true, .count 2 true, .count 3 true,
        .check 0, .check 1, .check 2, .check 3,
        .record 0 48000 7 [], .record 1 48001 8 [], .record 2 48002 9 [], .record 3 48003 10 []]
      {} := by
  intro h
  have hlast := h.last rfl
  revert hlast
  decide

end Terllama
