import Mathlib.Data.List.AList
import Mathlib.Data.Fintype.Pigeonhole
import Terllama.Base.SlidingWindow
import Terllama.Model

/-!
# The rate limiter

`RateShard` and `rate_limit_allow` of `src/server/handlers.cpp`. A request is a remote address with
the time at which it takes its lock, in nanoseconds. The hash of the addresses is arbitrary.

`rate_limit_window`: the limiter is a sliding window, whatever the shards and their evictions.
`shard_bounded_iff`: an eviction looks for empty queues, and there are none, so that the map of a shard
has every address that it has seen.
-/

namespace Terllama

/-! ## The limiter -/

/-- `kRateLimitMax`. -/
def rateLimitMax : Nat := 20

/-- `kRateLimitWindow`, in nanoseconds. -/
def rateLimitWindow : Int := 60000000000

/-- `kRateLimitShards`. -/
def rateLimitShards : Nat := 16

/-- `kRateLimitShardCap`. -/
def rateLimitShardCap : Nat := 4096

/-- `RateShard`. -/
structure RateShard where
  history : AList fun _ : Bytes => List Int

/-- The queue of an address, which `operator[]` creates. -/
def RateShard.queue (shard : RateShard) (ip : Bytes) : List Int :=
  (shard.history.lookup ip).getD []

/-- The loop that pops the front of a queue. -/
def expireQueue (now : Int) (queue : List Int) : List Int :=
  queue.dropWhile fun front => now - front > rateLimitWindow

/-- The loop over the map that erases the addresses with an empty queue. -/
def RateShard.evict (shard : RateShard) : RateShard :=
  ⟨⟨shard.history.entries.filter fun e => !e.2.isEmpty,
    shard.history.nodupKeys.sublist List.filter_sublist⟩⟩

/-- `rate_limit_allow` behind the lock of its shard. -/
def RateShard.allow (shard : RateShard) (ip : Bytes) (now : Int) : Bool × RateShard :=
  let queue := expireQueue now (shard.queue ip)
  if rateLimitMax ≤ queue.length then (false, ⟨shard.history.insert ip queue⟩)
  else
    let shard : RateShard := ⟨shard.history.insert ip (queue ++ [now])⟩
    if rateLimitShardCap < shard.history.entries.length then (true, shard.evict) else (true, shard)

/-- A request: `remote_addr` and the time. -/
abbrev RateRequest := Bytes × Int

/-- `g_rl_shards`. -/
abbrev RateShards := Fin rateLimitShards → RateShard

/-- The shard of an address. -/
def shardOf (hash : Bytes → Nat) (ip : Bytes) : Fin rateLimitShards :=
  ⟨hash ip % rateLimitShards, Nat.mod_lt _ (by decide)⟩

/-- `rate_limit_allow`. -/
def rateLimitAllow (hash : Bytes → Nat) (shards : RateShards) (r : RateRequest) :
    Bool × RateShards :=
  let i := shardOf hash r.1
  let (allowed, shard) := (shards i).allow r.1 r.2
  (allowed, Function.update shards i shard)

/-- The requests of a trace that were accepted, and the shards at its end. -/
def rateRun (hash : Bytes → Nat) (trace : List RateRequest) : List RateRequest × RateShards :=
  trace.foldl (fun p r =>
    let (allowed, shards) := rateLimitAllow hash p.2 r
    (if allowed then p.1 ++ [r] else p.1, shards)) ([], fun _ => ⟨∅⟩)

/-! ## One call -/

section
variable (shard : RateShard) (ip : Bytes) (now : Int)

theorem RateShard.queue_insert (queue : List Int) (ip' : Bytes) :
    RateShard.queue ⟨shard.history.insert ip queue⟩ ip' =
      if ip' = ip then queue else shard.queue ip' := by
  unfold RateShard.queue
  split
  · rename_i h
    rw [h, AList.lookup_insert]
    rfl
  · rename_i h
    rw [AList.lookup_insert_ne h]

/-- An address that is erased had an empty queue. -/
theorem RateShard.queue_evict (ip' : Bytes) : shard.evict.queue ip' = shard.queue ip' := by
  have hmem : ∀ queue, queue ∈ shard.evict.history.lookup ip' ↔
      queue ∈ shard.history.lookup ip' ∧ queue ≠ [] := by
    intro queue
    rw [AList.mem_lookup_iff, AList.mem_lookup_iff, RateShard.evict, List.mem_filter,
      Bool.not_eq_true', List.isEmpty_eq_false_iff]
  unfold RateShard.queue
  cases hevict : shard.evict.history.lookup ip' with
  | some queue =>
    rw [Option.mem_def.1 ((hmem queue).1 hevict).1]
  | none =>
    cases hshard : shard.history.lookup ip' with
    | none => rfl
    | some queue =>
      by_contra hne
      have hlost := (hmem queue).2 ⟨hshard, fun hnil => hne hnil.symm⟩
      rw [hevict] at hlost
      cases hlost

theorem RateShard.allow_fst : (shard.allow ip now).1 =
    decide ((expireQueue now (shard.queue ip)).length < rateLimitMax) := by
  unfold RateShard.allow
  dsimp only
  split
  · rename_i h
    exact (decide_eq_false (not_lt.2 h)).symm
  · rename_i h
    split <;> exact (decide_eq_true (not_le.1 h)).symm

/-- The queues after a call. -/
theorem RateShard.allow_queue (ip' : Bytes) : (shard.allow ip now).2.queue ip' =
    if ip' = ip then
      if (shard.allow ip now).1 then expireQueue now (shard.queue ip) ++ [now]
      else expireQueue now (shard.queue ip)
    else shard.queue ip' := by
  rw [shard.allow_fst]
  unfold RateShard.allow
  dsimp only
  split
  · rename_i h
    rw [decide_eq_false (not_lt.2 h), RateShard.queue_insert, if_neg Bool.false_ne_true]
  · rename_i h
    rw [decide_eq_true (not_le.1 h), if_pos rfl]
    split
    · rw [RateShard.queue_evict, RateShard.queue_insert]
    · rw [RateShard.queue_insert]

end

section
variable (hash : Bytes → Nat) (shards : RateShards) (r : RateRequest)

theorem rateLimitAllow_fst :
    (rateLimitAllow hash shards r).1 = ((shards (shardOf hash r.1)).allow r.1 r.2).1 := rfl

/-- The queues of all addresses after a call. -/
theorem rateLimitAllow_queue (ip : Bytes) :
    ((rateLimitAllow hash shards r).2 (shardOf hash ip)).queue ip =
      if ip = r.1 then
        if (rateLimitAllow hash shards r).1 then
          expireQueue r.2 ((shards (shardOf hash r.1)).queue r.1) ++ [r.2]
        else expireQueue r.2 ((shards (shardOf hash r.1)).queue r.1)
      else (shards (shardOf hash ip)).queue ip := by
  rw [rateLimitAllow_fst, rateLimitAllow]
  dsimp only
  rcases eq_or_ne (shardOf hash ip) (shardOf hash r.1) with h | h
  · rw [h, Function.update_self, RateShard.allow_queue]
  · rw [Function.update_of_ne h, if_neg]
    rintro rfl
    exact h rfl

theorem rateRun_concat (trace : List RateRequest) : rateRun hash (trace ++ [r]) =
    (if (rateLimitAllow hash (rateRun hash trace).2 r).1 then (rateRun hash trace).1 ++ [r]
      else (rateRun hash trace).1, (rateLimitAllow hash (rateRun hash trace).2 r).2) := by
  rw [rateRun, List.foldl_append]
  rfl

end

/-! ## The sliding window -/

/-- The start of the window that ends at a time. -/
def windowStart (now : Int) : Int := now - rateLimitWindow

theorem expireQueue_eq (now : Int) (queue : List Int) :
    expireQueue now queue = queue.dropWhile (· < windowStart now) := by
  have hcond : (fun front => decide (now - front > rateLimitWindow)) =
      fun front => decide (front < windowStart now) := by
    funext front
    rw [windowStart, decide_eq_decide]
    omega
  rw [expireQueue, hcond]

/-- What a sliding window admits of a trace of requests. -/
abbrev admittedRequests (trace : List RateRequest) : List RateRequest :=
  admitted rateLimitMax windowStart trace

section
variable {hash : Bytes → Nat} {trace : List RateRequest}

/-- The queues hold the windows of what was accepted, at every time from the last request on, and what
was accepted is what a sliding window admits. -/
theorem rateRun_spec (hmono : trace.Pairwise fun a b => a.2 ≤ b.2) :
    (rateRun hash trace).1 = admittedRequests trace ∧
      ∀ lo, (∀ r ∈ trace, windowStart r.2 ≤ lo) → ∀ ip,
        HoldsWindow lo (timesOf ip (admittedRequests trace))
          (((rateRun hash trace).2 (shardOf hash ip)).queue ip) := by
  induction trace using List.reverseRecOn with
  | nil => exact ⟨rfl, fun lo _ ip => holdsWindow_nil lo⟩
  | append_singleton trace r ih =>
    obtain ⟨hbefore, -, hlast⟩ := List.pairwise_append.1 hmono
    obtain ⟨hlog, hqueues⟩ := ih hbefore
    have hlater : ∀ a ∈ trace, a.2 ≤ r.2 := fun a ha => hlast a ha r (List.mem_singleton_self r)
    have hold := hqueues (windowStart r.2) fun a ha => sub_le_sub_right (hlater a ha) _
    have hallow : (rateLimitAllow hash (rateRun hash trace).2 r).1 =
        decide (Admits rateLimitMax windowStart (admittedRequests trace) r) := by
      rw [rateLimitAllow_fst, RateShard.allow_fst, expireQueue_eq, (hold r.1).length_expire]
      rfl
    have hadmitted : admittedRequests (trace ++ [r]) =
        if Admits rateLimitMax windowStart (admittedRequests trace) r then
          admittedRequests trace ++ [r] else admittedRequests trace := admitted_concat trace r
    refine ⟨?_, fun lo hlo ip => HoldsWindow.mono ?_
      (hlo r (List.mem_append_right _ (List.mem_singleton_self r)))⟩
    · rw [rateRun_concat, hallow, hlog, hadmitted]
      simp only [decide_eq_true_eq]
    rw [rateRun_concat, rateLimitAllow_queue, hallow, hadmitted]
    simp only [decide_eq_true_eq]
    rcases eq_or_ne ip r.1 with hip | hip
    · have hexpire := (hold r.1).expire
      rw [if_pos hip, hip, expireQueue_eq]
      split
      · rw [timesOf_concat, if_pos rfl]
        refine hexpire.push fun t ht => ?_
        obtain ⟨a, ha, rfl⟩ := List.mem_map.1 ht
        exact hlater a (admitted_subset trace (List.mem_of_mem_filter ha))
      · exact hexpire
    · rw [if_neg hip]
      split
      · rw [timesOf_concat, if_neg hip]
        exact hold ip
      · exact hold ip

/-- The times of the requests up to one of them. -/
theorem pairwise_upTo {R : RateRequest → RateRequest → Prop} {before after : List RateRequest}
    {r : RateRequest} (h : (before ++ r :: after).Pairwise R) : (before ++ [r]).Pairwise R :=
  h.sublist ((List.singleton_sublist.2 List.mem_cons_self).append_left before)

/-- A request is accepted exactly if fewer than `kRateLimitMax` requests of its address were accepted
in the window before it, and what is accepted of an address is what is accepted of its requests
alone. -/
theorem rate_limit_window (hmono : trace.Pairwise fun a b => a.2 ≤ b.2) :
    (∀ before r after, trace = before ++ r :: after →
      ((rateLimitAllow hash (rateRun hash before).2 r).1 = true ↔
        ((rateRun hash before).1.filter fun a =>
          a.1 = r.1 ∧ r.2 - a.2 ≤ rateLimitWindow).length < rateLimitMax)) ∧
      ∀ ip, (rateRun hash trace).1.filter (fun a => a.1 = ip) =
        (rateRun hash (trace.filter fun a => a.1 = ip)).1 := by
  refine ⟨?_, fun ip => ?_⟩
  · rintro before r after rfl
    obtain ⟨hbefore, -, hlast⟩ := List.pairwise_append.1 (pairwise_upTo hmono)
    obtain ⟨hlog, hqueues⟩ := @rateRun_spec hash before hbefore
    have hold := hqueues (windowStart r.2) (fun a ha =>
      sub_le_sub_right (hlast a ha r (List.mem_singleton_self r)) _) r.1
    rw [rateLimitAllow_fst, RateShard.allow_fst, expireQueue_eq, hold.length_expire, decide_eq_true_eq,
      hlog, timesOf, List.countP_map, List.countP_filter, List.countP_eq_length_filter]
    have hcond : (fun a : RateRequest =>
          ((fun t => decide (windowStart r.2 ≤ t)) ∘ Prod.snd) a && decide (a.1 = r.1)) =
        fun a => decide (a.1 = r.1 ∧ r.2 - a.2 ≤ rateLimitWindow) := by
      funext a
      rw [Function.comp_apply, ← Bool.decide_and, decide_eq_decide, windowStart, sub_le_comm, and_comm]
    rw [hcond]
  · rw [(rateRun_spec hmono).1, (rateRun_spec (hmono.filter _)).1]
    exact filter_admitted ip trace

end

/-- Two addresses, and the first one again at the other end of the window. -/
def rateTrace : List RateRequest :=
  [(str "10.0.0.1", 0), (str "10.0.0.2", 1), (str "10.0.0.1", 60000000000)]

theorem rate_limit_window_trace :
    (rateLimitAllow List.length (rateRun List.length (rateTrace.take 2)).2
      (str "10.0.0.1", 60000000000)).1 = true :=
  ((@rate_limit_window List.length rateTrace (by decide)).1 (rateTrace.take 2) _ [] rfl).2
    (by decide +kernel)

/-! ## The memory of a shard -/

/-- The map has more addresses than the cap when `rate_limit_allow` looks at it. -/
def RateShard.Overflows (shard : RateShard) (ip : Bytes) : Prop :=
  rateLimitShardCap < (shard.history.insert ip (shard.queue ip)).entries.length

/-- The call of `r` after the trace, if it is accepted on an overflowing shard, leaves in it only
addresses with a request that was accepted in the window. -/
def MemoryBounded (hash : Bytes → Nat) (trace : List RateRequest) (r : RateRequest) : Prop :=
  (rateLimitAllow hash (rateRun hash trace).2 r).1 = true →
    ((rateRun hash trace).2 (shardOf hash r.1)).Overflows r.1 →
      ∀ ip ∈ ((rateRun hash (trace ++ [r])).2 (shardOf hash r.1)).history,
        ∃ a ∈ (rateRun hash (trace ++ [r])).1, a.1 = ip ∧ r.2 - a.2 ≤ rateLimitWindow

/-- The addresses of a trace that belong to a shard. -/
def seenBy (hash : Bytes → Nat) (i : Fin rateLimitShards) (trace : List RateRequest) : List Bytes :=
  ((trace.map Prod.fst).filter fun ip => shardOf hash ip = i).dedup

/-- If the request is admitted and its shard has seen more addresses than the cap, all of these have
a request that is admitted in the window. -/
def NoneIdle (hash : Bytes → Nat) (trace : List RateRequest) (r : RateRequest) : Prop :=
  Admits rateLimitMax windowStart (admittedRequests trace) r →
    rateLimitShardCap < (seenBy hash (shardOf hash r.1) (trace ++ [r])).length →
      ∀ ip ∈ seenBy hash (shardOf hash r.1) (trace ++ [r]),
        ∃ a ∈ admittedRequests (trace ++ [r]), a.1 = ip ∧ windowStart r.2 ≤ a.2

/-- The queues of a shard have requests. -/
def RateShard.Filled (shard : RateShard) : Prop := ∀ e ∈ shard.history.entries, e.2 ≠ []

section
variable {shard : RateShard}

/-- The eviction of a filled shard erases nothing. -/
theorem RateShard.Filled.evict_eq (h : shard.Filled) : shard.evict = shard := by
  have hall : shard.history.entries.filter (fun e => !e.2.isEmpty) = shard.history.entries := by
    rw [List.filter_eq_self]
    intro e he
    simpa using h e he
  unfold RateShard.evict
  congr 1
  exact AList.ext hall

theorem RateShard.Filled.insert (h : shard.Filled) {ip : Bytes} {queue : List Int}
    (hqueue : queue ≠ []) : RateShard.Filled ⟨shard.history.insert ip queue⟩ := by
  intro e he
  rw [AList.entries_insert] at he
  rcases List.mem_cons.1 he with rfl | he
  · exact hqueue
  · exact h e (List.kerase_sublist _ _ |>.subset he)

/-- A call leaves a filled shard filled, with its address and those that it had. -/
theorem RateShard.Filled.allow (h : shard.Filled) (ip : Bytes) (now : Int) :
    (shard.allow ip now).2.Filled ∧
      ∀ ip', ip' ∈ (shard.allow ip now).2.history ↔ ip' = ip ∨ ip' ∈ shard.history := by
  unfold RateShard.allow
  dsimp only
  split
  · rename_i hmax
    have hqueue : expireQueue now (shard.queue ip) ≠ [] := by
      intro hnil
      rw [hnil] at hmax
      exact absurd hmax (by decide)
    exact ⟨h.insert hqueue, fun ip' => AList.mem_insert _⟩
  · have hfilled : RateShard.Filled
        ⟨shard.history.insert ip (expireQueue now (shard.queue ip) ++ [now])⟩ :=
      h.insert (List.append_ne_nil_of_right_ne_nil _ (List.cons_ne_nil _ _))
    split
    · rw [hfilled.evict_eq]
      exact ⟨hfilled, fun ip' => AList.mem_insert _⟩
    · exact ⟨hfilled, fun ip' => AList.mem_insert _⟩

end

section
variable {hash : Bytes → Nat} {trace : List RateRequest} {r : RateRequest}

theorem mem_seenBy {i : Fin rateLimitShards} {ip : Bytes} :
    ip ∈ seenBy hash i trace ↔ shardOf hash ip = i ∧ ∃ a ∈ trace, a.1 = ip := by
  rw [seenBy, List.mem_dedup, List.mem_filter, decide_eq_true_eq, List.mem_map, and_comm]

/-- The shards are filled after every trace, and have the addresses that they have seen. -/
theorem rateRun_filled (hash : Bytes → Nat) (trace : List RateRequest) (i : Fin rateLimitShards) :
    ((rateRun hash trace).2 i).Filled ∧
      ∀ ip, ip ∈ ((rateRun hash trace).2 i).history ↔ ip ∈ seenBy hash i trace := by
  induction trace using List.reverseRecOn with
  | nil => exact ⟨nofun, fun ip => iff_of_false (AList.notMem_empty ip) List.not_mem_nil⟩
  | append_singleton trace r ih =>
    obtain ⟨hfilled, hkeys⟩ := ih
    have hseen : ∀ ip, ip ∈ seenBy hash i (trace ++ [r]) ↔
        ip ∈ seenBy hash i trace ∨ shardOf hash ip = i ∧ r.1 = ip := by
      intro ip
      rw [mem_seenBy, mem_seenBy, ← and_or_left]
      simp only [List.mem_append, List.mem_singleton, or_and_right, exists_or, exists_eq_left]
    rw [rateRun_concat, rateLimitAllow]
    dsimp only
    rcases eq_or_ne i (shardOf hash r.1) with rfl | hi
    · rw [Function.update_self]
      obtain ⟨hfilled', hkeys'⟩ := hfilled.allow r.1 r.2
      refine ⟨hfilled', fun ip => ?_⟩
      rw [hkeys', hkeys, hseen, or_comm]
      refine or_congr_right ⟨?_, fun h => h.2.symm⟩
      rintro rfl
      exact ⟨rfl, rfl⟩
    · rw [Function.update_of_ne hi]
      refine ⟨hfilled, fun ip => ?_⟩
      rw [hkeys, hseen, or_iff_left]
      rintro ⟨hip, rfl⟩
      exact hi hip.symm

/-- A shard overflows when it has seen more addresses than the cap. -/
theorem overflows_iff : ((rateRun hash trace).2 (shardOf hash r.1)).Overflows r.1 ↔
    rateLimitShardCap < (seenBy hash (shardOf hash r.1) (trace ++ [r])).length := by
  obtain ⟨-, hkeys⟩ := rateRun_filled hash trace (shardOf hash r.1)
  have hperm : (((rateRun hash trace).2 (shardOf hash r.1)).history.insert r.1
      (((rateRun hash trace).2 (shardOf hash r.1)).queue r.1)).keys.Perm
        (seenBy hash (shardOf hash r.1) (trace ++ [r])) := by
    refine (List.perm_ext_iff_of_nodup (AList.keys_nodup _) (List.nodup_dedup _)).2 fun ip => ?_
    rw [← AList.mem_keys, AList.mem_insert, hkeys, ← seenBy, mem_seenBy, mem_seenBy]
    constructor
    · rintro (rfl | ⟨hip, a, ha, rfl⟩)
      · exact ⟨rfl, r, List.mem_append_right _ (List.mem_singleton_self r), rfl⟩
      · exact ⟨hip, a, List.mem_append_left _ ha, rfl⟩
    · rintro ⟨hip, a, ha, rfl⟩
      rcases List.mem_append.1 ha with ha | ha
      · exact .inr ⟨hip, a, ha, rfl⟩
      · exact .inl (congrArg Prod.fst (List.mem_singleton.1 ha))
  rw [RateShard.Overflows, ← hperm.length_eq, AList.keys, List.keys, List.length_map]

/-- One call, after a trace whose times do not decrease. -/
theorem memoryBounded_iff (hmono : (trace ++ [r]).Pairwise fun a b => a.2 ≤ b.2) :
    MemoryBounded hash trace r ↔ NoneIdle hash trace r := by
  have hbefore := (List.pairwise_append.1 hmono).1
  have hallow : (rateLimitAllow hash (rateRun hash trace).2 r).1 = true ↔
      Admits rateLimitMax windowStart (admittedRequests trace) r := by
    have hlater : ∀ a ∈ trace, windowStart a.2 ≤ windowStart r.2 := fun a ha =>
      sub_le_sub_right ((List.pairwise_append.1 hmono).2.2 a ha r (List.mem_singleton_self r)) _
    have hold := (@rateRun_spec hash trace hbefore).2 (windowStart r.2) hlater r.1
    rw [rateLimitAllow_fst, RateShard.allow_fst, expireQueue_eq, hold.length_expire, decide_eq_true_eq,
      Admits]
  obtain ⟨-, hkeys⟩ := rateRun_filled hash (trace ++ [r]) (shardOf hash r.1)
  rw [MemoryBounded, NoneIdle, hallow, overflows_iff, (rateRun_spec hmono).1]
  refine imp_congr_right fun _ => imp_congr_right fun _ => forall_congr' fun ip => ?_
  rw [hkeys]
  refine imp_congr_right fun _ => exists_congr fun a => ?_
  rw [windowStart, sub_le_comm]

/-- Every call of a trace bounds the memory of its shard exactly if at every admitted one a shard that
has seen more addresses than the cap has seen no idle one. -/
theorem shard_bounded_iff (hash : Bytes → Nat) (hmono : trace.Pairwise fun a b => a.2 ≤ b.2) :
    (∀ before r after, trace = before ++ r :: after → MemoryBounded hash before r) ↔
      ∀ before r after, trace = before ++ r :: after → NoneIdle hash before r := by
  refine forall_congr' fun before => forall_congr' fun r => forall_congr' fun after =>
    imp_congr_right ?_
  rintro rfl
  exact memoryBounded_iff (pairwise_upTo hmono)

end

theorem shard_bounded_trace : (rateTrace.Pairwise fun a b => a.2 ≤ b.2) ∧
    ∀ before r after, rateTrace = before ++ r :: after → MemoryBounded List.length before r := by
  have hmono : rateTrace.Pairwise fun a b => a.2 ≤ b.2 := by decide
  refine ⟨hmono, (shard_bounded_iff List.length hmono).2 fun before r after htrace _ hcap => ?_⟩
  have hlen := congrArg List.length htrace
  have hseen := (List.dedup_sublist _).length_le.trans (List.length_filter_le
    (fun ip => shardOf List.length ip = shardOf List.length r.1) ((before ++ [r]).map Prod.fst))
  rw [rateLimitShardCap, seenBy] at hcap
  rw [List.length_append, List.length_cons] at hlen
  rw [List.length_map, List.length_append, List.length_singleton] at hseen
  change 3 = _ at hlen
  omega

/-- One request of each of as many addresses as the cap. -/
def idleTrace (ips : Nat → Bytes) : List RateRequest :=
  (List.range rateLimitShardCap).map fun n => (ips n, 0)

/-- When these requests have left the window, one more address of their shard finds all of the others
in it. -/
theorem not_memoryBounded_idle {hash : Bytes → Nat} {ips : Nat → Bytes} {i : Fin rateLimitShards}
    (hinj : Function.Injective ips) (hshard : ∀ n, shardOf hash (ips n) = i) {r : RateRequest}
    (hip : r.1 = ips rateLimitShardCap) (hlate : rateLimitWindow < r.2) :
    (idleTrace ips ++ [r]).Pairwise (fun a b => a.2 ≤ b.2) ∧
      ¬ MemoryBounded hash (idleTrace ips) r := by
  have hold : ∀ a ∈ idleTrace ips, ∃ n < rateLimitShardCap, a = (ips n, 0) := by
    intro a ha
    obtain ⟨n, hn, rfl⟩ := List.mem_map.1 ha
    exact ⟨n, List.mem_range.1 hn, rfl⟩
  have hmem : ∀ n < rateLimitShardCap, (ips n, 0) ∈ idleTrace ips := fun n hn =>
    List.mem_map.2 ⟨n, List.mem_range.2 hn, rfl⟩
  have hmono : (idleTrace ips ++ [r]).Pairwise fun a b => a.2 ≤ b.2 := by
    refine List.pairwise_append.2 ⟨?_, List.pairwise_singleton _ _, fun a ha b hb => ?_⟩
    · rw [idleTrace, List.pairwise_map]
      exact List.pairwise_of_forall fun _ _ => le_refl 0
    · obtain ⟨n, -, rfl⟩ := hold a ha
      rw [List.mem_singleton.1 hb]
      exact le_trans (by decide : (0 : Int) ≤ rateLimitWindow) hlate.le
  refine ⟨hmono, fun hbounded => ?_⟩
  have hnew : Admits rateLimitMax windowStart (admittedRequests (idleTrace ips)) r := by
    have hnone : timesOf r.1 (admittedRequests (idleTrace ips)) = [] := by
      rw [timesOf, List.map_eq_nil_iff, List.filter_eq_nil_iff]
      intro a ha hsame
      obtain ⟨n, hn, rfl⟩ := hold a (admitted_subset _ ha)
      exact hn.ne (hinj ((of_decide_eq_true hsame).trans hip))
    rw [Admits, hnone, List.countP_nil]
    decide
  have hseen : rateLimitShardCap <
      (seenBy hash (shardOf hash r.1) (idleTrace ips ++ [r])).length := by
    have hnodup : ((List.range (rateLimitShardCap + 1)).map ips).Nodup :=
      List.nodup_range.map hinj
    have hsubset : (List.range (rateLimitShardCap + 1)).map ips ⊆
        seenBy hash (shardOf hash r.1) (idleTrace ips ++ [r]) := by
      intro ip hmap
      obtain ⟨n, hn, rfl⟩ := List.mem_map.1 hmap
      rw [mem_seenBy, hip, hshard, hshard]
      refine ⟨rfl, ?_⟩
      rcases (Nat.lt_succ_iff.1 (List.mem_range.1 hn)).lt_or_eq with hn | rfl
      · exact ⟨_, List.mem_append_left _ (hmem n hn), rfl⟩
      · exact ⟨r, List.mem_append_right _ (List.mem_singleton_self r), hip⟩
    have hle := (hnodup.subperm hsubset).length_le
    rwa [List.length_map, List.length_range] at hle
  have hfirst : ips 0 ∈ seenBy hash (shardOf hash r.1) (idleTrace ips ++ [r]) := by
    rw [mem_seenBy, hip, hshard, hshard]
    exact ⟨rfl, _, List.mem_append_left _ (hmem 0 (by decide)), rfl⟩
  obtain ⟨a, ha, hsame, hin⟩ := (memoryBounded_iff hmono).1 hbounded hnew hseen (ips 0) hfirst
  rcases List.mem_append.1 (admitted_subset _ ha) with ha | ha
  · obtain ⟨n, -, rfl⟩ := hold a ha
    rw [windowStart] at hin
    dsimp only at hin
    omega
  · rw [List.mem_singleton.1 ha, hip] at hsame
    exact absurd (hinj hsame) (by decide)

/-- For no hash of the addresses is the memory bounded in all traces: some shard has more addresses
than the cap, and all but the last of them may be idle. -/
theorem not_shard_bounded : ¬ ∃ hash, ∀ trace : List RateRequest,
    (trace.Pairwise fun a b => a.2 ≤ b.2) →
      ∀ before r after, trace = before ++ r :: after → MemoryBounded hash before r := by
  rintro ⟨hash, hall⟩
  obtain ⟨i, hi⟩ := Finite.exists_infinite_fiber (shardOf hash)
  have e := Infinite.natEmbedding (Set.preimage (shardOf hash) {i})
  obtain ⟨hmono, hbounded⟩ := @not_memoryBounded_idle hash (fun n => (e n).1) i
    (fun m n h => e.injective (Subtype.ext h)) (fun n => (e n).2)
    ((e rateLimitShardCap).1, rateLimitWindow + 1) rfl (lt_add_one rateLimitWindow)
  exact hbounded (hall _ hmono _ _ [] rfl)

end Terllama
