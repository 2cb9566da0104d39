import Terllama.Core.Context

/-!
# The coordinator generates like one device

`generate`, `generate_stream` and `Coordinator::generate` over one forward pass (`Forward.cluster`:
the workers decode the `float` the coordinator sends). The loops run in lock step as long as the
tokens they feed survive the way through a `float`; `loops_agree_iff` says when they all do.
-/

namespace Terllama

section
variable {K C R U V : Type}

/-- Workers that together are a forward pass: the first one decodes the token, as
`Worker::handle_forward` does. -/
def Forward.cluster (fwd : Forward K C) : Cluster K C where
  reset := fwd.reset
  pipeline seqPos input _ c :=
    match input with
    | [] => (raise "token input missing", c)
    | x :: _ =>
      match x.toInt with
      | .ok tok => fwd.forward tok seqPos c
      | .error e => (.error e, c)

/-- The call that a token leads to on the workers. -/
theorem Forward.cluster_forward {fwd : Forward K C} {tok : Int} (h : FloatExact tok) (pos : Int)
    (c : C) : fwd.cluster.forward.forward tok pos c = fwd.forward tok pos c := by
  change (match (F32.ofInt tok).toInt with
    | .ok tok => fwd.forward tok pos c
    | .error e => (.error e, c)) = _
  rw [h]

/-- What the workers log for a token. -/
def clusterCall (tok pos : Int) : List (Int × Int) :=
  match (F32.ofInt tok).toInt with
  | .ok tok => [(tok, pos)]
  | .error _ => []

theorem Forward.logs_cluster (fwd : Forward K C) :
    Logs fwd.traced.cluster.forward Prod.snd clusterCall where
  reset _ := rfl
  forward tok pos c := by
    change Prod.snd (Prod.snd (match (F32.ofInt tok).toInt with
      | .ok tok => fwd.traced.forward tok pos c
      | .error e => (.error e, c))) = _
    rw [clusterCall]
    cases (F32.ofInt tok).toInt with
    | ok tok => rfl
    | error e => exact (List.append_nil _).symm

/-! ## Lock step -/

/-- Two states that differ in `userdata` alone. -/
structure GenState.Same (s : GenState C R U) (s' : GenState C R V) : Prop where
  cache : s.cache = s'.cache
  rng : s.rng = s'.rng
  out : s.out = s'.out
  drawn : s.drawn = s'.drawn

variable {f g : Forward K C} {sample : List Int → List K → R → Exec (Int × R)}
  {callback : Option (Int → List K → U → Bool × U)} {eos : Int}

theorem prefill_congr {toks : List Int}
    (h : ∀ tok ∈ toks, ∀ pos c, f.forward tok pos c = g.forward tok pos c) (pos : Int)
    (s : GenState C R U) : prefill f toks pos s = prefill g toks pos s := by
  induction toks generalizing pos s with
  | nil => rfl
  | cons tok toks ih =>
    have hcall : s.call f tok pos = s.call g tok pos := by
      rw [GenState.call, GenState.call, h tok List.mem_cons_self]
    rw [prefill, prefill, hcall]
    have ih := ih fun t ht => h t (List.mem_cons_of_mem tok ht)
    simp only [ih]

/-- Two decode loops over forward passes that agree on the first token, and on the sampled tokens
that are fed again, are the same. -/
theorem decode_congr {left : Nat} {next : Int}
    (hnext : ∀ pos c, f.forward next pos c = g.forward next pos c)
    (htok : left ≤ 1 ∨ ∀ out logits rng tok rng', sample out logits rng = .ok (tok, rng') →
      tok ≠ eos → ∀ pos c, f.forward tok pos c = g.forward tok pos c) (pos : Int)
    (s : GenState C R U) :
    decode f sample callback eos left next pos s = decode g sample callback eos left next pos s := by
  induction left generalizing next pos s with
  | zero => rfl
  | succ left ih =>
    have hcall : s.call f next pos = s.call g next pos := by
      rw [GenState.call, GenState.call, hnext]
    rw [decode, decode, hcall]
    rcases s.call g next pos with ⟨e | logits, s₁⟩
    · rfl
    dsimp only
    rcases hsample : sample s₁.out logits s₁.rng with e | ⟨tok, rng⟩
    · rfl
    have hrest : tok ≠ eos → ∀ s₂ : GenState C R U,
        decode f sample callback eos left tok (pos + 1) s₂ =
          decode g sample callback eos left tok (pos + 1) s₂ := by
      intro hne s₂
      rcases htok with hle | htok
      · have hzero : left = 0 := Nat.le_zero.1 (Nat.le_of_succ_le_succ hle)
        subst hzero
        rfl
      · exact ih (htok _ _ _ _ _ hsample hne) (.inr htok) (pos + 1) s₂
    dsimp only
    cases callback with
    | none =>
      dsimp only
      split
      · rfl
      · rename_i hne
        exact hrest hne _
    | some cb =>
      dsimp only
      split
      · rfl
      · split
        · rfl
        · rename_i hne
          exact hrest hne _

/-- The prefill loop does not see `userdata`. -/
theorem prefill_same (toks : List Int) (pos : Int) {s : GenState C R U} {s' : GenState C R V}
    (h : s.Same s') : (prefill f toks pos s).1 = (prefill f toks pos s').1 ∧
      (prefill f toks pos s).2.Same (prefill f toks pos s').2 := by
  induction toks generalizing pos s s' with
  | nil => exact ⟨rfl, h⟩
  | cons tok toks ih =>
    rw [prefill, prefill, GenState.call, GenState.call, h.cache]
    rcases f.forward tok pos s'.cache with ⟨e | logits, c⟩
    · exact ⟨rfl, rfl, h.rng, h.out, h.drawn⟩
    · exact ih (pos + 1) ⟨rfl, h.rng, h.out, h.drawn⟩

/-- A callback that never ends the loop does not change what it does. -/
theorem decode_same {cb : Int → List K → U → Bool × U} (hcb : ∀ tok logits u, (cb tok logits u).1)
    (left : Nat) (next pos : Int) {s : GenState C R U} {s' : GenState C R V} (h : s.Same s') :
    (decode f sample (some cb) eos left next pos s).1 =
        (decode f sample none eos left next pos s').1 ∧
      (decode f sample (some cb) eos left next pos s).2.Same
        (decode f sample none eos left next pos s').2 := by
  induction left generalizing next pos s s' with
  | zero => exact ⟨rfl, h⟩
  | succ left ih =>
    rw [decode, decode, GenState.call, GenState.call, h.cache]
    rcases f.forward next pos s'.cache with ⟨e | logits, c⟩
    · exact ⟨rfl, rfl, h.rng, h.out, h.drawn⟩
    dsimp only
    rw [h.out, h.rng]
    rcases sample s'.out logits s'.rng with e | ⟨tok, rng⟩
    · exact ⟨rfl, rfl, rfl, rfl, h.drawn⟩
    dsimp only
    rw [hcb, Bool.not_true, if_neg Bool.false_ne_true, h.drawn]
    split
    · exact ⟨rfl, rfl, rfl, rfl, rfl⟩
    · exact ih tok (pos + 1) ⟨rfl, rfl, rfl, rfl⟩

theorem phases_congr {toks : List Int} {next : Int} {left : Nat}
    (hreset : ∀ c, f.reset c = g.reset c)
    (htoks : ∀ tok ∈ toks, ∀ pos c, f.forward tok pos c = g.forward tok pos c)
    (hnext : ∀ pos c, f.forward next pos c = g.forward next pos c)
    (htok : left ≤ 1 ∨ ∀ out logits rng tok rng', sample out logits rng = .ok (tok, rng') →
      tok ≠ eos → ∀ pos c, f.forward tok pos c = g.forward tok pos c) (nPrompt : Int)
    (s : GenState C R U) :
    phases f sample callback eos toks next nPrompt left s =
      phases g sample callback eos toks next nPrompt left s := by
  rw [phases, phases, hreset]
  rcases g.reset s.cache with ⟨e | _, c⟩
  · rfl
  dsimp only
  rw [prefill_congr htoks]
  rcases prefill g toks 0 { s with cache := c } with ⟨e | _, s₁⟩
  · rfl
  · exact decode_congr hnext htok nPrompt s₁

theorem phases_same {cb : Int → List K → U → Bool × U} (hcb : ∀ tok logits u, (cb tok logits u).1)
    (toks : List Int) (next nPrompt : Int) (left : Nat) {s : GenState C R U}
    {s' : GenState C R V} (h : s.Same s') :
    (phases f sample (some cb) eos toks next nPrompt left s).1 =
        (phases f sample none eos toks next nPrompt left s').1 ∧
      (phases f sample (some cb) eos toks next nPrompt left s).2.Same
        (phases f sample none eos toks next nPrompt left s').2 := by
  rw [phases, phases, h.cache]
  rcases f.reset s'.cache with ⟨e | _, c⟩
  · exact ⟨rfl, rfl, h.rng, h.out, h.drawn⟩
  dsimp only
  have hstart : GenState.Same { s with cache := c } { s' with cache := c } :=
    ⟨rfl, h.rng, h.out, h.drawn⟩
  obtain ⟨hfst, hsame⟩ := prefill_same (f := f) toks 0 hstart
  rcases hp : prefill f toks 0 { s with cache := c } with ⟨r, s₁⟩
  rcases hp' : prefill f toks 0 { s' with cache := c } with ⟨r', s₁'⟩
  rw [hp, hp'] at hfst hsame
  cases hfst
  cases r with
  | error e => exact ⟨rfl, hsame⟩
  | ok _ => exact decode_same hcb left next nPrompt hsame

end

/-! ## The three loops -/

section
variable {K C R U : Type} [Field K] [LinearOrder K] (num : Numerics K) (gen : Rng R K)

/-- The three loops make the same forward calls and produce the same tokens. -/
structure LoopsAgree (fwd : Forward K C) (cfg : ModelConfig) (prompt : List Int) (maxTokens : Int)
    (temperature : K) (callback : Int → List K → U → Bool × U) (cache : C) (rng : R) (user : U) :
    Prop where
  stream_calls :
    (generateStream num gen fwd.traced cfg prompt maxTokens temperature (some callback) (cache, [])
      rng user).2.cache.2 =
    (generate num gen fwd.traced cfg prompt maxTokens temperature (cache, []) rng).2.cache.2
  stream_out :
    (generateStream num gen fwd.traced cfg prompt maxTokens temperature (some callback) (cache, [])
      rng user).2.out =
    (generate num gen fwd.traced cfg prompt maxTokens temperature (cache, []) rng).2.out
  cluster_calls :
    (Coordinator.generate num gen fwd.traced.cluster cfg prompt maxTokens temperature []
      none (cache, []) rng ()).2.cache.2 =
    (generate num gen fwd.traced cfg prompt maxTokens temperature (cache, []) rng).2.cache.2
  cluster_out :
    (Coordinator.generate num gen fwd.traced.cluster cfg prompt maxTokens temperature []
      none (cache, []) rng ()).1 =
    (generate num gen fwd.traced cfg prompt maxTokens temperature (cache, []) rng).1

/-- What the three loops come to at a low temperature with a prompt inside the window. -/
def greedyRun (fwd : Forward K C) (cfg : ModelConfig) (prompt : List Int) (maxTokens : Int)
    (temperature : K) (callback : Option (Int → List K → U → Bool × U)) (s : GenState C R U) :
    Exec Bool × GenState C R U :=
  phases fwd (fun _ => sampleToken num gen cfg.vocabSize temperature [] 0) callback
    cfg.eosTokenId prompt (prompt.getLastD 0) prompt.length
    (min maxTokens (cfg.maxPositionEmbeddings - prompt.length)).toNat s

variable {num gen}

theorem generation_eq_greedyRun {cfg : ModelConfig} {prompt : List Int} (hne : prompt ≠ [])
    (hlt : (prompt.length : Int) < cfg.maxPositionEmbeddings) (maxTokens : Int) {temperature : K}
    (hcold : temperature < 1 / 100) (fwd : Forward K C)
    (callback : Option (Int → List K → U → Bool × U)) (s : GenState C R U) :
    generation num gen fwd cfg prompt maxTokens temperature callback s =
      greedyRun num gen fwd cfg prompt maxTokens temperature callback s := by
  have hnPrompt : prefillLength cfg prompt = prompt.length := if_neg (not_le.2 hlt)
  have hpos : 0 < prompt.length := List.length_pos_iff.2 hne
  have hleft : (tokenBudget cfg prompt.length maxTokens).toNat =
      (min maxTokens (cfg.maxPositionEmbeddings - prompt.length)).toNat := by
    unfold tokenBudget
    split <;> omega
  have hlast : prompt.getD ((prompt.length : Int).toNat - 1) 0 = prompt.getLastD 0 := by
    rw [Int.toNat_natCast, List.getLastD_eq_getLast?, List.getLast?_eq_getElem?,
      List.getD_eq_getElem?_getD]
  have hsample : (fun out => sampleToken num gen cfg.vocabSize temperature (recentOf out) (23 / 20)) =
      fun _ => sampleToken num gen cfg.vocabSize temperature [] 0 := by
    funext out logits rng
    rw [sampleToken, sampleToken, if_pos hcold, if_pos hcold]
  rw [generation, hnPrompt, hleft, hsample, if_pos (by exact_mod_cast hpos), hlast,
    Int.toNat_natCast, List.take_length, greedyRun]

theorem coordinator_eq_greedyRun {cfg : ModelConfig} {prompt : List Int} (hne : prompt ≠ [])
    (hlt : (prompt.length : Int) < cfg.maxPositionEmbeddings) {maxTokens : Int}
    (hpos : 0 < maxTokens) {temperature : K} (hcold : temperature < 1 / 100) (cl : Cluster K C)
    (cache : C) (rng : R) :
    Coordinator.generate num gen cl cfg prompt maxTokens temperature [] none cache rng () =
      ((greedyRun num gen cl.forward cfg prompt maxTokens temperature none
          { cache, rng, user := () }).1.map fun _ =>
          (greedyRun num gen cl.forward cfg prompt maxTokens temperature none
            { cache, rng, user := () }).2.out,
        (greedyRun num gen cl.forward cfg prompt maxTokens temperature none
          { cache, rng, user := () }).2) := by
  have hguard : (prompt.isEmpty || decide (maxTokens ≤ 0)) = false := by
    rw [Bool.or_eq_false_iff, List.isEmpty_eq_false_iff, decide_eq_false_iff_not]
    exact ⟨hne, not_le.2 hpos⟩
  have hbudget : Coordinator.budget cfg prompt.length maxTokens =
      min maxTokens (cfg.maxPositionEmbeddings - prompt.length) := by
    unfold Coordinator.budget
    split <;> omega
  have hsample : (fun out : List Int => sampleToken num gen cfg.vocabSize temperature
      (out.foldl pushRecent (recentOf [])) (11 / 10)) =
      fun _ => sampleToken num gen cfg.vocabSize temperature [] 0 := by
    funext out logits rng
    rw [sampleToken, sampleToken, if_pos hcold, if_pos hcold]
  rw [Coordinator.generate, hguard, if_neg Bool.false_ne_true]
  dsimp only
  rw [if_neg (not_le.2 hlt), hbudget, if_neg (by omega), hsample]
  rfl

end

/-! ## Where they agree -/

section
variable {K C R U : Type} {fwd : Forward K C} {sample : List Int → List K → R → Exec (Int × R)}
  {callback : Option (Int → List K → U → Bool × U)} {eos : Int}

/-- An entry of the workers' log comes from the token at its position. -/
theorem mem_clusterCalls {toks : List Int} {pos : Int} {n : Nat} {entry : Int × Int}
    (h : entry ∈ (List.zipWith clusterCall toks (positions pos n)).flatten) :
    ∃ i < n, ∃ tok, toks[i]? = some tok ∧ entry.2 = pos + i ∧ (F32.ofInt tok).toInt = .ok entry.1 := by
  induction n generalizing toks pos with
  | zero =>
    rw [positions, List.zipWith_nil_right] at h
    cases h
  | succ n ih =>
    cases toks with
    | nil => cases h
    | cons tok toks =>
      rw [positions, List.zipWith_cons_cons, List.flatten_cons] at h
      rcases List.mem_append.1 h with h | h
      · rw [clusterCall] at h
        split at h
        · rename_i hok
          cases List.mem_singleton.1 h
          exact ⟨0, Nat.succ_pos n, tok, rfl, (add_zero pos).symm, hok⟩
        · cases h
      · obtain ⟨i, hi, tok', htok, hpos, hok⟩ := ih h
        refine ⟨i + 1, Nat.succ_lt_succ hi, tok', htok, hpos.trans ?_, hok⟩
        push_cast
        ring

/-- After its prefill a generation is its decode loop. -/
theorem phases_eq_decode {toks : List Int} {next nPrompt : Int} {left : Nat}
    {s s₁ : GenState C R U} {c : C} (hreset : fwd.reset s.cache = (.ok (), c))
    (hprefill : prefill fwd toks 0 { s with cache := c } = (.ok (), s₁)) :
    phases fwd sample callback eos toks next nPrompt left s =
      decode fwd sample callback eos left next nPrompt s₁ := by
  rw [phases, hreset]
  dsimp only
  rw [hprefill]

/-- What holds of every sampled token holds of the output. -/
theorem decode_tokens {P : Int → Prop}
    (hsample : ∀ tok pos c logits, (fwd.forward tok pos c).1 = .ok logits →
      ∀ out rng t rng', sample out logits rng = .ok (t, rng') → P t)
    (left : Nat) (next pos : Int) {s : GenState C R U} (hs : ∀ t ∈ s.out, P t) :
    ∀ t ∈ (decode fwd sample callback eos left next pos s).2.out, P t := by
  induction left generalizing next pos s with
  | zero => exact hs
  | succ left ih =>
    rw [decode]
    rcases hr : s.call fwd next pos with ⟨e | logits, s₁⟩
    · have hkeep : s₁.out = s.out := (congrArg (fun r => r.2.out) hr).symm
      exact hkeep ▸ hs
    have hkeep : s₁.out = s.out := (congrArg (fun r => r.2.out) hr).symm
    have hok : (fwd.forward next pos s.cache).1 = .ok logits := congrArg Prod.fst hr
    dsimp only
    rcases htok : sample s₁.out logits s₁.rng with e | ⟨tok, rng⟩
    · exact hkeep ▸ hs
    have hout : ∀ t ∈ s₁.out ++ [tok], P t := by
      intro t ht
      rcases List.mem_append.1 ht with ht | ht
      · exact hs t (hkeep ▸ ht)
      · cases List.mem_singleton.1 ht
        exact hsample _ _ _ _ hok _ _ _ _ htok
    dsimp only
    cases callback with
    | none =>
      dsimp only
      split
      · exact hout
      · exact ih tok (pos + 1) hout
    | some cb =>
      dsimp only
      split
      · exact hout
      · split
        · exact hout
        · exact ih tok (pos + 1) hout

theorem phases_tokens {P : Int → Prop}
    (hsample : ∀ tok pos c logits, (fwd.forward tok pos c).1 = .ok logits →
      ∀ out rng t rng', sample out logits rng = .ok (t, rng') → P t)
    (toks : List Int) (next nPrompt : Int) (left : Nat) {s : GenState C R U}
    (hs : ∀ t ∈ s.out, P t) :
    ∀ t ∈ (phases fwd sample callback eos toks next nPrompt left s).2.out, P t := by
  have hlog : Logs fwd (fun _ => ([] : List Unit)) fun _ _ => [] := ⟨fun _ => rfl, fun _ _ _ => rfl⟩
  rw [phases]
  rcases fwd.reset s.cache with ⟨e | _, c⟩
  · exact hs
  dsimp only
  obtain ⟨-, -, -, hout, -⟩ := prefill_run hlog toks 0 { s with cache := c }
  rcases hp : prefill fwd toks 0 { s with cache := c } with ⟨e | _, s₁⟩
  · rw [hp] at hout
    exact hout ▸ hs
  · rw [hp] at hout
    exact decode_tokens hsample left next nPrompt (hout ▸ hs)

/-- One pass of a loop that samples one token over and over. -/
theorem decode_const {logits : List K} {t : Int} (left : Nat) (next pos : Int)
    (hsample : ∀ out rng, sample out logits rng = .ok (t, rng)) (hne : t ≠ eos)
    (s : GenState (Unit × List (Int × Int)) R Unit) :
    decode (constForward logits).traced sample none eos (left + 1) next pos s =
      decode (constForward logits).traced sample none eos left t (pos + 1)
        { s with
          cache := ((), s.cache.2 ++ [(next, pos)])
          out := s.out ++ [t]
          drawn := s.drawn ++ [pos] } := by
  simp only [decode, GenState.call, constForward, Forward.traced, hsample, if_neg hne]

/-- Such a loop feeds the token at its second position. -/
theorem mem_calls_of_decode {logits : List K} {t : Int} (left : Nat) (next pos : Int)
    (hsample : ∀ out rng, sample out logits rng = .ok (t, rng)) (hne : t ≠ eos)
    (s : GenState (Unit × List (Int × Int)) R Unit) :
    (t, pos + 1) ∈
      (decode (constForward logits).traced sample none eos (left + 2) next pos s).2.cache.2 := by
  rw [decode_const (left + 1) next pos hsample hne, decode_const left t (pos + 1) hsample hne]
  obtain ⟨n, new, hrun⟩ := decode_run (constForward logits).logs_traced left t (pos + 1 + 1) _
  rw [hrun.log]
  exact List.mem_append_left _ (List.mem_append_right _ (List.mem_singleton_self _))

end

section
variable {K C R U : Type} [Field K] [LinearOrder K] [IsStrictOrderedRing K] {num : Numerics K}
  {gen : Rng R K}

/-- Logits with their largest value at one token. -/
def peakAt (K : Type) [Zero K] [One K] (vocab t : Nat) : List K :=
  List.replicate t 0 ++ 1 :: List.replicate (vocab - t - 1) 0

theorem sampleArgmax_peakAt {vocab t : Nat} (ht : t < vocab) :
    sampleArgmax (peakAt K vocab t) vocab = .ok t := by
  have hlen : (peakAt K vocab t).length = vocab := by
    rw [peakAt, List.length_append, List.length_cons, List.length_replicate, List.length_replicate]
    omega
  have hmax : maxElement (peakAt K vocab t) = t := by
    rw [peakAt, maxElement_append, List.length_replicate]
    · intro x hx
      rw [List.eq_of_mem_replicate hx]
      exact zero_lt_one
    · intro x hx
      rw [List.eq_of_mem_replicate hx]
      exact zero_le_one
  have hrange : ptrRange (peakAt K vocab t) vocab = .ok (peakAt K vocab t) := by
    have hall := slice_all (peakAt K vocab t)
    rw [hlen] at hall
    rw [ptrRange, if_pos (Int.natCast_nonneg vocab), Int.toNat_natCast, hall]
  rw [sampleArgmax, hrange, ok_bind, hmax]
  rfl

/-- Every sampled token that the workers are sent again survives the way through a `float`, or there
is none. -/
def ResendsExact (cfg : ModelConfig) (prompt : List Int) (maxTokens : Int) : Prop :=
  min maxTokens (cfg.maxPositionEmbeddings - prompt.length) ≤ 1 ∨
    ∀ t, 0 ≤ t → t < cfg.vocabSize → t ≠ cfg.eosTokenId → FloatExact t

omit [IsStrictOrderedRing K] in
/-- Where all tokens survive, the loops run in lock step. -/
theorem loopsAgree_of_exact {cfg : ModelConfig} {prompt : List Int} (hne : prompt ≠ [])
    (hlt : (prompt.length : Int) < cfg.maxPositionEmbeddings) {maxTokens : Int}
    (hpos : 0 < maxTokens) {temperature : K} (hcold : temperature < 1 / 100)
    {callback : Int → List K → U → Bool × U} (hcb : ∀ tok logits u, (callback tok logits u).1)
    (hprompt : ∀ t ∈ prompt, FloatExact t) (hresend : ResendsExact cfg prompt maxTokens)
    (fwd : Forward K C) (cache : C) (rng : R) (user : U) :
    LoopsAgree num gen fwd cfg prompt maxTokens temperature callback cache rng user := by
  have hstart : GenState.Same { cache := (cache, ([] : List (Int × Int))), rng, user }
      { cache := (cache, []), rng, user := () } := ⟨rfl, rfl, rfl, rfl⟩
  have hsame : GenState.Same
      (greedyRun num gen fwd.traced cfg prompt maxTokens temperature (some callback)
        { cache := (cache, []), rng, user }).2
      (greedyRun num gen fwd.traced cfg prompt maxTokens temperature none
        { cache := (cache, []), rng, user := () }).2 := (phases_same hcb _ _ _ _ hstart).2
  have hlast : prompt.getLastD 0 ∈ prompt := by
    rw [List.getLastD_eq_getLast?, List.getLast?_eq_getLast_of_ne_nil hne]
    exact List.getLast_mem hne
  have hlock : greedyRun num gen fwd.traced.cluster.forward cfg prompt maxTokens temperature none
        { cache := (cache, []), rng, user := () } =
      greedyRun num gen fwd.traced cfg prompt maxTokens temperature none
        { cache := (cache, []), rng, user := () } := by
    refine phases_congr (f := fwd.traced.cluster.forward) (g := fwd.traced) (fun _ => rfl)
      (fun t ht => Forward.cluster_forward (hprompt t ht))
      (Forward.cluster_forward (hprompt _ hlast)) ?_ _ _
    rcases hresend with hle | hexact
    · exact .inl (by omega)
    · refine .inr fun _ logits rng tok rng' htok hne => Forward.cluster_forward ?_
      rw [sampleToken, if_pos hcold] at htok
      obtain ⟨tok', htok', heq⟩ := bind_eq_ok.1 htok
      cases heq
      obtain ⟨hnonneg, hlt | hzero⟩ := sampleArgmax_range htok'
      · exact hexact tok hnonneg hlt hne
      · subst hzero
        exact floatExact_of_le (by decide)
  constructor
  · rw [generateStream, generate, generation_eq_greedyRun hne hlt maxTokens hcold,
      generation_eq_greedyRun hne hlt maxTokens hcold]
    exact congrArg Prod.snd hsame.cache
  · rw [generateStream, generate, generation_eq_greedyRun hne hlt maxTokens hcold,
      generation_eq_greedyRun hne hlt maxTokens hcold]
    exact hsame.out
  · rw [generate, coordinator_eq_greedyRun hne hlt hpos hcold,
      generation_eq_greedyRun hne hlt maxTokens hcold, hlock]
  · rw [generate, coordinator_eq_greedyRun hne hlt hpos hcold,
      generation_eq_greedyRun hne hlt maxTokens hcold, hlock]

omit [LinearOrder K] [Field K] [IsStrictOrderedRing K] in
/-- The workers of a forward pass with constant logits give no others. -/
theorem constForward_cluster {logits logits' : List K} {tok pos : Int}
    {c : Unit × List (Int × Int)}
    (h : ((constForward logits).traced.cluster.forward.forward tok pos c).1 = .ok logits') :
    logits' = logits := by
  change Prod.fst (match (F32.ofInt tok).toInt with
    | .ok tok => (constForward logits).traced.forward tok pos c
    | .error e => (.error e, c)) = _ at h
  cases hint : (F32.ofInt tok).toInt with
  | ok tok' =>
    rw [hint] at h
    exact (Except.ok.inj h).symm
  | error e =>
    rw [hint] at h
    cases h

omit [IsStrictOrderedRing K] in
/-- Where the loops agree, every call of `generate` comes on the workers from a token of the prompt at
its position, or from the last one and the sampled tokens after it. -/
theorem LoopsAgree.mem_calls {cfg : ModelConfig} {prompt : List Int} (hne : prompt ≠ [])
    (hlt : (prompt.length : Int) < cfg.maxPositionEmbeddings) {maxTokens : Int}
    (hpos : 0 < maxTokens) {temperature : K} (hcold : temperature < 1 / 100) {logits : List K}
    {callback : Int → List K → U → Bool × U} {rng : R} {user : U}
    (h : LoopsAgree num gen (constForward logits) cfg prompt maxTokens temperature callback () rng
      user) {t pos : Int}
    (hcall : (t, pos) ∈ (greedyRun num gen (constForward logits).traced cfg prompt maxTokens
      temperature none { cache := ((), []), rng, user := () }).2.cache.2) :
    ∃ (i : Nat) (tok : Int), (F32.ofInt tok).toInt = .ok t ∧
      ((pos = i ∧ prompt[i]? = some tok) ∨
        (pos = prompt.length + i ∧ ∃ new : List Int, (prompt.getLastD 0 :: new)[i]? = some tok ∧
          ∀ u ∈ new, ∃ rng rng',
            sampleToken num gen cfg.vocabSize temperature [] 0 logits rng = .ok (u, rng'))) := by
  have hcalls := h.cluster_calls
  rw [generate, coordinator_eq_greedyRun hne hlt hpos hcold,
    generation_eq_greedyRun hne hlt maxTokens hcold] at hcalls
  dsimp only at hcalls
  rw [← hcalls] at hcall
  obtain ⟨m, n, new, hrun⟩ : ∃ m n new, PhasesRun (constForward logits).traced.cluster.forward
      cfg.eosTokenId Prod.snd clusterCall prompt (prompt.getLastD 0)
      (min maxTokens (cfg.maxPositionEmbeddings - prompt.length)).toNat
      { cache := ((), []), rng, user := () }
      (greedyRun num gen (constForward logits).traced.cluster.forward cfg prompt maxTokens
        temperature none { cache := ((), []), rng, user := () }).2 m n new :=
    phases_run (constForward logits).logs_cluster _ _ _ _
  have htokens : ∀ u ∈ (greedyRun num gen (constForward logits).traced.cluster.forward cfg prompt
      maxTokens temperature none { cache := ((), []), rng, user := () }).2.out, ∃ rng rng',
      sampleToken num gen cfg.vocabSize temperature [] 0 logits rng = .ok (u, rng') := by
    refine phases_tokens (fun tok pos c logits' hlogits out rng t rng' htok => ?_) _ _ _ _ nofun
    cases constForward_cluster hlogits
    exact ⟨rng, rng', htok⟩
  rw [hrun.out, List.nil_append] at htokens
  rw [hrun.log, List.nil_append] at hcall
  rcases List.mem_append.1 hcall with hcall | hcall
  · obtain ⟨i, -, tok, htok, hpos, hok⟩ := mem_clusterCalls hcall
    exact ⟨i, tok, hok, .inl ⟨hpos.trans (zero_add _), htok⟩⟩
  · obtain ⟨i, -, tok, htok, hpos, hok⟩ := mem_clusterCalls hcall
    exact ⟨i, tok, hok, .inr ⟨hpos, new, htok, htokens⟩⟩

omit [IsStrictOrderedRing K] in
/-- Where the loops agree, every token of the prompt survives. -/
theorem LoopsAgree.prompt_exact {cfg : ModelConfig} {prompt : List Int} (hne : prompt ≠ [])
    (hlt : (prompt.length : Int) < cfg.maxPositionEmbeddings) {maxTokens : Int}
    (hpos : 0 < maxTokens) {temperature : K} (hcold : temperature < 1 / 100) {logits : List K}
    {callback : Int → List K → U → Bool × U} {rng : R} {user : U}
    (h : LoopsAgree num gen (constForward logits) cfg prompt maxTokens temperature callback () rng
      user) : ∀ t ∈ prompt, FloatExact t := by
  intro t ht
  obtain ⟨i, hi, rfl⟩ := List.getElem_of_mem ht
  have hcall : (prompt[i], (i : Int)) ∈ (greedyRun num gen (constForward logits).traced cfg prompt
      maxTokens temperature none { cache := ((), []), rng, user := () }).2.cache.2 := by
    obtain ⟨m, n, new, hrun⟩ : ∃ m n new, PhasesRun (constForward logits).traced
        cfg.eosTokenId Prod.snd _ prompt (prompt.getLastD 0)
        (min maxTokens (cfg.maxPositionEmbeddings - prompt.length)).toNat
        { cache := ((), []), rng, user := () }
        (greedyRun num gen (constForward logits).traced cfg prompt maxTokens temperature none
          { cache := ((), []), rng, user := () }).2 m n new :=
      phases_run (constForward logits).logs_traced _ _ _ _
    have hret : (constForward logits).Returns := ⟨fun _ => rfl, fun _ _ _ => ⟨logits, rfl⟩⟩
    rw [hrun.log, List.nil_append, (hrun.complete hret.traced).1, zipWith_singleton_flatten]
    refine List.mem_append_left _ (List.mem_of_getElem? (i := i) ?_)
    have hpos := getElem?_positions 0 hi
    rw [zero_add] at hpos
    rw [List.getElem?_zip_eq_some]
    exact ⟨List.getElem?_eq_getElem hi, hpos⟩
  obtain ⟨j, tok, hok, ⟨hj, htok⟩ | ⟨hj, -⟩⟩ := h.mem_calls hne hlt hpos hcold hcall
  · cases Int.natCast_inj.1 hj
    rw [List.getElem?_eq_getElem hi, Option.some.injEq] at htok
    rw [htok] at hok ⊢
    exact hok
  · omega

/-- The three loops make the same forward calls and produce the same tokens, whatever the forward
pass, exactly where every token that the coordinator can send survives the way through a
`float`. -/
theorem loops_agree_iff {cfg : ModelConfig} {prompt : List Int} (hne : prompt ≠ [])
    (hlt : (prompt.length : Int) < cfg.maxPositionEmbeddings) {maxTokens : Int}
    (hpos : 0 < maxTokens) {temperature : K} (hcold : temperature < 1 / 100)
    {callback : Int → List K → U → Bool × U} (hcb : ∀ tok logits u, (callback tok logits u).1)
    (rng : R) (user : U) :
    (∀ (C : Type) (fwd : Forward K C) (cache : C),
      LoopsAgree num gen fwd cfg prompt maxTokens temperature callback cache rng user) ↔
      (∀ t ∈ prompt, FloatExact t) ∧ ResendsExact cfg prompt maxTokens := by
  constructor
  · intro h
    refine ⟨(h Unit (constForward []) ()).prompt_exact hne hlt hpos hcold, ?_⟩
    by_contra hnot
    rw [ResendsExact, not_or, not_le] at hnot
    obtain ⟨hbudget, hnot⟩ := hnot
    simp only [not_forall] at hnot
    obtain ⟨t, hnonneg, hvocab, heos, hinexact⟩ := hnot
    obtain ⟨t, rfl⟩ := Int.eq_ofNat_of_zero_le hnonneg
    obtain ⟨vocab, hv⟩ := Int.eq_ofNat_of_zero_le (hnonneg.trans hvocab.le)
    have ht : t < vocab := by omega
    have hsample : ∀ rng : R, sampleToken num gen cfg.vocabSize temperature [] 0
        (peakAt K vocab t) rng = .ok ((t : Int), rng) := by
      intro rng
      rw [sampleToken, if_pos hcold, hv, sampleArgmax_peakAt ht]
      rfl
    obtain ⟨left, hleft⟩ : ∃ left : Nat,
        (min maxTokens (cfg.maxPositionEmbeddings - prompt.length)).toNat = left + 2 :=
      ⟨(min maxTokens (cfg.maxPositionEmbeddings - prompt.length)).toNat - 2, by omega⟩
    have hcall : ((t : Int), (prompt.length : Int) + 1) ∈
        (greedyRun num gen (constForward (peakAt K vocab t)).traced cfg prompt maxTokens temperature
          none { cache := ((), []), rng, user := () }).2.cache.2 := by
      have hret : (constForward (peakAt K vocab t)).Returns :=
        ⟨fun _ => rfl, fun _ _ _ => ⟨_, rfl⟩⟩
      have hprefill := prefill_returns hret.traced prompt 0
        ({ cache := ((), []), rng, user := () } : GenState _ R Unit)
      rcases hp : prefill (constForward (peakAt K vocab t)).traced prompt 0
          ({ cache := ((), []), rng, user := () } : GenState _ R Unit) with ⟨r, s⟩
      rw [hp] at hprefill
      cases hprefill
      rw [greedyRun, hleft, phases_eq_decode rfl hp]
      exact mem_calls_of_decode left _ _ (fun _ rng => hsample rng) heos s
    obtain ⟨j, tok, hok, ⟨hj, htok⟩ | ⟨hj, new, htok, hnew⟩⟩ :=
      (h Unit (constForward (peakAt K vocab t)) ()).mem_calls hne hlt hpos hcold hcall
    · obtain ⟨hlen, -⟩ := List.getElem?_eq_some_iff.1 htok
      omega
    · have hone : j = 1 := by omega
      subst hone
      obtain ⟨rng₁, rng₂, hdraw⟩ := hnew tok (List.mem_of_getElem? (i := 0) htok)
      rw [hsample] at hdraw
      cases hdraw
      exact hinexact hok
  · rintro ⟨hprompt, hresend⟩ C fwd cache
    exact loopsAgree_of_exact hne hlt hpos hcold hcb hprompt hresend fwd cache rng user

end

theorem loops_agree_small : LoopsAgree idNumerics halfRng (constForward [0, 1, 0]) smallWindow [1, 2]
    2 0 (fun _ _ u => (true, u)) () () () := by
  have hresend : ResendsExact smallWindow [1, 2] 2 := by
    refine .inr fun t hnonneg hvocab _ => floatExact_of_le ?_
    change t < 3 at hvocab
    omega
  exact (loops_agree_iff (List.cons_ne_nil 1 [2]) (by decide) (by decide) (by norm_num)
    (fun _ _ _ => rfl) () ()).2 ⟨by decide, hresend⟩ Unit (constForward [0, 1, 0]) ()

/-- The token `16777217` of a prompt reaches the workers as `16777216`. -/
theorem not_loops_agree_odd : ¬ LoopsAgree idNumerics halfRng (constForward [0, 1, 0]) smallWindow
    [16777217] 1 0 (fun _ _ u => (true, u)) () () () := by
  intro h
  have hcalls := h.cluster_calls
  revert hcalls
  decide +kernel

end Terllama
