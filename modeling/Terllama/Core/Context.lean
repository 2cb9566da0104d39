import Terllama.Core.Generation

/-!
# Positions and tokens of the forward calls

What the three generation loops feed to the forward pass, read off a log of its calls (`traced`).
`generation_in_context`: the positions are `0, 1, 2, …`, all of them inside the context window.
`fedOnce_iff`: a sequence is fed element by element only where no token is generated, because the
decode loop starts with the last token of the prompt, which the prefill loop has fed before.
-/

namespace Terllama

/-! ## Traced forward passes -/

section
variable {K C R U : Type}

/-- A forward pass that keeps a log of its calls, tokens with positions. -/
def Forward.traced (fwd : Forward K C) : Forward K (C × List (Int × Int)) where
  reset c := ((fwd.reset c.1).1, (fwd.reset c.1).2, c.2)
  forward tok pos c :=
    ((fwd.forward tok pos c.1).1, (fwd.forward tok pos c.1).2, c.2 ++ [(tok, pos)])

/-- Workers that keep a log of the pipeline calls, inputs with positions. -/
def Cluster.traced (cl : Cluster K C) : Cluster K (C × List (List F32 × Int)) where
  reset c := ((cl.reset c.1).1, (cl.reset c.1).2, c.2)
  pipeline pos input kind c :=
    ((cl.pipeline pos input kind c.1).1, (cl.pipeline pos input kind c.1).2, c.2 ++ [(input, pos)])

theorem Forward.logs_traced (fwd : Forward K C) :
    Logs fwd.traced Prod.snd fun tok pos => [(tok, pos)] :=
  ⟨fun _ => rfl, fun _ _ _ => rfl⟩

theorem Cluster.logs_traced (cl : Cluster K C) :
    Logs cl.traced.forward Prod.snd fun tok pos => [([F32.ofInt tok], pos)] :=
  ⟨fun _ => rfl, fun _ _ _ => rfl⟩

theorem Forward.Returns.traced {fwd : Forward K C} (hret : fwd.Returns) : fwd.traced.Returns :=
  ⟨fun c => hret.reset c.1, fun tok pos c => hret.forward tok pos c.1⟩

end

/-! ## The context window -/

/-- The forward calls are at the positions `0, 1, 2, …`, the KV cache takes each of them, there are no
more tokens than asked for, and none comes after `eos`. -/
structure InContext (maxSeq maxTokens eos : Int) (calls out : List Int) : Prop where
  consecutive : calls = positions 0 calls.length
  takes : ∀ pos ∈ calls, KVCache.takes maxSeq pos = true
  budget : (out.length : Int) ≤ max 0 maxTokens
  eos_last : ∀ i, out[i]? = some eos → i + 1 = out.length

section
variable {K C R U α : Type} {fwd : Forward K C} {log : C → List α} {call : Int → Int → List α}

theorem mem_positions {pos p : Int} {n : Nat} (hp : p ∈ positions pos n) :
    pos ≤ p ∧ p < pos + n := by
  rw [positions_eq] at hp
  obtain ⟨i, hi, rfl⟩ := List.mem_map.1 hp
  have hi := List.mem_range.1 hi
  omega

/-- The positions of the calls of one loop. -/
theorem map_zipWith_positions {entry : Int → Int → α} {position : α → Int}
    (hentry : ∀ tok pos, position (entry tok pos) = pos) {toks : List Int} {pos : Int} {n : Nat}
    (hn : n ≤ toks.length) :
    (List.zipWith (fun tok pos => [entry tok pos]) toks (positions pos n)).flatten.map position =
      positions pos n := by
  induction n generalizing toks pos with
  | zero => rw [positions, List.zipWith_nil_right]; rfl
  | succ n ih =>
    cases toks with
    | nil => exact absurd hn (Nat.not_succ_le_zero n)
    | cons tok toks =>
      rw [positions, List.zipWith_cons_cons, List.flatten_cons, List.map_append,
        ih (Nat.le_of_succ_le_succ hn), List.map_singleton, hentry]
      rfl

variable {sample : List Int → List K → R → Exec (Int × R)}
  {callback : Option (Int → List K → U → Bool × U)}

/-- A generation whose prompt and budget fit the window stays in it. -/
theorem phases_inContext {entry : Int → Int → α} {position : α → Int}
    (hlog : Logs fwd log fun tok pos => [entry tok pos])
    (hentry : ∀ tok pos, position (entry tok pos) = pos) {maxSeq maxTokens : Int}
    (eos next : Int) {toks : List Int} {nPrompt : Int} (hlen : (toks.length : Int) = nPrompt)
    {left : Nat} (hfit : nPrompt + left ≤ maxSeq) (hbudget : (left : Int) ≤ max 0 maxTokens)
    {s : GenState C R U} (hstart : log s.cache = []) (hout : s.out = []) :
    InContext maxSeq maxTokens eos
      ((log (phases fwd sample callback eos toks next nPrompt left s).2.cache).map position)
      (phases fwd sample callback eos toks next nPrompt left s).2.out := by
  subst hlen
  obtain ⟨m, n, new, hrun⟩ : ∃ m n new, PhasesRun fwd eos log _ toks next left s
      (phases fwd sample callback eos toks next toks.length left s).2 m n new :=
    phases_run hlog toks next left s
  have hcalls : (log (phases fwd sample callback eos toks next toks.length left s).2.cache).map
      position = positions 0 (m + n) := by
    rw [hrun.log, hstart, List.nil_append, List.map_append,
      map_zipWith_positions hentry hrun.prefill_le,
      map_zipWith_positions hentry hrun.calls_le_tokens]
    rcases Nat.eq_zero_or_pos n with hn | hn
    · subst hn
      exact List.append_nil _
    · rw [← hrun.decode_after hn, ← positions_append, zero_add]
  have hnew : (phases fwd sample callback eos toks next toks.length left s).2.out = new := by
    rw [hrun.out, hout, List.nil_append]
  have hle := hrun.prefill_le
  have hcalls_le := hrun.calls_le
  refine ⟨?_, fun pos hpos => ?_, ?_, ?_⟩
  · rw [hcalls, length_positions]
  · rw [hcalls] at hpos
    have hbounds := mem_positions hpos
    have hpos : ¬ pos < 0 := by omega
    have hlt : ¬ pos ≥ maxSeq := by omega
    simp only [KVCache.takes, decide_eq_false hpos, decide_eq_false hlt]
    rfl
  · have hle := hrun.tokens_le
    rw [hnew]
    omega
  · rw [hnew]
    exact hrun.eos_last

/-- A generation that does nothing. -/
theorem inContext_nil (maxSeq maxTokens eos : Int) : InContext maxSeq maxTokens eos [] [] :=
  ⟨rfl, nofun, le_max_left _ _, nofun⟩

end

section
variable {K C R U : Type} [Field K] [LinearOrder K] (num : Numerics K) (gen : Rng R K)

theorem prefillLength_bounds {cfg : ModelConfig} (h : 0 ≤ cfg.maxPositionEmbeddings)
    (prompt : List Int) :
    0 ≤ prefillLength cfg prompt ∧ prefillLength cfg prompt ≤ cfg.maxPositionEmbeddings ∧
      prefillLength cfg prompt ≤ prompt.length := by
  unfold prefillLength
  split <;> omega

/-- What the budget leaves of the window and of the tokens asked for. -/
theorem tokenBudget_bounds {cfg : ModelConfig} {nPrompt : Int}
    (h : nPrompt ≤ cfg.maxPositionEmbeddings) (maxTokens : Int) :
    nPrompt + (tokenBudget cfg nPrompt maxTokens).toNat ≤ cfg.maxPositionEmbeddings ∧
      ((tokenBudget cfg nPrompt maxTokens).toNat : Int) ≤ max 0 maxTokens := by
  unfold tokenBudget
  split <;> omega

/-- The shared body of `generate_stream` and `generate` stays in the context window. -/
theorem generation_inContext (fwd : Forward K C) {cfg : ModelConfig}
    (h : 0 ≤ cfg.maxPositionEmbeddings) (prompt : List Int) (maxTokens : Int) (temperature : K)
    (callback : Option (Int → List K → U → Bool × U)) (cache : C) (rng : R) (user : U) :
    InContext cfg.maxPositionEmbeddings maxTokens cfg.eosTokenId
      ((generation num gen fwd.traced cfg prompt maxTokens temperature callback
        { cache := (cache, []), rng, user }).2.cache.2.map Prod.snd)
      (generation num gen fwd.traced cfg prompt maxTokens temperature callback
        { cache := (cache, []), rng, user }).2.out := by
  obtain ⟨hnonneg, hmax, hprompt⟩ := prefillLength_bounds h prompt
  obtain ⟨hfit, hbudget⟩ := tokenBudget_bounds hmax maxTokens
  have hlen : ((prompt.take (prefillLength cfg prompt).toNat).length : Int) =
      prefillLength cfg prompt := by
    rw [List.length_take]
    omega
  exact phases_inContext fwd.logs_traced (fun _ _ => rfl) _ _ hlen hfit hbudget rfl rfl

theorem coordinator_inContext (cl : Cluster K C) (cfg : ModelConfig) (prompt : List Int)
    (maxTokens : Int) (temperature : K) (prevTokens : List Int)
    (onToken : Option (Int → U → Bool × U)) (cache : C) (rng : R) (user : U) :
    InContext cfg.maxPositionEmbeddings maxTokens cfg.eosTokenId
      ((Coordinator.generate num gen cl.traced cfg prompt maxTokens temperature prevTokens onToken
        (cache, []) rng user).2.cache.2.map Prod.snd)
      (Coordinator.generate num gen cl.traced cfg prompt maxTokens temperature prevTokens onToken
        (cache, []) rng user).2.out := by
  rw [Coordinator.generate]
  split
  · exact inContext_nil _ _ _
  rename_i hprompt
  have hpos : 0 < maxTokens := by
    rw [Bool.or_eq_true, not_or] at hprompt
    exact not_le.1 fun hle => hprompt.2 (decide_eq_true hle)
  dsimp only
  split
  · exact inContext_nil _ _ _
  rename_i hroom
  split
  · exact inContext_nil _ _ _
  have hbudget : prompt.length + Coordinator.budget cfg prompt.length maxTokens ≤
      cfg.maxPositionEmbeddings ∧ Coordinator.budget cfg prompt.length maxTokens ≤ maxTokens := by
    unfold Coordinator.budget
    split <;> omega
  exact phases_inContext cl.logs_traced (fun _ _ => rfl) _ _ rfl (by omega) (by omega) rfl rfl

/-- Every run of the three generation loops stays in the context window, whatever the forward pass
and the sampler do. -/
theorem generation_in_context (cfg : ModelConfig) (h : 0 ≤ cfg.maxPositionEmbeddings)
    (prompt : List Int) (maxTokens : Int) (temperature : K) (cache : C) (rng : R) :
    (∀ fwd : Forward K C, InContext cfg.maxPositionEmbeddings maxTokens cfg.eosTokenId
      ((generate num gen fwd.traced cfg prompt maxTokens temperature (cache, []) rng).2.cache.2.map
        Prod.snd)
      (generate num gen fwd.traced cfg prompt maxTokens temperature (cache, []) rng).2.out) ∧
    (∀ (fwd : Forward K C) (callback : Option (Int → List K → U → Bool × U)) (user : U),
      InContext cfg.maxPositionEmbeddings maxTokens cfg.eosTokenId
        ((generateStream num gen fwd.traced cfg prompt maxTokens temperature callback (cache, [])
          rng user).2.cache.2.map Prod.snd)
        (generateStream num gen fwd.traced cfg prompt maxTokens temperature callback (cache, [])
          rng user).2.out) ∧
    ∀ (cl : Cluster K C) (prevTokens : List Int) (onToken : Option (Int → U → Bool × U)) (user : U),
      InContext cfg.maxPositionEmbeddings maxTokens cfg.eosTokenId
        ((Coordinator.generate num gen cl.traced cfg prompt maxTokens temperature prevTokens onToken
          (cache, []) rng user).2.cache.2.map Prod.snd)
        (Coordinator.generate num gen cl.traced cfg prompt maxTokens temperature prevTokens onToken
          (cache, []) rng user).2.out :=
  ⟨fun fwd => generation_inContext num gen fwd h prompt maxTokens temperature none cache rng (),
    fun fwd callback user =>
      generation_inContext num gen fwd h prompt maxTokens temperature callback cache rng user,
    fun cl prevTokens onToken user => coordinator_inContext num gen cl cfg prompt maxTokens
      temperature prevTokens onToken cache rng user⟩

end

/-- A forward pass without a cache that gives every token the same logits. -/
def constForward {K : Type} (logits : List K) : Forward K Unit :=
  ⟨fun c => (.ok (), c), fun _ _ c => (.ok logits, c)⟩

/-- The identity for every elementary function. -/
def idNumerics : Numerics ℚ := ⟨id, id, id, id, fun x _ => x⟩

/-- A generator that draws `1 / 2`. -/
def halfRng : Rng Unit ℚ := ⟨fun r => (1 / 2, r)⟩

/-- A model with three tokens and a window of four positions. -/
def smallWindow : ModelConfig where
  vocabSize := 3
  hiddenSize := 1
  intermediateSize := 1
  numHiddenLayers := 1
  numAttentionHeads := 1
  numKeyValueHeads := 1
  rmsNormEps := 0
  ropeTheta := 0
  maxPositionEmbeddings := 4
  headDim := 1
  eosTokenId := 2

theorem generation_in_context_small : InContext 4 9 2
    ((generate idNumerics halfRng (constForward [0, 1, 0]).traced smallWindow [5, 6, 7, 8, 9] 9 0
      ((), []) ()).2.cache.2.map Prod.snd)
    (generate idNumerics halfRng (constForward [0, 1, 0]).traced smallWindow [5, 6, 7, 8, 9] 9 0
      ((), []) ()).2.out :=
  (generation_in_context (U := Unit) idNumerics halfRng smallWindow (by decide) [5, 6, 7, 8, 9] 9 0
    () ()).1 (constForward [0, 1, 0])

/-! ## Each token once -/

/-- The sequence of the prompt and the generated tokens is fed to the forward pass element by
element, each at its own position, and a generated token is sampled from the logits of the position
before its own. -/
structure FedOnce (prompt out : List Int) (calls : List (Int × Int)) (drawn : List Int) : Prop where
  token : ∀ call ∈ calls, 0 ≤ call.2 ∧ (prompt ++ out)[call.2.toNat]? = some call.1
  once : (calls.map Prod.snd).Nodup
  drawn : ∀ i < out.length, drawn[i]? = some (prompt.length + i - 1 : Int)

section
variable {K C R U : Type} [Field K] [LinearOrder K] (num : Numerics K) (gen : Rng R K)

theorem zipWith_singleton_flatten {toks : List Int} {pos : Int} {n : Nat} :
    (List.zipWith (fun tok pos => [(tok, pos)]) toks (positions pos n)).flatten =
      List.zip toks (positions pos n) := by
  induction n generalizing toks pos with
  | zero => rw [positions, List.zipWith_nil_right, List.zip_nil_right]; rfl
  | succ n ih =>
    cases toks with
    | nil => rfl
    | cons tok toks =>
      rw [positions, List.zipWith_cons_cons, List.flatten_cons, List.zip_cons_cons, ih]
      rfl

theorem getElem?_positions (pos : Int) {n i : Nat} (hi : i < n) :
    (positions pos n)[i]? = some (pos + i) := by
  rw [positions_eq, List.getElem?_map, List.getElem?_range hi]
  rfl

/-- A prompt that is fed from position `0` on is fed element by element. -/
theorem fedOnce_prompt (prompt : List Int) :
    FedOnce prompt [] (List.zip prompt (positions 0 prompt.length)) [] where
  token call hcall := by
    obtain ⟨i, hi, hcall⟩ := List.getElem_of_mem hcall
    have hlen : i < prompt.length := by
      rw [List.length_zip] at hi
      omega
    have hpos := getElem?_positions 0 hlen
    rw [List.getElem_zip] at hcall
    rw [List.getElem?_eq_getElem (by rwa [length_positions]), Option.some.injEq] at hpos
    subst hcall
    rw [hpos, zero_add, List.append_nil]
    exact ⟨Int.natCast_nonneg i, by rw [Int.toNat_natCast, List.getElem?_eq_getElem hlen]⟩
  once := by
    have hle : (positions 0 prompt.length).length ≤ prompt.length := (length_positions _ _).le
    rw [List.map_snd_zip hle, positions_eq]
    refine List.nodup_range.map fun i j hij => ?_
    omega
  drawn := nofun

/-- The shared body of `generate_stream` and `generate` feeds each token once only where it generates
none. -/
theorem generation_fedOnce_iff {fwd : Forward K C} (hret : fwd.Returns) {cfg : ModelConfig}
    {prompt : List Int} (hne : prompt ≠ []) (hlt : (prompt.length : Int) < cfg.maxPositionEmbeddings)
    (maxTokens : Int) (temperature : K) (callback : Option (Int → List K → U → Bool × U))
    (cache : C) (rng : R) (user : U) :
    FedOnce prompt
        (generation num gen fwd.traced cfg prompt maxTokens temperature callback
          { cache := (cache, []), rng, user }).2.out
        (generation num gen fwd.traced cfg prompt maxTokens temperature callback
          { cache := (cache, []), rng, user }).2.cache.2
        (generation num gen fwd.traced cfg prompt maxTokens temperature callback
          { cache := (cache, []), rng, user }).2.drawn ↔
      maxTokens ≤ 0 := by
  have hnPrompt : prefillLength cfg prompt = prompt.length := if_neg (not_le.2 hlt)
  have htake : prompt.take (prompt.length : Int).toNat = prompt := by
    rw [Int.toNat_natCast, List.take_length]
  have hpos : (0 : Int) < prompt.length := by exact_mod_cast List.length_pos_iff.2 hne
  have hleft : (tokenBudget cfg prompt.length maxTokens).toNat = 0 ↔ maxTokens ≤ 0 := by
    unfold tokenBudget
    split <;> omega
  rw [generation, hnPrompt, htake, ← hleft, if_pos hpos]
  obtain ⟨m, n, new, hrun⟩ : ∃ m n new, PhasesRun fwd.traced cfg.eosTokenId Prod.snd _ prompt
      (prompt.getD ((prompt.length : Int).toNat - 1) 0)
      (tokenBudget cfg prompt.length maxTokens).toNat { cache := (cache, []), rng, user }
      (phases fwd.traced (fun out => sampleToken num gen cfg.vocabSize temperature (recentOf out)
        (23 / 20)) callback cfg.eosTokenId prompt
        (prompt.getD ((prompt.length : Int).toNat - 1) 0) prompt.length
        (tokenBudget cfg prompt.length maxTokens).toNat
        { cache := (cache, []), rng, user }).2 m n new :=
    phases_run fwd.logs_traced _ _ _ _
  obtain ⟨hm, hcalls⟩ := hrun.complete hret.traced
  rw [hrun.out, hrun.log, hrun.drawn, List.nil_append, List.nil_append, List.nil_append,
    zipWith_singleton_flatten, zipWith_singleton_flatten, hm]
  constructor
  · intro hfed
    by_contra hne
    obtain ⟨n, rfl⟩ := Nat.exists_eq_succ_of_ne_zero
      (Nat.pos_iff_ne_zero.1 (hcalls (Nat.pos_of_ne_zero hne)))
    cases new with
    | nil =>
      -- the decode loop has called at a position that no element has
      obtain ⟨-, htok⟩ := hfed.token (_, (prompt.length : Int))
        (List.mem_append_right _ List.mem_cons_self)
      rw [List.append_nil, Int.toNat_natCast, List.getElem?_eq_none (Nat.le_refl _)] at htok
      cases htok
    | cons tok new =>
      have hdrawn := hfed.drawn 0 (Nat.succ_pos _)
      rw [List.length_cons, positions, List.getElem?_cons_zero, Option.some.injEq] at hdrawn
      omega
  · intro hleft
    have hn : n = 0 := Nat.le_zero.1 (hleft ▸ hrun.calls_le)
    have hnew : new = [] := List.length_eq_zero_iff.1 (Nat.le_zero.1 (hn ▸ hrun.tokens_le))
    subst hn hnew
    rw [positions, List.zip_nil_right, List.append_nil]
    exact fedOnce_prompt prompt

/-- `generate` and `generate_stream` feed every element of the sequence once, and sample every token
from its predecessor's logits, exactly where they are to generate no token: the decode loop feeds
the last token of the prompt a second time. -/
theorem fedOnce_iff {fwd : Forward K C} (hret : fwd.Returns) {cfg : ModelConfig}
    {prompt : List Int} (hne : prompt ≠ []) (hlt : (prompt.length : Int) < cfg.maxPositionEmbeddings)
    (maxTokens : Int) (temperature : K) (callback : Option (Int → List K → U → Bool × U))
    (cache : C) (rng : R) (user : U) :
    (FedOnce prompt
        (generate num gen fwd.traced cfg prompt maxTokens temperature (cache, []) rng).2.out
        (generate num gen fwd.traced cfg prompt maxTokens temperature (cache, []) rng).2.cache.2
        (generate num gen fwd.traced cfg prompt maxTokens temperature (cache, []) rng).2.drawn ↔
      maxTokens ≤ 0) ∧
    (FedOnce prompt
        (generateStream num gen fwd.traced cfg prompt maxTokens temperature callback (cache, []) rng
          user).2.out
        (generateStream num gen fwd.traced cfg prompt maxTokens temperature callback (cache, []) rng
          user).2.cache.2
        (generateStream num gen fwd.traced cfg prompt maxTokens temperature callback (cache, []) rng
          user).2.drawn ↔
      maxTokens ≤ 0) :=
  ⟨generation_fedOnce_iff num gen hret hne hlt maxTokens temperature none cache rng (),
    generation_fedOnce_iff num gen hret hne hlt maxTokens temperature callback cache rng user⟩

end

theorem fedOnce_none : FedOnce [5, 6]
    (generate idNumerics halfRng (constForward [0, 1, 0]).traced smallWindow [5, 6] 0 0
      ((), []) ()).2.out
    (generate idNumerics halfRng (constForward [0, 1, 0]).traced smallWindow [5, 6] 0 0
      ((), []) ()).2.cache.2
    (generate idNumerics halfRng (constForward [0, 1, 0]).traced smallWindow [5, 6] 0 0
      ((), []) ()).2.drawn :=
  (fedOnce_iff (U := Unit) idNumerics halfRng ⟨fun _ => rfl, fun _ _ _ => ⟨_, rfl⟩⟩
    (List.cons_ne_nil 5 [6]) (by decide) 0 0 none () () ()).1.2 (le_refl 0)

/-- With the prompt `[5, 6]` the token `6` is fed at position 1 and again at position 2. -/
theorem not_fedOnce_two : ¬ FedOnce [5, 6]
    (generate idNumerics halfRng (constForward [0, 1, 0]).traced smallWindow [5, 6] 2 0
      ((), []) ()).2.out
    (generate idNumerics halfRng (constForward [0, 1, 0]).traced smallWindow [5, 6] 2 0
      ((), []) ()).2.cache.2
    (generate idNumerics halfRng (constForward [0, 1, 0]).traced smallWindow [5, 6] 2 0
      ((), []) ()).2.drawn := by
  intro hfed
  have htok := (hfed.token (6, 2) (by decide +kernel)).2
  revert htok
  decide +kernel

end Terllama
