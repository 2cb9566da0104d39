import Terllama.Base.FloatInt
import Terllama.Core.KVCache
import Terllama.Core.Sampling
import Terllama.Model

/-!
# The generation loops

`generate` and `generate_stream` of `src/core/inference.cpp` and `Coordinator::generate` of
`src/distributed/coordinator.cpp`. The forward pass is a parameter: a `Forward` for the loops of one
device, a `Cluster` for the coordinator, which sends a token as a `float`. A loop keeps the emitted
tokens and, for each of them, the position whose logits it was sampled from; `traced` adds a log of
the forward calls, which also a run that ends in an exception leaves behind.

`DecodeRun` says once what the decode loop can do. The size of a prompt is taken to fit an `int`.
-/

namespace Terllama

/-! ## The loops -/

/-- The forward pass of one device over the state `C`: `reset` makes a new KV cache, and `forward`
takes a token and a position. -/
structure Forward (K C : Type) where
  reset : C → Exec Unit × C
  forward : Int → Int → C → Exec (List K) × C

/-- `kInputToken`. -/
def kInputToken : UInt32 := 0

/-- `kInputHidden`. -/
def kInputHidden : UInt32 := 1

/-- The workers of a coordinator over the state `C`: `post_reset` to each of them, and `pipeline`. -/
structure Cluster (K C : Type) where
  reset : C → Exec Unit × C
  pipeline : Int → List F32 → UInt32 → C → Exec (List K) × C

/-- What a generation loop changes. -/
structure GenState (C R U : Type) where
  /-- The state of the forward pass. -/
  cache : C
  rng : R
  /-- `userdata`. -/
  user : U
  /-- `output_tokens`. -/
  out : List Int := []
  /-- The position of the logits each output token was sampled from. -/
  drawn : List Int := []

section
variable {K C R U : Type}

/-- A call of the forward pass. -/
def GenState.call (fwd : Forward K C) (tok pos : Int) (s : GenState C R U) :
    Exec (List K) × GenState C R U :=
  ((fwd.forward tok pos s.cache).1, { s with cache := (fwd.forward tok pos s.cache).2 })

/-- The prefill loop. -/
def prefill (fwd : Forward K C) : List Int → Int → GenState C R U → Exec Unit × GenState C R U
  | [], _, s => (.ok (), s)
  | tok :: toks, pos, s =>
    match s.call fwd tok pos with
    | (.error e, s) => (.error e, s)
    | (.ok _, s) => prefill fwd toks (pos + 1) s

/-- The decode loop, for as many tokens as are left; `false` where the callback ended it. -/
def decode (fwd : Forward K C) (sample : List Int → List K → R → Exec (Int × R))
    (callback : Option (Int → List K → U → Bool × U)) (eos : Int) :
    Nat → Int → Int → GenState C R U → Exec Bool × GenState C R U
  | 0, _, _, s => (.ok true, s)
  | left + 1, next, pos, s =>
    match s.call fwd next pos with
    | (.error e, s) => (.error e, s)
    | (.ok logits, s) =>
      match sample s.out logits s.rng with
      | .error e => (.error e, s)
      | .ok (tok, rng) =>
        let s := { s with rng, out := s.out ++ [tok], drawn := s.drawn ++ [pos] }
        match callback with
        | none =>
          if tok = eos then (.ok true, s) else decode fwd sample callback eos left tok (pos + 1) s
        | some cb =>
          let (goOn, user) := cb tok logits s.user
          let s := { s with user }
          if !goOn then (.ok false, s)
          else if tok = eos then (.ok true, s)
          else decode fwd sample callback eos left tok (pos + 1) s

/-- A generation: a new KV cache, the prefill loop and the decode loop. -/
def phases (fwd : Forward K C) (sample : List Int → List K → R → Exec (Int × R))
    (callback : Option (Int → List K → U → Bool × U)) (eos : Int) (toks : List Int)
    (next nPrompt : Int) (left : Nat) (s : GenState C R U) : Exec Bool × GenState C R U :=
  match fwd.reset s.cache with
  | (.error e, cache) => (.error e, { s with cache })
  | (.ok _, cache) =>
    match prefill fwd toks 0 { s with cache } with
    | (.error e, s) => (.error e, s)
    | (.ok _, s) => decode fwd sample callback eos left next nPrompt s

end

section
variable {K C R U : Type} [Field K] [LinearOrder K] (num : Numerics K) (gen : Rng R K)

/-- The next token from the logits. -/
def sampleToken (vocab : Int) (temperature : K) (recent : List Int) (repeatPenalty : K)
    (logits : List K) (rng : R) : Exec (Int × R) :=
  if temperature < 1 / 100 then do
    let tok ← sampleArgmax logits vocab
    return (tok, rng)
  else sampleMultinomial num gen logits vocab temperature recent repeatPenalty rng

/-- `recent`: the last eight output tokens. -/
def recentOf (out : List Int) : List Int := out.drop (out.length - 8)

/-- `n_prompt` after the truncation of the prefill. -/
def prefillLength (cfg : ModelConfig) (prompt : List Int) : Int :=
  if (prompt.length : Int) ≥ cfg.maxPositionEmbeddings then max 0 (cfg.maxPositionEmbeddings - 1)
  else prompt.length

/-- `max_tokens` after the limit of the KV cache. -/
def tokenBudget (cfg : ModelConfig) (nPrompt maxTokens : Int) : Int :=
  if maxTokens > cfg.maxPositionEmbeddings - nPrompt then
    max 0 (cfg.maxPositionEmbeddings - nPrompt)
  else maxTokens

/-- The body that `generate_stream` and `generate` share. -/
def generation (fwd : Forward K C) (cfg : ModelConfig) (prompt : List Int) (maxTokens : Int)
    (temperature : K) (callback : Option (Int → List K → U → Bool × U)) (s : GenState C R U) :
    Exec Bool × GenState C R U :=
  let nPrompt := prefillLength cfg prompt
  let nextToken :=
    if nPrompt > 0 then prompt.getD (nPrompt.toNat - 1) 0
    else if cfg.eosTokenId ≥ 0 then cfg.eosTokenId else 0
  phases fwd
    (fun out => sampleToken num gen cfg.vocabSize temperature (recentOf out) (23 / 20))
    callback cfg.eosTokenId (prompt.take nPrompt.toNat) nextToken nPrompt
    (tokenBudget cfg nPrompt maxTokens).toNat s

/-- `generate_stream`. -/
def generateStream (fwd : Forward K C) (cfg : ModelConfig) (prompt : List Int) (maxTokens : Int)
    (temperature : K) (callback : Option (Int → List K → U → Bool × U)) (cache : C) (rng : R)
    (user : U) : Exec Bool × GenState C R U :=
  generation num gen fwd cfg prompt maxTokens temperature callback { cache, rng, user }

/-- `generate`, without the time it took. -/
def generate (fwd : Forward K C) (cfg : ModelConfig) (prompt : List Int) (maxTokens : Int)
    (temperature : K) (cache : C) (rng : R) : Exec (List Int) × GenState C R Unit :=
  let (r, s) := generation num gen fwd cfg prompt maxTokens temperature none
    { cache, rng, user := () }
  (r.map fun _ => s.out, s)

/-- The forward pass as the coordinator calls it. -/
def Cluster.forward (cl : Cluster K C) : Forward K C where
  reset := cl.reset
  forward tok pos c := cl.pipeline pos [F32.ofInt tok] kInputToken c

/-- `recent.push_back(tok)`, and the first one out where there are more than eight. -/
def pushRecent (recent : List Int) (tok : Int) : List Int :=
  if (recent ++ [tok]).length > 8 then (recent ++ [tok]).tail else recent ++ [tok]

/-- `max_tokens` after the limit of `Coordinator::generate`. -/
def Coordinator.budget (cfg : ModelConfig) (nPrompt maxTokens : Int) : Int :=
  if maxTokens > cfg.maxPositionEmbeddings - nPrompt then cfg.maxPositionEmbeddings - nPrompt
  else maxTokens

/-- `Coordinator::generate`. -/
def Coordinator.generate (cl : Cluster K C) (cfg : ModelConfig) (prompt : List Int)
    (maxTokens : Int) (temperature : K) (prevTokens : List Int)
    (onToken : Option (Int → U → Bool × U)) (cache : C) (rng : R) (user : U) :
    Exec (List Int) × GenState C R U :=
  if prompt.isEmpty || maxTokens ≤ 0 then (.ok [], { cache, rng, user })
  else
    let nPrompt : Int := prompt.length
    if nPrompt ≥ cfg.maxPositionEmbeddings then (.ok [], { cache, rng, user })
    else
      let maxTokens := Coordinator.budget cfg nPrompt maxTokens
      if maxTokens ≤ 0 then (.ok [], { cache, rng, user })
      else
        let (r, s) := phases cl.forward
          (fun out => sampleToken num gen cfg.vocabSize temperature
            (out.foldl pushRecent (recentOf prevTokens)) (11 / 10))
          (onToken.map fun f tok _ user => f tok user) cfg.eosTokenId prompt (prompt.getLastD 0)
          nPrompt maxTokens.toNat { cache, rng, user }
        (r.map fun _ => s.out, s)

end

/-! ## What a loop can do -/

/-- The positions from `pos` on. -/
def positions (pos : Int) : Nat → List Int
  | 0 => []
  | n + 1 => pos :: positions (pos + 1) n

theorem positions_eq (pos : Int) (n : Nat) :
    positions pos n = (List.range n).map fun i : Nat => pos + i := by
  induction n generalizing pos with
  | zero => rfl
  | succ n ih =>
    rw [positions, ih, List.range_succ_eq_map, List.map_cons, List.map_map, Nat.cast_zero, add_zero]
    refine congrArg _ (List.map_congr_left fun i _ => ?_)
    rw [Function.comp_apply]
    push_cast
    ring

@[simp] theorem length_positions (pos : Int) (n : Nat) : (positions pos n).length = n := by
  rw [positions_eq, List.length_map, List.length_range]

theorem positions_append (pos : Int) (m n : Nat) :
    positions pos m ++ positions (pos + m) n = positions pos (m + n) := by
  induction m generalizing pos with
  | zero => rw [Nat.cast_zero, add_zero, Nat.zero_add]; rfl
  | succ m ih =>
    rw [Nat.add_right_comm, positions, positions, List.cons_append, ← ih]
    push_cast
    rw [add_assoc, add_comm 1]

section
variable {K C R U α : Type} {fwd : Forward K C} {log : C → List α} {call : Int → Int → List α}

/-- Every forward call adds its entries to the log, and a reset adds none. -/
structure Logs (fwd : Forward K C) (log : C → List α) (call : Int → Int → List α) : Prop where
  reset : ∀ c, log (fwd.reset c).2 = log c
  forward : ∀ tok pos c, log (fwd.forward tok pos c).2 = log c ++ call tok pos

/-- What a run of the prefill loop does: it calls on a prefix of the tokens, on all of them where it
returns. -/
theorem prefill_run (hlog : Logs fwd log call) (toks : List Int) (pos : Int)
    (s : GenState C R U) :
    ∃ n ≤ toks.length, ((prefill fwd toks pos s).1 = .ok () → n = toks.length) ∧
      (prefill fwd toks pos s).2.out = s.out ∧ (prefill fwd toks pos s).2.drawn = s.drawn ∧
      log (prefill fwd toks pos s).2.cache =
        log s.cache ++ (List.zipWith call toks (positions pos n)).flatten := by
  induction toks generalizing pos s with
  | nil => exact ⟨0, Nat.le_refl 0, fun _ => rfl, rfl, rfl, (List.append_nil _).symm⟩
  | cons tok toks ih =>
    have hcall : log (s.call fwd tok pos).2.cache = log s.cache ++ call tok pos :=
      hlog.forward tok pos s.cache
    have hkeep : (s.call fwd tok pos).2.out = s.out ∧ (s.call fwd tok pos).2.drawn = s.drawn :=
      ⟨rfl, rfl⟩
    rw [prefill]
    rcases hr : s.call fwd tok pos with ⟨e | logits, s₁⟩
    · rw [hr] at hcall hkeep
      refine ⟨1, Nat.succ_le_succ (Nat.zero_le _), nofun, hkeep.1, hkeep.2, hcall.trans ?_⟩
      rw [positions, positions, List.zipWith_cons_cons, List.zipWith_nil_right,
        List.flatten_singleton]
    · rw [hr] at hcall hkeep
      obtain ⟨n, hn, hall, hout, hdrawn, hlog'⟩ := ih (pos + 1) s₁
      refine ⟨n + 1, Nat.succ_le_succ hn, fun hok => congrArg (· + 1) (hall hok),
        hout.trans hkeep.1, hdrawn.trans hkeep.2, hlog'.trans ?_⟩
      rw [hcall, positions, List.zipWith_cons_cons, List.flatten_cons, List.append_assoc]

/-- What a run of the decode loop does: `n` calls, the first on the token before, each later one on
the token sampled from the call before it, and one token a call, but the last where it throws. -/
structure DecodeRun (eos : Int) (log : C → List α) (call : Int → Int → List α) (left : Nat)
    (next pos : Int) (s s' : GenState C R U) (n : Nat) (new : List Int) : Prop where
  calls_le : n ≤ left
  calls_pos : 0 < left → 0 < n
  tokens_le : new.length ≤ n
  calls_le_tokens : n ≤ new.length + 1
  out : s'.out = s.out ++ new
  drawn : s'.drawn = s.drawn ++ positions pos new.length
  log : log s'.cache =
    log s.cache ++ (List.zipWith call (next :: new) (positions pos n)).flatten
  eos_last : ∀ i, new[i]? = some eos → i + 1 = new.length

variable {sample : List Int → List K → R → Exec (Int × R)}
  {callback : Option (Int → List K → U → Bool × U)} {eos : Int}

/-- A run of one call that ends before its token. -/
theorem decodeRun_throw {left : Nat} {next pos : Int} {s s₁ : GenState C R U}
    (hout : s₁.out = s.out) (hdrawn : s₁.drawn = s.drawn)
    (hlog : log s₁.cache = log s.cache ++ call next pos) :
    DecodeRun eos log call (left + 1) next pos s s₁ 1 [] where
  calls_le := Nat.succ_le_succ (Nat.zero_le left)
  calls_pos := fun _ => Nat.one_pos
  tokens_le := Nat.zero_le 1
  calls_le_tokens := Nat.le_refl 1
  out := hout.trans (List.append_nil _).symm
  drawn := hdrawn.trans (List.append_nil _).symm
  log := hlog.trans (congrArg _ (List.append_nil _).symm)
  eos_last := nofun

/-- A run that ends with its first token. -/
theorem decodeRun_one {left : Nat} {next pos tok : Int} {s s₁ : GenState C R U}
    (hout : s₁.out = s.out ++ [tok]) (hdrawn : s₁.drawn = s.drawn ++ [pos])
    (hlog : log s₁.cache = log s.cache ++ call next pos) :
    DecodeRun eos log call (left + 1) next pos s s₁ 1 [tok] where
  calls_le := Nat.succ_le_succ (Nat.zero_le left)
  calls_pos := fun _ => Nat.one_pos
  tokens_le := Nat.le_refl 1
  calls_le_tokens := Nat.le_succ 1
  out := hout
  drawn := hdrawn
  log := hlog.trans (congrArg _ (List.append_nil _).symm)
  eos_last i hi := by
    cases i with
    | zero => rfl
    | succ i => cases hi

/-- A run goes on after a token that is not `eos`. -/
theorem DecodeRun.cons {left n : Nat} {next pos tok : Int} {s s₁ s' : GenState C R U}
    {new : List Int} (hrun : DecodeRun eos log call left tok (pos + 1) s₁ s' n new)
    (htok : tok ≠ eos) (hout : s₁.out = s.out ++ [tok]) (hdrawn : s₁.drawn = s.drawn ++ [pos])
    (hlog : log s₁.cache = log s.cache ++ call next pos) :
    DecodeRun eos log call (left + 1) next pos s s' (n + 1) (tok :: new) where
  calls_le := Nat.succ_le_succ hrun.calls_le
  calls_pos := fun _ => Nat.succ_pos n
  tokens_le := Nat.succ_le_succ hrun.tokens_le
  calls_le_tokens := Nat.succ_le_succ hrun.calls_le_tokens
  out := by rw [hrun.out, hout, List.append_assoc]; rfl
  drawn := by rw [hrun.drawn, hdrawn, List.append_assoc]; rfl
  log := by
    rw [hrun.log, hlog, positions, List.zipWith_cons_cons, List.flatten_cons, List.append_assoc]
  eos_last i hi := by
    cases i with
    | zero => exact absurd (Option.some.inj hi) htok
    | succ i => exact congrArg (· + 1) (hrun.eos_last i hi)

/-- Every run of the decode loop is a `DecodeRun`. -/
theorem decode_run (hlog : Logs fwd log call) (left : Nat) (next pos : Int)
    (s : GenState C R U) :
    ∃ n new, DecodeRun eos log call left next pos s
      (decode fwd sample callback eos left next pos s).2 n new := by
  induction left generalizing next pos s with
  | zero =>
    exact ⟨0, [], Nat.le_refl 0, id, Nat.le_refl 0, Nat.zero_le 1, (List.append_nil _).symm,
      (List.append_nil _).symm, (List.append_nil _).symm, nofun⟩
  | succ left ih =>
    have hcall : log (s.call fwd next pos).2.cache = log s.cache ++ call next pos :=
      hlog.forward next pos s.cache
    have hkeep : (s.call fwd next pos).2.out = s.out ∧ (s.call fwd next pos).2.drawn = s.drawn :=
      ⟨rfl, rfl⟩
    rw [decode]
    rcases hr : s.call fwd next pos with ⟨e | logits, s₁⟩
    · rw [hr] at hcall hkeep
      exact ⟨1, [], decodeRun_throw hkeep.1 hkeep.2 hcall⟩
    · rw [hr] at hcall hkeep
      rcases hsample : sample s₁.out logits s₁.rng with e | ⟨tok, rng⟩
      · simp only [hsample]
        exact ⟨1, [], decodeRun_throw hkeep.1 hkeep.2 hcall⟩
      · simp only [hsample]
        have hout : s₁.out ++ [tok] = s.out ++ [tok] := congrArg (· ++ [tok]) hkeep.1
        have hdrawn : s₁.drawn ++ [pos] = s.drawn ++ [pos] := congrArg (· ++ [pos]) hkeep.2
        cases callback with
        | none =>
          by_cases htok : tok = eos
          · simp only [if_pos htok]
            exact ⟨1, [tok], decodeRun_one hout hdrawn hcall⟩
          · simp only [if_neg htok]
            obtain ⟨n, new, hrun⟩ := ih tok (pos + 1)
              { s₁ with rng, out := s₁.out ++ [tok], drawn := s₁.drawn ++ [pos] }
            exact ⟨n + 1, tok :: new, hrun.cons htok hout hdrawn hcall⟩
        | some cb =>
          rcases hcb : cb tok logits s₁.user with ⟨goOn, user⟩
          simp only [hcb]
          cases goOn with
          | false => exact ⟨1, [tok], decodeRun_one hout hdrawn hcall⟩
          | true =>
            by_cases htok : tok = eos
            · simp only [if_pos htok]
              exact ⟨1, [tok], decodeRun_one hout hdrawn hcall⟩
            · simp only [if_neg htok]
              obtain ⟨n, new, hrun⟩ := ih tok (pos + 1)
                { s₁ with rng, user, out := s₁.out ++ [tok], drawn := s₁.drawn ++ [pos] }
              exact ⟨n + 1, tok :: new, hrun.cons htok hout hdrawn hcall⟩

/-- A forward pass that never throws. -/
structure Forward.Returns (fwd : Forward K C) : Prop where
  reset : ∀ c, (fwd.reset c).1 = .ok ()
  forward : ∀ tok pos c, ∃ logits, (fwd.forward tok pos c).1 = .ok logits

theorem prefill_returns (hret : fwd.Returns) (toks : List Int) (pos : Int) (s : GenState C R U) :
    (prefill fwd toks pos s).1 = .ok () := by
  induction toks generalizing pos s with
  | nil => rfl
  | cons tok toks ih =>
    obtain ⟨logits, hlogits⟩ := hret.forward tok pos s.cache
    rw [prefill, GenState.call, hlogits]
    exact ih _ _

/-- What a generation does: `m` calls of the prefill loop, then a run of the decode loop. -/
structure PhasesRun (fwd : Forward K C) (eos : Int) (log : C → List α)
    (call : Int → Int → List α) (toks : List Int) (next : Int) (left : Nat)
    (s s' : GenState C R U) (m n : Nat) (new : List Int) : Prop where
  prefill_le : m ≤ toks.length
  decode_after : 0 < n → m = toks.length
  calls_le : n ≤ left
  tokens_le : new.length ≤ n
  calls_le_tokens : n ≤ new.length + 1
  out : s'.out = s.out ++ new
  drawn : s'.drawn = s.drawn ++ positions toks.length new.length
  log : log s'.cache = log s.cache ++ (List.zipWith call toks (positions 0 m)).flatten ++
    (List.zipWith call (next :: new) (positions toks.length n)).flatten
  eos_last : ∀ i, new[i]? = some eos → i + 1 = new.length
  complete : fwd.Returns → m = toks.length ∧ (0 < left → 0 < n)

/-- A generation that ends in its prefill. -/
theorem phasesRun_prefill {toks : List Int} {next : Int} {left m : Nat} {s s' : GenState C R U}
    (hle : m ≤ toks.length) (hout : s'.out = s.out) (hdrawn : s'.drawn = s.drawn)
    (hlog : log s'.cache = log s.cache ++ (List.zipWith call toks (positions 0 m)).flatten)
    (hthrow : ¬ fwd.Returns) : PhasesRun fwd eos log call toks next left s s' m 0 [] where
  prefill_le := hle
  decode_after := fun h => absurd h (Nat.lt_irrefl 0)
  calls_le := Nat.zero_le left
  tokens_le := Nat.le_refl 0
  calls_le_tokens := Nat.zero_le 1
  out := hout.trans (List.append_nil _).symm
  drawn := hdrawn.trans (List.append_nil _).symm
  log := hlog.trans (List.append_nil _).symm
  eos_last := nofun
  complete := fun hret => absurd hret hthrow

/-- Every generation is a `PhasesRun`. -/
theorem phases_run (hlog : Logs fwd log call) (toks : List Int) (next : Int) (left : Nat)
    (s : GenState C R U) :
    ∃ m n new, PhasesRun fwd eos log call toks next left s
      (phases fwd sample callback eos toks next toks.length left s).2 m n new := by
  have hreset : log (fwd.reset s.cache).2 = log s.cache := hlog.reset s.cache
  rw [phases]
  rcases hr : fwd.reset s.cache with ⟨e | _, cache⟩
  · rw [hr] at hreset
    refine ⟨0, 0, [], phasesRun_prefill (Nat.zero_le _) rfl rfl ?_ fun hret => ?_⟩
    · rw [positions, List.zipWith_nil_right]
      exact hreset.trans (List.append_nil _).symm
    · have hok := hret.reset s.cache
      rw [hr] at hok
      cases hok
  · rw [hr] at hreset
    obtain ⟨m, hm, hall, hout, hdrawn, hpre⟩ := prefill_run hlog toks 0 { s with cache }
    have hok : fwd.Returns → (prefill fwd toks 0 { s with cache }).1 = .ok () :=
      fun hret => prefill_returns hret _ _ _
    rw [hreset] at hpre
    dsimp only
    rcases hp : prefill fwd toks 0 { s with cache } with ⟨e | _, s₁⟩
    · rw [hp] at hout hdrawn hpre hok
      refine ⟨m, 0, [], phasesRun_prefill hm hout hdrawn hpre fun hret => ?_⟩
      cases hok hret
    · rw [hp] at hall hout hdrawn hpre
      have hm := hall rfl
      obtain ⟨n, new, hrun⟩ : ∃ n new, DecodeRun eos log call left next toks.length s₁
          (decode fwd sample callback eos left next toks.length s₁).2 n new :=
        decode_run hlog left next toks.length s₁
      exact ⟨m, n, new, {
        prefill_le := hm.le
        decode_after := fun _ => hm
        calls_le := hrun.calls_le
        tokens_le := hrun.tokens_le
        calls_le_tokens := hrun.calls_le_tokens
        out := hrun.out.trans (congrArg (· ++ new) hout)
        drawn := hrun.drawn.trans (congrArg (· ++ positions toks.length new.length) hdrawn)
        log := hrun.log.trans (congrArg (· ++ _) hpre)
        eos_last := hrun.eos_last
        complete := fun _ => ⟨hm, hrun.calls_pos⟩ }⟩

end

end Terllama
