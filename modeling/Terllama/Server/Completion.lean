import Terllama.Core.Context
import Terllama.Core.Detokenizer

/-!
# Answers that are not streamed

What `handle_chat_completions` and `handle_completions` of `src/server/handlers.cpp` and
`/v1/completions` of `distributed/coordinator.cpp` make of the tokens of a generation: the text, the
`finish_reason` and the token counts. The server takes the token 0 for EOS, the coordinator the EOS
of its model. `finish_reason_iff` says on which outcomes of the sampler the server is right.
-/

namespace Terllama

/-! ## The answer -/

/-- The `finish_reason` of output tokens that end with `stop`. -/
def finishReasonOf (stop : Int) (out : List Int) : String :=
  match out.getLast? with
  | none => "length"
  | some tok => if tok = stop then "stop" else "length"

/-- `finish_reason` in `handle_chat_completions` and in `handle_completions`. -/
def finishReason : List Int → String := finishReasonOf 0

/-- `finish_reason` in the coordinator. -/
def Coordinator.finishReason (cfg : ModelConfig) : List Int → String :=
  finishReasonOf cfg.eosTokenId

/-- The parts of an answer that the tokens decide. -/
structure Completion where
  content : Bytes
  finishReason : String
  promptTokens : Nat
  completionTokens : Nat
  totalTokens : Nat
  deriving DecidableEq, Repr

/-- The answer of the server to a prompt, of the output tokens. -/
def completionOf (t : Tokenizer) (giga : Option (List UInt32 → Bytes)) (prompt out : List Int) :
    Completion where
  content := generatedText (decodeWithFallback t giga) prompt out
  finishReason := finishReason out
  promptTokens := prompt.length
  completionTokens := out.length
  totalTokens := prompt.length + out.length

/-! ## What the sampler would draw -/

section
variable {K C R U : Type}

/-- The tokens that the decode loop samples within its budget, as far as nothing throws, were `eos`
not to end it. -/
def draws (fwd : Forward K C) (sample : List Int → List K → R → Exec (Int × R)) :
    Nat → Int → Int → GenState C R U → List Int
  | 0, _, _, _ => []
  | left + 1, next, pos, s =>
    match s.call fwd next pos with
    | (.error _, _) => []
    | (.ok logits, s) =>
      match sample s.out logits s.rng with
      | .error _ => []
      | .ok (tok, rng) =>
        tok :: draws fwd sample left tok (pos + 1)
          { s with rng, out := s.out ++ [tok], drawn := s.drawn ++ [pos] }

/-- The same after the reset and the prefill. -/
def phasesDraws (fwd : Forward K C) (sample : List Int → List K → R → Exec (Int × R))
    (toks : List Int) (next nPrompt : Int) (left : Nat) (s : GenState C R U) : List Int :=
  match fwd.reset s.cache with
  | (.error _, _) => []
  | (.ok _, cache) =>
    match prefill fwd toks 0 { s with cache } with
    | (.error _, _) => []
    | (.ok _, s) => draws fwd sample left next nPrompt s

/-- What a loop without a callback emits: the draws up to `eos`, or all of the budget. -/
structure Emits (eos : Int) (left : Nat) (drawn new : List Int) : Prop where
  stop : eos ∈ drawn → new.getLast? = some eos
  length : eos ∉ drawn → new = drawn ∧ drawn.length = left

variable {fwd : Forward K C} {sample : List Int → List K → R → Exec (Int × R)} {eos : Int}

/-- A draw that is not `eos`, and what comes after it. -/
theorem Emits.cons {left : Nat} {drawn new : List Int} (h : Emits eos left drawn new) {tok : Int}
    (htok : tok ≠ eos) : Emits eos (left + 1) (tok :: drawn) (tok :: new) where
  stop hmem := by
    have hlast := h.stop ((List.mem_cons.1 hmem).resolve_left htok.symm)
    rw [List.getLast?_cons, hlast, Option.getD_some]
  length hnot := by
    obtain ⟨hnew, hlen⟩ := h.length fun hmem => hnot (List.mem_cons_of_mem tok hmem)
    exact ⟨congrArg (tok :: ·) hnew, congrArg (· + 1) hlen⟩

/-- The draw that is `eos`. -/
theorem emits_eos (left : Nat) (drawn : List Int) : Emits eos left (eos :: drawn) [eos] where
  stop _ := rfl
  length hnot := absurd List.mem_cons_self hnot

theorem decode_emits (left : Nat) (next pos : Int) (s : GenState C R U) {b : Bool}
    (h : (decode fwd sample none eos left next pos s).1 = .ok b) :
    ∃ new, (decode fwd sample none eos left next pos s).2.out = s.out ++ new ∧
      Emits eos left (draws fwd sample left next pos s) new := by
  induction left generalizing next pos s with
  | zero => exact ⟨[], (List.append_nil _).symm, nofun, fun _ => ⟨rfl, rfl⟩⟩
  | succ left ih =>
    have hkeep : (s.call fwd next pos).2.out = s.out := rfl
    rw [decode] at h ⊢
    rw [draws]
    rcases hr : s.call fwd next pos with ⟨e | logits, s₁⟩
    · rw [hr] at h
      cases h
    · rw [hr] at h hkeep
      dsimp only at h hkeep ⊢
      rcases hsample : sample s₁.out logits s₁.rng with e | ⟨tok, rng⟩
      · rw [hsample] at h
        cases h
      · rw [hsample] at h
        dsimp only at h ⊢
        by_cases htok : tok = eos
        · subst htok
          rw [if_pos rfl]
          exact ⟨[tok], congrArg (· ++ [tok]) hkeep, emits_eos _ _⟩
        · rw [if_neg htok] at h ⊢
          obtain ⟨new, hout, hemits⟩ := ih tok (pos + 1) _ h
          refine ⟨tok :: new, ?_, hemits.cons htok⟩
          rw [hout, hkeep, List.append_assoc]
          rfl

theorem phases_emits {toks : List Int} {next nPrompt : Int} {left : Nat} {s : GenState C R U}
    {b : Bool} (h : (phases fwd sample none eos toks next nPrompt left s).1 = .ok b) :
    ∃ new, (phases fwd sample none eos toks next nPrompt left s).2.out = s.out ++ new ∧
      Emits eos left (phasesDraws fwd sample toks next nPrompt left s) new := by
  rw [phases] at h ⊢
  rw [phasesDraws]
  rcases hreset : fwd.reset s.cache with ⟨e | _, cache⟩
  · rw [hreset] at h
    cases h
  · rw [hreset] at h
    dsimp only at h ⊢
    have hlog : Logs fwd (fun _ => ([] : List Unit)) fun _ _ => [] :=
      ⟨fun _ => rfl, fun _ _ _ => rfl⟩
    obtain ⟨-, -, -, hkeep, -⟩ := prefill_run hlog toks 0 { s with cache }
    rcases hprefill : prefill fwd toks 0 { s with cache } with ⟨e | _, s₁⟩
    · rw [hprefill] at h
      cases h
    · rw [hprefill] at h hkeep
      dsimp only at h hkeep ⊢
      rw [← hkeep]
      exact decode_emits left next nPrompt s₁ h

end

/-! ## Why a generation ended -/

/-- A `finish_reason` says why a loop ended that was left so many tokens: "stop" where the last one
is `eos`, and "length" where it is not and the budget is used up. -/
structure FinishReasonFits (eos : Int) (left : Nat) (reason : String) (out : List Int) : Prop where
  stop : reason = "stop" ↔ out.getLast? = some eos
  length : reason = "length" ↔ out.getLast? ≠ some eos ∧ out.length = left

theorem finishReasonOf_eq (stop : Int) (out : List Int) :
    finishReasonOf stop out = if out.getLast? = some stop then "stop" else "length" := by
  unfold finishReasonOf
  cases out.getLast? with
  | none => rfl
  | some tok => simp only [Option.some.injEq]

/-- The two reasons are distinct, and an answer has one of them. -/
theorem finishReasonFits_iff {eos stop : Int} {left : Nat} {out : List Int} :
    FinishReasonFits eos left (finishReasonOf stop out) out ↔
      (out.getLast? = some stop ↔ out.getLast? = some eos) ∧
        (out.getLast? ≠ some eos → out.length = left) := by
  have hne : "length" ≠ "stop" := by decide
  rw [finishReasonOf_eq]
  by_cases hlast : out.getLast? = some stop
  · rw [if_pos hlast]
    refine ⟨fun h => ?_, fun h => ⟨iff_of_true rfl (h.1.1 hlast), ?_⟩⟩
    · have heos := h.stop.1 rfl
      exact ⟨iff_of_true hlast heos, fun hnot => absurd heos hnot⟩
    · exact iff_of_false hne.symm fun hlen => hlen.1 (h.1.1 hlast)
  · rw [if_neg hlast]
    refine ⟨fun h => ?_, fun h => ⟨iff_of_false hne fun heos => hlast (h.1.2 heos), ?_⟩⟩
    · obtain ⟨heos, hlen⟩ := h.length.1 rfl
      exact ⟨iff_of_false hlast heos, fun _ => hlen⟩
    · have heos : out.getLast? ≠ some eos := fun heos => hlast (h.1.2 heos)
      exact iff_of_true rfl ⟨heos, h.2 heos⟩

/-- The reason that a token `stop` gives is right where `stop` is `eos`, or where `eos` is not drawn
and the last draw is not `stop`. -/
theorem Emits.fits_iff {eos : Int} {left : Nat} {drawn out : List Int}
    (h : Emits eos left drawn out) (stop : Int) :
    FinishReasonFits eos left (finishReasonOf stop out) out ↔
      eos = stop ∨ eos ∉ drawn ∧ drawn.getLast? ≠ some stop := by
  rw [finishReasonFits_iff]
  by_cases hmem : eos ∈ drawn
  · have hlast := h.stop hmem
    rw [hlast, or_iff_left fun hnot => hnot.1 hmem, Option.some.injEq]
    exact ⟨fun hfits => hfits.1.2 rfl, fun heq => ⟨iff_of_true heq rfl, fun hne => absurd rfl hne⟩⟩
  · obtain ⟨rfl, hlen⟩ := h.length hmem
    have heos : out.getLast? ≠ some eos := fun hlast => hmem (List.mem_of_getLast? hlast)
    refine ⟨fun hfits => Or.inr ⟨hmem, fun hstop => heos (hfits.1.1 hstop)⟩, fun hcond => ?_⟩
    refine ⟨iff_of_false (fun hstop => ?_) heos, fun _ => hlen⟩
    rcases hcond with rfl | ⟨-, hne⟩
    · exact heos hstop
    · exact hne hstop

/-- The coordinator names the EOS of its model. -/
theorem Coordinator.finishReason_fits (cfg : ModelConfig) {left : Nat} {drawn out : List Int}
    (h : Emits cfg.eosTokenId left drawn out) :
    FinishReasonFits cfg.eosTokenId left (Coordinator.finishReason cfg out) out :=
  (h.fits_iff cfg.eosTokenId).2 (Or.inl rfl)

section
variable {K C R : Type} [Field K] [LinearOrder K] (num : Numerics K) (gen : Rng R K)

/-- The tokens that `generate` samples within its budget, were EOS not to end it. -/
def sampledTokens (fwd : Forward K C) (cfg : ModelConfig) (prompt : List Int) (maxTokens : Int)
    (temperature : K) (cache : C) (rng : R) : List Int :=
  let nPrompt := prefillLength cfg prompt
  let nextToken :=
    if nPrompt > 0 then prompt.getD (nPrompt.toNat - 1) 0
    else if cfg.eosTokenId ≥ 0 then cfg.eosTokenId else 0
  phasesDraws fwd
    (fun out => sampleToken num gen cfg.vocabSize temperature (recentOf out)
      ((23 : Nat) / (20 : Nat)))
    (prompt.take nPrompt.toNat) nextToken nPrompt (tokenBudget cfg nPrompt maxTokens).toNat
    { cache, rng, user := () : GenState C R Unit }

theorem generate_emits {fwd : Forward K C} {cfg : ModelConfig} {prompt : List Int}
    {maxTokens : Int} {temperature : K} {cache : C} {rng : R} {out : List Int}
    (h : (generate num gen fwd cfg prompt maxTokens temperature cache rng).1 = .ok out) :
    Emits cfg.eosTokenId (tokenBudget cfg (prefillLength cfg prompt) maxTokens).toNat
      (sampledTokens num gen fwd cfg prompt maxTokens temperature cache rng) out := by
  rw [generate] at h
  rcases hrun : generation num gen fwd cfg prompt maxTokens temperature none
    ({ cache, rng, user := () } : GenState C R Unit) with ⟨e | b, s⟩
  · rw [hrun] at h
    cases h
  · rw [hrun] at h
    obtain rfl : s.out = out := Except.ok.inj h
    rw [generation] at hrun
    obtain ⟨new, hout, hemits⟩ := phases_emits (congrArg Prod.fst hrun)
    rw [congrArg Prod.snd hrun] at hout
    rw [hout, List.nil_append]
    exact hemits

/-- The server reports why a generation ended exactly where EOS is the token 0, or where EOS is not
among the tokens that are sampled within the budget and 0 is not the last of them. -/
theorem finish_reason_iff (t : Tokenizer) (giga : Option (List UInt32 → Bytes))
    (fwd : Forward K C) (cfg : ModelConfig) (prompt : List Int) (maxTokens : Int) (temperature : K)
    (cache : C) (rng : R) {out : List Int}
    (h : (generate num gen fwd cfg prompt maxTokens temperature cache rng).1 = .ok out) :
    FinishReasonFits cfg.eosTokenId (tokenBudget cfg (prefillLength cfg prompt) maxTokens).toNat
        (completionOf t giga prompt out).finishReason out ↔
      cfg.eosTokenId = 0 ∨
        (cfg.eosTokenId ∉ sampledTokens num gen fwd cfg prompt maxTokens temperature cache rng ∧
          (sampledTokens num gen fwd cfg prompt maxTokens temperature cache rng).getLast? ≠ some 0) :=
  (generate_emits num gen h).fits_iff 0

end

/-- A model whose EOS is the given token. -/
def smallWindowEos (eos : Int) : ModelConfig := { smallWindow with eosTokenId := eos }

theorem finish_reason_stop :
    FinishReasonFits 0 3 (completionOf wordAndEos (some wordGiga) [2] [0]).finishReason [0] := by
  have hout : (generate idNumerics halfRng (constForward [1, 0, 0]) (smallWindowEos 0) [2] 5 0 ()
      ()).1 = .ok [0] := by
    decide +kernel
  exact (finish_reason_iff idNumerics halfRng wordAndEos (some wordGiga) (constForward [1, 0, 0])
    (smallWindowEos 0) [2] 5 0 () () hout).2 (Or.inl rfl)

/-- A generation that ends with EOS, the token 1, is reported as one that used up its budget. -/
theorem finish_reason_length :
    (generate idNumerics halfRng (constForward [0, 1, 0]) (smallWindowEos 1) [2] 5 0 () ()).1 =
        .ok [1] ∧
      (completionOf wordAndEos (some wordGiga) [2] [1]).finishReason = "length" ∧
      ¬ FinishReasonFits 1 3 (completionOf wordAndEos (some wordGiga) [2] [1]).finishReason [1] :=
  ⟨by decide +kernel, by decide, fun h => nomatch (h.stop.2 rfl : "length" = "stop")⟩

end Terllama
