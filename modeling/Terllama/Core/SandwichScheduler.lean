import Mathlib.Data.List.Chain
import Terllama.Base.Decimal
import Terllama.Base.Streak

/-!
# The phase scheduler

`SandwichScheduler` of `src/core/sandwich_scheduler.h`: it gives each phase of a generation a number
of threads and pins the workers of the calling thread. What `apply` remembers of the last pin is in
`thread_local` variables, which all the schedulers of a thread share.

A call that asks for the remembered layout skips the pin, and clears the memory as a call without
pinning does. So of three such calls in a row the last one pins once more
(`apply_pins_when_due_iff`). The workers are where the last request wants them all the same
(`pinned_in_force`).
-/

namespace Terllama

/-! ## Configurations -/

/-- `GenPhase`. -/
inductive GenPhase where
  | prefill
  | decode
  deriving DecidableEq, Repr

/-- The arguments of `pin_worker_threads`. -/
structure PinLayout where
  nThreads : Int
  start : Int
  stride : Int
  deriving DecidableEq, Repr

/-- `PhaseConfig`. Whoever sets the number of threads keeps it positive. -/
structure PhaseConfig where
  numThreads : Int := 4
  batchSize : Int := 1
  pinThreads : Bool := false
  startCore : Int := 0
  coreStride : Int := 1
  numThreads_pos : 1 ≤ numThreads := by decide

/-- What `apply` pins for a configuration. -/
def PhaseConfig.layout (cfg : PhaseConfig) : PinLayout :=
  ⟨cfg.numThreads, cfg.startCore, cfg.coreStride⟩

/-- The layout that a configuration asks for, if it asks for one. -/
def PhaseConfig.request (cfg : PhaseConfig) : Option PinLayout :=
  if cfg.pinThreads then some cfg.layout else none

/-- `SandwichScheduler`. Only its constructor sets the strides. -/
structure SandwichScheduler where
  numCores : Int
  prefillCfg : PhaseConfig
  decodeCfg : PhaseConfig
  ompNumThreads : Int := 4
  prefill_stride : prefillCfg.coreStride = 1
  decode_stride : decodeCfg.coreStride = 2

/-- `detect_num_cores`; `nproc` is what `sysconf` returns. -/
def detectNumCores (nproc : Int) : Int :=
  let numCores := toInt32 (sizeT nproc)
  if numCores < 1 then 4 else numCores

theorem one_le_detectNumCores (nproc : Int) : 1 ≤ detectNumCores nproc := by
  unfold detectNumCores
  dsimp only
  split
  · norm_num
  · omega

/-- The constructor of `SandwichScheduler`. -/
def SandwichScheduler.create (nproc : Int) : SandwichScheduler where
  numCores := detectNumCores nproc
  prefillCfg := {
    numThreads := detectNumCores nproc
    batchSize := 8
    pinThreads := true
    startCore := 0
    coreStride := 1
    numThreads_pos := one_le_detectNumCores nproc }
  decodeCfg := {
    numThreads := max 1 ((detectNumCores nproc).tdiv 2)
    batchSize := 1
    pinThreads := true
    startCore := 0
    coreStride := 2
    numThreads_pos := le_max_left _ _ }
  prefill_stride := rfl
  decode_stride := rfl

/-- `set_prefill_threads`. -/
def SandwichScheduler.setPrefillThreads (s : SandwichScheduler) (n : Int) : SandwichScheduler :=
  { s with
    prefillCfg := { s.prefillCfg with
      numThreads := max 1 n
      numThreads_pos := le_max_left _ _ } }

/-- `set_decode_threads`. -/
def SandwichScheduler.setDecodeThreads (s : SandwichScheduler) (n : Int) : SandwichScheduler :=
  { s with
    decodeCfg := { s.decodeCfg with
      numThreads := max 1 n
      numThreads_pos := le_max_left _ _ } }

/-- `set_prefill_batch`. -/
def SandwichScheduler.setPrefillBatch (s : SandwichScheduler) (b : Int) : SandwichScheduler :=
  { s with prefillCfg := { s.prefillCfg with batchSize := max 1 b } }

/-- `set_pin`. -/
def SandwichScheduler.setPin (s : SandwichScheduler) (p : Bool) : SandwichScheduler :=
  { s with
    prefillCfg := { s.prefillCfg with pinThreads := p }
    decodeCfg := { s.decodeCfg with pinThreads := p } }

/-! ## `apply` -/

/-- What `getenv` finds under each name. -/
abbrev ProcessEnv := String → Option Bytes

/-- The variable with the number of threads of a phase. -/
def GenPhase.threadsVariable : GenPhase → String
  | .prefill => "TERLLAMA_PREFILL_THREADS"
  | .decode => "TERLLAMA_DECODE_THREADS"

/-- The configuration of a phase. -/
def SandwichScheduler.configOf (s : SandwichScheduler) : GenPhase → PhaseConfig
  | .prefill => s.prefillCfg
  | .decode => s.decodeCfg

/-- The number of threads that the environment asks for. -/
def PhaseConfig.withThreads (cfg : PhaseConfig) : Option Bytes → Exec PhaseConfig
  | none => .ok cfg
  | some pkThreads => do
    let n ← stoiText pkThreads
    return { cfg with
      numThreads := max 1 n
      numThreads_pos := le_max_left _ _ }

/-- The pin setting that the environment asks for. -/
def PhaseConfig.withPin (cfg : PhaseConfig) : Option Bytes → PhaseConfig
  | none => cfg
  | some pkPin => { cfg with pinThreads := pkPin == str "1" }

/-- The configuration that `apply` takes: that of the phase with the overrides of the environment. -/
def SandwichScheduler.phaseConfig (s : SandwichScheduler) (phase : GenPhase) (env : ProcessEnv) :
    Exec PhaseConfig := do
  let cfg ← (s.configOf phase).withThreads (env phase.threadsVariable)
  return cfg.withPin (env "TERLLAMA_PIN_THREADS")

/-- The `thread_local` variables of `apply`. -/
structure ApplyLocals where
  tlsOmpThreads : Int := 0
  tlsPinThreads : Int := -1
  tlsPinStart : Int := -1
  tlsPinStride : Int := -1
  deriving DecidableEq, Repr

/-- The text for `OMP_NUM_THREADS`, where it changes for the thread. -/
def ApplyLocals.setOmp (tls : ApplyLocals) (cfg : PhaseConfig) : Option Bytes × ApplyLocals :=
  if tls.tlsOmpThreads ≠ cfg.numThreads then
    (some (signedDecimal cfg.numThreads), { tls with tlsOmpThreads := cfg.numThreads })
  else (none, tls)

/-- The end of `apply`: the call of `pin_worker_threads` that it makes. -/
def ApplyLocals.pin (tls : ApplyLocals) (cfg : PhaseConfig) : Option PinLayout × ApplyLocals :=
  if cfg.pinThreads ∧ (tls.tlsPinThreads ≠ cfg.numThreads ∨ tls.tlsPinStart ≠ cfg.startCore ∨
      tls.tlsPinStride ≠ cfg.coreStride) then
    (some ⟨cfg.numThreads, cfg.startCore, cfg.coreStride⟩, { tls with
      tlsPinThreads := cfg.numThreads
      tlsPinStart := cfg.startCore
      tlsPinStride := cfg.coreStride })
  -- also where the layout is the remembered one
  else if tls.tlsPinThreads ≥ 0 then
    (none, { tls with
      tlsPinThreads := -1
      tlsPinStart := -1
      tlsPinStride := -1 })
  else (none, tls)

/-- What a call of `apply` leaves: the configuration, which it logs, the scheduler and the locals of
the thread, and the arguments of its calls of `setenv` and of `pin_worker_threads`. -/
structure Applied where
  cfg : PhaseConfig
  scheduler : SandwichScheduler
  locals : ApplyLocals
  ompSet : Option Bytes
  pinned : Option PinLayout

/-- `SandwichScheduler::apply`. -/
def SandwichScheduler.apply (s : SandwichScheduler) (phase : GenPhase) (env : ProcessEnv)
    (tls : ApplyLocals) : Exec Applied := do
  let cfg ← s.phaseConfig phase env
  let omp := tls.setOmp cfg
  let pin := omp.2.pin cfg
  return {
    cfg
    scheduler := { s with ompNumThreads := cfg.numThreads }
    locals := pin.2
    ompSet := omp.1
    pinned := pin.1 }

/-! ## The calls of a thread -/

/-- A call of `apply`, on the scheduler and in the environment as they are then. -/
structure ApplyCall where
  scheduler : SandwichScheduler
  phase : GenPhase
  env : ProcessEnv

/-- What the call asks for: a layout, or no pinning. A call that throws asks for nothing. -/
def ApplyCall.request (c : ApplyCall) : Option (Option PinLayout) :=
  match c.scheduler.phaseConfig c.phase c.env with
  | .ok cfg => some cfg.request
  | .error _ => none

/-- What the calls of a thread ask for, those that throw left out. -/
def requests (calls : List ApplyCall) : List (Option PinLayout) := calls.filterMap ApplyCall.request

/-- Behind some calls of a thread: its locals, the pins performed, and whether a call since the last
of them had pinning disabled. -/
structure PinHistory where
  locals : ApplyLocals := {}
  pins : List PinLayout := []
  disabledSince : Bool := false

/-- One more call. A call that throws leaves everything as it is. -/
def PinHistory.step (h : PinHistory) (c : ApplyCall) : PinHistory :=
  match c.scheduler.apply c.phase c.env h.locals with
  | .error _ => h
  | .ok r =>
    match r.pinned with
    | some l => ⟨r.locals, h.pins ++ [l], false⟩
    | none => ⟨r.locals, h.pins, h.disabledSince || !r.cfg.pinThreads⟩

/-- The history of the calls of a new thread. -/
def pinHistory (calls : List ApplyCall) : PinHistory := calls.foldl PinHistory.step {}

/-- The layout differs from that of the last pin performed, or pinning was disabled since. -/
def PinHistory.Due (h : PinHistory) (l : PinLayout) : Prop :=
  ∀ last, h.pins.getLast? = some last → l ≠ last ∨ h.disabledSince = true

/-- If the call has pinning enabled, it runs `pin_worker_threads` exactly when its layout is due. -/
def PinsWhenDue (h : PinHistory) (c : ApplyCall) : Prop :=
  ∀ r, c.scheduler.apply c.phase c.env h.locals = .ok r → r.cfg.pinThreads = true →
    (r.pinned.isSome ↔ h.Due r.cfg.layout)

/-! ## What is remembered -/

/-- The layout that the locals of a thread remember. -/
def ApplyLocals.layout (tls : ApplyLocals) : Option PinLayout :=
  if 0 ≤ tls.tlsPinThreads then some ⟨tls.tlsPinThreads, tls.tlsPinStart, tls.tlsPinStride⟩
  else none

section
variable {tls : ApplyLocals} {cfg : PhaseConfig}

theorem PhaseConfig.request_of_pin (h : cfg.pinThreads = true) : cfg.request = some cfg.layout :=
  if_pos h

theorem PhaseConfig.request_of_not_pin (h : ¬ cfg.pinThreads = true) : cfg.request = none :=
  if_neg h

/-- The three comparisons of `apply` compare the layouts. -/
theorem ApplyLocals.layout_eq_iff : tls.layout = some cfg.layout ↔
    ¬ (tls.tlsPinThreads ≠ cfg.numThreads ∨ tls.tlsPinStart ≠ cfg.startCore ∨
      tls.tlsPinStride ≠ cfg.coreStride) := by
  have hpos := cfg.numThreads_pos
  simp only [not_or, not_not, ApplyLocals.layout, PhaseConfig.layout]
  split
  · simp
  · rename_i hneg
    simp only [reduceCtorEq, false_iff]
    rintro ⟨hthreads, -, -⟩
    omega

/-- The setting of `OMP_NUM_THREADS` leaves the pins alone. -/
@[simp] theorem ApplyLocals.layout_setOmp (tls : ApplyLocals) (cfg : PhaseConfig) :
    (tls.setOmp cfg).2.layout = tls.layout := by
  unfold ApplyLocals.setOmp
  split <;> rfl

/-- `apply` pins what it is asked for unless it remembers this, and remembers what it pins. -/
theorem ApplyLocals.pin_eq (tls : ApplyLocals) (cfg : PhaseConfig) :
    (tls.pin cfg).1 = forgetRepeat tls.layout cfg.request ∧
      (tls.pin cfg).2.layout = (tls.pin cfg).1 := by
  unfold ApplyLocals.pin
  split
  · rename_i hpin
    have hkept : tls.layout ≠ some cfg.layout := fun h => layout_eq_iff.1 h hpin.2
    have hpos := cfg.numThreads_pos
    constructor
    · rw [PhaseConfig.request_of_pin hpin.1, forgetRepeat, if_neg hkept]
      rfl
    · exact if_pos (by dsimp only; omega)
  · rename_i hskip
    have hforget : forgetRepeat tls.layout cfg.request = none := by
      unfold forgetRepeat
      split
      · rfl
      · rename_i hne
        refine PhaseConfig.request_of_not_pin fun hpin => hne ?_
        rw [PhaseConfig.request_of_pin hpin]
        exact layout_eq_iff.2 fun hdiffers => hskip ⟨hpin, hdiffers⟩
    rw [hforget]
    split
    · exact ⟨rfl, rfl⟩
    · rename_i hneg
      exact ⟨rfl, if_neg hneg⟩

end

section
variable {s : SandwichScheduler} {phase : GenPhase} {env : ProcessEnv}

/-- What a call does that does not throw. -/
theorem SandwichScheduler.apply_ok (tls : ApplyLocals) {cfg : PhaseConfig}
    (h : s.phaseConfig phase env = .ok cfg) : ∃ r, s.apply phase env tls = .ok r ∧
      r.cfg = cfg ∧ r.pinned = forgetRepeat tls.layout cfg.request ∧ r.locals.layout = r.pinned := by
  obtain ⟨hpinned, hlayout⟩ := (tls.setOmp cfg).2.pin_eq cfg
  rw [ApplyLocals.layout_setOmp] at hpinned
  rw [SandwichScheduler.apply, h, ok_bind]
  exact ⟨_, rfl, rfl, hpinned, hlayout⟩

theorem SandwichScheduler.apply_error {tls : ApplyLocals} {e : Fault}
    (h : s.phaseConfig phase env = .error e) : s.apply phase env tls = .error e := by
  rw [SandwichScheduler.apply, h, error_bind]

end

/-! ## Histories -/

section
variable {p : PinHistory} {c : ApplyCall} {asks : List (Option PinLayout)}

theorem ApplyCall.request_eq_some {ask : Option PinLayout} : c.request = some ask ↔
    ∃ cfg, c.scheduler.phaseConfig c.phase c.env = .ok cfg ∧ cfg.request = ask := by
  unfold ApplyCall.request
  split <;> simp [*]

/-- A call that throws leaves the history as it is. -/
theorem PinHistory.step_of_throws (h : c.request = none) : p.step c = p := by
  unfold ApplyCall.request at h
  split at h
  · cases h
  · rename_i e hcfg
    rw [PinHistory.step, SandwichScheduler.apply_error hcfg]

/-- The history behind one more request. -/
theorem PinHistory.step_of_request {ask : Option PinLayout} (h : c.request = some ask) :
    (p.step c).locals.layout = forgetRepeat p.locals.layout ask ∧
    (p.step c).pins = p.pins ++ (forgetRepeat p.locals.layout ask).toList ∧
    (p.step c).disabledSince = ((forgetRepeat p.locals.layout ask).isNone &&
      (p.disabledSince || ask.isNone)) := by
  obtain ⟨cfg, hcfg, rfl⟩ := ApplyCall.request_eq_some.1 h
  obtain ⟨r, hr, rfl, hpinned, hlayout⟩ := SandwichScheduler.apply_ok p.locals hcfg
  rw [PinHistory.step, hr, ← hpinned]
  cases hp : r.pinned with
  | some l =>
    rw [hp] at hlayout
    dsimp only
    rw [hp]
    exact ⟨hlayout, rfl, rfl⟩
  | none =>
    have hask : r.cfg.request.isNone = !r.cfg.pinThreads := by
      unfold PhaseConfig.request
      split <;> simp [*]
    rw [hp] at hlayout
    dsimp only
    rw [hp, hask]
    exact ⟨hlayout, (List.append_nil _).symm, rfl⟩

/-- What the history holds behind these requests. The last pin counts as long as pinning was not
disabled since. -/
structure PinHistory.Records (p : PinHistory) (asks : List (Option PinLayout)) : Prop where
  layout : p.locals.layout = asks.foldl forgetRepeat none
  last : ∀ l, p.pins.getLast? = some l ∧ p.disabledSince = false ↔ 0 < streak (some l) asks

/-- A layout that is remembered is that of the last pin. -/
theorem PinHistory.Records.last_of_layout (h : p.Records asks) {l : PinLayout}
    (hkept : p.locals.layout = some l) : p.pins.getLast? = some l ∧ p.disabledSince = false := by
  rw [h.layout, foldl_forgetRepeat] at hkept
  exact (h.last l).2 hkept.pos

/-- One more request. -/
theorem PinHistory.Records.step (h : p.Records asks) {ask : Option PinLayout}
    (hask : c.request = some ask) : (p.step c).Records (asks ++ [ask]) := by
  obtain ⟨hlayout, hpins, hdisabled⟩ := p.step_of_request hask
  refine ⟨?_, fun l => ?_⟩
  · rw [hlayout, h.layout, List.foldl_append]
    rfl
  · rw [hpins, hdisabled, streak_concat_pos]
    cases hkept : forgetRepeat p.locals.layout ask with
    | some new =>
      obtain ⟨rfl, -⟩ := forgetRepeat_eq_some.1 hkept
      simp
    | none =>
      cases ask with
      | none => simp
      | some again =>
        -- the request is the remembered layout
        have hsame : p.locals.layout = some again := forgetRepeat_eq_none.1 hkept
        obtain ⟨hlast, hon⟩ := h.last_of_layout hsame
        simp [hlast, hon]

theorem requests_append (calls after : List ApplyCall) :
    requests (calls ++ after) = requests calls ++ requests after := List.filterMap_append

theorem requests_concat {ask : Option PinLayout} (h : c.request = some ask)
    (calls : List ApplyCall) : requests (calls ++ [c]) = requests calls ++ [ask] := by
  rw [requests_append, requests, requests, List.filterMap_cons_some h, List.filterMap_nil]

theorem requests_concat_of_throws (h : c.request = none) (calls : List ApplyCall) :
    requests (calls ++ [c]) = requests calls := by
  rw [requests_append, requests, requests, List.filterMap_cons_none h, List.filterMap_nil,
    List.append_nil]

theorem pinHistory_concat (calls : List ApplyCall) (c : ApplyCall) :
    pinHistory (calls ++ [c]) = (pinHistory calls).step c := by
  rw [pinHistory, List.foldl_append]
  rfl

/-- The history of the calls of a thread holds what they ask for. -/
theorem records_pinHistory (calls : List ApplyCall) :
    (pinHistory calls).Records (requests calls) := by
  induction calls using List.reverseRecOn with
  | nil => exact ⟨rfl, fun l => by simp [pinHistory, requests]⟩
  | append_singleton calls c ih =>
    rw [pinHistory_concat]
    cases hask : c.request with
    | none => rwa [PinHistory.step_of_throws hask, requests_concat_of_throws hask]
    | some ask =>
      rw [requests_concat hask]
      exact ih.step hask

/-- A layout is due unless it is what the last requests were for. -/
theorem PinHistory.Records.due_iff (h : p.Records asks) (l : PinLayout) :
    p.Due l ↔ streak (some l) asks = 0 := by
  rw [← Nat.le_zero, ← not_lt, ← h.last l, PinHistory.Due]
  constructor
  · rintro hdue ⟨hlast, hon⟩
    rcases hdue l hlast with hne | hoff
    · exact hne rfl
    · simp [hon] at hoff
  · intro hnot last hlast
    by_cases hl : l = last
    · subst hl
      right
      simpa [hlast] using hnot
    · exact .inl hl

/-- A call with pinning enabled pins a layout that is not due where its streak is even. -/
theorem pinsWhenDue_iff (h : p.Records asks) : PinsWhenDue p c ↔
    ∀ l, c.request = some (some l) → streak (some l) asks = 0 ∨ Odd (streak (some l) asks) := by
  have hpins : ∀ l, (forgetRepeat p.locals.layout (some l)).isSome ↔
      ¬ Odd (streak (some l) asks) := by
    intro l
    rw [← foldl_forgetRepeat, ← h.layout, forgetRepeat]
    split <;> simp [*]
  have hzero : ∀ n : Nat, (¬ Odd n ↔ n = 0) ↔ n = 0 ∨ Odd n := by
    intro n
    rcases Nat.even_or_odd n with heven | hodd
    · simp [Nat.not_odd_iff_even.2 heven]
    · simp [hodd, hodd.pos.ne']
  constructor
  · intro hdue l hask
    obtain ⟨cfg, hcfg, hreq⟩ := ApplyCall.request_eq_some.1 hask
    obtain ⟨r, hr, rfl, hpinned, -⟩ := SandwichScheduler.apply_ok p.locals hcfg
    have hpin : r.cfg.pinThreads = true := by
      by_contra hoff
      rw [PhaseConfig.request_of_not_pin hoff] at hreq
      cases hreq
    rw [PhaseConfig.request_of_pin hpin, Option.some.injEq] at hreq
    have hiff := hdue r hr hpin
    rw [hpinned, PhaseConfig.request_of_pin hpin, hreq, hpins, h.due_iff] at hiff
    exact (hzero _).1 hiff
  · intro hodd r hr hpin
    cases hcfg : c.scheduler.phaseConfig c.phase c.env with
    | error e =>
      rw [SandwichScheduler.apply_error hcfg] at hr
      cases hr
    | ok cfg =>
      obtain ⟨r', hr', rfl, hpinned, -⟩ := SandwichScheduler.apply_ok p.locals hcfg
      obtain rfl : r' = r := by
        rw [hr] at hr'
        cases hr'
        rfl
      have hask := PhaseConfig.request_of_pin hpin
      rw [hpinned, hask, hpins, h.due_iff]
      exact (hzero _).2 (hodd _ (ApplyCall.request_eq_some.2 ⟨_, hcfg, hask⟩))

/-- In all the calls of a thread, `pin_worker_threads` runs exactly when it is due, if and only if
no three calls in a row ask for one layout. -/
theorem apply_pins_when_due_iff (calls : List ApplyCall) :
    (∀ before c after, calls = before ++ c :: after → PinsWhenDue (pinHistory before) c) ↔
      ¬ ∃ l, List.replicate 3 (some l) <:+: requests calls := by
  constructor
  · rintro hall ⟨l, hthree⟩
    obtain ⟨front, rest, hsplit, hfront⟩ := replicate_infix_iff.1 hthree
    obtain ⟨before, tail, rfl, rfl, htail⟩ := List.filterMap_eq_append_iff.1 hsplit
    obtain ⟨skipped, c, after, rfl, hskipped, hask, -⟩ := List.filterMap_eq_cons_iff.1 htail
    have hbefore : requests (before ++ skipped) = requests before := by
      rw [requests, List.filterMap_append, List.filterMap_eq_nil_iff.2 hskipped, List.append_nil]
      rfl
    have hdue := (pinsWhenDue_iff (records_pinHistory (before ++ skipped))).1
      (hall _ c after (List.append_assoc _ _ _).symm) l hask
    rw [hbefore, requests, hfront] at hdue
    simp [Nat.odd_iff] at hdue
  · rintro hnot before c after rfl
    refine (pinsWhenDue_iff (records_pinHistory before)).2 fun l hask => ?_
    have hfew : streak (some l) (requests before) < 2 := by
      by_contra hmany
      have hthree : 2 < streak (some l) (requests (before ++ [c])) := by
        rw [requests_concat hask, streak_concat_self]
        omega
      obtain ⟨front, rest, hsplit, hfront⟩ := exists_of_lt_streak hthree
      refine hnot ⟨l, replicate_infix_iff.2 ⟨front, rest ++ requests after, ?_, hfront⟩⟩
      have hcalls : before ++ c :: after = (before ++ [c]) ++ after := by simp
      rw [hcalls, requests_append, hsplit, List.append_assoc, List.cons_append]
    rcases Nat.le_one_iff_eq_zero_or_eq_one.1 (Nat.lt_succ_iff.1 hfew) with hnone | hone
    · exact .inl hnone
    · exact .inr (hone.symm ▸ odd_one)

end

/-- A call of a fresh scheduler of four cores for the prefill, with nothing in the environment. -/
def prefillCall : ApplyCall := ⟨.create 4, .prefill, fun _ => none⟩

/-- The third of three such calls pins once more. -/
theorem not_pins_when_due_thrice :
    ¬ ∀ before c after, [prefillCall, prefillCall, prefillCall] = before ++ c :: after →
      PinsWhenDue (pinHistory before) c := by
  intro hall
  have hpinned := (hall [prefillCall, prefillCall] prefillCall [] rfl _ rfl rfl).1 rfl
  have hlast : (pinHistory [prefillCall, prefillCall]).pins.getLast? = some ⟨4, 0, 1⟩ := rfl
  rcases hpinned _ hlast with hne | hoff
  · exact hne rfl
  · exact Bool.false_ne_true hoff

/-! ## Phases in turn -/

/-- The stride of the layouts of a phase. -/
def GenPhase.stride : GenPhase → Int
  | .prefill => 1
  | .decode => 2

theorem SandwichScheduler.configOf_stride (s : SandwichScheduler) (phase : GenPhase) :
    (s.configOf phase).coreStride = phase.stride := by
  cases phase with
  | prefill => exact s.prefill_stride
  | decode => exact s.decode_stride

section
variable {cfg cfg' : PhaseConfig} {o : Option Bytes}

theorem PhaseConfig.withThreads_stride (h : cfg.withThreads o = .ok cfg') :
    cfg'.coreStride = cfg.coreStride := by
  cases o with
  | none =>
    cases h
    rfl
  | some pkThreads =>
    obtain ⟨n, -, h⟩ := bind_eq_ok.1 h
    cases h
    rfl

theorem PhaseConfig.withPin_stride (cfg : PhaseConfig) (o : Option Bytes) :
    (cfg.withPin o).coreStride = cfg.coreStride := by
  cases o <;> rfl

end

section
variable {c : ApplyCall} {l : PinLayout}

/-- The environment does not change the stride. -/
theorem ApplyCall.stride_of_request (h : c.request = some (some l)) :
    l.stride = c.phase.stride := by
  obtain ⟨cfg, hcfg, hreq⟩ := ApplyCall.request_eq_some.1 h
  obtain ⟨base, hthreads, hpin⟩ := bind_eq_ok.1 hcfg
  cases hpin
  have hlayout : l = (base.withPin (c.env "TERLLAMA_PIN_THREADS")).layout := by
    unfold PhaseConfig.request at hreq
    split at hreq
    · exact (Option.some.inj hreq).symm
    · cases hreq
  rw [hlayout, PhaseConfig.layout, PhaseConfig.withPin_stride,
    PhaseConfig.withThreads_stride hthreads, SandwichScheduler.configOf_stride]

/-- The last request came from the last call that did not throw. -/
theorem requests_eq_concat {calls : List ApplyCall} {front : List (Option PinLayout)}
    {ask : Option PinLayout} (h : requests calls = front ++ [ask]) :
    ∃ before c, calls.filter (·.request.isSome) = before ++ [c] ∧ c.request = some ask := by
  obtain ⟨before, tail, rfl, -, htail⟩ := List.filterMap_eq_append_iff.1 h
  obtain ⟨skipped, c, after, rfl, hskipped, hask, hafter⟩ := List.filterMap_eq_cons_iff.1 htail
  refine ⟨before.filter (·.request.isSome), c, ?_, hask⟩
  have hnone : ∀ calls : List ApplyCall, (∀ d ∈ calls, d.request = none) →
      calls.filter (·.request.isSome) = [] := by
    intro calls hcalls
    exact List.filter_eq_nil_iff.2 fun d hd => by simp [hcalls d hd]
  rw [List.filter_append, List.filter_append, hnone skipped hskipped, List.filter_cons_of_pos
    (by simp [hask]), hnone after (List.filterMap_eq_nil_iff.1 hafter), List.nil_append]

/-- The calls of generations prefill and decode in turn. With no two calls of one phase in a row,
those that throw left out, `pin_worker_threads` runs exactly when it is due. -/
theorem pins_when_due_of_turns {calls : List ApplyCall}
    (hturns : (calls.filter (·.request.isSome)).IsChain fun c d => c.phase ≠ d.phase) :
    ∀ before c after, calls = before ++ c :: after → PinsWhenDue (pinHistory before) c := by
  rintro before c after rfl
  refine (pinsWhenDue_iff (records_pinHistory before)).2 fun l hask => .inl ?_
  by_contra hstreak
  obtain ⟨front, hfront⟩ := streak_pos_iff.1 (Nat.pos_of_ne_zero hstreak)
  obtain ⟨early, d, hlast, hd⟩ := requests_eq_concat hfront
  rw [List.filter_append, hlast, List.filter_cons_of_pos (by simp [hask])] at hturns
  have hphase : d.phase ≠ c.phase := by
    rw [List.append_assoc] at hturns
    exact (List.isChain_append_cons_cons.1 hturns).2.1
  have hstride := (ApplyCall.stride_of_request hd).symm.trans (ApplyCall.stride_of_request hask)
  refine hphase ?_
  cases hdp : d.phase <;> cases hcp : c.phase <;> simp [hdp, hcp, GenPhase.stride] at hstride ⊢

end

/-! ## Where the workers are -/

/-- The core on which `pin_worker_threads` pins a worker. -/
def PinLayout.core (l : PinLayout) (tid : Nat) : Int := l.start + tid * l.stride

/-- `pin_worker_threads` in a team of so many workers, as the core of each worker. `pin_self` leaves
a worker where it is if the system does not accept the core. -/
def pinWorkerThreads (accepts : Int → Bool) (team : Nat) (cores : Nat → Option Int)
    (l : PinLayout) : Nat → Option Int := fun tid =>
  if tid < team ∧ tid < l.nThreads ∧ accepts (l.core tid) then some (l.core tid) else cores tid

section
variable (accepts : Int → Bool) (team : Nat) (cores : Nat → Option Int)

theorem pinWorkerThreads_again (l : PinLayout) :
    pinWorkerThreads accepts team (pinWorkerThreads accepts team cores l) l =
      pinWorkerThreads accepts team cores l := by
  funext tid
  unfold pinWorkerThreads
  split <;> rfl

/-- The cores of the workers behind the calls of a thread. -/
def coresAfter (calls : List ApplyCall) : Nat → Option Int :=
  (pinHistory calls).pins.foldl (pinWorkerThreads accepts team) cores

/-- Behind a call that asks for a layout the workers are pinned to it, whether the call skips its
pin or not: one more pin changes nothing. -/
theorem pinned_in_force {c : ApplyCall} {l : PinLayout} (hask : c.request = some (some l))
    (calls : List ApplyCall) :
    pinWorkerThreads accepts team (coresAfter accepts team cores (calls ++ [c])) l =
      coresAfter accepts team cores (calls ++ [c]) := by
  have hstreak : 0 < streak (some l) (requests (calls ++ [c])) := by
    rw [requests_concat hask]
    exact streak_concat_pos.2 rfl
  obtain ⟨hlast, -⟩ := ((records_pinHistory (calls ++ [c])).last l).2 hstreak
  obtain ⟨front, hpins⟩ := List.getLast?_eq_some_iff.1 hlast
  rw [coresAfter, hpins, List.foldl_append]
  exact pinWorkerThreads_again accepts team _ l

end

end Terllama
