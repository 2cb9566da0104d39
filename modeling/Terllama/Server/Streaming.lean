import Mathlib.Data.Nat.Digits.Lemmas
import Terllama.Server.Json

/-!
# Streamed completions

The streaming branches of `handle_chat_completions` and `handle_completions` of
`src/server/handlers.cpp`, and those of the two completion routes of
`src/distributed/coordinator.cpp`. All of them decode the tokens in batches and give the sink one
event for each batch with a text; the handlers build their frames by hand, and the coordinator dumps
a JSON value. The machine is stated once, over what is done with a text (`emit`), and
`handleStream_ok` reads a run of it as a fold over the texts of the batches.

The sink accepts all writes, the tokens are the ones that reach the callback, and the values of
`rng()`, the counter and the clock are parameters.
-/

namespace Terllama

/-! ## Frames -/

/-- `%llx`. -/
def hex (n : Nat) : Bytes :=
  if n = 0 then str "0" else ((Nat.digits 16 n).map hexDigit).reverse

/-- `make_id`, on what the generator and the counter return. -/
def makeId (pre : Bytes) (randPart seq : Nat) : Bytes := pre ++ str "-" ++ hex randPart ++ hex seq

/-- The object of a chat chunk. -/
def chatChunk (id created model text : Bytes) : Json :=
  .ofMembers [
    ("id", .string id),
    ("object", .string (str "chat.completion.chunk")),
    ("created", .string created),
    ("model", .string model),
    ("choices", .array [.ofMembers [
      ("index", .integer 0),
      ("delta", .ofMembers [("role", .string (str "assistant")), ("content", .string text)])]])]

/-- The object of a completion chunk. -/
def compChunk (id created model text : Bytes) : Json :=
  .ofMembers [
    ("id", .string id),
    ("object", .string (str "text_completion")),
    ("created", .string created),
    ("model", .string model),
    ("choices", .array [.ofMembers [
      ("index", .integer 0),
      ("text", .string text),
      ("logprobs", .null),
      ("finish_reason", .null)]])]

/-- The event of a chunk. -/
def sse (chunk : Json) : Exec Bytes := do
  return str "data: " ++ (← chunk.dump) ++ str "\n\n"

/-- An emission that gives the sink the event of a chunk. -/
def emitEvent (chunk : Bytes → Json) (sink text : Bytes) : Exec Bytes := do
  return sink ++ (← sse (chunk text))

/-- `append_chat_chunk_sse`. -/
def appendChatChunkSse (frame id created text : Bytes) : Exec Bytes := do
  let scratch ← (Json.string text).dump
  return frame ++
    str "data: \x7b\"choices\":[\x7b\"delta\":\x7b\"content\":" ++ scratch ++
    str ",\"role\":\"assistant\"\x7d,\"index\":0\x7d],\"created\":\"" ++ created ++
    str "\",\"id\":\"" ++ id ++
    str "\",\"model\":\"default\",\"object\":\"chat.completion.chunk\"\x7d\n\n"

/-- `append_comp_chunk_sse`. -/
def appendCompChunkSse (frame id created text : Bytes) : Exec Bytes := do
  let scratch ← (Json.string text).dump
  return frame ++
    str ("data: \x7b\"choices\":[\x7b\"finish_reason\":null,\"index\":0,\"logprobs\":null," ++
      "\"text\":") ++ scratch ++
    str "\x7d],\"created\":\"" ++ created ++
    str "\",\"id\":\"" ++ id ++
    str "\",\"model\":\"default\",\"object\":\"text_completion\"\x7d\n\n"

/-- `sink.write(s, n)` of a literal: its bytes, its terminator, and what is behind it in memory. -/
def writeLiteral (s : String) (n : Nat) (behind : Nat → UInt8) : Bytes :=
  (str s ++ 0 :: (List.range n).map behind).take n

/-! ## The batches -/

/-- What a streaming branch changes: what `emit` has made so far, and the decode buffer. -/
structure SseState (S : Type) where
  sink : S
  decodeBuffer : List Int := []

section
variable {S : Type} (decode : List Int → Bytes) (emit : S → Bytes → Exec S) (isEos : Int → Bool)

/-- The decode buffer is decoded, written and cleared. -/
def flush (s : SseState S) : Exec Unit × SseState S :=
  let text := decode s.decodeBuffer
  if text = [] then (.ok (), { s with decodeBuffer := [] })
  else
    match emit s.sink text with
    | .ok sink => (.ok (), { sink := sink })
    | .error e => (.error e, s)

/-- The callback on a token. -/
def onToken (tok : Int) (s : SseState S) : Exec Unit × SseState S :=
  let s := { s with decodeBuffer := s.decodeBuffer ++ [tok] }
  if 16 ≤ s.decodeBuffer.length ∨ isEos tok = true then flush decode emit s else (.ok (), s)

/-- The callback on the tokens of a generation, up to its first exception. -/
def onTokens : List Int → SseState S → Exec Unit × SseState S
  | [], s => (.ok (), s)
  | tok :: toks, s =>
    match onToken decode emit isEos tok s with
    | (.ok (), s) => onTokens toks s
    | (.error e, s) => (.error e, s)

/-- The flush of what is left. -/
def flushRest (s : SseState S) : Exec Unit × SseState S :=
  if s.decodeBuffer = [] then (.ok (), s) else flush decode emit s

/-- A streaming branch of the handlers, whose callback takes token 0 for the end. -/
def handleStream (toks : List Int) (sink : S) : Exec Unit × SseState S :=
  match onTokens decode emit (fun tok => tok = 0) toks { sink } with
  | (.ok (), s) => flushRest decode emit s
  | (.error e, s) => (.error e, s)

/-- A streaming branch of the coordinator, which logs what the generation throws and flushes all
the same. -/
def coordinatorStream (eosTokenId : Int) (toks : List Int) (sink : S) : Exec Unit × SseState S :=
  match onTokens decode emit (fun tok => tok = eosTokenId) toks { sink } with
  | (.error (.undefined why), s) => (undefined why, s)
  | (_, s) => flushRest decode emit s

/-- The batches of a generation, after the tokens `buf` of the current one. -/
def batches (buf : List Int) : List Int → List (List Int)
  | [] => if buf = [] then [] else [buf]
  | tok :: toks =>
    if 16 ≤ (buf ++ [tok]).length ∨ isEos tok = true then (buf ++ [tok]) :: batches [] toks
    else batches (buf ++ [tok]) toks

/-- The texts that are emitted: those of the batches that have one. -/
def texts (bs : List (List Int)) : List Bytes := (bs.map decode).filter (· ≠ [])

variable {decode emit isEos}

/-! ## A stream is a fold over the texts of its batches -/

theorem texts_cons_nil {b : List Int} (h : decode b = []) (bs : List (List Int)) :
    texts decode (b :: bs) = texts decode bs := by
  rw [texts, List.map_cons, List.filter_cons, if_neg (by simp [h])]
  rfl

theorem texts_cons {b : List Int} (h : decode b ≠ []) (bs : List (List Int)) :
    texts decode (b :: bs) = decode b :: texts decode bs := by
  rw [texts, List.map_cons, List.filter_cons, if_pos (by simp [h])]
  rfl

theorem texts_append (bs cs : List (List Int)) :
    texts decode (bs ++ cs) = texts decode bs ++ texts decode cs := by
  rw [texts, List.map_append, List.filter_append]
  rfl

theorem forall_mem_texts {p : Bytes → Prop} (h : ∀ b, p (decode b)) {bs : List (List Int)} :
    ∀ t ∈ texts decode bs, p t := by
  intro t ht
  obtain ⟨b, -, rfl⟩ := List.mem_map.1 (List.mem_filter.1 ht).1
  exact h b

/-- A flush emits the text of the buffer, if it has one. -/
theorem flush_eq (s : SseState S) :
    flush decode emit s =
      match (texts decode [s.decodeBuffer]).foldlM emit s.sink with
      | .ok sink => (.ok (), { sink := sink })
      | .error e => (.error e, s) := by
  unfold flush
  by_cases h : decode s.decodeBuffer = []
  · rw [if_pos h, texts_cons_nil h]
    rfl
  · rw [if_neg h, texts_cons h]
    cases hemit : emit s.sink (decode s.decodeBuffer) with
    | ok sink =>
      have hfold : (decode s.decodeBuffer :: texts decode []).foldlM emit s.sink = .ok sink := by
        rw [List.foldlM_cons, hemit]
        rfl
      rw [hfold]
    | error e =>
      have hfold : (decode s.decodeBuffer :: texts decode []).foldlM emit s.sink = .error e := by
        rw [List.foldlM_cons, hemit]
        rfl
      rw [hfold]

/-- The callback on the tokens emits the texts of the whole batches, and ends where the flush of the
rest emits the others; or it stops at a batch that cannot be emitted. -/
theorem onTokens_outcome (toks : List Int) (s : SseState S) :
    (∃ s', onTokens decode emit isEos toks s = (.ok (), s') ∧
      (texts decode (batches isEos s.decodeBuffer toks)).foldlM emit s.sink =
        (texts decode (batches isEos s'.decodeBuffer [])).foldlM emit s'.sink) ∨
    ∃ e s', onTokens decode emit isEos toks s = (.error e, s') ∧
      (texts decode (batches isEos s.decodeBuffer toks)).foldlM emit s.sink = .error e ∧
      s'.decodeBuffer ≠ [] ∧ flush decode emit s' = (.error e, s') := by
  induction toks generalizing s with
  | nil => exact .inl ⟨s, rfl, rfl⟩
  | cons tok toks ih =>
    rw [onTokens, onToken, batches]
    by_cases hflush : 16 ≤ (s.decodeBuffer ++ [tok]).length ∨ isEos tok = true
    · rw [if_pos hflush, if_pos hflush, flush_eq,
        ← List.singleton_append (l := batches isEos [] toks), texts_append, List.foldlM_append]
      cases hemit : (texts decode [s.decodeBuffer ++ [tok]]).foldlM emit s.sink with
      | ok sink => exact ih { sink := sink }
      | error e =>
        refine .inr ⟨e, _, rfl, rfl, by simp, ?_⟩
        rw [flush_eq, hemit]
    · rw [if_neg hflush, if_neg hflush]
      exact ih { s with decodeBuffer := s.decodeBuffer ++ [tok] }

theorem flushRest_eq (s : SseState S) :
    flushRest decode emit s =
      match (texts decode (batches isEos s.decodeBuffer [])).foldlM emit s.sink with
      | .ok sink => (.ok (), { sink := sink })
      | .error e => (.error e, s) := by
  rw [flushRest, batches]
  split
  · rename_i h
    obtain ⟨sink, buf⟩ := s
    cases h
    rfl
  · exact flush_eq s

/-- A run of the handlers' stream emits the texts of the batches, or ends in the first error. -/
theorem handleStream_eq (toks : List Int) (sink : S) :
    ∃ s, handleStream decode emit toks sink =
      match (texts decode (batches (fun tok => tok = 0) [] toks)).foldlM emit sink with
      | .ok sink => (.ok (), { sink := sink })
      | .error e => (.error e, s) := by
  rw [handleStream]
  rcases onTokens_outcome toks { sink } with ⟨s', hrun, hfold⟩ | ⟨e, s', hrun, hfold, -, -⟩
  · refine ⟨s', ?_⟩
    rw [hrun, hfold]
    exact flushRest_eq s'
  · refine ⟨s', ?_⟩
    rw [hrun, hfold]

/-- A run of the coordinator's stream emits the texts of the batches, or ends in the first error:
the flush of the rest repeats an exception that the callback has thrown. -/
theorem coordinatorStream_eq (eosTokenId : Int) (toks : List Int) (sink : S) :
    ∃ s, coordinatorStream decode emit eosTokenId toks sink =
      match (texts decode (batches (fun tok => tok = eosTokenId) [] toks)).foldlM emit sink with
      | .ok sink => (.ok (), { sink := sink })
      | .error e => (.error e, s) := by
  rw [coordinatorStream]
  rcases onTokens_outcome toks { sink } with ⟨s', hrun, hfold⟩ | ⟨e, s', hrun, hfold, hne, hflush⟩
  · refine ⟨s', ?_⟩
    rw [hrun, hfold]
    exact flushRest_eq s'
  · refine ⟨s', ?_⟩
    rw [hrun, hfold]
    cases e with
    | exception what =>
      show flushRest decode emit s' = _
      rw [flushRest, if_neg hne, hflush]
    | undefined why => rfl

/-! ## What a stream keeps -/

variable {P : S → Prop}

theorem flush_keeps (hemit : ∀ sink text sink', P sink → emit sink text = .ok sink' → P sink')
    {s : SseState S} (hs : P s.sink) : P (flush decode emit s).2.sink := by
  rw [flush]
  split
  · exact hs
  · split
    · rename_i sink heq
      exact hemit _ _ _ hs heq
    · exact hs

theorem onTokens_keeps (hemit : ∀ sink text sink', P sink → emit sink text = .ok sink' → P sink')
    (toks : List Int) {s : SseState S} (hs : P s.sink) :
    P (onTokens decode emit isEos toks s).2.sink := by
  induction toks generalizing s with
  | nil => exact hs
  | cons tok toks ih =>
    have hstep : P (onToken decode emit isEos tok s).2.sink := by
      rw [onToken]
      split
      · exact flush_keeps hemit hs
      · exact hs
    rw [onTokens]
    split
    · rename_i s' heq
      rw [heq] at hstep
      exact ih hstep
    · rename_i e s' heq
      rw [heq] at hstep
      exact hstep

theorem flushRest_keeps (hemit : ∀ sink text sink', P sink → emit sink text = .ok sink' → P sink')
    {s : SseState S} (hs : P s.sink) : P (flushRest decode emit s).2.sink := by
  rw [flushRest]
  split
  · exact hs
  · exact flush_keeps hemit hs

/-- What a frame keeps holds of the sink of a handler's stream, however it ends. -/
theorem handleStream_keeps
    (hemit : ∀ sink text sink', P sink → emit sink text = .ok sink' → P sink')
    (toks : List Int) {sink : S} (hs : P sink) : P (handleStream decode emit toks sink).2.sink := by
  have htoks : P (onTokens decode emit (fun tok => tok = 0) toks { sink }).2.sink :=
    onTokens_keeps hemit toks hs
  rw [handleStream]
  split
  · rename_i s' heq
    rw [heq] at htoks
    exact flushRest_keeps hemit htoks
  · rename_i e s' heq
    rw [heq] at htoks
    exact htoks

/-- What a frame keeps holds of the sink of a coordinator's stream, however it ends. -/
theorem coordinatorStream_keeps
    (hemit : ∀ sink text sink', P sink → emit sink text = .ok sink' → P sink') (eosTokenId : Int)
    (toks : List Int) {sink : S} (hs : P sink) :
    P (coordinatorStream decode emit eosTokenId toks sink).2.sink := by
  have htoks : P (onTokens decode emit (fun tok => tok = eosTokenId) toks { sink }).2.sink :=
    onTokens_keeps hemit toks hs
  rw [coordinatorStream]
  split
  · rename_i why s' heq
    rw [heq] at htoks
    exact htoks
  · rename_i r s' hne heq
    rw [heq] at htoks
    exact flushRest_keeps hemit htoks

end

/-! ## The streams of the routes -/

/-- The end of a stream. -/
def finish (behind : Nat → UInt8) (run : Exec Unit × SseState Bytes) : Exec Unit × Bytes :=
  match run with
  | (.ok (), s) => (.ok (), s.sink ++ writeLiteral "data: [DONE]\n\n" 16 behind)
  | (.error e, s) => (.error e, s.sink)

section
variable (decode : List Int → Bytes) (randPart seq : Nat) (created : Int) (behind : Nat → UInt8)

/-- The streaming branch of `handle_chat_completions`. -/
def handleChatCompletionsStream (toks : List Int) : Exec Unit × Bytes :=
  finish behind (handleStream decode (fun sink text => do
    let frame ← appendChatChunkSse [] (makeId (str "chatcmpl") randPart seq)
      (signedDecimal created) text
    return sink ++ frame) toks [])

/-- The streaming branch of `handle_completions`. -/
def handleCompletionsStream (toks : List Int) : Exec Unit × Bytes :=
  finish behind (handleStream decode (fun sink text => do
    let frame ← appendCompChunkSse [] (makeId (str "cmpl") randPart seq)
      (signedDecimal created) text
    return sink ++ frame) toks [])

variable (modelName : Bytes) (eosTokenId : Int)

/-- The streaming branch of the coordinator's chat route. -/
def coordinatorChatStream (toks : List Int) : Exec Unit × Bytes :=
  finish behind (coordinatorStream decode (emitEvent (chatChunk
    (makeId (str "chatcmpl") randPart seq) (signedDecimal created) modelName)) eosTokenId toks [])

/-- The streaming branch of the coordinator's completion route. -/
def coordinatorCompletionsStream (toks : List Int) : Exec Unit × Bytes :=
  finish behind (coordinatorStream decode (emitEvent (compChunk
    (makeId (str "cmpl") randPart seq) (signedDecimal created) modelName)) eosTokenId toks [])

end

/-! ## The frames are the dumps of the chunks -/

/-- The members of a chat chunk, in the order of their keys. -/
theorem chatChunk_eq (id created model text : Bytes) :
    chatChunk id created model text = .object [
      (str "choices", .array [.object [
        (str "delta", .object [
          (str "content", .string text), (str "role", .string (str "assistant"))]),
        (str "index", .integer 0)]]),
      (str "created", .string created), (str "id", .string id), (str "model", .string model),
      (str "object", .string (str "chat.completion.chunk"))] := by
  simp [chatChunk, Json.ofMembers, insertMember, str]
  rfl

/-- The members of a completion chunk, in the order of their keys. -/
theorem compChunk_eq (id created model text : Bytes) :
    compChunk id created model text = .object [
      (str "choices", .array [.object [
        (str "finish_reason", .null), (str "index", .integer 0), (str "logprobs", .null),
        (str "text", .string text)]]),
      (str "created", .string created), (str "id", .string id), (str "model", .string model),
      (str "object", .string (str "text_completion"))] := by
  simp [compChunk, Json.ofMembers, insertMember, str]
  rfl

section
variable {id created : Bytes}

/-- The frame that the handler builds by hand is the event of the chunk. -/
theorem appendChatChunkSse_eq (hid : Plain id) (hcreated : Plain created) (frame text : Bytes) :
    appendChatChunkSse frame id created text =
      (sse (chatChunk id created (str "default") text)).map (frame ++ ·) := by
  rw [chatChunk_eq]
  simp (disch := first | assumption | decide) only [appendChatChunkSse, sse, Json.dump, dumpElems,
    dumpMembers, dumpEscaped_plain, ok_bind, pure_eq_ok]
  cases dumpEscaped text with
  | error e => rfl
  | ok t => simp [Except.map, str, signedDecimal, decimal]

/-- The frame that the handler builds by hand is the event of the chunk. -/
theorem appendCompChunkSse_eq (hid : Plain id) (hcreated : Plain created) (frame text : Bytes) :
    appendCompChunkSse frame id created text =
      (sse (compChunk id created (str "default") text)).map (frame ++ ·) := by
  rw [compChunk_eq]
  simp (disch := first | assumption | decide) only [appendCompChunkSse, sse, Json.dump, dumpElems,
    dumpMembers, dumpEscaped_plain, ok_bind, pure_eq_ok]
  cases dumpEscaped text with
  | error e => rfl
  | ok t => simp [Except.map, str, signedDecimal, decimal]

/-- A chat chunk has a text when its strings are UTF-8. -/
theorem exists_sse_chatChunk (hid : Plain id) (hcreated : Plain created) {model text : Bytes}
    (hmodel : ValidUtf8 model) (htext : ValidUtf8 text) :
    ∃ e, sse (chatChunk id created model text) = .ok e := by
  obtain ⟨m, hm⟩ := (dumpEscaped_isOk_iff model).2 hmodel
  obtain ⟨t, ht⟩ := (dumpEscaped_isOk_iff text).2 htext
  rw [chatChunk_eq]
  simp (disch := first | assumption | decide) only [sse, Json.dump, dumpElems, dumpMembers,
    dumpEscaped_plain, hm, ht, ok_bind, pure_eq_ok]
  exact ⟨_, rfl⟩

/-- A completion chunk has a text when its strings are UTF-8. -/
theorem exists_sse_compChunk (hid : Plain id) (hcreated : Plain created) {model text : Bytes}
    (hmodel : ValidUtf8 model) (htext : ValidUtf8 text) :
    ∃ e, sse (compChunk id created model text) = .ok e := by
  obtain ⟨m, hm⟩ := (dumpEscaped_isOk_iff model).2 hmodel
  obtain ⟨t, ht⟩ := (dumpEscaped_isOk_iff text).2 htext
  rw [compChunk_eq]
  simp (disch := first | assumption | decide) only [sse, Json.dump, dumpElems, dumpMembers,
    dumpEscaped_plain, hm, ht, ok_bind, pure_eq_ok]
  exact ⟨_, rfl⟩

end

theorem plain_hex (n : Nat) : Plain (hex n) := by
  rw [hex]
  split
  · decide
  · intro b hb
    obtain ⟨d, hd, rfl⟩ := List.mem_map.1 (List.mem_reverse.1 hb)
    have hdigit : ∀ d < 16, 0x20 ≤ hexDigit d ∧ hexDigit d ≤ 0x7F ∧ hexDigit d ≠ 0x22 ∧
        hexDigit d ≠ 0x5C := by
      decide
    exact hdigit d (Nat.digits_lt_base (by decide) hd)

theorem plain_makeId {pre : Bytes} (h : Plain pre) (randPart seq : Nat) :
    Plain (makeId pre randPart seq) :=
  ((h.append (by decide)).append (plain_hex _)).append (plain_hex _)

/-! ## Events -/

/-- One event of a stream: a line of JSON. -/
def IsEvent (e : Bytes) : Prop :=
  ∃ (j : Json) (body : Bytes),
    j.dump = .ok body ∧ OneLine body ∧ e = str "data: " ++ body ++ str "\n\n"

/-- A stream of events and one terminator. -/
def SseFramed (s : Bytes) : Prop :=
  ∃ events : List Bytes, (∀ e ∈ events, IsEvent e) ∧ s = events.flatten ++ str "data: [DONE]\n\n"

theorem isEvent_sse {chunk : Json} {e : Bytes} (h : sse chunk = .ok e) : IsEvent e := by
  obtain ⟨body, hbody, h⟩ := bind_eq_ok.1 h
  cases h
  exact ⟨chunk, body, hbody, chunk.dump_oneLine hbody, rfl⟩

/-- The event of an object ends with the brace of the object. -/
theorem suffix_sse {members : List (Bytes × Json)} {e : Bytes}
    (h : sse (.object members) = .ok e) : str "\x7d\n\n" <:+ e := by
  obtain ⟨body, hbody, h⟩ := bind_eq_ok.1 h
  cases h
  rw [Json.dump] at hbody
  obtain ⟨inner, -, hbody⟩ := bind_eq_ok.1 hbody
  cases hbody
  exact ⟨str "data: " ++ (str "\x7b" ++ inner), by simp [str]⟩

/-- The emission of texts that all have an event. -/
theorem foldlM_emitEvent {chunk : Bytes → Json} {ts : List Bytes}
    (h : ∀ t ∈ ts, ∃ e, sse (chunk t) = .ok e) (sink : Bytes) :
    ∃ events, List.Forall₂ (fun t e => sse (chunk t) = .ok e) ts events ∧
      ts.foldlM (emitEvent chunk) sink = .ok (sink ++ events.flatten) := by
  induction ts generalizing sink with
  | nil => exact ⟨[], .nil, by rw [List.flatten_nil, List.append_nil]; rfl⟩
  | cons t ts ih =>
    obtain ⟨⟨e, he⟩, hts⟩ := List.forall_mem_cons.1 h
    obtain ⟨events, hevents, hrun⟩ := ih hts (sink ++ e)
    refine ⟨e :: events, .cons he hevents, ?_⟩
    rw [List.foldlM_cons, emitEvent, he, ok_bind, pure_eq_ok, ok_bind, hrun, List.flatten_cons,
      List.append_assoc]

/-- The second members of related pairs. -/
theorem forall_mem_of_forall₂ {R : Bytes → Bytes → Prop} {p : Bytes → Prop} {ts es : List Bytes}
    (h : List.Forall₂ R ts es) (hp : ∀ t e, R t e → p e) : ∀ e ∈ es, p e := by
  intro e he
  obtain ⟨t, -, hR⟩ := exists_mem_of_forall₂ h.flip he
  exact hp t e hR

section
variable (decode : List Int → Bytes) (randPart seq : Nat) (created : Int) (behind : Nat → UInt8)
  (toks : List Int)

/-- The chat stream of the handler, with the chunk in place of the frame. -/
theorem handleChatCompletionsStream_eq :
    handleChatCompletionsStream decode randPart seq created behind toks =
      finish behind (handleStream decode (emitEvent (chatChunk
        (makeId (str "chatcmpl") randPart seq) (signedDecimal created) (str "default"))) toks []) := by
  rw [handleChatCompletionsStream]
  congr 2
  funext sink text
  rw [appendChatChunkSse_eq (plain_makeId (by decide) randPart seq) (plain_signedDecimal created),
    emitEvent]
  cases sse _ <;> rfl

/-- The completion stream of the handler, with the chunk in place of the frame. -/
theorem handleCompletionsStream_eq :
    handleCompletionsStream decode randPart seq created behind toks =
      finish behind (handleStream decode (emitEvent (compChunk
        (makeId (str "cmpl") randPart seq) (signedDecimal created) (str "default"))) toks []) := by
  rw [handleCompletionsStream]
  congr 2
  funext sink text
  rw [appendCompChunkSse_eq (plain_makeId (by decide) randPart seq) (plain_signedDecimal created),
    emitEvent]
  cases sse _ <;> rfl

variable {decode toks behind} {chunk : Bytes → Json}

/-- With texts that are UTF-8, a handler's stream is one event for each text, in order, and the
bytes of the last write. -/
theorem finish_handleStream (hchunk : ∀ t, ValidUtf8 t → ∃ e, sse (chunk t) = .ok e)
    (hdecode : ∀ b, ValidUtf8 (decode b)) :
    ∃ events, List.Forall₂ (fun t e => sse (chunk t) = .ok e)
        (texts decode (batches (fun tok => tok = 0) [] toks)) events ∧
      finish behind (handleStream decode (emitEvent chunk) toks []) =
        (.ok (), events.flatten ++ writeLiteral "data: [DONE]\n\n" 16 behind) := by
  obtain ⟨events, hevents, hfold⟩ :=
    foldlM_emitEvent (fun t ht => hchunk t (forall_mem_texts hdecode t ht)) []
  refine ⟨events, hevents, ?_⟩
  obtain ⟨s, hrun⟩ : ∃ s, handleStream decode (emitEvent chunk) toks [] = _ := handleStream_eq toks []
  rw [hrun, hfold]
  rfl

/-- With texts that are UTF-8, a coordinator's stream is one event for each text, in order, and the
bytes of the last write. -/
theorem finish_coordinatorStream {eosTokenId : Int}
    (hchunk : ∀ t, ValidUtf8 t → ∃ e, sse (chunk t) = .ok e)
    (hdecode : ∀ b, ValidUtf8 (decode b)) :
    ∃ events, List.Forall₂ (fun t e => sse (chunk t) = .ok e)
        (texts decode (batches (fun tok => tok = eosTokenId) [] toks)) events ∧
      finish behind (coordinatorStream decode (emitEvent chunk) eosTokenId toks []) =
        (.ok (), events.flatten ++ writeLiteral "data: [DONE]\n\n" 16 behind) := by
  obtain ⟨events, hevents, hfold⟩ :=
    foldlM_emitEvent (fun t ht => hchunk t (forall_mem_texts hdecode t ht)) []
  refine ⟨events, hevents, ?_⟩
  obtain ⟨s, hrun⟩ : ∃ s, coordinatorStream decode (emitEvent chunk) eosTokenId toks [] = _ :=
    coordinatorStream_eq eosTokenId toks []
  rw [hrun, hfold]
  rfl

end

section
variable {decode : List Int → Bytes} (randPart seq : Nat) (created : Int) (behind : Nat → UInt8)

theorem validUtf8_default : ValidUtf8 (str "default") := by
  decide

theorem exists_chatEvent {model : Bytes} (hmodel : ValidUtf8 model) (t : Bytes)
    (ht : ValidUtf8 t) :
    ∃ e, sse (chatChunk (makeId (str "chatcmpl") randPart seq) (signedDecimal created) model t) =
      .ok e :=
  exists_sse_chatChunk (plain_makeId (by decide) randPart seq) (plain_signedDecimal created) hmodel
    ht

theorem exists_compEvent {model : Bytes} (hmodel : ValidUtf8 model) (t : Bytes)
    (ht : ValidUtf8 t) :
    ∃ e, sse (compChunk (makeId (str "cmpl") randPart seq) (signedDecimal created) model t) =
      .ok e :=
  exists_sse_compChunk (plain_makeId (by decide) randPart seq) (plain_signedDecimal created) hmodel
    ht

/-- The chat stream of the handler is the events of its texts, up to its last write. -/
theorem handleChatCompletionsStream_events (hdecode : ∀ b, ValidUtf8 (decode b)) (toks : List Int) :
    ∃ events : List Bytes, (∀ e ∈ events, IsEvent e) ∧
      handleChatCompletionsStream decode randPart seq created behind toks =
        (.ok (), events.flatten ++ writeLiteral "data: [DONE]\n\n" 16 behind) := by
  rw [handleChatCompletionsStream_eq]
  obtain ⟨events, hevents, hrun⟩ := finish_handleStream
    (exists_chatEvent randPart seq created validUtf8_default) hdecode
  exact ⟨events, forall_mem_of_forall₂ hevents fun _ _ => isEvent_sse, hrun⟩

/-- The completion stream of the handler is the events of its texts, up to its last write. -/
theorem handleCompletionsStream_events (hdecode : ∀ b, ValidUtf8 (decode b)) (toks : List Int) :
    ∃ events : List Bytes, (∀ e ∈ events, IsEvent e) ∧
      handleCompletionsStream decode randPart seq created behind toks =
        (.ok (), events.flatten ++ writeLiteral "data: [DONE]\n\n" 16 behind) := by
  rw [handleCompletionsStream_eq]
  obtain ⟨events, hevents, hrun⟩ := finish_handleStream
    (exists_compEvent randPart seq created validUtf8_default) hdecode
  exact ⟨events, forall_mem_of_forall₂ hevents fun _ _ => isEvent_sse, hrun⟩

/-- The chat stream of the coordinator is the events of its texts, up to its last write. -/
theorem coordinatorChatStream_events {modelName : Bytes} (hmodel : ValidUtf8 modelName)
    (hdecode : ∀ b, ValidUtf8 (decode b)) (eosTokenId : Int) (toks : List Int) :
    ∃ events : List Bytes, (∀ e ∈ events, IsEvent e) ∧
      coordinatorChatStream decode randPart seq created behind modelName eosTokenId toks =
        (.ok (), events.flatten ++ writeLiteral "data: [DONE]\n\n" 16 behind) := by
  obtain ⟨events, hevents, hrun⟩ := finish_coordinatorStream
    (exists_chatEvent randPart seq created hmodel) hdecode
  exact ⟨events, forall_mem_of_forall₂ hevents fun _ _ => isEvent_sse, hrun⟩

/-- The completion stream of the coordinator is the events of its texts, up to its last write. -/
theorem coordinatorCompletionsStream_events {modelName : Bytes} (hmodel : ValidUtf8 modelName)
    (hdecode : ∀ b, ValidUtf8 (decode b)) (eosTokenId : Int) (toks : List Int) :
    ∃ events : List Bytes, (∀ e ∈ events, IsEvent e) ∧
      coordinatorCompletionsStream decode randPart seq created behind modelName eosTokenId toks =
        (.ok (), events.flatten ++ writeLiteral "data: [DONE]\n\n" 16 behind) := by
  obtain ⟨events, hevents, hrun⟩ := finish_coordinatorStream
    (exists_compEvent randPart seq created hmodel) hdecode
  exact ⟨events, forall_mem_of_forall₂ hevents fun _ _ => isEvent_sse, hrun⟩

end

/-! ## The terminator -/

section
variable {decode : List Int → Bytes} {behind : Nat → UInt8} {toks : List Int} {chunk : Bytes → Json}

/-- What a stream has sent before its last write. -/
def Unfinished (s : Bytes) : Prop := s = [] ∨ str "\x7d\n\n" <:+ s

theorem unfinished_emitEvent (hchunk : ∀ t, ∃ members, chunk t = .object members)
    (sink text sink' : Bytes) (_ : Unfinished sink) (h : emitEvent chunk sink text = .ok sink') :
    Unfinished sink' := by
  obtain ⟨e, he, h⟩ := bind_eq_ok.1 h
  cases h
  obtain ⟨members, hmembers⟩ := hchunk text
  rw [hmembers] at he
  exact .inr ((suffix_sse he).trans (List.suffix_append sink e))

/-- Two ends of one length, of one string. -/
theorem eq_of_suffix {s t u : Bytes} (hs : s <:+ u) (ht : t <:+ u) (h : s.length = t.length) :
    s = t :=
  (List.suffix_of_suffix_length_le hs ht h.le).eq_of_length h

theorem Unfinished.not_sseFramed {s : Bytes} (h : Unfinished s) : ¬ SseFramed s := by
  rintro ⟨events, -, heq⟩
  have hdone : str "]\n\n" <:+ s := ⟨events.flatten ++ str "data: [DONE", by rw [heq]; simp [str]⟩
  rcases h with rfl | hs
  · exact absurd (List.suffix_nil.1 hdone) (by decide)
  · exact absurd (eq_of_suffix hdone hs rfl) (by decide)

/-- The last write sends the terminator of the literal and the byte behind it. -/
theorem not_sseFramed_append (s : Bytes) (behind : Nat → UInt8) :
    ¬ SseFramed (s ++ writeLiteral "data: [DONE]\n\n" 16 behind) := by
  rintro ⟨events, -, heq⟩
  have hwrite : [0, behind 0] <:+ s ++ writeLiteral "data: [DONE]\n\n" 16 behind :=
    ⟨s ++ str "data: [DONE]\n\n", by rw [List.append_assoc]; rfl⟩
  have hdone : str "\n\n" <:+ s ++ writeLiteral "data: [DONE]\n\n" 16 behind :=
    ⟨events.flatten ++ str "data: [DONE]", by rw [heq]; simp [str]⟩
  have hbytes : (0 : UInt8) :: [behind 0] = 10 :: [10] := eq_of_suffix hwrite hdone rfl
  exact absurd (List.cons.inj hbytes).1 (by decide)

theorem not_sseFramed_finish {run : Exec Unit × SseState Bytes} (h : Unfinished run.2.sink) :
    ¬ SseFramed (finish behind run).2 := by
  unfold finish
  split
  · exact not_sseFramed_append _ behind
  · exact h.not_sseFramed

theorem not_sseFramed_handleStream (hchunk : ∀ t, ∃ members, chunk t = .object members) :
    ¬ SseFramed (finish behind (handleStream decode (emitEvent chunk) toks [])).2 :=
  not_sseFramed_finish (handleStream_keeps (unfinished_emitEvent hchunk) toks (.inl rfl))

theorem not_sseFramed_coordinatorStream (hchunk : ∀ t, ∃ members, chunk t = .object members)
    {eosTokenId : Int} :
    ¬ SseFramed (finish behind (coordinatorStream decode (emitEvent chunk) eosTokenId toks [])).2 :=
  not_sseFramed_finish
    (coordinatorStream_keeps (unfinished_emitEvent hchunk) eosTokenId toks (.inl rfl))

end

/-- No stream is framed: its last write is two bytes too long. -/
theorem streams_not_sseFramed (decode : List Int → Bytes) (randPart seq : Nat) (created : Int)
    (behind : Nat → UInt8) (modelName : Bytes) (eosTokenId : Int) (toks : List Int) :
    ¬ SseFramed (handleChatCompletionsStream decode randPart seq created behind toks).2 ∧
    ¬ SseFramed (handleCompletionsStream decode randPart seq created behind toks).2 ∧
    ¬ SseFramed (coordinatorChatStream decode randPart seq created behind modelName eosTokenId
      toks).2 ∧
    ¬ SseFramed (coordinatorCompletionsStream decode randPart seq created behind modelName
      eosTokenId toks).2 := by
  rw [handleChatCompletionsStream_eq, handleCompletionsStream_eq]
  exact ⟨not_sseFramed_handleStream fun _ => ⟨_, rfl⟩,
    not_sseFramed_handleStream fun _ => ⟨_, rfl⟩,
    not_sseFramed_coordinatorStream fun _ => ⟨_, rfl⟩,
    not_sseFramed_coordinatorStream fun _ => ⟨_, rfl⟩⟩

/-- A chat stream of one token. -/
theorem chatStream_hi :
    (∀ b, ValidUtf8 ((fun _ => str "Hi" : List Int → Bytes) b)) ∧
    handleChatCompletionsStream (fun _ => str "Hi") 11 0 1700000000 (fun _ => 65) [5] =
      (.ok (), str ("data: \x7b\"choices\":[\x7b\"delta\":\x7b\"content\":\"Hi\"," ++
        "\"role\":\"assistant\"\x7d,\"index\":0\x7d],\"created\":\"1700000000\"," ++
        "\"id\":\"chatcmpl-b0\",\"model\":\"default\"," ++
        "\"object\":\"chat.completion.chunk\"\x7d\n\n" ++
        "data: [DONE]\n\n") ++ [0, 65]) ∧
    ¬ SseFramed (handleChatCompletionsStream (fun _ => str "Hi") 11 0 1700000000 (fun _ => 65)
      [5]).2 := by
  refine ⟨fun _ => show ValidUtf8 (str "Hi") by decide, ?_, ?_⟩
  · decide +kernel
  · rw [handleChatCompletionsStream_eq]
    exact not_sseFramed_handleStream fun _ => ⟨_, rfl⟩

end Terllama
