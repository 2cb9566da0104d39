import Terllama.Base.Utf8Lossy

/-!
# The chat of the desktop application

`stream_chat` of `src-tauri/src/commands.rs`, which reads the events of the server out of each chunk
of the network by itself: a line that lies in two chunks is read as two. `streamChat_chunking_iff`
says which byte streams give the same events for all chunks, and for which chunks a stream gives the
events of its lines.
-/

namespace Terllama

/-- An event for the web view. -/
inductive ChatEvent where
  | done
  | token (data : Bytes)
  deriving DecidableEq, Repr

/-- The lines of a text with the newlines that end them. -/
def splitInclusive : Bytes → List Bytes
  | [] => []
  | c :: s =>
    if c = 10 then [c] :: splitInclusive s
    else
      match splitInclusive s with
      | [] => [[c]]
      | line :: lines => (c :: line) :: lines

/-- A line without its newline, and without a carriage return before the newline. -/
def stripLine (line : Bytes) : Bytes :=
  if line.getLast? = some 10 then
    if line.dropLast.getLast? = some 13 then line.dropLast.dropLast else line.dropLast
  else line

/-- `str::lines`. -/
def textLines (text : Bytes) : List Bytes := (splitInclusive text).map stripLine

/-- `str::trim_start_matches`. The text bounds how often the pattern is taken off. -/
def trimStartMatches (pat : Bytes) : Nat → Bytes → Bytes
  | 0, s => s
  | n + 1, s => if pat.isPrefixOf s then trimStartMatches pat n (s.drop pat.length) else s

/-- What the field of an event begins with. -/
def dataPrefix : Bytes := str "data: "

/-- What the body of the inner loop emits for a line. -/
def lineEvent (line : Bytes) : Option ChatEvent :=
  if dataPrefix.isPrefixOf line then
    let data := trimStartMatches dataPrefix line.length line
    if data = str "[DONE]" then some .done else some (.token data)
  else none

/-- The events of a chunk. -/
def chunkEvents (chunk : Bytes) : List ChatEvent :=
  (textLines (fromUtf8Lossy chunk)).filterMap lineEvent

/-- The loop over the chunks of a response. -/
def chatLoop : List (Except Bytes Bytes) → List ChatEvent × Except Bytes Unit
  | [] => ([], .ok ())
  | .error e :: _ => ([], .error (str "Stream error: " ++ e))
  | .ok chunk :: chunks =>
    let (events, result) := chatLoop chunks
    (chunkEvents chunk ++ events, result)

/-- `stream_chat`, on what the request returns. -/
def streamChat (configuredPort port : Nat) (response : Except Bytes (List (Except Bytes Bytes))) :
    List ChatEvent × Except Bytes Unit :=
  if port ≠ configuredPort then ([], .error (str "port mismatch: use the configured server port"))
  else
    match response with
    | .error e => ([], .error (str "Stream request failed: " ++ e))
    | .ok chunks => chatLoop chunks

/-- The events for a stream that arrives in these chunks. -/
def chunkedEvents (port : Nat) (chunks : List Bytes) : List ChatEvent :=
  (streamChat port port (.ok (chunks.map .ok))).1

theorem chunkedEvents_eq (port : Nat) (chunks : List Bytes) :
    chunkedEvents port chunks = chunks.flatMap chunkEvents := by
  have hloop : ∀ cs : List Bytes, (chatLoop (cs.map .ok)).1 = cs.flatMap chunkEvents := by
    intro cs
    induction cs with
    | nil => rfl
    | cons c cs ih =>
      rw [List.map_cons, List.flatMap_cons, ← ih]
      rfl
  rw [chunkedEvents, streamChat, if_neg (not_not.2 rfl)]
  exact hloop chunks

/-! ## Lines and chunks -/

/-- A line ends at a newline. -/
theorem splitInclusive_append_newline (s t : Bytes) :
    splitInclusive (s ++ 10 :: t) = splitInclusive (s ++ [10]) ++ splitInclusive t := by
  induction s with
  | nil => rfl
  | cons c s ih =>
    have hne : splitInclusive (s ++ [10]) ≠ [] := by
      cases s with
      | nil => decide
      | cons d s =>
        rw [List.cons_append, splitInclusive]
        split
        · exact List.cons_ne_nil _ _
        · split
          · exact List.cons_ne_nil _ _
          · exact List.cons_ne_nil _ _
    rw [List.cons_append, List.cons_append, splitInclusive, splitInclusive, ih]
    split
    · rfl
    · cases hlines : splitInclusive (s ++ [10]) with
      | nil => exact absurd hlines hne
      | cons line lines => rfl

/-- Chunks that end at the ends of lines, but for the last one. -/
def LineChunks : List Bytes → Prop
  | [] => True
  | [_] => True
  | c :: cs => (c = [] ∨ c.getLast? = some 10) ∧ LineChunks cs

theorem chunkEvents_append {c : Bytes} (hc : c = [] ∨ c.getLast? = some 10) (s : Bytes) :
    chunkEvents (c ++ s) = chunkEvents c ++ chunkEvents s := by
  rcases hc with rfl | hc
  · rfl
  · obtain ⟨c, rfl⟩ := List.getLast?_eq_some_iff.1 hc
    have hnewline : (10 : UInt8) ≤ 0x7F := by decide
    have htext : fromUtf8Lossy (c ++ [10]) = fromUtf8Lossy c ++ [10] :=
      fromUtf8Lossy_append_ascii hnewline c []
    rw [chunkEvents, chunkEvents, chunkEvents, List.append_assoc, List.singleton_append,
      fromUtf8Lossy_append_ascii hnewline, htext, textLines, splitInclusive_append_newline,
      List.map_append, List.filterMap_append]
    rfl

/-- Such chunks give the events of the lines of the whole stream. -/
theorem flatMap_lineChunks {cs : List Bytes} (h : LineChunks cs) :
    cs.flatMap chunkEvents = chunkEvents cs.flatten := by
  induction cs with
  | nil => rfl
  | cons c cs ih =>
    cases cs with
    | nil => rw [List.flatMap_cons, List.flatMap_nil, List.flatten_cons, List.flatten_nil,
        List.append_nil, List.append_nil]
    | cons d cs =>
      rw [List.flatMap_cons, List.flatten_cons, chunkEvents_append h.1, ih h.2]

/-! ## Data lines -/

theorem splitInclusive_flatten (s : Bytes) : (splitInclusive s).flatten = s := by
  induction s with
  | nil => rfl
  | cons c s ih =>
    rw [splitInclusive]
    split
    · rw [List.flatten_cons, ih]
      rfl
    · cases hlines : splitInclusive s with
      | nil =>
        rw [hlines] at ih
        rw [← ih]
        rfl
      | cons line lines =>
        rw [hlines] at ih
        rw [← ih]
        rfl

/-- A line begins with the bytes of a text up to its first newline. -/
theorem splitInclusive_append {p : Bytes} (hne : p ≠ []) (hp : 10 ∉ p) (t : Bytes) :
    ∃ line lines, splitInclusive (p ++ t) = (p ++ line) :: lines := by
  induction p with
  | nil => exact absurd rfl hne
  | cons c p ih =>
    rw [List.mem_cons, not_or] at hp
    rw [List.cons_append, splitInclusive, if_neg (Ne.symm hp.1)]
    cases p with
    | nil =>
      cases splitInclusive ([] ++ t) with
      | nil => exact ⟨[], [], rfl⟩
      | cons line lines => exact ⟨line, lines, rfl⟩
    | cons d p =>
      obtain ⟨line, lines, hlines⟩ := ih (List.cons_ne_nil d p) hp.2
      exact ⟨line, lines, by rw [hlines]; rfl⟩

theorem stripLine_prefixed (line : Bytes) : stripLine line <+: line := by
  unfold stripLine
  split
  · split
    · exact (List.dropLast_prefix _).trans (List.dropLast_prefix _)
    · exact List.dropLast_prefix _
  · exact List.prefix_rfl

/-- What stands in front of the end of a line stays. -/
theorem stripLine_append {p : Bytes} (hp : p.getLast? ≠ some 10 ∧ p.getLast? ≠ some 13)
    (line : Bytes) : stripLine (p ++ line) = p ++ stripLine line := by
  have hlast : ∀ {l : Bytes} {c : UInt8}, p.getLast? ≠ some c →
      ((p ++ l).getLast? = some c ↔ l.getLast? = some c) := by
    intro l c hc
    cases l with
    | nil =>
      rw [List.append_nil]
      exact iff_of_false hc (Option.some_ne_none c).symm
    | cons d l => rw [List.getLast?_append_of_ne_nil _ (List.cons_ne_nil d l)]
  have hdrop : ∀ {l : Bytes} {c : UInt8}, l.getLast? = some c →
      (p ++ l).dropLast = p ++ l.dropLast := by
    intro l c hl
    refine List.dropLast_append_of_ne_nil ?_
    rintro rfl
    cases hl
  unfold stripLine
  by_cases hnewline : line.getLast? = some 10
  · rw [if_pos ((hlast hp.1).2 hnewline), if_pos hnewline, hdrop hnewline]
    by_cases hreturn : line.dropLast.getLast? = some 13
    · rw [if_pos ((hlast hp.2).2 hreturn), if_pos hreturn, hdrop hreturn]
    · rw [if_neg fun h => hreturn ((hlast hp.2).1 h), if_neg hreturn]
  · rw [if_neg fun h => hnewline ((hlast hp.1).1 h), if_neg hnewline]

theorem lineEvent_isSome_iff {line : Bytes} :
    (lineEvent line).isSome = true ↔ dataPrefix <+: line := by
  rw [lineEvent, ← List.isPrefixOf_iff_prefix]
  split
  · next h =>
    refine iff_of_true ?_ h
    dsimp only
    split
    · rfl
    · rfl
  · next h => exact iff_of_false Bool.false_ne_true h

theorem dataPrefix_ascii : ∀ c ∈ dataPrefix, c ≤ 0x7F := List.all_iff_forall_prop.1 rfl

/-- A chunk with an event has a data field. -/
theorem infix_of_chunkEvents {chunk : Bytes} (h : chunkEvents chunk ≠ []) :
    dataPrefix <:+: chunk := by
  obtain ⟨event, hevent⟩ := List.exists_mem_of_ne_nil _ h
  obtain ⟨line, hline, hsome⟩ := List.mem_filterMap.1 hevent
  obtain ⟨piece, hpiece, rfl⟩ := List.mem_map.1 hline
  have hstart : dataPrefix <+: stripLine piece := by
    rw [← lineEvent_isSome_iff, hsome]
    rfl
  have hpiece : piece <:+: fromUtf8Lossy chunk := by
    have hflatten := List.infix_of_mem_flatten hpiece
    rwa [splitInclusive_flatten] at hflatten
  refine infix_of_infix_fromUtf8Lossy dataPrefix_ascii ?_
  exact ((hstart.trans (stripLine_prefixed piece)).isInfix).trans hpiece

/-- A chunk that begins with a data field has an event. -/
theorem chunkEvents_dataPrefix (s : Bytes) : chunkEvents (dataPrefix ++ s) ≠ [] := by
  have hascii : ∀ {p : Bytes}, (∀ c ∈ p, c ≤ 0x7F) →
      fromUtf8Lossy (p ++ s) = p ++ fromUtf8Lossy s := by
    intro p hp
    induction p with
    | nil => rfl
    | cons c p ih =>
      rw [List.forall_mem_cons] at hp
      rw [List.cons_append, fromUtf8Lossy_ascii hp.1, ih hp.2]
      rfl
  obtain ⟨line, lines, hlines⟩ := splitInclusive_append (p := dataPrefix) (by decide) (by decide)
    (fromUtf8Lossy s)
  have hstrip := stripLine_append (p := dataPrefix) (by decide) line
  have hsome : (lineEvent (dataPrefix ++ stripLine line)).isSome = true :=
    lineEvent_isSome_iff.2 (List.prefix_append _ _)
  obtain ⟨event, hevent⟩ := Option.isSome_iff_exists.1 hsome
  rw [chunkEvents, hascii dataPrefix_ascii, textLines, hlines, List.map_cons, hstrip,
    List.filterMap_cons_some hevent]
  exact List.cons_ne_nil _ _

/-- A stream gives the same events for all ways to cut it into chunks exactly where it has no data
field, and so no event at all. Chunks that end at the ends of lines give the events of its lines. -/
theorem streamChat_chunking_iff (port : Nat) (s : Bytes) :
    ((∀ cs ds : List Bytes, cs.flatten = s → ds.flatten = s →
        chunkedEvents port cs = chunkedEvents port ds) ↔ ¬ dataPrefix <:+: s) ∧
    ∀ cs ds : List Bytes, cs.flatten = s → ds.flatten = s → LineChunks cs → LineChunks ds →
      chunkedEvents port cs = chunkedEvents port ds := by
  simp only [chunkedEvents_eq]
  have hnone : ∀ cs : List Bytes, (∀ c ∈ cs, ¬ dataPrefix <:+: c) →
      cs.flatMap chunkEvents = [] := by
    intro cs hcs
    rw [List.flatMap_eq_nil_iff]
    intro c hc
    by_contra hevents
    exact hcs c hc (infix_of_chunkEvents hevents)
  refine ⟨⟨?_, ?_⟩, ?_⟩
  · rintro h ⟨pre, post, rfl⟩
    -- one chunk for each byte against a chunk that begins at the field
    have hbytes : ((pre ++ dataPrefix ++ post).map fun c => [c]).flatMap chunkEvents = [] := by
      refine hnone _ fun c hc hinside => ?_
      obtain ⟨b, -, rfl⟩ := List.mem_map.1 hc
      have hle : 6 ≤ 1 := hinside.length_le
      exact absurd hle (by decide)
    have hsame := h ((pre ++ dataPrefix ++ post).map fun c => [c]) [pre, dataPrefix ++ post]
      (by rw [← List.flatMap_def, List.flatMap_singleton'])
      (by simp)
    rw [hbytes, List.flatMap_cons, List.flatMap_cons, List.flatMap_nil, List.append_nil] at hsame
    exact chunkEvents_dataPrefix post (List.append_eq_nil_iff.1 hsame.symm).2
  · rintro h cs ds rfl hds
    have hinside : ∀ es : List Bytes, es.flatten = cs.flatten → es.flatMap chunkEvents = [] := by
      intro es hes
      refine hnone es fun c hc hinside => h ?_
      rw [← hes]
      exact hinside.trans (List.infix_of_mem_flatten hc)
    rw [hinside cs rfl, hinside ds hds]
  · rintro cs ds rfl hds hcs hds'
    rw [flatMap_lineChunks hcs, flatMap_lineChunks hds', hds]

/-- The end of a stream that is cut in its marker. -/
theorem streamChat_cut :
    [str "data: [DO", str "NE]\n\n"].flatten = [str "data: [DONE]\n\n"].flatten ∧
      chunkedEvents 8080 [str "data: [DONE]\n\n"] = [.done] ∧
      chunkedEvents 8080 [str "data: [DO", str "NE]\n\n"] = [.token (str "[DO")] := by
  decide +kernel

end Terllama
