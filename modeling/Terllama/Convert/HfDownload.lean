import Mathlib.Data.List.TakeDrop
import Mathlib.Data.List.TakeWhile
import Terllama.Base.Bytes

/-!
# Downloads

`hf_download_file` of `convert/hf_download.cpp`: it walks the redirects of the server by hand,
writes each body through a buffered stream into a temporary file, which it truncates before the next
request, and renames that file at the end. Two things can go wrong. What is still buffered when the
stream is closed may be lost (`download_atomic_iff`), and the host that is checked is cut out of the
URL at the first slash and colon, which is not the host of its authority
(`download_confined_iff`).
-/

namespace Terllama

/-! ## URLs -/

/-- The digits of `hf_url_encode`. -/
def urlHex (n : UInt8) : UInt8 := if n < 10 then 48 + n else 55 + n

/-- The bytes that `hf_url_encode` leaves. -/
def isUnreserved (c : UInt8) : Bool :=
  65 ≤ c && c ≤ 90 || 97 ≤ c && c ≤ 122 || 48 ≤ c && c ≤ 57 || c == 45 || c == 95 || c == 46 ||
    c == 126 || c == 47

/-- `hf_url_encode`. -/
def hfUrlEncode (s : Bytes) : Bytes :=
  s.flatMap fun c => if isUnreserved c then [c] else [37, urlHex (c >>> 4), urlHex (c &&& 15)]

/-- `hf_host_is_allowed`. -/
def hfHostIsAllowed (host : Bytes) : Bool :=
  let s1 := str ".huggingface.co"
  let s2 := str ".hf.co"
  host == str "huggingface.co" || host == str "hf.co" ||
    decide (host.length > s1.length) && s1.isSuffixOf host ||
    decide (host.length > s2.length) && s2.isSuffixOf host

/-- A string without what stands from the first of these bytes on, as `find` and `resize` cut it. -/
def hostCut (c : UInt8) (s : Bytes) : Bytes := s.takeWhile (· != c)

/-- The host that the walk checks. -/
def walkHost (next : Bytes) : Bytes :=
  let nextHttps := (str "https://").isPrefixOf next
  hostCut 58 (hostCut 47 (next.drop (if nextHttps then 8 else 7)))

/-- Whether the walk follows a redirect to `next`. -/
def redirectAllowed (initialHttps : Bool) (next : Bytes) : Bool :=
  let nextHttps := (str "https://").isPrefixOf next
  let nextHttp := (str "http://").isPrefixOf next
  if !nextHttps && !nextHttp then false
  else if !nextHttps && initialHttps then false
  else hfHostIsAllowed (walkHost next)

/-! ## The stream -/

/-- The temporary file behind a buffer. -/
structure Stream where
  file : Bytes := []
  buffered : Bytes := []
  deriving DecidableEq, Repr

/-- A flush that gets `n` bytes into the file. What it does not get there it drops, as `fflush` and
`fclose` do. -/
def Stream.flush (s : Stream) (n : Nat) : Stream :=
  { file := s.file ++ s.buffered.take n
    buffered := [] }

/-- A piece of a body and what `fwrite` does with it: how many bytes it takes, and how many of the
buffered ones get into the file. -/
structure BodyPiece where
  bytes : Bytes
  taken : Nat
  flushed : Nat
  deriving DecidableEq, Repr

/-- `write_to_file`: the number that it returns, and the stream. -/
def Stream.fwrite (s : Stream) (p : BodyPiece) : Nat × Stream :=
  let buffered := s.buffered ++ p.bytes.take p.taken
  ((p.bytes.take p.taken).length,
    { file := s.file ++ buffered.take p.flushed
      buffered := buffered.drop p.flushed })

/-- The pieces of a body. The transfer is given up where less than a piece is taken. -/
def Stream.writeBody (s : Stream) : List BodyPiece → Bool × Stream
  | [] => (true, s)
  | p :: ps =>
    let (n, s) := s.fwrite p
    if n ≠ p.bytes.length then (false, s) else s.writeBody ps

/-! ## The walk -/

/-- What happens at one request: `fflush` and `ftruncate` before it, the transfer, and the answer.
An empty redirect URL is none. -/
structure Transfer where
  flushed : Nat
  truncates : Bool
  pieces : List BodyPiece
  /-- `curl_easy_perform` fails for another reason than the stream. -/
  fails : Bool
  httpCode : Nat
  redirectUrl : Bytes
  deriving DecidableEq, Repr

/-- The body that the server sends. -/
def Transfer.body (t : Transfer) : Bytes := t.pieces.flatMap BodyPiece.bytes

/-- What the walk leaves: whether it ends in a file, the stream, and the requested URLs. -/
structure Walk where
  ok : Bool
  stream : Stream
  requested : List Bytes
  deriving DecidableEq, Repr

/-- The loop of `hf_download_file`, with the redirects that it still follows. -/
def redirectWalk (transfers : Nat → Transfer) (initialHttps : Bool) :
    Nat → Nat → Bytes → Stream → Walk
  | left, i, url, s =>
    let t := transfers i
    let s := s.flush t.flushed
    if !t.truncates then ⟨false, s, []⟩
    else
      let (taken, s) := ({} : Stream).writeBody t.pieces
      if !taken || t.fails then ⟨false, s, [url]⟩
      else if 300 ≤ t.httpCode ∧ t.httpCode < 400 then
        if t.redirectUrl.isEmpty then ⟨false, s, [url]⟩
        else
          match left with
          | 0 => ⟨false, s, [url]⟩
          | left + 1 =>
            if redirectAllowed initialHttps t.redirectUrl then
              let walk := redirectWalk transfers initialHttps left (i + 1) t.redirectUrl s
              { walk with requested := url :: walk.requested }
            else ⟨false, s, [url]⟩
      else ⟨decide (200 ≤ t.httpCode ∧ t.httpCode < 300), s, [url]⟩

/-! ## The download -/

/-- What the system and the server do. -/
structure DownloadEnv where
  destIsDir : Bool
  mkstemp : Bool
  /-- The temporary file is a regular file of the user. -/
  fstat : Bool
  fdopen : Bool
  curlInit : Bool
  transfers : Nat → Transfer
  /-- How many buffered bytes `fclose` gets into the file. -/
  closeFlushed : Nat
  renames : Bool
  unlinks : Bool

/-- The file at the final path, and the temporary file. -/
structure DownloadFiles where
  final : Option Bytes
  tmp : Option Bytes := none
  deriving DecidableEq, Repr

/-- `unlink` of the temporary file. -/
def DownloadFiles.unlink (files : DownloadFiles) (unlinks : Bool) : DownloadFiles :=
  if unlinks then { files with tmp := none } else files

/-- What `hf_download_file` returns and leaves, with the URLs that it has requested. -/
structure DownloadResult where
  ret : Int
  files : DownloadFiles
  requested : List Bytes := []
  deriving DecidableEq, Repr

/-- The URL of a file. -/
def hfUrl (repoId filename : Bytes) : Bytes :=
  str "https://huggingface.co/" ++ hfUrlEncode repoId ++ str "/resolve/main/" ++
    hfUrlEncode filename

/-- `hf_download_file`. -/
def hfDownloadFile (repoId filename destDir : Bytes) (env : DownloadEnv) (final : Option Bytes) :
    DownloadResult :=
  if repoId.isEmpty || filename.isEmpty || destDir.isEmpty then ⟨1, ⟨final, none⟩, []⟩
  else if !env.destIsDir then ⟨1, ⟨final, none⟩, []⟩
  else if (findSub (str "..") filename).isSome || filename.contains 47 then
    ⟨1, ⟨final, none⟩, []⟩
  else if !env.mkstemp then ⟨1, ⟨final, none⟩, []⟩
  else if !env.fstat then ⟨1, DownloadFiles.unlink ⟨final, some []⟩ env.unlinks, []⟩
  else if !env.fdopen then ⟨1, DownloadFiles.unlink ⟨final, some []⟩ env.unlinks, []⟩
  else if !env.curlInit then ⟨1, DownloadFiles.unlink ⟨final, some []⟩ env.unlinks, []⟩
  else
    let url := hfUrl repoId filename
    let walk := redirectWalk env.transfers ((str "https://").isPrefixOf url) 10 0 url {}
    let file := (walk.stream.flush env.closeFlushed).file
    if walk.ok then
      if !env.renames then
        ⟨1, DownloadFiles.unlink ⟨final, some file⟩ env.unlinks, walk.requested⟩
      else ⟨0, ⟨some file, none⟩, walk.requested⟩
    else ⟨1, DownloadFiles.unlink ⟨final, some file⟩ env.unlinks, walk.requested⟩

/-! ## What one request does -/

/-- The transfer is made, and its body taken whole. -/
def Transfer.Taken (t : Transfer) : Prop :=
  t.truncates = true ∧ (({} : Stream).writeBody t.pieces).1 = true ∧ t.fails = false

/-- A redirect that the walk follows. -/
structure Transfer.Followed (t : Transfer) (initialHttps : Bool) : Prop where
  taken : t.Taken
  code : 300 ≤ t.httpCode ∧ t.httpCode < 400
  redirectUrl : t.redirectUrl ≠ []
  allowed : redirectAllowed initialHttps t.redirectUrl = true

/-- An answer that the walk ends with. -/
structure Transfer.Delivered (t : Transfer) : Prop where
  taken : t.Taken
  code : 200 ≤ t.httpCode ∧ t.httpCode < 300

section
variable {transfers : Nat → Transfer} {initialHttps : Bool}

/-- The walk at one request: it fails before the request, or after it, ends with its body, or goes
on. -/
inductive WalkStep (transfers : Nat → Transfer) (initialHttps : Bool) (left i : Nat) (url : Bytes) :
    Walk → Prop
  | early (s : Stream) : (transfers i).truncates = false →
      WalkStep transfers initialHttps left i url ⟨false, s, []⟩
  | failed (s : Stream) : (transfers i).truncates = true → ¬ (transfers i).Delivered →
      ((transfers i).Followed initialHttps → left = 0) →
      WalkStep transfers initialHttps left i url ⟨false, s, [url]⟩
  | delivered : (transfers i).Delivered → WalkStep transfers initialHttps left i url
      ⟨true, (({} : Stream).writeBody (transfers i).pieces).2, [url]⟩
  | followed (l : Nat) (s : Stream) : left = l + 1 → (transfers i).Followed initialHttps →
      WalkStep transfers initialHttps left i url
        { redirectWalk transfers initialHttps l (i + 1) (transfers i).redirectUrl s with
          requested := url ::
            (redirectWalk transfers initialHttps l (i + 1) (transfers i).redirectUrl s).requested }

theorem redirectWalk_step (transfers : Nat → Transfer) (initialHttps : Bool) (left i : Nat)
    (url : Bytes) (s : Stream) :
    WalkStep transfers initialHttps left i url
      (redirectWalk transfers initialHttps left i url s) := by
  unfold redirectWalk
  simp only [Bool.not_eq_true', Bool.or_eq_true]
  split
  · next htruncates => exact .early _ htruncates
  · next htruncates =>
    have htruncates : (transfers i).truncates = true := by simpa using htruncates
    split
    · next htaken =>
      have hnot : ¬ (transfers i).Taken := by
        rintro ⟨-, htaken', hfails⟩
        rcases htaken with htaken | hfails'
        · rw [htaken'] at htaken
          cases htaken
        · rw [hfails] at hfails'
          cases hfails'
      exact .failed _ htruncates (fun h => hnot h.taken) fun h => absurd h.taken hnot
    · next htaken =>
      rw [not_or, Bool.not_eq_false, Bool.not_eq_true] at htaken
      have htaken : (transfers i).Taken := ⟨htruncates, htaken⟩
      split
      · next hcode =>
        have hnot : ¬ (transfers i).Delivered := fun h => absurd h.code.2 (by omega)
        split
        · next hempty =>
          refine .failed _ htruncates hnot fun h => absurd ?_ h.redirectUrl
          exact List.isEmpty_iff.1 hempty
        · next hempty =>
          split
          · exact .failed _ htruncates hnot fun _ => rfl
          · next l =>
            split
            · next hallowed =>
              refine .followed l _ rfl ⟨htaken, hcode, ?_, hallowed⟩
              rwa [List.isEmpty_iff] at hempty
            · next hallowed =>
              exact .failed _ htruncates hnot fun h => absurd h.allowed hallowed
      · next hcode =>
        by_cases hok : 200 ≤ (transfers i).httpCode ∧ (transfers i).httpCode < 300
        · rw [decide_eq_true hok]
          exact .delivered ⟨htaken, hok⟩
        · rw [decide_eq_false hok]
          exact .failed _ htruncates (fun h => hok h.code) fun h => absurd h.code hcode

/-! ## The whole walk -/

/-- The walk follows `n` redirects and ends with an answer. -/
structure Completes (transfers : Nat → Transfer) (initialHttps : Bool) (left i n : Nat) : Prop where
  le : n ≤ left
  followed : ∀ j < n, (transfers (i + j)).Followed initialHttps
  delivered : (transfers (i + n)).Delivered

/-- Codes of redirects are none of answers. -/
theorem Transfer.Followed.not_delivered {t : Transfer} (h : t.Followed initialHttps) :
    ¬ t.Delivered := by
  intro hdelivered
  have hcode := h.code.1
  have hcode' := hdelivered.code.2
  omega

/-- A walk that completes ends with the body of its last answer in the stream. -/
theorem redirectWalk_of_completes {left i n : Nat} (h : Completes transfers initialHttps left i n)
    (url : Bytes) (s : Stream) :
    ∃ requested, requested.length = n + 1 ∧ redirectWalk transfers initialHttps left i url s =
      ⟨true, (({} : Stream).writeBody (transfers (i + n)).pieces).2, requested⟩ := by
  induction n generalizing left i url s with
  | zero =>
    have hdelivered : (transfers i).Delivered := h.delivered
    have hstep := redirectWalk_step transfers initialHttps left i url s
    generalize redirectWalk transfers initialHttps left i url s = walk at hstep ⊢
    cases hstep with
    | early s htruncates =>
      rw [hdelivered.taken.1] at htruncates
      cases htruncates
    | failed s htruncates hnot _ => exact absurd hdelivered hnot
    | delivered _ => exact ⟨[url], rfl, rfl⟩
    | followed l s _ hfollowed => exact absurd hdelivered hfollowed.not_delivered
  | succ n ih =>
    have hfollowed : (transfers i).Followed initialHttps := h.followed 0 (Nat.succ_pos n)
    have hstep := redirectWalk_step transfers initialHttps left i url s
    generalize redirectWalk transfers initialHttps left i url s = walk at hstep ⊢
    cases hstep with
    | early s htruncates =>
      rw [hfollowed.taken.1] at htruncates
      cases htruncates
    | failed s _ _ hleft =>
      have hle := h.le
      rw [hleft hfollowed] at hle
      exact absurd hle (Nat.not_succ_le_zero n)
    | delivered hdelivered => exact absurd hdelivered hfollowed.not_delivered
    | followed l s hleft _ =>
      have hshift : ∀ j, i + 1 + j = i + (j + 1) := fun j => by omega
      have hrest : Completes transfers initialHttps l (i + 1) n := by
        refine ⟨?_, fun j hj => ?_, ?_⟩
        · have hle := h.le
          omega
        · rw [hshift]
          exact h.followed (j + 1) (Nat.succ_lt_succ hj)
        · rw [hshift]
          exact h.delivered
      obtain ⟨requested, hlength, hwalk⟩ := ih hrest (transfers i).redirectUrl s
      refine ⟨url :: requested, ?_, ?_⟩
      · rw [List.length_cons, hlength]
      · rw [hwalk, hshift]

/-- A walk that ends in a file has completed. -/
theorem completes_of_redirectWalk {left i : Nat} {url : Bytes} {s : Stream}
    (h : (redirectWalk transfers initialHttps left i url s).ok = true) :
    ∃ n, Completes transfers initialHttps left i n := by
  induction left using Nat.strong_induction_on generalizing i url s with
  | _ left ih =>
    have hstep := redirectWalk_step transfers initialHttps left i url s
    generalize redirectWalk transfers initialHttps left i url s = walk at hstep h
    cases hstep with
    | early => cases h
    | failed => cases h
    | delivered hdelivered =>
      exact ⟨0, Nat.zero_le _, fun j hj => absurd hj (Nat.not_lt_zero j), hdelivered⟩
    | followed l s hleft hfollowed =>
      subst hleft
      obtain ⟨n, hn⟩ := ih l (Nat.lt_succ_self l) h
      refine ⟨n + 1, Nat.succ_le_succ hn.le, fun j hj => ?_, ?_⟩
      · cases j with
        | zero => exact hfollowed
        | succ j =>
          have hj := hn.followed j (Nat.lt_of_succ_lt_succ hj)
          rwa [Nat.add_right_comm] at hj
      · have hdelivered := hn.delivered
        rwa [Nat.add_right_comm] at hdelivered

end

/-! ## Atomicity -/

theorem Stream.writeBody_cons (s : Stream) (p : BodyPiece) (ps : List BodyPiece) :
    s.writeBody (p :: ps) = if (s.fwrite p).1 ≠ p.bytes.length then (false, (s.fwrite p).2)
      else (s.fwrite p).2.writeBody ps := rfl

/-- A body that is taken whole is in the file and in the buffer. -/
theorem Stream.writeBody_eq {ps : List BodyPiece} {s : Stream} (h : (s.writeBody ps).1 = true) :
    (s.writeBody ps).2.file ++ (s.writeBody ps).2.buffered =
      s.file ++ s.buffered ++ ps.flatMap BodyPiece.bytes := by
  induction ps generalizing s with
  | nil => rw [List.flatMap_nil, List.append_nil]; rfl
  | cons p ps ih =>
    rw [writeBody_cons] at h ⊢
    split at h
    · cases h
    · next hwhole =>
      rw [if_neg hwhole]
      have htaken : p.bytes.take p.taken = p.bytes := by
        refine List.take_of_length_le ?_
        have hlength : (p.bytes.take p.taken).length = p.bytes.length := not_not.1 hwhole
        rw [List.length_take] at hlength
        omega
      rw [ih h]
      simp only [fwrite, htaken, List.flatMap_cons]
      rw [List.append_assoc s.file, List.take_append_drop]
      simp only [List.append_assoc]

section
variable (repoId filename destDir : Bytes) (env : DownloadEnv) (final : Option Bytes)

/-- The temporary file is created. -/
def DownloadEnv.Created : Prop :=
  (repoId.isEmpty || filename.isEmpty || destDir.isEmpty) = false ∧ env.destIsDir = true ∧
    ((findSub (str "..") filename).isSome || filename.contains 47) = false ∧ env.mkstemp = true

/-- The walk begins. -/
def DownloadEnv.Ready : Prop :=
  env.Created repoId filename destDir ∧ env.fstat = true ∧ env.fdopen = true ∧ env.curlInit = true

/-- The walk follows `n` redirects to an answer, and the file is renamed. -/
structure DownloadEnv.Succeeds (n : Nat) : Prop where
  ready : env.Ready repoId filename destDir
  completes : Completes env.transfers true 10 0 n
  renames : env.renames = true

/-- The body of the transfer `n` as the stream holds it. -/
def DownloadEnv.stream (n : Nat) : Stream :=
  (({} : Stream).writeBody (env.transfers n).pieces).2

/-- The URLs that the walk requests. -/
def DownloadEnv.requested : List Bytes :=
  (redirectWalk env.transfers true 10 0 (hfUrl repoId filename) {}).requested

/-- The result of a download: without a temporary file, before the walk, without a file at the end,
or with one. -/
inductive DownloadCase : DownloadResult → Prop
  | refused : ¬ env.Created repoId filename destDir → DownloadCase ⟨1, ⟨final, none⟩, []⟩
  | early : env.Created repoId filename destDir → ¬ env.Ready repoId filename destDir →
      DownloadCase ⟨1, DownloadFiles.unlink ⟨final, some []⟩ env.unlinks, []⟩
  | failed (file : Bytes) : env.Ready repoId filename destDir →
      (∀ n, ¬ env.Succeeds repoId filename destDir n) →
      DownloadCase ⟨1, DownloadFiles.unlink ⟨final, some file⟩ env.unlinks,
        env.requested repoId filename⟩
  | succeeded (n : Nat) : env.Succeeds repoId filename destDir n →
      (env.requested repoId filename).length = n + 1 →
      DownloadCase ⟨0, ⟨some ((env.stream n).flush env.closeFlushed).file, none⟩,
        env.requested repoId filename⟩

theorem https_hfUrl : (str "https://").isPrefixOf (hfUrl repoId filename) = true := by
  have htext : str "https://huggingface.co/" = str "https://" ++ str "huggingface.co/" := by decide
  rw [hfUrl, htext, List.isPrefixOf_iff_prefix]
  simp only [List.append_assoc]
  exact List.prefix_append _ _

theorem hfDownloadFile_case : DownloadCase repoId filename destDir env final
    (hfDownloadFile repoId filename destDir env final) := by
  by_cases hcreated : env.Created repoId filename destDir
  · obtain ⟨hargs, hdir, hname, htmp⟩ := hcreated
    have hcreated : env.Created repoId filename destDir := ⟨hargs, hdir, hname, htmp⟩
    simp only [hfDownloadFile, hargs, hdir, hname, htmp, https_hfUrl, Bool.false_eq_true, if_false,
      Bool.not_true]
    split
    · next hfstat =>
      refine .early hcreated fun h => ?_
      rw [h.2.1] at hfstat
      cases hfstat
    · next hfstat =>
      split
      · next hfdopen =>
        refine .early hcreated fun h => ?_
        rw [h.2.2.1] at hfdopen
        cases hfdopen
      · next hfdopen =>
        split
        · next hcurl =>
          refine .early hcreated fun h => ?_
          rw [h.2.2.2] at hcurl
          cases hcurl
        · next hcurl =>
          simp only [Bool.not_eq_true', Bool.not_eq_false] at hfstat hfdopen hcurl
          have hready : env.Ready repoId filename destDir := ⟨hcreated, hfstat, hfdopen, hcurl⟩
          split
          · next hok =>
            obtain ⟨n, hn⟩ := completes_of_redirectWalk hok
            split
            · next hrenames =>
              refine .failed _ hready fun m h => ?_
              rw [h.renames] at hrenames
              cases hrenames
            · next hrenames =>
              rw [Bool.not_eq_true', Bool.not_eq_false] at hrenames
              obtain ⟨requested, hlength, hwalk⟩ :=
                redirectWalk_of_completes hn (hfUrl repoId filename) {}
              have hrequested : env.requested repoId filename = requested := by
                rw [DownloadEnv.requested, hwalk]
              have hstream : (redirectWalk env.transfers true 10 0 (hfUrl repoId filename)
                  {}).stream = env.stream n := by
                rw [hwalk, Nat.zero_add]
                rfl
              rw [hstream]
              refine .succeeded n ⟨hready, hn, hrenames⟩ ?_
              rw [hrequested, hlength]
          · next hok =>
            refine .failed _ hready fun n h => hok ?_
            obtain ⟨requested, -, hwalk⟩ :=
              redirectWalk_of_completes h.completes (hfUrl repoId filename) {}
            rw [hwalk]
  · have hrefused : hfDownloadFile repoId filename destDir env final = ⟨1, ⟨final, none⟩, []⟩ := by
      unfold hfDownloadFile
      split
      · rfl
      · next hargs =>
        split
        · rfl
        · next hdir =>
          split
          · rfl
          · next hname =>
            split
            · rfl
            · next htmp =>
              simp only [Bool.not_eq_true', Bool.not_eq_false, Bool.not_eq_true]
                at hargs hdir hname htmp
              exact absurd ⟨hargs, hdir, hname, htmp⟩ hcreated
    rw [hrefused]
    exact .refused hcreated

/-- A download that returns 0 leaves the body of the last answer at the final path, and one that
does not leaves the final path as it was and no temporary file. -/
def DownloadAtomic (r : DownloadResult) : Prop :=
  (r.ret = 0 → ∃ n, r.requested.length = n + 1 ∧
    200 ≤ (env.transfers n).httpCode ∧ (env.transfers n).httpCode < 300 ∧
    r.files.final = some (env.transfers n).body) ∧
  (r.ret ≠ 0 → r.files.final = final ∧ r.files.tmp = none)

/-- Where the download succeeds, `fclose` gets everything that is still buffered into the file;
where a temporary file is left over, `unlink` removes it. -/
structure DownloadKept : Prop where
  closes : ∀ n, env.Succeeds repoId filename destDir n →
    (env.stream n).buffered.length ≤ env.closeFlushed
  unlinks : env.Created repoId filename destDir →
    (∀ n, ¬ env.Succeeds repoId filename destDir n) → env.unlinks = true

/-- The number of redirects of a download that succeeds. -/
theorem DownloadEnv.Succeeds.unique {n m : Nat} (hn : env.Succeeds repoId filename destDir n)
    (hm : env.Succeeds repoId filename destDir m) : n = m := by
  have hle : ∀ {k l : Nat}, env.Succeeds repoId filename destDir k →
      env.Succeeds repoId filename destDir l → k ≤ l := by
    intro k l hk hl
    by_contra hlt
    exact (hk.completes.followed l (Nat.not_le.1 hlt)).not_delivered hl.completes.delivered
  exact le_antisymm (hle hn hm) (hle hm hn)

/-- A download that fails with a temporary file is atomic where that file is removed. -/
theorem downloadAtomic_failed_iff (file : Bytes) (requested : List Bytes)
    (hcreated : env.Created repoId filename destDir)
    (hnot : ∀ n, ¬ env.Succeeds repoId filename destDir n) :
    DownloadAtomic env final
        ⟨1, DownloadFiles.unlink ⟨final, some file⟩ env.unlinks, requested⟩ ↔
      DownloadKept repoId filename destDir env := by
  have hret : (1 : Int) ≠ 0 := by decide
  constructor
  · rintro ⟨-, h⟩
    refine ⟨fun n hn => absurd hn (hnot n), fun _ _ => ?_⟩
    have htmp := (h hret).2
    by_contra hunlinks
    rw [DownloadFiles.unlink, if_neg hunlinks] at htmp
    cases htmp
  · intro h
    refine ⟨fun h => absurd h hret, fun _ => ?_⟩
    rw [DownloadFiles.unlink, if_pos (h.unlinks hcreated hnot)]
    exact ⟨rfl, rfl⟩

/-- Whatever the server and the system do, a download is atomic exactly where the flush at its close
loses nothing and the temporary file of one that fails can be removed. -/
theorem download_atomic_iff :
    DownloadAtomic env final (hfDownloadFile repoId filename destDir env final) ↔
      DownloadKept repoId filename destDir env := by
  have hret : (1 : Int) ≠ 0 := by decide
  have hcase := hfDownloadFile_case repoId filename destDir env final
  generalize hfDownloadFile repoId filename destDir env final = r at hcase ⊢
  cases hcase with
  | refused hnot =>
    refine iff_of_true ⟨fun h => absurd h hret, fun _ => ⟨rfl, rfl⟩⟩ ⟨fun n h => ?_, ?_⟩
    · exact absurd h.ready.1 hnot
    · exact fun h => absurd h hnot
  | early hcreated hnot =>
    have hnot : ∀ n, ¬ env.Succeeds repoId filename destDir n := fun n h => hnot h.ready
    exact downloadAtomic_failed_iff _ _ _ _ _ _ [] hcreated hnot
  | failed file hready hnot => exact downloadAtomic_failed_iff _ _ _ _ _ file _ hready.1 hnot
  | succeeded n hn hlength =>
    have hwhole : (({} : Stream).writeBody (env.transfers n).pieces).1 = true := by
      have htaken := hn.completes.delivered.taken.2.1
      rwa [Nat.zero_add] at htaken
    have hbody : (env.stream n).file ++ (env.stream n).buffered = (env.transfers n).body :=
      Stream.writeBody_eq hwhole
    have hcode := hn.completes.delivered.code
    rw [Nat.zero_add] at hcode
    have hfile : ((env.stream n).flush env.closeFlushed).file = (env.transfers n).body ↔
        (env.stream n).buffered.length ≤ env.closeFlushed := by
      rw [← hbody, Stream.flush, List.append_cancel_left_eq, List.take_eq_self_iff]
    constructor
    · rintro ⟨h, -⟩
      obtain ⟨m, hm, -, -, hfinal⟩ := h rfl
      obtain rfl : n = m := Nat.succ_inj.1 (hlength.symm.trans hm)
      refine ⟨fun m hm => ?_, fun _ hnot => absurd hn (hnot n)⟩
      rw [DownloadEnv.Succeeds.unique _ _ _ _ hm hn]
      exact hfile.1 (Option.some.inj hfinal)
    · intro h
      refine ⟨fun _ => ⟨n, hlength, hcode.1, hcode.2, ?_⟩, fun h => absurd rfl h⟩
      exact congrArg some (hfile.2 (h.closes n hn))

end

/-- A server that sends one byte, and a disk that is full when the stream is closed. -/
def fullDisk : DownloadEnv where
  destIsDir := true
  mkstemp := true
  fstat := true
  fdopen := true
  curlInit := true
  transfers _ := ⟨0, true, [⟨[120], 1, 0⟩], false, 200, []⟩
  closeFlushed := 0
  renames := true
  unlinks := true

/-- The download of that byte returns 0, with an empty file at the final path. -/
theorem download_cut :
    (hfDownloadFile (str "a/b") (str "c") (str "d") fullDisk none).ret = 0 ∧
      (hfDownloadFile (str "a/b") (str "c") (str "d") fullDisk none).files.final = some [] ∧
      ¬ DownloadAtomic fullDisk none
        (hfDownloadFile (str "a/b") (str "c") (str "d") fullDisk none) := by
  have hret : (hfDownloadFile (str "a/b") (str "c") (str "d") fullDisk none).ret = 0 := by
    decide +kernel
  have hfinal : (hfDownloadFile (str "a/b") (str "c") (str "d") fullDisk none).files.final =
      some [] := by decide +kernel
  refine ⟨hret, hfinal, ?_⟩
  rintro ⟨h, -⟩
  obtain ⟨n, -, -, -, hbody⟩ := h hret
  rw [hfinal] at hbody
  cases hbody

/-! ## Confinement -/

/-- The authority of an https URL. -/
def urlAuthority (url : Bytes) : Bytes :=
  (url.drop 8).takeWhile fun c => c != 47 && c != 63 && c != 35

/-- The host of the authority: without user information and port, with the brackets of an address
in brackets. -/
def authorityHost (url : Bytes) : Bytes :=
  let host := ((urlAuthority url).reverse.takeWhile (· != 64)).reverse
  if host.head? = some 91 then host.takeWhile (· != 93) ++ str "]" else host.takeWhile (· != 58)

/-- The hub, its content network, and their subdomains. -/
def IsHubHost (host : Bytes) : Prop :=
  host = str "huggingface.co" ∨ host = str "hf.co" ∨
    (∃ sub, sub ≠ [] ∧ host = sub ++ str ".huggingface.co") ∨
    ∃ sub, sub ≠ [] ∧ host = sub ++ str ".hf.co"

/-- Before its first slash a URL has a byte at which an authority is cut, but the walk does not cut
it there: the beginning of a query or of a fragment, the end of user information, or a bracket. -/
def HasDelimiter (url : Bytes) : Prop :=
  ∃ c ∈ hostCut 47 (url.drop 8), c = 63 ∨ c = 35 ∨ c = 64 ∨ c = 91

theorem hfHostIsAllowed_iff {host : Bytes} : hfHostIsAllowed host = true ↔ IsHubHost host := by
  have hsuffix : ∀ s : Bytes, (decide (host.length > s.length) && s.isSuffixOf host) = true ↔
      ∃ sub, sub ≠ [] ∧ host = sub ++ s := by
    intro s
    rw [Bool.and_eq_true, decide_eq_true_iff, List.isSuffixOf_iff_suffix]
    constructor
    · rintro ⟨hlt, sub, rfl⟩
      refine ⟨sub, ?_, rfl⟩
      rintro rfl
      exact absurd hlt (lt_irrefl _)
    · rintro ⟨sub, hsub, rfl⟩
      refine ⟨?_, List.suffix_append _ _⟩
      rw [List.length_append]
      exact Nat.lt_add_of_pos_left (List.length_pos_iff.2 hsub)
  simp only [hfHostIsAllowed, Bool.or_eq_true, beq_iff_eq, hsuffix, IsHubHost, or_assoc]

/-- Without such a byte the host that the walk cuts out is the host of the authority. -/
theorem authorityHost_eq_walkHost {url : Bytes} (hhttps : (str "https://").isPrefixOf url = true)
    (h : ¬ HasDelimiter url) : authorityHost url = walkHost url := by
  have hbytes : ∀ c ∈ hostCut 47 (url.drop 8), c ≠ 63 ∧ c ≠ 35 ∧ c ≠ 64 ∧ c ≠ 91 := by
    intro c hc
    refine ⟨?_, ?_, ?_, ?_⟩
    all_goals
      rintro rfl
      exact h ⟨_, hc, by decide⟩
  have hauthority : urlAuthority url = hostCut 47 (url.drop 8) := by
    have hall : (hostCut 47 (url.drop 8)).takeWhile (fun c => c != 63 && c != 35) =
        hostCut 47 (url.drop 8) := by
      refine List.takeWhile_eq_self_iff.2 fun c hc => ?_
      rw [Bool.and_eq_true, bne_iff_ne, bne_iff_ne]
      exact ⟨(hbytes c hc).1, (hbytes c hc).2.1⟩
    rw [← hall, hostCut, List.takeWhile_takeWhile, urlAuthority]
    congr 1
    funext c
    cases c != 47 <;> cases c != 63 <;> cases c != 35 <;> rfl
  have huser : ((urlAuthority url).reverse.takeWhile (· != 64)).reverse = urlAuthority url := by
    have hall : (urlAuthority url).reverse.takeWhile (· != 64) = (urlAuthority url).reverse := by
      refine List.takeWhile_eq_self_iff.2 fun c hc => ?_
      rw [List.mem_reverse, hauthority] at hc
      exact bne_iff_ne.2 (hbytes c hc).2.2.1
    rw [hall, List.reverse_reverse]
  have hbracket : (urlAuthority url).head? ≠ some 91 := by
    intro hhead
    rw [hauthority] at hhead
    exact (hbytes 91 (List.mem_of_mem_head? hhead)).2.2.2 rfl
  simp only [authorityHost, huser, if_neg hbracket]
  simp only [walkHost, hhttps, if_true, ← hauthority]
  rfl

/-- The URL of the file has the hub as its host. -/
theorem authorityHost_hfUrl (repoId filename : Bytes) :
    IsHubHost (authorityHost (hfUrl repoId filename)) := by
  have hauthority : urlAuthority (hfUrl repoId filename) = str "huggingface.co" := by
    have htext : hfUrl repoId filename = str "https://" ++ (str "huggingface.co" ++ 47 ::
        (hfUrlEncode repoId ++ str "/resolve/main/" ++ hfUrlEncode filename)) := by
      have hsplit : str "https://huggingface.co/" =
          str "https://" ++ (str "huggingface.co" ++ [47]) := by decide
      rw [hfUrl, hsplit]
      simp only [List.append_assoc, List.cons_append, List.nil_append]
    rw [htext, urlAuthority]
    change List.takeWhile _ (str "huggingface.co" ++ 47 :: _) = _
    rw [List.takeWhile_append_of_pos (List.all_eq_true.1 rfl), List.takeWhile_cons_of_neg (by decide),
      List.append_nil]
  rw [authorityHost, hauthority]
  exact .inl (by decide)

section
variable {transfers : Nat → Transfer}

/-- The requested URLs: the first one, and the redirects that are followed. -/
theorem mem_requested_iff {left i : Nat} {url u : Bytes} {s : Stream} :
    u ∈ (redirectWalk transfers true left i url s).requested ↔
      (transfers i).truncates = true ∧ (u = url ∨ ∃ k < left,
        (∀ j ≤ k, (transfers (i + j)).Followed true) ∧
        (transfers (i + k + 1)).truncates = true ∧ u = (transfers (i + k)).redirectUrl) := by
  induction left using Nat.strong_induction_on generalizing i url s with
  | _ left ih =>
    have hstep := redirectWalk_step transfers true left i url s
    generalize redirectWalk transfers true left i url s = walk at hstep ⊢
    cases hstep with
    | early s htruncates =>
      refine iff_of_false List.not_mem_nil fun h => ?_
      rw [htruncates] at h
      cases h.1
    | failed s htruncates _ hleft =>
      rw [List.mem_singleton, and_iff_right htruncates, or_iff_left]
      rintro ⟨k, hk, hfollowed, -⟩
      have hzero := hleft (hfollowed 0 (Nat.zero_le k))
      omega
    | delivered hdelivered =>
      rw [List.mem_singleton, and_iff_right hdelivered.taken.1, or_iff_left]
      rintro ⟨k, hk, hfollowed, -⟩
      exact (hfollowed 0 (Nat.zero_le k)).not_delivered hdelivered
    | followed l s hleft hfollowed =>
      subst hleft
      have hshift : ∀ j, i + 1 + j = i + (j + 1) := fun j => by omega
      rw [List.mem_cons, ih l (Nat.lt_succ_self l), and_iff_right hfollowed.taken.1]
      refine or_congr_right ?_
      constructor
      · rintro ⟨htruncates, rfl | ⟨k, hk, hrest, htruncates', rfl⟩⟩
        · refine ⟨0, Nat.succ_pos l, fun j hj => ?_, htruncates, rfl⟩
          rw [Nat.le_zero.1 hj]
          exact hfollowed
        · refine ⟨k + 1, Nat.succ_lt_succ hk, fun j hj => ?_, ?_, ?_⟩
          · cases j with
            | zero => exact hfollowed
            | succ j =>
              rw [← hshift]
              exact hrest j (Nat.le_of_succ_le_succ hj)
          · rwa [← hshift]
          · rw [hshift]
      · rintro ⟨k, hk, hall, htruncates, rfl⟩
        cases k with
        | zero => exact ⟨htruncates, .inl rfl⟩
        | succ k =>
          have hnext := (hall 1 (Nat.succ_le_succ (Nat.zero_le k))).taken.1
          refine ⟨hnext, .inr ⟨k, Nat.lt_of_succ_lt_succ hk, fun j hj => ?_, ?_, ?_⟩⟩
          · rw [hshift]
            exact hall (j + 1) (Nat.succ_le_succ hj)
          · rwa [hshift]
          · rw [hshift]

/-- One request more than redirects that may be followed. -/
theorem length_requested_le (left i : Nat) (url : Bytes) (s : Stream) :
    (redirectWalk transfers true left i url s).requested.length ≤ left + 1 := by
  induction left using Nat.strong_induction_on generalizing i url s with
  | _ left ih =>
    have hstep := redirectWalk_step transfers true left i url s
    generalize redirectWalk transfers true left i url s = walk at hstep ⊢
    cases hstep with
    | early => exact Nat.zero_le _
    | failed => exact Nat.succ_le_succ (Nat.zero_le _)
    | delivered => exact Nat.succ_le_succ (Nat.zero_le _)
    | followed l s hleft =>
      subst hleft
      exact Nat.succ_le_succ (ih l (Nat.lt_succ_self l) _ _ _)

end

section
variable (repoId filename destDir : Bytes) (env : DownloadEnv) (final : Option Bytes)

/-- Every requested URL is https and has a host of the hub, and there are 11 of them at most. -/
def Confined (requested : List Bytes) : Prop :=
  (∀ u ∈ requested, (str "https://").isPrefixOf u = true ∧ IsHubHost (authorityHost u)) ∧
    requested.length ≤ 11

/-- The redirect `k` is followed, and requested. -/
structure DownloadEnv.Follows (k : Nat) : Prop where
  ready : env.Ready repoId filename destDir
  lt : k < 10
  followed : ∀ j ≤ k, (env.transfers j).Followed true
  requested : (env.transfers (k + 1)).truncates = true

/-- A redirect that is followed is https, and the host that is cut out of it is one of the hub. -/
theorem Transfer.Followed.https {t : Transfer} (h : t.Followed true) :
    (str "https://").isPrefixOf t.redirectUrl = true ∧ IsHubHost (walkHost t.redirectUrl) := by
  have hallowed := h.allowed
  simp only [redirectAllowed] at hallowed
  split at hallowed
  · cases hallowed
  · split at hallowed
    · cases hallowed
    · next hhttps =>
      refine ⟨?_, hfHostIsAllowed_iff.1 hallowed⟩
      simpa using hhttps

/-- Before the walk nothing is requested. -/
theorem requested_download :
    (hfDownloadFile repoId filename destDir env final).requested =
        env.requested repoId filename ∧ env.Ready repoId filename destDir ∨
      (hfDownloadFile repoId filename destDir env final).requested = [] ∧
        ¬ env.Ready repoId filename destDir := by
  have hcase := hfDownloadFile_case repoId filename destDir env final
  generalize hfDownloadFile repoId filename destDir env final = r at hcase ⊢
  cases hcase with
  | refused hnot => exact .inr ⟨rfl, fun h => hnot h.1⟩
  | early _ hnot => exact .inr ⟨rfl, hnot⟩
  | failed _ hready => exact .inl ⟨rfl, hready⟩
  | succeeded _ h => exact .inl ⟨rfl, h.ready⟩

/-- The URLs that a download requests are https, 11 at most and on hosts of the hub, exactly where
this holds of the redirects that it follows and that have a delimiter which the walk does not know.
Without one the host that is checked is the host of the URL. -/
theorem download_confined_iff :
    Confined (hfDownloadFile repoId filename destDir env final).requested ↔
      ∀ k, env.Follows repoId filename destDir k → HasDelimiter (env.transfers k).redirectUrl →
        IsHubHost (authorityHost (env.transfers k).redirectUrl) := by
  rcases requested_download repoId filename destDir env final with
    ⟨hrequested, hready⟩ | ⟨hrequested, hready⟩
  · rw [hrequested, DownloadEnv.requested]
    constructor
    · rintro ⟨hall, -⟩ k hk -
      refine (hall _ (mem_requested_iff.2 ⟨(hk.followed 0 (Nat.zero_le k)).taken.1,
        .inr ⟨k, hk.lt, fun j hj => ?_, ?_, ?_⟩⟩)).2
      · rw [Nat.zero_add]
        exact hk.followed j hj
      · rw [Nat.zero_add]
        exact hk.requested
      · rw [Nat.zero_add]
    · intro h
      refine ⟨fun u hu => ?_, length_requested_le 10 0 _ _⟩
      obtain ⟨-, rfl | ⟨k, hk, hfollowed, htruncates, rfl⟩⟩ := mem_requested_iff.1 hu
      · exact ⟨https_hfUrl _ _, authorityHost_hfUrl _ _⟩
      · simp only [Nat.zero_add] at hfollowed htruncates ⊢
        obtain ⟨hhttps, hhost⟩ := (hfollowed k le_rfl).https
        refine ⟨hhttps, ?_⟩
        by_cases hdelimiter : HasDelimiter (env.transfers k).redirectUrl
        · exact h k ⟨hready, hk, hfollowed, htruncates⟩ hdelimiter
        · rwa [authorityHost_eq_walkHost hhttps hdelimiter]
  · rw [hrequested]
    refine iff_of_true ⟨fun u hu => ?_, Nat.zero_le _⟩ fun k hk => absurd hk.ready hready
    cases hu

end

/-- A server that redirects to another host, with an allowed one in the query. -/
def queryRedirect : DownloadEnv where
  destIsDir := true
  mkstemp := true
  fstat := true
  fdopen := true
  curlInit := true
  transfers i :=
    if i = 0 then ⟨0, true, [], false, 302, str "https://example.com?.huggingface.co/"⟩
    else ⟨0, true, [], false, 200, []⟩
  closeFlushed := 0
  renames := true
  unlinks := true

/-- That host is requested. -/
theorem download_escapes :
    str "https://example.com?.huggingface.co/" ∈
        (hfDownloadFile (str "a/b") (str "c") (str "d") queryRedirect none).requested ∧
      authorityHost (str "https://example.com?.huggingface.co/") = str "example.com" ∧
      ¬ Confined (hfDownloadFile (str "a/b") (str "c") (str "d") queryRedirect none).requested := by
  have hmem : str "https://example.com?.huggingface.co/" ∈
      (hfDownloadFile (str "a/b") (str "c") (str "d") queryRedirect none).requested := by
    decide +kernel
  have hhost : authorityHost (str "https://example.com?.huggingface.co/") = str "example.com" := by
    decide +kernel
  refine ⟨hmem, hhost, fun h => ?_⟩
  have hhub := (h.1 _ hmem).2
  rw [hhost, ← hfHostIsAllowed_iff] at hhub
  revert hhub
  decide

end Terllama
