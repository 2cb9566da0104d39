import Terllama.Base.Stream
import Terllama.Model

/-!
# The readers of `model_extra.bin`

`load_config`, `load_embedding`, `load_final_norm` and `load_layer_norms` of `src/loader.h`. Each
opens the file anew and goes to its part by an offset computed from the dimensions: in `int` for the
final norm, in 64 bits for the layer norms.

`load_config` reads nine words into uninitialised variables and then tests them one after the other,
so that a header that ends early has no defined outcome; the other three read into vectors of zeros,
which is what a file that ends early leaves in them.
-/

namespace Terllama

/-! ## The header -/

/-- The stream of a file that was just opened, moved to `off`. -/
def InStream.openAt (file : Bytes) (off : Int) : InStream :=
  if off < 0 then ⟨file, true⟩ else ⟨file.drop off.toNat, false⟩

/-- `f.read` of four bytes into a variable without a value, which has one after a full read. -/
def readVar : StreamM (Option Bytes) := fun s =>
  if s.fail then .ok (none, s)
  else if s.rest.length < 4 then .ok (none, ⟨[], true⟩)
  else .ok (some (s.rest.take 4), ⟨s.rest.drop 4, false⟩)

/-- The value of a variable, whose use is undefined before it has one. -/
def useVar {α : Type} (x : Option α) : Exec α :=
  match x with
  | some a => .ok a
  | none => undefined "use of an uninitialised variable"

/-- The variables of `load_config`. -/
structure ConfigHeader where
  vs : Option Int
  hs : Option Int
  is : Option Int
  nl : Option Int
  nah : Option Int
  nkv : Option Int
  rne : Option F32
  rt : Option F32
  mpe : Option Int
  deriving DecidableEq, Repr

/-- An `int32_t` in memory. -/
def intOf (bs : Bytes) : Int := toInt32 (leNat bs)

/-- The nine reads of `load_config`. -/
def readHeader : StreamM ConfigHeader := do
  let vs ← readVar
  let hs ← readVar
  let is ← readVar
  let nl ← readVar
  let nah ← readVar
  let nkv ← readVar
  let rne ← readVar
  let rt ← readVar
  let mpe ← readVar
  return { vs := vs.map intOf, hs := hs.map intOf, is := is.map intOf, nl := nl.map intOf,
           nah := nah.map intOf, nkv := nkv.map intOf, rne := rne.map F32.ofBytes,
           rt := rt.map F32.ofBytes, mpe := mpe.map intOf }

/-- `x <= 0`. -/
def notPositive (x : Option Int) : Exec Bool := do
  return decide ((← useVar x) ≤ 0)

/-- The disjuncts of the validation, in their order. -/
def ConfigHeader.checks (h : ConfigHeader) : List (Exec Bool) :=
  [notPositive h.vs, notPositive h.hs, notPositive h.is, notPositive h.nl, notPositive h.nah,
    notPositive h.nkv, do return decide ((← useVar h.hs).tdiv (← useVar h.nah) ≤ 0),
    notPositive h.mpe, do return decide (1000000 < (← useVar h.mpe))]

/-- The fields that pass the validation, with the context length capped. -/
def ConfigHeader.config (h : ConfigHeader) : Exec ModelConfig := do
  let mpe ← useVar h.mpe
  let hs ← useVar h.hs
  let nah ← useVar h.nah
  return { vocabSize := ← useVar h.vs, hiddenSize := hs, intermediateSize := ← useVar h.is,
           numHiddenLayers := ← useVar h.nl, numAttentionHeads := nah,
           numKeyValueHeads := ← useVar h.nkv, rmsNormEps := ← useVar h.rne,
           ropeTheta := ← useVar h.rt,
           maxPositionEmbeddings := if mpe > 4096 then 4096 else mpe, headDim := hs.tdiv nah }

/-- `load_config`, on the contents of the file at `path`. -/
def loadConfig (path : String) (file : Bytes) : Exec ModelConfig := do
  let (h, _) ← readHeader (.open file)
  if ← h.checks.anyM id then
    raise ("Invalid model config in " ++ path ++ " (truncated or corrupt model header)")
  else h.config

/-! ## The embedding and the norms -/

/-- `NormWeights`. -/
structure NormWeights where
  inputLayernorm : List F32 := []
  postAttentionLayernorm : List F32 := []
  attnSubNorm : List F32 := []
  ffnSubNorm : List F32 := []
  qNorm : List F32 := []
  kNorm : List F32 := []
  deriving DecidableEq, Repr, Inhabited

/-- `sizeof(NormWeights)`, six vectors. -/
def sizeofNormWeights : Nat := 144

/-- `f.read` into a vector of `n` zeros. -/
def readFloats (n : Nat) : StreamM (List F32) := do
  return floatsOf (← readInto (List.replicate (4 * n) 0))

/-- `load_embedding`. -/
def loadEmbedding (file : Bytes) (cfg : ModelConfig) : Exec (List F32) := do
  let n := sizeT (← i32 (cfg.vocabSize * cfg.hiddenSize))
  vectorAlloc n 4
  let (emb, _) ← readFloats n (.openAt file 36)
  return emb

/-- `load_final_norm`. -/
def loadFinalNorm (file : Bytes) (cfg : ModelConfig) : Exec (List F32) := do
  let entries ← i32 (cfg.vocabSize * cfg.hiddenSize)
  let bytes ← i32 (entries * 4)
  let offset ← i32 (36 + bytes)
  let n := sizeT cfg.hiddenSize
  vectorAlloc n 4
  let (fn, _) ← readFloats n (.openAt file offset)
  return fn

/-- One pass of the loop of `load_layer_norms`. -/
def readNormPair (cfg : ModelConfig) : StreamM NormWeights := do
  let n := sizeT cfg.hiddenSize
  vectorAlloc n 4
  let _ ← i32 (cfg.hiddenSize * 4)
  let inputLayernorm ← readFloats n
  let postAttentionLayernorm ← readFloats n
  return { inputLayernorm, postAttentionLayernorm }

/-- The loop of `load_layer_norms`. -/
def readNormPairs (cfg : ModelConfig) : Nat → StreamM (List NormWeights)
  | 0 => pure []
  | n + 1 => do
    let norm ← readNormPair cfg
    let rest ← readNormPairs cfg n
    return norm :: rest

/-- `load_layer_norms`. -/
def loadLayerNorms (file : Bytes) (cfg : ModelConfig) : Exec (List NormWeights) := do
  let entries ← i64 (cfg.vocabSize * cfg.hiddenSize)
  let bytes ← i64 (entries * 4)
  let start ← i64 (36 + bytes)
  let norm ← i32 (cfg.hiddenSize * 4)
  let offset ← i64 (start + norm)
  vectorAlloc (sizeT cfg.numHiddenLayers) sizeofNormWeights
  let (norms, _) ← readNormPairs cfg cfg.numHiddenLayers.toNat (.openAt file offset)
  return norms

/-! ## Reads of what is there -/

theorem openAt_append {pre rest : Bytes} {off : Int} (h : off = pre.length) :
    InStream.openAt (pre ++ rest) off = ⟨rest, false⟩ := by
  have hoff : ¬ off < 0 := by omega
  rw [InStream.openAt, if_neg hoff, h, Int.toNat_natCast, List.drop_left]

theorem readVar_append {a : Bytes} (h : a.length = 4) (rest : Bytes) :
    readVar ⟨a ++ rest, false⟩ = .ok (some a, ⟨rest, false⟩) := by
  have hlen : ¬ (a ++ rest).length < 4 := by
    rw [List.length_append]
    omega
  simp only [readVar, if_neg hlen, if_neg Bool.false_ne_true]
  rw [← h, List.take_left, List.drop_left]

theorem readFloats_append (ws : List F32) (rest : Bytes) :
    readFloats ws.length ⟨floatBytes ws ++ rest, false⟩ = .ok (ws, ⟨rest, false⟩) := by
  rw [readFloats, StreamM.bind_apply, readInto_append _ (by simp), ok_bind, floatsOf_floatBytes]
  rfl

/-- Whatever it finds, a read into a vector of zeros returns a vector of that length. -/
theorem readFloats_ok (n : Nat) (s : InStream) :
    ∃ ws s', readFloats n s = .ok (ws, s') ∧ ws.length = n := by
  have hread : ∃ bs s', readInto (List.replicate (4 * n) 0) s = .ok (bs, s') := by
    unfold readInto
    split
    · exact ⟨_, _, rfl⟩
    · exact ⟨_, _, rfl⟩
  obtain ⟨bs, s', hbs⟩ := hread
  refine ⟨floatsOf bs, s', ?_, ?_⟩
  · rw [readFloats, StreamM.bind_apply, hbs]
    rfl
  · rw [floatsOf_length, readInto_length hbs, List.length_replicate]
    omega

end Terllama
