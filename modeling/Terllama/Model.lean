import Terllama.Base.Buffer
import Terllama.Base.Bytes

/-!
# The model's data structures

The structures of `src/model.h` that every part of the program shares. An `int32_t` is an `Int`
(the functions that compute with one check its range, `i32`), a `float` is the word of its bytes
(`F32`), a name is its bytes. The TQ1 storage of a layer is left out: no path that is modelled here
fills or reads it.

A row pointer of the block-kernel cache points into one of the layer's own flat buffers. It is kept
as the term whose buffer it points into and the offset in it (`RowPtr`), which is what the loader
computes; `Terllama.Server.Ownership` replaces the term by the identity of a buffer on a heap.
-/

namespace Terllama

/-- `ModelConfig`. -/
structure ModelConfig where
  vocabSize : Int
  hiddenSize : Int
  intermediateSize : Int
  numHiddenLayers : Int
  numAttentionHeads : Int
  numKeyValueHeads : Int
  rmsNormEps : F32
  ropeTheta : F32
  maxPositionEmbeddings : Int
  headDim : Int
  eosTokenId : Int := 0
  deriving DecidableEq, Repr, Inhabited

/-- `BitplaneTerm`: one word for 16 elements, `(nz << 16) | neg`. -/
structure BitplaneTerm where
  alphaExp : Int := 0
  nElements : Nat := 0
  combined : List UInt32 := []
  deriving DecidableEq, Repr, Inhabited

/-- `BlockTerm`: the packed codes of one block, four to a byte, and the block's scale. -/
structure BlockTerm where
  packed : Bytes := []
  scale : F32 := 0
  deriving DecidableEq, Repr, Inhabited

/-- A pointer into the flat buffer of a term of the same layer. -/
structure RowPtr where
  term : Nat
  off : Nat
  deriving DecidableEq, Repr, Inhabited

/-- `LayerData`. -/
structure LayerData where
  name : Bytes := []
  outFeatures : Int := 0
  inFeatures : Int := 0
  numTerms : Int := 0
  terms : List BitplaneTerm := []
  hasBlocks : Bool := false
  blockQk : Int := 128
  blockTerms : List (List BlockTerm) := []
  termCacheBuilt : Bool := false
  termContigData : List Bytes := []
  termContigScales : List (List F32) := []
  termBlockData : List (List RowPtr) := []
  termBlockScales : List (List RowPtr) := []
  hasRawWeights : Bool := false
  rawWeights : List F32 := []
  deriving DecidableEq, Repr, Inhabited

/-- The fields of a layer that a record gives before its body. -/
def LayerData.header (ld : LayerData) : Bytes × Int × Int :=
  (ld.name, ld.outFeatures, ld.inFeatures)

/-- `CPUArch`. -/
inductive CPUArch where
  | unknown
  | x86_64Scalar
  | x86_64Sse42
  | x86_64Avx
  | x86_64Avx2
  | x86_64Avx512
  | arm64Neon
  | arm64Scalar
  deriving DecidableEq, Repr

/-- The ternary value of the 2-bit code at `shift` in a packed byte: `((byte >> shift) & 3) - 1`. -/
def codeValue (byte : UInt8) (shift : UInt8) : Int := ((byte >>> shift) &&& 0x03).toNat - 1

/-- The ternary value of element `j` of a block: element `j` of a byte sits at bits
`7 - 2 (j % 4)` and `6 - 2 (j % 4)`, the first element highest. -/
def blockCode (packed : Bytes) (j : Nat) : Int :=
  codeValue (packed.getD (j / 4) 0) (6 - 2 * UInt8.ofNat (j % 4))

/-- The code of a ternary weight. -/
def ternaryCode (v : Int) : UInt8 := if v = -1 then 0 else if v = 1 then 2 else 1

/-- Four codes in a byte, the first highest. -/
def codeByte (c₀ c₁ c₂ c₃ : UInt8) : UInt8 := (c₀ <<< 6) ||| (c₁ <<< 4) ||| (c₂ <<< 2) ||| c₃

/-- A ternary weight. -/
def IsTernary (v : Int) : Prop := v = -1 ∨ v = 0 ∨ v = 1

instance (v : Int) : Decidable (IsTernary v) := inferInstanceAs (Decidable (_ ∨ _ ∨ _))

/-- Four ternary weights are read back from their byte. -/
theorem codeValue_codeByte {v : Nat → Int} (h : ∀ k < 4, IsTernary (v k)) {k : Nat} (hk : k < 4) :
    codeValue (codeByte (ternaryCode (v 0)) (ternaryCode (v 1)) (ternaryCode (v 2))
      (ternaryCode (v 3))) (6 - 2 * UInt8.ofNat k) = v k := by
  have table : ∀ a ∈ [(-1 : Int), 0, 1], ∀ b ∈ [(-1 : Int), 0, 1], ∀ c ∈ [(-1 : Int), 0, 1],
      ∀ d ∈ [(-1 : Int), 0, 1],
      let byte := codeByte (ternaryCode a) (ternaryCode b) (ternaryCode c) (ternaryCode d)
      codeValue byte (6 - 2 * UInt8.ofNat 0) = a ∧ codeValue byte (6 - 2 * UInt8.ofNat 1) = b ∧
        codeValue byte (6 - 2 * UInt8.ofNat 2) = c ∧ codeValue byte (6 - 2 * UInt8.ofNat 3) = d := by
    decide +kernel
  have hmem : ∀ k < 4, v k ∈ [(-1 : Int), 0, 1] := fun k hk => by
    rcases h k hk with h | h | h <;> simp [h]
  obtain ⟨h₀, h₁, h₂, h₃⟩ := table _ (hmem 0 (by omega)) _ (hmem 1 (by omega)) _
    (hmem 2 (by omega)) _ (hmem 3 (by omega))
  match k, hk with
  | 0, _ => exact h₀
  | 1, _ => exact h₁
  | 2, _ => exact h₂
  | 3, _ => exact h₃

/-- The packed codes of the weights `v 0`, `v 1`, …, `n` bytes of them. -/
def packCodes (v : Nat → Int) (n : Nat) : Bytes :=
  (List.range n).map fun g => codeByte (ternaryCode (v (4 * g))) (ternaryCode (v (4 * g + 1)))
    (ternaryCode (v (4 * g + 2))) (ternaryCode (v (4 * g + 3)))

@[simp] theorem packCodes_length (v : Nat → Int) (n : Nat) : (packCodes v n).length = n := by
  simp [packCodes]

/-- Packed weights are read back. -/
theorem blockCode_packCodes {v : Nat → Int} {n j : Nat} (hj : j < 4 * n)
    (h : ∀ k < 4, IsTernary (v (4 * (j / 4) + k))) : blockCode (packCodes v n) j = v j := by
  rw [blockCode, packCodes, getD_map_range _ (show j / 4 < n by omega)]
  have hval := codeValue_codeByte (v := fun k => v (4 * (j / 4) + k)) h
    (show j % 4 < 4 by omega)
  rwa [Nat.div_add_mod] at hval

end Terllama
