import Terllama.Base.Bytes

/-!
# The native tokenizer

`Tokenizer` of `src/core/tokenizer.h`.
-/

namespace Terllama

/-- `Tokenizer`. -/
structure Tokenizer where
  vocab : List Bytes := []
  scores : List F32 := []
  types : List Int := []
  modelType : Bytes := []
  bosId : Int := -1
  eosId : Int := -1
  valid : Bool := false
  deriving DecidableEq, Repr, Inhabited

end Terllama
