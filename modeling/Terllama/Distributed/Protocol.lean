import Terllama.Base.Exec
import Terllama.Base.Bytes

/-!
# The messages between the coordinator and its workers

The structures of `distributed/protocol.h` that the two sides exchange. The JSON of the control
endpoints is not modelled: a report or a request is the structure that `from_json` fills.
-/

namespace Terllama

/-- `ShardSpec`: the layers `[start_layer, end_layer)` of one worker. -/
structure ShardSpec where
  deviceRank : Int := 0
  worldSize : Int := 1
  startLayer : Int := 0
  endLayer : Int := 0
  nLayers : Int := 0
  isFirst : Bool := false
  isLast : Bool := false
  deriving DecidableEq, Repr, Inhabited

/-- `HealthInfo`: the answer to `GET /health`. -/
structure HealthInfo where
  ok : Bool := false
  modelLoaded : Bool := false
  modelDir : Bytes := []
  shard : ShardSpec := {}
  ramAvailableBytes : Int := 0
  modelSizeBytes : Int := 0
  error : String := ""
  deriving DecidableEq, Repr, Inhabited

/-- `LoadRequest`: the body of `POST /load`. -/
structure LoadRequest where
  modelPath : Bytes := []
  shard : ShardSpec := {}
  deriving DecidableEq, Repr, Inhabited

/-- The range of a shard. -/
def ShardSpec.range (s : ShardSpec) : Int × Int := (s.startLayer, s.endLayer)

end Terllama
