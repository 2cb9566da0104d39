import Terllama.Convert.Export
import Terllama.Server.Streaming
import Terllama.Convert.Accepted
import Terllama.Convert.PackReference
import Terllama.Distributed.Coordinator
import Terllama.Distributed.Generation
import Terllama.Distributed.RangeReader
import Terllama.Kernel.QuantError
import Terllama.Convert.Extra
import Terllama.Loader.Truncated
import Terllama.Server.Ownership
import Terllama.Convert.Safetensors
import Terllama.Gguf.Placement
import Terllama.Convert.Solve
import Terllama.Desktop.ServerManager
import Terllama.Cli.Registry
import Terllama.Distributed.Import
import Terllama.Distributed.Budget
import Terllama.Distributed.Children
import Terllama.Distributed.Workers
import Terllama.Distributed.Serving
import Terllama.Convert.MoteBuilder
import Terllama.Convert.Progress
import Terllama.Convert.Descent
import Terllama.Loader.OldLayout
import Terllama.Loader.Tq1File
import Terllama.Gguf.Agreement
import Terllama.Convert.Distribution
import Terllama.Kernel.Mote
import Terllama.Loader.MoteSafety
import Terllama.Loader.BlockBounds
import Terllama.Loader.Norms
import Terllama.Gguf.Model
import Terllama.Server.RateLimit
import Terllama.Server.Admission
import Terllama.Core.TokenizerJson
import Terllama.Distributed.Shard
import Terllama.Distributed.Worker
import Terllama.Core.Detokenizer
import Terllama.Server.Completion
import Terllama.Distributed.Digest
import Terllama.Core.LayerIndex
import Terllama.Cli.Listing
import Terllama.Core.GigaToken
import Terllama.Convert.HfDownload
import Terllama.Desktop.Chat
import Terllama.Desktop.ProgressLine
import Terllama.Core.CacheRows
import Terllama.Kernel.PlaneLoads
import Terllama.Core.PackratReconfig
import Terllama.Core.SandwichScheduler
import Terllama.Cli.ModelRemoval
import Terllama.Gguf.Checked
import Terllama.Server.StreamedText
import Terllama.Server.KeepAlive
import Terllama.Core.Decoding
