import Nockmark.Kit.Machine
import Nockmark.Kit.Threads
import Nockmark.Kit.Linear
import Nockmark.Kit.Erase
import Nockmark.Kit.Journal
import Nockmark.Kit.Utf8
import Nockmark.Kit.Lines
import Nockmark.Kit.Json
import Nockmark.Kit.JsonScan
import Nockmark.Kit.Html
import Nockmark.Kit.Bytes
import Nockmark.Kit.Decimal
import Nockmark.Kit.Round
import Nockmark.Kit.Ranking
import Nockmark.Kit.Stripes
import Nockmark.Kit.Search
import Nockmark.Kit.Keyed
import Nockmark.Kit.FixedWindow
import Nockmark.Kit.Phases
import Nockmark.Kit.Path
import Nockmark.Kit.Spread
import Nockmark.Kit.Mixer
import Nockmark.Kit.Budget
import Nockmark.Kit.Double
import Nockmark.Kit.FormUrl
import Nockmark.Kernel.Registry
import Nockmark.Kernel.Driver
import Nockmark.Kernel.Decode
import Nockmark.Kernel.SingleUse
import Nockmark.Kernel.Window
import Nockmark.Kernel.RunLog
import Nockmark.Tock.Aipow
import Nockmark.Tock.AipowMoe
import Nockmark.Tock.AipowGpu
import Nockmark.Tock.Tiers
import Nockmark.Tock.Nonce
import Nockmark.Tock.Bench
import Nockmark.Tock.HexText
import Nockmark.Tock.Grant
import Nockmark.Tock.ProveRatio
import Nockmark.Tock.Hardware
import Nockmark.Tock.Separation
import Nockmark.Tock.Grind
import Nockmark.Tock.Client
import Nockmark.Registry.Aipow
import Nockmark.Registry.Store
import Nockmark.Registry.History
import Nockmark.Registry.Torn
import Nockmark.Registry.Durable
import Nockmark.Registry.Truncated
import Nockmark.Registry.Board
import Nockmark.Registry.Clock
import Nockmark.Registry.LowerBound
import Nockmark.Registry.TierRate
import Nockmark.Registry.Request
import Nockmark.Registry.RateLimit
import Nockmark.Registry.Binding
import Nockmark.Registry.Submit
import Nockmark.Registry.AiSubmit
import Nockmark.Registry.Challenge
import Nockmark.Registry.Ordinals
import Nockmark.Registry.HonestRun
import Nockmark.Registry.Lockstep
import Nockmark.Registry.Page
import Nockmark.Registry.Server
import Nockmark.Registry.Evidence
import Nockmark.Registry.Lives
import Nockmark.Registry.Tier
import Nockmark.Registry.Pokes
import Nockmark.Registry.SelfReported
import Nockmark.Registry.Recorded
import Nockmark.Registry.Limiter
import Nockmark.Registry.RetryAfter
import Nockmark.Registry.Isolation
import Nockmark.Registry.Spray
import Nockmark.Registry.ElapsedClaim
import Nockmark.Registry.Score
import Nockmark.Registry.Contexts
import Nockmark.Registry.Economics
import Nockmark.Registry.Descriptor
import Nockmark.Registry.FiniteRates
import Nockmark.Registry.Fallbacks
import Nockmark.Registry.Atomic
import Nockmark.Registry.Linearizable
import Nockmark.Registry.Credited
import Nockmark.Registry.Tracks
import Nockmark.Registry.Readable
import Nockmark.Registry.RunById
import Nockmark.Registry.Refresh
import Nockmark.Registry.Handshake
import Nockmark.Tock.Miner
import Nockmark.Registry.HonestAi
import Nockmark.Registry.Settled
import Nockmark.Registry.HonestZk
import Nockmark.Registry.Workload
