import OmegaDrive.Shared.Cursor
import OmegaDrive.Shared.Pieces
import OmegaDrive.Shared.Decimal
import OmegaDrive.Resp.Text
import OmegaDrive.Resp.Command
import OmegaDrive.Resp.Stability
import OmegaDrive.Resp.RoundTrip
import OmegaDrive.Resp.Array
import OmegaDrive.Resp.Value
import OmegaDrive.Persistence.Command
import OmegaDrive.Persistence.Replay
import OmegaDrive.Resp.WholeFloat
import OmegaDrive.Resp.Frames
import OmegaDrive.Resp.Grammar
import OmegaDrive.Persistence.Recovery
import OmegaDrive.Persistence.Worker
import OmegaDrive.Store.Inference
import OmegaDrive.Store.Gpu
import OmegaDrive.Shared.Bits
import OmegaDrive.Shared.Classifier
import OmegaDrive.Store.Router
import OmegaDrive.Store.Database
import OmegaDrive.Shared.FieldMap
import OmegaDrive.Store.HashEngine
import OmegaDrive.Store.Packed
import OmegaDrive.Store.Plain
import OmegaDrive.Store.Padding
import OmegaDrive.Shared.TopK
import OmegaDrive.Shared.BinaryHeap
import OmegaDrive.Vector.Store
import OmegaDrive.Vector.Search
import OmegaDrive.Shared.OptionLoop
import OmegaDrive.Vector.Recall
import OmegaDrive.Vector.Merge
import OmegaDrive.Vector.Pruning
import OmegaDrive.Shared.RoundRobin
import OmegaDrive.Vector.Placement
import OmegaDrive.Vector.Quantize
import OmegaDrive.Vector.Scores
import OmegaDrive.Vector.Rerank
import OmegaDrive.Vector.Exact
import OmegaDrive.Vector.Panics
import OmegaDrive.Vector.Budget
import OmegaDrive.Vector.Concurrent
import OmegaDrive.Vector.Results
import OmegaDrive.Vector.Gaps
import OmegaDrive.Vector.Sharded
import OmegaDrive.Vector.Exhaustive
import OmegaDrive.Vector.ShardedRerank
import OmegaDrive.Vector.Coverage
import OmegaDrive.Engine.Index
import OmegaDrive.Engine.Tables
import OmegaDrive.Engine.Batch
import OmegaDrive.Engine.Columnar
import OmegaDrive.Engine.Fresh
import OmegaDrive.Engine.Passes
import OmegaDrive.Engine.Ledger
import OmegaDrive.Engine.Singles
import OmegaDrive.Shared.Records
import OmegaDrive.Shared.Multibyte
import OmegaDrive.Resp.Lossy
import OmegaDrive.Engine.Cells
import OmegaDrive.Connection.Server
import OmegaDrive.Connection.Effects
import OmegaDrive.Connection.ReadBack
import OmegaDrive.Connection.Logged
import OmegaDrive.Connection.Vectors
import OmegaDrive.Connection.Reappend
import OmegaDrive.Connection.Client
import OmegaDrive.Shared.Incremental
import OmegaDrive.Connection.Loop
import OmegaDrive.Connection.Replies
import OmegaDrive.Connection.Refinement
import OmegaDrive.Connection.MultiGet
import OmegaDrive.Connection.HashReads
import OmegaDrive.Connection.Framing
import OmegaDrive.Connection.Surplus
import OmegaDrive.Shared.Threads
import OmegaDrive.Connection.Interleaving
import OmegaDrive.Connection.Linearizable
import OmegaDrive.Connection.Bench
import OmegaDrive.Connection.Conversation
import OmegaDrive.Connection.Ordering
import OmegaDrive.Connection.LostUpdate
import OmegaDrive.Shared.Steps
import OmegaDrive.Persistence.Batching
import OmegaDrive.Shared.Ascent
import OmegaDrive.Shared.Atomics
import OmegaDrive.Persistence.Agent
import OmegaDrive.Shared.XorLinear
import OmegaDrive.Persistence.Draws
import OmegaDrive.Persistence.Liveness
import OmegaDrive.Persistence.Recorded
import OmegaDrive.Connection.TokenBucket
import OmegaDrive.Connection.Conforming
import OmegaDrive.Connection.Sessions
import OmegaDrive.PubSub.WebSocket
import OmegaDrive.PubSub.Delivery
import OmegaDrive.PubSub.Subscription
import OmegaDrive.PubSub.System
import OmegaDrive.Shared.Lanes
import OmegaDrive.PubSub.StressTest
import OmegaDrive.PubSub.Publisher
import OmegaDrive.PubSub.Demask
