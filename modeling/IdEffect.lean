import IdEffect.Lib.Transition
import IdEffect.Lib.Assoc
import IdEffect.Stm.Basic
import IdEffect.Stm.Interleaving
import IdEffect.Stm.Serializable
import IdEffect.Stm.Failure
import IdEffect.Stm.Memory
import IdEffect.Stm.OrElse
import IdEffect.Coordination.Queue
import IdEffect.Coordination.QueueRuns
import IdEffect.Coordination.PubSub
import IdEffect.Coordination.Wakeup
import IdEffect.Coordination.PubSubRuns
import IdEffect.Resource.Scope
import IdEffect.Resource.ScopeFinalizers
import IdEffect.Resource.ScopeTree
import IdEffect.Coordination.Deferred
import IdEffect.Resource.Cache
import IdEffect.Resource.CacheBarrier
import IdEffect.Resource.CacheLru
import IdEffect.Resource.Pool
import IdEffect.Resource.PoolBound
import IdEffect.Lib.Pull
import IdEffect.Streaming.Stream
import IdEffect.Streaming.Combinators
import IdEffect.Streaming.Broadcast
import IdEffect.Streaming.Channel
import IdEffect.Streaming.ChannelRuns
import IdEffect.Scheduling.Schedule
import IdEffect.Coordination.SubscriptionRef
import IdEffect.Lib.Kahn
import IdEffect.Capability.Planner
import IdEffect.Capability.PlannerCorrect
import IdEffect.Capability.Graph
import IdEffect.Capability.GraphBuild
import IdEffect.Capability.Run
import IdEffect.Schema.Parse
import IdEffect.Schema.RoundTrip
import IdEffect.Schema.Agreement
import IdEffect.Lib.Refine
import IdEffect.Compute.Dispatch
import IdEffect.Collections.Trie
import IdEffect.Collections.TrieRefines
import IdEffect.Collections.RedBlackTree
import IdEffect.Parse.Json
import IdEffect.Parse.JsonGrammar
import IdEffect.Parse.JsonLeaves
import IdEffect.Parse.JsonCorrect
import IdEffect.Lib.Navigate
import IdEffect.Optics.Path
import IdEffect.Optics.JsonPatch
import IdEffect.Optics.Rfc6902
import IdEffect.Optics.PathReading
import IdEffect.Optics.PathAccess
import IdEffect.Optics.Following
import IdEffect.Optics.Trimmed
import IdEffect.Optics.PatchCorrect
import IdEffect.Sql.Server
import IdEffect.Sql.PgClient
import IdEffect.Sql.Atomicity
import IdEffect.Sql.PoolHygiene
import IdEffect.Lib.Calls
import IdEffect.Events.Store
import IdEffect.Events.Versions
import IdEffect.Events.FileJournal
import IdEffect.Events.Batches
import IdEffect.Lib.Serde
import IdEffect.Events.Caller
import IdEffect.Workflow.Journal
import IdEffect.Workflow.Resume
import IdEffect.Fsm.Durable
import IdEffect.Fsm.Saga
import IdEffect.Resilience.CircuitBreaker
import IdEffect.Resilience.HalfOpen
import IdEffect.Lib.Budget
import IdEffect.Resilience.RateLimiter
import IdEffect.Lib.Gauge
import IdEffect.Tower.EffectService
import IdEffect.Streaming.QueueChannel
import IdEffect.Tower.ChannelService
import IdEffect.Schema.SerdeBridge
import IdEffect.Rpc.Wire
import IdEffect.Rpc.Call
import IdEffect.Compute.Admission
import IdEffect.Concurrency.FiberRef
import IdEffect.Jobs.Runner
import IdEffect.Jobs.Outbox
import IdEffect.Lib.Gate
import IdEffect.Concurrency.WaitCancelled
import IdEffect.Lib.Stacks
import IdEffect.Concurrency.Cancel
import IdEffect.Concurrency.CancelReaches
import IdEffect.Resource.ScopeChild
import IdEffect.Concurrency.Supervised
import IdEffect.Concurrency.Supervisor
import IdEffect.ProcMacro.Tokens
import IdEffect.ProcMacro.EffectGraph
import IdEffect.ProcMacro.Planned
import IdEffect.Lib.Phases
import IdEffect.Kernel.ParBind
import IdEffect.ProcMacro.Expand
import IdEffect.ProcMacro.Binds
import IdEffect.ProcMacro.InferCaps
import IdEffect.ProcMacro.Lookups
import IdEffect.ProcMacro.Reach
import IdEffect.ProcMacro.Inferred
import IdEffect.Ai.Sse
import IdEffect.Lib.Interleave
import IdEffect.Streaming.Merge
import IdEffect.Coordination.OfferAll
import IdEffect.Coordination.Channel
import IdEffect.Coordination.ChannelPipe
import IdEffect.Coordination.ChannelWrite
import IdEffect.Resource.ScopeClimb
import IdEffect.Resource.PoolGet
import IdEffect.Platform.SendPooled
import IdEffect.Streaming.Join
import IdEffect.Streaming.Window
import IdEffect.Lib.Groups
import IdEffect.Streaming.TimeWindow
import IdEffect.Streaming.TimeSliding
import IdEffect.Streaming.Sink
import IdEffect.Streaming.ChannelDrop
import IdEffect.Streaming.ChannelFail
import IdEffect.Streaming.MapEffect
import IdEffect.Lib.Saturating
import IdEffect.Scheduling.Backoff
import IdEffect.Scheduling.Loops
import IdEffect.Parse.Combinators
import IdEffect.Parse.Integers
import IdEffect.Parse.Codec
import IdEffect.Parse.Bytes
import IdEffect.Scheduling.TimeZone
import IdEffect.Scheduling.DurationDecode
import IdEffect.Schema.Order
import IdEffect.Streaming.Transducer
import IdEffect.Coordination.RequestResolver
import IdEffect.Capability.Scoped
import IdEffect.Capability.Shared
import IdEffect.Parse.Repetition
import IdEffect.Parse.Pretty
import IdEffect.Parse.Diff
import IdEffect.Optics.Lens
import IdEffect.Optics.Removal
import IdEffect.Optics.Addressing
import IdEffect.Fsm.Interpreter
import IdEffect.Lib.Ranked
import IdEffect.Jobs.OutboxOrder
import IdEffect.Optics.TrieZipper
import IdEffect.Concurrency.SupervisedRuns
import IdEffect.Algebra.Monoid
import IdEffect.Concurrency.FiberLocal
import IdEffect.Optics.Composition
import IdEffect.Optics.Transducer
import IdEffect.Graph.Dag
import IdEffect.Graph.SortExplicit
import IdEffect.Graph.SortAgreement
import IdEffect.Events.Envelope
import IdEffect.Ai.Adapters
import IdEffect.ProcMacro.Operands
import IdEffect.ProcMacro.Awaits
import IdEffect.ProcMacro.Constructor
import IdEffect.Streaming.Replay
