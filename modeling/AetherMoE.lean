import AetherMoE.Lib.AtomicObject
import AetherMoE.Lib.Buffers
import AetherMoE.Lib.Bytes
import AetherMoE.Lib.Descriptors
import AetherMoE.Lib.Effect
import AetherMoE.Lib.Fifo
import AetherMoE.Lib.Gaps
import AetherMoE.Lib.Grouping
import AetherMoE.Lib.IdentityCache
import AetherMoE.Lib.NearestRank
import AetherMoE.Lib.Reach
import AetherMoE.Lib.RelationalTriple
import AetherMoE.Lib.Rounding
import AetherMoE.Lib.Scatter
import AetherMoE.Lib.Selection
import AetherMoE.Lib.Strided
import AetherMoE.Lib.Sweep
import AetherMoE.Lib.Triple
import AetherMoE.Core.RingBuffer
import AetherMoE.Core.RingInvariant
import AetherMoE.Core.RingSafety
import AetherMoE.Core.RingQueue
import AetherMoE.Core.RingLinearizable
import AetherMoE.Core.RingProgress
import AetherMoE.Core.PageTable
import AetherMoE.Core.AllocatorRuns
import AetherMoE.Core.Scheduler
import AetherMoE.Core.SchedulerRuns
import AetherMoE.Core.Orderly
import AetherMoE.Core.Accounting
import AetherMoE.Core.Progress
import AetherMoE.Core.Reports
import AetherMoE.Core.Admission
import AetherMoE.Core.Conservation
import AetherMoE.Core.Drain
import AetherMoE.Core.Undisturbed
import AetherMoE.Core.GenerationLimit
import AetherMoE.Core.StepAccount
import AetherMoE.Core.DecodeFirst
import AetherMoE.Core.Fairness
import AetherMoE.Core.Telemetry
import AetherMoE.Core.MetricStats
import AetherMoE.Core.LatencySamples
import AetherMoE.Core.FlusherThread
import AetherMoE.Api.Ingress
import AetherMoE.Api.StatusTable
import AetherMoE.Api.Pipeline
import AetherMoE.Api.Completion
import AetherMoE.Orchestration.Serialization
import AetherMoE.Orchestration.Decoding
import AetherMoE.Orchestration.UnixSocketTransport
import AetherMoE.Orchestration.Router
import AetherMoE.Orchestration.Assignment
import AetherMoE.Orchestration.Batch
import AetherMoE.Orchestration.Verdicts
import AetherMoE.Orchestration.Isolation
import AetherMoE.Orchestration.WorkerShard
import AetherMoE.Orchestration.WorkerLoop
import AetherMoE.Orchestration.WorkerStream
import AetherMoE.Orchestration.Cluster
import AetherMoE.Orchestration.TolerantRouting
import AetherMoE.Orchestration.Unroutable
import AetherMoE.Orchestration.Bounds
import AetherMoE.Orchestration.Reassembly
import AetherMoE.Orchestration.StrictRouting
import AetherMoE.Orchestration.Agreement
import AetherMoE.Orchestration.Sessions
import AetherMoE.Orchestration.NetSimulation
import AetherMoE.Orchestration.WireCluster
import AetherMoE.Orchestration.WireSessions
import AetherMoE.Orchestration.Chaos
import AetherMoE.Orchestration.ProcessSpawn
import AetherMoE.Orchestration.SpawnFailure
import AetherMoE.Orchestration.DescriptorIsolation
import AetherMoE.Orchestration.Shutdown
import AetherMoE.Kernels.SimdGroups
import AetherMoE.Kernels.ReferenceGating
import AetherMoE.Kernels.FusedGating
import AetherMoE.Kernels.MaskedExperts
import AetherMoE.Kernels.GatingRefinement
import AetherMoE.Kernels.Prototype
import AetherMoE.Kernels.Quantization
import AetherMoE.Kernels.QuantizedError
import AetherMoE.Kernels.QuantizedGemm
import AetherMoE.Kernels.QuantizedRefinement
import AetherMoE.Kernels.WeightCache
import AetherMoE.Tools.BenchRun
import AetherMoE.Tools.DoubleBuffer
import AetherMoE.Tools.PipelineEnd
