import AdvCompArch.Grappa.MarkSent
import AdvCompArch.Grappa.ReceiveBuffer
import AdvCompArch.Grappa.Coalescing
import AdvCompArch.Grappa.StealConservation
import AdvCompArch.Grappa.GceOnePhase
import AdvCompArch.Grappa.GceWakeups
import AdvCompArch.Grappa.PhaseExclusion
import AdvCompArch.Grappa.VectorQueue
import AdvCompArch.Grappa.HashMapSemantics
import AdvCompArch.Grappa.Reducer
import AdvCompArch.Grappa.AllreduceInplace
import AdvCompArch.Grappa.GraphTransform
import AdvCompArch.Grappa.Mutex
import AdvCompArch.Grappa.SpmdAllreduce
import AdvCompArch.Grappa.FetchAddCombiner
import AdvCompArch.Grappa.GraphConstruction
import AdvCompArch.Grappa.LoadTsv
import AdvCompArch.Grappa.LoadMm
import AdvCompArch.Sonuma.RpcBacklog
import AdvCompArch.Sonuma.MessageFraming
import AdvCompArch.Sonuma.QueuePairInvariant
import AdvCompArch.Grappa.FullEmpty
import AdvCompArch.Grappa.PushBuffer
import AdvCompArch.Grappa.ReceiveRing
import AdvCompArch.Grappa.AlignedPool
import AdvCompArch.Grappa.SplitEngineRuns
import AdvCompArch.Grappa.LabelPropagation
import AdvCompArch.Grappa.GraphlabSssp
import AdvCompArch.Grappa.Sssp
import AdvCompArch.Grappa.BeamerBfsRuns
import AdvCompArch.Grappa.DoubleDHTRuns
import AdvCompArch.Grappa.AllocatorChunks
import AdvCompArch.Grappa.CoreCounts
import AdvCompArch.Grappa.LoopPartition
import AdvCompArch.Grappa.BufferCopyRuns
import AdvCompArch.Grappa.HashJoinRuns
import AdvCompArch.Grappa.SquareBushy
import AdvCompArch.Grappa.RouteMap
import AdvCompArch.Grappa.ReadyQueue
import AdvCompArch.Grappa.ReuseMessageList
import AdvCompArch.Grappa.Bintsv4
import AdvCompArch.Grappa.NonTemporal
import AdvCompArch.Grappa.HypercubeIterator
import AdvCompArch.Grappa.BfsVerifier
import AdvCompArch.Sonuma.WqPublication
import AdvCompArch.Sonuma.RpcOccupancy
import AdvCompArch.Sonuma.GrantReferences
import AdvCompArch.Grappa.TreeGenerationStall
import AdvCompArch.Grappa.SummarizingMetric
import AdvCompArch.Grappa.HashSet
import AdvCompArch.Grappa.IsoPath
import AdvCompArch.Grappa.TriangleOrders
import AdvCompArch.Grappa.KMeansStep
import AdvCompArch.Grappa.RelationLoading
import AdvCompArch.Grappa.IntSortRuns
import AdvCompArch.Grappa.OnedCsrRuns
