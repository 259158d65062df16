import NnEngine.Schedule.Scheduler.MemoryAware
import NnEngine.Schedule.Scheduler.Allocator
import NnEngine.Schedule.WellFormed
import NnEngine.Schedule.Exec
import NnEngine.Schedule.Scheduler.Ledger
import NnEngine.Schedule.Scheduler.Bind
import NnEngine.Schedule.Scheduler.Run
import NnEngine.Schedule.Scheduler.Reachable
import NnEngine.Schedule.Scheduler.Accounting
import NnEngine.Schedule.Scheduler.Trace
import NnEngine.Schedule.Scheduler.Memory
import NnEngine.Schedule.Scheduler.Finalize
import NnEngine.Schedule.Scheduler.Integrity
import NnEngine.Schedule.Scheduler.Delivery
import NnEngine.Tensor.Footprint
import NnEngine.Llm.Session
import NnEngine.Llm.Streaming
import NnEngine.Schedule.Scheduler.Arena
import NnEngine.Llm.StreamingPrefill
import NnEngine.Llm.Conversation
import NnEngine.Comm.Uds
import NnEngine.Comm.AllReduce
import NnEngine.DepthFirst
import NnEngine.Graph.Modify
import NnEngine.Graph.Consistency
import NnEngine.FloatFormat
import NnEngine.Tensor.Data
import NnEngine.Onnx.Load
import NnEngine.Onnx.LoadOp
import NnEngine.Onnx.Save
import NnEngine.Result
import NnEngine.Transform.PropConstant
import NnEngine.Onnx.TensorRoundTrip
import NnEngine.Onnx.Attributes
import NnEngine.Onnx.Loaded
import NnEngine.Onnx.OperatorRoundTrip
import NnEngine.Interner
import NnEngine.Onnx.LoadGraph
import NnEngine.Onnx.SaveGraph
import NnEngine.Onnx.Named
import NnEngine.Onnx.Build
import NnEngine.Onnx.RoundTrip
import NnEngine.Onnx.GraphRoundTrip
import NnEngine.Strided
import NnEngine.Tensor.Reshape
import NnEngine.Tensor.Layout
import NnEngine.Tensor.ReshapeAddress
import NnEngine.Tensor.Storage
import NnEngine.Llm.Attention
import NnEngine.Llm.FusedRope
import NnEngine.Llm.Prefill
import NnEngine.Graph.Reinterpret
import NnEngine.Graph.Rewire
import NnEngine.Transform.ContiguousElimination
import NnEngine.StraightLine
import NnEngine.Codegen.Contiguous
import NnEngine.Codegen.ContiguousIndex
import NnEngine.NdArray
import NnEngine.Tensor.Ops
import NnEngine.Tensor.Contiguity
import NnEngine.Tensor.BroadcastShape
import NnEngine.Llm.CpuStreaming
import NnEngine.KeyedCache
import NnEngine.Session.Initializers
import NnEngine.Graph.Chain
import NnEngine.Transform.TransposeFusion
import NnEngine.Codegen.HostCode
import NnEngine.Segments
import NnEngine.Schedule.Scheduler.Blocks
import NnEngine.Schedule.Scheduler.Places
import NnEngine.Codegen.HostWaits
import NnEngine.Schedule.Scheduler.Bindings
import NnEngine.Session.Hybrid
import NnEngine.Session.HybridRun
import NnEngine.Session.HybridPlan
import NnEngine.Schedule.Placement
import NnEngine.Schedule.Scheduler.StateAliases
import NnEngine.Session.States
import NnEngine.Graph.Meaning
import NnEngine.Graph.Exact
import NnEngine.Transform.Pattern
import NnEngine.Transform.DequantGemmFusion
import NnEngine.Transform.GemmTransposeFusion
import NnEngine.Transform.GemmAddFusion
import NnEngine.Transform.PatternExact
import NnEngine.Transform.RMSNormFusion
import NnEngine.Transform.LayerNormFusion
import NnEngine.Transform.FastGeLUFusion
import NnEngine.Transform.ConvBNFusion
import NnEngine.Codegen.SamePad
import NnEngine.Blas
import NnEngine.Codegen.CpuGemm
import NnEngine.Codegen.CpuGemmSound
import NnEngine.Codegen.CpuMatmul
import NnEngine.Codegen.CudaGemm
import NnEngine.Codegen.Pooling
import NnEngine.Codegen.PoolingSound
import NnEngine.AxisReduction
import NnEngine.Transform.Decomposition
import NnEngine.Graph.PoolingWindows
import NnEngine.Comm.Faults
import NnEngine.Graph.InputTypes
import NnEngine.Graph.DeadNodes
import NnEngine.Codegen.Attention
import NnEngine.Codegen.AttentionMask
import NnEngine.Codegen.Coverage
import NnEngine.Blocks
import NnEngine.Codegen.ConcatSplit
import NnEngine.FloatOfInt
import NnEngine.Codegen.CpuCast
import NnEngine.Codegen.CastAgreement
import NnEngine.Graph.TopologicalOrder
import NnEngine.Graph.SplitSizes
import NnEngine.Graph.SqueezeViews
import NnEngine.Graph.SliceRanges
import NnEngine.Codegen.CpuSlice
import NnEngine.Onnx.TensorValues
import NnEngine.FloatPattern
import NnEngine.Tensor.Bf16Encoders
import NnEngine.FloatRounding
import NnEngine.Tensor.F32Arithmetic
import NnEngine.Llm.Quantize
import NnEngine.Graph.Comparison
import NnEngine.Graph.StructuralComparison
import NnEngine.Graph.NamedComparison
import NnEngine.DisjointSets
import NnEngine.UnionFind
import NnEngine.Codegen.ValueBindings
import NnEngine.Codegen.Reductions
import NnEngine.Codegen.ReductionsSound
import NnEngine.IntegerRounding
import NnEngine.Codegen.Quantizers
import NnEngine.Codegen.QuantizersSound
import NnEngine.Graph.Readers
import NnEngine.Transform.QuantizeActivations
import NnEngine.Transform.QuantizeActivationsSound
import NnEngine.Transform.ContiguousInsertion
import NnEngine.Transform.ContiguousInsertionSound
import NnEngine.Transform.IdentityElimination
import NnEngine.Transform.CseReshape
import NnEngine.Transform.Optimize
