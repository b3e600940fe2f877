import FastLlm.Spec.SuffixIndex
import FastLlm.Spec.SuffixDraft
import FastLlm.Spec.SpecController
import FastLlm.Tools.DecodeLoop
import FastLlm.Tools.PlainRun
import FastLlm.Tools.SpecHeads
import FastLlm.Tools.ForceRun
import FastLlm.Tools.KvRoom
import FastLlm.Tools.Lossless
import FastLlm.Lib.MemProg
import FastLlm.Lib.TopoOrder
import FastLlm.Lib.ParExec
import FastLlm.Lib.Fairness
import FastLlm.Lib.Kahn
import FastLlm.Lib.Ring
import FastLlm.Lib.Bytes
import FastLlm.Runtime.Queue
import FastLlm.Runtime.QueueInv
import FastLlm.Runtime.QueueSafe
import FastLlm.Runtime.QueueFifo
import FastLlm.Runtime.Quants
import FastLlm.Runtime.Shadow
import FastLlm.Runtime.ShadowExact
import FastLlm.Runtime.ShadowCache
import FastLlm.Runtime.DecodeParams
import FastLlm.Runtime.Task
import FastLlm.Runtime.Graph
import FastLlm.Runtime.Freeze
import FastLlm.Runtime.Protocol
import FastLlm.Runtime.ProtocolInv
import FastLlm.Runtime.RunOnce
import FastLlm.Runtime.Routing
import FastLlm.Runtime.QueueRoom
import FastLlm.Runtime.Liveness
import FastLlm.Runtime.Cells
import FastLlm.Runtime.CellInv
import FastLlm.Runtime.CellRefine
import FastLlm.Runtime.CellPush
import FastLlm.Runtime.CellRun
import FastLlm.Runtime.Park
import FastLlm.Runtime.Refinement
import FastLlm.Lib.Loop
import FastLlm.Lib.Neon
import FastLlm.Runtime.Codebook
import FastLlm.Runtime.DotRow
import FastLlm.Runtime.Int8Dot
import FastLlm.Runtime.ActQ8
import FastLlm.Runtime.FastDot
import FastLlm.Runtime.ShadowDot
import FastLlm.Runtime.CpuExec
import FastLlm.Runtime.CpuExact
import FastLlm.Runtime.NeonDot
import FastLlm.Runtime.NeonExact
import FastLlm.Runtime.NeonExec
import FastLlm.Runtime.ShadowTile
import FastLlm.Runtime.ShadowMap
import FastLlm.Runtime.ShadowPair
import FastLlm.Lib.ArgMax
import FastLlm.Lib.Ranking
import FastLlm.Runtime.RouterSel
import FastLlm.Runtime.RopeDs2
import FastLlm.Lib.Checked
import FastLlm.Runtime.Int8Range
import FastLlm.Lib.Metered
import FastLlm.Model.GgufLinear
import FastLlm.Lib.Snprintf
import FastLlm.Model.GgufSplit
import FastLlm.Lib.ByteParser
import FastLlm.Model.Gguf
import FastLlm.Model.Detok
import FastLlm.Model.GgufSyntax
import FastLlm.Model.GgufReader
import FastLlm.Lib.MaskUp
import FastLlm.Model.GgufAccept
import FastLlm.Model.GgufLayout
import FastLlm.Model.GgufPlaced
import FastLlm.Model.GgufRoundTrip
import FastLlm.Model.HeadCert
import FastLlm.Model.HeadDot
import FastLlm.Model.HeadEnvelope
import FastLlm.Model.HeadSegments
import FastLlm.Lib.Cuda
import FastLlm.Runtime.GpuDot
import FastLlm.Runtime.GpuWords
import FastLlm.Runtime.GpuFloat
import FastLlm.Runtime.GpuInt8
import FastLlm.Runtime.GpuExact
import FastLlm.Lib.CmdProg
import FastLlm.Runtime.Arena
import FastLlm.Runtime.ArenaBlocks
import FastLlm.Model.Builder
import FastLlm.Model.BuildGraph
import FastLlm.Model.Plan
import FastLlm.Model.Relay
import FastLlm.Model.Shapes
import FastLlm.Model.Stage
import FastLlm.Model.Tiles
import FastLlm.Model.Spans
import FastLlm.Model.Provenance
import FastLlm.Model.Load
import FastLlm.Model.PassWiring
import FastLlm.Model.DepEdge
import FastLlm.Model.BuildOk
import FastLlm.Model.PassValues
import FastLlm.Model.Session
import FastLlm.Model.Margins
import FastLlm.Lib.BinaryFormat
import FastLlm.Runtime.Half
import FastLlm.Lib.WriteApart
import FastLlm.Model.ActLayout
import FastLlm.Model.PlanGrowth
import FastLlm.Model.QuantOrder
import FastLlm.Lib.MemSim
import FastLlm.Lib.TaskAssn
import FastLlm.Lib.TaskTriple
import FastLlm.Model.OpBuffers
import FastLlm.Model.PassAttention
import FastLlm.Model.PassFfn
import FastLlm.Model.PassExperts
import FastLlm.Model.PassGraph
import FastLlm.Model.PassMemory
