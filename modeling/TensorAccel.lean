import TensorAccel.Framework.Clocked
import TensorAccel.Array.SystolicArray
import TensorAccel.Array.ClockGating
import TensorAccel.Framework.DelayLine
import TensorAccel.Stream.StreamCtrl
import TensorAccel.Stream.Pipeline
import TensorAccel.Stream.StreamTop
import TensorAccel.Framework.Ring
import TensorAccel.Mmio.CmdQueueRegs
import TensorAccel.Mmio.CoprocMmioTop
import TensorAccel.Axi.DmaBridge
import TensorAccel.Axi.ReadSide
import TensorAccel.Axi.FifoBalance
import TensorAccel.Axi.WriteSide
import TensorAccel.Axi.DmaCommand
import TensorAccel.Driver.CoprocDriver
import TensorAccel.Framework.Tiling
import TensorAccel.Driver.Counting
import TensorAccel.Driver.Tiles
import TensorAccel.Driver.Slots
import TensorAccel.Driver.Matmul
import TensorAccel.Driver.Returns
import TensorAccel.Framework.FixedPoint
import TensorAccel.Sched.Quantize
import TensorAccel.Sched.Tiler
import TensorAccel.Sched.Layers
import TensorAccel.Sched.Int8Forward
import TensorAccel.Driver.Int8Mlp
import TensorAccel.Sched.Quant
import TensorAccel.Memory.ScratchpadDbuf
import TensorAccel.Axi.CommandPort
import TensorAccel.Axi.Engines
import TensorAccel.Axi.WriteLength
import TensorAccel.Axi.Boundary
import TensorAccel.Axi.Ordering
import TensorAccel.Axi.Handshake
import TensorAccel.Axi.SharedMemory
import TensorAccel.Mmio.CoprocAxiTop
import TensorAccel.Stream.Strobes
import TensorAccel.Sched.Conv
import TensorAccel.Sched.Batch
import TensorAccel.Framework.Bus
import TensorAccel.Sim.Top
import TensorAccel.Sim.TileRunner
import TensorAccel.Axi.SimRam
import TensorAccel.Axi.SimMaster
import TensorAccel.Sched.CoprocBackend
import TensorAccel.Sched.BackendRuns
import TensorAccel.Axi.StreamAxiTop
import TensorAccel.Axi.ProtocolCheck
import TensorAccel.Axi.Tally
import TensorAccel.Axi.RamMemory
import TensorAccel.Framework.Budget
import TensorAccel.Axi.StageBudgets
import TensorAccel.Axi.Latency
import TensorAccel.Axi.RowLimit
import TensorAccel.Mmio.CoprocAxiSimTop
import TensorAccel.Mmio.Completion
import TensorAccel.Framework.Digits
import TensorAccel.Sched.LineProtocol
import TensorAccel.Mmio.HostView
import TensorAccel.Framework.WordMemory
import TensorAccel.Sched.CoprocRunner
import TensorAccel.Sched.HostBytes
import TensorAccel.Sched.TileSession
import TensorAccel.Framework.Folds
import TensorAccel.Sched.TileServer
import TensorAccel.Sched.Devices
import TensorAccel.Sched.Mnist
