import MerrukKernel.Ipc.FifoSafety
import MerrukKernel.Ipc.FlowReports
import MerrukKernel.Ipc.Conservation.Areas
import MerrukKernel.Ashmem.Purge
import MerrukKernel.Ashmem.Evictable
import MerrukKernel.Ashmem.PinRequests
import MerrukKernel.Logger.Concurrent
import MerrukKernel.Logger.Tap
import MerrukKernel.Binder.BufferRuns
import MerrukKernel.Binder.RefRuns
import MerrukKernel.Binder.FlowRuns
import MerrukKernel.Rpc.Registry
import MerrukKernel.Rpc.Dispatch
import MerrukKernel.Rpc.SyncRuns
import MerrukKernel.Ril.CommandQueue
import MerrukKernel.Clock.Counting
import MerrukKernel.Block.VrCursors
import MerrukKernel.Power.SuspendRuns
import MerrukKernel.Dma.Binding
import MerrukKernel.Bfq.IdleBounds
import MerrukKernel.Memblock.Refinement
import MerrukKernel.Memblock.Alloc
import MerrukKernel.Radix.Preload
import MerrukKernel.Idr.PreGet
import MerrukKernel.Lists.Plist
import MerrukKernel.Kfifo.Sharing
import MerrukKernel.Numbers.Rational
