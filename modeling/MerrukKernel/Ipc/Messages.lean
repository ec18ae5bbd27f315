import MerrukKernel.Library.Trace
import MerrukKernel.Ipc.PoolSpec

/-!
# Sending, freeing and receiving

The message half of the IPC layer: `IPC_SendBuffer` and `IPC_FreeBuffer` of `ipc_buffer.c`, and
`IPC_ProcessEvents` of `ipc_sharedmemory.c`, which empties the FIFOs of the CPU it runs on.

The **system** is shared memory, the two CPUs' local control data, and two pieces of bookkeeping
the source does not have: the pools that have been created, and the buffers clients hold. A client
holds a buffer from the moment it is allocated, or delivered by a delivery function, until it is
sent away or freed. What a client does with a buffer it holds is up to it, so between two loop
iterations of `IPC_ProcessEvents` anything may happen: the iterations are steps of their own
(`System.deliverStep`, `System.reclaimStep`), and the whole call (`System.processEvents`) is built
from them.
-/

namespace Ipc

open Function

/-! ### Sending and freeing -/

/-- Where `IPC_SmSendBuffer` leaves a buffer. -/
inductive Sent
  /-- Nowhere: the other side has crashed. -/
  | dropped
  /-- With the delivery function of a destination on the same CPU. -/
  | delivered
  /-- In the send FIFO of a CPU. -/
  | queued (cpu : Cpu)
  deriving DecidableEq, Repr

/-- The CPU of the destination endpoint of a buffer's pool. -/
def destinationCpu (sm : Sm) (buffer : SmPtr) : Cpu :=
  (sm.endpoints (sm.pools (sm.buffers buffer).pool).destinationEndpointId).cpu

/-- `IPC_SmSendBuffer`, called on `cpu`; `cpCrashed` is `g_bCpCrashed`. -/
def smSendBuffer (sm : Sm) (cpCrashed : Bool) (cpu : Cpu) (buffer : SmPtr) : Sent × Sm :=
  if cpCrashed then (.dropped, sm)
  else if destinationCpu sm buffer = cpu then (.delivered, sm)
  else
    let id := FifoId.send (destinationCpu sm buffer)
    (.queued (destinationCpu sm buffer), sm.setFifo id (smFifoWrite (sm.fifos id) buffer))

/-- `IPC_PoolAddBytesSent`. -/
def poolAddBytesSent (sm : Sm) (pool : SmPtr) (bytes : U32) : Sm :=
  sm.setPool pool { sm.pools pool with bytesSent := (sm.pools pool).bytesSent + bytes }

/-- `IPC_SendBuffer`, called on `cpu`. -/
def sendBuffer (sm : Sm) (cpCrashed : Bool) (cpu : Cpu) (buffer : SmPtr) : Sent × Sm :=
  let b := sm.buffers buffer
  let sm := sm.setBuffer buffer { b with statusCode := .sent }
  let sm := poolAddBytesSent sm b.pool (b.dataSize + b.headerSize)
  smSendBuffer sm cpCrashed cpu buffer

/-- `IPC_FreeBuffer`, called on `cpu`: a repeated free is recognised by the status code. -/
def freeBuffer (sm : Sm) (cpu : Cpu) (buffer : SmPtr) : Sm :=
  let b := sm.buffers buffer
  if b.statusCode = .free then sm
  else
    let owningCpu := (sm.pools b.pool).cpu
    let sm := sm.setBuffer buffer { b with statusCode := .free }
    if owningCpu = cpu then bufferReturn sm buffer b.pool
    else sm.setFifo (.free owningCpu) (smFifoWrite (sm.fifos (.free owningCpu)) buffer)

/-- The effect of a send while nothing has crashed: the status is noted, and the buffer is delivered
on the spot or queued for the other CPU. -/
theorem sendBuffer_eq (sm : Sm) (cpu : Cpu) (buffer : SmPtr) :
    ∃ r : BufferPool, r.SameCount (sm.pools (sm.buffers buffer).pool) ∧
      sendBuffer sm false cpu buffer = if destinationCpu sm buffer = cpu then
          (.delivered, { sm with
            buffers := update sm.buffers buffer
              { sm.buffers buffer with statusCode := .sent }
            pools := update sm.pools (sm.buffers buffer).pool r })
        else
          (.queued (destinationCpu sm buffer), { sm with
            buffers := update sm.buffers buffer
              { sm.buffers buffer with statusCode := .sent }
            pools := update sm.pools (sm.buffers buffer).pool r
            fifos := update sm.fifos (.send (destinationCpu sm buffer))
              (smFifoWrite (sm.fifos (.send (destinationCpu sm buffer))) buffer) }) := by
  refine ⟨{ sm.pools (sm.buffers buffer).pool with
    bytesSent := (sm.pools (sm.buffers buffer).pool).bytesSent +
      ((sm.buffers buffer).dataSize + (sm.buffers buffer).headerSize) }, ⟨rfl, rfl⟩, ?_⟩
  have hdest : destinationCpu (poolAddBytesSent (sm.setBuffer buffer
      { sm.buffers buffer with statusCode := .sent }) (sm.buffers buffer).pool
      ((sm.buffers buffer).dataSize + (sm.buffers buffer).headerSize)) buffer =
      destinationCpu sm buffer := by
    simp [destinationCpu, poolAddBytesSent, Sm.setPool, Sm.setBuffer]
  simp only [sendBuffer, smSendBuffer, hdest]
  rfl

theorem freeBuffer_eq {sm : Sm} {buffer pool : SmPtr}
    (hstatus : (sm.buffers buffer).statusCode ≠ .free) (hpool : (sm.buffers buffer).pool = pool)
    (cpu : Cpu) :
    freeBuffer sm cpu buffer = if (sm.pools pool).cpu = cpu then
        bufferReturn (sm.setBuffer buffer { sm.buffers buffer with statusCode := .free })
          buffer pool
      else (sm.setBuffer buffer { sm.buffers buffer with statusCode := .free }).setFifo
        (.free (sm.pools pool).cpu)
        (smFifoWrite (sm.fifos (.free (sm.pools pool).cpu)) buffer) := by
  subst hpool
  unfold freeBuffer
  rw [if_neg hstatus]
  rfl

/-! ### The system -/

/-- The two CPUs and their shared memory. -/
structure System where
  sm : Sm
  /-- `SmLocalControl.ConfiguredReported` of each CPU. -/
  configuredReported : Cpu → Bool
  /-- `g_bCpCrashed` of each CPU. -/
  cpCrashed : Cpu → Bool
  pools : List SmPtr
  /-- The buffers in the hands of clients. -/
  held : List SmPtr

namespace System

/-- Both CPUs have initialised shared memory, `first` before the other. -/
def init (endpoints : U32 → Endpoint) (smSize : U32) (first : Cpu) : System where
  sm := boot endpoints smSize first
  configuredReported _ := false
  cpCrashed _ := false
  pools := []
  held := []

/-- `IPC_Configured` on `cpu`. -/
def configured (s : System) (cpu : Cpu) : System :=
  let sm := { s.sm with initialised := update s.sm.initialised cpu .configured }
  { s with
    sm := sm
    configuredReported :=
      if sm.initialised cpu.other = .configured then
        update s.configuredReported cpu true
      else s.configuredReported }

/-- `IPC_CreateBufferPool` on `cpu`. -/
def createPool (s : System) (cpu : Cpu) (args : PoolArgs) : System :=
  let r := createBufferPool s.sm cpu args
  { s with sm := r.2, pools := if r.1 = 0 then s.pools else s.pools ++ [r.1] }

/-- `IPC_AllocateBuffer`: the caller holds what it is given. -/
def allocate (s : System) (pool : SmPtr) : System :=
  let r := allocateBuffer s.sm pool
  { s with sm := r.2, held := if r.1 = 0 then s.held else s.held ++ [r.1] }

/-- `IPC_SendBuffer` on `cpu`: a buffer that goes into a FIFO leaves the clients' hands, one that is
delivered on the same CPU changes them. -/
def send (s : System) (cpu : Cpu) (buffer : SmPtr) : System :=
  match sendBuffer s.sm (s.cpCrashed cpu) cpu buffer with
  | (.queued _, sm) => { s with sm := sm, held := s.held.erase buffer }
  | (_, sm) => { s with sm := sm }

/-- `IPC_FreeBuffer` on `cpu`. -/
def free (s : System) (cpu : Cpu) (buffer : SmPtr) : System :=
  { s with
    sm := freeBuffer s.sm cpu buffer
    held := if (s.sm.buffers buffer).statusCode = .free then s.held else s.held.erase buffer }

/-- One iteration of the first loop of `IPC_ProcessEvents`: read a message and hand it to the
delivery function of its endpoint. `false` ends the loop. -/
def deliverStep (s : System) (cpu : Cpu) : Bool × System :=
  let r := smFifoRead (s.sm.fifos (.send cpu))
  let sm := s.sm.setFifo (.send cpu) r.2
  if r.1 = 0 then (false, { s with sm := sm })
  else (true, { s with sm := sm, held := s.held ++ [r.1] })

/-- One iteration of the second loop: read a freed buffer and return it to its pool. -/
def reclaimStep (s : System) (cpu : Cpu) : Bool × System :=
  let r := smFifoRead (s.sm.fifos (.free cpu))
  let sm := s.sm.setFifo (.free cpu) r.2
  if r.1 = 0 then (false, { s with sm := sm })
  else (true, { s with sm := bufferReturn sm r.1 (sm.buffers r.1).pool })

/-- Repeat a loop iteration until it ends the loop, at most the given number of times. -/
def loop (step : System → Bool × System) : ℕ → System → System
  | 0, s => s
  | n + 1, s => if (step s).1 then loop step n (step s).2 else (step s).2

/-- The two loops of `IPC_ProcessEvents`. A FIFO has `IPC_SM_MAX_BUFFERS` slots, one of which is
always free, so as many iterations empty it. -/
def drain (s : System) (cpu : Cpu) : System :=
  loop (reclaimStep · cpu) 1024 (loop (deliverStep · cpu) 1024 s)

/-- The crash handling of `IPC_ProcessEvents`, which only the applications CPU enters and which
replaces the loops while a crash is pending. -/
def crashOrDrain (s : System) (cpu : Cpu) : System :=
  let s := if cpu = .ap ∧ s.cpCrashed cpu = false ∧ s.sm.crashCode ≠ 0 then
      { s with cpCrashed := update s.cpCrashed cpu true }
    else s
  if s.cpCrashed cpu then
    -- `IPC_CP_ANALYSING_CRASH` is `1`
    if s.sm.crashCode ≠ 1 ∧ s.sm.crashCode ≠ 0 then s
    else { s with cpCrashed := update s.cpCrashed cpu false }
  else s.drain cpu

/-- `IPC_ProcessEvents` on `cpu`. -/
def processEvents (s : System) (cpu : Cpu) : System :=
  if s.configuredReported cpu then s.crashOrDrain cpu
  else if s.sm.initialised cpu = .configured ∧ s.sm.initialised cpu.other = .configured then
    { s with configuredReported := update s.configuredReported cpu true }.crashOrDrain cpu
  else s

end System

/-- One step of either CPU. -/
inductive IpcOp
  | configured (cpu : Cpu)
  | createPool (cpu : Cpu) (args : PoolArgs)
  | allocate (pool : SmPtr)
  | send (cpu : Cpu) (buffer : SmPtr)
  | free (cpu : Cpu) (buffer : SmPtr)
  | processEvents (cpu : Cpu)
  /-- One iteration of the first loop of `IPC_ProcessEvents`. -/
  | deliver (cpu : Cpu)
  /-- One iteration of the second loop. -/
  | reclaim (cpu : Cpu)

/-- What a step does. -/
def System.exec (s : System) : IpcOp → System
  | .configured cpu => s.configured cpu
  | .createPool cpu args => s.createPool cpu args
  | .allocate pool => s.allocate pool
  | .send cpu buffer => s.send cpu buffer
  | .free cpu buffer => s.free cpu buffer
  | .processEvents cpu => s.processEvents cpu
  | .deliver cpu => (s.deliverStep cpu).2
  | .reclaim cpu => (s.reclaimStep cpu).2

end Ipc
