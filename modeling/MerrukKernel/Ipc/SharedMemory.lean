import MerrukKernel.Ipc.Queues

/-!
# Shared memory: its control block and its allocator

The state both CPUs see (`ipc_sharedmemory.h`): the control block, and the three kinds of record
that live in the rest of the area — buffer pools, buffer descriptors and queue entries — each
addressed by its offset. Fields that no function below reads (the power-saving block, the
persistent data, the properties, the time stamps and the event flags) are left out.

The allocator serves the two CPUs from the two ends of one area: the applications CPU from the
bottom up, the communications CPU from the top down (`smAlloc`). Pools are admitted by a bound on
the number of buffers of the allocating CPU (`smPoolAlloc`), which is the only thing that ever
keeps the FIFOs from overflowing.

The `Makefile` defines `UNDER_LINUX`, `ipcinterface.h` `FUSE_IPC_CRASH_SUPPORT`, and neither
`IPC_DEBUG`. So `IPC_SmEndpointInfo` is the address of an array element and is never null.
-/

namespace Ipc

open Function

/-- The two values of `IPC_CPU_ID_T` a CPU can have. -/
inductive Cpu
  | cp
  | ap
  deriving DecidableEq, Repr

/-- `IPC_OTHER_CPU`. -/
def Cpu.other : Cpu → Cpu
  | .cp => .ap
  | .ap => .cp

/-- `IPC_FlowCtrlEvent_T`. -/
inductive FlowCtrlEvent
  | start
  | stop
  deriving DecidableEq, Repr

/-- `StatusCode` of a buffer: `IPC_BUFFER_STATUS_FREE`, which is `0`, `_ALLOC` and `_SENT`. -/
inductive StatusCode
  | free
  | alloc
  | sent
  deriving DecidableEq, Repr

/-- The values of `Initialised`: `0`, `IPC_SmInitialised` and `IPC_SmConfigured`. -/
inductive SmState
  | zero
  | initialised
  | configured
  deriving DecidableEq, Repr

/-- `Fifos [Cpu].SendFifo`, the messages to a CPU, and `Fifos [Cpu].FreeFifo`, the buffers freed on
the other CPU and on their way back to it. -/
inductive FifoId
  | send (cpu : Cpu)
  | free (cpu : Cpu)
  deriving DecidableEq, Repr

/-- `IPC_EP_T`. Endpoints are registered, on one CPU each, before they are used. -/
structure Endpoint where
  cpu : Cpu
  /-- The flow control callback, `0` when there is none. -/
  flowControlFunction : U32
  maxHeaderSize : U32

/-- `IPC_BufferPool_T`, less its two queue heads, which are queue entries. -/
structure BufferPool where
  cpu : Cpu
  sourceEndpointId : U32
  destinationEndpointId : U32
  flowControlState : FlowCtrlEvent
  flowControlCallPending : Bool
  nextPool : SmPtr
  maxDataSize : U32
  maxHeaderSize : U32
  flowStartLimit : U32
  flowStopLimit : U32
  freeBuffers : U32
  maxBuffers : U32
  lowWaterMark : U32
  /-- The callback of `IPC_PoolSetFreeCallback`, `0` when none is installed. -/
  bufferFreeFunction : U32
  allocations : U32
  allocationFailures : U32
  flowStartCalls : U32
  flowStopCalls : U32
  bytesSent : U32

/-- `IPC_Buffer_T`, less its queue entry. -/
structure Buffer where
  pool : SmPtr
  dataBufferStart : SmPtr
  dataOffset : SmPtr
  dataSize : U32
  headerSize : U32
  bufferId : U32
  userParameter : U32
  statusCode : StatusCode
  localData : U32

/-- `IPC_SmControl_T`, the control block at the base of shared memory. -/
structure SmControl where
  size : U32
  initialised : Cpu → SmState
  /-- `CrashCode`; `0` is `IPC_CP_NOT_CRASHED`. -/
  crashCode : U32
  allocated : Cpu → U32
  currentBuffers : Cpu → U32
  fifos : FifoId → Fifo
  endpoints : U32 → Endpoint
  firstPool : SmPtr
  lastPool : SmPtr

/-- Shared memory: the control block, and the records of the rest of the area by offset. -/
structure Sm extends SmControl where
  pools : SmPtr → BufferPool
  buffers : SmPtr → Buffer
  links : Links

/-! ### Sizes of the C structures -/

/-- `sizeof (IPC_SmControl_T)`: the power-saving block, the per-CPU words, the crash words, two
pairs of FIFOs, thirteen endpoints, the pool chain, the persistent data, the properties and the
size. -/
def sizeofSmControl : U32 := 91732

/-- `sizeof (IPC_BufferPool_T)`: twenty-one words and two queue heads. -/
def sizeofBufferPool : U32 := 108

/-- `IPC_BufferOverhead`, which is `sizeof (IPC_Buffer_T)`: twelve words and a queue entry. -/
def bufferOverhead : U32 := 60

/-- `ALIGN4`. -/
def align4 (x : U32) : U32 := (x + 3) &&& ~~~3

/-- `IPC_POOLFreeQ`: the offset of a pool's `FreeBufferQ`. -/
def poolFreeQ (pool : SmPtr) : SmPtr := pool + 4

/-- The offset of a pool's `AllocatedBufferQ`. -/
def poolAllocatedQ (pool : SmPtr) : SmPtr := pool + 16

/-! ### Updates -/

namespace Sm

/-- Replace the pool record at an offset. -/
def setPool (sm : Sm) (pool : SmPtr) (p : BufferPool) : Sm :=
  { sm with pools := update sm.pools pool p }

/-- Replace the buffer descriptor at an offset. -/
def setBuffer (sm : Sm) (buffer : SmPtr) (b : Buffer) : Sm :=
  { sm with buffers := update sm.buffers buffer b }

/-- Replace a FIFO. -/
def setFifo (sm : Sm) (id : FifoId) (f : Fifo) : Sm :=
  { sm with fifos := update sm.fifos id f }

end Sm

/-! ### Initialisation -/

/-- Memory as the boot code leaves it: all zero, but for the endpoints registered in it. -/
def Sm.zero (endpoints : U32 → Endpoint) : Sm where
  size := 0
  initialised _ := .zero
  crashCode := 0
  allocated _ := 0
  currentBuffers _ := 0
  fifos _ := .init fun _ ↦ 0
  endpoints := endpoints
  firstPool := 0
  lastPool := 0
  pools _ := ⟨.cp, 0, 0, .start, false, 0, 0, 0, 0, 0, 0, 0, 0, 0, 0, 0, 0, 0, 0⟩
  buffers _ := ⟨0, 0, 0, 0, 0, 0, 0, .free, 0⟩
  links _ := ⟨0, 0, 0⟩

/-- The part of `IPC_Initialise` that writes shared memory: the area is set up by whichever CPU
comes first, each CPU then resets its own counters and FIFOs. -/
def initialise (sm : Sm) (smSize : U32) (cpu : Cpu) : Sm :=
  let sm := { sm with crashCode := 0 }
  let sm :=
    if sm.initialised cpu.other = .zero then
      { sm with
        size := smSize
        allocated := fun c ↦ match c with
          | .ap => sizeofSmControl
          | .cp => smSize
        firstPool := 0
        lastPool := 0 }
    else sm
  { sm with
    currentBuffers := update sm.currentBuffers cpu 0
    fifos := update
      (update sm.fifos (.free cpu) (.init (sm.fifos (.free cpu)).buffer))
      (.send cpu) (.init (sm.fifos (.send cpu)).buffer)
    initialised := update sm.initialised cpu .initialised }

/-- Both CPUs have run `IPC_Initialise`, `first` before the other. -/
def boot (endpoints : U32 → Endpoint) (smSize : U32) (first : Cpu) : Sm :=
  initialise (initialise (.zero endpoints) smSize first) smSize first.other

/-! ### Allocation -/

/-- `IPC_SmAlloc`: from the bottom up for the applications CPU, from the top down for the
communications CPU. The second comparison comes after the counters have moved. -/
def smAlloc (sm : Sm) (cpu : Cpu) (size : U32) : SmPtr × Sm :=
  if sm.allocated .cp - sm.allocated .ap < size then (0, sm)
  else
    let (ptr, allocated) : SmPtr × (Cpu → U32) :=
      match cpu with
      | .ap => (sm.allocated .ap, update sm.allocated .ap (sm.allocated .ap + size))
      | .cp => (sm.allocated .cp - size, update sm.allocated .cp (sm.allocated .cp - size))
    if allocated .cp < allocated .ap then (0, { sm with allocated := allocated })
    else (ptr, { sm with allocated := allocated })

/-- `IPC_PoolNextPoolSet`. -/
def poolNextPoolSet (sm : Sm) (pool nextPool : SmPtr) : Sm :=
  sm.setPool pool { sm.pools pool with nextPool := nextPool }

/-- `IPC_SmAddPool`. -/
def smAddPool (sm : Sm) (pool : SmPtr) : Sm :=
  let sm := if sm.firstPool = 0 then { sm with firstPool := pool } else sm
  if sm.lastPool = 0 then { sm with lastPool := pool }
  else { poolNextPoolSet sm sm.lastPool pool with lastPool := pool }

/-- `IPC_SmPoolAlloc`: admit a pool of `bufferCount` buffers, or return `0`. -/
def smPoolAlloc (sm : Sm) (cpu : Cpu) (poolOverhead headerSize dataSize bufferCount : U32) :
    SmPtr × Sm :=
  if smMaxBuffers ≤ sm.currentBuffers cpu + bufferCount then (0, sm)
  else
    let (pool, sm) := smAlloc sm cpu
      (poolOverhead + (bufferOverhead + headerSize + dataSize) * bufferCount)
    if pool = 0 then (0, sm)
    else
      let sm := { sm with
        currentBuffers :=
          update sm.currentBuffers cpu (sm.currentBuffers cpu + bufferCount) }
      (pool, smAddPool sm pool)

/-! ### What an allocation can do -/

/-- **A failed or successful `IPC_SmAlloc`** touches the two allocation counters only. -/
theorem smAlloc_eq (sm : Sm) (cpu : Cpu) (size : U32) :
    (smAlloc sm cpu size).2 = { sm with allocated := (smAlloc sm cpu size).2.allocated } := by
  unfold smAlloc
  split
  · rfl
  · cases cpu <;> dsimp only <;> split <;> rfl

variable {cpu : Cpu} {d h n o : U32} {sm : Sm}

/-- A pool that is admitted had room for its buffers, and they are counted. -/
theorem smPoolAlloc_currentBuffers (hne : (smPoolAlloc sm cpu o h d n).1 ≠ 0) :
    sm.currentBuffers cpu + n < smMaxBuffers ∧ (smPoolAlloc sm cpu o h d n).2.currentBuffers =
        update sm.currentBuffers cpu (sm.currentBuffers cpu + n) := by
  unfold smPoolAlloc at hne ⊢
  split at hne
  · exact absurd rfl hne
  · rename_i hlt
    rw [if_neg hlt]
    refine ⟨by simpa using hlt, ?_⟩
    dsimp only at hne ⊢
    split at hne
    · exact absurd rfl hne
    · rename_i hp
      rw [if_neg hp]
      have heq := smAlloc_eq sm cpu (o + (bufferOverhead + h + d) * n)
      simp only [smAddPool, poolNextPoolSet, Sm.setPool]
      split <;> split <;> rw [heq]

/-- A pool that is not admitted is not counted. -/
theorem smPoolAlloc_currentBuffers_of_zero (hzero : (smPoolAlloc sm cpu o h d n).1 = 0) :
    (smPoolAlloc sm cpu o h d n).2.currentBuffers = sm.currentBuffers := by
  unfold smPoolAlloc at hzero ⊢
  split
  · rfl
  · rename_i hlt
    rw [if_neg hlt] at hzero
    have heq := smAlloc_eq sm cpu (o + (bufferOverhead + h + d) * n)
    dsimp only at hzero ⊢
    split at hzero
    · rename_i hp
      rw [if_pos hp, heq]
    · exact absurd hzero ‹_›

theorem smPoolAlloc_fifos (sm : Sm) (cpu : Cpu) (o h d n : U32) :
    (smPoolAlloc sm cpu o h d n).2.fifos = sm.fifos := by
  unfold smPoolAlloc
  split
  · rfl
  · have heq := smAlloc_eq sm cpu (o + (bufferOverhead + h + d) * n)
    dsimp only
    split
    · rw [heq]
    · simp only [smAddPool, poolNextPoolSet, Sm.setPool]
      split <;> split <;> rw [heq]

end Ipc
