import MerrukKernel.Ipc.SharedMemory

/-!
# Buffer pools

The pool half of the IPC layer (`ipc_bufferpool.c`): creating a pool, taking a buffer from it and
putting one back, with the flow control the two latter drive.

Taking and putting back are each a **critical region** followed by unprotected code. The regions are
definitions of their own (`allocateRegion`, `returnRegion`), because the flow control results are
about arbitrary interleavings of them; the functions a client calls (`allocateBuffer`,
`bufferReturnToPool`) run a region and the rest of the call in one go.

Flow control is edge-triggered. A region that moves the free count onto a limit switches the state
(`checkFlowState`), and asks its caller to report the change unless some context is already
reporting. One pass of the reporting loop is `reportPass`.
-/

namespace Ipc

/-! ### Flow control -/

/-- `CHECK_FLOW_STATE`: switch the state; the second component is `REPORT_NEEDED`. -/
def checkFlowState (p : BufferPool) (newState : FlowCtrlEvent) : BufferPool × Bool :=
  if p.flowControlState ≠ newState then
    if p.flowControlCallPending then ({ p with flowControlState := newState }, false)
    else ({ p with flowControlState := newState, flowControlCallPending := true }, true)
  else (p, false)

/-- One pass of the loop of `IPC_ReportFlowControlEvent`: count the call, make it, and compare what
was reported with the state. `some` is the state to report in the next pass; `none` ends the loop,
with the pending flag cleared. -/
def reportPass (p : BufferPool) (reported : FlowCtrlEvent) : BufferPool × Option FlowCtrlEvent :=
  let p := match reported with
    | .start => { p with flowStartCalls := p.flowStartCalls + 1 }
    | .stop => { p with flowStopCalls := p.flowStopCalls + 1 }
  if reported = p.flowControlState then ({ p with flowControlCallPending := false }, none)
  else (p, some p.flowControlState)

/-- `IPC_ReportFlowControlEvent` on a pool record, run to completion with nothing else touching the
pool: the state the first pass reports is then the state it compares with, and the loop ends there
(`reportPass_of_eq`). -/
def BufferPool.report (p : BufferPool) (flowControlFunction : U32) (event : FlowCtrlEvent) :
    BufferPool :=
  if flowControlFunction = 0 then { p with flowControlCallPending := false }
  -- the state has already changed back: the change is not reported
  else if event ≠ p.flowControlState then { p with flowControlCallPending := false }
  else (reportPass p event).1

/-- `IPC_ReportFlowControlEvent`. -/
def reportFlowControlEvent (sm : Sm) (pool : SmPtr) (event : FlowCtrlEvent) : Sm :=
  let p := sm.pools pool
  sm.setPool pool (p.report (sm.endpoints p.sourceEndpointId).flowControlFunction event)

/-! ### Taking a buffer -/

/-- The counting half of the critical region of `IPC_AllocateBuffer`, on the pool record. The second
component is `FlowControlCallNeeded`. -/
def BufferPool.take (p : BufferPool) : BufferPool × Bool :=
  let p := { p with freeBuffers := p.freeBuffers - 1 }
  if p.freeBuffers = p.flowStopLimit then checkFlowState p .stop else (p, false)

/-- What the region writes to the record of an empty pool. -/
def BufferPool.empty (p : BufferPool) : BufferPool :=
  { p with flowControlState := .stop, allocationFailures := p.allocationFailures + 1 }

/-- What the critical region of `IPC_AllocateBuffer` leaves behind. -/
structure AllocateRegion where
  sm : Sm
  /-- The unlinked queue entry, `0` when the pool was empty. -/
  qElement : SmPtr
  bufferCount : U32
  flowControlCallNeeded : Bool

/-- The critical region of `IPC_AllocateBuffer`. -/
def allocateRegion (sm : Sm) (pool : SmPtr) : AllocateRegion :=
  let qElement := (qGetFirst sm.links (poolFreeQ pool)).1
  let sm := { sm with links := (qGetFirst sm.links (poolFreeQ pool)).2 }
  let p := sm.pools pool
  if qElement = 0 then ⟨sm.setPool pool p.empty, 0, 0, false⟩
  else ⟨sm.setPool pool p.take.1, qElement, p.freeBuffers - 1, p.take.2⟩

/-- The descriptor of a buffer as `IPC_AllocateBuffer` hands it out. -/
def Buffer.allocated (b : Buffer) (maxHeaderSize : U32) : Buffer :=
  { b with
    headerSize := 0
    dataSize := 0
    userParameter := 0
    statusCode := .alloc
    dataOffset := b.dataBufferStart + maxHeaderSize }

/-- The statistics `IPC_AllocateBuffer` updates last. -/
def BufferPool.countAllocation (p : BufferPool) (bufferCount : U32) : BufferPool :=
  { p with
    allocations := p.allocations + 1
    lowWaterMark := if bufferCount < p.lowWaterMark then bufferCount else p.lowWaterMark }

/-- `IPC_AllocateBuffer`. -/
def allocateBuffer (sm : Sm) (pool : SmPtr) : SmPtr × Sm :=
  if pool = 0 then (0, sm)
  else
    let r := allocateRegion sm pool
    if r.qElement = 0 then (0, r.sm)
    else
      let sm := if r.flowControlCallNeeded then reportFlowControlEvent r.sm pool .stop else r.sm
      let buffer := sm.links.item r.qElement
      let b := sm.buffers buffer
      let sm := if buffer = 0 then sm
        else sm.setBuffer buffer (b.allocated (sm.pools b.pool).maxHeaderSize)
      (buffer, sm.setPool pool ((sm.pools pool).countAllocation r.bufferCount))

/-! ### Putting a buffer back -/

/-- The counting half of the critical region of `IPC_BufferReturnToPool`, on the pool record. -/
def BufferPool.put (p : BufferPool) : BufferPool × Bool :=
  let p := { p with freeBuffers := p.freeBuffers + 1 }
  if p.freeBuffers = p.flowStartLimit then checkFlowState p .start else (p, false)

/-- What the critical region of `IPC_BufferReturnToPool` leaves behind. -/
structure ReturnRegion where
  sm : Sm
  bufferCount : U32
  flowControlCallNeeded : Bool

/-- `IPC_BufferQueue`: the queue entry is the first member of the descriptor. -/
def bufferQueue (buffer : SmPtr) : SmPtr := buffer

/-- The critical region of `IPC_BufferReturnToPool`. -/
def returnRegion (sm : Sm) (buffer pool : SmPtr) : ReturnRegion :=
  let p := sm.pools pool
  let sm := { sm with links := qAddBack sm.links (bufferQueue buffer) (poolFreeQ pool) }
  ⟨sm.setPool pool p.put.1, p.freeBuffers + 1, p.put.2⟩

/-- The test of the "last ditch check" of `IPC_BufferReturnToPool`. -/
def BufferPool.lastDitch (p : BufferPool) (bufferCount : U32) : Bool :=
  p.flowControlState = .stop ∧ ¬ p.flowControlCallPending ∧ p.flowStartLimit < bufferCount

/-- `IPC_BufferReturnToPool`. -/
def bufferReturnToPool (sm : Sm) (buffer pool : SmPtr) : Sm :=
  let r := returnRegion sm buffer pool
  let sm := if r.flowControlCallNeeded then reportFlowControlEvent r.sm pool .start else r.sm
  if (sm.pools pool).lastDitch r.bufferCount then reportFlowControlEvent sm pool .start else sm

/-- `IPC_BufferReturn`. A pool with a free callback hands the buffer to the callback, which returns
it later by `IPC_BufferDone`. -/
def bufferReturn (sm : Sm) (buffer pool : SmPtr) : Sm :=
  if (sm.pools pool).bufferFreeFunction = 0 then bufferReturnToPool sm buffer pool else sm

/-! ### Creating a pool -/

/-- `IPC_BufferReset`. -/
def bufferReset (sm : Sm) (buffer : SmPtr) : Sm :=
  let b := sm.buffers buffer
  sm.setBuffer buffer { b with
    headerSize := 0
    dataSize := 0
    userParameter := 0
    dataOffset := b.dataBufferStart + (sm.pools b.pool).maxHeaderSize }

/-- `IPC_BufferInitialise`; returns the offset of the next buffer. -/
def bufferInitialise (sm : Sm) (pool buffer : SmPtr) (id headerSize dataSize : U32) : SmPtr × Sm :=
  let start := buffer + bufferOverhead
  let sm := sm.setBuffer buffer { sm.buffers buffer with
    pool := pool
    dataBufferStart := start
    dataOffset := start + headerSize
    bufferId := id }
  let sm := { sm with links := sm.links.setItem (bufferQueue buffer) buffer }
  (buffer + bufferOverhead + headerSize + dataSize, bufferReset sm buffer)

/-- The body of the loop of `IPC_CreateBufferPoolWithDescriptor`: the buffer is queued before its
descriptor is filled in. -/
def placeBuffer (sm : Sm) (pool buffer : SmPtr) (id localData maxHeaderSize maxDataSize : U32) :
    SmPtr × Sm :=
  let sm := sm.setBuffer buffer { sm.buffers buffer with localData := localData }
  let sm := { sm with links := qAddBack sm.links buffer (poolFreeQ pool) }
  bufferInitialise sm pool buffer id maxHeaderSize maxDataSize

/-- The loop of `IPC_CreateBufferPoolWithDescriptor`, for the `n` buffers from `buffer` on. -/
def placeBuffers (pool : SmPtr) (maxHeaderSize maxDataSize localDescriptorSize : U32) :
    ℕ → (id : U32) → (buffer : SmPtr) → (localData : U32) → Sm → Sm
  | 0, _, _, _, sm => sm
  | n + 1, id, buffer, localData, sm =>
    let r := placeBuffer sm pool buffer id localData maxHeaderSize maxDataSize
    placeBuffers pool maxHeaderSize maxDataSize localDescriptorSize n (id + 1) r.1
      (localData + localDescriptorSize) r.2

/-- The arguments of `IPC_CreateBufferPool`. -/
structure PoolArgs where
  sourceEndpointId : U32
  destinationEndpointId : U32
  numberOfBuffers : U32
  bufferSize : U32
  flowStartLimit : U32
  flowStopLimit : U32

/-- The pool record `IPC_CreateBufferPoolWithDescriptor` writes. -/
def PoolArgs.record (args : PoolArgs) (cpu : Cpu) (maxHeaderSize : U32) : BufferPool where
  cpu := cpu
  sourceEndpointId := args.sourceEndpointId
  destinationEndpointId := args.destinationEndpointId
  flowControlState := .start
  flowControlCallPending := false
  nextPool := 0
  maxDataSize := align4 args.bufferSize
  maxHeaderSize := maxHeaderSize
  flowStartLimit := args.flowStartLimit
  flowStopLimit := args.flowStopLimit
  freeBuffers := args.numberOfBuffers
  maxBuffers := args.numberOfBuffers
  lowWaterMark := args.numberOfBuffers
  bufferFreeFunction := 0
  allocations := 0
  allocationFailures := 0
  flowStartCalls := 0
  flowStopCalls := 0
  bytesSent := 0

/-- The second half of `IPC_CreateBufferPoolWithDescriptor`: write the record of a pool that has its
memory, and place its buffers. -/
def setUpPool (sm : Sm) (cpu : Cpu) (args : PoolArgs) (maxHeaderSize : U32) (pool : SmPtr)
    (localDescriptorSize localData : U32) : Sm :=
  let sm := sm.setPool pool (args.record cpu maxHeaderSize)
  let links := qInitialise sm.links (poolFreeQ pool) pool
  let links := qInitialise links (poolAllocatedQ pool) pool
  placeBuffers pool maxHeaderSize (align4 args.bufferSize) localDescriptorSize
    args.numberOfBuffers.toNat 0 (pool + sizeofBufferPool) localData { sm with links := links }

/-- `IPC_CreateBufferPoolWithDescriptor`, called on `cpu`; `kmalloc` is the pointer the allocation
of the local descriptors yields. -/
def createBufferPoolWithDescriptor (sm : Sm) (cpu : Cpu) (args : PoolArgs)
    (localDescriptorSize kmalloc : U32) : SmPtr × Sm :=
  if args.numberOfBuffers = 0 then (0, sm)
  else if args.numberOfBuffers < args.flowStartLimit then (0, sm)
  else if args.numberOfBuffers ≤ args.flowStopLimit then (0, sm)
  else
    let maxHeaderSize := (sm.endpoints args.destinationEndpointId).maxHeaderSize
    let r := smPoolAlloc sm cpu sizeofBufferPool maxHeaderSize (align4 args.bufferSize)
      args.numberOfBuffers
    if r.1 = 0 then (0, r.2)
    else if localDescriptorSize ≠ 0 ∧ kmalloc = 0 then (0, r.2)
    else (r.1, setUpPool r.2 cpu args maxHeaderSize r.1 localDescriptorSize
      (if localDescriptorSize = 0 then 0 else kmalloc))

/-- `IPC_CreateBufferPool`. -/
def createBufferPool (sm : Sm) (cpu : Cpu) (args : PoolArgs) : SmPtr × Sm :=
  createBufferPoolWithDescriptor sm cpu args 0 0

/-- The buffers of a pool, as the creation loop places them. -/
def bufferChain (stride : U32) : ℕ → SmPtr → List SmPtr
  | 0, _ => []
  | n + 1, buffer => buffer :: bufferChain stride n (buffer + stride)

@[simp] theorem length_bufferChain (stride : U32) (n : ℕ) (buffer : SmPtr) :
    (bufferChain stride n buffer).length = n := by
  induction n generalizing buffer with
  | zero => rfl
  | succ n ih => simp [bufferChain, ih]

end Ipc
