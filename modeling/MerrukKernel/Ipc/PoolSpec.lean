import MerrukKernel.Ipc.BufferPool

/-!
# What the pool functions do

One specification for each function of `ipc_bufferpool.c` that takes or returns a buffer, in the
form its callers use: the new shared memory is the old one with the links of one queue, one
descriptor and one pool record replaced. Of the record only two things are said — its
configuration is kept, and the free count moves by one — because nothing outside flow control
looks at the rest.
-/

namespace Ipc

open Function BufferPool

/-! ### Configuration of a pool -/

/-- The part of a pool record that is settled when the pool is created. -/
structure PoolConfig where
  cpu : Cpu
  sourceEndpointId : U32
  destinationEndpointId : U32
  maxDataSize : U32
  maxHeaderSize : U32
  flowStartLimit : U32
  flowStopLimit : U32
  maxBuffers : U32
  bufferFreeFunction : U32

namespace BufferPool

/-- The configuration of a pool. -/
def config (p : BufferPool) : PoolConfig where
  cpu := p.cpu
  sourceEndpointId := p.sourceEndpointId
  destinationEndpointId := p.destinationEndpointId
  maxDataSize := p.maxDataSize
  maxHeaderSize := p.maxHeaderSize
  flowStartLimit := p.flowStartLimit
  flowStopLimit := p.flowStopLimit
  maxBuffers := p.maxBuffers
  bufferFreeFunction := p.bufferFreeFunction

/-- Records that agree on everything but flow control, statistics and the chain of pools. -/
structure SameCount (p q : BufferPool) : Prop where
  config : p.config = q.config
  freeBuffers : p.freeBuffers = q.freeBuffers

theorem SameCount.rfl {p : BufferPool} : p.SameCount p := ⟨.refl _, .refl _⟩

theorem SameCount.trans {p q r : BufferPool} (h : p.SameCount q) (h' : q.SameCount r) :
    p.SameCount r :=
  ⟨h.config.trans h'.config, h.freeBuffers.trans h'.freeBuffers⟩

theorem SameCount.flowStopLimit {p q : BufferPool} (h : p.SameCount q) :
    p.flowStopLimit = q.flowStopLimit :=
  congrArg PoolConfig.flowStopLimit h.config

theorem SameCount.flowStartLimit {p q : BufferPool} (h : p.SameCount q) :
    p.flowStartLimit = q.flowStartLimit :=
  congrArg PoolConfig.flowStartLimit h.config

variable (p : BufferPool)

theorem checkFlowState_sameCount (event : FlowCtrlEvent) :
    (checkFlowState p event).1.SameCount p := by
  unfold checkFlowState
  split
  · split <;> exact ⟨rfl, rfl⟩
  · exact .rfl

theorem reportPass_sameCount (event : FlowCtrlEvent) : (reportPass p event).1.SameCount p := by
  cases event <;> simp only [reportPass] <;> split <;> exact ⟨rfl, rfl⟩

theorem report_sameCount (f : U32) (event : FlowCtrlEvent) : (p.report f event).SameCount p := by
  unfold report
  split
  · exact ⟨rfl, rfl⟩
  · split
    · exact ⟨rfl, rfl⟩
    · exact reportPass_sameCount p event

theorem empty_sameCount : p.empty.SameCount p := ⟨rfl, rfl⟩

theorem take_sameCount : p.take.1.SameCount { p with freeBuffers := p.freeBuffers - 1 } := by
  simp only [take]
  split
  · exact checkFlowState_sameCount _ _
  · exact .rfl

theorem put_sameCount : p.put.1.SameCount { p with freeBuffers := p.freeBuffers + 1 } := by
  simp only [put]
  split
  · exact checkFlowState_sameCount _ _
  · exact .rfl

end BufferPool

/-! ### Shared memory, one pool at a time -/

section

variable (sm : Sm) (pool : SmPtr)
include sm pool

@[simp] theorem Sm.pools_setPool_self (p : BufferPool) : (sm.setPool pool p).pools pool = p := by
  simp [setPool]

@[simp] theorem Sm.setPool_setPool (p q : BufferPool) :
    (sm.setPool pool p).setPool pool q = sm.setPool pool q := by
  simp [setPool]

theorem reportFlowControlEvent_eq (event : FlowCtrlEvent) :
    ∃ q : BufferPool, q.SameCount (sm.pools pool) ∧
      reportFlowControlEvent sm pool event = sm.setPool pool q :=
  ⟨_, report_sameCount _ _ _, rfl⟩

/-- So does a report that may be skipped. -/
theorem report_if_eq (event : FlowCtrlEvent) (needed : Bool) (p : BufferPool) :
    ∃ q : BufferPool, q.SameCount p ∧
      (if needed then reportFlowControlEvent (sm.setPool pool p) pool event
        else sm.setPool pool p) = sm.setPool pool q := by
  cases needed with
  | false => exact ⟨p, .rfl, rfl⟩
  | true =>
    obtain ⟨q, hq, heq⟩ := reportFlowControlEvent_eq (sm.setPool pool p) pool event
    exact ⟨q, by simpa using hq, by simp [heq]⟩

end

variable {sm : Sm} {pool : SmPtr}

/-! ### The critical regions -/

theorem allocateRegion_nil (h : IsQueue sm.links (poolFreeQ pool) []) :
    allocateRegion sm pool = ⟨sm.setPool pool (sm.pools pool).empty, 0, 0, false⟩ := by
  simp only [allocateRegion, qGetFirst_nil h, if_true]

theorem allocateRegion_cons {x : SmPtr} {xs : List SmPtr}
    (h : IsQueue sm.links (poolFreeQ pool) (x :: xs)) (hx : x ≠ 0) :
    allocateRegion sm pool =
      ⟨{ sm with links := (qGetFirst sm.links (poolFreeQ pool)).2 }.setPool pool
          (sm.pools pool).take.1,
        x, (sm.pools pool).freeBuffers - 1, (sm.pools pool).take.2⟩ := by
  simp only [allocateRegion, h.qGetFirst.1, if_neg hx]

/-! ### The calls -/

/-- **Allocating from an empty pool** returns `0` and touches the pool record only. -/
theorem allocateBuffer_nil (hpool : pool ≠ 0) (h : IsQueue sm.links (poolFreeQ pool) []) :
    ∃ p : BufferPool, p.SameCount (sm.pools pool) ∧
      allocateBuffer sm pool = (0, sm.setPool pool p) := by
  refine ⟨_, empty_sameCount _, ?_⟩
  simp only [allocateBuffer, if_neg hpool, allocateRegion_nil h, if_true]

/-- **Allocating** hands out the oldest free buffer and counts it. -/
theorem allocateBuffer_cons (hpool : pool ≠ 0) {x : SmPtr} {xs : List SmPtr}
    (h : IsQueue sm.links (poolFreeQ pool) (x :: xs)) (hx : x ≠ 0)
    (hitem : sm.links.item x = x) :
    ∃ (p : BufferPool) (maxHeaderSize : U32),
      p.SameCount { sm.pools pool with freeBuffers := (sm.pools pool).freeBuffers - 1 } ∧
      allocateBuffer sm pool = (x, { sm with
          links := (qGetFirst sm.links (poolFreeQ pool)).2
          buffers := update sm.buffers x ((sm.buffers x).allocated maxHeaderSize)
          pools := update sm.pools pool p }) := by
  obtain ⟨q, hq, heq⟩ := report_if_eq
    { sm with links := (qGetFirst sm.links (poolFreeQ pool)).2 } pool .stop
    (sm.pools pool).take.2 (sm.pools pool).take.1
  refine ⟨q.countAllocation ((sm.pools pool).freeBuffers - 1),
    (update sm.pools pool q (sm.buffers x).pool).maxHeaderSize,
    .trans (q := q) ⟨rfl, rfl⟩ (hq.trans (take_sameCount _)), ?_⟩
  unfold allocateBuffer
  rw [if_neg hpool, allocateRegion_cons h hx]
  rw [if_neg hx, heq]
  simp only [Sm.setPool, item_qGetFirst, hitem, if_neg hx, Sm.setBuffer, update_self, update_idem]

/-- **Returning a buffer** queues it at the back and counts it. -/
theorem bufferReturnToPool_eq (sm : Sm) (buffer pool : SmPtr) : ∃ p : BufferPool,
      p.SameCount { sm.pools pool with freeBuffers := (sm.pools pool).freeBuffers + 1 } ∧
      bufferReturnToPool sm buffer pool = { sm with
          links := qAddBack sm.links buffer (poolFreeQ pool)
          pools := update sm.pools pool p } := by
  obtain ⟨q, hq, heq⟩ := report_if_eq
    { sm with links := qAddBack sm.links buffer (poolFreeQ pool) } pool .start
    (sm.pools pool).put.2 (sm.pools pool).put.1
  obtain ⟨r, hr, hreq⟩ := report_if_eq
    { sm with links := qAddBack sm.links buffer (poolFreeQ pool) } pool .start
    (q.lastDitch ((sm.pools pool).freeBuffers + 1)) q
  refine ⟨r, hr.trans (hq.trans (put_sameCount _)), ?_⟩
  unfold bufferReturnToPool returnRegion bufferQueue
  dsimp only
  rw [heq, Sm.pools_setPool_self, hreq, Sm.setPool]

end Ipc
