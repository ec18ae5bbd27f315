import MerrukKernel.Library.Trace
import MerrukKernel.Ipc.PoolLayout

/-!
# Flow control: the hysteresis

A pool switches to `stop` when its free count falls onto `FlowStopLimit` and back to `start` when it
rises onto `FlowStartLimit`. The tests are for equality, so a limit that was stepped over would be
missed for good; and on an empty pool the state is assigned without any test. That no limit is ever
missed is a joint invariant of counter, limits and state (`BufferPool.Hysteresis`).

The two critical regions keep it, as long as the free queue is the ring the counter counts
(`PoolInv`). They are run here in any order, as atomic steps. The ring survives only if what is
returned is out: counting returns against allocations does not suffice, since a buffer returned
twice in a row is linked to itself and the queue never empties again.
-/

open List

namespace Ipc

/-! ### The pool record -/

namespace BufferPool

/-- **Hysteresis**: above the stop limit while started, below the start limit while stopped. -/
structure Hysteresis (p : BufferPool) : Prop where
  start : p.flowControlState = .start → p.flowStopLimit < p.freeBuffers
  stop : p.flowControlState = .stop → p.freeBuffers < p.flowStartLimit

variable {p : BufferPool}

theorem checkFlowState_state (p : BufferPool) (event : FlowCtrlEvent) :
    (checkFlowState p event).1.flowControlState = event := by
  unfold checkFlowState
  split
  · split <;> rfl
  · rename_i h
    simpa using h

theorem Hysteresis.take (h : p.Hysteresis) (hlimits : p.flowStopLimit < p.flowStartLimit)
    (hpos : 0 < p.freeBuffers.toNat) : p.take.1.Hysteresis := by
  have hcount := p.take_sameCount
  have hstop : p.take.1.flowStopLimit = p.flowStopLimit := hcount.flowStopLimit
  have hstart : p.take.1.flowStartLimit = p.flowStartLimit := hcount.flowStartLimit
  have hfree : p.take.1.freeBuffers = p.freeBuffers - 1 := hcount.freeBuffers
  by_cases hhit : p.freeBuffers - 1 = p.flowStopLimit
  · have hstate : p.take.1.flowControlState = .stop := by
      simp only [BufferPool.take, hhit, if_true, checkFlowState_state]
    refine ⟨fun hs ↦ ?_, fun _ ↦ ?_⟩
    · rw [hstate] at hs
      cases hs
    · rw [hfree, hstart, hhit]
      exact hlimits
  · have hstate : p.take.1.flowControlState = p.flowControlState := by
      simp only [BufferPool.take, hhit, if_false]
    refine ⟨fun hs ↦ ?_, fun hs ↦ ?_⟩
    · have := h.start (hstate ▸ hs)
      bv_omega
    · have := h.stop (hstate ▸ hs)
      bv_omega

theorem Hysteresis.put (h : p.Hysteresis) (hlimits : p.flowStopLimit < p.flowStartLimit)
    (hmax : p.freeBuffers.toNat + 1 < 2 ^ 32) : p.put.1.Hysteresis := by
  have hcount := p.put_sameCount
  have hstop : p.put.1.flowStopLimit = p.flowStopLimit := hcount.flowStopLimit
  have hstart : p.put.1.flowStartLimit = p.flowStartLimit := hcount.flowStartLimit
  have hfree : p.put.1.freeBuffers = p.freeBuffers + 1 := hcount.freeBuffers
  by_cases hhit : p.freeBuffers + 1 = p.flowStartLimit
  · have hstate : p.put.1.flowControlState = .start := by
      simp only [BufferPool.put, hhit, if_true, checkFlowState_state]
    refine ⟨fun _ ↦ ?_, fun hs ↦ ?_⟩
    · rw [hfree, hstop, hhit]
      exact hlimits
    · rw [hstate] at hs
      cases hs
  · have hstate : p.put.1.flowControlState = p.flowControlState := by
      simp only [BufferPool.put, hhit, if_false]
    refine ⟨fun hs ↦ ?_, fun hs ↦ ?_⟩
    · have := h.start (hstate ▸ hs)
      bv_omega
    · have := h.stop (hstate ▸ hs)
      bv_omega

/-- **An empty pool has stopped**, so the assignment on the empty path changes nothing. -/
theorem Hysteresis.state_of_empty (h : p.Hysteresis) (hzero : p.freeBuffers.toNat = 0) :
    p.flowControlState = .stop := by
  cases hs : p.flowControlState with
  | stop => rfl
  | start =>
    have := h.start hs
    bv_omega

theorem Hysteresis.congr {q : BufferPool} (h : p.Hysteresis) (hq : q.SameCount p)
    (hstate : q.flowControlState = p.flowControlState) : q.Hysteresis := by
  refine ⟨fun hs ↦ ?_, fun hs ↦ ?_⟩
  · rw [hq.flowStopLimit, hq.freeBuffers]
    exact h.start (hstate ▸ hs)
  · rw [hq.flowStartLimit, hq.freeBuffers]
    exact h.stop (hstate ▸ hs)

end BufferPool

/-! ### One pool in shared memory -/

/-- A pool as its creation leaves it, with the free buffers `bufs`. -/
structure FreshPool (sm : Sm) (pool : SmPtr) (bufs : List SmPtr) : Prop where
  queue : IsQueue sm.links (poolFreeQ pool) bufs
  nonzero : 0 ∉ bufs
  freeBuffers : (sm.pools pool).freeBuffers.toNat = bufs.length
  stop_lt : (sm.pools pool).flowStopLimit < (sm.pools pool).freeBuffers
  state : (sm.pools pool).flowControlState = .start
  pending : (sm.pools pool).flowControlCallPending = false

/-- The pool has just been created by `IPC_CreateBufferPool`, on allocation counters in order, and
its bytes can be counted in 32 bits. -/
structure JustCreated (sm₀ sm : Sm) (cpu : Cpu) (pool : SmPtr) (args : PoolArgs) : Prop where
  base : 0 < (sm₀.allocated .ap).toNat
  gap : (sm₀.allocated .ap).toNat ≤ (sm₀.allocated .cp).toNat
  bytes : (args.config sm₀ cpu).bytes < 2 ^ 32
  create : createBufferPool sm₀ cpu args = (pool, sm)
  pool_ne : pool ≠ 0

theorem JustCreated.fresh {sm₀ sm : Sm} {cpu : Cpu} {pool : SmPtr} {args : PoolArgs}
    (h : JustCreated sm₀ sm cpu pool args) :
    FreshPool sm pool ((args.config sm₀ cpu).buffers pool) := by
  rcases createBufferPool_cases h.base h.gap h.bytes with heq | ⟨pool', sm', heq, hc, -⟩
  · exact absurd (congrArg Prod.fst (h.create.symm.trans heq)) h.pool_ne
  · cases h.create.symm.trans heq
    refine ⟨hc.queue, fun hzero ↦ ?_, ?_, ?_, ?_, ?_⟩
    · exact absurd (hc.fits.mem_buffers hzero).1 (by simp)
    · rw [hc.record, PoolConfig.length_buffers]
      rfl
    · rw [hc.record]
      exact hc.stop_lt
    · rw [hc.record]
      rfl
    · rw [hc.record]
      rfl

/-- The invariant of a pool with buffers `bufs`, of which `xs` are free. -/
structure PoolInv (sm : Sm) (pool : SmPtr) (bufs xs : List SmPtr) : Prop where
  queue : IsQueue sm.links (poolFreeQ pool) xs
  subset : ∀ b ∈ xs, b ∈ bufs
  count : (sm.pools pool).freeBuffers.toNat = xs.length
  limits : (sm.pools pool).flowStopLimit < (sm.pools pool).flowStartLimit
  hysteresis : (sm.pools pool).Hysteresis
  /-- The buffers are distinct offsets, none of them null or the queue head. -/
  nodup : (poolFreeQ pool :: bufs).Nodup
  nonzero : 0 ∉ bufs
  length_lt : bufs.length < 2 ^ 32

namespace PoolInv

variable {sm : Sm} {pool : SmPtr} {bufs xs : List SmPtr}

theorem of_fresh (h : FreshPool sm pool bufs)
    (hlimits : (sm.pools pool).flowStopLimit < (sm.pools pool).flowStartLimit) :
    PoolInv sm pool bufs bufs where
  queue := h.queue
  subset _ hb := hb
  count := h.freeBuffers
  limits := hlimits
  hysteresis := by
    refine ⟨fun _ ↦ h.stop_lt, fun hs ↦ ?_⟩
    · rw [h.state] at hs
      cases hs
  nodup := h.queue.nodup
  nonzero := h.nonzero
  length_lt := h.freeBuffers ▸ BitVec.isLt _

/-- The record may change in what the invariant does not look at. -/
theorem setPool (h : PoolInv sm pool bufs xs) {p : BufferPool} (hp : p.SameCount (sm.pools pool))
    (hhyst : p.Hysteresis) : PoolInv (sm.setPool pool p) pool bufs xs := by
  refine ⟨h.queue, h.subset, ?_, ?_, ?_, h.nodup, h.nonzero, h.length_lt⟩
  · rw [Sm.pools_setPool_self, hp.freeBuffers]
    exact h.count
  · rw [Sm.pools_setPool_self, hp.flowStopLimit, hp.flowStartLimit]
    exact h.limits
  · rw [Sm.pools_setPool_self]
    exact hhyst

/-- While a buffer is out, not all are free. -/
theorem length_lt_of_not_mem (h : PoolInv sm pool bufs xs) {b : SmPtr} (hb : b ∈ bufs)
    (hnew : b ∉ xs) : xs.length < bufs.length := by
  have hxs : xs.Nodup := (nodup_cons.1 h.queue.nodup).2
  have hsub : b :: xs ⊆ bufs := cons_subset.2 ⟨hb, h.subset⟩
  exact (subperm_of_subset (nodup_cons.2 ⟨hnew, hxs⟩) hsub).length_le

theorem allocate_nil (h : PoolInv sm pool bufs []) :
    allocateRegion sm pool = ⟨sm.setPool pool (sm.pools pool).empty, 0, 0, false⟩ ∧
      (sm.pools pool).empty.flowControlState = (sm.pools pool).flowControlState ∧
      PoolInv (allocateRegion sm pool).sm pool bufs [] := by
  have hstate : (sm.pools pool).empty.flowControlState = (sm.pools pool).flowControlState :=
    (h.hysteresis.state_of_empty h.count).symm
  rw [allocateRegion_nil h.queue]
  exact ⟨rfl, hstate, h.setPool (BufferPool.empty_sameCount _)
    (h.hysteresis.congr (BufferPool.empty_sameCount _) hstate)⟩

theorem allocate_cons {x : SmPtr} (h : PoolInv sm pool bufs (x :: xs)) : allocateRegion sm pool =
        ⟨{ sm with links := (qGetFirst sm.links (poolFreeQ pool)).2 }.setPool pool
            (sm.pools pool).take.1,
          x, (sm.pools pool).freeBuffers - 1, (sm.pools pool).take.2⟩ ∧
      PoolInv (allocateRegion sm pool).sm pool bufs xs := by
  have hx : x ≠ 0 := fun heq ↦ h.nonzero (heq ▸ h.subset x (by simp))
  have hcount := (sm.pools pool).take_sameCount
  have hpos : 0 < (sm.pools pool).freeBuffers.toNat := by
    rw [h.count]
    simp
  rw [allocateRegion_cons h.queue hx]
  refine ⟨rfl, h.queue.qGetFirst.2, fun b hb ↦ h.subset b (mem_cons_of_mem _ hb), ?_, ?_, ?_,
    h.nodup, h.nonzero, h.length_lt⟩
  · rw [Sm.pools_setPool_self, hcount.freeBuffers]
    have := h.count
    simp only [length_cons] at this
    bv_omega
  · rw [Sm.pools_setPool_self, hcount.flowStopLimit, hcount.flowStartLimit]
    exact h.limits
  · rw [Sm.pools_setPool_self]
    exact h.hysteresis.take h.limits hpos

theorem giveBack (h : PoolInv sm pool bufs xs) {b : SmPtr} (hb : b ∈ bufs) (hnew : b ∉ xs) :
    PoolInv (returnRegion sm b pool).sm pool bufs (xs ++ [b]) := by
  have hlen : xs.length + 1 < 2 ^ 32 :=
    (Nat.succ_le_of_lt (h.length_lt_of_not_mem hb hnew)).trans_lt h.length_lt
  have hcount := (sm.pools pool).put_sameCount
  have hne : b ∉ poolFreeQ pool :: xs := by
    simp only [mem_cons, not_or]
    exact ⟨fun heq ↦ (nodup_cons.1 h.nodup).1 (heq ▸ hb), hnew⟩
  unfold returnRegion bufferQueue
  refine ⟨h.queue.qAddBack hne, fun a ha ↦ ?_, ?_, ?_, ?_, h.nodup, h.nonzero, h.length_lt⟩
  · rcases mem_append.1 ha with ha | ha
    · exact h.subset a ha
    · rw [mem_singleton.1 ha]
      exact hb
  · rw [Sm.pools_setPool_self, hcount.freeBuffers, length_append, length_singleton]
    have := h.count
    bv_omega
  · rw [Sm.pools_setPool_self, hcount.flowStopLimit, hcount.flowStartLimit]
    exact h.limits
  · rw [Sm.pools_setPool_self]
    exact h.hysteresis.put h.limits (by rw [h.count]; exact hlen)

end PoolInv

/-! ### Runs of the critical regions -/

/-- A pool with the history of what was taken from it and returned to it. -/
structure PoolRun where
  sm : Sm
  taken : List SmPtr
  returned : List SmPtr

/-- One critical region. -/
inductive RegionOp
  | allocate
  /-- That of `IPC_BufferReturnToPool`. -/
  | giveBack (buffer : SmPtr)

namespace PoolRun

/-- Run a region on the pool at `pool`. -/
def exec (pool : SmPtr) (c : PoolRun) : RegionOp → PoolRun
  | .allocate =>
    let r := allocateRegion c.sm pool
    { c with sm := r.sm, taken := if r.qElement = 0 then c.taken else c.taken ++ [r.qElement] }
  | .giveBack buffer =>
    { c with sm := (returnRegion c.sm buffer pool).sm, returned := c.returned ++ [buffer] }

/-- What is returned is out: it was taken more often than returned. -/
def outstanding (pool : SmPtr) : Machine PoolRun RegionOp where
  guard c op := match op with
    | .allocate => True
    | .giveBack buffer => c.returned.count buffer < c.taken.count buffer
  exec := exec pool

/-- What is returned was taken once, and there are no more returns than allocations. -/
def counted (pool : SmPtr) : Machine PoolRun RegionOp where
  guard c op := match op with
    | .allocate => True
    | .giveBack buffer => buffer ∈ c.taken ∧ c.returned.length < c.taken.length
  exec := exec pool

instance (pool : SmPtr) (c : PoolRun) : ∀ op, Decidable ((outstanding pool).guard c op)
  | .allocate => inferInstanceAs (Decidable True)
  | .giveBack _ => inferInstanceAs (Decidable (_ < _))

instance (pool : SmPtr) (c : PoolRun) : ∀ op, Decidable ((counted pool).guard c op)
  | .allocate => inferInstanceAs (Decidable True)
  | .giveBack _ => inferInstanceAs (Decidable (_ ∧ _))

/-- The pool is well, and a buffer is out exactly when it is not free. -/
def Inv (pool : SmPtr) (bufs : List SmPtr) (c : PoolRun) : Prop :=
  ∃ xs, PoolInv c.sm pool bufs xs ∧
    ∀ b, c.taken.count b = c.returned.count b + if b ∈ bufs ∧ b ∉ xs then 1 else 0

variable {pool : SmPtr} {bufs : List SmPtr} {c : PoolRun}

/-- **One region keeps the invariant.** -/
theorem Inv.step (h : Inv pool bufs c) {op : RegionOp} (hg : (outstanding pool).guard c op) :
    Inv pool bufs (exec pool c op) := by
  obtain ⟨xs, hinv, hcount⟩ := h
  cases op with
  | allocate =>
    cases xs with
    | nil =>
      obtain ⟨heq, -, hinv'⟩ := hinv.allocate_nil
      refine ⟨[], hinv', fun b ↦ ?_⟩
      simpa only [exec, heq, if_true] using hcount b
    | cons x xs =>
      obtain ⟨heq, hinv'⟩ := hinv.allocate_cons
      have hx : x ∈ bufs := hinv.subset x (by simp)
      have hx0 : x ≠ 0 := fun h0 ↦ hinv.nonzero (h0 ▸ hx)
      have hxs : x ∉ xs := by grind [hinv.queue.nodup]
      refine ⟨xs, hinv', fun b ↦ ?_⟩
      have := hcount b
      simp only [exec, heq, if_neg hx0]
      rcases eq_or_ne b x with rfl | hne
      · simp_all
      · simpa [hne, hne.symm] using this
  | giveBack buffer =>
    have hg' : c.returned.count buffer < c.taken.count buffer := hg
    have hout : buffer ∈ bufs ∧ buffer ∉ xs := by grind
    refine ⟨xs ++ [buffer], hinv.giveBack hout.1 hout.2, fun b ↦ ?_⟩
    have := hcount b
    simp only [exec]
    rcases eq_or_ne b buffer with rfl | hne
    · simp_all
    · simpa [hne, hne.symm] using this

/-- The state of a pool nothing was taken from yet. -/
def start (sm : Sm) : PoolRun := ⟨sm, [], []⟩

theorem Inv.of_fresh {sm : Sm} (h : FreshPool sm pool bufs)
    (hlimits : (sm.pools pool).flowStopLimit < (sm.pools pool).flowStartLimit) :
    Inv pool bufs (start sm) := by
  refine ⟨bufs, PoolInv.of_fresh h hlimits, fun b ↦ ?_⟩
  simp [start]

/-- **Hysteresis, in every order of the regions** on a pool just created: while the state is `start`
the free count is above the stop limit, while it is `stop` the free count is below the start limit,
and an allocation region that finds the pool empty leaves the state as it is. -/
theorem hysteresis_of_outstanding {sm₀ sm : Sm} {cpu : Cpu} {args : PoolArgs}
    (hnew : JustCreated sm₀ sm cpu pool args)
    (hlimits : (sm.pools pool).flowStopLimit < (sm.pools pool).flowStartLimit) {ops : List RegionOp}
    (h : (outstanding pool).Runs (start sm) ops c) :
    (c.sm.pools pool).Hysteresis ∧ ((allocateRegion c.sm pool).qElement = 0 →
        ((allocateRegion c.sm pool).sm.pools pool).flowControlState =
          (c.sm.pools pool).flowControlState) := by
  obtain ⟨xs, hinv, -⟩ := h.invariant (fun _ _ hs hg ↦ hs.step hg)
    (Inv.of_fresh hnew.fresh hlimits)
  refine ⟨hinv.hysteresis, fun hempty ↦ ?_⟩
  cases xs with
  | nil => grind [hinv.allocate_nil, Sm.pools_setPool_self]
  | cons x xs =>
    obtain ⟨heq, -⟩ := hinv.allocate_cons
    rw [heq] at hempty
    exact absurd (hempty ▸ hinv.subset x (by simp)) hinv.nonzero

/-- Shared memory before any pool is created. -/
def noPools : Sm := boot (fun _ ↦ ⟨.cp, 1, 0⟩) 131072 .ap

/-- Shared memory with one pool of two buffers, at the offsets `91840` and `91904`, which stops at
no free buffer and starts at one. -/
def twoBuffers : Sm := (createBufferPool noPools .ap ⟨0, 1, 2, 4, 1, 0⟩).2

theorem justCreated_twoBuffers :
    JustCreated noPools twoBuffers .ap 91732 ⟨0, 1, 2, 4, 1, 0⟩ where
  base := by decide
  gap := by decide
  bytes := by decide
  create := Prod.ext (by decide +kernel) rfl
  pool_ne := by decide

/-- The pool runs dry and recovers: after an allocation region has found it empty, and again after a
return, state and count agree. -/
theorem hysteresis_twoBuffers : (((outstanding 91732).final (start twoBuffers)
        [.allocate, .allocate, .allocate, .giveBack 91904]).sm.pools 91732).Hysteresis := by
  exact (hysteresis_of_outstanding justCreated_twoBuffers (by decide +kernel)
    (Machine.Permitted.runs (by decide +kernel))).1

/-- A pool of two buffers whose sizes add up to `2 ^ 32`: both are at the offset `91840`. -/
def wrappedPool : Sm := (createBufferPool noPools .ap ⟨0, 1, 2, 0xFFFFFFC4, 1, 0⟩).2

/-- **Counting is not enough.** Both buffers are out and one of them is returned twice; its queue
entry then points to itself, the queue never empties, and the third allocation after that wraps the
free count below zero while the state is `stop`. So it does without any return where the offsets of
the buffers have wrapped. -/
theorem hysteresis_fails_of_counted : ((counted 91732).Permitted (start twoBuffers)
        [.allocate, .allocate, .giveBack 91840, .giveBack 91840, .allocate, .allocate, .allocate] ∧
      ¬ (((counted 91732).final (start twoBuffers)
        [.allocate, .allocate, .giveBack 91840, .giveBack 91840, .allocate, .allocate,
          .allocate]).sm.pools 91732).Hysteresis) ∧
    createBufferPool noPools .ap ⟨0, 1, 2, 0xFFFFFFC4, 1, 0⟩ = (91732, wrappedPool) ∧
    ¬ (((outstanding 91732).final (start wrappedPool) [.allocate, .allocate, .allocate]).sm.pools
      91732).Hysteresis := by
  refine ⟨⟨by decide +kernel, fun h ↦ absurd (h.stop ?_) ?_⟩,
    Prod.ext (by decide +kernel) rfl, fun h ↦ absurd (h.stop ?_) ?_⟩ <;> decide +kernel

end PoolRun

end Ipc
