import MerrukKernel.Ipc.Conservation.Invariant

/-!
# Conservation of buffers: the moves

Allocating, sending, freeing, delivering and reclaiming each move one buffer, or none. Two effects
on the free queues are behind all of them, popping the queue of a pool and pushing onto it
(`QueueStep`); the rest of each operation is the bookkeeping of one move.
-/

open Placement List

namespace Ipc

open Function

namespace System

variable {s s' : System} {loc : SmPtr → Place}

/-! ### The free queues -/

/-- The free queue of the pool at `p` has become `xs`, and no other queue has changed. -/
structure QueueStep (s s' : System) (p : SmPtr) (xs : List SmPtr) : Prop where
  content_self : s'.content (.pool p) = xs
  content_other : ∀ q ∈ s.pools, q ≠ p → s'.content (.pool q) = s.content (.pool q)
  queue : ∀ q ∈ s.pools, IsQueue s'.sm.links (poolFreeQ q) (s'.content (.pool q))
  count : ∀ q ∈ s.pools, (s'.sm.pools q).freeBuffers.toNat = (s'.content (.pool q)).length

variable {b p : SmPtr} {cpu : Cpu}

namespace Conserves

theorem inPool_of_mem_queue (h : Conserves s loc) {a : SmPtr} (hp : p ∈ s.pools)
    (ha : a ∈ poolFreeQ p :: s.content (.pool p)) : InPool s.sm p a := by
  rcases mem_cons.1 ha with rfl | ha
  · exact h.settled.layout.inPool_head hp
  · exact h.settled.layout.inPool_buffer hp
      (h.home p a (((h.lists (.pool p) hp).mem_iff a).1 ha)).2

section

variable (h : Conserves s loc) (hset : SameSettled s s') (hp : p ∈ s.pools)
include h hset hp

/-- A queue whose links changed only inside its own pool leaves the other queues alone. -/
theorem queueStep {xs : List SmPtr} (hqueue : IsQueue s'.sm.links (poolFreeQ p) xs)
    (hlen : xs.length ≤ (s.sm.pools p).maxBuffers.toNat) (hframe : ∀ a, ¬ InPool s.sm p a →
      s'.sm.links.next a = s.sm.links.next a ∧ s'.sm.links.prev a = s.sm.links.prev a)
    (hcount : (s'.sm.pools p).freeBuffers.toNat = xs.length)
    (hcount' : ∀ q ≠ p, (s'.sm.pools q).freeBuffers = (s.sm.pools q).freeBuffers) :
    QueueStep s s' p xs := by
  have hmax : ∀ q, (s'.sm.pools q).maxBuffers = (s.sm.pools q).maxBuffers :=
    fun q ↦ congrArg PoolConfig.maxBuffers (hset.config q)
  have hself : s'.content (.pool p) = xs := hqueue.queueEntries_eq (by rw [hmax]; exact hlen)
  have hother : ∀ q ∈ s.pools, q ≠ p → IsQueue s'.sm.links (poolFreeQ q) (s.content (.pool q)) := by
    intro q hq hne
    refine (h.queue q hq).congr fun a ha ↦ hframe a fun hin ↦ hne ?_
    exact h.settled.layout.eq_of_inPool hq hp (h.inPool_of_mem_queue hq ha) hin
  have hcontent : ∀ q ∈ s.pools, q ≠ p → s'.content (.pool q) = s.content (.pool q) :=
    fun q hq hne ↦ (hother q hq hne).queueEntries_eq (by
      rw [hmax]; exact h.length_content_le hq)
  refine ⟨hself, hcontent, fun q hq ↦ ?_, fun q hq ↦ ?_⟩
  · grind
  · rcases eq_or_ne q p with rfl | hne
    · rw [hself]; exact hcount
    · rw [hcontent q hq hne, hcount' q hne]; exact h.count q hq

/-- **Popping** a free queue. -/
theorem pop {x : SmPtr} {xs : List SmPtr} (hx : s.content (.pool p) = x :: xs)
    (hlinks : s'.sm.links = (qGetFirst s.sm.links (poolFreeQ p)).2)
    (hcount : (s'.sm.pools p).freeBuffers = (s.sm.pools p).freeBuffers - 1)
    (hcount' : ∀ q ≠ p, (s'.sm.pools q).freeBuffers = (s.sm.pools q).freeBuffers) :
    QueueStep s s' p xs := by
  have hq := h.queue p hp
  have hlen := h.length_content_le hp
  have hcnt := h.count p hp
  rw [hx] at hq hlen hcnt
  simp only [length_cons] at hlen hcnt
  refine h.queueStep hset hp (hlinks ▸ hq.qGetFirst.2) (by omega) (fun a ha ↦ ?_) ?_ hcount'
  · rw [hlinks]
    exact qGetFirst_frame (h.queue p hp) fun hmem ↦ ha (h.inPool_of_mem_queue hp hmem)
  · bv_omega

/-- **Pushing** a buffer of the pool that is not in its free queue. -/
theorem push (hb : b ∈ s.sm.poolBuffers p) (hloc : loc b ≠ .pool p)
    (hlinks : s'.sm.links = qAddBack s.sm.links b (poolFreeQ p))
    (hcount : (s'.sm.pools p).freeBuffers = (s.sm.pools p).freeBuffers + 1)
    (hcount' : ∀ q ≠ p, (s'.sm.pools q).freeBuffers = (s.sm.pools q).freeBuffers) :
    QueueStep s s' p (s.content (.pool p) ++ [b]) := by
  have hlists := h.lists (.pool p) hp
  have hnew : b ∉ s.content (.pool p) := fun hmem ↦ hloc ((hlists.mem_iff b).1 hmem)
  have hne : b ∉ poolFreeQ p :: s.content (.pool p) := by
    simp only [mem_cons, not_or]
    exact ⟨h.settled.layout.buffer_ne_head hp hb, hnew⟩
  -- the queue and the buffer are distinct buffers of the pool, so the queue was not full
  have hlen : (s.content (.pool p) ++ [b]).length ≤ (s.sm.pools p).maxBuffers.toNat := by
    have hsub : s.content (.pool p) ++ [b] ⊆ s.sm.poolBuffers p := by
      intro a ha
      rcases mem_append.1 ha with ha | ha
      · exact (h.home p a ((hlists.mem_iff a).1 ha)).2
      · rw [mem_singleton.1 ha]; exact hb
    have hnodup : (s.content (.pool p) ++ [b]).Nodup :=
      List.Nodup.append hlists.nodup (nodup_singleton b) (by simpa using hnew)
    have := (subperm_of_subset hnodup hsub).length_le
    rwa [Sm.poolBuffers, PoolConfig.length_buffers] at this
  refine h.queueStep hset hp (hlinks ▸ (h.queue p hp).qAddBack hne) hlen (fun a ha ↦ ?_) ?_ hcount'
  · rw [hlinks]
    refine qAddBack_frame (h.queue p hp) (fun hmem ↦ ha (h.inPool_of_mem_queue hp hmem)) ?_
    rintro rfl
    exact ha (h.settled.layout.inPool_buffer hp hb)
  · have hcnt := h.count p hp
    simp only [length_append, length_singleton] at hlen ⊢
    bv_omega

end

/-! ### The FIFOs -/

theorem mem_owned :
    b ∈ s.owned cpu ↔ ∃ p ∈ s.pools, (s.sm.config p).cpu = cpu ∧ b ∈ s.sm.poolBuffers p := by
  simp [owned, and_assoc]

theorem fifo_room (h : Conserves s loc) {id : FifoId} (hp : p ∈ s.pools)
    (hb : b ∈ s.sm.poolBuffers p) (hcpu : (s.sm.config p).cpu = id.owner)
    (hloc : loc b ≠ .fifo id) : (s.sm.fifos id).pending.length + 1 < 1024 := by
  have hlists := h.lists (.fifo id) trivial
  refine Fifo.room_of_subset hlists.nodup (fun a ha ↦ ?_)
    (h.settled.counted id.owner ▸ h.settled.admitted id.owner) (mem_owned.2 ⟨p, hp, hcpu, hb⟩)
    fun hmem ↦ hloc ((hlists.mem_iff b).1 hmem)
  have hplace := (hlists.mem_iff a).1 ha
  obtain ⟨q, hq, haq⟩ := (h.created a).1 (by simp [hplace])
  exact mem_owned.2 ⟨q, hq, h.route id q hq a haq hplace, haq⟩

theorem exists_pool (h : Conserves s loc) (hloc : loc b ≠ .outside) :
    ∃ p ∈ s.pools, b ∈ s.sm.poolBuffers p ∧ (s.sm.buffers b).pool = p ∧ b ≠ 0 := by
  obtain ⟨p, hp, hb⟩ := (h.created b).1 hloc
  exact ⟨p, hp, hb, h.settled.owner p hp b hb, h.settled.layout.buffer_ne_zero hp hb⟩

end Conserves

/-! ### The operations -/

namespace Conserves

/-- `IPC_AllocateBuffer` moves the first free buffer into the caller's hands. -/
theorem allocate (h : Conserves s loc) (hp : p ∈ s.pools) :
    ∃ loc', Conserves (s.allocate p) loc' := by
  have hp0 := (h.settled.layout.fits p hp).1
  cases hx : s.content (.pool p) with
  | nil =>
    obtain ⟨r, hr, heq⟩ := allocateBuffer_nil hp0 (hx ▸ h.queue p hp)
    have hs' : s.allocate p = { s with sm := s.sm.setPool p r } := by
      simp [System.allocate, heq]
    rw [hs']
    exact ⟨loc, h.same ⟨rfl, rfl, rfl, rfl, rfl, proj_update BufferPool.config hr.config,
      fun _ ↦ rfl, fun _ ↦ rfl⟩ rfl rfl rfl
      (proj_update BufferPool.freeBuffers hr.freeBuffers) fun a ↦ .rfl⟩
  | cons x xs =>
    have hloc : loc x = .pool p := ((h.lists (.pool p) hp).mem_iff x).1 (by simp [hx])
    have hb := (h.home p x hloc).2
    have hx0 := h.settled.layout.buffer_ne_zero hp hb
    obtain ⟨r, m, hr, heq⟩ := allocateBuffer_cons hp0 (hx ▸ h.queue p hp) hx0
      (h.settled.item p hp x hb)
    have hs' : s.allocate p = { s with
        sm := { s.sm with
          links := (qGetFirst s.sm.links (poolFreeQ p)).2
          buffers := update s.sm.buffers x ((s.sm.buffers x).allocated m)
          pools := update s.sm.pools p r }
        held := s.held ++ [x] } := by
      simp only [System.allocate, heq, if_neg hx0]
    have hset : SameSettled s (s.allocate p) := by
      rw [hs']
      exact ⟨rfl, rfl, rfl, rfl, rfl, proj_update BufferPool.config hr.config, fun a ↦ by simp,
        proj_update Buffer.pool rfl⟩
    have hstep := h.pop hset hp hx (by rw [hs']) (by rw [hs']; simp [hr.freeBuffers])
      fun q hne ↦ by rw [hs']; simp [update_of_ne hne]
    refine ⟨_, h.move hset (b := x) (y := .held) (by simp [hloc]) (by simp [hloc]) trivial
      ⟨?_, ?_, fun z hz hzx hzy ↦ ?_⟩ hstep.queue hstep.count (by rw [hs']; exact h.wf)
      (by simp) (by simp) (fun a hne ↦ ?_) ?_⟩
    · rw [hloc, hstep.content_self, hx, erase_cons_head]
    · rw [hs']; rfl
    · cases z with
      | outside => rfl
      | pool q => exact hstep.content_other q hz fun heq ↦ hzx (by rw [hloc, heq])
      | held => exact absurd rfl hzy
      | fifo id => rw [hs']; rfl
    · rw [hs']; simp [update_of_ne hne]
    · rw [hs']; simp [Buffer.allocated, Place.IsFree]

/-! Three kinds of move are left, told apart by where the buffer goes. -/

/-- A step that leaves the links and the free counts alone leaves the free queues alone. -/
theorem content_pool_of_links (hset : SameSettled s s') (hlinks : s'.sm.links = s.sm.links)
    (p : SmPtr) : s'.content (.pool p) = s.content (.pool p) := by
  have hmax : (s'.sm.pools p).maxBuffers = (s.sm.pools p).maxBuffers :=
    congrArg PoolConfig.maxBuffers (hset.config p)
  simp only [content, hlinks, hmax]

section

variable (h : Conserves s loc)
include h

theorem toFifo (hset : SameSettled s s') (id : FifoId)
    (hp : p ∈ s.pools) (hb : b ∈ s.sm.poolBuffers p) (hloc : loc b = .held)
    (hid : (s.sm.config p).cpu = id.owner) (hlinks : s'.sm.links = s.sm.links)
    (hcount : ∀ q, (s'.sm.pools q).freeBuffers = (s.sm.pools q).freeBuffers)
    (hheld : s'.held = s.held.erase b)
    (hfifos : s'.sm.fifos = update s.sm.fifos id (smFifoWrite (s.sm.fifos id) b))
    (hstatus : ∀ a ≠ b, (s'.sm.buffers a).statusCode = (s.sm.buffers a).statusCode)
    (hstatus' : (s'.sm.buffers b).statusCode = .free ↔ (Place.fifo id).IsFree) :
    ∃ loc', Conserves s' loc' := by
  have hpool := content_pool_of_links hset hlinks
  have hroom := h.fifo_room hp hb hid (by simp [hloc])
  refine ⟨_, h.move hset (y := .fifo id) (by simp [hloc]) (by simp [hloc]) trivial
    ⟨?_, ?_, fun z hz hzx hzy ↦ ?_⟩ (fun q hq ↦ ?_) (fun q hq ↦ ?_) (fun id' ↦ ?_) (by simp)
    ?_ hstatus hstatus'⟩
  · rw [hloc]
    exact hheld
  · simp only [content, hfifos, update_self]
    exact Fifo.pending_smFifoWrite (h.wf id) hroom b
  · cases z with
    | outside => rfl
    | pool q => exact hpool q
    | held => exact absurd hloc.symm hzx
    | fifo id' =>
      have hne : id' ≠ id := fun heq ↦ hzy (by rw [heq])
      simp only [content, hfifos, update_of_ne hne]
  · rw [hpool, hlinks]; exact h.queue q hq
  · rw [hpool, hcount]; exact h.count q hq
  · rw [hfifos]
    rcases eq_or_ne id' id with rfl | hne
    · rw [update_self]; exact (h.wf id').smFifoWrite b
    · rw [update_of_ne hne]; exact h.wf id'
  · rintro id' heq q hq hbq
    obtain rfl := Place.fifo.inj heq
    rwa [h.settled.layout.eq_of_inPool hq hp (h.settled.layout.inPool_buffer hq hbq)
      (h.settled.layout.inPool_buffer hp hb)]

theorem toPool (hset : SameSettled s s')
    (hp : p ∈ s.pools) (hb : b ∈ s.sm.poolBuffers p) (hloc : loc b ≠ .pool p)
    (hlinks : s'.sm.links = qAddBack s.sm.links b (poolFreeQ p))
    (hcount : (s'.sm.pools p).freeBuffers = (s.sm.pools p).freeBuffers + 1)
    (hcount' : ∀ q ≠ p, (s'.sm.pools q).freeBuffers = (s.sm.pools q).freeBuffers)
    (hsource : s'.content (loc b) = (s.content (loc b)).erase b)
    (hheld : loc b ≠ .held → s'.held = s.held)
    (hfifos : ∀ id, loc b ≠ .fifo id → s'.sm.fifos id = s.sm.fifos id)
    (hwf : ∀ id, (s'.sm.fifos id).WF)
    (hstatus : ∀ a ≠ b, (s'.sm.buffers a).statusCode = (s.sm.buffers a).statusCode)
    (hstatus' : (s'.sm.buffers b).statusCode = .free) : ∃ loc', Conserves s' loc' := by
  have hstep := h.push hset hp hb hloc hlinks hcount hcount'
  refine ⟨_, h.move hset ((h.created b).2 ⟨p, hp, hb⟩) hloc hp
    ⟨hsource, hstep.content_self, fun z hz hzx hzy ↦ ?_⟩ hstep.queue hstep.count hwf ?_ (by simp)
    hstatus (by simp [hstatus', Place.IsFree])⟩
  · cases z with
    | outside => rfl
    | pool q => exact hstep.content_other q hz fun heq ↦ hzy (by rw [heq])
    | held => exact hheld (Ne.symm hzx)
    | fifo id => exact congrArg Fifo.pending (hfifos id (Ne.symm hzx))
  · grind

/-- `IPC_SendBuffer`, by a client that holds the buffer, moves it into the send FIFO of the other
CPU or leaves it in clients' hands. -/
theorem send (hb : b ∈ s.held)
    (hcpu : (s.sm.config (s.sm.buffers b).pool).cpu = cpu ∨ destinationCpu s.sm b = cpu) :
    ∃ loc', Conserves (s.send cpu b) loc' := by
  have hloc : loc b = .held := ((h.lists .held trivial).mem_iff b).1 hb
  obtain ⟨p, hp, hbp, howner, -⟩ := h.exists_pool (b := b) (by simp [hloc])
  obtain ⟨r, hr, heq⟩ := sendBuffer_eq s.sm cpu b
  rw [howner] at hcpu hr heq
  by_cases hdest : destinationCpu s.sm b = cpu
  · have hs' : s.send cpu b = { s with
        sm := { s.sm with
          buffers := update s.sm.buffers b { s.sm.buffers b with statusCode := .sent }
          pools := update s.sm.pools p r } } := by
      simp only [System.send, h.settled.cpCrashed, heq, if_pos hdest]
    rw [hs']
    refine ⟨loc, h.same ⟨rfl, rfl, rfl, rfl, rfl, proj_update BufferPool.config hr.config,
      fun _ ↦ rfl, proj_update Buffer.pool rfl⟩ rfl rfl rfl
      (proj_update BufferPool.freeBuffers hr.freeBuffers) fun a ↦ ?_⟩
    rcases eq_or_ne a b with rfl | hne
    · grind [h.status, Place.IsFree]
    · simp [update_of_ne hne]
  · -- the sender is not at the receiving end, so it is at the end that the fifo is filled from
    have hid : (s.sm.config p).cpu = (FifoId.send (destinationCpu s.sm b)).owner := by
      rw [hcpu.resolve_right hdest]
      revert hdest
      cases destinationCpu s.sm b <;> cases cpu <;> simp [FifoId.owner, Cpu.other]
    have hs' : s.send cpu b = { s with
        sm := { s.sm with
          buffers := update s.sm.buffers b { s.sm.buffers b with statusCode := .sent }
          pools := update s.sm.pools p r
          fifos := update s.sm.fifos (.send (destinationCpu s.sm b))
            (smFifoWrite (s.sm.fifos (.send (destinationCpu s.sm b))) b) }
        held := s.held.erase b } := by
      simp only [System.send, h.settled.cpCrashed, heq, if_neg hdest]
    generalize destinationCpu s.sm b = dest at hid hs'
    have hset : SameSettled s (s.send cpu b) := by
      rw [hs']
      exact ⟨rfl, rfl, rfl, rfl, rfl, proj_update BufferPool.config hr.config, fun a ↦ rfl,
        proj_update Buffer.pool rfl⟩
    refine h.toFifo hset (.send dest) hp hbp hloc hid (by rw [hs']) (fun q ↦ ?_) (by rw [hs'])
      (by rw [hs']) (fun a hne ↦ ?_) ?_
    · rw [hs']
      exact proj_update BufferPool.freeBuffers hr.freeBuffers q
    · rw [hs']; simp [update_of_ne hne]
    · rw [hs']; simp [Place.IsFree]

theorem bufferReturn_eq (hp : p ∈ s.pools) (sm : Sm)
    (hpools : sm.pools = s.sm.pools) (hlinks : sm.links = s.sm.links) (b : SmPtr) :
    ∃ r : BufferPool,
      r.SameCount { s.sm.pools p with freeBuffers := (s.sm.pools p).freeBuffers + 1 } ∧
      bufferReturn sm b p = { sm with
          links := qAddBack s.sm.links b (poolFreeQ p)
          pools := update s.sm.pools p r } := by
  have hcb : (sm.pools p).bufferFreeFunction = 0 := by
    rw [hpools]
    exact h.settled.noCallback p hp
  obtain ⟨r, hr, heq⟩ := bufferReturnToPool_eq sm b p
  rw [hpools] at hr
  exact ⟨r, hr, by rw [bufferReturn, if_pos hcb, heq, hpools, hlinks]⟩

/-- `IPC_FreeBuffer`, of a buffer that is not in a send FIFO: a buffer that is free already stays
where it is, one that is held goes home, directly or through a free FIFO. -/
theorem free (hp : p ∈ s.pools)
    (hb : b ∈ s.sm.poolBuffers p) (hsend : ∀ c, b ∉ (s.sm.fifos (.send c)).pending) :
    ∃ loc', Conserves (s.free cpu b) loc' := by
  by_cases hst : (s.sm.buffers b).statusCode = .free
  · refine ⟨loc, ?_⟩
    have hs' : s.free cpu b = s := by simp only [System.free, freeBuffer, if_pos hst]
    rwa [hs']
  · have hloc : loc b = .held := by
      have hfree := mt (h.status b).2 hst
      cases hl : loc b with
      | held => rfl
      | outside => exact absurd (hl ▸ trivial) hfree
      | pool q => exact absurd (hl ▸ trivial) hfree
      | fifo id =>
        cases id with
        | free c => exact absurd (hl ▸ trivial) hfree
        | send c => exact absurd (((h.lists (.fifo (.send c)) trivial).mem_iff b).2 hl) (hsend c)
    have hfree := freeBuffer_eq hst (h.settled.owner p hp b hb) cpu
    by_cases hcpu : (s.sm.pools p).cpu = cpu
    · obtain ⟨r, hr, heq⟩ := h.bufferReturn_eq hp (s.sm.setBuffer b
        { s.sm.buffers b with statusCode := .free }) rfl rfl b
      have hs' : s.free cpu b = { s with
          sm := { s.sm with
            buffers := update s.sm.buffers b { s.sm.buffers b with statusCode := .free }
            links := qAddBack s.sm.links b (poolFreeQ p)
            pools := update s.sm.pools p r }
          held := s.held.erase b } := by
        rw [System.free, hfree, if_pos hcpu, heq, if_neg hst]
        rfl
      have hset : SameSettled s (s.free cpu b) := by
        rw [hs']
        exact ⟨rfl, rfl, rfl, rfl, rfl, proj_update BufferPool.config hr.config, fun a ↦ by simp,
          proj_update Buffer.pool rfl⟩
      refine h.toPool hset hp hb (by simp [hloc]) (by rw [hs']) (by rw [hs']; simp [hr.freeBuffers])
        (fun q hne ↦ by rw [hs']; simp [update_of_ne hne]) ?_ (fun hne ↦ absurd hloc hne)
        (fun id _ ↦ by rw [hs']) (by rw [hs']; exact h.wf) (fun a hne ↦ ?_) (by rw [hs']; simp)
      · rw [hloc, hs']; rfl
      · rw [hs']; simp [update_of_ne hne]
    · have hs' : s.free cpu b = { s with
          sm := { s.sm with
            buffers := update s.sm.buffers b { s.sm.buffers b with statusCode := .free }
            fifos := update s.sm.fifos (.free (s.sm.pools p).cpu)
              (smFifoWrite (s.sm.fifos (.free (s.sm.pools p).cpu)) b) }
          held := s.held.erase b } := by
        rw [System.free, hfree, if_neg hcpu, if_neg hst]
        rfl
      have hset : SameSettled s (s.free cpu b) := by
        rw [hs']
        exact ⟨rfl, rfl, rfl, rfl, rfl, fun _ ↦ rfl, fun _ ↦ rfl, proj_update Buffer.pool rfl⟩
      refine h.toFifo hset (.free (s.sm.pools p).cpu) hp hb hloc rfl (by rw [hs'])
        (fun q ↦ by rw [hs']) (by rw [hs']) (by rw [hs']) (fun a hne ↦ ?_) ?_
      · rw [hs']; simp [update_of_ne hne]
      · rw [hs']; simp [Place.IsFree]

/-! The two loops of `IPC_ProcessEvents`, one iteration at a time. -/

/-- What a read of a FIFO finds: nothing, or the oldest of the buffers placed in it. -/
theorem smFifoRead_cases (id : FifoId) :
    (s.content (.fifo id) = [] ∧ smFifoRead (s.sm.fifos id) = (0, s.sm.fifos id)) ∨
      ∃ m ms, s.content (.fifo id) = m :: ms ∧ loc m = .fifo id ∧
        (smFifoRead (s.sm.fifos id)).1 = m ∧ (smFifoRead (s.sm.fifos id)).2.WF ∧
        (smFifoRead (s.sm.fifos id)).2.pending = ms := by
  cases hm : s.content (.fifo id) with
  | nil => exact .inl ⟨rfl, if_pos ((Fifo.pending_eq_nil_iff (h.wf id)).1 hm)⟩
  | cons m ms =>
    have hloc := ((h.lists (.fifo id) trivial).mem_iff m).1 (by simp [hm])
    obtain ⟨h1, h2, h3⟩ := smFifoRead_of_cons (h.wf id) hm
    exact .inr ⟨m, ms, rfl, hloc, h1, h2, h3⟩

end

theorem setFifo_self (sm : Sm) (id : FifoId) : sm.setFifo id (sm.fifos id) = sm := by
  simp [Sm.setFifo]

/-- The FIFOs stay in range when one of them is replaced by one in range. -/
theorem wf_setFifo (h : Conserves s loc) {id : FifoId} {f : Fifo} (hf : f.WF) (id' : FifoId) :
    ((s.sm.setFifo id f).fifos id').WF := by
  rcases eq_or_ne id' id with rfl | hne
  · simpa [Sm.setFifo] using hf
  · simpa [Sm.setFifo, update_of_ne hne] using h.wf id'

/-- A delivery moves the oldest message into a client's hands. -/
theorem deliverStep (h : Conserves s loc) (cpu : Cpu) :
    ∃ loc', Conserves (s.deliverStep cpu).2 loc' := by
  rcases h.smFifoRead_cases (.send cpu) with ⟨-, heq⟩ | ⟨m, ms, hm, hloc, hread, hwf, hms⟩
  · refine ⟨loc, ?_⟩
    simp only [System.deliverStep, heq, setFifo_self]
    exact h
  · obtain ⟨p, hp, hb, -, hne0⟩ := h.exists_pool (b := m) (by simp [hloc])
    have hs' : (s.deliverStep cpu).2 = { s with
        sm := s.sm.setFifo (.send cpu) (smFifoRead (s.sm.fifos (.send cpu))).2
        held := s.held ++ [m] } := by
      simp only [System.deliverStep, hread, if_neg hne0]
    have hset : SameSettled s (s.deliverStep cpu).2 := by
      rw [hs']
      exact ⟨rfl, rfl, rfl, rfl, rfl, fun _ ↦ rfl, fun _ ↦ rfl, fun _ ↦ rfl⟩
    refine ⟨_, h.move hset (b := m) (y := .held) (by simp [hloc]) (by simp [hloc]) trivial
      ⟨?_, by rw [hs']; rfl, fun z hz hzx hzy ↦ ?_⟩ (by rw [hs']; exact h.queue)
      (by rw [hs']; exact h.count) (by rw [hs']; exact h.wf_setFifo hwf) (by simp) (by simp)
      (fun _ _ ↦ by rw [hs']; rfl) ?_⟩
    · rw [hloc, hm, hs']
      simp [content, Sm.setFifo, hms]
    · rw [hs']
      cases z with
      | outside => rfl
      | pool q => rfl
      | held => exact absurd rfl hzy
      | fifo id =>
        have hne : id ≠ .send cpu := fun heq ↦ hzx (by rw [hloc, heq])
        simp [content, Sm.setFifo, update_of_ne hne]
    · have hst := h.status m
      rw [hloc] at hst
      rw [hs']
      exact hst

/-- A reclaimed buffer moves into the free queue of its pool. -/
theorem reclaimStep (h : Conserves s loc) (cpu : Cpu) :
    ∃ loc', Conserves (s.reclaimStep cpu).2 loc' := by
  rcases h.smFifoRead_cases (.free cpu) with ⟨-, heq⟩ | ⟨m, ms, hm, hloc, hread, hwf, hms⟩
  · refine ⟨loc, ?_⟩
    simp only [System.reclaimStep, heq, setFifo_self]
    exact h
  · obtain ⟨p, hp, hb, howner, hne0⟩ := h.exists_pool (b := m) (by simp [hloc])
    obtain ⟨r, hr, heq⟩ := h.bufferReturn_eq hp
      (s.sm.setFifo (.free cpu) (smFifoRead (s.sm.fifos (.free cpu))).2) rfl rfl m
    have hs' : (s.reclaimStep cpu).2 = { s with
        sm := { s.sm.setFifo (.free cpu) (smFifoRead (s.sm.fifos (.free cpu))).2 with
          links := qAddBack s.sm.links m (poolFreeQ p)
          pools := update s.sm.pools p r } } := by
      simp only [System.reclaimStep, hread, if_neg hne0]
      rw [show ((s.sm.setFifo (.free cpu) (smFifoRead (s.sm.fifos (.free cpu))).2).buffers m).pool
        = p from howner, heq]
    rw [hs']
    refine h.toPool ⟨rfl, rfl, rfl, rfl, rfl, proj_update BufferPool.config hr.config,
      fun a ↦ by simp,
      fun _ ↦ rfl⟩ hp hb (by simp [hloc]) rfl (by simp [hr.freeBuffers])
      (fun q hne ↦ by simp [update_of_ne hne]) ?_ (fun _ ↦ rfl) (fun id hid ↦ ?_)
      (h.wf_setFifo hwf) (fun _ _ ↦ rfl) ?_
    · rw [hloc, hm]
      simp [content, Sm.setFifo, hms]
    · have hne : id ≠ .free cpu := fun heq ↦ hid (by rw [hloc, heq])
      simp [Sm.setFifo, update_of_ne hne]
    · have := h.status m
      rw [hloc] at this
      exact this.2 trivial

end Conserves

end System

end Ipc
