import MerrukKernel.Ipc.Conservation.Moves

/-!
# Conservation of buffers: new pools

A pool can be created at any time. Its stretch comes out of the gap between the allocation counters,
where no other pool lies, so the queues and descriptors of the others are untouched
(`Conserves.frame_created`), and its buffers are placed in its free queue. Their status codes are
not written by the creation: that they read as free is a property of memory no pool has used.
-/

open Placement List

namespace Ipc

open PoolConfig

namespace System

variable {s : System} {loc : SmPtr → Place}

/-- The state a successful creation leads to. -/
def withPool (s : System) (sm' : Sm) (pool : SmPtr) : System :=
  { s with sm := sm', pools := s.pools ++ [pool] }

variable {sm' : Sm} {cpu : Cpu} {pool : SmPtr} {args : PoolArgs}

namespace Conserves

variable (h : Conserves s loc) (hc : Created s.sm sm' cpu pool args)
include h hc

theorem new_pool : pool ∉ s.pools := by
  intro hmem
  have hout := h.settled.layout.outside pool hmem
  have := hc.carved.lower
  have := hc.carved.upper
  have hbytes : 0 < (s.sm.config pool).bytes := by unfold bytes; omega
  have hbytes' : 0 < (args.config s.sm cpu).bytes := by unfold bytes; omega
  omega

theorem config_created :
    (∀ p ∈ s.pools, sm'.config p = s.sm.config p) ∧ sm'.config pool = args.config s.sm cpu := by
  refine ⟨fun p hp ↦ (hc.pools_frame p fun heq ↦ h.new_pool hc (heq ▸ hp)).config, ?_⟩
  rw [Sm.config, hc.record, PoolArgs.config]

theorem layout_created : Layout sm' (s.pools ++ [pool]) := by
  obtain ⟨hold, hnew⟩ := h.config_created hc
  exact h.settled.layout.carve hc.pool_ne hold (hnew ▸ hc.carved) (hnew ▸ hc.fits)

theorem not_inPool_new {p a : SmPtr}
    (hp : p ∈ s.pools) (ha : InPool s.sm p a) : ¬ InPool sm' pool a := by
  intro hin
  obtain ⟨hold, -⟩ := h.config_created hc
  have hpa : InPool sm' p a := by unfold InPool; rw [hold p hp]; exact ha
  have heq := (h.layout_created hc).eq_of_inPool (mem_append_left _ hp) (by simp) hpa hin
  exact h.new_pool hc (heq ▸ hp)

theorem poolBuffers_created : (∀ p ∈ s.pools, sm'.poolBuffers p = s.sm.poolBuffers p) ∧
      sm'.poolBuffers pool = (args.config s.sm cpu).buffers pool := by
  grind [h.config_created, Sm.poolBuffers]

theorem frame_created {p a : SmPtr} (hp : p ∈ s.pools) (ha : InPool s.sm p a) :
    sm'.links.next a = s.sm.links.next a ∧ sm'.links.prev a = s.sm.links.prev a ∧
      sm'.links.item a = s.sm.links.item a ∧ sm'.buffers a = s.sm.buffers a := by
  have hnot := h.not_inPool_new hc hp ha
  have hlayout := h.layout_created hc
  have hmem : pool ∈ s.pools ++ [pool] := by simp
  have hbuf : a ∉ (args.config s.sm cpu).buffers pool := fun hb ↦
    hnot (hlayout.inPool_buffer hmem ((h.poolBuffers_created hc).2 ▸ hb))
  have hfree : a ≠ poolFreeQ pool := fun heq ↦ hnot (heq ▸ hlayout.inPool_head hmem)
  have halloc : a ≠ poolAllocatedQ pool := by
    rintro rfl
    have := hc.fits.toNat_poolAllocatedQ
    refine hnot ⟨by omega, ?_⟩
    unfold bytes
    omega
  obtain ⟨h1, h2, h3⟩ := hc.links_frame a (by simp [hbuf, hfree, halloc])
  exact ⟨h1, h2, h3, hc.buffers_frame a hbuf⟩

/-- The buffers of the new pool come on top of those its CPU has. -/
theorem owned_created (c : Cpu) : (s.withPool sm' pool).owned c =
      s.owned c ++ if cpu = c then (args.config s.sm cpu).buffers pool else [] := by
  obtain ⟨hconfig, hconfig'⟩ := h.config_created hc
  obtain ⟨hbuffers, hbuffers'⟩ := h.poolBuffers_created hc
  have hold : (s.pools.filter fun p ↦ (sm'.config p).cpu = c).flatMap sm'.poolBuffers =
      s.owned c := by
    rw [filter_congr
      fun p hp ↦ by rw [hconfig p hp]]
    exact flatMap_congr fun p hp ↦ hbuffers p (mem_of_mem_filter hp)
  have hcpu : (sm'.config pool).cpu = cpu := congrArg PoolConfig.cpu hconfig'
  have hnew : ([pool].filter fun p ↦ (sm'.config p).cpu = c).flatMap sm'.poolBuffers =
      if cpu = c then (args.config s.sm cpu).buffers pool else [] := by
    by_cases hcc : cpu = c <;> simp [hcpu, hcc, hbuffers']
  change (List.filter _ (s.pools ++ [pool])).flatMap sm'.poolBuffers = _
  rw [filter_append, flatMap_append, ← hold, ← hnew]
  rfl

theorem settled_created : Settled (s.withPool sm' pool) := by
  obtain ⟨hconfig, hconfig'⟩ := h.config_created hc
  obtain ⟨hbuffers, hbuffers'⟩ := h.poolBuffers_created hc
  have hlayout := h.settled.layout
  -- the byte count did not wrap, so the buffer count is far from doing so
  have hsum : (s.sm.currentBuffers cpu + args.numberOfBuffers).toNat =
      (s.sm.currentBuffers cpu).toNat + args.numberOfBuffers.toNat := by
    have hcur := h.settled.admitted cpu
    have hbytes : (args.config s.sm cpu).bytes ≤ 2 ^ 32 := by grind [hc.fits, PoolConfig.Fits]
    have hmul : 60 * args.numberOfBuffers.toNat ≤ (args.config s.sm cpu).bytes :=
      le_trans (Nat.mul_le_mul_right _ (by omega)) (Nat.le_add_left _ _)
    bv_omega
  refine ⟨h.layout_created hc, fun p hp ↦ ?_, fun p hp b hb ↦ ?_, fun p hp b hb ↦ ?_,
    fun c ↦ ?_, fun c ↦ ?_, hc.control_frame.2.trans h.settled.crashCode, h.settled.cpCrashed⟩
  · rcases mem_append.1 hp with hp | hp
    · exact congrArg bufferFreeFunction (hconfig p hp) ▸ h.settled.noCallback p hp
    · rw [mem_singleton.1 hp]
      exact congrArg bufferFreeFunction hconfig'
  · rcases mem_append.1 hp with hp | hp
    · have hb' : b ∈ s.sm.poolBuffers p := hbuffers p hp ▸ hb
      exact (h.frame_created hc hp (hlayout.inPool_buffer hp hb')).2.2.1.trans
        (h.settled.item p hp b hb')
    · rw [mem_singleton.1 hp] at hb
      exact hc.item_mem b (hbuffers' ▸ hb)
  · rcases mem_append.1 hp with hp | hp
    · have hb' : b ∈ s.sm.poolBuffers p := hbuffers p hp ▸ hb
      have hframe := (h.frame_created hc hp (hlayout.inPool_buffer hp hb')).2.2.2
      exact (congrArg Buffer.pool hframe).trans (h.settled.owner p hp b hb')
    · rw [mem_singleton.1 hp] at hb ⊢
      exact (hc.record_mem b (hbuffers' ▸ hb)).1
  · rw [h.owned_created hc, length_append, h.settled.counted]
    simp only [withPool, hc.currentBuffers.2]
    rcases eq_or_ne cpu c with rfl | hne
    · simp only [if_true, Function.update_self, length_buffers, hsum]
      rfl
    · simp [Function.update_of_ne (Ne.symm hne), hne]
  · simp only [withPool, hc.currentBuffers.2]
    rcases eq_or_ne c cpu with rfl | hne
    · simpa [toNat_smMaxBuffers] using BitVec.lt_def.1 hc.currentBuffers.1
    · simpa [Function.update_of_ne hne] using h.settled.admitted c

theorem outside_new {b : SmPtr}
    (hb : b ∈ (args.config s.sm cpu).buffers pool) : loc b = .outside := by
  by_contra hne
  obtain ⟨p, hp, hbp⟩ := (h.created b).1 hne
  refine h.not_inPool_new hc hp (h.settled.layout.inPool_buffer hp hbp) ?_
  exact (h.layout_created hc).inPool_buffer (by simp) ((h.poolBuffers_created hc).2 ▸ hb)

theorem content_created : (∀ p ∈ s.pools, IsQueue sm'.links (poolFreeQ p) (s.content (.pool p)) ∧
      (s.withPool sm' pool).content (.pool p) = s.content (.pool p)) ∧
      (s.withPool sm' pool).content (.pool pool) = (args.config s.sm cpu).buffers pool := by
  obtain ⟨hconfig, hconfig'⟩ := h.config_created hc
  refine ⟨fun p hp ↦ ?_, hc.queue.queueEntries_eq ?_⟩
  · have hq : IsQueue sm'.links (poolFreeQ p) (s.content (.pool p)) :=
      (h.queue p hp).congr fun a ha ↦ by
        obtain ⟨h1, h2, -⟩ := h.frame_created hc hp (h.inPool_of_mem_queue hp ha)
        exact ⟨h1, h2⟩
    refine ⟨hq, hq.queueEntries_eq ?_⟩
    have hmax : (sm'.pools p).maxBuffers = (s.sm.pools p).maxBuffers :=
      congrArg maxBuffers (hconfig p hp)
    exact hmax ▸ h.length_content_le hp
  · have hmax : (sm'.pools pool).maxBuffers = (args.config s.sm cpu).maxBuffers :=
      congrArg maxBuffers hconfig'
    rw [length_buffers]
    exact hmax ▸ le_rfl

/-- **Creating a pool** places its buffers in its free queue. -/
theorem withPool : Conserves (s.withPool sm' pool)
      fun a ↦ if a ∈ (args.config s.sm cpu).buffers pool then .pool pool else loc a := by
  obtain ⟨hcontent, hcontent'⟩ := h.content_created hc
  obtain ⟨hbuffers, hbuffers'⟩ := h.poolBuffers_created hc
  have hnew := h.new_pool hc
  have hout : ∀ a ∈ (args.config s.sm cpu).buffers pool, loc a = .outside :=
    fun a ha ↦ h.outside_new hc ha
  -- an old place other than `outside` keeps what was placed there
  have hkeep : ∀ x, x ≠ .outside → x ≠ .pool pool → ∀ a,
      (if a ∈ (args.config s.sm cpu).buffers pool then Place.pool pool else loc a) = x ↔
        loc a = x := by grind
  have hpool : ∀ p, p ∈ s.pools → p ≠ pool := fun p hp heq ↦ hnew (heq ▸ hp)
  refine ⟨h.settled_created hc, fun x hx ↦ ?_, fun p hp ↦ ?_, fun p hp ↦ ?_, fun id ↦ ?_,
    fun b ↦ ?_, fun p b hloc ↦ ?_, fun b ↦ ?_, fun id p hp b hb hloc ↦ ?_⟩
  · cases x with
    | outside => exact hx.elim
    | pool p =>
      rcases mem_append.1 hx with hp | hp
      · rw [(hcontent p hp).2]
        exact (h.lists (.pool p) hp).congr (hkeep _ (by simp) (by simpa using hpool p hp))
      · rw [mem_singleton.1 hp, hcontent']
        refine ⟨hc.fits.nodup_buffers, fun a ↦ ?_⟩
        by_cases ha : a ∈ (args.config s.sm cpu).buffers pool
        · simp [ha]
        · simp only [ha, false_iff]
          exact fun heq ↦ hnew (h.home pool a heq).1
    | held => exact (h.lists .held trivial).congr (hkeep _ (by simp) (by simp))
    | fifo id =>
      have hfifo : (s.withPool sm' pool).content (.fifo id) = s.content (.fifo id) :=
        congrArg (fun f ↦ (f id).pending) hc.control_frame.1
      rw [hfifo]
      exact (h.lists (.fifo id) trivial).congr (hkeep _ (by simp) (by simp))
  · rcases mem_append.1 hp with hp | hp
    · rw [(hcontent p hp).2]; exact (hcontent p hp).1
    · rw [mem_singleton.1 hp, hcontent']; exact hc.queue
  · rcases mem_append.1 hp with hp | hp
    · rw [(hcontent p hp).2, ← h.count p hp]
      exact congrArg BitVec.toNat (hc.pools_frame p (hpool p hp)).freeBuffers
    · rw [mem_singleton.1 hp, hcontent', length_buffers]
      exact congrArg (fun r ↦ (BufferPool.freeBuffers r).toNat) hc.record
  · exact (congrFun hc.control_frame.1 id) ▸ h.wf id
  · have hold : (∃ p ∈ s.pools ++ [pool], b ∈ sm'.poolBuffers p) ↔
        (∃ p ∈ s.pools, b ∈ s.sm.poolBuffers p) ∨ b ∈ (args.config s.sm cpu).buffers pool := by
          grind
    refine Iff.trans ?_ hold.symm
    rw [← h.created b]
    by_cases hb : b ∈ (args.config s.sm cpu).buffers pool <;> simp [hb]
  · by_cases hb : b ∈ (args.config s.sm cpu).buffers pool
    · simp only [hb, if_true, Place.pool.injEq] at hloc
      subst hloc
      exact ⟨mem_append_right _ (by simp), hbuffers'.symm ▸ hb⟩
    · simp only [hb] at hloc
      obtain ⟨hp, hbp⟩ := h.home p b hloc
      exact ⟨mem_append_left _ hp, (hbuffers p hp).symm ▸ hbp⟩
  · refine (Eq.congr_left (hc.status b)).trans ?_
    rw [h.status b]
    by_cases hb : b ∈ (args.config s.sm cpu).buffers pool
    · simp [hb, hout b hb, Place.IsFree]
    · simp [hb]
  · have hb' : b ∉ (args.config s.sm cpu).buffers pool := fun hmem ↦ by simp [hmem] at hloc
    rcases mem_append.1 hp with hp | hp
    · have hloc' : loc b = .fifo id := by simpa [hb'] using hloc
      have hroute := h.route id p hp b (hbuffers p hp ▸ hb) hloc'
      exact congrArg PoolConfig.cpu ((h.config_created hc).1 p hp) ▸ hroute
    · rw [mem_singleton.1 hp] at hb
      exact absurd (hbuffers' ▸ hb) hb'

end Conserves

end System

end Ipc
