import MerrukKernel.Ipc.PoolSpec

/-!
# Creating a pool

A pool occupies one stretch of shared memory: its record, then its buffers one after another, each a
descriptor followed by its storage. `PoolConfig.buffers` lists the buffers as the creation loop
places them, and `PoolConfig.bytes` is the length of the stretch as a natural number.

All offsets are 32-bit, so the stretch is what it looks like only while nothing wraps. Under that
condition (`PoolConfig.Fits`) the buffers are distinct, lie inside the stretch and miss the record;
and a successful creation (`createBufferPool_cases`) takes a stretch from the gap between the two
allocation counters and links exactly these buffers into the pool's free queue.
-/

namespace Ipc

open Function List Links

/-! ### The buffers of a pool -/

variable {b : SmPtr} {xs : List SmPtr}

/-- Buffers placed without a wrap-around increase from the first offset on. -/
theorem bufferChain_bounds {stride : U32} {n : ℕ} (h : b.toNat + stride.toNat * n ≤ 2 ^ 32) :
    ∀ x ∈ bufferChain stride n b,
      b.toNat ≤ x.toNat ∧ x.toNat + stride.toNat ≤ b.toNat + stride.toNat * n := by
  induction n generalizing b with
  | zero => simp [bufferChain]
  | succ n ih =>
    rw [Nat.mul_succ] at ⊢
    intro x hx
    rcases mem_cons.1 hx with rfl | hx
    · omega
    · obtain ⟨m, rfl⟩ : ∃ m, n = m + 1 := by
        cases n with
        | zero => simp [bufferChain] at hx
        | succ m => exact ⟨m, rfl⟩
      rcases Nat.eq_zero_or_pos stride.toNat with hz | hpos
      · have hstep : (b + stride).toNat = b.toNat := by bv_omega
        have := ih (by rw [hz]; omega) x hx
        omega
      · grind

/-- Buffers placed without a wrap-around do not overlap. -/
theorem pairwise_bufferChain {stride : U32} {n : ℕ} (h : b.toNat + stride.toNat * n ≤ 2 ^ 32) :
    (bufferChain stride n b).Pairwise fun x y ↦ x.toNat + stride.toNat ≤ y.toNat := by
  induction n generalizing b with
  | zero => simp [bufferChain]
  | succ n ih =>
    rw [bufferChain, pairwise_cons]
    rw [Nat.mul_succ] at h
    cases n with
    | zero => simp [bufferChain]
    | succ m =>
      rw [Nat.mul_succ] at h
      have hstep : (b + stride).toNat = b.toNat + stride.toNat := by bv_omega
      have hrest : (b + stride).toNat + stride.toNat * (m + 1) ≤ 2 ^ 32 := by
        rw [Nat.mul_succ]; omega
      exact ⟨fun x hx ↦ hstep ▸ (bufferChain_bounds hrest x hx).1, ih hrest⟩

namespace PoolConfig

/-- The distance from one buffer to the next. -/
def stride (c : PoolConfig) : U32 := bufferOverhead + c.maxHeaderSize + c.maxDataSize

/-- The buffers of a pool. -/
def buffers (c : PoolConfig) (pool : SmPtr) : List SmPtr :=
  bufferChain c.stride c.maxBuffers.toNat (pool + sizeofBufferPool)

/-- The bytes a pool occupies, computed without wrap-around. -/
def bytes (c : PoolConfig) : ℕ :=
  108 + (60 + c.maxHeaderSize.toNat + c.maxDataSize.toNat) * c.maxBuffers.toNat

/-- The stretch of the pool at `pool` does not wrap. -/
def Fits (c : PoolConfig) (pool : SmPtr) : Prop := pool.toNat + c.bytes ≤ 2 ^ 32

variable {c : PoolConfig} {pool : SmPtr}

/-- Where the stretch does not wrap, neither does the arithmetic of the source. -/
theorem toNat_stride (hbytes : c.bytes ≤ 2 ^ 32) (hn : 0 < c.maxBuffers.toNat) :
    c.stride.toNat = 60 + c.maxHeaderSize.toNat + c.maxDataSize.toNat := by
  have hle : 60 + c.maxHeaderSize.toNat + c.maxDataSize.toNat ≤ c.bytes - 108 := by
    rw [bytes, Nat.add_sub_cancel_left]
    exact Nat.le_mul_of_pos_right _ hn
  unfold stride bufferOverhead
  bv_omega

section

variable (h : c.Fits pool)
include h

theorem Fits.chain (hn : 0 < c.maxBuffers.toNat) :
    (pool + sizeofBufferPool).toNat = pool.toNat + 108 ∧
      (pool + sizeofBufferPool).toNat + c.stride.toNat * c.maxBuffers.toNat =
        pool.toNat + c.bytes := by
  unfold Fits at h
  have hstride := toNat_stride (by omega) hn
  have hpos : 60 ≤ (60 + c.maxHeaderSize.toNat + c.maxDataSize.toNat) * c.maxBuffers.toNat :=
    le_trans (by omega) (Nat.le_mul_of_pos_right _ hn)
  have hstart : (pool + sizeofBufferPool).toNat = pool.toNat + 108 := by
    unfold bytes at h
    unfold sizeofBufferPool
    bv_omega
  refine ⟨hstart, ?_⟩
  rw [hstride, bytes]
  omega

/-- The buffers lie inside the stretch, after the record. -/
theorem Fits.mem_buffers (hb : b ∈ c.buffers pool) : pool.toNat + 108 ≤ b.toNat ∧
      b.toNat + 60 + c.maxHeaderSize.toNat + c.maxDataSize.toNat ≤ pool.toNat + c.bytes := by
  have hn : 0 < c.maxBuffers.toNat := by
    rw [← length_bufferChain c.stride c.maxBuffers.toNat]
    exact length_pos_of_mem hb
  obtain ⟨hstart, hend⟩ := h.chain hn
  have hstride := toNat_stride (by unfold Fits at h; omega) hn
  have := bufferChain_bounds (by unfold Fits at h; omega) b hb
  omega

theorem Fits.pairwise_buffers : (c.buffers pool).Pairwise fun x y ↦
    x.toNat + (60 + c.maxHeaderSize.toNat + c.maxDataSize.toNat) ≤ y.toNat := by
  rcases Nat.eq_zero_or_pos c.maxBuffers.toNat with hz | hn
  · simp [buffers, hz, bufferChain]
  · obtain ⟨hstart, hend⟩ := h.chain hn
    rw [← toNat_stride (by unfold Fits at h; omega) hn]
    exact pairwise_bufferChain (by unfold Fits at h; omega)

theorem Fits.nodup_buffers : (c.buffers pool).Nodup :=
  h.pairwise_buffers.imp fun hle heq ↦ by
    rw [heq] at hle
    omega

theorem Fits.toNat_poolFreeQ : (poolFreeQ pool).toNat = pool.toNat + 4 := by
  unfold Fits bytes at h
  unfold poolFreeQ
  bv_omega

theorem Fits.toNat_poolAllocatedQ : (poolAllocatedQ pool).toNat = pool.toNat + 16 := by
  unfold Fits bytes at h
  unfold poolAllocatedQ
  bv_omega

end

@[simp] theorem length_buffers (c : PoolConfig) (pool : SmPtr) :
    (c.buffers pool).length = c.maxBuffers.toNat :=
  length_bufferChain _ _ _

end PoolConfig

/-! ### The creation loop -/

/-- What the creation loop has done after placing the buffers `chain` behind the queue `xs`. The
status code is not among the fields it writes. -/
structure Placed (sm sm' : Sm) (pool : SmPtr) (xs chain : List SmPtr) : Prop where
  control : sm'.toSmControl = sm.toSmControl
  pools : sm'.pools = sm.pools
  queue : IsQueue sm'.links (poolFreeQ pool) (xs ++ chain)
  links_frame : ∀ a ∉ poolFreeQ pool :: (xs ++ chain),
    sm'.links.next a = sm.links.next a ∧ sm'.links.prev a = sm.links.prev a
  item_mem : ∀ a ∈ chain, sm'.links.item a = a
  item_frame : ∀ a ∉ chain, sm'.links.item a = sm.links.item a
  record_mem : ∀ a ∈ chain,
    (sm'.buffers a).pool = pool ∧ (sm'.buffers a).dataBufferStart = a + bufferOverhead
  buffers_frame : ∀ a ∉ chain, sm'.buffers a = sm.buffers a
  status : ∀ a, (sm'.buffers a).statusCode = (sm.buffers a).statusCode

theorem Placed.nil {sm : Sm} {pool : SmPtr}
    (h : IsQueue sm.links (poolFreeQ pool) xs) : Placed sm sm pool xs [] := by
  refine ⟨rfl, rfl, by simpa using h, ?_, ?_, ?_, ?_, ?_, ?_⟩ <;> simp

theorem Placed.trans {sm sm' sm'' : Sm} {pool : SmPtr} {ys zs : List SmPtr}
    (h : Placed sm sm' pool xs ys) (h' : Placed sm' sm'' pool (xs ++ ys) zs) :
    Placed sm sm'' pool xs (ys ++ zs) where
  control := h'.control.trans h.control
  pools := h'.pools.trans h.pools
  queue := by rw [← append_assoc]; exact h'.queue
  links_frame a ha := by
    have h1 := h.links_frame a (by simp only [mem_cons, mem_append] at ha ⊢; tauto)
    have h2 := h'.links_frame a (by simpa using ha)
    exact ⟨h2.1.trans h1.1, h2.2.trans h1.2⟩
  item_mem a ha := by
    by_cases hz : a ∈ zs
    · exact h'.item_mem a hz
    · rw [h'.item_frame a hz]
      exact h.item_mem a ((mem_append.1 ha).resolve_right hz)
  item_frame a ha := by
    rw [mem_append, not_or] at ha
    rw [h'.item_frame a ha.2, h.item_frame a ha.1]
  record_mem a ha := by
    by_cases hz : a ∈ zs
    · exact h'.record_mem a hz
    · rw [h'.buffers_frame a hz]
      exact h.record_mem a ((mem_append.1 ha).resolve_right hz)
  buffers_frame a ha := by
    rw [mem_append, not_or] at ha
    rw [h'.buffers_frame a ha.2, h.buffers_frame a ha.1]
  status a := (h'.status a).trans (h.status a)

theorem placed_placeBuffer {sm : Sm} {pool : SmPtr}
    (h : IsQueue sm.links (poolFreeQ pool) xs) (hb : b ∉ poolFreeQ pool :: xs)
    (id localData mh md : U32) :
    Placed sm (placeBuffer sm pool b id localData mh md).2 pool xs [b] := by
  have hlinks : (placeBuffer sm pool b id localData mh md).2.links =
      (qAddBack sm.links b (poolFreeQ pool)).setItem b b := rfl
  refine ⟨rfl, rfl, ?_, ?_, ?_, ?_, ?_, ?_, ?_⟩
  · rw [hlinks]
    exact (h.qAddBack hb).congr fun a _ ↦ by simp
  · intro a ha
    rw [hlinks]
    simp only [mem_cons, mem_append, not_or] at ha
    simpa using qAddBack_frame h (by simpa using ⟨ha.1, ha.2.1⟩) ha.2.2.1
  · intro a ha
    rw [hlinks, mem_singleton.1 ha]
    simp
  · intro a ha
    have hne : a ≠ b := by simpa using ha
    rw [hlinks]
    simp [update_of_ne hne]
  · intro a ha
    rw [mem_singleton.1 ha]
    simp [placeBuffer, bufferInitialise, bufferReset, Sm.setBuffer]
  · intro a ha
    have hne : a ≠ b := by simpa using ha
    simp [placeBuffer, bufferInitialise, bufferReset, Sm.setBuffer, update_of_ne hne]
  · intro a
    rcases eq_or_ne a b with rfl | hne
    · simp [placeBuffer, bufferInitialise, bufferReset, Sm.setBuffer]
    · simp [placeBuffer, bufferInitialise, bufferReset, Sm.setBuffer, update_of_ne hne]

theorem placeBuffer_fst (sm : Sm) (pool b : SmPtr) (id localData mh md : U32) :
    (placeBuffer sm pool b id localData mh md).1 = b + (bufferOverhead + mh + md) := by
  simp only [placeBuffer, bufferInitialise, BitVec.add_assoc]

theorem control_placeBuffers (pool : SmPtr) (mh md size : U32) (n : ℕ) (id : U32) (b : SmPtr)
    (localData : U32) (sm : Sm) :
    (placeBuffers pool mh md size n id b localData sm).toSmControl = sm.toSmControl := by
  induction n generalizing id b localData sm with
  | zero => rfl
  | succ n ih => exact ih ..

/-- **The creation loop** places the whole chain. -/
theorem placed_placeBuffers {pool : SmPtr} (mh md size : U32) (n : ℕ) {sm : Sm}
    (id : U32) (localData : U32) (h : IsQueue sm.links (poolFreeQ pool) xs)
    (hnodup : (poolFreeQ pool :: (xs ++ bufferChain (bufferOverhead + mh + md) n b)).Nodup) :
    Placed sm (placeBuffers pool mh md size n id b localData sm) pool xs
      (bufferChain (bufferOverhead + mh + md) n b) := by
  induction n generalizing sm id b localData xs with
  | zero => exact .nil h
  | succ n ih =>
    rw [bufferChain] at hnodup
    have hb : b ∉ poolFreeQ pool :: xs := fun hmem ↦
      disjoint_of_nodup_append (cons_append ▸ hnodup) hmem (by simp)
    have hone := placed_placeBuffer h hb id localData mh md
    refine hone.trans ?_
    rw [placeBuffers, placeBuffer_fst]
    exact ih _ _ hone.queue (by simpa using hnodup)

/-! ### Taking memory -/

/-- The stretch of `bytes` at `ptr` is taken out of the gap between the two allocation counters, by
moving one of them across it. -/
structure Carved (allocated allocated' : Cpu → U32) (ptr : SmPtr) (bytes : ℕ) : Prop where
  lower : (allocated .ap).toNat ≤ ptr.toNat
  upper : ptr.toNat + bytes ≤ (allocated .cp).toNat
  ap_le : (allocated .ap).toNat ≤ (allocated' .ap).toNat
  le_cp : (allocated' .cp).toNat ≤ (allocated .cp).toNat
  gap : (allocated' .ap).toNat ≤ (allocated' .cp).toNat
  outside : ptr.toNat + bytes ≤ (allocated' .ap).toNat ∨ (allocated' .cp).toNat ≤ ptr.toNat

/-- The end of the gap at which a CPU takes its memory. -/
def Bumped (allocated allocated' : Cpu → U32) (ptr : SmPtr) (bytes : ℕ) : Cpu → Prop
  | .ap => allocated .ap = ptr ∧ (allocated' .ap).toNat = ptr.toNat + bytes ∧
      allocated' .cp = allocated .cp
  | .cp => allocated' .cp = ptr ∧ (allocated .cp).toNat = ptr.toNat + bytes ∧
      allocated' .ap = allocated .ap

/-- **`IPC_SmAlloc`** on counters in order: nothing happens, or a stretch is carved if the gap is
large enough. -/
theorem smAlloc_cases {sm : Sm} (hgap : (sm.allocated .ap).toNat ≤ (sm.allocated .cp).toNat)
    (cpu : Cpu) (size : U32) :
    sm.allocated .cp - sm.allocated .ap < size ∧ smAlloc sm cpu size = (0, sm) ∨
      size ≤ sm.allocated .cp - sm.allocated .ap ∧ ∃ ptr allocated,
        smAlloc sm cpu size = (ptr, { sm with allocated := allocated }) ∧
        Carved sm.allocated allocated ptr size.toNat ∧
        Bumped sm.allocated allocated ptr size.toNat cpu := by
  unfold smAlloc
  split
  · next hlt => exact .inl ⟨hlt, rfl⟩
  · next hge =>
    refine .inr ⟨BitVec.not_lt.1 hge, ?_⟩
    have hle : (sm.allocated .ap).toNat + size.toNat ≤ (sm.allocated .cp).toNat := by bv_omega
    cases cpu with
    | ap =>
      have hnew : (sm.allocated .ap + size).toNat = (sm.allocated .ap).toNat + size.toNat := by
        bv_omega
      dsimp only
      rw [if_neg (by simp [BitVec.lt_def, hnew]; omega)]
      exact ⟨_, _, rfl, ⟨le_rfl, hle, by simp [hnew], by simp, by simpa [hnew] using hle,
        .inl (by simp [hnew])⟩, rfl, by simp [hnew], by simp⟩
    | cp =>
      have hnew : (sm.allocated .cp - size).toNat = (sm.allocated .cp).toNat - size.toNat := by
        bv_omega
      dsimp only
      rw [if_neg (by simp [BitVec.lt_def, hnew]; omega)]
      exact ⟨_, _, rfl, ⟨by rw [hnew]; omega, by rw [hnew]; omega, by simp, by simp [hnew],
        by simp [hnew]; omega, .inr (by simp)⟩, by simp, by rw [hnew]; omega, by simp⟩

/-- What admitting a pool does: memory is carved, the buffers are counted, and the chain of pools is
extended. -/
structure Admitted (sm sm' : Sm) (cpu : Cpu) (pool : SmPtr) (bytes : ℕ) (bufferCount : U32) :
    Prop where
  pool_ne : pool ≠ 0
  carved : Carved sm.allocated sm'.allocated pool bytes
  room : sm.currentBuffers cpu + bufferCount < smMaxBuffers
  control : sm'.toSmControl = { sm.toSmControl with
    allocated := sm'.allocated
    currentBuffers := update sm.currentBuffers cpu (sm.currentBuffers cpu + bufferCount)
    firstPool := sm'.firstPool
    lastPool := sm'.lastPool }
  pools : ∀ p, (sm'.pools p).SameCount (sm.pools p)
  buffers : sm'.buffers = sm.buffers
  links : sm'.links = sm.links

/-- The chain of pools threads through the pool records without touching anything else in them. -/
theorem smAddPool_frame (sm : Sm) (pool : SmPtr) :
    (smAddPool sm pool).toSmControl = { sm.toSmControl with
        firstPool := (smAddPool sm pool).firstPool
        lastPool := (smAddPool sm pool).lastPool } ∧
      (∀ p, ((smAddPool sm pool).pools p).SameCount (sm.pools p)) ∧
      (smAddPool sm pool).buffers = sm.buffers ∧ (smAddPool sm pool).links = sm.links := by
  have hupd : ∀ (f : SmPtr → BufferPool) (q p : SmPtr),
      (update f q { f q with nextPool := pool } p).SameCount (f p) := by
    intro f q p
    rcases eq_or_ne p q with rfl | hne
    · rw [update_self]; exact ⟨rfl, rfl⟩
    · rw [update_of_ne hne]; exact .rfl
  simp only [smAddPool]
  split <;> split
  · exact ⟨rfl, fun p ↦ .rfl, rfl, rfl⟩
  · exact ⟨rfl, hupd _ _, rfl, rfl⟩
  · exact ⟨rfl, fun p ↦ .rfl, rfl, rfl⟩
  · exact ⟨rfl, hupd _ _, rfl, rfl⟩

/-- There is room for a pool: buffers may be counted, and the gap is large enough. -/
def Sm.HasRoom (sm : Sm) (cpu : Cpu) (size bufferCount : U32) : Prop :=
  sm.currentBuffers cpu + bufferCount < smMaxBuffers ∧
    size ≤ sm.allocated .cp - sm.allocated .ap

/-- **`IPC_SmPoolAlloc`** on counters in order: nothing happens, or the pool is admitted if there is
room for it. -/
theorem smPoolAlloc_cases {sm : Sm} (hbase : 0 < (sm.allocated .ap).toNat)
    (hgap : (sm.allocated .ap).toNat ≤ (sm.allocated .cp).toNat)
    (cpu : Cpu) (overhead headerSize dataSize bufferCount : U32) :
    let size := overhead + (bufferOverhead + headerSize + dataSize) * bufferCount
    ¬ sm.HasRoom cpu size bufferCount ∧
        smPoolAlloc sm cpu overhead headerSize dataSize bufferCount = (0, sm) ∨
      sm.HasRoom cpu size bufferCount ∧ ∃ pool sm',
        smPoolAlloc sm cpu overhead headerSize dataSize bufferCount = (pool, sm') ∧
        Admitted sm sm' cpu pool size.toNat bufferCount ∧
        Bumped sm.allocated sm'.allocated pool size.toNat cpu := by
  intro size
  unfold smPoolAlloc
  split
  · next hfull => exact .inl ⟨fun hroom ↦ BitVec.not_le.2 hroom.1 hfull, rfl⟩
  · next hroom =>
    rcases smAlloc_cases hgap cpu size with
      ⟨hlt, heq⟩ | ⟨hle, pool, allocated, heq, hcarved, hbumped⟩
    · rw [heq]
      exact .inl ⟨fun hroom ↦ BitVec.not_le.2 hlt hroom.2, if_pos rfl⟩
    · rw [heq]
      have hne : pool ≠ 0 := by grind [hcarved.lower]
      dsimp only
      rw [if_neg hne]
      refine .inr ⟨⟨BitVec.not_le.1 hroom, hle⟩, _, _, rfl, ?_⟩
      obtain ⟨hcontrol, hpools, hbuffers, hlinks⟩ := smAddPool_frame
        { sm with
          allocated := allocated
          currentBuffers := update sm.currentBuffers cpu
            (sm.currentBuffers cpu + bufferCount) } pool
      exact ⟨⟨hne, by rw [hcontrol]; exact hcarved, by simpa using hroom, by rw [hcontrol], hpools,
        hbuffers, hlinks⟩, by rw [hcontrol]; exact hbumped⟩

/-! ### The whole creation -/

/-- The configuration of the pool a call would create. -/
def PoolArgs.config (args : PoolArgs) (sm : Sm) (cpu : Cpu) : PoolConfig :=
  (args.record cpu (sm.endpoints args.destinationEndpointId).maxHeaderSize).config

/-- The bytes of a pool, as the source computes them. -/
def PoolArgs.size (args : PoolArgs) (sm : Sm) : U32 :=
  sizeofBufferPool + (bufferOverhead + (sm.endpoints args.destinationEndpointId).maxHeaderSize +
    align4 args.bufferSize) * args.numberOfBuffers

/-- The arguments pass the checks of `IPC_CreateBufferPoolWithDescriptor`, and there is room. -/
def PoolArgs.Admissible (args : PoolArgs) (sm : Sm) (cpu : Cpu) : Prop :=
  args.numberOfBuffers ≠ 0 ∧ args.flowStartLimit ≤ args.numberOfBuffers ∧
    args.flowStopLimit < args.numberOfBuffers ∧
    sm.HasRoom cpu (args.size sm) args.numberOfBuffers

theorem PoolArgs.Admissible.pos {args : PoolArgs} {sm : Sm} {cpu : Cpu}
    (h : args.Admissible sm cpu) : 0 < args.numberOfBuffers.toNat := by
  have := h.1
  bv_omega

/-- What a successful creation does: on top of the admission, the record is written and the buffers
are placed in an empty queue. -/
structure Created (sm sm' : Sm) (cpu : Cpu) (pool : SmPtr) (args : PoolArgs) : Prop where
  fits : (args.config sm cpu).Fits pool
  stop_lt : args.flowStopLimit < args.numberOfBuffers
  admitted : ∃ sm₁, Admitted sm sm₁ cpu pool (args.config sm cpu).bytes args.numberOfBuffers ∧
    sm'.toSmControl = sm₁.toSmControl
  record : sm'.pools pool = args.record cpu (sm.endpoints args.destinationEndpointId).maxHeaderSize
  pools_frame : ∀ p ≠ pool, (sm'.pools p).SameCount (sm.pools p)
  queue : IsQueue sm'.links (poolFreeQ pool) ((args.config sm cpu).buffers pool)
  links_frame : ∀ a ∉ poolFreeQ pool :: poolAllocatedQ pool :: (args.config sm cpu).buffers pool,
    sm'.links.next a = sm.links.next a ∧ sm'.links.prev a = sm.links.prev a ∧
      sm'.links.item a = sm.links.item a
  item_mem : ∀ a ∈ (args.config sm cpu).buffers pool, sm'.links.item a = a
  record_mem : ∀ a ∈ (args.config sm cpu).buffers pool,
    (sm'.buffers a).pool = pool ∧ (sm'.buffers a).dataBufferStart = a + bufferOverhead
  buffers_frame : ∀ a ∉ (args.config sm cpu).buffers pool, sm'.buffers a = sm.buffers a
  status : ∀ a, (sm'.buffers a).statusCode = (sm.buffers a).statusCode

namespace Created

variable {sm sm' : Sm} {cpu : Cpu} {pool : SmPtr} {args : PoolArgs}

variable (h : Created sm sm' cpu pool args)
include h

theorem carved : Carved sm.allocated sm'.allocated pool (args.config sm cpu).bytes := by
  obtain ⟨sm₁, hadm, hcontrol⟩ := h.admitted
  rw [hcontrol]
  exact hadm.carved

theorem currentBuffers : sm.currentBuffers cpu + args.numberOfBuffers < smMaxBuffers ∧
      sm'.currentBuffers = update sm.currentBuffers cpu
        (sm.currentBuffers cpu + args.numberOfBuffers) := by
  obtain ⟨sm₁, hadm, hcontrol⟩ := h.admitted
  rw [hcontrol, hadm.control]
  exact ⟨hadm.room, rfl⟩

theorem control_frame : sm'.fifos = sm.fifos ∧ sm'.crashCode = sm.crashCode := by
  obtain ⟨sm₁, hadm, hcontrol⟩ := h.admitted
  rw [hcontrol, hadm.control]
  exact ⟨rfl, rfl⟩

theorem pool_ne : pool ≠ 0 := by
  obtain ⟨sm₁, hadm, -⟩ := h.admitted
  exact hadm.pool_ne

end Created

/-- The byte count of the source is the true one when that does not wrap. -/
theorem PoolArgs.toNat_bytes {args : PoolArgs} {sm : Sm} {cpu : Cpu}
    (hbytes : (args.config sm cpu).bytes < 2 ^ 32) (hn : 0 < args.numberOfBuffers.toNat) :
    (args.size sm).toNat = (args.config sm cpu).bytes := by
  have hstride := PoolConfig.toNat_stride hbytes.le hn
  have hmul : ((args.config sm cpu).stride * args.numberOfBuffers).toNat =
      (60 + (args.config sm cpu).maxHeaderSize.toNat + (args.config sm cpu).maxDataSize.toNat) *
        (args.config sm cpu).maxBuffers.toNat := by
    rw [BitVec.toNat_mul, hstride]
    refine Nat.mod_eq_of_lt (lt_of_le_of_lt ?_ hbytes)
    exact Nat.le_add_left _ _
  change (sizeofBufferPool + (args.config sm cpu).stride * args.numberOfBuffers).toNat = _
  rw [BitVec.toNat_add, hmul]
  exact Nat.mod_eq_of_lt hbytes

theorem created_setUpPool {sm sm₁ : Sm} {cpu : Cpu} {pool : SmPtr} {args : PoolArgs}
    (hadm : Admitted sm sm₁ cpu pool (args.config sm cpu).bytes args.numberOfBuffers)
    (hok : args.Admissible sm cpu) (size localData : U32) :
    Created sm (setUpPool sm₁ cpu args (sm.endpoints args.destinationEndpointId).maxHeaderSize pool
      size localData) cpu pool args := by
  have hfits : (args.config sm cpu).Fits pool :=
    hadm.carved.upper.trans (BitVec.isLt _).le
  have hfree := hfits.toNat_poolFreeQ
  have halloc := hfits.toNat_poolAllocatedQ
  have hhead : poolFreeQ pool ≠ poolAllocatedQ pool := fun heq ↦ by
    rw [heq] at hfree
    omega
  have hmem : ∀ a ∈ (args.config sm cpu).buffers pool, a ≠ poolFreeQ pool := by
    rintro a ha rfl
    have := hfits.mem_buffers ha
    omega
  -- both heads are initialised before the first buffer is queued
  have hinit : IsQueue (qInitialise (qInitialise sm₁.links (poolFreeQ pool) pool)
      (poolAllocatedQ pool) pool) (poolFreeQ pool) [] := by
    refine (isQueue_qInitialise sm₁.links (poolFreeQ pool) pool).congr fun a ha ↦ ?_
    have hne : a ≠ poolAllocatedQ pool := by
      rw [mem_singleton.1 ha]
      exact hhead
    simp [qInitialise, update_of_ne hne]
  have hplaced : Placed
      { sm₁.setPool pool (args.record cpu
          (sm.endpoints args.destinationEndpointId).maxHeaderSize) with
        links := qInitialise (qInitialise sm₁.links (poolFreeQ pool) pool)
          (poolAllocatedQ pool) pool }
      (setUpPool sm₁ cpu args (sm.endpoints args.destinationEndpointId).maxHeaderSize pool
        size localData) pool [] ((args.config sm cpu).buffers pool) :=
    placed_placeBuffers _ _ size _ 0 localData hinit
      (nodup_cons.2 ⟨fun h ↦ hmem _ h rfl, hfits.nodup_buffers⟩)
  refine ⟨hfits, hok.2.2.1, ⟨sm₁, hadm, hplaced.control⟩, ?_, fun p hp ↦ ?_, hplaced.queue,
    fun a ha ↦ ?_, hplaced.item_mem, hplaced.record_mem, fun a ha ↦ ?_, fun a ↦ ?_⟩
  · rw [hplaced.pools]
    exact update_self _ _ _
  · rw [hplaced.pools]
    simpa [Sm.setPool, update_of_ne hp] using hadm.pools p
  · simp only [mem_cons, not_or] at ha
    obtain ⟨hnext, hprev⟩ := hplaced.links_frame a (by simpa using ⟨ha.1, ha.2.2⟩)
    have hitem := hplaced.item_frame a ha.2.2
    simp only [qInitialise, next_setItem, next_setPrevious, next_setNext,
      prev_setItem, prev_setPrevious, prev_setNext, item_setItem,
      item_setPrevious, item_setNext, update_of_ne ha.1,
      update_of_ne ha.2.1, hadm.links] at hnext hprev hitem
    exact ⟨hnext, hprev, hitem⟩
  · rw [hplaced.buffers_frame a ha]
    exact congrFun hadm.buffers a
  · rw [hplaced.status a]
    exact congrArg Buffer.statusCode (congrFun hadm.buffers a)

variable {sm : Sm} {cpu : Cpu} {args : PoolArgs} (hbase : 0 < (sm.allocated .ap).toNat)
  (hgap : (sm.allocated .ap).toNat ≤ (sm.allocated .cp).toNat)
include hbase hgap

/-- A call of `IPC_CreateBufferPoolWithDescriptor` does nothing, or it admits a pool, which it sets
up if the local descriptors could be had. -/
theorem createBufferPoolWithDescriptor_admits (size kmalloc : U32) :
    ¬ args.Admissible sm cpu ∧
        createBufferPoolWithDescriptor sm cpu args size kmalloc = (0, sm) ∨
      args.Admissible sm cpu ∧ ∃ pool sm₁,
        Admitted sm sm₁ cpu pool (args.size sm).toNat args.numberOfBuffers ∧
        Bumped sm.allocated sm₁.allocated pool (args.size sm).toNat cpu ∧
        createBufferPoolWithDescriptor sm cpu args size kmalloc =
          if size ≠ 0 ∧ kmalloc = 0 then (0, sm₁) else (pool, setUpPool sm₁ cpu args
            (sm.endpoints args.destinationEndpointId).maxHeaderSize pool size
            (if size = 0 then 0 else kmalloc)) := by
  unfold createBufferPoolWithDescriptor
  split
  · next hzero => exact .inl ⟨fun h ↦ h.1 hzero, rfl⟩
  · next hzero =>
    split
    · next hstart => exact .inl ⟨fun h ↦ BitVec.not_le.2 hstart h.2.1, rfl⟩
    · next hstart =>
      split
      · next hstop => exact .inl ⟨fun h ↦ BitVec.not_le.2 h.2.2.1 hstop, rfl⟩
      · next hstop =>
        dsimp only
        rcases smPoolAlloc_cases hbase hgap cpu sizeofBufferPool
          (sm.endpoints args.destinationEndpointId).maxHeaderSize (align4 args.bufferSize)
          args.numberOfBuffers with ⟨hroom, heq⟩ | ⟨hroom, pool, sm₁, heq, hadm, hbumped⟩
        · exact .inl ⟨fun h ↦ hroom h.2.2.2, by rw [heq, if_pos rfl]⟩
        · refine .inr ⟨⟨hzero, BitVec.not_lt.1 hstart, BitVec.not_le.1 hstop, hroom⟩, pool, sm₁,
            hadm, hbumped, ?_⟩
          rw [heq]
          exact if_neg hadm.pool_ne

/-- **`IPC_CreateBufferPool`** asks for no local descriptors, so without wrap-around nothing happens
or the pool is created. -/
theorem createBufferPool_cases (hbytes : (args.config sm cpu).bytes < 2 ^ 32) :
    createBufferPool sm cpu args = (0, sm) ∨
      ∃ pool sm', createBufferPool sm cpu args = (pool, sm') ∧ Created sm sm' cpu pool args ∧
        Bumped sm.allocated sm'.allocated pool (args.config sm cpu).bytes cpu := by
  rcases createBufferPoolWithDescriptor_admits hbase hgap 0 0 with
    ⟨-, heq⟩ | ⟨hok, pool, sm₁, hadm, hbumped, heq⟩
  · exact .inl heq
  · rw [PoolArgs.toNat_bytes hbytes hok.pos] at hadm hbumped
    refine .inr ⟨pool, _, heq, created_setUpPool hadm hok _ _, ?_⟩
    rw [setUpPool, control_placeBuffers]
    exact hbumped

end Ipc
