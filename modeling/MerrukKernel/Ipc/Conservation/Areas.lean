import MerrukKernel.Ipc.Conservation.Runs

/-!
# The areas of the pools

Where the pools of both CPUs lie after any number of creations: those of the applications CPU one
above the other from the end of the control block on, those of the communications CPU one below the
other from the end of shared memory on, and the gap between the allocation counters in the middle.
The buffers of a pool are all in its free queue, and lie in its area one behind the other.

Shared memory has to be at least as large as the control block: `IPC_Initialise` does not look, and
in less the counters are out of order from the start.
-/

open List

namespace Ipc

/-- The areas of the pools follow one another from `a` up to `b`. -/
def Stacked (bytes : SmPtr → ℕ) : ℕ → List SmPtr → ℕ → Prop
  | a, [], b => a = b
  | a, p :: ps, b => p.toNat = a ∧ Stacked bytes (a + bytes p) ps b

section

variable {bytes bytes' : SmPtr → ℕ} {a b : ℕ} {p : SmPtr} {ps : List SmPtr}

theorem stacked_snoc : Stacked bytes a (ps ++ [p]) b ↔
    Stacked bytes a ps p.toNat ∧ p.toNat + bytes p = b := by
  induction ps generalizing a with
  | nil => grind [Stacked]
  | cons q ps ih => simp [Stacked, ih, and_assoc]

theorem Stacked.congr (h : Stacked bytes a ps b) (hbytes : ∀ p ∈ ps, bytes' p = bytes p) :
    Stacked bytes' a ps b := by
  induction ps generalizing a with
  | nil => exact h
  | cons q ps ih =>
    refine ⟨h.1, ?_⟩
    rw [hbytes q mem_cons_self]
    exact ih h.2 fun p hp ↦ hbytes p (mem_cons_of_mem _ hp)

theorem Stacked.le (h : Stacked bytes a ps b) : a ≤ b ∧ ∀ p ∈ ps, a ≤ p.toNat := by
  induction ps generalizing a with
  | nil => exact ⟨Nat.le_of_eq h, by simp⟩
  | cons q ps ih => grind [Stacked]

end

namespace System

/-- The calls of `IPC_CreateBufferPool` that succeed, for pools whose byte total has 32 bits. -/
def creating : Machine System (Cpu × PoolArgs) where
  guard s c := (c.2.config s.sm c.1).bytes < 2 ^ 32 ∧ (createBufferPool s.sm c.1 c.2).1 ≠ 0
  exec s c := s.createPool c.1 c.2

/-- The pools of a CPU, in the order of their creation. -/
def poolsOf (s : System) (cpu : Cpu) : List SmPtr :=
  s.pools.filter fun p ↦ (s.sm.config p).cpu = cpu

/-- The pools and the buffers in them are laid out in order. -/
structure LaidOut (smSize : U32) (s : System) : Prop where
  up : Stacked (fun p ↦ (s.sm.config p).bytes) sizeofSmControl.toNat (s.poolsOf .ap)
    (s.sm.allocated .ap).toNat
  down : Stacked (fun p ↦ (s.sm.config p).bytes) (s.sm.allocated .cp).toNat
    (s.poolsOf .cp).reverse smSize.toNat
  apart : s.pools.Pairwise fun p q ↦ p.toNat + (s.sm.config p).bytes ≤ q.toNat ∨
    q.toNat + (s.sm.config q).bytes ≤ p.toNat
  chained : ∀ p ∈ s.pools, IsQueue s.sm.links (poolFreeQ p) (s.sm.poolBuffers p)
  placed : ∀ p ∈ s.pools, ∀ b ∈ s.sm.poolBuffers p,
    (s.sm.buffers b).pool = p ∧ (s.sm.buffers b).dataBufferStart = b + bufferOverhead

variable {s : System} {loc : SmPtr → Place} {smSize : U32} {sm' : Sm} {cpu : Cpu} {pool : SmPtr}
  {args : PoolArgs}

theorem poolsOf_withPool (h : Conserves s loc) (hc : Created s.sm sm' cpu pool args) (c : Cpu) :
    (s.withPool sm' pool).poolsOf c = s.poolsOf c ++ if cpu = c then [pool] else [] := by
  obtain ⟨hold, hnew⟩ := h.config_created hc
  have hcpu : (sm'.config pool).cpu = cpu := congrArg PoolConfig.cpu hnew
  have hfilter : s.pools.filter (fun p ↦ (sm'.config p).cpu = c) = s.poolsOf c :=
    filter_congr fun p hp ↦ by rw [hold p hp]
  show (s.pools ++ [pool]).filter (fun p ↦ (sm'.config p).cpu = c) = _
  rw [filter_append, hfilter, filter_singleton, hcpu]
  simp

/-- **A creation keeps the pools in order.** -/
theorem LaidOut.withPool (hl : s.LaidOut smSize) (h : Conserves s loc)
    (hc : Created s.sm sm' cpu pool args)
    (hb : Bumped s.sm.allocated sm'.allocated pool (args.config s.sm cpu).bytes cpu) :
    (s.withPool sm' pool).LaidOut smSize := by
  obtain ⟨hold, hnew⟩ := h.config_created hc
  obtain ⟨hbuffers, hbuffers'⟩ := h.poolBuffers_created hc
  have hbytes : ∀ p ∈ s.pools, (sm'.config p).bytes = (s.sm.config p).bytes := fun p hp ↦ by
    rw [hold p hp]
  have hup := hl.up.congr fun p hp ↦ hbytes p (mem_of_mem_filter hp)
  have hdown := hl.down.congr fun p hp ↦ hbytes p (mem_of_mem_filter (mem_reverse.1 hp))
  refine ⟨?_, ?_, pairwise_append.2 ⟨?_, pairwise_singleton .., fun p hp q hq ↦ ?_⟩,
    fun p hp ↦ ?_, fun p hp b hbp ↦ ?_⟩
  · rw [poolsOf_withPool h hc]
    cases cpu with
    | ap =>
      obtain ⟨hap, hap', -⟩ := hb
      exact stacked_snoc.2 ⟨hap ▸ hup, (hnew ▸ hap').symm⟩
    | cp =>
      rw [if_neg (by simp), append_nil]
      exact hb.2.2.symm ▸ hup
  · rw [poolsOf_withPool h hc]
    cases cpu with
    | ap =>
      rw [if_neg (by simp), append_nil]
      exact hb.2.2.symm ▸ hdown
    | cp =>
      obtain ⟨hcp', hcp, -⟩ := hb
      rw [reverse_append]
      refine ⟨congrArg BitVec.toNat hcp'.symm, ?_⟩
      show Stacked _ ((sm'.allocated .cp).toNat + (sm'.config pool).bytes) _ _
      rw [hcp', hnew, ← hcp]
      exact hdown
  · exact hl.apart.imp_of_mem fun hp hq hpq ↦ by
      rw [← hbytes _ hp, ← hbytes _ hq] at hpq
      exact hpq
  · obtain rfl := mem_singleton.1 hq
    exact (h.layout_created hc).disjoint p (mem_append_left _ hp) q (by simp)
      fun heq ↦ h.new_pool hc (heq ▸ hp)
  · rcases mem_append.1 hp with hp | hp
    · show IsQueue sm'.links (poolFreeQ p) (sm'.poolBuffers p)
      rw [hbuffers p hp]
      refine (hl.chained p hp).congr fun a ha ↦ ?_
      have hin : InPool s.sm p a := by
        rcases mem_cons.1 ha with rfl | ha
        · exact h.settled.layout.inPool_head hp
        · exact h.settled.layout.inPool_buffer hp ha
      obtain ⟨h1, h2, -⟩ := h.frame_created hc hp hin
      exact ⟨h1, h2⟩
    · obtain rfl := mem_singleton.1 hp
      exact hbuffers'.symm ▸ hc.queue
  · rcases mem_append.1 hp with hp | hp
    · have hbp : b ∈ s.sm.poolBuffers p := hbuffers p hp ▸ hbp
      obtain ⟨-, -, -, hframe⟩ := h.frame_created hc hp (h.settled.layout.inPool_buffer hp hbp)
      exact hframe.symm ▸ hl.placed p hp b hbp
    · obtain rfl := mem_singleton.1 hp
      exact hc.record_mem b (hbuffers' ▸ hbp)

/-- **The layout of shared memory** after any number of creations by both CPUs. -/
theorem pools_laid_out {endpoints : U32 → Endpoint} (hsize : sizeofSmControl ≤ smSize) {first : Cpu}
    {calls : List (Cpu × PoolArgs)} (h : creating.Runs (init endpoints smSize first) calls s) :
    s.LaidOut smSize ∧ (s.sm.allocated .ap).toNat ≤ (s.sm.allocated .cp).toNat ∧
      ∀ p ∈ s.pools, sizeofSmControl.toNat ≤ p.toNat ∧
        (∀ b ∈ s.sm.poolBuffers p, p.toNat + sizeofBufferPool.toNat ≤ b.toNat ∧
          b.toNat + bufferOverhead.toNat + (s.sm.config p).maxHeaderSize.toNat +
            (s.sm.config p).maxDataSize.toNat ≤ p.toNat + (s.sm.config p).bytes) ∧
        (s.sm.poolBuffers p).Pairwise fun b c ↦ b.toNat + (bufferOverhead.toNat +
          (s.sm.config p).maxHeaderSize.toNat + (s.sm.config p).maxDataSize.toNat) ≤ c.toNat := by
  have hinv : (∃ loc, Conserves s loc) ∧ s.LaidOut smSize := by
    refine h.invariant (I := fun s ↦ (∃ loc, Conserves s loc) ∧ s.LaidOut smSize)
      (fun t c ⟨⟨loc, hc⟩, hl⟩ hg ↦ ?_) ⟨⟨_, conserves_init endpoints hsize first⟩, ?_⟩
    · rcases createBufferPool_cases hc.settled.layout.base hc.settled.layout.gap hg.1 with
        heq | ⟨pool, sm', heq, hcr, hb⟩
      · exact absurd (congrArg Prod.fst heq) hg.2
      · have ht : creating.exec t c = t.withPool sm' pool := by
          simp only [creating, System.createPool, heq, if_neg hcr.pool_ne, System.withPool]
        rw [ht]
        exact ⟨⟨_, hc.withPool hcr⟩, hl.withPool hc hcr hb⟩
    · have hap : (boot endpoints smSize first).allocated .ap = sizeofSmControl := by
        cases first <;> rfl
      have hcp : (boot endpoints smSize first).allocated .cp = smSize := by cases first <;> rfl
      exact ⟨congrArg BitVec.toNat hap.symm, congrArg BitVec.toNat hcp, .nil, by simp [init],
        by simp [init]⟩
  obtain ⟨⟨loc, hc⟩, hl⟩ := hinv
  have hlayout := hc.settled.layout
  refine ⟨hl, hlayout.gap, fun p hp ↦ ⟨?_, fun b hb ↦ ?_, ?_⟩⟩
  · cases hcpu : (s.sm.config p).cpu with
    | ap => exact hl.up.le.2 p (mem_filter.2 ⟨hp, by simp [hcpu]⟩)
    | cp =>
      have hp := hl.down.le.2 p (mem_reverse.2 (mem_filter.2 ⟨hp, by simp [hcpu]⟩))
      exact (hl.up.le.1.trans hlayout.gap).trans hp
  · exact (hlayout.fits p hp).2.mem_buffers hb
  · exact (hlayout.fits p hp).2.pairwise_buffers

theorem pools_laid_out_both :
    let calls : List (Cpu × PoolArgs) := [(.ap, ⟨0, 1, 2, 5, 1, 0⟩), (.cp, ⟨1, 0, 3, 8, 1, 0⟩)]
    let s := creating.final (init (fun _ ↦ ⟨.cp, 0, 4⟩) 131072 .ap) calls
    s.pools = [91732, 130748] ∧ s.LaidOut 131072 := by
  intro calls s
  have hrun : creating.Permitted (init (fun _ ↦ ⟨.cp, 0, 4⟩) 131072 .ap) calls := by
    refine ⟨⟨?_, ?_⟩, ⟨?_, ?_⟩, trivial⟩ <;> decide +kernel
  exact ⟨by decide +kernel, (pools_laid_out (by decide) hrun.runs).1⟩

/-- In shared memory without room for the control block, the counters are out of order before the
first pool is created. -/
theorem counters_out_of_order :
    let s := creating.final (init (fun _ ↦ ⟨.cp, 0, 4⟩) 65536 .ap) []
    (s.sm.allocated .cp).toNat < (s.sm.allocated .ap).toNat := by
  decide

end System

end Ipc
