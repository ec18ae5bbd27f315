import MerrukKernel.Library.Trace
import MerrukKernel.Ipc.BufferPool

/-!
# The FIFOs never overflow

`smFifoWrite` stores without looking. What keeps a FIFO from overrunning its reader is spread over
three places: pools are admitted only while the buffers of their CPU number fewer than
`IPC_SM_MAX_BUFFERS` (`smPoolAlloc`), every message in a FIFO is a buffer of one CPU, and no
buffer is in a FIFO twice. So there are never as many messages as slots.

The system below interleaves the three operations freely, one write or one read a step. It
carries, for each FIFO, the **history** of what was written to it and read from it, and, for each
CPU, the buffers of its pools. The invariant `Channel.Safe` says that what was written is what was
read followed by what is in flight; everything the FIFOs promise is read off it.
-/

namespace Ipc

open Function List Fifo

/-- Shared memory, with the buffers of each CPU's pools and the history of each FIFO. -/
structure Channel where
  sm : Sm
  owned : Cpu → List SmPtr
  written : FifoId → List SmPtr
  read : FifoId → List SmPtr

/-- One step of either CPU. -/
inductive FifoOp
  /-- `IPC_SmPoolAlloc` for a buffer pool. -/
  | poolAlloc (cpu : Cpu) (headerSize dataSize bufferCount : U32)
  | write (id : FifoId) (message : SmPtr)
  | read (id : FifoId)

namespace Channel

/-- The area just initialised by both CPUs, `first` before the other. -/
def init (endpoints : U32 → Endpoint) (smSize : U32) (first : Cpu) : Channel where
  sm := boot endpoints smSize first
  owned _ := []
  written _ := []
  read _ := []

/-- The effect of a step. A read that does not move the read index has returned no message. -/
def exec (c : Channel) : FifoOp → Channel
  | .poolAlloc cpu headerSize dataSize bufferCount =>
    let r := smPoolAlloc c.sm cpu sizeofBufferPool headerSize dataSize bufferCount
    if r.1 = 0 then { c with sm := r.2 }
    else
      let buffers := bufferChain (bufferOverhead + headerSize + dataSize) bufferCount.toNat
        (r.1 + sizeofBufferPool)
      { c with
        sm := r.2
        owned := update c.owned cpu (c.owned cpu ++ buffers) }
  | .write id message =>
    { c with
      sm := c.sm.setFifo id (smFifoWrite (c.sm.fifos id) message)
      written := update c.written id (c.written id ++ [message]) }
  | .read id =>
    let r := smFifoRead (c.sm.fifos id)
    { c with
      sm := c.sm.setFifo id r.2
      read := update c.read id (if r.2.readIndex = (c.sm.fifos id).readIndex then c.read id
        else c.read id ++ [r.1]) }

/-- When a step may be taken: the buffer count does not wrap, and what is written to a FIFO is a
buffer of the CPU the FIFO is for that is not in it already. -/
def guard (owner : FifoId → Cpu) (c : Channel) : FifoOp → Prop
  | .poolAlloc cpu _ _ bufferCount => (c.sm.currentBuffers cpu).toNat + bufferCount.toNat < 2 ^ 32
  | .write id message => message ∈ c.owned (owner id) ∧ message ∉ (c.sm.fifos id).pending
  | .read _ => True

instance (owner : FifoId → Cpu) (c : Channel) : ∀ op, Decidable (guard owner c op)
  | .poolAlloc .. => inferInstanceAs (Decidable (_ < _))
  | .write .. => inferInstanceAs (Decidable (_ ∧ _))
  | .read _ => inferInstanceAs (Decidable True)

/-- **The FIFO system**: each FIFO carries buffers of the CPU `owner` names for it. -/
def machine (owner : FifoId → Cpu) : Machine Channel FifoOp := ⟨guard owner, exec⟩

instance (owner : FifoId → Cpu) (c : Channel) (op : FifoOp) :
    Decidable ((machine owner).guard c op) :=
  inferInstanceAs (Decidable (guard owner c op))

/-! ### The invariant -/

/-- The invariant of one FIFO: indices in range, history, and messages that are distinct buffers of
one CPU. -/
structure FifoSafe (f : Fifo) (written read owned : List SmPtr) : Prop where
  wf : f.WF
  history : written = read ++ f.pending
  nodup : f.pending.Nodup
  owned : ∀ m ∈ f.pending, m ∈ owned

/-- The invariant of the system. -/
structure Safe (owner : FifoId → Cpu) (c : Channel) : Prop where
  /-- Each CPU's buffers are counted, and admitted below the number of slots. -/
  counted : ∀ cpu, (c.owned cpu).length = (c.sm.currentBuffers cpu).toNat
  admitted : ∀ cpu, (c.sm.currentBuffers cpu).toNat < 1024
  fifos : ∀ id, FifoSafe (c.sm.fifos id) (c.written id) (c.read id) (c.owned (owner id))

namespace FifoSafe

variable {f : Fifo} {written read owned : List SmPtr}

variable (h : FifoSafe f written read owned)
include h

theorem mono {owned' : List SmPtr}
    (hsub : ∀ m ∈ owned, m ∈ owned') : FifoSafe f written read owned' :=
  ⟨h.wf, h.history, h.nodup, fun m hm ↦ hsub m (h.owned m hm)⟩

section

variable {m : SmPtr} (hlen : owned.length < 1024) (hm : m ∈ owned) (hnew : m ∉ f.pending)
include hlen hm hnew

theorem room : f.pending.length + 1 < 1024 :=
  room_of_subset h.nodup h.owned hlen hm hnew

theorem write : FifoSafe (smFifoWrite f m) (written ++ [m]) read owned := by
  have hpend := pending_smFifoWrite h.wf (h.room hlen hm hnew) m
  refine ⟨h.wf.smFifoWrite m, ?_, ?_, fun x hx ↦ ?_⟩
  · rw [hpend, h.history, append_assoc]
  · rw [hpend]
    exact List.Nodup.append h.nodup (nodup_singleton m) (by simpa using hnew)
  · rw [hpend] at hx
    rcases mem_append.1 hx with hx | hx
    · exact h.owned x hx
    · exact mem_singleton.1 hx ▸ hm

end

theorem readStep : FifoSafe (smFifoRead f).2 written (if (smFifoRead f).2.readIndex = f.readIndex
    then read else read ++ [(smFifoRead f).1]) owned := by
  by_cases hne : f.readIndex = f.writeIndex
  · simpa [smFifoRead, hne] using h
  have hmoved : (smFifoRead f).2.readIndex ≠ f.readIndex := by
    rw [smFifoRead, if_neg hne]
    have := toNat_fifoIncrement h.wf.readIndex_lt
    have := h.wf.readIndex_lt
    bv_omega
  rw [if_neg hmoved]
  obtain ⟨m, ms, hp⟩ : ∃ m ms, f.pending = m :: ms :=
    exists_cons_of_ne_nil fun hnil ↦ hne ((pending_eq_nil_iff h.wf).1 hnil)
  obtain ⟨hm, hwf, hms⟩ := smFifoRead_of_cons h.wf hp
  have hnd := hp ▸ h.nodup
  refine ⟨hwf, ?_, ?_, fun x hx ↦ ?_⟩
  · rw [hms, hm, h.history, hp, append_assoc, singleton_append]
  · rw [hms]; exact (nodup_cons.1 hnd).2
  · exact h.owned x (hp ▸ mem_cons_of_mem m (hms ▸ hx))

end FifoSafe

variable {owner : FifoId → Cpu} {c : Channel}

theorem safe_init (owner : FifoId → Cpu) (endpoints : U32 → Endpoint) (smSize : U32)
    (first : Cpu) : Safe owner (init endpoints smSize first) := by
  have hcur : ∀ cpu, (boot endpoints smSize first).currentBuffers cpu = 0 := by
    intro cpu
    cases first <;> cases cpu <;> rfl
  have hfifo : ∀ id, (boot endpoints smSize first).fifos id = .init fun _ ↦ 0 := by
    rintro (cpu | cpu) <;> cases first <;> cases cpu <;> rfl
  refine ⟨fun cpu ↦ ?_, fun cpu ↦ ?_, fun id ↦ ?_⟩
  · simp [init, hcur]
  · simp [init, hcur]
  · refine ⟨?_, ?_, ?_, ?_⟩ <;> simp [init, hfifo, wf_init]

/-- A FIFO step touches one FIFO, whose invariant it has to keep, and its history. -/
theorem Safe.setFifo (h : Safe owner c) {id : FifoId} {f : Fifo} {written read : List SmPtr}
    (hf : FifoSafe f written read (c.owned (owner id))) :
    Safe owner { c with
      sm := c.sm.setFifo id f
      written := update c.written id written
      read := update c.read id read } := by
  refine ⟨h.counted, h.admitted, fun id' ↦ ?_⟩
  rcases eq_or_ne id' id with rfl | hne
  · simpa [Sm.setFifo] using hf
  · simpa [Sm.setFifo, update_of_ne hne] using h.fifos id'

/-- **One step keeps the invariant.** -/
theorem Safe.step (h : Safe owner c) {op : FifoOp} (hg : guard owner c op) :
    Safe owner (c.exec op) := by
  cases op with
  | poolAlloc cpu headerSize dataSize bufferCount =>
    simp only [exec]
    have hfifos := smPoolAlloc_fifos c.sm cpu sizeofBufferPool headerSize dataSize bufferCount
    split
    · rename_i hzero
      have hcur := smPoolAlloc_currentBuffers_of_zero hzero
      exact ⟨by simpa [hcur] using h.counted, by simpa [hcur] using h.admitted,
        by simpa [hfifos] using h.fifos⟩
    · rename_i hne
      obtain ⟨hlt, hcur⟩ := smPoolAlloc_currentBuffers hne
      have hsum : (c.sm.currentBuffers cpu + bufferCount).toNat =
          (c.sm.currentBuffers cpu).toNat + bufferCount.toNat := by
        rw [BitVec.toNat_add, Nat.mod_eq_of_lt hg]
      refine ⟨fun cpu' ↦ ?_, fun cpu' ↦ ?_, fun id ↦ ?_⟩
      · rcases eq_or_ne cpu' cpu with rfl | hcpu
        · simp [hcur, hsum, h.counted]
        · simp [hcur, update_of_ne hcpu, h.counted]
      · rcases eq_or_ne cpu' cpu with rfl | hcpu
        · simpa [hcur, toNat_smMaxBuffers] using BitVec.lt_def.1 hlt
        · simpa [hcur, update_of_ne hcpu] using h.admitted cpu'
      · refine hfifos ▸ (h.fifos id).mono fun m hm ↦ ?_
        rcases eq_or_ne (owner id) cpu with rfl | hcpu
        · simp [hm]
        · simpa [update_of_ne hcpu] using hm
  | write id message =>
    have hlen : (c.owned (owner id)).length < 1024 := by
      rw [h.counted]; exact h.admitted _
    simpa [exec] using h.setFifo ((h.fifos id).write hlen hg.1 hg.2)
  | read id => simpa [exec] using h.setFifo (h.fifos id).readStep

/-- Every reachable state is safe. -/
theorem Safe.of_runs {endpoints : U32 → Endpoint} {smSize : U32} {first : Cpu}
    {ops : List FifoOp} (h : (machine owner).Runs (init endpoints smSize first) ops c) :
    Safe owner c :=
  h.invariant (I := Safe owner) (fun _ _ hs hg ↦ hs.step hg) (safe_init owner _ _ _)

/-! ### What the FIFOs promise -/

/-- **No message is lost, duplicated or overwritten.** However the two CPUs interleave, what has
been read from a FIFO is a prefix of what has been written to it, the rest is what is in flight,
the count of the source is their difference, and a permitted write never brings the write index
onto the read index. -/
theorem fifo_lossless {endpoints : U32 → Endpoint} {smSize : U32} {first : Cpu}
    {ops : List FifoOp} (h : (machine owner).Runs (init endpoints smSize first) ops c)
    (id : FifoId) :
    c.read id <+: c.written id ∧
      (fifoCount (c.sm.fifos id)).toNat = (c.written id).length - (c.read id).length ∧
      (c.sm.fifos id).pending = (c.written id).drop (c.read id).length ∧
      (c.written id).length - (c.read id).length < 1024 ∧
      ∀ message, guard owner c (.write id message) →
        ((c.exec (.write id message)).sm.fifos id).writeIndex ≠
          ((c.exec (.write id message)).sm.fifos id).readIndex := by
  have hs := (Safe.of_runs h).fifos id
  have hcount : (fifoCount (c.sm.fifos id)).toNat = (c.written id).length - (c.read id).length := by
    rw [hs.history, length_append, ← length_pending]
    omega
  refine ⟨⟨_, hs.history.symm⟩, hcount, ?_, ?_, fun message hg ↦ ?_⟩
  · rw [hs.history, drop_left]
  · rw [← hcount, toNat_fifoCount hs.wf]
    exact Nat.mod_lt _ (by omega)
  · -- the FIFO just written to is not empty, and an empty FIFO is one whose indices agree
    have hs' := (((Safe.of_runs h).step hg).fifos id)
    intro heq
    have hnil := (pending_eq_nil_iff hs'.wf).2 heq.symm
    have hlen : (c.sm.fifos id).pending.length + 1 < 1024 :=
      hs.room (by rw [(Safe.of_runs h).counted]; exact (Safe.of_runs h).admitted _) hg.1 hg.2
    have hpend := pending_smFifoWrite hs.wf hlen message
    simp [exec, Sm.setFifo, hpend] at hnil

/-- The system at work: a pool of two buffers, both sent to the other CPU, one of them received. -/
theorem fifo_lossless_two_buffers :
    let c := (machine fun _ ↦ .ap).final (init (fun _ ↦ ⟨.cp, 0, 0⟩) 131072 .ap)
      [.poolAlloc .ap 0 4 2, .write (.send .cp) 91840, .write (.send .cp) 91904, .read (.send .cp)]
    c.written (.send .cp) = [91840, 91904] ∧ c.read (.send .cp) = [91840] ∧
      (c.sm.fifos (.send .cp)).pending = [91904] ∧
      (fifoCount (c.sm.fifos (.send .cp))).toNat = 1 := by
  intro c
  obtain ⟨-, hcount, hpend, -⟩ := fifo_lossless (c := c)
    (Machine.Permitted.runs (by decide)) (.send .cp)
  refine ⟨by decide, by decide, ?_, ?_⟩
  · rw [hpend]; decide
  · rw [hcount]; decide

end Channel

end Ipc
