import MerrukKernel.Library.CircularBuffer
import Mathlib.Data.BitVec

/-!
# The shared-memory FIFOs

The two CPUs exchange buffer offsets through fixed arrays of `IPC_SM_MAX_BUFFERS` slots in shared
memory (`ipc_sharedmemory.h`, `ipc_sharedmemory.c`). Indices are kept in range by masking one bit
off (`& ~IPC_SM_MAX_BUFFERS`), and **nothing tests for a full FIFO**: a write always stores, always
advances, and an overfull FIFO silently reads as a nearly empty one.

`Fifo.pending` is the list of messages in flight, read off the array between the two indices. The
specifications `Fifo.pending_smFifoWrite` and `smFifoRead_of_cons` say that the operations are the
queue operations on that list, the first under the bound the source does not check.
-/

open CircularBuffer List

namespace Ipc

/-- `IPC_U32`, the type of every quantity kept in shared memory. -/
abbrev U32 := BitVec 32

/-- `IPC_SmPtr`: a pointer into shared memory, as an offset from its base. -/
abbrev SmPtr := U32

/-- `IPC_SM_MAX_BUFFERS`, a power of two. -/
def smMaxBuffers : U32 := 1 <<< 10

/-- `IPC_Fifo_T`. Only the first `IPC_SM_MAX_BUFFERS` cells of `buffer` are the array. -/
structure Fifo where
  readIndex : U32
  writeIndex : U32
  writeCount : U32
  highWaterMark : U32
  buffer : ℕ → SmPtr

namespace Fifo

/-- The state `IPC_Initialise` leaves a FIFO in; the array is whatever memory held. -/
def init (buffer : ℕ → SmPtr) : Fifo := ⟨0, 0, 0, 0, buffer⟩

end Fifo

/-- `IPC_FIFOINCREMENT`. -/
def fifoIncrement (index : U32) : U32 := (index + 1) &&& ~~~smMaxBuffers

/-- `IPC_FIFOCOUNT`. -/
def fifoCount (fifo : Fifo) : U32 :=
  (fifo.writeIndex - fifo.readIndex + smMaxBuffers) &&& ~~~smMaxBuffers

/-- `IPC_SmFifoWrite`: store, advance and count, with no test for a full FIFO. -/
def smFifoWrite (fifo : Fifo) (message : SmPtr) : Fifo :=
  let originalWritePointer := fifo.writeIndex
  let fifo := { fifo with
    buffer := Function.update fifo.buffer originalWritePointer.toNat message
    writeIndex := fifoIncrement originalWritePointer
    writeCount := fifo.writeCount + 1 }
  if fifo.highWaterMark < fifoCount fifo then
    { fifo with highWaterMark := fifoCount fifo }
  else fifo

/-- `IPC_SmFifoRead`: the oldest message, or `0` when the indices agree. -/
def smFifoRead (fifo : Fifo) : SmPtr × Fifo :=
  if fifo.readIndex = fifo.writeIndex then (0, fifo)
  else (fifo.buffer fifo.readIndex.toNat, { fifo with readIndex := fifoIncrement fifo.readIndex })

/-! ### The index arithmetic -/

/-- Masking the one bit off is reduction modulo the array size, below twice that size. -/
theorem toNat_mask {x : U32} (h : x.toNat < 2048) :
    (x &&& ~~~smMaxBuffers).toNat = x.toNat % 1024 := by
  have hlow : ∀ i < 10, Nat.testBit 4294966271 i = true := by decide
  have hbit : Nat.testBit 4294966271 10 = false := by decide
  have hmask : (~~~smMaxBuffers).toNat = 4294966271 := by decide
  rw [BitVec.toNat_and, hmask, show 1024 = 2 ^ 10 from rfl]
  refine Nat.eq_of_testBit_eq fun i ↦ ?_
  rw [Nat.testBit_mod_two_pow]
  rcases Nat.lt_trichotomy i 10 with hi | rfl | hi
  · simp [hi, hlow i hi]
  · simp [hbit]
  · have hx : x.toNat.testBit i = false :=
      Nat.testBit_lt_two_pow (h.trans_le (Nat.pow_le_pow_right (n := 2) (by omega) hi))
    simp [hx]

theorem toNat_smMaxBuffers : smMaxBuffers.toNat = 1024 := rfl

theorem toNat_fifoIncrement {i : U32} (h : i.toNat < 1024) :
    (fifoIncrement i).toNat = (i.toNat + 1) % 1024 := by
  have hi : (i + 1).toNat = i.toNat + 1 := by bv_omega
  rw [fifoIncrement, toNat_mask (by omega), hi]

variable {f : Fifo}

namespace Fifo

/-- The indices stay inside the array. -/
structure WF (f : Fifo) : Prop where
  readIndex_lt : f.readIndex.toNat < 1024
  writeIndex_lt : f.writeIndex.toNat < 1024

theorem wf_init (buffer : ℕ → SmPtr) : (init buffer).WF := by
  constructor <;> simp [init]

/-- The messages in flight, oldest first. -/
def pending (f : Fifo) : List SmPtr :=
  window 1024 f.buffer f.readIndex.toNat (fifoCount f).toNat

theorem length_pending (f : Fifo) : f.pending.length = (fifoCount f).toNat := by
  simp [pending]

theorem toNat_fifoCount (h : f.WF) :
    (fifoCount f).toNat = (f.writeIndex.toNat + 1024 - f.readIndex.toNat) % 1024 := by
  obtain ⟨hr, hw⟩ := h
  have hd : (f.writeIndex - f.readIndex + smMaxBuffers).toNat =
      f.writeIndex.toNat + 1024 - f.readIndex.toNat := by
    have := toNat_smMaxBuffers
    bv_omega
  rw [fifoCount, toNat_mask (by omega), hd]

theorem writeIndex_eq (h : f.WF) :
    f.writeIndex.toNat = (f.readIndex.toNat + f.pending.length) % 1024 := by
  rw [length_pending, toNat_fifoCount h]
  obtain ⟨hr, hw⟩ := h
  omega

/-- Nothing is in flight exactly when the indices agree, which is the source's test. -/
theorem pending_eq_nil_iff (h : f.WF) : f.pending = [] ↔ f.readIndex = f.writeIndex := by
  rw [← length_eq_zero_iff, length_pending, toNat_fifoCount h, ← BitVec.toNat_inj]
  obtain ⟨hr, hw⟩ := h
  omega

@[simp] theorem pending_init (buffer : ℕ → SmPtr) : (init buffer).pending = [] :=
  (pending_eq_nil_iff (wf_init buffer)).2 rfl

end Fifo

/-! ### The operations as queue operations -/

/-- The array and the indices after a write; the high-water mark never matters to them. -/
theorem smFifoWrite_fields (f : Fifo) (m : SmPtr) : (smFifoWrite f m).readIndex = f.readIndex ∧
      (smFifoWrite f m).writeIndex = fifoIncrement f.writeIndex ∧
      (smFifoWrite f m).buffer = Function.update f.buffer f.writeIndex.toNat m := by
  unfold smFifoWrite
  dsimp only
  split <;> exact ⟨rfl, rfl, rfl⟩

namespace Fifo

theorem WF.smFifoWrite (h : f.WF) (m : SmPtr) : (smFifoWrite f m).WF := by
  obtain ⟨hr, hw, -⟩ := smFifoWrite_fields f m
  refine ⟨by rw [hr]; exact h.readIndex_lt, ?_⟩
  rw [hw, toNat_fifoIncrement h.writeIndex_lt]
  exact Nat.mod_lt _ (by omega)

/-- **A write appends**, provided the FIFO has room left — the test the source does not make. -/
theorem pending_smFifoWrite (h : f.WF) (hroom : f.pending.length + 1 < 1024)
    (m : SmPtr) : (smFifoWrite f m).pending = f.pending ++ [m] := by
  obtain ⟨hr, hw, hb⟩ := smFifoWrite_fields f m
  have hcount : (fifoCount (Ipc.smFifoWrite f m)).toNat = f.pending.length + 1 := by
    have hidx := writeIndex_eq h
    rw [toNat_fifoCount (h.smFifoWrite m), hr, hw, toNat_fifoIncrement h.writeIndex_lt]
    have := h.readIndex_lt
    omega
  have hwrites : Writes 1024 f.buffer f.writeIndex.toNat [m] (Ipc.smFifoWrite f m).buffer := by
    have hs := Writes.single (n := 1024) f.buffer f.writeIndex.toNat m
    rwa [Nat.mod_eq_of_lt h.writeIndex_lt, ← hb] at hs
  have happ := hwrites.window_append
    (by rw [writeIndex_eq h, Nat.mod_mod]) (by simp; omega)
  rw [pending, hcount, hr]
  rw [length_singleton] at happ
  rw [happ, pending, length_window]

/-- Distinct messages out of fewer candidates than slots leave room for one more of them. -/
theorem room_of_subset (hnodup : f.pending.Nodup) {owned : List SmPtr}
    (hsub : ∀ m ∈ f.pending, m ∈ owned) (hlen : owned.length < 1024) {m : SmPtr} (hm : m ∈ owned)
    (hnew : m ∉ f.pending) : f.pending.length + 1 < 1024 := by
  have hsub' : m :: f.pending ⊆ owned := cons_subset.2 ⟨hm, hsub⟩
  have := (subperm_of_subset (nodup_cons.2 ⟨hnew, hnodup⟩) hsub').length_le
  simp only [length_cons] at this
  omega

end Fifo

/-- **A read takes the oldest message.** -/
theorem smFifoRead_of_cons (h : f.WF) {m : SmPtr} {ms : List SmPtr} (hp : f.pending = m :: ms) :
    (smFifoRead f).1 = m ∧ (smFifoRead f).2.WF ∧ (smFifoRead f).2.pending = ms := by
  have hne : f.readIndex ≠ f.writeIndex := fun heq ↦ by
    rw [(Fifo.pending_eq_nil_iff h).2 heq] at hp
    exact absurd hp (by simp)
  have hlen : (fifoCount f).toNat = ms.length + 1 := by
    rw [← Fifo.length_pending, hp, length_cons]
  have hcons : f.pending = f.buffer f.readIndex.toNat ::
      window 1024 f.buffer (f.readIndex.toNat + 1) ms.length := by
    rw [Fifo.pending, hlen, window_succ, Nat.mod_eq_of_lt h.readIndex_lt]
  rw [hp] at hcons
  obtain ⟨hm, hms⟩ := List.cons.inj hcons
  have hwf : (smFifoRead f).2.WF := by
    rw [smFifoRead, if_neg hne]
    refine ⟨?_, h.writeIndex_lt⟩
    rw [toNat_fifoIncrement h.readIndex_lt]
    exact Nat.mod_lt _ (by omega)
  refine ⟨by rw [smFifoRead, if_neg hne, hm], hwf, ?_⟩
  have hcount : (fifoCount (smFifoRead f).2).toNat = ms.length := by
    have hidx := Fifo.writeIndex_eq h
    rw [hp, length_cons] at hidx
    have hlt : (fifoCount f).toNat < 1024 := by grind [Fifo.toNat_fifoCount]
    rw [Fifo.toNat_fifoCount hwf, smFifoRead, if_neg hne]
    dsimp only
    rw [toNat_fifoIncrement h.readIndex_lt]
    omega
  rw [Fifo.pending, hcount, smFifoRead, if_neg hne]
  rw [toNat_fifoIncrement h.readIndex_lt, window_mod, ← hms]

end Ipc
