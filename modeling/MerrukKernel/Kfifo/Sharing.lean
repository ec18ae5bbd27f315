import MerrukKernel.Kfifo.Model
import MerrukKernel.Library.Trace

/-!
# One producer and one consumer

A call of the producer reads `out`, copies its bytes behind the queue and then moves `in`; a call of
the consumer reads `in`, copies bytes from the head of the queue and then moves `out`. Nothing keeps
the two apart, so that either works with an index of the other side that may have moved since. It
can only have moved to the caller's advantage: there is at least as much room, or as much to read,
as was seen.
-/

open CircularBuffer

namespace Kfifo

open List

/-- Where `kfifo_in` or `kfifo_from_user` stands, with the bytes that it has room for. -/
inductive Producer
  | idle
  | sampled (user : Bool) (src : List Byte)
  | copied (src : List Byte)

/-- Where `kfifo_out` or `kfifo_to_user` stands. -/
inductive Consumer
  | idle
  | sampled (user : Bool) (len : ℕ)
  | copied (lenout : ℕ) (dst : List Byte)

/-- A fifo with one producer and one consumer. -/
structure Shared where
  fifo : Fifo
  producer : Producer := .idle
  consumer : Consumer := .idle
  accepted : List Byte := []
  delivered : List Byte := []

/-- The steps of the two; the copies of user memory leave `left` behind. -/
inductive Step
  | sampleIn (user : Bool) (src : List Byte)
  | copyIn (left : ℕ × ℕ)
  | publishIn
  | sampleOut (user : Bool) (len : BitVec 32)
  | copyOut (left : ℕ × ℕ)
  | publishOut

namespace Shared

def init (buffer : ℕ → Byte) (k : ℕ) : Shared where
  fifo := ⟨buffer, BitVec.ofNat 32 (2 ^ k), 0, 0⟩

/-- A step of a side that is elsewhere in its call does nothing. -/
def exec (s : Shared) (a : Step) : Shared :=
  match a, s.producer, s.consumer with
  | .sampleIn user src, .idle, _ =>
    { s with producer := .sampled user (src.take s.fifo.kfifoAvail.toNat) }
  | .copyIn _, .sampled false src, _ =>
    { s with fifo := s.fifo.kfifoInData src 0, producer := .copied src }
  | .copyIn left, .sampled true src, _ =>
    -- `kfifo_from_user` returns at a fault without moving `in`
    let r := s.fifo.kfifoFromUserData src 0 left
    { s with fifo := r.2.2, producer := if r.1 then .idle else .copied src }
  | .publishIn, .copied src, _ =>
    { s with
      fifo := s.fifo.kfifoAddIn (BitVec.ofNat 32 src.length)
      producer := .idle
      accepted := s.accepted ++ src }
  | .sampleOut user len, _, .idle =>
    { s with consumer := .sampled user (min s.fifo.kfifoLen.toNat len.toNat) }
  | .copyOut _, _, .sampled false len =>
    { s with consumer := .copied len (s.fifo.kfifoOutData len 0) }
  | .copyOut left, _, .sampled true len =>
    let r := s.fifo.kfifoToUserData len 0 left
    { s with consumer := .copied r.2.1 r.2.2 }
  | .publishOut, _, .copied lenout dst =>
    { s with
      fifo := s.fifo.kfifoAddOut (BitVec.ofNat 32 lenout)
      consumer := .idle
      delivered := s.delivered ++ dst }
  | _, _, _ => s

/-- Every interleaving. -/
def machine : Machine Shared Step where
  guard _ _ := True
  exec := exec

/-- What the producer can count on: room for its bytes, and after the copy that they are there. -/
def ProducerFits (f : Fifo) (k d : ℕ) (q : List Byte) : Producer → Prop
  | .idle => True
  | .sampled _ src => q.length + src.length ≤ 2 ^ k
  | .copied src =>
    q.length + src.length ≤ 2 ^ k ∧ window (2 ^ k) f.buffer (d + q.length) src.length = src

/-- What the consumer can count on: bytes to read, and after the copy which they were. -/
def ConsumerFits (q : List Byte) : Consumer → Prop
  | .idle => True
  | .sampled _ len => len ≤ q.length
  | .copied lenout dst => lenout = dst.length ∧ dst <+: q

/-- The queue is what was accepted and not yet delivered, and both sides can go on. -/
structure Sound (k : ℕ) (s : Shared) (q : List Byte) : Prop where
  split : s.accepted = s.delivered ++ q
  holds : s.fifo.Holds k s.delivered.length q
  producer : ProducerFits s.fifo k s.delivered.length q s.producer
  consumer : ConsumerFits q s.consumer

variable {k : ℕ} {s : Shared} {q : List Byte}

theorem sound_init {k : ℕ} (hk : k < 32) (buffer : ℕ → Byte) : Sound k (init buffer k) [] :=
  ⟨rfl, ⟨hk, rfl, rfl, rfl, Nat.zero_le _, rfl⟩, trivial, trivial⟩

variable (h : Sound k s q)
include h

theorem Sound.copyIn {user fault : Bool} {src : List Byte} {left : ℕ × ℕ}
    {lenout : ℕ} {f : Fifo} (hp : s.producer = .sampled user src)
    (hf : s.fifo.kfifoFromUserData src 0 left = (fault, lenout, f)) :
    Sound k { s with fifo := f, producer := if fault then .idle else .copied src } q := by
  have hroom : ProducerFits s.fifo k s.delivered.length q (.sampled user src) := hp ▸ h.producer
  have hroom : q.length + src.length ≤ 2 ^ k := hroom
  have hlen : src.length ≤ 2 ^ k := by omega
  have hin : s.fifo.in_ + 0 = BitVec.ofNat 32 (s.delivered.length + q.length) :=
    (BitVec.add_zero _).trans h.holds.in_
  obtain ⟨fault', lenout', b, buffer, heq, hb, hw, hok⟩ :=
    Fifo.kfifoFromUserData_writes h.holds.width h.holds.size hin hlen left
  cases hf.symm.trans heq
  refine ⟨h.split, h.holds.write (j := 0) hw (by omega), ?_, h.consumer⟩
  cases fault with
  | true => trivial
  | false =>
    cases hok rfl
    exact ⟨hroom, hw.window_self⟩

theorem Sound.copyOut {user fault : Bool} {len lenout : ℕ} {left : ℕ × ℕ}
    {dst : List Byte} (hc : s.consumer = .sampled user len)
    (hf : s.fifo.kfifoToUserData len 0 left = (fault, lenout, dst)) :
    Sound k { s with consumer := .copied lenout dst } q := by
  have hlen : ConsumerFits q (.sampled user len) := hc ▸ h.consumer
  have hout : s.fifo.out + 0 = BitVec.ofNat 32 s.delivered.length :=
    (BitVec.add_zero _).trans h.holds.out
  obtain ⟨fault', j, hj, heq⟩ := Fifo.kfifoToUserData_reads h.holds.width h.holds.size hout
    (hlen.trans h.holds.fits) left
  cases hf.symm.trans heq
  refine ⟨h.split, h.holds, h.producer, (length_window ..).symm, ?_⟩
  rw [h.holds.window_eq_take (hj.trans hlen)]
  exact take_prefix ..

/-- The producer moves `in`: the consumer finds more than it saw. -/
theorem Sound.publishIn {src : List Byte} (hp : s.producer = .copied src) :
    Sound k { s with
      fifo := s.fifo.kfifoAddIn (BitVec.ofNat 32 src.length)
      producer := .idle
      accepted := s.accepted ++ src } (q ++ src) := by
  have hfits : ProducerFits s.fifo k s.delivered.length q (.copied src) := hp ▸ h.producer
  refine ⟨by rw [h.split, append_assoc], h.holds.addIn hfits.1 hfits.2, trivial, ?_⟩
  have hc := h.consumer
  show ConsumerFits (q ++ src) s.consumer
  cases hcons : s.consumer with
  | idle => trivial
  | sampled user len =>
    rw [hcons] at hc
    exact hc.trans (by simp)
  | copied lenout dst =>
    rw [hcons] at hc
    exact ⟨hc.1, hc.2.trans (prefix_append ..)⟩

/-- The consumer moves `out`: the producer finds more room than it saw. -/
theorem Sound.publishOut {lenout : ℕ} {dst : List Byte}
    (hc : s.consumer = .copied lenout dst) :
    Sound k { s with
      fifo := s.fifo.kfifoAddOut (BitVec.ofNat 32 lenout)
      consumer := .idle
      delivered := s.delivered ++ dst } (q.drop lenout) := by
  have hfits : ConsumerFits q (.copied lenout dst) := hc ▸ h.consumer
  obtain ⟨rfl, rest, rfl⟩ := hfits
  rw [drop_left]
  have hholds := h.holds.addOut (j := dst.length) (by simp)
  rw [drop_left, ← length_append] at hholds
  refine ⟨by rw [h.split, append_assoc], hholds, ?_, trivial⟩
  have hp := h.producer
  show ProducerFits _ k (s.delivered ++ dst).length rest s.producer
  cases hprod : s.producer with
  | idle => trivial
  | sampled user src =>
    rw [hprod] at hp
    exact (Nat.add_le_add_right (by simp) _).trans hp
  | copied src =>
    rw [hprod, ProducerFits, length_append, ← Nat.add_assoc] at hp
    rw [length_append]
    exact ⟨by omega, hp.2⟩

/-- **Every step keeps the queue.** -/
theorem Sound.step (a : Step) : ∃ q', Sound k (s.exec a) q' := by
  unfold exec
  split
  · refine ⟨q, h.split, h.holds, ?_, h.consumer⟩
    show q.length + (take _ _).length ≤ 2 ^ k
    have hfits := h.holds.fits
    rw [length_take, h.holds.toNat_avail]
    omega
  · next hp => exact ⟨q, h.copyIn hp (Fifo.kfifoFromUserData_zero ..)⟩
  · next hp => exact ⟨q, h.copyIn hp rfl⟩
  · next hp => exact ⟨_, h.publishIn hp⟩
  · refine ⟨q, h.split, h.holds, h.producer, ?_⟩
    exact h.holds.toNat_len ▸ Nat.min_le_left ..
  · next hc => exact ⟨q, h.copyOut hc (Fifo.kfifoToUserData_zero ..)⟩
  · next hc => exact ⟨q, h.copyOut hc rfl⟩
  · next hc => exact ⟨_, h.publishOut hc⟩
  · exact ⟨q, h⟩

omit h

/-- **The fifo between one producer and one consumer.** In every interleaving, what has been
delivered, or is being delivered, is the first part of what was accepted; at most `size` bytes are
in flight; and each of them is still in the buffer. -/
theorem kfifo_in_order (hk : k < 32) (buffer : ℕ → Byte) {steps : List Step}
    (h : machine.Runs (init buffer k) steps s) :
    s.delivered <+: s.accepted ∧
      (∀ lenout dst, s.consumer = .copied lenout dst → s.delivered ++ dst <+: s.accepted) ∧
      s.accepted.length - s.delivered.length ≤ 2 ^ k ∧
      window (2 ^ k) s.fifo.buffer s.delivered.length (s.accepted.length - s.delivered.length) =
        s.accepted.drop s.delivered.length := by
  have hsound : ∃ q, Sound k s q := by
    refine h.invariant (I := fun s ↦ ∃ q, Sound k s q) (fun t a ht _ ↦ ?_)
      ⟨[], sound_init hk buffer⟩
    obtain ⟨q, hq⟩ := ht
    exact hq.step a
  obtain ⟨q, hq⟩ := hsound
  have hlen : s.accepted.length - s.delivered.length = q.length := by simp [hq.split]
  rw [hlen, hq.split, drop_left]
  refine ⟨prefix_append .., fun lenout dst hc ↦ ?_, hq.holds.fits, hq.holds.bytes⟩
  have hfits := hq.consumer
  rw [hc] at hfits
  exact (prefix_append_right_inj _).2 hfits.2

theorem kfifo_in_order_wrapped :
    let steps : List Step := [.sampleIn false [1, 2, 3, 4, 5], .copyIn (0, 0), .publishIn,
      .sampleOut true 4, .copyOut (1, 0), .publishOut, .sampleIn true [6, 7, 8], .copyIn (1, 0),
      .sampleIn true [9, 10], .copyIn (0, 0), .publishIn]
    let s := machine.final (init (fun _ ↦ 0) 2) steps
    (s.delivered = [1, 2, 3] ∧ s.accepted = [1, 2, 3, 4, 9, 10]) ∧ s.delivered <+: s.accepted := by
  intro steps s
  have hrun : machine.Permitted (init (fun _ ↦ 0) 2) steps := by
    simp [steps, machine, Machine.Permitted]
  exact ⟨by decide, (kfifo_in_order (k := 2) (by decide) _ hrun.runs).1⟩

end Shared

end Kfifo
