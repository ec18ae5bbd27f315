import MerrukKernel.Library.CircularBuffer
import Mathlib.Data.BitVec

/-!
# The kernel fifo

`struct kfifo` is a ring of bytes between two free-running 32-bit indices: `in` counts what has been
put, `out` what has been taken, and only their low bits address the buffer. The capacity is a power
of two, so that nothing happens when an index wraps around.

`Fifo.Holds` is the queue that a fifo stands for: `q` waits in it, and `d` bytes went before. The
functions that copy are described once, by what they write or read around the end of the buffer;
the rest is arithmetic on the two indices.
-/

open CircularBuffer

namespace Kfifo

open List

abbrev Byte := BitVec 8

/-- `struct kfifo`. Of the buffer only the cells below `size` are meant. -/
structure Fifo where
  buffer : ℕ → Byte
  size : BitVec 32
  in_ : BitVec 32
  out : BitVec 32

namespace Fifo

def kfifoLen (f : Fifo) : BitVec 32 := f.in_ - f.out

def kfifoAvail (f : Fifo) : BitVec 32 := f.size - f.kfifoLen

def kfifoOff (f : Fifo) (off : BitVec 32) : BitVec 32 := off &&& (f.size - 1)

def kfifoAddIn (f : Fifo) (off : BitVec 32) : Fifo := { f with in_ := f.in_ + off }

def kfifoAddOut (f : Fifo) (off : BitVec 32) : Fifo := { f with out := f.out + off }

/-- `__kfifo_in_data`, for the `len` bytes at `from`. -/
def kfifoInData (f : Fifo) (src : List Byte) (off : BitVec 32) : Fifo :=
  let off := f.kfifoOff (f.in_ + off)
  let l := min src.length (f.size - off).toNat
  { f with buffer := store (store f.buffer off.toNat (src.take l)) 0 (src.drop l) }

/-- `__kfifo_out_data`: the bytes that it stores at `to`. -/
def kfifoOutData (f : Fifo) (len : ℕ) (off : BitVec 32) : List Byte :=
  let off := f.kfifoOff (f.out + off)
  let l := min len (f.size - off).toNat
  slice f.buffer off.toNat l ++ slice f.buffer 0 (len - l)

/-- `kfifo_out_peek`: the bytes that it stores at `to`, and what it returns. The fifo stays. -/
def kfifoOutPeek (f : Fifo) (len offset : BitVec 32) : List Byte × BitVec 32 :=
  let len := if f.kfifoLen < len + offset then f.kfifoLen else len + offset
  (f.kfifoOutData len.toNat offset, len)

/-- `copy_from_user`, when `left` bytes cannot be read: they are returned, and cleared. -/
def copyFromUser (buffer : ℕ → Byte) (dst : ℕ) (src : List Byte) (left : ℕ) : ℕ × (ℕ → Byte) :=
  let ret := min left src.length
  (ret, store buffer dst (src.take (src.length - ret) ++ List.replicate ret 0))

/-- `copy_to_user`, when `left` bytes cannot be written: they are returned, and the others are
there. -/
def copyToUser (src : List Byte) (left : ℕ) : ℕ × List Byte :=
  let ret := min left src.length
  (ret, src.take (src.length - ret))

/-- `__kfifo_from_user_data`: whether it fails, `*lenout` and the fifo. The two copies leave `left`
behind. -/
def kfifoFromUserData (f : Fifo) (src : List Byte) (off : BitVec 32) (left : ℕ × ℕ) :
    Bool × ℕ × Fifo :=
  let off := f.kfifoOff (f.in_ + off)
  let l := min src.length (f.size - off).toNat
  let c := copyFromUser f.buffer off.toNat (src.take l) left.1
  if c.1 ≠ 0 then (true, c.1, { f with buffer := c.2 })
  else
    let c := copyFromUser c.2 0 (src.drop l) left.2
    (c.1 ≠ 0, l + (if c.1 ≠ 0 then c.1 else src.length - l), { f with buffer := c.2 })

/-- `__kfifo_to_user_data`: whether it fails, `*lenout` and the bytes that reach user space. -/
def kfifoToUserData (f : Fifo) (len : ℕ) (off : BitVec 32) (left : ℕ × ℕ) : Bool × ℕ × List Byte :=
  let off := f.kfifoOff (f.out + off)
  let l := min len (f.size - off).toNat
  let c := copyToUser (slice f.buffer off.toNat l) left.1
  if c.1 ≠ 0 then (true, l - c.1, c.2)
  else
    let c' := copyToUser (slice f.buffer 0 (len - l)) left.2
    if c'.1 ≠ 0 then (true, l + (len - l - c'.1), c.2 ++ c'.2) else
      (false, l + (len - l), c.2 ++ c'.2)

/-! ### The queue in a fifo -/

/-- **The queue in a fifo**: `q` waits, behind `d` bytes that are gone. -/
structure Holds (f : Fifo) (k d : ℕ) (q : List Byte) : Prop where
  width : k < 32
  size : f.size = BitVec.ofNat 32 (2 ^ k)
  in_ : f.in_ = BitVec.ofNat 32 (d + q.length)
  out : f.out = BitVec.ofNat 32 d
  fits : q.length ≤ 2 ^ k
  bytes : window (2 ^ k) f.buffer d q.length = q

variable {f : Fifo} {k d m : ℕ} {q src : List Byte} {off : BitVec 32}

theorem copyFromUser_eq (buffer : ℕ → Byte) (dst : ℕ) (src : List Byte) (left : ℕ) :
    ∃ ret b, copyFromUser buffer dst src left = (ret, store buffer dst b) ∧
      b.length = src.length ∧ (ret = 0 → b = src) :=
  ⟨_, _, rfl, by simp, fun h ↦ by simp [h]⟩

/-- A copy of the kernel is one without faults. -/
theorem kfifoFromUserData_zero (f : Fifo) (src : List Byte) (off : BitVec 32) :
    f.kfifoFromUserData src off (0, 0) = (false, src.length, f.kfifoInData src off) := by
  have hcopy : ∀ buffer dst src, copyFromUser buffer dst src 0 = (0, store buffer dst src) := by
    simp [copyFromUser]
  simp [kfifoFromUserData, kfifoInData, hcopy]

theorem kfifoToUserData_zero (f : Fifo) (len : ℕ) (off : BitVec 32) :
    f.kfifoToUserData len off (0, 0) = (false, len, f.kfifoOutData len off) := by
  have hcopy : ∀ src, copyToUser src 0 = (0, src) := by simp [copyToUser]
  simp [kfifoToUserData, kfifoOutData, hcopy]

theorem two_pow_lt (hk : k < 32) : 2 ^ k < 2 ^ 32 := Nat.pow_lt_pow_right (by omega) hk

section

variable (hk : k < 32) (hs : f.size = BitVec.ofNat 32 (2 ^ k))
include hk hs

/-- Only the low bits of an index address the buffer. -/
theorem toNat_kfifoOff (m : ℕ) :
    (f.kfifoOff (BitVec.ofNat 32 m)).toNat = m % 2 ^ k := by
  have hlt := two_pow_lt hk
  have hpos := Nat.two_pow_pos k
  have hmask : (f.size - 1).toNat = 2 ^ k - 1 := by
    rw [hs, BitVec.toNat_sub, BitVec.toNat_ofNat, Nat.mod_eq_of_lt hlt]
    show (2 ^ 32 - 1 + 2 ^ k) % 2 ^ 32 = _
    omega
  rw [kfifoOff, BitVec.toNat_and, hmask, Nat.and_two_pow_sub_one_eq_mod, BitVec.toNat_ofNat,
    Nat.mod_mod_of_dvd _ (Nat.pow_dvd_pow 2 hk.le)]

/-- The cells up to the end of the buffer. -/
theorem toNat_size_sub (m : ℕ) : (f.size - f.kfifoOff (BitVec.ofNat 32 m)).toNat = 2 ^
    k - m % 2 ^ k := by
  have hlt := two_pow_lt hk
  rw [BitVec.toNat_sub, toNat_kfifoOff hk hs, hs, BitVec.toNat_ofNat]
  omega

/-- **What a put writes**: bytes from the end of the queue on, and all of `src` unless it fails. -/
theorem kfifoFromUserData_writes (hin : f.in_ + off = BitVec.ofNat 32 m)
    (hlen : src.length ≤ 2 ^ k) (left : ℕ × ℕ) : ∃ fault lenout b buffer,
      f.kfifoFromUserData src off left = (fault, lenout, { f with buffer }) ∧
      b.length ≤ src.length ∧ Writes (2 ^ k) f.buffer m b buffer ∧ (fault = false → b = src) := by
  have hat : m % 2 ^ k % 2 ^ k = m % 2 ^ k := Nat.mod_mod ..
  simp only [kfifoFromUserData, hin, toNat_kfifoOff hk hs, toNat_size_sub hk hs]
  generalize hl : min src.length (2 ^ k - m % 2 ^ k) = l
  obtain ⟨r₁, a, h₁, halen, ha⟩ := copyFromUser_eq f.buffer (m % 2 ^ k) (src.take l) left.1
  obtain ⟨r₂, b, h₂, hblen, hb⟩ :=
    copyFromUser_eq (store f.buffer (m % 2 ^ k) a) 0 (src.drop l) left.2
  rw [length_take] at halen
  rw [length_drop] at hblen
  simp only [h₁, h₂]
  split_ifs with hr₁ hr₂
  · exact ⟨_, _, a, _, rfl, by omega, (writes_store f.buffer (by omega)).of_modEq hat, by simp⟩
  all_goals
    refine ⟨_, _, a ++ b, _, rfl, by simp; omega, ?_, fun hno ↦ ?_⟩
    · refine (writes_store_append f.buffer (by omega) (fun hne ↦ ?_) (by omega)).of_modEq hat
      have := length_pos_of_ne_nil hne
      omega
  · simp [hr₂] at hno
  · rw [ha (not_not.1 hr₁), hb (not_not.1 hr₂)]
    exact take_append_drop ..

/-- **What a get reads**: the bytes of the queue, all that are asked for unless it fails, and
`*lenout` counts them. -/
theorem kfifoToUserData_reads (hout : f.out + off = BitVec.ofNat 32 m) {len : ℕ}
    (hlen : len ≤ 2 ^ k) (left : ℕ × ℕ) : ∃ fault, ∃ j ≤ len,
      f.kfifoToUserData len off left = (fault, j, window (2 ^ k) f.buffer m j) := by
  have hmod := Nat.mod_lt m (Nat.two_pow_pos k)
  simp only [kfifoToUserData, hout, toNat_kfifoOff hk hs, toNat_size_sub hk hs, copyToUser,
    length_slice]
  have hall := slice_append_slice f.buffer hmod hlen
  rw [window_mod] at hall
  generalize min len (2 ^ k - m % 2 ^ k) = l at hall
  have hl : l ≤ len := by
    have := congrArg length hall
    simp at this
    omega
  -- in either case a first part of the two slices is there
  have hread : ∀ j ≤ len, (slice f.buffer (m % 2 ^ k) l ++ slice f.buffer 0 (len - l)).take j =
      window (2 ^ k) f.buffer m j := fun j hj ↦ by rw [hall, take_window _ _ hj]
  split_ifs with h₁ h₂
  · refine ⟨true, l - min left.1 l, by omega, ?_⟩
    rw [← hread _ (by omega), take_append_of_le_length (by simp)]
  · refine ⟨true, l + (len - l - min left.2 (len - l)), by omega, ?_⟩
    rw [← hread _ (by omega), not_not.1 h₁, take_append]
    simp
  · refine ⟨false, l + (len - l), by omega, ?_⟩
    rw [← hread _ (by omega), not_not.1 h₁, not_not.1 h₂, take_append]
    simp

end

/-! ### Moving the indices -/

section

variable (h : f.Holds k d q)
include h

theorem Holds.toNat_len : f.kfifoLen.toNat = q.length := by
  have hlt := two_pow_lt h.width
  have hfits := h.fits
  rw [kfifoLen, h.in_, h.out, BitVec.ofNat_add, add_sub_cancel_left, BitVec.toNat_ofNat,
    Nat.mod_eq_of_lt (by omega)]

theorem Holds.toNat_avail : f.kfifoAvail.toNat = 2 ^ k - q.length := by
  have hlt := two_pow_lt h.width
  have hfits := h.fits
  rw [kfifoAvail, BitVec.toNat_sub, h.toNat_len, h.size, BitVec.toNat_ofNat]
  omega

/-- Behind the queue the buffer may be written. -/
theorem Holds.write {j : ℕ} {b : List Byte} {buffer : ℕ → Byte}
    (hw : Writes (2 ^ k) f.buffer (d + q.length + j) b buffer)
    (hroom : q.length + j + b.length ≤ 2 ^ k) : ({ f with buffer } : Fifo).Holds k d q := by
  have hsame := hw.window_before (s := d) (by rw [Nat.add_assoc]) hroom
  have hle : q.length ≤ q.length + j := Nat.le_add_right ..
  refine { h with bytes := ?_ }
  show window (2 ^ k) buffer d _ = _
  rw [← take_window _ _ hle, hsame, take_window _ _ hle, h.bytes]

/-- `__kfifo_add_in`, behind what has been written there. -/
theorem Holds.addIn (hroom : q.length + src.length ≤ 2 ^ k)
    (hsrc : window (2 ^ k) f.buffer (d + q.length) src.length = src) :
    (f.kfifoAddIn (BitVec.ofNat 32 src.length)).Holds k d (q ++ src) where
  width := h.width
  size := h.size
  in_ := by
    rw [kfifoAddIn, h.in_, length_append, ← Nat.add_assoc, BitVec.ofNat_add _ src.length]
  out := h.out
  fits := by rwa [length_append]
  bytes := by
    show window (2 ^ k) f.buffer d _ = _
    rw [length_append, window_add, h.bytes, hsrc]

theorem Holds.addOut {j : ℕ} (hj : j ≤ q.length) :
    (f.kfifoAddOut (BitVec.ofNat 32 j)).Holds k (d + j) (q.drop j) where
  width := h.width
  size := h.size
  in_ := by
    rw [length_drop, Nat.add_assoc, Nat.add_sub_cancel' hj]
    exact h.in_
  out := by rw [kfifoAddOut, h.out, BitVec.ofNat_add]
  fits := length_drop ▸ (Nat.sub_le ..).trans h.fits
  bytes := by
    have hsplit := window_add f.buffer d j (q.length - j) (n := 2 ^ k)
    rw [Nat.add_sub_cancel' hj, h.bytes] at hsplit
    show window (2 ^ k) f.buffer (d + j) _ = _
    rw [length_drop]
    nth_rewrite 2 [hsplit]
    exact (drop_left' (length_window ..)).symm

/-- The first bytes of the queue. -/
theorem Holds.window_eq_take {j : ℕ} (hj : j ≤ q.length) :
    window (2 ^ k) f.buffer d j = q.take j := by
  rw [← take_window _ _ hj, h.bytes]

/-! ### Peeking -/

theorem Holds.kfifoOutData_eq {len : ℕ} (hlen : len ≤ 2 ^ k) (offset : BitVec 32) :
    f.kfifoOutData len offset = window (2 ^ k) f.buffer (d + offset.toNat) len := by
  have hout : f.out + offset = BitVec.ofNat 32 (d + offset.toNat) := by
    rw [h.out, BitVec.ofNat_add, BitVec.ofNat_toNat, BitVec.setWidth_eq]
  obtain ⟨fault, j, -, heq⟩ := kfifoToUserData_reads h.width h.size hout hlen (0, 0)
  rw [kfifoToUserData_zero, Prod.mk.injEq, Prod.mk.injEq] at heq
  obtain ⟨-, rfl, hbytes⟩ := heq
  exact hbytes

/-- **A peek is clamped as if `len` were counted from the front of the queue.** At offset zero, and
in an empty fifo, it stores the bytes that were asked for and returns how many; at every other
offset, if the sum does not wrap around, it does not. -/
theorem kfifo_out_peek_iff (len offset : BitVec 32) :
    let asked := (q.drop offset.toNat).take len.toNat
    let done := f.kfifoOutPeek len offset = (asked, BitVec.ofNat 32 asked.length)
    (offset = 0 ∨ q = [] → done) ∧
      (len.toNat + offset.toNat < 2 ^ 32 → done → offset = 0 ∨ q = []) := by
  intro asked done
  have hlt := two_pow_lt h.width
  have hfits := h.fits
  have hasked : asked.length = min len.toNat (q.length - offset.toNat) := by simp [asked]
  generalize hret : (f.kfifoOutPeek len offset).2 = ret
  have hmin : ret.toNat = min q.length ((len.toNat + offset.toNat) % 2 ^ 32) := by
    rw [← hret, kfifoOutPeek, ← h.toNat_len, ← BitVec.toNat_add]
    simp only [BitVec.lt_def]
    split_ifs <;> omega
  have hpeek : f.kfifoOutPeek len offset = (window (2 ^ k) f.buffer (d + offset.toNat)
      ret.toNat, ret) := by
    rw [← h.kfifoOutData_eq (by omega), ← hret]
    rfl
  refine ⟨fun hgood ↦ ?_, fun hsum hdone ↦ ?_⟩
  · have hzero : offset.toNat = 0 ∨ q.length = 0 := hgood.imp (congrArg _) (congrArg _)
    have hcount : ret.toNat = asked.length := by
      have := len.isLt
      omega
    have hbytes : window (2 ^ k) f.buffer (d + offset.toNat) asked.length = asked := by
      rcases hgood with rfl | rfl
      · refine (h.window_eq_take (j := asked.length) (by omega)).trans ?_
        simp [asked, take_eq_take_iff]
      · simp [asked, window]
    show f.kfifoOutPeek len offset = _
    rw [hpeek, ← hcount, BitVec.ofNat_toNat, BitVec.setWidth_eq, hcount, hbytes]
  · have hcount := congrArg (BitVec.toNat ∘ Prod.snd) (hpeek.symm.trans hdone)
    simp only [Function.comp_apply, BitVec.toNat_ofNat, hasked] at hcount
    rw [← List.length_eq_zero_iff, ← BitVec.toNat_inj]
    show offset.toNat = 0 ∨ _
    omega

end

/-- Three bytes in a fifo of four. -/
def threeBytes : Fifo := ⟨fun i ↦ BitVec.ofNat 8 (i + 1), 4, 3, 0⟩

theorem threeBytes_holds : threeBytes.Holds 2 0 [1, 2, 3] :=
  ⟨by decide, rfl, rfl, rfl, by decide, by decide⟩

theorem kfifo_out_peek_iff_front : threeBytes.kfifoOutPeek 2 0 = ([1, 2], 2) :=
  (kfifo_out_peek_iff threeBytes_holds 2 0).1 (.inl rfl)

/-- **A peek writes past the buffer of its caller.** Two bytes are stored where there is room for
one. -/
theorem peek_overruns :
    threeBytes.Holds 2 0 [1, 2, 3] ∧ threeBytes.kfifoOutPeek 1 1 = ([2, 3], 2) :=
  ⟨threeBytes_holds, by decide⟩

end Fifo

end Kfifo
