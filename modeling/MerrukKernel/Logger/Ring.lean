import Mathlib.Data.Nat.Bitwise
import MerrukKernel.Logger.Queues

/-!
# The ring holds the queues

`Tracks log off q`: the queue `q` is what lies between the offset `off` and the write offset. The
bytes from `off` on are the entries of `q`, they end at the write offset, and there are fewer of
them than the ring has cells. That the ring is never full is what makes equal offsets mean an
empty queue, and what leaves the walk of `get_next_entry` in front of the write offset.
-/

namespace Logger

open CircularBuffer List

/-- A ring as `DEFINE_LOGGER_DEVICE` asks for. -/
structure IsRing (size : ℕ) : Prop where
  pow : ∃ k, size = 2 ^ k
  gt : entryMaxLen < size

theorem IsRing.two_mul_le {size : ℕ} (h : IsRing size) : 2 * entryMaxLen ≤ size := by
  obtain ⟨⟨k, rfl⟩, hgt⟩ := h
  have hk : 12 < k :=
    (Nat.pow_lt_pow_iff_right (by decide : 1 < 2)).1 (by simpa [entryMaxLen] using hgt)
  calc 2 * entryMaxLen = 2 ^ 13 := by decide
    _ ≤ 2 ^ k := Nat.pow_le_pow_right (by decide) hk

theorem Log.offset_eq {log : Log} (h : IsRing log.size) (n : ℕ) : log.offset n = n % log.size := by
  obtain ⟨k, hk⟩ := h.pow
  rw [offset, hk, Nat.and_two_pow_sub_one_eq_mod]

/-- The bytes of an entry start with the length of its payload. -/
def IsEntry (e : Entry) : Prop :=
  ∃ stamp payload, payload.length ≤ entryMaxPayload ∧ e = header payload.length stamp ++ payload

@[simp] theorem length_header (len : ℕ) (stamp : Stamp) : (header len stamp).length = sizeofEntry :=
  rfl

theorem IsEntry.length_bounds {e : Entry} (h : IsEntry e) :
    sizeofEntry ≤ e.length ∧ e.length ≤ entryMaxLen := by
  obtain ⟨stamp, payload, hlen, rfl⟩ := h
  simp only [length_append, length_header]
  simp only [entryMaxPayload, entryMaxLen, sizeofEntry] at *
  omega

theorem IsEntry.bytes_eq {e : Entry} (h : IsEntry e) : ∃ lo hi rest, e = lo :: hi :: rest ∧
    sizeofEntry + (lo.toNat + 256 * hi.toNat) = e.length := by
  obtain ⟨stamp, payload, hlen, rfl⟩ := h
  refine ⟨.ofNat payload.length, .ofNat (payload.length / 256), _, rfl, ?_⟩
  have hsmall : payload.length < 65536 := hlen.trans_lt (by decide)
  rw [length_append, length_header, UInt8.toNat_ofNat', UInt8.toNat_ofNat']
  omega

/-- The queue `q` lies between `off` and the write offset. -/
structure Tracks (log : Log) (off : ℕ) (q : List Entry) : Prop where
  off_lt : off < log.size
  window_eq : window log.size log.buffer off (bytes q) = q.flatten
  reaches : (off + bytes q) % log.size = log.wOff
  bytes_lt : bytes q < log.size
  entries : ∀ e ∈ q, IsEntry e

namespace Tracks

variable {log : Log} {off : ℕ} {e : Entry} {q : List Entry}

theorem wOff_lt (h : Tracks log off q) : log.wOff < log.size :=
  h.reaches ▸ Nat.mod_lt _ (Nat.zero_lt_of_lt h.off_lt)

/-- The write offset in terms of the read offset. -/
theorem wOff_cases (h : Tracks log off q) : (off + bytes q < log.size ∧ log.wOff = off + bytes q) ∨
      (log.size ≤ off + bytes q ∧ log.wOff + log.size = off + bytes q) := by
  have hoff := h.off_lt
  have hbytes := h.bytes_lt
  have hreaches := h.reaches
  rcases Nat.lt_or_ge (off + bytes q) log.size with hlt | hge
  · grind [Nat.mod_eq_of_lt]
  · rw [Nat.mod_eq_sub_mod hge, Nat.mod_eq_of_lt (by omega)] at hreaches
    exact .inr ⟨hge, by omega⟩

/-- Equal offsets mean an empty queue. -/
theorem eq_wOff_iff (h : Tracks log off q) : log.wOff = off ↔ q = [] := by
  constructor
  · intro heq
    have hzero : bytes q = 0 := by grind [h.bytes_lt, h.wOff_cases]
    cases q with
    | nil => rfl
    | cons e q =>
      have := (h.entries e (by simp)).length_bounds.1
      rw [bytes_cons] at hzero
      simp only [sizeofEntry] at this
      omega
  · rintro rfl
    have hreaches := h.reaches
    rw [bytes_nil, Nat.add_zero, Nat.mod_eq_of_lt h.off_lt] at hreaches
    exact hreaches.symm

theorem getEntryLen_eq (h : Tracks log off (e :: q)) : log.getEntryLen off = e.length := by
  obtain ⟨lo, hi, rest, rfl, hlen⟩ := (h.entries e (by simp)).bytes_eq
  have hwindow := h.window_eq
  have hoff := h.off_lt
  rw [bytes_cons, length_cons, length_cons, Nat.add_right_comm, window_succ,
    Nat.add_right_comm, window_succ] at hwindow
  simp only [flatten_cons, cons_append, List.cons.injEq] at hwindow
  obtain ⟨hlo, hhi, -⟩ := hwindow
  rw [Nat.mod_eq_of_lt hoff] at hlo
  rw [Log.getEntryLen, ← hlen, hlo]
  split_ifs with hlast
  · rw [show off + 1 = log.size by omega, Nat.mod_self] at hhi
    rw [hhi]
  · rw [Nat.mod_eq_of_lt (by omega)] at hhi
    rw [hhi]

/-- Past its oldest entry there is the rest of the queue. -/
theorem tail (h : Tracks log off (e :: q)) (hring : IsRing log.size) :
    Tracks log (log.offset (off + e.length)) q := by
  have hwindow := h.window_eq
  have hreaches := h.reaches
  have hbytes := h.bytes_lt
  rw [bytes_cons] at hwindow hreaches hbytes
  rw [window_add] at hwindow
  rw [Log.offset_eq hring]
  refine ⟨Nat.mod_lt _ (Nat.zero_lt_of_lt h.off_lt), ?_, ?_, by omega, fun x hx ↦
    h.entries x (by simp [hx])⟩
  · rw [window_mod]
    exact (append_inj hwindow (by simp)).2
  · grind [Nat.mod_add_mod]

variable (h : Tracks log off q) (hring : IsRing log.size)
include h hring

/-- **The walk of `get_next_entry`** drops entries until it has passed `len` bytes. With that many
bytes in the queue it stops in front of the write offset, and there is a pass for each of them. -/
theorem nextEntryLoop {len fuel count : ℕ}
    (hcount : count < len) (hlen : len ≤ count + bytes q) (hfuel : len ≤ count + fuel) :
    Tracks log (log.nextEntryLoop len fuel off count) (dropBytes (len - count) q) := by
  induction q generalizing off fuel count with
  | nil => rw [bytes_nil] at hlen; omega
  | cons e q ih =>
    obtain ⟨fuel, rfl⟩ : ∃ n, fuel = n + 1 := ⟨fuel - 1, by omega⟩
    have hpos := (h.entries e (by simp)).length_bounds.1
    simp only [sizeofEntry] at hpos
    rw [bytes_cons] at hlen
    rw [Log.nextEntryLoop, dropBytes]
    simp only [h.getEntryLen_eq]
    split_ifs with hmore hdone hdone
    · omega
    · have hfuel' : len ≤ count + e.length + fuel := by omega
      have hrest := ih (h.tail hring) hmore (by omega) hfuel'
      rwa [Nat.sub_add_eq] at hrest
    · exact h.tail hring
    · omega

theorem getNextEntry {len : ℕ} (hpos : 0 < len)
    (hlen : len ≤ bytes q) : Tracks log (log.getNextEntry off len) (dropBytes len q) :=
  h.nextEntryLoop hring hpos (by omega) (by omega)

/-- **`clock_interval`** asks whether the queue and `len` more bytes would take up the whole ring.
-/
theorem clockInterval_iff {len : ℕ} (hpos : 0 < len) (hlen : len < log.size) :
    Log.clockInterval log.wOff (log.offset (log.wOff + len)) off = true ↔
      log.size ≤ bytes q + len := by
  have hoff := h.off_lt
  have hbytes := h.bytes_lt
  have hwoff := h.wOff_lt
  have hnew : log.offset (log.wOff + len) =
      if log.wOff + len < log.size then log.wOff + len else log.wOff + len - log.size := by
    rw [Log.offset_eq hring]
    split_ifs with hlt
    · exact Nat.mod_eq_of_lt hlt
    · rw [Nat.mod_eq_sub_mod (by omega), Nat.mod_eq_of_lt (by omega)]
  rw [hnew, Log.clockInterval]
  rcases h.wOff_cases with hcase | hcase <;> split_ifs <;> rw [decide_eq_true_iff] <;> omega

/-- **`fix_up_readers`** on one offset reclaims room from its queue. -/
theorem fixUp {len : ℕ} (hpos : 0 < len) (hlen : len ≤ entryMaxLen) :
    Tracks log (log.fixUp len off) (reclaim log.size len q) := by
  have hsize := hring.two_mul_le
  have hiff := h.clockInterval_iff hring hpos (by omega)
  unfold Log.fixUp reclaim
  by_cases hfull : log.size ≤ bytes q + len
  · rw [if_pos (hiff.2 hfull), if_pos hfull]
    exact h.getNextEntry hring hpos (by omega)
  · grind

end Tracks

end Logger
