import Mathlib.Data.BitVec

/-!
# Timestamps

The timestamps of `bfq-sched.c` are 64-bit words that wrap around, and `bfq_gt` compares them by
the sign of their difference. Within a window of `2 ^ 63` this is the order of the distances from
the start of the window (`bfqGt_iff`).
-/

namespace Bfq

/-- `bfq_timestamp_t` -/
abbrev Timestamp := BitVec 64

/-- `bfq_gt` -/
def bfqGt (a b : Timestamp) : Bool := 0 < (a - b).toInt

/-- The distance from the start of a window. -/
def offset (base t : Timestamp) : ℕ := (t - base).toNat

/-- The timestamp lies in the window that starts at `base`. -/
def InWindow (base t : Timestamp) : Prop := offset base t < 2 ^ 63
deriving Decidable

variable {base a b c : Timestamp}

/-- Within a window, timestamps are compared by their distances from its start. -/
theorem bfqGt_iff (ha : InWindow base a) (hb : InWindow base b) :
    bfqGt a b = true ↔ offset base b < offset base a := by
  unfold bfqGt
  unfold InWindow offset at *
  rw [decide_eq_true_eq, BitVec.toInt_eq_toNat_cond]
  simp only [BitVec.toNat_sub] at *
  split <;> omega

theorem bfqGt_eq_false_iff (ha : InWindow base a) (hb : InWindow base b) :
    bfqGt a b = false ↔ offset base a ≤ offset base b := by
  rw [← Bool.not_eq_true, bfqGt_iff ha hb, not_lt]

theorem bfqGt_self (a : Timestamp) : bfqGt a a = false := by
  simp [bfqGt]

theorem bfqGt_asymm (h : bfqGt a b = true) : bfqGt b a = false := by
  unfold bfqGt at h ⊢
  rw [decide_eq_true_eq, BitVec.toInt_eq_toNat_cond] at h
  rw [decide_eq_false_iff_not, BitVec.toInt_eq_toNat_cond]
  simp only [BitVec.toNat_sub] at *
  split <;> split at h <;> omega

end Bfq
