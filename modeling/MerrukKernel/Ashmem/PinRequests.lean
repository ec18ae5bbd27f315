import MerrukKernel.Ashmem.Model
import MerrukKernel.Library.Align

/-!
# The arguments of pin requests

`ashmem_pin_unpin` gets an offset and a length from user space, checks them in 32-bit arithmetic
and hands an interval of pages on. A length of zero stands for everything from the offset on.

The checks let one request through that they should not: everything from the end of the area on.
Its interval ends before it begins, and where the area has no pages at all, at the last page there
could be.
-/

namespace Ashmem

/-- `PAGE_SIZE`. -/
def pageSize : BitVec 32 := 4096

/-- `PAGE_ALIGN`. -/
def pageAlign (size : BitVec 32) : BitVec 32 := size.alignUp pageSize

/-- `struct ashmem_pin`. -/
structure Pin where
  offset : BitVec 32
  len : BitVec 32

/-- The commands of `ashmem_pin_unpin`. -/
inductive PinCmd
  | pin
  | unpin
  | getPinStatus

/-- The call that a command leads to. -/
def PinCmd.op (asma : AreaId) (pgstart pgend : ℕ) (memory : Bool) : PinCmd → Op
  | .pin => .pin asma pgstart pgend memory
  | .unpin => .unpin asma pgstart pgend memory
  | .getPinStatus => .getPinStatus asma pgstart pgend

inductive PinError
  | einval
  | efault

/-- `ashmem_pin_unpin`, up to the call that it makes: `file` is whether there is a backing file,
and `request` what could be copied from user space. -/
def ashmemPinUnpin (asma : AreaId) (file : Bool) (size : BitVec 32) (request : Option Pin)
    (memory : Bool) (cmd : PinCmd) : Except PinError Op :=
  if file = false then .error .einval
  else
    match request with
    | none => .error .efault
    | some pin =>
      let len := if pin.len = 0 then pageAlign size - pin.offset else pin.len
      if (pin.offset ||| len) &&& (pageSize - 1) ≠ 0 then .error .einval
      else if -1 - pin.offset < len then .error .einval
      else if pageAlign size < pin.offset + len then .error .einval
      else
        let pgstart := pin.offset / pageSize
        .ok (cmd.op asma pgstart.toNat (pgstart + len / pageSize - 1).toNat memory)

variable {x y size : BitVec 32}

theorem toNat_pageSize : pageSize.toNat = 2 ^ 12 := rfl

/-- The mask of the offset in a page. -/
theorem and_pageSize_sub_one_eq_zero :
    (x ||| y) &&& (pageSize - 1) = 0 ↔ 4096 ∣ x.toNat ∧ 4096 ∣ y.toNat := by
  have hmask : ∀ z : BitVec 32, z &&& (pageSize - 1) = 0 ↔ 4096 ∣ z.toNat := by
    intro z
    rw [← BitVec.toNat_inj, BitVec.toNat_and, BitVec.toNat_sub_one_of_two_pow toNat_pageSize,
      Nat.and_two_pow_sub_one_eq_mod, Nat.dvd_iff_mod_eq_zero]
    rfl
  rw [BitVec.and_or_distrib_right]
  exact BitVec.or_eq_zero_iff.trans (and_congr (hmask x) (hmask y))

theorem pageAlign_spec (hpos : pageAlign size ≠ 0) :
    4096 ∣ (pageAlign size).toNat ∧ size.toNat ≤ (pageAlign size).toNat := by
  refine ⟨BitVec.dvd_alignDown toNat_pageSize, ?_⟩
  have hfit : size.toNat + (2 ^ 12 - 1) < 2 ^ 32 := by
    by_contra hwrap
    refine hpos (BitVec.eq_of_toNat_eq ?_)
    rw [pageAlign, BitVec.alignUp, BitVec.toNat_alignDown toNat_pageSize, BitVec.toNat_add,
      BitVec.toNat_sub_one_of_two_pow toNat_pageSize]
    have : (size.toNat + (2 ^ 12 - 1)) % 2 ^ 32 / 2 ^ 12 = 0 := by omega
    rw [this]
    rfl
  rw [pageAlign, BitVec.toNat_alignUp toNat_pageSize hfit]
  exact Nat.le_alignUp 12 _

/-- **A request that is not rejected is for pages of the area**, and for those that it names,
exactly if it does not ask for everything from the end of the area on. -/
theorem pin_request_in_area_iff {asma : AreaId} {pin : Pin} {memory : Bool} {cmd : PinCmd} {op : Op}
    (h : ashmemPinUnpin asma true size (some pin) memory cmd = .ok op) :
    (∃ pgstart pgend, op = cmd.op asma pgstart pgend memory ∧ pgstart ≤ pgend ∧
      pgend < (pageAlign size).toNat / 4096 ∧ size.toNat ≤ (pageAlign size).toNat ∧
      pgstart * 4096 = pin.offset.toNat ∧ (pgend + 1) * 4096 =
        if pin.len = 0 then (pageAlign size).toNat else pin.offset.toNat + pin.len.toNat) ↔
    ¬ (pin.len = 0 ∧ pin.offset = pageAlign size) := by
  constructor
  · -- the interval begins behind the last page
    rintro ⟨pgstart, pgend, -, hle, hlt, -, hstart, -⟩ ⟨-, hoff⟩
    rw [hoff] at hstart
    omega
  intro hend
  simp only [ashmemPinUnpin, Bool.true_eq_false, if_false] at h
  generalize hlen : (if pin.len = 0 then pageAlign size - pin.offset else pin.len) = len at h
  split_ifs at h with hmask hsum hsize
  cases h
  rw [not_not, and_pageSize_sub_one_eq_zero] at hmask
  obtain ⟨⟨i, hi⟩, j, hj⟩ := hmask
  have hle : pin.offset.toNat + len.toNat ≤ (pageAlign size).toNat := by bv_omega
  -- the length is not zero, so that the area has pages
  have hpos : 0 < j := by
    rcases Nat.eq_zero_or_pos j with rfl | hpos
    · have hzero : len = 0 := BitVec.eq_of_toNat_eq hj
      split_ifs at hlen with hlen0
      · exact absurd ⟨hlen0, by bv_omega⟩ hend
      · exact absurd (hlen.trans hzero) hlen0
    · exact hpos
  obtain ⟨⟨k, hk⟩, hgrow⟩ := pageAlign_spec (show pageAlign size ≠ 0 by bv_omega)
  have hstart : (pin.offset / pageSize).toNat = i := by
    rw [BitVec.toNat_udiv, hi]
    exact Nat.mul_div_cancel_left i (by decide)
  have hpages : (len / pageSize).toNat = j := by
    rw [BitVec.toNat_udiv, hj]
    exact Nat.mul_div_cancel_left j (by decide)
  have hlast : (pin.offset / pageSize + len / pageSize - 1).toNat = i + j - 1 := by bv_omega
  refine ⟨_, _, rfl, ?_⟩
  refine ⟨by omega, by omega, hk ▸ hgrow, by omega, ?_⟩
  split_ifs at hlen ⊢ with hlen0
  · have : len.toNat = (pageAlign size).toNat - pin.offset.toNat := by bv_omega
    omega
  · rw [hlen]
    omega

theorem pin_request_in_area_second_page : ∃ pgstart pgend,
    (.unpin 0 1 2 true : Op) = PinCmd.unpin.op 0 pgstart pgend true ∧ pgstart ≤ pgend := by
  obtain ⟨pgstart, pgend, heq, hle, -⟩ :=
    (@pin_request_in_area_iff 10000 0 ⟨4096, 0⟩ true .unpin (.unpin 0 1 2 true) rfl).2 (by decide)
  exact ⟨pgstart, pgend, heq, hle⟩

/-- Everything from the end of an area of one page on: the interval is from page 1 to page 0. For
an area whose size wraps to no pages it is from page 0 to the last page of all. -/
theorem pin_request_past_end :
    ashmemPinUnpin 0 true 4096 (some ⟨4096, 0⟩) true .unpin = .ok (.unpin 0 1 0 true) ∧
      ashmemPinUnpin 0 true 0xFFFFFFFF (some ⟨0, 0⟩) true .unpin =
        .ok (.unpin 0 0 0xFFFFFFFF true) :=
  ⟨rfl, rfl⟩

end Ashmem
