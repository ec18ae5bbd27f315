import MerrukKernel.Library.Align
import MerrukKernel.Memblock.AddRegion
import Mathlib.Data.List.Range

/-!
# Allocation from memblock

`__memblock_alloc_base` goes through the regions of memory from the top, and in each of them down
from the highest aligned base, below one reserved region after the other. The search finds the
highest aligned place that is free, if the limit is not below the aligned size; otherwise the
first base wraps around, and the range that is reserved lies in no memory region.
-/

namespace Memblock

open Span

/-- `memblock_overlaps_region`, with `none` for -1 -/
def memblockOverlapsRegion (t : Table) (base size : BitVec 64) : Option ℕ :=
  (List.range t.cnt).find? fun i ↦ addrsOverlap base size (t.region i).base (t.region i).size

variable {t : Table} {r : Region} {P Q : BitVec 64 → Prop} {o : Option (BitVec 64)}

theorem memblockOverlapsRegion_none {base size : BitVec 64} :
    memblockOverlapsRegion t base size = none ↔
      ∀ j < t.cnt, addrsOverlap base size (t.region j).base (t.region j).size = false := by
  simp only [memblockOverlapsRegion, List.find?_eq_none, List.mem_range, Bool.not_eq_true]

theorem memblockOverlapsRegion_some {base size : BitVec 64} {j : ℕ}
    (h : memblockOverlapsRegion t base size = some j) :
    j < t.cnt ∧ addrsOverlap base size (t.region j).base (t.region j).size = true := by
  rw [memblockOverlapsRegion, List.find?_eq_some_iff_append] at h
  obtain ⟨hover, before, behind, hsplit, -⟩ := h
  exact ⟨List.mem_range.1 (hsplit ▸ List.mem_append_right _ (List.mem_cons_self ..)), hover⟩

theorem hop_lt {base size resBase resSize align : BitVec 64}
    (hover : addrsOverlap base size resBase resSize = true) (hle : ¬ resBase < size) :
    ((resBase - size).alignDown align).toNat < base.toNat := by
  refine BitVec.alignDown_le.trans_lt ?_
  rw [addrsOverlap, Bool.and_eq_true, decide_eq_true_eq, decide_eq_true_eq] at hover
  bv_omega

/-- The inner loop of `__memblock_alloc_base`: the base that is not reserved. -/
def descend (reserved : Table) (memblockbase size align base : BitVec 64) : Option (BitVec 64) :=
  if base ≠ 0 ∧ memblockbase ≤ base then
    match _hover : memblockOverlapsRegion reserved base size with
    | none => some base
    | some j =>
      let resBase := (reserved.region j).base
      if _hle : resBase < size then none
      else descend reserved memblockbase size align ((resBase - size).alignDown align)
  else none
termination_by base.toNat
decreasing_by exact hop_lt (memblockOverlapsRegion_some _hover).2 _hle

/-- The outer loop of `__memblock_alloc_base`, over the first `n` regions of memory from the last
one down. The limit zero is `MEMBLOCK_ALLOC_ANYWHERE`. -/
def searchRegions (memory reserved : Table) (limit size align : BitVec 64) : ℕ → Option (BitVec 64)
  | 0 => none
  | i + 1 =>
    let r := memory.region i
    if r.size < size then searchRegions memory reserved limit size align i
    else if limit = 0 then
      (descend reserved r.base size align ((r.base + r.size - size).alignDown align)).or
        (searchRegions memory reserved limit size align i)
    else if r.base < limit then
      let top := if r.base + r.size < limit then r.base + r.size else limit
      (descend reserved r.base size align ((top - size).alignDown align)).or
        (searchRegions memory reserved limit size align i)
    else searchRegions memory reserved limit size align i

/-- `MEMBLOCK_ALLOC_ANYWHERE` stands for `MEMBLOCK_REAL_LIMIT`. -/
def effectiveLimit (realLimit maxAddr : BitVec 64) : BitVec 64 :=
  if maxAddr = 0 then realLimit else maxAddr

/-- `__memblock_alloc_base`: the table of reserved regions afterwards, and the base. -/
def memblockAllocBase (realLimit : BitVec 64) (memory reserved : Table)
    (size align maxAddr : BitVec 64) :
    Option (Table × BitVec 64) :=
  let size := size.alignUp align
  match searchRegions memory reserved (effectiveLimit realLimit maxAddr) size align memory.cnt with
  | none => some (reserved, 0)
  | some base =>
    (memblockAddRegion reserved base size).map fun (reserved, ret) ↦
      if ret < 0 then (reserved, 0) else (reserved, base)

/-! ### The search -/

variable {memory reserved reserved' : Table} {memblockbase limit size align base p b :
  BitVec 64} {k i j n : ℕ}

/-- No reserved region overlaps the range. -/
def Free (reserved : Table) (size p : BitVec 64) : Prop :=
  ∀ j < reserved.cnt, addrsOverlap p size (reserved.region j).base (reserved.region j).size = false

theorem addrsOverlap_iff (hfit : p.toNat + size.toNat < 2 ^ 64) (hr : r.Fits) :
    addrsOverlap p size r.base r.size = true ↔ p.toNat < r.span.hi ∧
    r.span.lo < p.toNat + size.toNat := by
  rw [addrsOverlap, Bool.and_eq_true, decide_eq_true_eq, decide_eq_true_eq,
    BitVec.lt_def, BitVec.lt_def,
    hr.toNat_add, BitVec.toNat_add, Nat.mod_eq_of_lt hfit]
  rfl

/-- The highest address with a property, if there is one. -/
def Highest (P : BitVec 64 → Prop) : Option (BitVec 64) → Prop
  | some b => P b ∧ ∀ p, P p → p ≤ b
  | none => ∀ p, ¬ P p

theorem Highest.congr (h : Highest P o) (hiff : ∀ p, P p ↔ Q p) : Highest Q o := by
  cases o with
  | none => exact fun p hp ↦ h p ((hiff p).2 hp)
  | some b => exact ⟨(hiff b).1 h.1, fun p hp ↦ h.2 p ((hiff p).2 hp)⟩

/-- What is found first lies above all that is found later. -/
theorem Highest.or {o' : Option (BitVec 64)} (h : Highest P o) (h' : Highest Q o')
    (hle : ∀ p q, P p → Q q → q ≤ p) : Highest (fun p ↦ P p ∨ Q p) (o.or o') := by
  cases o with
  | none => exact h'.congr fun p ↦ (or_iff_right (h p)).symm
  | some b => exact ⟨Or.inl h.1, fun p hp ↦ hp.elim (h.2 p) (hle b p h.1)⟩

/-- An aligned base, not zero, from `memblockbase` to `top`, at which the range is free. -/
structure Spot (reserved : Table) (memblockbase size : BitVec 64) (k : ℕ) (top p : BitVec 64) :
    Prop where
  dvd : 2 ^ k ∣ p.toNat
  ne_zero : p ≠ 0
  above : memblockbase ≤ p
  le_top : p.toNat ≤ top.toNat
  free : Free reserved size p

/-- **The inner loop finds the highest base that is free.** -/
theorem descend_spec (memblockbase : BitVec 64) (halign : align.toNat = 2 ^ k)
    (hbase : 2 ^ k ∣ base.toNat)
    (hfit : base.toNat + size.toNat < 2 ^ 64)
    (hres : ∀ j < reserved.cnt, (reserved.region j).Fits) :
    Highest (Spot reserved memblockbase size k base)
    (descend reserved memblockbase size align base) := by
  fun_induction descend reserved memblockbase size align base with
  | case1 base hin hnone =>
    exact ⟨⟨hbase, hin.1, hin.2, le_rfl, memblockOverlapsRegion_none.1 hnone⟩, fun p hp ↦ hp.le_top⟩
  | case2 base hin j hsome resBase hlt =>
    obtain ⟨hj, hover⟩ := memblockOverlapsRegion_some hsome
    rw [addrsOverlap_iff hfit (hres j hj)] at hover
    intro p hp
    have hle := hp.le_top
    have hlow : (reserved.region j).span.lo < size.toNat := hlt
    -- a range that ended below the reserved region would begin below zero
    refine Bool.eq_false_iff.1 (hp.free j hj) ?_
    rw [addrsOverlap_iff (by omega) (hres j hj)]
    omega
  | case3 base hin j hsome resBase hge ih =>
    obtain ⟨hj, hover⟩ := memblockOverlapsRegion_some hsome
    have hlt : ((resBase - size).alignDown align).toNat < base.toNat := hop_lt hover hge
    rw [addrsOverlap_iff hfit (hres j hj)] at hover
    refine (ih (BitVec.dvd_alignDown halign) (by omega)).congr fun p ↦ ⟨fun hp ↦ ?_, fun hp ↦ ?_⟩
    · exact { hp with le_top := hp.le_top.trans hlt.le }
    · refine { hp with le_top := BitVec.le_alignDown halign hp.dvd ?_ }
      -- all the bases in between overlap the same region
      have hle := hp.le_top
      have hfree := Bool.eq_false_iff.1 (hp.free j hj)
      rw [ne_eq, addrsOverlap_iff (by omega) (hres j hj)] at hfree
      have hlo : (reserved.region j).span.lo = resBase.toNat := rfl
      bv_omega
  | case4 base hout =>
    intro p hp
    have hle := hp.le_top
    have hne := hp.ne_zero
    have habove := hp.above
    refine hout ⟨?_, ?_⟩
    · rintro rfl
      exact hne (BitVec.eq_of_toNat_eq (Nat.le_zero.1 hle))
    · exact habove.trans hle

/-! ### The highest place -/

/-- An aligned base, not zero, of a free range that lies in a memory region, below the limit if
there is one. -/
structure Place (memory reserved : Table) (limit size : BitVec 64) (k n : ℕ)
    (p : BitVec 64) : Prop where
  dvd : 2 ^ k ∣ p.toNat
  ne_zero : p ≠ 0
  inside : ∃ i < n, (memory.region i).span.lo ≤ p.toNat ∧
    p.toNat + size.toNat ≤ (memory.region i).span.hi ∧
    (limit ≠ 0 → (memory.region i).base < limit ∧ p.toNat + size.toNat ≤ limit.toNat)
  free : Free reserved size p

/-- The end of the part of a memory region that may be allocated. -/
def ceiling (limit : BitVec 64) (r : Region) : BitVec 64 :=
  if limit = 0 ∨ r.base + r.size < limit then r.base + r.size else limit

theorem le_ceiling_iff (hr : r.Fits) {x : ℕ} :
    x ≤ (ceiling limit r).toNat ↔ x ≤ r.span.hi ∧ (limit ≠ 0 → x ≤ limit.toNat) := by
  have hend : (r.base + r.size).toNat = r.span.hi := hr.toNat_add
  rw [ceiling]
  split
  · next h =>
    rw [hend]
    refine ⟨fun hx ↦ ⟨hx, fun hne ↦ ?_⟩, And.left⟩
    bv_omega
  · next h =>
    rw [not_or] at h
    refine ⟨fun hx ↦ ⟨?_, fun _ ↦ hx⟩, fun hx ↦ hx.2 h.1⟩
    bv_omega

/-- The aligned bases from which a range ends below an address. -/
theorem le_alignDown_sub_iff (halign : align.toNat = 2 ^ k) {top : BitVec 64}
    (hle : size.toNat ≤ top.toNat)
    (hdvd : 2 ^ k ∣ p.toNat) :
    p.toNat ≤ ((top - size).alignDown align).toNat ↔ p.toNat + size.toNat ≤ top.toNat := by
  have hsub : (top - size).toNat = top.toNat - size.toNat := by bv_omega
  constructor
  · grind [BitVec.alignDown_le]
  · exact fun h ↦ BitVec.le_alignDown halign hdvd (by omega)

theorem place_succ : Place memory reserved limit size k (n + 1) p ↔
    (2 ^ k ∣ p.toNat ∧ p ≠ 0 ∧ Free reserved size p ∧ (memory.region n).span.lo ≤ p.toNat ∧
      p.toNat + size.toNat ≤ (memory.region n).span.hi ∧
      (limit ≠ 0 → (memory.region n).base < limit ∧ p.toNat + size.toNat ≤ limit.toNat)) ∨
    Place memory reserved limit size k n p := by
  constructor
  · rintro ⟨hdvd, hne, ⟨i, hi, hin⟩, hfree⟩
    rcases Nat.lt_succ_iff_lt_or_eq.1 hi with hi | rfl
    · exact Or.inr ⟨hdvd, hne, ⟨i, hi, hin⟩, hfree⟩
    · exact Or.inl ⟨hdvd, hne, hfree, hin⟩
  · rintro (⟨hdvd, hne, hfree, hin⟩ | ⟨hdvd, hne, ⟨i, hi, hin⟩, hfree⟩)
    · exact ⟨hdvd, hne, ⟨n, Nat.lt_succ_self n, hin⟩, hfree⟩
    · exact ⟨hdvd, hne, ⟨i, by omega, hin⟩, hfree⟩

theorem searchRegions_succ : searchRegions memory reserved limit size align (n + 1) =
    if (memory.region n).size < size ∨ limit ≠ 0 ∧ ¬ (memory.region n).base < limit then
      searchRegions memory reserved limit size align n
    else
      (descend reserved (memory.region n).base size align
        ((ceiling limit (memory.region n) - size).alignDown align)).or
        (searchRegions memory reserved limit size align n) := by
  rw [searchRegions, ceiling]
  by_cases hsmall : (memory.region n).size < size
  · rw [if_pos hsmall, if_pos (Or.inl hsmall)]
  rw [if_neg hsmall]
  by_cases hlimit : limit = 0
  · rw [if_pos hlimit, if_neg (by tauto), if_pos (Or.inl hlimit)]
  rw [if_neg hlimit]
  by_cases hbelow : (memory.region n).base < limit
  · grind
  · rw [if_neg hbelow, if_pos (Or.inr ⟨hlimit, hbelow⟩)]

/-- **The search finds the highest place,** if the limit is not below the size. -/
theorem searchRegions_spec (halign : align.toNat = 2 ^ k) (hlimit : limit ≠ 0 → size ≤ limit)
    (hmem : ∀ i < n, (memory.region i).Fits)
    (hsorted : ∀ i j, i < j → j < n → (memory.region i).span.hi < (memory.region j).span.lo)
    (hres : ∀ j < reserved.cnt, (reserved.region j).Fits) :
    Highest (Place memory reserved limit size k n)
    (searchRegions memory reserved limit size align n) := by
  induction n with
  | zero => exact fun p hp ↦ by obtain ⟨i, hi, -⟩ := hp.inside; omega
  | succ n ih =>
    have hfits := hmem n (Nat.lt_succ_self n)
    have hlater := ih (fun i hi ↦ hmem i (by omega)) fun i j hij hj ↦ hsorted i j hij (by omega)
    rw [searchRegions_succ]
    split_ifs with hskip
    · refine hlater.congr fun p ↦ ?_
      rw [place_succ, or_iff_right]
      rintro ⟨-, -, -, hlo, hhi, hbelow⟩
      rcases hskip with hsmall | ⟨hne, hnot⟩
      · simp only [Region.span] at hlo hhi
        bv_omega
      · exact hnot (hbelow hne).1
    · rw [not_or, not_and, not_not] at hskip
      have hceil : size.toNat ≤ (ceiling limit (memory.region n)).toNat := by
        refine (le_ceiling_iff hfits).2 ⟨?_, hlimit⟩
        have hlarge : size.toNat ≤ (memory.region n).size.toNat := not_lt.1 hskip.1
        exact hlarge.trans (Nat.le_add_left ..)
      have hspot : ∀ p, Spot reserved (memory.region n).base size k
          ((ceiling limit (memory.region n) - size).alignDown align) p ↔
            (2 ^ k ∣ p.toNat ∧ p ≠ 0 ∧ Free reserved size p ∧ (memory.region n).span.lo ≤ p.toNat ∧
              p.toNat + size.toNat ≤ (memory.region n).span.hi ∧
              (limit ≠ 0 → (memory.region n).base < limit ∧
                p.toNat + size.toNat ≤ limit.toNat)) := by
        intro p
        constructor
        · rintro ⟨hdvd, hne, habove, htop, hfree⟩
          rw [le_alignDown_sub_iff halign hceil hdvd, le_ceiling_iff hfits] at htop
          exact ⟨hdvd, hne, hfree, habove, htop.1, fun h ↦ ⟨hskip.2 h, htop.2 h⟩⟩
        · rintro ⟨hdvd, hne, hfree, habove, hhi, hbelow⟩
          refine ⟨hdvd, hne, habove, ?_, hfree⟩
          rw [le_alignDown_sub_iff halign hceil hdvd, le_ceiling_iff hfits]
          exact ⟨hhi, fun h ↦ (hbelow h).2⟩
      have htop := (le_alignDown_sub_iff halign hceil (BitVec.dvd_alignDown halign)).1 (le_refl _)
      have hlast : (ceiling limit (memory.region n)).toNat < 2 ^ 64 := BitVec.isLt _
      have hhere := descend_spec (memory.region n).base halign
        (BitVec.dvd_alignDown halign) (htop.trans_lt hlast) hres
      refine ((hhere.congr hspot).or hlater ?_).congr fun p ↦ place_succ.symm
      -- a place in a lower region is a lower place
      rintro p q ⟨-, -, -, hlo, -⟩ ⟨-, -, ⟨i, hi, -, hhi, -⟩, -⟩
      have hgap := hsorted i n hi (Nat.lt_succ_self n)
      show q.toNat ≤ p.toNat
      omega

/-! ### A limit below the size -/

/-- A memory region that is large enough and begins below the limit. -/
def Candidate (limit size : BitVec 64) (r : Region) : Prop := size ≤ r.size ∧ r.base < limit

theorem two_pow_dvd_two_pow (halign : align.toNat = 2 ^ k) : 2 ^ k ∣ 2 ^ 64 := by
  refine pow_dvd_pow 2 (Nat.le_of_lt_succ ?_)
  have hlt := align.isLt
  rw [halign] at hlt
  exact (Nat.pow_lt_pow_iff_right (by decide)).1 (hlt.trans (by decide))

section Wrap

variable (halign : align.toNat = 2 ^ k) (hsize : 2 ^ k ∣ size.toNat) (hlt : limit < size)

include halign hsize hlt

/-- The first base wraps around to the end of the address space. -/
theorem le_wrapped : 2 ^ 64 ≤ ((limit - size).alignDown align).toNat + size.toNat := by
  have hdvd : 2 ^ k ∣ 2 ^ 64 - size.toNat := Nat.dvd_sub (two_pow_dvd_two_pow halign) hsize
  have hle : 2 ^ 64 - size.toNat ≤ (limit - size).toNat := by bv_omega
  have := BitVec.le_alignDown halign hdvd hle
  omega

/-- A reserved region that overlaps the wrapped range ends the search of a memory region. -/
theorem descend_wrapped (hbase : memblockbase.toNat + size.toNat < 2 ^ 64) :
    descend reserved memblockbase size align ((limit - size).alignDown align) = some b ↔
      b = (limit - size).alignDown align ∧ Free reserved size b := by
  have hwrap := le_wrapped halign hsize hlt
  generalize (limit - size).alignDown align = base at *
  have hin : base ≠ 0 ∧ memblockbase ≤ base := by
    refine ⟨?_, ?_⟩
    · grind
    · show memblockbase.toNat ≤ base.toNat
      omega
  rw [descend, if_pos hin]
  split
  · next hnone =>
    rw [Option.some_inj, eq_comm, iff_self_and]
    rintro rfl
    exact memblockOverlapsRegion_none.1 hnone
  · next j hsome =>
    obtain ⟨hj, hover⟩ := memblockOverlapsRegion_some hsome
    have hlow : (reserved.region j).base < size := by
      rw [addrsOverlap, Bool.and_eq_true, decide_eq_true_eq, decide_eq_true_eq] at hover
      bv_omega
    rw [dif_pos hlow]
    refine ⟨fun h ↦ absurd h.symm (Option.some_ne_none b), ?_⟩
    rintro ⟨rfl, hfree⟩
    exact absurd hover (Bool.eq_false_iff.1 (hfree j hj))

theorem searchRegions_wrapped (hlimit : limit ≠ 0) (hmem : ∀ i < n, (memory.region i).Fits) :
    searchRegions memory reserved limit size align n = some b ↔
      b = (limit - size).alignDown align ∧ (∃ i < n, Candidate limit size (memory.region i)) ∧
        Free reserved size b := by
  induction n with
  | zero =>
    refine ⟨fun h ↦ absurd h.symm (Option.some_ne_none b), ?_⟩
    rintro ⟨-, ⟨i, hi, -⟩, -⟩
    omega
  | succ n ih =>
    have ih := ih fun i hi ↦ hmem i (by omega)
    have hfits := hmem n (Nat.lt_succ_self n)
    have hsucc : (∃ i < n + 1, Candidate limit size (memory.region i)) ↔
        Candidate limit size (memory.region n) ∨ ∃ i < n, Candidate limit size
        (memory.region i) := by
          grind
    rw [searchRegions_succ, hsucc]
    split_ifs with hskip
    · have hnot : ¬ Candidate limit size (memory.region n) := by
        rintro ⟨hle, hbelow⟩
        rcases hskip with hsmall | ⟨-, hnot⟩
        · bv_omega
        · exact hnot hbelow
      rw [ih, or_iff_right hnot]
    · rw [not_or, not_and, not_not] at hskip
      have hcand : Candidate limit size (memory.region n) := ⟨by bv_omega, hskip.2 hlimit⟩
      have hend : ((memory.region n).base + (memory.region n).size).toNat =
          (memory.region n).span.hi :=
        hfits.toNat_add
      have hlarge : size.toNat ≤ (memory.region n).size.toNat := hcand.1
      have hceil : ceiling limit (memory.region n) = limit := by
        rw [ceiling, if_neg]
        rintro (hzero | hbelow)
        · exact hlimit hzero
        · rw [BitVec.lt_def, hend, Region.span] at hbelow
          bv_omega
      have hbase : (memory.region n).base.toNat + size.toNat < 2 ^ 64 := by grind [Region.Fits]
      rw [hceil, Option.or_eq_some_iff, descend_wrapped halign hsize hlt hbase, ih]
      simp only [hcand, true_or, true_and]
      refine ⟨?_, Or.inl⟩
      rintro (h | ⟨-, h, -, hfree⟩)
      · exact h
      · exact ⟨h, hfree⟩

end Wrap

/-- **Where the search ends.** This is the highest place, or the wrapped base if the limit is
below the size. -/
def Target (memory reserved : Table) (limit size align : BitVec 64) (k : ℕ)
    (b : BitVec 64) : Prop :=
  if limit ≠ 0 ∧ limit < size then
    b = (limit - size).alignDown align ∧ (∃ i < memory.cnt, Candidate limit size
      (memory.region i)) ∧
      Free reserved size b
  else
    Place memory reserved limit size k memory.cnt b ∧
      ∀ p, Place memory reserved limit size k memory.cnt p → p ≤ b

theorem Highest.eq_some_iff (h : Highest P o) : o = some b ↔ P b ∧ ∀ p, P p → p ≤ b := by
  cases o with
  | none => exact ⟨fun h ↦ absurd h.symm (Option.some_ne_none b), fun hb ↦ absurd hb.1 (h b)⟩
  | some c =>
    rw [Option.some_inj]
    constructor
    · rintro rfl
      exact h
    · intro hb
      exact BitVec.eq_of_toNat_eq (le_antisymm (hb.2 c h.1) (h.2 b hb.1))

theorem Represents.sorted {S : Set ℕ} (h : Represents t S) (hij : i < j) (hj : j < t.cnt) :
    (t.region i).span.hi < (t.region j).span.lo := by
  rcases h.tidy with hdummy | htidy
  · have := hdummy.1
    omega
  · exact Table.hi_lt_lo htidy hij hj

theorem searchRegions_eq_some_iff {S T : Set ℕ} (hmem : Represents memory S)
    (hres : Represents reserved T)
    (halign : align.toNat = 2 ^ k) (hsize : 2 ^ k ∣ size.toNat) :
    searchRegions memory reserved limit size align memory.cnt = some b ↔
      Target memory reserved limit size align k b := by
  rw [Target]
  split_ifs with hwrap
  · exact searchRegions_wrapped halign hsize hwrap.2 hwrap.1 fun i hi ↦ hmem.region_fits hi
  · refine (searchRegions_spec halign (fun hne ↦ ?_) (fun i hi ↦ hmem.region_fits hi)
      (fun i j hij hj ↦ hmem.sorted hij hj) fun j hj ↦ hres.region_fits hj).eq_some_iff
    bv_omega

/-! ### Soundness -/

/-- The size rounded up to a multiple of `2 ^ k`. -/
def alignedSize (size : BitVec 64) (k : ℕ) : ℕ := Nat.alignUp k size.toNat

/-- **A sound allocation.** Zero is returned and nothing is reserved; or the range from the base
that is returned lies in a memory region and below the address asked for, was not reserved, and is
reserved now. -/
def AllocSound (memory reserved : Table) (size maxAddr : BitVec 64) (k : ℕ)
    (result : Option (Table × BitVec 64)) : Prop :=
  ∃ reserved' ret, result = some (reserved', ret) ∧ (ret = 0 ∧ reserved' = reserved ∨
    let range : Span := ⟨ret.toNat, ret.toNat + alignedSize size k⟩
    2 ^ k ∣ ret.toNat ∧
      (∃ i < memory.cnt, (memory.region i).span.lo ≤ range.lo ∧
        range.hi ≤ (memory.region i).span.hi) ∧
      (maxAddr ≠ 0 → range.hi ≤ maxAddr.toNat) ∧
      (∀ j < reserved.cnt, (reserved.region j).span.Disjoint range) ∧ ∀ a ∈ range,
      a ∈ cover reserved'.spans)

/-- The table has no room for another region, and no region there touches the range. -/
def Full (reserved : Table) (b size : BitVec 64) : Prop :=
  maxMemblockRegions ≤ reserved.cnt ∧
    ∀ j < reserved.cnt, addrsAdjacent b size (reserved.region j).base (reserved.region j).size = 0

/-- **A base that can be taken.** The aligned size did not wrap around, the limit is not below it,
and in an empty table what is left there does not keep the range from being reserved. -/
def Takable (reserved : Table) (limit size : BitVec 64) (k : ℕ) (b : BitVec 64) : Prop :=
  alignedSize size k < 2 ^ 64 ∧ (limit ≠ 0 → alignedSize size k ≤ limit.toNat) ∧
    (reserved.cnt = 0 → regionsAdjacent reserved 0 1 = 0 ∧ (b < (reserved.region 0).base ∨
      b.toNat + alignedSize size k ≤ (reserved.region 0).span.hi))

section Sound

variable {realLimit maxAddr : BitVec 64} {S T : Set ℕ}

/-- The aligned size wraps around exactly if the sum does. -/
theorem alignedSize_lt_iff (halign : align.toNat = 2 ^ k) :
    alignedSize size k < 2 ^ 64 ↔ size.toNat + (2 ^ k - 1) < 2 ^ 64 := by
  obtain ⟨c, hc⟩ := two_pow_dvd_two_pow halign
  have hpos := Nat.two_pow_pos k
  rw [alignedSize, Nat.alignUp, hc, Nat.mul_comm (2 ^ k) c, Nat.mul_lt_mul_right hpos,
    Nat.div_lt_iff_lt_mul hpos]

theorem toNat_alignUp_eq (size : BitVec 64) (halign : align.toNat = 2 ^ k)
    (hlt : alignedSize size k < 2 ^ 64) :
    (size.alignUp align).toNat = alignedSize size k :=
  BitVec.toNat_alignUp halign ((alignedSize_lt_iff halign).1 hlt)

/-- What a call returns: either the search found nothing, or the base was reserved. -/
theorem memblockAllocBase_cases (hmem : Represents memory S) (hres : Represents reserved T)
    (halign : align.toNat = 2 ^ k) :
    let limit := effectiveLimit realLimit maxAddr
    (∀ b, ¬ Target memory reserved limit (size.alignUp align) align k b) ∧
        memblockAllocBase realLimit memory reserved size align maxAddr = some (reserved, 0) ∨
      ∃ b, (∀ b', Target memory reserved limit (size.alignUp align) align k b' ↔ b = b') ∧
        memblockAllocBase realLimit memory reserved size align maxAddr =
          (memblockAddRegion reserved b (size.alignUp align)).map fun r ↦ if r.2 < 0 then (r.1, 0)
          else (r.1, b) := by
  intro limit
  have hiff : ∀ b,
      searchRegions memory reserved limit (size.alignUp align) align memory.cnt = some b ↔ _ :=
    fun b ↦ searchRegions_eq_some_iff hmem hres halign (BitVec.dvd_alignDown halign)
  rw [memblockAllocBase]
  rcases hsearch : searchRegions memory reserved limit (size.alignUp align) align
    memory.cnt with _ | b
  · grind
  · grind

section

variable (h : Target memory reserved limit size align k b)
include h

theorem Target.free : Free reserved size b := by
  rw [Target] at h
  split_ifs at h with hwrap
  · exact h.2.2
  · exact h.1.free

/-- The wrapped range ends behind the address space. -/
theorem Target.wraps (halign : align.toNat = 2 ^ k)
    (hsize : 2 ^ k ∣ size.toNat) (hlimit : limit ≠ 0) (hlt : limit < size) :
    2 ^ 64 ≤ b.toNat + size.toNat := by
  rw [Target, if_pos ⟨hlimit, hlt⟩] at h
  rw [h.1]
  exact le_wrapped halign hsize hlt

theorem Target.ne_zero (halign : align.toNat = 2 ^ k) (hsize : 2 ^ k ∣ size.toNat) : b ≠ 0 := by
  by_cases hwrap : limit ≠ 0 ∧ limit < size
  · have hle := h.wraps halign hsize hwrap.1 hwrap.2
    rintro rfl
    simp at hle
    omega
  · rw [Target, if_neg hwrap] at h
    exact h.1.ne_zero

end

theorem memblockAddRegion_of_not_full (hle : reserved.cnt ≤ maxMemblockRegions)
    (hcnt : 0 < reserved.cnt)
    (hfull : ¬ Full reserved b size) : ∃ t ret, memblockAddRegion reserved b size = some
    (t, ret) ∧ 0 ≤ ret := by
  by_cases hdummy : reserved.Dummy
  · exact ⟨_, 0, by rw [memblockAddRegion, if_pos (show _ ∧ _ from hdummy)], le_rfl⟩
  by_cases hclear : ∀ j < reserved.cnt, Clear ⟨b, size⟩ (reserved.region j)
  · have hadd := memblockAddRegion_of_clear _ hcnt hle hdummy hclear
    rw [if_neg fun hmax ↦ hfull ⟨hmax, fun j hj ↦ ?_⟩] at hadd
    · exact ⟨_, 0, hadd, le_rfl⟩
    · exact addrsAdjacent_eq_zero.2 (hclear j hj).2
  · exact memblockAddRegion_of_not_clear hcnt hclear

/-- In a full table that holds no region touching a free range, the range is not reserved. -/
theorem memblockAddRegion_of_full (hres : Represents reserved T) (hfull : Full reserved b size)
    (hfree : Free reserved size b) : memblockAddRegion reserved b size = some (reserved, -1) := by
  have hcnt : 1 < reserved.cnt := lt_of_lt_of_le (by decide) hfull.1
  have hdummy : ¬ reserved.Dummy := fun h ↦ by have := h.1; omega
  have hadd := memblockAddRegion_of_clear ⟨b, size⟩ (by omega) hres.cnt_le hdummy fun j hj ↦ by
    refine ⟨fun heq ↦ ?_, addrsAdjacent_eq_zero.1 (hfull.2 j hj)⟩
    -- a region overlaps itself
    have hfilled := (hres.tidy.resolve_left hdummy).filled _ (Table.mem_spans hj)
    have hfits := hres.region_fits hj
    have hover := hfree j hj
    rw [heq] at hfilled hfits hover
    exact Bool.eq_false_iff.1 hover ((addrsOverlap_iff hfits hfits).2 ⟨hfilled, hfilled⟩)
  rwa [if_pos hfull.1] at hadd

theorem mem_cover_insertRegion_empty {new : Region} (hcnt : reserved.cnt = 0) {a : ℕ} :
    a ∈ cover (insertRegion reserved new).spans ↔
      a ∈ (if new.base < (reserved.region 0).base then new else reserved.region 0).span := by
  have hspans : (insertRegion reserved new).spans =
      [((insertRegion reserved new).region 0).span] := by
    rw [Table.spans, show (insertRegion reserved new).cnt = 0 + 1 from congrArg (· + 1) hcnt]
    rfl
  rw [hspans, insertRegion_region, hcnt, insertFrom, mem_cover]
  simp only [List.mem_singleton, exists_eq_left, true_and]

theorem disjoint_of_free (hres : Represents reserved T) (hfree : Free reserved size b)
    (hfit : b.toNat + size.toNat < 2 ^ 64) (hj : j < reserved.cnt) :
    (reserved.region j).span.Disjoint ⟨b.toNat, b.toNat + size.toNat⟩ := by
  have hover := Bool.eq_false_iff.1 (hfree j hj)
  rw [ne_eq, addrsOverlap_iff hfit (hres.region_fits hj)] at hover
  rintro a ⟨hlo, hhi⟩ ⟨hlo', hhi'⟩
  simp only at hlo' hhi'
  omega

/-- Where the base is returned, the allocation is sound only if the base could be taken. -/
theorem takable_of_range {reserved' : Table} (hmem : Represents memory S)
    (halign : align.toNat = 2 ^ k)
    (hb : Target memory reserved limit (size.alignUp align) align k b)
    (hin : ∃ i < memory.cnt, (memory.region i).span.lo ≤ b.toNat ∧
      b.toNat + alignedSize size k ≤ (memory.region i).span.hi)
    (hpos : 0 < alignedSize size k)
    (hcover : ∀ a ∈ (⟨b.toNat, b.toNat + alignedSize size k⟩ : Span), a ∈ cover reserved'.spans)
    (hempty : reserved.cnt = 0 →
      regionsAdjacent reserved 0 1 = 0 ∧ reserved' = insertRegion reserved
      ⟨b, size.alignUp align⟩) :
    Takable reserved limit size k b := by
  obtain ⟨i, hi, -, hhi⟩ := hin
  have hfit : b.toNat + alignedSize size k < 2 ^ 64 := hhi.trans_lt (hmem.region_fits hi)
  have hasize := toNat_alignUp_eq size halign (by omega)
  refine ⟨by omega, fun hne ↦ ?_, fun hcnt ↦ ⟨(hempty hcnt).1, ?_⟩⟩
  · by_contra hlt
    have hwrap := hb.wraps halign (BitVec.dvd_alignDown halign) hne (by
      rw [BitVec.lt_def]
      omega)
    omega
  · by_contra hnot
    rw [not_or] at hnot
    have hlast := hcover (b.toNat + alignedSize size k - 1)
      ⟨by simp only; omega, by simp only; omega⟩
    rw [(hempty hcnt).2, mem_cover_insertRegion_empty hcnt, if_neg hnot.1, mem_def] at hlast
    omega

/-- **A base that can be taken is allocated soundly.** -/
theorem allocSound_of_takable (hres : Represents reserved T) (halign : align.toNat = 2 ^ k)
    (hpos : 0 < alignedSize size k)
    (hb : Target memory reserved (effectiveLimit realLimit maxAddr) (size.alignUp align) align k b)
    (htake : Takable reserved (effectiveLimit realLimit maxAddr) size k b)
    (hmem : Represents memory S) :
    AllocSound memory reserved size maxAddr k
      ((memblockAddRegion reserved b (size.alignUp align)).map
        fun r ↦ if r.2 < 0 then (r.1, 0) else (r.1, b)) := by
  obtain ⟨hfit, hlimit, hempty⟩ := htake
  have hasize := toNat_alignUp_eq size halign hfit
  have hplace : Place memory reserved (effectiveLimit realLimit maxAddr) (size.alignUp align) k
      memory.cnt b := by
    rw [Target, if_neg] at hb
    · exact hb.1
    · grind [BitVec.lt_def]
  obtain ⟨hdvd, -, ⟨i, hi, hlo, hhi, hbelow⟩, hfree⟩ := hplace
  rw [hasize] at hhi hbelow
  have hend : b.toNat + (size.alignUp align).toNat < 2 ^ 64 := by
    rw [hasize]
    exact hhi.trans_lt (hmem.region_fits hi)
  have hdisj : ∀ j < reserved.cnt, (reserved.region j).span.Disjoint
      ⟨b.toNat, b.toNat + alignedSize size k⟩ := by
    intro j hj
    rw [← hasize]
    exact disjoint_of_free hres hfree hend hj
  have hmax : maxAddr ≠ 0 → b.toNat + alignedSize size k ≤ maxAddr.toNat := by
    intro hne
    rw [effectiveLimit, if_neg hne] at hbelow
    exact (hbelow hne).2
  -- what is left is that the range is reserved when the base is returned
  have hsound : ∀ {t ret}, memblockAddRegion reserved b (size.alignUp align) = some
      (t, ret) → 0 ≤ ret →
      (∀ a ∈ (⟨b.toNat, b.toNat + alignedSize size k⟩ : Span), a ∈ cover t.spans) →
      AllocSound memory reserved size maxAddr k
        ((memblockAddRegion reserved b (size.alignUp align)).map
          fun r ↦ if r.2 < 0 then (r.1, 0) else (r.1, b)) := by
    intro t ret hadd hret hcover
    refine ⟨t, b, ?_, Or.inr ⟨hdvd, ⟨i, hi, hlo, hhi⟩, hmax, hdisj, hcover⟩⟩
    rw [hadd, Option.map_some, if_neg (not_lt.2 hret)]
  rcases Nat.eq_zero_or_pos reserved.cnt with hcnt | hcnt
  · have hadd := memblockAddRegion_empty ⟨b, size.alignUp align⟩ hcnt
    rw [if_pos (hempty hcnt).1] at hadd
    refine hsound hadd le_rfl fun a ha ↦ ?_
    rw [mem_cover_insertRegion_empty hcnt]
    split_ifs with hlt
    · rwa [Region.span, hasize]
    · have hback := (hempty hcnt).2.resolve_left hlt
      have hlow : (reserved.region 0).span.lo ≤ b.toNat := not_lt.1 hlt
      exact ⟨hlow.trans ha.1, ha.2.trans_le hback⟩
  · have hnew : Addable reserved ⟨b, size.alignUp align⟩ := by
      exact ⟨by rwa [hasize], hend, Or.inl fun j hj ↦ disjoint_of_free hres hfree hend hj⟩
    obtain ⟨t, ret, hadd, ⟨hret, ht⟩ | ⟨hret, rfl, -⟩⟩ :=
      memblockAddRegion_spec hres hnew fun hzero ↦ absurd hzero (by omega)
    · refine hsound hadd hret fun a ha ↦ ?_
      rw [ht.covers]
      exact Or.inr (by rwa [Region.span, hasize])
    · refine ⟨_, 0, ?_, Or.inl ⟨rfl, rfl⟩⟩
      rw [hadd, hret]
      rfl

/-- **`__memblock_alloc_base` is sound exactly if** the base where its search ends can be taken,
or the table of reserved regions is full. -/
theorem memblock_alloc_base_sound_iff (hmem : Represents memory S) (hres : Represents reserved T)
    (halign : align.toNat = 2 ^ k) (hsize : size ≠ 0) :
    AllocSound memory reserved size maxAddr k
        (memblockAllocBase realLimit memory reserved size align maxAddr) ↔
      ∀ b, Target memory reserved (effectiveLimit realLimit maxAddr)
      (size.alignUp align) align k b →
        Full reserved b (size.alignUp align) ∨
          Takable reserved (effectiveLimit realLimit maxAddr) size k b := by
  have hdvd : 2 ^ k ∣ (size.alignUp align).toNat := BitVec.dvd_alignDown halign
  have hpos : 0 < alignedSize size k := by
    have hle : size.toNat ≤ alignedSize size k := Nat.le_alignUp ..
    have hne : size.toNat ≠ 0 := fun h ↦ hsize (BitVec.eq_of_toNat_eq h)
    omega
  rcases memblockAllocBase_cases hmem hres halign
    with ⟨hnone, hcall⟩ | ⟨b, htarget, hcall⟩
  · exact ⟨fun _ b hb ↦ absurd hb (hnone b), fun _ ↦ ⟨reserved, 0, hcall, Or.inl ⟨rfl, rfl⟩⟩⟩
  have hb := (htarget b).2 rfl
  rw [forall_congr' fun b' ↦ imp_congr_left (htarget b'), hcall]
  simp only [forall_eq']
  constructor
  · rintro ⟨t, ret, hcalled, hdone⟩
    by_cases hfull : Full reserved b (size.alignUp align)
    · exact Or.inl hfull
    refine Or.inr ?_
    obtain ⟨t', ret', hadd, hret, hempty⟩ :
        ∃ t' ret', memblockAddRegion reserved b (size.alignUp align) = some (t', ret') ∧ 0 ≤ ret' ∧
          (reserved.cnt = 0 →
            regionsAdjacent reserved 0 1 = 0 ∧ t' = insertRegion reserved
            ⟨b, size.alignUp align⟩) := by
      rcases Nat.eq_zero_or_pos reserved.cnt with hcnt | hcnt
      · have hadd := memblockAddRegion_empty ⟨b, size.alignUp align⟩ hcnt
        by_cases hadj : regionsAdjacent reserved 0 1 = 0
        · grind
        · grind
      · grind [memblockAddRegion_of_not_full, hres.cnt_le]
    rw [hadd, Option.map_some, if_neg (not_lt.2 hret), Option.some_inj] at hcalled
    obtain ⟨rfl, rfl⟩ := hcalled
    obtain ⟨-, hin, -, -, hcover⟩ := hdone.resolve_left fun h ↦ hb.ne_zero halign hdvd h.1
    exact takable_of_range hmem halign hb hin hpos hcover hempty
  · rintro (hfull | htake)
    · refine ⟨reserved, 0, ?_, Or.inl ⟨rfl, rfl⟩⟩
      rw [memblockAddRegion_of_full hres hfull hb.free]
      rfl
    · exact allocSound_of_takable hres halign hpos hb htake hmem

/-- A page is allocated below a reserved one. -/
theorem memblock_alloc_base_sound_page : let memory : Table := ⟨1, fun _ ↦ ⟨0x1000, 0x8000⟩⟩
    let reserved : Table := ⟨1, fun _ ↦ ⟨0x8000, 0x1000⟩⟩
    AllocSound memory reserved 0x800 0x9000 12
      (memblockAllocBase 0 memory reserved 0x800 0x1000 0x9000) := by
  intro memory reserved
  refine (memblock_alloc_base_sound_iff (represents_singleton rfl rfl (by decide) (by decide))
    (represents_singleton rfl rfl (by decide) (by decide)) (by decide) (by decide)).2
    fun b _ ↦ Or.inr ?_
  exact ⟨by decide, fun _ ↦ by decide, fun hcnt ↦ absurd hcnt (by decide)⟩

/-- **A limit below the size.** Two pages are asked for below the address 0x1800: a base at the
end of the address space is returned. -/
theorem memblock_alloc_base_wraps : let memory : Table := ⟨1, fun _ ↦ ⟨0x1000, 0x10000⟩⟩
    let reserved := Table.init fun _ ↦ ⟨0, 0⟩
    let result := memblockAllocBase 0 memory reserved 0x2000 0x1000 0x1800
    result.map Prod.snd = some 0xFFFFFFFFFFFFF000 ∧
      ¬ AllocSound memory reserved 0x2000 0x1800 12 result := by
  intro memory reserved result
  have htarget : Target memory reserved 0x1800 0x2000 0x1000 12 0xFFFFFFFFFFFFF000 := by
    refine ⟨by decide, ⟨0, by decide, by decide, by decide⟩, fun j hj ↦ ?_⟩
    obtain rfl : j = 0 := Nat.lt_one_iff.1 hj
    decide
  have hsearch : searchRegions memory reserved 0x1800 0x2000 0x1000 memory.cnt =
      some 0xFFFFFFFFFFFFF000 :=
    (searchRegions_eq_some_iff (represents_singleton rfl rfl (by decide) (by decide))
      (represents_init _) (by decide) (by decide)).2 htarget
  have hresult : result = some (reserved.set 0 ⟨0xFFFFFFFFFFFFF000, 0x2000⟩,
      0xFFFFFFFFFFFFF000) := by
    show memblockAllocBase _ _ _ _ _ _ = _
    rw [memblockAllocBase, show effectiveLimit 0 0x1800 = (0x1800 : BitVec 64) by decide,
      show (0x2000 : BitVec 64).alignUp 0x1000 = 0x2000 by decide]
    simp only [hsearch]
    rfl
  refine ⟨by rw [hresult]; rfl, ?_⟩
  rw [hresult]
  rintro ⟨t, ret, heq, hdone⟩
  obtain ⟨-, rfl⟩ := heq
  rcases hdone with ⟨hzero, -⟩ | ⟨-, ⟨i, hi, -, hhi⟩, -⟩
  · exact absurd hzero (by decide)
  · obtain rfl : i = 0 := Nat.lt_one_iff.1 hi
    exact absurd hhi (by decide)

end Sound

end Memblock
