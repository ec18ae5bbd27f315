import MerrukKernel.Library.Trace
import MerrukKernel.Memblock.AddRegion

/-!
# memblock refines a set of addresses

`__memblock_remove` takes a range out of a region, which it removes, shortens or splits. With what
`memblock_add_region` does, a table follows the unions and differences of every sequence of calls
that does not add to an empty table against what is left in the array.
-/

namespace Memblock

open Span Table Region

variable {t t' : Table} {S : Set ℕ} {base : BitVec 64} {i j k n : ℕ}

/-! ### `__memblock_remove` -/

/-- The range lies in one region of the table. -/
def Removable (t : Table) (old : Region) : Prop :=
  ∃ j < t.cnt, (t.region j).span.lo ≤ old.span.lo ∧ old.span.hi ≤ (t.region j).span.hi

instance {old : Region} : Decidable (Removable t old) := inferInstanceAs (Decidable (∃ j < _, _))

theorem findRegion_spec {limit : BitVec 64}
    (hfind : ∃ j, i ≤ j ∧ j < i + n ∧ (t.region j).base ≤ base ∧
      limit ≤ (t.region j).base + (t.region j).size) :
    ∃ j < i + n, findRegion t base limit n i = some j ∧ (t.region j).base ≤ base ∧
      limit ≤ (t.region j).base + (t.region j).size := by
  induction n generalizing i with
  | zero =>
    omega
  | succ n ih =>
    rw [findRegion]
    by_cases hhere : (t.region i).base ≤ base ∧ limit ≤ (t.region i).base + (t.region i).size
    · exact ⟨i, by omega, if_pos hhere, hhere⟩
    · rw [if_neg hhere]
      obtain ⟨j, hi, hj, hin⟩ := hfind
      have hne : i ≠ j := by
        rintro rfl
        exact hhere hin
      obtain ⟨k, hk, hfound⟩ := ih (i := i + 1) ⟨j, by omega, by omega, hin⟩
      exact ⟨k, by omega, hfound⟩

/-- What is left of region `j` takes its place. -/
theorem Represents.shrink (h : Represents t S) (htidy : Tidy t.spans)
    (hj : j < t.cnt) {left : Region}
    (hleft : 0 < left.size.toNat) (hlo : (t.region j).span.lo ≤ left.span.lo)
    (hhi : left.span.hi ≤ (t.region j).span.hi) {n : Span}
    (hpart : ∀ a ∈ (t.region j).span, a ∈ left.span ↔ a ∉ n) (hn : ∀ a ∈ n, a ∈ (t.region j).span) :
    Represents (t.set j left) (S \ {a | a ∈ n}) := by
  have hsplit := spans_split hj
  rw [hsplit] at htidy
  obtain ⟨htidy', hcover⟩ := htidy.shrink (by simp only [span]; omega) hlo hhi hpart hn
  refine ⟨h.cnt_le, ?_, Or.inr ?_, ?_⟩
  · exact fits_set (fun k hk ↦ h.region_fits hk) hj (hhi.trans_lt (h.region_fits hj))
  · rwa [spans_set hj]
  · rw [spans_set hj, hcover, ← hsplit, h.covers]

/-- The last region goes. -/
theorem represents_empty (hcnt : t.cnt = 0) : Represents t ∅ := by
  have hspans : t.spans = [] := by rw [spans, hcnt]; rfl
  refine ⟨by rw [hcnt]; exact Nat.zero_le _, ?_, Or.inr ⟨?_, ?_⟩, ?_⟩
  · grind
  · rw [hspans]
    exact List.Pairwise.nil
  · grind
  · rw [hspans, Set.eq_empty_iff_forall_notMem]
    rintro a ⟨s, hs, -⟩
    exact absurd hs List.not_mem_nil

/-- **A whole region is taken out.** -/
theorem Represents.remove (h : Represents t S) (hj : j < t.cnt) :
    ∃ t', removeRegion t j = some t' ∧ Represents t' (S \ {a | a ∈ (t.region j).span}) := by
  obtain ⟨t', hremove, hcnt, hspans⟩ := removeRegion_spans hj
  refine ⟨t', hremove, ?_⟩
  rcases h.tidy with hdummy | htidy
  · rw [h.eq_empty_of_dummy hdummy, Set.empty_sdiff]
    exact represents_empty (by rw [hcnt, hdummy.1])
  have hsplit := spans_split hj
  rw [hsplit] at htidy
  refine ⟨?_, fun s hs ↦ ?_, Or.inr ?_, ?_⟩
  · have := h.cnt_le
    omega
  · rw [hspans] at hs
    obtain ⟨k, hk, -, rfl⟩ := mem_pre_post hj hs
    exact h.region_fits hk
  · rw [hspans]
    exact htidy.remove
  · rw [hspans, htidy.cover_remove, ← hsplit, h.covers]

/-- **A hole is made in region `j`.** What is behind the hole is added as a region of its own. -/
theorem Represents.split {old : Region} (h : Represents t S) (htidy : Tidy t.spans) (hj : j < t.cnt)
    (hroom : t.cnt < maxMemblockRegions) (hold : old.Fits)
    (hlo : (t.region j).span.lo < old.span.lo)
    (hhi : old.span.hi < (t.region j).span.hi) :
    let rgnend := (t.region j).base + (t.region j).size
    let limit := old.base + old.size
    ∃ t' ret, memblockAddRegion (t.set j ⟨(t.region j).base, old.base - (t.region j).base⟩) limit
        (rgnend - limit) = some (t', ret) ∧ 0 ≤ ret ∧ Represents t' (S \ {a | a ∈ old.span}) := by
  intro rgnend limit
  have hjfits := h.region_fits hj
  have hend : rgnend.toNat = (t.region j).span.hi := hjfits.toNat_add
  have hlimit : limit.toNat = old.span.hi := hold.toNat_add
  have hole : old.span.lo ≤ old.span.hi := Nat.le_add_right ..
  -- the part in front of the hole
  have hfront : (⟨(t.region j).base, old.base - (t.region j).base⟩ : Region).span =
      ⟨(t.region j).span.lo, old.span.lo⟩ := by
    simp only [span, Span.mk.injEq, true_and] at *
    bv_omega
  have hS : Represents (t.set j ⟨(t.region j).base, old.base - (t.region j).base⟩)
      (S \ {a | a ∈ (⟨old.span.lo, (t.region j).span.hi⟩ : Span)}) := by
    refine h.shrink htidy hj ?_ ?_ ?_ ?_ ?_
    · simp only [span] at hlo
      bv_omega
    · rw [hfront]
    · rw [hfront]
      exact hole.trans hhi.le
    · grind [mem_def]
    · intro a ha
      exact ⟨hlo.le.trans ha.1, ha.2⟩
  -- the part behind it
  have hback : (⟨limit, rgnend - limit⟩ : Region).span = ⟨old.span.hi, (t.region j).span.hi⟩ := by
    rw [Span.mk.injEq]
    show limit.toNat = _ ∧ limit.toNat + (rgnend - limit).toNat = _
    have hsub : (rgnend - limit).toNat = rgnend.toNat - limit.toNat := by bv_omega
    omega
  have hadd : Addable (t.set j ⟨(t.region j).base, old.base - (t.region j).base⟩)
      ⟨limit, rgnend - limit⟩ := by
    refine ⟨?_, ?_, Or.inl fun k hk ↦ ?_⟩
    · show 0 < (rgnend - limit).toNat
      bv_omega
    · show (span _).hi < _
      rw [hback]
      exact hjfits
    · rw [hback]
      rintro a ha ha'
      rcases eq_or_ne k j with rfl | hkj
      · grind [set_region_self, mem_def]
      · rw [set_region_of_ne hkj, mem_def] at ha
        simp only [mem_def] at ha'
        rcases lt_or_gt_of_ne hkj with hlt | hlt
        · have := hi_lt_lo htidy hlt hj
          omega
        · have := hi_lt_lo htidy hlt hk
          omega
  obtain ⟨t', ret, hcall, hdone⟩ := memblockAddRegion_spec hS hadd fun hzero ↦ absurd hzero (by
    show t.cnt ≠ 0
    omega)
  rcases hdone with ⟨hret, ht'⟩ | ⟨-, -, hfull⟩
  · refine ⟨t', ret, hcall, hret, ?_⟩
    convert ht' using 1
    ext a
    have hmem : a ∈ (t.region j).span → a ∈ S := fun ha ↦ h.covers ▸ ⟨_, mem_spans hj, ha⟩
    simp only [hback, Set.mem_union, Set.mem_sdiff, Set.mem_ofPred_eq, mem_def] at hmem ⊢
    by_cases ha : a ∈ S
    · simp only [ha, true_and]
      omega
    · grind
  · exact absurd hfull (by show t.cnt ≠ _; omega)

/-- **`__memblock_remove` takes the range out.** -/
theorem memblockRemove_spec {old : Region} (h : Represents t S) (hold : Removable t old)
    (hroom : t.cnt < maxMemblockRegions) :
    ∃ t' ret, memblockRemove t old.base old.size = some (t', ret) ∧ 0 ≤ ret ∧
      Represents t' (S \ {a | a ∈ old.span}) := by
  obtain ⟨j₀, hj₀, hlo₀, hhi₀⟩ := hold
  have hfits₀ := h.region_fits hj₀
  have hold : old.Fits := hhi₀.trans_lt hfits₀
  obtain ⟨j, hj, hfind, hbase, hlimit⟩ := findRegion_spec
    (n := t.cnt) ⟨j₀, Nat.zero_le _, by omega, hlo₀, by
      rw [BitVec.le_def, hold.toNat_add, hfits₀.toNat_add]
      exact hhi₀⟩
  rw [Nat.zero_add] at hj
  have hjfits := h.region_fits hj
  have hlo : (t.region j).span.lo ≤ old.span.lo := hbase
  have hhi : old.span.hi ≤ (t.region j).span.hi := by
    rwa [BitVec.le_def, hold.toNat_add, hjfits.toNat_add] at hlimit
  have hole : old.span.lo ≤ old.span.hi := Nat.le_add_right ..
  have hlo_iff : (t.region j).base = old.base ↔ (t.region j).span.lo = old.span.lo :=
    BitVec.toNat_inj.symm
  have hhi_iff : (t.region j).base + (t.region j).size = old.base + old.size ↔
      (t.region j).span.hi = old.span.hi := by
    rw [← BitVec.toNat_inj, hjfits.toNat_add, hold.toNat_add]
    rfl
  have htidy : (t.region j).span.lo < (t.region j).span.hi → Tidy t.spans := by
    refine fun hlt ↦ h.tidy.resolve_left fun hdummy ↦ ?_
    obtain rfl : j = 0 := by have := hdummy.1; omega
    simp only [span, hdummy.2] at hlt
    exact absurd hlt (lt_irrefl _)
  rw [memblockRemove]
  simp only [hfind, hlo_iff, hhi_iff]
  split_ifs with hwhole hfront hback
  · obtain ⟨t', hremove, ht'⟩ := h.remove hj
    refine ⟨t', 0, by rw [hremove]; rfl, le_rfl, ?_⟩
    rwa [show (t.region j).span = old.span from congrArg₂ Span.mk hwhole.1 hwhole.2] at ht'
  · have hleft : (⟨old.base + old.size, (t.region j).size - old.size⟩ : Region).span =
        ⟨old.span.hi, (t.region j).span.hi⟩ := by
      simp only [span, Region.Fits, Span.mk.injEq] at *
      bv_omega
    refine ⟨_, 0, rfl, le_rfl, h.shrink (htidy (by omega)) hj ?_ ?_ ?_ ?_ ?_⟩
    · bv_omega
    · rw [hleft]
      exact hlo.trans hole
    · rw [hleft]
    · grind [mem_def]
    · exact fun a ha ↦ ⟨hlo.trans ha.1, ha.2.trans_le hhi⟩
  · have hleft : (⟨(t.region j).base, (t.region j).size - old.size⟩ : Region).span =
        ⟨(t.region j).span.lo, old.span.lo⟩ := by
      simp only [span, Span.mk.injEq, true_and] at *
      bv_omega
    refine ⟨_, 0, rfl, le_rfl, h.shrink (htidy (by omega)) hj ?_ ?_ ?_ ?_ ?_⟩
    · bv_omega
    · rw [hleft]
    · rw [hleft]
      exact hole.trans hhi
    · grind [mem_def]
    · exact fun a ha ↦ ⟨hlo.trans ha.1, ha.2.trans_le hhi⟩
  · exact h.split (htidy (by omega)) hj hroom hold (by omega) (by omega)

/-! ### Calls that fail -/

section

variable {size : BitVec 64} {ret : ℤ} {r : Region}

/-- **`memblock_add_region` fails** for want of room, for a region that is not in the table and
touches none of it; it has not written to the table then. -/
theorem memblockAddRegion_failure (hret : ret < 0) (new : Region) :
    memblockAddRegion t new.base new.size = some (t', ret) ↔
      (t' = t ∧ ret = -1) ∧ maxMemblockRegions ≤ t.cnt ∧ ∀ k < t.cnt, Clear new (t.region k) := by
  have hscanned := scan_spec t new t.cnt 0
  unfold memblockAddRegion
  constructor
  · intro h
    split_ifs at h
    · grind
    generalize scan t new.base new.size t.cnt 0 = result at h hscanned
    cases result with
    | already => grind
    | left j u coalesced =>
      simp only [coalesceNext, Option.bind_eq_bind] at h
      split_ifs at h with hnext
      · cases hjoin : coalesceRegions u j (j + 1) with
        | none => simp [hjoin] at h
        | some v => grind
      · rw [Option.bind_some] at h
        split_ifs at h with hnone hfull
        · grind
        · cases hscanned with
          | none hclear =>
            cases h
            exact ⟨⟨rfl, rfl⟩, hfull, fun k hk ↦ hclear k (Nat.zero_le k) (by omega)⟩
          | front => exact absurd one_ne_zero hnone
          | back => exact absurd one_ne_zero hnone
        · grind
  · rintro ⟨⟨rfl, rfl⟩, hfull, hclear⟩
    rw [if_neg (by rw [maxMemblockRegions] at hfull; omega)]
    generalize scan t' new.base new.size t'.cnt 0 = result at hscanned
    cases hscanned with
    | already j hj heq => exact absurd heq (hclear j (by omega)).1
    | front j hj _ htouch => exact absurd htouch (hclear j (by omega)).2.1
    | back j hj htouch => exact absurd htouch (hclear j (by omega)).2.2
    | none =>
      have hlast : ¬ t'.cnt < t'.lastIndex := by
        rw [maxMemblockRegions] at hfull
        rw [lastIndex]
        omega
      simp [coalesceNext, hlast, hfull]

theorem mem_cover_spans {a : ℕ} : a ∈ cover t.spans ↔ ∃ k < t.cnt, a ∈ (t.region k).span := by
  simp [mem_cover, mem_spans_iff]

/-- What a region may become without a change of the addresses. -/
theorem cover_set_eq_iff (hj : j < t.cnt) : cover (t.set j r).spans = cover t.spans ↔
    ∀ a, (a ∈ r.span ↔ a ∈ (t.region j).span) ∨ ∃ k < t.cnt, k ≠ j ∧ a ∈ (t.region k).span := by
  have hmem : ∀ a, a ∈ cover (t.set j r).spans ↔
      a ∈ r.span ∨ ∃ k < t.cnt, k ≠ j ∧ a ∈ (t.region k).span := by
    intro a
    rw [mem_cover_spans]
    constructor
    · rintro ⟨k, hk, ha⟩
      by_cases hkj : k = j
      · subst hkj
        exact .inl (by rwa [set_region_self] at ha)
      · exact .inr ⟨k, hk, hkj, set_region_of_ne hkj ▸ ha⟩
    · rintro (ha | ⟨k, hk, hkj, ha⟩)
      · exact ⟨j, hj, by rwa [set_region_self]⟩
      · exact ⟨k, hk, by rwa [set_region_of_ne hkj]⟩
  simp only [Set.ext_iff, hmem, mem_cover_spans]
  refine forall_congr' fun a ↦ ?_
  grind

theorem findRegion_lt {limit : BitVec 64} (h : findRegion t base limit n i = some j) :
    j < i + n := by
  fun_induction findRegion t base limit n i <;> grind

/-- The range is cut out of the middle of region `j`, of which `front` is left at first. The part
behind it is not in the table and touches no region of it, so that it would need an entry, and
there is none. -/
structure CutShort (t : Table) (old front : Region) (j : ℕ) : Prop where
  full : maxMemblockRegions ≤ t.cnt
  found : findRegion t old.base (old.base + old.size) t.cnt 0 = some j
  front_eq : front = ⟨(t.region j).base, old.base - (t.region j).base⟩
  lo_ne : (t.region j).base ≠ old.base
  hi_ne : (t.region j).base + (t.region j).size ≠ old.base + old.size
  clear : ∀ k < t.cnt, Clear ⟨old.base + old.size,
    (t.region j).base + (t.region j).size - (old.base + old.size)⟩ ((t.set j front).region k)

theorem memblockRemove_failure (hret : ret < 0) (h : memblockRemove t base size = some (t', ret)) :
    t' = t ∨ ∃ front j, CutShort t ⟨base, size⟩ front j ∧ t' = t.set j front := by
  unfold memblockRemove at h
  cases hfind : findRegion t base (base + size) t.cnt 0 with
  | none =>
    simp only [hfind] at h
    cases h
    exact .inl rfl
  | some j =>
    simp only [hfind] at h
    split_ifs at h with hwhole hfront hback
    · obtain ⟨u, -, heq⟩ := Option.map_eq_some_iff.1 h
      grind
    · grind
    · grind
    · obtain ⟨⟨heq, -⟩, hfull, hclear⟩ := (memblockAddRegion_failure hret ⟨_, _⟩).1 h
      exact .inr ⟨_, j, ⟨hfull, hfind, rfl, hfront, hback, hclear⟩, heq⟩

theorem CutShort.memblockRemove_eq {front : Region} (h : CutShort t ⟨base, size⟩ front j) :
    memblockRemove t base size = some (t.set j front, -1) := by
  obtain ⟨hfull, hfind, rfl, hfront, hback, hclear⟩ := h
  simp only at hfind hfront hback
  simp only [memblockRemove, hfind]
  rw [if_neg fun h ↦ hfront h.1, if_neg hfront, if_neg hback]
  exact (memblockAddRegion_failure (by decide) ⟨_, _⟩).2 ⟨⟨rfl, rfl⟩, hfull, hclear⟩

/-- **A call that fails leaves the addresses as they were**, exactly unless it is a removal that is
cut short, and some address of the region shortened is in no other region. -/
theorem memblock_failure_atomic_iff (t : Table) (base size : BitVec 64) :
    (∀ t' ret, memblockAddRegion t base size = some (t', ret) → ret < 0 →
      cover t'.spans = cover t.spans) ∧
    ((∀ t' ret, memblockRemove t base size = some (t', ret) → ret < 0 →
      cover t'.spans = cover t.spans) ↔
      ∀ front j, CutShort t ⟨base, size⟩ front j → ∀ a,
        (a ∈ front.span ↔ a ∈ (t.region j).span) ∨ ∃ k < t.cnt, k ≠ j ∧ a ∈ (t.region k).span) := by
  refine ⟨fun t' ret h hret ↦ ?_, fun h front j hcut ↦ ?_, fun h t' ret hcall hret ↦ ?_⟩
  · rw [((memblockAddRegion_failure hret ⟨base, size⟩).1 h).1.1]
  · have hj : j < t.cnt := by simpa using findRegion_lt hcut.found
    exact (cover_set_eq_iff hj).1 (h _ _ hcut.memblockRemove_eq (by decide))
  · obtain rfl | ⟨front, j, hcut, rfl⟩ := memblockRemove_failure hret hcall
    · rfl
    · have hj : j < t.cnt := by simpa using findRegion_lt hcut.found
      exact (cover_set_eq_iff hj).2 (h front j hcut)

end

def fullTable : Table := ⟨128, fun i ↦ ⟨BitVec.ofNat 64 (0x10000 * i), 0x3000⟩⟩

/-- **A failed removal loses addresses.** The range behind the hole is neither kept nor was it to be
removed. -/
theorem failed_removal_loses :
    ∃ t', memblockRemove fullTable 0x1000 0x1000 = some (t', -1) ∧
      0x2000 ∈ cover fullTable.spans ∧ 0x2000 ∉ cover t'.spans := by
  have hcall : (memblockRemove fullTable 0x1000 0x1000).map (fun p ↦ (p.1.spans, p.2)) =
      some (⟨0, 0x1000⟩ :: fullTable.spans.tail, -1) := by decide +kernel
  obtain ⟨⟨t', ret⟩, hcall, heq⟩ := Option.map_eq_some_iff.1 hcall
  obtain ⟨hspans, rfl⟩ := Prod.mk.inj heq
  refine ⟨t', hcall, ?_, ?_⟩
  · exact ⟨⟨0, 0x3000⟩, by decide +kernel, by decide, by decide⟩
  · rintro ⟨s, hs, hin⟩
    rw [hspans] at hs
    have : ∀ s ∈ ⟨0, 0x1000⟩ :: fullTable.spans.tail, ¬ (s.lo ≤ 0x2000 ∧ 0x2000 < s.hi) := by
      decide +kernel
    exact this s hs hin

/-! ### Sequences of calls -/

/-- A table, and the addresses that the calls have added and not removed. -/
structure Tracked where
  table : Option Table
  addresses : Set ℕ

inductive Op
  | add (r : Region)
  | remove (r : Region)
deriving DecidableEq

def Table.step (t : Table) : Op → Option Table
  | .add r => (memblockAddRegion t r.base r.size).map Prod.fst
  | .remove r => (memblockRemove t r.base r.size).map Prod.fst

/-- What the call does to the set of addresses. -/
def Op.apply (S : Set ℕ) : Op → Set ℕ
  | .add r => S ∪ {a | a ∈ r.span}
  | .remove r => S \ {a | a ∈ r.span}

def Tracked.step (s : Tracked) (op : Op) : Tracked :=
  ⟨s.table.bind (·.step op), op.apply s.addresses⟩

/-- The table after `memblock_init`; `region` is what the array held before. -/
def Tracked.init (region : ℕ → Region) : Tracked := ⟨some (Table.init region), ∅⟩

/-- The table has room, what is added is disjoint from the regions or one of them, and what is
removed lies in one region. -/
def Op.Proper (t : Table) : Op → Prop
  | .add r => Addable t r ∧ t.cnt < maxMemblockRegions
  | .remove r => Removable t r ∧ t.cnt < maxMemblockRegions

instance : ∀ {op : Op}, Decidable (op.Proper t)
  | .add _ => inferInstanceAs (Decidable (_ ∧ _))
  | .remove _ => inferInstanceAs (Decidable (_ ∧ _))

/-- Calls that are proper. -/
def properMachine : Machine Tracked Op where
  guard s op := ∀ t ∈ s.table, op.Proper t
  exec := Tracked.step

/-- What is added to an empty table is not obstructed by what is left in it. -/
def Op.Free (t : Table) : Op → Prop
  | .add r => Unobstructed t r
  | .remove _ => True

instance : ∀ {op : Op}, Decidable (op.Free t)
  | .add _ => inferInstanceAs (Decidable (Unobstructed _ _))
  | .remove _ => inferInstanceAs (Decidable True)

/-- Calls that are proper, and not obstructed. -/
def freeMachine : Machine Tracked Op where
  guard s op := ∀ t ∈ s.table, op.Proper t ∧ op.Free t
  exec := Tracked.step

instance (s : Tracked) (op : Op) : Decidable (properMachine.guard s op) :=
  inferInstanceAs (Decidable (∀ t ∈ s.table, op.Proper t))

instance (s : Tracked) (op : Op) : Decidable (freeMachine.guard s op) :=
  inferInstanceAs (Decidable (∀ t ∈ s.table, op.Proper t ∧ op.Free t))

/-- **Each call does to the set what it does to the table.** -/
theorem Represents.step (h : Represents t S) {op : Op} (hproper : op.Proper t) (hfree : op.Free t) :
    ∃ t', t.step op = some t' ∧ Represents t' (op.apply S) := by
  cases op with
  | add r =>
    obtain ⟨t', ret, hcall, ⟨-, ht'⟩ | ⟨-, -, hfull⟩⟩ := memblockAddRegion_spec h hproper.1 hfree
    · exact ⟨t', by rw [Table.step, hcall]; rfl, ht'⟩
    · exact absurd hproper.2 (by rw [hfull]; exact lt_irrefl _)
  | remove r =>
    obtain ⟨t', ret, hcall, -, ht'⟩ := memblockRemove_spec h hproper.1 hproper.2
    exact ⟨t', by rw [Table.step, hcall]; rfl, ht'⟩

/-- **memblock refines a set of addresses.** In every sequence of calls from `memblock_init` in
which no range is added to an empty table against what is left in the array, the regions are
sorted with gaps between them, and their union is the set that the unions and differences give. -/
theorem memblock_refines_set {region : ℕ → Region} {ops : List Op} {s : Tracked}
    (hrun : freeMachine.Runs (Tracked.init region) ops s) :
    ∃ t, s.table = some t ∧ Apart t.spans ∧ (∀ r ∈ t.spans, r.hi < 2 ^ 64) ∧
      cover t.spans = s.addresses := by
  obtain ⟨t, htable, h⟩ := hrun.invariant (I := fun s ↦ ∃ t, s.table = some t ∧
    Represents t s.addresses) (by
    rintro s op ⟨t, htable, h⟩ hg
    obtain ⟨hproper, hfree⟩ := hg t htable
    obtain ⟨t', hstep, h'⟩ := h.step hproper hfree
    refine ⟨t', ?_, h'⟩
    show s.table.bind (·.step op) = _
    rw [htable, Option.bind_some, hstep])
    ⟨_, rfl, represents_init region⟩
  refine ⟨t, htable, ?_, h.fits, h.covers⟩
  rcases h.tidy with hdummy | htidy
  · rw [spans, hdummy.1]
    exact List.pairwise_singleton ..
  · exact htidy.apart

/-- Two ranges, a third one that joins them, a hole, and then everything is removed and a lower
range added. -/
theorem memblock_refines_set_again :
    let ops : List Op := [.add ⟨0x1000, 0x1000⟩, .add ⟨0x4000, 0x1000⟩, .add ⟨0x2000, 0x2000⟩,
      .remove ⟨0x2800, 0x800⟩, .remove ⟨0x1000, 0x1800⟩, .remove ⟨0x3000, 0x2000⟩,
      .add ⟨0x800, 0x800⟩]
    let s := freeMachine.final (Tracked.init fun _ ↦ ⟨0, 0⟩) ops
    (∃ t, s.table = some t ∧ Apart t.spans ∧ (∀ r ∈ t.spans, r.hi < 2 ^ 64) ∧
      cover t.spans = s.addresses) ∧
      s.table.map Table.spans = some [⟨0x800, 0x1000⟩] := by
  intro ops s
  have hrun : freeMachine.Permitted (Tracked.init fun _ ↦ ⟨0, 0⟩) ops := by decide +kernel
  exact ⟨memblock_refines_set hrun.runs, by decide +kernel⟩

/-- **A range added to an empty table is lost.** The only region is removed and a higher one
added: the table then holds the region that was removed. -/
theorem memblock_holds_removed :
    let ops : List Op := [.add ⟨0x1000, 0x1000⟩, .remove ⟨0x1000, 0x1000⟩, .add ⟨0x2000, 0x1000⟩]
    let s := properMachine.final (Tracked.init fun _ ↦ ⟨0, 0⟩) ops
    properMachine.Permitted (Tracked.init fun _ ↦ ⟨0, 0⟩) ops ∧
      s.table.map Table.spans = some [⟨0x1000, 0x2000⟩] ∧ 0x2000 ∈ s.addresses ∧
      0x1000 ∉ s.addresses := by
  intro ops s
  refine ⟨by decide +kernel, by decide +kernel, ?_, ?_⟩
  · exact Or.inr ⟨by decide, by decide⟩
  · rintro (⟨-, hnot⟩ | ⟨hle, -⟩)
    · exact hnot ⟨by decide, by decide⟩
    · exact absurd hle (by decide)

end Memblock
