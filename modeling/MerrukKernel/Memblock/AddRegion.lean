import MerrukKernel.Memblock.Tables

/-!
# Adding a region

`memblock_add_region` is the union with a range, as long as the table has a region. In an empty
table `cnt - 1` wraps around, the first regions of the array are compared although they do not
count, and the new region is written only if it lies below what is left in the first place.
-/

namespace Memblock

open Span List Table Region

/-- The table is the one that `memblock_init` leaves. -/
def Table.Dummy (t : Table) : Prop := t.cnt = 1 ∧ (t.region 0).size = 0

/-- **The table stands for a set of addresses.** -/
structure Represents (t : Table) (S : Set ℕ) : Prop where
  cnt_le : t.cnt ≤ maxMemblockRegions
  fits : ∀ s ∈ t.spans, s.hi < 2 ^ 64
  tidy : t.Dummy ∨ Tidy t.spans
  covers : cover t.spans = S

variable {t t' : Table} {S : Set ℕ} {new : Region} {base size : BitVec 64} {i j k n : ℕ} {ret : ℤ}

theorem Table.mem_spans (hj : j < t.cnt) : (t.region j).span ∈ t.spans :=
  mem_segment.2 ⟨j, Nat.zero_le _, by omega, rfl⟩

variable {s : Span} {base₁ base₂ size₁ size₂ : BitVec 64}

theorem Table.mem_spans_iff : s ∈ t.spans ↔ ∃ j < t.cnt, (t.region j).span = s := by
  rw [spans, mem_segment]
  simp only [Nat.zero_le, true_and, Nat.zero_add]

theorem Region.Fits.toNat_add {r : Region} (h : r.Fits) :
    (r.base + r.size).toNat = r.base.toNat + r.size.toNat := by
  rw [BitVec.toNat_add, Nat.mod_eq_of_lt h]

theorem Region.Fits.touch_iff {r r' : Region} (h : r.Fits) :
    r'.base = r.base + r.size ↔ r.span.hi = r'.span.lo := by
  rw [← BitVec.toNat_inj, h.toNat_add]
  exact eq_comm

theorem Represents.region_fits (h : Represents t S) (hj : j < t.cnt) : (t.region j).Fits :=
  h.fits _ (mem_spans hj)

theorem represents_init (region : ℕ → Region) : Represents (init region) ∅ := by
  have hdummy : (init region).Dummy := ⟨rfl, by simp [init]⟩
  have hspans : (init region).spans = [⟨0, 0⟩] := by
    simp [spans, init, segment, Region.span]
  refine ⟨by simp [init, maxMemblockRegions], ?_, Or.inl hdummy, ?_⟩
  · grind
  · rw [hspans]
    ext a
    simp [mem_cover, mem_def]

/-! ### The first loop -/

/-- The region is not the new one, and does not touch it. -/
def Clear (new r : Region) : Prop :=
  r ≠ new ∧ r.base ≠ new.base + new.size ∧ new.base ≠ r.base + r.size

/-- Where the first loop of `memblock_add_region` ends. -/
inductive Scanned (t : Table) (new : Region) (i n : ℕ) : Scan → Prop
  | already (j : ℕ) (hj : j < i + n) (heq : t.region j = new) : Scanned t new i n .already
  | front (j : ℕ) (hj : j < i + n) (hclear : ∀ k, i ≤ k → k < j → Clear new (t.region k))
      (htouch : (t.region j).base = new.base + new.size) :
      Scanned t new i n
      (.left j (t.set j ⟨(t.region j).base - new.size, (t.region j).size + new.size⟩) 1)
  | back (j : ℕ) (hj : j < i + n) (htouch : new.base = (t.region j).base + (t.region j).size) :
      Scanned t new i n (.left j (t.set j ⟨(t.region j).base, (t.region j).size + new.size⟩) 1)
  | none (hclear : ∀ k, i ≤ k → k < i + n → Clear new (t.region k)) : Scanned t new i n
    (.left (i + n) t 0)

theorem addrsAdjacent_pos : 0 < addrsAdjacent base₁ size₁ base₂ size₂ ↔ base₂ = base₁ + size₁ := by
  unfold addrsAdjacent
  split_ifs <;> simp_all

theorem addrsAdjacent_neg (h : base₂ ≠ base₁ + size₁) :
    addrsAdjacent base₁ size₁ base₂ size₂ < 0 ↔ base₁ = base₂ + size₂ := by
  unfold addrsAdjacent
  split_ifs <;> simp_all

theorem addrsAdjacent_eq_zero :
    addrsAdjacent base₁ size₁ base₂ size₂ = 0 ↔ base₂ ≠ base₁ + size₁ ∧ base₁ ≠ base₂ + size₂ := by
  unfold addrsAdjacent
  split_ifs <;> simp_all

theorem scan_spec (t : Table) (new : Region) (n i : ℕ) :
    Scanned t new i n (scan t new.base new.size n i) := by
  induction n generalizing i with
  | zero => exact .none fun k hk hk' ↦ absurd hk' (by omega)
  | succ n ih =>
    rw [scan]
    by_cases heq : (t.region i).base = new.base ∧ (t.region i).size = new.size
    · rw [if_pos heq]
      exact .already i (by omega) (by rw [Region.mk.injEq]; exact heq)
    rw [if_neg heq]
    by_cases hfront : (t.region i).base = new.base + new.size
    · rw [if_pos (addrsAdjacent_pos.2 hfront)]
      exact .front i (by omega) (fun k hk hk' ↦ absurd hk' (by omega)) hfront
    rw [if_neg (mt addrsAdjacent_pos.1 hfront)]
    by_cases hback : new.base = (t.region i).base + (t.region i).size
    · rw [if_pos ((addrsAdjacent_neg hfront).2 hback)]
      exact .back i (by omega) hback
    rw [if_neg (mt (addrsAdjacent_neg hfront).1 hback)]
    have hclear : Clear new (t.region i) := ⟨fun h ↦ heq (h ▸ ⟨rfl, rfl⟩), hfront, hback⟩
    have hcons : ∀ m, (∀ k, i + 1 ≤ k → k < m → Clear new (t.region k)) →
        ∀ k, i ≤ k → k < m → Clear new (t.region k) := by grind
    have hn : i + 1 + n = i + (n + 1) := by omega
    generalize hscan : scan t new.base new.size n (i + 1) = result
    rcases hscan ▸ ih (i + 1) with ⟨j, hj, heq⟩ | ⟨j, hj, hrest, htouch⟩ | ⟨j, hj, htouch⟩ | hrest
    · exact .already j (by omega) heq
    · exact .front j (by omega) (hcons j hrest) htouch
    · exact .back j (by omega) htouch
    · rw [hn] at hrest ⊢
      exact .none (hcons _ hrest)

/-! ### What is merged with the new region -/

/-- Regions of a tidy table lie in the order of their indices. -/
theorem Table.hi_lt_lo (h : Tidy t.spans) (hij : i < j) (hj : j < t.cnt) :
    (t.region i).span.hi < (t.region j).span.lo := by
  rw [spans_split hj] at h
  exact h.before (mem_segment.2 ⟨i, Nat.zero_le _, by omega, rfl⟩)

theorem addrsAdjacent_of_lt {r₁ r₂ : Region} (h₁ : r₁.Fits) (h₂ : r₂.Fits)
    (hlt : r₁.span.hi < r₂.span.lo) :
    addrsAdjacent r₁.base r₁.size r₂.base r₂.size = 0 := by
  simp only [Region.span, Region.Fits] at h₁ h₂ hlt
  rw [addrsAdjacent, if_neg (by bv_omega), if_neg (by bv_omega)]

theorem regionsAdjacent_succ (h : Tidy t.spans) (hfits : ∀ s ∈ t.spans, s.hi < 2 ^ 64)
    (hj : j + 1 < t.cnt) :
    regionsAdjacent t j (j + 1) = 0 :=
  addrsAdjacent_of_lt (hfits _ (mem_spans (by omega))) (hfits _ (mem_spans hj))
    (hi_lt_lo h (by omega) hj)

theorem Table.lastIndex_eq (hpos : 0 < t.cnt) (hle : t.cnt ≤ maxMemblockRegions) :
    t.lastIndex = t.cnt - 1 := by
  rw [maxMemblockRegions] at hle
  rw [lastIndex]
  omega

theorem disjoint_of_touch (h : Tidy t.spans) (hfits : ∀ j < t.cnt, (t.region j).Fits)
    (hj : j < t.cnt)
    (hpos : 0 < new.size.toNat)
    (hnew : (∀ k < t.cnt, (t.region k).span.Disjoint new.span) ∨ ∃ k < t.cnt, t.region k = new)
    (htouch : (t.region j).base = new.base + new.size ∨
      new.base = (t.region j).base + (t.region j).size) :
    ∀ k < t.cnt, (t.region k).span.Disjoint new.span := by
  rcases hnew with hdisj | ⟨k, hk, rfl⟩
  · exact hdisj
  have hkfits := hfits k hk
  have hjfits := hfits j hj
  simp only [Region.Fits] at hkfits hjfits
  rcases lt_trichotomy j k with hjk | rfl | hjk
  · have := hi_lt_lo h hjk hk
    simp only [Region.span] at this
    rcases htouch with htouch | htouch <;> bv_omega
  · rcases htouch with htouch | htouch <;> bv_omega
  · have := hi_lt_lo h hjk hj
    simp only [Region.span] at this
    rcases htouch with htouch | htouch <;> bv_omega

/-- **The table stands for a range more than before.** -/
structure Grown (t t' : Table) (n : Span) : Prop where
  tidy : Tidy t'.spans
  covers : cover t'.spans = cover t.spans ∪ {a | a ∈ n}
  fits : ∀ s ∈ t'.spans, s.hi < 2 ^ 64

/-- One region of a table has changed, or has been put between the others. -/
theorem fits_middle {pre post : List Span} (hs : s.hi < 2 ^ 64)
    (hrest : ∀ r ∈ pre ++ post, r.hi < 2 ^ 64) : ∀ r ∈ pre ++ s :: post, r.hi < 2 ^ 64 := by grind

section Add

variable (h : Tidy t.spans) (hfits : ∀ j < t.cnt, (t.region j).Fits)
  (hle : t.cnt ≤ maxMemblockRegions)
  (hpos : 0 < new.size.toNat) (hnew : new.Fits) (hdisj : ∀ k < t.cnt,
    (t.region k).span.Disjoint new.span)

omit h hfits hle hpos hnew hdisj in
theorem Table.mem_pre_post (hj : j < t.cnt)
    (hs : s ∈ segment t.region 0 j ++ segment t.region (j + 1) (t.cnt - (j + 1))) :
    ∃ k < t.cnt, k ≠ j ∧ (t.region k).span = s := by grind [mem_segment]

include hfits in
omit h hle hpos hnew hdisj in
theorem Table.fits_set {r : Region} (hj : j < t.cnt) (hr : r.Fits) :
    ∀ s ∈ (t.set j r).spans, s.hi < 2 ^ 64 := by
  rw [spans_set hj]
  refine fits_middle hr fun s hs ↦ ?_
  obtain ⟨k, hk, -, rfl⟩ := mem_pre_post hj hs
  exact hfits k hk

include h hfits hpos hnew hdisj

/-- **The new region ends where region `j` begins.** -/
theorem grown_front (hj : j < t.cnt) (hclear : ∀ k < j, Clear new (t.region k))
    (htouch : (t.region j).base = new.base + new.size) :
    Grown t (t.set j ⟨(t.region j).base - new.size, (t.region j).size + new.size⟩) new.span := by
  have hjfits := hfits j hj
  have hspan : (⟨(t.region j).base - new.size, (t.region j).size + new.size⟩ : Region).span =
      ⟨new.span.lo, (t.region j).span.hi⟩ := by
    simp only [Region.span, Region.Fits, Span.mk.injEq] at *
    bv_omega
  have hlo := (hnew.touch_iff.1 htouch).symm
  have hsplit := spans_split hj
  rw [hsplit] at h
  obtain ⟨htidy, hcover⟩ := h.extend_left (by simp only [Region.span]; omega)
    (fun p hp ↦ by
      obtain ⟨k, _, hk, rfl⟩ := mem_segment.1 hp
      exact hdisj k (by omega)) hlo
    (fun p hp hhi ↦ by
      obtain ⟨k, _, hk, rfl⟩ := mem_segment.1 hp
      exact (hclear k (by omega)).2.2 ((hfits k (by omega)).touch_iff.2 hhi))
  refine ⟨?_, ?_, fits_set hfits hj ?_⟩
  · rwa [spans_set hj, hspan]
  · rw [spans_set hj, hspan, hsplit, hcover]
  · show (Region.span _).hi < _
    rw [hspan]
    exact hjfits

/-- **The new region begins where region `j` ends,** and does not reach the one behind. -/
theorem grown_back (hj : j < t.cnt) (htouch : new.base = (t.region j).base + (t.region j).size)
    (hgap : j + 1 < t.cnt → (t.region (j + 1)).base ≠ new.base + new.size) :
    Grown t (t.set j ⟨(t.region j).base, (t.region j).size + new.size⟩) new.span := by
  have hjfits := hfits j hj
  have hspan : (⟨(t.region j).base, (t.region j).size + new.size⟩ : Region).span =
      ⟨(t.region j).span.lo, new.span.hi⟩ := by
    simp only [Region.span, Region.Fits, Span.mk.injEq, true_and] at *
    bv_omega
  have hhi := hjfits.touch_iff.1 htouch
  have hn : new.span.lo < new.span.hi := by simp only [Region.span]; omega
  have hclear : ∀ k, j < k → k < t.cnt → (t.region k).span.lo ≠ new.span.hi := by
    intro k hjk hk hlo
    rcases Nat.lt_or_eq_of_le (show j + 1 ≤ k from hjk) with hlt | rfl
    · -- the region behind region `j` would lie inside the new one
      have hfirst := hi_lt_lo h (show j < j + 1 by omega) (by omega)
      have hsecond := hi_lt_lo h hlt hk
      have hfilled := h.filled _ (mem_spans (by omega : j + 1 < t.cnt))
      rcases (hdisj (j + 1) (by omega)).le_or_le hfilled hn with hle | hle <;> omega
    · exact hgap hk (hnew.touch_iff.2 hlo.symm)
  have hsplit := spans_split hj
  rw [hsplit] at h
  obtain ⟨htidy, hcover⟩ := h.extend_right hn
    (fun q hq ↦ by
      obtain ⟨k, hk, hk', rfl⟩ := mem_segment.1 hq
      exact hdisj k (by omega)) hhi
    (fun q hq ↦ by
      obtain ⟨k, hk, hk', rfl⟩ := mem_segment.1 hq
      exact hclear k (by omega) (by omega))
  refine ⟨?_, ?_, fits_set hfits hj ?_⟩
  · rwa [spans_set hj, hspan]
  · rw [spans_set hj, hspan, hsplit, hcover]
  · show (Region.span _).hi < _
    rw [hspan]
    exact hnew

omit hdisj in
/-- **The new region fills the gap behind region `j`.** -/
theorem grown_join (hj : j + 1 < t.cnt) (htouch : new.base = (t.region j).base + (t.region j).size)
    (hnext : (t.region (j + 1)).base = new.base + new.size) :
    ∃ t', coalesceRegions (t.set j ⟨(t.region j).base, (t.region j).size + new.size⟩) j
    (j + 1) = some t' ∧
      t'.cnt = t.cnt - 1 ∧ Grown t t' new.span := by
  have hjfits := hfits j (by omega)
  have hnfits := hfits (j + 1) hj
  have hhi := hjfits.touch_iff.1 htouch
  have hlo := (hnew.touch_iff.1 hnext).symm
  -- region `j` takes the sizes of the new region and of the next one
  set r : Region :=
    ⟨(t.region j).base, (t.region j).size + new.size + (t.region (j + 1)).size⟩ with hr
  have hset :
      coalesceRegions (t.set j ⟨(t.region j).base, (t.region j).size + new.size⟩) j (j + 1) =
        removeRegion (t.set j r) (j + 1) := by
    rw [coalesceRegions]
    simp only [Table.set, Function.update_self, Function.update_idem, ne_eq, Nat.succ_ne_self,
      not_false_eq_true, Function.update_of_ne, hr]
  have hspan : r.span = ⟨(t.region j).span.lo, (t.region (j + 1)).span.hi⟩ := by
    simp only [hr, Region.span, Region.Fits, Span.mk.injEq, true_and] at *
    bv_omega
  obtain ⟨t', hremove, hcnt, hspans⟩ := removeRegion_spans (t := t.set j r) hj
  refine ⟨t', hset.trans hremove, hcnt, ?_⟩
  have hspans' : t'.spans = segment t.region 0 j ++
      ⟨(t.region j).span.lo, (t.region (j + 1)).span.hi⟩ :: segment t.region (j + 2)
      (t.cnt - (j + 2)) := by
    rw [hspans, ← segment_append j, Nat.zero_add, segment_cons, ← hspan, append_assoc]
    congr 1
    · exact segment_congr fun k _ hk ↦ Table.set_region_of_ne (by omega)
    · rw [Table.set_region_self]
      exact congrArg _ (segment_congr fun k hk _ ↦ Table.set_region_of_ne (by omega))
  have hsplit : t.spans = segment t.region 0 j ++ (t.region j).span :: (t.region (j + 1)).span ::
      segment t.region (j + 2) (t.cnt - (j + 2)) := by
    rw [Table.spans_split (show j < t.cnt by omega), show t.cnt - (j + 1) = t.cnt -
      (j + 2) + 1 by omega,
      segment_cons]
  rw [hsplit] at h
  obtain ⟨htidy, hcover⟩ := h.join (by simp only [Region.span]; omega) hhi hlo
  refine ⟨?_, ?_, ?_⟩
  · rwa [hspans']
  · rw [hspans', hcover, hsplit]
  · rw [hspans']
    refine fits_middle hnfits fun s hs ↦ ?_
    have hs' : s ∈ segment t.region 0 j ++ segment t.region (j + 1) (t.cnt - (j + 1)) := by
      rw [show t.cnt - (j + 1) = t.cnt - (j + 2) + 1 by omega]
      exact (List.Sublist.append_left (sublist_cons_self ..) _).subset hs
    obtain ⟨k, hk, -, rfl⟩ := Table.mem_pre_post (by omega) hs'
    exact hfits k hk

/-- **The new region touches no other.** -/
theorem grown_insert (hcnt : 0 < t.cnt) (hclear : ∀ k < t.cnt, Clear new (t.region k)) :
    Grown t (insertRegion t new) new.span := by
  have hsorted : ∀ j < t.cnt, (t.region 0).base ≤ (t.region j).base := by
    intro j hj
    rcases Nat.eq_zero_or_pos j with rfl | hjpos
    · exact BitVec.le_refl _
    · have := hi_lt_lo h hjpos hj
      simp only [Region.span] at this
      bv_omega
  obtain ⟨k, hk, habove, hbelow, hspans⟩ := insertRegion_spans new hcnt hsorted
  have hsplit : t.spans = segment t.region 0 k ++ segment t.region k (t.cnt - k) := by
    have hn : t.cnt = k + (t.cnt - k) := by omega
    rw [spans, hn, ← segment_append k, Nat.zero_add, ← hn]
  have hmem : ∀ s ∈ segment t.region 0 k ++ segment t.region k (t.cnt - k),
      ∃ j < t.cnt, (t.region j).span = s := by grind [mem_spans_iff]
  have hfront : ∀ j < k, (t.region j).base ≤ new.base := by
    intro j hj
    rcases Nat.lt_or_eq_of_le (show j ≤ k - 1 by omega) with hlt | rfl
    · have := hi_lt_lo h hlt (by omega)
      simp only [Region.span] at this
      bv_omega
    · bv_omega
  rw [hsplit] at h
  obtain ⟨htidy, hcover⟩ := h.insert (n := new.span) (by simp only [Region.span]; omega)
    (fun s hs ↦ by
      obtain ⟨j, hj, rfl⟩ := hmem s hs
      exact hdisj j hj)
    (fun p hp ↦ by
      obtain ⟨j, _, hj, rfl⟩ := mem_segment.1 hp
      refine ⟨hfront j (by omega), fun hhi ↦ ?_⟩
      exact (hclear j (by omega)).2.2 ((hfits j (by omega)).touch_iff.2 hhi))
    (fun q hq ↦ by
      obtain ⟨j, hj, hj', rfl⟩ := mem_segment.1 hq
      refine ⟨habove j hj (by omega), fun hlo ↦ ?_⟩
      exact (hclear j (by omega)).2.1 (hnew.touch_iff.2 hlo.symm))
  refine ⟨by rwa [hspans], by rw [hspans, hcover, hsplit], ?_⟩
  rw [hspans]
  refine fits_middle hnew fun s hs ↦ ?_
  obtain ⟨j, hj, rfl⟩ := hmem s hs
  exact hfits j hj

end Add

/-! ### `memblock_add_region` -/

/-- What is left behind in an empty table does not get in the way of the new region. -/
def Unobstructed (t : Table) (new : Region) : Prop :=
  t.cnt = 0 → regionsAdjacent t 0 1 = 0 ∧ (new.base < (t.region 0).base ∨ t.region 0 = new)
deriving Decidable

/-- The range has an address, does not reach the end of the address space, and is a region of the
table or disjoint from all of them. -/
structure Addable (t : Table) (new : Region) : Prop where
  pos : 0 < new.size.toNat
  fits : new.Fits
  disjoint : (∀ j < t.cnt, (t.region j).span.Disjoint new.span) ∨ ∃ j < t.cnt, t.region j = new

instance : Decidable (Addable t new) :=
  decidable_of_iff (0 < new.size.toNat ∧ new.Fits ∧
    ((∀ j < t.cnt, (t.region j).span.Disjoint new.span) ∨ ∃ j < t.cnt, t.region j = new))
    ⟨fun h ↦ ⟨h.1, h.2.1, h.2.2⟩, fun h ↦ ⟨h.pos, h.fits, h.disjoint⟩⟩

theorem coalesceNext_zero {coalesced : ℕ} (h : i < t.lastIndex → regionsAdjacent t i (i + 1) = 0) :
    coalesceNext t i coalesced = some (t, coalesced) :=
  if_neg fun hnext ↦ hnext.2 (h hnext.1)

theorem memblockAddRegion_left {t₁ t₂ : Table} {coalesced : ℕ} (hdummy : ¬ t.Dummy)
    (hscan : scan t base size t.cnt 0 = .left i t₁ coalesced) {m : ℕ}
    (hnext : coalesceNext t₁ i coalesced = some (t₂, m + 1)) :
    memblockAddRegion t base size = some (t₂, ((m + 1 : ℕ) : ℤ)) := by
  rw [memblockAddRegion, if_neg (show ¬ (_ ∧ _) from hdummy), hscan]
  simp only [hnext]
  rfl

theorem memblockAddRegion_none (hdummy : ¬ t.Dummy)
    (hscan : scan t base size t.cnt 0 = .left i t 0) (hnext : coalesceNext t i 0 = some (t, 0)) :
    memblockAddRegion t base size =
      some (if maxMemblockRegions ≤ t.cnt then (t, -1) else (insertRegion t ⟨base, size⟩, 0)) := by
  rw [memblockAddRegion, if_neg (show ¬ (_ ∧ _) from hdummy), hscan]
  simp only [hnext, Option.bind_eq_bind, Option.bind_some]
  rw [if_neg (not_not.2 rfl)]
  split <;> rfl

/-- The new region is not in the table and touches none: it is put in its place, unless the table
is full. -/
theorem memblockAddRegion_of_clear (new : Region) (hcnt : 0 < t.cnt)
    (hle : t.cnt ≤ maxMemblockRegions) (hdummy : ¬ t.Dummy)
    (hclear : ∀ k < t.cnt, Clear new (t.region k)) : memblockAddRegion t new.base new.size =
      some (if maxMemblockRegions ≤ t.cnt then (t, -1) else (insertRegion t new, 0)) := by
  rcases hscan : scan t new.base new.size t.cnt 0 with _ | ⟨i, t₁, coalesced⟩
  · have hcases := hscan ▸ scan_spec t new t.cnt 0
    cases hcases with
    | already j hj heq => exact absurd heq (hclear j (by omega)).1
  · have hcases := hscan ▸ scan_spec t new t.cnt 0
    cases hcases with
    | front _ hi _ htouch => exact absurd htouch (hclear i (by omega)).2.1
    | back _ hi htouch => exact absurd htouch (hclear i (by omega)).2.2
    | none =>
      refine memblockAddRegion_none hdummy hscan (coalesceNext_zero fun hlt ↦ ?_)
      rw [lastIndex_eq hcnt hle] at hlt
      omega

/-- The new region is in the table, or touches a region there: the call does not fail. -/
theorem memblockAddRegion_of_not_clear (hcnt : 0 < t.cnt)
    (hnot : ¬ ∀ k < t.cnt, Clear new (t.region k)) :
    ∃ t' ret, memblockAddRegion t new.base new.size = some (t', ret) ∧ 0 ≤ ret := by
  by_cases hdummy : t.Dummy
  · exact ⟨_, 0, by rw [memblockAddRegion, if_pos (show _ ∧ _ from hdummy)], le_rfl⟩
  have hmerged : ∀ {i t₁}, scan t new.base new.size t.cnt 0 = .left i t₁ 1 → t₁.cnt = t.cnt →
      ∃ t' ret, memblockAddRegion t new.base new.size = some (t', ret) ∧ 0 ≤ ret := by
    intro i t₁ hscan hcnt₁
    by_cases hnext : i < t₁.lastIndex ∧ regionsAdjacent t₁ i (i + 1) ≠ 0
    · obtain ⟨t₂, hjoin⟩ : ∃ t₂, coalesceRegions t₁ i (i + 1) = some t₂ :=
        ⟨_, if_neg (show t₁.cnt ≠ 0 by omega)⟩
      refine ⟨t₂, _, memblockAddRegion_left (m := 1) hdummy hscan ?_, Int.natCast_nonneg _⟩
      rw [coalesceNext, if_pos hnext, hjoin]
      rfl
    · exact ⟨_, _, memblockAddRegion_left hdummy hscan (if_neg hnext), Int.natCast_nonneg _⟩
  rcases hscan : scan t new.base new.size t.cnt 0 with _ | ⟨i, t₁, coalesced⟩
  · exact ⟨t, 0, by rw [memblockAddRegion, if_neg (show ¬ (_ ∧ _) from hdummy), hscan], le_rfl⟩
  · have hcases := hscan ▸ scan_spec t new t.cnt 0
    cases hcases with
    | front => exact hmerged hscan rfl
    | back => exact hmerged hscan rfl
    | none hclear => exact absurd (fun k hk ↦ hclear k (Nat.zero_le k) (by omega)) hnot

theorem memblockAddRegion_empty (new : Region) (hcnt : t.cnt = 0) :
    memblockAddRegion t new.base new.size =
    if regionsAdjacent t 0 1 = 0 then some (insertRegion t new, 0) else none := by
  have hdummy : ¬ (t.cnt = 1 ∧ (t.region 0).size = 0) := fun h ↦ by omega
  have hlast : 0 < t.lastIndex := by rw [lastIndex, hcnt]; decide
  have hscan : scan t new.base new.size t.cnt 0 = .left 0 t 0 := by rw [hcnt]; rfl
  by_cases hadj : regionsAdjacent t 0 1 = 0
  · rw [if_pos hadj, memblockAddRegion_none hdummy hscan (coalesceNext_zero fun _ ↦ hadj), if_neg]
    rw [hcnt]
    decide
  · rw [memblockAddRegion, if_neg hdummy, hscan]
    simp only [coalesceNext, hlast, hadj, ne_eq]
    rw [coalesceRegions, removeRegion, if_pos (show (t.set 0 _).cnt = 0 from hcnt)]
    rfl

theorem Grown.represents {n : Span} (h : Grown t t' n) (hS : Represents t S)
    (hcnt : t'.cnt ≤ maxMemblockRegions) :
    Represents t' (S ∪ {a | a ∈ n}) :=
  ⟨hcnt, h.fits, Or.inr h.tidy, by rw [h.covers, hS.covers]⟩

theorem represents_singleton (hcnt : t.cnt = 1) (hregion : t.region 0 = new)
    (hpos : 0 < new.size.toNat)
    (hfits : new.Fits) : Represents t {a | a ∈ new.span} := by
  have hspans : t.spans = [] ++ new.span :: [] := by
    rw [spans, hcnt, segment_cons, hregion]
    rfl
  refine ⟨hcnt ▸ by decide, ?_, Or.inr ?_, ?_⟩
  · rw [hspans]
    exact fits_middle hfits fun s hs ↦ absurd hs (not_mem_nil)
  · have hempty : Tidy [] := ⟨List.Pairwise.nil, fun s hs ↦ absurd hs not_mem_nil⟩
    rw [hspans]
    exact hempty.middle (by simp only [Region.span]; omega)
      (fun p hp ↦ absurd hp not_mem_nil) fun q hq ↦ absurd hq not_mem_nil
  · grind [mem_cover]

/-- The dummy region has no address. -/
theorem Represents.eq_empty_of_dummy (h : Represents t S) (hdummy : t.Dummy) : S = ∅ := by
  rw [← h.covers, Set.eq_empty_iff_forall_notMem]
  rintro a ⟨s, hs, ha⟩
  obtain ⟨j, hj, rfl⟩ := mem_spans_iff.1 hs
  obtain rfl : j = 0 := by have := hdummy.1; omega
  rw [Region.span, hdummy.2] at ha
  exact absurd ha.2 (not_lt.2 ha.1)

/-- **`memblock_add_region` adds the range,** or finds the table full and leaves it as it is. -/
theorem memblockAddRegion_spec (h : Represents t S) (hnew : Addable t new)
    (hfree : Unobstructed t new) :
    ∃ t' ret, memblockAddRegion t new.base new.size = some (t', ret) ∧
      (0 ≤ ret ∧ Represents t' (S ∪ {a | a ∈ new.span}) ∨
        ret = -1 ∧ t' = t ∧ t.cnt = maxMemblockRegions) := by
  have hfits : ∀ j < t.cnt, (t.region j).Fits := fun j hj ↦ h.region_fits hj
  by_cases hdummy : t.Dummy
  · refine ⟨_, 0, by rw [memblockAddRegion, if_pos (show _ ∧ _ from hdummy)], Or.inl ⟨le_rfl, ?_⟩⟩
    rw [h.eq_empty_of_dummy hdummy, Set.empty_union]
    exact represents_singleton hdummy.1 set_region_self hnew.pos hnew.fits
  have htidy := h.tidy.resolve_left hdummy
  rcases hscan : scan t new.base new.size t.cnt 0 with _ | ⟨i, t₁, coalesced⟩
  · have hcases := hscan ▸ scan_spec t new t.cnt 0
    cases hcases with
    | already j hj heq =>
      refine ⟨t, 0, ?_, Or.inl ⟨le_rfl, ?_⟩⟩
      · rw [memblockAddRegion, if_neg (show ¬ (_ ∧ _) from hdummy), hscan]
      · have hsub : {a | a ∈ new.span} ⊆ S := fun a ha ↦
          h.covers ▸ ⟨new.span, heq ▸ mem_spans (by omega), ha⟩
        rwa [Set.union_eq_left.2 hsub]
  · have hcases := hscan ▸ scan_spec t new t.cnt 0
    have hlast : 0 < t.cnt → t.lastIndex = t.cnt - 1 := fun hpos ↦ lastIndex_eq hpos h.cnt_le
    cases hcases with
    | front _ hi hclear htouch =>
      rw [Nat.zero_add] at hi
      have hdisj := disjoint_of_touch htidy hfits hi hnew.pos hnew.disjoint (Or.inl htouch)
      have hgrown := grown_front htidy hfits hnew.pos hnew.fits hdisj hi
        (fun k hk ↦ hclear k (Nat.zero_le k) hk) htouch
      refine ⟨_, _, memblockAddRegion_left hdummy hscan (coalesceNext_zero fun hlt ↦ ?_),
        Or.inl ⟨Int.natCast_nonneg _, hgrown.represents h h.cnt_le⟩⟩
      have hnext : i < t.cnt - 1 := hlast (by omega) ▸ hlt
      exact regionsAdjacent_succ hgrown.tidy hgrown.fits (show i + 1 < t.cnt by omega)
    | back _ hi htouch =>
      rw [Nat.zero_add] at hi
      have hdisj := disjoint_of_touch htidy hfits hi hnew.pos hnew.disjoint (Or.inr htouch)
      by_cases hnext : i + 1 < t.cnt ∧ (t.region (i + 1)).base = new.base + new.size
      · obtain ⟨t', hjoin, hcnt, hgrown⟩ := grown_join htidy hfits hnew.pos hnew.fits
          hnext.1 htouch hnext.2
        have hadj : 0 <
            regionsAdjacent (t.set i ⟨(t.region i).base, (t.region i).size + new.size⟩)
              i (i + 1) := by
          rw [regionsAdjacent, set_region_self, set_region_of_ne (by omega), addrsAdjacent_pos,
            hnext.2, htouch, BitVec.add_assoc]
        have hlt : i < t.lastIndex := by rw [hlast (by omega)]; omega
        refine ⟨t', _, memblockAddRegion_left (m := 1) hdummy hscan ?_,
          Or.inl ⟨Int.natCast_nonneg _, hgrown.represents h ?_⟩⟩
        · rw [coalesceNext, if_pos ⟨hlt, hadj.ne'⟩, hjoin]
          rfl
        · have := h.cnt_le
          omega
      · have hgrown := grown_back htidy hfits hnew.pos hnew.fits hdisj hi htouch
          fun hlt heq ↦ hnext ⟨hlt, heq⟩
        refine ⟨_, _, memblockAddRegion_left hdummy hscan (coalesceNext_zero fun hlt ↦ ?_),
          Or.inl ⟨Int.natCast_nonneg _, hgrown.represents h h.cnt_le⟩⟩
        have hlt' : i < t.cnt - 1 := hlast (by omega) ▸ hlt
        exact regionsAdjacent_succ hgrown.tidy hgrown.fits (show i + 1 < t.cnt by omega)
    | none hclear =>
      have hclear' : ∀ k < t.cnt, Clear new (t.region k) :=
        fun k hk ↦ hclear k (Nat.zero_le k) (by omega)
      have hdisj : ∀ k < t.cnt, (t.region k).span.Disjoint new.span := by
        refine hnew.disjoint.resolve_right ?_
        rintro ⟨k, hk, heq⟩
        exact (hclear' k hk).1 heq
      have hadd := memblockAddRegion_none hdummy hscan (coalesceNext_zero fun hlt ↦ by
        -- only in an empty table is there an index behind the last one
        rcases Nat.eq_zero_or_pos t.cnt with hcnt | hcnt
        · rw [hcnt]
          exact (hfree hcnt).1
        · omega)
      by_cases hfull : maxMemblockRegions ≤ t.cnt
      · rw [if_pos hfull] at hadd
        exact ⟨t, -1, hadd, Or.inr ⟨rfl, rfl, le_antisymm h.cnt_le hfull⟩⟩
      rw [if_neg hfull] at hadd
      refine ⟨_, 0, hadd, Or.inl ⟨le_rfl, ?_⟩⟩
      rcases Nat.eq_zero_or_pos t.cnt with hcnt | hcnt
      · have hempty : S = ∅ := by
          rw [← h.covers, spans, hcnt]
          refine Set.eq_empty_iff_forall_notMem.2 ?_
          rintro a ⟨s, hs, -⟩
          exact absurd hs not_mem_nil
        rw [hempty, Set.empty_union]
        refine represents_singleton (congrArg (· + 1) hcnt) ?_ hnew.pos hnew.fits
        rw [insertRegion_region, hcnt, insertFrom]
        rcases (hfree hcnt).2 with hlt | heq
        · exact if_pos ⟨rfl, hlt⟩
        · rw [heq]
          exact ite_self _
      · exact (grown_insert htidy hfits hnew.pos hnew.fits hdisj hcnt hclear').represents h
          (not_le.1 hfull)

end Memblock
