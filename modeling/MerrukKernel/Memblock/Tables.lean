import MerrukKernel.Library.Spans
import MerrukKernel.Memblock.Model
import Mathlib.Tactic.Linarith

/-!
# The addresses of a memblock table

A table that represents a set of addresses has regions that do not wrap around, sorted and with
gaps between them. The lists of spans before and after each of the table's array loops are related
here; what `memblock_add_region` does to the set follows in the next module.
-/

namespace Memblock

open Span Function List

/-- The addresses of a region. -/
def Region.span (r : Region) : Span := ⟨r.base.toNat, r.base.toNat + r.size.toNat⟩

/-- The region ends below the end of the address space. -/
def Region.Fits (r : Region) : Prop := r.base.toNat + r.size.toNat < 2 ^ 64
deriving Decidable

/-- The spans of `n` regions from index `i`. -/
def segment (region : ℕ → Region) (i n : ℕ) : List Span :=
  (List.range' i n).map fun j ↦ (region j).span

/-- The spans of the table's first `cnt` regions. -/
def Table.spans (t : Table) : List Span := segment t.region 0 t.cnt

variable {region region' : ℕ → Region} {t : Table} {i j k n : ℕ} {r new : Region} {s : Span}

@[simp]
theorem Table.set_region_self : (t.set j r).region j = r := update_self ..

theorem Table.set_region_of_ne (hk : k ≠ j) : (t.set j r).region k = t.region k :=
  update_of_ne hk ..

theorem mem_segment : s ∈ segment region i n ↔ ∃ j, i ≤ j ∧ j < i + n ∧ (region j).span = s := by
  simp only [segment, mem_map, mem_range'_1, and_assoc]

theorem segment_congr (h : ∀ j, i ≤ j → j < i + n → region j = region' j) :
    segment region i n = segment region' i n :=
  map_congr_left fun j hj ↦ by
    rw [mem_range'_1] at hj
    rw [h j hj.1 hj.2]

theorem segment_append (m : ℕ) :
    segment region i m ++ segment region (i + m) n = segment region i (m + n) := by
  rw [segment, segment, segment, ← map_append, range'_append_1]

theorem segment_cons : segment region i (n + 1) = (region i).span :: segment region (i + 1) n := by
  rw [segment, range'_succ, map_cons, segment]

/-- Regions that have moved by one place. -/
theorem segment_shift (h : ∀ j, i ≤ j → j < i + n → region' j = region (j + 1)) :
    segment region' i n = segment region (i + 1) n := by
  induction n generalizing i with
  | zero => rfl
  | succ n ih =>
    rw [segment_cons, segment_cons, h i le_rfl (by omega), ih fun j hi hj ↦ h j
      (by omega) (by omega)]

/-- The regions in front of one of them, and those behind. -/
theorem Table.spans_split (hj : j < t.cnt) :
    t.spans = segment t.region 0 j ++ (t.region j).span :: segment t.region (j + 1)
    (t.cnt - (j + 1)) := by
  have hn : t.cnt = j + (t.cnt - (j + 1) + 1) := by omega
  rw [Table.spans, hn, ← segment_append j, segment_cons, Nat.zero_add]
  congr 3
  omega

theorem Table.spans_set (hj : j < t.cnt) :
    (t.set j r).spans = segment t.region 0 j ++ r.span :: segment t.region (j + 1)
    (t.cnt - (j + 1)) := by
  have hsplit : (t.set j r).spans = _ := Table.spans_split hj
  rw [hsplit, Table.set_region_self, segment_congr fun k _ hk ↦ Table.set_region_of_ne (by omega),
    segment_congr fun k hk _ ↦ Table.set_region_of_ne (by omega)]
  rfl

theorem shiftDown_eq : shiftDown region i n j = if i ≤ j ∧ j < i + n then region (j + 1)
    else region j := by
  induction n generalizing region i with
  | zero => rw [shiftDown, if_neg (by omega)]
  | succ n ih =>
    rw [shiftDown, ih]
    -- the entry just written is not read again
    rcases lt_trichotomy j i with hj | rfl | hj
    · rw [if_neg (by omega), if_neg (by omega), update_of_ne (by omega)]
    · rw [if_neg (by omega), if_pos (by omega), update_self]
    · grind

/-- A region is taken out. -/
theorem removeRegion_spans (hj : j < t.cnt) : ∃ t', removeRegion t j = some t' ∧
    t'.cnt = t.cnt - 1 ∧
    t'.spans = segment t.region 0 j ++ segment t.region (j + 1) (t.cnt - (j + 1)) := by
  refine ⟨_, if_neg (by omega), rfl, ?_⟩
  have hn : t.cnt - 1 = j + (t.cnt - (j + 1)) := by omega
  have hshift : ∀ k, shiftDown t.region j (t.cnt - 1 - j) k = _ := fun k ↦ shiftDown_eq
  show segment (shiftDown t.region j (t.cnt - 1 - j)) 0 (t.cnt - 1) = _
  rw [hn, ← segment_append j, Nat.zero_add, ← hn]
  congr 1
  · exact segment_congr fun k _ hk ↦ by rw [hshift, if_neg (by omega)]
  · exact segment_shift fun k _ hk ↦ by rw [hshift, if_pos (by omega)]

/-- Where the second loop of `memblock_add_region` leaves the new region. -/
theorem insertFrom_eq (region : ℕ → Region) (new : Region) (n : ℕ) : ∃ k ≤ n,
    (∀ j, k ≤ j → j < n → new.base < (region j).base) ∧
    (0 < k → ¬ new.base < (region (k - 1)).base) ∧
      ∀ j, insertFrom region new n j =
        if j < k ∨ n < j then region j else if j = k ∧ 0 < k then new else region (j - 1) := by
  induction n generalizing region with
  | zero =>
    refine ⟨0, le_rfl, by omega, by omega, fun j ↦ ?_⟩
    rcases Nat.eq_zero_or_pos j with rfl | hj
    · rw [insertFrom, if_neg (by omega), if_neg (by omega)]
    · rw [insertFrom, if_pos (Or.inr hj)]
  | succ n ih =>
    rw [insertFrom]
    split
    · next hlt =>
      obtain ⟨k, hk, habove, hbelow, heq⟩ := ih (update region (n + 1) (region n))
      refine ⟨k, by omega, fun j hkj hj ↦ ?_, fun hpos ↦ ?_, fun j ↦ ?_⟩
      · grind
      · grind
      · rw [heq]
        rcases lt_trichotomy j (n + 1) with hj | rfl | hj
        · grind
        · grind
        · rw [if_pos (by omega), if_pos (by omega), update_of_ne (by omega)]
    · next hge =>
      refine ⟨n + 1, le_rfl, by omega, fun _ ↦ hge, fun j ↦ ?_⟩
      rcases eq_or_ne j (n + 1) with rfl | hj
      · rw [if_neg (by omega), if_pos ⟨rfl, by omega⟩, update_self]
      · rw [if_pos (by omega), update_of_ne hj]

theorem insertRegion_region : (insertRegion t new).region j =
    if j = 0 ∧ new.base < (insertFrom t.region new t.cnt 0).base then new
    else insertFrom t.region new t.cnt j := by
  show (if _ then _ else _ : ℕ → Region) j = _
  by_cases hlt : new.base < (insertFrom t.region new t.cnt 0).base
  · grind
  · rw [if_neg hlt, if_neg fun h ↦ hlt h.2]

/-- The new region is put in its place among regions that are sorted. -/
theorem insertRegion_spans (new : Region) (hpos : 0 < t.cnt)
    (hsorted : ∀ j < t.cnt, (t.region 0).base ≤ (t.region j).base) :
    ∃ k ≤ t.cnt, (∀ j, k ≤ j → j < t.cnt → new.base < (t.region j).base) ∧
      (0 < k → ¬ new.base < (t.region (k - 1)).base) ∧
        (insertRegion t new).spans = segment t.region 0 k ++ new.span :: segment t.region k
        (t.cnt - k) := by
  obtain ⟨k, hk, habove, hbelow, heq⟩ := insertFrom_eq t.region new t.cnt
  refine ⟨k, hk, habove, hbelow, ?_⟩
  have hregion : ∀ j, (insertRegion t new).region j =
      if j < k ∨ t.cnt < j then t.region j else if j = k then new else t.region (j - 1) := by
    intro j
    rcases Nat.eq_zero_or_pos k with rfl | hkpos
    · -- the loop has shifted every region; the first place is filled afterwards
      have hzero : new.base < (insertFrom t.region new t.cnt 0).base := by grind
      rcases Nat.eq_zero_or_pos j with rfl | hj
      · rw [insertRegion_region, if_pos ⟨rfl, hzero⟩, if_neg (by omega), if_pos rfl]
      · rw [insertRegion_region, if_neg (by omega), heq]
        simp only [lt_irrefl, and_false, if_false, if_neg hj.ne']
    · have hzero : ¬ new.base < (insertFrom t.region new t.cnt 0).base := by
        rw [heq, if_pos (Or.inl hkpos)]
        have hfirst := hsorted (k - 1) (by omega)
        bv_omega
      rw [insertRegion_region, if_neg fun h ↦ hzero h.2, heq]
      simp only [hkpos, and_true]
  have hn : t.cnt + 1 = k + (t.cnt - k + 1) := by omega
  show segment (insertRegion t new).region 0 (t.cnt + 1) = _
  rw [hn, ← segment_append k, segment_cons, Nat.zero_add, hregion k, if_neg (by omega), if_pos rfl]
  congr 1
  · exact segment_congr fun j _ hj ↦ by rw [hregion, if_pos (by omega)]
  · congr 1
    exact (segment_shift fun j hj _ ↦ by
      rw [hregion, if_neg (by omega), if_neg (by omega), Nat.add_sub_cancel]).symm

end Memblock
