import Mathlib.Algebra.BigOperators.Group.List.Basic
import Mathlib.Tactic.Abel
import MerrukKernel.Ashmem.Heap

/-!
# The LRU list and its count

`lru_count` is adjusted in five places, with sizes taken before or after a range is resized and
depending on its purged flag. What they maintain together is `Accounted`: the LRU list is made of
the ranges of all areas that have not been purged, each once, and the count is the sum of their
sizes in the arithmetic of the counter. No assumption on the arguments of the calls is needed for
that, nor on whether allocations succeed.
-/

namespace Ashmem

open Function List

/-- The LRU list holds exactly the ranges that are not purged, each once, and the count is the sum
of their sizes. -/
structure State.Accounted (s : State) : Prop where
  wellFormed : s.WellFormed
  lru_nodup : s.lruList.Nodup
  mem_lru : ∀ r, r ∈ s.lruList ↔ (∃ a, r ∈ s.unpinnedList a) ∧ (s.ranges r).OnLru
  count : s.lruCount = (s.lruList.map fun r ↦ (s.ranges r).size).sum

namespace State

variable {s : State} {a : AreaId} {r : RangeId} {l : List RangeId} {pgend pgstart : ℕ}

theorem sizes_congr {f g : RangeId → Range} (h : ∀ x ∈ l, f x = g x) :
    (l.map fun x ↦ (f x).size).sum = (l.map fun x ↦ (g x).size).sum := by
  rw [map_congr_left fun x hx ↦ by rw [h x hx]]

theorem Accounted.rangeDel (h : s.Accounted) (hr : r ∈ s.unpinnedList a) :
    (s.rangeDel r).Accounted := by
  have hwf : (s.unlink r).WellFormed := h.wellFormed.unlink hr
  have hmem : ∀ x, (∃ b, x ∈ (s.unlink r).unpinnedList b) ↔ x ≠ r ∧ ∃ b, x ∈ s.unpinnedList b :=
    fun x ↦ by simp only [h.wellFormed.mem_unlink hr, exists_and_left]
  by_cases hlru : (s.ranges r).OnLru
  · have hin : r ∈ s.lruList := (h.mem_lru r).2 ⟨⟨a, hr⟩, hlru⟩
    have heq : s.rangeDel r = { s with toHeap := s.unlink r }.lruDel r := if_pos hlru
    rw [heq]
    refine ⟨hwf, h.lru_nodup.erase r, fun x ↦ ?_, ?_⟩
    · change x ∈ s.lruList.erase r ↔ (∃ b, x ∈ (s.unlink r).unpinnedList b) ∧ (s.ranges x).OnLru
      rw [h.lru_nodup.mem_erase_iff, h.mem_lru, hmem, and_assoc]
    · rw [h.count, ← sum_map_erase (fun x ↦ (s.ranges x).size) hin]
      exact add_sub_cancel_left _ _
  · have heq : s.rangeDel r = { s with toHeap := s.unlink r } := if_neg hlru
    rw [heq]
    refine ⟨hwf, h.lru_nodup, fun x ↦ ?_, h.count⟩
    change x ∈ s.lruList ↔ (∃ b, x ∈ (s.unlink r).unpinnedList b) ∧ (s.ranges x).OnLru
    rw [h.mem_lru, hmem]
    constructor
    · grind
    · grind

/-- Replacing the record of a listed range changes the sum of the sizes by the difference. -/
theorem sizes_update {f : RangeId → Range} (hl : l.Nodup) (hr : r ∈ l)
    (p : Range) : (l.map fun x ↦ (update f r p x).size).sum =
      (l.map fun x ↦ (f x).size).sum - ((f r).size - p.size) := by
  rw [← sum_map_erase (fun x ↦ (update f r p x).size) hr,
    ← sum_map_erase (fun x ↦ (f x).size) hr, update_self,
    sizes_congr fun x hx ↦ update_of_ne (hl.mem_erase_iff.1 hx).1 _ _]
  abel

theorem Accounted.rangeShrink (h : s.Accounted) (hr : r ∈ s.unpinnedList a) (first last : ℕ) :
    (s.rangeShrink r first last).Accounted := by
  set p : Range := { s.ranges r with pgstart := first, pgend := last } with hp
  have hwf : (s.setRange r p).WellFormed := h.wellFormed.setRange rfl
  have hmem : ∀ x, x ∈ s.lruList ↔
      (∃ b, x ∈ s.unpinnedList b) ∧ (update s.ranges r p x).OnLru := fun x ↦ by
    rw [h.mem_lru]
    rcases eq_or_ne x r with rfl | hne
    · rw [update_self]
      rfl
    · rw [update_of_ne hne]
  by_cases hon : (update s.ranges r p r).OnLru
  · have hin : r ∈ s.lruList := (hmem r).2 ⟨⟨a, hr⟩, hon⟩
    have heq : s.rangeShrink r first last = { s with
        toHeap := s.setRange r p
        lruCount := s.lruCount - ((s.ranges r).size - (update s.ranges r p r).size) } :=
      if_pos hon
    rw [heq]
    refine ⟨hwf, h.lru_nodup, hmem, ?_⟩
    refine Eq.trans ?_ (sizes_update h.lru_nodup hin p).symm
    rw [update_self, h.count]
  · have hout : r ∉ s.lruList := fun hin ↦ hon ((hmem r).1 hin).2
    have heq : s.rangeShrink r first last = { s with toHeap := s.setRange r p } := if_neg hon
    rw [heq]
    refine ⟨hwf, h.lru_nodup, hmem, h.count.trans (sizes_congr fun x hx ↦ ?_)⟩
    exact (update_of_ne (ne_of_mem_of_not_mem hx hout) _ _).symm

theorem Accounted.rangeAlloc (h : s.Accounted) (hlive : s.live a = true) (prev : Option RangeId)
    (purged : Bool) (first last : ℕ) (memory : Bool) :
    (s.rangeAlloc a prev purged first last memory).2.Accounted := by
  cases memory with
  | false => exact h
  | true =>
    set p : Range := ⟨a, first, last, purged⟩ with hp
    have hwf : (s.link p prev).WellFormed := h.wellFormed.link hlive prev
    have hnew : s.nextRange ∉ s.lruList := fun hin ↦ by
      obtain ⟨⟨b, hb⟩, -⟩ := (h.mem_lru _).1 hin
      exact lt_irrefl _ (h.wellFormed.allocated b _ hb)
    have hold : ∀ x ∈ s.lruList, update s.ranges s.nextRange p x = s.ranges x :=
      fun x hx ↦ update_of_ne (ne_of_mem_of_not_mem hx hnew) _ _
    have hmem : ∀ x, (∃ b, x ∈ (s.link p prev).unpinnedList b) ↔
        x = s.nextRange ∨ ∃ b, x ∈ s.unpinnedList b := fun x ↦ by
      simp only [Heap.mem_link, exists_or, exists_and_left, exists_eq, and_true]
    have hlru : ∀ x, ((∃ b, x ∈ (s.link p prev).unpinnedList b) ∧
        (update s.ranges s.nextRange p x).OnLru) ↔
        (x = s.nextRange ∧ p.OnLru) ∨ x ∈ s.lruList := fun x ↦ by
      rw [hmem, h.mem_lru]
      rcases eq_or_ne x s.nextRange with rfl | hne
      · have hno : ¬ ∃ b, s.nextRange ∈ s.unpinnedList b := fun ⟨b, hb⟩ ↦
          lt_irrefl _ (h.wellFormed.allocated b _ hb)
        simp [hno]
      · simp [hne]
    by_cases hon : ((s.link p prev).ranges s.nextRange).OnLru
    · have heq : (s.rangeAlloc a prev purged first last true).2 =
          { s with toHeap := s.link p prev }.lruAdd s.nextRange := if_pos hon
      have hp' : p.OnLru := by simpa [Heap.link] using hon
      rw [heq]
      refine ⟨hwf, ?_, fun x ↦ ?_, ?_⟩
      · change (s.lruList ++ [s.nextRange]).Nodup
        simpa [nodup_append, h.lru_nodup] using fun x hx ↦ ne_of_mem_of_not_mem hx hnew
      · refine Iff.trans ?_ (hlru x).symm
        simp [lruAdd, hp', or_comm]
      · change s.lruCount + _ = ((s.lruList ++ [s.nextRange]).map _).sum
        rw [map_append, sum_append, map_singleton, sum_singleton, h.count]
        exact congrArg (· + _) (sizes_congr fun x hx ↦ (hold x hx).symm)
    · have heq : (s.rangeAlloc a prev purged first last true).2 =
          { s with toHeap := s.link p prev } := if_neg hon
      have hp' : ¬ p.OnLru := by simpa [Heap.link] using hon
      rw [heq]
      refine ⟨hwf, h.lru_nodup, fun x ↦ ?_, h.count.trans (sizes_congr fun x hx ↦ (hold x hx).symm)⟩
      refine Iff.trans ?_ (hlru x).symm
      simp [hp']

theorem Accounted.purge (h : s.Accounted) (hr : r ∈ s.lruList) : (s.purge r).Accounted := by
  set p : Range := { s.ranges r with purged := true } with hp
  refine ⟨h.wellFormed.setRange rfl, h.lru_nodup.erase r, fun x ↦ ?_, ?_⟩
  · change x ∈ s.lruList.erase r ↔ (∃ b, x ∈ s.unpinnedList b) ∧ (update s.ranges r p x).OnLru
    rw [h.lru_nodup.mem_erase_iff]
    rcases eq_or_ne x r with rfl | hne
    · simp [Range.OnLru, hp]
    · simp [hne, h.mem_lru]
  · change s.lruCount - (update s.ranges r p r).size = ((s.lruList.erase r).map _).sum
    have hsize : (update s.ranges r p r).size = (s.ranges r).size := by
      rw [update_self]
      rfl
    have hrest : ((s.lruList.erase r).map fun x ↦ (update s.ranges r p x).size).sum =
        ((s.lruList.erase r).map fun x ↦ (s.ranges x).size).sum :=
      sizes_congr fun x hx ↦ update_of_ne (h.lru_nodup.mem_erase_iff.1 hx).1 _ _
    refine Eq.trans ?_ hrest.symm
    rw [hsize, h.count, ← sum_map_erase (fun x ↦ (s.ranges x).size) hr]
    exact add_sub_cancel_left _ _

/-! ### The calls -/

theorem Accounted.mem_rangeDel (h : s.Accounted) (hr : r ∈ s.unpinnedList a) {x : RangeId}
    (hx : x ∈ s.unpinnedList a) (hne : x ≠ r) : x ∈ (s.rangeDel r).unpinnedList a := by
  grind [toHeap_rangeDel, h.wellFormed.mem_unlink]

theorem live_rangeDel (s : State) (r : RangeId) : (s.rangeDel r).live = s.live := by
  rw [toHeap_rangeDel]
  rfl

theorem Accounted.pinLoop {memory : Bool} {ret : Bool}
    (h : s.Accounted) (hlive : s.live a = true) (hl : l.Nodup)
    (hmem : ∀ x ∈ l, x ∈ s.unpinnedList a) :
    (pinLoop a pgstart pgend memory l ret s).2.Accounted := by
  induction l generalizing s ret with
  | nil => exact h
  | cons range rest ih =>
    obtain ⟨hrange, hrest⟩ := nodup_cons.1 hl
    have hin := hmem range (by simp)
    have hshrink : ∀ first last, (∀ x ∈ rest, x ∈ (s.rangeShrink range first last).unpinnedList a) ∧
        (s.rangeShrink range first last).live a = true := fun first last ↦ by
      rw [toHeap_rangeShrink]
      exact ⟨fun x hx ↦ hmem x (by simp [hx]), hlive⟩
    unfold State.pinLoop
    dsimp only
    split_ifs
    · exact h
    · refine ih (h.rangeDel hin) (by rw [live_rangeDel]; exact hlive) hrest fun x hx ↦ ?_
      exact h.mem_rangeDel hin (hmem x (by simp [hx])) (ne_of_mem_of_not_mem hx hrange)
    · exact ih (h.rangeShrink hin _ _) (hshrink _ _).2 hrest (hshrink _ _).1
    · exact ih (h.rangeShrink hin _ _) (hshrink _ _).2 hrest (hshrink _ _).1
    · have halloc := h.rangeAlloc hlive (some range) (s.ranges range).purged (pgend + 1)
        (s.ranges range).pgend memory
      refine halloc.rangeShrink (a := a) ?_ _ _
      cases memory with
      | false => exact hin
      | true => grind [toHeap_rangeAlloc, Heap.mem_link]
    · exact ih h hlive hrest fun x hx ↦ hmem x (by simp [hx])

theorem mem_of_scan_merge {ranges : RangeId → Range}
    (h : scan ranges pgstart pgend l = .merge r) : r ∈ l := by
  induction l with
  | nil => simp [scan] at h
  | cons x xs ih =>
    rw [scan] at h
    split_ifs at h
    · rw [Scan.merge.injEq] at h
      simp [h]
    · exact mem_cons_of_mem _ (ih h)

section

variable (h : s.Accounted)
include h

theorem Accounted.unpinLoop {memory : Bool} {fuel : ℕ} {purged : Bool} (hlive : s.live a = true) :
    (unpinLoop a memory fuel pgstart pgend purged s).2.Accounted := by
  induction fuel generalizing s pgstart pgend purged with
  | zero => exact h
  | succ fuel ih =>
    unfold State.unpinLoop
    split
    · exact h
    · rename_i range hscan
      exact ih (h.rangeDel (mem_of_scan_merge hscan)) (by rw [live_rangeDel]; exact hlive)
    · exact h.rangeAlloc hlive _ _ _ _ _

theorem Accounted.shrinkLoop {nrToScan : BitVec 32}
    (hl : l.Nodup) (hmem : ∀ x ∈ l, x ∈ s.lruList) : (shrinkLoop l nrToScan s).Accounted := by
  induction l generalizing s nrToScan with
  | nil => exact h
  | cons range rest ih =>
    obtain ⟨hrange, hrest⟩ := nodup_cons.1 hl
    have hpurge := h.purge (hmem range (by simp))
    unfold State.shrinkLoop
    dsimp only
    split
    · exact hpurge
    · refine ih hpurge hrest fun x hx ↦ ?_
      exact h.lru_nodup.mem_erase_iff.2
        ⟨ne_of_mem_of_not_mem hx hrange, hmem x (by simp [hx])⟩

/-- `ashmem_release` deletes the ranges of the area, and no others. -/
theorem Accounted.foldl_rangeDel (hl : l.Nodup) (hmem : ∀ x ∈ l, x ∈ s.unpinnedList a) :
    (l.foldl State.rangeDel s).Accounted ∧ (l.foldl State.rangeDel s).ranges = s.ranges ∧
      (l.foldl State.rangeDel s).live = s.live ∧
      (∀ b ≠ a, (l.foldl State.rangeDel s).unpinnedList b = s.unpinnedList b) ∧
      ∀ x ∈ (l.foldl State.rangeDel s).unpinnedList a, x ∈ s.unpinnedList a ∧ x ∉ l := by
  induction l generalizing s with
  | nil => exact ⟨h, rfl, rfl, fun _ _ ↦ rfl, fun x hx ↦ ⟨hx, by simp⟩⟩
  | cons range rest ih =>
    obtain ⟨hrange, hrest⟩ := nodup_cons.1 hl
    have hin := hmem range (by simp)
    obtain ⟨hacc, hranges, hlive, hother, hleft⟩ := ih (h.rangeDel hin) hrest fun x hx ↦
      h.mem_rangeDel hin (hmem x (by simp [hx])) (ne_of_mem_of_not_mem hx hrange)
    rw [foldl_cons]
    refine ⟨hacc, hranges.trans ?_, hlive.trans (live_rangeDel s range), fun b hb ↦ ?_,
      fun x hx ↦ ?_⟩
    · rw [toHeap_rangeDel]
      rfl
    · rw [hother b hb]
      simp [Heap.unlink, h.wellFormed.owner a range hin, hb]
    · grind [toHeap_rangeDel, h.wellFormed.mem_unlink]

theorem Accounted.release : (s.ashmemRelease a).Accounted ∧ (s.ashmemRelease a).ranges = s.ranges ∧
      (s.ashmemRelease a).unpinnedList = update s.unpinnedList a [] := by
  obtain ⟨hacc, hranges, -, hother, hleft⟩ :=
    h.foldl_rangeDel (h.wellFormed.nodup a) fun x hx ↦ hx
  have hempty : ((s.unpinnedList a).foldl State.rangeDel s).unpinnedList a = [] :=
    eq_nil_iff_forall_not_mem.2 fun x hx ↦ (hleft x hx).2 (hleft x hx).1
  refine ⟨⟨⟨hacc.wellFormed.allocated, hacc.wellFormed.owner, hacc.wellFormed.nodup, fun b hb ↦ ?_⟩,
    hacc.lru_nodup, hacc.mem_lru, hacc.count⟩, hranges, funext fun b ↦ ?_⟩
  · rcases eq_or_ne b a with rfl | hne
    · exact hempty
    · exact hacc.wellFormed.closed b (by simpa [ashmemRelease, hne] using hb)
  · rcases eq_or_ne b a with rfl | hne
    · rw [update_self]
      exact hempty
    · rw [update_of_ne hne]
      exact hother b hne

theorem Accounted.openFile (hclosed : s.live a = false) (memory : Bool) :
    (s.ashmemOpen a memory).2.Accounted ∧ (s.ashmemOpen a memory).2.ranges = s.ranges ∧
      (s.ashmemOpen a memory).2.unpinnedList = s.unpinnedList := by
  cases memory with
  | false => exact ⟨h, rfl, rfl⟩
  | true =>
    have hlist : update s.unpinnedList a [] = s.unpinnedList := by
      rw [← h.wellFormed.closed a hclosed, update_eq_self]
    refine ⟨?_, rfl, hlist⟩
    simp only [ashmemOpen, hlist]
    refine ⟨⟨h.wellFormed.allocated, h.wellFormed.owner, h.wellFormed.nodup, fun b hb ↦ ?_⟩,
      h.lru_nodup, h.mem_lru, h.count⟩
    rcases eq_or_ne b a with rfl | hne
    · simp at hb
    · exact h.wellFormed.closed b (by simpa [hne] using hb)

/-- **One call.** -/
theorem Accounted.exec {op : Op} (hop : s.Usable op) : (s.exec op).Accounted := by
  cases op with
  | openFile a memory => exact (h.openFile hop memory).1
  | release a => exact h.release.1
  | pin a pgstart pgend memory =>
    exact h.pinLoop hop (h.wellFormed.nodup a) fun x hx ↦ hx
  | unpin a pgstart pgend memory => exact h.unpinLoop hop
  | getPinStatus a pgstart pgend => exact h
  | shrink nrToScan gfpFs unlocked =>
    simp only [State.exec, ashmemShrink]
    split_ifs
    · exact h
    · exact h
    · exact h
    · exact h.shrinkLoop h.lru_nodup fun x hx ↦ hx

end

theorem accounted_init : init.Accounted where
  wellFormed := ⟨by simp [init], by simp [init], by simp [init], by simp [init]⟩
  lru_nodup := by simp [init]
  mem_lru := by simp [init]
  count := by simp [init]

end State

end Ashmem
