import MerrukKernel.Ashmem.Model

/-!
# Ranges and the lists of their areas

`WellFormed` says that the identifiers are used as pointers are: the list of an area holds ranges
of that area, each once, and none that has not been allocated yet. The three ways of changing the
heap — linking a new range, unlinking one, writing a record — keep it, and the operations of the
source do nothing else to the heap (`toHeap_rangeDel`, `toHeap_rangeShrink`, `toHeap_rangeAlloc`).
-/

namespace Ashmem

open Function

/-- Ranges are on the list of their own area, once, and have been allocated. -/
structure Heap.WellFormed (h : Heap) : Prop where
  allocated : ∀ a, ∀ r ∈ h.unpinnedList a, r < h.nextRange
  owner : ∀ a, ∀ r ∈ h.unpinnedList a, (h.ranges r).asma = a
  nodup : ∀ a, (h.unpinnedList a).Nodup
  /-- An area that is not open has no ranges. -/
  closed : ∀ a, h.live a = false → h.unpinnedList a = []

variable {l : List RangeId} {prev : Option RangeId}

theorem mem_insertBefore {range r : RangeId} :
    r ∈ insertBefore prev range l ↔ r = range ∨ r ∈ l := by
  induction l with
  | nil => simp [insertBefore]
  | cons x xs ih =>
    rw [insertBefore]
    split
    · simp
    · simp only [List.mem_cons]
      tauto

theorem nodup_insertBefore {range : RangeId}
    (h : l.Nodup) (hrange : range ∉ l) : (insertBefore prev range l).Nodup := by
  induction l with
  | nil => simp [insertBefore]
  | cons x xs ih =>
    rw [insertBefore]
    split
    · exact List.nodup_cons.2 ⟨hrange, h⟩
    · simp only [List.mem_cons, not_or] at hrange
      rw [List.nodup_cons] at h ⊢
      refine ⟨fun hmem ↦ ?_, ih h.2 hrange.2⟩
      rcases mem_insertBefore.1 hmem with rfl | hx
      · exact hrange.1 rfl
      · exact h.1 hx

/-! ### Records and lists -/

namespace Heap

variable {h : Heap} {a : AreaId} {r : RangeId} {b : AreaId} {p : Range}

theorem WellFormed.area_eq (hwf : h.WellFormed) (ha : r ∈ h.unpinnedList a)
    (hb : r ∈ h.unpinnedList b) : a = b :=
  (hwf.owner a r ha).symm.trans (hwf.owner b r hb)

theorem WellFormed.mem_unlink (hwf : h.WellFormed) (ha : r ∈ h.unpinnedList a) (b : AreaId)
    (x : RangeId) : x ∈ (h.unlink r).unpinnedList b ↔ x ≠ r ∧ x ∈ h.unpinnedList b := by
  simp only [unlink, hwf.owner a r ha]
  rcases eq_or_ne b a with rfl | hb
  · simp [(hwf.nodup b).mem_erase_iff]
  · grind [hwf.area_eq]

theorem mem_link {x : RangeId} :
    x ∈ (h.link p prev).unpinnedList b ↔ (x = h.nextRange ∧ b = p.asma) ∨ x ∈ h.unpinnedList b := by
  rcases eq_or_ne b p.asma with rfl | hb
  · simp [link, mem_insertBefore]
  · simp [link, hb]

theorem WellFormed.unlink (hwf : h.WellFormed) (ha : r ∈ h.unpinnedList a) :
    (h.unlink r).WellFormed where
  allocated b x hx := hwf.allocated b x ((hwf.mem_unlink ha b x).1 hx).2
  owner b x hx := hwf.owner b x ((hwf.mem_unlink ha b x).1 hx).2
  nodup b := by
    rcases eq_or_ne b (h.ranges r).asma with rfl | hb
    · simpa [Heap.unlink] using (hwf.nodup _).erase r
    · simpa [Heap.unlink, update_of_ne hb] using hwf.nodup b
  closed b hb := List.eq_nil_iff_forall_not_mem.2 fun x hx ↦ by
    have hmem := ((hwf.mem_unlink ha b x).1 hx).2
    rw [hwf.closed b hb] at hmem
    simp at hmem

theorem WellFormed.link (hwf : h.WellFormed) (hlive : h.live p.asma = true)
    (prev : Option RangeId) : (h.link p prev).WellFormed where
  allocated b x hx := by
    rcases mem_link.1 hx with ⟨rfl, -⟩ | hx
    · exact Nat.lt_succ_self _
    · exact (hwf.allocated b x hx).trans (Nat.lt_succ_self _)
  owner b x hx := by
    rcases mem_link.1 hx with ⟨rfl, rfl⟩ | hx
    · simp [Heap.link]
    · have hne : x ≠ h.nextRange := (hwf.allocated b x hx).ne
      simpa [Heap.link, update_of_ne hne] using hwf.owner b x hx
  nodup b := by
    rcases eq_or_ne b p.asma with rfl | hb
    · simpa [Heap.link] using nodup_insertBefore (hwf.nodup _)
        fun hmem ↦ lt_irrefl _ (hwf.allocated _ _ hmem)
    · simpa [Heap.link, update_of_ne hb] using hwf.nodup b
  closed b hb := by
    have hne : b ≠ p.asma := by
      rintro rfl
      cases hlive.symm.trans hb
    simpa [Heap.link, update_of_ne hne] using hwf.closed b hb

theorem WellFormed.setRange (hwf : h.WellFormed) (hp : p.asma = (h.ranges r).asma) :
    (h.setRange r p).WellFormed where
  allocated := hwf.allocated
  owner b x hx := by
    rcases eq_or_ne x r with rfl | hne
    · simpa [Heap.setRange, hp] using hwf.owner b x hx
    · simpa [Heap.setRange, update_of_ne hne] using hwf.owner b x hx
  nodup := hwf.nodup
  closed := hwf.closed

end Heap

/-! ### What the operations on ranges do to them -/

namespace State

variable (s : State) (range : RangeId) (first last : ℕ)

@[simp] theorem toHeap_rangeDel : (s.rangeDel range).toHeap = s.unlink range := by
  unfold rangeDel
  dsimp only
  split <;> rfl

@[simp] theorem toHeap_rangeShrink : (s.rangeShrink range first last).toHeap =
    s.setRange range { s.ranges range with pgstart := first, pgend := last } := by
  unfold rangeShrink
  dsimp only
  split <;> rfl

@[simp] theorem toHeap_rangeAlloc (asma : AreaId) (prev : Option RangeId) (purged : Bool) :
    (s.rangeAlloc asma prev purged first last true).2.toHeap =
      s.link ⟨asma, first, last, purged⟩ prev := by
  simp only [rangeAlloc, if_true]
  split <;> rfl

end State

end Ashmem
