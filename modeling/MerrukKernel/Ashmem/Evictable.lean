import MerrukKernel.Ashmem.Pages

/-!
# What the shrinker is told

`ashmem_shrink` returns `lru_count`, or `-1` where it cannot go on. Over whole runs the LRU list
is exactly the ranges that are not purged and `lru_count` is the sum of their sizes; both are in
the arithmetic of a 32-bit counter. Where the intervals are not inverted, the sum is the number of
evictable pages modulo `2 ^ 32`, so the counter does not go below zero as long as there are fewer
than `2 ^ 32` of them.
-/

namespace Ashmem

theorem Range.size_eq {r : Range} (h : r.pgstart ≤ r.pgend + 1) :
    r.size = BitVec.ofNat 32 (r.pgend + 1 - r.pgstart) := by
  have hsum : r.pgend + 1 - r.pgstart + r.pgstart = r.pgend + 1 := Nat.sub_add_cancel h
  have hcast := congrArg (BitVec.ofNat 32) hsum
  rw [BitVec.ofNat_add, BitVec.ofNat_add] at hcast
  rw [size, sub_add_eq_add_sub]
  exact sub_eq_of_eq_add hcast.symm

theorem sum_ofNat (f : RangeId → ℕ) (l : List RangeId) :
    (l.map fun r ↦ BitVec.ofNat 32 (f r)).sum = BitVec.ofNat 32 (l.map f).sum := by
  induction l with
  | nil => rfl
  | cons r l ih => rw [List.map_cons, List.sum_cons, ih, List.map_cons, List.sum_cons,
      BitVec.ofNat_add]

namespace State

/-- The number of pages on the LRU list. -/
def evictable (s : State) : ℕ :=
  (s.lruList.map fun r ↦ (s.ranges r).pgend + 1 - (s.ranges r).pgstart).sum

/-- Calls on open areas, with any arguments. -/
def usable : Machine State Op where
  guard := Usable
  exec := exec

instance (s : State) (op : Op) : Decidable (usable.guard s op) :=
  inferInstanceAs (Decidable (s.Usable op))

variable {s : State}

theorem Accounted.toNat_lruCount (h : s.Accounted) (hs : ∀ a, Sorted 1 (s.view a)) :
    s.lruCount.toNat = s.evictable % 2 ^ 32 := by
  have hsize : ∀ r ∈ s.lruList, (s.ranges r).size =
      BitVec.ofNat 32 ((s.ranges r).pgend + 1 - (s.ranges r).pgstart) := fun r hr ↦ by
    obtain ⟨⟨a, ha⟩, -⟩ := (h.mem_lru r).1 hr
    exact Range.size_eq ((hs a).proper _ (List.mem_map_of_mem ha))
  rw [h.count, List.map_congr_left hsize, sum_ofNat, BitVec.toNat_ofNat, evictable]

/-- What `ashmem_shrink` returns: `-1`, having done nothing, when it may not enter the file system
or does not get the mutex, and the count it leaves otherwise. -/
theorem ashmemShrink_fst (s : State) (nrToScan : BitVec 32) (gfpFs unlocked : Bool) :
    if nrToScan ≠ 0 ∧ (gfpFs = false ∨ unlocked = false) then
      s.ashmemShrink nrToScan gfpFs unlocked = (-1, s)
    else (s.ashmemShrink nrToScan gfpFs unlocked).1 =
      (s.ashmemShrink nrToScan gfpFs unlocked).2.lruCount := by
  by_cases hzero : nrToScan = 0
  · simp [ashmemShrink, hzero]
  · cases gfpFs <;> cases unlocked <;>
      simp only [ashmemShrink, ne_eq, hzero, not_false_eq_true, true_and, reduceCtorEq, or_true,
        or_false, if_true, if_false]

/-- **The LRU list and its count.** In every state reached by calls with any arguments, on any
number of areas and with allocations succeeding or failing, the LRU list holds exactly the ranges
of all areas that are not purged, each once, and `lru_count` is the sum of their sizes in 32-bit
arithmetic. If no interval was inverted, that is the number of evictable pages modulo `2 ^ 32`;
and this is what `ashmem_shrink` returns of the state it leaves, unless it returns `-1` and does
nothing. -/
theorem lru_accounted {ops : List Op} (hrun : usable.Runs init ops s) : s.lruList.Nodup ∧
      (∀ r, r ∈ s.lruList ↔ (∃ a, r ∈ s.unpinnedList a) ∧ (s.ranges r).purged = false) ∧
      (∀ a, (s.unpinnedList a).Nodup) ∧
      s.lruCount = (s.lruList.map fun r ↦ (s.ranges r).size).sum ∧
      ((∀ op ∈ ops, op.Interval 1) → s.lruCount.toNat = s.evictable % 2 ^ 32 ∧
        ∀ nrToScan gfpFs unlocked, let t := s.ashmemShrink nrToScan gfpFs unlocked
          if nrToScan ≠ 0 ∧ (gfpFs = false ∨ unlocked = false) then t = (-1, s)
          else t.1.toNat = t.2.evictable % 2 ^ 32) := by
  have h : s.Accounted := hrun.invariant (fun _ _ h hop ↦ h.exec hop) accounted_init
  refine ⟨h.lru_nodup, h.mem_lru, h.wellFormed.nodup, h.count, fun hops ↦ ?_⟩
  obtain ⟨-, hsorted⟩ := hrun.invariant_of_forall
    (I := fun s : State ↦ s.Accounted ∧ ∀ a, Sorted 1 (s.view a))
    (fun _ _ hint h hop ↦ ⟨h.1.exec hop, sorted_exec h.1 h.2 le_rfl hop hint⟩) hops
    ⟨accounted_init, fun _ ↦ ⟨.nil, by simp [Heap.view, init]⟩⟩
  refine ⟨h.toNat_lruCount hsorted, fun nrToScan gfpFs unlocked ↦ ?_⟩
  have hret := ashmemShrink_fst s nrToScan gfpFs unlocked
  dsimp only
  split_ifs at hret ⊢ with hbail
  · exact hret
  · have husable : s.Usable (.shrink nrToScan gfpFs unlocked) := trivial
    rw [hret]
    exact (h.exec husable).toNat_lruCount fun a ↦
      (evicts_ashmemShrink s nrToScan gfpFs unlocked).sorted (hsorted a)

/-- Two areas, one of them with a hole for which there was no memory. -/
theorem lru_accounted_two_areas :
    (usable.final init [.openFile 0 true, .openFile 1 true, .unpin 0 0 9 true, .unpin 1 4 7 true,
      .pin 0 3 5 false, .shrink 1 true true]).lruCount.toNat =
    (usable.final init [.openFile 0 true, .openFile 1 true, .unpin 0 0 9 true, .unpin 1 4 7 true,
      .pin 0 3 5 false, .shrink 1 true true]).evictable % 2 ^ 32 := by
  exact ((lru_accounted (Machine.Permitted.runs (by decide +kernel))).2.2.2.2 (by decide)).1

/-- **Not the number of evictable pages.** Without `__GFP_FS` the shrinker returns `-1` where four
pages are evictable, and on an area with all `2 ^ 32` pages unpinned the count is zero. -/
theorem lruCount_not_evictable : (let s := usable.final init [.openFile 0 true, .unpin 0 4 7 true]
     usable.Permitted init [.openFile 0 true, .unpin 0 4 7 true] ∧ s.evictable = 4 ∧
      (s.ashmemShrink 1 false true).1.toInt = -1) ∧
    (let s := usable.final init [.openFile 0 true, .unpin 0 0 (2 ^ 32 - 1) true]
     usable.Permitted init [.openFile 0 true, .unpin 0 0 (2 ^ 32 - 1) true] ∧
      s.evictable = 2 ^ 32 ∧ s.lruCount = 0 ∧ (s.ashmemShrink 0 true true).1 = 0) := by
  decide +kernel

end State

end Ashmem
