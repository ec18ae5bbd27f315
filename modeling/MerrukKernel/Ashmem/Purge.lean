import MerrukKernel.Ashmem.Pages

/-!
# Purged pages are reported

`ashmem_shrink` throws the pages of a range away and marks the range; `ashmem_pin` must tell its
caller when it hands back pages that were thrown away. The mark is per range, and ranges are
split, shrunk, merged and re-created. What has to hold is that every page thrown away since it was
last pinned lies in a range that is marked (`Sound`).

Two failures of `range_alloc` break it. `ashmem_unpin` has deleted the ranges it merges by the
time it finds no memory for the merged one, and `ashmem_pin` does not look at the result when it
tears a hole into a range. `Marked` says when nothing is lost, and in runs of such calls every
purged page is reported.
-/

open List

namespace Ashmem

open State

variable {k : ℕ} {l l' : List Range} {a : AreaId} {pgstart pgend page : ℕ} {purged : Bool} {ret : ℤ}

/-! ### Marks through `ashmem_unpin` -/

section

variable (h : Unpins a pgstart pgend purged l ret l')
include h

/-- **Marks survive an unpinning that returns zero.** Besides the marked ranges still on the list,
`lost` are the pages of the marked ranges deleted so far: they lie in the interval, which is
marked, and in no range on the list. -/
theorem Unpins.mem_purgedPages (hret : ret = 0)
    (hs : Sorted k l) (lost : Set ℕ) (hlost : ∀ page ∈ lost, pgstart ≤ page ∧ page ≤ pgend)
    (hdisjoint : ∀ page ∈ lost, page ∉ pages l) (hmark : ∀ page ∈ lost, purged = true)
    (hpage : page ∈ purgedPages l ∨ page ∈ lost) : page ∈ purgedPages l' := by
  induction h generalizing lost with
  | @covered pgstart pgend _ l r hr hsub =>
    refine hpage.elim id fun hpage ↦ absurd ⟨r, hr, trivial, ?_⟩ (hdisjoint page hpage)
    exact ⟨hsub.1.trans (hlost page hpage).1, (hlost page hpage).2.trans hsub.2⟩
  | @merge pgstart pgend purged l₁ l₂ l' r ret _ _ hin _ ih =>
    refine ih hret hs.remove { x | x ∈ lost ∨ (r.purged = true ∧ r.PageIn x) } ?_ ?_ ?_ ?_
    · rintro x (hx | ⟨-, hx⟩)
      · exact (mem_hull_iff hin).2 (.inr (hlost x hx))
      · exact (mem_hull_iff hin).2 (.inl hx)
    · rintro x (hx | ⟨-, hx⟩)
      · have := hdisjoint x hx
        simp only [mem_cover_append, mem_cover_cons] at this ⊢
        tauto
      · exact hs.not_mem_cover hx
    · grind
    · grind [mem_cover_append, mem_cover_cons]
  | insert hfront hpoint =>
    rw [mem_cover_append] at hpage ⊢
    rw [mem_cover_cons]
    rcases hpage with (hpage | hpage) | hpage
    · exact .inl hpage
    · exact .inr (.inr hpage)
    · exact .inr (.inl ⟨hmark page hpage, hlost page hpage⟩)
  | noMemory => exact absurd hret (by decide)

/-- **Marks survive any unpinning of pages that are in no marked range.** -/
theorem Unpins.mem_purgedPages_of_free (hs : Sorted k l) (hle : pgstart ≤ pgend + 1)
    (hfree : ∀ page ∈ purgedPages l, ¬ (pgstart ≤ page ∧ page ≤ pgend))
    (hpage : page ∈ purgedPages l) : page ∈ purgedPages l' := by
  induction h with
  | covered => exact hpage
  | @merge pgstart pgend purged l₁ l₂ l' r ret _ hcovered hin _ ih =>
    have hnone : ∀ x, ¬ (r.purged = true ∧ r.PageIn x) := by
      rintro x ⟨hpurged, hx⟩
      refine hfree (max r.pgstart pgstart) ⟨r, by simp, hpurged, ?_⟩ ?_ <;>
        (unfold Range.PageRangeIn Range.PageIn Range.PageRangeSubsumes at hin
         unfold Range.PageRangeSubsumedBy at hcovered
         unfold Range.PageIn at *
         omega)
    have hrest : ∀ x, x ∈ purgedPages (l₁ ++ r :: l₂) ↔ x ∈ purgedPages (l₁ ++ l₂) := fun x ↦ by
      rw [mem_cover_append, mem_cover_append, mem_cover_cons, or_iff_right (hnone x)]
    refine ih hs.remove (by omega) (fun x hx hhull ↦ ?_) ((hrest page).1 hpage)
    rcases (mem_hull_iff hin).1 hhull with hr | hint
    · exact hs.not_mem_cover hr hx
    · exact hfree x ((hrest x).2 hx) hint
  | insert hfront hpoint => grind [mem_cover_append, mem_cover_cons]
  | noMemory => exact hpage

/-- An interval that is covered already needs no memory. -/
theorem Unpins.ret_of_covered (hs : Sorted 1 l)
    {r : Range} (hr : r ∈ l) (hcovered : r.PageRangeSubsumedBy pgstart pgend)
    (hle : pgstart ≤ pgend) : ret = 0 := by
  induction h with
  | covered | insert => rfl
  | @merge pgstart pgend purged l₁ l₂ l' r' ret _ hnot hin _ ih =>
    have hrest : r ∈ l₁ ++ l₂ := by grind
    -- the two ranges are disjoint, so `r'` can only be an empty one and the interval stays as it is
    have hapart : r'.pgend < r.pgstart ∨ r.pgend < r'.pgstart := by
      obtain ⟨-, h₂, hcross⟩ := sorted_append.1 hs
      rcases mem_append.1 hrest with hr | hr
      · exact .inl (hcross r hr r' (by simp))
      · exact .inr ((pairwise_cons.1 h₂.descending).1 r hr)
    unfold Range.PageRangeSubsumedBy at *
    unfold Range.PageRangeIn Range.PageIn Range.PageRangeSubsumes at hin
    exact ih hs.remove hrest (by omega) (by omega)
  | @noMemory pgstart pgend purged l₁ l₂ hfront hpoint =>
    rcases mem_append.1 hr with hr | hr
    · exact absurd (.inl ⟨hcovered.1, hle.trans hcovered.2⟩) (hfront r hr).2
    · cases l₂ with
      | nil => cases hr
      | cons x l₂ =>
        have hx : x.pgend < pgstart := hpoint x rfl
        have hbelow : r.pgend ≤ x.pgend := by
          obtain ⟨hfirst, hproper, -⟩ := sorted_cons.1 (sorted_append.1 hs).2.1
          rcases mem_cons.1 hr with rfl | hr
          · exact le_rfl
          · have := hfirst r hr
            omega
        exact absurd hcovered.2 (by omega)

end

/-! ### Runs with the pages thrown away -/

/-- The module, with the pages of each area that `ashmem_shrink` has thrown away since they were
last pinned. -/
structure Purging where
  state : State
  discarded : AreaId → ℕ → Bool

namespace Purging

/-- The pages of an area that were thrown away from `s` to `t`. -/
def evicted (s t : State) (a : AreaId) (page : ℕ) : Bool :=
  (t.truncated.drop s.truncated.length).any fun c ↦ decide (c.1 = a ∧ c.2.1 ≤ page ∧ page ≤ c.2.2)

/-- The effect of a call. A new area has no pages thrown away. -/
def exec (p : Purging) (op : Op) : Purging where
  state := p.state.exec op
  discarded a page :=
    match op with
    | .openFile b _ | .release b => p.discarded a page && decide (a ≠ b)
    | .pin b pgstart pgend _ =>
      p.discarded a page && decide (¬ (a = b ∧ pgstart ≤ page ∧ page ≤ pgend))
    | .unpin _ _ _ _ | .getPinStatus _ _ _ => p.discarded a page
    | .shrink _ _ _ => p.discarded a page || evicted p.state (p.state.exec op) a page

/-- **No mark is at stake** in a failing allocation: without memory `ashmem_pin` tears no hole
into a marked range, and every marked range that `ashmem_unpin` finds in its interval covers the
interval. -/
def Marked (s : State) : Op → Prop
  | .pin a pgstart pgend memory =>
    memory = false → ∀ r ∈ s.view a, r.purged = true → ¬ (r.pgstart < pgstart ∧ pgend < r.pgend)
  | .unpin a pgstart pgend memory =>
    memory = false → ∀ r ∈ s.view a, r.purged = true →
      max r.pgstart pgstart ≤ min r.pgend pgend → r.PageRangeSubsumedBy pgstart pgend
  | .openFile _ _ | .release _ | .getPinStatus _ _ _ | .shrink _ _ _ => True

instance (s : State) : (op : Op) → Decidable (Marked s op)
  | .pin a pgstart pgend memory =>
    inferInstanceAs (Decidable (memory = false → ∀ r ∈ s.view a, r.purged = true →
      ¬ (r.pgstart < pgstart ∧ pgend < r.pgend)))
  | .unpin a pgstart pgend memory =>
    inferInstanceAs (Decidable (memory = false → ∀ r ∈ s.view a, r.purged = true →
      max r.pgstart pgstart ≤ min r.pgend pgend → r.PageRangeSubsumedBy pgstart pgend))
  | .openFile _ _ | .release _ | .getPinStatus _ _ _ | .shrink _ _ _ =>
    inferInstanceAs (Decidable True)

/-- Calls on open areas, allocations succeeding or failing. `ashmem_pin_unpin` passes intervals
that are possibly empty but not inverted. -/
def machine : Machine Purging Op where
  guard p op := p.state.Usable op ∧ op.Interval 1
  exec := exec

/-- The same, with no mark at stake in a failing allocation. -/
def marked : Machine Purging Op where
  guard p op := p.state.Usable op ∧ op.Interval 1 ∧ Marked p.state op
  exec := exec

instance (p : Purging) (op : Op) : Decidable (machine.guard p op) :=
  inferInstanceAs (Decidable (_ ∧ _))

instance (p : Purging) (op : Op) : Decidable (marked.guard p op) :=
  inferInstanceAs (Decidable (_ ∧ _ ∧ _))

/-- Before the first area is opened. -/
def init : Purging := ⟨State.init, fun _ _ ↦ false⟩

/-- Every page thrown away lies in a marked range. -/
structure Sound (p : Purging) : Prop where
  accounted : p.state.Accounted
  sorted : ∀ a, Sorted 1 (p.state.view a)
  marks : ∀ a page, p.discarded a page = true → page ∈ purgedPages (p.state.view a)

variable {p : Purging}

theorem Sound.marks_of_ne (h : p.Sound) {t : State} {a b : AreaId} (hb : b ≠ a)
    (hother : ∀ b ≠ a, t.view b = p.state.view b) {page : ℕ} (hpage : p.discarded b page = true) :
    page ∈ purgedPages (t.view b) :=
  hother b hb ▸ h.marks b page hpage

/-- **One call.** -/
theorem Sound.exec (h : p.Sound) {op : Op} (hop : marked.guard p op) : (p.exec op).Sound := by
  obtain ⟨husable, hinterval, hmarked⟩ := hop
  refine ⟨h.accounted.exec husable,
    sorted_exec h.accounted h.sorted le_rfl husable hinterval, fun b page hpage ↦ ?_⟩
  cases op with
  | openFile a memory =>
    simp only [Purging.exec, Bool.and_eq_true] at hpage
    exact view_ashmemOpen h.accounted husable memory b ▸ h.marks b page hpage.1
  | release a =>
    simp only [Purging.exec, Bool.and_eq_true, decide_eq_true_eq] at hpage
    exact h.marks_of_ne hpage.2 (acts_ashmemRelease h.accounted a).view_of_ne hpage.1
  | pin a pgstart pgend memory =>
    simp only [Purging.exec, Bool.and_eq_true, decide_eq_true_eq] at hpage
    obtain ⟨-, hacts⟩ := acts_ashmemPin h.accounted.wellFormed husable pgstart pgend memory
    rcases eq_or_ne b a with rfl | hb
    · have hhole : memory = true ∨ ∀ r ∈ p.state.view b, r.purged = true →
          ¬ (r.pgstart < pgstart ∧ pgend < r.pgend) := by
        cases memory with
        | true => exact .inl rfl
        | false => exact .inr (hmarked rfl)
      change page ∈ purgedPages ((p.state.ashmemPin b pgstart pgend memory).2.view b)
      rw [hacts.view_self, mem_cover_pinRanges (h.sorted b) le_rfl hinterval hhole]
      exact ⟨h.marks b page hpage.1, fun hin ↦ hpage.2 ⟨rfl, hin⟩⟩
    · exact h.marks_of_ne hb hacts.view_of_ne hpage.1
  | unpin a pgstart pgend memory =>
    obtain ⟨hunpins, hother, hmemory⟩ :=
      unpins_ashmemUnpin h.accounted.wellFormed husable pgstart pgend memory
    rcases eq_or_ne b a with rfl | hb
    · have hmark := h.marks b page hpage
      by_cases hret : (p.state.ashmemUnpin b pgstart pgend memory).1 = 0
      · exact hunpins.mem_purgedPages hret (h.sorted b) ∅ (by simp) (by simp) (by simp) (.inl hmark)
      · refine hunpins.mem_purgedPages_of_free (h.sorted b) hinterval ?_ hmark
        -- a marked range with a page of the interval would cover it, and no memory would be needed
        rintro x ⟨r, hr, hpurged, hx⟩ hin
        have hmeets : max r.pgstart pgstart ≤ min r.pgend pgend := by
          unfold Range.PageIn at hx
          omega
        have hcovers := hmarked (by simpa using mt hmemory hret) r hr hpurged hmeets
        exact hret (hunpins.ret_of_covered (h.sorted b) hr hcovers (by omega))
    · exact h.marks_of_ne hb hother hpage
  | getPinStatus a pgstart pgend => exact h.marks b page hpage
  | shrink nrToScan gfpFs unlocked =>
    have hevicts := evicts_ashmemShrink p.state nrToScan gfpFs unlocked
    -- thrown away now or before, the page is in a range that is marked now
    have hin : ∀ r ∈ p.state.unpinnedList b, (p.state.ranges r).PageIn page →
        ((p.state.ashmemShrink nrToScan gfpFs unlocked).2.ranges r).purged = true →
        page ∈ purgedPages ((p.state.ashmemShrink nrToScan gfpFs unlocked).2.view b) := by
      intro r hr hpage hpurged
      refine ⟨_, mem_map_of_mem (hevicts.unpinnedList ▸ hr), hpurged, ?_⟩
      unfold Range.PageIn
      rw [(hevicts.extent r).1, (hevicts.extent r).2]
      exact hpage
    simp only [Purging.exec, Bool.or_eq_true, evicted, any_eq_true, decide_eq_true_eq] at hpage
    rcases hpage with hpage | ⟨c, hc, harea, hpage⟩
    · obtain ⟨r', hr', hpurged, hpage⟩ := h.marks b page hpage
      obtain ⟨r, hr, rfl⟩ := mem_map.1 hr'
      exact hin r hr hpage (hevicts.purged r hpurged)
    · obtain ⟨r, hr, rfl, hpurged⟩ := truncated_ashmemShrink p.state nrToScan gfpFs unlocked c hc
      obtain ⟨⟨a, ha⟩, -⟩ := (h.accounted.mem_lru r).1 hr
      obtain rfl : a = b := (h.accounted.wellFormed.owner a r ha).symm.trans harea
      exact hin r ha hpage hpurged

theorem sound_init : init.Sound where
  accounted := accounted_init
  sorted _ := ⟨.nil, by simp [Heap.view, init, State.init]⟩
  marks _ _ := by simp [init]

/-- **Purged pages are reported.** In every state reached by calls with no mark at stake,
`ashmem_pin` of an interval that contains a page thrown away since it was last pinned returns
`ASHMEM_WAS_PURGED`. -/
theorem reported_of_marked {ops : List Op} (hrun : marked.Runs init ops p) {a : AreaId}
    (hlive : p.state.live a = true) {pgstart pgend page : ℕ} (hstart : pgstart ≤ page)
    (hend : page ≤ pgend) (hpage : p.discarded a page = true) (memory : Bool) :
    (p.state.ashmemPin a pgstart pgend memory).1 = true := by
  have h : p.Sound := hrun.invariant (fun _ _ h hop ↦ h.exec hop) sound_init
  rw [(acts_ashmemPin h.accounted.wellFormed hlive pgstart pgend memory).1]
  exact pinRanges_fst (h.sorted a) le_rfl (h.marks a page hpage) hstart hend

/-- A purged range is merged with pages unpinned later. -/
theorem reported_of_marked_merge :
    ((marked.final init [.openFile 0 true, .unpin 0 0 9 true, .shrink 1 true true,
      .unpin 0 5 14 true]).state.ashmemPin 0 9 20 false).1 = true := by
  exact reported_of_marked (Machine.Permitted.runs (by decide +kernel)) (by decide +kernel) le_rfl
    (by decide) (by decide +kernel) false

/-- **Marks lost.** A range is purged. Then more pages are unpinned and there is no memory for the
merged range, or a hole is pinned into it and there is no memory for its upper part. Either way
`ashmem_pin` hands back a page that was thrown away and reports nothing. -/
theorem marks_lost_without_memory :
    (let ops : List Op := [.openFile 0 true, .unpin 0 0 9 true, .shrink 1 true true,
      .unpin 0 5 14 false]
     machine.Permitted init ops ∧ (machine.final init ops).discarded 0 9 = true ∧
      ((machine.final init ops).state.ashmemPin 0 9 9 true).1 = false) ∧
    (let ops : List Op := [.openFile 0 true, .unpin 0 0 9 true, .shrink 1 true true,
      .pin 0 3 5 false]
     machine.Permitted init ops ∧ (machine.final init ops).discarded 0 9 = true ∧
      ((machine.final init ops).state.ashmemPin 0 9 9 true).1 = false) := by
  decide +kernel

end Purging

end Ashmem
