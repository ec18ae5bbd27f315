import Mathlib.Order.Interval.Set.Basic
import MerrukKernel.Ashmem.View

/-!
# Unpinned pages

The set of pages of an area that the ranges on its list make up, and what the calls do to it. On a
list in descending order `ashmem_pin` removes the interval from it and `ashmem_unpin` adds the
interval to it; the order is what makes stopping early harmless, and both calls keep it.

`Sorted k` allows the end of a range to be up to `k` below its start. Calls with `pgstart ≤ pgend`
keep `Sorted 0`, in which no range is empty. The one caller, `ashmem_pin_unpin`, also passes
`pgend = pgstart - 1` for an empty interval at the end of an area, and such calls keep `Sorted 1`.
-/

open List

namespace Ashmem

open Range State

/-- The pages of the ranges with a purged flag that satisfies `q`. -/
def cover (q : Bool → Prop) (l : List Range) : Set ℕ :=
  { page | ∃ r ∈ l, q r.purged ∧ r.PageIn page }

/-- The pages of all ranges. -/
abbrev pages (l : List Range) : Set ℕ := cover (fun _ ↦ True) l

/-- The pages of the purged ranges. -/
abbrev purgedPages (l : List Range) : Set ℕ := cover (· = true) l

/-- The ranges are in strictly descending order, hence disjoint, and each ends at most `k` below its
start. -/
structure Sorted (k : ℕ) (l : List Range) : Prop where
  descending : l.Pairwise fun r r' ↦ r'.pgend < r.pgstart
  proper : ∀ r ∈ l, r.pgstart ≤ r.pgend + k

variable {q : Bool → Prop} {k : ℕ} {r : Range} {l l₁ l₂ : List Range} {page pgstart pgend : ℕ}
  {memory : Bool}

theorem mem_cover : page ∈ cover q l ↔ ∃ r ∈ l, q r.purged ∧ r.PageIn page := .rfl

theorem pages_nil : pages [] = ∅ := by
  ext page
  simp [mem_cover]

theorem mem_cover_cons :
    page ∈ cover q (r :: l) ↔ (q r.purged ∧ r.PageIn page) ∨ page ∈ cover q l := by
  simp [mem_cover]

theorem mem_cover_append : page ∈ cover q (l₁ ++ l₂) ↔ page ∈ cover q l₁ ∨ page ∈ cover q l₂ := by
  simp only [mem_cover, mem_append, or_and_right, exists_or]

theorem sorted_cons : Sorted k (r :: l) ↔
    (∀ r' ∈ l, r'.pgend < r.pgstart) ∧ r.pgstart ≤ r.pgend + k ∧ Sorted k l := by
  constructor
  · rintro ⟨hdesc, hproper⟩
    rw [pairwise_cons] at hdesc
    exact ⟨hdesc.1, hproper r (by simp), hdesc.2, fun r' hr' ↦ hproper r' (by simp [hr'])⟩
  · rintro ⟨hfirst, hr, hdesc, hproper⟩
    exact ⟨pairwise_cons.2 ⟨hfirst, hdesc⟩, by simpa [hr] using hproper⟩

theorem sorted_append : Sorted k (l₁ ++ l₂) ↔
    Sorted k l₁ ∧ Sorted k l₂ ∧ ∀ r ∈ l₁, ∀ r' ∈ l₂, r'.pgend < r.pgstart := by
  constructor
  · rintro ⟨hdesc, hproper⟩
    rw [pairwise_append] at hdesc
    exact ⟨⟨hdesc.1, fun r hr ↦ hproper r (by simp [hr])⟩,
      ⟨hdesc.2.1, fun r hr ↦ hproper r (by simp [hr])⟩, hdesc.2.2⟩
  · rintro ⟨h₁, h₂, hcross⟩
    exact ⟨pairwise_append.2 ⟨h₁.descending, h₂.descending, hcross⟩, fun r hr ↦
      (mem_append.1 hr).elim (h₁.proper r) (h₂.proper r)⟩

/-- The pages below a range on the list. -/
theorem Sorted.lt_of_mem_cover (h : Sorted k (r :: l)) (hpage : page ∈ cover q l) :
    page < r.pgstart := by
  obtain ⟨r', hr', -, hin⟩ := hpage
  exact hin.2.trans_lt ((sorted_cons.1 h).1 r' hr')

/-! ### Pinning -/

theorem mem_trim {p : Range} : p ∈ trim pgstart pgend memory r ↔
    (¬ r.PageRangeIn pgstart pgend ∧ p = r) ∨
      (r.PageRangeIn pgstart pgend ∧ pgend < r.pgend ∧ (pgstart ≤ r.pgstart ∨ memory = true) ∧
        p = { r with pgstart := pgend + 1 }) ∨
      (r.PageRangeIn pgstart pgend ∧ r.pgstart < pgstart ∧
        p = { r with pgend := pgstart - 1 }) := by
  by_cases hin : r.PageRangeIn pgstart pgend
  · have hsub : r.PageRangeSubsumes pgstart pgend ↔ pgstart ≤ r.pgstart ∧ r.pgend ≤ pgend := .rfl
    simp only [trim, hin]
    by_cases hstart : pgstart ≤ r.pgstart <;> by_cases hend : r.pgend ≤ pgend <;>
      simp [hsub, hstart, hend, Nat.not_lt.2, Nat.lt_of_not_le]
  · simp [trim, hin]

section

variable (hle : pgstart ≤ pgend + 1)
include hle

/-- The pieces of a range lie in it. -/
theorem trim_within {p : Range} (hp : p ∈ trim pgstart pgend memory r) :
    r.pgstart ≤ p.pgstart ∧ p.pgend ≤ r.pgend ∧
      (r.pgstart ≤ r.pgend + k → p.pgstart ≤ p.pgend + k) := by
  rcases mem_trim.1 hp with ⟨-, rfl⟩ | ⟨hin, hend, -, rfl⟩ | ⟨hin, hstart, rfl⟩
  · exact ⟨le_rfl, le_rfl, id⟩
  · unfold PageRangeIn PageIn PageRangeSubsumes at hin
    simp only
    omega
  · unfold PageRangeIn PageIn PageRangeSubsumes at hin
    simp only
    omega

theorem sorted_trim (hr : r.pgstart ≤ r.pgend + k) : Sorted k (trim pgstart pgend memory r) := by
  refine ⟨?_, fun p hp ↦ (trim_within hle hp).2.2 hr⟩
  unfold trim
  split_ifs <;> simp
  omega

/-- Where no flagged range has a hole torn into it without memory for the upper part, the pieces
of a flagged range are what lies outside the interval. -/
theorem mem_cover_trim
    (hhole : memory = true ∨ (q r.purged → ¬ (r.pgstart < pgstart ∧ pgend < r.pgend))) :
    page ∈ cover q (trim pgstart pgend memory r) ↔
      (q r.purged ∧ r.PageIn page) ∧ ¬ (pgstart ≤ page ∧ page ≤ pgend) := by
  simp only [mem_cover, mem_trim]
  constructor
  · rintro ⟨p, ⟨hin, rfl⟩ | ⟨hin, hend, -, rfl⟩ | ⟨hin, hstart, rfl⟩, hq, hpage⟩ <;>
      refine ⟨⟨hq, ?_⟩, ?_⟩ <;>
      simp only [Range.PageRangeIn, Range.PageIn, Range.PageRangeSubsumes] at hin hpage ⊢ <;> omega
  · rintro ⟨⟨hq, hpage⟩, hout⟩
    by_cases hin : r.PageRangeIn pgstart pgend
    · rcases Nat.lt_or_ge page pgstart with hlow | hhigh
      · exact ⟨_, .inr (.inr ⟨hin, hpage.1.trans_lt hlow, rfl⟩), hq, hpage.1, by simp only; omega⟩
      · have hend : pgend < r.pgend := lt_of_lt_of_le (by omega) hpage.2
        refine ⟨_, .inr (.inl ⟨hin, hend, ?_, rfl⟩), hq, by simp only; omega, hpage.2⟩
        rcases hhole with hmemory | hhole
        · exact .inr hmemory
        · exact .inl (not_lt.1 fun hstart ↦ hhole hq ⟨hstart, hend⟩)
    · exact ⟨r, .inl ⟨hin, rfl⟩, hq, hpage⟩

/-- Every range `ashmem_pin` leaves lies in one it found. -/
theorem pinRanges_within {p : Range}
    (hp : p ∈ (pinRanges pgstart pgend memory l).2) : ∃ r ∈ l, p.pgend ≤ r.pgend := by
  induction l with
  | nil => simp [pinRanges] at hp
  | cons r rest ih =>
    have htrim : p ∈ trim pgstart pgend memory r → ∃ r' ∈ r :: rest, p.pgend ≤ r'.pgend :=
      fun hmem ↦ ⟨r, by simp, (trim_within (k := 0) hle hmem).2.1⟩
    rw [pinRanges] at hp
    split_ifs at hp
    · exact ⟨p, hp, le_rfl⟩
    · grind
    · grind

end

/-- `ashmem_pin` keeps the order. -/
theorem Sorted.pinRanges (h : Sorted k l) (hle : pgstart ≤ pgend + 1) :
    Sorted k (pinRanges pgstart pgend memory l).2 := by
  induction l with
  | nil => exact h
  | cons r rest ih =>
    obtain ⟨hfirst, hr, hrest⟩ := sorted_cons.1 h
    rw [Ashmem.pinRanges]
    split_ifs
    · exact h
    · refine sorted_append.2 ⟨sorted_trim hle hr, hrest, fun p hp r' hr' ↦ ?_⟩
      exact (hfirst r' hr').trans_le (trim_within (k := 0) hle hp).1
    · refine sorted_append.2 ⟨sorted_trim hle hr, ih hrest, fun p hp p' hp' ↦ ?_⟩
      obtain ⟨r', hr', hend⟩ := pinRanges_within hle hp'
      exact (hend.trans_lt (hfirst r' hr')).trans_le (trim_within (k := 0) hle hp).1

/-- **`ashmem_pin` removes the interval**, from the pages of the ranges with any one flag: where it
stops early, only lower pages are left. -/
theorem mem_cover_pinRanges (h : Sorted k l) (hk : k ≤ 1) (hle : pgstart ≤ pgend + 1)
    (hhole : memory = true ∨ ∀ r ∈ l, q r.purged → ¬ (r.pgstart < pgstart ∧ pgend < r.pgend)) :
    page ∈ cover q (pinRanges pgstart pgend memory l).2 ↔
      page ∈ cover q l ∧ ¬ (pgstart ≤ page ∧ page ≤ pgend) := by
  induction l with
  | nil => simp [pinRanges, mem_cover]
  | cons r rest ih =>
    obtain ⟨-, hr, hrest⟩ := sorted_cons.1 h
    have htrim : page ∈ cover q (trim pgstart pgend memory r) ↔ _ :=
      mem_cover_trim hle (hhole.imp_right fun hall ↦ hall r (by simp))
    rw [pinRanges]
    split_ifs with hbefore hsplit
    · have hlow : page ∈ cover q (r :: rest) → page < pgstart := fun hpage ↦ by
        rcases mem_cover_cons.1 hpage with ⟨-, hin⟩ | hpage
        · exact hin.2.trans_lt hbefore
        · have := h.lt_of_mem_cover hpage
          unfold BeforePage at hbefore
          omega
      exact ⟨fun hpage ↦ ⟨hpage, fun hin ↦ absurd (hlow hpage) (by omega)⟩, And.left⟩
    · have hlow : page ∈ cover q rest → page < pgstart := fun hpage ↦
        (h.lt_of_mem_cover hpage).trans hsplit.2.1
      rw [mem_cover_append, mem_cover_cons]
      constructor
      · grind
      · grind
    · rw [mem_cover_append, htrim, mem_cover_cons,
        ih hrest (hhole.imp_right fun hall r' hr' ↦ hall r' (by simp [hr']))]
      exact or_and_right.symm

/-- **`ashmem_pin` reports purged pages** it meets. -/
theorem pinRanges_fst (h : Sorted k l) (hk : k ≤ 1) (hpage : page ∈ purgedPages l)
    (hstart : pgstart ≤ page) (hend : page ≤ pgend) :
    (pinRanges pgstart pgend memory l).1 = true := by
  induction l with
  | nil => simp [mem_cover] at hpage
  | cons r rest ih =>
    obtain ⟨-, hr, hrest⟩ := sorted_cons.1 h
    rw [mem_cover_cons] at hpage
    rw [pinRanges]
    split_ifs with hbefore hsplit
    · unfold BeforePage at hbefore
      rcases hpage with ⟨-, hin⟩ | hpage
      · exact absurd hin.2 (by omega)
      · have := h.lt_of_mem_cover hpage
        omega
    · rcases hpage with ⟨hpurged, -⟩ | hpage
      · exact hpurged
      · have := h.lt_of_mem_cover hpage
        omega
    · rcases hpage with ⟨hpurged, hin⟩ | hpage
      · have hmeets : r.PageRangeIn pgstart pgend := by
          unfold PageRangeIn PageIn PageRangeSubsumes
          unfold PageIn at hin
          omega
        simp [hmeets, hpurged]
      · simp [ih hrest hpage]

/-! ### Unpinning -/

section Unpins

variable {a : AreaId} {purged : Bool} {ret : ℤ} {l' : List Range}

/-- A range that meets the interval makes one interval with it. -/
theorem mem_hull_iff (hin : r.PageRangeIn pgstart pgend) :
    (min r.pgstart pgstart ≤ page ∧ page ≤ max r.pgend pgend) ↔
      r.PageIn page ∨ (pgstart ≤ page ∧ page ≤ pgend) := by
  unfold PageRangeIn PageIn PageRangeSubsumes at hin
  unfold PageIn
  omega

theorem Sorted.remove (h : Sorted k (l₁ ++ r :: l₂)) : Sorted k (l₁ ++ l₂) :=
  ⟨h.descending.sublist (by simp), fun r' hr' ↦ h.proper r' (by
    simp only [mem_append, mem_cons] at hr' ⊢
    tauto)⟩

/-- The pages of a range are in no other range. -/
theorem Sorted.not_mem_cover (h : Sorted k (l₁ ++ r :: l₂)) (hpage : r.PageIn page) :
    page ∉ cover q (l₁ ++ l₂) := by
  obtain ⟨-, h₂, hcross⟩ := sorted_append.1 h
  rw [mem_cover_append]
  rintro (⟨r', hr', -, hin⟩ | hin)
  · have := hcross r' hr' r (by simp)
    unfold PageIn at hin hpage
    omega
  · exact absurd hpage.1 (not_le.2 (h₂.lt_of_mem_cover hin))

/-- A range put where the pass stopped is in order. -/
theorem Sorted.insert (h : Sorted k (l₁ ++ l₂)) (hk : k ≤ 1) (hle : pgstart ≤ pgend + k)
    (hfront : ∀ r ∈ l₁, ¬ r.BeforePage pgstart ∧ ¬ r.PageRangeIn pgstart pgend)
    (hpoint : ∀ r ∈ l₂.head?, r.BeforePage pgstart) :
    Sorted k (l₁ ++ ⟨a, pgstart, pgend, purged⟩ :: l₂) := by
  obtain ⟨h₁, h₂, hcross⟩ := sorted_append.1 h
  have habove : ∀ r ∈ l₁, pgend < r.pgstart := fun r hr ↦ by
    obtain ⟨hbefore, hin⟩ := hfront r hr
    unfold BeforePage at hbefore
    unfold PageRangeIn PageIn PageRangeSubsumes at hin
    omega
  have hbelow : ∀ r ∈ l₂, r.pgend < pgstart := by
    cases l₂ with
    | nil => simp
    | cons r₂ rest =>
      obtain ⟨hfirst, hr₂, -⟩ := sorted_cons.1 h₂
      have hpoint' : r₂.pgend < pgstart := hpoint r₂ rfl
      intro r hr
      rcases mem_cons.1 hr with rfl | hr
      · exact hpoint'
      · have := hfirst r hr
        omega
  refine sorted_append.2 ⟨h₁, sorted_cons.2 ⟨hbelow, hle, h₂⟩, fun r hr r' hr' ↦ ?_⟩
  rcases mem_cons.1 hr' with rfl | hr'
  · exact habove r hr
  · exact hcross r hr r' hr'

/-- `ashmem_unpin` keeps the order. -/
theorem Unpins.sorted (h : Unpins a pgstart pgend purged l ret l') (hs : Sorted k l) (hk : k ≤ 1)
    (hle : pgstart ≤ pgend + k) : Sorted k l' := by
  induction h with
  | covered hr hsub => exact hs
  | merge hbefore hcovered hin _ ih => exact ih hs.remove (by omega)
  | insert hfront hpoint => exact hs.insert hk hle hfront hpoint
  | noMemory => exact hs

/-- **`ashmem_unpin` adds the interval**, when it returns zero. -/
theorem Unpins.mem_pages (h : Unpins a pgstart pgend purged l ret l') (hret : ret = 0) :
    page ∈ pages l' ↔ page ∈ pages l ∨ (pgstart ≤ page ∧ page ≤ pgend) := by
  induction h with
  | @covered pgstart pgend _ l r hr hsub =>
    refine ⟨.inl, fun hpage ↦ hpage.elim id fun hpage ↦ ⟨r, hr, trivial, ?_⟩⟩
    exact ⟨hsub.1.trans hpage.1, hpage.2.trans hsub.2⟩
  | merge hbefore hcovered hin _ ih =>
    rw [ih hret, mem_hull_iff hin]
    simp only [mem_cover_append, mem_cover_cons]
    tauto
  | insert hfront hpoint =>
    simp only [mem_cover_append, mem_cover_cons, Range.PageIn]
    tauto
  | noMemory => exact absurd hret (by decide)

end Unpins

/-! ### Eviction -/

variable {s t : State} {op : Op}

theorem State.Evicts.extent (h : State.Evicts s t) (r : RangeId) :
    (t.ranges r).pgstart = (s.ranges r).pgstart ∧ (t.ranges r).pgend = (s.ranges r).pgend := by
  rw [h.record r]
  exact ⟨rfl, rfl⟩

/-- `ashmem_shrink` keeps the order and the pages. -/
theorem State.Evicts.sorted (h : State.Evicts s t) {a : AreaId}
    (hs : Sorted k (s.view a)) : Sorted k (t.view a) := by
  obtain ⟨hdesc, hproper⟩ := hs
  simp only [Heap.view, pairwise_map] at hdesc hproper
  rw [Heap.view, h.unpinnedList]
  refine ⟨pairwise_map.2 (hdesc.imp fun {x y} hxy ↦ ?_), forall_mem_map.2 fun x hx ↦ ?_⟩
  · rw [(h.extent x).1, (h.extent y).2]
    exact hxy
  · grind [h.extent]

theorem State.Evicts.pages (h : State.Evicts s t) (a : AreaId) :
    pages (t.view a) = pages (s.view a) := by
  ext page
  simp only [mem_cover, Heap.view, h.unpinnedList, mem_map, exists_exists_and_eq_and,
    Range.PageIn, (h.extent _).1, (h.extent _).2]

/-! ### The pin status -/

/-- `ashmem_get_pin_status` asks whether the interval meets a range. -/
theorem pinStatusLoop_iff {ranges : RangeId → Range} {ids : List RangeId}
    (h : Sorted 0 (ids.map ranges)) (hle : pgstart ≤ pgend) :
    pinStatusLoop ranges pgstart pgend ids = true ↔
      ∃ page, (pgstart ≤ page ∧ page ≤ pgend) ∧ page ∈ pages (ids.map ranges) := by
  induction ids with
  | nil => simp [pinStatusLoop, mem_cover]
  | cons x xs ih =>
    rw [map_cons] at ⊢
    obtain ⟨-, hx, hxs⟩ := sorted_cons.1 h
    rw [pinStatusLoop]
    split_ifs with hbefore hin
    · unfold BeforePage at hbefore
      refine iff_of_false (by simp) ?_
      rintro ⟨page, hint, hpage⟩
      rcases mem_cover_cons.1 hpage with ⟨-, hpage⟩ | hpage
      · exact absurd hpage.2 (by omega)
      · have := h.lt_of_mem_cover hpage
        omega
    · refine iff_of_true rfl ?_
      simp only [mem_cover_cons, true_and]
      unfold PageRangeIn PageRangeSubsumes at hin
      rcases hin with hin | hin | hin
      · exact ⟨pgstart, ⟨le_rfl, hle⟩, .inl hin⟩
      · exact ⟨pgend, ⟨hle, le_rfl⟩, .inl hin⟩
      · exact ⟨(ranges x).pgstart, ⟨hin.1, by omega⟩, .inl ⟨le_rfl, hx⟩⟩
    · rw [ih hxs]
      refine exists_congr fun page ↦ and_congr_right fun hint ↦ ?_
      rw [mem_cover_cons, or_iff_right]
      intro hpage
      unfold PageRangeIn PageIn PageRangeSubsumes at hin
      unfold PageIn at hpage
      omega

/-! ### Order through all calls -/

/-- The interval of a call ends at most `k` below its start. -/
def Op.Interval (k : ℕ) : Op → Prop
  | .pin _ pgstart pgend _ | .unpin _ pgstart pgend _ => pgstart ≤ pgend + k
  | .openFile _ _ | .release _ | .getPinStatus _ _ _ | .shrink _ _ _ => True

instance (k : ℕ) : (op : Op) → Decidable (op.Interval k)
  | .pin _ _ _ _ | .unpin _ _ _ _ => inferInstanceAs (Decidable (_ ≤ _))
  | .openFile _ _ | .release _ | .getPinStatus _ _ _ | .shrink _ _ _ =>
    inferInstanceAs (Decidable True)

/-- **Every call keeps the lists in order.** -/
theorem State.sorted_exec (h : s.Accounted) (hs : ∀ a, Sorted k (s.view a))
    (hk : k ≤ 1) (husable : s.Usable op) (hinterval : op.Interval k) (b : AreaId) :
    Sorted k ((s.exec op).view b) := by
  have hof : ∀ {t : State} {a : AreaId}, (∀ b ≠ a, t.view b = s.view b) → Sorted k (t.view a) →
      Sorted k (t.view b) := fun {t a} hother hself ↦ by
    rcases eq_or_ne b a with rfl | hb
    · exact hself
    · exact hother b hb ▸ hs b
  cases op with
  | openFile a memory => exact view_ashmemOpen h husable memory b ▸ hs b
  | release a =>
    have hacts := acts_ashmemRelease h a
    exact hof hacts.view_of_ne (hacts.view_self ▸ ⟨.nil, by simp⟩)
  | pin a pgstart pgend memory =>
    obtain ⟨-, hacts⟩ := acts_ashmemPin h.wellFormed husable pgstart pgend memory
    refine hof hacts.view_of_ne (hacts.view_self ▸ (hs a).pinRanges ?_)
    exact le_trans hinterval (by omega)
  | unpin a pgstart pgend memory =>
    obtain ⟨hunpins, hother, -⟩ := unpins_ashmemUnpin h.wellFormed husable pgstart pgend memory
    exact hof hother (hunpins.sorted (hs a) hk hinterval)
  | getPinStatus a pgstart pgend => exact hs b
  | shrink nrToScan gfpFs unlocked =>
    exact (evicts_ashmemShrink s nrToScan gfpFs unlocked).sorted (hs b)

/-! ### The calls, beside a set of pages -/

/-- **The reference model**: the unpinned pages of each area. -/
def unpinnedPages (unpinned : AreaId → Set ℕ) : Op → AreaId → Set ℕ
  | .openFile a _ | .release a => Function.update unpinned a ∅
  | .pin a pgstart pgend _ => Function.update unpinned a (unpinned a \ Set.Icc pgstart pgend)
  | .unpin a pgstart pgend _ => Function.update unpinned a (unpinned a ∪ Set.Icc pgstart pgend)
  | .getPinStatus _ _ _ | .shrink _ _ _ => unpinned

/-- The module and the reference model side by side. -/
structure Paged where
  state : State
  unpinned : AreaId → Set ℕ

namespace Paged

/-- Calls on intervals that are not empty, with memory for every allocation. -/
def Regular : Op → Prop
  | .pin _ pgstart pgend memory | .unpin _ pgstart pgend memory =>
    pgstart ≤ pgend ∧ memory = true
  | .getPinStatus _ pgstart pgend => pgstart ≤ pgend
  | .openFile _ _ | .release _ | .shrink _ _ _ => True

instance : (op : Op) → Decidable (Regular op)
  | .pin _ _ _ _ | .unpin _ _ _ _ => inferInstanceAs (Decidable (_ ∧ _))
  | .getPinStatus _ _ _ => inferInstanceAs (Decidable (_ ≤ _))
  | .openFile _ _ | .release _ | .shrink _ _ _ => inferInstanceAs (Decidable True)

/-- Regular calls on open areas. -/
def machine : Machine Paged Op where
  guard p op := p.state.Usable op ∧ Regular op
  exec p op := ⟨p.state.exec op, unpinnedPages p.unpinned op⟩

instance (p : Paged) (op : Op) : Decidable (machine.guard p op) :=
  inferInstanceAs (Decidable (_ ∧ _))

/-- Before the first area is opened. -/
def init : Paged := ⟨State.init, fun _ ↦ ∅⟩

/-- The lists are in order, without empty ranges, and make up the sets of the reference model. -/
structure Refines (p : Paged) : Prop where
  accounted : p.state.Accounted
  sorted : ∀ a, Sorted 0 (p.state.view a)
  pages : ∀ a, pages (p.state.view a) = p.unpinned a

variable {p : Paged}

theorem Refines.pages_update (h : p.Refines) {a : AreaId} {unpinned : Set ℕ}
    (hother : ∀ b ≠ a, t.view b = p.state.view b) (hself : Ashmem.pages (t.view a) = unpinned)
    (b : AreaId) : Ashmem.pages (t.view b) = Function.update p.unpinned a unpinned b := by
  rcases eq_or_ne b a with rfl | hb
  · simpa using hself
  · simpa [hb, hother b hb] using h.pages b

theorem Regular.interval (h : Regular op) : op.Interval 0 := by
  cases op with
  | pin | unpin => exact h.1
  | openFile | release | getPinStatus | shrink => trivial

/-- **One call.** -/
theorem Refines.exec (h : p.Refines) (hop : machine.guard p op) : (machine.exec p op).Refines := by
  obtain ⟨husable, hregular⟩ := hop
  have hsorted := sorted_exec h.accounted h.sorted (by omega) husable hregular.interval
  refine ⟨h.accounted.exec husable, hsorted, ?_⟩
  cases op with
  | openFile a memory =>
    have hview := view_ashmemOpen h.accounted husable memory
    have hempty : p.state.view a = [] := by
      rw [Heap.view, h.accounted.wellFormed.closed a husable, map_nil]
    refine h.pages_update (fun b _ ↦ hview b) ?_
    exact ((congrArg _ (hview a)).trans (congrArg _ hempty)).trans pages_nil
  | release a =>
    have hacts := acts_ashmemRelease h.accounted a
    exact h.pages_update hacts.view_of_ne ((congrArg _ hacts.view_self).trans pages_nil)
  | pin a pgstart pgend memory =>
    obtain ⟨hle, hmemory⟩ := hregular
    obtain ⟨-, hacts⟩ :=
      acts_ashmemPin h.accounted.wellFormed husable pgstart pgend memory
    refine h.pages_update hacts.view_of_ne ((congrArg _ hacts.view_self).trans ?_)
    ext page
    rw [← h.pages a]
    exact mem_cover_pinRanges (h.sorted a) (by omega) (by omega) (.inl hmemory)
  | unpin a pgstart pgend memory =>
    obtain ⟨hle, hmemory⟩ := hregular
    obtain ⟨hunpins, hother, hret⟩ :=
      unpins_ashmemUnpin h.accounted.wellFormed husable pgstart pgend memory
    refine h.pages_update hother ?_
    ext page
    rw [← h.pages a]
    exact hunpins.mem_pages (hret hmemory)
  | getPinStatus a pgstart pgend => exact h.pages
  | shrink nrToScan gfpFs unlocked =>
    exact fun a ↦ ((evicts_ashmemShrink p.state nrToScan gfpFs unlocked).pages a).trans
      (h.pages a)

theorem refines_init : init.Refines where
  accounted := State.accounted_init
  sorted _ := ⟨.nil, by simp [Heap.view, init, State.init]⟩
  pages _ := by
    ext page
    simp [mem_cover, Heap.view, init, State.init]

/-- **Unpinned ranges are a set of pages.** In every state reached by regular calls, on any number
of areas, the list of an area is in strictly descending order, of disjoint ranges none of which is
empty, whose union is the set of the reference model, and `ashmem_get_pin_status` says whether an
interval meets that set. -/
theorem unpinned_refines {p : Paged} {ops : List Op} (hrun : machine.Runs init ops p) (a : AreaId) :
    (p.state.view a).Pairwise (fun r r' ↦ r'.pgend < r.pgstart) ∧
      (∀ r ∈ p.state.view a, r.pgstart ≤ r.pgend) ∧
      (∀ page, (∃ r ∈ p.state.view a, r.PageIn page) ↔ page ∈ p.unpinned a) ∧
      ∀ pgstart pgend, pgstart ≤ pgend → (p.state.ashmemGetPinStatus a pgstart pgend = true ↔
          (p.unpinned a ∩ Set.Icc pgstart pgend).Nonempty) := by
  have h : p.Refines := hrun.invariant (fun _ _ h hop ↦ h.exec hop) refines_init
  refine ⟨(h.sorted a).descending, (h.sorted a).proper, fun page ↦ ?_, fun pgstart pgend hle ↦ ?_⟩
  · rw [← h.pages a]
    simp [mem_cover]
  · rw [ashmemGetPinStatus, pinStatusLoop_iff (h.sorted a) hle, ← h.pages a]
    exact exists_congr fun page ↦ and_comm

/-- A hole is torn into a range that is then evicted. -/
theorem unpinned_refines_hole :
    let p := machine.final init [.openFile 0 true, .unpin 0 0 9 true, .pin 0 3 5 true,
      .shrink 4 true true]
    p.state.ashmemGetPinStatus 0 5 6 = true ↔ (p.unpinned 0 ∩ Set.Icc 5 6).Nonempty := by
  exact (unpinned_refines (Machine.Permitted.runs (by decide +kernel)) 0).2.2.2 5 6 (by decide)

end Paged

end Ashmem
