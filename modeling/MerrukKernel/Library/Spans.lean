import Mathlib.Data.List.Pairwise
import Mathlib.Data.Set.Basic

/-!
# Sets of numbers as lists of spans

A list of half-open spans stands for the set of numbers that lie in one of them. Spans are
**apart** if each one ends before the next one begins, with a gap in between: then the list is
determined by the set, and a span that is added is merged with those that it touches.
-/

/-- The numbers from `lo` up to, but not including, `hi`. -/
structure Span where
  lo : ℕ
  hi : ℕ
deriving DecidableEq

open List

namespace Span

instance : Membership ℕ Span := ⟨fun s a ↦ s.lo ≤ a ∧ a < s.hi⟩

theorem mem_def {s : Span} {a : ℕ} : a ∈ s ↔ s.lo ≤ a ∧ a < s.hi := Iff.rfl

/-- The spans have no number in common. -/
def Disjoint (s t : Span) : Prop := ∀ a, a ∈ s → a ∉ t

/-- The numbers in the spans of a list. -/
def cover (l : List Span) : Set ℕ := {a | ∃ s ∈ l, a ∈ s}

/-- Each span ends before the next one begins. -/
def Apart (l : List Span) : Prop := l.Pairwise fun s t ↦ s.hi < t.lo
deriving Decidable

variable {l pre post : List Span} {s t : Span} {a : ℕ}

theorem mem_cover : a ∈ cover l ↔ ∃ s ∈ l, a ∈ s := Iff.rfl

theorem mem_cover_middle : a ∈ cover (pre ++ s :: post) ↔ a ∈ s ∨ a ∈ cover (pre ++ post) := by
  simp only [mem_cover, mem_append, mem_cons, or_and_right, exists_or, exists_eq_left]
  exact or_left_comm

/-- The spans around one of them. -/
theorem apart_middle : Apart (pre ++ s :: post) ↔
    Apart (pre ++ post) ∧ (∀ p ∈ pre, p.hi < s.lo) ∧ ∀ q ∈ post, s.hi < q.lo := by
  unfold Apart
  simp only [pairwise_append, pairwise_cons]
  constructor
  · grind
  · grind

theorem disjoint_iff : s.Disjoint t ↔ min s.hi t.hi ≤ max s.lo t.lo := by
  constructor
  · intro h
    by_contra hlt
    exact h (max s.lo t.lo) ⟨by omega, by omega⟩ ⟨by omega, by omega⟩
  · rintro h a ⟨hslo, hshi⟩ ⟨htlo, hthi⟩
    omega

instance : Decidable (s.Disjoint t) := decidable_of_iff _ disjoint_iff.symm

/-- Disjoint spans that are not empty lie one after the other. -/
theorem Disjoint.le_or_le (h : s.Disjoint t) (hs : s.lo < s.hi) (ht : t.lo < t.hi) :
    s.hi ≤ t.lo ∨ t.hi ≤ s.lo := by
  rw [disjoint_iff] at h
  omega

/-- The spans are apart, and none is empty. -/
structure Tidy (l : List Span) : Prop where
  apart : Apart l
  filled : ∀ s ∈ l, s.lo < s.hi

/-- A span of a tidy list may be replaced by one that keeps clear of the spans around it. -/
theorem Tidy.middle (h : Tidy (pre ++ post)) (hs : s.lo < s.hi) (hpre : ∀ p ∈ pre, p.hi < s.lo)
    (hpost : ∀ q ∈ post, s.hi < q.lo) : Tidy (pre ++ s :: post) where
  apart := apart_middle.2 ⟨h.apart, hpre, hpost⟩
  filled t ht := by
    rw [mem_append, mem_cons, or_left_comm, ← mem_append] at ht
    rcases ht with rfl | ht
    · exact hs
    · exact h.filled t ht

theorem Tidy.remove (h : Tidy (pre ++ s :: post)) : Tidy (pre ++ post) where
  apart := (apart_middle.1 h.apart).1
  filled t ht := h.filled t ((List.Sublist.append_left (sublist_cons_self ..) _).subset ht)

theorem Tidy.before (h : Tidy (pre ++ s :: post)) {p : Span} (hp : p ∈ pre) : p.hi < s.lo :=
  (apart_middle.1 h.apart).2.1 p hp

theorem Tidy.after (h : Tidy (pre ++ s :: post)) {q : Span} (hq : q ∈ post) : s.hi < q.lo :=
  (apart_middle.1 h.apart).2.2 q hq

section Add

variable {n : Span} (hn : n.lo < n.hi)

include hn

/-- **A span is added in front of the one that begins where it ends.** -/
theorem Tidy.extend_left (h : Tidy (pre ++ s :: post)) (hdisj : ∀ p ∈ pre, p.Disjoint n)
    (htouch : s.lo = n.hi) (hclear : ∀ p ∈ pre, p.hi ≠ n.lo) :
    Tidy (pre ++ ⟨n.lo, s.hi⟩ :: post) ∧
      cover (pre ++ ⟨n.lo, s.hi⟩ :: post) = cover (pre ++ s :: post) ∪ {a | a ∈ n} := by
  have hs := h.filled s (mem_append_right _ (mem_cons_self ..))
  constructor
  · refine h.remove.middle (by simp only; omega) (fun p hp ↦ ?_) fun q hq ↦ h.after hq
    have hfilled := h.filled p (mem_append_left _ hp)
    have hbefore := h.before hp
    have hne := hclear p hp
    rcases (hdisj p hp).le_or_le hfilled hn with hle | hle <;> simp only <;> omega
  · ext a
    simp only [Set.mem_union, mem_cover_middle, Set.mem_ofPred_eq, mem_def]
    rw [or_right_comm]
    exact or_congr_left (by omega)

/-- **A span is added behind the one that ends where it begins.** -/
theorem Tidy.extend_right (h : Tidy (pre ++ s :: post)) (hdisj : ∀ q ∈ post, q.Disjoint n)
    (htouch : s.hi = n.lo) (hclear : ∀ q ∈ post, q.lo ≠ n.hi) :
    Tidy (pre ++ ⟨s.lo, n.hi⟩ :: post) ∧
      cover (pre ++ ⟨s.lo, n.hi⟩ :: post) = cover (pre ++ s :: post) ∪ {a | a ∈ n} := by
  have hs := h.filled s (mem_append_right _ (mem_cons_self ..))
  constructor
  · refine h.remove.middle (by simp only; omega) (fun p hp ↦ h.before hp) fun q hq ↦ ?_
    have hfilled := h.filled q (mem_append_right _ (mem_cons_of_mem _ hq))
    have hafter := h.after hq
    have hne := hclear q hq
    rcases (hdisj q hq).le_or_le hfilled hn with hle | hle <;> simp only <;> omega
  · ext a
    simp only [Set.mem_union, mem_cover_middle, Set.mem_ofPred_eq, mem_def]
    rw [or_right_comm]
    exact or_congr_left (by omega)

/-- **A span that fills the gap between two others.** -/
theorem Tidy.join {q : Span} (h : Tidy (pre ++ s :: q :: post)) (htouch : s.hi = n.lo)
    (hnext : q.lo = n.hi) :
    Tidy (pre ++ ⟨s.lo, q.hi⟩ :: post) ∧
      cover (pre ++ ⟨s.lo, q.hi⟩ :: post) = cover (pre ++ s :: q :: post) ∪ {a | a ∈ n} := by
  have hs := h.filled s (mem_append_right _ (mem_cons_self ..))
  have hq := h.filled q (mem_append_right _ (mem_cons_of_mem _ (mem_cons_self ..)))
  have hrest : Tidy (pre ++ q :: post) := h.remove
  constructor
  · exact hrest.remove.middle (by simp only; omega) (fun p hp ↦ h.before hp)
      fun q hq ↦ hrest.after hq
  · ext a
    simp only [Set.mem_union, mem_cover_middle, Set.mem_ofPred_eq, mem_def]
    rw [← or_assoc, or_right_comm]
    exact or_congr_left (by omega)

/-- **A span that touches no other is put in its place.** -/
theorem Tidy.insert (h : Tidy (pre ++ post)) (hdisj : ∀ s ∈ pre ++ post, s.Disjoint n)
    (hpre : ∀ p ∈ pre, p.lo ≤ n.lo ∧ p.hi ≠ n.lo) (hpost : ∀ q ∈ post, n.lo < q.lo ∧ q.lo ≠ n.hi) :
    Tidy (pre ++ n :: post) ∧ cover (pre ++ n :: post) = cover (pre ++ post) ∪ {a | a ∈ n} := by
  constructor
  · refine h.middle hn (fun p hp ↦ ?_) fun q hq ↦ ?_
    · have hfilled := h.filled p (mem_append_left _ hp)
      have hp' := hpre p hp
      rcases (hdisj p (mem_append_left _ hp)).le_or_le hfilled hn with hle | hle <;> omega
    · have hfilled := h.filled q (mem_append_right _ hq)
      have hq' := hpost q hq
      rcases (hdisj q (mem_append_right _ hq)).le_or_le hfilled hn with hle | hle <;> omega
  · ext a
    rw [Set.mem_union, mem_cover_middle, Set.mem_ofPred_eq, or_comm]

end Add

/-- A number of one span of a tidy list is in no other. -/
theorem Tidy.not_mem_rest (h : Tidy (pre ++ s :: post)) (ha : a ∈ s) : a ∉ cover (pre ++ post) := by
  rintro ⟨t, ht, hat⟩
  rw [mem_def] at ha hat
  rcases mem_append.1 ht with ht | ht
  · have := h.before ht
    omega
  · have := h.after ht
    omega

/-- **Numbers are taken out of one span.** What is left of it, if anything, is again a span. -/
theorem Tidy.shrink (h : Tidy (pre ++ s :: post)) {left n : Span} (hleft : left.lo < left.hi)
    (hlo : s.lo ≤ left.lo) (hhi : left.hi ≤ s.hi) (hpart : ∀ a ∈ s, a ∈ left ↔ a ∉ n)
    (hn : ∀ a ∈ n, a ∈ s) :
    Tidy (pre ++ left :: post) ∧ cover (pre ++ left :: post) = cover (pre ++ s :: post) \
    {a | a ∈ n} := by
  constructor
  · refine h.remove.middle hleft (fun p hp ↦ ?_) fun q hq ↦ ?_
    · exact (h.before hp).trans_le hlo
    · exact hhi.trans_lt (h.after hq)
  · ext a
    have hsub : a ∈ left → a ∈ s := fun ha ↦ ⟨hlo.trans ha.1, ha.2.trans_le hhi⟩
    rw [Set.mem_sdiff, mem_cover_middle, mem_cover_middle, Set.mem_ofPred_eq]
    by_cases ha : a ∈ s
    · have := h.not_mem_rest ha
      simp only [this, or_false, hpart a ha, ha, true_and]
    · simp only [mt hsub ha, ha, mt (hn a) ha, not_false_eq_true, and_true]

/-- **A whole span is taken out.** -/
theorem Tidy.cover_remove (h : Tidy (pre ++ s :: post)) :
    cover (pre ++ post) = cover (pre ++ s :: post) \ {a | a ∈ s} := by
  ext a
  rw [Set.mem_sdiff, mem_cover_middle, Set.mem_ofPred_eq]
  by_cases ha : a ∈ s
  · simp only [h.not_mem_rest ha, ha, not_true_eq_false, and_false]
  · simp only [ha, false_or, not_false_eq_true, and_true]

end Span
