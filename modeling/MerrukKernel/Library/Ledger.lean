import Mathlib.Algebra.Order.BigOperators.Group.List
import Mathlib.Algebra.Order.Group.Int
import Mathlib.Algebra.Ring.Int.Defs

/-!
# Ledgers

A ledger is a list of entries that are looked up, changed and struck out by a test on the entry, the
first one that passes it. What matters of a ledger is not the order of its entries but its totals:
for any amount read off an entry, the sum over all of them.

* `modifyFirst q f l` changes the first entry that passes `q`; looking up is `List.find?`, striking
  out is `List.eraseP`;
* `total g l` is the sum of `g` over the entries, and `total_modifyFirst`, `total_eraseP` say by
  what the two operations change every total.
-/

namespace Ledger

open List

variable {α : Type*}

/-- Change the first entry that passes the test. -/
def modifyFirst (q : α → Bool) (f : α → α) : List α → List α
  | [] => []
  | x :: l => if q x then f x :: l else x :: modifyFirst q f l

/-- The sum of an amount over all entries. -/
def total (g : α → ℤ) (l : List α) : ℤ := (l.map g).sum

@[simp] theorem total_nil (g : α → ℤ) : total g [] = 0 := rfl

@[simp] theorem total_cons (g : α → ℤ) (x : α) (l : List α) :
    total g (x :: l) = g x + total g l := by
  simp [total]

@[simp] theorem total_append (g : α → ℤ) (l l' : List α) :
    total g (l ++ l') = total g l + total g l' := by
  simp [total]

variable {l : List α} {q : α → Bool} {x : α} {g : α → ℤ} {f : α → α}

theorem modifyFirst_append {pre post : List α} (hpre : ∀ y ∈ pre, (!q y) = true) (hx : q x = true) :
    modifyFirst q f (pre ++ x :: post) = pre ++ f x :: post := by
  induction pre with
  | nil => simp [modifyFirst, hx]
  | cons y pre ih => simp_all [modifyFirst]

theorem eraseP_append {pre post : List α} (hpre : ∀ y ∈ pre, (!q y) = true) (hx : q x = true) :
    (pre ++ x :: post).eraseP q = pre ++ post := by
  rw [eraseP_append_right _ (by simpa using hpre), eraseP_cons_of_pos hx]

/-- **A change of one entry** shows in every total as the change of its amount. -/
theorem total_modifyFirst (h : l.find? q = some x) (f : α → α)
    (g : α → ℤ) : total g (modifyFirst q f l) = total g l - g x + g (f x) := by
  obtain ⟨hx, pre, post, rfl, hpre⟩ := find?_eq_some_iff_append.1 h
  rw [modifyFirst_append hpre hx]
  simp only [total_append, total_cons]
  omega

/-- **Striking out an entry** takes its amount off every total. -/
theorem total_eraseP (h : l.find? q = some x) (g : α → ℤ) :
    total g (l.eraseP q) = total g l - g x := by
  obtain ⟨hx, pre, post, rfl, hpre⟩ := find?_eq_some_iff_append.1 h
  rw [eraseP_append hpre hx]
  simp only [total_append, total_cons]
  omega

theorem total_nonneg (h : ∀ x ∈ l, 0 ≤ g x) : 0 ≤ total g l := by
  induction l with
  | nil => simp
  | cons y l ih => grind [total_cons]

theorem total_congr {g' : α → ℤ} (h : ∀ x ∈ l, g x = g' x) : total g l = total g' l := by
  induction l with
  | nil => rfl
  | cons y l ih =>
    rw [total_cons, total_cons, h y (by simp), ih fun x hx ↦ h x (by simp [hx])]

/-- A total of ones and nothing is a number of entries. -/
theorem total_eq_length_filter (l : List α)
    (hg : ∀ x, g x = if q x = true then 1 else 0) : total g l = (l.filter q).length := by
  induction l with
  | nil => rfl
  | cons y l ih =>
    rw [total_cons, ih, hg]
    by_cases hy : q y = true
    · grind
    · simp [hy]

theorem total_filter (g : α → ℤ) (q : α → Bool) (l : List α) :
    total g (l.filter q) = total (fun x ↦ if q x = true then g x else 0) l := by
  induction l with
  | nil => rfl
  | cons y l ih =>
    by_cases hy : q y = true
    · simp [hy, ih]
    · simp [hy, ih]

/-- An entry contributes to a total of amounts that are never negative. -/
theorem le_total (h : ∀ x ∈ l, 0 ≤ g x) (hx : x ∈ l) : g x ≤ total g l := by
  obtain ⟨pre, post, rfl⟩ := append_of_mem hx
  have h1 := total_nonneg (l := pre) fun y hy ↦ h y (by simp [hy])
  have h2 := total_nonneg (l := post) fun y hy ↦ h y (by simp [hy])
  rw [total_append, total_cons]
  omega

/-- Nothing passes the test that the amount depends on. -/
theorem total_eq_zero (hg : ∀ x, q x = false → g x = 0) (h : l.find? q = none) : total g l = 0 := by
  have hzero : total g l = total (fun _ ↦ 0) l :=
    total_congr fun x hx ↦ hg x (by simpa using find?_eq_none.1 h x hx)
  rw [hzero]
  simp [total]

/-- One entry at most passes the test that the amount depends on. -/
theorem total_eq_of_unique
    (hg : ∀ x, q x = false → g x = 0) (hl : l.Pairwise fun x y ↦ ¬ (q x = true ∧ q y = true))
    (h : l.find? q = some x) : total g l = g x := by
  obtain ⟨hx, pre, post, rfl, hpre⟩ := find?_eq_some_iff_append.1 h
  have hpost : post.find? q = none := find?_eq_none.2 fun y hy hq ↦
    (pairwise_cons.1 (pairwise_append.1 hl).2.1).1 y hy ⟨hx, hq⟩
  rw [total_append, total_cons, total_eq_zero hg hpost,
    total_eq_zero hg (find?_eq_none.2 (by simpa using hpre)), zero_add, add_zero]

/-- A change that does not show in `g` does not show in the list of its values. -/
theorem map_modifyFirst {β : Type*} (h : l.find? q = some x) (g : α → β) (hg : g (f x) = g x) :
    (modifyFirst q f l).map g = l.map g := by
  obtain ⟨hx, pre, post, rfl, hpre⟩ := find?_eq_some_iff_append.1 h
  simp [modifyFirst_append hpre hx, hg]

/-- A changed entry is found where it was, if the change does not matter to the test. -/
theorem find?_modifyFirst (h : l.find? q = some x) (hf : q (f x) = true) :
    (modifyFirst q f l).find? q = some (f x) := by
  obtain ⟨hx, pre, post, rfl, hpre⟩ := find?_eq_some_iff_append.1 h
  rw [modifyFirst_append hpre hx]
  exact find?_eq_some_iff_append.2 ⟨hf, pre, post, rfl, hpre⟩

/-- Striking out an entry that was changed is striking it out. -/
theorem eraseP_modifyFirst (h : l.find? q = some x) (hf : q (f x) = true) :
    (modifyFirst q f l).eraseP q = l.eraseP q := by
  obtain ⟨hx, pre, post, rfl, hpre⟩ := find?_eq_some_iff_append.1 h
  rw [modifyFirst_append hpre hx, eraseP_append hpre hf, eraseP_append hpre hx]

theorem mem_modifyFirst {y : α}
    (h : y ∈ modifyFirst q f l) : y ∈ l ∨ ∃ x, l.find? q = some x ∧ y = f x := by
  induction l with
  | nil => simp [modifyFirst] at h
  | cons x l ih =>
    by_cases hx : q x = true
    · simp only [modifyFirst, hx, if_true, mem_cons] at h
      rcases h with rfl | h
      · exact .inr ⟨x, by simp [hx], rfl⟩
      · exact .inl (by simp [h])
    · simp only [modifyFirst, hx, Bool.false_eq_true, if_false, mem_cons] at h
      rcases h with rfl | h
      · exact .inl (by simp)
      · grind

end Ledger
