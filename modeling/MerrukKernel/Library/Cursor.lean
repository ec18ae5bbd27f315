import MerrukKernel.Library.Tiling
import Mathlib.Order.Lattice

/-!
# Cursors in an ordered list

A list is kept in ascending order of a key, no key twice, and two cursors point into it, around a
pivot: the first element at or above the pivot and the last one below it. The cursors are not
searched for; they follow the neighbours of what is inserted and erased.

The traversal of a search tree is such a list: `insert?` is insertion that gives up at an element
with the same key. The neighbours of an element are those of `Library.Tiling`.

## The rules

* `At.insert` — an element is inserted and one cursor may move to it;
* `At.erase` — an element is erased and a cursor that points to it moves to its neighbour,
  whatever has become of the key of the erased element;
* `At.repivot` — an element is erased and its key becomes the pivot, between its neighbours;
* `At.isNext`, `At.isPrev` — what the cursors point to.
-/

open List

namespace Cursor

open Tiling

variable {α κ : Type*}

/-- An element is inserted, unless there is one with its key, which is the result then. -/
def insert? [LinearOrder κ] (key : α → κ) (x : α) : List α → α ⊕ List α
  | [] => .inr [x]
  | y :: l =>
    if key x < key y then .inr (x :: y :: l)
    else if key y < key x then (insert? key x l).map id (y :: ·)
    else .inl y

variable [LinearOrder κ] {key key' : α → κ} {pivot : κ} {x y r : α} {l l' b a : List α}
  {next prev : Option α}

/-! ### Ascending lists -/

/-- In ascending order, no key twice. -/
def Ascending (key : α → κ) (l : List α) : Prop := l.Pairwise (key · < key ·)

theorem Ascending.nodup (h : Ascending key l) : l.Nodup :=
  List.Pairwise.imp (fun hlt heq ↦ (heq ▸ hlt).false) h

theorem ascending_append_cons : Ascending key (b ++ x :: a) ↔
    Ascending key b ∧ Ascending key a ∧ (∀ y ∈ b, key y < key x) ∧ (∀ y ∈ a, key x < key y) ∧
      ∀ y ∈ b, ∀ z ∈ a, key y < key z := by
  rw [Ascending, pairwise_append, pairwise_cons]
  simp only [mem_cons, forall_eq_or_imp]
  constructor
  · rintro ⟨hb, ⟨hxa, ha⟩, hba⟩
    exact ⟨hb, ha, fun y hy ↦ (hba y hy).1, hxa, fun y hy ↦ (hba y hy).2⟩
  · rintro ⟨hb, ha, hbx, hxa, hba⟩
    exact ⟨hb, ⟨hxa, ha⟩, fun y hy ↦ ⟨hbx y hy, hba y hy⟩⟩

/-- An element of an ascending list divides it. -/
theorem Ascending.split (h : Ascending key l) (hx : x ∈ l) :
    ∃ b a, l = b ++ x :: a ∧ x ∉ b ∧ x ∉ a := by
  obtain ⟨b, a, rfl⟩ := append_of_mem hx
  obtain ⟨-, -, hbx, hxa, -⟩ := ascending_append_cons.1 h
  exact ⟨b, a, rfl, fun hb ↦ (hbx x hb).false, fun ha ↦ (hxa x ha).false⟩

theorem Ascending.eq_of_key_eq (h : Ascending key l) (hx : x ∈ l) (hy : y ∈ l)
    (hkey : key y = key x) : y = x := by
  obtain ⟨b, a, rfl, -, -⟩ := h.split hx
  obtain ⟨-, -, hbx, hxa, -⟩ := ascending_append_cons.1 h
  rcases mem_append.1 hy with hb | ha
  · exact absurd hkey (hbx y hb).ne
  · grind

theorem Ascending.append (h : Ascending key (b ++ x :: a)) : Ascending key (b ++ a) := by
  obtain ⟨hb, ha, -, -, hba⟩ := ascending_append_cons.1 h
  exact pairwise_append.2 ⟨hb, ha, hba⟩

theorem Ascending.congr (h : Ascending key l) (hkey : ∀ y ∈ l, key' y = key y) : Ascending key' l :=
  h.imp_of_mem fun {y z} hy hz hlt ↦ by rwa [hkey y hy, hkey z hz]

/-! ### Insertion -/

theorem insert?_eq_inl (h : insert? key x l = .inl y) : y ∈ l ∧ key y = key x := by
  induction l with
  | nil => cases h
  | cons z l ih =>
    rw [insert?] at h
    split at h
    · cases h
    · next hxz =>
      split at h
      · cases hrest : insert? key x l with
        | inl w => grind
        | inr l' => rw [hrest] at h; cases h
      · grind

theorem insert?_eq_inr (hasc : Ascending key l) (h : insert? key x l = .inr l') :
    ∃ b a, l = b ++ a ∧ l' = b ++ x :: a ∧ (∀ y ∈ b, key y < key x) ∧ ∀ y ∈ a, key x < key y := by
  induction l generalizing l' with
  | nil =>
    obtain rfl := Sum.inr.inj h
    exact ⟨[], [], rfl, rfl, by simp, by simp⟩
  | cons z l ih =>
    obtain ⟨hz, hl⟩ := pairwise_cons.1 hasc
    rw [insert?] at h
    split at h
    · next hxz =>
      obtain rfl := Sum.inr.inj h
      refine ⟨[], z :: l, rfl, rfl, by simp, fun y hy ↦ ?_⟩
      rcases mem_cons.1 hy with rfl | hy
      · exact hxz
      · exact hxz.trans (hz y hy)
    · split at h
      · next hzx =>
        cases hrest : insert? key x l with
        | inl w => rw [hrest] at h; cases h
        | inr l'' =>
          rw [hrest] at h
          obtain rfl := Sum.inr.inj h
          obtain ⟨b, a, rfl, rfl, hb, ha⟩ := ih hl hrest
          refine ⟨z :: b, a, rfl, rfl, fun y hy ↦ ?_, ha⟩
          rcases mem_cons.1 hy with rfl | hy
          · exact hzx
          · exact hb y hy
      · cases h

/-! ### Cursors -/

/-- The cursors are around the pivot. -/
structure At (key : α → κ) (pivot : κ) (l : List α) (next prev : Option α) : Prop where
  ascending : Ascending key l
  next_eq : next = (l.filter fun y ↦ pivot ≤ key y).head?
  prev_eq : prev = (l.filter fun y ↦ key y < pivot).getLast?

/-- What the next cursor is to point to. -/
def IsNext (key : α → κ) (pivot : κ) (l : List α) : Option α → Prop
  | none => ∀ y ∈ l, key y < pivot
  | some r => r ∈ l ∧ pivot ≤ key r ∧ ∀ y ∈ l, pivot ≤ key y → key r ≤ key y

/-- What the previous cursor is to point to. -/
def IsPrev (key : α → κ) (pivot : κ) (l : List α) : Option α → Prop
  | none => ∀ y ∈ l, pivot ≤ key y
  | some r => r ∈ l ∧ key r < pivot ∧ ∀ y ∈ l, key y < pivot → key y ≤ key r

theorem At.isNext (h : At key pivot l next prev) : IsNext key pivot l next := by
  rw [h.next_eq]
  cases hf : l.filter fun y ↦ pivot ≤ key y with
  | nil =>
    intro y hy
    rw [filter_eq_nil_iff] at hf
    simpa using hf y hy
  | cons r f =>
    have hr : r ∈ l.filter fun y ↦ pivot ≤ key y := by rw [hf]; exact mem_cons_self ..
    rw [mem_filter, decide_eq_true_eq] at hr
    refine ⟨hr.1, hr.2, fun y hy hle ↦ ?_⟩
    have hasc : Ascending key (r :: f) := hf ▸ List.Pairwise.filter _ h.ascending
    have hy : y ∈ r :: f := by grind
    rcases mem_cons.1 hy with rfl | hy
    · exact le_rfl
    · exact ((pairwise_cons.1 hasc).1 y hy).le

theorem At.isPrev (h : At key pivot l next prev) : IsPrev key pivot l prev := by
  rw [h.prev_eq]
  cases hf : (l.filter fun y ↦ key y < pivot).getLast? with
  | none =>
    intro y hy
    rw [List.getLast?_eq_none_iff, filter_eq_nil_iff] at hf
    simpa using hf y hy
  | some r =>
    obtain ⟨f, hf⟩ := List.getLast?_eq_some_iff.1 hf
    have hr : r ∈ l.filter fun y ↦ key y < pivot := by rw [hf]; simp
    rw [mem_filter, decide_eq_true_eq] at hr
    refine ⟨hr.1, hr.2, fun y hy hlt ↦ ?_⟩
    have hasc : Ascending key (f ++ [r]) := hf ▸ List.Pairwise.filter _ h.ascending
    have hy : y ∈ f ++ [r] := by grind
    rcases mem_append.1 hy with hy | hy
    · exact ((pairwise_append.1 hasc).2.2 y hy r (by simp)).le
    · rw [mem_singleton.1 hy]

theorem At.nil (pivot : κ) : At key pivot [] none none := ⟨List.Pairwise.nil, rfl, rfl⟩

theorem At.congr (h : At key pivot l next prev) (hkey : ∀ y ∈ l, key' y = key y) :
    At key' pivot l next prev := by
  refine ⟨h.ascending.congr hkey, h.next_eq.trans ?_, h.prev_eq.trans ?_⟩
  · exact congrArg List.head? (filter_congr fun y hy ↦ by rw [hkey y hy])
  · exact congrArg List.getLast? (filter_congr fun y hy ↦ by rw [hkey y hy])

/-- The cursors are never on the same element. -/
theorem At.ne (h : At key pivot l next prev) (hnext : next = some x) (hprev : prev = some y) :
    key y < key x := by
  have hx := h.isNext
  have hy := h.isPrev
  rw [hnext] at hx
  rw [hprev] at hy
  exact hy.2.1.trans_le hx.2.1

/-- **An element is inserted**: at or above the pivot it may become the next one, below it may
become the previous one. -/
theorem At.insert (h : At key pivot l next prev) (hins : insert? key x l = .inr l') :
    At key pivot l'
      (if pivot ≤ key x ∧ ∀ r, next = some r → key x < key r then some x else next)
      (if key x < pivot ∧ ∀ r, prev = some r → key r < key x then some x else prev) := by
  obtain ⟨b, a, rfl, rfl, hb, ha⟩ := insert?_eq_inr h.ascending hins
  obtain ⟨hasc, hnext, hprev⟩ := h
  refine ⟨?_, ?_, ?_⟩
  · obtain ⟨h1, h2, h3⟩ := pairwise_append.1 hasc
    exact ascending_append_cons.2 ⟨h1, h2, hb, ha, h3⟩
  · rw [filter_append] at hnext
    rw [filter_append]
    by_cases hx : pivot ≤ key x
    · rw [filter_cons_of_pos (by simpa using hx)]
      cases hfb : b.filter fun y ↦ pivot ≤ key y with
      | nil =>
        -- what was next is behind the new element
        rw [hfb] at hnext
        have hlow : ∀ r, next = some r → key x < key r := fun r hr ↦
          ha r (mem_filter.1 (mem_of_mem_head? (hnext.symm.trans hr))).1
        exact if_pos ⟨hx, hlow⟩
      | cons r f => grind
    · grind
  · rw [filter_append] at hprev
    rw [filter_append]
    by_cases hx : key x < pivot
    · rw [filter_cons_of_pos (by simpa using hx)]
      cases hfa : (a.filter fun y ↦ key y < pivot).getLast? with
      | none =>
        rw [List.getLast?_eq_none_iff] at hfa
        rw [hfa, append_nil] at hprev
        have hhigh : ∀ r, prev = some r → key r < key x := fun r hr ↦
          hb r (mem_filter.1 (mem_of_mem_getLast? (hprev.symm.trans hr))).1
        rw [hfa, if_pos ⟨hx, hhigh⟩, List.getLast?_concat]
      | some r => grind
    · grind

variable [DecidableEq α]

/-- **An element is erased**, after its key may have changed: a cursor on it moves to its
neighbour. -/
theorem At.erase (h : At key pivot l next prev) (hx : x ∈ l)
    (hkey : ∀ y ∈ l, y ≠ x → key' y = key y) :
    At key' pivot (l.erase x) (if next = some x then next? l x else next)
      (if next ≠ some x ∧ prev = some x then prev? l x else prev) := by
  obtain ⟨b, a, rfl, hxb, hxa⟩ := h.ascending.split hx
  obtain ⟨hasc, hnext, hprev⟩ := h
  rw [erase_split hxb]
  obtain ⟨-, -, hbx, hxa', -⟩ := ascending_append_cons.1 hasc
  have hsame : ∀ y ∈ b ++ a, key' y = key y := by
    intro y hy
    refine hkey y ?_ ?_
    · grind
    · grind
  have hfilter : ∀ p : κ → Bool, (b ++ a).filter (fun y ↦ p (key' y)) =
      b.filter (fun y ↦ p (key y)) ++ a.filter fun y ↦ p (key y) := by
    intro p
    rw [← filter_append]
    exact filter_congr fun y hy ↦ by rw [hsame y hy]
  rw [filter_append] at hnext
  refine ⟨hasc.append.congr hsame, ?_, ?_⟩
  · rw [hfilter fun k ↦ pivot ≤ k]
    split
    · next hn =>
      -- everything behind the next element is above the pivot, and nothing in front of it
      rw [hn] at hnext
      rw [next?_split hxb]
      have hpx : pivot ≤ key x := by
        have hmem := mem_of_mem_head? (Eq.symm hnext)
        rcases mem_append.1 hmem with hm | hm
        · exact absurd (mem_filter.1 hm).1 hxb
        · grind
      have hfb : b.filter (fun y ↦ pivot ≤ key y) = [] := by
        cases hfb : b.filter fun y ↦ pivot ≤ key y with
        | nil => rfl
        | cons r f => grind
      have hfa : a.filter (fun y ↦ pivot ≤ key y) = a :=
        filter_eq_self.2 fun y hy ↦ decide_eq_true (hpx.trans (hxa' y hy).le)
      rw [hfb, hfa, nil_append]
    · next hn =>
      rw [hnext]
      cases hfb : b.filter fun y ↦ pivot ≤ key y with
      | cons r f => rfl
      | nil => grind
  · rw [hfilter fun k ↦ k < pivot]
    split
    · next hp =>
      rw [prev?_split hasc.nodup]
      have hpx : key x < pivot := by grind
      have hfa : a.filter (fun y ↦ key y < pivot) = [] := by grind
      have hfb : b.filter (fun y ↦ key y < pivot) = b :=
        filter_eq_self.2 fun y hy ↦ decide_eq_true ((hbx y hy).trans hpx)
      rw [hfa, hfb, append_nil]
    · grind

/-- **An element is erased and its key becomes the pivot.** -/
theorem At.repivot (h : Ascending key l) (hx : x ∈ l) :
    At key (key x) (l.erase x) (next? l x) (prev? l x) := by
  obtain ⟨b, a, rfl, hxb, hxa⟩ := h.split hx
  obtain ⟨-, -, hbx, hxa', -⟩ := ascending_append_cons.1 h
  rw [erase_split hxb, next?_split hxb, prev?_split h.nodup]
  refine ⟨h.append, ?_, ?_⟩
  · rw [filter_append, filter_eq_nil_iff.2 (fun y hy ↦ by simpa using hbx y hy),
      filter_eq_self.2 (fun y hy ↦ by simpa using (hxa' y hy).le), nil_append]
  · rw [filter_append, filter_eq_self.2 (fun y hy ↦ by simpa using hbx y hy),
      filter_eq_nil_iff.2 (fun y hy ↦ by simpa using (hxa' y hy).le), append_nil]

end Cursor
