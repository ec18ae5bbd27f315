import Mathlib.Data.List.Nodup
import Mathlib.Data.List.Count

/-!
# Items in places

A system moves items between containers, and each item is to be in exactly one of them. Rather than
comparing the containers with one another, compare each of them with one **placement**
`loc : α → κ`, a function from items to places: `Lists loc x l` says that the container `l` lists,
each once, the items placed at `x`. Two containers at different places are then disjoint for free,
and moving an item is one update of the placement, which every other container survives
(`Lists.frame`).
-/

namespace Placement

open Function

variable {α κ : Type*} {loc : α → κ} {x y : κ} {l : List α} {b : α}

/-- The list `l` holds exactly the items placed at `x`, each once. -/
structure Lists (loc : α → κ) (x : κ) (l : List α) : Prop where
  nodup : l.Nodup
  mem_iff : ∀ a, a ∈ l ↔ loc a = x

/-- A container only depends on which items are placed in it. -/
theorem Lists.congr {loc' : α → κ} (h : Lists loc x l) (hloc : ∀ a, loc' a = x ↔ loc a = x) :
    Lists loc' x l :=
  ⟨h.nodup, fun a ↦ (h.mem_iff a).trans (hloc a).symm⟩

variable [DecidableEq α]

/-- An item moving between two other places leaves a container alone. -/
theorem Lists.frame (h : Lists loc x l) (hb : loc b ≠ x) (hy : y ≠ x) :
    Lists (update loc b y) x l := by
  refine h.congr fun a ↦ ?_
  rcases eq_or_ne a b with rfl | hne
  · simp [hb, hy]
  · rw [update_of_ne hne]

/-- An item moves in at the back. -/
theorem Lists.add (h : Lists loc x l) (hb : loc b ≠ x) : Lists (update loc b x) x (l ++ [b]) := by
  have hnew : b ∉ l := fun hmem ↦ hb ((h.mem_iff b).1 hmem)
  refine ⟨List.Nodup.append h.nodup (List.nodup_singleton b) (by simpa using hnew), fun a ↦ ?_⟩
  rcases eq_or_ne a b with rfl | hne
  · simp
  · simp [hne, h.mem_iff]

/-- An item moves out at the front. -/
theorem Lists.tail (h : Lists loc x (b :: l)) (hy : y ≠ x) : Lists (update loc b y) x l := by
  obtain ⟨hnew, hnodup⟩ := List.nodup_cons.1 h.nodup
  refine ⟨hnodup, fun a ↦ ?_⟩
  rcases eq_or_ne a b with rfl | hne
  · simp [hnew, hy]
  · rw [update_of_ne hne, ← h.mem_iff a, List.mem_cons, or_iff_right hne]

/-- An item moves out from anywhere. -/
theorem Lists.erase (h : Lists loc x l) (hy : y ≠ x) : Lists (update loc b y) x (l.erase b) := by
  refine ⟨h.nodup.erase b, fun a ↦ ?_⟩
  rcases eq_or_ne a b with rfl | hne
  · simp [h.nodup.mem_erase_iff, hy]
  · rw [update_of_ne hne, List.mem_erase_of_ne hne, h.mem_iff a]

/-- Between two families of containers, the item `b` moves from the place `x` to the back of `y`;
only the places in `P` are looked at. -/
structure Move (P : κ → Prop) (c c' : κ → List α) (x y : κ) (b : α) : Prop where
  source : c' x = (c x).erase b
  target : c' y = c y ++ [b]
  other : ∀ z, P z → z ≠ x → z ≠ y → c' z = c z

/-- **A move keeps every container in agreement with the placement.** -/
theorem Lists.move {P : κ → Prop} {c c' : κ → List α} (hm : Move P c c' x y b) (hxy : x ≠ y)
    (hb : loc b = x) {z : κ} (hz : P z) (h : Lists loc z (c z)) :
    Lists (update loc b y) z (c' z) := by
  by_cases hzx : z = x
  · subst hzx
    exact hm.source ▸ h.erase hxy.symm
  · by_cases hzy : z = y
    · grind [hm.target, h.add]
    · exact hm.other z hz hzx hzy ▸ h.frame (hb ▸ Ne.symm hzx) (Ne.symm hzy)

/-- How often an item occurs in a container. -/
theorem Lists.count_eq [DecidableEq κ] (h : Lists loc x l) (a : α) :
    l.count a = if loc a = x then 1 else 0 := by
  split
  · rename_i hx
    exact List.count_eq_one_of_mem h.nodup ((h.mem_iff a).2 hx)
  · rename_i hx
    exact List.count_eq_zero_of_not_mem fun hmem ↦ hx ((h.mem_iff a).1 hmem)

end Placement
