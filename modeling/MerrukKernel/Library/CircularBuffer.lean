import Mathlib.Data.List.Basic
import Mathlib.Data.Nat.ModEq

/-!
# Circular arrays

A circular array of capacity `n` is a function on natural numbers of which only the cells below `n`
are meant; positions are taken modulo `n`. Nothing here depends on what is stored, or on how a
program keeps its read and write positions.

* `window n buf r k` — the `k` cells read in order from position `r`;
* `Writes n buf r src buf'` — `buf'` is `buf` with the list `src` stored from position `r` on, and
  every cell not addressed by it left alone.

The two facts a consumer needs are `Writes.window_self` (what was stored is what is read back) and
`Writes.window_before` (a window that ends where the write begins is unaffected, as long as the two
together do not exceed the capacity). Together they give `Writes.window_append`: writing at the end
of a window appends to it.
-/

open List

namespace CircularBuffer

variable {α : Type*} {n : ℕ}

/-- The `k` cells read in order from position `r`. -/
def window (n : ℕ) (buf : ℕ → α) (r k : ℕ) : List α :=
  (List.range k).map fun i ↦ buf ((r + i) % n)

section

variable (buf : ℕ → α)

@[simp] theorem length_window (r k : ℕ) : (window n buf r k).length = k := by
  simp [window]

theorem window_add (r j k : ℕ) :
    window n buf r (j + k) = window n buf r j ++ window n buf (r + j) k := by
  simp only [window, range_add, map_append, map_map]
  congr 1
  refine map_congr_left fun i _ ↦ ?_
  simp [Nat.add_assoc]

theorem window_succ (r k : ℕ) : window n buf r (k + 1) = buf (r % n) :: window n buf (r + 1) k := by
  rw [Nat.add_comm k 1, window_add]
  rfl

theorem take_window (r : ℕ) {j k : ℕ} (h : j ≤ k) :
    (window n buf r k).take j = window n buf r j := by
  rw [window, ← map_take, take_range, Nat.min_eq_left h]
  rfl

end

/-- A window depends only on its cells. -/
theorem window_congr {buf buf' : ℕ → α} {r k : ℕ}
    (h : ∀ i < k, buf ((r + i) % n) = buf' ((r + i) % n)) :
    window n buf r k = window n buf' r k :=
  map_congr_left fun i hi ↦ h i (mem_range.1 hi)

/-- The starting position matters only modulo the capacity. -/
theorem window_of_modEq (buf : ℕ → α) {r s : ℕ} (h : r % n = s % n) (k : ℕ) :
    window n buf r k = window n buf s k := by
  refine map_congr_left fun i _ ↦ ?_
  rw [Nat.add_mod r, h, ← Nat.add_mod]

@[simp] theorem window_mod (buf : ℕ → α) (r k : ℕ) : window n buf (r % n) k = window n buf r k :=
  window_of_modEq buf (Nat.mod_mod r n) k

/-- Two positions less than one lap apart address different cells. -/
theorem add_mod_ne {r i j : ℕ} (hij : i < j) (hj : j < i + n) : (r + i) % n ≠ (r + j) % n := by
  intro h
  have hd : n ∣ (r + j) - (r + i) := (Nat.modEq_iff_dvd' (by omega)).1 h
  exact absurd (Nat.le_of_dvd (by omega) hd) (by omega)

/-- `buf'` is `buf` with `src` stored from position `r` on. -/
structure Writes (n : ℕ) (buf : ℕ → α) (r : ℕ) (src : List α) (buf' : ℕ → α) : Prop where
  window_self : window n buf' r src.length = src
  /-- Cells the write does not address keep their contents. -/
  frame : ∀ j, (∀ i < src.length, j ≠ (r + i) % n) → buf' j = buf j

namespace Writes

variable {buf buf' buf'' : ℕ → α} {r : ℕ} {src src' : List α}

theorem nil (buf : ℕ → α) (r : ℕ) : Writes n buf r [] buf := ⟨rfl, fun _ _ ↦ rfl⟩

/-- One cell. -/
theorem single (buf : ℕ → α) (r : ℕ) (x : α) :
    Writes n buf r [x] (Function.update buf (r % n) x) where
  window_self := by simp [window]
  frame j hj := Function.update_of_ne (by simpa using hj 0 (by simp)) _ _

section

variable {s k : ℕ} (h : Writes n buf r src buf') (hs : (s + k) % n = r % n)
  (hk : k + src.length ≤ n)
include h hs hk

/-- **Framing**: a window ending where the write begins is unaffected, if both fit in one lap. -/
theorem window_before : window n buf' s k = window n buf s k := by
  refine window_congr fun i hi ↦ h.frame _ fun j hj ↦ ?_
  have hr : (r + j) % n = (s + (k + j)) % n := by
    rw [Nat.add_mod r, ← hs, ← Nat.add_mod, Nat.add_assoc]
  rw [hr]
  exact add_mod_ne (by omega) (by omega)

/-- **Appending**: a write at the end of a window extends the window by what was written. -/
theorem window_append : window n buf' s (k + src.length) = window n buf s k ++ src := by
  rw [window_add, h.window_before hs hk, window_of_modEq buf' hs, h.window_self]

end

theorem trans (h : Writes n buf r src buf') (h' : Writes n buf' (r + src.length) src' buf'')
    (hn : src.length + src'.length ≤ n) : Writes n buf r (src ++ src') buf'' where
  window_self := by
    rw [length_append, h'.window_append rfl hn, h.window_self]
  frame j hj := by
    rw [h'.frame j fun i hi ↦ ?_, h.frame j fun i hi ↦ hj i (by simp; omega)]
    have := hj (src.length + i) (by simp; omega)
    rwa [← Nat.add_assoc] at this

/-- The position of a write matters only modulo the capacity. -/
theorem of_modEq (h : Writes n buf r src buf') {s : ℕ} (hs : r % n = s % n) :
    Writes n buf s src buf' where
  window_self := by rw [← window_of_modEq buf' hs, h.window_self]
  frame j hj := h.frame j fun i hi ↦ by
    rw [Nat.add_mod r, hs, ← Nat.add_mod]
    exact hj i hi

/-- Two writes, the second from the start of the array, make one write across its end. -/
theorem wrap (h : Writes n buf r src buf') (h' : Writes n buf' 0 src' buf'')
    (hend : r + src.length = n) (hn : src.length + src'.length ≤ n) :
    Writes n buf r (src ++ src') buf'' :=
  h.trans (h'.of_modEq (by rw [hend, Nat.mod_self, Nat.zero_mod])) hn

end Writes

/-! ### Contiguous cells -/

/-- The `k` cells from `r` on, without wrapping. -/
def slice (buf : ℕ → α) (r k : ℕ) : List α := (List.range k).map fun i ↦ buf (r + i)

/-- Overwrite the cells from `r` on, without wrapping. -/
def store (buf : ℕ → α) (r : ℕ) (src : List α) : ℕ → α :=
  fun j ↦ if r ≤ j then (src[j - r]?).getD (buf j) else buf j

variable (buf : ℕ → α)

@[simp] theorem length_slice (r k : ℕ) : (slice buf r k).length = k := by
  simp [slice]

theorem slice_eq_window {r k : ℕ} (h : r + k ≤ n) : slice buf r k = window n buf r k :=
  map_congr_left fun i hi ↦ by
    rw [Nat.mod_eq_of_lt]
    have := mem_range.1 hi
    omega

/-- A window that runs over the end is two slices. -/
theorem slice_append_slice {r k : ℕ} (hr : r < n) (hk : k ≤ n) :
    slice buf r (min k (n - r)) ++ slice buf 0 (k - min k (n - r)) = window n buf r k := by
  rcases Nat.le_total k (n - r) with h | h
  · rw [Nat.min_eq_left h, slice_eq_window (n := n) buf (by omega)]
    simp [slice]
  · have hsplit : k = (n - r) + (k - (n - r)) := by omega
    have hend : (r + (n - r)) % n = 0 % n := by
      rw [Nat.add_sub_cancel' hr.le, Nat.mod_self, Nat.zero_mod]
    rw [Nat.min_eq_right h, slice_eq_window (n := n) buf (by omega),
      slice_eq_window (n := n) buf (by omega), ← window_of_modEq buf hend, ← window_add, ← hsplit]

/-- Overwriting cells inside the array. -/
theorem writes_store {r : ℕ} {src : List α} (h : r + src.length ≤ n) :
    Writes n buf r src (store buf r src) where
  window_self := by
    rw [← slice_eq_window _ h]
    refine ext_getElem (by simp) fun i hi hi' ↦ ?_
    simp [slice, store, hi']
  frame j hj := by
    unfold store
    split_ifs with hr
    · rw [List.getElem?_eq_none, Option.getD_none]
      by_contra hlt
      refine hj (j - r) (by omega) ?_
      rw [Nat.mod_eq_of_lt (by omega)]
      omega
    · rfl

/-- Overwriting cells up to the end of the array and on from its start. -/
theorem writes_store_append {r : ℕ} {a b : List α} (ha : r + a.length ≤ n)
    (hb : b ≠ [] → r + a.length = n) (h : a.length + b.length ≤ n) :
    Writes n buf r (a ++ b) (store (store buf r a) 0 b) := by
  rcases eq_or_ne b [] with rfl | hne
  · rw [append_nil]
    exact writes_store buf ha
  · exact (writes_store buf ha).wrap (writes_store _ (by omega)) (hb hne) h

theorem writes_store_store {r : ℕ} {src : List α} (hr : r < n) (h : src.length ≤ n) :
    Writes n buf r src (store (store buf r (src.take (n - r))) 0 (src.drop (n - r))) := by
  have hboth : Writes n buf r (src.take (n - r) ++ src.drop (n - r)) _ :=
    writes_store_append buf (by simp; omega) (fun hne ↦ ?_) (by simp; omega)
  · rwa [take_append_drop] at hboth
  · have hlt := length_pos_of_ne_nil hne
    simp at hlt ⊢
    omega

end CircularBuffer
