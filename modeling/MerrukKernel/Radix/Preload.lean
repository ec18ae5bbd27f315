import MerrukKernel.Radix.Model
import Mathlib.Tactic.Ring

/-!
# A preloaded pool is too small

One insertion may put nodes above the root, as many as the index needs, and then build a path of
new nodes down to its slot. `radix_tree_preload` fills the pool of the CPU with as many nodes as
one path has, so the insertion may run out of them: it does so exactly if the tree is not empty
and the index is too high for its height.
-/

namespace Radix.Config

variable {α : Type} {c : Config} {root : Root α} {m m' : Memory} {index h n nr : ℕ} {a : α}

/-! ### Heights -/

theorem maxindex_mono {k : ℕ} (hle : h ≤ k) : c.maxindex h ≤ c.maxindex k := by
  have := Nat.pow_le_pow_right (Nat.zero_lt_two)
    (min_le_min_left c.indexBits (Nat.mul_le_mul_right c.mapShift hle))
  rw [maxindex, maxindex]
  omega

/-- Every index fits a tree of the greatest height. -/
theorem le_maxindex_maxPath (hindex : index < 2 ^ c.indexBits) : index ≤ c.maxindex c.maxPath := by
  have hbits : c.indexBits ≤ c.maxPath * c.mapShift := by
    have := Nat.div_add_mod (c.indexBits + c.mapShift - 1) c.mapShift
    have := Nat.mod_lt (c.indexBits + c.mapShift - 1) c.mapShift_pos
    rw [maxPath, Nat.mul_comm]
    omega
  rw [maxindex, min_eq_left hbits]
  omega

theorem heightFrom_spec (hfits : index ≤ c.maxindex (h + n)) : h ≤ c.heightFrom index n h ∧
    c.heightFrom index n h ≤ h + n ∧ index ≤ c.maxindex (c.heightFrom index n h) ∧
    ∀ k, h ≤ k → k < c.heightFrom index n h → c.maxindex k < index := by
  induction n generalizing h with
  | zero =>
    exact ⟨le_rfl, le_rfl, hfits, fun k hk hlt ↦ absurd hlt (by simp only [heightFrom]; omega)⟩
  | succ n ih =>
    rw [heightFrom]
    split_ifs with hlow
    · obtain ⟨hle, hge, hfit, hbelow⟩ := ih (h := h + 1) (by rwa [Nat.add_right_comm])
      refine ⟨by omega, by omega, hfit, fun k hk hlt ↦ ?_⟩
      rcases eq_or_lt_of_le hk with rfl | hk
      · exact hlow
      · exact hbelow k hk hlt
    · exact ⟨le_rfl, by omega, not_lt.1 hlow, fun k hk hlt ↦ absurd hlt (by omega)⟩

/-- The first digit of an index that does not fit the height below is not zero. -/
theorem offset_ne_zero (hlow : c.maxindex h < index) (hfit : index ≤ c.maxindex (h + 1)) :
    c.offset index h ≠ 0 := by
  have hbits : h * c.mapShift < c.indexBits := by
    by_contra hge
    rw [maxindex, min_eq_left (not_lt.1 hge)] at hlow
    rw [maxindex, min_eq_left (by rw [Nat.succ_mul]; omega)] at hfit
    omega
  have hpow : 2 ^ ((h + 1) * c.mapShift) = 2 ^ (h * c.mapShift) * 2 ^ c.mapShift := by
    rw [Nat.succ_mul, pow_add]
  have hlt : index < 2 ^ (h * c.mapShift) * 2 ^ c.mapShift := by
    have := Nat.pow_le_pow_right Nat.zero_lt_two (min_le_right c.indexBits ((h + 1) * c.mapShift))
    rw [maxindex] at hfit
    omega
  have hle : 2 ^ (h * c.mapShift) ≤ index := by
    rw [maxindex, min_eq_right hbits.le] at hlow
    omega
  rw [offset, Nat.mod_eq_of_lt (Nat.div_lt_of_lt_mul hlt)]
  exact (Nat.div_pos hle (Nat.two_pow_pos _)).ne'

/-! ### Nodes from the pool -/

theorem fill_spec (hfill : fill n m = (true, m')) : m'.nr = m.nr + n := by
  induction n generalizing m with
  | zero =>
    obtain ⟨-, rfl⟩ := Prod.mk.inj hfill
    rfl
  | succ n ih =>
    rw [fill, kmemCacheAlloc] at hfill
    split at hfill
    · cases hfill
    · next m₁ hcache =>
      have hnr : m₁.nr = m.nr := by
        split at hcache <;> cases hcache
        rfl
      have := ih hfill
      simp only at this
      omega

/-- The pool is all that there is. -/
theorem radixTreeNodeAlloc_drained :
    radixTreeNodeAlloc false ⟨nr, []⟩ = (decide (0 < nr), ⟨nr - 1, []⟩) := by
  cases nr <;> rfl

/-- The nodes that are missing on the way down. -/
def missing (c : Config) (index : ℕ) : (h : ℕ) → Slot α h → ℕ
  | 0, _ => 0
  | h + 1, .null => h + 1
  | h + 1, .node _ _ slots => missing c index h (slots (c.offset index h))

@[simp] theorem missing_null : missing c index h (.null : Slot α h) = h := by
  cases h <;> rfl

theorem missing_le (index : ℕ) (slot : Slot α h) : missing c index h slot ≤ h := by
  induction h with
  | zero => rw [missing]
  | succ h ih =>
    cases slot with
    | null => exact Nat.le_refl _
    | node count tags slots => exact (ih _).trans (Nat.le_succ h)

/-- Whether a tag was set does not matter. -/
theorem tagged_enomem (ret : Ret) (p : Bool) : (if ret = .ok ∧ p then .bug else ret) = Ret.enomem ↔
    ret = .enomem := by
  cases ret <;> cases p <;> decide

/-- **The way down runs out of nodes exactly if more are missing than there are.** -/
theorem insertAt_enomem (slot : Slot α h) :
    (c.insertAt false index a h slot ⟨nr, []⟩).1 = .enomem ↔ nr < missing c index h slot := by
  induction h generalizing nr with
  | zero => cases slot <;> simp [insertAt, missing]
  | succ h ih =>
    cases slot with
    | node count tags slots =>
      simp only [insertAt, enter, tagged_enomem]
      exact ih _
    | null =>
      simp only [insertAt, enter, radixTreeNodeAlloc_drained]
      cases nr with
      | zero => simp
      | succ nr =>
        simp only [Nat.zero_lt_succ, decide_true, tagged_enomem, ih, missing_null]
        omega

/-- **The nodes above the root.** Behind the first digit of the index nothing is there yet. -/
theorem grow_spec (index : ℕ) (hwait : root.wait = false) (hle : n ≤ nr) :
    ∃ r, grow n root ⟨nr, []⟩ = (true, r, ⟨nr - n, []⟩) ∧
    r.height = root.height + n ∧ r.wait = false ∧
    (0 < n → c.offset index (r.height - 1) ≠ 0 →
      missing c index r.height r.rnode = r.height - 1) := by
  induction n generalizing root nr with
  | zero => exact ⟨root, rfl, rfl, hwait, fun h ↦ absurd h (lt_irrefl 0)⟩
  | succ n ih =>
    rw [grow, hwait, radixTreeNodeAlloc_drained, decide_eq_true (by omega)]
    simp only
    generalize hr₁ : (⟨root.height + 1, _, _, _⟩ : Root α) = r₁
    obtain ⟨r, hgrow, hheight, hw, hmissing⟩ := @ih r₁ (nr - 1) (by rw [← hr₁]) (by omega)
    refine ⟨r, ?_, ?_, hw, fun _ hoff ↦ ?_⟩
    · rw [hgrow, Nat.sub_sub, Nat.add_comm 1 n]
    · rw [hheight, ← hr₁]
      simp only
      omega
    · rcases Nat.eq_zero_or_pos n with rfl | hpos
      · obtain rfl : r₁ = r := by simpa [grow] using hgrow
        subst hr₁
        simp only [Nat.add_sub_cancel] at hoff ⊢
        simp only [missing, if_neg hoff, missing_null]
      · exact hmissing hpos hoff

/-! ### An insertion after a preload -/

/-- **A preload suffices exactly if** the tree is empty or the index fits a tree of half the
height that the longest path and the tree have together. -/
theorem radix_tree_preload_suffices_iff (hindex : index < 2 ^ c.indexBits)
    (hheight : root.height ≤ c.maxPath)
    (hwait : root.wait = false) (hnr : m.nr ≤ c.maxPath)
    (hpre : c.radixTreePreload m = (true, m')) :
    (c.radixTreeInsert root index a ⟨m'.nr, []⟩).1 ≠ .enomem ↔
      root.rnode.isNull = true ∨ index ≤ c.maxindex ((c.maxPath + root.height + 1) / 2) := by
  have hfull : m'.nr = c.maxPath := by
    rw [fill_spec hpre]
    omega
  have hhalf : root.height ≤ (c.maxPath + root.height + 1) / 2 := by omega
  rw [radixTreeInsert, hfull]
  by_cases hlow : c.maxindex root.height < index
  · rw [if_pos hlow, radixTreeExtend]
    have hroom : root.height + 1 ≤ c.maxPath := by
      by_contra hge
      exact absurd (le_maxindex_maxPath hindex)
        (not_le.2 (lt_of_le_of_lt (maxindex_mono (by omega)) hlow))
    have hfits : index ≤ c.maxindex (root.height + 1 + (c.maxPath - (root.height + 1))) := by
      rw [Nat.add_sub_cancel' hroom]
      exact le_maxindex_maxPath hindex
    obtain ⟨hle, hge, hfit, hbelow⟩ := heightFrom_spec hfits
    generalize c.heightFrom index (c.maxPath - (root.height + 1)) (root.height + 1) = H
      at hle hge hfit hbelow
    by_cases hnull : root.rnode.isNull = true
    · -- a whole path is built, and it is not longer than the pool
      simp only [if_pos hnull, ne_eq, tagged_enomem, hwait, insertAt_enomem, missing_null]
      exact iff_of_true (by omega) (Or.inl hnull)
    · obtain ⟨r, hgrow, hr, hw, hmissing⟩ := grow_spec index hwait
        (show H - root.height ≤ c.maxPath by omega)
      have hH : r.height = H := by omega
      have hlast : c.maxindex (H - 1) < index := by
        rcases eq_or_lt_of_le hle with rfl | hlt
        · exact hlow
        · exact hbelow _ (by omega) (by omega)
      have hpath := hmissing (by omega) (by
        rw [hH]
        exact offset_ne_zero hlast (by rwa [Nat.sub_add_cancel (by omega)]))
      simp only [if_neg hnull, hgrow, ne_eq, tagged_enomem, hw, insertAt_enomem, or_iff_right hnull]
      constructor
      · exact fun hle ↦ hfit.trans (maxindex_mono (by omega))
      · intro hindex'
        by_contra hlt
        rcases eq_or_lt_of_le hhalf with heq | hlt'
        · omega
        · exact absurd hindex' (not_le.2 (hbelow _ hlt' (by omega)))
  · rw [if_neg hlow]
    simp only [ne_eq, tagged_enomem, hwait, insertAt_enomem]
    have := missing_le (c := c) index root.rnode
    exact iff_of_true (by omega) (Or.inr ((not_lt.1 hlow).trans (maxindex_mono hhalf)))

/-- `CONFIG_BASE_SMALL` is not set, and `unsigned long` has 32 bits. -/
def wide : Config := ⟨6, 32, by decide⟩

/-- A tree of height 0 takes any index below 2¹⁸. -/
theorem radix_tree_preload_suffices_low :
    (wide.radixTreeInsert ⟨0, false, fun _ ↦ false, .item 7⟩ (2 ^ 18 - 1) 8 ⟨6, []⟩).1 ≠
    .enomem := by
  have hpre : wide.radixTreePreload ⟨0, List.replicate 6 true⟩ = (true, ⟨6, []⟩) := rfl
  refine (radix_tree_preload_suffices_iff ?_ ?_ rfl ?_ hpre).2 (Or.inr ?_) <;> decide

/-- **The pool runs out**: with one item at index 0, an item at the greatest index needs eleven
nodes. -/
theorem radix_tree_preload_short :
    wide.radixTreePreload ⟨0, List.replicate 6 true⟩ = (true, ⟨6, []⟩) ∧
    (wide.radixTreeInsert ⟨0, false, fun _ ↦ false, .item 7⟩ (2 ^ 32 - 1) 8
      ⟨6, []⟩).1 = .enomem := by
  decide

end Radix.Config
