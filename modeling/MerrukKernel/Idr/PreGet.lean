import MerrukKernel.Idr.Model

/-!
# The free list is long enough

An allocation takes layers from the free list to raise the tree and to build the way down to the
new id. The search goes down into a new layer at most once, since a new layer has a free place for
every id, and the tree has at most six layers: `idr_pre_get` provides for more than that.
-/

namespace Idr

variable {α : Type} {s s' : Idp α} {l n id cnt : ℕ} {p : Ptr α (l + 1)}

/-! ### What is taken from the free list -/

/-- A search below a layer at level `l` takes at most `l` layers. -/
def Sub.Takes (l cnt : ℕ) {k : ℕ} : Sub α k → Prop
  | .full => True
  | .again _ => cnt < l
  | .found _ _ cnt' => cnt ≤ cnt' + l

theorem subAllocAt_takes {f : Ptr α (l + 1) → ℕ → ℕ → Sub α (l + 1)}
    (hf : ∀ p id cnt, (f p id cnt).Takes l cnt)
    (bitmap : ℕ → Bool) (count : ℕ) (ary : ℕ → Ptr α (l + 1)) (id cnt : ℕ) (ms : List ℕ) :
    (subAllocAt f bitmap count ary id cnt ms).Takes (l + 1) cnt := by
  induction ms with
  | nil => trivial
  | cons m ms ih =>
    rw [subAllocAt]
    split
    · -- a new layer, and what is created below it
      split_ifs with hcnt
      · exact hcnt ▸ Nat.succ_pos l
      · have htakes := hf .fresh (moveTo id (l + 1) m) (cnt - 1)
        revert htakes
        cases f .fresh (moveTo id (l + 1) m) (cnt - 1) with
        | full => exact fun h ↦ h
        | again p => exact fun h ↦ by simp only [Sub.Takes] at *; omega
        | found id p cnt' => exact fun h ↦ by simp only [Sub.Takes] at *; omega
    · have htakes := hf (ary m) (moveTo id (l + 1) m) cnt
      revert htakes
      cases f (ary m) (moveTo id (l + 1) m) cnt with
      | full => exact fun _ ↦ ih
      | again p => exact Nat.lt_succ_of_lt
      | found id p cnt' => exact fun h ↦ h.trans (Nat.le_succ _)

theorem subAlloc_takes (p : Ptr α (l + 1)) (id cnt : ℕ) : (subAlloc l p id cnt).Takes l cnt := by
  induction l generalizing id cnt with
  | zero =>
    cases p with
    | null => trivial
    | layer bitmap count ary =>
      rw [subAlloc]
      split
      · trivial
      · exact Nat.le_refl cnt
  | succ l ih =>
    cases p with
    | null => trivial
    | layer bitmap count ary => exact subAllocAt_takes (fun p id cnt ↦ ih p id cnt) ..

/-- The tree has a top and at most six layers, and there is a layer for every one that may still
be needed. -/
structure Provided (s : Idp α) : Prop where
  top : ∃ l bitmap count ary cnt, s = ⟨l + 1, .layer bitmap count ary, cnt⟩
  layers : s.layers ≤ 6
  enough : 11 ≤ s.idFreeCnt + s.layers

/-- Raising the tree takes at most a layer for each level. -/
theorem buildUp_provided (hlayers : l + 1 + n ≤ 6) (henough : 11 ≤ cnt + (l + 1))
    (bitmap : ℕ → Bool) (count : ℕ)
    (ary : ℕ → Ptr α l) : ∃ s, buildUp id n l (.layer bitmap count ary) cnt = some s ∧
    Provided s := by
  induction n generalizing l cnt bitmap count ary with
  | zero => exact ⟨_, rfl, ⟨l, bitmap, count, ary, cnt, rfl⟩, hlayers, henough⟩
  | succ n ih =>
    by_cases hid : id < 32 ^ (l + 1)
    · have hdone : buildUp id (n + 1) l (.layer bitmap count ary) cnt = some
          ⟨l + 1, .layer bitmap count ary, cnt⟩ :=
        if_pos hid
      exact ⟨_, hdone, ⟨l, bitmap, count, ary, cnt, rfl⟩, by simp only; omega, henough⟩
    · have hcnt : cnt ≠ 0 := by omega
      cases count with
      | zero => simpa only [buildUp, if_neg hid] using ih (by omega) (by omega) ..
      | succ count =>
        simpa only [buildUp, if_neg hid, if_neg hcnt] using ih (by omega) (by omega) ..

theorem Provided.buildTop (h : Provided s) : ∃ s', buildTop id s = some s' ∧ Provided s' := by
  obtain ⟨⟨l, bitmap, count, ary, cnt, rfl⟩, hlayers, henough⟩ := h
  exact buildUp_provided (by simp only [maxLevel] at *; omega) henough ..

/-- **A tree that is provided for is not given up.** -/
theorem idrGetEmptySlot_ne_again (id : ℕ) (u : Idp α)
    (h : ∃ s', Idr.buildTop id s = some s' ∧ Provided s') : idrGetEmptySlot id s ≠ .again u := by
  fun_induction idrGetEmptySlot id s with
  | case1 id s hnone =>
    obtain ⟨s', hsome, -⟩ := h
    rw [hnone] at hsome
    cases hsome
  | case2 => simp
  | case3 id s s' hsome p hagain =>
    obtain ⟨s'', hsome', hp⟩ := h
    cases hsome.symm.trans hsome'
    obtain ⟨⟨l, bitmap, count, ary, cnt, rfl⟩, hlayers, henough⟩ := hp
    have htakes := subAlloc_takes (.layer bitmap count ary) id cnt
    rw [search] at hagain
    rw [hagain] at htakes
    simp only [Sub.Takes] at htakes hlayers henough
    omega
  | case4 id s s' hsome hfull hlt ih =>
    obtain ⟨s'', hsome', hp⟩ := h
    cases hsome.symm.trans hsome'
    exact ih hp.buildTop
  | case5 => simp

/-! ### After `idr_pre_get` -/

theorem preGet_cnt {cache : List Bool} (h : (preGet n cache cnt).1 = true) :
    (preGet n cache cnt).2 = cnt + n := by
  induction n generalizing cache cnt with
  | zero => rfl
  | succ n ih =>
    match cache with
    | true :: cache =>
      rw [preGet] at h ⊢
      rw [ih h]
      omega
    | false :: cache => cases h
    | [] => cases h

/-- **`idr_pre_get` suffices.** Once it has returned 1, an allocation does not return `-EAGAIN`,
from any id on and in any tree that removals may have left, which also trim the free list. -/
theorem idr_pre_get_suffices {cache : List Bool} (hpre : idrPreGet cache s = (true, s')) {t : Idp α}
    (hlayers : t.layers ≤ maxLevel - 1)
    (hcnt : t.idFreeCnt = s'.idFreeCnt ∨ t.idFreeCnt = trim s'.idFreeCnt)
    (ptr : Ptr α 0) (startingId : ℤ) : ∀ u, idrGetNewAbove ptr startingId t ≠ .eagain u := by
  intro u
  have hmax : idrFreeMax ≤ s'.idFreeCnt := by
    obtain ⟨hret, rfl⟩ := Prod.mk.inj hpre
    have := preGet_cnt hret
    simp only
    omega
  have hcnt : 13 ≤ t.idFreeCnt := by
    rw [trim, if_pos hmax] at hcnt
    rw [idrFreeMax, maxLevel] at *
    omega
  have hbuild (id : ℕ) : ∃ t', buildTop id t = some t' ∧ Provided t' := by
    obtain ⟨l, top, cnt⟩ := t
    have hcnt : 13 ≤ cnt := hcnt
    cases top with
    | layer bitmap count ary =>
      exact Provided.buildTop ⟨⟨_, bitmap, count, ary, cnt, rfl⟩, hlayers, by simp only; omega⟩
    | null | item _ =>
      simp only [buildTop, if_neg (show cnt ≠ 0 by omega)]
      exact buildUp_provided (by decide) (by omega) ..
  rw [idrGetNewAbove]
  split_ifs with hneg
  · rw [belowZero.eq_def]
    split
    · split_ifs <;> simp
    · simp only at hcnt
      rw [if_neg (by omega)]
      simp
  · have hne := idrGetEmptySlot_ne_again startingId.toNat (s := t)
    split
    · simp
    · simp
    · next s'' hagain => exact absurd hagain (hne s'' (hbuild _))
    · simp

/-- A tree of one layer with id 0 in it is raised to six layers and gets a new path: ten layers
are taken. -/
theorem idr_pre_get_suffices_high :
    let t : Idp ℕ :=
  ⟨1, .layer (fun i ↦ decide (i = 0)) 1 fun i ↦ if i = 0 then .item 7 else .null, 14⟩
    idrPreGet (List.replicate 14 true) { t with idFreeCnt := 0 } = (true, t) ∧
      ∀ u, idrGetNewAbove (.item 8) (2 ^ 30 - 1) t ≠ .eagain u := by
  intro t
  have hpre : idrPreGet (List.replicate 14 true) { t with idFreeCnt := 0 } = (true, t) := rfl
  exact ⟨hpre, idr_pre_get_suffices hpre (by decide) (Or.inl rfl) (.item 8) (2 ^ 30 - 1)⟩

end Idr
