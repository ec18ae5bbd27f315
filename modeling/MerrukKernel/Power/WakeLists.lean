import MerrukKernel.Power.WakeLocks
import Mathlib.Algebra.Order.Ring.Int
import Mathlib.Data.List.Nodup

/-!
# The lists of wake locks

Every lock that is initialised is on exactly one list, the one its flags say (`Listed`). A lock
changes its place in two moves, off its list and onto another one; in between it is `Detached`.

Among the active suspend locks those that do not expire come first (`Ordered`), so that a scan
either stops at once or goes through locks that all expire. What such a scan does is said once, in
`scan_spec`: the locks that have expired are given up, and the greatest time that is left is
returned.
-/

namespace Power

open Function List

namespace WakeState

variable {s : WakeState} {l : ℕ}

/-! ### The lists -/

/-- The lists hold what the flags say, the lock `l` left aside, which is on no list. -/
structure Detached (s : WakeState) (l : ℕ) : Prop where
  nodup_inactive : s.inactiveLocks.Nodup
  nodup_active : ∀ type, (s.activeWakeLocks type).Nodup
  mem_inactive : ∀ y, y ∈ s.inactiveLocks ↔
    y ≠ l ∧ (s.lock y).initialized = true ∧ (s.lock y).active = false
  mem_active : ∀ type y, y ∈ s.activeWakeLocks type ↔
    y ≠ l ∧ (s.lock y).initialized = true ∧ (s.lock y).active = true ∧ (s.lock y).type = type

/-- **The lists hold what the flags say.** -/
structure Listed (s : WakeState) : Prop where
  nodup_inactive : s.inactiveLocks.Nodup
  nodup_active : ∀ type, (s.activeWakeLocks type).Nodup
  mem_inactive : ∀ y, y ∈ s.inactiveLocks ↔
    (s.lock y).initialized = true ∧ (s.lock y).active = false
  mem_active : ∀ type y, y ∈ s.activeWakeLocks type ↔
    (s.lock y).initialized = true ∧ (s.lock y).active = true ∧ (s.lock y).type = type

theorem Listed.listDel (h : s.Listed) (l : ℕ) : (s.listDel l).Detached l where
  nodup_inactive := h.nodup_inactive.erase l
  nodup_active type := (h.nodup_active type).erase l
  mem_inactive y := by
    show y ∈ s.inactiveLocks.erase l ↔ _
    rw [h.nodup_inactive.mem_erase_iff, h.mem_inactive]
    rfl
  mem_active type y := by
    show y ∈ (s.activeWakeLocks type).erase l ↔ _
    rw [(h.nodup_active type).mem_erase_iff, h.mem_active]
    rfl

section

variable (h : s.Detached l)
include h

theorem Detached.setLock (k : WakeLock) : (s.setLock l k).Detached l := by
  have hlock : ∀ y, y ≠ l → (s.setLock l k).lock y = s.lock y := fun y hy ↦
    update_of_ne hy ..
  refine ⟨h.nodup_inactive, h.nodup_active, fun y ↦ ?_, fun type y ↦ ?_⟩
  · refine (h.mem_inactive y).trans (and_congr_right fun hy ↦ ?_)
    rw [hlock y hy]
  · refine (h.mem_active type y).trans (and_congr_right fun hy ↦ ?_)
    rw [hlock y hy]

theorem Detached.not_mem_active (type : LockType) : l ∉ s.activeWakeLocks type :=
  fun hl ↦ ((h.mem_active type l).1 hl).1 rfl

theorem Detached.addInactive (hinit : (s.lock l).initialized = true)
    (hact : (s.lock l).active = false) : (s.addInactive l).Listed where
  nodup_inactive := nodup_cons.2 ⟨fun hl ↦ ((h.mem_inactive l).1 hl).1 rfl, h.nodup_inactive⟩
  nodup_active := h.nodup_active
  mem_inactive y := by
    show y ∈ l :: s.inactiveLocks ↔ (s.lock y).initialized = true ∧ (s.lock y).active = false
    rw [mem_cons, h.mem_inactive]
    by_cases hy : y = l
    · subst hy
      simp [hinit, hact]
    · simp [hy]
  mem_active type y := by
    show y ∈ s.activeWakeLocks type ↔
      (s.lock y).initialized = true ∧ (s.lock y).active = true ∧ (s.lock y).type = type
    rw [h.mem_active]
    by_cases hy : y = l
    · subst hy
      simp [hact]
    · simp [hy]

theorem Detached.activate (hinit : (s.lock l).initialized = true)
    (hact : (s.lock l).active = true) {ls : List ℕ}
    (hperm : ls.Perm (l :: s.activeWakeLocks (s.lock l).type)) :
    ({ s with activeWakeLocks := update s.activeWakeLocks (s.lock l).type ls } :
      WakeState).Listed where
  nodup_inactive := h.nodup_inactive
  nodup_active type := by
    show (update s.activeWakeLocks (s.lock l).type ls type).Nodup
    rw [update_apply]
    split
    · rw [hperm.nodup_iff, nodup_cons]
      exact ⟨h.not_mem_active _, h.nodup_active _⟩
    · exact h.nodup_active type
  mem_inactive y := by
    show y ∈ s.inactiveLocks ↔ (s.lock y).initialized = true ∧ (s.lock y).active = false
    rw [h.mem_inactive]
    by_cases hy : y = l
    · subst hy
      simp [hact]
    · simp [hy]
  mem_active type y := by
    show y ∈ update s.activeWakeLocks (s.lock l).type ls type ↔
      (s.lock y).initialized = true ∧ (s.lock y).active = true ∧ (s.lock y).type = type
    have hmem := h.mem_active type y
    by_cases hy : y = l
    · grind
    · grind

end

theorem Listed.deactivate (h : s.Listed) (hinit : (s.lock l).initialized = true) :
    (s.deactivate l).Listed := by
  refine Detached.addInactive ((h.listDel l).setLock _) ?_ ?_
  · show (update s.lock l _ l).initialized = true
    rw [update_self]
    exact hinit
  · show (update s.lock l _ l).active = false
    rw [update_self]

/-- An initialised lock is on exactly one of the three lists. -/
def OnOneList (s : WakeState) (l : ℕ) : Prop :=
  s.inactiveLocks.count l + (s.activeWakeLocks .suspend).count l +
    (s.activeWakeLocks .idle).count l = 1

theorem Listed.onOneList (h : s.Listed) (hl : (s.lock l).initialized = true) : s.OnOneList l := by
  have hin : s.inactiveLocks.count l = if (s.lock l).active = false then 1 else 0 := by
    split
    · next hact => exact count_eq_one_of_mem h.nodup_inactive ((h.mem_inactive l).2 ⟨hl, hact⟩)
    · next hact => exact count_eq_zero_of_not_mem fun hmem ↦ hact ((h.mem_inactive l).1 hmem).2
  have hact : ∀ type, (s.activeWakeLocks type).count l =
      if (s.lock l).active = true ∧ (s.lock l).type = type then 1 else 0 := by
    intro type
    split
    · next hact =>
      exact count_eq_one_of_mem (h.nodup_active type) ((h.mem_active type l).2 ⟨hl, hact⟩)
    · next hact => exact count_eq_zero_of_not_mem fun hmem ↦ hact ((h.mem_active type l).1 hmem).2
  unfold OnOneList
  rw [hin, hact, hact]
  cases (s.lock l).active with
  | false => rfl
  | true => cases (s.lock l).type <;> rfl

/-! ### The order -/

/-- **The locks that do not expire come first.** -/
def Ordered (s : WakeState) : Prop :=
  (s.activeWakeLocks .suspend).Pairwise fun a b ↦
    (s.lock a).autoExpire = true → (s.lock b).autoExpire = true

theorem Ordered.sublist {s' : WakeState} (h : s.Ordered)
    (hsub : (s'.activeWakeLocks .suspend).Sublist (s.activeWakeLocks .suspend))
    (hlock : ∀ y ∈ s'.activeWakeLocks .suspend, s'.lock y = s.lock y) : s'.Ordered := by
  refine (List.Pairwise.sublist hsub h).imp_of_mem fun {a b} ha hb hab ↦ ?_
  rw [hlock a ha, hlock b hb]
  exact hab

/-! ### The scan -/

theorem deactivate_lock_of_ne {y : ℕ} (hy : y ≠ l) : (s.deactivate l).lock y = s.lock y :=
  update_of_ne hy ..

theorem timeLeft_deactivate (s : WakeState) (l y : ℕ) :
    (s.deactivate l).timeLeft y = s.timeLeft y := by
  have hexp : ((s.deactivate l).lock y).expires = (s.lock y).expires := by
    by_cases hy : y = l
    · subst hy
      show (update s.lock y _ y).expires = _
      rw [update_self]
    · rw [deactivate_lock_of_ne hy]
  unfold timeLeft
  rw [hexp]
  rfl

/-- What a scan does to the state: of the locks it has gone through, those that have expired are
given up. -/
structure Scanned (s s' : WakeState) (ls : List ℕ) : Prop where
  listed : s'.Listed
  sublist : (s'.activeWakeLocks .suspend).Sublist (s.activeWakeLocks .suspend)
  mem_iff : ∀ y, y ∈ s'.activeWakeLocks .suspend ↔
    y ∈ s.activeWakeLocks .suspend ∧ (y ∈ ls → 0 < s.timeLeft y)
  lock_eq : ∀ y ∈ s'.activeWakeLocks .suspend, s'.lock y = s.lock y
  jiffies_eq : s'.jiffies = s.jiffies
  timer_eq : s'.expireTimer = s.expireTimer
  taken_eq : s'.taken = s.taken

/-- What a scan returns: the greatest time that is left. -/
structure Greatest (s : WakeState) (ls : List ℕ) (m r : ℤ) : Prop where
  ge : m ≤ r
  bound : ∀ y ∈ ls, s.timeLeft y ≤ r
  attained : r = m ∨ ∃ y ∈ ls, s.timeLeft y = r ∧ 0 < r

/-- **A scan of locks that all expire.** -/
theorem scan_spec {ls : List ℕ} {m : ℤ} (h : s.Listed) (hnodup : ls.Nodup)
    (hls : ∀ y ∈ ls, y ∈ s.activeWakeLocks .suspend ∧ (s.lock y).autoExpire = true) (hm : 0 ≤ m) :
    Scanned s (s.scan ls m).2 ls ∧ Greatest s ls m (s.scan ls m).1 := by
  induction ls generalizing s m with
  | nil =>
    exact ⟨⟨h, List.Sublist.refl _, by simp [scan], fun _ _ ↦ rfl, rfl, rfl, rfl⟩,
      ⟨le_rfl, by simp, .inl rfl⟩⟩
  | cons l ls ih =>
    obtain ⟨hl, hnodup⟩ := nodup_cons.1 hnodup
    obtain ⟨hmem, hauto⟩ := hls l mem_cons_self
    rw [scan, if_pos hauto]
    split
    · next hexp =>
      -- the lock is given up, and the scan goes on with the others
      have hs' : (s.expireWakeLock l).Listed := h.deactivate ((h.mem_active .suspend l).1 hmem).1
      have hact : ∀ y, y ∈ (s.expireWakeLock l).activeWakeLocks .suspend ↔
          y ≠ l ∧ y ∈ s.activeWakeLocks .suspend := fun y ↦
        (h.nodup_active .suspend).mem_erase_iff
      have hls' : ∀ y ∈ ls, y ∈ (s.expireWakeLock l).activeWakeLocks .suspend ∧
          ((s.expireWakeLock l).lock y).autoExpire = true := by
        intro y hy
        have hne : y ≠ l := fun heq ↦ hl (heq ▸ hy)
        obtain ⟨hmem, hauto⟩ := hls y (mem_cons_of_mem _ hy)
        refine ⟨(hact y).2 ⟨hne, hmem⟩, ?_⟩
        rw [expireWakeLock, deactivate_lock_of_ne hne]
        exact hauto
      obtain ⟨hscan, hmax⟩ := ih hs' hnodup hls' hm
      have htime : ∀ y, (s.expireWakeLock l).timeLeft y = s.timeLeft y := timeLeft_deactivate s l
      refine ⟨⟨hscan.listed, ?_, fun y ↦ ?_, fun y hy ↦ ?_, hscan.jiffies_eq, hscan.timer_eq,
        hscan.taken_eq⟩, ⟨hmax.ge, fun y hy ↦ ?_, ?_⟩⟩
      · exact hscan.sublist.trans erase_sublist
      · grind [hscan.mem_iff]
      · have hne : y ≠ l := ((hact y).1 ((hscan.mem_iff y).1 hy).1).1
        rw [hscan.lock_eq y hy, expireWakeLock, deactivate_lock_of_ne hne]
      · rcases mem_cons.1 hy with rfl | hy
        · exact hexp.trans (hm.trans hmax.ge)
        · rw [← htime]
          exact hmax.bound y hy
      · refine hmax.attained.imp_right fun ⟨y, hy, heq, hpos⟩ ↦ ?_
        rw [htime] at heq
        exact ⟨y, mem_cons_of_mem _ hy, heq, hpos⟩
    · next hexp =>
      -- the lock stays; only the greatest time may change
      have hpos : 0 < s.timeLeft l := not_le.1 hexp
      have hcons : ∀ s', Scanned s s' ls → Scanned s s' (l :: ls) := fun s' hscan ↦
        { hscan with
          mem_iff := fun y ↦ by
            rw [hscan.mem_iff]
            by_cases hy : y = l
            · subst hy
              simp [hl, hpos]
            · simp [hy] }
      have hls' := fun y hy ↦ hls y (mem_cons_of_mem l hy)
      split
      · next hgt =>
        obtain ⟨hscan, hmax⟩ := ih h hnodup hls' hpos.le
        refine ⟨hcons _ hscan, ⟨hgt.le.trans hmax.ge, fun y hy ↦ ?_, ?_⟩⟩
        · rcases mem_cons.1 hy with rfl | hy
          · exact hmax.ge
          · exact hmax.bound y hy
        · rcases hmax.attained with heq | ⟨y, hy, heq, hr⟩
          · exact .inr ⟨l, mem_cons_self, heq.symm, by rw [heq]; exact hpos⟩
          · exact .inr ⟨y, mem_cons_of_mem _ hy, heq, hr⟩
      · next hgt =>
        obtain ⟨hscan, hmax⟩ := ih h hnodup hls' hm
        refine ⟨hcons _ hscan, ⟨hmax.ge, fun y hy ↦ ?_, ?_⟩⟩
        · rcases mem_cons.1 hy with rfl | hy
          · exact (not_lt.1 hgt).trans hmax.ge
          · exact hmax.bound y hy
        · exact hmax.attained.imp_right fun ⟨y, hy, heq, hr⟩ ↦ ⟨y, mem_cons_of_mem _ hy, heq, hr⟩

end WakeState

end Power
