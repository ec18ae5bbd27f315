import MerrukKernel.Power.WakeLists

/-!
# Suspend is never stranded

Whatever ends in a scan of the active suspend locks leaves the timer set for the last expiry, or
the work queued if no lock is left (`Ready.scan`); that is what taking a lock, giving one up and
the timer come down to.

`wake_lock_destroy` takes a lock off its list and does nothing else: no scan, no timer, no work.
So suspend is stranded by the destruction of the lock that it waits for, and only by that.
-/

namespace Power

open Function List

namespace WakeState

variable {s : WakeState} {l : ℕ}

/-! ### The timer -/

/-- A suspend lock that does not expire is active. -/
def Held (s : WakeState) : Prop := ∃ y ∈ s.activeWakeLocks .suspend, (s.lock y).autoExpire = false

/-- The timer is set for the last expiry of the active suspend locks. -/
def TimerSet (s : WakeState) : Prop :=
  ∃ y ∈ s.activeWakeLocks .suspend, s.expireTimer = some (s.lock y).expires ∧
    ∀ z ∈ s.activeWakeLocks .suspend, (s.lock z).expires ≤ (s.lock y).expires

/-- **Nothing is stranded.** -/
structure Settled (s : WakeState) : Prop where
  of_held : s.Held → s.expireTimer = none
  of_not_held : ¬s.Held → s.TimerSet ∨
    s.activeWakeLocks .suspend = [] ∧ s.queued = true ∧ s.expireTimer = none

/-- The expiry times of the active suspend locks are near enough for a `long`. -/
def InRange (s : WakeState) : Prop :=
  ∀ y ∈ s.activeWakeLocks .suspend, (s.lock y).autoExpire = true →
    -2 ^ 31 ≤ (s.lock y).expires - s.jiffies ∧ (s.lock y).expires - s.jiffies < 2 ^ 31

theorem InRange.timeLeft_eq (h : s.InRange) (hl : l ∈ s.activeWakeLocks .suspend)
    (hauto : (s.lock l).autoExpire = true) : s.timeLeft l = (s.lock l).expires - s.jiffies := by
  obtain ⟨hlow, hhigh⟩ := h l hl hauto
  unfold timeLeft
  rw [Int.bmod_eq_of_le] <;> omega

theorem autoExpire_of_not_held (hheld : ¬s.Held) (hl : l ∈ s.activeWakeLocks .suspend) :
    (s.lock l).autoExpire = true := by
  cases hauto : (s.lock l).autoExpire with
  | true => rfl
  | false => exact absurd ⟨l, hl, hauto⟩ hheld

theorem scan_of_held (hord : s.Ordered) (hheld : s.Held) :
    s.hasWakeLockLocked .suspend = (-1, s) := by
  obtain ⟨y, hy, hauto⟩ := hheld
  unfold hasWakeLockLocked
  unfold Ordered at hord
  cases hls : s.activeWakeLocks .suspend with
  | nil => rw [hls] at hy; cases hy
  | cons l ls =>
    rw [hls] at hy
    have hl : ¬(s.lock l).autoExpire = true := by
      rcases mem_cons.1 hy with rfl | hy
      · rw [hauto]
        exact Bool.false_ne_true
      · grind [pairwise_cons]
    rw [scan, if_neg hl]

theorem scan_of_not_held (h : s.Listed) (hheld : ¬s.Held) :
    Scanned s (s.hasWakeLockLocked .suspend).2 (s.activeWakeLocks .suspend) ∧
      Greatest s (s.activeWakeLocks .suspend) 0 (s.hasWakeLockLocked .suspend).1 := by
  exact scan_spec h (h.nodup_active .suspend)
    (fun y hy ↦ ⟨hy, autoExpire_of_not_held hheld hy⟩) le_rfl

/-- What a scan needs. -/
structure Ready (s : WakeState) : Prop where
  listed : s.Listed
  ordered : s.Ordered
  inRange : s.InRange

/-- What is kept from call to call. -/
structure Sound (s : WakeState) : Prop extends Ready s where
  settled : s.taken = true → s.Settled
  idle : s.taken = false → s.activeWakeLocks .suspend = [] ∧ s.expireTimer = none

theorem arm_eq (s : WakeState) (r : ℤ) : s.arm r = { s with
      expireTimer := if 0 < r then some (s.jiffies + r) else none
      queued := if r = 0 then true else s.queued } := by
  unfold arm queueWork
  split
  · next h => rw [if_neg h.ne']
  · split
    · rfl
    · rfl

variable {ls : List ℕ} {s' : WakeState} {timeout : Option ℤ}

theorem InRange.scanned (h : s.InRange) (hscan : s.Scanned s' ls) : s'.InRange := by
  intro y hy
  rw [hscan.lock_eq y hy, hscan.jiffies_eq]
  exact h y ((hscan.mem_iff y).1 hy).1

theorem Scanned.settled {r : ℤ} (hscan : s.Scanned s' (s.activeWakeLocks .suspend))
    (hmax : s.Greatest (s.activeWakeLocks .suspend) 0 r) (hrange : s.InRange) (hheld : ¬s.Held) :
    (s'.arm r).TimerSet ∨ s'.activeWakeLocks .suspend = [] ∧ r = 0 := by
  have htime : ∀ y ∈ s.activeWakeLocks .suspend, (s.lock y).expires = s.jiffies + s.timeLeft y := by
    grind [hrange.timeLeft_eq, autoExpire_of_not_held]
  rcases hmax.attained with rfl | ⟨y, hy, heq, hpos⟩
  · refine .inr ⟨eq_nil_iff_forall_not_mem.2 fun y hy ↦ ?_, rfl⟩
    obtain ⟨hy, hleft⟩ := (hscan.mem_iff y).1 hy
    exact (hmax.bound y hy).not_gt (hleft hy)
  · have hy' : y ∈ s'.activeWakeLocks .suspend := (hscan.mem_iff y).2 ⟨hy, fun _ ↦ heq ▸ hpos⟩
    rw [arm_eq]
    refine .inl ⟨y, hy', ?_, fun z hz ↦ ?_⟩
    · show (if 0 < r then some (s'.jiffies + r) else none) = some (s'.lock y).expires
      rw [if_pos hpos, hscan.jiffies_eq, hscan.lock_eq y hy', htime y hy, heq]
    · show (s'.lock z).expires ≤ (s'.lock y).expires
      have hz' := ((hscan.mem_iff z).1 hz).1
      have hle := hmax.bound z hz'
      rw [hscan.lock_eq y hy', hscan.lock_eq z hz, htime y hy, htime z hz']
      omega

theorem Ready.arm (h : s.Ready) (r : ℤ) : (s.arm r).Ready := by
  rw [arm_eq]
  exact { h with listed := { h.listed with } }

theorem Ready.scanned (h : s.Ready) (hscan : s.Scanned s' ls) : s'.Ready :=
  ⟨hscan.listed, h.ordered.sublist hscan.sublist hscan.lock_eq, h.inRange.scanned hscan⟩

/-- **Whatever ends in a scan settles the timer.** -/
theorem Ready.scan (h : s.Ready) (hidle : s.taken = false → s.activeWakeLocks .suspend = []) :
    ((s.hasWakeLockLocked .suspend).2.arm (s.hasWakeLockLocked .suspend).1).Sound := by
  by_cases hheld : s.Held
  · rw [scan_of_held h.ordered hheld]
    exact ⟨h.arm (-1), fun _ ↦ ⟨fun _ ↦ rfl, fun hnot ↦ absurd hheld hnot⟩,
      fun htaken ↦ ⟨hidle htaken, rfl⟩⟩
  · obtain ⟨hscan, hmax⟩ := scan_of_not_held h.listed hheld
    have hset := hscan.settled hmax h.inRange hheld
    generalize s.hasWakeLockLocked .suspend = r at hscan hset
    have hnot : ¬(r.2.arm r.1).Held := by
      rw [arm_eq]
      rintro ⟨y, hy, hauto⟩
      have hauto' : (s.lock y).autoExpire = false := hscan.lock_eq y hy ▸ hauto
      exact hheld ⟨y, ((hscan.mem_iff y).1 hy).1, hauto'⟩
    have hlast : r.2.activeWakeLocks .suspend = [] ∧ r.1 = 0 →
        (r.2.arm r.1).activeWakeLocks .suspend = [] ∧ (r.2.arm r.1).queued = true ∧
          (r.2.arm r.1).expireTimer = none := by
      rintro ⟨hnil, hr⟩
      rw [hr]
      exact ⟨hnil, rfl, rfl⟩
    refine ⟨(h.scanned hscan).arm r.1,
      fun _ ↦ ⟨fun hyes ↦ absurd hyes hnot, fun _ ↦ hset.imp_right hlast⟩, fun htaken ↦ ?_⟩
    rw [arm_eq] at htaken
    have hnil := hidle (hscan.taken_eq.symm.trans htaken)
    rcases hset with ⟨y, hy, -⟩ | hset
    · grind [arm_eq, hscan.mem_iff]
    · exact ⟨(hlast hset).1, (hlast hset).2.2⟩

/-! ### The operations -/

theorem Listed.detached (h : s.Listed) (hl : (s.lock l).initialized = false) : s.Detached l := by
  refine ⟨h.nodup_inactive, h.nodup_active, fun y ↦ ?_, fun type y ↦ ?_⟩
  · grind [h.mem_inactive]
  · grind [h.mem_active]

theorem Detached.listed (h : s.Detached l) (hl : (s.lock l).initialized = false) : s.Listed := by
  refine ⟨h.nodup_inactive, h.nodup_active, fun y ↦ ?_, fun type y ↦ ?_⟩
  · rw [h.mem_inactive]
    refine ⟨fun hy ↦ hy.2, fun hy ↦ ⟨?_, hy⟩⟩
    rintro rfl
    exact Bool.false_ne_true (hl.symm.trans hy.1)
  · rw [h.mem_active]
    refine ⟨fun hy ↦ hy.2, fun hy ↦ ⟨?_, hy⟩⟩
    rintro rfl
    exact Bool.false_ne_true (hl.symm.trans hy.1)

theorem Sound.frame (h : s.Sound) (hlisted : s'.Listed)
    (hact : s'.activeWakeLocks .suspend = s.activeWakeLocks .suspend)
    (hlock : ∀ y ∈ s.activeWakeLocks .suspend, s'.lock y = s.lock y)
    (hjiffies : s'.jiffies = s.jiffies)
    (htimer : s'.expireTimer = s.expireTimer) (htaken : s'.taken = s.taken)
    (hqueued : s'.queued = s.queued) : s'.Sound := by
  have hheld : s'.Held ↔ s.Held := by
    unfold Held
    rw [hact]
    exact exists_congr fun y ↦ and_congr_right fun hy ↦ by rw [hlock y hy]
  refine ⟨⟨hlisted, ?_, ?_⟩, fun ht ↦ ⟨?_, ?_⟩, ?_⟩
  · refine h.ordered.sublist (hact ▸ List.Sublist.refl _) fun y hy ↦ hlock y (hact ▸ hy)
  · intro y hy
    rw [hact] at hy
    rw [hlock y hy, hjiffies]
    exact h.inRange y hy
  · rw [hheld, htimer]
    exact (h.settled (htaken ▸ ht)).of_held
  · rw [hheld, hact, hqueued, htimer]
    refine fun hnot ↦ ((h.settled (htaken ▸ ht)).of_not_held hnot).imp_left ?_
    rintro ⟨y, hy, heq, hle⟩
    refine ⟨y, hact ▸ hy, ?_, fun z hz ↦ ?_⟩
    · rw [htimer, hlock y hy, heq]
    · grind
  · rw [htaken, hact, htimer]
    exact h.idle

theorem Sound.init (h : s.Sound) (hl : (s.lock l).initialized = false) (type : LockType) :
    (s.wakeLockInit l type).Sound := by
  have hdet := h.listed.detached hl
  refine h.frame ((hdet.setLock _).addInactive ?_ ?_) rfl (fun y hy ↦ ?_) rfl rfl rfl rfl
  · show (update s.lock l _ l).initialized = true
    rw [update_self]
  · show (update s.lock l _ l).active = false
    rw [update_self]
  · have hne : y ≠ l := fun heq ↦ hdet.not_mem_active .suspend (heq ▸ hy)
    exact update_of_ne hne ..

theorem Listed.not_mem_suspend (h : s.Listed) (htype : (s.lock l).type ≠ .suspend) :
    l ∉ s.activeWakeLocks .suspend := fun hl ↦ htype ((h.mem_active .suspend l).1 hl).2.2

theorem activate_listed (h : s.Listed) (hl : (s.lock l).initialized = true) (timeout : Option ℤ) :
    (s.activate l timeout).Listed := by
  have key : ∀ k : WakeLock, k.type = (s.lock l).type → k.initialized = true → k.active = true →
      ∀ ls, ls.Perm (l :: (s.activeWakeLocks (s.lock l).type).erase l) →
      ({ (s.listDel l).setLock l k with
        activeWakeLocks := update (s.listDel l).activeWakeLocks (s.lock l).type ls } :
          WakeState).Listed := by
    intro k htype hinit hact ls hperm
    have hself : ((s.listDel l).setLock l k).lock l = k := update_self ..
    have hperm' : ls.Perm (l :: ((s.listDel l).setLock l k).activeWakeLocks
        (((s.listDel l).setLock l k).lock l).type) := by
      rw [hself, htype]
      exact hperm
    have hlisted := ((h.listDel l).setLock k).activate (by rw [hself]; exact hinit)
      (by rw [hself]; exact hact) hperm'
    rw [hself, htype] at hlisted
    exact hlisted
  cases timeout with
  | none =>
    exact key { s.lock l with active := true, autoExpire := false, expires := longMax } rfl hl rfl _
      (List.Perm.refl _)
  | some timeout =>
    exact key { s.lock l with active := true, autoExpire := true, expires := s.jiffies + timeout }
      rfl
      hl rfl _ (perm_append_singleton ..)

theorem activate_lock_of_ne {y : ℕ} (hy : y ≠ l) (timeout : Option ℤ) :
    (s.activate l timeout).lock y = s.lock y := by
  cases timeout with
  | none => exact update_of_ne hy ..
  | some timeout => exact update_of_ne hy ..

theorem queued_listDel (h : l ∉ s.activeWakeLocks .suspend) : (s.listDel l).queued = s.queued := by
  show (s.queued && !(s.activeWakeLocks .suspend).contains l) = s.queued
  simp [h]

theorem Sound.activate_idle (h : s.Sound) (hl : (s.lock l).initialized = true)
    (htype : (s.lock l).type ≠ .suspend) (timeout : Option ℤ) : (s.activate l timeout).Sound := by
  have hnot := h.listed.not_mem_suspend htype
  have herase : (s.activeWakeLocks .suspend).erase l = s.activeWakeLocks .suspend :=
    erase_of_not_mem hnot
  have hlock : ∀ y ∈ s.activeWakeLocks .suspend, (s.activate l timeout).lock y = s.lock y := by
    grind [activate_lock_of_ne]
  have hlisted := activate_listed h.listed hl timeout
  cases timeout with
  | none =>
    exact h.frame hlisted ((update_of_ne htype.symm ..).trans herase) hlock rfl rfl rfl
      (queued_listDel hnot)
  | some timeout =>
    exact h.frame hlisted ((update_of_ne htype.symm ..).trans herase) hlock rfl rfl rfl
      (queued_listDel hnot)

theorem Sound.activate_suspend (h : s.Sound) (hl : (s.lock l).initialized = true)
    (htype : (s.lock l).type = .suspend) (hlong : ∀ t ∈ timeout, -2 ^ 31 ≤ t ∧ t < 2 ^ 31) :
    (s.activate l timeout).Ready ∧ l ∈ (s.activate l timeout).activeWakeLocks .suspend ∧
      ((s.activate l timeout).lock l).autoExpire = timeout.isSome := by
  have hlisted := activate_listed h.listed hl timeout
  have hne : ∀ y ∈ (s.activeWakeLocks .suspend).erase l, y ≠ l := fun y hy ↦
    ((h.listed.nodup_active .suspend).mem_erase_iff.1 hy).1
  have hlock : ∀ y ∈ (s.activeWakeLocks .suspend).erase l,
      (s.activate l timeout).lock y = s.lock y :=
    fun y hy ↦ activate_lock_of_ne (hne y hy) timeout
  have hrest : ((s.activeWakeLocks .suspend).erase l).Pairwise fun a b ↦
      ((s.activate l timeout).lock a).autoExpire = true →
        ((s.activate l timeout).lock b).autoExpire = true := by
    refine (List.Pairwise.sublist erase_sublist h.ordered).imp_of_mem fun {a b} ha hb hab ↦ ?_
    rw [hlock a ha, hlock b hb]
    exact hab
  have hrange : ∀ y ∈ (s.activeWakeLocks .suspend).erase l,
      ((s.activate l timeout).lock y).autoExpire = true →
        -2 ^ 31 ≤ ((s.activate l timeout).lock y).expires - s.jiffies ∧
          ((s.activate l timeout).lock y).expires - s.jiffies < 2 ^ 31 := by
    intro y hy
    rw [hlock y hy]
    exact h.inRange y (mem_of_mem_erase hy)
  cases timeout with
  | none =>
    have hself : ((s.activate l none).lock l).autoExpire = false := by
      show (update s.lock l _ l).autoExpire = false
      rw [update_self]
    have hact : (s.activate l none).activeWakeLocks .suspend =
        l :: (s.activeWakeLocks .suspend).erase l := by
      show update _ (s.lock l).type _ .suspend = _
      rw [htype]
      rfl
    refine ⟨⟨hlisted, ?_, fun y hy hauto ↦ ?_⟩, ?_, hself⟩
    · unfold Ordered
      rw [hact]
      exact pairwise_cons.2
        ⟨fun y _ hauto ↦ absurd (hself.symm.trans hauto) Bool.false_ne_true, hrest⟩
    · rw [hact] at hy
      rcases mem_cons.1 hy with rfl | hy
      · exact absurd (hself.symm.trans hauto) Bool.false_ne_true
      · exact hrange y hy hauto
    · rw [hact]
      exact mem_cons_self
  | some t =>
    have hself : ((s.activate l (some t)).lock l).autoExpire = true := by
      show (update s.lock l _ l).autoExpire = true
      rw [update_self]
    have hexp : ((s.activate l (some t)).lock l).expires = s.jiffies + t := by
      show (update s.lock l _ l).expires = s.jiffies + t
      rw [update_self]
    have hact : (s.activate l (some t)).activeWakeLocks .suspend =
        (s.activeWakeLocks .suspend).erase l ++ [l] := by
      show update _ (s.lock l).type _ .suspend = _
      rw [htype]
      rfl
    refine ⟨⟨hlisted, ?_, fun y hy hauto ↦ ?_⟩, ?_, hself⟩
    · unfold Ordered
      rw [hact, pairwise_append]
      refine ⟨hrest, pairwise_singleton .., fun a _ b hb _ ↦ ?_⟩
      rw [mem_singleton.1 hb]
      exact hself
    · rw [hact] at hy
      rcases mem_append.1 hy with hy | hy
      · exact hrange y hy hauto
      · obtain ⟨hlow, hhigh⟩ := hlong t rfl
        rw [mem_singleton.1 hy, hexp]
        show -2 ^ 31 ≤ s.jiffies + t - s.jiffies ∧ s.jiffies + t - s.jiffies < 2 ^ 31
        omega
    · grind

theorem Ready.noteTaken (h : s.Ready) : s.noteTaken.Ready :=
  { h with listed := { h.listed with } }

theorem Sound.wakeLockInternal (h : s.Sound) (hl : (s.lock l).initialized = true)
    (hlong : ∀ t ∈ timeout, -2 ^ 31 ≤ t ∧ t < 2 ^ 31) : (s.wakeLockInternal l timeout).Sound := by
  unfold WakeState.wakeLockInternal
  by_cases htype : (s.lock l).type = .suspend
  · obtain ⟨hready, hmem, hauto⟩ := h.activate_suspend hl htype hlong
    have hsound := hready.noteTaken.scan nofun
    simp only [htype]
    cases timeout with
    | some t => exact hsound
    | none =>
      -- the lock that was just taken is what the scan would have stopped at
      rw [scan_of_held hready.noteTaken.ordered ⟨l, hmem, hauto⟩] at hsound
      exact hsound
  · simp only [htype]
    exact h.activate_idle hl htype timeout

theorem Sound.wakeUnlock (h : s.Sound) (hl : (s.lock l).initialized = true) :
    (s.wakeUnlock l).Sound := by
  have hlisted := h.listed.deactivate hl
  unfold WakeState.wakeUnlock
  by_cases htype : (s.lock l).type = .suspend
  · have hlock : ∀ y ∈ (s.deactivate l).activeWakeLocks .suspend,
        (s.deactivate l).lock y = s.lock y :=
      fun y hy ↦ deactivate_lock_of_ne ((h.listed.nodup_active .suspend).mem_erase_iff.1 hy).1
    simp only [htype]
    refine Ready.scan ⟨hlisted, h.ordered.sublist erase_sublist hlock, fun y hy ↦ ?_⟩
      fun htaken ↦ ?_
    · rw [hlock y hy]
      exact h.inRange y (mem_of_mem_erase hy)
    · show (s.activeWakeLocks .suspend).erase l = []
      rw [(h.idle htaken).1]
      rfl
  · have hnot := h.listed.not_mem_suspend htype
    have hlock : ∀ y ∈ s.activeWakeLocks .suspend, (s.deactivate l).lock y = s.lock y := by
      grind [deactivate_lock_of_ne]
    simp only [htype]
    exact h.frame hlisted (erase_of_not_mem hnot) hlock rfl rfl rfl (queued_listDel hnot)

/-- Suspend does not wait for this lock: it is not an active suspend lock, or another one that
does not expire stays active, or one that expires no sooner. -/
def Dispensable (s : WakeState) (l : ℕ) : Prop :=
  l ∉ s.activeWakeLocks .suspend ∨
    (∃ y ∈ s.activeWakeLocks .suspend, y ≠ l ∧ (s.lock y).autoExpire = false) ∨
    ((s.lock l).autoExpire = true ∧
      ∃ y ∈ s.activeWakeLocks .suspend, y ≠ l ∧ (s.lock l).expires ≤ (s.lock y).expires)

theorem wakeLockDestroy_listed (h : s.Listed) (l : ℕ) : (s.wakeLockDestroy l).Listed := by
  have hdet : (s.wakeLockDestroy l).Detached l := (h.listDel l).setLock _
  refine hdet.listed ?_
  show (update s.lock l _ l).initialized = false
  rw [update_self]

theorem Sound.wakeLockDestroy (h : s.Sound) (hl : s.Dispensable l) :
    (s.wakeLockDestroy l).Sound := by
  have hlisted := wakeLockDestroy_listed h.listed l
  have hlock : ∀ y, y ≠ l → (s.wakeLockDestroy l).lock y = s.lock y := fun y hy ↦
    update_of_ne hy ..
  by_cases hmem : l ∈ s.activeWakeLocks .suspend
  · have hact : ∀ y, y ∈ (s.wakeLockDestroy l).activeWakeLocks .suspend ↔
        y ≠ l ∧ y ∈ s.activeWakeLocks .suspend := fun y ↦
      (h.listed.nodup_active .suspend).mem_erase_iff
    have hlock' : ∀ y ∈ (s.wakeLockDestroy l).activeWakeLocks .suspend,
        (s.wakeLockDestroy l).lock y = s.lock y := fun y hy ↦ hlock y ((hact y).1 hy).1
    have htaken : s.taken = true := by
      cases htaken : s.taken with
      | true => rfl
      | false =>
        rw [(h.idle htaken).1] at hmem
        cases hmem
    have hsettled := h.settled htaken
    -- a lock that does not expire stays active if there was one
    have hheld : s.Held → (s.wakeLockDestroy l).Held := by
      rintro ⟨y, hy, hauto⟩
      rcases hl with hl | ⟨z, hz, hne, hz'⟩ | ⟨hl, z, hz, hne, -⟩
      · exact absurd hmem hl
      · exact ⟨z, (hact z).2 ⟨hne, hz⟩, by rw [hlock z hne]; exact hz'⟩
      · have hy' : y ≠ l := by
          rintro rfl
          exact Bool.false_ne_true (hauto.symm.trans hl)
        exact ⟨y, (hact y).2 ⟨hy', hy⟩, by rw [hlock y hy']; exact hauto⟩
    refine ⟨⟨hlisted, h.ordered.sublist erase_sublist hlock', fun y hy ↦ ?_⟩,
      fun _ ↦ ⟨fun hnow ↦ ?_, fun hnow ↦ ?_⟩, fun hfalse ↦ ?_⟩
    · rw [hlock' y hy]
      exact h.inRange y ((hact y).1 hy).2
    · obtain ⟨y, hy, hauto⟩ := hnow
      exact hsettled.of_held ⟨y, ((hact y).1 hy).2, by rw [← hlock' y hy]; exact hauto⟩
    · have hnot : ¬s.Held := fun hyes ↦ hnow (hheld hyes)
      rcases hsettled.of_not_held hnot with ⟨y, hy, heq, hle⟩ | ⟨hnil, -⟩
      · -- the timer is set for a lock that stays
        obtain ⟨z, hz, hne, hzy⟩ : ∃ z ∈ s.activeWakeLocks .suspend, z ≠ l ∧
            (s.lock z).expires = (s.lock y).expires := by
          by_cases hyl : y = l
          · subst hyl
            rcases hl with hl | ⟨z, hz, -, hz'⟩ | ⟨-, z, hz, hne, hle'⟩
            · exact absurd hmem hl
            · exact absurd ⟨z, hz, hz'⟩ hnot
            · exact ⟨z, hz, hne, le_antisymm (hle z hz) hle'⟩
          · exact ⟨y, hy, hyl, rfl⟩
        refine .inl ⟨z, (hact z).2 ⟨hne, hz⟩, ?_, fun w hw ↦ ?_⟩
        · rw [hlock z hne, hzy]
          exact heq
        · grind
      · rw [hnil] at hmem
        cases hmem
    · exact absurd (htaken.symm.trans hfalse) Bool.true_eq_false.mp
  · refine h.frame hlisted (erase_of_not_mem hmem) (fun y hy ↦ hlock y ?_) rfl rfl rfl ?_
    · rintro rfl
      exact hmem hy
    · exact queued_listDel hmem

theorem Sound.tick (h : s.Sound) {n : ℕ}
    (hnear : ∀ y ∈ s.activeWakeLocks .suspend, (s.lock y).autoExpire = true →
      -2 ^ 31 ≤ (s.lock y).expires - (s.jiffies + n)) :
    ({ s with jiffies := s.jiffies + n } : WakeState).Sound := by
  refine ⟨⟨{ h.listed with }, h.ordered, fun y hy hauto ↦ ⟨hnear y hy hauto, ?_⟩⟩,
    fun htaken ↦ { h.settled htaken with }, h.idle⟩
  have := (h.inRange y hy hauto).2
  show (s.lock y).expires - (s.jiffies + n) < 2 ^ 31
  omega

/-- **The timer.** When it runs, every active suspend lock has expired. -/
theorem Sound.expireWakeLocks (h : s.Sound) {e : ℤ} (htimer : s.expireTimer = some e)
    (hdue : e ≤ s.jiffies) : s.expireWakeLocks.Sound := by
  have htaken : s.taken = true := by
    cases htaken : s.taken with
    | true => rfl
    | false =>
      rw [(h.idle htaken).2] at htimer
      cases htimer
  have hnot : ¬s.Held := fun hheld ↦ by
    rw [(h.settled htaken).of_held hheld] at htimer
    cases htimer
  have hready : ({ s with expireTimer := none } : WakeState).Ready :=
    { h with listed := { h.listed with } }
  have hsound := hready.scan fun hfalse ↦ (h.idle hfalse).1
  obtain ⟨hscan, hmax⟩ := scan_of_not_held hready.listed hnot
  have hzero : (({ s with expireTimer := none } : WakeState).hasWakeLockLocked .suspend).1 = 0 := by
    rcases hmax.attained with hzero | ⟨y, hy, heq, hpos⟩
    · exact hzero
    · -- the last expiry is behind
      have htime := h.inRange.timeLeft_eq hy (autoExpire_of_not_held hnot hy)
      have hexp : (s.lock y).expires ≤ e := by
        rcases (h.settled htaken).of_not_held hnot with ⟨z, -, hz, hle⟩ | ⟨-, -, hnone⟩
        · grind
        · rw [hnone] at htimer
          cases htimer
      have hpos' : 0 < s.timeLeft y := heq ▸ hpos
      omega
  have hnone := hscan.timer_eq
  unfold WakeState.expireWakeLocks
  simp only [hzero]
  generalize ({ s with expireTimer := none } : WakeState).hasWakeLockLocked .suspend = r at *
  have heq : r.2.queueWork = r.2.arm r.1 := by
    rw [arm_eq, hzero, queueWork]
    simp [hnone]
  rw [heq]
  exact hsound

end WakeState

/-! ### Runs -/

/-- **What users have to keep to.** No lock is destroyed that suspend waits for, and no active
suspend lock stays unnoticed for `2 ^ 31` ticks after its expiry. -/
def carefulWakeMachine : Machine WakeState WakeOp where
  guard s op := wakeMachine.guard s op ∧ match op with
    | .destroy l => s.Dispensable l
    | .tick n => ∀ y ∈ s.activeWakeLocks .suspend, (s.lock y).autoExpire = true →
        -2 ^ 31 ≤ (s.lock y).expires - (s.jiffies + n)
    | _ => True
  exec := wakeMachine.exec

theorem WakeState.Sound.step {s : WakeState} {op : WakeOp} (h : s.Sound)
    (hop : carefulWakeMachine.guard s op) : (carefulWakeMachine.exec s op).Sound := by
  cases op with
  | init l type => exact h.init hop.1 type
  | lock l => exact h.wakeLockInternal hop.1 (by simp)
  | lockTimeout l timeout =>
    obtain ⟨⟨hl, hlow, hhigh⟩, -⟩ := hop
    refine h.wakeLockInternal hl fun t ht ↦ ?_
    cases ht
    exact ⟨hlow, hhigh⟩
  | unlock l => exact h.wakeUnlock hop.1
  | destroy l => exact h.wakeLockDestroy hop.2
  | tick n => exact h.tick hop.2
  | timer =>
    obtain ⟨e, htimer, hdue⟩ := (Option.any_eq_true ..).1 hop.1
    exact h.expireWakeLocks htimer (of_decide_eq_true hdue)

theorem wakeBoot_sound (lock : ℕ → WakeLock) (jiffies : ℤ) : (wakeBoot lock jiffies).Sound :=
  ⟨⟨⟨nodup_nil, fun _ ↦ nodup_nil, by simp [wakeBoot], by simp [wakeBoot]⟩,
    List.Pairwise.nil, by simp [WakeState.InRange, wakeBoot]⟩,
    fun htaken ↦ absurd htaken Bool.false_ne_true, fun _ ↦ ⟨rfl, rfl⟩⟩

/-- **Wake locks never strand suspend.** After every operation each initialised lock is on exactly
one list, the active suspend locks that do not expire come first, and once a suspend lock was
taken, either one that does not expire is active, or the timer is pending for the last expiry of
the active ones, or none is active and the work that suspends the system was queued since. -/
theorem suspend_never_stranded {lock : ℕ → WakeLock} {jiffies : ℤ}
    {ops : List WakeOp} {s : WakeState}
    (h : carefulWakeMachine.Runs (wakeBoot lock jiffies) ops s) :
    (∀ l, (s.lock l).initialized = true → s.OnOneList l) ∧ s.Ordered ∧ (s.taken = true → ¬s.Held →
        s.TimerSet ∨ s.activeWakeLocks .suspend = [] ∧ s.queued = true) := by
  have hs := h.invariant (fun _ _ ↦ WakeState.Sound.step)
    (wakeBoot_sound lock jiffies)
  refine ⟨fun l hl ↦ hs.listed.onOneList hl, hs.ordered, fun htaken hnot ↦ ?_⟩
  exact ((hs.settled htaken).of_not_held hnot).imp_right fun hlast ↦ ⟨hlast.1, hlast.2.1⟩

/-- A lock that does not expire is given up while another one has time left; that one is destroyed
after the timer has run. -/
theorem suspend_never_stranded_timer : ∃ s, carefulWakeMachine.Runs
    (wakeBoot (fun _ ↦ ⟨.idle, false, false, false, 0⟩) 0)
    [.init 0 .suspend, .init 1 .suspend, .lock 0, .lockTimeout 1 100, .unlock 0, .tick 100, .timer,
      .destroy 1] s ∧
    s.taken = true ∧ (s.TimerSet ∨ s.activeWakeLocks .suspend = [] ∧ s.queued = true) := by
  refine Machine.Permitted.exists_runs ?_ fun s hrun hs ↦ ?_
  · iterate 5 refine ⟨⟨by decide +kernel, trivial⟩, ?_⟩
    refine ⟨⟨trivial, by decide +kernel⟩, ⟨by decide +kernel, trivial⟩,
      ⟨by decide +kernel, .inl (by decide +kernel)⟩, trivial⟩
  · have hend : s.taken = true := hs ▸ by decide +kernel
    have hnil : s.activeWakeLocks .suspend = [] := hs ▸ by decide +kernel
    refine ⟨hend, (suspend_never_stranded hrun).2.2 hend ?_⟩
    rintro ⟨y, hy, -⟩
    rw [hnil] at hy
    cases hy

/-- **Destroying the lock that suspend waits for.** No lock is active, no timer is pending, and no
work was queued. -/
theorem destroy_strands_suspend : ∃ s, wakeMachine.Runs
    (wakeBoot (fun _ ↦ ⟨.idle, false, false, false, 0⟩) 0)
    [.init 0 .suspend, .lock 0, .destroy 0] s ∧
    s.taken = true ∧ s.activeWakeLocks .suspend = [] ∧ s.expireTimer = none ∧ s.queued = false := by
  exact ⟨_, Machine.Permitted.runs (by decide +kernel), by decide +kernel, by decide +kernel,
    by decide +kernel, by decide +kernel⟩

end Power
