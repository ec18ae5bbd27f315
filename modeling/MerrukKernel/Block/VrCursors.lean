import MerrukKernel.Block.VrElevator
import Mathlib.Data.List.Nodup
import Mathlib.Data.Nat.Dist

/-!
# Where the cursors of the elevator point

`next_rq` is the lowest queued request at or above the head and `prev_rq` the highest one below
it, after every call. Each function of `vr-iosched.c` is described by one equation for the state
it leaves (`vrDelRqRb_eq`, `vrMoveRequest_eq`, `vrAddRqRb_spec`), in which no `BUG_ON` is hit; the
cursors in it are those of the rules of `Library.Cursor`.

The fifos hold what the tree holds, each request in the fifo of its class, as long as no request
is merged with an earlier one of the other class: `vr_merged_requests` then moves the request into
the fifo of the one that it absorbs.
-/

namespace Block

open Function List Tiling VrData

namespace VrData

variable {d : VrData} {rq : ℕ} {extra : List ℕ}

/-- The cursors are on either side of the head. -/
def Positioned (d : VrData) : Prop :=
  Cursor.At d.pos d.lastSector d.sortList d.nextRq d.prevRq

theorem bugOn_false (d : VrData) : d.bugOn false = d := by
  rw [bugOn, Bool.or_false]

variable {p : Sector} {d' : VrData} {next : ℕ} {jiffies : BitVec 32}

theorem cursors_apart {l : List ℕ} (h : Cursor.At d.pos p l d.nextRq d.prevRq) :
    d.sameCursors = false ∧ d.crossedCursors = false := by
  unfold sameCursors crossedCursors
  cases hnext : d.nextRq with
  | none => exact ⟨rfl, rfl⟩
  | some next =>
    cases hprev : d.prevRq with
    | none => exact ⟨rfl, rfl⟩
    | some prev =>
      have hlt : d.pos prev < d.pos next := h.ne hnext hprev
      refine ⟨?_, decide_eq_false hlt.not_gt⟩
      simp only [Option.isSome_some, Bool.true_and, beq_eq_false_iff_ne, ne_eq, Option.some.injEq]
      rintro rfl
      exact hlt.false

/-! ### Removal -/

theorem leave_eq (d : VrData) (rq : ℕ) : d.leave rq = { d with
      nextRq := if d.nextRq = some rq then next? d.sortList rq else d.nextRq
      prevRq := if d.nextRq ≠ some rq ∧ d.prevRq = some rq then prev? d.sortList rq
        else d.prevRq } := by
  unfold leave
  split
  · next h => simp only [h, ne_eq, not_true_eq_false, false_and, if_false]
  · next h =>
    split
    · next h' => simp only [h, h', ne_eq, not_false_eq_true, true_and, if_true]
    · next h' => simp only [h', and_false, if_false]

theorem vrDelRqRb_eq
    (h : Cursor.At d.pos p (d.sortList.erase rq) (d.leave rq).nextRq (d.leave rq).prevRq) :
    d.vrDelRqRb rq = { d.leave rq with sortList := d.sortList.erase rq } := by
  have hapart := cursors_apart (d := d.leave rq)
    (by rw [leave_eq] at h ⊢; exact h)
  unfold vrDelRqRb
  simp only [hapart.1, bugOn_false, hapart.2]
  rw [leave_eq]

/-- **Deletion.** The sector of the request may have changed since it was inserted. -/
theorem vrDelRqRb_spec {k : ℕ → Sector}
    (h : Cursor.At k d.lastSector d.sortList d.nextRq d.prevRq) (hrq : rq ∈ d.sortList)
    (hkey : ∀ y ∈ d.sortList, y ≠ rq → d.pos y = k y) :
    (d.vrDelRqRb rq).Positioned ∧ ∃ next prev, d.vrDelRqRb rq =
      { d with sortList := d.sortList.erase rq, nextRq := next, prevRq := prev } := by
  have hat := h.erase hrq hkey
  have heq : d.vrDelRqRb rq = { d.leave rq with sortList := d.sortList.erase rq } :=
    vrDelRqRb_eq (by rw [leave_eq]; exact hat)
  rw [heq, leave_eq]
  exact ⟨hat, _, _, rfl⟩

/-- **The move to the dispatch queue.** -/
theorem vrMoveRequest_eq (h : Cursor.Ascending d.pos d.sortList) (hrq : rq ∈ d.sortList) :
    d.vrMoveRequest rq = { d with
        headDir := if d.lastSector < d.pos rq then .forward else .backward
        lastSector := d.pos rq
        nextRq := next? d.sortList rq
        prevRq := prev? d.sortList rq
        fifoList := fun dir ↦ (d.fifoList dir).erase rq
        sortList := d.sortList.erase rq
        dispatched := d.dispatched ++ [rq]
        nbatched := d.nbatched + 1 } := by
  have hat : Cursor.At d.pos (d.pos rq) (d.sortList.erase rq) (next? d.sortList rq)
      (prev? d.sortList rq) := Cursor.At.repivot h hrq
  have hself : rq ∉ d.sortList.erase rq := h.nodup.not_mem_erase
  -- the cursors have left the request before it is deleted
  have hnext : next? d.sortList rq ≠ some rq := by
    intro heq
    have hn := hat.isNext
    rw [heq] at hn
    exact hself hn.1
  have hprev : prev? d.sortList rq ≠ some rq := by
    intro heq
    have hp := hat.isPrev
    rw [heq] at hp
    exact hself hp.1
  have hleave : ((d.seek rq).rqFifoClear rq).leave rq = (d.seek rq).rqFifoClear rq :=
    (if_neg hnext).trans (if_neg hprev)
  have hsame : (d.seek rq).sameCursors = false := (cursors_apart hat).1
  unfold vrMoveRequest vrRemoveRequest
  simp only [hsame, bugOn_false]
  rw [vrDelRqRb_eq (by rw [hleave]; exact hat), hleave]
  rfl

theorem vrMoveRequest_positioned (h : Cursor.Ascending d.pos d.sortList) (hrq : rq ∈ d.sortList) :
    (d.vrMoveRequest rq).Positioned := by
  rw [vrMoveRequest_eq h hrq]
  exact Cursor.At.repivot h hrq

/-! ### Insertion -/

theorem aim_eq (d : VrData) (rq : ℕ) : d.aim rq = { d with
      nextRq :=
  if d.lastSector ≤ d.pos rq ∧ ∀ r, d.nextRq = some r → d.pos rq < d.pos r then some rq
        else d.nextRq
      prevRq := if d.pos rq < d.lastSector ∧ ∀ r, d.prevRq = some r →
        d.pos r < d.pos rq then some rq
        else d.prevRq } := by
  unfold aim
  by_cases hle : d.lastSector ≤ d.pos rq
  · have hall : (d.nextRq.all fun next ↦ d.pos rq < d.pos next) = true ↔
        ∀ r, d.nextRq = some r → d.pos rq < d.pos r := by
      cases d.nextRq <;> simp
    simp only [hle, if_true, hall, true_and, hle.not_gt]
    split <;> rfl
  · have hall : (d.prevRq.all fun prev ↦ d.pos prev < d.pos rq) = true ↔
        ∀ r, d.prevRq = some r → d.pos r < d.pos rq := by
      cases d.prevRq <;> simp
    simp only [hle, if_false, hall, not_le.1 hle, true_and]
    split <;> rfl

/-- The state in which a request enters the tree: a request at the same sector has been
dispatched. -/
def Cleared (d d' : VrData) : Prop := d' = d ∨ ∃ twin ∈ d.sortList, d' = d.vrMoveRequest twin

theorem exists_enter (h : d.Positioned) (rq : ℕ) : ∃ d', d.Cleared d' ∧ d'.Positioned ∧
    ∃ sortList, d'.elvRbAdd rq = .inr sortList ∧ d.enter rq = { d' with sortList } := by
  unfold enter
  cases hadd : d.elvRbAdd rq with
  | inr sortList => exact ⟨d, .inl rfl, h, sortList, hadd, rfl⟩
  | inl twin =>
    obtain ⟨htwin, hpos⟩ := Cursor.insert?_eq_inl hadd
    have hmove := vrMoveRequest_eq h.ascending htwin
    have hfresh : ∀ y ∈ (d.vrMoveRequest twin).sortList,
        (d.vrMoveRequest twin).pos y ≠ (d.vrMoveRequest twin).pos rq := by
      rw [hmove]
      intro y hy heq
      obtain ⟨hne, hy⟩ := (h.ascending.nodup.mem_erase_iff).1 hy
      exact hne (h.ascending.eq_of_key_eq htwin hy (heq.trans hpos.symm))
    refine ⟨d.vrMoveRequest twin, .inr ⟨twin, htwin, rfl⟩,
      vrMoveRequest_positioned h.ascending htwin, ?_⟩
    cases hadd' : (d.vrMoveRequest twin).elvRbAdd rq with
    | inr sortList => exact ⟨sortList, rfl, by simp only [hadd']⟩
    | inl y =>
      obtain ⟨hy, hkey⟩ := Cursor.insert?_eq_inl hadd'
      exact absurd hkey (hfresh y hy)

/-- **Insertion.** -/
theorem vrAddRqRb_spec (h : d.Positioned) (rq : ℕ) : (d.vrAddRqRb rq).Positioned ∧
    ∃ d', d.Cleared d' ∧ ∃ sortList next prev, sortList.Perm (rq :: d'.sortList) ∧
      d.vrAddRqRb rq = { d' with sortList, nextRq := next, prevRq := prev } := by
  obtain ⟨d', hcleared, hd', sortList, hadd, henter⟩ := exists_enter h rq
  have hat := hd'.insert hadd
  have haim := aim_eq { d' with sortList } rq
  have hapart := cursors_apart (d := ({ d' with sortList } : VrData).aim rq)
    (by rw [haim]; exact hat)
  have heq : d.vrAddRqRb rq = ({ d' with sortList } : VrData).aim rq := by
    unfold vrAddRqRb
    simp only [henter, hapart.1, bugOn_false, hapart.2]
  rw [heq, haim]
  refine ⟨hat, d', hcleared, sortList, _, _, ?_, rfl⟩
  obtain ⟨b, a, hba, rfl, -⟩ := Cursor.insert?_eq_inr hd'.ascending hadd
  rw [hba]
  exact perm_middle

/-! ### The fifos -/

/-- The fifos hold the requests of the tree and some others, each in the fifo of its class. -/
structure Filed (d : VrData) (extra : List ℕ) : Prop where
  nodup : ∀ dir, (d.fifoList dir).Nodup
  mem_iff : ∀ dir y, y ∈ d.fifoList dir ↔ (y ∈ d.sortList ∨ y ∈ extra) ∧ d.dir y = dir

theorem Filed.move (h : d.Filed extra) (hd : Cursor.Ascending d.pos d.sortList)
    (hrq : rq ∈ d.sortList)
    (hextra : rq ∉ extra) : (d.vrMoveRequest rq).Filed extra := by
  rw [vrMoveRequest_eq hd hrq]
  refine ⟨fun dir ↦ (h.nodup dir).erase rq, fun dir y ↦ ?_⟩
  show y ∈ (d.fifoList dir).erase rq ↔ (y ∈ d.sortList.erase rq ∨ y ∈ extra) ∧ d.dir y = dir
  rw [(h.nodup dir).mem_erase_iff, h.mem_iff, hd.nodup.mem_erase_iff]
  by_cases hy : y = rq
  · subst hy
    simp [hextra]
  · simp [hy]

/-- What holds of the elevator between its functions; between calls, nothing is on a fifo that is
not in the tree. -/
structure Sound (d : VrData) (extra : List ℕ) : Prop where
  positioned : d.Positioned
  filed : d.Filed extra
  no_bug : d.bug = false
  expires : ∀ dir, d.fifoExpire dir ≠ 0

theorem Sound.ascending (h : d.Sound extra) : Cursor.Ascending d.pos d.sortList :=
  h.positioned.ascending

theorem Sound.nodup (h : d.Sound extra) : d.sortList.Nodup := h.ascending.nodup

theorem Sound.move (h : d.Sound extra) (hrq : rq ∈ d.sortList) (hextra : rq ∉ extra) :
    (d.vrMoveRequest rq).Sound extra := by
  refine ⟨vrMoveRequest_positioned h.ascending hrq, h.filed.move h.ascending hrq hextra, ?_, ?_⟩
  · rw [vrMoveRequest_eq h.ascending hrq]
    exact h.no_bug
  · rw [vrMoveRequest_eq h.ascending hrq]
    exact h.expires

theorem Sound.cleared (h : d.Sound extra) (hextra : ∀ y ∈ d.sortList, y ∉ extra)
    (hcleared : d.Cleared d') : d'.Sound extra ∧ d'.dir = d.dir ∧ ∀ y ∈ d'.sortList,
    y ∈ d.sortList := by
  rcases hcleared with rfl | ⟨twin, htwin, rfl⟩
  · exact ⟨h, rfl, fun _ hy ↦ hy⟩
  · refine ⟨h.move htwin (hextra twin htwin), ?_⟩
    rw [vrMoveRequest_eq h.ascending htwin]
    exact ⟨rfl, fun _ hy ↦ mem_of_mem_erase hy⟩

/-! ### The calls -/

/-- A request enters the tree that is on its fifo already. -/
theorem Sound.vrAddRqRb (h : d.Sound [rq]) (hrq : rq ∉ d.sortList) : (d.vrAddRqRb rq).Sound [] := by
  obtain ⟨hpos, d', hcleared, sortList, next, prev, hperm, heq⟩ := vrAddRqRb_spec h.positioned rq
  have hextra : ∀ y ∈ d.sortList, y ∉ [rq] := by grind
  obtain ⟨hd', -, -⟩ := h.cleared hextra hcleared
  refine ⟨hpos, ?_, ?_, ?_⟩
  · rw [heq]
    refine ⟨hd'.filed.nodup, fun dir y ↦ ?_⟩
    show y ∈ d'.fifoList dir ↔ (y ∈ sortList ∨ y ∈ []) ∧ d'.dir y = dir
    rw [hd'.filed.mem_iff, hperm.mem_iff]
    simp only [mem_cons, not_mem_nil, or_false]
    rw [or_comm]
  · rw [heq]
    exact hd'.no_bug
  · rw [heq]
    exact hd'.expires

theorem Sound.vrAddRequest (h : d.Sound []) (hrq : rq ∉ d.sortList) (jiffies : BitVec 32) :
    (d.vrAddRequest rq jiffies).Sound [] := by
  obtain ⟨hpos, d', hcleared, sortList, next, prev, hperm, heq⟩ := vrAddRqRb_spec h.positioned rq
  obtain ⟨hd', hdir, hsub⟩ := h.cleared (fun _ _ ↦ not_mem_nil) hcleared
  have hnot : ∀ dir, rq ∉ d'.fifoList dir := by grind [hd'.filed.mem_iff]
  have hexp : (d.vrAddRqRb rq).fifoExpire (d.dir rq) ≠ 0 := by
    rw [heq]
    exact hd'.expires _
  unfold VrData.vrAddRequest
  simp only [hexp]
  refine ⟨hpos, ⟨fun dir ↦ ?_, fun dir y ↦ ?_⟩, ?_, ?_⟩
  · rw [heq]
    show (update d'.fifoList (d.dir rq) (d'.fifoList (d.dir rq) ++ [rq]) dir).Nodup
    rw [update_apply]
    split
    · rw [(perm_append_singleton ..).nodup_iff, nodup_cons]
      exact ⟨hnot _, hd'.filed.nodup _⟩
    · exact hd'.filed.nodup dir
  · rw [heq]
    show y ∈ update d'.fifoList (d.dir rq) (d'.fifoList (d.dir rq) ++ [rq]) dir ↔
      (y ∈ sortList ∨ y ∈ []) ∧ d'.dir y = dir
    have hmem := hd'.filed.mem_iff dir y
    by_cases hy : y = rq
    · grind
    · grind
  · rw [heq]
    exact hd'.no_bug
  · rw [heq]
    exact hd'.expires

/-- The block layer sets up a request that is not queued. -/
theorem Sound.fresh (h : d.Sound []) (hrq : rq ∉ d.sortList) (pos : Sector) (dir : DataDir) :
    ((d.setPos rq pos).setDir rq dir).Sound [] := by
  have hne : ∀ y ∈ d.sortList, y ≠ rq := fun y hy heq ↦ hrq (heq ▸ hy)
  refine ⟨h.positioned.congr fun y hy ↦ update_of_ne (hne y hy) ..,
    ⟨h.filed.nodup, fun c y ↦ (h.filed.mem_iff c y).trans ?_⟩, h.no_bug, h.expires⟩
  show (y ∈ d.sortList ∨ y ∈ []) ∧ d.dir y = c ↔
    (y ∈ d.sortList ∨ y ∈ []) ∧ update d.dir rq dir y = c
  by_cases hy : y ∈ d.sortList
  · rw [update_of_ne (hne y hy)]
  · simp [hy]

/-- A front merge changes the sector of a request, which stays on its fifo. -/
theorem Sound.vrMergedRequest (h : d.Sound []) (hrq : rq ∈ d.sortList) (pos : Sector) :
    ((d.setPos rq pos).vrMergedRequest rq).Sound [] := by
  obtain ⟨hdel, next, prev, heq⟩ := vrDelRqRb_spec (d := d.setPos rq pos) h.positioned
    hrq fun y _ hne ↦ update_of_ne hne ..
  have hfiled : ((d.setPos rq pos).vrDelRqRb rq).Filed [rq] := by
    rw [heq]
    refine ⟨h.filed.nodup, fun dir y ↦ ?_⟩
    show y ∈ d.fifoList dir ↔ (y ∈ d.sortList.erase rq ∨ y ∈ [rq]) ∧ d.dir y = dir
    rw [h.filed.mem_iff]
    by_cases hy : y = rq
    · subst hy
      simp [hrq]
    · simp [hy]
  have hs : ((d.setPos rq pos).vrDelRqRb rq).Sound [rq] := by
    refine ⟨hdel, hfiled, ?_, ?_⟩
    · rw [heq]
      exact h.no_bug
    · rw [heq]
      exact h.expires
  refine hs.vrAddRqRb ?_
  rw [heq]
  exact h.nodup.not_mem_erase

theorem Sound.vrRemoveRequest (h : d.Sound []) (hrq : rq ∈ d.sortList) :
    (d.vrRemoveRequest rq).Sound [] := by
  obtain ⟨hdel, next, prev, heq⟩ := vrDelRqRb_spec (d := d.rqFifoClear rq) h.positioned hrq
    fun _ _ _ ↦ rfl
  refine ⟨hdel, ?_, ?_, ?_⟩
  · unfold VrData.vrRemoveRequest
    rw [heq]
    refine ⟨fun dir ↦ (h.filed.nodup dir).erase rq, fun dir y ↦ ?_⟩
    show y ∈ (d.fifoList dir).erase rq ↔ (y ∈ d.sortList.erase rq ∨ y ∈ []) ∧ d.dir y = dir
    rw [(h.filed.nodup dir).mem_erase_iff, h.filed.mem_iff, h.nodup.mem_erase_iff]
    simp [and_assoc]
  · unfold VrData.vrRemoveRequest
    rw [heq]
    exact h.no_bug
  · unfold VrData.vrRemoveRequest
    rw [heq]
    exact h.expires

/-! ### Two requests become one -/

/-- The place behind `next` is in the fifo of the class of `rq`, or `rq` stays where it is. -/
def KeepsClass (d : VrData) (rq next : ℕ) : Prop :=
  d.dir rq = d.dir next ∨ timeBefore (d.fifoTime next) (d.fifoTime rq) = false

theorem Filed.listMove (h : d.Filed []) (hrq : rq ∈ d.sortList) (hnext : next ∈ d.sortList)
    (hne : rq ≠ next) (hdir : d.dir rq = d.dir next) : (d.listMove rq next).Filed [] := by
  refine ⟨fun dir ↦ ?_, fun dir y ↦ ?_⟩
  · exact nodup_insertAfter ((h.nodup dir).erase rq) (h.nodup dir).not_mem_erase
  · show y ∈ insertAfter next rq ((d.fifoList dir).erase rq) ↔
      (y ∈ d.sortList ∨ y ∈ []) ∧ d.dir y = dir
    rw [mem_insertAfter, (h.nodup dir).mem_erase_iff, (h.nodup dir).mem_erase_iff,
      h.mem_iff, h.mem_iff]
    by_cases hy : y = rq
    · subst hy
      simp [hrq, hnext, hne.symm, hdir]
    · simp [hy]

theorem Sound.vrMergedRequests (h : d.Sound []) (hrq : rq ∈ d.sortList)
    (hnext : next ∈ d.sortList) (hne : rq ≠ next) (hkeeps : d.KeepsClass rq next) :
    (d.vrMergedRequests rq next).Sound [] := by
  unfold VrData.vrMergedRequests
  split
  · next hmove =>
    have hdir : d.dir rq = d.dir next := by
      rcases hkeeps with hdir | htime
      · exact hdir
      · grind
    have hfiled := h.filed.listMove hrq hnext hne hdir
    exact Sound.vrRemoveRequest (d := { d.listMove rq next with
        fifoTime := update (d.listMove rq next).fifoTime rq ((d.listMove rq next).fifoTime next) })
      ⟨h.positioned, ⟨hfiled.nodup, hfiled.mem_iff⟩, h.no_bug, h.expires⟩ hnext
  · exact h.vrRemoveRequest hnext

/-! ### Dispatch -/

theorem Sound.vrExpiredRequest_mem {dir : DataDir} (h : d.Sound [])
    (hexp : d.vrExpiredRequest jiffies dir = some rq) : rq ∈ d.sortList := by
  obtain ⟨hhead, -⟩ := Option.filter_eq_some_iff.1 hexp
  rcases ((h.filed.mem_iff dir rq).1 (mem_of_mem_head? hhead)).1 with hmem | hmem
  · exact hmem
  · exact absurd hmem not_mem_nil

theorem Sound.vrCheckFifo_mem (h : d.Sound [])
    (hcheck : d.vrCheckFifo jiffies = some rq) : rq ∈ d.sortList := by
  unfold vrCheckFifo at hcheck
  split at hcheck
  · grind [h.vrExpiredRequest_mem]
  · grind [h.vrExpiredRequest_mem]
  · exact h.vrExpiredRequest_mem hcheck

/-- What is chosen is under a cursor. -/
theorem vrChooseRequest_cases (hchoose : d.vrChooseRequest = some rq) :
    d.nextRq = some rq ∨ d.prevRq = some rq := by
  unfold vrChooseRequest at hchoose
  split at hchoose
  · exact .inl hchoose
  · next hprev => exact .inr (hprev.trans hchoose)
  · grind [lowerPenalty]

/-- Nothing is chosen only when nothing is queued. -/
theorem Sound.eq_nil_of_vrChooseRequest (h : d.Sound extra) (hchoose : d.vrChooseRequest = none) :
    d.sortList = [] := by
  have hcursors : d.nextRq = none ∧ d.prevRq = none := by
    unfold vrChooseRequest at hchoose
    split at hchoose
    · next hprev => exact ⟨hchoose, hprev⟩
    · cases hchoose
    · cases hchoose
  have hn := h.positioned.isNext
  have hp := h.positioned.isPrev
  rw [hcursors.1] at hn
  rw [hcursors.2] at hp
  exact eq_nil_iff_forall_not_mem.2 fun y hy ↦ (hp y hy).not_gt (hn y hy)

theorem Sound.vrChooseRequest_mem (h : d.Sound extra) (hchoose : d.vrChooseRequest = some rq) :
    rq ∈ d.sortList := by
  rcases vrChooseRequest_cases hchoose with hnext | hprev
  · have hn := h.positioned.isNext
    rw [hnext] at hn
    exact hn.1
  · have hp := h.positioned.isPrev
    rw [hprev] at hp
    exact hp.1

theorem Sound.setBatch (h : d.Sound extra) (n : BitVec 32) :
    ({ d with nbatched := n } : VrData).Sound extra :=
  ⟨h.positioned, ⟨h.filed.nodup, h.filed.mem_iff⟩, h.no_bug, h.expires⟩

theorem Sound.dispatchChosen_cases (h : d.Sound []) : (d.sortList = [] ∧ d.dispatchChosen = d) ∨
      ∃ rq ∈ d.sortList, d.dispatchChosen = d.vrMoveRequest rq := by
  unfold dispatchChosen
  simp only [(cursors_apart h.positioned).1, bugOn_false]
  cases hchoose : d.vrChooseRequest with
  | none => exact .inl ⟨h.eq_nil_of_vrChooseRequest hchoose, rfl⟩
  | some rq => exact .inr ⟨rq, h.vrChooseRequest_mem hchoose, rfl⟩

/-- **Dispatch.** A queued request is moved to the dispatch queue, if there is one. -/
theorem Sound.vrDispatchRequests_cases (h : d.Sound []) (jiffies : BitVec 32) :
    ∃ n, (d.sortList = [] ∧ d.vrDispatchRequests jiffies = { d with nbatched := n }) ∨
      ∃ rq ∈ d.sortList,
        d.vrDispatchRequests jiffies = ({ d with nbatched := n } : VrData).vrMoveRequest rq := by
  unfold vrDispatchRequests
  split
  · refine ⟨0, ?_⟩
    simp only
    cases hcheck : ({ d with nbatched := 0 } : VrData).vrCheckFifo jiffies with
    | some rq => exact .inr ⟨rq, (h.setBatch 0).vrCheckFifo_mem hcheck, rfl⟩
    | none => exact (h.setBatch 0).dispatchChosen_cases
  · exact ⟨d.nbatched, h.dispatchChosen_cases⟩

theorem Sound.vrDispatchRequests (h : d.Sound []) (jiffies : BitVec 32) :
    (d.vrDispatchRequests jiffies).Sound [] := by
  obtain ⟨n, ⟨-, heq⟩ | ⟨rq, hrq, heq⟩⟩ := h.vrDispatchRequests_cases jiffies
  · rw [heq]
    exact h.setBatch n
  · rw [heq]
    exact (h.setBatch n).move hrq not_mem_nil

/-! ### No request is lost -/

/-- What the elevator has taken and not given back. -/
def held (d : VrData) : List ℕ := d.sortList ++ d.dispatched

theorem held_vrMoveRequest (h : Cursor.Ascending d.pos d.sortList) (hrq : rq ∈ d.sortList) :
    (d.vrMoveRequest rq).held.Perm d.held := by
  rw [vrMoveRequest_eq h hrq]
  show (d.sortList.erase rq ++ (d.dispatched ++ [rq])).Perm (d.sortList ++ d.dispatched)
  rw [← append_assoc]
  exact (perm_append_singleton ..).trans ((perm_cons_erase hrq).symm.append_right _)

theorem Cleared.held_perm (hcleared : d.Cleared d')
    (h : Cursor.Ascending d.pos d.sortList) : d'.held.Perm d.held := by
  rcases hcleared with rfl | ⟨twin, htwin, rfl⟩
  · exact List.Perm.refl _
  · exact held_vrMoveRequest h htwin

theorem held_vrAddRqRb (h : d.Positioned) (rq : ℕ) : (d.vrAddRqRb rq).held.Perm (rq :: d.held) := by
  obtain ⟨-, d', hcleared, sortList, next, prev, hperm, heq⟩ := vrAddRqRb_spec h rq
  rw [heq]
  exact (hperm.append_right d'.dispatched).trans ((hcleared.held_perm h.ascending).cons rq)

theorem held_vrRemoveRequest (h : d.Positioned) (hrq : rq ∈ d.sortList) :
    d.held.Perm (rq :: (d.vrRemoveRequest rq).held) := by
  obtain ⟨-, next, prev, heq⟩ := vrDelRqRb_spec (d := d.rqFifoClear rq) h hrq fun _ _ _ ↦ rfl
  unfold vrRemoveRequest
  rw [heq]
  exact (perm_cons_erase hrq).append_right d.dispatched

theorem held_vrMergedRequest (h : d.Positioned) (hrq : rq ∈ d.sortList) (pos : Sector) :
    ((d.setPos rq pos).vrMergedRequest rq).held.Perm d.held := by
  obtain ⟨hdel, next, prev, heq⟩ := vrDelRqRb_spec (d := d.setPos rq pos) h hrq
    fun y _ hne ↦ update_of_ne hne ..
  refine (held_vrAddRqRb hdel rq).trans ?_
  rw [heq]
  exact (perm_cons_erase hrq).symm.append_right d.dispatched

theorem Sound.held_vrDispatchRequests (h : d.Sound []) (jiffies : BitVec 32) :
    (d.vrDispatchRequests jiffies).held.Perm d.held := by
  obtain ⟨n, ⟨-, heq⟩ | ⟨rq, hrq, heq⟩⟩ := h.vrDispatchRequests_cases jiffies
  · rw [heq]
    exact List.Perm.refl _
  · rw [heq]
    exact held_vrMoveRequest (h.setBatch n).ascending hrq

theorem held_vrMergedRequests (h : d.Positioned) (hnext : next ∈ d.sortList) :
    d.held.Perm (next :: (d.vrMergedRequests rq next).held) := by
  unfold vrMergedRequests
  split
  · exact held_vrRemoveRequest (d := { d.listMove rq next with
      fifoTime := update (d.listMove rq next).fifoTime rq ((d.listMove rq next).fifoTime next) })
      h hnext
  · exact held_vrRemoveRequest h hnext

theorem held_vrAddRequest (h : d.Positioned) (rq : ℕ) (jiffies : BitVec 32) :
    (d.vrAddRequest rq jiffies).held.Perm (rq :: d.held) := by
  unfold vrAddRequest
  simp only
  split
  · exact held_vrAddRqRb h rq
  · exact held_vrAddRqRb h rq

end VrData

/-! ### Runs -/

/-- **The merges that keep to the classes.** A request absorbs a request of its own class, or one
that does not expire before it. -/
def carefulVrMachine : Machine VrQueue VrOp where
  guard q op := vrMachine.guard q op ∧ match op with
    | .mergeRequests rq next => q.data.KeepsClass rq next
    | _ => True
  exec := vrMachine.exec

/-- The invariant of the queue. -/
structure VrQueue.Sound (q : VrQueue) : Prop where
  data : q.data.Sound []
  accounted : q.added.Perm (q.data.held ++ q.withdrawn)

theorem VrQueue.Sound.step {q : VrQueue} {op : VrOp} (h : q.Sound)
    (hop : carefulVrMachine.guard q op) :
    (carefulVrMachine.exec q op).Sound := by
  have hpos := h.data.positioned
  cases op with
  | add rq pos dir jiffies =>
    have hrq : rq ∉ q.data.sortList := hop.1
    have hdata := h.data.fresh hrq pos dir
    refine ⟨hdata.vrAddRequest hrq jiffies, ?_⟩
    exact (h.accounted.cons rq).trans
      ((held_vrAddRequest hdata.positioned rq jiffies).symm.append_right _)
  | frontMerge rq pos =>
    exact ⟨h.data.vrMergedRequest hop.1 pos,
      h.accounted.trans ((held_vrMergedRequest hpos hop.1 pos).symm.append_right _)⟩
  | mergeRequests rq next =>
    obtain ⟨⟨hrq, hnext, hne⟩, hkeeps⟩ := hop
    refine ⟨h.data.vrMergedRequests hrq hnext hne hkeeps, ?_⟩
    exact h.accounted.trans (((held_vrMergedRequests hpos hnext).append_right _).trans
      perm_middle.symm)
  | dispatch jiffies =>
    exact ⟨h.data.vrDispatchRequests jiffies,
      h.accounted.trans ((h.data.held_vrDispatchRequests jiffies).symm.append_right _)⟩
  | remove rq =>
    refine ⟨h.data.vrRemoveRequest hop.1, ?_⟩
    exact h.accounted.trans (((held_vrRemoveRequest hpos hop.1).append_right _).trans
      perm_middle.symm)

/-- **The positions of the elevator.** However requests are added, merged, dispatched and removed,
`next_rq` is the lowest queued request at or above the head and `prev_rq` the highest one below
it, no `BUG_ON` is hit, and the requests that were added and neither dispatched nor taken back are
in the tree once and in the fifo of their class once. -/
theorem vr_queue_positioned {pos : ℕ → Sector} {dir : ℕ → DataDir} {fifoTime : ℕ → BitVec 32}
    {ops : List VrOp} {q : VrQueue}
    (h : carefulVrMachine.Runs ⟨vrInitQueue pos dir fifoTime, [], []⟩ ops q) :
    Cursor.IsNext q.data.pos q.data.lastSector q.data.sortList q.data.nextRq ∧
      Cursor.IsPrev q.data.pos q.data.lastSector q.data.sortList q.data.prevRq ∧
      q.added.Perm (q.data.sortList ++ q.data.dispatched ++ q.withdrawn) ∧
      q.data.sortList.Nodup ∧
      (∀ rq ∈ q.data.sortList, ∀ c,
        (q.data.fifoList c).count rq = if q.data.dir rq = c then 1 else 0) ∧
      q.data.bug = false := by
  have hs : q.Sound := h.invariant (fun _ _ ↦ VrQueue.Sound.step)
    ⟨⟨Cursor.At.nil 0, ⟨fun _ ↦ nodup_nil, fun _ _ ↦ by simp [vrInitQueue]⟩, rfl, ?_⟩,
      List.Perm.nil⟩
  · refine ⟨hs.data.positioned.isNext, hs.data.positioned.isPrev, hs.accounted, hs.data.nodup,
      fun rq hrq c ↦ ?_, hs.data.no_bug⟩
    have hmem := hs.data.filed.mem_iff c rq
    split
    · next hc => exact count_eq_one_of_mem (hs.data.filed.nodup c) (hmem.2 ⟨.inl hrq, hc⟩)
    · next hc => exact count_eq_zero_of_not_mem fun hin ↦ hc (hmem.1 hin).2
  · rintro (_ | _)
    · show asyncExpire ≠ 0
      decide
    · show syncExpire ≠ 0
      decide

/-- Two requests of one class are merged, the earlier deadline is kept, and the request is
dispatched. -/
theorem vr_queue_positioned_merged : ∃ q, carefulVrMachine.Runs
    ⟨vrInitQueue (fun _ ↦ 0) (fun _ ↦ .async) (fun _ ↦ 0), [], []⟩
    [.add 0 8 .async 0, .add 1 16 .sync 0, .add 2 24 .async 4294966000,
      .mergeRequests 0 2, .dispatch 0,
      .frontMerge 1 4] q ∧
    q.data.dispatched = [0] ∧ q.data.nextRq = none ∧ q.data.prevRq = some 1 ∧
    q.data.bug = false := by
  refine Machine.Permitted.exists_runs ?_ fun q hrun hq ↦ ?_
  · refine ⟨⟨by decide +kernel, trivial⟩, ⟨by decide +kernel, trivial⟩,
      ⟨by decide +kernel, trivial⟩,
      ⟨by decide +kernel, .inl (by decide +kernel)⟩, ⟨by decide +kernel, trivial⟩,
      ⟨by decide +kernel, trivial⟩, trivial⟩
  · exact ⟨hq ▸ by decide +kernel, hq ▸ by decide +kernel, hq ▸ by decide +kernel,
      (vr_queue_positioned hrun).2.2.2.2.2⟩

/-- **A request in the fifo of the other class.** An asynchronous request absorbs a synchronous
one, which expires earlier: it is then in the synchronous fifo. -/
theorem merge_changes_class : ∃ q, vrMachine.Runs
    ⟨vrInitQueue (fun _ ↦ 0) (fun _ ↦ .async) (fun _ ↦ 0), [], []⟩
    [.add 0 8 .async 0, .add 1 16 .sync 0, .mergeRequests 0 1] q ∧
    0 ∈ q.data.sortList ∧ q.data.dir 0 = .async ∧ q.data.fifoList .async = [] ∧
    q.data.fifoList .sync = [0] := by
  exact ⟨_, Machine.Permitted.runs (by decide +kernel), by decide +kernel, by decide +kernel,
    by decide +kernel, by decide +kernel⟩

/-! ### The choice

The comment at the head of `vr-iosched.c` asks for the request with the lower cost, where a request
that lies behind the head costs its distance times the penalty. `vr_choose_request` takes the
remainder of the other distance instead.
-/

namespace VrData

variable (d : VrData)

/-- The penalty for turning the head. -/
def penalty : ℕ := if d.revPenalty = 0 then 2 ^ 31 - 1 else d.revPenalty

/-- The distance of a request from the head. -/
def distance (rq : ℕ) : ℕ := Nat.dist (d.pos rq).val d.lastSector.val

/-- What it costs to go to a request that lies in this direction. -/
def cost (dir : HeadDir) (rq : ℕ) : ℕ :=
  if dir = d.headDir then d.distance rq else d.distance rq * d.penalty

/-- The request of lower cost, of one on either side of the head. -/
def cheaper (next prev : ℕ) : ℕ :=
  if d.cost .forward next ≤ d.cost .backward prev then next else prev

variable {d} {next prev : ℕ}

theorem dist_of_le {a b : Sector} (h : a ≤ b) : (b - a).val = Nat.dist a.val b.val := by
  rw [Fin.sub_val_of_le h, Nat.dist_eq_sub_of_le h]

/-- The test that `vr_choose_request` makes, in distances. -/
theorem lowerPenalty_eq (hprev : d.pos prev ≤ d.lastSector) (hnext : d.lastSector ≤ d.pos next) :
    d.lowerPenalty next prev =
      if d.headDir = .forward then
        if d.distance next % d.penalty ≤ d.distance prev then next else prev
      else if d.distance next ≤ d.distance prev % d.penalty then next else prev := by
  rw [lowerPenalty, dist_of_le hprev, dist_of_le hnext, Nat.dist_comm d.lastSector.val]
  cases d.headDir <;> rfl

/-- Ahead of the head at the distance `a`, and behind it at `b`, for a penalty of `k`: `a` is at
most `b` above a multiple of `k` and at most `b * k`; or it is between such a multiple and the next
one, which are not below `b * k`. With `tie = 1` the bounds are strict. -/
def Ranked (tie a b k : ℕ) : Prop :=
  ∃ q, (q * k ≤ a ∧ a + tie ≤ q * k + b ∧ a + tie ≤ b * k) ∨
    (b ≤ q ∧ q * k + b < a + tie ∧ a < (q + 1) * k)

/-- The remainder compares like the distance itself with the penalised one. -/
theorem ranked_iff {tie a b k : ℕ} (htie : tie ≤ 1) (hk : 0 < k) :
    Ranked tie a b k ↔ (a % k + tie ≤ b ↔ a + tie ≤ b * k) := by
  have hdiv := Nat.div_add_mod' a k
  have hlt := Nat.mod_lt a hk
  constructor
  · rintro ⟨q, ⟨hq, hnear, hle⟩ | ⟨hb, hfar, hnext⟩⟩
    · have hquot : q ≤ a / k := (Nat.le_div_iff_mul_le hk).2 hq
      have hmul := Nat.mul_le_mul_right k hquot
      exact iff_of_true (by omega) hle
    · have hmul := Nat.mul_le_mul_right k hb
      have hquot : a / k = q := Nat.div_eq_of_lt_le (by omega) hnext
      rw [hquot] at hdiv
      exact iff_of_false (by omega) (by omega)
  · intro hsame
    have hnext : a < (a / k + 1) * k := by rw [Nat.add_mul]; omega
    by_cases hle : a + tie ≤ b * k
    · exact ⟨a / k, .inl ⟨by omega, by have := hsame.2 hle; omega, hle⟩⟩
    · have hgt := mt hsame.1 hle
      exact ⟨a / k, .inr ⟨(Nat.le_div_iff_mul_le hk).2 (by omega), by omega, hnext⟩⟩

end VrData

/-- **What `vr_choose_request` chooses** of two requests on either side of the head: the one of
lower cost exactly when the distance ahead lies in the right place between the multiples of the
penalty. A request in the direction of the head that is closer than the other one is always
chosen. -/
theorem vr_choose_request_iff {d : VrData} {next prev : ℕ} (hnext : d.nextRq = some next)
    (hprev : d.prevRq = some prev) (hne : next ≠ prev) (hle : d.pos prev ≤ d.lastSector)
    (hge : d.lastSector ≤ d.pos next) :
    (d.vrChooseRequest = some (d.cheaper next prev) ↔
      if d.headDir = .forward then Ranked 0 (d.distance next) (d.distance prev) d.penalty
      else Ranked 1 (d.distance prev) (d.distance next) d.penalty) ∧
      (d.headDir = .forward → d.distance next < d.distance prev → d.vrChooseRequest = some next) ∧
      (d.headDir = .backward → d.distance prev < d.distance next →
        d.vrChooseRequest = some prev) := by
  have hchosen : d.vrChooseRequest = some (d.lowerPenalty next prev) := by
    rw [vrChooseRequest, hnext, hprev]
  have hsame : ∀ {p q : Prop} [Decidable p] [Decidable q],
      (some (if p then next else prev) = some (if q then next else prev)) ↔ (p ↔ q) := by
    intro p q _ _
    by_cases hp : p <;> by_cases hq : q <;> simp [hp, hq, hne, hne.symm]
  have hpos : 0 < d.penalty := by
    unfold penalty
    split <;> omega
  rw [hchosen, lowerPenalty_eq hle hge, cheaper, cost, cost, ranked_iff zero_le_one hpos,
    ranked_iff le_rfl hpos]
  cases d.headDir with
  | forward =>
    refine ⟨hsame, fun _ hlt ↦ ?_, nofun⟩
    exact congrArg some (if_pos ((Nat.mod_le _ _).trans hlt.le))
  | backward =>
    refine ⟨hsame.trans ?_, nofun, fun _ hlt ↦ ?_⟩
    · -- the request ahead is chosen if the other one is not
      simp only [reduceCtorEq, if_false, if_true, Nat.succ_le_iff]
      rw [← not_le, ← not_le, not_iff_not]
    · have hgt : ¬ d.distance next ≤ d.distance prev % d.penalty :=
        Nat.not_le.2 ((Nat.mod_le _ _).trans_lt hlt)
      exact congrArg some (if_neg hgt)

/-- A queue with a request on either side of the head. -/
def twoSided (head prev next : Sector) : VrData :=
  (vrMachine.final ⟨vrInitQueue (fun _ ↦ head) (fun _ ↦ .async) (fun _ ↦ 0), [], []⟩
    [.add 0 head .async 0, .dispatch 0, .add 1 prev .async 0, .add 2 next .async 0]).data

theorem vr_choose_request_iff_near : (twoSided 100 90 105).vrChooseRequest =
    some ((twoSided 100 90 105).cheaper 2 1) := by
  have hforward : (twoSided 100 90 105).headDir = .forward := by decide +kernel
  refine (vr_choose_request_iff (by decide +kernel) (by decide +kernel) (by decide)
    (by decide +kernel) (by decide +kernel)).1.2 ?_
  rw [if_pos hforward]
  exact ⟨0, .inl (by decide +kernel)⟩

/-- **The remainder decides**: ahead of the head the distance is `20`, behind it `1`, which costs
`10`; the request ahead is chosen, since `20` leaves no remainder. -/
theorem remainder_chooses_farther : (twoSided 100 99 120).nextRq = some 2 ∧
    (twoSided 100 99 120).prevRq = some 1 ∧ (twoSided 100 99 120).cost .forward 2 = 20 ∧
    (twoSided 100 99 120).cost .backward 1 = 10 ∧
    (twoSided 100 99 120).vrChooseRequest = some 2 := by
  decide +kernel

end Block
