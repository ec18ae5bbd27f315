import MerrukKernel.Rpc.SyncViews

/-!
# The tasks of the synchronous layer

A task makes its calls one after another. Each of its steps keeps the invariant of prompt runs:
while it stores a call it is alone with its slot, then it waits for what the handlers bring, and
it goes on only when a semaphore is released or when nobody is at work on its slot.
-/

namespace Rpc

open Function List

variable {copyCb : ℕ → ℕ → ℤ → ℕ × ℕ} {s : Sync} {t c i : ℕ}

/-! ### Writes -/

/-- A handler of acknowledgements leaves the semaphores and the response alone. -/
theorem Write.IsAck.write {w : Write} (hw : w.IsAck) (x : Slot) :
    (x.write w).ackSema = x.ackSema ∧ (x.write w).rspSema = x.rspSema ∧
      (x.write w).result = x.result ∧ (x.write w).data = x.data ∧ (x.write w).dataLen = x.dataLen ∧
      ((x.write w).tid = x.tid ∨ (x.write w).tid = 0) := by
  cases w with
  | ack _ | isResultPending _ => exact ⟨rfl, rfl, rfl, rfl, rfl, .inl rfl⟩
  | tid k => exact ⟨rfl, rfl, rfl, rfl, rfl, .inr hw⟩
  | semas | result _ | msgType _ | data _ | dataLen _ | rspSize _ => exact hw.elim

/-- A handler of responses leaves the semaphores and the acknowledgement alone. -/
theorem Write.IsRsp.write {w : Write} (hw : w.IsRsp) (x : Slot) :
    (x.write w).ackSema = x.ackSema ∧ (x.write w).rspSema = x.rspSema ∧ (x.write w).ack = x.ack ∧
      (x.write w).isResultPending = x.isResultPending ∧
      ((x.write w).tid = x.tid ∨ (x.write w).tid = 0) := by
  cases w with
  | result _ | msgType _ | rspSize _ => exact ⟨rfl, rfl, rfl, rfl, .inl rfl⟩
  | tid k => exact ⟨rfl, rfl, rfl, rfl, .inr hw⟩
  | semas | ack _ | isResultPending _ | data _ | dataLen _ => exact hw.elim

variable {call : Call} {x : Slot} {cp : Option Response} {h : Handler}

theorem Slot.answered_ackSema {r : Response} {ws : List Write} (n : ℕ)
    (h : (x.writes ws).Answered copyCb r call) :
    (({ x with ackSema := n } : Slot).writes ws).Answered copyCb r call := by
  induction ws generalizing x n with
  | nil => exact h
  | cons w ws ih =>
    cases w with
    | semas => exact h
    | tid _ | ack _ | isResultPending _ | result _ | msgType _ | data _ | dataLen _ | rspSize _ =>
      exact ih n h

theorem Meets.ackSema (n : ℕ)
    (hm : Meets copyCb i x c h call cp) : Meets copyCb i { x with ackSema := n } c h call cp := by
  cases h with
  | acked _ | rspScan _ _ _ | rspCopy _ _ _ | done _ _ => exact hm
  | rspWrite a r j ws =>
    obtain ⟨hj, h1, h2, h3, h4, h5, h6, h7⟩ := hm
    exact ⟨hj, h1, h2, h3, h4, h5, Slot.answered_ackSema n h6, h7⟩
  | unsent | sent | ackScan _ _ | ackWrite _ _ _ => exact hm.elim

/-- An acknowledgement that is not successful, or that defers the response, leaves no response in
the slot. -/
theorem Meets.quiet
    (hm : Meets copyCb i x c h call cp) (hx : x.ack = .success → x.isResultPending = true) :
    x.rspSema = 0 ∧ h.slot? = none := by
  have hnot : ∀ a : Ack, x.Acked a → a.result = .success → a.isResultPending = false → False := by
    intro a ha h1 h2
    have := hx (ha.1.trans h1)
    rw [ha.2, h2] at this
    cases this
  cases h with
  | acked a => exact ⟨hm.2.2.2, rfl⟩
  | rspScan a r j => exact ⟨hm.2.2.2.1, rfl⟩
  | rspCopy a r j => exact (hnot a hm.2.2.2.1 hm.2.1 hm.2.2.1).elim
  | rspWrite a r j ws => exact (hnot a hm.2.2.2.1 hm.2.1 hm.2.2.1).elim
  | done a r =>
    rcases hm.2.2 with ⟨h1, h2, -⟩ | ⟨-, h1⟩
    · exact (hnot a hm.1 h1 h2).elim
    · exact ⟨h1, rfl⟩
  | unsent | sent | ackScan _ _ | ackWrite _ _ _ => exact hm.elim

/-! ### Steps of the tasks -/

theorem Sync.Orderly.create (h : s.Orderly copyCb) (hpc : s.tasks t = .idle)
    (hlt : s.nextCall + 1 < 2 ^ 32) (dataLen : ℤ) : (s.create t dataLen).Orderly copyCb := by
  have hcurr := h.count hlt
  have hold : ∀ c', c' < s.nextCall → (s.create t dataLen).calls c' = s.calls c' := fun c' hc' ↦
    update_of_ne (Nat.ne_of_lt hc') ..
  have hnew : (s.create t dataLen).calls s.nextCall = ⟨t, s.currTid, dataLen⟩ :=
    update_self ..
  have hself : (s.create t dataLen).tasks t = .find s.nextCall := update_self ..
  have hother : ∀ t', t' ≠ t → (s.create t dataLen).tasks t' = s.tasks t' := fun t' ht' ↦
    update_of_ne ht' ..
  -- a handler at work belongs to a call that has been made, and its task is not the idle one
  have hbusy : ∀ c i, (s.handlers c).slot? = some i → c < s.nextCall := by
    intro c i hi
    by_contra hge
    rw [h.fresh c (not_lt.1 hge)] at hi
    cases hi
  refine ⟨fun hlt' ↦ ?_, fun c hc ↦ ?_, h.apart, fun i htid ↦ ?_, fun c hc ↦ ?_, fun t' c hc ↦ ?_,
    fun c i hi ↦ ?_, fun t' ↦ ?_, fun o ho h1 h2 h3 ↦ ?_⟩
  · have hlt' : s.nextCall + 2 < 2 ^ 32 := hlt'
    show nextTid s.currTid = s.nextCall + 2
    rw [nextTid, hcurr, Nat.mod_eq_of_lt (by omega), if_neg (by omega)]
  · rcases Nat.lt_succ_iff_lt_or_eq.1 hc with hc | rfl
    · rw [hold c hc]
      exact h.tid c hc
    · rw [hnew]
      exact hcurr
  · obtain ⟨c, hc, hctid, htask⟩ := h.stored i htid
    exact ⟨c, Nat.lt_succ_of_lt hc, hctid, (hold c hc).symm ▸ htask⟩
  · exact h.fresh c (Nat.le_of_succ_le hc)
  · by_cases ht' : t' = t
    · subst ht'
      rw [hself] at hc
      cases hc
      exact ⟨Nat.lt_succ_self _, congrArg Call.task hnew⟩
    · rw [hother t' ht'] at hc
      obtain ⟨hlt, htask⟩ := h.current t' c hc
      exact ⟨Nat.lt_succ_of_lt hlt, (hold c hlt).symm ▸ htask⟩
  · obtain ⟨h1, h2⟩ := h.holder c i hi
    rw [hold c (hbusy c i hi)]
    have hne : (s.calls c).task ≠ t := by
      intro heq
      rw [heq, hpc] at h1
      cases h1
    rw [hother _ hne]
    exact ⟨h1, h2⟩
  · by_cases ht' : t' = t
    · subst ht'
      refine fitsAt_of_call (by rw [hself]; rfl) ?_
      rw [hself]
      have hq := h.fits t'
      rw [FitsAt, hpc] at hq
      exact ⟨h.fresh _ le_rfl, hq⟩
    · have hq := h.fits t'
      cases hcall : (s.tasks t').call? with
      | none =>
        rw [FitsAt, fits_of_call?_eq_none hcall] at hq
        rw [FitsAt, hother t' ht', fits_of_call?_eq_none hcall]
        exact hq
      | some c =>
        refine fitsAt_of_call (by rw [hother t' ht', hcall]) ?_
        rw [hother t' ht', hold c (h.current t' c hcall).1]
        exact hq.of_call hcall
  · obtain ⟨a, r, hdone, hmatch⟩ := h.past o ho h1 h2 h3
    have hlt : o.call < s.nextCall := by grind [h.fresh]
    refine ⟨a, r, hdone, ?_⟩
    rw [hold _ hlt]
    exact hmatch

theorem Slot.created_createWrites (x : Slot) (c : ℕ) (call : Call) :
    (x.writes (Sync.createWrites c call.tid call.dataLen)).Created c call ∧
      (x.writes (Sync.createWrites c call.tid call.dataLen)).ackSema = x.ackSema ∧
      (x.writes (Sync.createWrites c call.tid call.dataLen)).rspSema = x.rspSema ∧
      ∀ w ∈ Sync.createWrites c call.tid call.dataLen, w.IsCreate call.tid := by
  refine ⟨⟨rfl, rfl, rfl, rfl, rfl, rfl⟩, rfl, rfl, ?_⟩
  simp [Sync.createWrites, Write.IsCreate]

/-- `RPC_SyncCreateTID`, up to the end. -/
theorem Sync.Orderly.find (h : s.Orderly copyCb) (hpc : s.tasks t = .find c) :
    (s.taskStep t).Orderly copyCb := by
  obtain ⟨hc, hun, hquiet⟩ := h.sees hpc rfl
  rw [taskStep, hpc]
  cases hmap : s.getMapForCurrentTask t with
  | some i =>
    have hown : s.own t = some (i, s.slots i) := by rw [own, hmap]; rfl
    obtain ⟨hcreated, h1, h2, hall⟩ := Slot.created_createWrites (s.slots i) c (s.calls c)
    refine h.move hc rfl ⟨_, hown, hun, ⟨h1.trans ?_, h2.trans ?_⟩, hcreated, hall⟩
    · exact (hquiet _ _ hown).1
    · exact (hquiet _ _ hown).2
  | none =>
    have hown : s.own t = none := by rw [own, hmap]; rfl
    exact h.move hc rfl ⟨hun, hown⟩

theorem Sync.Orderly.newMap (h : s.Orderly copyCb) (hpc : s.tasks t = .newMap c) :
    (s.taskStep t).Orderly copyCb := by
  obtain ⟨hc, hun, hnone⟩ := h.sees hpc rfl
  rw [taskStep, hpc]
  cases hmap : s.getNewMapForCurrentTask with
  | none =>
    -- no slot is left
    refine h.leave hc (by rw [hun]; rfl) ?_ rfl fun _ ho ↦ .inl ho
    rw [hnone]
    simp [OwnQuiet]
  | some i =>
    have hfree : (s.slots i).task = none := by simpa using List.find?_some hmap
    have hsuits : s.Suits t i := by
      refine ⟨mem_range.1 (mem_of_find?_eq_some hmap), fun t' ht' ↦ ?_, fun j hj ↦ ?_⟩
      · cases hfree.symm.trans ht'
      · cases hnone.symm.trans ((own_eq_some h.apart).2 ⟨hj, rfl⟩)
    obtain ⟨hcreated, h1, h2, hall⟩ := Slot.created_createWrites
      (({ s.slots i with task := some t } : Slot).write .semas) c (s.calls c)
    refine h.advance hc rfl rfl rfl rfl rfl rfl (update_eq_self ..).symm (fun _ _ ↦ rfl) hsuits rfl
      (.inl rfl) rfl (.inl ⟨rfl, rfl⟩) (fun j hj ↦ ?_)
      ⟨_, rfl, hun, ⟨h1, h2⟩, hcreated, forall_mem_cons.2 ⟨trivial, hall⟩⟩
    have hj : (s.handlers c).slot? = some j := hj
    rw [hun] at hj
    cases hj

theorem Sync.Orderly.store (h : s.Orderly copyCb) {ws : List Write}
    (hpc : s.tasks t = .store i c ws) :
    (s.taskStep t).Orderly copyCb := by
  obtain ⟨hc, x, hown, hun, hquiet, hcreated, hall⟩ := h.sees hpc rfl
  obtain ⟨htask, hx⟩ := (own_eq_some h.apart).1 hown
  rw [taskStep, hpc]
  cases ws with
  | cons w ws =>
    show ((s.setSlot i ((s.slots i).write w)).setTask t (.store i c ws)).Orderly copyCb
    rw [hx]
    refine h.moveSlot hc rfl hown (Slot.write_task x w) ?_
      ⟨_, rfl, hun, hquiet, hcreated, fun w' hw' ↦ hall w' (mem_cons_of_mem _ hw')⟩
    have hw := hall w (mem_cons_self ..)
    cases w with
    | tid k => exact .inr hw
    | semas | ack _ | isResultPending _ | result _ | msgType _ | data _ | dataLen _ | rspSize _ =>
      exact .inl rfl
  | nil =>
    -- the request is sent
    have hslots : s.slots = Function.update s.slots i x := hx ▸ (update_eq_self ..).symm
    refine h.advance hc rfl rfl rfl rfl hslots rfl rfl
      (fun _ _ ↦ rfl) (h.apart.suits htask) (hx ▸ htask) (.inl (by rw [hx])) rfl
      (.inr fun a r ↦ ?_) (fun _ hk ↦ by cases hk) ⟨i, x, rfl, hquiet, hcreated⟩
    simp [hun]

/-- Once the semaphore is released, the acknowledgement is there. -/
theorem Awaits.acked (ha : Awaits copyCb i x c h call cp) (hs : 0 < x.ackSema) :
    x.ackSema = 1 ∧ Meets copyCb i x c h call cp := by
  cases h with
  | sent => exact absurd ha.1.1 hs.ne'
  | ackScan a j => exact absurd ha.1.1 hs.ne'
  | ackWrite a j ws => exact absurd ha.2.1.1 hs.ne'
  | unsent | acked _ | rspScan _ _ _ | rspCopy _ _ _ | rspWrite _ _ _ _ | done _ _ => exact ha

/-- Once the semaphore is released, the response is there. -/
theorem Meets.done (hm : Meets copyCb i x c h call cp) (hs : 0 < x.rspSema) :
    x.rspSema = 1 ∧ ∃ a r, h = .done a r ∧ x.ack = a.result ∧ x.Answered copyCb r call ∧
      cp = some r := by
  cases h with
  | acked a => exact absurd hm.2.2.2 hs.ne'
  | rspScan a r j => exact absurd hm.2.2.2.1 hs.ne'
  | rspCopy a r j => exact absurd hm.2.2.2.2.2.2 hs.ne'
  | rspWrite a r j ws => exact absurd hm.2.2.2.2.2.1 hs.ne'
  | done a r =>
    rcases hm.2.2 with ⟨-, -, h1, h2, h3⟩ | ⟨-, h1⟩
    · exact ⟨h1, a, r, rfl, hm.1.1, h2, h3⟩
    · exact absurd h1 hs.ne'
  | unsent | sent | ackScan _ _ | ackWrite _ _ _ => exact hm.elim

theorem ownQuiet_some (hx : x.Quiet) : OwnQuiet (some (i, x)) := by
  intro j y hy
  cases hy
  exact hx

variable {ok : Bool} {ack : AckResult}

/-- `RPC_SyncWaitForResponse`, up to the acknowledgement. -/
theorem Sync.Orderly.sent (h : s.Orderly copyCb) (hpc : s.tasks t = .sent c) :
    (s.taskStep t).Orderly copyCb := by
  obtain ⟨hc, i, x, hown, hawait⟩ := h.sees hpc rfl
  have hmap : s.getMapForCurrentTask t = some i := by
    obtain ⟨j, hj, heq⟩ := Option.map_eq_some_iff.1 hown
    exact (Prod.mk.inj heq).1 ▸ hj
  rw [taskStep, hpc]
  simp only [hmap]
  exact h.move hc rfl ⟨x, hown, hawait⟩

theorem Sync.Orderly.waitAck (h : s.Orderly copyCb) (hen : s.enabled (.task t) = true)
    (hpc : s.tasks t = .waitAck i c) : (s.taskStep t).Orderly copyCb := by
  obtain ⟨hc, x, hown, hawait⟩ := h.sees hpc rfl
  have hx := h.slots_eq hown
  rw [enabled, hpc] at hen
  have hs : 0 < x.ackSema := hx ▸ of_decide_eq_true hen
  obtain ⟨hone, hmeets⟩ := hawait.acked hs
  rw [taskStep, hpc]
  show ((s.setSlot i { s.slots i with ackSema := (s.slots i).ackSema - 1 }).setTask t
    (.readAck i c true)).Orderly copyCb
  rw [hx]
  exact h.moveSlot hc rfl hown rfl (.inl rfl)
    ⟨_, rfl, (congrArg (· - 1) hone : x.ackSema - 1 = 0), hmeets.ackSema _⟩

theorem Sync.Orderly.readAck (h : s.Orderly copyCb) (hpc : s.tasks t = .readAck i c ok) :
    (s.taskStep t).Orderly copyCb := by
  obtain ⟨hc, hf⟩ := h.sees hpc rfl
  rw [taskStep, hpc]
  cases ok with
  | true =>
    obtain ⟨x, hown, hs, hmeets⟩ := hf
    have hx := h.slots_eq hown
    exact h.move hc rfl ⟨x, hown, hs, hmeets, congrArg Slot.ack hx⟩
  | false =>
    obtain ⟨x, hown, hquiet, hack, hslot⟩ := hf
    have hx := h.slots_eq hown
    show (s.setTask t (.checkAck i c false (s.slots i).ack)).Orderly copyCb
    rw [hx, hack]
    exact h.move hc rfl ⟨x, hown, hquiet, hack, hslot⟩

theorem Sync.Orderly.checkAck (h : s.Orderly copyCb) (hpc : s.tasks t = .checkAck i c ok ack) :
    (s.taskStep t).Orderly copyCb := by
  obtain ⟨hc, hf⟩ := h.sees hpc rfl
  rw [taskStep, hpc]
  show (if (s.slots i).ack = .success then s.setTask t (.checkPending i c ok ack)
    else s.return_ t c ack none resultOk).Orderly copyCb
  cases ok with
  | true =>
    obtain ⟨x, hown, hs, hmeets, rfl⟩ := hf
    have hx := h.slots_eq hown
    rw [hx]
    by_cases hack : x.ack = .success
    · rw [if_pos hack]
      exact h.move hc rfl ⟨x, hown, hs, hmeets, rfl, hack⟩
    · rw [if_neg hack]
      obtain ⟨hquiet, hslot⟩ := hmeets.quiet (fun hx ↦ absurd hx hack)
      exact h.finish hc hslot (hown ▸ ownQuiet_some ⟨hs, hquiet⟩) (fun _ hr ↦ absurd rfl hr)
  | false =>
    cases ack with
    | failed =>
      obtain ⟨x, hown, hquiet, hack, hslot, -⟩ := hf
      have hx := h.slots_eq hown
      rw [hx, hack]
      exact h.finish hc hslot (hown ▸ ownQuiet_some hquiet) (fun _ hr ↦ absurd rfl hr)
    | success | transmitFail | criticalError => exact hf.elim

/-- `RPC_SyncWaitForResponse`, up to the response. -/
theorem Sync.Orderly.checkPending (h : s.Orderly copyCb)
    (hpc : s.tasks t = .checkPending i c ok ack) :
    (s.taskStep t).Orderly copyCb := by
  obtain ⟨hc, hf⟩ := h.sees hpc rfl
  rw [taskStep, hpc]
  show (if (s.slots i).isResultPending then s.return_ t c ack none resultOk
    else s.setTask t (.waitRsp i c ok ack)).Orderly copyCb
  cases ok with
  | true =>
    obtain ⟨x, hown, hs, hmeets, rfl, hack⟩ := hf
    have hx := h.slots_eq hown
    rw [hx]
    cases hpend : x.isResultPending with
    | true =>
      obtain ⟨hquiet, hslot⟩ := hmeets.quiet (fun _ ↦ hpend)
      exact h.finish hc hslot (hown ▸ ownQuiet_some ⟨hs, hquiet⟩) (fun _ hr ↦ absurd rfl hr)
    | false => exact h.move hc rfl ⟨x, hown, hs, hmeets, rfl, hack, hpend⟩
  | false => exact hf.elim

theorem Sync.Orderly.waitRsp (h : s.Orderly copyCb) (hen : s.enabled (.task t) = true)
    (hpc : s.tasks t = .waitRsp i c ok ack) : (s.taskStep t).Orderly copyCb := by
  obtain ⟨hc, hf⟩ := h.sees hpc rfl
  cases ok with
  | true =>
    obtain ⟨x, hown, hs, hmeets, rfl, -, -⟩ := hf
    have hx := h.slots_eq hown
    rw [enabled, hpc] at hen
    have hrsp : 0 < x.rspSema := hx ▸ of_decide_eq_true hen
    obtain ⟨hone, a, r, hdone, hack, hans, hcp⟩ := hmeets.done hrsp
    rw [taskStep, hpc]
    show ((s.setSlot i { s.slots i with rspSema := (s.slots i).rspSema - 1 }).setTask t
      (.readType i c true x.ack)).Orderly copyCb
    rw [hx]
    exact h.moveSlot hc rfl hown rfl (.inl rfl)
      ⟨_, rfl, ⟨hs, (congrArg (· - 1) hone : x.rspSema - 1 = 0)⟩, a, r, hdone, hack, hans, hcp⟩
  | false => exact hf.elim

/-- `RPC_SyncWaitForResponse`, to its end. -/
theorem Sync.Orderly.readType (h : s.Orderly copyCb) (hpc : s.tasks t = .readType i c ok ack) :
    (s.taskStep t).Orderly copyCb := by
  obtain ⟨hc, hf⟩ := h.sees hpc rfl
  rw [taskStep, hpc]
  cases ok with
  | true =>
    obtain ⟨x, hown, hquiet, a, r, hdone, hack, hans, hcp⟩ := hf
    have hx := h.slots_eq hown
    exact h.move hc rfl ⟨x, hown, hquiet, a, r, hdone, hack, hans, hcp,
      (congrArg Slot.msgType hx).trans hans.2.1⟩
  | false => exact h.move hc rfl hf

theorem Sync.Orderly.readSize (h : s.Orderly copyCb) {ty : ℕ}
    (hpc : s.tasks t = .readSize i c ok ack ty) :
    (s.taskStep t).Orderly copyCb := by
  obtain ⟨hc, hf⟩ := h.sees hpc rfl
  rw [taskStep, hpc]
  cases ok with
  | true =>
    obtain ⟨x, hown, hquiet, a, r, hdone, hack, hans, hcp, hty⟩ := hf
    have hx := h.slots_eq hown
    exact h.move hc rfl ⟨x, hown, hquiet, a, r, hdone, hack, hans, hcp, hty,
      (congrArg Slot.rspSize hx).trans hans.2.2⟩
  | false => exact h.move hc rfl hf

theorem Sync.Orderly.readResult (h : s.Orderly copyCb) {ty sz : ℕ}
    (hpc : s.tasks t = .readResult i c ok ack ty sz) : (s.taskStep t).Orderly copyCb := by
  obtain ⟨hc, hf⟩ := h.sees hpc rfl
  rw [taskStep, hpc]
  cases ok with
  | true =>
    obtain ⟨x, hown, hquiet, a, r, hdone, hack, hans, hcp, rfl, rfl⟩ := hf
    have hx := h.slots_eq hown
    refine h.finish hc (by rw [hdone]; rfl) (hown ▸ ownQuiet_some hquiet) (fun _ _ _ ↦ ?_)
    exact ⟨a, r, hdone, (h.current t c hc).2, hack, rfl,
      (congrArg Slot.result hx).trans hans.1, hcp⟩
  | false =>
    obtain ⟨x, hown, hquiet, herr, hslot, -⟩ := hf
    have hx := h.slots_eq hown
    refine h.finish hc hslot (hown ▸ ownQuiet_some hquiet) (fun _ _ hok ↦ ?_)
    rw [hx, herr] at hok
    cases hok

theorem Sync.Orderly.taskStep (h : s.Orderly copyCb) (hen : s.enabled (.task t) = true) :
    (s.taskStep t).Orderly copyCb := by
  cases hpc : s.tasks t with
  | idle => rw [enabled, hpc] at hen; cases hen
  | stuck => rw [enabled, hpc] at hen; cases hen
  | find c => exact h.find hpc
  | newMap c => exact h.newMap hpc
  | store i c ws => exact h.store hpc
  | sent c => exact h.sent hpc
  | waitAck i c => exact h.waitAck hen hpc
  | readAck i c ok => exact h.readAck hpc
  | checkAck i c ok ack => exact h.checkAck hpc
  | checkPending i c ok ack => exact h.checkPending hpc
  | waitRsp i c ok ack => exact h.waitRsp hen hpc
  | readType i c ok ack => exact h.readType hpc
  | readSize i c ok ack ty => exact h.readSize hpc
  | readResult i c ok ack ty sz => exact h.readResult hpc

/-- A wait that times out leaves nothing behind, and no handler is at work. -/
theorem Sync.Orderly.timeoutStep (h : s.Orderly copyCb) (hen : s.enabled (.timeout t) = true)
    (hprompt : s.Prompt (.timeout t)) : (s.timeoutStep t).Orderly copyCb := by
  cases hpc : s.tasks t with
  | waitAck i c =>
    obtain ⟨hc, x, hown, hawait⟩ := h.sees hpc rfl
    have hx := h.slots_eq hown
    rw [enabled, hpc] at hen
    have hs : x.ackSema = 0 := hx ▸ of_decide_eq_true hen
    simp only [Prompt, hpc] at hprompt
    rw [Sync.timeoutStep, hpc]
    cases hh : s.handlers c with
    | sent =>
      rw [hh] at hawait
      exact h.move hc rfl ⟨x, hown, hawait.1, hawait.2.2.1, by rw [hh]; rfl, by rw [hh]; simp⟩
    | ackScan a j =>
      rw [hh] at hawait
      exact h.move hc rfl ⟨x, hown, hawait.1, hawait.2.1.2.1, by rw [hh]; rfl, by rw [hh]; simp⟩
    | ackWrite a j ws =>
      rw [hh] at hawait
      exact absurd (by rw [hh, hawait.1]; rfl) (hprompt c)
    | unsent | acked _ | rspScan _ _ _ | rspCopy _ _ _ | rspWrite _ _ _ _ | done _ _ =>
      rw [hh] at hawait
      cases hawait.1.symm.trans hs
  | waitRsp i c ok ack =>
    obtain ⟨hc, hf⟩ := h.sees hpc rfl
    cases ok with
    | false => exact hf.elim
    | true =>
      obtain ⟨x, hown, hs, hmeets, -, hack, hpend⟩ := hf
      have hx := h.slots_eq hown
      rw [enabled, hpc] at hen
      have hrsp : x.rspSema = 0 := hx ▸ of_decide_eq_true hen
      simp only [Prompt, hpc] at hprompt
      rw [Sync.timeoutStep, hpc]
      cases hh : s.handlers c with
      | acked a =>
        rw [hh] at hmeets
        exact h.move hc rfl ⟨x, hown, ⟨hs, hrsp⟩, hmeets.2.2.1.1, by rw [hh]; rfl, by rw [hh]; simp⟩
      | rspScan a r j =>
        rw [hh] at hmeets
        exact h.move hc rfl ⟨x, hown, ⟨hs, hrsp⟩, hmeets.2.2.1.1, by rw [hh]; rfl, by rw [hh]; simp⟩
      | rspCopy a r j =>
        rw [hh] at hmeets
        exact absurd (by rw [hh, hmeets.1]; rfl) (hprompt c)
      | rspWrite a r j ws =>
        rw [hh] at hmeets
        exact absurd (by rw [hh, hmeets.1]; rfl) (hprompt c)
      | done a r =>
        rw [hh] at hmeets
        rcases hmeets.2.2 with ⟨-, -, h1, -⟩ | ⟨hdef, -⟩
        · cases h1.symm.trans hrsp
        · cases hdef.2.symm.trans (hmeets.1.2.symm.trans hpend)
      | unsent | sent | ackScan _ _ | ackWrite _ _ _ =>
        rw [hh] at hmeets
        exact hmeets.elim
  | idle | stuck | find _ | newMap _ | store _ _ _ | sent _ | readAck _ _ _ | checkAck _ _ _ _
  | checkPending _ _ _ _ | readType _ _ _ _ | readSize _ _ _ _ _ | readResult _ _ _ _ _ _ =>
    rw [enabled, hpc] at hen
    cases hen

end Rpc
