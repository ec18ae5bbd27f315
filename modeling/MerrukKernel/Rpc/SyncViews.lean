import MerrukKernel.Rpc.Sync

/-!
# What the tasks of the synchronous layer see

A slot is used for one call after another, and nothing but its id tells the calls apart. The id
stays in the slot when a wait is given up, and the semaphores keep what late handlers release: a
wait for the next call then finds its semaphore released before its own response is there. So
calls and responses match as long as the handlers are **prompt**: whenever a handler finds a slot
by its id, the task is still to take what it brings, and no wait times out while a handler is at
work on its slot.

The proof follows one task at a time. `Fits` says, for every place at which a task can be, what
its slot holds and how far the handlers of its call have come; a step changes one task and the
handlers of its own calls, and what the other tasks see stays the same (`Orderly.update`).
-/

open Function

namespace Rpc

/-! ### Prompt handlers -/

/-- The call that a task is in. -/
def TaskPc.call? : TaskPc → Option ℕ
  | .idle | .stuck => none
  | .find c | .newMap c | .store _ c _ | .sent c | .waitAck _ c | .readAck _ c _ | .checkAck _ c _ _
  | .checkPending _ c _ _ | .waitRsp _ c _ _ | .readType _ c _ _ | .readSize _ c _ _ _
  | .readResult _ c _ _ _ _ => some c

/-- The task has still to take an acknowledgement. -/
def TaskPc.awaitsAck : TaskPc → Bool
  | .sent _ | .waitAck _ _ => true
  | _ => false

/-- The task has still to take a response, if there is to be one. -/
def TaskPc.awaitsRsp : TaskPc → Bool
  | .sent _ | .waitAck _ _ | .readAck _ _ true | .checkAck _ _ true _ | .checkPending _ _ true _
  | .waitRsp _ _ true _ => true
  | _ => false

/-- The slot that a handler has found and is at work on. -/
def Handler.slot? : Handler → Option ℕ
  | .ackWrite _ i _ | .rspCopy _ _ i | .rspWrite _ _ i _ => some i
  | _ => none

/-- **Prompt handlers.** When a handler finds a slot by its id, the task of the slot has still to
take what it brings, and a response comes only after a successful acknowledgement; no wait times
out while a handler is at work on its slot; and ids do not come round again. -/
def Sync.Prompt (s : Sync) : SyncOp → Prop
  | .create _ _ => s.nextCall + 1 < 2 ^ 32
  | .timeout t =>
    match s.tasks t with
    | .waitAck i _ | .waitRsp i _ _ _ => ∀ c, (s.handlers c).slot? ≠ some i
    | _ => True
  | .deliver c =>
    match s.handlers c with
    | .ackScan _ i => (s.slots i).tid = (s.calls c).tid →
        ∀ t, (s.slots i).task = some t → (s.tasks t).awaitsAck = true
    | .rspScan a _ i => (s.slots i).tid = (s.calls c).tid →
        a.result = .success ∧ ∀ t, (s.slots i).task = some t → (s.tasks t).awaitsRsp = true
    | _ => True
  | _ => True

/-- The tasks with prompt handlers. -/
def promptMachine (copyCb : ℕ → ℕ → ℤ → ℕ × ℕ) : Machine Sync SyncOp where
  guard s op := s.enabled op = true ∧ s.Prompt op
  exec := Sync.step copyCb

/-! ### Slots and their tasks -/

/-- The slot of a task, with its number. -/
def Sync.own (s : Sync) (t : ℕ) : Option (ℕ × Slot) :=
  (s.getMapForCurrentTask t).map fun i ↦ (i, s.slots i)

/-- A task has at most one slot. -/
def Sync.SlotsApart (s : Sync) : Prop :=
  ∀ i t, (s.slots i).task = some t → i < maxTasksNum ∧ ∀ j, (s.slots j).task = some t → j = i

variable {x x' : Slot} {pc : TaskPc}

theorem Sync.own_eq_some {s : Sync} (h : s.SlotsApart) {t i : ℕ} :
    s.own t = some (i, x) ↔ (s.slots i).task = some t ∧ s.slots i = x := by
  rw [own, getMapForCurrentTask]
  constructor
  · intro hown
    obtain ⟨j, hj, heq⟩ := Option.map_eq_some_iff.1 hown
    obtain ⟨rfl, rfl⟩ := Prod.mk.inj heq
    exact ⟨by simpa using List.find?_some hj, rfl⟩
  · rintro ⟨ht, rfl⟩
    cases hfind : (List.range maxTasksNum).find? fun i ↦ (s.slots i).task = some t with
    | none =>
      have := List.find?_eq_none.1 hfind i (List.mem_range.2 (h i t ht).1)
      simp [ht] at this
    | some j =>
      have hj : (s.slots j).task = some t := by simpa using List.find?_some hfind
      rw [(h i t ht).2 j hj]
      rfl

theorem Sync.own_congr {s s' : Sync} (h : s.SlotsApart) (h' : s'.SlotsApart) {t : ℕ}
    (hsame : ∀ i, (s.slots i).task = some t ∨ (s'.slots i).task = some t → s'.slots i = s.slots i) :
    s'.own t = s.own t := by
  ext ⟨i, x⟩
  rw [own_eq_some h, own_eq_some h']
  constructor
  · grind
  · grind

/-! ### What a slot holds -/

/-- Several writes. -/
def Slot.writes (x : Slot) (ws : List Write) : Slot := ws.foldl Slot.write x

@[simp] theorem Slot.write_task (x : Slot) (w : Write) : (x.write w).task = x.task := by
  cases w <;> rfl

/-- Nothing is left in the semaphores. -/
def Slot.Quiet (x : Slot) : Prop := x.ackSema = 0 ∧ x.rspSema = 0

/-- No response has been written. -/
def Slot.Unanswered (x : Slot) (c : ℕ) (call : Call) : Prop :=
  x.result = resultError ∧ x.data = some c ∧ x.dataLen = call.dataLen

/-- The slot of a call that has been created. -/
def Slot.Created (x : Slot) (c : ℕ) (call : Call) : Prop :=
  x.tid = call.tid ∧ x.ack = .failed ∧ x.isResultPending = false ∧ x.Unanswered c call

/-- The response is left to the client: it will find no slot. -/
def Ack.Deferred (a : Ack) : Prop := a.result = .success ∧ a.isResultPending = true
deriving Decidable

/-- The acknowledgement has been written. -/
def Slot.Acked (x : Slot) (a : Ack) : Prop :=
  x.ack = a.result ∧ x.isResultPending = a.isResultPending

/-- The id after an acknowledgement. -/
def Slot.Open (x : Slot) (a : Ack) (call : Call) : Prop :=
  x.tid = if a.Deferred then 0 else call.tid

/-- The id is that of the call, or none. -/
def Slot.Own (x : Slot) (call : Call) : Prop := x.tid = 0 ∨ x.tid = call.tid

/-- The response has been written. -/
def Slot.Answered (copyCb : ℕ → ℕ → ℤ → ℕ × ℕ) (x : Slot) (r : Response) (call : Call) : Prop :=
  x.result = (copyCb r.msgType r.payload call.dataLen).2 ∧ x.msgType = r.msgType ∧
    x.rspSize = (copyCb r.msgType r.payload call.dataLen).1

/-- The writes of a handler of acknowledgements. -/
def Write.IsAck : Write → Prop
  | .ack _ | .isResultPending _ => True
  | .tid k => k = 0
  | _ => False

/-- The writes of a handler of responses. -/
def Write.IsRsp : Write → Prop
  | .result _ | .msgType _ | .rspSize _ => True
  | .tid k => k = 0
  | _ => False

/-- The writes of a task that creates a call. -/
def Write.IsCreate (tid : ℕ) : Write → Prop
  | .tid k => k = 0 ∨ k = tid
  | _ => True

/-! ### What a task sees -/

section Fits

variable (copyCb : ℕ → ℕ → ℤ → ℕ × ℕ)

/-- **From the acknowledgement on**: slot `i` of call `c`, with the handlers of the call at `h`,
and the response `cp` in the buffer of the call. -/
def Meets (i : ℕ) (x : Slot) (c : ℕ) (h : Handler) (call : Call) (cp : Option Response) : Prop :=
  match h with
  | .acked a => x.Acked a ∧ x.Open a call ∧ x.Unanswered c call ∧ x.rspSema = 0
  | .rspScan a _ j => x.Acked a ∧ x.Open a call ∧ x.Unanswered c call ∧ x.rspSema = 0 ∧
      (¬ a.Deferred → j ≤ i)
  | .rspCopy a _ j => j = i ∧ a.result = .success ∧ a.isResultPending = false ∧ x.Acked a ∧
      x.Open a call ∧ x.Unanswered c call ∧ x.rspSema = 0
  | .rspWrite a r j ws => j = i ∧ a.result = .success ∧ a.isResultPending = false ∧ x.Acked a ∧
      x.Own call ∧ x.rspSema = 0 ∧ (x.writes ws).Answered copyCb r call ∧ (∀ w ∈ ws, w.IsRsp) ∧
      cp = some r
  | .done a r => x.Acked a ∧ x.Own call ∧
      (a.result = .success ∧ a.isResultPending = false ∧ x.rspSema = 1 ∧ x.Answered copyCb r call ∧
          cp = some r ∨
        a.Deferred ∧ x.rspSema = 0)
  | _ => False

/-- **Up to the acknowledgement**, which is in the semaphore once it has been handled. -/
def Awaits (i : ℕ) (x : Slot) (c : ℕ) (h : Handler) (call : Call) (cp : Option Response) : Prop :=
  match h with
  | .sent => x.Quiet ∧ x.Created c call
  | .ackScan _ j => x.Quiet ∧ x.Created c call ∧ j ≤ i
  | .ackWrite a j ws => j = i ∧ x.Quiet ∧ (x.writes ws).Acked a ∧ (x.writes ws).Open a call ∧
      (∀ w ∈ ws, w.IsAck) ∧ x.Own call ∧ x.Unanswered c call
  | h => x.ackSema = 1 ∧ Meets copyCb i x c h call cp

/-- The semaphores of the slot are empty, if there is a slot. -/
def OwnQuiet (own : Option (ℕ × Slot)) : Prop := ∀ i x, own = some (i, x) → x.Quiet

/-- **What a task sees**: its slot, the handlers of its call, and the buffer of its call. -/
def Fits (pc : TaskPc) (own : Option (ℕ × Slot)) (h : Handler) (call : Call)
    (cp : Option Response) :
    Prop :=
  match pc with
  | .idle | .stuck => OwnQuiet own
  | .find _ => h = .unsent ∧ OwnQuiet own
  | .newMap _ => h = .unsent ∧ own = none
  | .store i c ws => ∃ x, own = some (i, x) ∧ h = .unsent ∧ (x.writes ws).Quiet ∧
      (x.writes ws).Created c call ∧ ∀ w ∈ ws, w.IsCreate call.tid
  | .sent c => ∃ i x, own = some (i, x) ∧ Awaits copyCb i x c h call cp
  | .waitAck i c => ∃ x, own = some (i, x) ∧ Awaits copyCb i x c h call cp
  | .readAck i c true => ∃ x, own = some (i, x) ∧ x.ackSema = 0 ∧ Meets copyCb i x c h call cp
  | .checkAck i c true ack =>
    ∃ x, own = some (i, x) ∧ x.ackSema = 0 ∧ Meets copyCb i x c h call cp ∧
      ack = x.ack
  | .checkPending i c true ack => ∃ x, own = some (i, x) ∧ x.ackSema = 0 ∧
      Meets copyCb i x c h call cp ∧ ack = x.ack ∧ x.ack = .success
  | .waitRsp i c true ack => ∃ x, own = some (i, x) ∧ x.ackSema = 0 ∧
      Meets copyCb i x c h call cp ∧ ack = x.ack ∧ x.ack = .success ∧ x.isResultPending = false
  | .readAck i _ false | .checkAck i _ false .failed => ∃ x, own = some (i, x) ∧ x.Quiet ∧
      x.ack = .failed ∧ h.slot? = none ∧ h ≠ .unsent
  | .checkAck _ _ false _ | .checkPending _ _ false _ | .waitRsp _ _ false _ => False
  | .readType i _ true ack => ∃ x, own = some (i, x) ∧ x.Quiet ∧ ∃ a r, h = .done a r ∧
      ack = a.result ∧ x.Answered copyCb r call ∧ cp = some r
  | .readSize i _ true ack msgType => ∃ x, own = some (i, x) ∧ x.Quiet ∧ ∃ a r, h = .done a r ∧
      ack = a.result ∧ x.Answered copyCb r call ∧ cp = some r ∧ msgType = r.msgType
  | .readResult i _ true ack msgType rspSize => ∃ x, own = some (i, x) ∧ x.Quiet ∧ ∃ a r,
      h = .done a r ∧ ack = a.result ∧ x.Answered copyCb r call ∧ cp = some r ∧
      msgType = r.msgType ∧ rspSize = (copyCb r.msgType r.payload call.dataLen).1
  | .readType i _ false _ | .readSize i _ false _ _ | .readResult i _ false _ _ _ =>
    ∃ x, own = some (i, x) ∧ x.Quiet ∧ x.result = resultError ∧ h.slot? = none ∧ h ≠ .unsent

/-- The same, in a state. -/
def Sync.FitsAt (s : Sync) (t : ℕ) : Prop :=
  Fits copyCb (s.tasks t) (s.own t) (s.handlers ((s.tasks t).call?.getD 0))
    (s.calls ((s.tasks t).call?.getD 0)) (s.copied ((s.tasks t).call?.getD 0))

/-- **The invariant of prompt runs.** -/
structure Sync.Orderly (s : Sync) : Prop where
  count : s.nextCall + 1 < 2 ^ 32 → s.currTid = s.nextCall + 1
  tid : ∀ c < s.nextCall, (s.calls c).tid = c + 1
  apart : s.SlotsApart
  /-- An id in a slot is that of a call of its task. -/
  stored : ∀ i, (s.slots i).tid ≠ 0 → ∃ c < s.nextCall, (s.slots i).tid = c + 1 ∧
    (s.slots i).task = some (s.calls c).task
  fresh : ∀ c, s.nextCall ≤ c → s.handlers c = .unsent
  current : ∀ t c, (s.tasks t).call? = some c → c < s.nextCall ∧ (s.calls c).task = t
  /-- A handler is at work on a slot only for the call that its task is in. -/
  holder : ∀ c i, (s.handlers c).slot? = some i → (s.tasks (s.calls c).task).call? = some c ∧
    (s.slots i).task = some (s.calls c).task
  fits : ∀ t, s.FitsAt copyCb t
  past : ∀ o ∈ s.returned, o.ack = .success → o.response ≠ none → o.result = resultOk →
    s.Matched copyCb o

end Fits

variable {copyCb : ℕ → ℕ → ℤ → ℕ × ℕ} {s s' : Sync} {t c i : ℕ}

theorem fits_of_call?_eq_none (hpc : pc.call? = none) {own : Option (ℕ × Slot)}
    {h : Handler} {call : Call} {cp : Option Response} :
    Fits copyCb pc own h call cp ↔ OwnQuiet own := by
  cases pc with
  | idle | stuck => exact Iff.rfl
  | _ => cases hpc

theorem Sync.FitsAt.of_call (h : s.FitsAt copyCb t) (hc : (s.tasks t).call? = some c) :
    Fits copyCb (s.tasks t) (s.own t) (s.handlers c) (s.calls c) (s.copied c) := by
  rw [FitsAt, hc] at h
  exact h

theorem Sync.fitsAt_of_call (hc : (s.tasks t).call? = some c)
    (h : Fits copyCb (s.tasks t) (s.own t) (s.handlers c) (s.calls c) (s.copied c)) :
    s.FitsAt copyCb t := by
  rw [FitsAt, hc]
  exact h

/-- **What one task and the handlers of its calls do, the other tasks do not see.** -/
theorem Sync.Orderly.update (h : s.Orderly copyCb) (t : ℕ) (hcurr : s'.currTid = s.currTid)
    (hnext : s'.nextCall = s.nextCall) (hcalls : s'.calls = s.calls) (hapart : s'.SlotsApart)
    (hslots : ∀ i, s'.slots i = s.slots i ∨
      (∀ t', (s.slots i).task = some t' → t' = t) ∧ (s'.slots i).task = some t)
    (htasks : ∀ t', t' ≠ t → s'.tasks t' = s.tasks t')
    (hhandlers : ∀ c, s'.handlers c = s.handlers c ∧ s'.copied c = s.copied c ∨
      c < s.nextCall ∧ (s.calls c).task = t ∧ ∀ a r, s.handlers c ≠ .done a r)
    (hstored : ∀ i, (s'.slots i).task = some t → (s'.slots i).tid ≠ 0 →
      ∃ c < s.nextCall, (s'.slots i).tid = c + 1 ∧ (s.calls c).task = t)
    (hcurrent : ∀ c, (s'.tasks t).call? = some c → c < s.nextCall ∧ (s.calls c).task = t)
    (hholder : ∀ c i, (s.calls c).task = t → (s'.handlers c).slot? = some i →
      (s'.tasks t).call? = some c ∧ (s'.slots i).task = some t)
    (hfits : s'.FitsAt copyCb t)
    (hpast : ∀ o ∈ s'.returned, o ∈ s.returned ∨ (o.ack = .success → o.response ≠ none →
      o.result = resultOk → s'.Matched copyCb o)) : s'.Orderly copyCb := by
  have hother : ∀ t', t' ≠ t → ∀ i, (s.slots i).task = some t' ∨ (s'.slots i).task = some t' →
      s'.slots i = s.slots i := by grind
  refine ⟨?_, ?_, hapart, ?_, ?_, ?_, ?_, ?_, ?_⟩
  · rw [hcurr, hnext]
    exact h.count
  · rw [hnext, hcalls]
    exact h.tid
  · intro i htid
    rw [hnext, hcalls]
    rcases hslots i with hsame | ⟨-, hnew⟩
    · rw [hsame] at htid ⊢
      exact h.stored i htid
    · grind
  · grind [h.fresh]
  · grind [h.current]
  · intro c i hi
    rw [hcalls]
    by_cases ht' : (s.calls c).task = t
    · grind
    · have hsame : s'.handlers c = s.handlers c := by
        rcases hhandlers c with ⟨hsame, -⟩ | ⟨-, ht, -⟩
        · exact hsame
        · exact absurd ht ht'
      rw [hsame] at hi
      obtain ⟨h1, h2⟩ := h.holder c i hi
      rw [htasks _ ht', hother _ ht' i (.inl h2)]
      exact ⟨h1, h2⟩
  · intro t'
    by_cases ht' : t' = t
    · exact ht'.symm ▸ hfits
    · have hown : s'.own t' = s.own t' := own_congr h.apart hapart (hother t' ht')
      have hold := h.fits t'
      cases hc : (s.tasks t').call? with
      | none =>
        rw [FitsAt, fits_of_call?_eq_none hc] at hold
        rw [FitsAt, htasks t' ht', fits_of_call?_eq_none hc, hown]
        exact hold
      | some c =>
        have htask := (h.current t' c hc).2
        have hsame : s'.handlers c = s.handlers c ∧ s'.copied c = s.copied c := by grind
        refine fitsAt_of_call (by rw [htasks t' ht', hc]) ?_
        rw [htasks t' ht', hown, hsame.1, hsame.2, hcalls]
        exact hold.of_call hc
  · intro o ho hack hresp hres
    rcases hpast o ho with hold | hnew
    · obtain ⟨a, r, hdone, hmatch⟩ := h.past o hold hack hresp hres
      have hsame : s'.handlers o.call = s.handlers o.call ∧ s'.copied o.call = s.copied o.call := by
        grind
      refine ⟨a, r, hsame.1.trans hdone, ?_⟩
      rw [hcalls, hsame.2]
      exact hmatch
    · exact hnew hack hresp hres

/-! ### One step at a time -/

theorem Sync.Orderly.stored_task (h : s.Orderly copyCb) (hi : (s.slots i).task = some t)
    (htid : (s.slots i).tid ≠ 0) :
    ∃ c < s.nextCall, (s.slots i).tid = c + 1 ∧ (s.calls c).task = t := by
  obtain ⟨c, hc, hctid, htask⟩ := h.stored i htid
  exact ⟨c, hc, hctid, Option.mem_unique htask hi⟩

theorem Sync.Orderly.slots_eq (h : s.Orderly copyCb) (hown : s.own t = some (i, x)) :
    s.slots i = x :=
  ((own_eq_some h.apart).1 hown).2

theorem Sync.Orderly.sees (h : s.Orderly copyCb) (hpc : s.tasks t = pc)
    (hc : pc.call? = some c) :
    (s.tasks t).call? = some c ∧ Fits copyCb pc (s.own t) (s.handlers c) (s.calls c)
    (s.copied c) := by
  subst hpc
  exact ⟨hc, (h.fits t).of_call hc⟩

/-- A slot that a task has, or may be given. -/
structure Sync.Suits (s : Sync) (t i : ℕ) : Prop where
  lt : i < maxTasksNum
  free : ∀ t', (s.slots i).task = some t' → t' = t
  only : ∀ j, (s.slots j).task = some t → j = i

theorem Sync.SlotsApart.suits (h : s.SlotsApart) (ht : (s.slots i).task = some t) :
    s.Suits t i where
  lt := (h i t ht).1
  free _ ht' := Option.mem_unique ht' ht
  only := (h i t ht).2

section

variable (h : s.Orderly copyCb) (hc : (s.tasks t).call? = some c)
include h hc

/-- A task that does not hold on to its slot goes on. -/
theorem Sync.Orderly.move (hpc : pc.call? = some c)
    (hfits : Fits copyCb pc (s.own t) (s.handlers c) (s.calls c) (s.copied c)) :
    (s.setTask t pc).Orderly copyCb := by
  have hself : (s.setTask t pc).tasks t = pc := update_self ..
  refine h.update t rfl rfl rfl h.apart (fun _ ↦ .inl rfl)
    (fun t' ht' ↦ update_of_ne ht' ..) (fun _ ↦ .inl ⟨rfl, rfl⟩) (fun _ ↦ h.stored_task)
    (fun c' hc' ↦ ?_) (fun c' i ht' hi ↦ ?_) ?_ (fun o ho ↦ .inl ho)
  · rw [hself, hpc] at hc'
    cases hc'
    exact h.current t c hc
  · obtain ⟨h1, h2⟩ := h.holder c' i hi
    rw [ht'] at h1 h2
    rw [hself, hpc, ← h1, hc]
    exact ⟨rfl, h2⟩
  · refine fitsAt_of_call (by rw [hself, hpc]) ?_
    rw [hself]
    exact hfits

/-- **A task goes on in its call, with its slot and with the handlers of the call.** -/
theorem Sync.Orderly.advance {h' : Handler} (hcurr : s'.currTid = s.currTid)
    (hnext : s'.nextCall = s.nextCall) (hcalls : s'.calls = s.calls)
    (hret : s'.returned = s.returned) (hslots : s'.slots = Function.update s.slots i x')
    (htasks : s'.tasks = Function.update s.tasks t pc)
    (hhand : s'.handlers = Function.update s.handlers c h')
    (hcp : ∀ c', c' ≠ c → s'.copied c' = s.copied c') (hi : s.Suits t i) (hx' : x'.task = some t)
    (htid : x'.tid = (s.slots i).tid ∨ x'.tid = 0 ∨ x'.tid = (s.calls c).tid)
    (hpc : pc.call? = some c)
    (hnd : h' = s.handlers c ∧ s'.copied c = s.copied c ∨ ∀ a r, s.handlers c ≠ .done a r)
    (hslot : ∀ j, h'.slot? = some j → j = i)
    (hfits : Fits copyCb pc (some (i, x')) h' (s.calls c) (s'.copied c)) : s'.Orderly copyCb := by
  obtain ⟨hlt, hct⟩ := h.current t c hc
  have hself : s'.slots i = x' := hslots ▸ update_self ..
  have hrest : ∀ j, j ≠ i → s'.slots j = s.slots j := fun j hj ↦ hslots ▸ update_of_ne hj ..
  have htask : s'.tasks t = pc := htasks ▸ update_self ..
  have honly : ∀ j, (s'.slots j).task = some t → j = i := by
    intro j hj
    by_contra hne
    exact hne (hi.only j (hrest j hne ▸ hj))
  have hapart : s'.SlotsApart := by
    intro j t' ht'
    by_cases hj : j = i
    · subst hj
      rw [hself, hx'] at ht'
      cases ht'
      exact ⟨hi.lt, honly⟩
    · have hold := hrest j hj ▸ ht'
      refine ⟨(h.apart j t' hold).1, fun k hk ↦ (h.apart j t' hold).2 k (hrest k ?_ ▸ hk)⟩
      rintro rfl
      rw [hself, hx'] at hk
      cases hk
      exact hj (hi.only j hold)
  refine h.update t hcurr hnext hcalls hapart (fun j ↦ ?_) (fun t' ht' ↦ ?_) (fun c' ↦ ?_)
    (fun j hj hne ↦ ?_) (fun c' hc' ↦ ?_) (fun c' j ht' hj ↦ ?_) ?_ (fun o ho ↦ .inl (hret ▸ ho))
  · by_cases hj : j = i
    · subst hj
      exact .inr ⟨hi.free, hself ▸ hx'⟩
    · exact .inl (hrest j hj)
  · rw [htasks, update_of_ne ht']
  · by_cases hc' : c' = c
    · subst hc'
      rw [hhand, update_self]
      exact hnd.imp_right fun hnd ↦ ⟨hlt, hct, hnd⟩
    · exact .inl ⟨hhand ▸ update_of_ne hc' .., hcp c' hc'⟩
  · obtain rfl := honly j hj
    rw [hself] at hne ⊢
    rcases htid with hsame | hzero | hnew
    · rw [hsame] at hne ⊢
      obtain ⟨c', hc', hctid, htask⟩ := h.stored j hne
      exact ⟨c', hc', hctid, hi.free _ htask⟩
    · exact absurd hzero hne
    · exact ⟨c, hlt, hnew.trans (h.tid c hlt), hct⟩
  · rw [htask, hpc] at hc'
    cases hc'
    exact ⟨hlt, hct⟩
  · by_cases hc' : c' = c
    · subst hc'
      rw [hhand, update_self] at hj
      obtain rfl := hslot j hj
      exact ⟨by rw [htask, hpc], hself ▸ hx'⟩
    · -- a handler of another call of the task is not at work
      rw [hhand, update_of_ne hc'] at hj
      obtain ⟨h1, -⟩ := h.holder c' j hj
      rw [ht', hc] at h1
      exact absurd (Option.some.inj h1).symm hc'
  · refine fitsAt_of_call (by rw [htask, hpc]) ?_
    rw [htask, (own_eq_some hapart).2 ⟨hself ▸ hx', hself⟩, hhand, update_self, hcalls]
    exact hfits

theorem Sync.Orderly.moveSlot
    (hpc : pc.call? = some c) (hown : s.own t = some (i, x)) (hx' : x'.task = x.task)
    (htid : x'.tid = x.tid ∨ x'.tid = 0 ∨ x'.tid = (s.calls c).tid)
    (hfits : Fits copyCb pc (some (i, x')) (s.handlers c) (s.calls c) (s.copied c)) :
    ((s.setSlot i x').setTask t pc).Orderly copyCb := by
  obtain ⟨htask, rfl⟩ := (own_eq_some h.apart).1 hown
  refine h.advance hc rfl rfl rfl rfl rfl rfl (update_eq_self ..).symm (fun _ _ ↦ rfl)
    (h.apart.suits htask) (hx'.trans htask) htid hpc (.inl ⟨rfl, rfl⟩) (fun j hj ↦ ?_) hfits
  exact (h.apart i t htask).2 j ((h.current t c hc).2 ▸ (h.holder c j hj).2)

theorem Sync.Orderly.handleSlot (hnd : ∀ a r, s.handlers c ≠ .done a r)
    (hown : s.own t = some (i, x)) (hx' : x'.task = x.task) (htid : x'.tid = x.tid ∨ x'.tid = 0)
    {h' : Handler} (hslot : ∀ j, h'.slot? = some j → j = i)
    (hfits : Fits copyCb (s.tasks t) (some (i, x')) h' (s.calls c) (s.copied c)) :
    ((s.setSlot i x').setHandler c h').Orderly copyCb := by
  obtain ⟨htask, rfl⟩ := (own_eq_some h.apart).1 hown
  exact h.advance hc rfl rfl rfl rfl rfl (update_eq_self ..).symm rfl (fun _ _ ↦ rfl)
    (h.apart.suits htask) (hx'.trans htask) (htid.imp_right .inl) hc (.inr hnd) hslot hfits

/-- A handler that is at work on the slot of its call goes on, or has just found it. -/
theorem Sync.Orderly.handleAt (hown : s.own t = some (i, x)) (hnd : ∀ a r, s.handlers c ≠ .done a r)
    {C : ℕ → Option Response} (hcp : ∀ c', c' ≠ c → C c' = s.copied c') {h' : Handler}
    (hslot : h'.slot? = some i)
    (hfits : Fits copyCb (s.tasks t) (some (i, x)) h' (s.calls c) (C c)) :
    ({ s.setHandler c h' with copied := C } : Sync).Orderly copyCb := by
  obtain ⟨htask, rfl⟩ := (own_eq_some h.apart).1 hown
  exact h.advance hc rfl rfl rfl rfl (update_eq_self ..).symm (update_eq_self ..).symm rfl hcp
    (h.apart.suits htask) htask (.inl rfl) hc (.inr hnd)
    (fun _ hj ↦ Option.mem_unique hj hslot) hfits

theorem Sync.Orderly.leave (hslot : (s.handlers c).slot? = none) (hquiet : OwnQuiet (s.own t))
    (hpc : pc.call? = none) {R : List Outcome} (hpast : ∀ o ∈ R, o ∈ s.returned ∨
      (o.ack = .success → o.response ≠ none → o.result = resultOk → s.Matched copyCb o)) :
    ({ s.setTask t pc with returned := R } : Sync).Orderly copyCb := by
  have hself : (s.setTask t pc).tasks t = pc := update_self ..
  refine h.update t rfl rfl rfl h.apart (fun _ ↦ .inl rfl)
    (fun t' ht' ↦ update_of_ne ht' ..) (fun _ ↦ .inl ⟨rfl, rfl⟩) (fun _ ↦ h.stored_task)
    (fun c' hc' ↦ ?_) (fun c' i ht' hi ↦ ?_) ?_ hpast
  · rw [hself, hpc] at hc'
    cases hc'
  · -- only the handlers of the call that the task was in could be at work
    obtain ⟨h1, -⟩ := h.holder c' i hi
    rw [ht', hc] at h1
    cases h1
    cases hslot.symm.trans hi
  · rw [FitsAt, hself, fits_of_call?_eq_none hpc]
    exact hquiet

/-- A task returns from its wait. -/
theorem Sync.Orderly.finish
    (hslot : (s.handlers c).slot? = none) (hquiet : OwnQuiet (s.own t)) {ack : AckResult}
    {response : Option (ℕ × ℕ)} {result : ℕ}
    (hmatch : ack = .success → response ≠ none → result = resultOk →
      s.Matched copyCb ⟨t, c, ack, response, result⟩) :
    (s.return_ t c ack response result).Orderly copyCb := by
  refine h.leave hc hslot hquiet rfl fun o ho ↦ ?_
  rcases List.mem_cons.1 ho with rfl | ho
  · exact .inr hmatch
  · exact .inl ho

end

/-- A handler goes on without changing a slot. -/
theorem Sync.Orderly.handle (h : s.Orderly copyCb) (hlt : c < s.nextCall)
    (hnd : ∀ a r, s.handlers c ≠ .done a r) {h' : Handler} {C : ℕ → Option Response}
    (hcp : ∀ c', c' ≠ c → C c' = s.copied c')
    (hslot : ∀ i, h'.slot? = some i → (s.tasks (s.calls c).task).call? = some c ∧
      (s.slots i).task = some (s.calls c).task)
    (hfits : ∀ t, (s.tasks t).call? = some c → Fits copyCb (s.tasks t) (s.own t) h'
      (s.calls c) (C c)) :
    ({ s.setHandler c h' with copied := C } : Sync).Orderly copyCb := by
  obtain ⟨t, ht⟩ : ∃ t, (s.calls c).task = t := ⟨_, rfl⟩
  have hself : (s.setHandler c h').handlers c = h' := update_self ..
  refine h.update t rfl rfl rfl h.apart (fun _ ↦ .inl rfl) (fun _ _ ↦ rfl) (fun c' ↦ ?_)
    (fun _ ↦ h.stored_task) (fun c' hc' ↦ h.current t c' hc') (fun c' i ht' hi ↦ ?_) ?_
    (fun o ho ↦ .inl ho)
  · by_cases hc' : c' = c
    · subst hc'
      exact .inr ⟨hlt, ht, hnd⟩
    · exact .inl ⟨update_of_ne hc' .., hcp c' hc'⟩
  · by_cases hc' : c' = c
    · subst hc'
      have hi : h'.slot? = some i := hself ▸ hi
      exact ht ▸ hslot i hi
    · have hsame : (s.setHandler c h').handlers c' = s.handlers c' := update_of_ne hc' ..
      have hi : (s.handlers c').slot? = some i := hsame ▸ hi
      exact ht' ▸ h.holder c' i hi
  · have hold := h.fits t
    by_cases hc : (s.tasks t).call? = some c
    · refine fitsAt_of_call hc ?_
      show Fits copyCb (s.tasks t) (s.own t) ((s.setHandler c h').handlers c) (s.calls c) (C c)
      rw [hself]
      exact hfits t hc
    · cases hcall : (s.tasks t).call? with
      | none =>
        rw [FitsAt, fits_of_call?_eq_none hcall] at hold
        show Fits copyCb (s.tasks t) (s.own t) _ _ _
        exact (fits_of_call?_eq_none hcall).2 hold
      | some c' =>
        have hne : c' ≠ c := fun heq ↦ hc (heq ▸ hcall)
        refine fitsAt_of_call hcall ?_
        show Fits copyCb (s.tasks t) (s.own t) ((s.setHandler c h').handlers c') (s.calls c') (C c')
        rw [show (s.setHandler c h').handlers c' = s.handlers c' from update_of_ne hne ..,
          hcp c' hne]
        exact hold.of_call hcall

end Rpc
