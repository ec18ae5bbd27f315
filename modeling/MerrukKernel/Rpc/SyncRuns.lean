import MerrukKernel.Rpc.SyncTasks

/-!
# Synchronous calls and their responses

The handlers of a call see the slot of its task through the place at which the task is: a task
that is to take an acknowledgement through `Awaits`, and one that is to take a response through
`Meets`. With that, the steps of the handlers keep the invariant as the steps of the tasks do, and
in every run with prompt handlers a wait that succeeds returns the response of its own call. A
response that comes after its wait has timed out is taken for the next one.
-/

open List

namespace Rpc

variable {copyCb : ℕ → ℕ → ℤ → ℕ × ℕ} {s : Sync} {t c i : ℕ} {call : Call}

/-! ### Steps of the handlers -/

/-- The acknowledgement has been handled. -/
def Handler.past : Handler → Bool
  | .acked _ | .rspScan _ _ _ | .rspCopy _ _ _ | .rspWrite _ _ _ _ | .done _ _ => true
  | _ => false

variable {x : Slot} {h' : Handler}

theorem awaits_of_past {h : Handler} {cp : Option Response} (hpast : h.past = true) :
    Awaits copyCb i x c h call cp ↔ x.ackSema = 1 ∧ Meets copyCb i x c h call cp := by
  cases h with
  | acked _ | rspScan _ _ _ | rspCopy _ _ _ | rspWrite _ _ _ _ | done _ _ => exact Iff.rfl
  | unsent | sent | ackScan _ _ | ackWrite _ _ _ => cases hpast

theorem Slot.Open.own {a : Ack} (h : x.Open a call) : x.Own call := by
  rw [Slot.Open] at h
  split at h
  · exact .inl h
  · exact .inr h

theorem Meets.own {h : Handler} {cp : Option Response}
    (hm : Meets copyCb i x c h call cp) : x.Own call := by
  cases h with
  | acked a => exact hm.2.1.own
  | rspScan a r j => exact hm.2.1.own
  | rspCopy a r j => exact hm.2.2.2.2.1.own
  | rspWrite a r j ws => exact hm.2.2.2.2.1
  | done a r => exact hm.2.1
  | unsent | sent | ackScan _ _ | ackWrite _ _ _ => exact hm.elim

theorem Awaits.own {h : Handler} {cp : Option Response}
    (ha : Awaits copyCb i x c h call cp) : x.Own call := by
  cases h with
  | sent => exact .inr ha.2.1
  | ackScan a j => exact .inr ha.2.1.1
  | ackWrite a j ws => exact ha.2.2.2.2.2.1
  | unsent | acked _ | rspScan _ _ _ | rspCopy _ _ _ | rspWrite _ _ _ _ | done _ _ => exact ha.2.own

theorem TaskPc.awaitsRsp_of_awaitsAck {pc : TaskPc} (h : pc.awaitsAck = true) :
    pc.awaitsRsp = true := by
  cases pc with
  | sent _ | waitAck _ _ => rfl
  | _ => cases h

section Lenses

variable {pc : TaskPc} {own : Option (ℕ × Slot)} {h : Handler} {call : Call} {cp : Option Response}

variable (copyCb c pc own h call cp) in
/-- **How a task in a call sees its handlers**, and what they may change without its notice. -/
inductive Seen : Prop
  /-- The call has not been sent. -/
  | unsent : h = .unsent → pc.awaitsRsp = false → Seen
  | awaits (i : ℕ) (x : Slot) : own = some (i, x) → pc.awaitsAck = true → pc.awaitsRsp = true →
      Awaits copyCb i x c h call cp → (∀ x' h' cp', Awaits copyCb i x' c h' call cp' →
        Fits copyCb pc (some (i, x')) h' call cp') → Seen
  | meets (i : ℕ) (x : Slot) : own = some (i, x) → pc.awaitsAck = false → pc.awaitsRsp = true →
      Meets copyCb i x c h call cp → (∀ x' h' cp', x'.ackSema = x.ackSema → x'.ack = x.ack →
        x'.isResultPending = x.isResultPending → Meets copyCb i x' c h' call cp' →
        Fits copyCb pc (some (i, x')) h' call cp') → Seen
  /-- A wait has timed out. -/
  | missed : pc.awaitsRsp = false → h.slot? = none → (∀ h', h'.slot? = none → h' ≠ .unsent →
      Fits copyCb pc own h' call cp) → Seen
  | answered (a : Ack) (r : Response) : pc.awaitsRsp = false → h = .done a r → Seen

variable (hf : Fits copyCb pc own h call cp)
include hf

theorem Fits.seen (hc : pc.call? = some c) : Seen copyCb c pc own h call cp := by
  cases pc with
  | idle | stuck => cases hc
  | find _ | newMap _ => exact .unsent hf.1 rfl
  | store _ _ _ => obtain ⟨-, -, hh, -⟩ := hf; exact .unsent hh rfl
  | sent c' =>
    cases hc
    obtain ⟨i, x, hown, hawait⟩ := hf
    exact .awaits i x hown rfl rfl hawait fun x' h' cp' h ↦ ⟨i, x', rfl, h⟩
  | waitAck i c' =>
    cases hc
    obtain ⟨x, hown, hawait⟩ := hf
    exact .awaits i x hown rfl rfl hawait fun x' h' cp' h ↦ ⟨x', rfl, h⟩
  | readAck i c' ok =>
    cases hc
    cases ok with
    | true =>
      obtain ⟨x, hown, hs, hmeets⟩ := hf
      exact .meets i x hown rfl rfl hmeets fun x' h' cp' h1 _ _ hm ↦ ⟨x', rfl, h1.trans hs, hm⟩
    | false =>
      obtain ⟨x, hown, h1, h2, hslot, -⟩ := hf
      exact .missed rfl hslot fun h' hslot hun ↦ ⟨x, hown, h1, h2, hslot, hun⟩
  | checkAck i c' ok ack =>
    cases hc
    cases ok with
    | true =>
      obtain ⟨x, hown, hs, hmeets, hack⟩ := hf
      exact .meets i x hown rfl rfl hmeets fun x' h' cp' h1 h2 _ hm ↦
        ⟨x', rfl, h1.trans hs, hm, hack.trans h2.symm⟩
    | false =>
      cases ack with
      | failed =>
        obtain ⟨x, hown, h1, h2, hslot, -⟩ := hf
        exact .missed rfl hslot fun h' hslot hun ↦ ⟨x, hown, h1, h2, hslot, hun⟩
      | success | transmitFail | criticalError => exact hf.elim
  | checkPending i c' ok ack =>
    cases hc
    cases ok with
    | true =>
      obtain ⟨x, hown, hs, hmeets, hack, hsucc⟩ := hf
      exact .meets i x hown rfl rfl hmeets fun x' h' cp' h1 h2 _ hm ↦
        ⟨x', rfl, h1.trans hs, hm, hack.trans h2.symm, h2.trans hsucc⟩
    | false => exact hf.elim
  | waitRsp i c' ok ack =>
    cases hc
    cases ok with
    | true =>
      obtain ⟨x, hown, hs, hmeets, hack, hsucc, hpend⟩ := hf
      exact .meets i x hown rfl rfl hmeets fun x' h' cp' h1 h2 h3 hm ↦
        ⟨x', rfl, h1.trans hs, hm, hack.trans h2.symm, h2.trans hsucc, h3.trans hpend⟩
    | false => exact hf.elim
  | readType _ _ ok _ | readSize _ _ ok _ _ | readResult _ _ ok _ _ _ =>
    cases ok with
    | true => obtain ⟨-, -, -, a, r, hd, -⟩ := hf; exact .answered a r rfl hd
    | false =>
      obtain ⟨x, hown, h1, h2, hslot, -⟩ := hf
      exact .missed rfl hslot fun h' hslot hun ↦ ⟨x, hown, h1, h2, hslot, hun⟩

/-- A task that is to take an acknowledgement sees its slot and the handlers through `Awaits`. -/
theorem Fits.ackLens (hpc : pc.awaitsAck = true)
    (hc : pc.call? = some c) : ∃ i x, own = some (i, x) ∧ Awaits copyCb i x c h call cp ∧
      ∀ x' h' cp', Awaits copyCb i x' c h' call cp' → Fits copyCb pc
      (some (i, x')) h' call cp' := by
  have hrsp := TaskPc.awaitsRsp_of_awaitsAck hpc
  cases hf.seen hc with
  | awaits i x hown _ _ hawait hback => exact ⟨i, x, hown, hawait, hback⟩
  | meets _ _ _ hack => rw [hpc] at hack; cases hack
  | unsent _ hno | missed hno | answered _ _ hno => rw [hrsp] at hno; cases hno

/-- A task that is to take a response sees its slot and the handlers through `Meets`, once the
acknowledgement has been handled. -/
theorem Fits.rspLens (hpc : pc.awaitsRsp = true) (hc : pc.call? = some c) (hpast : h.past = true) :
    ∃ i x, own = some (i, x) ∧ Meets copyCb i x c h call cp ∧
      ∀ x' h' cp', h'.past = true → x'.ackSema = x.ackSema → x'.ack = x.ack →
        x'.isResultPending = x.isResultPending → Meets copyCb i x' c h' call cp' →
        Fits copyCb pc (some (i, x')) h' call cp' := by
  cases hf.seen hc with
  | awaits i x hown _ _ hawait hback =>
    obtain ⟨hs, hmeets⟩ := (awaits_of_past hpast).1 hawait
    exact ⟨i, x, hown, hmeets, fun x' h' cp' hp h1 _ _ hm ↦
      hback x' h' cp' ((awaits_of_past hp).2 ⟨h1.trans hs, hm⟩)⟩
  | meets i x hown _ _ hmeets hback => exact ⟨i, x, hown, hmeets, fun x' h' cp' _ ↦ hback x' h' cp'⟩
  | unsent _ hno | missed hno | answered _ _ hno => rw [hpc] at hno; cases hno

/-- The id in the slot of a task that waits is that of its call. -/
theorem Fits.own_of_awaitsRsp (hpc : pc.awaitsRsp = true)
    (hc : pc.call? = some c) : ∃ i x, own = some (i, x) ∧ x.Own call := by
  cases hf.seen hc with
  | awaits i x hown _ _ hawait => exact ⟨i, x, hown, hawait.own⟩
  | meets i x hown _ _ hmeets => exact ⟨i, x, hown, hmeets.own⟩
  | unsent _ hno | missed hno | answered _ _ hno => rw [hpc] at hno; cases hno

/-- While a handler is at work on a slot, its task is to take what the handler brings. -/
theorem Fits.awaits_of_slot? (hc : pc.call? = some c) (hslot : h.slot? = some i) :
    pc.awaitsRsp = true ∧ (h.past = false → pc.awaitsAck = true) := by
  cases hf.seen hc with
  | awaits _ _ _ hack hrsp => exact ⟨hrsp, fun _ ↦ hack⟩
  | meets _ _ _ _ hrsp hm =>
    refine ⟨hrsp, fun hpast ↦ ?_⟩
    cases h with
    | ackWrite _ _ _ => exact hm.elim
    | rspCopy _ _ _ | rspWrite _ _ _ _ => cases hpast
    | unsent | sent | ackScan _ _ | acked _ | rspScan _ _ _ | done _ _ => cases hslot
  | unsent hh | answered _ _ _ hh => rw [hh] at hslot; cases hslot
  | missed _ hnone => rw [hnone] at hslot; cases hslot

/-- A handler that has not found a slot goes on, and the task that waits for it sees it. -/
theorem Fits.silent (hc : pc.call? = some c)
    (hun : h ≠ .unsent) (hnd : ∀ a r, h ≠ .done a r) (hun' : h' ≠ .unsent) (hslot : h'.slot? = none)
    (hawait : ∀ i x, own = some (i, x) → Awaits copyCb i x c h call cp →
      Awaits copyCb i x c h' call cp)
    (hmeet : ∀ i x, own = some (i, x) → Meets copyCb i x c h call cp →
      Meets copyCb i x c h' call cp) :
    Fits copyCb pc own h' call cp := by
  cases hf.seen hc with
  | unsent hh => exact absurd hh hun
  | awaits i x hown _ _ ha hback => exact hown ▸ hback x h' cp (hawait i x hown ha)
  | meets i x hown _ _ hm hback => exact hown ▸ hback x h' cp rfl rfl rfl (hmeet i x hown hm)
  | missed _ _ hback => exact hback h' hslot hun'
  | answered a r _ hh => exact absurd hh (hnd a r)

end Lenses

theorem TaskPc.exists_call_of_awaitsRsp {pc : TaskPc} (h : pc.awaitsRsp = true) :
    ∃ c, pc.call? = some c := by
  cases pc with
  | idle | stuck => cases h
  | _ => exact ⟨_, rfl⟩

section

variable (h : s.Orderly copyCb) {hd : Handler} (hh : s.handlers c = hd)
include h hh

/-- A handler that is not idle belongs to a call that has been made. -/
theorem Sync.Orderly.lt_nextCall (hun : hd ≠ .unsent) : c < s.nextCall := by
  by_contra hge
  exact hun (hh ▸ h.fresh c (not_lt.1 hge))

/-- A handler that has found no slot goes on. -/
theorem Sync.Orderly.silent (hun : hd ≠ .unsent) (hnd : ∀ a r, hd ≠ .done a r)
    (hun' : h' ≠ .unsent) (hslot : h'.slot? = none)
    (hawait : ∀ i x, i < maxTasksNum → s.slots i = x →
      Awaits copyCb i x c hd (s.calls c) (s.copied c) →
      Awaits copyCb i x c h' (s.calls c) (s.copied c))
    (hmeet : ∀ i x, i < maxTasksNum → s.slots i = x →
      Meets copyCb i x c hd (s.calls c) (s.copied c) →
      Meets copyCb i x c h' (s.calls c) (s.copied c)) : (s.setHandler c h').Orderly copyCb := by
  subst hh
  refine h.handle (h.lt_nextCall rfl hun) hnd (fun _ _ ↦ rfl) (fun i hi ↦ ?_)
    (fun t hc ↦ ?_)
  · rw [hslot] at hi
    cases hi
  · refine ((h.fits t).of_call hc).silent hc hun hnd hun' hslot (fun i x hown ↦ ?_)
      (fun i x hown ↦ ?_)
    · obtain ⟨htask, hx⟩ := (own_eq_some h.apart).1 hown
      exact hawait i x (h.apart i t htask).1 hx
    · obtain ⟨htask, hx⟩ := (own_eq_some h.apart).1 hown
      exact hmeet i x (h.apart i t htask).1 hx

/-- **A slot found by its id is that of the call**, when its task is to take what the handler
brings. -/
theorem Sync.Orderly.found (hun : hd ≠ .unsent) (htid : (s.slots i).tid = (s.calls c).tid)
    (hwait : ∀ t, (s.slots i).task = some t → (s.tasks t).awaitsRsp = true) :
    ∃ t, (s.tasks t).call? = some c ∧ s.own t = some (i, s.slots i) ∧
      (s.tasks t).awaitsRsp = true := by
  have hlt := h.lt_nextCall hh hun
  have hne : (s.slots i).tid ≠ 0 := by
    rw [htid, h.tid c hlt]
    simp
  obtain ⟨c', -, hc', htask⟩ := h.stored i hne
  obtain rfl : c' = c := by
    rw [htid, h.tid c hlt] at hc'
    omega
  have hw := hwait _ htask
  have hown := (own_eq_some h.apart).2 ⟨htask, rfl⟩
  obtain ⟨c, hcall⟩ := TaskPc.exists_call_of_awaitsRsp hw
  obtain ⟨j, x, hown', hid⟩ := ((h.fits _).of_call hcall).own_of_awaitsRsp hw hcall
  cases hown.symm.trans hown'
  rcases hid with hzero | hid
  · exact absurd hzero hne
  · grind [h.tid, h.current]

theorem Sync.Orderly.atWork (hslot : hd.slot? = some i) :
    ∃ t, (s.tasks t).call? = some c ∧ s.own t = some (i, s.slots i) ∧
      (s.tasks t).awaitsRsp = true ∧ (hd.past = false → (s.tasks t).awaitsAck = true) := by
  subst hh
  obtain ⟨hcall, htask⟩ := h.holder c i hslot
  have hf := ((h.fits _).of_call hcall).awaits_of_slot? hcall hslot
  exact ⟨_, hcall, (own_eq_some h.apart).2 ⟨htask, rfl⟩, hf⟩

/-- The slot of a task that is to take a response. -/
theorem Sync.Orderly.rspLens (hpast : hd.past = true) (hc : (s.tasks t).call? = some c)
    (hown : s.own t = some (i, x)) (hrsp : (s.tasks t).awaitsRsp = true) :
    Meets copyCb i x c hd (s.calls c) (s.copied c) ∧
      ∀ x' h' cp', h'.past = true → x'.ackSema = x.ackSema → x'.ack = x.ack →
        x'.isResultPending = x.isResultPending → Meets copyCb i x' c h' (s.calls c) cp' →
        Fits copyCb (s.tasks t) (some (i, x')) h' (s.calls c) cp' := by
  subst hh
  obtain ⟨i', x', hown', hlens⟩ := ((h.fits t).of_call hc).rspLens hrsp hc hpast
  cases hown.symm.trans hown'
  exact hlens

/-- The slot of a task that is to take an acknowledgement. -/
theorem Sync.Orderly.ackLens (hc : (s.tasks t).call? = some c) (hown : s.own t = some (i, x))
    (hack : (s.tasks t).awaitsAck = true) : Awaits copyCb i x c hd (s.calls c) (s.copied c) ∧
      ∀ x' h' cp', Awaits copyCb i x' c h' (s.calls c) cp' →
        Fits copyCb (s.tasks t) (some (i, x')) h' (s.calls c) cp' := by
  subst hh
  obtain ⟨i', x', hown', hlens⟩ := ((h.fits t).of_call hc).ackLens hack hc
  cases hown.symm.trans hown'
  exact hlens

end

/-- A handler takes the id away, or leaves it. -/
theorem Slot.Own.of_write {x' : Slot} (h : x.Own call)
    (htid : x'.tid = x.tid ∨ x'.tid = 0) : x'.Own call := by
  rcases htid with hsame | hzero
  · exact h.imp hsame.trans hsame.trans
  · exact .inl hzero

theorem Sync.Orderly.handlingAck (h : s.Orderly copyCb) (hprompt : s.Prompt (.deliver c))
    (hh : (∃ a i, s.handlers c = .ackScan a i) ∨ ∃ a i ws, s.handlers c = .ackWrite a i ws) :
    (s.handlerStep copyCb c).Orderly copyCb := by
  have hnd : ∀ a r, s.handlers c ≠ .done a r := fun a r hd ↦ by simp [hd] at hh
  rcases hh with ⟨a, j, hh⟩ | ⟨a, j, ws, hh⟩
  · rw [handlerStep, hh]
    show (if (s.slots j).tid = (s.calls c).tid then s.setHandler c (.ackWrite a j (ackWrites a))
      else s.setHandler c (nextSlot j (.ackScan a (j + 1)) (.acked a))).Orderly copyCb
    by_cases htid : (s.slots j).tid = (s.calls c).tid
    · rw [if_pos htid]
      simp only [Prompt, hh] at hprompt
      obtain ⟨t, hc, hown, -⟩ := h.found hh (by simp) htid
        (fun t ht ↦ TaskPc.awaitsRsp_of_awaitsAck (hprompt htid t ht))
      have htask := ((own_eq_some h.apart).1 hown).1
      obtain ⟨⟨hquiet, hcreated, -⟩, hback⟩ := h.ackLens hh hc hown (hprompt htid t htask)
      refine h.handleAt hc hown hnd (fun _ _ ↦ rfl) rfl
        (hback _ _ _ ⟨rfl, hquiet, ?_, ?_, ?_, .inr htid, hcreated.2.2.2⟩)
      · rw [ackWrites]
        split <;> exact ⟨rfl, rfl⟩
      · rw [Slot.Open, ackWrites]
        by_cases hd : a.result = .success ∧ a.isResultPending = true
        · rw [if_pos hd, if_pos (show a.Deferred from hd)]
          rfl
        · rw [if_neg hd, if_neg (show ¬ a.Deferred from hd)]
          exact htid
      · rw [ackWrites]
        split <;> simp [Write.IsAck]
    · rw [if_neg htid]
      refine h.silent hh (by simp) (by simp) ?_ ?_ (fun i x hi hx hawait ↦ ?_)
        fun _ _ _ _ ↦ False.elim
      · rw [nextSlot]
        split <;> simp
      · rw [nextSlot]
        split <;> rfl
      · -- the slot of the call is further on
        obtain ⟨hquiet, hcreated, hle⟩ := hawait
        have hji : j ≠ i := by
          rintro rfl
          rw [hx] at htid
          exact htid hcreated.1
        have hlt : j + 1 ≤ i := Nat.lt_of_le_of_ne hle hji
        rw [nextSlot, if_pos (Nat.lt_of_le_of_lt hlt hi)]
        exact ⟨hquiet, hcreated, hlt⟩
  · obtain ⟨t, hc, hown, -, hack⟩ := h.atWork hh rfl
    obtain ⟨⟨-, hquiet, hacked, hopen, hall, hid, hunans⟩, hback⟩ := h.ackLens hh hc hown (hack rfl)
    rw [handlerStep, hh]
    cases ws with
    | nil =>
      show ((s.setSlot j { s.slots j with ackSema := (s.slots j).ackSema + 1 }).setHandler c
        (.acked a)).Orderly copyCb
      refine h.handleSlot hc hnd hown ?_ (.inl ?_) (fun _ hk ↦ by cases hk)
        (hback _ (.acked a) _ ?_)
      · rfl
      · rfl
      · exact ⟨congrArg (· + 1) hquiet.1, hacked, hopen, hunans, hquiet.2⟩
    | cons w ws =>
      obtain ⟨h1, h2, h3, h4, h5, h6⟩ := (hall w (mem_cons_self ..)).write (s.slots j)
      refine h.handleSlot hc hnd hown (Slot.write_task ..) h6 (fun k hk ↦ ?_) (hback _ _ _ ?_)
      · exact (Option.some.inj hk).symm
      · refine ⟨rfl, ⟨h1.trans hquiet.1, h2.trans hquiet.2⟩, hacked, hopen,
          fun w' hw' ↦ hall w' (mem_cons_of_mem _ hw'), hid.of_write h6, ?_⟩
        exact ⟨h3.trans hunans.1, h4.trans hunans.2.1, h5.trans hunans.2.2⟩

/-- `RPC_SyncHandleResponse`. -/
theorem Sync.Orderly.handlingRsp (h : s.Orderly copyCb) (hprompt : s.Prompt (.deliver c))
    (hh : (∃ a r i, s.handlers c = .rspScan a r i) ∨ (∃ a r i, s.handlers c = .rspCopy a r i) ∨
      ∃ a r i ws, s.handlers c = .rspWrite a r i ws) : (s.handlerStep copyCb c).Orderly copyCb := by
  have hnd : ∀ a r, s.handlers c ≠ .done a r := fun a r hd ↦ by simp [hd] at hh
  rcases hh with ⟨a, r, j, hh⟩ | ⟨a, r, j, hh⟩ | ⟨a, r, j, ws, hh⟩
  · rw [handlerStep, hh]
    show (if (s.slots j).tid = (s.calls c).tid then s.setHandler c (.rspCopy a r j)
      else s.setHandler c (nextSlot j (.rspScan a r (j + 1)) (.done a r))).Orderly copyCb
    by_cases htid : (s.slots j).tid = (s.calls c).tid
    · rw [if_pos htid]
      simp only [Prompt, hh] at hprompt
      obtain ⟨hsucc, hwait⟩ := hprompt htid
      obtain ⟨t, hc, hown, hrsp⟩ := h.found hh (by simp) htid hwait
      obtain ⟨⟨hacked, hopen, hunans, hs, -⟩, hback⟩ := h.rspLens hh rfl hc hown hrsp
      -- a response that the client is to get has taken the id away
      have hpend : a.isResultPending = false := by
        cases hp : a.isResultPending with
        | false => rfl
        | true =>
          rw [Slot.Open, if_pos ⟨hsucc, hp⟩, htid, h.tid c (h.lt_nextCall hh (by simp))] at hopen
          cases hopen
      exact h.handleAt hc hown hnd (fun _ _ ↦ rfl) rfl
        (hback _ _ _ rfl rfl rfl rfl ⟨rfl, hsucc, hpend, hacked, hopen, hunans, hs⟩)
    · rw [if_neg htid]
      have hmeet : ∀ i x, i < maxTasksNum → s.slots i = x →
          Meets copyCb i x c (.rspScan a r j) (s.calls c) (s.copied c) → Meets copyCb i x c
            (nextSlot j (.rspScan a r (j + 1)) (.done a r)) (s.calls c) (s.copied c) := by
        rintro i x hi hx ⟨hacked, hopen, hunans, hs, hle⟩
        by_cases hd : a.Deferred
        · rw [nextSlot]
          split
          · exact ⟨hacked, hopen, hunans, hs, fun hnd ↦ absurd hd hnd⟩
          · exact ⟨hacked, hopen.own, .inr ⟨hd, hs⟩⟩
        · have hji : j ≠ i := by
            rintro rfl
            rw [hx] at htid
            rw [Slot.Open, if_neg hd] at hopen
            exact htid hopen
          have hlt : j + 1 ≤ i := Nat.lt_of_le_of_ne (hle hd) hji
          rw [nextSlot, if_pos (Nat.lt_of_le_of_lt hlt hi)]
          exact ⟨hacked, hopen, hunans, hs, fun _ ↦ hlt⟩
      have hpast : (nextSlot j (.rspScan a r (j + 1)) (.done a r)).past = true := by
        rw [nextSlot]
        split <;> rfl
      refine h.silent hh (by simp) (by simp) ?_ ?_ (fun i x hi hx hawait ↦ ?_) hmeet
      · rw [nextSlot]
        split <;> simp
      · rw [nextSlot]
        split <;> rfl
      · obtain ⟨hs, hmeets⟩ := (awaits_of_past rfl).1 hawait
        exact (awaits_of_past hpast).2 ⟨hs, hmeet i x hi hx hmeets⟩
  · obtain ⟨t, hc, hown, hrsp, -⟩ := h.atWork hh rfl
    obtain ⟨⟨-, hsucc, hpend, hacked, hopen, hunans, hs⟩, hback⟩ := h.rspLens hh rfl hc hown hrsp
    -- the data goes to the buffer of the call
    have hstep : s.handlerStep copyCb c = { s.setHandler c (.rspWrite a r j
        (rspWrites r (copyCb r.msgType r.payload (s.calls c).dataLen))) with
        copied := Function.update s.copied c (some r) } := by
      rw [handlerStep, hh]
      simp only [hunans.2.1, hunans.2.2]
    rw [hstep]
    exact h.handleAt hc hown hnd (fun c' hc' ↦ Function.update_of_ne hc' ..) rfl
      (hback _ _ _ rfl rfl rfl rfl ⟨rfl, hsucc, hpend, hacked, hopen.own, hs, ⟨rfl, rfl, rfl⟩,
        by simp [rspWrites, Write.IsRsp], Function.update_self ..⟩)
  · obtain ⟨t, hc, hown, hrsp, -⟩ := h.atWork hh rfl
    obtain ⟨⟨-, hsucc, hpend, hacked, hid, hs, hans, hall, hcp⟩, hback⟩ :=
      h.rspLens hh rfl hc hown hrsp
    rw [handlerStep, hh]
    cases ws with
    | nil =>
      show ((s.setSlot j { s.slots j with rspSema := (s.slots j).rspSema + 1 }).setHandler c
        (.done a r)).Orderly copyCb
      refine h.handleSlot hc hnd hown ?_ (.inl ?_) (fun _ hk ↦ by cases hk)
        (hback _ (.done a r) _ rfl ?_ ?_ ?_ ?_)
      · rfl
      · rfl
      · rfl
      · rfl
      · rfl
      · exact ⟨hacked, hid, .inl ⟨hsucc, hpend, congrArg (· + 1) hs, hans, hcp⟩⟩
    | cons w ws =>
      obtain ⟨h1, h2, h3, h4, h5⟩ := (hall w (mem_cons_self ..)).write (s.slots j)
      refine h.handleSlot hc hnd hown (Slot.write_task ..) h5 (fun k hk ↦ ?_)
        (hback _ _ _ rfl h1 h3 h4 ?_)
      · exact (Option.some.inj hk).symm
      · exact ⟨rfl, hsucc, hpend, ⟨h3.trans hacked.1, h4.trans hacked.2⟩, hid.of_write h5,
          h2.trans hs, hans, fun w' hw' ↦ hall w' (mem_cons_of_mem _ hw'), hcp⟩

/-! ### Runs -/

/-- **Every step of a prompt run keeps the invariant.** -/
theorem Sync.Orderly.step {op : SyncOp} (h : s.Orderly copyCb)
    (hguard : (promptMachine copyCb).guard s op) : (s.step copyCb op).Orderly copyCb := by
  obtain ⟨hen, hprompt⟩ := hguard
  cases op with
  | create t dataLen =>
    rw [enabled, Bool.and_eq_true] at hen
    exact h.create (of_decide_eq_true hen.2) hprompt dataLen
  | task t => exact h.taskStep hen
  | timeout t => exact h.timeoutStep hen hprompt
  | ack c a =>
    have hh : s.handlers c = .sent := of_decide_eq_true hen
    exact h.silent hh (by simp) (by simp) (by simp) rfl
      (fun i x _ _ hawait ↦ ⟨hawait.1, hawait.2, Nat.zero_le _⟩) fun _ _ _ _ ↦ False.elim
  | respond c r =>
    rw [enabled] at hen
    cases hh : s.handlers c with
    | acked a =>
      rw [Sync.step, hh]
      refine h.silent hh (by simp) (by simp) (by simp) rfl (fun i x _ _ hawait ↦ ?_)
        (fun i x _ _ hmeets ↦ ?_)
      · obtain ⟨hs, h1, h2, h3, h4⟩ := hawait
        exact ⟨hs, h1, h2, h3, h4, fun _ ↦ Nat.zero_le _⟩
      · obtain ⟨h1, h2, h3, h4⟩ := hmeets
        exact ⟨h1, h2, h3, h4, fun _ ↦ Nat.zero_le _⟩
    | unsent | sent | ackScan _ _ | ackWrite _ _ _ | rspScan _ _ _ | rspCopy _ _ _
    | rspWrite _ _ _ _ | done _ _ =>
      rw [hh] at hen
      cases hen
  | deliver c =>
    cases hh : s.handlers c with
    | ackScan a i => exact h.handlingAck hprompt (.inl ⟨a, i, hh⟩)
    | ackWrite a i ws => exact h.handlingAck hprompt (.inr ⟨a, i, ws, hh⟩)
    | rspScan a r i => exact h.handlingRsp hprompt (.inl ⟨a, r, i, hh⟩)
    | rspCopy a r i => exact h.handlingRsp hprompt (.inr (.inl ⟨a, r, i, hh⟩))
    | rspWrite a r i ws => exact h.handlingRsp hprompt (.inr (.inr ⟨a, r, i, ws, hh⟩))
    | unsent | sent | acked _ | done _ _ =>
      rw [enabled, hh] at hen
      cases hen

theorem Sync.orderly_empty : (({} : Sync).Orderly copyCb) := by
  refine ⟨fun _ ↦ rfl, fun c hc ↦ absurd hc (Nat.not_lt_zero c), fun i t h ↦ ?_, fun i h ↦ ?_,
    fun _ _ ↦ rfl, fun t c h ↦ ?_, fun c i h ↦ ?_, fun t i x hown ↦ ?_, fun o ho ↦ ?_⟩
  · cases h
  · exact absurd rfl h
  · cases h
  · cases h
  · obtain ⟨j, -, heq⟩ := Option.map_eq_some_iff.1 hown
    obtain ⟨-, rfl⟩ := Prod.mk.inj heq
    exact ⟨rfl, rfl⟩
  · cases ho

/-- **Calls and responses match**: in every run with prompt handlers, a wait that succeeds returns
the acknowledgement and the response of its own call. -/
theorem wait_returns_own_response {ops : List SyncOp}
    (hrun : (promptMachine copyCb).Runs {} ops s) :
    ∀ o ∈ s.returned, o.ack = .success → o.response ≠ none → o.result = resultOk →
      s.Matched copyCb o :=
  (hrun.invariant (I := Sync.Orderly copyCb) (fun _ _ h hg ↦ h.step hg) Sync.orderly_empty).past

/-- Whether a handler is prompt can be read off the state. -/
instance (s : Sync) (c : ℕ) : Decidable (s.Prompt (.deliver c)) :=
  match h : s.handlers c with
  | .ackScan _ i => decidable_of_iff ((s.slots i).tid = (s.calls c).tid →
      ∀ t ∈ (s.slots i).task, (s.tasks t).awaitsAck = true) (by simp [Sync.Prompt, h])
  | .rspScan a _ i => decidable_of_iff ((s.slots i).tid = (s.calls c).tid → a.result = .success ∧
      ∀ t ∈ (s.slots i).task, (s.tasks t).awaitsRsp = true) (by simp [Sync.Prompt, h])
  | .unsent | .sent | .ackWrite _ _ _ | .acked _ | .rspCopy _ _ _ | .rspWrite _ _ _ _ | .done _ _ =>
    .isTrue (by simp [Sync.Prompt, h])

/-- A callback that takes the payload for the size of the response, and finds no error. -/
def sizeCb : ℕ → ℕ → ℤ → ℕ × ℕ := fun _ payload _ ↦ (payload, resultOk)

/-- A call is made, acknowledged and answered. -/
def answeredCall : List SyncOp :=
  List.flatten [[.create 0 4], .replicate 14 (.task 0), [.ack 0 ⟨.success, false⟩],
    .replicate 4 (.deliver 0), .replicate 5 (.task 0), [.respond 0 ⟨7, 3⟩],
    .replicate 7 (.deliver 0), .replicate 4 (.task 0)]

theorem wait_returns_own_response_once : ∃ s : Sync, (promptMachine sizeCb).Runs {} answeredCall s ∧
    s.returned = [⟨0, 0, .success, some (7, 3), resultOk⟩] ∧
    s.Matched sizeCb ⟨0, 0, .success, some (7, 3), resultOk⟩ := by
  refine Machine.Permitted.exists_runs ?_ fun s hrun hs ↦ ?_
  · refine ⟨⟨by decide +kernel, show 0 + 1 < 2 ^ 32 by decide⟩, ?_⟩
    iterate 15 refine ⟨⟨by decide +kernel, trivial⟩, ?_⟩
    iterate 4 refine ⟨⟨by decide +kernel, by decide +kernel⟩, ?_⟩
    iterate 6 refine ⟨⟨by decide +kernel, trivial⟩, ?_⟩
    iterate 7 refine ⟨⟨by decide +kernel, by decide +kernel⟩, ?_⟩
    iterate 4 refine ⟨⟨by decide +kernel, trivial⟩, ?_⟩
    exact trivial
  · have hret : s.returned = [⟨0, 0, .success, some (7, 3), resultOk⟩] := hs ▸ by decide +kernel
    refine ⟨hret, wait_returns_own_response hrun _ ?_ rfl (by simp) rfl⟩
    rw [hret]
    exact mem_cons_self ..

/-- The response to a call comes after its wait has timed out; the next call of the task is
acknowledged, and its own response is being handled. -/
def lateResponse : List SyncOp :=
  List.flatten [[.create 0 4], .replicate 14 (.task 0), [.ack 0 ⟨.success, false⟩],
    .replicate 4 (.deliver 0), .replicate 5 (.task 0), [.timeout 0], .replicate 3 (.task 0),
    [.respond 0 ⟨7, 3⟩], .replicate 7 (.deliver 0), [.create 0 4], .replicate 12 (.task 0),
    [.ack 1 ⟨.success, false⟩], .replicate 4 (.deliver 1), [.respond 1 ⟨9, 5⟩],
    .replicate 3 (.deliver 1), .replicate 9 (.task 0)]

instance (copyCb : ℕ → ℕ → ℤ → ℕ × ℕ) (s : Sync) (op : SyncOp) :
    Decidable ((syncMachine copyCb).guard s op) :=
  inferInstanceAs (Decidable (s.enabled op = true))

/-- While the response to a call is being written, no wait has returned it. -/
theorem Sync.not_matched_of_rspWrite {o : Outcome} {a : Ack} {r : Response} {ws : List Write}
    (h : s.handlers o.call = .rspWrite a r i ws) : ¬ s.Matched copyCb o := by
  rintro ⟨a', r', hdone, -⟩
  rw [h] at hdone
  cases hdone

/-- **A response that comes late is taken for the next one.** The semaphore that it has released
lets the wait of the next call go on before its own response has been written: that wait succeeds
with the message type of the response to the call that had timed out. -/
theorem late_response_taken_for_next : ∃ s : Sync, (syncMachine sizeCb).Runs {} lateResponse s ∧
    s.handlers 1 = .rspWrite ⟨.success, false⟩ ⟨9, 5⟩ 0 [.tid 0, .msgType 9, .rspSize 5] ∧
    s.returned.head? = some ⟨0, 1, .success, some (7, 0), resultOk⟩ ∧
    ¬ s.Matched sizeCb ⟨0, 1, .success, some (7, 0), resultOk⟩ := by
  refine Machine.Permitted.exists_runs (by decide +kernel) fun s _ hs ↦ ?_
  have hhandler : s.handlers 1 =
      .rspWrite ⟨.success, false⟩ ⟨9, 5⟩ 0 [.tid 0, .msgType 9, .rspSize 5] :=
      hs ▸ by decide +kernel
  exact ⟨hhandler, hs ▸ by decide +kernel, Sync.not_matched_of_rspWrite hhandler⟩

end Rpc
