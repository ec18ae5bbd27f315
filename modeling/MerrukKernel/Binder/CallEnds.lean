import Mathlib.Data.List.Perm.Subperm
import MerrukKernel.Binder.Queued
import MerrukKernel.Library.CallChain

/-!
# How calls end

The stacks of `binder.c` are the stacks of `Calls`: a thread is an agent, `from` and `from_parent`
of a transaction are its side of the caller, `to_thread` and `to_parent` its side of the callee.
This module has the functions that take calls away, `binder_pop_transaction`,
`binder_send_failed_reply`, `binder_release_work` and `binder_free_thread`: each of them succeeds,
which is to say that it runs into no `BUG`, and is matched by operations on `Calls`.

A thread on its way out is still there while its calls end, but nothing may go to it. The view
`calls` leaves it out.
-/

namespace Binder

open Placement Relation Function List Option FlowEvent Binder.Flow Calls

/-- The call a transaction is. -/
def Transaction.link (x : Transaction) : CallLink ℕ :=
  ⟨x.fromThread, x.fromParent, x.toThread, x.toParent⟩

/-- The call that an event tells of, with its sender. -/
def FlowEvent.call? : FlowEvent → Option (ℕ × ℕ)
  | .called t th => some (t, th)
  | _ => none

/-- The call whose answer an event tells of, with the thread that gets it. -/
def FlowEvent.answer? : FlowEvent → Option (ℕ × ℕ)
  | .answered t th => some (t, th)
  | _ => none

namespace Flow

variable {s s' : Flow} {loc : ℕ → Option WorkList} {t u b th p n : ℕ} {q : WorkList}
  {x : Transaction} {gone : Option ℕ}

/-- The calls in progress, seen without a thread that is on its way out. -/
def calls (s : Flow) (gone : Option ℕ) : Calls ℕ where
  link := fun t ↦ (s.transactions t).bind fun x ↦ if x.needReply then some x.link else none
  top := fun th ↦ if gone = some th then none else (s.threads th).map (·.transactionStack)
  pending := fun t ↦ (∃ q, t ∈ s.waiting q) ∧ ∃ x, s.transactions t = some x ∧ x.needReply = true

/-- The synchronous calls made so far, each with its sender. -/
def callsMade (s : Flow) : List (ℕ × ℕ) := s.log.filterMap FlowEvent.call?

/-- The replies and failed replies so far, each with the thread that got it. -/
def answers (s : Flow) : List (ℕ × ℕ) := s.log.filterMap FlowEvent.answer?

/-- **Answers** go to the sender of the call, and to a call that is over. -/
structure Logged (s : Flow) : Prop where
  nodup : (s.callsMade.map Prod.fst).Nodup
  lt_next : ∀ c ∈ s.callsMade, c.1 < s.next
  sender : ∀ {t x th}, s.transactions t = some x → x.needReply = true → x.fromThread = some th →
    (t, th) ∈ s.callsMade
  answered : ∀ c ∈ s.answers, c ∈ s.callsMade ∧ s.transactions c.1 = none
  once : (s.answers.map Prod.fst).Nodup

/-- The invariant of all steps. -/
structure Good (s : Flow) (loc : ℕ → Option WorkList) (gone : Option ℕ) : Prop where
  stocked : s.Stocked loc
  sound : (s.calls gone).Sound
  logged : s.Logged

/-! ### Reading the view -/

theorem link_eq_some {L : CallLink ℕ} : (s.calls gone).link t = some L ↔
      ∃ x, s.transactions t = some x ∧ x.needReply = true ∧ x.link = L := by
  simp only [calls, bind_eq_some_iff]
  constructor
  · grind
  · grind

theorem link_of_needReply (hx : s.transactions t = some x) (hn : x.needReply = true) :
    (s.calls gone).link t = some x.link :=
  link_eq_some.2 ⟨x, hx, hn, rfl⟩

theorem top_eq_some {o : Option ℕ} : (s.calls gone).top th = some o ↔
      gone ≠ some th ∧ ∃ r, s.threads th = some r ∧ r.transactionStack = o := by
  simp only [calls]
  split_ifs with hg
  · simp [hg]
  · simp [hg, map_eq_some_iff]

theorem link_congr (h : s'.transactions t = s.transactions t) :
    (s'.calls gone).link t = (s.calls gone).link t := by
  simp [calls, h]

theorem pending_of_waiting (hw : ∀ q, s'.waiting q = s.waiting q)
    (htr : ∀ {t x'}, s'.transactions t = some x' → ∃ x, s.transactions t = some x ∧
      x'.needReply = x.needReply) :
    ∀ t, (s'.calls gone).pending t → (s.calls gone).pending t := by
  rintro t ⟨⟨q, hq⟩, x', hx', hn⟩
  obtain ⟨x, hx, hneed⟩ := htr hx'
  exact ⟨⟨q, hw q ▸ hq⟩, x, hx, hneed.symm.trans hn⟩

/-! ### Errors of threads -/

/-- **Where no call is made or answered**, other transactions may come. -/
theorem Logged.grow (h : s.Logged) (hcalls : s'.callsMade = s.callsMade)
    (hanswers : s'.answers = s.answers) (hnext : s.next ≤ s'.next)
    (htr : ∀ {t x'}, s'.transactions t = some x' → (s.next ≤ t ∧ x'.needReply = false) ∨
      ∃ x, s.transactions t = some x ∧ x'.needReply = x.needReply ∧
        ∀ th, x'.fromThread = some th → x.fromThread = some th) : s'.Logged := by
  refine ⟨hcalls ▸ h.nodup, ?_, ?_, ?_, hanswers ▸ h.once⟩
  · rw [hcalls]
    exact fun c hc ↦ Nat.lt_of_lt_of_le (h.lt_next c hc) hnext
  · grind [h.sender]
  · rw [hanswers, hcalls]
    intro c hc
    obtain ⟨hmade, hnone⟩ := h.answered c hc
    refine ⟨hmade, ?_⟩
    cases hx' : s'.transactions c.1 with
    | none => rfl
    | some x' =>
      rcases htr hx' with ⟨hge, -⟩ | ⟨x, hx, -⟩
      · exact absurd (h.lt_next c hmade) (Nat.not_lt.2 hge)
      · cases hnone.symm.trans hx

theorem Logged.congr (h : s.Logged) (hlog : s'.log = s.log) (hnext : s'.next = s.next)
    (htr : ∀ {t x'}, s'.transactions t = some x' → ∃ x, s.transactions t = some x ∧
      x'.needReply = x.needReply ∧ ∀ th, x'.fromThread = some th → x.fromThread = some th) :
    s'.Logged :=
  h.grow (by rw [callsMade, hlog, callsMade]) (by rw [answers, hlog, answers]) hnext.ge
    fun hx' ↦ .inr (htr hx')

variable {r : Thread} {l : List ℕ} {rest : List Work}

/-- Errors of threads are no part of the view. -/
theorem calls_setThread (gone : Option ℕ) (r' : Thread) (hr : s.threads th = some r)
    (hproc : r'.proc = r.proc) (htodo : r'.todo = r.todo)
    (hstack : r'.transactionStack = r.transactionStack) :
    ((s.setThread th r').calls gone).top = (s.calls gone).top ∧
      ∀ t, ((s.setThread th r').calls gone).pending t → (s.calls gone).pending t := by
  refine ⟨funext fun i ↦ ?_, pending_of_waiting (fun q ↦ ?_) fun hx ↦ ⟨_, hx, rfl⟩⟩
  · exact proj_update (ite _ none <| Option.map _ ·) (by simp [hr, hstack]) i
  · rw [waiting, (quiet_setThread hr hproc htodo).todo, waiting]

/-- **Errors** do not matter. -/
theorem Good.setThread {r' : Thread} (h : s.Good loc gone) (hr : s.threads th = some r)
    (hproc : r'.proc = r.proc) (htodo : r'.todo = r.todo)
    (hstack : r'.transactionStack = r.transactionStack) : (s.setThread th r').Good loc gone where
  stocked := h.stocked.quiet (quiet_setThread hr hproc htodo) (h.stocked.tied.congr rfl rfl)
    fun _ _ hx ↦ ⟨_, hx, rfl, rfl⟩
  sound :=
    have hview := calls_setThread gone r' hr hproc htodo hstack
    h.sound.congr rfl hview.1 hview.2
  logged := h.logged.congr rfl rfl fun hx ↦ ⟨_, hx, rfl, fun _ h ↦ h⟩

theorem setReturnError_eq (hr : s.threads th = some r) (e : ReturnError) :
    s.setReturnError th e = s.setThread th { r with returnError := e } := by
  simp [setReturnError, setThread, hr]

theorem Good.setReturnError (h : s.Good loc gone) (th : ℕ) (e : ReturnError) :
    (s.setReturnError th e).Good loc gone := by
  cases hr : s.threads th with
  | some r =>
    rw [setReturnError_eq hr]
    exact h.setThread hr rfl rfl rfl
  | none =>
    have hid : update s.threads th
        ((s.threads th).map fun r ↦ { r with returnError := e }) = s.threads :=
      update_eq_self_iff.2 (by rw [hr]; rfl)
    unfold Flow.setReturnError
    rw [hid]
    exact h

/-! ### Popping a call -/

/-- Write `thread->transaction_stack`. -/
def setStack (s : Flow) (th : ℕ) (o : Option ℕ) : Flow :=
  { s with
    threads := update s.threads th
      ((s.threads th).map fun r ↦ { r with transactionStack := o }) }

theorem setStack_eq (hr : s.threads th = some r) (o : Option ℕ) :
    s.setThread th { r with transactionStack := o } = s.setStack th o := by
  simp [setThread, setStack, hr]

@[simp] theorem setStack_log (s : Flow) (th : ℕ) (o : Option ℕ) : (s.setStack th o).log = s.log :=
  rfl

/-- What is left when a call is over. -/
def popped (s : Flow) (t : ℕ) (x : Transaction) : Flow :=
  (x.fromThread.elim s fun th ↦ (s.setStack th x.fromParent).record (.answered t th)).rewrite t
    none ((s.buffers t).map untied)

theorem popped_transactions (s : Flow) (t : ℕ) (x : Transaction) :
    (s.popped t x).transactions = update s.transactions t none := by
  unfold popped
  cases x.fromThread <;> rfl

theorem popped_buffers (s : Flow) (t : ℕ) (x : Transaction) :
    (s.popped t x).buffers = update s.buffers t ((s.buffers t).map untied) := by
  unfold popped
  cases x.fromThread <;> rfl

theorem popped_threads_of_ne (hth : x.fromThread ≠ some th) :
    (s.popped t x).threads th = s.threads th := by
  unfold popped
  cases hfrom : x.fromThread with
  | none => rfl
  | some th' =>
    have hne : th ≠ th' := fun h ↦ hth (h ▸ hfrom)
    exact update_of_ne hne ..

theorem popped_threads_self (hth : x.fromThread = some th) : (s.popped t x).threads th =
      (s.threads th).map fun r ↦ { r with transactionStack := x.fromParent } := by
  unfold popped
  rw [hth]
  exact update_self ..

theorem popped_quiet (s : Flow) (t : ℕ) (x : Transaction) : s.Quiet (s.popped t x) := by
  have hdrop (s : Flow) : s.Quiet (s.rewrite t none ((s.buffers t).map untied)) := by
    refine { quiet_untieBuffer s t with transactions := fun {u y} hy ↦ ?_ }
    have hne : u ≠ t := by
      rintro rfl
      cases (rewrite_transactions_self ..).symm.trans hy
    exact ⟨y, (update_of_ne hne ..).symm.trans hy, rfl, rfl, .inl rfl⟩
  unfold popped
  cases x.fromThread with
  | none => exact hdrop s
  | some th =>
    have hstack : s.Quiet (s.setStack th x.fromParent) :=
      quiet_mapThread s th _ fun _ ↦ ⟨rfl, rfl⟩
    have hlog : s.Quiet ((s.setStack th x.fromParent).record (.answered t th)) :=
      { hstack with log := by simp [record, isAsync] }
    exact hlog.trans (hdrop _)

/-- **`binder_pop_transaction`** runs into no `BUG_ON` where the sender of the call waits for it. -/
theorem popTransaction_eq (h : s.Tied) (hx : s.transactions t = some x)
    (htop : ∀ th, x.fromThread = some th →
      ∃ r, s.threads th = some r ∧ r.transactionStack = some t) :
    s.popTransaction x.fromThread t = some (s.popped t x) := by
  cases hfrom : x.fromThread with
  | none =>
    simp only [popTransaction, hx, popStack, detachBuffer_eq h hx, popped, hfrom,
      bind_eq_bind, bind_some]
    rfl
  | some th =>
    obtain ⟨r, hr, hstack⟩ := htop th hfrom
    have htied : ((s.setStack th x.fromParent).record (.answered t th)).Tied := h.congr rfl rfl
    have hdetach : ((s.setStack th x.fromParent).record (.answered t th)).detachBuffer x =
        some (((s.setStack th x.fromParent).record (.answered t th)).untieBuffer t) :=
      detachBuffer_eq htied hx
    simp only [popTransaction, hx, popStack, hr, hstack, hfrom, and_self, if_true, setStack_eq hr,
      bind_eq_bind, bind_some, hdetach, popped]
    rfl

theorem popped_link (s : Flow) (t : ℕ) (x : Transaction) :
    ((s.popped t x).calls gone).link = update (s.calls gone).link t none := by
  funext u
  by_cases hu : u = t
  · subst hu
    simp [calls, popped_transactions]
  · rw [update_of_ne hu]
    exact link_congr (by rw [popped_transactions, update_of_ne hu])

theorem popped_pending (s : Flow) (t : ℕ) (x : Transaction) (u : ℕ)
    (h : ((s.popped t x).calls gone).pending u) : (s.calls gone).pending u := by
  refine pending_of_waiting (fun q ↦ ?_) (fun hy ↦ ?_) u h
  · rw [waiting, (popped_quiet s t x).todo, waiting]
  · obtain ⟨y, hy, hn, -⟩ := (popped_quiet s t x).transactions hy
    exact ⟨y, hy, hn⟩

theorem popped_top (hx : ∀ th, x.fromThread = some th →
      gone ≠ some th ∧ ∃ r, s.threads th = some r ∧ r.transactionStack = some t) :
    ((s.popped t x).calls gone).top = ((s.calls gone).discard t x.link).top := by
  funext th
  by_cases hth : x.fromThread = some th
  · obtain ⟨hgone, r, hr, -⟩ := hx th hth
    have hlink : x.link.caller = some th := hth
    rw [discard_top_self hlink]
    simp [calls, popped_threads_self hth, hgone, hr, Transaction.link]
  · have hlink : x.link.caller ≠ some th := hth
    rw [discard_top_of_ne hlink]
    simp [calls, popped_threads_of_ne hth]

theorem popped_callsMade (s : Flow) (t : ℕ) (x : Transaction) :
    (s.popped t x).callsMade = s.callsMade := by
  unfold popped
  cases x.fromThread with
  | none => rfl
  | some th => simp [callsMade, rewrite, record, filterMap_cons, call?]

theorem popped_answers (s : Flow) (t : ℕ) (x : Transaction) :
    (s.popped t x).answers = s.answers ++ x.fromThread.toList.map (Prod.mk t) := by
  unfold popped
  cases x.fromThread with
  | none => simp [answers, rewrite]
  | some th => simp [answers, rewrite, record, answer?]

/-- **A call that is popped** is answered for the first time. -/
theorem popped_logged (h : s.Logged) (hx : s.transactions t = some x) (hn : x.needReply = true) :
    (s.popped t x).Logged := by
  have hnone : ∀ {u}, u = t ∨ s.transactions u = none → (s.popped t x).transactions u = none := by
    intro u hu
    rw [popped_transactions]
    by_cases hut : u = t
    · subst hut
      exact update_self ..
    · grind
  refine ⟨?_, ?_, fun {u y th} hy hyn hfrom ↦ ?_, ?_, ?_⟩
  · rw [popped_callsMade]
    exact h.nodup
  · rw [popped_callsMade, (popped_quiet s t x).next]
    exact h.lt_next
  · have hu : u ≠ t := fun hu ↦ absurd ((hnone (.inl hu)).symm.trans hy) (by simp)
    rw [popped_transactions, update_of_ne hu] at hy
    rw [popped_callsMade]
    exact h.sender hy hyn hfrom
  · rw [popped_callsMade, popped_answers]
    intro c hc
    rcases mem_append.1 hc with hc | hc
    · exact ⟨(h.answered c hc).1, hnone (.inr (h.answered c hc).2)⟩
    · obtain ⟨th, hth, rfl⟩ := mem_map.1 hc
      exact ⟨h.sender hx hn (mem_toList.1 hth), hnone (.inl rfl)⟩
  · rw [popped_answers, List.map_append, List.map_map]
    refine h.once.append ?_ ?_
    · cases x.fromThread <;> simp
    · -- whatever has been answered is gone
      intro u hu hut
      obtain ⟨c, hc, rfl⟩ := mem_map.1 hu
      obtain ⟨th, -, hct⟩ := mem_map.1 hut
      obtain rfl : t = c.1 := hct
      cases (h.answered c hc).2.symm.trans hx

/-- **Popping a call** that nobody works on any more succeeds and keeps the invariant. -/
theorem Good.pop (h : s.Good loc gone) (hx : s.transactions t = some x) (hn : x.needReply = true)
    (hloose : (s.calls gone).Loose t x.link) :
    s.popTransaction x.fromThread t = some (s.popped t x) ∧ (s.popped t x).Good loc gone ∧
      ((s.popped t x).calls gone).link = ((s.calls gone).discard t x.link).link ∧
      ((s.popped t x).calls gone).top = ((s.calls gone).discard t x.link).top := by
  have htop : ∀ th, x.fromThread = some th →
      gone ≠ some th ∧ ∃ r, s.threads th = some r ∧ r.transactionStack = some t := fun th hth ↦
    top_eq_some.1 (h.sound.top_of_bare hloose.link hloose.bare hth)
  have hloc : loc t = none := by
    cases hq : loc t with
    | none => rfl
    | some q =>
      exact absurd ⟨⟨q, ((h.stocked.lists q).mem_iff t).2 hq⟩, x, hx, hn⟩ hloose.not_pending
  refine ⟨popTransaction_eq h.stocked.tied hx fun th hth ↦ (htop th hth).2, ⟨?_, ?_, ?_⟩,
    popped_link s t x, popped_top htop⟩
  · refine h.stocked.quiet (popped_quiet s t x) ?_ fun {u q p y} hq _ hy ↦ ?_
    · refine h.stocked.tied.clear (t := t) ?_ ?_ ?_ ?_
      · exact fun u hu ↦ by rw [popped_transactions, update_of_ne hu]
      · exact fun u hu ↦ by rw [popped_buffers, update_of_ne hu]
      · intro y hy
        rw [popped_transactions, update_self] at hy
        cases hy
      · intro y hy
        rw [popped_buffers, update_self] at hy
        obtain ⟨buf, -, rfl⟩ := map_eq_some_iff.1 hy
        rfl
    · have hu : u ≠ t := by
        rintro rfl
        cases hloc.symm.trans hq
      exact ⟨y, by rw [popped_transactions, update_of_ne hu, hy], rfl, rfl⟩
  · exact (h.sound.discard hloose).congr (popped_link s t x) (popped_top htop)
      (popped_pending s t x)
  · exact popped_logged h.logged hx hn

/-! ### Failed replies -/

/-- **`binder_send_failed_reply`** climbs from a call that nobody works on to the first sender that
is still there. -/
theorem Good.failedReplyLoop (err : ReturnError) (fuel : ℕ) (h : s.Good loc gone)
    (hx : s.transactions t = some x) (hn : x.needReply = true)
    (hloose : (s.calls gone).Loose t x.link) (hfuel : t < fuel) :
    ∃ s', failedReplyLoop err fuel s t = some s' ∧ s'.Good loc gone ∧ s.Quiet s' := by
  induction fuel generalizing s t x with
  | zero => exact absurd hfuel (Nat.not_lt_zero t)
  | succ fuel ih =>
    cases hfrom : x.fromThread with
    | some th =>
      obtain ⟨-, r, hr, hstack⟩ :=
        top_eq_some.1 (h.sound.top_of_bare hloose.link hloose.bare hfrom)
      simp only [failedReplyLoop, hx, hfrom, hr]
      by_cases hfull : r.returnError ≠ .ok ∧ r.returnError2 ≠ .ok
      · rw [if_pos hfull]
        exact ⟨s, rfl, h, .refl s⟩
      · rw [if_neg hfull]
        -- make room for the error, pop the call, write the error
        generalize hr' : (if r.returnError = .ok then r else
          { r with returnError2 := r.returnError, returnError := .ok }) = r'
        have hsame : r'.proc = r.proc ∧ r'.todo = r.todo ∧
            r'.transactionStack = r.transactionStack := by grind
        obtain ⟨hproc, htodo, hst⟩ := hsame
        have h1 := h.setThread hr hproc htodo hst
        have hview := calls_setThread gone r' hr hproc htodo hst
        obtain ⟨hpop, h2, -⟩ := h1.pop hx hn (hloose.congr rfl hview.1 (hview.2 t))
        rw [hfrom] at hpop
        rw [hpop]
        exact ⟨_, rfl, h2.setReturnError th err, (quiet_setThread hr hproc htodo).trans
          ((popped_quiet ..).trans (quiet_setReturnError ..))⟩
    | none =>
      obtain ⟨hpop, h1, hlink, htop⟩ := h.pop hx hn hloose
      rw [hfrom] at hpop
      simp only [failedReplyLoop, hx, hfrom, hpop]
      cases hparent : x.fromParent with
      | none => exact ⟨_, rfl, h1, popped_quiet s t x⟩
      | some u =>
        have hlt := (h.sound.outer hloose.link hparent).1
        obtain ⟨U, hU⟩ := hloose.outer h.sound hfrom hparent
        obtain ⟨y, hy, hyn, rfl⟩ := link_eq_some.1 ((congrFun hlink u).trans hU.link)
        have hloose' := hU.congr hlink htop (popped_pending s t x u)
        obtain ⟨s', hs', hg, hq⟩ := ih h1 hy hyn hloose' (by omega)
        exact ⟨s', hs', hg, (popped_quiet s t x).trans hq⟩

theorem Good.sendFailedReply (err : ReturnError) (h : s.Good loc gone)
    (hx : s.transactions t = some x) (hn : x.needReply = true)
    (hloose : (s.calls gone).Loose t x.link) :
    ∃ s', s.sendFailedReply t err = some s' ∧ s'.Good loc gone ∧ s.Quiet s' := by
  have hsync := h.stocked.sync hx hn
  obtain ⟨s', hs', h'⟩ := h.failedReplyLoop err s.next hx hn hloose (h.stocked.lt_next hx)
  exact ⟨s', by simp [Flow.sendFailedReply, hx, hsync, hs'], h'⟩

/-! ### The stack of a thread on its way out -/

/-- A transaction, cut off from a thread. -/
def cutOff (th : ℕ) (x : Transaction) : Transaction :=
  if x.toThread = some th then { x with toThread := none, buffer := none }
  else if x.fromThread = some th then { x with fromThread := none } else x

theorem cutOff_link (th : ℕ) (x : Transaction) : (cutOff th x).link = cut th x.link := by
  unfold cutOff cut Transaction.link
  split_ifs <;> rfl

theorem cutOff_fields (th : ℕ) (x : Transaction) :
    (cutOff th x).needReply = x.needReply ∧ (cutOff th x).oneWay = x.oneWay ∧
      ((cutOff th x).toThread = x.toThread ∨ (cutOff th x).toThread = none) ∧
      ∀ i, (cutOff th x).fromThread = some i → x.fromThread = some i := by
  unfold cutOff
  split_ifs
  · exact ⟨rfl, rfl, .inr rfl, fun _ h ↦ h⟩
  · exact ⟨rfl, rfl, .inl rfl, fun _ h ↦ absurd h (by simp)⟩
  · exact ⟨rfl, rfl, .inl rfl, fun _ h ↦ h⟩

/-- What the loop over the stack `l` of a thread does. -/
structure Unlinked (s s' : Flow) (th : ℕ) (l : List ℕ) : Prop where
  quiet : s.Quiet s'
  tied : s'.Tied
  threads : s'.threads = s.threads
  log : s'.log = s.log
  transactions : ∀ t, s'.transactions t =
    if t ∈ l then (s.transactions t).map (cutOff th) else s.transactions t

/-- One round of the loop. -/
theorem unlink_one (h : s.Tied) (hx : s.transactions t = some x)
    (hor : x.toThread = some th ∨ x.fromThread = some th) :
    ∃ s', (∀ fuel, unlinkStack th (fuel + 1) (some t) s =
        unlinkStack th fuel (if x.toThread = some th then x.toParent else x.fromParent) s') ∧
      s.Unlinked s' th [t] := by
  obtain ⟨hneed, hone, hto', -⟩ := cutOff_fields th x
  have htr : ∀ s' : Flow, s'.transactions = update s.transactions t (some (cutOff th x)) →
      ∀ u, s'.transactions u =
        if u ∈ [t] then (s.transactions u).map (cutOff th) else s.transactions u := by
    intro s' hs' u
    rw [hs']
    by_cases hu : u = t
    · subst hu
      simp [hx]
    · simp [hu]
  by_cases hto : x.toThread = some th
  · refine ⟨s.rewrite t (some (cutOff th x)) ((s.buffers t).map untied), fun fuel ↦ ?_,
      (quiet_setTransaction hx hneed hone hto').trans (quiet_untieBuffer _ t),
      h.rewrite (fun y hy ↦ ?_) (fun y hy ↦ ?_), rfl, rfl,
      htr _ rfl⟩
    · simp only [unlinkStack, hx, if_pos hto, detachBuffer_eq h hx, cutOff]
      rfl
    · cases hy
      simp [cutOff, hto]
    · obtain ⟨buf, -, rfl⟩ := map_eq_some_iff.1 hy
      rfl
  · have hfrom := hor.resolve_left hto
    have hcut : cutOff th x = { x with fromThread := none } := by simp [cutOff, hto, hfrom]
    refine ⟨s.setTransaction t (cutOff th x), fun fuel ↦ ?_,
      quiet_setTransaction hx hneed hone hto', h.setTransaction hx hneed hone ?_, rfl, rfl,
      htr _ rfl⟩
    · simp only [unlinkStack, hx, if_neg hto, if_pos hfrom, hcut]
    · rw [hcut]

/-- **The loop of `binder_free_thread`** runs into no `BUG()`: whatever is on the stack of a thread,
the thread has sent or taken. -/
theorem unlinkStack_spec {o : Option ℕ} (fuel : ℕ) (h : s.Tied)
    (hl : Linked ((s.calls none).below th) o l) (hnodup : l.Nodup) (hfuel : l.length ≤ fuel) :
    ∃ s', unlinkStack th fuel o s = some s' ∧ s.Unlinked s' th l := by
  induction l generalizing s o fuel with
  | nil =>
    cases hl
    refine ⟨s, ?_, .refl s, h, rfl, rfl, fun t ↦ by simp⟩
    cases fuel <;> rfl
  | cons t l ih =>
    obtain ⟨hnot, hnodup⟩ := nodup_cons.1 hnodup
    cases hl with
    | @cons _ o' _ ht hl =>
      obtain ⟨L, hL, hside⟩ := below_eq_some ht
      obtain ⟨x, hx, hn, rfl⟩ := link_eq_some.1 hL
      have hor : x.toThread = some th ∨ x.fromThread = some th := by
        rcases hside with ⟨h1, -⟩ | ⟨-, h2, -⟩
        · exact .inl h1
        · exact .inr h2
      have hnext : (if x.toThread = some th then x.toParent else x.fromParent) = o' := by
        rcases hside with ⟨h1, rfl⟩ | ⟨h1, -, rfl⟩
        · exact if_pos h1
        · exact if_neg h1
      obtain ⟨s₁, hrun, hu⟩ := unlink_one h hx hor
      obtain ⟨fuel, rfl⟩ : ∃ k, fuel = k + 1 := ⟨fuel - 1, by simp at hfuel; omega⟩
      -- the rest of the stack is as it was
      have hl₁ : Linked ((s₁.calls none).below th) o' l := hl.congr fun u hu' ↦ by
        refine below_congr (link_congr ?_)
        have hne : u ≠ t := fun hut ↦ hnot (hut ▸ hu')
        rw [hu.transactions, if_neg (by simpa using hne)]
      obtain ⟨s', hs', hu'⟩ := ih fuel hu.tied hl₁ hnodup (by simpa using hfuel)
      refine ⟨s', by rw [hrun, hnext, hs'], hu.quiet.trans hu'.quiet, hu'.tied,
        hu'.threads.trans hu.threads, hu'.log.trans hu.log, fun u ↦ ?_⟩
      rw [hu'.transactions, hu.transactions]
      by_cases hut : u = t
      · subst hut
        simp [hnot]
      · simp [hut]

/-- The view of a state in which a thread has been cut off. -/
theorem Unlinked.link (h : s.Unlinked s' th l) :
    (s'.calls (some th)).link = ((s.calls none).die th l).link := by
  funext t
  by_cases ht : t ∈ l
  · rw [die_link_of_mem ht]
    simp only [calls, h.transactions, if_pos ht]
    cases hx : s.transactions t with
    | none => rfl
    | some x =>
      simp only [map_some, bind_some, (cutOff_fields th x).1, cutOff_link]
      split_ifs <;> rfl
  · rw [die_link_of_not_mem ht]
    exact link_congr (by rw [h.transactions, if_neg ht])

theorem Unlinked.top (h : s.Unlinked s' th l) :
    (s'.calls (some th)).top = ((s.calls none).die th l).top := by
  funext i
  by_cases hi : i = th
  · subst hi
    simp [calls, die]
  · have hne : ¬ th = i := fun h ↦ hi h.symm
    simp [calls, die, h.threads, hi, hne]

theorem Unlinked.pending (h : s.Unlinked s' th l) (t : ℕ)
    (hp : (s'.calls (some th)).pending t) : ((s.calls none).die th l).pending t := by
  obtain ⟨⟨q, hq⟩, x', hx', hn⟩ := hp
  obtain ⟨x, hx, hneed, -⟩ := h.quiet.transactions hx'
  rw [waiting, h.quiet.todo] at hq
  exact ⟨⟨q, hq⟩, x, hx, hneed.symm.trans hn⟩

/-- **A thread is cut off** from the calls it has part in. -/
theorem Good.unlinkStack (h : s.Good loc none) (hr : s.threads th = some r) :
    ∃ s' l, unlinkStack th (2 * s.next) r.transactionStack s = some s' ∧
      (s.calls none).Stack th l ∧ s.Unlinked s' th l ∧ s'.Good loc (some th) := by
  have htop : (s.calls none).top th = some r.transactionStack :=
    top_eq_some.2 ⟨by simp, r, hr, rfl⟩
  obtain ⟨l, hl⟩ := h.sound.stack htop
  have hstack : (s.calls none).Stack th l := ⟨_, htop, hl⟩
  have hnodup := h.sound.nodup_stack hl
  have hlength : l.length ≤ s.next := by
    have hsub : l ⊆ List.range s.next := by
      intro t ht
      obtain ⟨L, hL, -⟩ := hstack.link_of_mem ht
      obtain ⟨x, hx, -⟩ := link_eq_some.1 hL
      exact mem_range.2 (h.stocked.lt_next hx)
    simpa using (List.Nodup.subperm hnodup hsub).length_le
  obtain ⟨s', hs', hu⟩ := unlinkStack_spec (2 * s.next) h.stocked.tied hl hnodup (by omega)
  refine ⟨s', l, hs', hstack, hu, ?_, ?_, ?_⟩
  · refine h.stocked.quiet hu.quiet hu.tied fun {t q p x} hq hown hx ↦ ?_
    rw [hu.transactions]
    by_cases ht : t ∈ l
    · -- a call that waits is on the stack of its sender only
      obtain ⟨L, hL, -⟩ := hstack.link_of_mem ht
      obtain ⟨y, hy, hn, rfl⟩ := link_eq_some.1 hL
      obtain rfl : y = x := Option.mem_unique hy hx
      have hpend : (s.calls none).pending t :=
        ⟨⟨q, ((h.stocked.lists q).mem_iff t).2 hq⟩, y, hx, hn⟩
      have hto : y.toThread ≠ some th := fun hto ↦
        h.sound.not_mem_of_pending hpend hL htop (.inl hto) hl ht
      refine ⟨cutOff th y, by rw [if_pos ht, hx]; rfl, ?_, ?_⟩ <;>
        · unfold cutOff
          rw [if_neg hto]
          split_ifs <;> rfl
    · exact ⟨x, by rw [if_neg ht, hx], rfl, rfl⟩
  · exact (h.sound.die hstack).congr hu.link hu.top hu.pending
  · refine h.logged.congr hu.log hu.quiet.next fun {t x'} hx' ↦ ?_
    rw [hu.transactions] at hx'
    split_ifs at hx'
    · grind [map_eq_some_iff, cutOff_fields]
    · exact ⟨x', hx', rfl, fun _ h ↦ h⟩

/-! ### Work that nobody is left to do -/

theorem setTodo_setTodo (s : Flow) (q : WorkList) (l l' : List Work) :
    (s.setTodo q l).setTodo q l' = s.setTodo q l' := by
  cases q with
  | thread th => cases h : s.threads th <;> simp [setTodo, h]
  | proc p => cases h : s.procs p <;> simp [setTodo, h]
  | node n => cases h : s.nodes n <;> simp [setTodo, h]

theorem setTodo_todo (s : Flow) (q : WorkList) : s.setTodo q (s.todo q) = s := by
  cases q with
  | thread th =>
    have hid : ((s.threads th).map fun r ↦ { r with todo := s.todo (.thread th) }) =
        s.threads th := by
      cases h : s.threads th <;> simp [todo, h]
    simp only [setTodo, hid, update_eq_self]
  | proc p =>
    have hid : ((s.procs p).map fun _ ↦ s.todo (.proc p)) = s.procs p := by
      cases h : s.procs p <;> simp [todo, h]
    simp only [setTodo, hid, update_eq_self]
  | node n =>
    have hid : ((s.nodes n).map fun nd ↦ { nd with asyncTodo := s.todo (.node n) }) =
        s.nodes n := by
      cases h : s.nodes n <;> simp [todo, h]
    simp only [setTodo, hid, update_eq_self]

theorem Quiet.setTodo (h : s.Quiet s') (q : WorkList) (l : List Work) :
    (s.setTodo q l).Quiet (s'.setTodo q l) := by
  cases q with
  | thread th =>
    refine { h with threads := fun i ↦ ?_, transactions := h.transactions }
    by_cases hi : i = th
    · have hth := h.threads i
      cases hr : s.threads i <;> cases hr' : s'.threads i <;> simp_all [Flow.setTodo]
    · simpa [Flow.setTodo, hi] using h.threads i
  | proc p =>
    refine { h with procs := ?_, transactions := h.transactions }
    simp [Flow.setTodo, h.procs]
  | node n =>
    refine { h with nodes := ?_, transactions := h.transactions }
    simp [Flow.setTodo, h.nodes]

theorem calls_setTodo (s : Flow) (gone : Option ℕ) (q : WorkList) (l : List Work) :
    ((s.setTodo q l).calls gone).link = (s.calls gone).link ∧
      ((s.setTodo q l).calls gone).top = (s.calls gone).top := by
  refine ⟨funext fun t ↦ link_congr (by rw [(relist_setTodo s q l).transactions]), ?_⟩
  funext i
  cases q with
  | thread th => exact proj_update (ite _ none <| Option.map _ ·) (by simp [comp_def]) i
  | proc p => rfl
  | node n => rfl

theorem log_setTodo (s : Flow) (q : WorkList) (l : List Work) : (s.setTodo q l).log = s.log := by
  cases q <;> rfl

theorem mem_waiting_setTodo {w : Work} (hown : s.owner q = some p)
    (htodo : s.todo q = w :: rest) {q' : WorkList} (hu : u ∈ (s.setTodo q rest).waiting q') :
    u ∈ s.waiting q' := by
  by_cases hqq : q' = q
  · subst hqq
    rw [waiting_setTodo_self hown] at hu
    obtain ⟨w', hw', heq⟩ := mem_filterMap.1 hu
    exact mem_filterMap.2 ⟨w', htodo ▸ mem_cons_of_mem _ hw', heq⟩
  · rwa [waiting_setTodo_of_ne hqq] at hu

/-- **The first entry of a list of work** is taken off. -/
theorem Good.dequeue {w : Work} (h : s.Good loc gone)
    (hown : s.owner q = some p) (htodo : s.todo q = w :: rest) :
    (s.setTodo q rest).Good (w.transaction?.elim loc fun t ↦ update loc t none) gone ∧
      ∀ t, w = .transaction t → loc t = some q := by
  have hpending : ∀ t, ((s.setTodo q rest).calls gone).pending t → (s.calls gone).pending t := by
    rintro t ⟨⟨q', hq'⟩, x, hx, hn⟩
    rw [(relist_setTodo s q rest).transactions] at hx
    exact ⟨⟨q', mem_waiting_setTodo hown htodo hq'⟩, x, hx, hn⟩
  have hview := calls_setTodo s gone q rest
  have hsound := h.sound.congr hview.1 hview.2 hpending
  have hlogged : (s.setTodo q rest).Logged :=
    h.logged.congr (log_setTodo s q rest) (relist_setTodo s q rest).next fun hx ↦
      ⟨_, (relist_setTodo s q rest).transactions ▸ hx, rfl, fun _ h ↦ h⟩
  cases w with
  | transaction t =>
    obtain ⟨hloc, hstocked⟩ := h.stocked.dequeue hown htodo
    refine ⟨⟨hstocked, hsound, hlogged⟩, ?_⟩
    rintro u ⟨⟩
    exact hloc
  | complete =>
    refine ⟨⟨h.stocked.dequeue_complete hown htodo, hsound, hlogged⟩, ?_⟩
    rintro u ⟨⟩

/-- A call that has been taken off the list of a thread on its way out, or of a process, waits for
its end. -/
theorem Good.loose_of_dequeue (h : s.Good loc gone) (hown : s.owner q = some p)
    (htodo : s.todo q = .transaction t :: rest) (hthread : ∀ th, q = .thread th → gone = some th)
    (hnode : ∀ n, q ≠ .node n) (hx : s.transactions t = some x) (hn : x.needReply = true) :
    ((s.setTodo q rest).calls gone).Loose t x.link := by
  obtain ⟨hgood, hloc⟩ := h.dequeue hown htodo
  have hloc := hloc t rfl
  obtain ⟨y, buf, hc⟩ := h.stocked.carried hloc hown
  obtain rfl : y = x := Option.mem_unique hc.transaction hx
  have hpend : (s.calls gone).pending t := ⟨⟨q, ((h.stocked.lists q).mem_iff t).2 hloc⟩, y, hx, hn⟩
  have hview := calls_setTodo s gone q rest
  refine h.sound.loose_of_pending hpend (link_of_needReply hx hn) (fun a ha ↦ ?_) hview.1 hview.2 ?_
  · cases q with
    | thread th =>
      obtain rfl : th = a := Option.some.inj ((hc.thread th rfl hn).symm.trans ha)
      simp [calls, hthread th rfl]
    | proc p' => exact absurd ((hc.process p' rfl).symm.trans ha) (by simp)
    | node n => exact absurd rfl (hnode n)
  · rintro ⟨⟨q', hq'⟩, -⟩
    have hnone := ((hgood.stocked.lists q').mem_iff t).1 hq'
    simp [Work.transaction?] at hnone

/-- **`binder_release_work`** takes everything off a list; calls get a failed reply. -/
theorem Good.releaseWork (works : List Work) (hthread : ∀ th, q = .thread th → gone = some th)
    (hnode : ∀ n, q ≠ .node n) (h : s.Good loc gone) (hown : s.owner q = some p)
    (htodo : s.todo q = works) :
    ∃ s' loc', releaseWork q works s = some s' ∧ s'.Good loc' gone ∧
      (s.setTodo q []).Quiet s' ∧ ∀ u, loc' u = loc u ∨ (loc u = some q ∧ loc' u = none) := by
  induction works generalizing s loc with
  | nil =>
    have hid : s.setTodo q [] = s := htodo ▸ setTodo_todo s q
    exact ⟨s, loc, rfl, h, hid.symm ▸ .refl s, fun u ↦ .inl rfl⟩
  | cons w rest ih =>
    obtain ⟨h₁, hloc⟩ := h.dequeue hown htodo
    have hown₁ : (s.setTodo q rest).owner q = some p := (owner_setTodo ..).trans hown
    have htodo₁ : (s.setTodo q rest).todo q = rest := todo_setTodo_owner hown rest
    cases w with
    | complete =>
      obtain ⟨s', loc', hs', hg, hquiet, hloc'⟩ := ih h₁ hown₁ htodo₁
      rw [setTodo_setTodo] at hquiet
      exact ⟨s', loc', hs', hg, hquiet, hloc'⟩
    | transaction t =>
      have hq := hloc t rfl
      obtain ⟨x, buf, hc⟩ := h.stocked.carried hq hown
      have hx : (s.setTodo q rest).transactions t = some x :=
        (relist_setTodo s q rest).transactions ▸ hc.transaction
      have hbuf : (s.setTodo q rest).buffers t = some buf :=
        (relist_setTodo s q rest).buffers ▸ hc.found
      simp only [releaseWork, hx, hc.buffer, hbuf]
      -- the placement after this entry, then after the rest
      have hstep : ∀ {s₂ : Flow}, s₂.Good (update loc t none) gone → (s.setTodo q rest).Quiet s₂ →
          ∃ s' loc', releaseWork q rest s₂ = some s' ∧ s'.Good loc' gone ∧
            (s.setTodo q []).Quiet s' ∧ ∀ u, loc' u = loc u ∨ (loc u = some q ∧ loc' u = none) := by
        intro s₂ h₂ hquiet₂
        obtain ⟨s', loc', hs', hg, hquiet, hloc'⟩ :=
          ih h₂ ((hquiet₂.owner q).trans hown₁) ((hquiet₂.todo q).trans htodo₁)
        have hquiet₁ := hquiet₂.setTodo q []
        rw [setTodo_setTodo] at hquiet₁
        refine ⟨s', loc', hs', hg, hquiet₁.trans hquiet, fun u ↦ ?_⟩
        by_cases hu : u = t
        · grind
        · grind
      obtain ⟨-, buf', hbuf', -, hneed, -⟩ := h.stocked.tied.held hc.transaction hc.buffer
      cases hc.found.symm.trans hbuf'
      by_cases hcall : buf.targetNode.isSome = true ∧ x.oneWay = false
      · rw [if_pos hcall]
        have hn : x.needReply = true := by simp [hneed, hcall.1, hcall.2]
        have hloose := h.loose_of_dequeue hown htodo hthread hnode hc.transaction hn
        obtain ⟨s₂, hs₂, h₂, hquiet₂⟩ := h₁.sendFailedReply .deadReply hx hn hloose
        rw [hs₂]
        exact hstep h₂ hquiet₂
      · rw [if_neg hcall]
        exact hstep h₁ (.refl _)

/-! ### Threads that go -/

/-- What the end of some threads leaves alone. -/
structure Freed (s s' : Flow) (ths : List ℕ) (loc loc' : ℕ → Option WorkList) : Prop where
  procs : s'.procs = s.procs
  nodes : s'.nodes = s.nodes
  threads : ∀ i, (s'.threads i).map (fun r ↦ (r.proc, r.todo)) =
    if i ∈ ths then none else (s.threads i).map fun r ↦ (r.proc, r.todo)
  buffers : ∀ b, (s'.buffers b).map untied = (s.buffers b).map untied
  log : s'.log.filter FlowEvent.isAsync = s.log.filter FlowEvent.isAsync
  loc : ∀ u, loc' u = loc u ∨ ((∃ th ∈ ths, loc u = some (.thread th)) ∧ loc' u = none)

/-- A thread without work that is out of the view may be removed. -/
theorem Good.removeThread (h : s.Good loc (some th)) (hr : s.threads th = some r)
    (htodo : r.todo = []) :
    ({ s with threads := update s.threads th none } : Flow).Good loc none := by
  have hlist : ∀ q, ({ s with threads := update s.threads th none } : Flow).todo q = s.todo q := by
    intro q
    cases q with
    | thread i => exact proj_update (Option.elim · [] Thread.todo) (by simp [hr, htodo]) i
    | proc p => rfl
    | node n => rfl
  have hnone : ∀ t, loc t ≠ some (.thread th) := by
    intro t ht
    have hmem := ((h.stocked.lists (.thread th)).mem_iff t).2 ht
    simp [waiting, todo, hr, htodo] at hmem
  have hthreads : ∀ {i r'}, update s.threads th none i = some r' →
      i ≠ th ∧ s.threads i = some r' := by grind
  refine ⟨⟨fun q ↦ ?_, fun {t q p} hq hown ↦ ?_, h.stocked.tied.congr rfl rfl, fun {i} hi ↦ ?_,
    h.stocked.toThread, h.stocked.sync, fun hr' ↦ h.stocked.threadProc (hthreads hr').2,
    h.stocked.nodeProc, h.stocked.target, h.stocked.mgr, h.stocked.handle⟩, ?_, ?_⟩
  · rw [waiting, hlist]
    exact h.stocked.lists q
  · have hown' : s.owner q = some p := by
      cases q with
      | thread i =>
        have hi : i ≠ th := fun hi ↦ hnone t (hi ▸ hq)
        simpa [owner, hi] using hown
      | proc p' => exact hown
      | node n => exact hown
    obtain ⟨x, buf, hc⟩ := h.stocked.carried hq hown'
    exact ⟨x, buf, { hc with }⟩
  · obtain ⟨h1, h2, h3, h4, h5, h6⟩ := h.stocked.fresh hi
    refine ⟨h1, h2, ?_, h4, h5, h6⟩
    by_cases hith : i = th
    · subst hith
      exact update_self ..
    · exact (update_of_ne hith ..).trans h3
  · refine h.sound.congr rfl (funext fun i ↦ ?_) (pending_of_waiting (fun q ↦ ?_)
      fun hx ↦ ⟨_, hx, rfl⟩)
    · by_cases hi : i = th
      · subst hi
        simp [calls]
      · have hne : ¬ th = i := fun h ↦ hi h.symm
        simp [calls, hi, hne]
    · rw [waiting, hlist, waiting]
  · exact h.logged.congr rfl rfl fun hx ↦ ⟨_, hx, rfl, fun _ h ↦ h⟩

/-- **`binder_free_thread`** runs into no `BUG`. -/
theorem Good.freeThread (h : s.Good loc none) (hr : s.threads th = some r) :
    ∃ s' loc', s.freeThread th = some s' ∧ s'.Good loc' none ∧ s.Freed s' [th] loc loc' := by
  obtain ⟨s₁, l, hs₁, hstack, hu, h₁⟩ := h.unlinkStack hr
  -- what the thread worked on gets a failed reply
  have hreply : ∃ s₂, s₁.sendDeadReply (s.topIncoming th r) = some s₂ ∧
      s₂.Good loc (some th) ∧ s₁.Quiet s₂ := by
    cases htop : s.topIncoming th r with
    | none => exact ⟨s₁, rfl, h₁, .refl s₁⟩
    | some t =>
      obtain ⟨u, hstk, hu'⟩ := bind_eq_some_iff.1 htop
      obtain ⟨x, hx, hto⟩ := bind_eq_some_iff.1 hu'
      split_ifs at hto with hto'
      obtain rfl : u = t := Option.some.inj hto
      have ho : (s.calls none).top th = some (some u) := top_eq_some.2 ⟨by simp, r, hr, hstk⟩
      have hmem : u ∈ l := by
        obtain ⟨o, ho', hl⟩ := hstack
        cases ho'.symm.trans ho
        cases hl
        simp
      obtain ⟨L, hL, -⟩ := hstack.link_of_mem hmem
      obtain ⟨y, hy, hn, rfl⟩ := link_eq_some.1 hL
      obtain rfl : y = x := Option.mem_unique hy hx
      have hx₁ : s₁.transactions u = some (cutOff th y) := by
        rw [hu.transactions, if_pos hmem, hx]
        rfl
      have hloose := (h.sound.loose_of_die hstack ho hL hto').congr hu.link hu.top (hu.pending u)
      rw [← cutOff_link] at hloose
      exact h₁.sendFailedReply .deadReply hx₁ ((cutOff_fields th y).1.trans hn) hloose
  obtain ⟨s₂, hs₂, h₂, hquiet₂⟩ := hreply
  have hquiet := hu.quiet.trans hquiet₂
  have hown : s₂.owner (.thread th) = some r.proc := by
    rw [hquiet.owner]
    simp [owner, hr]
  have htodo : s₂.todo (.thread th) = r.todo := by
    rw [hquiet.todo]
    simp [todo, hr]
  obtain ⟨s₃, loc', hs₃, h₃, hquiet₃, hloc⟩ :=
    h₂.releaseWork r.todo (fun i hi ↦ by cases hi; rfl) (fun n hn ↦ by cases hn) hown htodo
  have hquiet' := (hquiet.setTodo (.thread th) []).trans hquiet₃
  obtain ⟨r₃, hr₃, htodo₃⟩ : ∃ r₃, s₃.threads th = some r₃ ∧ r₃.todo = [] := by
    have hth := hquiet'.threads th
    simp only [setTodo, update_self, hr] at hth
    obtain ⟨r₃, hr₃, heq⟩ := map_eq_some_iff.1 hth
    exact ⟨r₃, hr₃, (Prod.mk.inj heq).2⟩
  refine ⟨_, loc', ?_, h₃.removeThread hr₃ htodo₃, ⟨?_, ?_, fun i ↦ ?_, ?_, ?_, fun u ↦ ?_⟩⟩
  · simp only [Flow.freeThread, hr, hs₁, bind_eq_bind, bind_some, hs₂, hs₃]
    rfl
  · exact hquiet'.procs
  · exact hquiet'.nodes
  · by_cases hi : i = th
    · subst hi
      simp
    · have hth := hquiet'.threads i
      simpa [setTodo, hi] using hth
  · exact hquiet'.buffers
  · exact hquiet'.log
  · exact (hloc u).imp_right fun hu ↦ ⟨⟨th, by simp, hu.1⟩, hu.2⟩

end Flow

end Binder
