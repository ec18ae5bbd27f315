import MerrukKernel.Binder.CallEnds
import MerrukKernel.Binder.OneWay

/-!
# Sending, receiving and replying

The commands that bring transactions in and pass them on: `BC_TRANSACTION`, `BC_REPLY`,
`binder_thread_read` and `BC_FREE_BUFFER`. Each of them succeeds, keeps the invariant `Good`, and
has one of the effects of `AsyncView.Effect` on the one-way transactions of each node.

A synchronous call is `Calls.call`, its delivery `Calls.take`, the reply `Calls.finish` followed
by `Calls.discard`.
-/

namespace Binder

open Placement Relation AsyncView Function List Binder.Flow FlowEvent

namespace Flow

variable {s s' : Flow} {loc loc' : ℕ → Option WorkList} {t u b th p n : ℕ} {q : WorkList}
  {x : Transaction} {buf : TransactionBuffer} {r : Thread}

/-- What every step does: it keeps the invariant and has one of the known effects on each node. -/
structure Done (orderly : ℕ → Prop) (s s' : Flow) (loc loc' : ℕ → Option WorkList) : Prop where
  good : s'.Good loc' none
  effect : ∀ n, Effect (orderly n) n (s.view n) (s'.view n) loc loc'

theorem Done.of_quiet (orderly : ℕ → Prop) (hg : s'.Good loc none) (hq : s.Quiet s') :
    s.Done orderly s' loc loc :=
  ⟨hg, fun n ↦ effect_of_view (hq.view n)⟩

theorem Done.view_trans {orderly : ℕ → Prop} {s₁ : Flow} (hview : ∀ n, s₁.view n = s.view n)
    (h : s₁.Done orderly s' loc loc') : s.Done orderly s' loc loc' :=
  ⟨h.good, fun n ↦ hview n ▸ h.effect n⟩

/-- A function that succeeds and touches no list of work. -/
theorem done_of_quiet {o : Option Flow} (h : ∃ s', o = some s' ∧ s'.Good loc none ∧ s.Quiet s') :
    ∃ s' loc', o = some s' ∧ s.Done (fun _ ↦ True) s' loc loc' :=
  let ⟨s', hs', hg, hq⟩ := h
  ⟨s', loc, hs', .of_quiet _ hg hq⟩

/-! ### Errors -/

section

variable (h : s.Good loc none) (hr : s.threads th = some r)
include h hr

theorem Good.fail_none (hok : r.returnError = .ok) (err : ReturnError) :
    ∃ s', s.fail th none err = some s' ∧ s'.Good loc none ∧ s.Quiet s' :=
  ⟨_, by simp [fail, hr, hok], h.setReturnError th err, quiet_setReturnError ..⟩

theorem Good.fail_some
    (hok : r.returnError = .ok) (hx : s.transactions t = some x) (hn : x.needReply = true)
    (hloose : (s.calls none).Loose t x.link) (err : ReturnError) :
    ∃ s', s.fail th (some t) err = some s' ∧ s'.Good loc none ∧ s.Quiet s' := by
  have hloose' : ((s.setReturnError th .transactionComplete).calls none).Loose t x.link := by
    rw [setReturnError_eq hr]
    obtain ⟨htop, hpending⟩ :=
      calls_setThread none { r with returnError := .transactionComplete } hr rfl rfl rfl
    exact hloose.congr rfl htop (hpending t)
  obtain ⟨s', hs', hg, hq⟩ :=
    (h.setReturnError th .transactionComplete).sendFailedReply err hx hn hloose'
  exact ⟨s', by simp [fail, hr, hok, hs'], hg, (quiet_setReturnError ..).trans hq⟩

/-! ### The topmost call of a thread -/

theorem Good.top_call (hstack : r.transactionStack = some t) :
    ∃ x, s.transactions t = some x ∧ x.needReply = true ∧
      (x.toThread ≠ some th → x.fromThread = some th) := by
  obtain ⟨l, hl⟩ := h.sound.stack (top_eq_some.2 ⟨by simp, r, hr, rfl⟩)
  rw [hstack] at hl
  cases hl with
  | cons ht _ =>
    obtain ⟨L, hL, hside⟩ := Calls.below_eq_some ht
    obtain ⟨x, hx, hn, rfl⟩ := link_eq_some.1 hL
    refine ⟨x, hx, hn, fun hto ↦ ?_⟩
    rcases hside with ⟨h1, -⟩ | ⟨-, h2, -⟩
    · exact absurd h1 hto
    · exact h2

/-- **A thread is done** with the call on top of its stack. -/
theorem Good.finish (hstack : r.transactionStack = some t) (hx : s.transactions t = some x)
    (hn : x.needReply = true) (hto : x.toThread = some th) :
    (s.setThread th { r with transactionStack := x.toParent }).Good loc none ∧
      ((s.setThread th { r with transactionStack := x.toParent }).calls none).Loose t x.link := by
  set s₁ := s.setThread th { r with transactionStack := x.toParent } with hs₁
  have htop : (s.calls none).top th = some (some t) := top_eq_some.2 ⟨by simp, r, hr, hstack⟩
  have hL : (s.calls none).link t = some x.link := link_of_needReply hx hn
  have hquiet : s.Quiet s₁ := quiet_setThread hr rfl rfl
  have hview : (s₁.calls none).top = ((s.calls none).finish th x.link).top := by
    funext i
    by_cases hi : i = th
    · subst hi
      simp [hs₁, calls, Flow.setThread, Calls.finish, Transaction.link]
    · simp [hs₁, calls, Flow.setThread, Calls.finish, hi]
  have hpending : ∀ u, (s₁.calls none).pending u → ((s.calls none).finish th x.link).pending u :=
    pending_of_waiting (fun q ↦ by rw [waiting, hquiet.todo, waiting]) fun hx ↦ ⟨_, hx, rfl⟩
  refine ⟨⟨?_, ?_, ?_⟩, ?_⟩
  · exact h.stocked.quiet hquiet (h.stocked.tied.congr rfl rfl) fun _ _ hy ↦ ⟨_, hy, rfl, rfl⟩
  · exact (h.sound.finish htop hL hto).congr rfl hview hpending
  · exact h.logged.congr rfl rfl fun hy ↦ ⟨_, hy, rfl, fun _ h ↦ h⟩
  · exact (h.sound.loose_of_finish htop hL hto).congr rfl hview (hpending t)

end

/-! ### New transactions -/

theorem mem_waiting_enqueue {w : Work} {q' : WorkList} (h : u ∈ (s.enqueue q w).waiting q') :
    u ∈ s.waiting q' ∨ w = .transaction u := by
  by_cases hq : q' = q
  · subst hq
    rcases todo_setTodo_self s q' (s.todo q' ++ [w]) with htodo | ⟨-, htodo⟩
    · rw [waiting, enqueue, htodo, filterMap_append] at h
      rcases mem_append.1 h with h | h
      · exact .inl h
      · cases w with
        | transaction v =>
          obtain rfl : u = v := mem_singleton.1 h
          exact .inr rfl
        | complete => simp [Work.transaction?] at h
    · rw [waiting, enqueue, htodo] at h
      cases h
  · rw [enqueue, waiting_setTodo_of_ne hq] at h
    exact .inl h

theorem relist_enqueue (s : Flow) (q : WorkList) (w : Work) : s.Relist (s.enqueue q w) :=
  relist_setTodo ..

/-- A completion for a thread changes nothing that matters. -/
theorem Good.enqueue_complete (h : s.Good loc none) (q : WorkList) :
    (s.enqueue q .complete).Good loc none where
  stocked := h.stocked.enqueue_complete q
  sound := by
    have hview := calls_setTodo s none q (s.todo q ++ [.complete])
    refine h.sound.congr hview.1 hview.2 (pending_of_waiting (waiting_enqueue_complete s q) ?_)
    intro t x hx
    exact ⟨x, (relist_setTodo s q _).transactions ▸ hx, rfl⟩
  logged := h.logged.congr (log_setTodo ..) (relist_setTodo ..).next fun hx ↦
    ⟨_, (relist_setTodo ..).transactions ▸ hx, rfl, fun _ h ↦ h⟩

theorem view_setTodo (s : Flow) (l : List Work) (hq : q ≠ .node n) :
    (s.setTodo q l).view n = s.view n := by
  refine view_congr ?_ (fun b ↦ by rw [(relist_setTodo s q l).buffers]) (by rw [log_setTodo])
  cases q with
  | thread th => rfl
  | proc p => rfl
  | node m =>
    have hm : n ≠ m := fun hnm ↦ hq (hnm ▸ rfl)
    exact update_of_ne hm ..

/-- A new buffer that is none of the one-way transactions of a node. -/
theorem view_addTransaction (h : s.Stocked loc)
    (hb : ¬ (buf.asyncTransaction = true ∧ buf.targetNode = some n)) :
    (s.addTransaction x buf).view n = s.view n := by
  have hstate : (s.addTransaction x buf).asyncState n = s.asyncState n := by
    funext b
    by_cases hbn : b = s.next
    · subst hbn
      rw [asyncState_of_no_buffer (h.fresh le_rfl).2.1]
      exact asyncState_eq_none (update_self ..) hb
    · exact asyncState_congr (congrArg _ (update_of_ne hbn ..)) n
  rw [view, hstate]
  rfl

section

variable (h : s.Good loc none)
include h

/-- **A transaction that is no call** and waits nowhere is put on a list. -/
theorem Good.enqueue (hown : s.owner q = some p) (hloc : loc t = none)
    (hc : s.Carried t q p x buf) (hn : x.needReply = false) :
    (s.enqueue q (.transaction t)).Good (update loc t (some q)) none := by
  have hrelist := relist_enqueue s q (.transaction t)
  have hview := calls_setTodo s none q (s.todo q ++ [.transaction t])
  refine ⟨h.stocked.enqueue hown hloc hc, h.sound.congr hview.1 hview.2 ?_, ?_⟩
  · rintro u ⟨⟨q', hq'⟩, y, hy, hyn⟩
    rw [hrelist.transactions] at hy
    rcases mem_waiting_enqueue hq' with hmem | heq
    · exact ⟨⟨q', hmem⟩, y, hy, hyn⟩
    · obtain rfl : t = u := Work.transaction.inj heq
      cases hc.transaction.symm.trans hy
      cases hn.symm.trans hyn
  · exact h.logged.congr (log_setTodo ..) hrelist.next fun hy ↦
      ⟨_, hrelist.transactions ▸ hy, rfl, fun _ h ↦ h⟩

/-- **A transaction that is no call** is sent: a reply, or a one-way transaction. -/
theorem Good.post (hx : x.buffer = some s.next)
    (hb : buf.transaction = some s.next) (hn : x.needReply = false)
    (hneed : (buf.targetNode.isSome && !x.oneWay) = false)
    (hasync : buf.asyncTransaction = (buf.targetNode.isSome && x.oneWay))
    (hto : ∀ th, x.toThread = some th → th < s.next)
    (htarget : ∀ n, buf.targetNode = some n →
      ∃ nd, s.nodes n = some nd ∧ ∀ p, nd.proc = some p → p = buf.proc)
    (hown : s.owner q = some buf.proc) (hfree : buf.allowUserFree = false)
    (hprocess : ∀ p, q = .proc p → x.toThread = none)
    (hnode : ∀ n, q = .node n → buf.targetNode = some n ∧ buf.asyncTransaction = true) :
    ((s.addTransaction x buf).enqueue q (.transaction s.next)).Good
      (update loc s.next (some q)) none := by
  have htr : ∀ u, u ≠ s.next → (s.addTransaction x buf).transactions u = s.transactions u :=
    fun u hu ↦ update_of_ne hu ..
  have htr0 : (s.addTransaction x buf).transactions s.next = some x := update_self ..
  -- the transaction is there, and waits nowhere yet
  have hadd : (s.addTransaction x buf).Good loc none := by
    refine ⟨h.stocked.addTransaction hx hb (hn.trans hneed.symm) hasync hto htarget, ?_, ?_⟩
    · refine h.sound.congr (funext fun u ↦ ?_) rfl ?_
      · by_cases hu : u = s.next
        · subst hu
          simp [calls, htr0, hn, (h.stocked.fresh le_rfl).1]
        · exact link_congr (htr u hu)
      · rintro u ⟨hwait, y, hy, hyn⟩
        have hu : u ≠ s.next := by grind
        exact ⟨hwait, y, htr u hu ▸ hy, hyn⟩
    · refine h.logged.grow rfl rfl (Nat.le_succ _) fun {u y} hy ↦ ?_
      by_cases hu : u = s.next
      · grind
      · exact .inr ⟨y, htr u hu ▸ hy, rfl, fun _ h ↦ h⟩
  have hc : (s.addTransaction x buf).Carried s.next q buf.proc x buf :=
    ⟨htr0, hx, update_self .., rfl, hfree,
      fun _ _ hneed' ↦ absurd (hn.symm.trans hneed') (by simp), hprocess, hnode⟩
  exact hadd.enqueue hown (h.stocked.fresh le_rfl).2.2.2.2.2 hc hn

/-! ### Replies -/

/-- **A reply** goes to the thread that waits for it. -/
theorem Good.sendReply {target : ℕ} {r' : Thread}
    (hr' : s.threads target = some r') (oneWay : Bool) (th : ℕ) :
    ∃ loc', s.Done (fun _ ↦ True)
      (((s.addTransaction { toThread := some target, buffer := some s.next, oneWay := oneWay }
          { proc := r'.proc, transaction := some s.next, targetNode := none,
            asyncTransaction := false }).enqueue (.thread target)
        (.transaction s.next)).enqueue (.thread th) .complete) loc loc' := by
  have hlt : target < s.next := by
    by_contra hge
    cases (h.stocked.fresh (Nat.not_lt.1 hge)).2.2.1.symm.trans hr'
  refine ⟨_, (h.post rfl rfl rfl rfl rfl (fun i hi ↦ ?_) (fun n hn ↦ ?_) ?_ rfl
    (fun p hp ↦ ?_) fun n hn ↦ ?_).enqueue_complete (.thread th), fun n ↦ ?_⟩
  · grind
  · cases hn
  · simp [owner, hr']
  · cases hp
  · cases hn
  · refine .passive ?_ (fun b hb ↦ ?_) fun _ b hb ↦ ?_
    · rw [Flow.enqueue, view_setTodo _ _ (by simp), Flow.enqueue, view_setTodo _ _ (by simp)]
      exact view_addTransaction h.stocked (by simp)
    all_goals
      have hbn : b ≠ s.next := by
        rintro rfl
        exact hb (asyncState_of_no_buffer (h.stocked.fresh le_rfl).2.1)
      rw [update_of_ne hbn]

/-- **`BC_REPLY`** runs into no `BUG`: whoever waits for the call on top of the stack has it on top
too. -/
theorem Good.reply (th : ℕ) (oneWay fits : Bool) :
    ∃ s' loc', s.reply th oneWay fits = some s' ∧ s.Done (fun _ ↦ True) s' loc loc' := by
  unfold Flow.reply
  cases hr : s.threads th with
  | none => exact ⟨s, loc, rfl, .of_quiet _ h (.refl s)⟩
  | some r =>
    dsimp only
    by_cases hok : r.returnError = .ok
    · rw [if_neg (not_not.2 hok)]
      cases hstack : r.transactionStack with
      | none => exact done_of_quiet (h.fail_none hr hok _)
      | some t =>
        obtain ⟨x, hx, hn, -⟩ := h.top_call hr hstack
        simp only [hx]
        by_cases hto : x.toThread = some th
        · rw [if_neg (not_not.2 hto)]
          obtain ⟨h₁, hloose⟩ := h.finish hr hstack hx hn hto
          set s₁ := s.setThread th { r with transactionStack := x.toParent }
          have hr₁ : s₁.threads th = some { r with transactionStack := x.toParent } :=
            update_self ..
          have hquiet : s.Quiet s₁ := quiet_setThread hr rfl rfl
          have hfail : ∀ err, ∃ s' loc', s₁.fail th (some t) err = some s' ∧
              s.Done (fun _ ↦ True) s' loc loc' := fun err ↦ by
            obtain ⟨s', hs', hg, hq⟩ := h₁.fail_some hr₁ hok hx hn hloose err
            exact ⟨s', loc, hs', .of_quiet _ hg (hquiet.trans hq)⟩
          cases hfrom : x.fromThread with
          | none => exact hfail .deadReply
          | some target =>
            obtain ⟨-, r', hr', hstack'⟩ :=
              top_eq_some.1 (h₁.sound.top_of_bare hloose.link hloose.bare hfrom)
            simp only [hr', hstack', ne_eq]
            cases fits with
            | false => exact hfail .failedReply
            | true =>
              obtain ⟨hpop, h₂, -⟩ := h₁.pop hx hn hloose
              rw [hfrom] at hpop
              rw [hpop]
              -- the sender is still there, if with another stack
              have hr₂ := popped_threads_self (s := s₁) (t := t) hfrom
              rw [hr'] at hr₂
              obtain ⟨loc', hdone⟩ := h₂.sendReply hr₂ oneWay th
              exact ⟨_, loc', rfl, hdone.view_trans (hquiet.trans (popped_quiet ..)).view⟩
        · rw [if_pos hto]
          exact done_of_quiet (h.fail_none hr hok _)
    · rw [if_pos hok]
      exact ⟨s, loc, rfl, .of_quiet _ h (.refl s)⟩

end

/-! ### One-way transactions -/

variable {e : FlowEvent} {nd : AsyncNode}

/-- Events of one-way transactions are no part of the calls. -/
theorem Good.record (h : s.Good loc none) (he : e.isAsync = true) : (s.record e).Good loc none where
  stocked := h.stocked.record e
  sound := h.sound.congr rfl rfl fun _ hp ↦ hp
  logged := by
    refine h.logged.grow ?_ ?_ le_rfl fun hx ↦ .inr ⟨_, hx, rfl, fun _ h ↦ h⟩
    · cases e <;> simp_all [callsMade, record, call?, isAsync]
    · cases e <;> simp_all [answers, record, answer?, isAsync]

theorem Good.setFlag (h : s.Good loc none) (hnd : s.nodes n = some nd) (c : Bool) :
    (s.setNode n { nd with hasAsyncTransaction := c }).Good loc none := by
  have hwait : ∀ q, (s.setNode n { nd with hasAsyncTransaction := c }).waiting q = s.waiting q := by
    intro q
    cases q with
    | thread th => rfl
    | proc p => rfl
    | node m => exact proj_update (filterMap _ <| Option.elim · [] _) (by simp [hnd]) m
  exact ⟨h.stocked.relist_of_waiting (relist_setNode hnd rfl) hwait,
    h.sound.congr rfl rfl (pending_of_waiting hwait fun hx ↦ ⟨_, hx, rfl⟩),
    h.logged.congr rfl rfl fun hx ↦ ⟨_, hx, rfl, fun _ h ↦ h⟩⟩

theorem view_record_self (s : Flow) (he : e.node? = some n) :
    (s.record e).view n = ⟨(s.view n).node, (s.view n).state, (s.view n).log ++ [e]⟩ := by
  have hlog : (s.record e).asyncLog n = s.asyncLog n ++ [e] := by
    simp [asyncLog, record, he]
  rw [view, hlog]
  rfl

theorem view_record_of_ne (s : Flow) (he : e.node? ≠ some n) : (s.record e).view n = s.view n := by
  have hlog : (s.record e).asyncLog n = s.asyncLog n := by
    simp [asyncLog, record, he]
  rw [view, hlog]
  rfl

theorem view_setNode_of_ne {m : ℕ} (h : n ≠ m) (s : Flow) (nd : AsyncNode) :
    (s.setNode m nd).view n = s.view n := by
  have hnode : (s.setNode m nd).nodes n = s.nodes n := update_of_ne h ..
  rw [view, hnode]
  rfl

theorem view_setNode_self (s : Flow) (n : ℕ) (nd : AsyncNode) :
    (s.setNode n nd).view n = ⟨some nd, (s.view n).state, (s.view n).log⟩ := by
  have hnode : (s.setNode n nd).nodes n = some nd := update_self ..
  rw [view, hnode]
  rfl

/-- The buffer of a new one-way transaction. -/
theorem view_addTransaction_self (hasync : buf.asyncTransaction = true)
    (hn : buf.targetNode = some n) :
    (s.addTransaction x buf).view n = ⟨(s.view n).node,
      update (s.view n).state s.next (some buf.allowUserFree), (s.view n).log⟩ := by
  have hstate : (s.addTransaction x buf).asyncState n =
      update (s.asyncState n) s.next (some buf.allowUserFree) := by
    funext b
    by_cases hbn : b = s.next
    · subst hbn
      rw [update_self]
      exact asyncState_of_buffer (update_self ..) hasync hn
    · rw [update_of_ne hbn]
      exact asyncState_congr (congrArg _ (update_of_ne hbn ..)) n
  rw [view, hstate]
  rfl

theorem enqueue_node (hnd : s.nodes n = some nd) (w : Work) :
    s.enqueue (.node n) w = s.setNode n { nd with asyncTodo := nd.asyncTodo ++ [w] } := by
  simp [enqueue, setTodo, setNode, todo, hnd]

/-- What the node of a new one-way transaction gets to see. -/
theorem view_sendOneWay (hnd : s.nodes n = some nd) (th p : ℕ) : (s.sendOneWay th n p nd).view n =
      ⟨some (if nd.hasAsyncTransaction then
          { nd with asyncTodo := nd.asyncTodo ++ [.transaction s.next] }
          else { nd with hasAsyncTransaction := true }),
        update (s.view n).state s.next (some false),
        (s.view n).log ++ [.sent n s.next]⟩ := by
  have hadd : ∀ x buf, (s.addTransaction x buf).nodes n = some nd := fun _ _ ↦ hnd
  unfold sendOneWay
  rw [view_record_self _ rfl, enqueue, view_setTodo _ _ (by simp)]
  split_ifs
  · rw [enqueue_node (hadd _ _), view_setNode_self, view_addTransaction_self rfl rfl]
  · rw [enqueue, view_setTodo _ _ (by simp), view_setNode_self, view_addTransaction_self rfl rfl]

theorem view_sendOneWay_of_ne {m : ℕ} (h : s.Stocked loc)
    (hnd : s.nodes n = some nd) (hm : m ≠ n) (th p : ℕ) :
    (s.sendOneWay th n p nd).view m = s.view m := by
  have hadd : ∀ x buf, (s.addTransaction x buf).nodes n = some nd := fun _ _ ↦ hnd
  have hnot : some n ≠ some m := fun hnm ↦ hm (Option.some.inj hnm).symm
  have hevent : (sent n s.next).node? ≠ some m := hnot
  unfold sendOneWay
  rw [view_record_of_ne _ hevent, enqueue, view_setTodo _ _ (by simp)]
  split_ifs
  · rw [enqueue_node (hadd _ _), view_setNode_of_ne hm]
    exact view_addTransaction h fun hb ↦ hnot hb.2
  · rw [enqueue, view_setTodo _ _ (by simp), view_setNode_of_ne hm]
    exact view_addTransaction h fun hb ↦ hnot hb.2

/-- **A one-way transaction** is accepted: it goes to the process if none of the node is out, and
waits on the node otherwise. -/
theorem Good.sendOneWay (h : s.Good loc none) (hnd : s.nodes n = some nd)
    (hproc : nd.proc = some p) (th : ℕ) :
    ∃ loc', s.Done (fun _ ↦ True) (s.sendOneWay th n p nd) loc loc' := by
  have hfresh := h.stocked.fresh (le_refl s.next)
  have htarget : ∀ p', nd.proc = some p' → p' = p := fun p' hp' ↦
    Option.mem_unique hp' hproc
  refine ⟨update loc s.next (some (if nd.hasAsyncTransaction then .node n else .proc p)),
    ?_, fun m ↦ ?_⟩
  · refine (Good.enqueue_complete ?_ (.thread th)).record rfl
    split_ifs with hhas
    · refine h.post rfl rfl rfl rfl rfl nofun (fun m hm ↦ ?_) ?_ rfl
        nofun fun m hm ↦ ?_
      · grind
      · simp [owner, hnd, hproc]
      · cases hm
        exact ⟨rfl, rfl⟩
    · refine (h.setFlag hnd true).post rfl rfl rfl rfl rfl nofun
        (fun m hm ↦ ?_) ?_ rfl (fun _ _ ↦ rfl) fun m hm ↦ by cases hm
      · cases hm
        exact ⟨_, update_self .., htarget⟩
      · obtain ⟨l, hl⟩ := Option.isSome_iff_exists.1 (h.stocked.nodeProc hnd hproc)
        simp [owner, setNode, hl]
  · have hnew : ∀ m, s.asyncState m s.next = none := fun m ↦ asyncState_of_no_buffer hfresh.2.1
    by_cases hm : m = n
    · subst hm
      rw [view_sendOneWay hnd]
      exact .sent s.next p nd hnd hproc (hnew m) rfl rfl rfl rfl
    · rw [view_sendOneWay_of_ne h.stocked hnd hm]
      have hne : ∀ b, s.asyncState m b ≠ none → b ≠ s.next := by
        rintro b hb rfl
        exact hb (hnew m)
      exact .passive rfl (fun b hb ↦ by rw [update_of_ne (hne b hb)])
        fun _ b hb ↦ update_of_ne (hne b hb) ..

/-! ### Calls -/

/-- What there is once a call has been made and put on the list `q`. -/
def called (s : Flow) (th : ℕ) (r : Thread) (x : Transaction) (buf : TransactionBuffer)
    (q : WorkList) : Flow :=
  ((((s.addTransaction x buf).setThread th { r with transactionStack := some s.next }).enqueue q
    (.transaction s.next)).enqueue (.thread th) .complete).record (.called s.next th)

@[simp] theorem record_transactions (s : Flow) (e : FlowEvent) :
    (s.record e).transactions = s.transactions := rfl

@[simp] theorem record_next (s : Flow) (e : FlowEvent) : (s.record e).next = s.next := rfl

section

variable (s : Flow) (th : ℕ) (r : Thread) (x : Transaction) (buf : TransactionBuffer) (q : WorkList)

theorem called_transactions :
    (s.called th r x buf q).transactions = update s.transactions s.next (some x) := by
  rw [called, record_transactions, (relist_enqueue ..).transactions,
    (relist_enqueue ..).transactions]
  rfl

theorem called_next : (s.called th r x buf q).next = s.next + 1 := by
  rw [called, record_next, (relist_enqueue ..).next, (relist_enqueue ..).next]
  rfl

theorem called_log : (s.called th r x buf q).log = s.log ++ [.called s.next th] := by
  unfold called enqueue record
  rw [log_setTodo, log_setTodo]
  rfl

theorem called_top : ((s.called th r x buf q).calls none).top =
      update (s.calls none).top th (some (some s.next)) := by
  show ((enqueue _ (.thread th) .complete).calls none).top = _
  rw [enqueue, (calls_setTodo ..).2, enqueue, (calls_setTodo ..).2]
  funext i
  by_cases hi : i = th
  · subst hi
    simp [calls, setThread]
  · simp [calls, setThread, addTransaction, hi]

end

theorem called_link (hn : x.needReply = true) (s : Flow) (th : ℕ) (r : Thread)
    (buf : TransactionBuffer) (q : WorkList) : ((s.called th r x buf q).calls none).link =
      update (s.calls none).link s.next (some x.link) := by
  funext u
  by_cases hu : u = s.next
  · subst hu
    rw [update_self]
    exact link_of_needReply (by rw [called_transactions, update_self]) hn
  · rw [update_of_ne hu]
    exact link_congr (by rw [called_transactions, update_of_ne hu])

theorem called_pending (hr : s.threads th = some r) (x : Transaction) (buf : TransactionBuffer)
    (q : WorkList) (hp : ((s.called th r x buf q).calls none).pending u) :
    u = s.next ∨ (s.calls none).pending u := by
  by_cases hu : u = s.next
  · exact .inl hu
  · obtain ⟨⟨q', hq'⟩, y, hy, hyn⟩ := hp
    rw [called_transactions, update_of_ne hu] at hy
    have hq' : u ∈ (((s.addTransaction x buf).setThread th
        { r with transactionStack := some s.next }).enqueue q (.transaction s.next)).waiting
        q' := by
      rwa [← waiting_enqueue_complete _ (.thread th)]
    rcases mem_waiting_enqueue hq' with hmem | heq
    · have hquiet : (s.addTransaction x buf).Quiet ((s.addTransaction x buf).setThread th
        { r with transactionStack := some s.next }) := quiet_setThread hr rfl rfl
      rw [waiting, hquiet.todo] at hmem
      exact .inr ⟨⟨q', hmem⟩, y, hy, hyn⟩
    · exact absurd (Work.transaction.inj heq).symm hu

/-- A new call is logged once, and not answered. -/
theorem called_logged (h : s.Good loc none) (hfrom : x.fromThread = some th) (r : Thread)
    (buf : TransactionBuffer) (q : WorkList) : (s.called th r x buf q).Logged := by
  have hmade : (s.called th r x buf q).callsMade = s.callsMade ++ [(s.next, th)] := by
    simp [callsMade, called_log, call?]
  have hanswers : (s.called th r x buf q).answers = s.answers := by
    simp [answers, called_log, answer?]
  refine ⟨?_, ?_, fun {u y i} hy hyn hi ↦ ?_, ?_, hanswers ▸ h.logged.once⟩
  · rw [hmade, map_append]
    refine h.logged.nodup.append (nodup_singleton _) fun u hu hnext ↦ ?_
    obtain ⟨c, hc, rfl⟩ := mem_map.1 hu
    have hlt := h.logged.lt_next c hc
    rw [mem_singleton.1 hnext] at hlt
    exact absurd hlt (lt_irrefl _)
  · rw [hmade, called_next]
    intro c hc
    rcases mem_append.1 hc with hc | hc
    · exact Nat.lt_succ_of_lt (h.logged.lt_next c hc)
    · grind
  · rw [hmade]
    rw [called_transactions] at hy
    by_cases hu : u = s.next
    · grind
    · rw [update_of_ne hu] at hy
      exact mem_append_left _ (h.logged.sender hy hyn hi)
  · rw [hmade, hanswers]
    intro c hc
    obtain ⟨hc', hnone⟩ := h.logged.answered c hc
    have hne : c.1 ≠ s.next := (h.logged.lt_next c hc').ne
    rw [called_transactions, update_of_ne hne]
    exact ⟨mem_append_left _ hc', hnone⟩

/-- **A synchronous call** is `Calls.call`. -/
theorem Good.sendCall (h : s.Good loc none) (target : Option ℕ)
    (hr : s.threads th = some r) (hnd : s.nodes n = some nd) (hproc : nd.proc = some p)
    (hwork : ∀ t, r.transactionStack = some t →
      ∃ x, s.transactions t = some x ∧ x.needReply = true ∧ x.toThread = some th)
    (htarget : ∀ b, target = some b → b ≠ th ∧ s.owner (.thread b) = some p ∧
      ∃ t w W, r.transactionStack = some t ∧ ReflTransGen (s.calls none).Inner w t ∧
        (s.calls none).link w = some W ∧ W.caller = some b) :
    ∃ loc', s.Done (fun _ ↦ True) (s.sendCall th r n p target) loc loc' := by
  obtain ⟨x, hx⟩ : ∃ x : Transaction, x =
      { needReply := true, fromThread := some th, fromParent := r.transactionStack,
        toThread := target, buffer := some s.next, oneWay := false } := ⟨_, rfl⟩
  obtain ⟨buf, hbuf⟩ : ∃ buf : TransactionBuffer, buf =
      { proc := p, transaction := some s.next, targetNode := some n,
        asyncTransaction := false } := ⟨_, rfl⟩
  obtain ⟨q, hq⟩ : ∃ q : WorkList, q = target.elim (.proc p) .thread := ⟨_, rfl⟩
  have hs : s.sendCall th r n p target = s.called th r x buf q := by
    rw [hx, hbuf, hq]
    rfl
  have hfresh := h.stocked.fresh (le_refl s.next)
  have hquiet : (s.addTransaction x buf).Quiet ((s.addTransaction x buf).setThread th
      { r with transactionStack := some s.next }) := quiet_setThread hr rfl rfl
  refine ⟨update loc s.next (some q), hs ▸ ⟨?_, ?_, ?_⟩, fun m ↦ ?_⟩
  · have h₁ : (s.addTransaction x buf).Stocked loc := by
      refine h.stocked.addTransaction (by rw [hx]) (by rw [hbuf]) (by rw [hx, hbuf]; rfl)
        (by rw [hx, hbuf]; rfl) (fun b hb ↦ ?_) fun m hm ↦ ?_
      · rw [hx] at hb
        obtain ⟨-, hown, -⟩ := htarget b hb
        obtain ⟨r', hr', -⟩ := Option.map_eq_some_iff.1 hown
        by_contra hge
        cases (h.stocked.fresh (Nat.not_lt.1 hge)).2.2.1.symm.trans hr'
      · grind
    have h₂ := h₁.quiet hquiet (h₁.tied.congr rfl rfl) fun _ _ hy ↦ ⟨_, hy, rfl, rfl⟩
    have hown : ((s.addTransaction x buf).setThread th
        { r with transactionStack := some s.next }).owner q = some p := by
      rw [hquiet.owner, hq]
      cases target with
      | none =>
        obtain ⟨l, hl⟩ := Option.isSome_iff_exists.1 (h.stocked.nodeProc hnd hproc)
        simp [owner, addTransaction, hl]
      | some b => exact (htarget b rfl).2.1
    have hc : ((s.addTransaction x buf).setThread th
        { r with transactionStack := some s.next }).Carried s.next q p x buf := by
      refine ⟨update_self .., by rw [hx], update_self .., by rw [hbuf], by rw [hbuf],
        fun i hi _ ↦ ?_, fun i hi ↦ ?_, fun i hi ↦ ?_⟩
      all_goals
        rw [hq] at hi
        cases target with
        | none => cases hi <;> rw [hx]
        | some b => cases hi <;> rw [hx]
    exact ((h₂.enqueue hown hfresh.2.2.2.2.2 hc).enqueue_complete (.thread th)).record _
  · refine Calls.Sound.congr (c := (s.calls none).call th r.transactionStack s.next target)
      (h.sound.call (top_eq_some.2 ⟨by simp, r, hr, rfl⟩) (fun t ht ↦ ?_) (fun u L hL ↦ ?_)
        fun b hb ↦ ?_) ?_ (called_top ..) fun u hu ↦ called_pending hr x buf q hu
    · obtain ⟨y, hy, hyn, hto⟩ := hwork t ht
      exact ⟨y.link, link_of_needReply hy hyn, hto⟩
    · obtain ⟨y, hy, -⟩ := link_eq_some.1 hL
      exact h.stocked.lt_next hy
    · grind
    · rw [called_link (by rw [hx]), hx]
      rfl
  · exact called_logged h (by rw [hx]) r buf q
  · have hne : ∀ b, s.asyncState m b ≠ none → b ≠ s.next := by
      rintro b hb rfl
      exact hb (asyncState_of_no_buffer hfresh.2.1)
    have hview : (s.sendCall th r n p target).view m = s.view m := by
      have hq' : q ≠ .node m := by
        rw [hq]
        cases target <;> simp
      rw [hs, called, view_record_of_ne _ (by simp [FlowEvent.node?]), Flow.enqueue,
        view_setTodo _ _ (by simp), Flow.enqueue, view_setTodo _ _ hq', hquiet.view]
      exact view_addTransaction h.stocked (by simp [hbuf])
    rw [hview]
    exact .passive rfl (fun b hb ↦ by rw [update_of_ne (hne b hb)])
      fun _ b hb ↦ update_of_ne (hne b hb) ..

/-! ### Where a nested call goes -/

/-- **The loop over the outer calls** ends, and finds a thread of the process that made one of
them. -/
theorem Good.route (h : s.Good loc none) (p fuel : ℕ) (o acc : Option ℕ)
    (ho : ∀ t, o = some t → t < fuel ∧ ∃ x, s.transactions t = some x ∧ x.needReply = true) :
    ∃ found, s.route p fuel o acc = some found ∧ ∀ b, found = some b → acc = some b ∨
      (s.owner (.thread b) = some p ∧ ∃ t w W, o = some t ∧
        ReflTransGen (s.calls none).Inner w t ∧ (s.calls none).link w = some W ∧
        W.caller = some b) := by
  induction fuel generalizing o acc with
  | zero =>
    cases o with
    | none => exact ⟨acc, rfl, fun b hb ↦ .inl hb⟩
    | some t => exact absurd (ho t rfl).1 (Nat.not_lt_zero t)
  | succ fuel ih =>
    cases o with
    | none => exact ⟨acc, rfl, fun b hb ↦ .inl hb⟩
    | some t =>
      obtain ⟨hlt, x, hx, hn⟩ := ho t rfl
      have hL : (s.calls none).link t = some x.link := link_of_needReply hx hn
      have ho' : ∀ u, x.fromParent = some u →
          u < fuel ∧ ∃ y, s.transactions u = some y ∧ y.needReply = true := by
        intro u hu
        obtain ⟨hut, -, U, hU, -⟩ := h.sound.outer hL hu
        obtain ⟨y, hy, hyn, -⟩ := link_eq_some.1 hU
        exact ⟨by omega, y, hy, hyn⟩
      -- what is found further out is outside of `t`, too
      have hfar : ∀ {b}, (s.owner (.thread b) = some p ∧ ∃ u w W, x.fromParent = some u ∧
          ReflTransGen (s.calls none).Inner w u ∧ (s.calls none).link w = some W ∧
          W.caller = some b) → (s.owner (.thread b) = some p ∧ ∃ u w W, some t = some u ∧
          ReflTransGen (s.calls none).Inner w u ∧ (s.calls none).link w = some W ∧
          W.caller = some b) := by
        rintro b ⟨hown, u, w, W, hu, hwu, hW, hb⟩
        exact ⟨hown, t, w, W, rfl, hwu.tail ⟨x.link, hL, hu⟩, hW, hb⟩
      cases hfrom : x.fromThread with
      | none =>
        obtain ⟨found, hfound, hspec⟩ := ih x.fromParent acc ho'
        refine ⟨found, by simp only [Flow.route, hx, hfrom, hfound], fun b hb ↦ ?_⟩
        exact (hspec b hb).imp_right hfar
      | some i =>
        obtain ⟨-, l, ⟨o', hi, -⟩, -⟩ := h.sound.caller hL hfrom
        obtain ⟨-, r', hr', -⟩ := top_eq_some.1 hi
        obtain ⟨found, hfound, hspec⟩ :=
          ih x.fromParent (if r'.proc = p then some i else acc) ho'
        refine ⟨found, by simp only [Flow.route, hx, hfrom, hr', hfound], fun b hb ↦ ?_⟩
        rcases hspec b hb with hacc | hout
        · split_ifs at hacc with hp
          · cases hacc
            exact .inr ⟨by simp [owner, hr', hp], t, t, x.link, rfl, .refl, hL, hfrom⟩
          · exact .inl hacc
        · exact .inr (hfar hout)

/-- The call `u` is `t` itself, or `t` is nested in it. -/
def Encloses (s : Flow) : ℕ → ℕ → Prop :=
  ReflTransGen fun u t ↦ ∃ x, s.transactions t = some x ∧ x.fromParent = some u

/-- **No thread calls itself.** A thread that works on a call makes no synchronous call to a node of
its own process while one of its own calls encloses the call it works on. -/
def Calm (s : Flow) : FlowOp → Prop
  | .transaction th handle false _ => ∀ r n nd t, s.threads th = some r →
      s.target r.proc handle = some n → s.nodes n = some nd → nd.proc = some r.proc →
      s.topIncoming th r = some t → ∀ u x, s.Encloses u t → s.transactions u = some x →
        x.fromThread ≠ some th
  | _ => True

theorem Stocked.target_node {handle : ℕ} (h : s.Stocked loc) (hn : s.target p handle = some n) :
    ∃ nd, s.nodes n = some nd := by
  unfold Flow.target at hn
  split_ifs at hn
  · exact Option.isSome_iff_exists.1 (h.mgr hn)
  · exact Option.isSome_iff_exists.1 (h.handle hn)

/-- **`BC_TRANSACTION`** keeps the invariant. -/
theorem Good.transaction {handle : ℕ} {oneWay fits : Bool} (h : s.Good loc none)
    (hcalm : s.Calm (.transaction th handle oneWay fits)) :
    ∃ s' loc', s.transaction th handle oneWay fits = some s' ∧
      s.Done (fun _ ↦ True) s' loc loc' := by
  unfold Flow.transaction
  cases hr : s.threads th with
  | none => exact ⟨s, loc, rfl, .of_quiet _ h (.refl s)⟩
  | some r =>
    dsimp only
    by_cases hok : r.returnError = .ok
    · rw [if_neg (not_not.2 hok)]
      have hfail : ∀ err, ∃ s' loc', s.fail th none err = some s' ∧
          s.Done (fun _ ↦ True) s' loc loc' := fun err ↦ done_of_quiet (h.fail_none hr hok err)
      cases hn : s.target r.proc handle with
      | none => exact hfail _
      | some n =>
        obtain ⟨nd, hnd⟩ := h.stocked.target_node hn
        simp only [hnd]
        cases hproc : nd.proc with
        | none => exact hfail _
        | some p =>
          cases oneWay with
          | true =>
            cases fits with
            | true =>
              obtain ⟨loc', hdone⟩ := h.sendOneWay hnd hproc th
              exact ⟨_, loc', rfl, hdone⟩
            | false => exact hfail _
          | false =>
            cases hstack : r.transactionStack with
            | none =>
              cases fits with
              | true =>
                obtain ⟨loc', hdone⟩ := h.sendCall none hr hnd hproc
                  (fun t ht ↦ absurd (hstack.symm.trans ht) (by simp)) (fun b hb ↦ by cases hb)
                exact ⟨_, loc', rfl, hdone⟩
              | false => exact hfail _
            | some t =>
              obtain ⟨x, hx, hxn, -⟩ := h.top_call hr hstack
              simp only [hx]
              by_cases hto : x.toThread = some th
              · rw [if_neg (not_not.2 hto)]
                obtain ⟨found, hfound, hspec⟩ := h.route p s.next (some t) none fun u hu ↦ by
                  cases hu
                  exact ⟨h.stocked.lt_next hx, x, hx, hxn⟩
                rw [hfound]
                cases fits with
                | false => exact hfail _
                | true =>
                  obtain ⟨loc', hdone⟩ := h.sendCall found hr hnd hproc
                    (fun u hu ↦ by
                      cases hstack.symm.trans hu
                      exact ⟨x, hx, hxn, hto⟩)
                    fun b hb ↦ by
                      rcases hspec b hb with hacc | ⟨hown, u, w, W, hu, hwu, hW, hcaller⟩
                      · cases hacc
                      · cases hu
                        refine ⟨?_, hown, t, w, W, hstack, hwu, hW, hcaller⟩
                        rintro rfl
                        -- the call would go to its own sender
                        obtain ⟨y, hy, -, rfl⟩ := link_eq_some.1 hW
                        have hpr : r.proc = p := by simpa [owner, hr] using hown
                        refine hcalm r n nd t hr hn hnd (hpr ▸ hproc) ?_ w y ?_ hy hcaller
                        · simp [topIncoming, hstack, hx, hto]
                        · refine ReflTransGen.mono (fun i j hij ↦ ?_) _ _ hwu
                          obtain ⟨L, hL, hout⟩ := hij
                          obtain ⟨z, hz, -, rfl⟩ := link_eq_some.1 hL
                          exact ⟨z, hz, hout⟩
                  exact ⟨_, loc', rfl, hdone⟩
              · rw [if_pos hto]
                exact hfail _
    · rw [if_pos hok]
      exact ⟨s, loc, rfl, .of_quiet _ h (.refl s)⟩

end Flow

end Binder
