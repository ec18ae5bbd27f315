import MerrukKernel.Binder.CallSteps

/-!
# Reading and freeing

`binder_thread_read` takes the entries off the list of the thread, or of its process if the thread
has nothing else to do, until it has delivered a transaction; `BC_FREE_BUFFER` gives a delivered
buffer back, and lets the next one-way transaction of the node out.
-/

namespace Binder

open Placement Relation AsyncView Function Option

namespace Flow

variable {s s' : Flow} {loc loc' : ℕ → Option WorkList} {t u b th p n : ℕ} {q : WorkList}
  {x : Transaction} {buf : TransactionBuffer} {r : Thread}

/-! ### A transaction and its buffer are written -/

theorem view_rewrite (s : Flow) (t : ℕ) (x : Option Transaction) (buf : Option TransactionBuffer)
    (n : ℕ) : (s.rewrite t x buf).view n = ⟨(s.view n).node,
      update (s.view n).state t (buf.bind (TransactionBuffer.asyncState n)),
      (s.view n).log⟩ := by
  have hstate : (s.rewrite t x buf).asyncState n = update (s.asyncState n) t
      (buf.bind (TransactionBuffer.asyncState n)) := by
    funext b
    by_cases hb : b = t
    · subst hb
      rw [update_self, asyncState, rewrite_buffers_self]
    · rw [update_of_ne hb]
      exact congrArg (Option.bind · _) (update_of_ne hb ..)
  rw [view, hstate]
  rfl

@[simp] theorem view_setThread (s : Flow) (th : ℕ) (r : Thread) (n : ℕ) :
    (s.setThread th r).view n = s.view n := rfl

theorem view_rewrite_of_none {x : Option Transaction} {buf : Option TransactionBuffer}
    (hold : s.asyncState n t = none) (hnew : buf.bind (TransactionBuffer.asyncState n) = none) :
    (s.rewrite t x buf).view n = s.view n := by
  have hid : update (s.asyncState n) t none = s.asyncState n :=
    update_eq_self_iff.2 hold.symm
  rw [view_rewrite, hnew]
  exact congrArg (AsyncView.mk _ · _) hid

/-- Pointers stay, whatever else is written. -/
theorem Tied.keep (h : s.Tied) (x' : Transaction) (buf' : TransactionBuffer)
    (hx : s.transactions t = some x) (hb : s.buffers t = some buf) (hbuffer : x'.buffer = x.buffer)
    (hneed : x'.needReply = x.needReply) (hone : x'.oneWay = x.oneWay)
    (htr : buf'.transaction = buf.transaction) (htarget : buf'.targetNode = buf.targetNode)
    (hasync : buf'.asyncTransaction = buf.asyncTransaction) :
    (s.rewrite t (some x') (some buf')).Tied := by
  have htr' : ∀ u, u ≠ t → (s.rewrite t (some x') (some buf')).transactions u = s.transactions u :=
    fun u hu ↦ update_of_ne hu ..
  have hbuf' : ∀ u, u ≠ t → (s.rewrite t (some x') (some buf')).buffers u = s.buffers u :=
    fun u hu ↦ update_of_ne hu ..
  refine ⟨fun {u y b} hy hyb ↦ ?_, fun {b y u} hy hyu ↦ ?_⟩
  · by_cases hu : u = t
    · subst hu
      cases (rewrite_transactions_self ..).symm.trans hy
      obtain ⟨rfl, buf₀, hbuf₀, h1, h2, h3⟩ := h.held hx (hbuffer.symm.trans hyb)
      cases hb.symm.trans hbuf₀
      exact ⟨rfl, buf', rewrite_buffers_self .., htr.trans h1, by rw [hneed, htarget, hone, h2],
        by rw [hasync, htarget, hone, h3]⟩
    · grind [h.held]
  · by_cases hbt : b = t
    · subst hbt
      cases (rewrite_buffers_self ..).symm.trans hy
      obtain ⟨rfl, y, hy, hyb⟩ := h.back hb (htr.symm.trans hyu)
      cases hx.symm.trans hy
      exact ⟨rfl, x', rewrite_transactions_self .., hbuffer.trans hyb⟩
    · grind [h.back]

/-! ### A transaction is delivered -/

theorem thread_setTodo (hr : s.threads th = some r) (q : WorkList) (l : List Work) :
    ∃ r', (s.setTodo q l).threads th = some r' ∧ r'.proc = r.proc ∧
      r'.transactionStack = r.transactionStack := by
  cases q with
  | thread i =>
    by_cases hi : th = i
    · subst hi
      exact ⟨{ r with todo := l }, by simp [setTodo, hr], rfl, rfl⟩
    · exact ⟨r, by simp [setTodo, hi, hr], rfl, rfl⟩
  | proc p => exact ⟨r, hr, rfl, rfl⟩
  | node n => exact ⟨r, hr, rfl, rfl⟩

/-- What is left of a transaction that is no call once it has been delivered: its buffer. -/
def handedOver (s : Flow) (t : ℕ) (buf : TransactionBuffer) : Flow :=
  s.rewrite t none (some { buf with allowUserFree := true, transaction := none })

section

variable (hr : s.threads th = some r) (hx : s.transactions t = some x) (hbuffer : x.buffer = some t)
  (hb : s.buffers t = some buf)
include hr hx hbuffer hb

theorem deliver_call (hcall : buf.targetNode.isSome = true ∧ x.oneWay = false) :
    s.deliver th t = some ((s.rewrite t
      (some { x with toParent := r.transactionStack, toThread := some th })
      (some { buf with allowUserFree := true })).setThread th
        { r with transactionStack := some t }) := by
  obtain ⟨need, caller, outer, callee, under, buffer, oneWay⟩ := x
  obtain rfl : buffer = some t := hbuffer
  simp only [deliver, hr, hx, hb, if_pos hcall]
  rfl

theorem deliver_other (hcall : ¬ (buf.targetNode.isSome = true ∧ x.oneWay = false)) :
    s.deliver th t = some (buf.targetNode.elim (s.handedOver t buf) fun n ↦
      (s.handedOver t buf).record (.delivered n t)) := by
  simp only [deliver, hr, hx, hbuffer, hb, if_neg hcall]
  rfl

end

/-- A list that the thread may read from: its own, or that of its process if it has nothing to do.
-/
def Readable (th : ℕ) (r : Thread) (q : WorkList) : Prop :=
  q = .thread th ∨ (q = .proc r.proc ∧ r.transactionStack = none)

theorem Readable.owner (h : s.Stocked loc) (hr : s.threads th = some r) (hq : Readable th r q) :
    s.owner q = some r.proc := by
  rcases hq with rfl | ⟨rfl, -⟩
  · simp [Flow.owner, hr]
  · obtain ⟨l, hl⟩ := isSome_iff_exists.1 (h.threadProc hr)
    simp [Flow.owner, hl]

theorem Readable.ne_node (hq : Readable th r q) (n : ℕ) : q ≠ .node n := by
  rcases hq with rfl | ⟨rfl, -⟩ <;> simp

theorem Carried.setTodo {p : ℕ} (hc : s.Carried t q p x buf) (l : List Work) :
    (s.setTodo q l).transactions t = some x ∧ (s.setTodo q l).buffers t = some buf := by
  have hrelist := relist_setTodo s q l
  exact ⟨hrelist.transactions ▸ hc.transaction, hrelist.buffers ▸ hc.found⟩

section

variable {rest : List Work} (h : s.Good loc none) (hr : s.threads th = some r)
  (hq : Readable th r q) (htodo : s.todo q = .transaction t :: rest)
  (hc : s.Carried t q r.proc x buf)

include h hr hq htodo hc

/-- **A call is taken.** -/
theorem Good.take {r' : Thread} {x' : Transaction} (hn : x.needReply = true)
    (hr' : (s.setTodo q rest).threads th = some r')
    (hstack : r'.transactionStack = r.transactionStack)
    (hx' : x' = { x with toParent := r'.transactionStack, toThread := some th }) :
    (((s.setTodo q rest).rewrite t (some x') (some { buf with allowUserFree := true })).setThread th
      { r' with transactionStack := some t }).Good (update loc t none) none := by
  have hown := hq.owner h.stocked hr
  obtain ⟨h₁, hloc⟩ := h.dequeue hown htodo
  have hrelist := relist_setTodo s q rest
  obtain ⟨hx, hb⟩ := hc.setTodo rest
  have hlt : t < (s.setTodo q rest).next := h₁.stocked.lt_next hx
  have hth : th < (s.setTodo q rest).next := by
    by_contra hge
    cases (h₁.stocked.fresh (Nat.not_lt.1 hge)).2.2.1.symm.trans hr'
  set s₁ := (s.setTodo q rest).rewrite t (some x') (some { buf with allowUserFree := true }) with
    hs₁
  have hquiet : s₁.Quiet (s₁.setThread th { r' with transactionStack := some t }) :=
    quiet_setThread hr' rfl rfl
  refine ⟨?_, ?_, ?_⟩
  · have htied := h₁.stocked.tied.keep x' { buf with allowUserFree := true } hx hb (by rw [hx'])
      (by rw [hx']) (by rw [hx']) rfl rfl rfl
    have h₂ : s₁.Stocked (update loc t none) := by
      refine h₁.stocked.rewrite (fun q' hq' ↦ by simp [Work.transaction?] at hq') hlt htied
        (fun y i hy hi ↦ ?_) (fun y hy _ ↦ ?_) fun y m hy hm ↦ ?_
      · grind
      · cases hy
        rw [hx']
        exact (h.stocked.sync hc.transaction hn :)
      · cases hy
        exact (h₁.stocked.target hb hm :)
    exact h₂.quiet hquiet (h₂.tied.congr rfl rfl) fun _ _ hy ↦ ⟨_, hy, rfl, rfl⟩
  · have hL : (s.calls none).link t = some x.link := link_of_needReply hc.transaction hn
    have hpend : (s.calls none).pending t :=
      ⟨⟨q, ((h.stocked.lists q).mem_iff t).2 (hloc t rfl)⟩, x, hc.transaction, hn⟩
    have hfor : x.link.callee = some th ∨ (x.link.callee = none ∧ r.transactionStack = none) := by
      rcases hq with rfl | ⟨rfl, hnone⟩
      · exact .inl (hc.thread th rfl hn)
      · exact .inr ⟨hc.process _ rfl, hnone⟩
    have htop : (s.calls none).top th = some r.transactionStack :=
      top_eq_some.2 ⟨by simp, r, hr, rfl⟩
    refine (h.sound.take hpend hL htop hfor).congr ?_ ?_ fun u hu ↦ ?_
    · funext u
      by_cases hu : u = t
      · subst hu
        rw [Calls.take_link_self]
        refine link_eq_some.2 ⟨x', update_self .., by rw [hx']; exact hn, ?_⟩
        rw [hx', hstack]
        rfl
      · rw [Calls.take_link_of_ne _ hu]
        refine link_congr ?_
        exact (update_of_ne hu ..).trans (congrFun hrelist.transactions u)
    · funext i
      by_cases hi : i = th
      · subst hi
        simp [calls, Flow.setThread, Calls.take]
      · have hview := congrFun (calls_setTodo s none q rest).2 i
        simpa [calls, Flow.setThread, Calls.take, hs₁, Flow.rewrite, hi] using hview
    · obtain ⟨⟨q', hq'⟩, y, hy, hyn⟩ := hu
      rw [waiting, hquiet.todo] at hq'
      have hmem : u ∈ (s.setTodo q rest).waiting q' := hq'
      have hut : u ≠ t := by
        rintro rfl
        have hnone := ((h₁.stocked.lists q').mem_iff u).1 hmem
        simp [Work.transaction?] at hnone
      refine ⟨⟨⟨q', mem_waiting_setTodo hown htodo hmem⟩, y, ?_, hyn⟩, hut⟩
      rw [← hrelist.transactions]
      exact (update_of_ne hut ..).symm.trans hy
  · refine h₁.logged.congr rfl rfl fun {u y} hy ↦ ?_
    by_cases hu : u = t
    · subst hu
      have hself : update (s.setTodo q rest).transactions u (some x') u = some x' :=
        update_self ..
      cases hself.symm.trans hy
      exact ⟨x, hx, by rw [hx'], fun i hi ↦ by rwa [hx'] at hi⟩
    · exact ⟨y, (update_of_ne hu ..).symm.trans hy, rfl, fun _ h ↦ h⟩

/-- **A transaction that is no call** is handed over, and is gone. -/
theorem Good.handOver (hn : x.needReply = false) :
    ((s.setTodo q rest).handedOver t buf).Good (update loc t none) none := by
  have hown := hq.owner h.stocked hr
  obtain ⟨h₁, -⟩ := h.dequeue hown htodo
  obtain ⟨hx, hb⟩ := hc.setTodo rest
  -- what is left of the transactions is what there was
  have htr : ∀ {u y}, ((s.setTodo q rest).handedOver t buf).transactions u = some y →
      (s.setTodo q rest).transactions u = some y := by
    intro u y hy
    have hu : u ≠ t := by
      rintro rfl
      cases (rewrite_transactions_self ..).symm.trans hy
    exact (update_of_ne hu ..).symm.trans hy
  refine ⟨?_, ?_, ?_⟩
  · refine h₁.stocked.rewrite (fun q' hq' ↦ by simp [Work.transaction?] at hq')
      (h₁.stocked.lt_next hx) (h₁.stocked.tied.rewrite (fun y hy ↦ by cases hy) fun y hy ↦ ?_)
      (fun y i hy ↦ by cases hy) (fun y hy ↦ by cases hy) fun y m hy hm ↦ ?_
    · cases hy
      rfl
    · cases hy
      exact (h₁.stocked.target hb hm :)
  · refine h₁.sound.congr (funext fun u ↦ ?_) rfl
      (pending_of_waiting (fun _ ↦ rfl) fun hy ↦ ⟨_, htr hy, rfl⟩)
    by_cases hu : u = t
    · subst hu
      simp [calls, handedOver, hx, hn]
    · exact link_congr (update_of_ne hu ..)
  · exact h₁.logged.congr rfl rfl fun hy ↦ ⟨_, htr hy, rfl, fun _ h ↦ h⟩

/-- **The transaction at hand is delivered.** -/
theorem Good.deliver : ∃ s' loc', (s.setTodo q rest).deliver th t = some s' ∧
    s.Done (fun _ ↦ True) s' loc loc' := by
  obtain ⟨-, hloc⟩ := h.dequeue (hq.owner h.stocked hr) htodo
  obtain ⟨hx, hb⟩ := hc.setTodo rest
  obtain ⟨r', hr', -, hstack⟩ := thread_setTodo hr q rest
  obtain ⟨-, buf', hbuf', -, hneed, hasync⟩ := h.stocked.tied.held hc.transaction hc.buffer
  cases hc.found.symm.trans hbuf'
  have hview : ∀ m, (s.setTodo q rest).view m = s.view m :=
    fun m ↦ view_setTodo s rest (hq.ne_node m)
  -- for a node whose buffer this is not, nothing happens
  have hother : ∀ {s' : Flow} {m : ℕ}, ¬ (buf.asyncTransaction = true ∧ buf.targetNode = some m) →
      s'.view m = s.view m →
      Effect True m (s.view m) (s'.view m) loc (update loc t none) := by
    intro s' m hm hs'
    have hne : ∀ b, s.asyncState m b ≠ none → b ≠ t := by grind [asyncState_eq_none]
    exact .passive hs' (fun b hbm ↦ by rw [update_of_ne (hne b hbm)])
      fun _ b hbm ↦ update_of_ne (hne b hbm) ..
  by_cases hcall : buf.targetNode.isSome = true ∧ x.oneWay = false
  · rw [deliver_call hr' hx hc.buffer hb hcall]
    have hn : x.needReply = true := by simp [hneed, hcall.1, hcall.2]
    have hno : ∀ m, ¬ (buf.asyncTransaction = true ∧ buf.targetNode = some m) := fun m hm ↦ by
      simp [hasync, hcall.2] at hm
    refine ⟨_, _, rfl, h.take hr hq htodo hc hn hr' hstack rfl, fun m ↦ hother (hno m) ?_⟩
    rw [view_setThread, view_rewrite_of_none (asyncState_eq_none hb (hno m))
      (by exact if_neg (hno m)), hview]
  · rw [deliver_other hr' hx hc.buffer hb hcall]
    have hn : x.needReply = false := by
      rw [hneed]
      simpa using hcall
    have hgood := h.handOver hr hq htodo hc hn
    have hsame : ∀ {m}, ¬ (buf.asyncTransaction = true ∧ buf.targetNode = some m) →
        ((s.setTodo q rest).handedOver t buf).view m = s.view m := by
      intro m hno
      rw [handedOver, view_rewrite_of_none (asyncState_eq_none hb hno) (by exact if_neg hno), hview]
    cases htarget : buf.targetNode with
    | none =>
      have hno : ∀ m, ¬ (buf.asyncTransaction = true ∧ buf.targetNode = some m) := fun m hm ↦ by
        simp [htarget] at hm
      exact ⟨_, _, rfl, hgood, fun m ↦ hother (hno m) (hsame (hno m))⟩
    | some n =>
      have hone : buf.asyncTransaction = true := by grind
      refine ⟨_, _, rfl, hgood.record rfl, fun m ↦ ?_⟩
      by_cases hm : m = n
      · subst hm
        have hnew : ({ buf with allowUserFree := true, transaction := none } :
            TransactionBuffer).asyncState m = some true := if_pos ⟨hone, htarget⟩
        rw [elim_some, view_record_self _ rfl, handedOver, view_rewrite, hview,
          bind_some, hnew]
        refine .delivered t q (hloc t rfl) hq.ne_node ?_ rfl rfl rfl rfl
        exact (asyncState_of_buffer hc.found hone htarget).trans (by rw [hc.unfreed])
      · have hnot : some n ≠ some m := fun hnm ↦ hm (Option.some.inj hnm).symm
        have hno : ¬ (buf.asyncTransaction = true ∧ buf.targetNode = some m) := fun hcond ↦
          hnot (htarget.symm.trans hcond.2)
        have hevent : (FlowEvent.delivered n t).node? ≠ some m := hnot
        exact hother hno ((view_record_of_ne _ hevent).trans (hsame hno))

end

/-! ### Reading -/

/-- **The loop of `binder_thread_read`**: completions, then one transaction. -/
theorem Good.readLoop (works : List Work) (room : ℕ) (h : s.Good loc none)
    (hr : s.threads th = some r) (hq : Readable th r q) (htodo : s.todo q = works) :
    ∃ s' loc', Flow.readLoop th (works.map (Prod.mk q)) room s = some s' ∧
      s.Done (fun _ ↦ True) s' loc loc' := by
  induction works generalizing s r room with
  | nil => exact ⟨s, loc, rfl, .of_quiet _ h (.refl s)⟩
  | cons w rest ih =>
    simp only [List.map_cons, Flow.readLoop, htodo]
    by_cases hroom : room < transactionDataSize + 4
    · rw [if_pos hroom]
      exact ⟨s, loc, rfl, .of_quiet _ h (.refl s)⟩
    · rw [if_neg hroom]
      have hown := hq.owner h.stocked hr
      cases w with
      | complete =>
        obtain ⟨h₁, -⟩ := h.dequeue hown htodo
        obtain ⟨r', hr', hproc, hstack⟩ := thread_setTodo hr q rest
        have hq' : Readable th r' q := by
          rw [Readable, hproc, hstack]
          exact hq
        obtain ⟨s', loc', hs', hdone⟩ := ih (room - 4) h₁ hr' hq' (todo_setTodo_owner hown rest)
        exact ⟨s', loc', hs', hdone.view_trans fun n ↦ view_setTodo s rest (hq.ne_node n)⟩
      | transaction t =>
        obtain ⟨-, hloc⟩ := h.dequeue hown htodo
        obtain ⟨x, buf, hc⟩ := h.stocked.carried (hloc t rfl) hown
        exact h.deliver hr hq htodo hc

/-- **`binder_thread_read`** runs into no `BUG`. -/
theorem Good.threadRead (h : s.Good loc none) (th room : ℕ) :
    ∃ s' loc', s.threadRead th room = some s' ∧ s.Done (fun _ ↦ True) s' loc loc' := by
  unfold Flow.threadRead
  cases hr : s.threads th with
  | none => exact ⟨s, loc, rfl, .of_quiet _ h (.refl s)⟩
  | some r =>
    dsimp only
    split_ifs with herr hfull hidle
    · exact ⟨s, loc, rfl, .of_quiet _ h (.refl s)⟩
    · exact ⟨_, loc, rfl, .of_quiet _ (h.setThread hr rfl rfl rfl) (quiet_setThread hr rfl rfl)⟩
    · rw [hidle.2]
      exact h.readLoop _ room hr (.inr ⟨rfl, hidle.1⟩) rfl
    · rw [List.append_nil]
      exact h.readLoop _ room hr (.inl rfl) (by simp [todo, hr])

/-! ### Freeing -/

/-- What is left when a buffer is freed: its transaction, if there still is one, points nowhere. -/
def dropBuffer (s : Flow) (b : ℕ) : Flow :=
  s.rewrite b ((s.transactions b).map fun x ↦ { x with buffer := none }) none

/-- **A buffer that nobody waits for** may be freed. -/
theorem Good.dropBuffer {gone : Option ℕ} (h : s.Good loc gone) (hb : s.buffers b = some buf)
    (hloc : ∀ q, loc b = some q → s.owner q = none) : (s.dropBuffer b).Good loc gone := by
  have htr : ∀ {u y}, (s.dropBuffer b).transactions u = some y → ∃ x, s.transactions u = some x ∧
      y.link = x.link ∧ y.needReply = x.needReply ∧ y.oneWay = x.oneWay := by
    intro u y hy
    by_cases hu : u = b
    · subst hu
      obtain ⟨x, hx, rfl⟩ :=
        map_eq_some_iff.1 ((rewrite_transactions_self ..).symm.trans hy)
      exact ⟨x, hx, rfl, rfl, rfl⟩
    · exact ⟨y, (update_of_ne hu ..).symm.trans hy, rfl, rfl, rfl⟩
  refine ⟨?_, ?_, ?_⟩
  · refine h.stocked.rewrite hloc (h.stocked.buffer_lt_next hb)
      (h.stocked.tied.rewrite (fun y hy ↦ ?_) fun y hy ↦ by cases hy) (fun y th hy hth ↦ ?_)
      (fun y hy hn ↦ ?_) fun y n hy ↦ by cases hy
    all_goals obtain ⟨x, hx, rfl⟩ := map_eq_some_iff.1 hy
    · rfl
    · exact h.stocked.toThread hx hth
    · have hsync : x.oneWay = false := h.stocked.sync hx hn
      exact hsync
  · refine h.sound.congr (funext fun u ↦ ?_) rfl
      (pending_of_waiting (fun _ ↦ rfl) fun hy ↦ ?_)
    · by_cases hu : u = b
      · subst hu
        have hself : (s.dropBuffer u).transactions u =
            (s.transactions u).map fun x ↦ { x with buffer := none } := update_self ..
        cases hx : s.transactions u with
        | none => simp [calls, hself, hx]
        | some x =>
          simp only [calls, hself, hx]
          rfl
      · exact link_congr (update_of_ne hu ..)
    · grind
  · refine h.logged.congr rfl rfl fun hy ↦ ?_
    obtain ⟨x, hx, hlink, hn, -⟩ := htr hy
    exact ⟨x, hx, hn, fun th hth ↦ (congrArg CallLink.caller hlink).symm.trans hth⟩

theorem view_dropBuffer (s : Flow) (b n : ℕ) : (s.dropBuffer b).view n =
    ⟨(s.view n).node, update (s.view n).state b none, (s.view n).log⟩ :=
  view_rewrite ..

theorem view_dropBuffer_of_none (h : s.asyncState n b = none) :
    (s.dropBuffer b).view n = s.view n :=
  view_rewrite_of_none h rfl

/-- **The next one-way transaction** of a node goes to a thread of its owner. -/
theorem Good.turn {nd : AsyncNode} {rest : List Work} (h : s.Good loc none)
    (hr : s.threads th = some r) (hnd : s.nodes n = some nd) (hp : nd.proc = some r.proc)
    (htodo : nd.asyncTodo = .transaction u :: rest) :
    ((s.setNode n { nd with asyncTodo := rest }).enqueue (.thread th) (.transaction u)).Good
      (update loc u (some (.thread th))) none ∧
      ∀ m, m ≠ n → s.asyncState m u = none := by
  have hown : s.owner (.node n) = some r.proc := by simp [owner, hnd, hp]
  have htodo' : s.todo (.node n) = .transaction u :: rest := by simp [todo, hnd, htodo]
  have hset : s.setNode n { nd with asyncTodo := rest } = s.setTodo (.node n) rest := by
    simp [setTodo, setNode, hnd]
  obtain ⟨h₁, hu⟩ := h.dequeue hown htodo'
  rw [← hset] at h₁
  obtain ⟨x, buf, hc⟩ := h.stocked.carried (hu u rfl) hown
  obtain ⟨hn, hasync⟩ := hc.node n rfl
  -- a one-way transaction is no call
  have hneed : x.needReply = false := by
    obtain ⟨-, buf', hbuf', -, h1, h2⟩ := h.stocked.tied.held hc.transaction hc.buffer
    cases hc.found.symm.trans hbuf'
    have hone : x.oneWay = true := (Bool.and_eq_true_iff.1 (hasync ▸ h2).symm).2
    simp [h1, hone]
  have hc₁ : (s.setNode n { nd with asyncTodo := rest }).Carried u (.thread th) r.proc x buf := by
    refine ⟨hc.transaction, hc.buffer, hc.found, hc.proc, hc.unfreed, fun _ _ hneed' ↦ ?_,
      (fun _ hq ↦ by cases hq), (fun _ hq ↦ by cases hq)⟩
    cases hneed.symm.trans hneed'
  have hthread : (s.setNode n { nd with asyncTodo := rest }).owner (.thread th) = some r.proc := by
    simp [owner, setNode, hr]
  have h₂ := h₁.enqueue hthread (by simp [Work.transaction?]) hc₁ hneed
  have hidem : update (update loc u none) u (some (.thread th)) =
      update loc u (some (.thread th)) := update_idem ..
  refine ⟨hidem ▸ h₂, fun m hm ↦ asyncState_eq_none hc.found fun hcond ↦ hm ?_⟩
  exact Option.mem_unique hcond.2 hn

/-- The end of a one-way transaction runs into no `BUG_ON`: the flag of the node is set while one of
its transactions is out. -/
theorem Good.asyncDone (h : s.Good loc none) (hsingle : s.Single loc n)
    (hr : s.threads th = some r) (hb : s.buffers b = some buf)
    (hloc : ∀ q, loc b = some q → s.owner q = none) (hproc : buf.proc = r.proc)
    (hfree : buf.allowUserFree = true) (hasync : buf.asyncTransaction = true)
    (hn : buf.targetNode = some n) :
    ∃ s' loc', ((s.untieTransaction b).asyncDone th b buf).map (·.freeBuf b) = some s' ∧
      s.Done (fun _ ↦ True) s' loc loc' := by
  have h₁ := h.dropBuffer hb hloc
  have hstate : s.asyncState n b = some true :=
    (asyncState_of_buffer hb hasync hn).trans (by rw [hfree])
  obtain ⟨nd, p, hnd, hp⟩ := hsingle.housed (t := b) (by simp [hstate])
  obtain rfl : p = r.proc := by grind [h.stocked.target]
  have hout : s.Out loc n b := by
    refine ⟨by simp [hstate], fun hq ↦ ?_⟩
    have hown : s.owner (.node n) = some r.proc := by simp [owner, hnd, hp]
    cases (hloc _ hq).symm.trans hown
  have hflag := hsingle.flag hout hnd
  have hother : ∀ {m}, m ≠ n → (s.dropBuffer b).view m = s.view m := fun {m} hm ↦
    view_dropBuffer_of_none (asyncState_eq_none hb fun hcond ↦
      hm (Option.mem_unique hcond.2 hn))
  have hevent : ∀ {m}, m ≠ n → (FlowEvent.freed n b).node? ≠ some m :=
    fun hm heq ↦ hm (Option.some.inj heq).symm
  cases htodo : nd.asyncTodo with
  | nil =>
    have hrun : (s.untieTransaction b).asyncDone th b buf = some (((s.untieTransaction
        b).setNode n { nd with hasAsyncTransaction := false }).record (.freed n b)) := by
      simp [Flow.asyncDone, hasync, hn, nextAsync, untieTransaction, hnd, hflag, htodo]
    rw [hrun]
    refine ⟨((s.dropBuffer b).setNode n { nd with hasAsyncTransaction := false }).record
      (.freed n b), loc, rfl, (h₁.setFlag hnd false).record rfl, fun m ↦ ?_⟩
    by_cases hm : m = n
    · subst hm
      rw [view_record_self _ rfl, view_setNode_self, view_dropBuffer]
      exact .freed b nd hnd hstate htodo rfl rfl rfl rfl
    · refine effect_of_view ?_
      rw [view_record_of_ne _ (hevent hm), view_setNode_of_ne hm, hother hm]
  | cons w rest =>
    obtain ⟨u, rfl⟩ := hsingle.entries (w := w) hnd (by rw [htodo]; simp)
    have hrun : (s.untieTransaction b).asyncDone th b buf = some ((((s.untieTransaction
        b).setNode n { nd with asyncTodo := rest }).enqueue (.thread th)
        (.transaction u)).record (.freed n b)) := by
      simp [Flow.asyncDone, hasync, hn, nextAsync, untieTransaction, hnd, hflag, htodo]
    rw [hrun]
    obtain ⟨h₂, hu⟩ := h₁.turn hr hnd hp htodo
    refine ⟨(((s.dropBuffer b).setNode n { nd with asyncTodo := rest }).enqueue (.thread th)
      (.transaction u)).record (.freed n b), update loc u (some (.thread th)), rfl,
      h₂.record rfl, fun m ↦ ?_⟩
    by_cases hm : m = n
    · subst hm
      rw [view_record_self _ rfl, Flow.enqueue, view_setTodo _ _ (by simp), view_setNode_self,
        view_dropBuffer]
      exact .turn b u th rest nd hnd hstate htodo rfl rfl rfl rfl
    · have hne : ∀ c, s.asyncState m c ≠ none → c ≠ u := by
        rintro c hcm rfl
        have hsame := congrFun (congrArg AsyncView.state (hother hm)) c
        exact hcm (hsame.symm.trans (hu m hm))
      refine .passive ?_ (fun c hcm ↦ by rw [update_of_ne (hne c hcm)])
        fun _ c hcm ↦ update_of_ne (hne c hcm) ..
      rw [view_record_of_ne _ (hevent hm), Flow.enqueue, view_setTodo _ _ (by simp),
        view_setNode_of_ne hm, hother hm]

/-- **`BC_FREE_BUFFER`** keeps the invariant. -/
theorem Good.freeBuffer (h : s.Good loc none) (hsingle : ∀ n, s.Single loc n) (th b : ℕ) :
    ∃ s' loc', s.freeBuffer th b = some s' ∧ s.Done (fun _ ↦ True) s' loc loc' := by
  have hsame : ∃ s' loc', some s = some s' ∧ s.Done (fun _ ↦ True) s' loc loc' :=
    ⟨s, loc, rfl, .of_quiet _ h (.refl s)⟩
  unfold Flow.freeBuffer
  cases hr : s.threads th with
  | none => exact hsame
  | some r =>
    cases hb : s.buffers b with
    | none => exact hsame
    | some buf =>
      dsimp only
      split_ifs with hcond
      · exact hsame
      · obtain ⟨-, hproc, hfree⟩ : r.returnError = .ok ∧ buf.proc = r.proc ∧
            buf.allowUserFree = true := by simpa using hcond
        -- what user space may free waits nowhere
        have hloc : ∀ q, loc b = some q → s.owner q = none := by
          intro q hq
          by_contra hown
          obtain ⟨p, hp⟩ := ne_none_iff_exists'.1 hown
          obtain ⟨x, buf', hc⟩ := h.stocked.carried hq hp
          cases hb.symm.trans hc.found
          cases hc.unfreed.symm.trans hfree
        simp only [detachTransaction_eq h.stocked.tied hb, bind_eq_bind, bind_some]
        by_cases hasync : buf.asyncTransaction = true ∧ buf.targetNode.isSome = true
        · obtain ⟨n, hn⟩ := isSome_iff_exists.1 hasync.2
          obtain ⟨s', loc', hs', hdone⟩ :=
            h.asyncDone (hsingle n) hr hb hloc hproc hfree hasync.1 hn
          refine ⟨s', loc', ?_, hdone⟩
          rw [← hs', map_eq_bind]
          rfl
        · have hrun : (s.untieTransaction b).asyncDone th b buf = some (s.untieTransaction b) := by
            unfold Flow.asyncDone
            split
            · grind
            · rfl
          rw [hrun]
          refine ⟨s.dropBuffer b, loc, rfl, h.dropBuffer hb hloc, fun m ↦ effect_of_view ?_⟩
          refine view_dropBuffer_of_none (asyncState_eq_none hb fun hcond ↦ hasync ⟨hcond.1, ?_⟩)
          simp [hcond.2]

end Flow

end Binder
