import Mathlib.Order.Nat
import MerrukKernel.Binder.Transactions
import MerrukKernel.Library.Placement
import MerrukKernel.Library.Update

/-!
# Where transactions wait

A transaction that has not been delivered waits on one list of work, and only there. It then has a
buffer in the process that is to receive it, which user space cannot free yet, and the two point at
each other. `Stocked` says so for all lists of work at once, by a placement of the transactions; it
is an invariant of every step, and every pointer that the driver follows from a list of work is good
because of it.

Most functions of the driver do not touch the lists at all. What such a function leaves alone is the
relation `Quiet`.
-/

namespace Binder

open Placement Function Option

/-- The transaction that an entry of a list of work stands for. -/
def Work.transaction? : Work → Option ℕ
  | .transaction t => some t
  | .complete => none

/-- The events of one-way transactions. -/
def FlowEvent.isAsync : FlowEvent → Bool
  | .sent .. | .delivered .. | .freed .. => true
  | _ => false

namespace Flow

variable {s s' s'' : Flow} {loc : ℕ → Option WorkList} {t b th p n : ℕ} {q : WorkList}
  {x : Transaction}

/-- The transactions that wait on a list of work. -/
def waiting (s : Flow) (q : WorkList) : List ℕ := (s.todo q).filterMap Work.transaction?

/-- The process that a list of work belongs to. -/
def owner (s : Flow) : WorkList → Option ℕ
  | .thread th => (s.threads th).map (·.proc)
  | .proc p => (s.procs p).map fun _ ↦ p
  | .node n => (s.nodes n).bind (·.proc)

/-- A transaction, its buffer and the list of work it waits on fit together. -/
structure Carried (s : Flow) (t : ℕ) (q : WorkList) (p : ℕ) (x : Transaction)
    (buf : TransactionBuffer) : Prop where
  transaction : s.transactions t = some x
  buffer : x.buffer = some t
  found : s.buffers t = some buf
  proc : buf.proc = p
  unfreed : buf.allowUserFree = false
  /-- On the list of a thread are replies, and calls meant for it. -/
  thread : ∀ th, q = .thread th → x.needReply = true → x.toThread = some th
  /-- On the list of a process is nothing that is meant for one of its threads. -/
  process : ∀ p, q = .proc p → x.toThread = none
  /-- On the list of a node are its one-way transactions. -/
  node : ∀ n, q = .node n → buf.targetNode = some n ∧ buf.asyncTransaction = true

/-- **Pointers between transactions and buffers** go both ways, and the two agree on what kind they
are. -/
structure Tied (s : Flow) : Prop where
  held : ∀ {t x b}, s.transactions t = some x → x.buffer = some b →
    b = t ∧ ∃ buf, s.buffers b = some buf ∧ buf.transaction = some t ∧
      x.needReply = (buf.targetNode.isSome && !x.oneWay) ∧
      buf.asyncTransaction = (buf.targetNode.isSome && x.oneWay)
  back : ∀ {b buf t}, s.buffers b = some buf → buf.transaction = some t →
    t = b ∧ ∃ x, s.transactions t = some x ∧ x.buffer = some b

/-- **Every transaction waits in one place.** -/
structure Stocked (s : Flow) (loc : ℕ → Option WorkList) : Prop where
  lists : ∀ q, Lists loc (some q) (s.waiting q)
  carried : ∀ {t q p}, loc t = some q → s.owner q = some p → ∃ x buf, s.Carried t q p x buf
  tied : s.Tied
  /-- Addresses that have not been given out are not used. -/
  fresh : ∀ {i}, s.next ≤ i → s.transactions i = none ∧ s.buffers i = none ∧
    s.threads i = none ∧ s.procs i = none ∧ s.nodes i = none ∧ loc i = none
  toThread : ∀ {t x th}, s.transactions t = some x → x.toThread = some th → th < s.next
  sync : ∀ {t x}, s.transactions t = some x → x.needReply = true → x.oneWay = false
  threadProc : ∀ {th r}, s.threads th = some r → (s.procs r.proc).isSome = true
  nodeProc : ∀ {n nd p}, s.nodes n = some nd → nd.proc = some p → (s.procs p).isSome = true
  /-- The node a buffer is for belongs to the process that has the buffer. -/
  target : ∀ {b buf n}, s.buffers b = some buf → buf.targetNode = some n →
    ∃ nd, s.nodes n = some nd ∧ ∀ p, nd.proc = some p → p = buf.proc
  mgr : ∀ {n}, s.contextMgr = some n → (s.nodes n).isSome = true
  handle : ∀ {p h n}, s.handles p h = some n → (s.nodes n).isSome = true

/-! ### Lists of work -/

theorem todo_setTodo_of_ne {q' : WorkList} (h : q' ≠ q) (l : List Work) :
    (s.setTodo q l).todo q' = s.todo q' := by
  cases q <;> cases q' <;> simp_all [todo, setTodo]

/-- A list that does not exist stays empty. -/
theorem todo_setTodo_self (s : Flow) (q : WorkList) (l : List Work) :
    (s.setTodo q l).todo q = l ∨ (s.todo q = [] ∧ (s.setTodo q l).todo q = []) := by
  cases q with
  | thread th => cases h : s.threads th <;> simp [todo, setTodo, h]
  | proc p => cases h : s.procs p <;> simp [todo, setTodo, h]
  | node n => cases h : s.nodes n <;> simp [todo, setTodo, h]

theorem todo_setTodo_owner (h : s.owner q = some p) (l : List Work) :
    (s.setTodo q l).todo q = l := by
  cases q with
  | thread th =>
    obtain ⟨r, hr, -⟩ := map_eq_some_iff.1 h
    simp [todo, setTodo, hr]
  | proc p =>
    obtain ⟨l', hl', -⟩ := map_eq_some_iff.1 h
    simp [todo, setTodo, hl']
  | node n =>
    obtain ⟨nd, hnd, -⟩ := bind_eq_some_iff.1 h
    simp [todo, setTodo, hnd]

@[simp] theorem owner_setTodo (s : Flow) (q q' : WorkList) (l : List Work) :
    (s.setTodo q l).owner q' = s.owner q' := by
  cases q with
  | thread th =>
    cases q' with
    | thread th' => exact proj_update (Option.map Thread.proc) (by simp [comp_def]) th'
    | proc p => rfl
    | node n => rfl
  | proc p =>
    cases q' with
    | thread th => rfl
    | proc p' => exact proj_update (Option.map fun _ ↦ p') (map_map ..) p'
    | node n => rfl
  | node n =>
    cases q' with
    | thread th => rfl
    | proc p => rfl
    | node n' => exact proj_update (Option.bind · AsyncNode.proc) (by exact bind_map) n'

/-! ### What most functions leave alone -/

/-- A buffer, but for what it points at. -/
def untied (buf : TransactionBuffer) : TransactionBuffer :=
  { buf with transaction := none }

/-- The two states differ in stacks and errors of threads, in what is left of the transactions and
in pointers to them. -/
structure Quiet (s s' : Flow) : Prop where
  procs : s'.procs = s.procs
  nodes : s'.nodes = s.nodes
  next : s'.next = s.next
  contextMgr : s'.contextMgr = s.contextMgr
  handles : s'.handles = s.handles
  threads : ∀ th, (s'.threads th).map (fun r ↦ (r.proc, r.todo)) =
    (s.threads th).map fun r ↦ (r.proc, r.todo)
  buffers : ∀ b, (s'.buffers b).map untied = (s.buffers b).map untied
  transactions : ∀ {t x'}, s'.transactions t = some x' → ∃ x, s.transactions t = some x ∧
    x'.needReply = x.needReply ∧ x'.oneWay = x.oneWay ∧
    (x'.toThread = x.toThread ∨ x'.toThread = none)
  log : s'.log.filter FlowEvent.isAsync = s.log.filter FlowEvent.isAsync

theorem Quiet.refl (s : Flow) : s.Quiet s :=
  ⟨rfl, rfl, rfl, rfl, rfl, fun _ ↦ rfl, fun _ ↦ rfl, fun h ↦ ⟨_, h, rfl, rfl, .inl rfl⟩, rfl⟩

section

variable (h : s.Quiet s')
include h

theorem Quiet.trans (h' : s'.Quiet s'') : s.Quiet s'' where
  procs := h'.procs.trans h.procs
  nodes := h'.nodes.trans h.nodes
  next := h'.next.trans h.next
  contextMgr := h'.contextMgr.trans h.contextMgr
  handles := h'.handles.trans h.handles
  threads := fun th ↦ (h'.threads th).trans (h.threads th)
  buffers := fun b ↦ (h'.buffers b).trans (h.buffers b)
  transactions := by
    intro t x'' hx''
    obtain ⟨x', hx', h1, h2, h3⟩ := h'.transactions hx''
    obtain ⟨x, hx, h1', h2', h3'⟩ := h.transactions hx'
    refine ⟨x, hx, h1.trans h1', h2.trans h2', ?_⟩
    rcases h3 with h3 | h3
    · grind
    · exact .inr h3
  log := h'.log.trans h.log

theorem Quiet.todo (q : WorkList) : s'.todo q = s.todo q := by
  cases q with
  | thread th =>
    have hth := h.threads th
    cases hr : s.threads th <;> cases hr' : s'.threads th <;> simp_all [Flow.todo]
  | proc p => simp [Flow.todo, h.procs]
  | node n => simp [Flow.todo, h.nodes]

theorem Quiet.owner (q : WorkList) : s'.owner q = s.owner q := by
  cases q with
  | thread th =>
    have hth := h.threads th
    cases hr : s.threads th <;> cases hr' : s'.threads th <;> simp_all [Flow.owner]
  | proc p => simp [Flow.owner, h.procs]
  | node n => simp [Flow.owner, h.nodes]

theorem Quiet.thread {r' : Thread} (hr' : s'.threads th = some r') :
    ∃ r, s.threads th = some r ∧ r'.proc = r.proc ∧ r'.todo = r.todo := by
  have hth := h.threads th
  cases hr : s.threads th <;> simp_all

theorem Quiet.buffer {buf' : TransactionBuffer} (hb : s'.buffers b = some buf') :
    ∃ buf, s.buffers b = some buf ∧ untied buf' = untied buf := by
  have hbuf := h.buffers b
  rw [hb] at hbuf
  obtain ⟨buf, hbuf', heq⟩ := map_eq_some_iff.1 hbuf.symm
  exact ⟨buf, hbuf', heq.symm⟩

theorem Quiet.buffer_none (hb : s.buffers b = none) : s'.buffers b = none := by
  have hbuf := h.buffers b
  rw [hb] at hbuf
  exact map_eq_none_iff.1 hbuf

end

/-- **A function that does not touch the lists** keeps every transaction in its place, if it leaves
the ones that wait alone. -/
theorem Stocked.quiet (h : s.Stocked loc) (hq : s.Quiet s') (htied : s'.Tied)
    (hkeep : ∀ {t q p x}, loc t = some q → s.owner q = some p → s.transactions t = some x →
      ∃ x', s'.transactions t = some x' ∧ x'.buffer = x.buffer ∧ x'.toThread = x.toThread) :
    s'.Stocked loc where
  lists := by
    intro q
    rw [waiting, hq.todo]
    exact h.lists q
  carried := by
    intro t q p hloc hown
    rw [hq.owner] at hown
    obtain ⟨x, buf, hc⟩ := h.carried hloc hown
    obtain ⟨x', hx', hbuffer, hto⟩ := hkeep hloc hown hc.transaction
    obtain ⟨y, hy, hneed, -, -⟩ := hq.transactions hx'
    cases hc.transaction.symm.trans hy
    have hbuf := hq.buffers t
    rw [hc.found] at hbuf
    obtain ⟨buf', hbuf', heq⟩ := map_eq_some_iff.1 hbuf
    simp only [untied, TransactionBuffer.mk.injEq, true_and] at heq
    obtain ⟨h1, h2, h3, h4⟩ := heq
    refine ⟨x', buf', hx', hbuffer.trans hc.buffer, hbuf', h1.trans hc.proc, h4.trans hc.unfreed,
      fun th hth hn ↦ ?_, fun p hp ↦ ?_, fun n hn ↦ ?_⟩
    · exact hto.trans (hc.thread th hth (hneed.symm.trans hn))
    · exact hto.trans (hc.process p hp)
    · rw [h2, h3]
      exact hc.node n hn
  tied := htied
  fresh := by
    intro i hi
    rw [hq.next] at hi
    obtain ⟨h1, h2, h3, h4, h5, h6⟩ := h.fresh hi
    refine ⟨?_, hq.buffer_none h2, ?_, hq.procs ▸ h4, hq.nodes ▸ h5, h6⟩
    · cases hx : s'.transactions i with
      | none => rfl
      | some x' => grind [hq.transactions]
    · have hth := hq.threads i
      rw [h3] at hth
      exact map_eq_none_iff.1 hth
  toThread := by
    intro t x' th hx' hth
    obtain ⟨x, hx, -, -, hto⟩ := hq.transactions hx'
    rw [hq.next]
    rcases hto with hto | hto
    · exact h.toThread hx (hto.symm.trans hth)
    · cases hto.symm.trans hth
  sync := by
    intro t x' hx' hneed
    obtain ⟨x, hx, h1, h2, -⟩ := hq.transactions hx'
    exact h2.trans (h.sync hx (h1.symm.trans hneed))
  threadProc := by
    intro th r' hr'
    obtain ⟨r, hr, hproc, -⟩ := hq.thread hr'
    rw [hq.procs, hproc]
    exact h.threadProc hr
  nodeProc := by
    intro n nd p hn hp
    rw [hq.nodes] at hn
    rw [hq.procs]
    exact h.nodeProc hn hp
  target := by
    intro b buf' n hb hn
    obtain ⟨buf, hbuf, heq⟩ := hq.buffer hb
    simp only [untied, TransactionBuffer.mk.injEq, true_and] at heq
    obtain ⟨h1, h2, -, -⟩ := heq
    rw [hq.nodes, h1]
    exact h.target hbuf (h2.symm.trans hn)
  mgr := by
    intro n hn
    rw [hq.contextMgr] at hn
    rw [hq.nodes]
    exact h.mgr hn
  handle := by
    intro p h' n hn
    rw [hq.handles] at hn
    rw [hq.nodes]
    exact h.handle hn

/-! ### Threads -/

/-- Stack and errors of a thread may change. -/
theorem quiet_setThread {r r' : Thread} (hr : s.threads th = some r) (hproc : r'.proc = r.proc)
    (htodo : r'.todo = r.todo) : s.Quiet (s.setThread th r') := by
  refine { Quiet.refl s with threads := fun i ↦ proj_update _ ?_ i }
  simp [hr, hproc, htodo]

theorem quiet_mapThread (s : Flow) (th : ℕ) (f : Thread → Thread)
    (hf : ∀ r, (f r).proc = r.proc ∧ (f r).todo = r.todo) :
    s.Quiet { s with threads := update s.threads th ((s.threads th).map f) } := by
  refine { Quiet.refl s with threads := fun i ↦ proj_update _ ?_ i }
  cases s.threads th <;> simp [hf]

theorem quiet_setReturnError (s : Flow) (th : ℕ) (e : ReturnError) :
    s.Quiet (s.setReturnError th e) :=
  quiet_mapThread s th _ fun _ ↦ ⟨rfl, rfl⟩

/-! ### The pointers between a transaction and its buffer -/

/-- The buffer points at nothing. -/
def untieBuffer (s : Flow) (t : ℕ) : Flow :=
  { s with buffers := update s.buffers t ((s.buffers t).map untied) }

/-- The transaction points at no buffer. -/
def untieTransaction (s : Flow) (t : ℕ) : Flow :=
  { s with
    transactions := update s.transactions t
      ((s.transactions t).map fun x ↦ { x with buffer := none }) }

/-- **Following the pointer to the buffer** is following the name of the transaction. -/
theorem detachBuffer_eq (h : s.Tied) (hx : s.transactions t = some x) :
    s.detachBuffer x = some (s.untieBuffer t) := by
  cases hbuffer : x.buffer with
  | some b =>
    obtain ⟨rfl, buf, hbuf, -⟩ := h.held hx hbuffer
    simp [detachBuffer, hbuffer, hbuf, untieBuffer, setBuffer, untied]
  | none =>
    -- nothing points at the transaction, so that there is nothing to untie
    have hid : (s.buffers t).map untied = s.buffers t := by
      cases hbuf : s.buffers t with
      | none => rfl
      | some buf =>
        have hnone : buf.transaction = none := by
          cases htr : buf.transaction with
          | none => rfl
          | some u => grind [h.back]
        simp [untied, ← hnone]
    simp [detachBuffer, hbuffer, untieBuffer, hid]

variable {buf : TransactionBuffer}

/-- **Following the pointer to the transaction** is following the name of the buffer. -/
theorem detachTransaction_eq (h : s.Tied) (hb : s.buffers b = some buf) :
    s.detachTransaction buf = some (s.untieTransaction b) := by
  cases htr : buf.transaction with
  | some t =>
    obtain ⟨rfl, x, hx, -⟩ := h.back hb htr
    simp [detachTransaction, htr, hx, untieTransaction, setTransaction]
  | none =>
    have hid : ((s.transactions b).map fun x ↦ { x with buffer := none }) = s.transactions b := by
      cases hx : s.transactions b with
      | none => rfl
      | some x =>
        have hnone : x.buffer = none := by
          cases hbuffer : x.buffer with
          | none => rfl
          | some b' => grind [h.held]
        simp [← hnone]
    simp [detachTransaction, htr, untieTransaction, hid]

/-- Pointers depend on nothing else. -/
theorem Tied.congr (h : s.Tied) (htr : s'.transactions = s.transactions)
    (hbuf : s'.buffers = s.buffers) : s'.Tied := by
  refine ⟨fun hx ↦ ?_, fun hb ↦ ?_⟩
  · rw [htr] at hx
    rw [hbuf]
    exact h.held hx
  · rw [hbuf] at hb
    rw [htr]
    exact h.back hb

/-- **Pointers can be cut**, on both sides at once. -/
theorem Tied.clear (h : s.Tied) (htr : ∀ u, u ≠ t → s'.transactions u = s.transactions u)
    (hbuf : ∀ u, u ≠ t → s'.buffers u = s.buffers u)
    (hx : ∀ x, s'.transactions t = some x → x.buffer = none)
    (hb : ∀ buf, s'.buffers t = some buf → buf.transaction = none) : s'.Tied := by
  refine ⟨fun {u x b} hu hxb ↦ ?_, fun {b buf u} hbu hut ↦ ?_⟩
  · grind [h.held]
  · grind [h.back]

/-! ### Moving between lists -/

/-- The two states differ in what is on the lists of work only. -/
structure Relist (s s' : Flow) : Prop where
  transactions : s'.transactions = s.transactions
  buffers : s'.buffers = s.buffers
  next : s'.next = s.next
  contextMgr : s'.contextMgr = s.contextMgr
  handles : s'.handles = s.handles
  owner : ∀ q, s'.owner q = s.owner q
  nodes : ∀ n, (s'.nodes n).map (·.proc) = (s.nodes n).map (·.proc)

theorem relist_setTodo (s : Flow) (q : WorkList) (l : List Work) : s.Relist (s.setTodo q l) where
  transactions := by cases q <;> rfl
  buffers := by cases q <;> rfl
  next := by cases q <;> rfl
  contextMgr := by cases q <;> rfl
  handles := by cases q <;> rfl
  owner := fun q' ↦ owner_setTodo s q q' l
  nodes := by
    intro n
    cases q with
    | thread th => rfl
    | proc p => rfl
    | node n' => exact proj_update (Option.map _) (by simp [comp_def]) n

theorem relist_setNode {nd nd' : AsyncNode} (hn : s.nodes n = some nd)
    (hproc : nd'.proc = nd.proc) :
    s.Relist (s.setNode n nd') where
  transactions := rfl
  buffers := rfl
  next := rfl
  contextMgr := rfl
  handles := rfl
  owner := by
    intro q
    cases q with
    | thread th => rfl
    | proc p => rfl
    | node n' => exact proj_update (Option.bind · AsyncNode.proc) (by simp [hn, hproc]) n'
  nodes := proj_update (Option.map _) (by simp [hn, hproc])

theorem Relist.carried (h : s.Relist s') (hc : s.Carried t q p x buf) : s'.Carried t q p x buf :=
  { hc with transaction := h.transactions ▸ hc.transaction, found := h.buffers ▸ hc.found }

theorem Relist.procs (h : s.Relist s') (p : ℕ) : (s'.procs p).isSome = (s.procs p).isSome := by
  have hown := h.owner (.proc p)
  simp only [Flow.owner] at hown
  cases hp : s.procs p <;> cases hp' : s'.procs p <;> simp_all

theorem Relist.nodes_isSome (h : s.Relist s') (n : ℕ) :
    (s'.nodes n).isSome = (s.nodes n).isSome := by
  have hn := h.nodes n
  cases hnd : s.nodes n <;> cases hnd' : s'.nodes n <;> simp_all

/-- **Transactions moved from list to list** are still each in one place. -/
theorem Stocked.relist (h : s.Stocked loc) {loc' : ℕ → Option WorkList} (hr : s.Relist s')
    (hlists : ∀ q, Lists loc' (some q) (s'.waiting q))
    (hcarried : ∀ {t q p}, loc' t = some q → s.owner q = some p → ∃ x buf, s.Carried t q p x buf)
    (hloc : ∀ i, s.next ≤ i → loc' i = none) : s'.Stocked loc' where
  lists := hlists
  carried := by
    intro t q p hq hown
    rw [hr.owner] at hown
    obtain ⟨x, buf, hc⟩ := hcarried hq hown
    exact ⟨x, buf, hr.carried hc⟩
  tied := h.tied.congr hr.transactions hr.buffers
  fresh := by
    intro i hi
    rw [hr.next] at hi
    obtain ⟨h1, h2, h3, h4, h5, -⟩ := h.fresh hi
    have hth := hr.owner (.thread i)
    have hp := hr.procs i
    have hn := hr.nodes_isSome i
    simp only [Flow.owner, h3, map_none, map_eq_none_iff] at hth
    rw [h4] at hp
    rw [h5] at hn
    exact ⟨hr.transactions ▸ h1, hr.buffers ▸ h2, hth, by simpa using hp, by simpa using hn,
      hloc i hi⟩
  toThread := by
    intro t x th hx hth
    rw [hr.transactions] at hx
    rw [hr.next]
    exact h.toThread hx hth
  sync := by
    intro t x hx hneed
    rw [hr.transactions] at hx
    exact h.sync hx hneed
  threadProc := by
    intro th r' hr'
    have hown := hr.owner (.thread th)
    simp only [Flow.owner, hr', map_some] at hown
    obtain ⟨r, hr0, hproc⟩ := map_eq_some_iff.1 hown.symm
    rw [hr.procs, ← hproc]
    exact h.threadProc hr0
  nodeProc := by
    intro n nd' p hn hp
    have hnode := hr.nodes n
    rw [hn] at hnode
    obtain ⟨nd, hnd, hproc⟩ := map_eq_some_iff.1 hnode.symm
    rw [hr.procs]
    exact h.nodeProc hnd (hproc.trans hp)
  target := by
    intro b buf n hb hn
    rw [hr.buffers] at hb
    obtain ⟨nd, hnd, hp⟩ := h.target hb hn
    have hnode := hr.nodes n
    rw [hnd] at hnode
    obtain ⟨nd', hnd', hproc⟩ := map_eq_some_iff.1 hnode
    exact ⟨nd', hnd', fun p hp' ↦ hp p (hproc.symm.trans hp')⟩
  mgr := by
    intro n hn
    rw [hr.contextMgr] at hn
    rw [hr.nodes_isSome]
    exact h.mgr hn
  handle := by
    intro p h' n hn
    rw [hr.handles] at hn
    rw [hr.nodes_isSome]
    exact h.handle hn

/-- The lists stay the same where only completions come and go. -/
theorem Stocked.relist_of_waiting (h : s.Stocked loc) (hr : s.Relist s')
    (hlists : ∀ q, s'.waiting q = s.waiting q) : s'.Stocked loc :=
  h.relist hr (fun q ↦ hlists q ▸ h.lists q) h.carried fun _ hi ↦ (h.fresh hi).2.2.2.2.2

theorem waiting_setTodo_of_ne {q' : WorkList} (h : q' ≠ q) (l : List Work) :
    (s.setTodo q l).waiting q' = s.waiting q' := by
  rw [waiting, todo_setTodo_of_ne h, waiting]

theorem waiting_setTodo_self (hown : s.owner q = some p) (l : List Work) :
    (s.setTodo q l).waiting q = l.filterMap Work.transaction? := by
  rw [waiting, todo_setTodo_owner hown]

theorem waiting_enqueue_complete (s : Flow) (q q' : WorkList) :
    (s.enqueue q .complete).waiting q' = s.waiting q' := by
  by_cases hq : q' = q
  · subst hq
    rw [waiting, waiting]
    rcases todo_setTodo_self s q' (s.todo q' ++ [.complete]) with h | ⟨h0, h⟩
    · rw [enqueue, h]
      simp [Work.transaction?]
    · rw [enqueue, h, h0]
  · exact waiting_setTodo_of_ne hq _

/-- **A completion** is no transaction. -/
theorem Stocked.enqueue_complete (h : s.Stocked loc) (q : WorkList) :
    (s.enqueue q .complete).Stocked loc :=
  h.relist_of_waiting (relist_setTodo ..) (waiting_enqueue_complete s q)

section

variable (h : s.Stocked loc) (hown : s.owner q = some p)
include h hown

/-- **A transaction that waits nowhere** is put on a list. -/
theorem Stocked.enqueue (hloc : loc t = none) (hc : s.Carried t q p x buf) :
    (s.enqueue q (.transaction t)).Stocked (update loc t (some q)) := by
  have hne : loc t ≠ some q := by simp [hloc]
  refine h.relist (relist_setTodo ..) (fun q' ↦ ?_) (fun {t' q' p'} hq' hown' ↦ ?_) fun i hi ↦ ?_
  · by_cases hqq : q' = q
    · subst hqq
      rw [Flow.enqueue, waiting_setTodo_self hown, List.filterMap_append]
      exact (h.lists q').add hne
    · rw [Flow.enqueue, waiting_setTodo_of_ne hqq]
      refine (h.lists q').frame (by simp [hloc]) fun heq ↦ hqq (Option.some.inj heq).symm
  · by_cases htt : t' = t
    · grind
    · grind [h.carried]
  · have hti : i ≠ t := by
      rintro rfl
      cases (h.fresh hi).1.symm.trans hc.transaction
    rw [update_of_ne hti]
    exact (h.fresh hi).2.2.2.2.2

/-- **The first entry of a list** is taken off. -/
theorem Stocked.dequeue {rest : List Work} (htodo : s.todo q = .transaction t :: rest) :
    loc t = some q ∧ (s.setTodo q rest).Stocked (update loc t none) := by
  have hlist : Lists loc (some q) (t :: rest.filterMap Work.transaction?) := by
    have hq := h.lists q
    rwa [waiting, htodo] at hq
  have hloc : loc t = some q := (hlist.mem_iff t).1 (by simp)
  refine ⟨hloc, h.relist (relist_setTodo ..) (fun q' ↦ ?_) (fun {t' q' p'} hq' hown' ↦ ?_)
    fun i hi ↦ ?_⟩
  · by_cases hqq : q' = q
    · grind [waiting_setTodo_self, hlist.tail]
    · rw [waiting_setTodo_of_ne hqq]
      exact (h.lists q').frame (fun h' ↦ hqq (Option.mem_unique hloc h').symm) (by simp)
  · by_cases htt : t' = t
    · grind
    · grind [h.carried]
  · by_cases hti : i = t
    · subst hti
      simp
    · rw [update_of_ne hti]
      exact (h.fresh hi).2.2.2.2.2

theorem Stocked.dequeue_complete {rest : List Work}
    (htodo : s.todo q = .complete :: rest) : (s.setTodo q rest).Stocked loc := by
  refine h.relist_of_waiting (relist_setTodo ..) fun q' ↦ ?_
  by_cases hqq : q' = q
  · subst hqq
    rw [waiting_setTodo_self hown, waiting, htodo]
    rfl
  · exact waiting_setTodo_of_ne hqq _

end

/-! ### Transactions that wait nowhere -/

/-- Write a transaction and its buffer. -/
def rewrite (s : Flow) (t : ℕ) (x : Option Transaction) (buf : Option TransactionBuffer) : Flow :=
  { s with
    transactions := update s.transactions t x
    buffers := update s.buffers t buf }

@[simp] theorem rewrite_transactions_self (s : Flow) (t : ℕ) (x : Option Transaction)
    (buf : Option TransactionBuffer) : (s.rewrite t x buf).transactions t = x :=
  update_self ..

@[simp] theorem rewrite_buffers_self (s : Flow) (t : ℕ) (x : Option Transaction)
    (buf : Option TransactionBuffer) : (s.rewrite t x buf).buffers t = buf :=
  update_self ..

/-- **A transaction that waits nowhere**, or only where nobody looks any more, may change. -/
theorem Stocked.rewrite (h : s.Stocked loc) {x : Option Transaction}
    {buf : Option TransactionBuffer} (hloc : ∀ q, loc t = some q → s.owner q = none)
    (hlt : t < s.next) (htied : (s.rewrite t x buf).Tied)
    (hto : ∀ y th, x = some y → y.toThread = some th → th < s.next)
    (hsync : ∀ y, x = some y → y.needReply = true → y.oneWay = false)
    (htarget : ∀ y n, buf = some y → y.targetNode = some n →
      ∃ nd, s.nodes n = some nd ∧ ∀ p, nd.proc = some p → p = y.proc) :
    (s.rewrite t x buf).Stocked loc where
  lists := h.lists
  carried := by
    intro u q p hq hown
    have hne : u ≠ t := by
      rintro rfl
      cases (hloc q hq).symm.trans hown
    obtain ⟨y, buf', hc⟩ := h.carried hq hown
    exact ⟨y, buf', { hc with
      transaction := (update_of_ne hne ..).trans hc.transaction
      found := (update_of_ne hne ..).trans hc.found }⟩
  tied := htied
  fresh := by
    intro i hi
    obtain ⟨h1, h2, h3⟩ := h.fresh hi
    have hne : i ≠ t := by
      rintro rfl
      exact absurd hlt (Nat.not_lt.2 hi)
    exact ⟨(update_of_ne hne ..).trans h1, (update_of_ne hne ..).trans h2, h3⟩
  toThread := by
    intro u y th hy hth
    by_cases hu : u = t
    · subst hu
      exact hto y th ((rewrite_transactions_self ..).symm.trans hy) hth
    · exact h.toThread ((update_of_ne hu ..).symm.trans hy) hth
  sync := by
    intro u y hy hneed
    by_cases hu : u = t
    · grind [rewrite_transactions_self]
    · exact h.sync ((update_of_ne hu ..).symm.trans hy) hneed
  threadProc := h.threadProc
  nodeProc := h.nodeProc
  target := by
    intro b y n hb hn
    by_cases hbt : b = t
    · subst hbt
      exact htarget y n ((rewrite_buffers_self ..).symm.trans hb) hn
    · exact h.target ((update_of_ne hbt ..).symm.trans hb) hn
  mgr := h.mgr
  handle := h.handle

theorem Stocked.record (h : s.Stocked loc) (e : FlowEvent) : (s.record e).Stocked loc :=
  { h with tied := h.tied.congr rfl rfl, carried := fun hq hown ↦
      let ⟨x, buf, hc⟩ := h.carried hq hown
      ⟨x, buf, { hc with }⟩ }

theorem Stocked.lt_next (h : s.Stocked loc) (hx : s.transactions t = some x) :
    t < s.next := by grind [h.fresh]

theorem Stocked.buffer_lt_next (h : s.Stocked loc) (hb : s.buffers b = some buf) : b < s.next := by
  by_contra hge
  cases (h.fresh (Nat.not_lt.1 hge)).2.1.symm.trans hb

theorem Tied.rewrite (h : s.Tied) {x : Option Transaction} {buf : Option TransactionBuffer}
    (hx : ∀ y, x = some y → y.buffer = none) (hb : ∀ y, buf = some y → y.transaction = none) :
    (s.rewrite t x buf).Tied := by
  refine h.clear (t := t) (fun u hu ↦ update_of_ne hu ..)
    (fun u hu ↦ update_of_ne hu ..) (fun y hy ↦ ?_) fun y hy ↦ ?_
  · exact hx y ((rewrite_transactions_self ..).symm.trans hy)
  · exact hb y ((rewrite_buffers_self ..).symm.trans hy)

/-! ### Transactions that lose a side -/

@[simp] theorem setTransaction_self (s : Flow) (t : ℕ) (x : Transaction) :
    (s.setTransaction t x).transactions t = some x :=
  update_self ..

theorem setTransaction_of_ne {u : ℕ} (hu : u ≠ t) (x : Transaction) :
    (s.setTransaction t x).transactions u = s.transactions u :=
  update_of_ne hu ..

/-- Buffers may lose their transactions. -/
theorem quiet_untieBuffer (s : Flow) (t : ℕ) : s.Quiet (s.untieBuffer t) := by
  exact { Quiet.refl s with buffers := proj_update (Option.map _) (map_map ..) }

section

variable {x x' : Transaction} (hx : s.transactions t = some x) (hneed : x'.needReply = x.needReply)
  (hone : x'.oneWay = x.oneWay)

include hx hneed hone

theorem quiet_setTransaction (hto : x'.toThread = x.toThread ∨ x'.toThread = none) :
    s.Quiet (s.setTransaction t x') := by
  refine { Quiet.refl s with transactions := fun {u y} hy ↦ ?_ }
  by_cases hu : u = t
  · grind [setTransaction_self]
  · grind [setTransaction_of_ne]

theorem Tied.setTransaction (h : s.Tied) (hbuffer : x'.buffer = x.buffer) :
    (s.setTransaction t x').Tied := by
  refine ⟨fun {u y b} hy hyb ↦ ?_, fun {b buf u} hb hbu ↦ ?_⟩
  · by_cases hu : u = t
    · subst hu
      cases (setTransaction_self ..).symm.trans hy
      obtain ⟨rfl, buf, hbuf, hback, h1, h2⟩ := h.held hx (hbuffer.symm.trans hyb)
      exact ⟨rfl, buf, hbuf, hback, by rw [hneed, hone, h1], by rw [hone, h2]⟩
    · exact h.held ((setTransaction_of_ne hu x').symm.trans hy) hyb
  · obtain ⟨rfl, y, hy, hyb⟩ := h.back hb hbu
    by_cases hu : u = t
    · grind [setTransaction_self]
    · exact ⟨rfl, y, (setTransaction_of_ne hu x').trans hy, hyb⟩

end

/-! ### New transactions -/

/-- **A new transaction** waits nowhere yet. -/
theorem Stocked.addTransaction (h : s.Stocked loc)
    (hx : x.buffer = some s.next) (hb : buf.transaction = some s.next)
    (hneed : x.needReply = (buf.targetNode.isSome && !x.oneWay))
    (hasync : buf.asyncTransaction = (buf.targetNode.isSome && x.oneWay))
    (hto : ∀ th, x.toThread = some th → th < s.next) (htarget : ∀ n, buf.targetNode = some n →
      ∃ nd, s.nodes n = some nd ∧ ∀ p, nd.proc = some p → p = buf.proc) :
    (s.addTransaction x buf).Stocked loc := by
  have htr : ∀ u, u ≠ s.next → (s.addTransaction x buf).transactions u = s.transactions u :=
    fun u hu ↦ update_of_ne hu ..
  have hbuf : ∀ u, u ≠ s.next → (s.addTransaction x buf).buffers u = s.buffers u :=
    fun u hu ↦ update_of_ne hu ..
  have htr0 : (s.addTransaction x buf).transactions s.next = some x := update_self ..
  have hbuf0 : (s.addTransaction x buf).buffers s.next = some buf := update_self ..
  constructor
  case lists => exact h.lists
  case carried =>
    intro u q p hq hown
    have hne : u ≠ s.next := by
      rintro rfl
      cases (h.fresh le_rfl).2.2.2.2.2.symm.trans hq
    obtain ⟨y, buf', hc⟩ := h.carried hq hown
    exact ⟨y, buf', { hc with
      transaction := (htr u hne).trans hc.transaction
      found := (hbuf u hne).trans hc.found }⟩
  case tied =>
    refine ⟨fun {u y b} hy hyb ↦ ?_, fun {b y u} hy hyu ↦ ?_⟩
    · by_cases hu : u = s.next
      · grind
      · grind [h.tied.held]
    · by_cases hbn : b = s.next
      · grind
      · grind [h.tied.back]
  case fresh =>
    intro i hi
    have hlt : s.next < i := hi
    obtain ⟨h1, h2, h3⟩ := h.fresh hlt.le
    exact ⟨(htr i hlt.ne').trans h1, (hbuf i hlt.ne').trans h2, h3⟩
  case toThread =>
    intro u y th hy hth
    refine Nat.lt_succ_of_lt ?_
    by_cases hu : u = s.next
    · grind
    · exact h.toThread ((htr u hu).symm.trans hy) hth
  case sync =>
    intro u y hy hn
    by_cases hu : u = s.next
    · grind
    · exact h.sync ((htr u hu).symm.trans hy) hn
  case threadProc => exact h.threadProc
  case nodeProc => exact h.nodeProc
  case target =>
    intro b y n hy hn
    by_cases hbn : b = s.next
    · subst hbn
      cases hbuf0.symm.trans hy
      exact htarget n hn
    · exact h.target ((hbuf b hbn).symm.trans hy) hn
  case mgr => exact h.mgr
  case handle => exact h.handle

end Flow

end Binder
