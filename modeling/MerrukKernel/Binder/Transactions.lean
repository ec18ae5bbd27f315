import MerrukKernel.Library.Trace

/-!
# The way of a transaction through the binder driver

A thread sends a transaction to a node. If it is a synchronous call the thread waits for a reply,
and meanwhile may be called back; a one-way transaction is only delivered. This module is the part
of `binder.c` that moves transactions: `binder_transaction` apart from the objects in the data,
`binder_thread_read`, `BC_FREE_BUFFER`, `binder_pop_transaction`, `binder_send_failed_reply`,
`binder_release_work`, `binder_free_thread` and `binder_deferred_release`.

## What is modelled how

* Processes, threads, nodes and transactions are found under addresses that are never used again,
  so that a pointer to something freed is seen as such. A function returns `none` where the driver
  runs into a `BUG()` or a `BUG_ON`, or follows such a pointer.
* A buffer is named by its `debug_id`, that of the transaction it was allocated for.
* Of the entries of the `todo` lists, those that tell of nodes and of deaths never touch a
  transaction and are left out.
* Whether the memory for a transaction, for its buffer and for all objects in it could be had is
  an input, `fits`. Which node a process knows under which handle changes freely.
* One command is one step, as it is under `binder_lock`.
* `log` is not a field of the driver. It records calls and their answers, and what became of
  one-way transactions.

Priorities, wait queues, statistics and the counts on nodes do not decide where a transaction goes
and are left out.
-/

namespace Binder

open Function

/-- An entry of a list of work. -/
inductive Work
  | transaction (t : ℕ)
  | complete
  deriving DecidableEq, Repr

/-- The lists of work. -/
inductive WorkList
  | thread (th : ℕ)
  | proc (p : ℕ)
  | node (n : ℕ)
  deriving DecidableEq, Repr

/-- The values of `thread->return_error`. -/
inductive ReturnError
  | ok
  | transactionComplete
  | failedReply
  | deadReply
  deriving DecidableEq, Repr

/-- `struct binder_transaction`. -/
structure Transaction where
  needReply : Bool := false
  fromThread : Option ℕ := none
  fromParent : Option ℕ := none
  toThread : Option ℕ := none
  toParent : Option ℕ := none
  buffer : Option ℕ
  /-- `flags & TF_ONE_WAY`. -/
  oneWay : Bool
  deriving DecidableEq, Repr

/-- `struct binder_buffer`. -/
structure TransactionBuffer where
  proc : ℕ
  transaction : Option ℕ
  /-- `target_node`, `none` for a reply. -/
  targetNode : Option ℕ
  asyncTransaction : Bool
  allowUserFree : Bool := false
  deriving DecidableEq, Repr

/-- `struct binder_thread`. -/
structure Thread where
  proc : ℕ
  transactionStack : Option ℕ := none
  todo : List Work := []
  returnError : ReturnError := .ok
  returnError2 : ReturnError := .ok
  deriving DecidableEq, Repr

/-- `struct binder_node`, as far as one-way transactions go. -/
structure AsyncNode where
  proc : Option ℕ
  hasAsyncTransaction : Bool := false
  asyncTodo : List Work := []
  deriving DecidableEq, Repr

/-- What happens to a transaction. -/
inductive FlowEvent
  /-- Thread `th` makes the synchronous call `t`. -/
  | called (t th : ℕ)
  /-- Thread `th` gets the reply, or the failed reply, to the call `t`. -/
  | answered (t th : ℕ)
  /-- The one-way transaction `t` to node `n` is accepted. -/
  | sent (n t : ℕ)
  | delivered (n t : ℕ)
  /-- The receiver frees the buffer of it. -/
  | freed (n t : ℕ)
  deriving DecidableEq, Repr

/-- **The transactions under way.** -/
structure Flow where
  /-- `proc->todo` of the open processes. -/
  procs : ℕ → Option (List Work)
  threads : ℕ → Option Thread
  nodes : ℕ → Option AsyncNode
  transactions : ℕ → Option Transaction
  buffers : ℕ → Option TransactionBuffer
  /-- `binder_context_mgr_node`. -/
  contextMgr : Option ℕ
  /-- The node a process knows under a handle. -/
  handles : ℕ → ℕ → Option ℕ
  /-- The next address `kzalloc` gives out, and the next `debug_id`. -/
  next : ℕ
  log : List FlowEvent

namespace Flow

/-! ### Reading and writing -/

/-- Write a thread. -/
def setThread (s : Flow) (th : ℕ) (r : Thread) : Flow :=
  { s with threads := update s.threads th (some r) }

/-- Write a node. -/
def setNode (s : Flow) (n : ℕ) (nd : AsyncNode) : Flow :=
  { s with nodes := update s.nodes n (some nd) }

/-- Write a transaction. -/
def setTransaction (s : Flow) (t : ℕ) (x : Transaction) : Flow :=
  { s with transactions := update s.transactions t (some x) }

/-- `kfree` of a transaction. -/
def kfreeTransaction (s : Flow) (t : ℕ) : Flow :=
  { s with transactions := update s.transactions t none }

/-- Write a buffer. -/
def setBuffer (s : Flow) (b : ℕ) (x : TransactionBuffer) : Flow :=
  { s with buffers := update s.buffers b (some x) }

/-- `binder_free_buf`. -/
def freeBuf (s : Flow) (b : ℕ) : Flow :=
  { s with buffers := update s.buffers b none }

/-- Record an event. -/
def record (s : Flow) (e : FlowEvent) : Flow := { s with log := s.log ++ [e] }

/-- The entries of a list of work. -/
def todo (s : Flow) : WorkList → List Work
  | .thread th => (s.threads th).elim [] (·.todo)
  | .proc p => (s.procs p).getD []
  | .node n => (s.nodes n).elim [] (·.asyncTodo)

/-- Write a list of work, if there is one. -/
def setTodo (s : Flow) (q : WorkList) (l : List Work) : Flow :=
  match q with
  | .thread th =>
    { s with
      threads := update s.threads th ((s.threads th).map fun r ↦ { r with todo := l }) }
  | .proc p => { s with procs := update s.procs p ((s.procs p).map fun _ ↦ l) }
  | .node n =>
    { s with nodes := update s.nodes n ((s.nodes n).map fun nd ↦ { nd with asyncTodo := l }) }

/-- `list_add_tail`. -/
def enqueue (s : Flow) (q : WorkList) (w : Work) : Flow := s.setTodo q (s.todo q ++ [w])

/-- Write `thread->return_error`. -/
def setReturnError (s : Flow) (th : ℕ) (e : ReturnError) : Flow :=
  { s with
    threads := update s.threads th
      ((s.threads th).map fun r ↦ { r with returnError := e }) }

/-- `t->buffer->transaction = NULL`, where there is a buffer. -/
def detachBuffer (s : Flow) (x : Transaction) : Option Flow :=
  match x.buffer with
  | none => some s
  | some b => (s.buffers b).map fun buf ↦ s.setBuffer b { buf with transaction := none }

/-! ### The end of a call -/

/-- The first half of `binder_pop_transaction`: take the call off the stack of its sender. -/
def popStack (s : Flow) (target : Option ℕ) (t : ℕ) (x : Transaction) : Option Flow :=
  match target with
  | none => some s
  | some th =>
    match s.threads th with
    | none => none
    | some r =>
      if r.transactionStack = some t ∧ x.fromThread = some th then
        some ((s.setThread th { r with transactionStack := x.fromParent }).record (.answered t th))
      else none

/-- `binder_pop_transaction`. -/
def popTransaction (s : Flow) (target : Option ℕ) (t : ℕ) : Option Flow := do
  let x ← s.transactions t
  let s ← s.popStack target t x
  let s ← s.detachBuffer x
  return s.kfreeTransaction t

/-- The loop of `binder_send_failed_reply`. A thread has room for two errors. -/
def failedReplyLoop (err : ReturnError) : ℕ → Flow → ℕ → Option Flow
  | 0, _, _ => none
  | fuel + 1, s, t =>
    match s.transactions t with
    | none => none
    | some x =>
      match x.fromThread with
      | some th =>
        match s.threads th with
        | none => none
        | some r =>
          if r.returnError ≠ .ok ∧ r.returnError2 ≠ .ok then some s
          else
            let r' := if r.returnError = .ok then r
              else { r with returnError2 := r.returnError, returnError := .ok }
            ((s.setThread th r').popTransaction (some th) t).map (·.setReturnError th err)
      | none =>
        (s.popTransaction none t).bind fun s ↦
          match x.fromParent with
          | none => some s
          | some u => failedReplyLoop err fuel s u

/-- `binder_send_failed_reply`. -/
def sendFailedReply (s : Flow) (t : ℕ) (err : ReturnError) : Option Flow :=
  match s.transactions t with
  | none => none
  | some x => if x.oneWay then none else failedReplyLoop err s.next s t

/-! ### Sending -/

/-- The exits of `binder_transaction` that report an error. -/
def fail (s : Flow) (th : ℕ) (inReplyTo : Option ℕ) (err : ReturnError) : Option Flow :=
  match s.threads th with
  | none => none
  | some r =>
    if r.returnError ≠ .ok then none
    else
      match inReplyTo with
      | some t => (s.setReturnError th .transactionComplete).sendFailedReply t err
      | none => some (s.setReturnError th err)

/-- A new transaction with its buffer. -/
def addTransaction (s : Flow) (x : Transaction) (buf : TransactionBuffer) : Flow :=
  { s with
    transactions := update s.transactions s.next (some x)
    buffers := update s.buffers s.next (some buf)
    next := s.next + 1 }

/-- `BC_REPLY`. -/
def reply (s : Flow) (th : ℕ) (oneWay fits : Bool) : Option Flow :=
  match s.threads th with
  | none => some s
  | some r =>
    if r.returnError ≠ .ok then some s
    else
      match r.transactionStack with
      | none => s.fail th none .failedReply
      | some t =>
        match s.transactions t with
        | none => none
        | some x =>
          if x.toThread ≠ some th then s.fail th none .failedReply
          else
            let s := s.setThread th { r with transactionStack := x.toParent }
            match x.fromThread with
            | none => s.fail th (some t) .deadReply
            | some target =>
              match s.threads target with
              | none => none
              | some r' =>
                if r'.transactionStack ≠ some t then s.fail th none .failedReply
                else if fits = false then s.fail th (some t) .failedReply
                else
                  (s.popTransaction (some target) t).map fun s ↦
                    ((s.addTransaction
                        { toThread := some target, buffer := some s.next, oneWay := oneWay }
                        { proc := r'.proc, transaction := some s.next, targetNode := none,
                          asyncTransaction := false }).enqueue (.thread target)
                      (.transaction s.next)).enqueue (.thread th) .complete

/-- The loop of `binder_transaction` over the calls that the current one is nested in: the outermost
thread of the target process that waits for one of them. -/
def route (s : Flow) (p : ℕ) : ℕ → Option ℕ → Option ℕ → Option (Option ℕ)
  | _, none, targetThread => some targetThread
  | 0, some _, _ => none
  | fuel + 1, some t, targetThread =>
    match s.transactions t with
    | none => none
    | some x =>
      match x.fromThread with
      | none => s.route p fuel x.fromParent targetThread
      | some th =>
        match s.threads th with
        | none => none
        | some r =>
          s.route p fuel x.fromParent (if r.proc = p then some th else targetThread)

/-- A synchronous call: the sender waits for it. -/
def sendCall (s : Flow) (th : ℕ) (r : Thread) (n p : ℕ) (targetThread : Option ℕ) : Flow :=
  ((((s.addTransaction
      { needReply := true, fromThread := some th, fromParent := r.transactionStack,
        toThread := targetThread, buffer := some s.next, oneWay := false }
      { proc := p, transaction := some s.next, targetNode := some n,
        asyncTransaction := false }).setThread th
      { r with transactionStack := some s.next }).enqueue
    (targetThread.elim (.proc p) .thread) (.transaction s.next)).enqueue
    (.thread th) .complete).record (.called s.next th)

/-- A one-way transaction: it waits on the node while another one is out. -/
def sendOneWay (s : Flow) (th n p : ℕ) (nd : AsyncNode) : Flow :=
  let s' := s.addTransaction { buffer := some s.next, oneWay := true }
    { proc := p, transaction := some s.next, targetNode := some n, asyncTransaction := true }
  (((if nd.hasAsyncTransaction then s'.enqueue (.node n) (.transaction s.next)
      else (s'.setNode n { nd with hasAsyncTransaction := true }).enqueue (.proc p)
        (.transaction s.next)).enqueue (.thread th) .complete)).record (.sent n s.next)

/-- The node under a handle. -/
def target (s : Flow) (p handle : ℕ) : Option ℕ :=
  if handle = 0 then s.contextMgr else s.handles p handle

/-- `BC_TRANSACTION`. -/
def transaction (s : Flow) (th handle : ℕ) (oneWay fits : Bool) : Option Flow :=
  match s.threads th with
  | none => some s
  | some r =>
    if r.returnError ≠ .ok then some s
    else
      match s.target r.proc handle with
      | none => s.fail th none (if handle = 0 then .deadReply else .failedReply)
      | some n =>
        match s.nodes n with
        | none => none
        | some nd =>
          match nd.proc with
          | none => s.fail th none .deadReply
          | some p =>
            if oneWay then
              if fits then some (s.sendOneWay th n p nd) else s.fail th none .failedReply
            else
              match r.transactionStack with
              | none =>
                if fits then some (s.sendCall th r n p none) else s.fail th none .failedReply
              | some t =>
                match s.transactions t with
                | none => none
                | some x =>
                  if x.toThread ≠ some th then s.fail th none .failedReply
                  else
                    match s.route p s.next (some t) none with
                    | none => none
                    | some targetThread =>
                      if fits then some (s.sendCall th r n p targetThread)
                      else s.fail th none .failedReply

/-! ### Receiving -/

/-- `sizeof(struct binder_transaction_data)`. -/
def transactionDataSize : ℕ := 40

/-- `binder_thread_read`, the transaction at hand, already taken off its list. -/
def deliver (s : Flow) (th t : ℕ) : Option Flow :=
  match s.threads th, s.transactions t with
  | some r, some x =>
    match x.buffer with
    | none => none
    | some b =>
      match s.buffers b with
      | none => none
      | some buf =>
        if buf.targetNode.isSome ∧ x.oneWay = false then
          some (((s.setBuffer b { buf with allowUserFree := true }).setTransaction t
              { x with toParent := r.transactionStack, toThread := some th }).setThread th
            { r with transactionStack := some t })
        else
          let s := (s.setBuffer b { buf with allowUserFree := true, transaction := none
              }).kfreeTransaction t
          some (buf.targetNode.elim s fun n ↦ s.record (.delivered n t))
  | _, _ => none

/-- The loop of `binder_thread_read`, as long as there is room for another transaction. -/
def readLoop (th : ℕ) : List (WorkList × Work) → ℕ → Flow → Option Flow
  | [], _, s => some s
  | (q, w) :: rest, room, s =>
    if room < transactionDataSize + 4 then some s
    else
      let s := s.setTodo q (s.todo q).tail
      match w with
      | .complete => readLoop th rest (room - 4) s
      | .transaction t => s.deliver th t

/-- `binder_thread_read` into a buffer with room for `room` more bytes. Work of the process is only
for a thread that has nothing else to do. -/
def threadRead (s : Flow) (th room : ℕ) : Option Flow :=
  match s.threads th with
  | none => some s
  | some r =>
    if r.returnError ≠ .ok ∧ 0 < room then
      if r.returnError2 ≠ .ok ∧ room = 4 then some s
      else some (s.setThread th { r with returnError := .ok, returnError2 := .ok })
    else
      readLoop th
        (r.todo.map (Prod.mk (.thread th)) ++ if r.transactionStack = none ∧ r.todo = [] then
            (s.todo (.proc r.proc)).map (Prod.mk (.proc r.proc))
          else []) room s

/-- `buffer->transaction->buffer = NULL`, where there is a transaction. -/
def detachTransaction (s : Flow) (buf : TransactionBuffer) : Option Flow :=
  match buf.transaction with
  | none => some s
  | some t => (s.transactions t).map fun x ↦ s.setTransaction t { x with buffer := none }

/-- A one-way transaction is over: the next one of its node goes to the thread that frees its
buffer. -/
def nextAsync (s : Flow) (th b n : ℕ) : Option Flow :=
  match s.nodes n with
  | none => none
  | some nd =>
    if nd.hasAsyncTransaction = false then none
    else
      match nd.asyncTodo with
      | [] => some ((s.setNode n { nd with hasAsyncTransaction := false }).record (.freed n b))
      | w :: rest =>
        some (((s.setNode n { nd with asyncTodo := rest }).enqueue (.thread th) w).record
          (.freed n b))

/-- The part of `BC_FREE_BUFFER` that is about one-way transactions. -/
def asyncDone (s : Flow) (th b : ℕ) (buf : TransactionBuffer) : Option Flow :=
  match buf.asyncTransaction, buf.targetNode with
  | true, some n => s.nextAsync th b n
  | _, _ => some s

/-- `BC_FREE_BUFFER`. -/
def freeBuffer (s : Flow) (th b : ℕ) : Option Flow :=
  match s.threads th, s.buffers b with
  | some r, some buf =>
    if r.returnError ≠ .ok ∨ buf.proc ≠ r.proc ∨ buf.allowUserFree = false then some s
    else do
      let s ← s.detachTransaction buf
      let s ← s.asyncDone th b buf
      return s.freeBuf b
  | _, _ => some s

/-! ### Threads and processes that go -/

/-- `binder_release_work`. -/
def releaseWork (q : WorkList) : List Work → Flow → Option Flow
  | [], s => some s
  | w :: rest, s =>
    let s := s.setTodo q rest
    match w with
    | .complete => releaseWork q rest s
    | .transaction t =>
      match s.transactions t with
      | none => none
      | some x =>
        match x.buffer with
        | none => none
        | some b =>
          match s.buffers b with
          | none => none
          | some buf =>
            (if buf.targetNode.isSome ∧ x.oneWay = false then s.sendFailedReply t .deadReply
              else some s).bind (releaseWork q rest)

/-- The loop of `binder_free_thread` over the stack of the thread. -/
def unlinkStack (th : ℕ) : ℕ → Option ℕ → Flow → Option Flow
  | _, none, s => some s
  | 0, some _, _ => none
  | fuel + 1, some t, s =>
    match s.transactions t with
    | none => none
    | some x =>
      if x.toThread = some th then
        (s.detachBuffer x).bind fun s ↦
          unlinkStack th fuel x.toParent
            (s.setTransaction t { x with toThread := none, buffer := none })
      else if x.fromThread = some th then
        unlinkStack th fuel x.fromParent (s.setTransaction t { x with fromThread := none })
      else none

/-- The topmost call of a thread, if the thread has taken it. -/
def topIncoming (s : Flow) (th : ℕ) (r : Thread) : Option ℕ :=
  r.transactionStack.bind fun t ↦
    (s.transactions t).bind fun x ↦ if x.toThread = some th then some t else none

/-- The failed reply of `binder_free_thread`, where one is due. -/
def sendDeadReply (s : Flow) : Option ℕ → Option Flow
  | none => some s
  | some t => s.sendFailedReply t .deadReply

/-- `binder_free_thread`. No transaction is visited more than once from each side. -/
def freeThread (s : Flow) (th : ℕ) : Option Flow :=
  match s.threads th with
  | none => some s
  | some r => do
    let sendReply := s.topIncoming th r
    let s ← unlinkStack th (2 * s.next) r.transactionStack s
    let s ← s.sendDeadReply sendReply
    let s ← releaseWork (.thread th) r.todo s
    return { s with threads := update s.threads th none }

/-- The loop of `binder_deferred_release` over the threads. -/
def freeThreads : List ℕ → Flow → Option Flow
  | [], s => some s
  | th :: rest, s => (s.freeThread th).bind (freeThreads rest)

/-- The loop of `binder_deferred_release` over the buffers. -/
def freeBuffers (p : ℕ) : List ℕ → Flow → Option Flow
  | [], s => some s
  | b :: rest, s =>
    match s.buffers b with
    | none => freeBuffers p rest s
    | some buf =>
      if buf.proc = p then
        (s.detachTransaction buf).bind fun s ↦ freeBuffers p rest (s.freeBuf b)
      else freeBuffers p rest s

/-- The node outlives its owner, if it does, without one. -/
def orphan (p : ℕ) (nd : AsyncNode) : AsyncNode :=
  if nd.proc = some p then { nd with proc := none } else nd

/-- The loops of `binder_deferred_release` over the nodes and the references. -/
def dropNodes (s : Flow) (p : ℕ) : Flow :=
  { s with
    nodes := fun n ↦ (s.nodes n).map (orphan p)
    contextMgr := s.contextMgr.filter fun n ↦ (s.nodes n).all (·.proc ≠ some p)
    handles := update s.handles p fun _ ↦ none }

/-- `binder_deferred_release`, with the threads of the process in the order of their identifiers. -/
def deferredRelease (s : Flow) (p : ℕ) (order : List ℕ) : Option Flow := do
  let s ← freeThreads order s
  let s := s.dropNodes p
  let s ← releaseWork (.proc p) (s.todo (.proc p)) s
  let s ← freeBuffers p (List.range s.next) s
  return { s with procs := update s.procs p none }

/-! ### Setting up -/

/-- `binder_open`. -/
def openProc (s : Flow) : Flow :=
  { s with procs := update s.procs s.next (some []), next := s.next + 1 }

/-- `binder_get_thread`, for a thread that comes for the first time. -/
def getThread (s : Flow) (p : ℕ) : Flow :=
  if (s.procs p).isSome then
    { s with
      threads := update s.threads s.next (some { proc := p })
      next := s.next + 1 }
  else s

/-- `binder_new_node`. -/
def newNode (s : Flow) (p : ℕ) : Flow :=
  if (s.procs p).isSome then
    { s with
      nodes := update s.nodes s.next (some { proc := some p })
      next := s.next + 1 }
  else s

/-- `BINDER_SET_CONTEXT_MGR`. -/
def setContextMgr (s : Flow) (p : ℕ) : Flow :=
  if s.contextMgr = none ∧ (s.procs p).isSome = true then
    { s.newNode p with contextMgr := some s.next }
  else s

/-- A process comes to know a node under a handle. -/
def learn (s : Flow) (p handle n : ℕ) : Flow :=
  if (s.nodes n).isSome then
    { s with handles := update s.handles p (update (s.handles p) handle (some n)) }
  else s

/-- The driver before the first `binder_open`. -/
def empty : Flow where
  procs := fun _ ↦ none
  threads := fun _ ↦ none
  nodes := fun _ ↦ none
  transactions := fun _ ↦ none
  buffers := fun _ ↦ none
  contextMgr := none
  handles := fun _ _ ↦ none
  next := 0
  log := []

end Flow

/-- The commands, and what sets them up. -/
inductive FlowOp
  | openProc
  | getThread (p : ℕ)
  | newNode (p : ℕ)
  | setContextMgr (p : ℕ)
  | learn (p handle n : ℕ)
  | transaction (th handle : ℕ) (oneWay fits : Bool)
  | reply (th : ℕ) (oneWay fits : Bool)
  | read (th room : ℕ)
  | freeBuffer (th b : ℕ)
  | exit (th : ℕ)
  | release (p : ℕ) (order : List ℕ)
  deriving DecidableEq, Repr

/-- One step. -/
def Flow.step (s : Flow) : FlowOp → Option Flow
  | .openProc => some s.openProc
  | .getThread p => some (s.getThread p)
  | .newNode p => some (s.newNode p)
  | .setContextMgr p => some (s.setContextMgr p)
  | .learn p handle n => some (s.learn p handle n)
  | .transaction th handle oneWay fits => s.transaction th handle oneWay fits
  | .reply th oneWay fits => s.reply th oneWay fits
  | .read th room => s.threadRead th room
  | .freeBuffer th b => s.freeBuffer th b
  | .exit th => s.freeThread th
  | .release p order => s.deferredRelease p order

/-- The commands that may come in a state: a process is released with all threads it has. -/
def Flow.Allowed (s : Flow) : FlowOp → Prop
  | .release p order => ∀ th, th ∈ order ↔ ∃ r, s.threads th = some r ∧ r.proc = p
  | _ => True

/-- **Transactions**: any commands in any order; `none` once the driver has run into a bug. -/
def flowMachine : Machine (Option Flow) FlowOp where
  guard s op := ∀ f, s = some f → f.Allowed op
  exec s op := s.bind fun f ↦ f.step op

end Binder
