import Mathlib.Order.Nat
import MerrukKernel.Library.Trace
import Mathlib.Algebra.Group.Nat.Defs

/-!
# Synchronous calls over RPC

A task makes a synchronous call in two steps (`rpc_sync.c`): `RPC_SyncCreateTID` takes a
transaction id and stores it in the slot of the task, and `RPC_SyncWaitForResponse` waits, in two
semaphores of the slot, first for the acknowledgement and then for the response. The handlers of
acknowledgements and responses find the slot by its id, write their fields into it and release the
semaphore.

Only the table of the slots and the counter of ids are protected by a semaphore; the fields of a
slot are written and read by the task and by the handlers without one. So the model goes one
access at a time: what a task or a handler still has to write is a list (`Write`), and what it has
read is kept in its program counter. A handler belongs to one call: its acknowledgement comes at
most once, and then its response at most once. Handlers of different calls run side by side.

A response carries a message type and a payload; `copyCb` tells what the client's callback makes
of them, given the size of the buffer of the call. That a response is copied to the buffer of a
call is recorded in `copied`.
-/

namespace Rpc

open Function

/-- `RPC_ACK_Result_t`. -/
inductive AckResult
  | success
  | failed
  | transmitFail
  | criticalError
  deriving DecidableEq

/-- `RESULT_OK` and `RESULT_ERROR`, among the codes of a result. -/
def resultOk : ℕ := 0

@[inherit_doc resultOk]
def resultError : ℕ := 1

/-- `MAX_TASKS_NUM`. -/
def maxTasksNum : ℕ := 20

/-- A slot (`TaskRequestMap_t`), without the ownership of the response buffer. A null task is
`none`; the buffer of a call is named by the call. -/
structure Slot where
  task : Option ℕ := none
  tid : ℕ := 0
  ackSema : ℕ := 0
  ack : AckResult := .success
  isResultPending : Bool := false
  rspSema : ℕ := 0
  result : ℕ := resultOk
  msgType : ℕ := 0
  data : Option ℕ := none
  dataLen : ℤ := 0
  rspSize : ℕ := 0

/-- What is written to a slot at once. -/
inductive Write
  /-- Both semaphores are created, and obtained. -/
  | semas
  | tid (tid : ℕ)
  | ack (ack : AckResult)
  | isResultPending (b : Bool)
  | result (result : ℕ)
  | msgType (msgType : ℕ)
  | data (data : Option ℕ)
  | dataLen (dataLen : ℤ)
  | rspSize (rspSize : ℕ)
  deriving DecidableEq

/-- A write to a slot. -/
def Slot.write (x : Slot) : Write → Slot
  | .semas => { x with ackSema := 0, rspSema := 0 }
  | .tid tid => { x with tid := tid }
  | .ack ack => { x with ack := ack }
  | .isResultPending b => { x with isResultPending := b }
  | .result result => { x with result := result }
  | .msgType msgType => { x with msgType := msgType }
  | .data data => { x with data := data }
  | .dataLen dataLen => { x with dataLen := dataLen }
  | .rspSize rspSize => { x with rspSize := rspSize }

/-- An acknowledgement: its result, and whether the response will be dispatched to the client. -/
structure Ack where
  result : AckResult
  isResultPending : Bool
  deriving DecidableEq

/-- A response. -/
structure Response where
  msgType : ℕ
  payload : ℕ
  deriving DecidableEq

/-- Where a task is. The slot it works on, its call and what it has read; `ok` is whether its last
wait has got the semaphore (`semaStatus`). -/
inductive TaskPc
  | idle
  /-- In `RPC_SyncCreateTID`, with an id, before `GetMapForCurrentTask`. -/
  | find (c : ℕ)
  /-- Before `GetNewMapForCurrentTask`. -/
  | newMap (c : ℕ)
  /-- Writing the fields of the slot. -/
  | store (i c : ℕ) (writes : List Write)
  /-- The request has been sent. -/
  | sent (c : ℕ)
  /-- In `RPC_SyncWaitForResponse`, up to its end. -/
  | waitAck (i c : ℕ)
  | readAck (i c : ℕ) (ok : Bool)
  | checkAck (i c : ℕ) (ok : Bool) (ack : AckResult)
  | checkPending (i c : ℕ) (ok : Bool) (ack : AckResult)
  | waitRsp (i c : ℕ) (ok : Bool) (ack : AckResult)
  | readType (i c : ℕ) (ok : Bool) (ack : AckResult)
  | readSize (i c : ℕ) (ok : Bool) (ack : AckResult) (msgType : ℕ)
  | readResult (i c : ℕ) (ok : Bool) (ack : AckResult) (msgType rspSize : ℕ)
  | stuck
  deriving DecidableEq

/-- Where the handlers of the acknowledgement and of the response of a call are. -/
inductive Handler
  | unsent
  | sent
  /-- `GetMapForTID` has come to slot `i`. -/
  | ackScan (a : Ack) (i : ℕ)
  | ackWrite (a : Ack) (i : ℕ) (writes : List Write)
  | acked (a : Ack)
  | rspScan (a : Ack) (r : Response) (i : ℕ)
  | rspCopy (a : Ack) (r : Response) (i : ℕ)
  | rspWrite (a : Ack) (r : Response) (i : ℕ) (writes : List Write)
  | done (a : Ack) (r : Response)
  deriving DecidableEq

/-- What a wait returns: the acknowledgement, the message type and the size of the response if it
has waited for one, and the result. -/
structure Outcome where
  task : ℕ
  call : ℕ
  ack : AckResult
  response : Option (ℕ × ℕ)
  result : ℕ
  deriving DecidableEq

/-- A call: its task, its id and the size of its buffer. -/
structure Call where
  task : ℕ
  tid : ℕ
  dataLen : ℤ

/-- The state of the synchronous layer. -/
structure Sync where
  currTid : ℕ := 1
  /-- `sTaskRequestMap`. -/
  slots : ℕ → Slot := fun _ ↦ {}
  tasks : ℕ → TaskPc := fun _ ↦ .idle
  /-- The calls that have been made so far, and the handlers of each. -/
  calls : ℕ → Call := fun _ ↦ ⟨0, 0, 0⟩
  nextCall : ℕ := 0
  handlers : ℕ → Handler := fun _ ↦ .unsent
  /-- The response whose data is in the buffer of a call. -/
  copied : ℕ → Option Response := fun _ ↦ none
  /-- What has been returned so far. -/
  returned : List Outcome := []

namespace Sync

/-- `GetMapForCurrentTask`. -/
def getMapForCurrentTask (s : Sync) (t : ℕ) : Option ℕ :=
  (List.range maxTasksNum).find? fun i ↦ (s.slots i).task = some t

/-- `GetNewMapForCurrentTask`, where every task that has a slot is still valid. -/
def getNewMapForCurrentTask (s : Sync) : Option ℕ :=
  (List.range maxTasksNum).find? fun i ↦ (s.slots i).task = none

/-- The writes of `RPC_SyncInitTaskMap` and of the rest of `RPC_SyncCreateTID`. -/
def createWrites (c tid : ℕ) (dataLen : ℤ) : List Write :=
  [.tid 0, .ack .failed, .isResultPending false, .result resultError, .data none, .dataLen 0,
    .rspSize 0, .tid tid, .data (some c), .dataLen dataLen]

/-- The writes of `RPC_SyncHandleAck`. -/
def ackWrites (a : Ack) : List Write :=
  [.ack a.result, .isResultPending a.isResultPending] ++
    if a.result = .success ∧ a.isResultPending = true then [.tid 0] else []

/-- The writes of `RPC_SyncHandleResponse`, for what the callback has made of the response. -/
def rspWrites (r : Response) (copy : ℕ × ℕ) : List Write :=
  [.result copy.2, .tid 0, .msgType r.msgType, .rspSize copy.1]

/-- `++sCurrTID`, without `0`. -/
def nextTid (tid : ℕ) : ℕ := if (tid + 1) % 2 ^ 32 = 0 then 1 else (tid + 1) % 2 ^ 32

/-- A slot is changed. -/
def setSlot (s : Sync) (i : ℕ) (x : Slot) : Sync := { s with slots := update s.slots i x }

/-- A task goes on. -/
def setTask (s : Sync) (t : ℕ) (pc : TaskPc) : Sync :=
  { s with tasks := update s.tasks t pc }

/-- A handler goes on. -/
def setHandler (s : Sync) (c : ℕ) (h : Handler) : Sync :=
  { s with handlers := update s.handlers c h }

/-- The task returns from its wait. -/
def return_ (s : Sync) (t c : ℕ) (ack : AckResult) (response : Option (ℕ × ℕ))
    (result : ℕ) : Sync :=
  { s.setTask t .idle with returned := ⟨t, c, ack, response, result⟩ :: s.returned }

/-- The task takes an id for a call (`RPC_SyncCreateTID`, under `semaTaskReq`). -/
def create (s : Sync) (t : ℕ) (dataLen : ℤ) : Sync :=
  { s.setTask t (.find s.nextCall) with
    currTid := nextTid s.currTid
    calls := update s.calls s.nextCall ⟨t, s.currTid, dataLen⟩
    nextCall := s.nextCall + 1 }

/-- The next access of a task; a wait gets its semaphore. -/
def taskStep (s : Sync) (t : ℕ) : Sync :=
  match s.tasks t with
  | .idle | .stuck => s
  | .find c =>
    match s.getMapForCurrentTask t with
    | some i => s.setTask t (.store i c (createWrites c (s.calls c).tid (s.calls c).dataLen))
    | none => s.setTask t (.newMap c)
  | .newMap c =>
    match s.getNewMapForCurrentTask with
    | some i => (s.setSlot i { s.slots i with task := some t }).setTask t
        (.store i c (.semas :: createWrites c (s.calls c).tid (s.calls c).dataLen))
    | none => s.setTask t .stuck
  | .store i c (w :: writes) => (s.setSlot i ((s.slots i).write w)).setTask t (.store i c writes)
  | .store _ c [] => (s.setTask t (.sent c)).setHandler c .sent
  | .sent c =>
    match s.getMapForCurrentTask t with
    | some i => s.setTask t (.waitAck i c)
    | none => s.setTask t .stuck
  | .waitAck i c =>
    (s.setSlot i { s.slots i with ackSema := (s.slots i).ackSema - 1 }).setTask t
      (.readAck i c true)
  | .readAck i c ok => s.setTask t (.checkAck i c ok (s.slots i).ack)
  | .checkAck i c ok ack =>
    if (s.slots i).ack = .success then s.setTask t (.checkPending i c ok ack)
    else s.return_ t c ack none resultOk
  | .checkPending i c ok ack =>
    if (s.slots i).isResultPending then s.return_ t c ack none resultOk
    else s.setTask t (.waitRsp i c ok ack)
  | .waitRsp i c _ ack =>
    (s.setSlot i { s.slots i with rspSema := (s.slots i).rspSema - 1 }).setTask t
      (.readType i c true ack)
  | .readType i c ok ack => s.setTask t (.readSize i c ok ack (s.slots i).msgType)
  | .readSize i c ok ack msgType => s.setTask t (.readResult i c ok ack msgType (s.slots i).rspSize)
  | .readResult i c _ ack msgType rspSize =>
    s.return_ t c ack (some (msgType, rspSize)) (s.slots i).result

/-- A wait times out. -/
def timeoutStep (s : Sync) (t : ℕ) : Sync :=
  match s.tasks t with
  | .waitAck i c => s.setTask t (.readAck i c false)
  | .waitRsp i c _ ack => s.setTask t (.readType i c false ack)
  | _ => s

/-- Where `GetMapForTID` goes on from slot `i` when the id is not there. -/
def nextSlot (i : ℕ) (h h' : Handler) : Handler := if i + 1 < maxTasksNum then h else h'

/-- The next access of the handler of a call. -/
def handlerStep (copyCb : ℕ → ℕ → ℤ → ℕ × ℕ) (s : Sync) (c : ℕ) : Sync :=
  match s.handlers c with
  | .unsent | .sent | .acked _ | .done _ _ => s
  | .ackScan a i =>
    if (s.slots i).tid = (s.calls c).tid then s.setHandler c (.ackWrite a i (ackWrites a))
    else s.setHandler c (nextSlot i (.ackScan a (i + 1)) (.acked a))
  | .ackWrite a i (w :: writes) =>
    (s.setSlot i ((s.slots i).write w)).setHandler c (.ackWrite a i writes)
  | .ackWrite a i [] =>
    (s.setSlot i { s.slots i with ackSema := (s.slots i).ackSema + 1 }).setHandler c (.acked a)
  | .rspScan a r i =>
    if (s.slots i).tid = (s.calls c).tid then s.setHandler c (.rspCopy a r i)
    else s.setHandler c (nextSlot i (.rspScan a r (i + 1)) (.done a r))
  | .rspCopy a r i =>
    let copied := match (s.slots i).data with
      | some b => update s.copied b (some r)
      | none => s.copied
    { s.setHandler c
      (.rspWrite a r i (rspWrites r (copyCb r.msgType r.payload (s.slots i).dataLen)))
      with copied := copied }
  | .rspWrite a r i (w :: writes) =>
    (s.setSlot i ((s.slots i).write w)).setHandler c (.rspWrite a r i writes)
  | .rspWrite a r i [] =>
    (s.setSlot i { s.slots i with rspSema := (s.slots i).rspSema + 1 }).setHandler c (.done a r)

end Sync

/-- What happens next: a task starts a call or goes on, a wait times out, an acknowledgement or a
response arrives, a handler goes on. -/
inductive SyncOp
  | create (t : ℕ) (dataLen : ℤ)
  | task (t : ℕ)
  | timeout (t : ℕ)
  | ack (c : ℕ) (a : Ack)
  | respond (c : ℕ) (r : Response)
  | deliver (c : ℕ)

/-- One access. -/
def Sync.step (copyCb : ℕ → ℕ → ℤ → ℕ × ℕ) (s : Sync) : SyncOp → Sync
  | .create t dataLen => s.create t dataLen
  | .task t => s.taskStep t
  | .timeout t => s.timeoutStep t
  | .ack c a => s.setHandler c (.ackScan a 0)
  | .respond c r =>
    match s.handlers c with
    | .acked a => s.setHandler c (.rspScan a r 0)
    | _ => s
  | .deliver c => s.handlerStep copyCb c

/-- What can happen: there are `MAX_TASKS_NUM` tasks, a wait goes on when its semaphore is
released and times out only if it is not, and a call is acknowledged once it has been sent, and
answered once it has been acknowledged. -/
def Sync.enabled (s : Sync) : SyncOp → Bool
  | .create t _ => decide (t < maxTasksNum) && decide (s.tasks t = .idle)
  | .task t =>
    match s.tasks t with
    | .idle | .stuck => false
    | .waitAck i _ => 0 < (s.slots i).ackSema
    | .waitRsp i _ _ _ => 0 < (s.slots i).rspSema
    | _ => true
  | .timeout t =>
    match s.tasks t with
    | .waitAck i _ => (s.slots i).ackSema = 0
    | .waitRsp i _ _ _ => (s.slots i).rspSema = 0
    | _ => false
  | .ack c _ => decide (s.handlers c = .sent)
  | .respond c _ =>
    match s.handlers c with
    | .acked _ => true
    | _ => false
  | .deliver c =>
    match s.handlers c with
    | .unsent | .sent | .acked _ | .done _ _ => false
    | _ => true

/-- The tasks and the handlers, interleaved in any way. -/
def syncMachine (copyCb : ℕ → ℕ → ℤ → ℕ × ℕ) : Machine Sync SyncOp where
  guard s op := s.enabled op = true
  exec := Sync.step copyCb

/-- **A successful wait returns what belongs to its call**: the acknowledgement of the call, the
message type of its response, what the callback has made of it, and its data in the buffer of the
call. -/
def Sync.Matched (copyCb : ℕ → ℕ → ℤ → ℕ × ℕ) (s : Sync) (o : Outcome) : Prop :=
  ∃ a r, s.handlers o.call = .done a r ∧ (s.calls o.call).task = o.task ∧ o.ack = a.result ∧
    o.response = some (r.msgType, (copyCb r.msgType r.payload (s.calls o.call).dataLen).1) ∧
    o.result = (copyCb r.msgType r.payload (s.calls o.call).dataLen).2 ∧
    s.copied o.call = some r

end Rpc
