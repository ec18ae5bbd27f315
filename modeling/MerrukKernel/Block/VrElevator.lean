import MerrukKernel.Library.Cursor
import MerrukKernel.Library.Trace
import Mathlib.Order.Fin.Basic
import Mathlib.Algebra.Group.Nat.Defs

/-!
# The V(R) elevator

`vr-iosched.c`. The queued requests stand in a tree, ordered by their first sector, and in one of
two fifos, for the asynchronous and the synchronous requests, ordered by arrival. The head stands
at `last_sector`; two cursors into the tree, `next_rq` and `prev_rq`, are kept on either side of
it, and the nearer of the two is dispatched unless a request in a fifo has expired.

A request is a number; its sector, its class and its deadline are tables of the state, since the
block layer changes them while the request is queued. The tree is its traversal, a list in the
order of the tree, with the insertion of `Library.Cursor` and the neighbours of `Library.Tiling`. A
`BUG_ON` sets a flag, and the rest of the function is executed.

`jiffies` and the deadlines are the 32-bit words of the machine, compared by the sign of their
difference.
-/

namespace Block

open Function

/-- A sector of a disk. -/
abbrev Sector := Fin (2 ^ 64)

/-- `vr_data_dir`: the class of a request. -/
inductive DataDir
  | async
  | sync
deriving DecidableEq, Repr

/-- `vr_head_dir`: the direction in which the head has moved. -/
inductive HeadDir
  | forward
  | backward
deriving DecidableEq, Repr

/-- The ticks of a second. -/
def hz : ℕ := 128

def syncExpire : BitVec 32 := BitVec.ofNat 32 (hz / 2)

def asyncExpire : BitVec 32 := BitVec.ofNat 32 (5 * hz)

/-- `time_after`. -/
def timeAfter (a b : BitVec 32) : Bool := (b - a).msb

/-- `time_before`. -/
def timeBefore (a b : BitVec 32) : Bool := timeAfter b a

/-- `vr_data`, with the fields of the requests that the elevator reads. -/
structure VrData where
  /-- The requests in the tree, from left to right. -/
  sortList : List ℕ
  fifoList : DataDir → List ℕ
  nextRq : Option ℕ
  prevRq : Option ℕ
  nbatched : BitVec 32
  lastSector : Sector
  headDir : HeadDir
  fifoExpire : DataDir → BitVec 32
  fifoBatch : BitVec 32
  revPenalty : ℕ
  pos : ℕ → Sector
  /-- `rq_is_sync` -/
  dir : ℕ → DataDir
  fifoTime : ℕ → BitVec 32
  dispatched : List ℕ
  bug : Bool

namespace VrData

variable (d : VrData)

def bugOn (c : Bool) : VrData := { d with bug := d.bug || c }

/-- `vd->next_rq && vd->next_rq == vd->prev_rq`, and what `vr_choose_request` tests with the
cursors the other way round. -/
def sameCursors : Bool := d.nextRq.isSome && d.nextRq == d.prevRq

/-- `vd->next_rq && vd->prev_rq && blk_rq_pos(vd->next_rq) < blk_rq_pos(vd->prev_rq)` -/
def crossedCursors : Bool :=
  match d.nextRq, d.prevRq with
  | some next, some prev => d.pos next < d.pos prev
  | _, _ => false

/-! ### Removal -/

/-- `rq_fifo_clear` -/
def rqFifoClear (rq : ℕ) : VrData :=
  { d with fifoList := fun dir ↦ (d.fifoList dir).erase rq }

/-- A cursor leaves the request that is about to be deleted. -/
def leave (rq : ℕ) : VrData :=
  if d.nextRq = some rq then { d with nextRq := Tiling.next? d.sortList rq }
  else if d.prevRq = some rq then { d with prevRq := Tiling.prev? d.sortList rq }
  else d

/-- `vr_del_rq_rb` -/
def vrDelRqRb (rq : ℕ) : VrData :=
  let d := d.leave rq
  let d := d.bugOn d.sameCursors
  let d := d.bugOn d.crossedCursors
  { d with sortList := d.sortList.erase rq }

/-- `vr_remove_request` -/
def vrRemoveRequest (rq : ℕ) : VrData := (d.rqFifoClear rq).vrDelRqRb rq

/-- The head moves to a request, and the cursors to its neighbours. -/
def seek (rq : ℕ) : VrData :=
  { d with
    headDir := if d.lastSector < d.pos rq then .forward else .backward
    lastSector := d.pos rq
    nextRq := Tiling.next? d.sortList rq
    prevRq := Tiling.prev? d.sortList rq }

/-- `vr_move_request`: the request goes to the dispatch queue. -/
def vrMoveRequest (rq : ℕ) : VrData :=
  let d := d.seek rq
  let d := d.bugOn d.sameCursors
  let d := d.vrRemoveRequest rq
  { d with dispatched := d.dispatched ++ [rq], nbatched := d.nbatched + 1 }

/-! ### Insertion -/

/-- `elv_rb_add`: the request at the same sector, or the tree with the new request. -/
def elvRbAdd (rq : ℕ) : ℕ ⊕ List ℕ := Cursor.insert? d.pos rq d.sortList

/-- A request has entered the tree, and a cursor may move to it. -/
def aim (rq : ℕ) : VrData :=
  if d.lastSector ≤ d.pos rq then
    if d.nextRq.all fun next ↦ d.pos rq < d.pos next then { d with nextRq := some rq } else d
  else if d.prevRq.all fun prev ↦ d.pos prev < d.pos rq then { d with prevRq := some rq }
  else d

/-- The request enters the tree. A request at the same sector is dispatched first. -/
def enter (rq : ℕ) : VrData :=
  match d.elvRbAdd rq with
  | .inr sortList => { d with sortList }
  | .inl twin =>
    let d := d.vrMoveRequest twin
    match d.elvRbAdd rq with
    | .inr sortList => { d with sortList }
    | .inl _ => d.bugOn true

/-- `vr_add_rq_rb` -/
def vrAddRqRb (rq : ℕ) : VrData :=
  let d := d.enter rq
  let d := d.aim rq
  let d := d.bugOn d.sameCursors
  d.bugOn d.crossedCursors

/-- `vr_add_request` -/
def vrAddRequest (rq : ℕ) (jiffies : BitVec 32) : VrData :=
  let dir := d.dir rq
  let d := d.vrAddRqRb rq
  if d.fifoExpire dir = 0 then d
  else
    { d with
      fifoTime := update d.fifoTime rq (jiffies + d.fifoExpire dir)
      fifoList := update d.fifoList dir (d.fifoList dir ++ [rq]) }

/-! ### Merging -/

/-- `vr_merged_request` for a front merge; for any other merge it does nothing. -/
def vrMergedRequest (req : ℕ) : VrData := (d.vrDelRqRb req).vrAddRqRb req

/-- The request is on a fifo. -/
def onFifo (rq : ℕ) : Bool := (d.fifoList .async).contains rq || (d.fifoList .sync).contains rq

/-- `list_move(&rq->queuelist, &next->queuelist)` -/
def listMove (rq next : ℕ) : VrData :=
  { d with fifoList := fun dir ↦ Tiling.insertAfter next rq ((d.fifoList dir).erase rq) }

/-- `vr_merged_requests`: `next` is absorbed by `rq`, which takes its place in the fifo if it
expires earlier. -/
def vrMergedRequests (rq next : ℕ) : VrData :=
  let d :=
    if d.onFifo rq && d.onFifo next && timeBefore (d.fifoTime next) (d.fifoTime rq) then
      let d := d.listMove rq next
      { d with fifoTime := update d.fifoTime rq (d.fifoTime next) }
    else d
  d.vrRemoveRequest next

/-! ### Dispatch -/

/-- `vr_expired_request`: the first request of a fifo, if it has expired. -/
def vrExpiredRequest (jiffies : BitVec 32) (dir : DataDir) : Option ℕ :=
  (d.fifoList dir).head?.filter fun rq ↦ timeAfter jiffies (d.fifoTime rq)

/-- `vr_check_fifo` -/
def vrCheckFifo (jiffies : BitVec 32) : Option ℕ :=
  match d.vrExpiredRequest jiffies .sync, d.vrExpiredRequest jiffies .async with
  | some rqSync, some rqAsync =>
    if timeAfter (d.fifoTime rqAsync) (d.fifoTime rqSync) then some rqSync else some rqAsync
  | some rqSync, none => some rqSync
  | none, rqAsync => rqAsync

/-- The one of two requests on either side of the head with the lower penalty. `do_div` leaves the
quotient in its argument and returns the remainder, which is what the penalty becomes. -/
def lowerPenalty (next prev : ℕ) : ℕ :=
  let penalty := if d.revPenalty = 0 then 2 ^ 31 - 1 else d.revPenalty
  let nextPen := (d.pos next - d.lastSector).val
  let prevPen := (d.lastSector - d.pos prev).val
  let nextPen' := if d.headDir = .forward then nextPen % penalty else nextPen
  let prevPen' := if d.headDir = .forward then prevPen else prevPen % penalty
  if nextPen' ≤ prevPen' then next else prev

/-- `vr_choose_request`, after its `BUG_ON`. -/
def vrChooseRequest : Option ℕ :=
  match d.nextRq, d.prevRq with
  | next, none => next
  | none, some prev => some prev
  | some next, some prev => some (d.lowerPenalty next prev)

/-- The end of `vr_dispatch_requests`: `vr_choose_request`, with its `BUG_ON`, and the move of
what it has chosen. -/
def dispatchChosen : VrData :=
  let d := d.bugOn d.sameCursors
  match d.vrChooseRequest with
  | some rq => d.vrMoveRequest rq
  | none => d

/-- `vr_dispatch_requests`: after a batch, a request that has expired; else the one that is
chosen. -/
def vrDispatchRequests (jiffies : BitVec 32) : VrData :=
  if d.fifoBatch < d.nbatched then
    let d := { d with nbatched := 0 }
    match d.vrCheckFifo jiffies with
    | some rq => d.vrMoveRequest rq
    | none => d.dispatchChosen
  else d.dispatchChosen

end VrData

/-- `vr_init_queue`: an empty queue. The tables of the requests are arbitrary. -/
def vrInitQueue (pos : ℕ → Sector) (dir : ℕ → DataDir) (fifoTime : ℕ → BitVec 32) : VrData where
  sortList := []
  fifoList _ := []
  nextRq := none
  prevRq := none
  nbatched := 0
  lastSector := 0
  headDir := .forward
  fifoExpire
    | .sync => syncExpire
    | .async => asyncExpire
  fifoBatch := 1
  revPenalty := 10
  pos
  dir
  fifoTime
  dispatched := []
  bug := false

/-! ### The queue in use -/

/-- A call of the elevator by the block layer. -/
inductive VrOp
  /-- A request for a sector is added. -/
  | add (rq : ℕ) (pos : Sector) (dir : DataDir) (jiffies : BitVec 32)
  /-- A bio has been added in front of a queued request, which now starts at another sector. -/
  | frontMerge (rq : ℕ) (pos : Sector)
  /-- A queued request has absorbed another one, behind it. -/
  | mergeRequests (rq next : ℕ)
  | dispatch (jiffies : BitVec 32)
  | remove (rq : ℕ)
deriving DecidableEq

/-- The block layer sets the sector of a request. -/
def VrData.setPos (d : VrData) (rq : ℕ) (pos : Sector) : VrData :=
  { d with pos := update d.pos rq pos }

/-- The block layer sets the class of a request. -/
def VrData.setDir (d : VrData) (rq : ℕ) (dir : DataDir) : VrData :=
  { d with dir := update d.dir rq dir }

/-- One call. -/
def VrData.step (d : VrData) : VrOp → VrData
  | .add rq pos dir jiffies => ((d.setPos rq pos).setDir rq dir).vrAddRequest rq jiffies
  | .frontMerge rq pos => (d.setPos rq pos).vrMergedRequest rq
  | .mergeRequests rq next => d.vrMergedRequests rq next
  | .dispatch jiffies => d.vrDispatchRequests jiffies
  | .remove rq => d.vrRemoveRequest rq

/-- The elevator, with the requests that it was given and those that were taken back from it. -/
structure VrQueue where
  data : VrData
  added : List ℕ
  withdrawn : List ℕ

def VrQueue.step (q : VrQueue) (op : VrOp) : VrQueue where
  data := q.data.step op
  added := match op with
    | .add rq _ _ _ => rq :: q.added
    | _ => q.added
  withdrawn := match op with
    | .mergeRequests _ rq | .remove rq => rq :: q.withdrawn
    | _ => q.withdrawn

/-- What the block layer keeps to: a request is added when it is not queued, and merged or removed
when it is. -/
def vrMachine : Machine VrQueue VrOp where
  guard q
    | .add rq _ _ _ => rq ∉ q.data.sortList
    | .frontMerge rq _ => rq ∈ q.data.sortList
    | .mergeRequests rq next => rq ∈ q.data.sortList ∧ next ∈ q.data.sortList ∧ rq ≠ next
    | .dispatch _ => True
    | .remove rq => rq ∈ q.data.sortList
  exec := VrQueue.step

instance (q : VrQueue) (op : VrOp) : Decidable (vrMachine.guard q op) :=
  match op with
  | .add .. => inferInstanceAs (Decidable (_ ∉ _))
  | .frontMerge .. | .remove .. => inferInstanceAs (Decidable (_ ∈ _))
  | .mergeRequests .. => inferInstanceAs (Decidable (_ ∧ _))
  | .dispatch .. => inferInstanceAs (Decidable True)

end Block
