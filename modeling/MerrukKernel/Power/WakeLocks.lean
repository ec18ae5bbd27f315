import MerrukKernel.Library.Trace
import Mathlib.Algebra.Group.Int.Defs
import Mathlib.Algebra.Group.Nat.Defs

/-!
# Wake locks

`kernel/power/wakelock.c`. A lock that is initialised is on one of three lists: the inactive
locks, and for each type the active ones. A lock that is taken without a timeout goes to the head
of its list, one that is taken with a timeout to its tail, and a lock that has expired is found
out only when its list is scanned (`has_wake_lock_locked`), which happens when a suspend lock is
taken with a timeout, when one is released, and when the timer runs. A scan that finds no lock
left queues the work that suspends the system.

`jiffies` and the expiry times are counted from boot without a bound, and the machine's view of
them is in `timeLeft`: the difference as a 32-bit `long`. The timer is its expiry time while it is
pending. Two fields are not in the source: whether a suspend lock was ever taken, and whether the
work was queued since a suspend lock was taken or given up last.
-/

namespace Power

/-- The types of wake locks. -/
inductive LockType
  | suspend
  | idle
deriving DecidableEq, Repr

/-- `wake_lock`: its flags and its expiry time. -/
structure WakeLock where
  type : LockType
  initialized : Bool
  active : Bool
  autoExpire : Bool
  expires : ℤ

/-- `LONG_MAX` -/
def longMax : ℤ := 2 ^ 31 - 1

/-- The state of `wakelock.c`. -/
structure WakeState where
  inactiveLocks : List ℕ
  activeWakeLocks : LockType → List ℕ
  lock : ℕ → WakeLock
  jiffies : ℤ
  /-- `expire_timer`, while it is pending. -/
  expireTimer : Option ℤ
  /-- A suspend lock was taken at some time. -/
  taken : Bool
  /-- `suspend_work` was queued since a suspend lock was taken or given up last. -/
  queued : Bool

namespace WakeState

variable (s : WakeState)

/-! ### Lists -/

/-- `list_del` -/
def listDel (l : ℕ) : WakeState :=
  { s with
    inactiveLocks := s.inactiveLocks.erase l
    activeWakeLocks := fun type ↦ (s.activeWakeLocks type).erase l
    queued := s.queued && !(s.activeWakeLocks .suspend).contains l }

/-- `list_add` to the inactive locks. -/
def addInactive (l : ℕ) : WakeState := { s with inactiveLocks := l :: s.inactiveLocks }

/-- `list_add` to the active locks of a type. -/
def addHead (type : LockType) (l : ℕ) : WakeState :=
  { s with activeWakeLocks := Function.update s.activeWakeLocks type (l :: s.activeWakeLocks type) }

/-- `list_add_tail` to the active locks of a type. -/
def addTail (type : LockType) (l : ℕ) : WakeState :=
  { s with
    activeWakeLocks :=
      Function.update s.activeWakeLocks type (s.activeWakeLocks type ++ [l]) }

def setLock (l : ℕ) (k : WakeLock) : WakeState := { s with lock := Function.update s.lock l k }

/-! ### Expiry -/

/-- `lock->expires - jiffies`, as a `long`. -/
def timeLeft (l : ℕ) : ℤ := ((s.lock l).expires - s.jiffies).bmod (2 ^ 32)

/-- The lock is given up. -/
def deactivate (l : ℕ) : WakeState :=
  ((s.listDel l).setLock l { s.lock l with active := false, autoExpire := false }).addInactive l

/-- `expire_wake_lock` -/
def expireWakeLock (l : ℕ) : WakeState := s.deactivate l

/-- The loop of `has_wake_lock_locked`, over the rest of the list and from the greatest time that
is left so far. -/
def scan (s : WakeState) : List ℕ → ℤ → ℤ × WakeState
  | [], maxTimeout => (maxTimeout, s)
  | l :: ls, maxTimeout =>
    if (s.lock l).autoExpire then
      if s.timeLeft l ≤ 0 then (s.expireWakeLock l).scan ls maxTimeout
      else if maxTimeout < s.timeLeft l then s.scan ls (s.timeLeft l)
      else s.scan ls maxTimeout
    else (-1, s)

/-- `has_wake_lock_locked`: the time until the last active lock expires, `-1` if one does not
expire. -/
def hasWakeLockLocked (type : LockType) : ℤ × WakeState := s.scan (s.activeWakeLocks type) 0

/-- `queue_work(suspend_work_queue, &suspend_work)` -/
def queueWork : WakeState := { s with queued := true }

/-- What follows a scan: the timer is started for the last expiry, or stopped, and the work is
queued if there is nothing to wait for. -/
def arm (expireIn : ℤ) : WakeState :=
  if 0 < expireIn then { s with expireTimer := some (s.jiffies + expireIn) }
  else if expireIn = 0 then { s with expireTimer := none }.queueWork
  else { s with expireTimer := none }

/-- `expire_wake_locks`, the function of the timer. -/
def expireWakeLocks : WakeState :=
  let r := { s with expireTimer := none }.hasWakeLockLocked .suspend
  if r.1 = 0 then r.2.queueWork else r.2

/-! ### The interface -/

/-- `wake_lock_init` -/
def wakeLockInit (l : ℕ) (type : LockType) : WakeState :=
  (s.setLock l
    { s.lock l with type, initialized := true, active := false, autoExpire := false }).addInactive l

/-- `wake_lock_destroy` -/
def wakeLockDestroy (l : ℕ) : WakeState :=
  (s.setLock l { s.lock l with initialized := false }).listDel l

/-- The lock goes to its place among the active ones. -/
def activate (l : ℕ) (timeout : Option ℤ) : WakeState :=
  let type := (s.lock l).type
  match timeout with
  | some timeout =>
    ((s.listDel l).setLock l { s.lock l with
      active := true, autoExpire := true, expires := s.jiffies + timeout }).addTail type l
  | none =>
    ((s.listDel l).setLock l
      { s.lock l with active := true, autoExpire := false, expires := longMax }).addHead type l

/-- A suspend lock has been taken. -/
def noteTaken : WakeState := { s with taken := true, queued := false }

/-- `wake_lock_internal`, with a timeout or without. -/
def wakeLockInternal (l : ℕ) (timeout : Option ℤ) : WakeState :=
  let s' := s.activate l timeout
  if (s.lock l).type = .suspend then
    let s' := s'.noteTaken
    match timeout with
    | some _ => (s'.hasWakeLockLocked .suspend).2.arm (s'.hasWakeLockLocked .suspend).1
    | none => s'.arm (-1)
  else s'

/-- `wake_lock` -/
def wakeLock (l : ℕ) : WakeState := s.wakeLockInternal l none

/-- `wake_lock_timeout` -/
def wakeLockTimeout (l : ℕ) (timeout : ℤ) : WakeState := s.wakeLockInternal l (some timeout)

/-- `wake_unlock` -/
def wakeUnlock (l : ℕ) : WakeState :=
  let s' := s.deactivate l
  if (s.lock l).type = .suspend then
    (s'.hasWakeLockLocked .suspend).2.arm (s'.hasWakeLockLocked .suspend).1
  else s'

end WakeState

/-- After boot, with every lock of the system still to be initialised. -/
def wakeBoot (lock : ℕ → WakeLock) (jiffies : ℤ) : WakeState where
  inactiveLocks := []
  activeWakeLocks _ := []
  lock l := { lock l with initialized := false }
  jiffies
  expireTimer := none
  taken := false
  queued := false

/-- What happens to the locks. -/
inductive WakeOp
  | init (l : ℕ) (type : LockType)
  | lock (l : ℕ)
  | lockTimeout (l : ℕ) (timeout : ℤ)
  | unlock (l : ℕ)
  | destroy (l : ℕ)
  | tick (n : ℕ)
  /-- The timer, which is due, runs. -/
  | timer
deriving DecidableEq

def WakeState.step (s : WakeState) : WakeOp → WakeState
  | .init l type => s.wakeLockInit l type
  | .lock l => s.wakeLock l
  | .lockTimeout l timeout => s.wakeLockTimeout l timeout
  | .unlock l => s.wakeUnlock l
  | .destroy l => s.wakeLockDestroy l
  | .tick n => { s with jiffies := s.jiffies + n }
  | .timer => s.expireWakeLocks

/-- The users of the locks initialise a lock before they use it and do not initialise it again
before they have destroyed it; a timeout is a `long`; the timer runs when it is due. -/
def wakeMachine : Machine WakeState WakeOp where
  guard s
    | .init l _ => (s.lock l).initialized = false
    | .lock l | .unlock l | .destroy l => (s.lock l).initialized = true
    | .lockTimeout l timeout =>
      (s.lock l).initialized = true ∧ -2 ^ 31 ≤ timeout ∧ timeout < 2 ^ 31
    | .tick _ => True
    | .timer => s.expireTimer.any (· ≤ s.jiffies) = true
  exec := WakeState.step

instance (s : WakeState) (op : WakeOp) : Decidable (wakeMachine.guard s op) :=
  match op with
  | .init .. | .lock .. | .unlock .. | .destroy .. | .timer => inferInstanceAs (Decidable (_ = _))
  | .lockTimeout .. => inferInstanceAs (Decidable (_ ∧ _))
  | .tick .. => inferInstanceAs (Decidable True)

end Power
