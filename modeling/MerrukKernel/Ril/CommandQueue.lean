import Mathlib.Data.List.Basic

/-!
# The command queue of the RIL driver

`KRIL_CommandThread` walks through `gKrilCmdQueue` and hands the commands on. It holds the mutex of
the queue while it steps from one entry to the next one and releases it while it works on an entry.
A command that has to wait is skipped by a `continue` inside the part where the mutex is released.
-/

namespace Ril

open List

/-- The queue, as the thread leaves it: its entries, whether the thread holds the mutex, and whether
it has kept to it: links were read and edited, and the mutex was released, by the holder only. -/
structure CmdQueue (κ : Type*) where
  list : List κ
  held : Bool
  disciplined : Bool

namespace CmdQueue

variable {κ : Type*} (q : CmdQueue κ)

/-- `mutex_lock` -/
def mutexLock : CmdQueue κ := { q with held := true, disciplined := q.disciplined && !q.held }

/-- `mutex_unlock` -/
def mutexUnlock : CmdQueue κ := { q with held := false, disciplined := q.disciplined && q.held }

/-- A link of the queue is read. -/
def readLink : CmdQueue κ := { q with disciplined := q.disciplined && q.held }

/-- `KRIL_DEBUG` of a link of the queue, if the arguments of messages of its level are evaluated. -/
def debug (evaluated : Bool) : CmdQueue κ := if evaluated then q.readLink else q

variable [DecidableEq κ]

/-- `list_del` -/
def listDel (entry : κ) : CmdQueue κ :=
  { q with list := q.list.erase entry, disciplined := q.disciplined && q.held }

variable (trace info : Bool) (isNeedToWait : κ → Bool)

/-- The body of the loop for one entry. -/
def handle (entry : κ) : CmdQueue κ :=
  let q := (q.debug trace).mutexUnlock
  if isNeedToWait entry then q else ((q.debug info).mutexLock).listDel entry

/-- The body and the step to the next entry, which was looked up before the body, and now the link
behind it is read. -/
def turn (entry : κ) : CmdQueue κ := (q.handle trace info isNeedToWait entry).readLink

/-- The loop of `KRIL_CommandThread` from an entry on. -/
def commandLoop : List κ → CmdQueue κ → CmdQueue κ
  | [], q => q
  | entry :: entries, q => commandLoop entries (q.turn trace info isNeedToWait entry)

/-- `KRIL_CommandThread`, where `trace` and `info` say whether the arguments of the messages of that
level are evaluated, and `isNeedToWait` is the answer for each entry. -/
def krilCommandThread : CmdQueue κ :=
  (commandLoop trace info isNeedToWait q.list q.mutexLock.readLink.readLink).mutexUnlock

/-- An entry keeps the thread to the mutex unless it has to wait or its end is reported. -/
theorem disciplined_turn (entry : κ) :
    ((q.turn trace info isNeedToWait entry).disciplined &&
      (q.turn trace info isNeedToWait entry).held) =
      (q.disciplined && q.held && !(info || isNeedToWait entry)) := by
  cases trace <;> cases info <;> cases h : isNeedToWait entry <;>
    simp [turn, handle, debug, readLink, mutexUnlock, mutexLock, listDel, h]

theorem list_turn (entry : κ) : (q.turn trace info isNeedToWait entry).list =
    if isNeedToWait entry then q.list else q.list.erase entry := by
  cases trace <;> cases info <;> cases h : isNeedToWait entry <;>
    simp [turn, handle, debug, readLink, mutexUnlock, mutexLock, listDel, h]

variable {q trace info isNeedToWait}

/-- **The mutex over a whole run.** -/
theorem disciplined_commandLoop (entries : List κ) :
    (commandLoop trace info isNeedToWait entries q).mutexUnlock.disciplined =
      (q.disciplined && q.held && entries.all fun entry ↦ !(info || isNeedToWait entry)) := by
  induction entries generalizing q with
  | nil => exact (Bool.and_true _).symm
  | cons entry entries ih =>
    rw [commandLoop, ih, all_cons, ← Bool.and_assoc, disciplined_turn]

/-- **The queue over a whole run**: what has to wait stays where it is. -/
theorem list_commandLoop {kept entries : List κ} (hkept : ∀ entry ∈ kept, isNeedToWait entry = true)
    (hq : q.list = kept ++ entries) :
    (commandLoop trace info isNeedToWait entries q).list = kept ++ entries.filter isNeedToWait := by
  induction entries generalizing q kept with
  | nil => exact hq
  | cons entry entries ih =>
    have hlist := list_turn q trace info isNeedToWait entry
    rw [hq] at hlist
    cases hwait : isNeedToWait entry with
    | true =>
      rw [if_pos hwait, append_cons] at hlist
      rw [commandLoop, ih (by grind) hlist, filter_cons_of_pos hwait, ← append_cons]
    | false =>
      have hmem : entry ∉ kept := fun hin ↦ by grind
      rw [if_neg (by simp [hwait]), erase_append_right _ hmem, erase_cons_head] at hlist
      rw [commandLoop, ih hkept hlist, filter_cons_of_neg (by simp [hwait])]

end CmdQueue

open CmdQueue

variable {κ : Type*} [DecidableEq κ]

/-- **When the thread keeps to the mutex of the queue**: exactly when no entry has to wait and, if
there is an entry, its end is not reported. It returns without the mutex, and what has to wait stays
queued in its order. -/
theorem command_thread_disciplined_iff (entries : List κ) (trace info : Bool)
    (isNeedToWait : κ → Bool) :
    let q := krilCommandThread ⟨entries, false, true⟩ trace info isNeedToWait
    (q.disciplined = true ↔ ∀ entry ∈ entries, info = false ∧ isNeedToWait entry = false) ∧
      q.held = false ∧ q.list = entries.filter isNeedToWait := by
  refine ⟨?_, rfl, list_commandLoop (fun _ h ↦ absurd h not_mem_nil) rfl⟩
  rw [krilCommandThread, disciplined_commandLoop]
  simp [readLink, mutexLock]

/-- Two commands have to wait: the links are read without the mutex, which is released twice. -/
theorem waiting_breaks_discipline :
    (krilCommandThread ⟨[1, 2], false, true⟩ false false fun _ ↦ true).disciplined = false ∧
      ((⟨[1, 2], true, true⟩ : CmdQueue ℕ).handle false false (fun _ ↦ true) 1).held = false := by
  decide

end Ril
