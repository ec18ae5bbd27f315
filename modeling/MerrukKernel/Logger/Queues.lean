import MerrukKernel.Logger.Model

/-!
# A log as queues of entries

What a log is for: every reader has a queue of entries, and so has the reader that would be opened
next. A write appends its entry to every queue; to make room for its `n` bytes, a queue that with
them would take up the whole ring first loses its oldest entries, as few as make up `n` bytes. The
room is made before the entry is copied, so a write that faults makes it as well.

A queue may lose an entry that the write does not touch: a ring that is exactly full could not be
told from an empty one.
-/

namespace Logger

/-- The bytes of an entry, header and payload. -/
abbrev Entry := List UInt8

/-- The number of bytes in a queue. -/
def bytes (q : List Entry) : ℕ := q.flatten.length

@[simp] theorem bytes_nil : bytes [] = 0 := rfl

@[simp] theorem bytes_cons (e : Entry) (q : List Entry) : bytes (e :: q) = e.length + bytes q := by
  simp [bytes]

@[simp] theorem bytes_append (q q' : List Entry) : bytes (q ++ q') = bytes q + bytes q' := by
  simp [bytes]

/-- Drop the oldest entries, as few as make up `n` bytes. -/
def dropBytes (n : ℕ) : List Entry → List Entry
  | [] => []
  | e :: q => if n ≤ e.length then q else dropBytes (n - e.length) q

/-- Make room for `n` bytes in a ring of the given size. -/
def reclaim (size n : ℕ) (q : List Entry) : List Entry :=
  if size ≤ bytes q + n then dropBytes n q else q

/-- The payload of the segments, up to `room` bytes; `none` if one of them cannot be read. -/
def gather : List Seg → (room : ℕ) → Option (List UInt8)
  | [], _ => some []
  | seg :: rest, room =>
    let len := min seg.len room
    if len ≤ seg.base.length then (gather rest (room - len)).map (seg.base.take len ++ ·) else none

/-- The queues of a log. -/
structure Queues where
  size : ℕ
  /-- The entries a new reader starts with. -/
  head : List Entry
  readers : ReaderId → Option (List Entry)

namespace Queues

/-- A new log. -/
def init (size : ℕ) : Queues := ⟨size, [], fun _ ↦ none⟩

/-- The same change to every queue. -/
def each (Q : Queues) (f : List Entry → List Entry) : Queues :=
  { Q with head := f Q.head, readers := fun id ↦ (Q.readers id).map f }

/-- A write. -/
def write (Q : Queues) (stamp : Stamp) (segs : List Seg) : ℤ × Queues :=
  let len := Log.payloadLen segs
  if len = 0 then (0, Q)
  else
    let Q := Q.each (reclaim Q.size (sizeofEntry + len))
    match gather segs len with
    | none => (efault, Q)
    | some payload => (len, Q.each (· ++ [header len stamp ++ payload]))

/-- A read takes the oldest entry, whole. -/
def read (Q : Queues) (id : ReaderId) (count : ℕ) (fault : Bool) : Output × Queues :=
  match Q.readers id with
  | none => (.ret ebadf, Q)
  | some [] => (.ret eagain, Q)
  | some (e :: q) =>
    if count < e.length then (.ret einval, Q)
    else if fault then (.ret efault, Q)
    else (.data e, { Q with readers := Function.update Q.readers id (some q) })

/-- The control calls. -/
def ioctl (Q : Queues) (file : File) : Cmd → Output × Queues
  | .getLogBufSize => (.ret Q.size, Q)
  | .getLogLen =>
    match file.reader.bind Q.readers with
    | none => (.ret ebadf, Q)
    | some q => (.ret (bytes q), Q)
  | .getNextEntryLen =>
    match file.reader.bind Q.readers with
    | none => (.ret ebadf, Q)
    | some q => (.ret ((q.head?.map List.length).getD 0 : ℕ), Q)
  | .flushLog => if file.write then (.ret 0, Q.each fun _ ↦ []) else (.ret ebadf, Q)

/-- A call on the queues. -/
def exec (Q : Queues) : Op → Output × Queues
  | .openReader id memory =>
    match Q.readers id with
    | some _ => (.ret ebadf, Q)
    | none =>
      if memory then (.ret 0, { Q with readers := Function.update Q.readers id (some Q.head) })
      else (.ret enomem, Q)
  | .release id => (.ret 0, { Q with readers := Function.update Q.readers id none })
  | .read id count fault => Q.read id count fault
  | .ioctl file cmd => Q.ioctl file cmd
  | .write stamp segs => (.ret (Q.write stamp segs).1, (Q.write stamp segs).2)

/-- The outputs of a sequence of calls, and the queues they leave. -/
def run (Q : Queues) : List Op → List Output × Queues
  | [] => ([], Q)
  | op :: ops => ((Q.exec op).1 :: ((Q.exec op).2.run ops).1, ((Q.exec op).2.run ops).2)

end Queues

/-! ### Room -/

theorem bytes_dropBytes {n : ℕ} {q : List Entry} (h : n ≤ bytes q) :
    bytes (dropBytes n q) + n ≤ bytes q := by
  induction q generalizing n with
  | nil => simpa [dropBytes] using h
  | cons e q ih =>
    rw [bytes_cons] at h ⊢
    rw [dropBytes]
    split_ifs with hle
    · omega
    · grind

/-- After reclaiming, an entry of `n` bytes fits with a cell to spare. -/
theorem bytes_reclaim {size n : ℕ} {q : List Entry} (hq : bytes q < size) (hn : 2 * n ≤ size) :
    bytes (reclaim size n q) + n < size := by
  unfold reclaim
  split_ifs with hfull
  · have := bytes_dropBytes (n := n) (q := q) (by omega)
    omega
  · omega

theorem dropBytes_suffix (n : ℕ) (q : List Entry) : dropBytes n q <:+ q := by
  induction q generalizing n with
  | nil => exact List.suffix_rfl
  | cons e q ih =>
    rw [dropBytes]
    split_ifs
    · exact List.suffix_cons e q
    · exact (ih _).trans (List.suffix_cons e q)

theorem reclaim_suffix (size n : ℕ) (q : List Entry) : reclaim size n q <:+ q := by
  unfold reclaim
  split_ifs
  · exact dropBytes_suffix n q
  · exact List.suffix_rfl

end Logger
