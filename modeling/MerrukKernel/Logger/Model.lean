import MerrukKernel.Library.CircularBuffer
import MerrukKernel.Library.Trace

/-!
# The Android logger: one log and its readers

`drivers/staging/android/logger.c`. A log is a ring of bytes that holds entries, each a header of
twenty bytes that starts with the length of the payload, and the payload. There is one write
offset; every reader has a read offset, and `head` is where new readers start. Nothing says how
many entries there are: a reader's entries are what lies between its offset and the write offset,
and equal offsets mean that there is none.

`buffer` is memory from the start of the ring on; only the cells below `size` belong to the ring.
Sizes and offsets are naturals, far below the range of `size_t`. A user buffer is the list of the
bytes that can be read from it; copying more than that faults, after the readable bytes have been
copied and the rest of the destination cleared, as `copy_from_user` does.

Every call runs under `log->mutex` but for one read: `logger_aio_write` samples the write offset
before it takes the mutex. The sample is an argument of its body (`aioWriteBody`).

The wait queue and the text printed for tapped entries are left out.
-/

namespace Logger

open CircularBuffer

abbrev ReaderId := ℕ

/-! ### Error numbers -/

def ebadf : ℤ := -9

def eagain : ℤ := -11

def enomem : ℤ := -12

def efault : ℤ := -14

def einval : ℤ := -22

/-! ### Entries -/

/-- `sizeof (struct logger_entry)`. -/
def sizeofEntry : ℕ := 20

/-- `LOGGER_ENTRY_MAX_LEN`. -/
def entryMaxLen : ℕ := 4096

/-- `LOGGER_ENTRY_MAX_PAYLOAD`. -/
def entryMaxPayload : ℕ := entryMaxLen - sizeofEntry

/-- The fields of a header other than its length. The padding is not initialised. -/
structure Stamp where
  pad : UInt16
  pid : UInt32
  tid : UInt32
  sec : UInt32
  nsec : UInt32

/-- Two bytes, the lower one first. -/
def le16 (n : ℕ) : List UInt8 := [.ofNat n, .ofNat (n / 256)]

/-- Four bytes, the lowest one first. -/
def le32 (n : ℕ) : List UInt8 := le16 n ++ le16 (n / 65536)

/-- The bytes of a `struct logger_entry`. -/
def header (len : ℕ) (stamp : Stamp) : List UInt8 :=
  le16 len ++ le16 stamp.pad.toNat ++ le32 stamp.pid.toNat ++ le32 stamp.tid.toNat ++
    le32 stamp.sec.toNat ++ le32 stamp.nsec.toNat

/-- A `struct iovec`: the bytes that can be read at `iov_base`, and `iov_len`. -/
structure Seg where
  base : List UInt8
  len : ℕ

/-! ### The log -/

/-- `struct logger_log`, with its readers' `r_off`, and `klog_buf`. -/
structure Log where
  buffer : ℕ → UInt8
  wOff : ℕ
  head : ℕ
  size : ℕ
  /-- `r_off` of the readers that are open. -/
  readers : ReaderId → Option ℕ
  klogBuf : List UInt8
  /-- The indices at which the last tap has read. -/
  tapped : List ℕ

namespace Log

/-- `DEFINE_LOGGER_DEVICE`. -/
def init (size : ℕ) : Log where
  buffer := fun _ ↦ 0
  wOff := 0
  head := 0
  size := size
  readers := fun _ ↦ none
  klogBuf := List.replicate 256 0
  tapped := []

/-- `logger_offset`. -/
def offset (log : Log) (n : ℕ) : ℕ := n &&& (log.size - 1)

/-- `get_entry_len`: the two bytes of the length may straddle the end of the ring. -/
def getEntryLen (log : Log) (off : ℕ) : ℕ :=
  if log.size - off = 1 then
    sizeofEntry + ((log.buffer off).toNat + 256 * (log.buffer 0).toNat)
  else sizeofEntry + ((log.buffer off).toNat + 256 * (log.buffer (off + 1)).toNat)

/-- The loop of `get_next_entry`. An entry has at least `sizeofEntry` bytes, so there are fewer
passes than bytes to skip. -/
def nextEntryLoop (log : Log) (len : ℕ) : (fuel : ℕ) → (off count : ℕ) → ℕ
  | 0, off, _ => off
  | fuel + 1, off, count =>
    let nr := log.getEntryLen off
    let off := log.offset (off + nr)
    let count := count + nr
    if count < len then nextEntryLoop log len fuel off count else off

/-- `get_next_entry`. -/
def getNextEntry (log : Log) (off len : ℕ) : ℕ := log.nextEntryLoop len (len + 1) off 0

/-- `clock_interval`. -/
def clockInterval (a b c : ℕ) : Bool :=
  if b < a then decide (a < c ∨ c ≤ b) else decide (a < c ∧ c ≤ b)

/-- Where `fix_up_readers` moves an offset that is in the way of the next `len` bytes. -/
def fixUp (log : Log) (len off : ℕ) : ℕ :=
  if clockInterval log.wOff (log.offset (log.wOff + len)) off then log.getNextEntry off len else off

/-- `fix_up_readers`. -/
def fixUpReaders (log : Log) (len : ℕ) : Log :=
  { log with
    head := log.fixUp len log.head
    readers := fun id ↦ (log.readers id).map (log.fixUp len) }

/-! ### Writing -/

/-- `do_write_log`. -/
def doWriteLog (log : Log) (buf : List UInt8) : Log :=
  let len := min buf.length (log.size - log.wOff)
  let buffer := store log.buffer log.wOff (buf.take len)
  { log with
    buffer := store buffer 0 (buf.drop len)
    wOff := log.offset (log.wOff + buf.length) }

/-- `copy_from_user`: whether all bytes could be read, and memory afterwards. -/
def copyFromUser (buffer : ℕ → UInt8) (dst : ℕ) (src : List UInt8) (n : ℕ) : Bool × (ℕ → UInt8) :=
  (decide (n ≤ src.length), store buffer dst (src.take n ++ List.replicate (n - src.length) 0))

/-- The tap in `do_write_log_from_user`: entries that start with `!@` are copied to `klog_buf`. It
reads from the write offset on without wrapping; `strncmp` goes on to the second byte if the first
one is right. What is in `klog_buf` then, and where it has read. -/
def klogTap (buffer : ℕ → UInt8) (wOff count : ℕ) : List UInt8 × List ℕ :=
  if buffer wOff = 33 then
    if buffer (wOff + 1) = 64 then
      (slice buffer wOff (min count 255) ++ List.replicate (256 - min count 255) 0,
        wOff :: (wOff + 1) :: List.range' wOff (min count 255))
    else (List.replicate 256 0, [wOff, wOff + 1])
  else (List.replicate 256 0, [wOff])

/-- `do_write_log_from_user`; `none` is `-EFAULT`. The conditions on the two copies in the source
only skip copies of no bytes. -/
def doWriteLogFromUser (log : Log) (base : List UInt8) (count : ℕ) : Option ℕ × Log :=
  let len := min count (log.size - log.wOff)
  let first := copyFromUser log.buffer log.wOff base len
  if first.1 = false then (none, { log with buffer := first.2 })
  else
    let second := copyFromUser first.2 0 (base.drop len) (count - len)
    if second.1 = false then (none, { log with buffer := second.2 })
    else (some count, { log with
      buffer := second.2
      klogBuf := (klogTap second.2 log.wOff count).1
      tapped := (klogTap second.2 log.wOff count).2
      wOff := log.offset (log.wOff + count) })

/-- The loop of `logger_aio_write` over the segments; a fault takes the write offset back to
`orig`. -/
def writeSegs (orig len : ℕ) : List Seg → (ret : ℕ) → Log → ℤ × Log
  | [], ret, log => (ret, log)
  | seg :: rest, ret, log =>
    match log.doWriteLogFromUser seg.base (min seg.len (len - ret)) with
    | (none, log) => (efault, { log with wOff := orig })
    | (some nr, log) => writeSegs orig len rest (ret + nr) log

/-- `header.len`: `ki_left` is what the segments add up to. -/
def payloadLen (segs : List Seg) : ℕ := min (segs.map Seg.len).sum entryMaxPayload

/-- `logger_aio_write` from `mutex_lock` on, with the write offset sampled on entry. -/
def aioWriteBody (log : Log) (orig : ℕ) (stamp : Stamp) (segs : List Seg) : ℤ × Log :=
  let len := payloadLen segs
  if len = 0 then (0, log)
  else
    let log := log.fixUpReaders (sizeofEntry + len)
    let log := log.doWriteLog (header len stamp)
    writeSegs orig len segs 0 log

/-- `logger_aio_write`, without anything in between. -/
def aioWrite (log : Log) (stamp : Stamp) (segs : List Seg) : ℤ × Log :=
  log.aioWriteBody log.wOff stamp segs

end Log

/-! ### Reading and control -/

/-- What a call gives back: a return value, or the bytes of an entry (and their number). -/
inductive Output
  | ret (value : ℤ)
  | data (bytes : List UInt8)
  deriving DecidableEq

/-- The commands of `logger_ioctl`. -/
inductive Cmd
  | getLogBufSize
  | getLogLen
  | getNextEntryLen
  | flushLog

/-- A `struct file`: its reader if it is open for reading, and whether it is open for writing. -/
structure File where
  reader : Option ReaderId
  write : Bool

namespace Log

/-- `logger_open` for reading; an identifier in use is not handed out again. -/
def loggerOpen (log : Log) (id : ReaderId) (memory : Bool) : Output × Log :=
  match log.readers id with
  | some _ => (.ret ebadf, log)
  | none =>
    if memory then (.ret 0, { log with readers := Function.update log.readers id (some log.head) })
    else (.ret enomem, log)

/-- `logger_release`. -/
def loggerRelease (log : Log) (id : ReaderId) : Output × Log :=
  (.ret 0, { log with readers := Function.update log.readers id none })

/-- `do_read_log_to_user`; `fault` is the outcome of `copy_to_user`. -/
def doReadLogToUser (log : Log) (id : ReaderId) (rOff count : ℕ) (fault : Bool) : Output × Log :=
  let len := min count (log.size - rOff)
  if fault then (.ret efault, log)
  else (.data (slice log.buffer rOff len ++ slice log.buffer 0 (count - len)),
    { log with readers := Function.update log.readers id (some (log.offset (rOff + count))) })

/-- `logger_read` on a file that does not block. -/
def loggerRead (log : Log) (id : ReaderId) (count : ℕ) (fault : Bool) : Output × Log :=
  match log.readers id with
  | none => (.ret ebadf, log)
  | some rOff =>
    if log.wOff = rOff then (.ret eagain, log)
    else
      let len := log.getEntryLen rOff
      if count < len then (.ret einval, log) else log.doReadLogToUser id rOff len fault

/-- `logger_ioctl`. -/
def loggerIoctl (log : Log) (file : File) : Cmd → Output × Log
  | .getLogBufSize => (.ret log.size, log)
  | .getLogLen =>
    match file.reader.bind log.readers with
    | none => (.ret ebadf, log)
    | some rOff =>
      (.ret ((if rOff ≤ log.wOff then log.wOff - rOff else (log.size - rOff) + log.wOff : ℕ) : ℤ),
        log)
  | .getNextEntryLen =>
    match file.reader.bind log.readers with
    | none => (.ret ebadf, log)
    | some rOff =>
      (.ret ((if log.wOff ≠ rOff then log.getEntryLen rOff else 0 : ℕ) : ℤ), log)
  | .flushLog =>
    if file.write then
      (.ret 0, { log with
        readers := fun id ↦ (log.readers id).map fun _ ↦ log.wOff
        head := log.wOff })
    else (.ret ebadf, log)

end Log

/-- The calls. -/
inductive Op
  | openReader (id : ReaderId) (memory : Bool)
  | release (id : ReaderId)
  | read (id : ReaderId) (count : ℕ) (fault : Bool)
  | ioctl (file : File) (cmd : Cmd)
  | write (stamp : Stamp) (segs : List Seg)

/-- A call, made while no other is going on. -/
def Log.exec (log : Log) : Op → Output × Log
  | .openReader id memory => log.loggerOpen id memory
  | .release id => log.loggerRelease id
  | .read id count fault => log.loggerRead id count fault
  | .ioctl file cmd => log.loggerIoctl file cmd
  | .write stamp segs => (.ret (log.aioWrite stamp segs).1, (log.aioWrite stamp segs).2)

/-- The outputs of a sequence of calls, and the log they leave. -/
def Log.run (log : Log) : List Op → List Output × Log
  | [] => ([], log)
  | op :: ops => ((log.exec op).1 :: ((log.exec op).2.run ops).1, ((log.exec op).2.run ops).2)

end Logger
