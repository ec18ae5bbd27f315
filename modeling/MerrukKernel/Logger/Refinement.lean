import MerrukKernel.Logger.Writing

/-!
# A log refines its queues

`Holds log Q`: every offset of the log tracks the corresponding queue. Each call keeps it and
gives back what the same call on the queues gives back; so any sequence of calls does. For a write
it is enough that the offset sampled on entry is the write offset when the body runs, and that
only if the write faults.
-/

namespace Logger

open CircularBuffer Queues

/-- Every offset of the log tracks its queue. -/
structure Holds (log : Log) (Q : Queues) : Prop where
  ring : IsRing log.size
  size_eq : Q.size = log.size
  head : Tracks log log.head Q.head
  readers : ∀ id, Option.Rel (Tracks log) (log.readers id) (Q.readers id)

variable {off : ℕ} {q : List Entry}

theorem Tracks.congr {log log' : Log} (h : Tracks log off q)
    (hsize : log'.size = log.size) (hbuffer : log'.buffer = log.buffer)
    (hoff : log'.wOff = log.wOff) : Tracks log' off q := by
  obtain ⟨hlt, hwindow, hreaches, hbytes, hentries⟩ := h
  exact ⟨hsize ▸ hlt, by rw [hsize, hbuffer, hwindow], by rw [hsize, hoff, hreaches],
    hsize ▸ hbytes, hentries⟩

variable {log log' : Log} {Q : Queues}

/-- An open reader has a queue. -/
theorem Holds.tracks (h : Holds log Q) {id : ReaderId}
    (hoff : log.readers id = some off) : ∃ q, Q.readers id = some q ∧ Tracks log off q := by
  have hrel := h.readers id
  rw [hoff] at hrel
  generalize Q.readers id = q at hrel
  cases hrel with
  | some ht => exact ⟨_, rfl, ht⟩

theorem Holds.tracks_of_queue (h : Holds log Q) {id : ReaderId}
    (hq : Q.readers id = some q) : ∃ off, log.readers id = some off ∧ Tracks log off q := by
  have hrel := h.readers id
  rw [hq] at hrel
  generalize log.readers id = off at hrel
  cases hrel with
  | some ht => exact ⟨_, rfl, ht⟩

/-- The same change to every offset and to every queue. -/
theorem Holds.each (h : Holds log Q) {f : List Entry → List Entry} {g : ℕ → ℕ}
    (hsize : log'.size = log.size) (hhead : log'.head = g log.head)
    (hreaders : ∀ id, log'.readers id = (log.readers id).map g)
    (htracks : ∀ off q, Tracks log off q → Tracks log' (g off) (f q)) : Holds log' (Q.each f) where
  ring := hsize ▸ h.ring
  size_eq := h.size_eq.trans hsize.symm
  head := hhead ▸ htracks _ _ h.head
  readers id := by
    have hrel := h.readers id
    rw [hreaders]
    change Option.Rel _ _ ((Q.readers id).map f)
    revert hrel
    cases log.readers id <;> cases Q.readers id <;> rintro (hrel | _)
    · exact .none
    · exact .some (htracks _ _ ‹_›)

theorem rel_tracks_congr {off : Option ℕ} {q : Option (List Entry)}
    (h : Option.Rel (Tracks log) off q) (htracks : ∀ off q, Tracks log off q → Tracks log' off q) :
    Option.Rel (Tracks log') off q := by
  cases h with
  | none => exact .none
  | some h => exact .some (htracks _ _ h)

theorem Holds.update (h : Holds log Q) (id : ReaderId) {off : Option ℕ} {q : Option (List Entry)}
    (hrel : Option.Rel (Tracks log) off q) :
    Holds { log with readers := Function.update log.readers id off }
      { Q with readers := Function.update Q.readers id q } where
  ring := h.ring
  size_eq := h.size_eq
  head := h.head.congr rfl rfl rfl
  readers x := by
    have hold : Option.Rel (Tracks log) (Function.update log.readers id off x)
        (Function.update Q.readers id q x) := by
      rcases eq_or_ne x id with rfl | hne
      · simpa using hrel
      · simpa [hne] using h.readers x
    exact rel_tracks_congr hold fun _ _ ht ↦ ht.congr rfl rfl rfl

theorem Queues.each_each (Q : Queues) (f g : List Entry → List Entry) :
    (Q.each f).each g = Q.each fun q ↦ g (f q) := by
  simp [each, Function.comp_def]

/-! ### Writing -/

/-- Room is made at every offset. -/
theorem Tracks.fixUpReaders (h : Tracks log off q)
    (hring : IsRing log.size) {len : ℕ} (hpos : 0 < len) (hlen : len ≤ entryMaxLen) :
    Tracks (log.fixUpReaders len) (log.fixUp len off) (reclaim log.size len q) ∧
      bytes (reclaim log.size len q) + len < log.size :=
  ⟨(h.fixUp hring hpos hlen).congr rfl rfl rfl,
    bytes_reclaim h.bytes_lt ((Nat.mul_le_mul_left 2 hlen).trans hring.two_mul_le)⟩

/-- **`logger_aio_write`** does to the log what a write does to the queues. A write that faults
has to find the write offset where it was when the call was entered. -/
theorem Holds.aioWriteBody (h : Holds log Q) {orig : ℕ} (stamp : Stamp) (segs : List Seg)
    (horig : gather segs (Log.payloadLen segs) = none → orig = log.wOff) :
    (log.aioWriteBody orig stamp segs).1 = (Q.write stamp segs).1 ∧
      Holds (log.aioWriteBody orig stamp segs).2 (Q.write stamp segs).2 := by
  by_cases hzero : Log.payloadLen segs = 0
  · simp only [Log.aioWriteBody, write, if_pos hzero]
    exact ⟨trivial, h⟩
  have hfills := fills_aioWriteBody orig stamp h.ring h.head.wOff_lt hzero
  have hmax := sizeofEntry_add_payloadLen_le segs
  simp only [write, if_neg hzero, h.size_eq]
  dsimp only at hfills
  set len := Log.payloadLen segs
  have hpos : 0 < sizeofEntry + len := by omega
  cases hgather : gather segs len with
  | none =>
    rw [hgather] at hfills
    obtain ⟨hret, ⟨src, hsrc, hfill⟩, hback⟩ := hfills
    refine ⟨hret, h.each hfill.size_eq hfill.head_eq (congrFun hfill.readers_eq) ?_⟩
    intro off q ht
    obtain ⟨ht', hroom⟩ := ht.fixUpReaders h.ring hpos hmax
    exact hfill.keeps (hback.trans (horig hgather)) ht' (by change _ ≤ log.size; omega)
  | some payload =>
    rw [hgather] at hfills
    obtain ⟨hret, hpayload, hfill, hoff⟩ := hfills
    have hlength : (header len stamp ++ payload).length = sizeofEntry + len := by
      rw [List.length_append, length_header, hpayload]
    have hentry : IsEntry (header len stamp ++ payload) :=
      ⟨stamp, payload, hpayload.trans_le (Nat.min_le_right _ _), by rw [hpayload]⟩
    rw [← hlength] at hoff
    simp only [each_each]
    refine ⟨hret, h.each hfill.size_eq hfill.head_eq (congrFun hfill.readers_eq) ?_⟩
    intro off q ht
    obtain ⟨ht', hroom⟩ := ht.fixUpReaders h.ring hpos hmax
    exact hfill.appends hoff hentry ht' (by rw [hlength]; exact hroom)

/-! ### Reading and control -/

/-- What `do_read_log_to_user` copies out is the oldest entry. -/
theorem Tracks.slices_eq {e : Entry} (h : Tracks log off (e :: q)) :
    slice log.buffer off (min e.length (log.size - off)) ++
      slice log.buffer 0 (e.length - min e.length (log.size - off)) = e := by
  have hbytes := h.bytes_lt
  have hwindow := h.window_eq
  rw [bytes_cons] at hbytes hwindow
  rw [slice_append_slice log.buffer h.off_lt (by omega)]
  rw [window_add] at hwindow
  exact (List.append_inj hwindow (by simp)).1

theorem Holds.read (h : Holds log Q) (id : ReaderId) (count : ℕ) (fault : Bool) :
    (log.loggerRead id count fault).1 = (Q.read id count fault).1 ∧
      Holds (log.loggerRead id count fault).2 (Q.read id count fault).2 := by
  have hrel := h.readers id
  unfold Log.loggerRead Queues.read
  generalize log.readers id = off at hrel
  generalize Q.readers id = q at hrel
  cases hrel with
  | none => exact ⟨rfl, h⟩
  | @some off q ht =>
    dsimp only
    cases q with
    | nil =>
      rw [if_pos (ht.eq_wOff_iff.2 rfl)]
      exact ⟨rfl, h⟩
    | cons e q =>
      rw [if_neg (mt ht.eq_wOff_iff.1 (by simp)), ht.getEntryLen_eq]
      dsimp only
      by_cases hcount : count < e.length
      · grind
      rw [if_neg hcount, if_neg hcount]
      cases fault with
      | true => exact ⟨rfl, h⟩
      | false => exact ⟨congrArg Output.data ht.slices_eq, h.update id (.some (ht.tail h.ring))⟩

/-- The write offset tracks the empty queue. -/
theorem Holds.tracks_wOff (h : Holds log Q) : Tracks log log.wOff [] where
  off_lt := h.head.wOff_lt
  window_eq := rfl
  reaches := Nat.mod_eq_of_lt h.head.wOff_lt
  bytes_lt := Nat.zero_lt_of_lt h.head.off_lt
  entries := by simp

theorem Tracks.logLen_eq (h : Tracks log off q) :
    (if off ≤ log.wOff then log.wOff - off else (log.size - off) + log.wOff) = bytes q := by
  have hoff := h.off_lt
  have hbytes := h.bytes_lt
  rcases h.wOff_cases with hcase | hcase <;> split_ifs <;> omega

theorem Tracks.nextEntryLen_eq (h : Tracks log off q) :
    (if log.wOff ≠ off then log.getEntryLen off else 0) = (q.head?.map List.length).getD 0 := by
  cases q with
  | nil => simp [h.eq_wOff_iff.2 rfl]
  | cons e q => simp [h.eq_wOff_iff, h.getEntryLen_eq]

theorem Holds.ioctl (h : Holds log Q) (file : File) (cmd : Cmd) :
    (log.loggerIoctl file cmd).1 = (Q.ioctl file cmd).1 ∧
      Holds (log.loggerIoctl file cmd).2 (Q.ioctl file cmd).2 := by
  have hrel : Option.Rel (Tracks log) (file.reader.bind log.readers)
      (file.reader.bind Q.readers) := by
    cases file.reader with
    | none => exact .none
    | some id => exact h.readers id
  cases cmd with
  | getLogBufSize => exact ⟨by simp [Log.loggerIoctl, Queues.ioctl, h.size_eq], h⟩
  | getLogLen | getNextEntryLen =>
    unfold Log.loggerIoctl Queues.ioctl
    generalize file.reader.bind log.readers = off at hrel
    generalize file.reader.bind Q.readers = q at hrel
    cases hrel with
    | none => exact ⟨rfl, h⟩
    | some ht => exact ⟨by simp only [ht.logLen_eq, ht.nextEntryLen_eq], h⟩
  | flushLog =>
    unfold Log.loggerIoctl Queues.ioctl
    cases file.write with
    | false => exact ⟨rfl, h⟩
    | true =>
      refine ⟨rfl, ?_⟩
      refine h.each ?_ ?_ (fun id ↦ ?_)
        fun _ _ _ ↦ h.tracks_wOff.congr ?_ ?_ ?_ <;> rfl

theorem Holds.openReader (h : Holds log Q) (id : ReaderId) (memory : Bool) :
    (log.loggerOpen id memory).1 = (Q.exec (.openReader id memory)).1 ∧
      Holds (log.loggerOpen id memory).2 (Q.exec (.openReader id memory)).2 := by
  have hrel := h.readers id
  unfold Log.loggerOpen exec
  dsimp only
  generalize log.readers id = off at hrel
  generalize Q.readers id = q at hrel
  cases hrel with
  | some ht => exact ⟨rfl, h⟩
  | none =>
    cases memory with
    | false => exact ⟨rfl, h⟩
    | true => exact ⟨rfl, h.update id (.some h.head)⟩

/-- **One call.** -/
theorem Holds.exec (h : Holds log Q) (op : Op) :
    (log.exec op).1 = (Q.exec op).1 ∧ Holds (log.exec op).2 (Q.exec op).2 := by
  cases op with
  | openReader id memory => exact h.openReader id memory
  | release id => exact ⟨rfl, h.update id .none⟩
  | read id count fault => exact h.read id count fault
  | ioctl file cmd => exact h.ioctl file cmd
  | write stamp segs =>
    obtain ⟨hret, hholds⟩ := h.aioWriteBody stamp segs fun _ ↦ rfl
    exact ⟨congrArg Output.ret hret, hholds⟩

/-- **A sequence of calls.** -/
theorem Holds.run (h : Holds log Q) (ops : List Op) :
    (log.run ops).1 = (Q.run ops).1 ∧ Holds (log.run ops).2 (Q.run ops).2 := by
  induction ops generalizing log Q with
  | nil => exact ⟨rfl, h⟩
  | cons op ops ih =>
    obtain ⟨hout, hholds⟩ := h.exec op
    obtain ⟨houts, hholds'⟩ := ih hholds
    exact ⟨congrArg₂ List.cons hout houts, hholds'⟩

theorem holds_init {size : ℕ} (h : IsRing size) : Holds (Log.init size) (init size) where
  ring := h
  size_eq := rfl
  head :=
    ⟨Nat.zero_lt_of_lt h.gt, rfl, Nat.zero_mod _, Nat.zero_lt_of_lt h.gt, by simp [init]⟩
  readers _ := .none

end Logger
