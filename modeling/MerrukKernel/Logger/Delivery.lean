import MerrukKernel.Logger.Refinement

/-!
# What readers obtain

The history of a log is the list of the calls made and of what they gave back. It says which
entries were written successfully (`accepted`), and which of them a reader has obtained since it
was opened (`obtained`). A queue is always a suffix of the accepted entries, and what its reader
has obtained lies in front of it, in order: entries get lost only at the old end of a queue, when
room is reclaimed or the log is flushed.

`Walk log off q` reads the entries between an offset and the write offset out of the ring itself,
by the walk that `get_entry_len` allows.
-/

namespace Logger

open CircularBuffer List Log Queues

/-- A call and what it gave back. -/
abbrev Call := Op × Output

/-- The entry that a write makes of the bytes of its segments. -/
def entryOf (stamp : Stamp) (segs : List Seg) : Entry :=
  let len := Log.payloadLen segs
  header len stamp ++ (segs.flatMap fun seg ↦ seg.base.take seg.len).take len

/-- The entry a call has written. Writes that fail return a negative number, and empty ones zero. -/
def Call.written : Call → List Entry
  | (.write stamp segs, .ret value) => if 0 < value then [entryOf stamp segs] else []
  | _ => []

/-- The entries written successfully. -/
def accepted (calls : List Call) : List Entry := calls.flatMap Call.written

/-- A call's effect on the entries that a reader has obtained since it was opened. -/
def Call.deliver (id : ReaderId) (es : List Entry) : Call → List Entry
  | (.openReader id' _, .ret value) => if id' = id ∧ value = 0 then [] else es
  | (.read id' _ _, .data e) => if id' = id then es ++ [e] else es
  | _ => es

/-- The entries that a reader has obtained since it was opened. -/
def obtained (id : ReaderId) (calls : List Call) : List Entry := calls.foldl (Call.deliver id) []

@[simp] theorem accepted_concat (calls : List Call) (c : Call) :
    accepted (calls ++ [c]) = accepted calls ++ c.written := by
  simp [accepted]

@[simp] theorem obtained_concat (id : ReaderId) (calls : List Call) (c : Call) :
    obtained id (calls ++ [c]) = c.deliver id (obtained id calls) := by
  simp [obtained]

theorem gather_eq {segs : List Seg} {room : ℕ} {payload : List UInt8}
    (h : gather segs room = some payload) :
    payload = (segs.flatMap fun seg ↦ seg.base.take seg.len).take room := by
  induction segs generalizing room payload with
  | nil => simpa [gather, eq_comm] using h
  | cons seg rest ih =>
    simp only [gather] at h
    split_ifs at h with hread
    obtain ⟨tail, htail, rfl⟩ := Option.map_eq_some_iff.1 h
    have hlen : room - (seg.base.take seg.len).length = room - min seg.len room := by
      rw [length_take]
      omega
    rw [ih htail, flatMap_cons, take_append, take_take, hlen, Nat.min_comm room]

/-! ### Queues are suffixes -/

/-- What a history says about the queues it has led to. -/
structure Kept (calls : List Call) (Q : Queues) : Prop where
  head : Q.head <:+ accepted calls
  readers : ∀ id q, Q.readers id = some q →
    q <:+ accepted calls ∧ (obtained id calls ++ q).Sublist (accepted calls)

variable {calls calls' : List Call} {Q : Queues}

theorem kept_init (size : ℕ) : Kept [] (init size) where
  head := nil_suffix
  readers _ _ h := by simp [Queues.init] at h

theorem Kept.congr (h : Kept calls Q) (haccepted : accepted calls' = accepted calls)
    (hobtained : ∀ id, obtained id calls' = obtained id calls) : Kept calls' Q where
  head := haccepted ▸ h.head
  readers id q hq := by
    rw [haccepted, hobtained]
    exact h.readers id q hq

/-- Every queue loses at its old end, and the entries written now join it. -/
theorem Kept.each (h : Kept calls Q) (new : List Entry) {f : List Entry → List Entry}
    (haccepted : accepted calls' = accepted calls ++ new)
    (hobtained : ∀ id, obtained id calls' = obtained id calls)
    (hf : ∀ q, ∃ q', q' <:+ q ∧ f q = q' ++ new) : Kept calls' (Q.each f) where
  head := by
    obtain ⟨q', hq', heq⟩ := hf Q.head
    rw [haccepted]
    change f Q.head <:+ _
    rw [heq]
    exact suffix_append_self_iff.2 (hq'.trans h.head)
  readers id fq hfq := by
    obtain ⟨q, hq, rfl⟩ := Option.map_eq_some_iff.1 hfq
    obtain ⟨q', hq', heq⟩ := hf q
    obtain ⟨hsuffix, hsublist⟩ := h.readers id q hq
    rw [haccepted, hobtained, heq, ← append_assoc]
    exact ⟨suffix_append_self_iff.2 (hq'.trans hsuffix),
      (((hq'.sublist.append_left _).trans hsublist).append_right _)⟩

theorem Kept.update (h : Kept calls Q) (id : ReaderId) {q : Option (List Entry)}
    (haccepted : accepted calls' = accepted calls)
    (hobtained : ∀ id' ≠ id, obtained id' calls' = obtained id' calls)
    (hq : ∀ es ∈ q, es <:+ accepted calls ∧ (obtained id calls' ++ es).Sublist (accepted calls)) :
    Kept calls' { Q with readers := Function.update Q.readers id q } where
  head := haccepted ▸ h.head
  readers x es hes := by
    rw [haccepted]
    rcases eq_or_ne x id with rfl | hne
    · exact hq es (by simpa using hes)
    · grind [h.readers]

theorem Queues.write_cases (Q : Queues) (stamp : Stamp) (segs : List Seg) :
    Q.write stamp segs = (0, Q) ∨
    Q.write stamp segs = (efault, Q.each (reclaim Q.size (sizeofEntry + payloadLen segs))) ∨
    (0 < payloadLen segs ∧ Q.write stamp segs = (↑(payloadLen segs), Q.each fun q ↦
      reclaim Q.size (sizeofEntry + payloadLen segs) q ++ [entryOf stamp segs])) := by
  unfold write entryOf
  dsimp only
  split_ifs with hzero
  · exact .inl rfl
  · cases hgather : gather segs (payloadLen segs) with
    | none => exact .inr (.inl rfl)
    | some payload => grind [each_each, gather_eq]

section

variable (h : Kept calls Q)
include h

theorem Kept.write (stamp : Stamp) (segs : List Seg) :
    Kept (calls ++ [(.write stamp segs, .ret (Q.write stamp segs).1)]) (Q.write stamp segs).2 := by
  have hobtained : ∀ out id,
      obtained id (calls ++ [(Op.write stamp segs, out)]) = obtained id calls := by
    intro out id
    simp [Call.deliver]
  obtain heq | heq | ⟨hpos, heq⟩ := Q.write_cases stamp segs <;> rw [heq]
  · exact h.congr (by simp [Call.written]) (hobtained _)
  · exact h.each [] (by simp [Call.written, efault]) (hobtained _)
      fun q ↦ ⟨_, reclaim_suffix _ _ q, (append_nil _).symm⟩
  · refine h.each [entryOf stamp segs] ?_ (hobtained _)
      fun q ↦ ⟨_, reclaim_suffix _ _ q, rfl⟩
    simp [Call.written, hpos]

theorem Kept.read (id : ReaderId) (count : ℕ) (fault : Bool) :
    Kept (calls ++ [(.read id count fault, (Q.read id count fault).1)])
      (Q.read id count fault).2 := by
  have hret : ∀ v, Kept (calls ++ [(.read id count fault, .ret v)]) Q := fun v ↦
    h.congr (by simp [Call.written]) (by simp [Call.deliver])
  unfold Queues.read
  split
  · exact hret _
  · exact hret _
  · next e q hq =>
    obtain ⟨hsuffix, hsublist⟩ := h.readers id _ hq
    split_ifs
    · exact hret _
    · exact hret _
    · refine h.update id (by simp [Call.written]) (fun id' hne ↦ ?_) ?_
      · simp [Call.deliver, hne.symm]
      · rintro _ ⟨⟩
        exact ⟨(suffix_cons e q).trans hsuffix, by simpa [Call.deliver] using hsublist⟩

theorem Kept.openReader (id : ReaderId) (memory : Bool) :
    Kept (calls ++ [(.openReader id memory, (Q.exec (.openReader id memory)).1)])
      (Q.exec (.openReader id memory)).2 := by
  have hfail : ∀ v ≠ 0, Kept (calls ++ [(.openReader id memory, .ret v)]) Q := fun v hv ↦
    h.congr (by simp [Call.written]) (by simp [Call.deliver, hv])
  simp only [Queues.exec]
  split
  · exact hfail _ (by decide)
  · split_ifs
    · refine h.update id (by simp [Call.written]) (fun id' hne ↦ ?_) ?_
      · simp [Call.deliver, hne.symm]
      · rintro _ ⟨⟩
        exact ⟨h.head, by simpa [Call.deliver] using h.head.sublist⟩
    · exact hfail _ (by decide)

theorem Kept.ioctl (file : File) (cmd : Cmd) :
    Kept (calls ++ [(.ioctl file cmd, (Q.ioctl file cmd).1)]) (Q.ioctl file cmd).2 := by
  have hsame : ∀ out, Kept (calls ++ [(.ioctl file cmd, out)]) Q := fun out ↦
    h.congr (by simp [Call.written]) (by simp [Call.deliver])
  cases cmd with
  | getLogBufSize => exact hsame _
  | getLogLen =>
    simp only [Queues.ioctl]
    split <;> exact hsame _
  | getNextEntryLen =>
    simp only [Queues.ioctl]
    split <;> exact hsame _
  | flushLog =>
    simp only [Queues.ioctl]
    split_ifs
    · exact h.each [] (by simp [Call.written]) (by simp [Call.deliver])
        fun q ↦ ⟨[], nil_suffix, rfl⟩
    · exact hsame _

/-- **One call.** -/
theorem Kept.exec (op : Op) : Kept (calls ++ [(op, (Q.exec op).1)]) (Q.exec op).2 := by
  cases op with
  | openReader id memory => exact h.openReader id memory
  | release id =>
    exact h.update id (by simp [Call.written]) (by simp [Call.deliver]) (by simp)
  | read id count fault => exact h.read id count fault
  | ioctl file cmd => exact h.ioctl file cmd
  | write stamp segs => exact h.write stamp segs

/-- **A sequence of calls.** -/
theorem Kept.run (ops : List Op) : Kept (calls ++ ops.zip (Q.run ops).1) (Q.run ops).2 := by
  induction ops generalizing calls Q with
  | nil => simpa [Queues.run] using h
  | cons op ops ih => simpa [Queues.run] using ih (h.exec op)

end

/-! ### Entry boundaries -/

/-- Going from `off` to the write offset by entry lengths passes the entries `q`. -/
inductive Walk (log : Log) : ℕ → List Entry → Prop
  | here : Walk log log.wOff []
  | step {off : ℕ} {q : List Entry} (hne : off ≠ log.wOff)
      (hrest : Walk log (log.offset (off + log.getEntryLen off)) q) :
      Walk log off (window log.size log.buffer off (log.getEntryLen off) :: q)

theorem Walk.unique {log : Log} {off : ℕ} {q q' : List Entry} (h : Walk log off q)
    (h' : Walk log off q') : q = q' := by
  induction h generalizing q' with
  | here =>
    cases h' with
    | here => rfl
    | step hne => exact absurd rfl hne
  | step hne _ ih =>
    cases h' with
    | here => exact absurd rfl hne
    | step _ hrest => rw [ih hrest]

theorem Tracks.walk {log : Log} {off : ℕ} {q : List Entry} (h : Tracks log off q)
    (hring : IsRing log.size) : Walk log off q := by
  induction q generalizing off with
  | nil =>
    rw [← h.eq_wOff_iff.2 rfl]
    exact .here
  | cons e q ih =>
    have hwindow := h.window_eq
    rw [bytes_cons, window_add] at hwindow
    have hrest := ih (h.tail hring)
    rw [← (append_inj hwindow (by simp)).1, ← h.getEntryLen_eq]
    rw [← h.getEntryLen_eq] at hrest
    exact .step (fun heq ↦ absurd (h.eq_wOff_iff.1 heq.symm) (by simp)) hrest

theorem Queues.size_exec (Q : Queues) (op : Op) : (Q.exec op).2.size = Q.size := by
  cases op with
  | openReader id memory =>
    simp only [exec]
    split
    · rfl
    · split_ifs <;> rfl
  | release id => rfl
  | read id count fault =>
    simp only [exec, read]
    split
    · rfl
    · rfl
    · split_ifs <;> rfl
  | ioctl file cmd =>
    cases cmd with
    | getLogBufSize => rfl
    | getLogLen => simp only [exec, ioctl]; split <;> rfl
    | getNextEntryLen => simp only [exec, ioctl]; split <;> rfl
    | flushLog => simp only [exec, ioctl]; split_ifs <;> rfl
  | write stamp segs =>
    obtain heq | heq | ⟨-, heq⟩ := Q.write_cases stamp segs <;> simp only [exec, heq] <;> rfl

theorem Queues.size_run (Q : Queues) (ops : List Op) : (Q.run ops).2.size = Q.size := by
  induction ops generalizing Q with
  | nil => rfl
  | cons op ops ih => exact (ih _).trans (Q.size_exec op)

/-! ### Entries given up intact -/

theorem payloadLen_single {payload : List UInt8} (hmax : payload.length ≤ entryMaxPayload) :
    payloadLen [⟨payload, payload.length⟩] = payload.length := by
  simpa [payloadLen] using hmax

theorem gather_single (payload : List UInt8) :
    gather [⟨payload, payload.length⟩] payload.length = some payload := by
  simp [gather]

/-- A write of one segment that can be read. -/
theorem Queues.write_single (Q : Queues) (stamp : Stamp) {payload : List UInt8}
    (hpos : payload ≠ []) (hmax : payload.length ≤ entryMaxPayload) :
    Q.write stamp [⟨payload, payload.length⟩] =
      (↑payload.length, Q.each fun q ↦ reclaim Q.size (sizeofEntry + payload.length) q ++
        [header payload.length stamp ++ payload]) := by
  simp only [write, payloadLen_single hmax, gather_single, each_each]
  rw [if_neg (by simpa using hpos)]

section Full

variable {log : Log} {id : ReaderId} {e : Entry} {payload : List UInt8}

/-- An entry is written that together with the one unread entry takes up the whole ring. The bytes
of the unread entry stay as they are. -/
theorem Holds.window_write (h : Holds log Q) (hq : Q.readers id = some [e]) (stamp : Stamp)
    (hpos : payload ≠ []) (hmax : payload.length ≤ entryMaxPayload)
    (hfull : e.length + (sizeofEntry + payload.length) = log.size) :
    ∃ off, log.readers id = some off ∧
      window log.size (log.exec (.write stamp [⟨payload, payload.length⟩])).2.buffer off e.length =
        e := by
  obtain ⟨off, hoff, ht⟩ := h.tracks_of_queue hq
  have hzero : payloadLen [⟨payload, payload.length⟩] ≠ 0 := by
    rw [payloadLen_single hmax]
    simpa using hpos
  have hfills := fills_aioWriteBody log.wOff stamp h.ring ht.wOff_lt hzero
  dsimp only at hfills
  rw [payloadLen_single hmax, gather_single] at hfills
  obtain ⟨-, -, hfill, -⟩ := hfills
  have hreaches : (off + e.length) % log.size = log.wOff % log.size := by
    rw [Nat.mod_eq_of_lt ht.wOff_lt, ← ht.reaches, bytes_cons, bytes_nil, Nat.add_zero]
  have hwindow : window log.size log.buffer off e.length = e := by simpa using ht.window_eq
  refine ⟨off, hoff, (hfill.writes.window_before hreaches ?_).trans hwindow⟩
  rw [length_append]
  exact hfull.le

theorem Queues.run_reads {count : ℕ} (hq : Q.readers id = some [e]) (hcount : e.length ≤ count) :
    (Q.run [.read id count false, .read id count false]).1 = [.data e, .ret eagain] := by
  simp [run, exec, read, hq, not_lt.2 hcount]

/-- Still its reader never obtains it. -/
theorem Holds.run_reads (h : Holds log Q) (hq : Q.readers id = some [e]) (stamp : Stamp)
    (hpos : payload ≠ []) (hmax : payload.length ≤ entryMaxPayload)
    (hfull : e.length + (sizeofEntry + payload.length) = log.size)
    (hlen : sizeofEntry + payload.length ≤ e.length) :
    ((log.exec (.write stamp [⟨payload, payload.length⟩])).2.run
      [.read id entryMaxLen false, .read id entryMaxLen false]).1 =
        [.data (header payload.length stamp ++ payload), .ret eagain] := by
  have hreclaim : reclaim Q.size (sizeofEntry + payload.length) [e] = [] := by
    simp [reclaim, h.size_eq, dropBytes, hlen, hfull]
  have hcount : (header payload.length stamp ++ payload).length ≤ entryMaxLen := by
    rw [length_append, length_header]
    simp only [entryMaxPayload, entryMaxLen, sizeofEntry] at hmax ⊢
    omega
  refine ((h.exec (.write stamp [⟨payload, payload.length⟩])).2.run _).1.trans
    (Queues.run_reads ?_ hcount)
  simp [Queues.exec, Queues.write_single Q stamp hpos hmax, Queues.each, hq, hreclaim]

end Full

/-! ### The refinement -/

/-- **A log refines its queues.** Whatever calls are made one at a time, they give back what the
queues give back. The start of new readers and every read offset lie on an entry boundary, from
which the lengths lead to the write offset in fewer bytes than the ring has. The entries on the
way are the latest ones written successfully, as they were written; and those that the reader has
obtained before are such entries in order, all of them older. -/
theorem Log.run_refines {size : ℕ} (hring : IsRing size) (ops : List Op) :
    let r := (Log.init size).run ops
    let calls := ops.zip r.1
    r.1 = ((Queues.init size).run ops).1 ∧
    (∃ q, Walk r.2 r.2.head q ∧ bytes q < size ∧ q <:+ accepted calls) ∧
    ∀ id off, r.2.readers id = some off → ∃ q, Walk r.2 off q ∧ bytes q < size ∧
      q <:+ accepted calls ∧ (obtained id calls ++ q).Sublist (accepted calls) := by
  obtain ⟨hout, hholds⟩ := (holds_init hring).run ops
  have hkept := (kept_init size).run ops
  have hsize : ((init size).run ops).2.size = size := by
    rw [← hholds.size_eq, size_run]
    rfl
  rw [← hout] at hkept
  have hlt : ∀ off q, Tracks ((init size).run ops).2 off q → bytes q < size := fun _ _ ht ↦
    ht.bytes_lt.trans_eq hsize
  refine ⟨hout, ⟨_, hholds.head.walk hholds.ring, hlt _ _ hholds.head, hkept.head⟩, ?_⟩
  intro id off hoff
  obtain ⟨q, hq, ht⟩ := hholds.tracks hoff
  exact ⟨q, ht.walk hholds.ring, hlt _ _ ht, hkept.readers id q hq⟩

theorem isRing_8192 : IsRing 8192 := ⟨⟨13, rfl⟩, by decide⟩

/-- Two entries, with a write that faults and a read in between. -/
theorem Log.run_refines_three_writes :
    let ops : List Op := [.openReader 0 true, .write ⟨0, 7, 8, 1, 2⟩ [⟨[104], 1⟩, ⟨[105], 1⟩],
      .write ⟨0, 7, 8, 1, 3⟩ [⟨[106], 2⟩], .read 0 4096 false, .write ⟨0, 7, 8, 1, 4⟩ [⟨[107], 1⟩]]
    let r := (Log.init 8192).run ops
    r.1 = ((Queues.init 8192).run ops).1 ∧
      ∃ q, Walk r.2 r.2.head q ∧ bytes q < 8192 ∧ q <:+ accepted (ops.zip r.1) :=
  have h := run_refines isRing_8192 _
  ⟨h.1, h.2.1⟩

/-- Not only what is overwritten gets lost: the reader has two entries to read and obtains the
second one, although the first is still in the ring. -/
theorem Log.intact_entry_lost : let a := List.replicate entryMaxPayload 1
    let b := List.replicate entryMaxPayload 2
    let log := ((Log.init 8192).run
      [.openReader 0 true, .write ⟨0, 7, 8, 1, 2⟩ [⟨a, a.length⟩]]).2
    let log' := (log.exec (.write ⟨0, 7, 8, 1, 3⟩ [⟨b, b.length⟩])).2
    (∃ off, log.readers 0 = some off ∧
      window 8192 log'.buffer off entryMaxLen = header a.length ⟨0, 7, 8, 1, 2⟩ ++ a) ∧
    (log'.run [.read 0 entryMaxLen false, .read 0 entryMaxLen false]).1 =
      [.data (header b.length ⟨0, 7, 8, 1, 3⟩ ++ b), .ret eagain] := by
  intro a b log log'
  have ha : a.length = entryMaxPayload := length_replicate
  have hb : b.length = entryMaxPayload := length_replicate
  have ha' : a ≠ [] := by rw [← length_pos_iff, ha]; decide
  have hb' : b ≠ [] := by rw [← length_pos_iff, hb]; decide
  clear_value a b
  have hholds := ((holds_init isRing_8192).run
    [.openReader 0 true, .write ⟨0, 7, 8, 1, 2⟩ [⟨a, a.length⟩]]).2
  have hq : ((Queues.init 8192).run [.openReader 0 true,
      .write ⟨0, 7, 8, 1, 2⟩ [⟨a, a.length⟩]]).2.readers 0 =
        some [header a.length ⟨0, 7, 8, 1, 2⟩ ++ a] := by
    have hroom : ¬ 8192 ≤ sizeofEntry + a.length := by rw [ha]; decide
    simp [Queues.run, Queues.exec, Queues.write_single _ _ ha' ha.le, Queues.init, Queues.each,
      reclaim, hroom]
  have hlen : (header a.length ⟨0, 7, 8, 1, 2⟩ ++ a).length = entryMaxLen := by
    rw [length_append, ha]
    rfl
  have hsize : log.size = 8192 := by
    rw [← hholds.size_eq, Queues.size_run]
    rfl
  have hfull : (header a.length ⟨0, 7, 8, 1, 2⟩ ++ a).length + (sizeofEntry + b.length) =
      log.size := by
    rw [hlen, hb, hsize]
    rfl
  have hwindow := hholds.window_write hq ⟨0, 7, 8, 1, 3⟩ hb' hb.le hfull
  rw [hlen, hsize] at hwindow
  exact ⟨hwindow, hholds.run_reads hq ⟨0, 7, 8, 1, 3⟩ hb' hb.le hfull (by rw [hlen, hb]; decide)⟩

end Logger
