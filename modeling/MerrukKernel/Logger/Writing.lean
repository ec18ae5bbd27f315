import MerrukKernel.Logger.Ring

/-!
# Writing to the ring

What the copies of `logger_aio_write` do to the ring. They all store bytes from the write offset
on (`Fills`), so a write is one store, of a whole entry if nothing faults and of at most that many
bytes otherwise. Room for the whole entry has been made before; so a store leaves every queue
alone, and a store of an entry that moves the write offset past it appends the entry to every
queue.
-/

namespace Logger

open CircularBuffer List Log

/-- `log'` is `log` with `src` stored from the write offset on; where the write offset goes is left
open. -/
structure Fills (log : Log) (src : List UInt8) (log' : Log) : Prop where
  writes : Writes log.size log.buffer log.wOff src log'.buffer
  size_eq : log'.size = log.size
  head_eq : log'.head = log.head
  readers_eq : log'.readers = log.readers

theorem Fills.nil (log : Log) : Fills log [] log := ⟨.nil _ _, rfl, rfl, rfl⟩

variable {log' : Log} {src : List UInt8}

/-- Where the write offset has followed the first store, two stores are one. -/
theorem Fills.trans {log log'' : Log} {src' : List UInt8} (h : Fills log src log')
    (hoff : log'.wOff = (log.wOff + src.length) % log.size) (h' : Fills log' src' log'')
    (hlen : src.length + src'.length ≤ log.size) : Fills log (src ++ src') log'' where
  writes := by
    have hwrites := h'.writes
    rw [h.size_eq, hoff] at hwrites
    exact h.writes.trans (hwrites.of_modEq (Nat.mod_mod _ _)) hlen
  size_eq := h'.size_eq.trans h.size_eq
  head_eq := h'.head_eq.trans h.head_eq
  readers_eq := h'.readers_eq.trans h.readers_eq

variable {off n : ℕ} {q : List Entry} {segs : List Seg}

/-- A store that leaves the write offset where it is leaves a queue alone. -/
theorem Fills.keeps {log : Log} (h : Fills log src log')
    (hoff : log'.wOff = log.wOff) (hq : Tracks log off q)
    (hroom : bytes q + src.length ≤ log.size) : Tracks log' off q := by
  have hmod : (off + bytes q) % log.size = log.wOff % log.size := by
    rw [hq.reaches, Nat.mod_eq_of_lt hq.wOff_lt]
  obtain ⟨hlt, hwindow, hreaches, hbytes, hentries⟩ := hq
  refine ⟨?_, ?_, ?_, ?_, hentries⟩ <;> rw [h.size_eq]
  · exact hlt
  · rw [h.writes.window_before hmod hroom, hwindow]
  · rw [hoff, hreaches]
  · exact hbytes

/-- A store of an entry that takes the write offset with it appends the entry. -/
theorem Fills.appends {log : Log} {e : Entry} (h : Fills log e log')
    (hoff : log'.wOff = (log.wOff + e.length) % log.size) (he : IsEntry e) (hq : Tracks log off q)
    (hroom : bytes q + e.length < log.size) :
    Tracks log' off (q ++ [e]) := by
  have hmod : (off + bytes q) % log.size = log.wOff % log.size := by
    rw [hq.reaches, Nat.mod_eq_of_lt hq.wOff_lt]
  have hbytes : bytes (q ++ [e]) = bytes q + e.length := by simp
  refine ⟨?_, ?_, ?_, ?_, ?_⟩
  · rw [h.size_eq]
    exact hq.off_lt
  · rw [h.size_eq, hbytes, h.writes.window_append hmod hroom.le, hq.window_eq]
    simp
  · rw [h.size_eq, hoff, hbytes, ← Nat.add_assoc, Nat.add_mod, hmod, ← Nat.add_mod]
  · rw [h.size_eq, hbytes]
    exact hroom
  · intro x hx
    rcases mem_append.1 hx with hx | hx
    · exact hq.entries x hx
    · rw [mem_singleton.1 hx]
      exact he

/-! ### The copies -/

variable {log : Log}

theorem writes_copies (hoff : log.wOff < log.size) (hlen : src.length ≤ log.size) :
    Writes log.size log.buffer log.wOff src
      (store (store log.buffer log.wOff (src.take (min src.length (log.size - log.wOff)))) 0
        (src.drop (min src.length (log.size - log.wOff)))) := by
  have h := writes_store_store log.buffer hoff hlen
  rcases Nat.le_total src.length (log.size - log.wOff) with hle | hge
  · grind
  · rwa [Nat.min_eq_right hge]

theorem fills_doWriteLog (hring : IsRing log.size) (hoff : log.wOff < log.size) {buf : List UInt8}
    (hlen : buf.length ≤ log.size) : Fills log buf (log.doWriteLog buf) ∧
      (log.doWriteLog buf).wOff = (log.wOff + buf.length) % log.size :=
  ⟨⟨writes_copies hoff hlen, rfl, rfl, rfl⟩, offset_eq hring _⟩

theorem copyFromUser_of_le (buffer : ℕ → UInt8) (dst : ℕ) (h : n ≤ src.length) :
    copyFromUser buffer dst src n = (true, store buffer dst (src.take n)) := by
  simp [copyFromUser, h]

theorem copyFromUser_of_lt (buffer : ℕ → UInt8) (dst : ℕ)
    (h : src.length < n) : ∃ stored : List UInt8, stored.length = n ∧
      copyFromUser buffer dst src n = (false, store buffer dst stored) := by
  refine ⟨_, ?_, Prod.ext (decide_eq_false (by omega)) rfl⟩
  simp only [length_append, length_take, length_replicate]
  omega

/-- **`do_write_log_from_user`**: the segment is stored and the write offset moves past it; or it
could not be read, something was stored and the write offset has not moved. -/
theorem fills_doWriteLogFromUser (hring : IsRing log.size) (hoff : log.wOff < log.size)
    (base : List UInt8) {count : ℕ} (hcount : count ≤ log.size) :
    let r := log.doWriteLogFromUser base count
    if count ≤ base.length then r.1 = some count ∧ Fills log (base.take count) r.2 ∧
      r.2.wOff = (log.wOff + count) % log.size
    else r.1 = none ∧ (∃ src, src.length ≤ count ∧ Fills log src r.2) ∧ r.2.wOff = log.wOff := by
  have hr := doWriteLogFromUser.eq_def log base count
  dsimp only at hr
  set len := min count (log.size - log.wOff) with hlen
  rcases Nat.lt_or_ge base.length len with hfault | hfirst
  · obtain ⟨stored, hstored, hcopy⟩ := copyFromUser_of_lt log.buffer log.wOff hfault
    rw [hcopy] at hr
    rw [hr, if_neg (by omega : ¬ count ≤ base.length)]
    exact ⟨rfl, ⟨stored, by omega, writes_store _ (by omega), rfl, rfl, rfl⟩, rfl⟩
  rw [copyFromUser_of_le _ _ hfirst] at hr
  rcases Nat.lt_or_ge base.length count with hfault | hall
  · -- the first copy has reached the end of the ring
    have hrest : (base.drop len).length < count - len := by simp; omega
    obtain ⟨stored, hstored, hcopy⟩ := copyFromUser_of_lt
      (store log.buffer log.wOff (base.take len)) 0 hrest
    have hlen' : (base.take len).length = len := by simp [hfirst]
    rw [hcopy] at hr
    rw [hr, if_neg (by omega : ¬ count ≤ base.length)]
    refine ⟨rfl, ⟨base.take len ++ stored, by simp; omega, ?_, rfl, rfl, rfl⟩, rfl⟩
    exact (writes_store _ (by omega)).wrap (writes_store _ (by omega)) (by omega) (by omega)
  · have htake : (base.take count).length = count := by simp [hall]
    have hwrites := writes_copies hoff (htake.trans_le hcount)
    rw [htake, take_take, Nat.min_eq_left (by omega), drop_take] at hwrites
    rw [copyFromUser_of_le _ _ (by simp; omega)] at hr
    rw [hr, if_pos (by omega : count ≤ base.length)]
    exact ⟨rfl, ⟨hwrites, rfl, rfl, rfl⟩, offset_eq hring _⟩

theorem length_gather {room : ℕ} {payload : List UInt8} (h : gather segs room = some payload) :
    payload.length = min (segs.map Seg.len).sum room := by
  induction segs generalizing room payload with
  | nil =>
    obtain rfl : [] = payload := by simpa [gather] using h
    simp
  | cons seg rest ih =>
    simp only [gather] at h
    split_ifs at h with hread
    obtain ⟨tail, htail, rfl⟩ := Option.map_eq_some_iff.1 h
    simp only [length_append, length_take, ih htail, map_cons, sum_cons]
    omega

/-- **The loop of `logger_aio_write`**: all segments are stored and the write offset moves past
them; or one of them could not be read, at most the room left was stored and the write offset is
`orig`. -/
theorem fills_writeSegs (orig : ℕ) {len ret : ℕ} (segs : List Seg) (hring : IsRing log.size)
    (hoff : log.wOff < log.size) (hret : ret ≤ len) (hroom : len - ret ≤ log.size) :
    let r := writeSegs orig len segs ret log
    match gather segs (len - ret) with
    | some payload => r.1 = (ret + payload.length : ℕ) ∧ Fills log payload r.2 ∧
        r.2.wOff = (log.wOff + payload.length) % log.size
    | none => r.1 = efault ∧ (∃ src, src.length ≤ len - ret ∧ Fills log src r.2) ∧
        r.2.wOff = orig := by
  induction segs generalizing ret log with
  | nil => exact ⟨rfl, .nil log, by simp [writeSegs, Nat.mod_eq_of_lt hoff]⟩
  | cons seg rest ih =>
    set count := min seg.len (len - ret) with hcount
    have hle : count ≤ log.size := by omega
    have hfills := fills_doWriteLogFromUser hring hoff seg.base hle
    simp only [writeSegs, gather]
    rcases hres : log.doWriteLogFromUser seg.base count with ⟨nr, log'⟩
    simp only [hres] at hfills
    split_ifs at hfills with hread
    · obtain ⟨rfl, hfill, hoff'⟩ := hfills
      have htake : (seg.base.take count).length = count := by simp [hread]
      have hlt : log'.wOff < log'.size := by grind [hfill.size_eq, Nat.mod_lt]
      have hrest := ih (hfill.size_eq ▸ hring) hlt (by omega : ret + count ≤ len)
        (by rw [hfill.size_eq]; omega)
      rw [← htake] at hoff'
      rw [← Nat.sub_sub] at hrest
      rw [if_pos hread]
      cases hgather : gather rest (len - ret - count) with
      | none =>
        simp only [hgather] at hrest
        obtain ⟨hefault, ⟨src, hsrc, hfill'⟩, hback⟩ := hrest
        refine ⟨hefault, ⟨_, ?_, hfill.trans hoff' hfill' (by omega)⟩, hback⟩
        rw [length_append]
        omega
      | some tail =>
        simp only [hgather] at hrest
        obtain ⟨hret', hfill', hoff''⟩ := hrest
        have htail := length_gather hgather
        refine ⟨?_, hfill.trans hoff' hfill' (by omega), ?_⟩
        · rw [hret', length_append, htake, Nat.add_assoc]
        · rw [hoff'', hoff', hfill.size_eq, Nat.mod_add_mod, length_append, Nat.add_assoc]
    · obtain ⟨rfl, ⟨src, hsrc, hfill⟩, hoff'⟩ := hfills
      rw [if_neg hread]
      exact ⟨rfl, ⟨src, by omega, hfill.writes, hfill.size_eq, hfill.head_eq, hfill.readers_eq⟩,
        rfl⟩

theorem sizeofEntry_add_payloadLen_le (segs : List Seg) :
    sizeofEntry + payloadLen segs ≤ entryMaxLen := by
  have hmax : payloadLen segs ≤ entryMaxPayload := Nat.min_le_right _ _
  simp only [entryMaxPayload, entryMaxLen, sizeofEntry] at hmax ⊢
  omega

/-- **`logger_aio_write`** makes room and then stores a whole entry and moves the write offset
past it; or it faults, has stored at most as many bytes and takes the write offset to `orig`. -/
theorem fills_aioWriteBody (orig : ℕ) (stamp : Stamp) (hring : IsRing log.size)
    (hoff : log.wOff < log.size) (hpos : payloadLen segs ≠ 0) : let len := payloadLen segs
    let r := log.aioWriteBody orig stamp segs
    match gather segs len with
    | some payload => r.1 = len ∧ payload.length = len ∧
        Fills (log.fixUpReaders (sizeofEntry + len)) (header len stamp ++ payload) r.2 ∧
        r.2.wOff = (log.wOff + (sizeofEntry + len)) % log.size
    | none => r.1 = efault ∧ (∃ src, src.length ≤ sizeofEntry + len ∧
        Fills (log.fixUpReaders (sizeofEntry + len)) src r.2) ∧ r.2.wOff = orig := by
  have hsize := hring.two_mul_le
  have hmax := sizeofEntry_add_payloadLen_le segs
  simp only [aioWriteBody, if_neg hpos]
  set len := payloadLen segs with hlen
  set log₁ := log.fixUpReaders (sizeofEntry + len)
  have hring₁ : IsRing log₁.size := hring
  have hroom : sizeofEntry + len ≤ log₁.size := by
    change _ ≤ log.size
    omega
  -- the header is stored, and behind it what there is of the payload
  have hheader : (header len stamp).length ≤ log₁.size := by rw [length_header]; omega
  obtain ⟨hfill, hoff₂⟩ := fills_doWriteLog hring₁ hoff hheader
  set log₂ := log₁.doWriteLog (header len stamp)
  have hlt : log₂.wOff < log₂.size := by
    rw [hoff₂]
    exact Nat.mod_lt _ (by omega)
  have hsegs := fills_writeSegs orig segs (hfill.size_eq ▸ hring₁) hlt (Nat.zero_le len)
    (by rw [hfill.size_eq]; omega)
  rw [Nat.sub_zero] at hsegs
  cases hgather : gather segs len with
  | none =>
    rw [hgather] at hsegs
    obtain ⟨hret, ⟨src, hsrc, hfill'⟩, hback⟩ := hsegs
    have hlength : (header len stamp ++ src).length ≤ sizeofEntry + len := by
      rw [length_append, length_header]
      omega
    refine ⟨hret, ⟨_, hlength, hfill.trans hoff₂ hfill' ?_⟩, hback⟩
    rw [length_header]
    omega
  | some payload =>
    rw [hgather] at hsegs
    obtain ⟨hret, hfill', hoff'⟩ := hsegs
    have hpayload : payload.length = len := by
      rw [length_gather hgather, hlen, payloadLen]
      omega
    refine ⟨by rw [hret, hpayload, Nat.zero_add], hpayload, hfill.trans hoff₂ hfill' ?_, ?_⟩
    · rw [hpayload]
      exact hroom
    · rw [hoff', hoff₂, hfill.size_eq, Nat.mod_add_mod, hpayload, Nat.add_assoc]
      rfl

end Logger
