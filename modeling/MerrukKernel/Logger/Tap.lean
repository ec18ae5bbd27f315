import MerrukKernel.Logger.Writing

/-!
# The tap for platform logs

Behind its copies `do_write_log_from_user` looks whether the segment starts with `!@`, and if so
copies up to 255 of its bytes to `klog_buf`. The segment has been stored with a wrap at the end of
the ring, and the tap reads it without one. So it is right as long as what it reads is in front of
the end.
-/

namespace Logger

open CircularBuffer List

variable {log : Log} {base : List UInt8} {count : ℕ}

/-- A segment that could be read goes through the tap. -/
theorem doWriteLogFromUser_tap (h : (log.doWriteLogFromUser base count).1 = some count) :
    let log' := (log.doWriteLogFromUser base count).2
    log'.klogBuf = (Log.klogTap log'.buffer log.wOff count).1 ∧
      log'.tapped = (Log.klogTap log'.buffer log.wOff count).2 := by
  simp only [Log.doWriteLogFromUser] at h ⊢
  split_ifs at h ⊢
  exact ⟨rfl, rfl⟩

section

variable {buffer : ℕ → UInt8} {wOff : ℕ}

/-- The tap reads the second byte after a `!`. -/
theorem succ_mem_klogTap (h : buffer wOff = 33) : wOff + 1 ∈ (Log.klogTap buffer wOff count).2 := by
  rw [Log.klogTap, if_pos h]
  split <;> simp

theorem klogTap_of_bytes (h : buffer wOff = 33 ∧ buffer (wOff + 1) = 64) :
    Log.klogTap buffer wOff count =
      (slice buffer wOff (min count 255) ++ replicate (256 - min count 255) 0,
        wOff :: (wOff + 1) :: range' wOff (min count 255)) := by
  rw [Log.klogTap, if_pos h.1, if_pos h.2]

theorem mem_klogTap {j : ℕ} (h : j ∈ (Log.klogTap buffer wOff count).2) :
    j = wOff ∨ (buffer wOff = 33 ∧ j = wOff + 1) ∨
      ((buffer wOff = 33 ∧ buffer (wOff + 1) = 64) ∧ wOff ≤ j ∧ j < wOff + min count 255) := by
  grind [Log.klogTap]

end

section

variable {n : ℕ} {buf buf' : ℕ → UInt8} {r : ℕ} {src : List UInt8}

/-- The first byte after a write. -/
theorem headD_of_writes (h : Writes n buf r src buf') (hr : r < n) :
    buf' r = src.headD (buf r) := by
  cases src with
  | nil => exact h.frame r (by simp)
  | cons x xs =>
    have hhead := congrArg head? h.window_self
    simpa [window, range_succ_eq_map, Nat.mod_eq_of_lt hr] using hhead

/-- What was written, up to the end of the ring. -/
theorem slice_of_writes (h : Writes n buf r src buf') {k : ℕ} (hk : k ≤ src.length)
    (hend : r + k ≤ n) : slice buf' r k = src.take k := by
  rw [slice_eq_window _ hend, ← take_window _ _ hk, h.window_self]

end

/-- **The tap reads inside the ring, and takes what was written,** exactly if the second byte that
it looks at and the bytes that it copies are in front of the end. -/
theorem tap_reads_segment_iff (hring : IsRing log.size) (hoff : log.wOff < log.size)
    (hcount : count ≤ log.size) (hread : count ≤ base.length) :
    let log' := (log.doWriteLogFromUser base count).2
    ((∀ j ∈ log'.tapped, j < log.size) ∧
      ([33, 64] <+: base.take count → log'.klogBuf =
        base.take (min count 255) ++ replicate (256 - min count 255) 0)) ↔
    ((base.take count).headD (log.buffer log.wOff) = 33 → log.wOff + 1 < log.size) ∧
      ([33, 64] <+: base.take count → log.wOff + min count 255 ≤ log.size) := by
  intro log'
  have hfills := fills_doWriteLogFromUser hring hoff base hcount
  rw [if_pos hread] at hfills
  obtain ⟨hret, hfills, -⟩ := hfills
  have hlen : (base.take count).length = count := by simp [hread]
  have hhead := headD_of_writes hfills.writes hoff
  have hslice : ∀ k ≤ count, log.wOff + k ≤ log.size →
      slice log'.buffer log.wOff k = base.take k := by
    intro k hk hend
    rw [slice_of_writes hfills.writes (hk.trans_eq hlen.symm) hend, take_take, Nat.min_eq_left hk]
  -- the first two bytes, if they are in front of the end
  have hstart : 2 ≤ count → log.wOff + 1 < log.size →
      ((log'.buffer log.wOff = 33 ∧ log'.buffer (log.wOff + 1) = 64) ↔
        [33, 64] <+: base.take count) := by
    intro htwo hend
    have hpair : [log'.buffer log.wOff, log'.buffer (log.wOff + 1)] = base.take 2 :=
      hslice 2 htwo hend
    have hmin : min [(33 : UInt8), 64].length count = 2 := Nat.min_eq_left htwo
    rw [prefix_iff_eq_take, take_take, hmin, ← hpair]
    simp [eq_comm]
  have htwo : [33, 64] <+: base.take count → 2 ≤ count := fun h ↦ h.length_le.trans_eq hlen
  have hfirst : [33, 64] <+: base.take count → log'.buffer log.wOff = 33 := by
    rintro ⟨rest, hrest⟩
    rw [hhead, ← hrest]
    rfl
  obtain ⟨hklog, htapped⟩ := doWriteLogFromUser_tap hret
  rw [hklog, htapped, ← hhead]
  constructor
  · rintro ⟨hin, -⟩
    have hsecond : log'.buffer log.wOff = 33 → log.wOff + 1 < log.size :=
      fun h ↦ hin _ (succ_mem_klogTap h)
    refine ⟨hsecond, fun h ↦ ?_⟩
    have hbytes := (hstart (htwo h) (hsecond (hfirst h))).2 h
    have hlast := hin (log.wOff + (min count 255 - 1)) (by
      rw [klogTap_of_bytes hbytes]
      have := htwo h
      simp
      omega)
    have := htwo h
    omega
  · rintro ⟨hsecond, hcopy⟩
    refine ⟨fun j hj ↦ ?_, fun h ↦ ?_⟩
    · rcases mem_klogTap hj with rfl | ⟨hbang, rfl⟩ | ⟨hbytes, hle, hlt⟩
      · exact hoff
      · exact hsecond hbang
      · by_cases hshort : count < 2
        · omega
        · have := hcopy ((hstart (by omega) (hsecond hbytes.1)).1 hbytes)
          omega
    · have hbytes := (hstart (htwo h) (hsecond (hfirst h))).2 h
      rw [klogTap_of_bytes hbytes]
      exact congrArg (· ++ _) (hslice _ (Nat.min_le_left ..) (hcopy h))

theorem tap_reads_segment_hello :
    let log' := ((Log.init 8192).doWriteLogFromUser [33, 64, 104, 105] 3).2
    log'.klogBuf = [33, 64, 104] ++ replicate 253 0 :=
  ((tap_reads_segment_iff ⟨⟨13, rfl⟩, by decide⟩ (by decide) (by decide) (by decide)).2
    ⟨by decide, by decide⟩).2 ⟨[104], rfl⟩

/-- A log of 8192 bytes after two writes, and the header of a third: the next segment begins at
the last byte of the ring. The tap reads its second byte behind the ring, and `klog_buf` has
nothing of it. -/
theorem tap_reads_past_end :
    let stamp : Stamp := ⟨0, 7, 8, 1, 2⟩
    let log := ((Log.init 8192).aioWrite stamp [⟨replicate 4076 0, 4076⟩]).2
    let log := (log.aioWrite stamp [⟨replicate 4055 0, 4055⟩]).2
    let log := (log.fixUpReaders 23).doWriteLog (header 3 stamp)
    let log' := (log.doWriteLogFromUser [33, 64, 104] 3).2
    log.wOff = 8191 ∧ 8192 ∈ log'.tapped ∧ log'.klogBuf = replicate 256 0 := by
  decide +kernel

end Logger
