import MerrukKernel.Logger.Delivery

/-!
# Writers side by side

`logger_aio_write` reads the write offset when it is entered and takes the mutex afterwards; a
write that faults sets the write offset back to what it read. So there are two steps to a write,
`sample` and `body`, and between them other calls may run. The other calls are single steps.

Next to the log, a state has the queues on which the same calls are made in the order in which
they get the mutex, and what the calls give back there. In the `settled` runs a write that faults
finds the write offset where it sampled it. Then the log refines the queues as if the calls were
made one at a time, and a failing write takes no entry from a reader that it does not lap. In
other runs a failing write can take the write offset back over entries written in the meantime,
and readers lose them.
-/

namespace Logger

/-- A call of `logger_aio_write` in progress. -/
abbrev WriterId := ℕ

/-- A log that several callers use. -/
structure Shared where
  log : Log
  /-- The write offset sampled by each write that has not got the mutex yet. -/
  sampled : WriterId → Option ℕ
  /-- The calls that have returned, in the order in which they had the mutex. -/
  calls : List Call
  /-- The queues on which the same calls have been made. -/
  queues : Queues
  /-- What they have given back there. -/
  expected : List Output

namespace Shared

inductive Step
  /-- `logger_aio_write` is entered. -/
  | sample (w : WriterId)
  /-- The rest of it, with the mutex. -/
  | body (w : WriterId) (stamp : Stamp) (segs : List Seg)
  /-- Another call, or a write that is not interrupted. -/
  | call (op : Op)

def init (size : ℕ) : Shared where
  log := .init size
  sampled := fun _ ↦ none
  calls := []
  queues := .init size
  expected := []

/-- The rest of a write. -/
def write (s : Shared) (w : WriterId) (stamp : Stamp) (segs : List Seg) : ℤ × Log :=
  s.log.aioWriteBody ((s.sampled w).getD 0) stamp segs

/-- A call has returned. -/
def complete (s : Shared) (op : Op) (r : Output × Log) : Shared :=
  { s with
    log := r.2
    calls := s.calls ++ [(op, r.1)]
    queues := (s.queues.exec op).2
    expected := s.expected ++ [(s.queues.exec op).1] }

def exec (s : Shared) : Step → Shared
  | .sample w => { s with sampled := Function.update s.sampled w (some s.log.wOff) }
  | .body w stamp segs =>
    let r := s.write w stamp segs
    { s.complete (.write stamp segs) (.ret r.1, r.2) with
      sampled := Function.update s.sampled w none }
  | .call op => s.complete op (s.log.exec op)

/-- **All runs.** A call of `logger_aio_write` is entered before it goes on. -/
def machine : Machine Shared Step where
  guard s
    | .sample w => s.sampled w = none
    | .body w _ _ => s.sampled w ≠ none
    | .call _ => True
  exec := exec

/-- **Settled runs.** A write with a segment that cannot be read finds the write offset where it
sampled it. -/
def settled : Machine Shared Step where
  guard s step := machine.guard s step ∧ match step with
    | .body w _ segs =>
      gather segs (Log.payloadLen segs) = none → s.sampled w = some s.log.wOff
    | _ => True
  exec := exec

instance (s : Shared) (step : Step) : Decidable (machine.guard s step) :=
  match step with
  | .sample w => inferInstanceAs (Decidable (s.sampled w = none))
  | .body w _ _ => inferInstanceAs (Decidable (s.sampled w ≠ none))
  | .call _ => inferInstanceAs (Decidable True)

instance (s : Shared) (step : Step) : Decidable (settled.guard s step) :=
  match step with
  | .sample _ => inferInstanceAs (Decidable (_ ∧ True))
  | .body _ _ _ => inferInstanceAs (Decidable (_ ∧ (_ → _)))
  | .call _ => inferInstanceAs (Decidable (_ ∧ True))

/-- The log refines the queues, and so far the calls have given back the same. -/
structure Sound (size : ℕ) (s : Shared) : Prop where
  holds : Holds s.log s.queues
  kept : Kept s.calls s.queues
  outputs : s.calls.map Prod.snd = s.expected
  size_eq : s.queues.size = size

variable {size : ℕ} {s : Shared}

theorem Sound.complete (h : Sound size s) (op : Op) {r : Output × Log}
    (hret : r.1 = (s.queues.exec op).1) (hholds : Holds r.2 (s.queues.exec op).2) :
    Sound size (s.complete op r) where
  holds := hholds
  kept := by
    change Kept (s.calls ++ [(op, r.1)]) _
    rw [hret]
    exact h.kept.exec op
  outputs := by simp [Shared.complete, h.outputs, hret]
  size_eq := (s.queues.size_exec op).trans h.size_eq

variable {segs : List Seg} {stamp : Stamp} {w : WriterId}

theorem Sound.write (h : Sound size s) (hguard : settled.guard s (.body w stamp segs)) :
    (s.write w stamp segs).1 = (s.queues.write stamp segs).1 ∧
      Holds (s.write w stamp segs).2 (s.queues.write stamp segs).2 := by
  refine h.holds.aioWriteBody stamp segs fun hgather ↦ ?_
  rw [hguard.2 hgather, Option.getD_some]

/-- **One step.** -/
theorem Sound.exec (h : Sound size s) {step : Step} (hguard : settled.guard s step) :
    Sound size (s.exec step) := by
  cases step with
  | sample w => exact { h with }
  | body w stamp segs =>
    obtain ⟨hret, hholds⟩ := h.write hguard
    obtain ⟨hholds, hkept, houtputs, hsize⟩ := h.complete (.write stamp segs)
      (r := (.ret (s.write w stamp segs).1, (s.write w stamp segs).2))
      (congrArg Output.ret hret) hholds
    exact ⟨hholds, hkept, houtputs, hsize⟩
  | call op =>
    obtain ⟨hret, hholds⟩ := h.holds.exec op
    exact h.complete op hret hholds

theorem Sound.queue_of_failed (h : Sound size s)
    (hguard : settled.guard s (.body w stamp segs)) (hfail : (s.write w stamp segs).1 < 0)
    {id : ReaderId} {q : List Entry} (hq : s.queues.readers id = some q)
    (hroom : bytes q + (sizeofEntry + Log.payloadLen segs) < size) :
    (s.queues.write stamp segs).2.readers id = some q := by
  rw [(h.write hguard).1] at hfail
  obtain heq | heq | ⟨-, heq⟩ := s.queues.write_cases stamp segs <;> rw [heq] at hfail ⊢
  · exact hq
  · simp [Queues.each, hq, reclaim, h.size_eq, hroom]
  · exact absurd hfail (by simp)

/-- **A failing write takes no entries from other writers.** In every settled run all calls give
back what they give back on the queues; what a reader has not read yet is the end of the list of
entries written successfully; and a write that fails leaves all of it to every reader that it does
not lap. -/
theorem entries_survive_failed_write (hring : IsRing size) {steps : List Step}
    (hrun : settled.Runs (init size) steps s) :
    s.calls.map Prod.snd = s.expected ∧
    (∀ id off, s.log.readers id = some off → ∃ q, s.queues.readers id = some q ∧
      Walk s.log off q ∧ q <:+ accepted s.calls) ∧
    ∀ w stamp segs, settled.guard s (.body w stamp segs) → (s.write w stamp segs).1 < 0 →
      ∀ id off q, s.log.readers id = some off → Walk s.log off q →
        bytes q + (sizeofEntry + Log.payloadLen segs) < size →
        ∃ off', (s.exec (.body w stamp segs)).log.readers id = some off' ∧
          Walk (s.exec (.body w stamp segs)).log off' q := by
  have h : Sound size s := hrun.invariant (fun _ _ h hguard ↦ h.exec hguard)
    ⟨holds_init hring, kept_init size, rfl, rfl⟩
  refine ⟨h.outputs, fun id off hoff ↦ ?_, ?_⟩
  · obtain ⟨q, hq, ht⟩ := h.holds.tracks hoff
    exact ⟨q, hq, ht.walk h.holds.ring, (h.kept.readers id q hq).1⟩
  · intro w stamp segs hguard hfail id off q hoff hwalk hroom
    obtain ⟨q', hq, ht⟩ := h.holds.tracks hoff
    obtain rfl := (ht.walk h.holds.ring).unique hwalk
    obtain ⟨-, hholds⟩ := h.write hguard
    obtain ⟨off', hoff', ht'⟩ := hholds.tracks_of_queue (h.queue_of_failed hguard hfail hq hroom)
    exact ⟨off', hoff', ht'.walk hholds.ring⟩

/-- A write is overtaken by another one, but does not fail; a third one fails undisturbed. -/
theorem entries_survive_failed_write_overtaken :
    let steps : List Step := [.call (.openReader 0 true), .sample 1, .sample 2,
      .body 2 ⟨0, 7, 8, 1, 2⟩ [⟨[104], 1⟩], .body 1 ⟨0, 7, 9, 1, 1⟩ [⟨[105], 1⟩], .sample 3,
      .body 3 ⟨0, 7, 9, 1, 3⟩ [⟨[], 1⟩], .call (.read 0 4096 false), .call (.read 0 4096 false)]
    let s := settled.final (init 8192) steps
    settled.Permitted (init 8192) steps ∧ s.calls.map Prod.snd = s.expected := by
  intro steps s
  have hsteps : settled.Permitted (init 8192) steps := by decide +kernel
  exact ⟨hsteps, (entries_survive_failed_write isRing_8192 hsteps.runs).1⟩

/-- **A failing write can take an entry away.** Two writes are entered; the second succeeds and
then the first fails. The reader finds nothing to read, where there should be the entry that was
written. -/
theorem failed_write_drops_entry :
    let steps : List Step := [.call (.openReader 0 true), .sample 1, .sample 2,
      .body 2 ⟨0, 7, 8, 1, 2⟩ [⟨[104], 1⟩], .body 1 ⟨0, 7, 9, 1, 1⟩ [⟨[], 1⟩],
      .call (.read 0 4096 false)]
    let s := machine.final (init 8192) steps
    machine.Permitted (init 8192) steps ∧ accepted s.calls = [header 1 ⟨0, 7, 8, 1, 2⟩ ++ [104]] ∧
      s.calls.map Prod.snd = [.ret 0, .ret 1, .ret efault, .ret eagain] ∧
      s.expected = [.ret 0, .ret 1, .ret efault, .data (header 1 ⟨0, 7, 8, 1, 2⟩ ++ [104])] := by
  decide +kernel

end Shared

end Logger
