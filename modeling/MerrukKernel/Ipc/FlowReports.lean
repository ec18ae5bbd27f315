import Mathlib.Data.List.Chain
import MerrukKernel.Ipc.FlowControl

/-!
# Flow control: the reports

Every change of the flow control state is to be reported to the callback of the source endpoint,
once and in order. The change is made in a critical region and reported outside of it, so contexts
hand the duty to report to one another through `FlowControlCallPending`: the context that sets the
flag reports, going round its loop until the state it reported last is the state it finds; every
other context that changes the state meanwhile leaves the report to it.

The model interleaves any number of contexts. A context is a program counter (`Ctx`) in
`IPC_AllocateBuffer` or `IPC_BufferReturnToPool`, and one step runs one critical region or one
unprotected read. On this build the callback runs inside the region that also compares the state.

The duty is an invariant (`Duty`): the flag is up exactly when one context owes a report, and what
it owes differs from what was reported last. One path is outside of it. The *last ditch check* at
the end of `IPC_BufferReturnToPool` decides on a stale count and calls the reporting function
without holding the flag. Reports alternate in every run in which that call finds nothing to do.
-/

namespace Ipc

open Function List BufferPool

/-- Where a context goes on when its report is made. -/
inductive After
  /-- `IPC_AllocateBuffer` returns the buffer. -/
  | allocated
  /-- `IPC_BufferReturnToPool` goes on to its last ditch check, with its `BufferCount`. -/
  | returned (count : U32)
  /-- The last ditch check was the caller, and the call is over. -/
  | retried
  deriving DecidableEq

/-- The program counter of a context. -/
inductive Ctx
  | idle
  /-- About to enter the first critical region of `IPC_ReportFlowControlEvent`. -/
  | enter (event : FlowCtrlEvent) (after : After)
  /-- About to make the next pass of its loop. -/
  | loop (reported : FlowCtrlEvent) (after : After)
  /-- About to read `FlowControlState` for the last ditch check. -/
  | readState (count : U32)
  /-- About to read `FlowControlCallPending` for it. -/
  | readPending (count : U32)
  deriving DecidableEq

/-- The next program counter after a report. -/
def After.resume : After → Ctx
  | .allocated => .idle
  | .returned count => .readState count
  | .retried => .idle

/-- Shared memory, the contexts, the buffers that are out, and what the callback was told so far. -/
structure Contexts where
  sm : Sm
  ctx : ℕ → Ctx
  out : List SmPtr
  events : List FlowCtrlEvent

/-- One step of one context. -/
inductive ContextOp
  /-- An idle context calls `IPC_AllocateBuffer` and runs its critical region. -/
  | allocate (i : ℕ)
  /-- An idle context calls `IPC_BufferReturnToPool` and runs its critical region. -/
  | giveBack (i : ℕ) (buffer : SmPtr)
  /-- A context in a call takes its next step. -/
  | step (i : ℕ)

namespace Contexts

variable (pool : SmPtr)

/-- The pool record. -/
def record (s : Contexts) : BufferPool := s.sm.pools pool

/-- Move a context on. -/
def setCtx (s : Contexts) (i : ℕ) (c : Ctx) : Contexts :=
  { s with ctx := update s.ctx i c }

/-- The next step of a context in a call. -/
def stepCtx (s : Contexts) (i : ℕ) : Contexts :=
  let p := s.record pool
  match s.ctx i with
  | .idle => s
  | .enter event after =>
    if (s.sm.endpoints p.sourceEndpointId).flowControlFunction = 0 ∨ event ≠ p.flowControlState then
      { s with sm := s.sm.setPool pool { p with flowControlCallPending := false } }.setCtx i
        after.resume
    else s.setCtx i (.loop event after)
  | .loop reported after =>
    let r := reportPass p reported
    { s with sm := s.sm.setPool pool r.1, events := s.events ++ [reported] }.setCtx i
      (match r.2 with
        | none => after.resume
        | some next => .loop next after)
  | .readState count =>
    s.setCtx i (if p.flowControlState = .stop then .readPending count else .idle)
  | .readPending count =>
    s.setCtx i (if ¬ p.flowControlCallPending ∧ p.flowStartLimit < count then .enter .start .retried
      else .idle)

/-- What a step does. -/
def exec (s : Contexts) : ContextOp → Contexts
  | .allocate i =>
    let r := allocateRegion s.sm pool
    if r.qElement = 0 then { s with sm := r.sm }
    else { s with sm := r.sm, out := s.out ++ [r.qElement] }.setCtx i
      (if r.flowControlCallNeeded then .enter .stop .allocated else .idle)
  | .giveBack i buffer =>
    let r := returnRegion s.sm buffer pool
    { s with sm := r.sm, out := s.out.erase buffer }.setCtx i
      (if r.flowControlCallNeeded then .enter .start (.returned r.bufferCount)
        else .readState r.bufferCount)
  | .step i => s.stepCtx pool i

/-- When a step may be taken: calls start in idle contexts, and what is returned is out. -/
def guard (s : Contexts) : ContextOp → Prop
  | .allocate i => s.ctx i = .idle
  | .giveBack i buffer => s.ctx i = .idle ∧ buffer ∈ s.out
  | .step i => s.ctx i ≠ .idle

/-- A call of the last ditch check has nothing to do: when it enters its critical region the state
is not `start`, and no report is pending. -/
def Idle (s : Contexts) : ContextOp → Prop
  | .step i => ∀ event, s.ctx i = .enter event .retried →
      event ≠ (s.record pool).flowControlState ∧ (s.record pool).flowControlCallPending = false
  | _ => True

instance {P : FlowCtrlEvent → Prop} [DecidablePred P] : Decidable (∀ event, P event) :=
  decidable_of_iff (P .start ∧ P .stop)
    ⟨fun h event ↦ match event with | .start => h.1 | .stop => h.2, fun h ↦ ⟨h _, h _⟩⟩

/-- Any number of contexts in any interleaving. -/
def machine : Machine Contexts ContextOp := ⟨guard, exec pool⟩

/-- The interleavings in which no last ditch check finds anything to do. -/
def quiet : Machine Contexts ContextOp := ⟨fun s op ↦ guard s op ∧ s.Idle pool op, exec pool⟩

instance (s : Contexts) : ∀ op, Decidable ((machine pool).guard s op)
  | .allocate i => inferInstanceAs (Decidable (s.ctx i = .idle))
  | .giveBack i b => inferInstanceAs (Decidable (s.ctx i = .idle ∧ b ∈ s.out))
  | .step i => inferInstanceAs (Decidable (s.ctx i ≠ .idle))

instance (s : Contexts) : ∀ op, Decidable ((quiet pool).guard s op)
  | .allocate i => inferInstanceAs (Decidable (s.ctx i = .idle ∧ True))
  | .giveBack i b => inferInstanceAs (Decidable ((s.ctx i = .idle ∧ b ∈ s.out) ∧ True))
  | .step i => inferInstanceAs (Decidable (s.ctx i ≠ .idle ∧ ∀ _, _ → _ ∧ _))

end Contexts

/-! ### Who owes a report -/

/-- What a context owes the callback. The calls of the last ditch check are not counted: they hold
no flag. -/
def Ctx.owes : Ctx → Option FlowCtrlEvent
  | .enter _ .retried => none
  | .enter event _ => some event
  | .loop reported _ => some reported
  | .idle | .readState _ | .readPending _ => none

@[simp] theorem After.owes_resume (after : After) : after.resume.owes = none := by
  cases after <;> rfl

/-- The last event reported; at the start that is `start`. -/
def lastReported (events : List FlowCtrlEvent) : FlowCtrlEvent := events.getLastD .start

@[simp] theorem lastReported_append (events : List FlowCtrlEvent) (event : FlowCtrlEvent) :
    lastReported (events ++ [event]) = event := by
  simp [lastReported]

/-- With two events, differing from the same one means being equal. -/
theorem FlowCtrlEvent.eq_of_ne {a b c : FlowCtrlEvent} (hab : a ≠ b) (hac : a ≠ c) : b = c := by
  cases a <;> cases b <;> cases c <;> simp_all

/-- Reports alternate, beginning with `stop`. -/
def Alternates (events : List FlowCtrlEvent) : Prop :=
  (FlowCtrlEvent.start :: events).IsChain (· ≠ ·)

variable {event : FlowCtrlEvent} {events : List FlowCtrlEvent} {needed : Bool} {i : ℕ}

theorem Alternates.append (h : Alternates events) (hne : event ≠ lastReported events) :
    Alternates (events ++ [event]) := by
  unfold Alternates at h ⊢
  refine h.append (by simp) fun x hx y hy ↦ ?_
  have hy' : event = y := by simpa using hy
  have hx' : lastReported events = x := by
    cases events with
    | nil => simpa [lastReported] using hx
    | cons a as => simpa [lastReported, List.getLast?_eq_some_getLast] using hx
  rw [← hx', ← hy']
  exact hne.symm

/-- **The duty to report.** While the flag is down nobody owes a report and the last one was right;
while it is up exactly one context owes a report, of something else than the last one. -/
def Duty (p : BufferPool) (ctx : ℕ → Ctx) (last : FlowCtrlEvent) : Prop :=
  if p.flowControlCallPending then
    ∃ i event, (ctx i).owes = some event ∧ event ≠ last ∧ ∀ j ≠ i, (ctx j).owes = none
  else (∀ i, (ctx i).owes = none) ∧ last = p.flowControlState

namespace Duty

variable {p q : BufferPool} {ctx : ℕ → Ctx} {last : FlowCtrlEvent} {i : ℕ} {c : Ctx}

theorem of_pending (hp : p.flowControlCallPending = true) : Duty p ctx last ↔
      ∃ i event, (ctx i).owes = some event ∧ event ≠ last ∧ ∀ j ≠ i, (ctx j).owes = none := by
  simp [Duty, hp]

theorem of_not_pending (hp : p.flowControlCallPending = false) :
    Duty p ctx last ↔ (∀ i, (ctx i).owes = none) ∧ last = p.flowControlState := by
  simp [Duty, hp]

/-- A context moves on without its debt changing. -/
theorem setCtx (h : Duty p ctx last) (hc : c.owes = (ctx i).owes) :
    Duty p (update ctx i c) last := by
  have howes : ∀ j, (update ctx i c j).owes = (ctx j).owes := by grind
  unfold Duty at h ⊢
  simpa only [howes] using h

theorem owner (h : Duty p ctx last) (hi : (ctx i).owes = some event) :
    p.flowControlCallPending = true ∧ event ≠ last ∧ ∀ j ≠ i, (ctx j).owes = none := by
  cases hp : p.flowControlCallPending with
  | false => grind [of_not_pending]
  | true => grind [of_pending]

end Duty

/-- What a critical region that moves the free count does to flow control, with its
`FlowControlCallNeeded`: it raises the flag for a change of state to `event`, or it leaves the flag
alone, and then it changes the state only under somebody else's flag. -/
inductive FlowEdge (p q : BufferPool) (event : FlowCtrlEvent) : Bool → Prop
  | kept : q.flowControlCallPending = p.flowControlCallPending →
      (q.flowControlState = p.flowControlState ∨ p.flowControlCallPending = true) →
      FlowEdge p q event false
  | raised : p.flowControlCallPending = false → q.flowControlCallPending = true →
      p.flowControlState ≠ event → FlowEdge p q event true

theorem FlowEdge.congr {p p' q : BufferPool} (h : FlowEdge p q event needed)
    (hpending : p'.flowControlCallPending = p.flowControlCallPending)
    (hstate : p'.flowControlState = p.flowControlState) : FlowEdge p' q event needed := by
  cases h with
  | kept h1 h2 => exact .kept (h1.trans hpending.symm) (by rwa [hstate, hpending])
  | raised h1 h2 h3 => exact .raised (hpending.trans h1) h2 (hstate ▸ h3)

theorem flowEdge_checkFlowState (p : BufferPool) (event : FlowCtrlEvent) :
    FlowEdge p (checkFlowState p event).1 event (checkFlowState p event).2 := by
  unfold checkFlowState
  split
  · rename_i hne
    cases hp : p.flowControlCallPending with
    | true => exact .kept (by simp [hp]) (.inr hp)
    | false => exact .raised hp rfl hne
  · exact .kept rfl (.inl rfl)

theorem flowEdge_take (p : BufferPool) : FlowEdge p p.take.1 .stop p.take.2 := by
  simp only [BufferPool.take]
  split
  · exact (flowEdge_checkFlowState { p with freeBuffers := p.freeBuffers - 1 } .stop).congr rfl rfl
  · exact .kept rfl (.inl rfl)

theorem flowEdge_put (p : BufferPool) : FlowEdge p p.put.1 .start p.put.2 := by
  simp only [put]
  split
  · exact (flowEdge_checkFlowState { p with freeBuffers := p.freeBuffers + 1 } .start).congr rfl rfl
  · exact .kept rfl (.inl rfl)

/-- A region that raises the flag makes its context the one that owes a report. -/
theorem Duty.region {p q : BufferPool} {ctx : ℕ → Ctx} {last : FlowCtrlEvent}
    {c : Ctx} (h : Duty p ctx last) (hedge : FlowEdge p q event needed)
    (hi : (ctx i).owes = none) (hc : c.owes = if needed then some event else none) :
    Duty q (update ctx i c) last := by
  cases hedge with
  | kept hpending hstate =>
    have hset : Duty p (update ctx i c) last := h.setCtx (by rw [hc, hi]; rfl)
    cases hp : p.flowControlCallPending with
    | true => exact (of_pending (hpending.trans hp)).2 ((of_pending hp).1 hset)
    | false => grind [of_not_pending]
  | raised hdown hup hne =>
    obtain ⟨howes, hlast⟩ := (of_not_pending hdown).1 h
    refine (of_pending hup).2 ⟨i, event, ?_, ?_, fun j hj ↦ ?_⟩
    · rw [update_self, hc, if_pos rfl]
    · rw [hlast]
      exact hne.symm
    · rw [update_of_ne hj]
      exact howes j

/-! ### The invariant -/

namespace Contexts

/-- The invariant of the interleavings. -/
structure Inv (pool : SmPtr) (bufs : List SmPtr) (s : Contexts) : Prop where
  free : ∃ xs, PoolInv s.sm pool bufs xs ∧ ∀ b ∈ s.out, b ∈ bufs ∧ b ∉ xs
  nodup : s.out.Nodup
  callback : (s.sm.endpoints (s.record pool).sourceEndpointId).flowControlFunction ≠ 0
  alternates : Alternates s.events
  duty : Duty (s.record pool) s.ctx (lastReported s.events)

variable {pool : SmPtr} {bufs : List SmPtr} {s : Contexts} {after : After}

section

variable (h : Inv pool bufs s)
include h

theorem Inv.allocate (hi : s.ctx i = .idle) :
    Inv pool bufs (s.exec pool (.allocate i)) := by
  obtain ⟨xs, hinv, hout⟩ := h.free
  cases xs with
  | nil =>
    obtain ⟨heq, hstate, hinv'⟩ := hinv.allocate_nil
    have hs' : s.exec pool (.allocate i) =
        { s with sm := s.sm.setPool pool (s.record pool).empty } := by
      simp only [exec, heq, if_true, record]
    rw [heq] at hinv'
    rw [hs']
    refine ⟨⟨[], hinv', hout⟩, h.nodup, ?_, h.alternates, ?_⟩
    · simp only [record, Sm.pools_setPool_self]
      exact h.callback
    · have hduty := h.duty
      unfold Duty record at ⊢
      rw [Sm.pools_setPool_self, hstate]
      exact hduty
  | cons x xs =>
    obtain ⟨heq, hinv'⟩ := hinv.allocate_cons
    have hx : x ∈ bufs := hinv.subset x (by simp)
    have hx0 : x ≠ 0 := fun h0 ↦ hinv.nonzero (h0 ▸ hx)
    have hxs : x ∉ xs := by grind [hinv.queue.nodup]
    have hxout : x ∉ s.out := fun hmem ↦ (hout x hmem).2 (by simp)
    rw [heq] at hinv'
    simp only [exec, heq, if_neg hx0]
    refine ⟨⟨xs, hinv', fun b hb ↦ ?_⟩, ?_, ?_, h.alternates, ?_⟩
    · rcases mem_append.1 hb with hb | hb
      · exact ⟨(hout b hb).1, fun hmem ↦ (hout b hb).2 (mem_cons_of_mem _ hmem)⟩
      · grind
    · exact List.Nodup.append h.nodup (nodup_singleton x) (by simpa using hxout)
    · simp only [record, setCtx, Sm.pools_setPool_self]
      rw [show (s.sm.pools pool).take.1.sourceEndpointId = (s.sm.pools pool).sourceEndpointId from
        congrArg PoolConfig.sourceEndpointId (take_sameCount _).config]
      exact h.callback
    · simp only [record, setCtx, Sm.pools_setPool_self]
      refine h.duty.region (flowEdge_take (s.sm.pools pool)) (by rw [hi]; rfl) ?_
      cases (s.sm.pools pool).take.2 <;> rfl

theorem Inv.giveBack (hi : s.ctx i = .idle) {b : SmPtr}
    (hb : b ∈ s.out) : Inv pool bufs (s.exec pool (.giveBack i b)) := by
  obtain ⟨xs, hinv, hout⟩ := h.free
  have hinv' := hinv.giveBack (hout b hb).1 (hout b hb).2
  simp only [exec]
  refine ⟨⟨xs ++ [b], hinv', fun a ha ↦ ?_⟩, h.nodup.erase b, ?_, h.alternates, ?_⟩
  · obtain ⟨hne, hmem⟩ := h.nodup.mem_erase_iff.1 ha
    exact ⟨(hout a hmem).1, by simp [(hout a hmem).2, hne]⟩
  · simp only [record, setCtx, returnRegion, Sm.pools_setPool_self]
    rw [show (s.sm.pools pool).put.1.sourceEndpointId = (s.sm.pools pool).sourceEndpointId from
      congrArg PoolConfig.sourceEndpointId (put_sameCount _).config]
    exact h.callback
  · simp only [record, setCtx, returnRegion, Sm.pools_setPool_self]
    refine h.duty.region (flowEdge_put (s.sm.pools pool)) (by rw [hi]; rfl) ?_
    by_cases hn : (s.sm.pools pool).put.2 = true <;> simp [hn, Ctx.owes]

/-- A step of a context in a call that leaves the free queue, the count and the state alone. -/
theorem Inv.moveOn {c : Ctx} {p : BufferPool} (hp : p.SameCount (s.record pool))
    (hstate : p.flowControlState = (s.record pool).flowControlState)
    (halt : Alternates events) (hduty : Duty p (update s.ctx i c) (lastReported events)) :
    Inv pool bufs ({ s with sm := s.sm.setPool pool p, events := events }.setCtx i c) := by
  obtain ⟨xs, hinv, hout⟩ := h.free
  refine ⟨⟨xs, hinv.setPool hp (hinv.hysteresis.congr hp hstate), hout⟩, h.nodup, ?_, halt, ?_⟩
  · simp only [record, setCtx, Sm.pools_setPool_self]
    rw [show p.sourceEndpointId = (s.record pool).sourceEndpointId from
      congrArg PoolConfig.sourceEndpointId hp.config]
    exact h.callback
  · simpa only [record, setCtx, Sm.pools_setPool_self] using hduty

theorem Inv.readOn {c : Ctx} (hc : c.owes = (s.ctx i).owes) :
    Inv pool bufs (s.setCtx i c) :=
  { h with duty := h.duty.setCtx hc }

/-- The first critical region of a report. -/
theorem Inv.enter (hi : s.ctx i = .enter event after)
    (hidle : after = .retried → event ≠ (s.record pool).flowControlState ∧
      (s.record pool).flowControlCallPending = false) : Inv pool bufs (s.stepCtx pool i) := by
  simp only [stepCtx, hi]
  by_cases hne : event ≠ (s.record pool).flowControlState
  · rw [if_pos (.inr hne)]
    refine h.moveOn ⟨rfl, rfl⟩ rfl h.alternates ((Duty.of_not_pending rfl).2 ?_)
    by_cases hretried : after = .retried
    · -- the flag was down before, so nobody owes anything
      obtain ⟨-, hdown⟩ := hidle hretried
      obtain ⟨howes, hlast⟩ := (Duty.of_not_pending hdown).1 h.duty
      refine ⟨fun j ↦ ?_, hlast⟩
      rcases eq_or_ne j i with rfl | hj
      · simp
      · grind
    · -- the context owed `event`, which is neither the state nor the last report
      have howes : (s.ctx i).owes = some event := by
        rw [hi]
        cases after <;> first | rfl | exact absurd rfl hretried
      obtain ⟨-, hlast, hother⟩ := h.duty.owner howes
      refine ⟨fun j ↦ ?_, FlowCtrlEvent.eq_of_ne hlast hne⟩
      rcases eq_or_ne j i with rfl | hj
      · simp
      · grind
  · rw [if_neg (not_or.2 ⟨h.callback, hne⟩)]
    refine h.readOn ?_
    rw [hi]
    cases after with
    | retried => exact absurd (hidle rfl).1 hne
    | allocated => rfl
    | returned count => rfl

end

theorem reportPass_cases (p : BufferPool) (reported : FlowCtrlEvent) :
    (reportPass p reported).1.flowControlState = p.flowControlState ∧
      ((reported = p.flowControlState ∧ (reportPass p reported).2 = none ∧
          (reportPass p reported).1.flowControlCallPending = false) ∨
        (reported ≠ p.flowControlState ∧ (reportPass p reported).2 = some p.flowControlState ∧
          (reportPass p reported).1.flowControlCallPending = p.flowControlCallPending)) := by
  cases reported <;> cases hs : p.flowControlState <;> simp [reportPass, hs]

theorem Inv.loop (h : Inv pool bufs s) {reported : FlowCtrlEvent}
    (hi : s.ctx i = .loop reported after) : Inv pool bufs (s.stepCtx pool i) := by
  have howes : (s.ctx i).owes = some reported := by rw [hi]; rfl
  obtain ⟨hup, hne, hother⟩ := h.duty.owner howes
  obtain ⟨hstate, hcases⟩ := reportPass_cases (s.record pool) reported
  simp only [stepCtx, hi]
  refine h.moveOn (reportPass_sameCount _ _) hstate (h.alternates.append hne) ?_
  rw [lastReported_append]
  rcases hcases with ⟨heq, hnext, hdown⟩ | ⟨hneq, hnext, hflag⟩
  · rw [hnext]
    refine (Duty.of_not_pending hdown).2 ⟨fun j ↦ ?_, heq.trans hstate.symm⟩
    rcases eq_or_ne j i with rfl | hj
    · simp
    · grind
  · rw [hnext]
    refine (Duty.of_pending (hflag.trans hup)).2
      ⟨i, (s.record pool).flowControlState, by simp [Ctx.owes], hneq.symm, fun j hj ↦ ?_⟩
    rw [update_of_ne hj]
    exact hother j hj

/-- **One step keeps the invariant.** -/
theorem Inv.step (h : Inv pool bufs s) {op : ContextOp} (hg : (quiet pool).guard s op) :
    Inv pool bufs (s.exec pool op) := by
  obtain ⟨hguard, hidle⟩ := hg
  cases op with
  | allocate i => exact h.allocate hguard
  | giveBack i b => exact h.giveBack hguard.1 hguard.2
  | step i =>
    change Inv pool bufs (s.stepCtx pool i)
    cases hi : s.ctx i with
    | idle => exact absurd hi hguard
    | enter event after => exact h.enter hi fun heq ↦ hidle event (heq ▸ hi)
    | loop reported after => exact h.loop hi
    | readState count =>
      simp only [stepCtx, hi]
      refine h.readOn ?_
      rw [hi]
      split <;> rfl
    | readPending count =>
      simp only [stepCtx, hi]
      refine h.readOn ?_
      rw [hi]
      split <;> rfl

/-- All contexts idle, nothing out, nothing reported. -/
def start (sm : Sm) : Contexts := ⟨sm, fun _ ↦ .idle, [], []⟩

theorem Inv.of_fresh {sm : Sm} (h : FreshPool sm pool bufs)
    (hlimits : (sm.pools pool).flowStopLimit < (sm.pools pool).flowStartLimit)
    (hcallback : (sm.endpoints (sm.pools pool).sourceEndpointId).flowControlFunction ≠ 0) :
    Inv pool bufs (start sm) := by
  refine ⟨⟨bufs, PoolInv.of_fresh h hlimits, by simp [start]⟩, nodup_nil, hcallback,
    isChain_singleton _, ?_⟩
  exact (Duty.of_not_pending h.pending).2 ⟨fun _ ↦ rfl, h.state.symm⟩

/-! ### Whole runs -/

/-- **Reports alternate** for a pool just created, in every interleaving in which what is returned
is out and no last ditch check finds anything to do, and whenever no context is in a call, the last
report is the state. -/
theorem alternates_of_quiet {sm₀ sm : Sm} {cpu : Cpu} {args : PoolArgs}
    (hnew : JustCreated sm₀ sm cpu pool args)
    (hlimits : (sm.pools pool).flowStopLimit < (sm.pools pool).flowStartLimit)
    (hcallback : (sm.endpoints (sm.pools pool).sourceEndpointId).flowControlFunction ≠ 0)
    {ops : List ContextOp} (h : (quiet pool).Runs (start sm) ops s) :
    Alternates s.events ∧
      ((∀ i, s.ctx i = .idle) → lastReported s.events = (s.sm.pools pool).flowControlState) := by
  have hinv := h.invariant (fun _ _ hs hg ↦ hs.step hg)
    (Inv.of_fresh hnew.fresh hlimits hcallback)
  refine ⟨hinv.alternates, fun hidle ↦ ?_⟩
  cases hp : (s.record pool).flowControlCallPending with
  | false => exact ((Duty.of_not_pending hp).1 hinv.duty).2
  | true =>
    obtain ⟨i, event, howes, -⟩ := (Duty.of_pending hp).1 hinv.duty
    rw [hidle i] at howes
    cases howes

/-- The pool runs dry and recovers, and both changes are reported by the contexts that made them. -/
theorem alternates_dry_and_back : ((quiet 91732).final (start PoolRun.twoBuffers)
        [.allocate 0, .allocate 1, .step 1, .giveBack 0 91840, .step 1, .step 1, .step 0]).events =
      [.stop, .start] ∧
    Alternates [.stop, .start] := by
  refine (and_iff_left_of_imp fun hevents ↦ ?_).2 (by decide +kernel)
  rw [← hevents]
  exact (alternates_of_quiet PoolRun.justCreated_twoBuffers (by decide +kernel)
    (by decide +kernel) (Machine.Permitted.runs (by decide +kernel))).1

/-- **The last ditch check reports twice.** Context 1 returns a buffer while the pool is started
and is held up before its last ditch check, with a count of two. The pool runs dry and context 0
reports `stop`; context 1 reads the state and the flag, and decides to retry. Then context 2
returns a buffer and makes the change to `start`. Context 1 finds the state it wants to report,
reports it, and takes the flag of context 2 down; context 2 reports it once more. -/
theorem lastDitch_reports_twice : (machine 91732).Permitted (start PoolRun.twoBuffers)
        [.allocate 0, .giveBack 1 91840, .allocate 0, .allocate 0, .step 0, .step 0, .step 1,
          .step 1, .giveBack 2 91904, .step 1, .step 1, .step 2, .step 2] ∧
      ((machine 91732).final (start PoolRun.twoBuffers)
        [.allocate 0, .giveBack 1 91840, .allocate 0, .allocate 0, .step 0, .step 0, .step 1,
          .step 1, .giveBack 2 91904, .step 1, .step 1, .step 2, .step 2]).events =
        [.stop, .start, .start] ∧
      ¬ Alternates [.stop, .start, .start] := by
  refine ⟨by decide +kernel, by decide +kernel, ?_⟩
  simp [Alternates]

end Contexts

end Ipc
