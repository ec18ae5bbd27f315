import MerrukKernel.Ipc.Conservation.Creation

/-!
# Conservation of buffers: whole runs

The functions do not check what they are given, so conservation depends on how clients behave. The
discipline it needs is `Disciplined`: a pool's byte count does not wrap, a client sends only a
buffer it holds and from one of the two ends of its pool, and nobody frees a buffer that is still
in a send FIFO. Freeing a buffer that is free already is allowed, on either CPU and any number of
times.

Sending each buffer at most once per allocation is not enough (`Permissive`): the sender that
frees a buffer it has just sent puts it back into the pool while the receiver has yet to read it.
-/

open Placement

namespace Ipc

namespace System

variable {s : System} {loc : SmPtr → Place}

/-! ### The remaining steps -/

namespace Conserves

theorem loop (step : System → Bool × System)
    (hstep : ∀ s loc, Conserves s loc → ∃ loc', Conserves (step s).2 loc') (n : ℕ)
    (h : Conserves s loc) : ∃ loc', Conserves (System.loop step n s) loc' := by
  induction n generalizing s loc with
  | zero => exact ⟨loc, h⟩
  | succ n ih => grind [System.loop]

variable (h : Conserves s loc)
include h

theorem configured (cpu : Cpu) : Conserves (s.configured cpu) loc :=
  h.same ⟨rfl, rfl, rfl, rfl, rfl, fun _ ↦ rfl, fun _ ↦ rfl, fun _ ↦ rfl⟩ rfl rfl rfl
    (fun _ ↦ rfl) fun _ ↦ .rfl

theorem createPool {cpu : Cpu} {args : PoolArgs}
    (hbytes : (args.config s.sm cpu).bytes < 2 ^ 32) :
    ∃ loc', Conserves (s.createPool cpu args) loc' := by
  rcases createBufferPool_cases h.settled.layout.base h.settled.layout.gap hbytes with
    heq | ⟨pool, sm', heq, hc, -⟩
  · refine ⟨loc, ?_⟩
    simp only [System.createPool, heq]
    exact h
  · have hs' : s.createPool cpu args = s.withPool sm' pool := by
      simp only [System.createPool, heq, if_neg hc.pool_ne, System.withPool]
    exact ⟨_, hs' ▸ h.withPool hc⟩

theorem drain (cpu : Cpu) : ∃ loc', Conserves (s.drain cpu) loc' := by
  obtain ⟨loc₁, h₁⟩ := h.loop (System.deliverStep · cpu) (fun _ _ h ↦ h.deliverStep cpu) 1024
  exact h₁.loop (System.reclaimStep · cpu) (fun _ _ h ↦ h.reclaimStep cpu) 1024

theorem crashOrDrain (cpu : Cpu) : ∃ loc', Conserves (s.crashOrDrain cpu) loc' := by
  simp only [System.crashOrDrain, h.settled.crashCode, ne_eq, not_true_eq_false, and_false,
    if_false, h.settled.cpCrashed]
  exact h.drain cpu

theorem processEvents (cpu : Cpu) : ∃ loc', Conserves (s.processEvents cpu) loc' := by
  unfold System.processEvents
  split
  · exact h.crashOrDrain cpu
  · split
    · have h' : Conserves { s with
          configuredReported := Function.update s.configuredReported cpu true } loc :=
        h.same ⟨rfl, rfl, rfl, rfl, rfl, fun _ ↦ rfl, fun _ ↦ rfl, fun _ ↦ rfl⟩ rfl rfl rfl
          (fun _ ↦ rfl) fun _ ↦ .rfl
      exact h'.crashOrDrain cpu
    · exact ⟨loc, h⟩

end Conserves

/-! ### Runs -/

/-- **The discipline of the clients.** -/
def Disciplined (s : System) : IpcOp → Prop
  | .createPool cpu args => (args.config s.sm cpu).bytes < 2 ^ 32
  | .allocate pool => pool ∈ s.pools
  | .send cpu buffer => buffer ∈ s.held ∧
      ((s.sm.config (s.sm.buffers buffer).pool).cpu = cpu ∨ destinationCpu s.sm buffer = cpu)
  | .free _ buffer => (∃ pool ∈ s.pools, buffer ∈ s.sm.poolBuffers pool) ∧
      ∀ cpu ∈ [Cpu.cp, Cpu.ap], buffer ∉ (s.sm.fifos (.send cpu)).pending
  | .configured _ | .processEvents _ | .deliver _ | .reclaim _ => True

/-- The looser rule: a buffer is sent at most once per allocation, and freed at any time. -/
def Permissive (s : System) : IpcOp → Prop
  | .allocate pool => pool ∈ s.pools
  | .send _ buffer => buffer ∈ s.held ∧ (s.sm.buffers buffer).statusCode = .alloc
  | .free _ buffer => ∃ pool ∈ s.pools, buffer ∈ s.sm.poolBuffers pool
  | .createPool .. | .configured _ | .processEvents _ | .deliver _ | .reclaim _ => True

/-- The IPC layer under disciplined clients. -/
def disciplined : Machine System IpcOp := ⟨Disciplined, exec⟩

/-- The IPC layer under permissive clients. -/
def permissive : Machine System IpcOp := ⟨Permissive, exec⟩

instance (s : System) : ∀ op, Decidable (disciplined.guard s op)
  | .createPool .. => inferInstanceAs (Decidable (_ < _))
  | .allocate _ => inferInstanceAs (Decidable (_ ∈ _))
  | .send .. => inferInstanceAs (Decidable (_ ∧ (_ ∨ _)))
  | .free .. => inferInstanceAs (Decidable ((∃ pool ∈ s.pools, _) ∧ ∀ cpu ∈ _, _))
  | .configured _ | .processEvents _ | .deliver _ | .reclaim _ => inferInstanceAs (Decidable True)

instance (s : System) : ∀ op, Decidable (permissive.guard s op)
  | .allocate _ => inferInstanceAs (Decidable (_ ∈ _))
  | .send .. => inferInstanceAs (Decidable (_ ∧ _))
  | .free .. => inferInstanceAs (Decidable (∃ pool ∈ s.pools, _))
  | .createPool .. | .configured _ | .processEvents _ | .deliver _ | .reclaim _ =>
    inferInstanceAs (Decidable True)

/-- **One step keeps the invariant.** -/
theorem Conserves.step (h : Conserves s loc) {op : IpcOp} (hop : s.Disciplined op) :
    ∃ loc', Conserves (s.exec op) loc' := by
  cases op with
  | configured cpu => exact ⟨loc, h.configured cpu⟩
  | createPool cpu args => exact h.createPool hop
  | allocate pool => exact h.allocate hop
  | send cpu buffer => exact h.send hop.1 hop.2
  | free cpu buffer =>
    obtain ⟨⟨p, hp, hb⟩, hsend⟩ := hop
    exact h.free hp hb fun c ↦ hsend c (by cases c <;> simp)
  | processEvents cpu => exact h.processEvents cpu
  | deliver cpu => exact h.deliverStep cpu
  | reclaim cpu => exact h.reclaimStep cpu

/-- The invariant holds when shared memory has just been initialised: there is nothing in it. -/
theorem conserves_init (endpoints : U32 → Endpoint) {smSize : U32}
    (hsize : sizeofSmControl ≤ smSize) (first : Cpu) :
    Conserves (init endpoints smSize first) fun _ ↦ .outside := by
  have hap : (boot endpoints smSize first).allocated .ap = sizeofSmControl := by cases first <;> rfl
  have hcp : (boot endpoints smSize first).allocated .cp = smSize := by cases first <;> rfl
  have hcur : ∀ c, (boot endpoints smSize first).currentBuffers c = 0 := by
    intro c
    cases first <;> cases c <;> rfl
  have hfifo : ∀ id, (boot endpoints smSize first).fifos id = .init fun _ ↦ 0 := by
    rintro (c | c) <;> cases first <;> cases c <;> rfl
  have hstatus : ∀ b, ((boot endpoints smSize first).buffers b).statusCode = .free := by
    intro b
    cases first <;> rfl
  have hcrash : (boot endpoints smSize first).crashCode = 0 := by cases first <;> rfl
  have hlayout : Layout (boot endpoints smSize first) [] := by
    refine ⟨?_, ?_, by simp, by simp, by simp⟩
    · rw [hap]; decide
    · rw [hap, hcp]; exact hsize
  refine ⟨⟨hlayout, by simp [init], by simp [init], by simp [init], fun c ↦ ?_, fun c ↦ ?_, hcrash,
    fun _ ↦ rfl⟩, fun x hx ↦ ?_, by simp [init], by simp [init], fun id ↦ ?_, by simp [init],
    by simp, fun b ↦ ?_, by simp⟩
  · simp [init, hcur, owned]
  · simp [init, hcur]
  · cases x with
    | outside => exact hx.elim
    | pool p => simp [init, IsPlace] at hx
    | held => exact ⟨List.nodup_nil, by simp [init, content]⟩
    | fifo id => exact ⟨by simp [init, content, hfifo], by simp [init, content, hfifo]⟩
  · exact hfifo id ▸ Fifo.wf_init _
  · simp [init, hstatus, Place.IsFree]

/-- **Buffers are conserved**, in every state every disciplined run reaches. -/
theorem conserved_of_disciplined {endpoints : U32 → Endpoint} {smSize : U32}
    (hsize : sizeofSmControl ≤ smSize) {first : Cpu} {ops : List IpcOp}
    (h : disciplined.Runs (init endpoints smSize first) ops s) : s.Conserved := by
  obtain ⟨loc, hloc⟩ := h.invariant (I := fun s ↦ ∃ loc, Conserves s loc)
    (fun _ _ ⟨_, hs⟩ hg ↦ hs.step hg) ⟨_, conserves_init endpoints hsize first⟩
  exact hloc.conserved

/-- One pool of one buffer, on the applications CPU, for an endpoint on the other CPU. -/
def oneBuffer : PoolArgs := ⟨0, 1, 1, 4, 1, 0⟩

/-- A whole round trip: the buffer is allocated, sent, delivered, freed twice by its receiver,
reclaimed, and allocated again. -/
theorem conserved_round_trip : (disciplined.final (init (fun _ ↦ ⟨.cp, 0, 0⟩) 131072 .ap)
      [.configured .ap, .configured .cp, .createPool .ap oneBuffer, .allocate 91732,
        .send .ap 91840, .processEvents .cp, .free .cp 91840, .free .cp 91840,
        .processEvents .ap, .allocate 91732]).Conserved := by
  refine conserved_of_disciplined (by decide) (Machine.Permitted.runs ?_)
  -- one evaluation for each guard: the pool the two frees are about is named, not searched
  refine ⟨trivial, trivial, ?_, ?_, ⟨?_, ?_⟩, trivial, ⟨⟨91732, ?_, ?_⟩, ?_⟩,
    ⟨⟨91732, ?_, ?_⟩, ?_⟩, trivial, ?_, trivial⟩ <;> decide +kernel

/-- **What the looser rule permits.** A sender that frees the buffer it has just sent has it back in
the pool while it is still in the send FIFO. And a pool whose byte count wraps to that of no buffers
at all is created with both its buffers at one offset, in a ring that is none. -/
theorem permissive_not_conserved : (permissive.Permitted (init (fun _ ↦ ⟨.cp, 0, 0⟩) 131072 .ap)
        [.createPool .ap oneBuffer, .allocate 91732, .send .ap 91840, .free .ap 91840] ∧
      ¬ (permissive.final (init (fun _ ↦ ⟨.cp, 0, 0⟩) 131072 .ap)
        [.createPool .ap oneBuffer, .allocate 91732, .send .ap 91840, .free .ap 91840]).Conserved) ∧
    permissive.Permitted (init (fun _ ↦ ⟨.cp, 0, 0⟩) 131072 .ap)
        [.createPool .ap ⟨0, 1, 2, 0xFFFFFFC4, 1, 0⟩] ∧
      ¬ (permissive.final (init (fun _ ↦ ⟨.cp, 0, 0⟩) 131072 .ap)
        [.createPool .ap ⟨0, 1, 2, 0xFFFFFFC4, 1, 0⟩]).Conserved := by
  refine ⟨⟨?_, fun h ↦ ?_⟩, ⟨trivial, trivial⟩, fun h ↦ ?_⟩
  · refine ⟨trivial, ?_, ?_, ⟨91732, ?_, ?_⟩, trivial⟩ <;> decide +kernel
  · have hcount := (h 91732 (by decide +kernel)).2.2.2 91840 (by decide +kernel)
    exact absurd hcount (by decide +kernel)
  · have hqueue := (h 91732 (by decide +kernel)).1
    exact absurd hqueue (by decide +kernel)

end System

end Ipc
