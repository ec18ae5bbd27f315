import MerrukKernel.Bfq.Calls

/-!
# Runs of a scheduling domain

Two properties of the scheduler over sequences of calls: the virtual times do not go back, and
`wsum` is the sum of the weights of the entities with `on_st` set. Neither holds of all sequences.
`bfq_forget_idle` takes the virtual time back to the finish time of the last idle entity if that
has passed already and the active tree is empty. And where a request for a priority was adopted,
`new_weight` keeps a value that is taken for a requested weight the next time, which may be zero.
-/

namespace Bfq

open RedBlack RedBlack.Tree Outcome List Domain

/-- What the rest of the scheduler stores in an entity between the calls. -/
structure Request where
  budget : BitVec 32
  newWeight : BitVec 16
  newIoprio : BitVec 16
  newIoprioClass : BitVec 16
  ioprioChanged : Bool
  highWeightBudget : BitVec 32

def Request.apply (r : Request) (x : Entity) : Entity :=
  { x with
    budget := r.budget
    newWeight := r.newWeight
    newIoprio := r.newIoprio
    newIoprioClass := r.newIoprioClass
    ioprioChanged := r.ioprioChanged || x.ioprioChanged
    highWeightBudget := r.highWeightBudget }

/-- A call of the scheduler, or an assignment by its callers. -/
inductive DomainOp
  | request (e : ℕ) (r : Request)
  | activate (e : ℕ) (minStart : Timestamp)
  | deactivate (e : ℕ) (requeue : Bool)
  | served (e : ℕ) (n : BitVec 32)
  | select
  | forgetIdle (i : Fin 3)
  | putIdle (i : Fin 3) (e : ℕ)
  | updateWeightPrio (e : ℕ)

def Domain.step (d : Domain) : DomainOp → Except Halt Domain
  | .request e r => .ok (d.setEntity e r.apply)
  | .activate e m => bfqActivateEntity d e m
  | .deactivate e requeue => bfqDeactivateEntity d e requeue
  | .served e n => bfqBfqqServed d e n
  | .select => bfqGetNextQueue d
  | .forgetIdle i => bfqForgetIdle d i
  | .putIdle i e => bfqPutIdleEntity d i e
  | .updateWeightPrio e => do
    let i ← bfqEntityServiceTree (d.entity e)
    let (d, _) ← bfqEntityUpdateWeightPrio d i e
    return d

/-- A call after other calls that returned. -/
def execOp (s : Except Halt Domain) (op : DomainOp) : Except Halt Domain := s >>= fun d ↦ d.step op

/-- A domain with these entities, none of which is on a service tree. -/
def Domain.init (entity : ℕ → Entity) : Domain where
  entity e := { entity e with onSt := false, tree := none }
  serviceTree _ := ⟨.nil, .nil, none, none, 0, 0⟩
  activeEntity := none

theorem Domain.init_sound (entity : ℕ → Entity) : Sound none (init entity) where
  active _ := ⟨⟨0, .nil⟩, nodup_nil⟩
  idle _ := ⟨⟨0, .nil⟩, nodup_nil⟩
  mem_active i e := ⟨fun h ↦ absurd h not_mem_nil, nofun⟩
  mem_idle i e := ⟨fun h ↦ absurd h not_mem_nil, nofun⟩
  inClass i e h := by rcases h with h | h <;> cases h
  onSt e := by simp [init, offTrees]
  off e h := rfl
  nodup := nodup_nil
  firstIdle i e h := by cases h
  lastIdle i e h := by cases h
  wsum i := rfl
  forward i e h := absurd h not_mem_nil

/-! ### The virtual times -/

/-- Activations, deactivations, service and selections. -/
def DomainOp.Scheduling : DomainOp → Prop
  | .request .. | .activate .. | .deactivate .. | .served .. | .select => True
  | .forgetIdle _ | .putIdle .. | .updateWeightPrio _ => False

instance (op : DomainOp) : Decidable op.Scheduling := by
  cases op <;> unfold DomainOp.Scheduling <;> infer_instance

/-- The virtual times are in a window. -/
def Domain.Timely (base : Timestamp) (d : Domain) : Prop := ∀ i, InWindow base (d.vtimes i)
deriving Decidable

/-- When service is accounted and the active tree is empty, the finish time of the last idle
entity is not before the virtual time. -/
def NoneOverdue (d : Domain) : DomainOp → Prop
  | .served e _ => ∀ i, d.InClass i e → rbEmptyRoot (d.serviceTree i).active = true →
      ∀ last ∈ (d.serviceTree i).lastIdle, bfqGt (d.vtimes i) (d.finish last) = false
  | _ => True

instance (d : Domain) (op : DomainOp) : Decidable (NoneOverdue d op) := by
  cases op <;> unfold NoneOverdue <;> infer_instance

/-- Calls that hit no `BUG_ON`, with timestamps in a window, that never find an overdue idle
entity. -/
def vtimeMachine (base : Timestamp) : Machine (Except Halt Domain) DomainOp where
  guard s op := Returns s fun d ↦ op.Scheduling ∧ Meets (d.step op) (· ≠ .bug)
    (Domain.Timely base) ∧
    NoneOverdue d op
  exec := execOp

instance (base : Timestamp) (s : Except Halt Domain) (op : DomainOp) :
    Decidable ((vtimeMachine base).guard s op) :=
  inferInstanceAs (Decidable (Returns s _))

section

variable {d d' : Domain} {op : DomainOp} {base : Timestamp}

/-- A call that hits no `BUG_ON` returns. -/
theorem returns_of_meets {x : Except Halt Domain} {P Q : Domain → Prop} (h : Meets x (Bugs True) P)
    (hbug : Meets x (· ≠ .bug) Q) : ∃ d', x = .ok d' ∧ P d' ∧ Q d' := by
  cases x with
  | ok d' => exact ⟨d', rfl, h, hbug⟩
  | error r => exact absurd h.1 hbug

/-- The time to which `bfq_forget_idle` sets a virtual time that advanced from `u` to `v`. -/
theorem forgottenTime_not_before {i : Fin 3} {u v : Timestamp} (huv : bfqGt u v = false)
    (hlast : rbEmptyRoot (d.serviceTree i).active = true →
      ∀ e ∈ (d.serviceTree i).lastIdle, bfqGt u (d.finish e) = false) :
    bfqGt u (forgottenTime d i v) = false := by
  unfold forgottenTime
  split
  · grind
  · exact huv

/-- **One call does not take a virtual time back.** -/
theorem vtimes_step (h : Sound none d) (hop : op.Scheduling)
    (hbug : Meets (d.step op) (· ≠ .bug) (Domain.Timely base)) (hover : NoneOverdue d op) :
    ∃ d', d.step op = .ok d' ∧ Sound none d' ∧ d'.Timely base ∧
      ∀ i, bfqGt (d.vtimes i) (d'.vtimes i) = false := by
  cases op with
  | request e r =>
    exact ⟨_, rfl, h.setEntity rfl rfl rfl rfl fun _ _ ↦ ⟨rfl, rfl⟩, hbug, fun i ↦ bfqGt_self _⟩
  | activate e m =>
    obtain ⟨d', hstep, ⟨h', hun, -⟩, htimely⟩ := returns_of_meets (h.activate m (fun _ ↦ trivial)
      (fun _ _ ↦ trivial) (fun _ ↦ trivial) (fun _ ↦ trivial) fun _ ↦ trivial) hbug
    exact ⟨d', hstep, h', htimely, fun i ↦ by rw [hun.vtimes]; exact bfqGt_self _⟩
  | deactivate e requeue =>
    obtain ⟨d', hstep, ⟨h', -, hvtimes⟩, htimely⟩ := returns_of_meets (h.deactivate requeue
      (fun _ ↦ trivial) fun _ _ ↦ trivial) hbug
    exact ⟨d', hstep, h', htimely, fun i ↦ by rw [hvtimes]; exact bfqGt_self _⟩
  | served e n =>
    obtain ⟨d', hstep, ⟨h', -, i, hclass, hwsum, hvtimes⟩, htimely⟩ := returns_of_meets (h.served n
      (fun _ ↦ trivial) fun _ _ _ ↦ trivial) hbug
    refine ⟨d', hstep, h', htimely, fun j ↦ ?_⟩
    rw [hvtimes]
    rcases eq_or_ne j i with rfl | hj
    · rw [Function.update_self]
      have hdelta := toNat_bfqDelta_lt n (d.serviceTree j).wsum
      exact forgottenTime_not_before (bfqGt_add_eq_false _ _ (by omega)) (hover j hclass)
    · grind [bfqGt_self]
  | select =>
    obtain ⟨d', hstep, ⟨h', -, hmono⟩, htimely⟩ := returns_of_meets h.get_next_queue hbug
    exact ⟨d', hstep, h', htimely, hmono⟩
  | forgetIdle i => exact hop.elim
  | putIdle i e => exact hop.elim
  | updateWeightPrio e => exact hop.elim

/-- Along a run the virtual times advance within the window. -/
theorem vtimes_runs {ops : List DomainOp} {s : Except Halt Domain} (h : Sound none d)
    (htimely : d.Timely base)
    (hrun : (vtimeMachine base).Runs (.ok d) ops s) :
    ∃ d', s = .ok d' ∧ Sound none d' ∧ d'.Timely base ∧
      ∀ i, offset base (d.vtimes i) ≤ offset base (d'.vtimes i) := by
  refine hrun.invariant (I := fun s ↦ ∃ d', s = .ok d' ∧ Sound none d' ∧ d'.Timely base ∧
    ∀ i, offset base (d.vtimes i) ≤ offset base (d'.vtimes i)) ?_
    ⟨d, rfl, h, htimely, fun _ ↦ le_rfl⟩
  rintro _ op ⟨d₁, rfl, h₁, htimely₁, hle⟩ ⟨hop, hbug, hover⟩
  obtain ⟨d₂, hstep, h₂, htimely₂, hmono⟩ := vtimes_step h₁ hop hbug hover
  exact ⟨d₂, hstep, h₂, htimely₂, fun i ↦
    (hle i).trans ((bfqGt_eq_false_iff (htimely₁ i) (htimely₂ i)).1 (hmono i))⟩

end

/-- **The virtual times never go back**, and no entity of an active tree finishes before it
starts, in every run in which service is never accounted on an empty active tree with an overdue
last idle entity. -/
theorem vtime_monotone {base : Timestamp} {entity : ℕ → Entity} {ops ops' : List DomainOp}
    {s s' : Except Halt Domain} (hbase : InWindow base 0)
    (hrun : (vtimeMachine base).Runs (.ok (Domain.init entity)) ops s)
    (hrun' : (vtimeMachine base).Runs s ops' s') :
    ∃ d d', s = .ok d ∧ s' = .ok d' ∧ ∀ i, bfqGt (d.vtimes i) (d'.vtimes i) = false ∧
      ∀ e ∈ ids (d'.serviceTree i).active, bfqGt (d'.start e) (d'.finish e) = false := by
  obtain ⟨d, rfl, h, htimely, -⟩ := vtimes_runs (init_sound entity) (fun _ ↦ hbase) hrun
  obtain ⟨d', rfl, h', htimely', hle⟩ := vtimes_runs h htimely hrun'
  exact ⟨d, d', rfl, rfl, fun i ↦ ⟨(bfqGt_eq_false_iff (htimely i) (htimely' i)).2
    (hle i), h'.forward i⟩⟩

/-- A queue of the best-effort class with weight 4. -/
def plainEntity (budget : BitVec 32) : Entity :=
  ⟨false, 0, 0, none, 0, budget, 4, 4, 4, 4, 4, 2, 2, false, 0⟩

/-- Two queues are activated, and one of them is selected, served and requeued. -/
theorem vtime_monotone_two : let entity := fun e ↦ plainEntity (BitVec.ofNat 32 e)
    let ops : List DomainOp := [.activate 1 0, .activate 2 0, .select]
    let ops' : List DomainOp := [.served 1 1, .activate 1 0]
    let s := (vtimeMachine 0).final (.ok (Domain.init entity)) ops
    let s' := (vtimeMachine 0).final s ops'
    (∃ d d', s = .ok d ∧ s' = .ok d' ∧ ∀ i, bfqGt (d.vtimes i) (d'.vtimes i) = false ∧
      ∀ e ∈ ids (d'.serviceTree i).active, bfqGt (d'.start e) (d'.finish e) = false) ∧
      Returns s' fun d' ↦ d'.vtimes 1 = 524288 ∧ ids (d'.serviceTree 1).active = [2, 1] := by
  intro entity ops ops' s s'
  have hrun : (vtimeMachine 0).Permitted (.ok (init entity)) ops := by decide +kernel
  have hrun' : (vtimeMachine 0).Permitted s ops' := by decide +kernel
  exact ⟨vtime_monotone (by decide) hrun.runs hrun'.runs, by decide +kernel⟩

/-- **The virtual time goes back.** The second and the third of four queues are served and become
idle. Then the first one is served for so long that the finish times of both pass, and one of them
is forgotten. When the fourth queue is removed the active tree is empty, and some more service of
the first one takes the virtual time back to the finish time of the other. -/
theorem vtime_goes_back :
    let entity :=
  fun e ↦ plainEntity (if e = 2 then 1 else if e = 3 then 2 else if e = 1 then 3 else 4)
    let ops : List DomainOp := [.activate 2 0, .activate 3 0, .activate 1 0, .activate 4 0,
      .select, .served 2 4, .deactivate 2 true, .select, .served 3 8, .deactivate 3 true,
      .select, .served 1 100, .deactivate 4 false]
    Returns (ops.foldl execOp (.ok (Domain.init entity))) fun d ↦ Returns
    (d.step (.served 1 1)) fun d' ↦
      d.vtimes 1 = 29360128 ∧ d'.vtimes 1 = 8388608 ∧ bfqGt (d.vtimes 1) (d'.vtimes 1) = true := by
  intro entity ops
  decide +kernel

/-! ### The weight sums -/

/-- The class is one of the three. -/
def ValidClass (c : BitVec 16) : Prop := c = 1 ∨ c = 2 ∨ c = 3
deriving Decidable

/-- A pending request gives an entity a weight that is not zero: a weight other than the original
one is between 1 and 1000, and else the priority is less than 8. -/
structure AcceptableRequest (x : Entity) : Prop where
  newIoprioClass : ValidClass x.newIoprioClass
  newWeight : x.newWeight ≠ x.origWeight → 0 < x.newWeight ∧ x.newWeight ≤ 1000
  newIoprio : x.newWeight = x.origWeight → x.newIoprio < 8
  highWeightBudget : x.highWeightBudget ≤ 49152

instance (x : Entity) : Decidable (AcceptableRequest x) :=
  decidable_of_iff (ValidClass x.newIoprioClass ∧
      (x.newWeight ≠ x.origWeight → 0 < x.newWeight ∧ x.newWeight ≤ 1000) ∧
      (x.newWeight = x.origWeight → x.newIoprio < 8) ∧ x.highWeightBudget ≤ 49152)
    ⟨fun ⟨h₁, h₂, h₃, h₄⟩ ↦ ⟨h₁, h₂, h₃, h₄⟩, fun ⟨h₁, h₂, h₃, h₄⟩ ↦ ⟨h₁, h₂, h₃, h₄⟩⟩

/-- The weight of an entity is not zero, or will not be when a pending request is adopted. -/
def Acceptable (x : Entity) : Prop :=
  ValidClass x.ioprioClass ∧ if x.ioprioChanged then AcceptableRequest x else x.weight ≠ 0
deriving Decidable

/-- The sum of the weights of the entities with `on_st` set that are on the trees of a service
tree, or in service. -/
def Domain.load (d : Domain) (i : Fin 3) : ℕ :=
  (((d.members none i).filter fun e ↦ (d.entity e).onSt).map fun e ↦ (d.entity e).weight.toNat).sum

/-- Calls of the scheduler as its callers make them: weights are updated in activations and for
the entity in service, entities are accepted, and there are fewer than `2 ^ 16` of them. -/
def weightMachine : Machine (Except Halt Domain) DomainOp where
  guard s op := Returns s fun d ↦ match op with
    | .request .. | .forgetIdle _ => True
    | .activate e _ => Acceptable (d.entity e) ∧ ∀ i, (d.members none i).length < 2 ^ 16
    | .deactivate e _ => ValidClass (d.entity e).ioprioClass
    | .served e _ => d.activeEntity = some e ∧ ValidClass (d.entity e).ioprioClass
    | .select => Meets (d.step .select) (· ≠ .bug) fun _ ↦ True
    | .putIdle i e => (d.entity e).tree = some (.idle i)
    | .updateWeightPrio e => d.activeEntity = some e ∧ Acceptable (d.entity e) ∧
        ∀ i, (d.members none i).length < 2 ^ 16
  exec := execOp

instance (s : Except Halt Domain) (op : DomainOp) : Decidable (weightMachine.guard s op) := by
  have hpred : ∀ d : Domain, Decidable (weightMachine.guard (.ok d) op) := fun d ↦ by
    cases op <;> unfold weightMachine <;> infer_instance
  cases s with
  | ok d => exact hpred d
  | error r => exact .isFalse id

section

variable {d d' : Domain} {op : DomainOp} {e : ℕ} {x : Entity}

theorem bfqEntityServiceTree_of_valid (h : ValidClass x.ioprioClass) :
    bfqEntityServiceTree x ≠ .error .bug := by
  unfold bfqEntityServiceTree
  rcases h with h | h | h <;> rw [h] <;> simp

theorem settled_ioprioClass (h : Acceptable x) : ValidClass (settled x).ioprioClass := by
  obtain ⟨hclass, hx⟩ := h
  unfold settled
  split
  · next hchanged =>
    rw [if_pos hchanged] at hx
    have hnew := hx.newIoprioClass
    unfold adopt
    split_ifs <;> exact hnew
  · exact hclass

theorem boostCoeff_bounds (h : x.highWeightBudget ≤ 49152) :
    1 ≤ (boostCoeff x).toNat ∧ (boostCoeff x).toNat ≤ 11 := by
  have hle : x.highWeightBudget.toNat ≤ 49152 := h
  unfold boostCoeff
  rw [BitVec.toNat_add, BitVec.toNat_udiv, BitVec.toNat_mul]
  simp only [BitVec.reduceToNat]
  rw [Nat.mod_eq_of_lt (a := x.highWeightBudget.toNat * 10) (by omega)]
  have hdiv : x.highWeightBudget.toNat * 10 / 49152 ≤ 10 := by omega
  generalize x.highWeightBudget.toNat * 10 / 49152 = q at hdiv
  omega

theorem boosted_ne_zero {w : BitVec 16} {c : BitVec 32} (hw : 0 < w.toNat ∧ w.toNat ≤ 1000)
    (hc : 1 ≤ c.toNat ∧ c.toNat ≤ 11) : (w.setWidth 32 * c).setWidth 16 ≠ 0 := by
  intro hzero
  have h := congrArg BitVec.toNat hzero
  have hle : w.toNat * c.toNat ≤ 1000 * 11 := Nat.mul_le_mul hw.2 hc.2
  have hpos : 0 < w.toNat * c.toNat := Nat.mul_pos hw.1 hc.1
  rw [BitVec.toNat_setWidth, BitVec.toNat_mul, BitVec.toNat_setWidth, Nat.mod_eq_of_lt
    (a := w.toNat) (by omega),
    Nat.mod_eq_of_lt (by omega), Nat.mod_eq_of_lt (by omega)] at h
  exact hpos.ne' h

theorem ioprioToWeight_bounds {p : BitVec 16} (h : p < 8) :
    0 < (bfqIoprioToWeight p).toNat ∧ (bfqIoprioToWeight p).toNat ≤ 1000 := by
  have hlt : p.toNat < 8 := h
  unfold bfqIoprioToWeight
  rw [BitVec.toNat_sub]
  simp only [BitVec.reduceToNat]
  omega

/-- **An accepted request leaves a weight that is not zero.** -/
theorem settled_weight (h : Acceptable x) : (settled x).weight ≠ 0 := by
  obtain ⟨-, hx⟩ := h
  unfold settled
  split
  · next hchanged =>
    rw [if_pos hchanged] at hx
    have hc := boostCoeff_bounds hx.highWeightBudget
    by_cases hw : x.newWeight = x.origWeight
    · have hio := hx.newIoprio hw
      have heq : (adopt x).weight =
          ((bfqIoprioToWeight x.newIoprio).setWidth 32 * boostCoeff x).setWidth 16 := by
        unfold adopt
        rw [if_neg (not_not.2 hw)]
        split
        · rfl
        · next hsame => rw [not_not.1 hsame]; rfl
      rw [heq]
      exact boosted_ne_zero (ioprioToWeight_bounds hio) hc
    · have hnew := hx.newWeight hw
      have heq : (adopt x).weight = (x.newWeight.setWidth 32 * boostCoeff x).setWidth 16 := by
        unfold adopt
        rw [if_pos hw]
        rfl
      rw [heq]
      exact boosted_ne_zero hnew hc
  · grind

/-- **What holds of a domain in these runs.** -/
structure Weighed (d : Domain) : Prop where
  sound : Sound none d
  weight : ∀ e, (d.entity e).onSt = true → (d.entity e).weight ≠ 0
  length : ∀ i, (d.members none i).length ≤ 2 ^ 16

theorem Weighed.quiet (h : Weighed d) (h' : Sound none d') (hquiet : Quiet d d') : Weighed d' where
  sound := h'
  weight e hon := by
    rw [hquiet.weight e]
    exact h.weight e (hquiet.onSt e hon)
  length i := (hquiet.length_le h.sound.toPlaced h'.toPlaced i).trans (h.length i)

theorem Weighed.touch (h' : Sound none d') (h : Weighed d)
    (hentity : ∀ x ≠ e, d'.entity x = d.entity x)
    (hweight : (d'.entity e).weight ≠ 0) (hlen : ∀ i, (d.members none i).length < 2 ^ 16) :
    Weighed d' where
  sound := h'
  weight x hon := by
    rcases eq_or_ne x e with rfl | hx
    · exact hweight
    · grind [h.weight]
  length i := by
    have := h.sound.toPlaced.length_le h'.toPlaced hentity i
    have := hlen i
    omega

theorem Weighed.wsum_ne_zero {i : Fin 3} (h : Weighed d) (hon : (d.entity e).onSt = true)
    (hclass : d.InClass i e) : (d.serviceTree i).wsum ≠ 0 := by
  intro hzero
  have hle := h.sound.weight_le hon hclass (h.length i)
  rw [hzero, BitVec.lt_def, not_lt, toNat_weight] at hle
  exact h.weight e hon (BitVec.eq_of_toNat_eq (Nat.le_zero.1 hle))

/-- **Each call keeps the weight sums.** -/
theorem Weighed.step (h : Weighed d) (hg : weightMachine.guard (.ok d) op) :
    ∃ d', d.step op = .ok d' ∧ Weighed d' := by
  have hservice : ∀ {e}, d.activeEntity = some e → (d.entity e).weight = 0 → False :=
    fun {e} hact hzero ↦
    h.weight e (h.sound.toPlaced.tree_of_service hact).1 hzero
  cases op with
  | request e r =>
    have hquiet : Quiet d (d.setEntity e r.apply) := by
      refine .of_entity (fun x hx ↦ setEntity_of_ne _ _ _ hx) ?_ ?_ ?_ <;>
        rw [setEntity_self]
      · rfl
      · rfl
      · exact id
    exact ⟨_, rfl, h.quiet (h.sound.setEntity rfl rfl rfl rfl fun _ _ ↦ ⟨rfl, rfl⟩) hquiet⟩
  | activate e m =>
    obtain ⟨hacc, hlen⟩ := hg
    obtain ⟨d', hstep, h', hun, hweight⟩ := (h.sound.activate m
      (bfqEntityServiceTree_of_valid hacc.1) hservice (fun ⟨i, hi⟩ ↦ absurd (hlen i) (not_lt.2 hi))
      (bfqEntityServiceTree_of_valid (settled_ioprioClass hacc)) (settled_weight hacc)).imp
      (fun _ hr ↦ hr.2) (fun _ ↦ id) |>.returns
    exact ⟨d', hstep, h.touch h' hun.entity hweight hlen⟩
  | deactivate e requeue =>
    obtain ⟨d', hstep, h', hquiet, -⟩ := (h.sound.deactivate requeue
      (bfqEntityServiceTree_of_valid hg) hservice).imp (fun _ hr ↦ hr.2) (fun _ ↦ id) |>.returns
    exact ⟨d', hstep, h.quiet h' hquiet⟩
  | served e n =>
    obtain ⟨hact, hclass⟩ := hg
    obtain ⟨d', hstep, h', hquiet, -⟩ := (h.sound.served n (bfqEntityServiceTree_of_valid hclass)
      fun i hi ↦ h.wsum_ne_zero (h.sound.toPlaced.tree_of_service hact).1 hi).imp
      (fun _ hr ↦ hr.2) (fun _ ↦ id) |>.returns
    exact ⟨d', hstep, h.quiet h' hquiet⟩
  | select =>
    obtain ⟨d', hstep, ⟨h', hquiet, -⟩, -⟩ := returns_of_meets h.sound.get_next_queue hg
    exact ⟨d', hstep, h.quiet h' hquiet⟩
  | forgetIdle i =>
    obtain ⟨d', hstep, h', -, hshed⟩ := h.sound.forget_idle i
    exact ⟨d', hstep, h.quiet h' hshed.quiet⟩
  | putIdle i e =>
    obtain ⟨d', hstep, h', -, hshed⟩ := h.sound.put_idle hg
    exact ⟨d', hstep, h.quiet h' hshed.quiet⟩
  | updateWeightPrio e =>
    obtain ⟨hact, hacc, hlen⟩ := hg
    obtain ⟨hon, -⟩ := h.sound.toPlaced.tree_of_service hact
    rcases bfqEntityServiceTree_cases (d.entity e) with ⟨i, hi⟩ | hbug
    · have hmem : e ∈ d.offTrees none := by simp [offTrees, hact]
      obtain ⟨⟨d', j⟩, hstep, h', hun, -, -, s, he⟩ := (h.sound.update_weight_prio hi hmem
        (fun _ ↦ h.sound.weight_le hon hi (h.length i))
        (bfqEntityServiceTree_of_valid (settled_ioprioClass hacc))).imp (fun _ hr ↦ hr.2)
        (fun _ ↦ id) |>.returns
      refine ⟨d', ?_, h.touch h' hun.entity ?_ hlen⟩
      · simp only [step, hi, bind, Except.bind, hstep]
        rfl
      · rw [he]
        exact settled_weight hacc
    · exact absurd hbug (bfqEntityServiceTree_of_valid hacc.1)

/-- **What the weight sum is.** -/
theorem Weighed.wsum (h : Weighed d) (i : Fin 3) : (d.serviceTree i).wsum.toNat = d.load i ∧
      ((d.serviceTree i).wsum = 0 ↔ ∀ e, (d.entity e).onSt = true → ¬d.InClass i e) ∧
      ∀ e, (d.entity e).onSt = true → d.InClass i e → e ∈ d.members none i := by
  have hmem : ∀ {e}, e ∈ d.members none i ↔ (d.entity e).onSt = true ∧ d.InClass i e :=
    h.sound.toPlaced.mem_members
  refine ⟨?_, ⟨fun hzero e hon hclass ↦ h.wsum_ne_zero hon hclass hzero, fun hnone ↦ ?_⟩,
    fun e hon hclass ↦ hmem.2 ⟨hon, hclass⟩⟩
  · unfold load
    rw [filter_eq_self.2 fun e he ↦ (hmem.1 he).1, h.sound.wsum i, toNat_sum_weight d (h.length i)]
  · have hempty : d.members none i = [] := eq_nil_iff_forall_not_mem.2 fun e he ↦
      hnone e (hmem.1 he).1 (hmem.1 he).2
    rw [h.sound.wsum i, hempty]
    rfl

end

/-- **`wsum` is the sum of the weights** of the entities with `on_st` set that belong to a service
tree, after every sequence of calls in which an entity that is activated, or reweighed in service,
is accepted; so it is zero exactly if there are none. -/
theorem wsum_accounts {entity : ℕ → Entity} {ops : List DomainOp} {s : Except Halt Domain}
    (hrun : weightMachine.Runs (.ok (Domain.init entity)) ops s) :
    ∃ d, s = .ok d ∧ ∀ i, (d.serviceTree i).wsum.toNat = d.load i ∧
      ((d.serviceTree i).wsum = 0 ↔ ∀ e, (d.entity e).onSt = true → ¬d.InClass i e) ∧
      ∀ e, (d.entity e).onSt = true → d.InClass i e → e ∈ d.members none i := by
  obtain ⟨d, rfl, h⟩ := hrun.invariant (I := fun s ↦ ∃ d, s = .ok d ∧ Weighed d) (by
    rintro _ op ⟨d, rfl, h⟩ hg
    exact h.step hg) ⟨_, rfl, init_sound entity, nofun, fun i ↦ Nat.zero_le _⟩
  exact ⟨d, rfl, h.wsum⟩

/-- A queue is given the weight 8 and the real-time class while it is in service, and another one
is removed. -/
theorem wsum_accounts_reweighed : let entity := fun e ↦ plainEntity (BitVec.ofNat 32 e)
    let ops : List DomainOp := [.activate 1 0, .activate 2 0, .select, .served 1 1,
      .request 1 ⟨1, 8, 4, 1, true, 0⟩, .updateWeightPrio 1, .deactivate 2 false, .activate 1 0]
    let s := weightMachine.final (.ok (Domain.init entity)) ops
    (∃ d, s = .ok d ∧ ∀ i, (d.serviceTree i).wsum.toNat = d.load i ∧
      ((d.serviceTree i).wsum = 0 ↔ ∀ e, (d.entity e).onSt = true → ¬d.InClass i e) ∧
      ∀ e, (d.entity e).onSt = true → d.InClass i e → e ∈ d.members none i) ∧
      Returns s fun d ↦ (d.serviceTree 0).wsum = 8 ∧ (d.serviceTree 1).wsum = 0 := by
  intro entity ops s
  have hrun : weightMachine.Permitted (.ok (init entity)) ops := by decide +kernel
  exact ⟨wsum_accounts hrun.runs, by decide +kernel⟩

/-- **A weight sum is zero with a queue in service.** The queue was allocated with the priority 7
and no weight, and asks for the priority 4 before it is activated. In service, the next update
takes the weight that it was allocated with for a request. The next service hits a `BUG_ON`. -/
theorem wsum_vanishes :
    let entity : ℕ → Entity := fun _ ↦ ⟨false, 0, 0, none, 0, 100, 0, 0, 0, 7, 4, 2, 2, true, 49152⟩
    let ops : List DomainOp := [.activate 1 0, .select, .served 1 8,
      .request 1 ⟨100, 0, 4, 2, true, 49144⟩, .updateWeightPrio 1]
    Returns (ops.foldl execOp (.ok (Domain.init entity))) fun d ↦ (d.serviceTree 1).wsum = 0 ∧
      d.activeEntity = some 1 ∧ (d.entity 1).onSt = true ∧ d.InClass 1 1 ∧
      Meets (d.step (.served 1 8)) (· = .bug) fun _ ↦ False := by
  intro entity ops
  decide +kernel

/-- **Every entity is where its fields say.** All trees are red-black, `tree` names the tree an
entity is on, and `on_st` is set for those on a tree and the one in service. -/
theorem entities_placed {entity : ℕ → Entity} {ops : List DomainOp} {s : Except Halt Domain}
    (hrun : weightMachine.Runs (.ok (init entity)) ops s) : Returns s (Placed none) := by
  obtain ⟨d, rfl, h⟩ := hrun.invariant (I := fun s ↦ ∃ d, s = .ok d ∧ Weighed d) (by
    rintro _ op ⟨d, rfl, h⟩ hg
    exact h.step hg) ⟨_, rfl, init_sound entity, nofun, fun i ↦ Nat.zero_le _⟩
  exact h.sound.toPlaced

theorem entities_placed_select : Returns (weightMachine.final (.ok (init fun _ ↦ plainEntity 1))
    [.activate 1 0, .activate 2 0, .select]) (Placed none) :=
  entities_placed (Machine.Permitted.runs (by decide +kernel))

end Bfq
