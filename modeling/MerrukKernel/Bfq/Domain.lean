import MerrukKernel.Bfq.Selection

/-!
# A scheduling domain

The `bfq_sched_data` of `bfq-sched.c` has a service tree for each class of priorities. An entity
with `on_st` set is on the active tree or on the idle tree of its class, or in service. This is
the configuration without control groups: entities have no parents, and `next_active` is never
set.

A function stops where a `BUG_ON` is hit (`Halt.bug`) or where a null pointer is followed
(`Halt.fault`).
-/

namespace Bfq

open RedBlack RedBlack.Tree

/-- Why a function does not return. -/
inductive Halt
  /-- A `BUG_ON` was hit. -/
  | bug
  /-- A null pointer was followed. -/
  | fault
deriving DecidableEq

/-- The tree an entity is enqueued into. -/
inductive Root
  | active (i : Fin 3)
  | idle (i : Fin 3)
deriving DecidableEq

/-- `bfq_entity`, with the `high_weight_budget` of its queue. -/
structure Entity where
  onSt : Bool
  start : Timestamp
  finish : Timestamp
  tree : Option Root
  service : BitVec 32
  budget : BitVec 32
  weight : BitVec 16
  newWeight : BitVec 16
  origWeight : BitVec 16
  ioprio : BitVec 16
  newIoprio : BitVec 16
  ioprioClass : BitVec 16
  newIoprioClass : BitVec 16
  ioprioChanged : Bool
  highWeightBudget : BitVec 32

/-- `bfq_service_tree` -/
structure ServiceTree where
  active : ActiveTree
  idle : RedBlack.Tree ℕ
  firstIdle : Option ℕ
  lastIdle : Option ℕ
  vtime : Timestamp
  wsum : BitVec 32

/-- `bfq_sched_data`, and the entities. -/
structure Domain where
  entity : ℕ → Entity
  serviceTree : Fin 3 → ServiceTree
  activeEntity : Option ℕ

namespace Domain

/-- An assignment to fields of an entity. -/
def setEntity (d : Domain) (e : ℕ) (f : Entity → Entity) : Domain :=
  { d with entity := Function.update d.entity e (f (d.entity e)) }

/-- An assignment to fields of a service tree. -/
def setTree (d : Domain) (i : Fin 3) (f : ServiceTree → ServiceTree) : Domain :=
  { d with serviceTree := Function.update d.serviceTree i (f (d.serviceTree i)) }

/-- An assignment to `active_entity`. -/
def setActive (d : Domain) (e : Option ℕ) : Domain := { d with activeEntity := e }

def start (d : Domain) (e : ℕ) : Timestamp := (d.entity e).start

def finish (d : Domain) (e : ℕ) : Timestamp := (d.entity e).finish

/-- The weight, as it is added to a sum. -/
def weight (d : Domain) (e : ℕ) : BitVec 32 := (d.entity e).weight.setWidth 32

end Domain

/-! ### Timestamps and weights -/

/-- `bfq_delta` -/
def bfqDelta (service weight : BitVec 32) : Timestamp :=
  (service.setWidth 64 <<< 22) / weight.setWidth 64

/-- `bfq_calc_finish` -/
def bfqCalcFinish (d : Domain) (e : ℕ) (service : BitVec 32) : Except Halt Domain :=
  if (d.entity e).weight = 0 then .error .bug
  else
    .ok (d.setEntity e fun x ↦
      { x with finish := x.start + bfqDelta service (x.weight.setWidth 32) })

/-- `bfq_ioprio_to_weight` -/
def bfqIoprioToWeight (ioprio : BitVec 16) : BitVec 16 := 8 - ioprio

/-- `bfq_weight_to_ioprio` -/
def bfqWeightToIoprio (weight : BitVec 16) : BitVec 16 := if 8 < weight then 0 else 8 - weight

/-- `bfq_entity_service_tree` -/
def bfqEntityServiceTree (x : Entity) : Except Halt (Fin 3) :=
  let idx := (x.ioprioClass.setWidth 32 - 1).toNat
  if h : idx < 3 then .ok ⟨idx, h⟩ else .error .bug

/-! ### The trees -/

/-- `RB_EMPTY_ROOT` -/
def rbEmptyRoot {α : Type} : RedBlack.Tree α → Bool
  | .nil => true
  | .node .. => false

/-- `rb_next`, by the order of the nodes. -/
def rbNext : List ℕ → ℕ → Option ℕ
  | [], _ => none
  | x :: xs, e => if x = e then xs.head? else rbNext xs e

/-- `rb_prev` -/
def rbPrev (xs : List ℕ) (e : ℕ) : Option ℕ := rbNext xs.reverse e

/-- `rb_erase` of an entity of the idle tree. -/
def rbErase (t : RedBlack.Tree ℕ) (e : ℕ) : Option (RedBlack.Tree ℕ) := do
  match ← locate (fun a ↦ a = e) [] t with
  | (.nil, _) => none
  | (.node c l _ r, path) => Rbtree.erase c l r path

/-- A tree that was updated by `lib/rbtree.c`. -/
def updated {α : Type} (t : Option α) : Except Halt α :=
  match t with
  | some t => .ok t
  | none => .error .fault

/-- `bfq_active_insert` into a service tree, with the `min_start` that the entity still has. -/
def activeInsert (d : Domain) (i : Fin 3) (e : ℕ) (m : Timestamp) : Except Halt Domain := do
  if (d.entity e).tree ≠ none then .error .bug
  else
    let t ← updated (bfqActiveInsert d.start d.finish (d.serviceTree i).active e m)
    return (d.setTree i fun st ↦ { st with active := t }).setEntity e
      fun x ↦ { x with tree := some (.active i) }

/-- `bfq_active_extract` from a service tree. -/
def activeExtract (d : Domain) (i : Fin 3) (e : ℕ) : Except Halt Domain := do
  if (d.entity e).tree ≠ some (.active i) then .error .bug
  else
    let t ← updated (bfqActiveExtract d.start (d.serviceTree i).active e)
    return (d.setTree i fun st ↦ { st with active := t }).setEntity e
      fun x ↦ { x with tree := none }

/-- A pointer to the first or the last idle entity after an insertion: `replaces` tells whether
the new entity comes before the one it points to. -/
def insertedPointer (p : Option ℕ) (e : ℕ) (replaces : ℕ → Bool) : Option ℕ :=
  match p with
  | none => some e
  | some x => if replaces x then some e else some x

/-- `bfq_idle_insert` -/
def bfqIdleInsert (d : Domain) (i : Fin 3) (e : ℕ) : Except Halt Domain := do
  let st := d.serviceTree i
  let first := insertedPointer st.firstIdle e fun f ↦ bfqGt (d.finish f) (d.finish e)
  let last := insertedPointer st.lastIdle e fun l ↦ bfqGt (d.finish e) (d.finish l)
  if (d.entity e).tree ≠ none then .error .bug
  else
    let t ← updated
      (Rbtree.insert (fun a ↦ if bfqGt (d.finish a) (d.finish e) then .left else .right) e st.idle)
    return (d.setTree i fun st ↦
      { st with idle := t, firstIdle := first, lastIdle := last }).setEntity e
      fun x ↦ { x with tree := some (.idle i) }

/-- A pointer to the first or the last idle entity after an extraction. -/
def extractedPointer (p : Option ℕ) (e : ℕ) (next : Option ℕ) : Option ℕ :=
  if p = some e then next else p

/-- `bfq_idle_extract` -/
def bfqIdleExtract (d : Domain) (i : Fin 3) (e : ℕ) : Except Halt Domain := do
  let st := d.serviceTree i
  if (d.entity e).tree ≠ some (.idle i) then .error .bug
  else
    let first := extractedPointer st.firstIdle e (rbNext st.idle.toList e)
    let last := extractedPointer st.lastIdle e (rbPrev st.idle.toList e)
    let t ← updated (rbErase st.idle e)
    return (d.setTree i fun st ↦
      { st with idle := t, firstIdle := first, lastIdle := last }).setEntity e
      fun x ↦ { x with tree := none }

/-- `bfq_forget_entity` -/
def bfqForgetEntity (d : Domain) (i : Fin 3) (e : ℕ) : Except Halt Domain :=
  if (d.entity e).onSt = false then .error .bug
  else .ok ((d.setTree i fun st ↦ { st with wsum := st.wsum - d.weight e }).setEntity e
    fun x ↦ { x with onSt := false })

/-- `bfq_put_idle_entity` -/
def bfqPutIdleEntity (d : Domain) (i : Fin 3) (e : ℕ) : Except Halt Domain := do
  let d ← bfqIdleExtract d i e
  bfqForgetEntity d i e

/-- The virtual time that `bfq_forget_idle` sets first, if it was `v`. -/
def forgottenTime (d : Domain) (i : Fin 3) (v : Timestamp) : Timestamp :=
  match (d.serviceTree i).lastIdle with
  | some last =>
    if rbEmptyRoot (d.serviceTree i).active && !bfqGt (d.finish last) v then d.finish last else v
  | none => v

/-- `bfq_forget_idle` -/
def bfqForgetIdle (d : Domain) (i : Fin 3) : Except Halt Domain :=
  let v := forgottenTime d i (d.serviceTree i).vtime
  let d' := d.setTree i fun st ↦ { st with vtime := v }
  match (d.serviceTree i).firstIdle with
  | some first => if bfqGt (d.finish first) v then .ok d' else bfqPutIdleEntity d' i first
  | none => .ok d'

/-! ### Weights and priorities -/

/-- The factor by which the weight of a boosted queue is multiplied. -/
def boostCoeff (x : Entity) : BitVec 32 := 1 + x.highWeightBudget * 10 / 49152

/-- The requested weight and priorities become those in use. -/
def adopt (x : Entity) : Entity :=
  let x :=
    if x.newWeight ≠ x.origWeight then
      { x with origWeight := x.newWeight, ioprio := bfqWeightToIoprio x.newWeight }
    else if x.newIoprio ≠ x.ioprio then
      { x with ioprio := x.newIoprio, origWeight := bfqIoprioToWeight x.newIoprio }
    else
      { x with newWeight := bfqIoprioToWeight x.ioprio, origWeight := bfqIoprioToWeight x.ioprio }
  { x with
    ioprioClass := x.newIoprioClass
    ioprioChanged := false
    weight := (x.origWeight.setWidth 32 * boostCoeff x).setWidth 16 }

/-- The weight of an entity is taken from the sum of its old service tree, the request is adopted,
and the new weight is added to the sum of the new service tree. -/
def Domain.reweigh (d : Domain) (i j : Fin 3) (e : ℕ) : Domain :=
  ((d.setTree i fun st ↦ { st with wsum := st.wsum - d.weight e }).setEntity e adopt).setTree j
    fun st ↦ { st with wsum := st.wsum + (adopt (d.entity e)).weight.setWidth 32 }

/-- `__bfq_entity_update_weight_prio`, and the service tree it returns. -/
def bfqEntityUpdateWeightPrio (d : Domain) (i : Fin 3) (e : ℕ) : Except Halt (Domain × Fin 3) := do
  if (d.entity e).ioprioChanged then
    if (d.serviceTree i).wsum < d.weight e then .error .bug
    else
      let j ← bfqEntityServiceTree (adopt (d.entity e))
      let d := d.reweigh i j e
      if j ≠ i then return (d.setEntity e fun x ↦ { x with start := (d.serviceTree j).vtime }, j)
      else return (d, j)
  else return (d, i)

/-! ### Service, activation and selection -/

/-- `bfq_bfqq_served` -/
def bfqBfqqServed (d : Domain) (e : ℕ) (served : BitVec 32) : Except Halt Domain := do
  let i ← bfqEntityServiceTree (d.entity e)
  let d := d.setEntity e fun x ↦ { x with service := x.service + served }
  if (d.serviceTree i).wsum = 0 then .error .bug
  else
    bfqForgetIdle (d.setTree i fun st ↦ { st with vtime := st.vtime + bfqDelta served st.wsum }) i

/-- The first part of `__bfq_activate_entity`: the entity is taken from where it is, and gets a
start time. -/
def takeUp (d : Domain) (i : Fin 3) (e : ℕ) : Except Halt Domain := do
  if d.activeEntity = some e then
    if (d.entity e).tree ≠ none then .error .bug
    else
      let d ← bfqCalcFinish d e (d.entity e).service
      return (d.setEntity e fun x ↦ { x with start := x.finish }).setActive none
  else if (d.entity e).tree = some (.active i) then activeExtract d i e
  else if (d.entity e).tree = some (.idle i) then
    let d ← bfqIdleExtract d i e
    return d.setEntity e fun x ↦
      { x with
        start := if bfqGt (d.serviceTree i).vtime x.finish then (d.serviceTree i).vtime
          else x.finish }
  else
    if (d.entity e).onSt then .error .bug
    else
      let d' := d.setTree i fun st ↦ { st with wsum := st.wsum + d.weight e }
      return d'.setEntity e fun x ↦ { x with start := (d.serviceTree i).vtime, onSt := true }

/-- `__bfq_activate_entity`, of an entity whose `min_start` is still `m`. -/
def bfqActivateEntity (d : Domain) (e : ℕ) (m : Timestamp) : Except Halt Domain := do
  let i ← bfqEntityServiceTree (d.entity e)
  let d ← takeUp d i e
  let (d, i) ← bfqEntityUpdateWeightPrio d i e
  let d ← bfqCalcFinish d e (d.entity e).budget
  activeInsert d i e m

/-- The entity is taken from where it is by `__bfq_deactivate_entity`. -/
def takeOff (d : Domain) (i : Fin 3) (e : ℕ) : Except Halt Domain := do
  if d.activeEntity = some e then
    if (d.entity e).tree ≠ none then .error .bug
    else
      let d ← bfqCalcFinish d e (d.entity e).service
      return d.setActive none
  else if (d.entity e).tree = some (.active i) then activeExtract d i e
  else if (d.entity e).tree = some (.idle i) then bfqIdleExtract d i e
  else if (d.entity e).tree ≠ none then .error .bug
  else return d

/-- `__bfq_deactivate_entity` -/
def bfqDeactivateEntity (d : Domain) (e : ℕ) (requeue : Bool) : Except Halt Domain := do
  let i ← bfqEntityServiceTree (d.entity e)
  if (d.entity e).onSt = false then return d
  else
    let d ← takeOff d i e
    if requeue = false ∨ bfqGt (d.finish e) (d.serviceTree i).vtime = false then
      bfqForgetEntity d i e
    else bfqIdleInsert d i e

/-- `bfq_update_vtime` -/
def bfqUpdateVtime (d : Domain) (i : Fin 3) : Except Halt Domain :=
  match (d.serviceTree i).active with
  | .nil => .error .fault
  | .node _ _ a _ =>
    if bfqGt a.minStart (d.serviceTree i).vtime then
      bfqForgetIdle (d.setTree i fun st ↦ { st with vtime := a.minStart }) i
    else .ok d

/-- `__bfq_lookup_next_entity` -/
def lookupNextEntity (d : Domain) (i : Fin 3) : Except Halt (Domain × Option ℕ) := do
  if rbEmptyRoot (d.serviceTree i).active then return (d, none)
  else
    let d ← bfqUpdateVtime d i
    match bfqFirstActiveEntity d.start (d.serviceTree i).vtime (d.serviceTree i).active with
    | (_, true) => .error .bug
    | (none, false) => .error .fault
    | (some e, false) =>
      if bfqGt (d.start e) (d.serviceTree i).vtime then .error .bug else return (d, some e)

/-- The loop of `bfq_lookup_next_entity`. -/
def lookupFrom (d : Domain) (extract : Bool) : List (Fin 3) → Except Halt (Domain × Option ℕ)
  | [] => .ok (d, none)
  | i :: is => do
    let (d, found) ← lookupNextEntity d i
    match found with
    | none => lookupFrom d extract is
    | some e =>
      if extract then
        let d ← activeExtract d i e
        return (d.setActive (some e), some e)
      else return (d, some e)

/-- `bfq_lookup_next_entity` -/
def bfqLookupNextEntity (d : Domain) (extract : Bool) : Except Halt (Domain × Option ℕ) :=
  if d.activeEntity ≠ none then .error .bug else lookupFrom d extract [0, 1, 2]

/-- `bfq_get_next_queue`, on a domain with a queue that is active. -/
def bfqGetNextQueue (d : Domain) : Except Halt Domain := do
  let (d, found) ← bfqLookupNextEntity d true
  match found with
  | none => .error .bug
  | some e => return d.setEntity e fun x ↦ { x with service := 0 }

end Bfq
