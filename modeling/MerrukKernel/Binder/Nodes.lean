import Mathlib.Data.List.Sort
import MerrukKernel.Library.Ledger

/-!
# Nodes and references of the binder driver

A process offers an object to others as a **node**; another process names it by a **reference**, a
number in that process's own table. This module is the bookkeeping of the two in `binder.c`:
`binder_inc_node`, `binder_dec_node`, the lookup and creation of references, `binder_inc_ref`,
`binder_dec_ref` and `binder_delete_ref`.

## What is modelled how

* A node is found under the address `kzalloc` gave it, which is a number never used before, so
  that a pointer to a freed node is seen as such: a function that follows one returns `none`.
* All references of all processes are the entries of one ledger. `node->refs` are its entries for
  the node, `proc->refs_by_desc` and `proc->refs_by_node` are its entries for the process; a
  reference is named by its process and its descriptor.
* Of the work item of a node, only which list it is on is kept: the `todo` list of a thread or of
  the process that owns the node.
* The counters are C `int`s, taken as integers; `overflow` is set when one leaves their range.
* `freed` is not a field of the driver. It records, for every `kfree` of a node, what the node was
  like at that moment.

Priorities, death notifications and debug identifiers do not enter any count and are left out.
-/

namespace Binder

open Ledger

/-- The list a work item is on. -/
inductive Queue
  | thread (t : ℕ)
  | proc (p : ℕ)
  deriving DecidableEq, Repr

/-- `struct binder_node`. -/
structure Node where
  /-- `proc`, `none` once the owner is gone. -/
  proc : Option ℕ
  /-- `ptr`, the name of the object in its owner. -/
  ptr : BitVec 32
  cookie : BitVec 32
  internalStrongRefs : ℤ := 0
  localStrongRefs : ℤ := 0
  localWeakRefs : ℤ := 0
  /-- `has_strong_ref`: the owner has been told to hold the object. -/
  hasStrongRef : Bool := false
  /-- `pending_strong_ref`: and has not confirmed it yet. -/
  pendingStrongRef : Bool := false
  hasWeakRef : Bool := false
  pendingWeakRef : Bool := false
  acceptFds : Bool := false
  /-- The list `work.entry` is on. -/
  work : Option Queue := none
  deriving DecidableEq, Repr

/-- Add `k` to the counter that `strong` and `internal` select. Internal weak references are the
entries of `node->refs`, so there is no counter for them. -/
def Node.count (nd : Node) (strong internal : Bool) (k : ℤ) : Node :=
  if strong then
    if internal then { nd with internalStrongRefs := nd.internalStrongRefs + k }
    else { nd with localStrongRefs := nd.localStrongRefs + k }
  else
    if internal then nd else { nd with localWeakRefs := nd.localWeakRefs + k }

/-- The counts of a node are in the range of an `int`. -/
def Node.inRange (nd : Node) : Bool :=
  [nd.internalStrongRefs, nd.localWeakRefs, nd.localStrongRefs].all fun k ↦
    -2 ^ 31 ≤ k ∧ k < 2 ^ 31

/-- `pending_strong_ref` or `pending_weak_ref`. -/
def Node.pending (nd : Node) (strong : Bool) : Bool :=
  if strong then nd.pendingStrongRef else nd.pendingWeakRef

/-- Write `pending_strong_ref` or `pending_weak_ref`. -/
def Node.setPending (nd : Node) (strong b : Bool) : Node :=
  if strong then { nd with pendingStrongRef := b } else { nd with pendingWeakRef := b }

/-- `struct binder_ref`. -/
structure Ref where
  proc : ℕ
  desc : ℕ
  node : ℕ
  strong : ℕ := 0
  weak : ℕ := 0
  deriving DecidableEq, Repr

/-- The count `strong` or `weak`. -/
def Ref.count (r : Ref) (strong : Bool) : ℕ := if strong then r.strong else r.weak

/-- Write the count `strong` or `weak`. -/
def Ref.setCount (r : Ref) (strong : Bool) (k : ℕ) : Ref :=
  if strong then { r with strong := k } else { r with weak := k }

/-- The counts of a reference are in the range of an `int`. -/
def Ref.inRange (r : Ref) : Bool := r.strong < 2 ^ 31 ∧ r.weak < 2 ^ 31

/-- A node at the moment of its `kfree`. -/
structure Freed where
  node : Node
  refs : ℕ
  closing : Bool
  deriving DecidableEq, Repr

/-- **Nodes, references and open files** of all processes. -/
structure Registry where
  nodes : ℕ → Option Node
  nextNode : ℕ
  refs : List Ref
  /-- `binder_context_mgr_node`. -/
  contextMgr : Option ℕ
  /-- The tables of open files: the `struct file` under a descriptor of a process. -/
  files : ℕ → BitVec 32 → Option ℕ
  freed : List Freed
  /-- A count has left the range of an `int`, and would have wrapped. -/
  overflow : Bool

namespace Registry

/-- Write a node. -/
def setNode (s : Registry) (n : ℕ) (nd : Node) : Registry :=
  { s with
    nodes := Function.update s.nodes n (some nd)
    overflow := s.overflow || s.nodes n ≠ some nd && !nd.inRange }

/-- How many references a node has. -/
def refCount (s : Registry) (n : ℕ) : ℕ := (s.refs.filter (·.node = n)).length

/-- `kfree` of a node. -/
def kfreeNode (s : Registry) (n : ℕ) (nd : Node) (closing : Bool) : Registry :=
  { s with
    nodes := Function.update s.nodes n none
    freed := ⟨nd, s.refCount n, closing⟩ :: s.freed }

/-! ### Nodes -/

/-- `binder_get_node`: the node a process offers under a name. -/
def getNode (s : Registry) (p : ℕ) (ptr : BitVec 32) : Option ℕ :=
  (List.range s.nextNode).find? fun n ↦
    match s.nodes n with
    | none => false
    | some nd => nd.proc = some p ∧ nd.ptr = ptr

/-- `binder_new_node`: `none` where the name is taken or there is no memory. -/
def newNode (s : Registry) (p : ℕ) (ptr cookie : BitVec 32) (acceptFds memory : Bool) :
    Option (ℕ × Registry) :=
  if (s.getNode p ptr).isSome ∨ memory = false then none
  else
    some (s.nextNode, { s with
        nodes := Function.update s.nodes s.nextNode
          (some { proc := some p, ptr := ptr, cookie := cookie, acceptFds := acceptFds })
        nextNode := s.nextNode + 1 })

/-- `binder_inc_node`. The flag is whether it returned `0`. -/
def incNode (s : Registry) (n : ℕ) (strong internal : Bool) (target : Option Queue) :
    Option (Bool × Registry) :=
  match s.nodes n with
  | none => none
  | some nd =>
    if strong then
      if internal = true ∧ target = none ∧ nd.internalStrongRefs = 0 ∧
          ¬ (s.contextMgr = some n ∧ nd.hasStrongRef = true) then
        some (false, s)
      else
        let nd := nd.count true internal 1
        some (true,
          s.setNode n (if nd.hasStrongRef then nd else { nd with work := target.or nd.work }))
    else
      let nd := nd.count false internal 1
      if nd.hasWeakRef = false ∧ nd.work = none then
        some (target.isSome, s.setNode n { nd with work := target })
      else some (true, s.setNode n nd)

/-- The second half of `binder_dec_node`, reached when the last reference of the kind is gone: have
the owner told, or free the node. -/
def settleNode (s : Registry) (n : ℕ) (nd : Node) : Registry :=
  match nd.proc with
  | some p =>
    if nd.hasStrongRef ∨ nd.hasWeakRef then
      s.setNode n { nd with work := nd.work.or (some (.proc p)) }
    else if s.refCount n = 0 ∧ nd.localStrongRefs = 0 ∧ nd.localWeakRefs = 0 then
      s.kfreeNode n nd false
    else s.setNode n nd
  | none =>
    if s.refCount n = 0 ∧ nd.localStrongRefs = 0 ∧ nd.localWeakRefs = 0 then
      s.kfreeNode n nd false
    else s.setNode n nd

/-- `binder_dec_node`. -/
def decNode (s : Registry) (n : ℕ) (strong internal : Bool) : Option Registry :=
  match s.nodes n with
  | none => none
  | some nd =>
    let nd := nd.count strong internal (-1)
    if strong then
      if nd.localStrongRefs ≠ 0 ∨ nd.internalStrongRefs ≠ 0 then some (s.setNode n nd)
      else some (s.settleNode n nd)
    else
      if nd.localWeakRefs ≠ 0 ∨ s.refCount n ≠ 0 then some (s.setNode n nd)
      else some (s.settleNode n nd)

/-! ### References -/

/-- The test for the reference `desc` of process `p`. -/
def isRef (p desc : ℕ) (r : Ref) : Bool := r.proc = p ∧ r.desc = desc

/-- `binder_get_ref`. -/
def getRef (s : Registry) (p desc : ℕ) : Option Ref := s.refs.find? (isRef p desc)

/-- The loop over `refs_by_desc` that looks for an unused descriptor. -/
def firstGap : ℕ → List ℕ → ℕ
  | desc, [] => desc
  | desc, x :: l => if desc < x then desc else firstGap (x + 1) l

/-- The descriptor a new reference of process `p` to node `n` gets. -/
def newDesc (s : Registry) (p n : ℕ) : ℕ :=
  firstGap (if s.contextMgr = some n then 0 else 1)
    (((s.refs.filter (·.proc = p)).map (·.desc)).insertionSort (· ≤ ·))

/-- `binder_get_ref_for_node`: the descriptor under which process `p` knows node `n`, a new one if
need be; `none` where there is no memory for it, as there never is for 2 ^ 32 of them. -/
def getRefForNode (s : Registry) (p n : ℕ) (memory : Bool) : Option (ℕ × Registry) :=
  match s.refs.find? (fun r ↦ r.proc = p ∧ r.node = n) with
  | some r => some (r.desc, s)
  | none =>
    if memory = true ∧ s.refs.length + 1 < 2 ^ 32 then
      let desc := s.newDesc p n
      some (desc, { s with refs := { proc := p, desc := desc, node := n } :: s.refs })
    else none

/-- Write a reference. -/
def setRef (s : Registry) (p desc : ℕ) (r : Ref) : Registry :=
  { s with
    refs := modifyFirst (isRef p desc) (fun _ ↦ r) s.refs
    overflow := s.overflow || !r.inRange }

/-- `binder_inc_ref`. The flag is whether it returned `0`. -/
def incRef (s : Registry) (p desc : ℕ) (strong : Bool) (target : Option Queue) :
    Option (Bool × Registry) :=
  match s.getRef p desc with
  | none => none
  | some r =>
    let r' := r.setCount strong (r.count strong + 1)
    if r.count strong = 0 then
      match s.incNode r.node strong true target with
      | none => none
      | some (true, s) => some (true, s.setRef p desc r')
      | some (false, s) => some (false, s)
    else some (true, s.setRef p desc r')

/-- Take a reference off all lists and trees. -/
def eraseRef (s : Registry) (p desc : ℕ) : Registry :=
  { s with refs := s.refs.eraseP (isRef p desc) }

/-- `binder_delete_ref`. The reference is on `node->refs` until its strong count has been given
back. -/
def deleteRef (s : Registry) (p desc : ℕ) : Option Registry :=
  match s.getRef p desc with
  | none => none
  | some r =>
    (if r.strong ≠ 0 then s.decNode r.node true true else some s).bind fun s ↦
      (s.eraseRef p desc).decNode r.node false true

/-- `binder_dec_ref`. -/
def decRef (s : Registry) (p desc : ℕ) (strong : Bool) : Option Registry :=
  match s.getRef p desc with
  | none => none
  | some r =>
    if r.count strong = 0 then some s
    else
      let r' := r.setCount strong (r.count strong - 1)
      let s := s.setRef p desc r'
      (if strong = true ∧ r'.strong = 0 then s.decNode r.node true true else some s).bind fun s ↦
        if r'.strong = 0 ∧ r'.weak = 0 then s.deleteRef p desc else some s

end Registry

end Binder
