import MerrukKernel.Binder.Nodes
import MerrukKernel.Library.Trace

/-!
# Objects in transit

The data of a transaction may contain **flat binder objects**: nodes of the sender, references it
holds, file descriptors. An array of offsets says where. `binder_transaction` goes through the
offsets and rewrites each object in place for the receiver, taking a count on whatever it stands
for; `binder_transaction_buffer_release` goes through the same offsets again when the buffer is
freed, or when the rewriting failed half way, and gives the counts back.

## What is modelled how

* The data of a buffer are its 32-bit words. An object is four of them: type, flags, the union of
  `binder` and `handle`, and `cookie`. The offsets are arbitrary 32-bit values.
* What lies outside of the driver (memory, free descriptors, readable user pages) is an `Outcome`
  for every object and three flags for the message.
* The commands of the users of the driver, the reads of node work, the exits of threads and the
  release of a process are the operations of a machine on a `World`: the registry of nodes and
  references and the buffers in flight. Which thread is handed which buffer, and when, is not part
  of it. A buffer may be freed whenever it exists, a reply may go to any process, and the work
  item of a node may be met by anyone, which is more than the driver allows.
* `refused` is not a field of the driver. It is set when `binder_inc_ref` fails on a reference
  that was just looked up or created for it, which the driver ignores.
-/

namespace Binder

open Ledger Function

/-- The types of a flat binder object. -/
inductive ObjType
  | binder
  | weakBinder
  | handle
  | weakHandle
  | fd
  deriving DecidableEq, Repr

/-- The code of a type, `B_PACK_CHARS(c1, c2, '*', B_TYPE_LARGE)`. -/
def ObjType.code : ObjType → BitVec 32
  | .binder => 0x73622a85#32
  | .weakBinder => 0x77622a85#32
  | .handle => 0x73682a85#32
  | .weakHandle => 0x77682a85#32
  | .fd => 0x66642a85#32

/-- The type a word codes, if any. -/
def ObjType.ofCode (w : BitVec 32) : Option ObjType :=
  if w = ObjType.binder.code then some .binder
  else if w = ObjType.weakBinder.code then some .weakBinder
  else if w = ObjType.handle.code then some .handle
  else if w = ObjType.weakHandle.code then some .weakHandle
  else if w = ObjType.fd.code then some .fd
  else none

/-- The type of an object that stands for a node. -/
def ObjType.node (strong : Bool) : ObjType := if strong then .binder else .weakBinder

/-- The type of an object that stands for a reference. -/
def ObjType.ref (strong : Bool) : ObjType := if strong then .handle else .weakHandle

/-- The words of a buffer. -/
abbrev Words := ℕ → BitVec 32

/-- `FLAT_BINDER_FLAG_ACCEPTS_FDS`. -/
def acceptsFds (flags : BitVec 32) : Bool := flags &&& 0x100#32 ≠ 0#32

/-- The test on an offset that both loops make: a whole object of 16 bytes fits, and the offset is
aligned. -/
def validOffset (dataSize : ℕ) (off : BitVec 32) : Bool :=
  16 ≤ dataSize ∧ off.toNat ≤ dataSize - 16 ∧ off.toNat % 4 = 0

/-- The first word of the object at an offset. -/
def objAt (off : BitVec 32) : ℕ := off.toNat / 4

/-- Rewrite the type, the value and the cookie of an object. -/
def putObj (w : Words) (i : ℕ) (type : ObjType) (value cookie : BitVec 32) : Words :=
  update (update (update w i type.code) (i + 2) value) (i + 3) cookie

/-- What the translation of an object meets outside of the driver. -/
structure Outcome where
  nodeMemory : Bool := true
  refMemory : Bool := true
  /-- The descriptor the table of the receiver has to spare, if any. -/
  unusedFd : Option (BitVec 32) := none

/-- How a round of the translation ended. -/
inductive Verdict
  | failed
  /-- The words are now these; `granted` says whether the count was taken. -/
  | done (words : Words) (granted : Bool)

/-- The verdict on an object that becomes a reference of the receiver. -/
def Verdict.ofRef (w : Words) (i : ℕ) (strong : Bool) : Option (ℕ × Bool) → Verdict
  | none => .failed
  | some (desc, granted) =>
    .done (putObj w i (.ref strong) (BitVec.ofNat 32 desc) (w (i + 3))) granted

/-- How the whole translation ended. -/
structure Translated where
  reg : Registry
  words : Words
  done : ℕ
  ok : Bool
  granted : Bool

namespace Registry

/-! ### Translation -/

/-- `binder_get_node`, and where there is none `binder_new_node`. -/
def getOrNewNode (s : Registry) (p : ℕ) (ptr cookie flags : BitVec 32) (memory : Bool) :
    Option (ℕ × Registry) :=
  match s.getNode p ptr with
  | some n => some (n, s)
  | none => s.newNode p ptr cookie (acceptsFds flags) memory

/-- A reference of process `tp` to node `n` is looked up or created, and counted. The handle and
whether it was counted. -/
def grantRef (s : Registry) (tp n : ℕ) (strong memory : Bool) (target : Option Queue) :
    Option (Option (ℕ × Bool) × Registry) :=
  match s.getRefForNode tp n memory with
  | none => some (none, s)
  | some (desc, s) => (s.incRef tp desc strong target).map fun r ↦ (some (desc, r.1), r.2)

/-- The case `BINDER_TYPE_BINDER` and `BINDER_TYPE_WEAK_BINDER`: a node of the sender becomes a
reference of the receiver. A node made for it stays when there is no memory for the reference. -/
def translateBinder (s : Registry) (p t tp : ℕ) (strong : Bool) (w : Words) (i : ℕ)
    (o : Outcome) : Option (Verdict × Registry) :=
  match s.getOrNewNode p (w (i + 2)) (w (i + 3)) (w (i + 1)) o.nodeMemory with
  | none => some (.failed, s)
  | some (n, s) =>
    match s.nodes n with
    | none => none
    | some nd =>
      if w (i + 3) ≠ nd.cookie then some (.failed, s)
      else
        (s.grantRef tp n strong o.refMemory (some (.thread t))).map fun u ↦
          (.ofRef w i strong u.1, u.2)

/-- The case `BINDER_TYPE_HANDLE` and `BINDER_TYPE_WEAK_HANDLE`: a reference of the sender becomes
a node of the receiver if it owns it, and otherwise a reference of the receiver. What
`binder_inc_node` and `binder_inc_ref` return is ignored. -/
def translateHandle (s : Registry) (p tp : ℕ) (strong : Bool) (w : Words) (i : ℕ) (o : Outcome) :
    Option (Verdict × Registry) :=
  match s.getRef p (w (i + 2)).toNat with
  | none => some (.failed, s)
  | some r =>
    match s.nodes r.node with
    | none => none
    | some nd =>
      if nd.proc = some tp then
        (s.incNode r.node strong false none).map fun u ↦
          (.done (putObj w i (.node strong) nd.ptr nd.cookie) true, u.2)
      else
        (s.grantRef tp r.node strong o.refMemory none).map fun u ↦ (.ofRef w i strong u.1, u.2)

/-- Write an entry of a table of open files. -/
def setFile (s : Registry) (p : ℕ) (fd : BitVec 32) (f : Option ℕ) : Registry :=
  { s with files := update s.files p (update (s.files p) fd f) }

/-- The case `BINDER_TYPE_FD`: the file is opened in the receiver as well. -/
def translateFd (s : Registry) (p tp : ℕ) (allowFds : Bool) (w : Words) (i : ℕ) (o : Outcome) :
    Verdict × Registry :=
  match (if allowFds then s.files p (w (i + 2)) else none), o.unusedFd with
  | some f, some fd =>
    if (s.files tp fd).isSome then (.failed, s)
    else (.done (putObj w i .fd fd (w (i + 3))) true, s.setFile tp fd (some f))
  | _, _ => (.failed, s)

/-- One round of the loop of `binder_transaction`. -/
def translateObj (s : Registry) (p t tp : ℕ) (allowFds : Bool) (dataSize : ℕ) (w : Words)
    (off : BitVec 32) (o : Outcome) : Option (Verdict × Registry) :=
  if validOffset dataSize off then
    match ObjType.ofCode (w (objAt off)) with
    | some .binder => s.translateBinder p t tp true w (objAt off) o
    | some .weakBinder => s.translateBinder p t tp false w (objAt off) o
    | some .handle => s.translateHandle p tp true w (objAt off) o
    | some .weakHandle => s.translateHandle p tp false w (objAt off) o
    | some .fd => some (s.translateFd p tp allowFds w (objAt off) o)
    | none => some (.failed, s)
  else some (.failed, s)

/-- The loop of `binder_transaction`. -/
def translate (p t tp : ℕ) (allowFds : Bool) (dataSize : ℕ) :
    List (BitVec 32 × Outcome) → Registry → Words → Option Translated
  | [], s, w => some ⟨s, w, 0, true, true⟩
  | (off, o) :: l, s, w =>
    match s.translateObj p t tp allowFds dataSize w off o with
    | none => none
    | some (.failed, s) => some ⟨s, w, 0, false, true⟩
    | some (.done w granted, s) =>
      (translate p t tp allowFds dataSize l s w).map fun r ↦
        { r with done := r.done + 1, granted := granted && r.granted }

/-! ### Release -/

/-- The case of `binder_transaction_buffer_release` for a node. -/
def releaseBinder (s : Registry) (p : ℕ) (ptr : BitVec 32) (strong : Bool) : Option Registry :=
  match s.getNode p ptr with
  | none => some s
  | some n => s.decNode n strong false

/-- The case of `binder_transaction_buffer_release` for a reference; also `BC_RELEASE` and
`BC_DECREFS`. -/
def releaseHandle (s : Registry) (p desc : ℕ) (strong : Bool) : Option Registry :=
  match s.getRef p desc with
  | none => some s
  | some _ => s.decRef p desc strong

/-- One round of the loop of `binder_transaction_buffer_release`; `failed` says that `failed_at` is
set. -/
def releaseObj (s : Registry) (p : ℕ) (failed : Bool) (dataSize : ℕ) (w : Words)
    (off : BitVec 32) : Option Registry :=
  if validOffset dataSize off then
    match ObjType.ofCode (w (objAt off)) with
    | some .binder => s.releaseBinder p (w (objAt off + 2)) true
    | some .weakBinder => s.releaseBinder p (w (objAt off + 2)) false
    | some .handle => s.releaseHandle p (w (objAt off + 2)).toNat true
    | some .weakHandle => s.releaseHandle p (w (objAt off + 2)).toNat false
    | some .fd => if failed then some (s.setFile p (w (objAt off + 2)) none) else some s
    | none => some s
  else some s

/-- The loop of `binder_transaction_buffer_release`. -/
def releaseObjs (p : ℕ) (failed : Bool) (dataSize : ℕ) (w : Words) :
    List (BitVec 32) → Registry → Option Registry
  | [], s => some s
  | off :: l, s => (s.releaseObj p failed dataSize w off).bind (releaseObjs p failed dataSize w l)

/-- `binder_transaction_buffer_release` on the objects at the offsets `offs`. -/
def transactionBufferRelease (s : Registry) (p : ℕ) (targetNode : Option ℕ) (failed : Bool)
    (dataSize : ℕ) (w : Words) (offs : List (BitVec 32)) : Option Registry :=
  match targetNode with
  | none => releaseObjs p failed dataSize w offs s
  | some n => (s.decNode n true false).bind (releaseObjs p failed dataSize w offs)

/-! ### Closing -/

/-- The node part of `binder_release_work`: the list `q` loses its work items. -/
def releaseWork (s : Registry) (q : Queue) : Registry :=
  { s with
    nodes := fun n ↦ (s.nodes n).map fun nd ↦
      if nd.work = some q then { nd with work := none } else nd }

/-- The context manager goes with its process. -/
def clearMgr (s : Registry) (p : ℕ) : Registry :=
  { s with contextMgr := s.contextMgr.filter fun n ↦ (s.nodes n).bind (·.proc) ≠ some p }

/-- A node without an owner. -/
def deadNode (nd : Node) : Node :=
  { nd with work := none, proc := none, localStrongRefs := 0, localWeakRefs := 0 }

/-- One round of the loop of `binder_deferred_release` over the nodes of a process. -/
def closeNode (p : ℕ) (s : Registry) (n : ℕ) : Registry :=
  match s.nodes n with
  | none => s
  | some nd =>
    if nd.proc = some p then
      if s.refCount n = 0 then s.kfreeNode n { nd with work := none } true
      else s.setNode n (deadNode nd)
    else s

/-- The loop of `binder_deferred_release` over the references of a process. -/
def deleteRefs (p : ℕ) : List ℕ → Registry → Option Registry
  | [], s => some s
  | desc :: l, s => (s.deleteRef p desc).bind (deleteRefs p l)

end Registry

/-! ### Buffers -/

/-- A buffer in flight, with what its release will read. -/
structure Parcel where
  id : ℕ
  /-- The process that receives it. -/
  proc : ℕ
  /-- `target_node`, `none` for a reply. -/
  targetNode : Option ℕ
  dataSize : ℕ
  /-- The data, as rewritten. -/
  words : Words
  offsets : List (BitVec 32)

/-- What a sender hands in. -/
structure Message where
  dataSize : ℕ
  words : Words
  /-- The offsets, each with what its object meets outside of the driver. -/
  objects : List (BitVec 32 × Outcome)
  /-- The transaction and its buffer could be allocated. -/
  buffer : Bool := true
  /-- The data and the offsets could be copied, and the size of the offsets is a multiple of that of
  one. -/
  copied : Bool := true

/-- The offsets of a message. -/
def Message.offsets (m : Message) : List (BitVec 32) := m.objects.map (·.1)

/-- **The registry and the buffers in flight.** -/
structure World where
  /-- Nodes, references and files. -/
  reg : Registry
  /-- The buffers that have been filled and not been freed. -/
  parcels : List Parcel
  nextParcel : ℕ
  /-- A count was refused and the refusal ignored. -/
  refused : Bool

namespace World

/-- `binder_transaction` once the objects of the message have been gone through: the buffer is
handed over, or what was done is released. -/
def deliver (s : World) (tp : ℕ) (targetNode : Option ℕ) (m : Message) (r : Translated) :
    Option World :=
  if r.ok then
    some
      { reg := r.reg
        parcels := ⟨s.nextParcel, tp, targetNode, m.dataSize, r.words, m.offsets⟩ :: s.parcels
        nextParcel := s.nextParcel + 1
        refused := s.refused || !r.granted }
  else
    (r.reg.transactionBufferRelease tp targetNode true m.dataSize r.words
      (m.offsets.take r.done)).map fun reg ↦
        { s with reg := reg, refused := s.refused || !r.granted }

/-- The count on the target of a call. -/
def holdTarget (reg : Registry) : Option ℕ → Option Registry
  | none => some reg
  | some n => (reg.incNode n true false none).map (·.2)

/-- `binder_transaction` from the point where the receiver `tp` is known: for a call to
`targetNode`, or for a reply. -/
def send (s : World) (p t tp : ℕ) (targetNode : Option ℕ) (allowFds : Bool) (m : Message) :
    Option World :=
  if m.buffer = false then some s
  else
    (holdTarget s.reg targetNode).bind fun reg ↦
      if m.copied = false then s.deliver tp targetNode m ⟨reg, m.words, 0, false, true⟩
      else
        (Registry.translate p t tp allowFds m.dataSize m.objects reg m.words).bind
          (s.deliver tp targetNode m)

/-- The node a handle names. -/
def target (s : World) (p handle : ℕ) : Option ℕ :=
  if handle = 0 then s.reg.contextMgr else (s.reg.getRef p handle).map (·.node)

/-- `BC_TRANSACTION`: the receiver is the owner of the node named by `handle`. -/
def transaction (s : World) (p t handle : ℕ) (m : Message) : Option World :=
  match s.target p handle with
  | none => some s
  | some n =>
    match s.reg.nodes n with
    | none => none
    | some nd =>
      match nd.proc with
      | none => some s
      | some tp => s.send p t tp (some n) nd.acceptFds m

/-- `BC_FREE_BUFFER`. -/
def freeBuffer (s : World) (id : ℕ) : Option World :=
  match s.parcels.find? (fun b ↦ b.id = id) with
  | none => some s
  | some b =>
    (s.reg.transactionBufferRelease b.proc b.targetNode false b.dataSize b.words b.offsets).map
      fun reg ↦ { s with reg := reg, parcels := s.parcels.eraseP (fun b ↦ b.id = id) }

/-- `BC_INCREFS` and `BC_ACQUIRE`. Without memory for a reference to the context manager the driver
follows a null pointer. -/
def incRefs (s : World) (p desc : ℕ) (strong memory : Bool) : Option World :=
  match (if desc = 0 then s.reg.contextMgr else none) with
  | some n =>
    match s.reg.grantRef p n strong memory none with
    | some (some (_, granted), reg) => some { s with reg := reg, refused := s.refused || !granted }
    | _ => none
  | none =>
    match s.reg.getRef p desc with
    | none => some s
    | some _ => (s.reg.incRef p desc strong none).map fun r ↦ { s with reg := r.2 }

/-- `BC_RELEASE` and `BC_DECREFS`. -/
def decRefs (s : World) (p desc : ℕ) (strong : Bool) : Option World :=
  (s.reg.releaseHandle p desc strong).map fun reg ↦ { s with reg := reg }

/-- `BC_INCREFS_DONE` and `BC_ACQUIRE_DONE`. -/
def refsDone (s : World) (p : ℕ) (ptr cookie : BitVec 32) (strong : Bool) : Option World :=
  match s.reg.getNode p ptr with
  | none => some s
  | some n =>
    match s.reg.nodes n with
    | none => none
    | some nd =>
      if cookie ≠ nd.cookie ∨ nd.pending strong = false then some s
      else
        ((s.reg.setNode n (nd.setPending strong false)).decNode n strong false).map fun reg ↦
          { s with reg := reg }

/-- `BINDER_SET_CONTEXT_MGR`. -/
def setContextMgr (s : World) (p : ℕ) (memory : Bool) : Option World :=
  if s.reg.contextMgr.isSome then some s
  else
    match s.reg.newNode p 0 0 false memory with
    | none => some s
    | some (n, reg) =>
      match reg.nodes n with
      | none => none
      | some nd =>
        let nd := (nd.count false false 1).count true false 1
        some { s with
          reg :=
            { reg.setNode n { nd with hasStrongRef := true, hasWeakRef := true } with
              contextMgr := some n } }

/-- The case `BINDER_WORK_NODE` of `binder_thread_read`: one command to the owner, or the end of the
work item. -/
def readNode (s : World) (n : ℕ) : Option World :=
  match s.reg.nodes n with
  | none => none
  | some nd =>
    let strong : Bool := nd.internalStrongRefs ≠ 0 ∨ nd.localStrongRefs ≠ 0
    let weak : Bool := s.reg.refCount n ≠ 0 ∨ nd.localWeakRefs ≠ 0 ∨ strong = true
    let reg :=
      -- `BR_INCREFS`
      if weak = true ∧ nd.hasWeakRef = false then
        s.reg.setNode n { (nd.setPending false true).count false false 1 with hasWeakRef := true }
      -- `BR_ACQUIRE`
      else if strong = true ∧ nd.hasStrongRef = false then
        s.reg.setNode n { (nd.setPending true true).count true false 1 with hasStrongRef := true }
      -- `BR_RELEASE`
      else if strong = false ∧ nd.hasStrongRef = true then
        s.reg.setNode n { nd with hasStrongRef := false }
      -- `BR_DECREFS`
      else if weak = false ∧ nd.hasWeakRef = true then
        s.reg.setNode n { nd with hasWeakRef := false }
      else if weak = false ∧ strong = false then
        s.reg.kfreeNode n { nd with work := none } false
      else s.reg.setNode n { nd with work := none }
    some { s with reg := reg }

/-- `binder_deferred_release`, as far as nodes, references and buffers go; `threads` are the threads
of the process. The buffers go with the process, and nothing is released for them. -/
def deferredRelease (s : World) (p : ℕ) (threads : List ℕ) : Option World :=
  let reg := threads.foldl (fun reg t ↦ reg.releaseWork (.thread t)) (s.reg.clearMgr p)
  let reg := (List.range reg.nextNode).foldl (Registry.closeNode p) reg
  (Registry.deleteRefs p ((reg.refs.filter (·.proc = p)).map (·.desc)) reg).map fun reg ↦
    { s with
      reg := { reg with files := update reg.files p fun _ ↦ none }
      parcels := s.parcels.filter (·.proc ≠ p) }

end World

/-! ### Runs -/

/-- What changes the counts. -/
inductive RefOp
  | setContextMgr (p : ℕ) (memory : Bool)
  /-- `BC_INCREFS`, or with `strong` `BC_ACQUIRE`. -/
  | incRefs (p desc : ℕ) (strong memory : Bool)
  /-- `BC_DECREFS`, or with `strong` `BC_RELEASE`. -/
  | decRefs (p desc : ℕ) (strong : Bool)
  /-- `BC_INCREFS_DONE`, or with `strong` `BC_ACQUIRE_DONE`. -/
  | refsDone (p : ℕ) (ptr cookie : BitVec 32) (strong : Bool)
  /-- `BC_TRANSACTION` by thread `t` of process `p`. -/
  | transaction (p t handle : ℕ) (m : Message)
  /-- `BC_REPLY` by thread `t` of process `p` to a thread of process `tp`. -/
  | reply (p t tp : ℕ) (allowFds : Bool) (m : Message)
  | freeBuffer (id : ℕ)
  /-- `binder_thread_read` meets the work item of a node. -/
  | readNode (n : ℕ)
  | threadExit (t : ℕ)
  /-- `binder_deferred_release`; `threads` are the threads of the process. -/
  | deferredRelease (p : ℕ) (threads : List ℕ)
  /-- A process opens or closes a file. -/
  | setFile (p : ℕ) (fd : BitVec 32) (f : Option ℕ)

/-- One operation. `none`: it followed a pointer to freed memory or a null pointer. -/
def World.step (s : World) : RefOp → Option World
  | .setContextMgr p memory => s.setContextMgr p memory
  | .incRefs p desc strong memory => s.incRefs p desc strong memory
  | .decRefs p desc strong => s.decRefs p desc strong
  | .refsDone p ptr cookie strong => s.refsDone p ptr cookie strong
  | .transaction p t handle m => s.transaction p t handle m
  | .reply p t tp allowFds m => s.send p t tp none allowFds m
  | .freeBuffer id => s.freeBuffer id
  | .readNode n => s.readNode n
  | .threadExit t => some { s with reg := s.reg.releaseWork (.thread t) }
  | .deferredRelease p threads => s.deferredRelease p threads
  | .setFile p fd f => some { s with reg := s.reg.setFile p fd f }

/-- The empty registry. -/
def World.empty : World :=
  { reg := ⟨fun _ ↦ none, 0, [], none, fun _ _ ↦ none, [], false⟩
    parcels := []
    nextParcel := 0
    refused := false }

/-- **Nodes and references as a machine.** The work item of a node is met only while it is on a
list, and no count leaves the range of an `int`. A run ends where there is no memory for a reference
to the context manager: the driver then follows a null pointer. Any other way to `none` is through a
pointer to freed memory. -/
def refMachine : Machine (Option World) RefOp where
  guard s op :=
    (match s, op with
    | some w, .readNode n => ((w.reg.nodes n).bind (·.work)).isSome = true
    | some w, .incRefs p desc _ memory =>
      ∀ n ∈ (if desc = 0 then w.reg.contextMgr else none),
        (w.reg.getRefForNode p n memory).isSome = true
    | _, _ => True) ∧
      ((s.bind fun w ↦ w.step op).map fun w ↦ w.reg.overflow) ≠ some true
  exec s op := s.bind fun w ↦ w.step op

instance (s : Option World) (op : RefOp) : Decidable (refMachine.guard s op) := by
  unfold refMachine
  cases s <;> cases op <;> exact instDecidableAnd

end Binder
