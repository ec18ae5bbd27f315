import MerrukKernel.Library.LinkRing
import MerrukKernel.Ipc.Fifo

/-!
# Queues in shared memory

The intrusive queues of `ipc_queues.c`: doubly linked rings whose links are offsets from the base of
shared memory. A queue head and a queue entry are both an `IPC_QEntry_T`, so one heap of links
carries every queue; the functions below write it link by link, in the order of the source.

The ring theory is `LinkRing`: `IsQueue` is its predicate at this heap, and the two specifications
`IsQueue.qAddBack` and `IsQueue.qGetFirst` are its two operations.
-/

open LinkRing

namespace Ipc

open Function

/-- `IPC_QEntry_T`. -/
structure QEntry where
  next : SmPtr
  previous : SmPtr
  item : SmPtr

/-- The queue entries of shared memory, by offset. -/
abbrev Links := SmPtr → QEntry

namespace Links

/-- The forward links. -/
def next (l : Links) (a : SmPtr) : SmPtr := (l a).next

/-- The backward links. -/
def prev (l : Links) (a : SmPtr) : SmPtr := (l a).previous

/-- The item a queue entry belongs to. -/
def item (l : Links) (a : SmPtr) : SmPtr := (l a).item

/-- Write `Next` of the entry at `a`. -/
def setNext (l : Links) (a v : SmPtr) : Links := update l a { l a with next := v }

/-- Write `Previous` of the entry at `a`. -/
def setPrevious (l : Links) (a v : SmPtr) : Links :=
  update l a { l a with previous := v }

/-- Write `Item` of the entry at `a`. -/
def setItem (l : Links) (a v : SmPtr) : Links := update l a { l a with item := v }

variable (l : Links) (a v : SmPtr)

@[simp] theorem next_setNext : (l.setNext a v).next = update l.next a v := by
  funext b
  by_cases h : b = a <;> simp [next, setNext, h]

@[simp] theorem prev_setNext : (l.setNext a v).prev = l.prev := by
  funext b
  by_cases h : b = a <;> simp [prev, setNext, h]

@[simp] theorem item_setNext : (l.setNext a v).item = l.item := by
  funext b
  by_cases h : b = a <;> simp [item, setNext, h]

@[simp] theorem next_setPrevious : (l.setPrevious a v).next = l.next := by
  funext b
  by_cases h : b = a <;> simp [next, setPrevious, h]

@[simp] theorem prev_setPrevious : (l.setPrevious a v).prev = update l.prev a v := by
  funext b
  by_cases h : b = a <;> simp [prev, setPrevious, h]

@[simp] theorem item_setPrevious : (l.setPrevious a v).item = l.item := by
  funext b
  by_cases h : b = a <;> simp [item, setPrevious, h]

@[simp] theorem next_setItem : (l.setItem a v).next = l.next := by
  funext b
  by_cases h : b = a <;> simp [next, setItem, h]

@[simp] theorem prev_setItem : (l.setItem a v).prev = l.prev := by
  funext b
  by_cases h : b = a <;> simp [prev, setItem, h]

@[simp] theorem item_setItem : (l.setItem a v).item = update l.item a v := by
  funext b
  by_cases h : b = a <;> simp [item, setItem, h]

end Links

/-! ### The queue functions -/

/-- `IPC_QInitialise`. -/
def qInitialise (l : Links) (queue item : SmPtr) : Links :=
  ((l.setNext queue queue).setPrevious queue queue).setItem queue item

/-- `IPC_QAddBack`. -/
def qAddBack (l : Links) (entry queue : SmPtr) : Links :=
  let previousPtr := l.prev queue
  let l := l.setNext entry queue
  let l := l.setPrevious entry (l.prev queue)
  let l := l.setNext previousPtr entry
  l.setPrevious queue entry

/-- `IPC_QGetFirst`: the first entry, unlinked, or `0` when the head points to itself. -/
def qGetFirst (l : Links) (queue : SmPtr) : SmPtr × Links :=
  let entry := l.next queue
  let nextPtr := l.next entry
  if entry = queue then (0, l)
  else
    let l := l.setNext queue (l.next entry)
    let l := l.setPrevious nextPtr queue
    let l := l.setNext entry entry
    (entry, l.setPrevious entry entry)

/-! ### Queues as rings -/

/-- The entries `xs` are queued, in order, on the queue at `queue`. -/
def IsQueue (l : Links) (queue : SmPtr) (xs : List SmPtr) : Prop :=
  IsRing l.next l.prev queue xs
deriving Decidable

/-- Read a queue back, at most `k` entries of it. -/
def queueEntries (l : Links) (queue : SmPtr) (k : ℕ) : List SmPtr :=
  walk l.next queue k (l.next queue)

variable {l : Links} {queue entry : SmPtr} {xs : List SmPtr}

theorem IsQueue.queueEntries_eq (h : IsQueue l queue xs) {k : ℕ} (hk : xs.length ≤ k) :
    queueEntries l queue k = xs :=
  IsRing.walk_eq h hk

theorem isQueue_qInitialise (l : Links) (queue item : SmPtr) :
    IsQueue (qInitialise l queue item) queue [] := by
  refine ⟨?_, by simp⟩
  simp [qInitialise, LinkRing.Path]

/-- `IPC_QAddBack` queues an entry that was on no queue with this head. -/
theorem IsQueue.qAddBack (h : IsQueue l queue xs) (he : entry ∉ queue :: xs) :
    IsQueue (qAddBack l entry queue) queue (xs ++ [entry]) := by
  have hins := IsRing.insertBack h he
  simpa only [IsQueue, Ipc.qAddBack, Links.next_setPrevious, Links.next_setNext,
    Links.prev_setPrevious, Links.prev_setNext] using hins

theorem qGetFirst_nil (h : IsQueue l queue []) : qGetFirst l queue = (0, l) :=
  if_pos (IsRing.next_eq_head_iff h |>.2 rfl)

/-- `IPC_QGetFirst` takes the oldest entry. -/
theorem IsQueue.qGetFirst {x : SmPtr} (h : IsQueue l queue (x :: xs)) :
    (qGetFirst l queue).1 = x ∧ IsQueue (qGetFirst l queue).2 queue xs := by
  have hx : l.next queue = x := h.path.1
  have hne : x ≠ queue := fun heq ↦ (List.nodup_cons.1 h.nodup).1 (by simp [heq])
  have hpop := IsRing.popFront h
  unfold Ipc.qGetFirst
  simp only [hx, if_neg hne, true_and]
  simpa only [IsQueue, Links.next_setPrevious, Links.next_setNext, Links.prev_setPrevious,
    Links.prev_setNext] using hpop

/-! ### What the operations leave alone -/

/-- A queue is unaffected by changes away from its head and its entries. -/
theorem IsQueue.congr {l' : Links} (h : IsQueue l queue xs)
    (hl : ∀ a ∈ queue :: xs, l'.next a = l.next a ∧ l'.prev a = l.prev a) :
    IsQueue l' queue xs :=
  IsRing.congr h (fun a ha ↦ (hl a ha).1) (fun a ha ↦ (hl a ha).2)

/-- `IPC_QAddBack` writes only the entry, the head and the entry that was last. -/
theorem qAddBack_frame (h : IsQueue l queue xs) {a : SmPtr} (ha : a ∉ queue :: xs)
    (hae : a ≠ entry) :
    (qAddBack l entry queue).next a = l.next a ∧ (qAddBack l entry queue).prev a = l.prev a := by
  have hlast : a ≠ l.prev queue := fun heq ↦ ha (heq ▸ h.path.prev_mem)
  have hq : a ≠ queue := fun heq ↦ ha (by simp [heq])
  simp [qAddBack, update_of_ne, hlast, hq, hae]

/-- `IPC_QGetFirst` writes only the head and entries of its queue. -/
theorem qGetFirst_frame (h : IsQueue l queue xs) {a : SmPtr} (ha : a ∉ queue :: xs) :
    (qGetFirst l queue).2.next a = l.next a ∧ (qGetFirst l queue).2.prev a = l.prev a := by
  cases xs with
  | nil => rw [qGetFirst_nil h]; exact ⟨rfl, rfl⟩
  | cons x xs =>
    have hx : l.next queue = x := h.path.1
    have hne : x ≠ queue := fun heq ↦ (List.nodup_cons.1 h.nodup).1 (by simp [heq])
    have hax : a ≠ x := fun heq ↦ ha (by simp [heq])
    have haq : a ≠ queue := fun heq ↦ ha (by simp [heq])
    have hanext : a ≠ l.next x := by
      rintro rfl
      cases xs with
      | nil => exact haq h.path.2.2.1
      | cons y ys => exact ha (by simp [show l.next x = y from h.path.2.2.1])
    simp [qGetFirst, hx, hne, update_of_ne, hax, haq, hanext]

@[simp] theorem item_qAddBack (l : Links) (entry queue : SmPtr) :
    (qAddBack l entry queue).item = l.item := by
  simp [qAddBack]

@[simp] theorem item_qGetFirst (l : Links) (queue : SmPtr) :
    (qGetFirst l queue).2.item = l.item := by
  simp only [qGetFirst]
  split <;> simp

end Ipc
