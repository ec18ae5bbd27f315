import Mathlib.Data.BitVec
import MerrukKernel.Library.Trace

/-!
# Anonymous shared memory: unpinned ranges and their eviction

The part of `mm/ashmem.c` that keeps track of unpinned pages. Each area has a list of the ranges
of its pages that are unpinned; the ranges that have not been purged are also on one LRU list over
all areas, from which the kernel's shrinker evicts, and `lru_count` counts the pages on it.

Ranges are records addressed by identifiers, as the source addresses them by pointers, and the two
intrusive lists of a range are two lists of identifiers. A freed range is on no list and its
identifier is not handed out again.

Page numbers are naturals. The source adds one to `pgend` and takes one from `pgstart` only below
an end and above a start that it has just compared them with, so neither wraps. The size of a
range is another matter: it is computed modulo `2 ^ 32`, like the counter it is added to.

All calls run under `ashmem_mutex` and are single steps. Whether `kmem_cache_zalloc` finds memory
is an argument of each call: no call allocates more than once.
-/

namespace Ashmem

open Function

abbrev AreaId := ℕ

abbrev RangeId := ℕ

/-- `struct ashmem_range`, less its list entries. -/
structure Range where
  asma : AreaId
  pgstart : ℕ
  pgend : ℕ
  /-- `ASHMEM_WAS_PURGED`, as opposed to `ASHMEM_NOT_PURGED`. -/
  purged : Bool
  deriving DecidableEq

namespace Range

/-- `range_size`, in the arithmetic of `size_t`. -/
def size (range : Range) : BitVec 32 :=
  BitVec.ofNat 32 range.pgend - BitVec.ofNat 32 range.pgstart + 1

/-- `range_on_lru`. -/
def OnLru (range : Range) : Prop := range.purged = false
deriving Decidable

/-- `page_range_subsumes_range`: the interval contains the range. -/
def PageRangeSubsumes (range : Range) (first last : ℕ) : Prop :=
  first ≤ range.pgstart ∧ range.pgend ≤ last
deriving Decidable

/-- `page_range_subsumed_by_range`: the range contains the interval. -/
def PageRangeSubsumedBy (range : Range) (first last : ℕ) : Prop :=
  range.pgstart ≤ first ∧ last ≤ range.pgend
deriving Decidable

/-- `page_in_range`. -/
def PageIn (range : Range) (page : ℕ) : Prop := range.pgstart ≤ page ∧ page ≤ range.pgend
deriving Decidable

/-- `page_range_in_range`. -/
def PageRangeIn (range : Range) (first last : ℕ) : Prop :=
  range.PageIn first ∨ range.PageIn last ∨ range.PageRangeSubsumes first last
deriving Decidable

/-- `range_before_page`. -/
def BeforePage (range : Range) (page : ℕ) : Prop := range.pgend < page
deriving Decidable

end Range

/-- The records and the lists of the areas. -/
structure Heap where
  ranges : RangeId → Range
  /-- The areas between their `ashmem_open` and their `ashmem_release`. -/
  live : AreaId → Bool
  unpinnedList : AreaId → List RangeId
  /-- The object `kmem_cache_zalloc` hands out next. -/
  nextRange : RangeId

/-- The state of the module. -/
structure State extends Heap where
  lruList : List RangeId
  lruCount : BitVec 32
  /-- The calls of `vmtruncate_range`, with the area, the first and the last page. -/
  truncated : List (AreaId × ℕ × ℕ)

/-- `-ENOMEM`. -/
def enomem : ℤ := -12

/-! ### Ranges -/

/-- `list_add_tail` in front of an entry, `none` standing for the list head. -/
def insertBefore (prev : Option RangeId) (range : RangeId) : List RangeId → List RangeId
  | [] => [range]
  | x :: xs => if prev = some x then range :: x :: xs else x :: insertBefore prev range xs

namespace Heap

/-- A new record, on the list of its area in front of `prev`. -/
def link (h : Heap) (r : Range) (prev : Option RangeId) : Heap :=
  { h with
    ranges := update h.ranges h.nextRange r
    unpinnedList := update h.unpinnedList r.asma
      (insertBefore prev h.nextRange (h.unpinnedList r.asma))
    nextRange := h.nextRange + 1 }

/-- Take a range off the list of its area. -/
def unlink (h : Heap) (range : RangeId) : Heap :=
  let asma := (h.ranges range).asma
  { h with unpinnedList := update h.unpinnedList asma ((h.unpinnedList asma).erase range) }

/-- Write a record. -/
def setRange (h : Heap) (range : RangeId) (r : Range) : Heap :=
  { h with ranges := update h.ranges range r }

end Heap

namespace State

/-- `lru_add`. -/
def lruAdd (s : State) (range : RangeId) : State :=
  { s with
    lruList := s.lruList ++ [range]
    lruCount := s.lruCount + (s.ranges range).size }

/-- `lru_del`. -/
def lruDel (s : State) (range : RangeId) : State :=
  { s with
    lruList := s.lruList.erase range
    lruCount := s.lruCount - (s.ranges range).size }

/-- `range_alloc`. -/
def rangeAlloc (s : State) (asma : AreaId) (prev : Option RangeId) (purged : Bool)
    (first last : ℕ) (memory : Bool) : ℤ × State :=
  if memory then
    let range := s.nextRange
    let s := { s with toHeap := s.link ⟨asma, first, last, purged⟩ prev }
    (0, if (s.ranges range).OnLru then s.lruAdd range else s)
  else (enomem, s)

/-- `range_del`. -/
def rangeDel (s : State) (range : RangeId) : State :=
  let s := { s with toHeap := s.unlink range }
  if (s.ranges range).OnLru then s.lruDel range else s

/-- `range_shrink`. -/
def rangeShrink (s : State) (range : RangeId) (first last : ℕ) : State :=
  let pre := (s.ranges range).size
  let s := { s with
    toHeap := s.setRange range { s.ranges range with pgstart := first, pgend := last } }
  if (s.ranges range).OnLru then { s with lruCount := s.lruCount - (pre - (s.ranges range).size) }
  else s

/-! ### Areas -/

/-- `ashmem_open`. -/
def ashmemOpen (s : State) (asma : AreaId) (memory : Bool) : ℤ × State :=
  if memory then
    (0, { s with
      live := update s.live asma true
      unpinnedList := update s.unpinnedList asma [] })
  else (enomem, s)

/-- `ashmem_release`. -/
def ashmemRelease (s : State) (asma : AreaId) : State :=
  let s := (s.unpinnedList asma).foldl rangeDel s
  { s with live := update s.live asma false }

/-! ### The shrinker -/

/-- Evict one range. -/
def purge (s : State) (range : RangeId) : State :=
  let r := s.ranges range
  let s := { s with truncated := s.truncated ++ [(r.asma, r.pgstart, r.pgend)] }
  let s := { s with toHeap := s.setRange range { s.ranges range with purged := true } }
  s.lruDel range

/-- The loop of `ashmem_shrink`, over the entries `range` and `next` walk. -/
def shrinkLoop : List RangeId → (nrToScan : BitVec 32) → State → State
  | [], _, s => s
  | range :: rest, nrToScan, s =>
    let s := s.purge range
    let nrToScan := nrToScan - (s.ranges range).size
    if nrToScan.sle 0 then s else shrinkLoop rest nrToScan s

/-- `ashmem_shrink`; `gfpFs` is the bit of `gfp_mask`, `unlocked` the outcome of `mutex_trylock`. -/
def ashmemShrink (s : State) (nrToScan : BitVec 32) (gfpFs unlocked : Bool) : BitVec 32 × State :=
  if nrToScan ≠ 0 ∧ gfpFs = false then (-1, s)
  else if nrToScan = 0 then (s.lruCount, s)
  else if unlocked = false then (-1, s)
  else
    let s := shrinkLoop s.lruList nrToScan s
    (s.lruCount, s)

/-! ### Pinning -/

/-- The loop of `ashmem_pin`, over the entries `range` and `next` walk. -/
def pinLoop (asma : AreaId) (pgstart pgend : ℕ) (memory : Bool) :
    List RangeId → (ret : Bool) → State → Bool × State
  | [], ret, s => (ret, s)
  | range :: rest, ret, s =>
    let r := s.ranges range
    if r.BeforePage pgstart then (ret, s)
    else if r.PageRangeIn pgstart pgend then
      let ret := ret || r.purged
      if r.PageRangeSubsumes pgstart pgend then
        pinLoop asma pgstart pgend memory rest ret (s.rangeDel range)
      else if pgstart ≤ r.pgstart then
        pinLoop asma pgstart pgend memory rest ret (s.rangeShrink range (pgend + 1) r.pgend)
      else if r.pgend ≤ pgend then
        pinLoop asma pgstart pgend memory rest ret (s.rangeShrink range r.pgstart (pgstart - 1))
      else
        -- a hole in the middle: the result of `range_alloc` is not looked at
        let s := (s.rangeAlloc asma (some range) r.purged (pgend + 1) r.pgend memory).2
        (ret, s.rangeShrink range r.pgstart (pgstart - 1))
    else pinLoop asma pgstart pgend memory rest ret s

/-- `ashmem_pin`; the result is `ASHMEM_WAS_PURGED` or not. -/
def ashmemPin (s : State) (asma : AreaId) (pgstart pgend : ℕ) (memory : Bool) : Bool × State :=
  pinLoop asma pgstart pgend memory (s.unpinnedList asma) false s

/-- What one pass over the list finds in `ashmem_unpin`. -/
inductive Scan
  /-- A range that contains the whole interval. -/
  | covered
  /-- A range that meets the interval and has to be merged. -/
  | merge (range : RangeId)
  /-- The entry to insert in front of. -/
  | insert (prev : Option RangeId)

/-- One pass over the list in `ashmem_unpin`, from `restart` on. -/
def scan (ranges : RangeId → Range) (pgstart pgend : ℕ) : List RangeId → Scan
  | [] => .insert none
  | range :: rest =>
    if (ranges range).BeforePage pgstart then .insert (some range)
    else if (ranges range).PageRangeSubsumedBy pgstart pgend then .covered
    else if (ranges range).PageRangeIn pgstart pgend then .merge range
    else scan ranges pgstart pgend rest

/-- `ashmem_unpin` from `restart` on. Every restart has deleted a range, so there are at most as
many as there are ranges; the fuel counts them. -/
def unpinLoop (asma : AreaId) (memory : Bool) :
    (fuel : ℕ) → (pgstart pgend : ℕ) → (purged : Bool) → State → ℤ × State
  | 0, _, _, _, s => (0, s)
  | fuel + 1, pgstart, pgend, purged, s =>
    match scan s.ranges pgstart pgend (s.unpinnedList asma) with
    | .covered => (0, s)
    | .merge range =>
      let r := s.ranges range
      unpinLoop asma memory fuel (min r.pgstart pgstart) (max r.pgend pgend) (purged || r.purged)
        (s.rangeDel range)
    | .insert prev => s.rangeAlloc asma prev purged pgstart pgend memory

/-- `ashmem_unpin`. -/
def ashmemUnpin (s : State) (asma : AreaId) (pgstart pgend : ℕ) (memory : Bool) : ℤ × State :=
  unpinLoop asma memory ((s.unpinnedList asma).length + 1) pgstart pgend false s

/-- The loop of `ashmem_get_pin_status`; the result is `ASHMEM_IS_UNPINNED` or not. -/
def pinStatusLoop (ranges : RangeId → Range) (pgstart pgend : ℕ) : List RangeId → Bool
  | [] => false
  | range :: rest =>
    if (ranges range).BeforePage pgstart then false
    else if (ranges range).PageRangeIn pgstart pgend then true
    else pinStatusLoop ranges pgstart pgend rest

/-- `ashmem_get_pin_status`. -/
def ashmemGetPinStatus (s : State) (asma : AreaId) (pgstart pgend : ℕ) : Bool :=
  pinStatusLoop s.ranges pgstart pgend (s.unpinnedList asma)

/-! ### Runs -/

/-- Before the first area is opened. -/
def init : State where
  ranges := fun _ ↦ ⟨0, 0, 0, false⟩
  live := fun _ ↦ false
  unpinnedList := fun _ ↦ []
  lruList := []
  lruCount := 0
  nextRange := 0
  truncated := []

end State

/-- The calls, with what they are given by the caller and by the kernel. -/
inductive Op
  | openFile (asma : AreaId) (memory : Bool)
  | release (asma : AreaId)
  | pin (asma : AreaId) (pgstart pgend : ℕ) (memory : Bool)
  | unpin (asma : AreaId) (pgstart pgend : ℕ) (memory : Bool)
  | getPinStatus (asma : AreaId) (pgstart pgend : ℕ)
  | shrink (nrToScan : BitVec 32) (gfpFs unlocked : Bool)

/-- The effect of a call. -/
def State.exec (s : State) : Op → State
  | .openFile asma memory => (s.ashmemOpen asma memory).2
  | .release asma => s.ashmemRelease asma
  | .pin asma pgstart pgend memory => (s.ashmemPin asma pgstart pgend memory).2
  | .unpin asma pgstart pgend memory => (s.ashmemUnpin asma pgstart pgend memory).2
  | .getPinStatus _ _ _ => s
  | .shrink nrToScan gfpFs unlocked => (s.ashmemShrink nrToScan gfpFs unlocked).2

/-- A file is opened before it is used and not used once it is released. -/
def State.Usable (s : State) : Op → Prop
  | .openFile asma _ => s.live asma = false
  | .release asma | .pin asma _ _ _ | .unpin asma _ _ _ | .getPinStatus asma _ _ =>
    s.live asma = true
  | .shrink _ _ _ => True

instance (s : State) : (op : Op) → Decidable (s.Usable op)
  | .openFile _ _ | .release _ | .pin _ _ _ _ | .unpin _ _ _ _ | .getPinStatus _ _ _ =>
    inferInstanceAs (Decidable (_ = _))
  | .shrink _ _ _ => inferInstanceAs (Decidable True)

end Ashmem
