import MerrukKernel.Library.SearchTree
import MerrukKernel.Library.Tiling
import MerrukKernel.Library.Trace
import Mathlib.Algebra.Group.Nat.Defs

/-!
# The buffer allocator of the binder driver

Every process that opens the binder driver maps one region into which the driver copies what other
processes send it. The region is cut into buffers, each a `struct binder_buffer` header followed by
its payload. This module is the allocator of `binder.c` as its functions compute it: the list of all
buffers in address order, the two search trees (free buffers by size, allocated buffers by address)
and the array of pages that back the region.

## What is modelled how

* A buffer **is** its address. Its size is not stored anywhere: `binderBufferSize` is the distance
  from its payload to the next buffer of the list, or to the end of the region.
* The trees are walked with the comparisons of the source, at the sizes of the moment, and every
  `BUG_ON` met on the way is kept: a function that returns `none` has hit a `BUG`. Rotations are
  `SearchTree.Reshape`s, one for each tree operation of a call, so that every shape `lib/rbtree.c`
  may produce is covered.
* Addresses are natural numbers inside a region that ends a page below `2 ^ 32`, where no address
  computation wraps. The two sizes a caller asks for are arbitrary 32-bit values, and what is
  computed from them wraps as `size_t` does.
* `pages i` says that page `i` of the region is present. A page is absent before it is allocated and
  after it is freed, and freeing an absent page is a `BUG` here too.

The fields of a buffer that only the transaction code reads (`transaction`, `target_node`,
`allow_user_free`) are not the allocator's; its callers have cleared `transaction` before they free
a buffer, which is what the remaining `BUG_ON` of `binder_free_buf` asks for.
-/

namespace Binder

open SearchTree Tiling

/-- `PAGE_SIZE`. -/
def pageSize : ℕ := 4096

/-- `sizeof(struct binder_buffer)`; the payload `data` starts right behind it. -/
def headerSize : ℕ := 40

/-- `ALIGN(n, sizeof(void *))` on a `size_t`. -/
def align (n : ℕ) : ℕ := (n + 3) % 2 ^ 32 / 4 * 4

/-- `PAGE_ALIGN(addr)`. -/
def pageAlign (addr : ℕ) : ℕ := (addr + (pageSize - 1)) / pageSize * pageSize

/-- `addr & PAGE_MASK`. -/
def pageFloor (addr : ℕ) : ℕ := addr / pageSize * pageSize

/-- `buffer->data`. -/
def data (b : ℕ) : ℕ := b + headerSize

/-- The fields of a `struct binder_buffer` that the allocator keeps. -/
structure Buffer where
  free : Bool
  asyncTransaction : Bool
  dataSize : ℕ
  offsetsSize : ℕ
  deriving DecidableEq, Repr, Inhabited

/-- What a buffer was allocated for, as `binder_alloc_buf` and `binder_free_buf` compute it. -/
def Buffer.size (r : Buffer) : ℕ := (align r.dataSize + align r.offsetsSize) % 2 ^ 32

/-- **The allocator's part of a `struct binder_proc`.** -/
structure Arena where
  /-- `proc->buffer`, where the region starts. -/
  buffer : ℕ
  bufferSize : ℕ
  buffers : List ℕ
  record : ℕ → Buffer
  freeBuffers : BinaryTree ℕ
  allocatedBuffers : BinaryTree ℕ
  freeAsyncSpace : ℕ
  /-- `proc->pages[i] != NULL`. -/
  pages : ℕ → Bool
  /-- `proc->vma != NULL`. -/
  vma : Bool

/-- What a call meets outside of the allocator. -/
structure Env where
  /-- `get_task_mm` returns an address space. -/
  mm : Bool
  /-- The pages of the region whose allocation, or mapping into the kernel or into user space,
  fails. -/
  fault : ℕ → Bool
  /-- What rebalancing does to a tree, for each tree operation of the call in turn. -/
  rebalance : ℕ → Reshape ℕ

namespace Arena

/-- The end of the region. -/
def limit (a : Arena) : ℕ := a.buffer + a.bufferSize

/-- `buffer->free`. -/
def isFree (a : Arena) (b : ℕ) : Bool := (a.record b).free

/-- Write the `free` bit of a header. -/
def setFree (a : Arena) (b : ℕ) (v : Bool) : Arena :=
  { a with record := Function.update a.record b { a.record b with free := v } }

/-- `binder_buffer_size`. -/
def binderBufferSize (a : Arena) (b : ℕ) : ℕ :=
  match next? a.buffers b with
  | none => a.buffer + a.bufferSize - data b
  | some n => n - data b

/-- `binder_insert_free_buffer`. -/
def insertFreeBuffer (a : Arena) (b : ℕ) (rb : Reshape ℕ) : Option Arena :=
  if a.isFree b then
    (insertWith
        (fun y ↦ if a.isFree y then some (decide (a.binderBufferSize b < a.binderBufferSize y))
          else none)
        b a.freeBuffers).map
      fun t ↦ { a with freeBuffers := rb.apply t }
  else none

/-- `binder_insert_allocated_buffer`. -/
def insertAllocatedBuffer (a : Arena) (b : ℕ) (rb : Reshape ℕ) : Option Arena :=
  if a.isFree b then none
  else
    (insertWith
        (fun y ↦ if a.isFree y then none
          else if b < y then some true
          else if y < b then some false
          else none)
        b a.allocatedBuffers).map
      fun t ↦ { a with allocatedBuffers := rb.apply t }

/-! ### Pages -/

/-- The loop at `free_range`: the `n` pages from page `first` on, the last one first. -/
def unmapPages (first : ℕ) : ℕ → (ℕ → Bool) → Option (ℕ → Bool)
  | 0, pages => some pages
  | n + 1, pages =>
    if pages (first + n) then unmapPages first n (Function.update pages (first + n) false)
    else none

/-- The allocating loop, `done` pages behind page `first` and `n` pages before its end. A page that
cannot be had or mapped sends it into the middle of the other loop, which takes back the `done`
pages; the flag says whether the loop came through. -/
def mapPages (fault : ℕ → Bool) (first : ℕ) : (done n : ℕ) → (ℕ → Bool) → Option (Bool × (ℕ → Bool))
  | _, 0, pages => some (true, pages)
  | done, n + 1, pages =>
    if pages (first + done) then none
    else if fault (first + done) then (unmapPages first done pages).map fun p ↦ (false, p)
    else mapPages fault first (done + 1) n (Function.update pages (first + done) true)

/-- `binder_update_page_range`, on page-aligned addresses: whether it returned `0`, and the pages
it leaves. -/
def updatePageRange (a : Arena) (allocate : Bool) (start stop : ℕ) (vma : Bool) (env : Env) :
    Option (Bool × (ℕ → Bool)) :=
  let first := (start - a.buffer) / pageSize
  let n := (stop - start) / pageSize
  if stop ≤ start then some (true, a.pages)
  else if allocate then
    if vma || (env.mm && a.vma) then mapPages env.fault first 0 n a.pages
    else some (false, a.pages)
  else (unmapPages first n a.pages).map fun p ↦ (false, p)

/-! ### Allocation -/

/-- What `binder_alloc_buf` does once it has the pages: take the buffer out of the free tree, enter
it into the allocated one, and, where there is room for another buffer, make one of the rest. -/
def takeBuffer (a : Arena) (b size bufferSize : ℕ) (env : Env) : Option Arena := do
  let a := { a with freeBuffers := (env.rebalance 0).apply (erase b a.freeBuffers) }
  let a := a.setFree b false
  let a ← a.insertAllocatedBuffer b (env.rebalance 1)
  if bufferSize ≠ size then
    let newBuffer := data b + size
    let a := { a with buffers := insertAfter b newBuffer a.buffers }
    let a := a.setFree newBuffer true
    a.insertFreeBuffer newBuffer (env.rebalance 2)
  else some a

/-- The last lines of `binder_alloc_buf`: the sizes go into the header, and an asynchronous buffer
is charged. -/
def stamp (a : Arena) (b size dataSize offsetsSize : ℕ) (isAsync : Bool) : Arena :=
  { a with
    record := Function.update a.record b
      { a.record b with
        dataSize := dataSize, offsetsSize := offsetsSize, asyncTransaction := isAsync }
    freeAsyncSpace :=
      if isAsync then (a.freeAsyncSpace + 2 ^ 32 - (size + headerSize) % 2 ^ 32) % 2 ^ 32
      else a.freeAsyncSpace }

/-- `binder_alloc_buf` from the point where the search has ended on `b`, `hit` saying that it ended
on a buffer of exactly the size. -/
def allocFit (a : Arena) (b : ℕ) (hit : Bool) (size dataSize offsetsSize : ℕ) (isAsync : Bool)
    (env : Env) : Option (Option ℕ × Arena) :=
  let hasPageAddr := pageFloor (data b + a.binderBufferSize b)
  let bufferSize :=
    if hit then a.binderBufferSize b
    else if size + headerSize + 4 ≥ a.binderBufferSize b then size
    else size + headerSize
  let endPageAddr := min (pageAlign (data b + bufferSize)) hasPageAddr
  match a.updatePageRange true (pageAlign (data b)) endPageAddr false env with
  | none => none
  | some (false, pages) => some (none, { a with pages := pages })
  | some (true, pages) =>
    ({ a with pages := pages }.takeBuffer b size bufferSize env).map fun (a : Arena) ↦
      (some b, a.stamp b size dataSize offsetsSize isAsync)

/-- `binder_alloc_buf`: the buffer returned, `none` for `NULL`, and the state left behind. -/
def allocBuf (a : Arena) (dataSize offsetsSize : ℕ) (isAsync : Bool) (env : Env) :
    Option (Option ℕ × Arena) :=
  if a.vma = false then some (none, a)
  else
    let size := (align dataSize + align offsetsSize) % 2 ^ 32
    if size < dataSize ∨ size < offsetsSize then some (none, a)
    else if isAsync = true ∧ a.freeAsyncSpace < (size + headerSize) % 2 ^ 32 then some (none, a)
    else
      match ceiling a.binderBufferSize a.isFree size none a.freeBuffers with
      | none => none
      | some (none, _) => some (none, a)
      | some (some b, hit) => a.allocFit b hit size dataSize offsetsSize isAsync env

/-! ### Release -/

/-- `buffer_start_page`. -/
def bufferStartPage (b : ℕ) : ℕ := pageFloor b

/-- `buffer_end_page`, the page of the last byte of the header. -/
def bufferEndPage (b : ℕ) : ℕ := pageFloor (b + headerSize - 1)

/-- The flag `free_page_start` of `binder_delete_free_buffer`: no neighbour's header shares the
first page of the header at `b`. -/
def freePageStart (p b : ℕ) (next : Option ℕ) : Bool :=
  bufferEndPage p ≠ bufferStartPage b &&
  next.all fun n ↦ bufferStartPage n ≠ bufferEndPage b || bufferStartPage n ≠ bufferStartPage b

/-- The flag `free_page_end`, for the last page of the header. -/
def freePageEnd (p b : ℕ) (next : Option ℕ) : Bool :=
  (bufferEndPage p ≠ bufferStartPage b || bufferEndPage p ≠ bufferEndPage b) &&
  next.all fun n ↦ bufferStartPage n ≠ bufferEndPage b

/-- `binder_delete_free_buffer`: take a free buffer that follows a free one off the list, and give
back the pages that only its header was using. -/
def deleteFreeBuffer (a : Arena) (b : ℕ) (env : Env) : Option Arena :=
  match prev? a.buffers b with
  | none => none
  | some p =>
    if a.isFree p then
      let start := freePageStart p b (next? a.buffers b)
      let stop := freePageEnd p b (next? a.buffers b)
      let a' := { a with buffers := a.buffers.erase b }
      if start || stop then
        (a'.updatePageRange false (if start then bufferStartPage b else bufferEndPage b)
            ((if stop then bufferEndPage b else bufferStartPage b) + pageSize) false env).map
          fun r ↦ { a' with pages := r.2 }
      else some a'
    else none

/-- The first merge of `binder_free_buf`: with a free buffer that follows. -/
def mergeNext (a : Arena) (b : ℕ) (env : Env) : Option Arena :=
  match next? a.buffers b with
  | none => some a
  | some n =>
    if a.isFree n then
      { a with freeBuffers := (env.rebalance 1).apply (erase n a.freeBuffers) }.deleteFreeBuffer
        n env
    else some a

/-- The second merge: into a free buffer that precedes. The buffer that is left is returned. -/
def mergePrev (a : Arena) (b : ℕ) (env : Env) : Option (ℕ × Arena) :=
  match prev? a.buffers b with
  | none => some (b, a)
  | some p =>
    if a.isFree p then
      (a.deleteFreeBuffer b env).map fun a ↦
        (p, { a with freeBuffers := (env.rebalance 2).apply (erase p a.freeBuffers) })
    else some (b, a)

/-- `binder_free_buf`. -/
def freeBuf (a : Arena) (b : ℕ) (env : Env) : Option Arena :=
  let bufferSize := a.binderBufferSize b
  let size := (a.record b).size
  if a.isFree b = true ∨ bufferSize < size ∨ b < a.buffer ∨ a.buffer + a.bufferSize < b then none
  else do
    let freeAsyncSpace :=
      if (a.record b).asyncTransaction then (a.freeAsyncSpace + (size + headerSize)) % 2 ^ 32
      else a.freeAsyncSpace
    let a := { a with freeAsyncSpace := freeAsyncSpace }
    let r ← a.updatePageRange false (pageAlign (data b)) (pageFloor (data b + bufferSize)) false env
    let a := { a with pages := r.2 }
    let a := { a with allocatedBuffers := (env.rebalance 0).apply (erase b a.allocatedBuffers) }
    let a := a.setFree b true
    let a ← a.mergeNext b env
    let (b, a) ← a.mergePrev b env
    a.insertFreeBuffer b (env.rebalance 3)

end Arena

/-! ### The start -/

/-- The region `binder_mmap` obtained: whole pages, at least one and at most 4 MiB of them, and
nowhere near the end of the address space. -/
structure Region where
  /-- `area->addr`, in pages. -/
  page : ℕ
  count : ℕ
  /-- There is a page for the first header. -/
  pos : 0 < count
  /-- The mapping is cut at `SZ_4M`. -/
  bound : count ≤ 1024
  /-- No address of the region, nor one page past it, wraps. -/
  fits : (page + count + 1) * pageSize ≤ 2 ^ 32

/-- `binder_mmap`, from the point where it has its region: back the first page, make it all one free
buffer. `some none` is the failing return. -/
def mmap (m : Region) (env : Env) : Option (Option Arena) :=
  let a : Arena :=
    { buffer := m.page * pageSize, bufferSize := m.count * pageSize, buffers := []
      record := fun _ ↦ default, freeBuffers := .nil, allocatedBuffers := .nil
      freeAsyncSpace := 0, pages := fun _ ↦ false, vma := false }
  match a.updatePageRange true a.buffer (a.buffer + pageSize) true env with
  | none => none
  | some (false, _) => some none
  | some (true, pages) =>
    let a := { a with pages := pages, buffers := [a.buffer] }
    let a := a.setFree a.buffer true
    (a.insertFreeBuffer a.buffer (env.rebalance 0)).map fun a ↦
      some { a with freeAsyncSpace := a.bufferSize / 2, vma := true }

/-! ### Runs -/

/-- The calls that reach the allocator. -/
inductive BufOp
  /-- `binder_alloc_buf`, for any 32-bit sizes. -/
  | alloc (dataSize offsetsSize : BitVec 32) (isAsync : Bool) (env : Env)
  | free (b : ℕ) (env : Env)
  /-- `binder_vma_close`: user space unmaps the region. -/
  | vmaClose

/-- One call: what it returns, and the state it leaves. -/
def Arena.call (a : Arena) : BufOp → Option (Option ℕ × Arena)
  | .alloc dataSize offsetsSize isAsync env =>
    a.allocBuf dataSize.toNat offsetsSize.toNat isAsync env
  | .free b env => (a.freeBuf b env).map fun a ↦ (none, a)
  | .vmaClose => some (none, { a with vma := false })

/-- Only buffers that are currently allocated are freed. -/
def Arena.Callable (a : Arena) : BufOp → Prop
  | .free b _ => b ∈ a.buffers ∧ a.isFree b = false
  | _ => True

/-- **The allocator as a machine**; `none` is the state after a `BUG`. -/
def bufMachine : Machine (Option Arena) BufOp where
  guard s op := ∀ a ∈ s, a.Callable op
  exec s op := s.bind fun a ↦ (a.call op).map (·.2)

end Binder
