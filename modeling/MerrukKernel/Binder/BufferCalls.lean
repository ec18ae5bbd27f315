import MerrukKernel.Binder.BufferPages
import MerrukKernel.Library.Update

/-!
# The calls of the binder allocator

Every call of the allocator, from a state in which the region is laid out as it should be and the
pages present are the needed ones (`Arena.Good`), returns without a `BUG` and leaves such a state.

* `Good.allocBuf` — a `NULL` return changes nothing, and any other return is a best fit for what was
  asked (`Allocated`). The two ways of taking a buffer, whole or cut in two, are `Good.allocWhole`
  and `Good.allocSplit`.
* `Good.freeBuf` — a release goes through states in which the freed buffer is in no tree
  (`Freeing`); each of the two merges leads from one such state to the next.
-/

namespace Binder

open SearchTree Tiling Function List Option

namespace Arena

/-- **What holds between two calls** on the region `m`. -/
structure Good (a : Arena) (m : Region) : Prop where
  base : a.buffer = m.page * pageSize
  length : a.bufferSize = m.count * pageSize
  /-- The list, the `free` bits and the two trees agree. -/
  layout : Layout a.buffer a.limit a.buffers a.isFree a.freeBuffers a.allocatedBuffers
  resident : Resident a.buffer a.limit a.buffers a.isFree a.pages
  /-- What is recorded as wanted of an allocated buffer fits into it. -/
  recorded : ∀ b ∈ a.buffers, a.isFree b = false → (a.record b).size ≤ a.binderBufferSize b

variable {m : Region} {a : Arena}

theorem Good.aligned (h : a.Good m) : a.buffer % pageSize = 0 := by
  rw [h.base, Nat.mul_mod_left]

theorem Good.limit_aligned (h : a.Good m) : a.limit % pageSize = 0 := by
  rw [limit, h.base, h.length, ← Nat.add_mul, Nat.mul_mod_left]

theorem isFree_setFree (a : Arena) (b : ℕ) (v : Bool) :
    (a.setFree b v).isFree = update a.isFree b v := by
  funext x
  rcases eq_or_ne x b with rfl | hx
  · simp [isFree, setFree]
  · simp [isFree, setFree, hx]

theorem size_setFree (a : Arena) (b x : ℕ) (v : Bool) :
    ((a.setFree b v).record x).size = (a.record x).size :=
  proj_update Buffer.size (by simp [Buffer.size]) x

theorem upper_eq (h : Spaced headerSize a.limit a.buffers) {b : ℕ} (hb : b ∈ a.buffers) :
    upper a.limit a.buffers b = data b + a.binderBufferSize b := by
  have := (h.upper_bounds header_pos hb).1
  rw [binderBufferSize_eq, bufferRoom, room, data]
  omega

/-! ### Taking a buffer -/

section Take

variable {a : Arena} {b : ℕ}

section

variable (h : Layout a.buffer a.limit a.buffers a.isFree a.freeBuffers a.allocatedBuffers)
  (hb : b ∈ a.buffers) (hfree : a.isFree b = true)
include h hb hfree

/-- The first half of `takeBuffer`: from the free tree into the allocated one. -/
theorem allocate_spec (env : Env) : ∃ ft alloc,
      ({ a with freeBuffers := (env.rebalance 0).apply (erase b a.freeBuffers) }.setFree b
          false).insertAllocatedBuffer b (env.rebalance 1) =
        some { a.setFree b false with freeBuffers := ft, allocatedBuffers := alloc } ∧
      Layout a.buffer a.limit a.buffers (update a.isFree b false) ft alloc := by
  set a₁ : Arena := { a with freeBuffers := (env.rebalance 0).apply (erase b a.freeBuffers) }
  have hisFree : (a₁.setFree b false).isFree = update a.isFree b false :=
    a₁.isFree_setFree b false
  obtain ⟨alloc, heq, halloc⟩ := (a₁.setFree b false).insertAllocatedBuffer_spec (b := b)
    (env.rebalance 1) h.allocIndex (by simp [hisFree])
    (fun y hy ↦ by
      have hne : y ≠ b := fun he ↦ by simp [he, hfree] at hy
      simp [hisFree, hne, hy.2])
    (by simp [hfree])
  exact ⟨_, alloc, heq, h.allocate hb ((h.freeIndex.erase b).reshape _) halloc⟩

theorem takeBuffer_whole (size : ℕ) (env : Env) : ∃ ft alloc, a.takeBuffer b size size env =
        some { a.setFree b false with freeBuffers := ft, allocatedBuffers := alloc } ∧
      Layout a.buffer a.limit a.buffers (update a.isFree b false) ft alloc := by
  obtain ⟨ft, alloc, heq, hlayout⟩ := allocate_spec h hb hfree env
  refine ⟨ft, alloc, ?_, hlayout⟩
  simp [takeBuffer, heq]

end

/-- Taking the first `size` bytes of a buffer and making another of the rest. -/
theorem takeBuffer_split {pre post : List ℕ} (hl : a.buffers = pre ++ b :: post)
    (h : Layout a.buffer a.limit a.buffers a.isFree a.freeBuffers a.allocatedBuffers)
    (hfree : a.isFree b = true) {size : ℕ} (hroom : size + headerSize ≤ a.binderBufferSize b)
    (env : Env) :
    ∃ ft alloc, a.takeBuffer b size (size + headerSize) env =
        some { (a.setFree b false).setFree (data b + size) true with
          buffers := pre ++ b :: (data b + size) :: post
          freeBuffers := ft, allocatedBuffers := alloc } ∧
      Layout a.buffer a.limit (pre ++ b :: (data b + size) :: post)
        (update (update a.isFree b false) (data b + size) true) ft alloc := by
  have hb : b ∈ a.buffers := by simp [hl]
  have hbpre := (notMem_of_nodup (hl ▸ h.nodup)).1
  obtain ⟨ft, alloc, heq, hlayout⟩ := allocate_spec h hb hfree env
  set new := data b + size with hnew
  set a₂ : Arena := { a.setFree b false with freeBuffers := ft, allocatedBuffers := alloc } with ha₂
  set a₃ : Arena := { a₂ with buffers := insertAfter b new a₂.buffers }.setFree new true with ha₃
  have hbuf : a₃.buffers = pre ++ b :: new :: post := by
    show insertAfter b new a.buffers = _
    rw [hl, insertAfter_split hbpre]
  have hisFree : a₃.isFree = update (update a.isFree b false) new true := by
    rw [isFree_setFree]
    congr 1
    exact a.isFree_setFree b false
  -- the successor of a free buffer is not free, and the new buffer is really new
  have hnext : ∀ y ∈ post.head?, update a.isFree b false y = false := by
    intro y hy
    obtain ⟨-, -, -, hsep⟩ := separated_split.mp (hl ▸ h.separated)
    rcases eq_or_ne y b with rfl | hne
    · simp
    · grind
  have hupper : upper a.limit a.buffers b = data b + a.binderBufferSize b := upper_eq h.spaced hb
  have hhi : new + headerSize ≤ post.headD a.limit := by
    rw [hl, upper_split hbpre] at hupper
    omega
  have hspaced : Spaced headerSize a.limit (pre ++ b :: new :: post) :=
    (hl ▸ h.spaced).insert (Nat.le_add_right _ _) hhi
  have hnewmem : new ∉ pre ++ b :: post := by
    have hnd := hspaced.nodup header_pos
    rw [show pre ++ b :: new :: post = (pre ++ [b]) ++ new :: post by simp] at hnd
    obtain ⟨h1, h2⟩ := notMem_of_nodup hnd
    simp only [mem_append, mem_cons] at h1 ⊢
    tauto
  rw [hl] at hlayout
  -- no buffer of the free tree changes its size
  have hindex : Index
      (fun x y ↦ bufferRoom a₃.limit a₃.buffers x ≤ bufferRoom a₃.limit a₃.buffers y)
      (fun x ↦ x ∈ pre ++ b :: post ∧ update a.isFree b false x = true) a₃.freeBuffers := by
    refine hlayout.freeIndex.congr (fun _ ↦ Iff.rfl) fun x y hx hy hxy ↦ ?_
    have hkeep : ∀ z, z ∈ pre ++ b :: post ∧ update a.isFree b false z = true →
        bufferRoom a.limit (pre ++ b :: new :: post) z = bufferRoom a.limit
        (pre ++ b :: post) z := by
          grind [bufferRoom_insert_of_ne]
    show bufferRoom a.limit a₃.buffers x ≤ bufferRoom a.limit a₃.buffers y
    rwa [hbuf, hkeep x hx, hkeep y hy]
  obtain ⟨ft', heq', hft'⟩ := a₃.insertFreeBuffer_spec (env.rebalance 2) hindex
    (by simp [hisFree])
    (fun y hy ↦ by
      have hne : y ≠ new := fun he ↦ hnewmem (he ▸ hy.1)
      rw [hisFree, update_of_ne hne]
      exact hy.2)
    (fun hmem ↦ hnewmem hmem.1)
  refine ⟨ft', alloc, ?_, ?_⟩
  · simp only [takeBuffer, heq, bind_eq_bind, bind_some]
    rw [if_pos (by simp [headerSize])]
    show a₃.insertFreeBuffer new (env.rebalance 2) = _
    rw [heq', ← hbuf]
    rfl
  · rw [hbuf] at hft'
    exact hlayout.split (by simp) hnext (Nat.le_add_right _ _) hhi hft'

end Take

/-! ### Allocation -/

/-- What a caller asks for: both sizes rounded up to the size of a pointer, with no wrap. -/
def wanted (dataSize offsetsSize : ℕ) : ℕ := (dataSize + 3) / 4 * 4 + (offsetsSize + 3) / 4 * 4

/-- The one comparison of the source catches every way in which the sum can wrap. -/
theorem size_eq_wanted {d o : ℕ} (hd : d < 2 ^ 32) (ho : o < 2 ^ 32)
    (h : ¬ ((align d + align o) % 2 ^ 32 < d ∨ (align d + align o) % 2 ^ 32 < o)) :
    (align d + align o) % 2 ^ 32 = wanted d o := by
  simp only [align, wanted] at *
  omega

/-- **A best fit**: a free buffer that is large enough, and no larger than any other such. -/
structure BestFit (a : Arena) (size b : ℕ) : Prop where
  mem : b ∈ a.buffers
  isFree : a.isFree b = true
  fits : size ≤ a.binderBufferSize b
  least : ∀ x ∈ a.buffers, a.isFree x = true → size ≤ a.binderBufferSize x →
    a.binderBufferSize b ≤ a.binderBufferSize x

theorem ceiling_bestFit
    (h : Layout a.buffer a.limit a.buffers a.isFree a.freeBuffers a.allocatedBuffers) (size : ℕ) :
    ∃ res, ceiling a.binderBufferSize a.isFree size none a.freeBuffers = some res ∧
      ∀ b, res.1 = some b → a.BestFit size b ∧ (res.2 = true → a.binderBufferSize b = size) := by
  have hindex := h.freeIndex
  simp only [← binderBufferSize_eq] at hindex
  obtain ⟨res, heq, hspec⟩ := ceiling_spec none
    (fun y hy ↦ ((hindex.mem y).mp hy).2) hindex.sorted
  refine ⟨res, heq, fun b hb ↦ ?_⟩
  cases hspec with
  | @hit y hy hk =>
    obtain rfl : y = b := by simpa using hb
    obtain ⟨hmem, hfree⟩ := (hindex.mem y).mp hy
    refine ⟨⟨hmem, hfree, hk.ge, fun x hx hxf hxs ↦ hk ▸ hxs⟩, fun _ ↦ hk⟩
  | @above y hy hk hmin =>
    obtain rfl : y = b := by simpa using hb
    obtain ⟨hmem, hfree⟩ := (hindex.mem y).mp hy
    refine ⟨⟨hmem, hfree, hk.le, fun x hx hxf ↦ hmin x ((hindex.mem x).mpr ⟨hx, hxf⟩)⟩, ?_⟩
    simp
  | below => simp at hb

theorem isFree_stamp (a : Arena) (b size d o : ℕ) (isAsync : Bool) :
    (a.stamp b size d o isAsync).isFree = a.isFree :=
  funext (proj_update Buffer.free rfl)

/-- What has to be known of the state before the sizes are entered. -/
theorem Good.stamp {b d o size : ℕ} (isAsync : Bool)
    (hbase : a.buffer = m.page * pageSize) (hlength : a.bufferSize = m.count * pageSize)
    (hlayout : Layout a.buffer a.limit a.buffers a.isFree a.freeBuffers a.allocatedBuffers)
    (hresident : Resident a.buffer a.limit a.buffers a.isFree a.pages)
    (hrecorded : ∀ x ∈ a.buffers, x ≠ b → a.isFree x = false →
      (a.record x).size ≤ a.binderBufferSize x)
    (hfits : (align d + align o) % 2 ^ 32 ≤ a.binderBufferSize b) :
    (a.stamp b size d o isAsync).Good m where
  base := hbase
  length := hlength
  layout := by rw [isFree_stamp]; exact hlayout
  resident := by rw [isFree_stamp]; exact hresident
  recorded := by
    intro x hx hfree
    rw [isFree_stamp] at hfree
    show (update a.record b _ x).size ≤ a.binderBufferSize x
    rcases eq_or_ne x b with rfl | hne
    · rw [update_self]
      exact hfits
    · rw [update_of_ne hne]
      exact hrecorded x hx hne hfree

theorem Good.base_le (h : a.Good m) {b : ℕ} (hb : b ∈ a.buffers) : a.buffer ≤ b :=
  h.layout.spaced.head_le h.layout.head hb

/-- **The pages of an allocation**: the range `binder_alloc_buf` computes is absent beforehand, so
the update neither hits its `BUG_ON` nor does anything by halves. -/
theorem Good.mapRange (h : a.Good m) {b : ℕ} (hb : b ∈ a.buffers)
    (hfree : a.isFree b = true) (e : ℕ) (env : Env) :
    ∃ ok pages', a.updatePageRange true (pageAlign (data b))
        (min (pageAlign e) (pageFloor (data b + a.binderBufferSize b))) false env =
        some (ok, pages') ∧
      (ok = true → ∀ i, pages' i = true ↔ a.pages i = true ∨ InRange a.buffer (pageAlign (data b))
          (min (pageAlign e) (pageFloor (upper a.limit a.buffers b))) i) ∧
      (ok = false → pages' = a.pages) := by
  have hbase := h.base_le hb
  rw [← upper_eq h.layout.spaced hb]
  refine updatePageRange_map h.aligned ?_ ?_ ?_ (fun i hin ↦ ?_) false env
  · simp only [pageAlign, pageSize]
    omega
  · simp only [pageAlign, pageFloor, pageSize]
    omega
  · simp only [pageAlign, data, pageSize]
    omega
  · exact h.resident.absent h.layout.spaced hb hfree h.aligned
      ⟨hin.1, hin.2.trans_le (Nat.min_le_right _ _)⟩

/-- **What an allocation leaves behind**: a buffer that was a best fit for `size`, now allocated and
still large enough. -/
structure Allocated (a a' : Arena) (size b : ℕ) : Prop where
  bestFit : a.BestFit size b
  mem : b ∈ a'.buffers
  inUse : a'.isFree b = false
  fits : size ≤ a'.binderBufferSize b

section

variable {a : Arena} {b d o size : ℕ} (hsize : (align d + align o) % 2 ^ 32 = size) (h : a.Good m)
  (hfit : a.BestFit size b)
include hsize h hfit

theorem Good.allocWhole {pages' : ℕ → Bool} (isAsync : Bool) (env : Env)
    (hpages : ∀ i, pages' i = true ↔ a.pages i = true ∨
      InRange a.buffer (pageAlign (data b)) (pageFloor (upper a.limit a.buffers b)) i) :
    ∃ a₁, { a with pages := pages' }.takeBuffer b size size env = some a₁ ∧
      (a₁.stamp b size d o isAsync).Good m ∧
      a.Allocated (a₁.stamp b size d o isAsync) size b := by
  set a₀ : Arena := { a with pages := pages' } with ha₀
  obtain ⟨ft, alloc, heq, hlayout⟩ := takeBuffer_whole (a := a₀) h.layout hfit.mem hfit.isFree size
    env
  set a₁ : Arena := { a₀.setFree b false with freeBuffers := ft, allocatedBuffers := alloc }
  have hisFree : a₁.isFree = update a.isFree b false := a₀.isFree_setFree b false
  refine ⟨a₁, heq, ?_, hfit, hfit.mem, ?_, hfit.fits⟩
  · refine Good.stamp isAsync h.base h.length ?_ ?_ (fun x hx hne hx' ↦ ?_) (hsize ▸ hfit.fits)
    · rw [hisFree]
      exact hlayout
    · rw [hisFree]
      exact h.resident.allocate h.layout.spaced hfit.mem hfit.isFree h.aligned h.limit_aligned
        hpages
    · rw [hisFree, update_of_ne hne] at hx'
      have hsize : (a₁.record x).size = (a.record x).size := a₀.size_setFree b x false
      rw [hsize]
      exact h.recorded x hx hx'
  · rw [isFree_stamp, hisFree, update_self]

theorem Good.allocSplit {pages' : ℕ → Bool} (isAsync : Bool) (env : Env)
    (hroom : size + headerSize ≤ a.binderBufferSize b)
    (hpages : ∀ i, pages' i = true ↔ a.pages i = true ∨ InRange a.buffer (pageAlign (data b))
        (min (pageAlign (data (data b + size)))
          (pageFloor (upper a.limit a.buffers b))) i) :
    ∃ a₁, { a with pages := pages' }.takeBuffer b size (size + headerSize) env = some a₁ ∧
      (a₁.stamp b size d o isAsync).Good m ∧
      a.Allocated (a₁.stamp b size d o isAsync) size b := by
  obtain ⟨pre, post, hl⟩ := append_of_mem hfit.mem
  have hbpre := (notMem_of_nodup (hl ▸ h.layout.nodup)).1
  set new := data b + size with hnew
  set a₀ : Arena := { a with pages := pages' } with ha₀
  obtain ⟨ft, alloc, heq, hlayout⟩ := takeBuffer_split (a := a₀) hl h.layout hfit.isFree hroom env
  set a₁ : Arena := { (a₀.setFree b false).setFree new true with
    buffers := pre ++ b :: new :: post, freeBuffers := ft, allocatedBuffers := alloc } with ha₁
  have hisFree : a₁.isFree = update (update a.isFree b false) new true := by
    have h₁ : a₁.isFree = ((a₀.setFree b false).setFree new true).isFree := rfl
    rw [h₁, isFree_setFree, isFree_setFree]
    rfl
  have hupper : upper a.limit a.buffers b = data b + a.binderBufferSize b :=
    upper_eq h.layout.spaced hfit.mem
  have hbn : b ≠ new := by
    simp only [hnew, data, headerSize]
    omega
  have hroom₁ : a₁.binderBufferSize b = size := by
    rw [binderBufferSize_eq]
    show room headerSize a.limit (pre ++ b :: new :: post) b = size
    rw [room, upper_split hbpre]
    show new - (b + headerSize) = size
    simp only [hnew, data]
    omega
  refine ⟨a₁, heq, ?_, hfit, ?_, ?_, ?_⟩
  · refine Good.stamp isAsync h.base h.length ?_ ?_ (fun x hx hne hx' ↦ ?_) (hsize ▸ hroom₁.ge)
    · rw [hisFree]
      exact hlayout
    · rw [hisFree]
      have hres := h.resident
      have hspaced := h.layout.spaced
      rw [hl] at hres hspaced
      refine hres.split hspaced hfit.isFree h.aligned h.limit_aligned (Nat.le_add_right _ _) ?_ ?_
      · show data new ≤ upper a.limit (pre ++ b :: post) b
        rw [← hl, data]
        omega
      · rw [← hl]
        exact hpages
    · have hxn : x ≠ new := by
        rintro rfl
        simp [hisFree] at hx'
      rw [hisFree, update_of_ne hxn, update_of_ne hne] at hx'
      have hmem : x ∈ a.buffers := by grind
      have hsame : (a₁.record x).size = (a.record x).size := by
        rw [size_setFree, size_setFree]
      have hkeep : a₁.binderBufferSize x = a.binderBufferSize x := by
        rw [binderBufferSize_eq, binderBufferSize_eq, hl]
        exact bufferRoom_insert_of_ne hne hxn
      rw [hsame, hkeep]
      exact h.recorded x hmem hx'
  · show b ∈ pre ++ b :: new :: post
    simp
  · rw [isFree_stamp, hisFree, update_of_ne hbn, update_self]
  · exact hroom₁.ge

/-- From a best fit on, the driver returns it, or runs out of pages and changes nothing. -/
theorem Good.allocFit {hit : Bool}
    (hhit : hit = true → a.binderBufferSize b = size) (isAsync : Bool) (env : Env) :
    ∃ r a', a.allocFit b hit size d o isAsync env = some (r, a') ∧ a'.Good m ∧
      (r = none → a' = a) ∧ ∀ x, r = some x → a.Allocated a' size x := by
  have hupper := upper_eq h.layout.spaced hfit.mem
  rw [Arena.allocFit]
  -- pages are wanted for the whole buffer, or for its first part and a header
  have hcases : ∃ want, (if hit then a.binderBufferSize b
        else if size + headerSize + 4 ≥ a.binderBufferSize b then size
        else size + headerSize) = want ∧
      (size = want ∧ a.binderBufferSize b ≤ size + headerSize + 4 ∨
        want = size + headerSize ∧ size + headerSize + 4 < a.binderBufferSize b) := by grind
  obtain ⟨want, hwant, hcases⟩ := hcases
  obtain ⟨ok, pages', hmap, hok, hfail⟩ := h.mapRange hfit.mem hfit.isFree (data b + want) env
  simp only [hwant, hmap]
  cases ok with
  | false =>
    rw [hfail rfl]
    exact ⟨none, a, rfl, h, fun _ ↦ rfl, by simp⟩
  | true =>
    have hpages := hok rfl
    obtain ⟨a₁, htake, hgood, hdone⟩ : ∃ a₁, { a with pages := pages' }.takeBuffer b size want env =
        some a₁ ∧ (a₁.stamp b size d o isAsync).Good m ∧
          a.Allocated (a₁.stamp b size d o isAsync) size b := by
      rcases hcases with ⟨rfl, hroom⟩ | ⟨rfl, hroom⟩
      · -- the rest is too short for a header, and so too short to reach another page
        have hmin : min (pageAlign (data b + size)) (pageFloor (upper a.limit a.buffers b)) =
            pageFloor (upper a.limit a.buffers b) := by
          simp only [pageAlign, pageFloor, headerSize, pageSize] at *
          omega
        rw [hmin] at hpages
        exact Good.allocWhole hsize h hfit isAsync env hpages
      · exact Good.allocSplit hsize h hfit isAsync env (by omega) hpages
    refine ⟨some b, a₁.stamp b size d o isAsync, ?_, hgood, by simp, fun x hx ↦ ?_⟩
    · exact congrArg (Option.map fun a₁ : Arena ↦ (some b, a₁.stamp b size d o isAsync)) htake
    · exact (Option.some.inj hx) ▸ hdone

end

/-- **Allocation.** No `BUG`; a `NULL` return changes nothing; any other return is a best fit. -/
theorem Good.allocBuf (h : a.Good m) {d o : ℕ} (hd : d < 2 ^ 32) (ho : o < 2 ^ 32)
    (isAsync : Bool) (env : Env) :
    ∃ r a', a.allocBuf d o isAsync env = some (r, a') ∧ a'.Good m ∧ (r = none → a' = a) ∧
      ∀ b, r = some b → a.Allocated a' (wanted d o) b := by
  have hnull : ∃ r a', some (none, a) = some (r, a') ∧ a'.Good m ∧ (r = none → a' = a) ∧
      ∀ b, r = some b → a.Allocated a' (wanted d o) b := ⟨none, a, rfl, h, fun _ ↦ rfl, by simp⟩
  simp only [Arena.allocBuf]
  split_ifs with hvma hsize hasync
  · exact hnull
  · exact hnull
  · exact hnull
  · obtain ⟨⟨best, hit⟩, hsearch, hbest⟩ :=
      ceiling_bestFit h.layout ((align d + align o) % 2 ^ 32)
    rw [hsearch]
    cases best with
    | none => exact hnull
    | some b =>
      obtain ⟨hfit, hhit⟩ := hbest b rfl
      rw [← size_eq_wanted hd ho hsize]
      exact Good.allocFit rfl h hfit hhit isAsync env

/-! ### Release -/

/-- **Deleting a free buffer** that follows a free one: no `BUG`, and its pages are given back. -/
theorem deleteFreeBuffer_spec {pre post : List ℕ} {p b : ℕ}
    (haligned : a.buffer % pageSize = 0) (hlo : a.buffer ≤ p)
    (hl : a.buffers = pre ++ p :: b :: post)
    (hspaced : Spaced headerSize a.limit (pre ++ p :: b :: post)) (hp : a.isFree p = true)
    (hb : a.isFree b = true)
    (hres : Resident a.buffer a.limit (pre ++ p :: b :: post) a.isFree a.pages) (env : Env) :
    ∃ pages', a.deleteFreeBuffer b env =
        some { a with buffers := pre ++ p :: post, pages := pages' } ∧
      Resident a.buffer a.limit (pre ++ p :: post) a.isFree pages' := by
  have hsplit : pre ++ p :: b :: post = (pre ++ [p]) ++ b :: post := by simp
  have hnd : ((pre ++ [p]) ++ b :: post).Nodup := hsplit ▸ hspaced.nodup header_pos
  have hbpre := (notMem_of_nodup hnd).1
  have hprev : prev? a.buffers b = some p := by rw [hl, hsplit, prev?_split hnd]; simp
  have hnext : next? a.buffers b = post.head? := by rw [hl, hsplit, next?_split hbpre]
  have herase : a.buffers.erase b = pre ++ p :: post := by
    rw [hl, hsplit, erase_split hbpre]
    simp
  have hpb : data p ≤ b := hspaced.parts.2.1
  have hbn : ∀ n ∈ post.head?, data b ≤ n := by
    intro n hn
    have := (hsplit ▸ hspaced).parts.2.1
    cases post with
    | nil => simp at hn
    | cons y post =>
      obtain rfl : y = n := by simpa using hn
      exact this
  have hrange := fun i ↦ deletedRange_iff (i := i) haligned hpb hbn
  have hgive : ∀ pages' : ℕ → Bool,
      (∀ i, pages' i = true ↔ a.pages i = true ∧ ¬ OnlyHeader a.buffer p b post.head? i) →
      Resident a.buffer a.limit (pre ++ p :: post) a.isFree pages' :=
    fun pages' hpages ↦ hres.delete hspaced hp hb hpages
  simp only [deleteFreeBuffer, hprev, hp, if_true, hnext, herase]
  set start := freePageStart p b post.head?
  set stop := freePageEnd p b post.head?
  by_cases hflags : (start || stop) = true
  · have hpage : ∀ x : ℕ, pageFloor x % pageSize = 0 := fun x ↦ Nat.mul_mod_left _ _
    have hfirst : (if start then bufferStartPage b else bufferEndPage b) % pageSize = 0 := by
      split_ifs <;> exact hpage _
    have hlast :
        ((if stop then bufferEndPage b else bufferStartPage b) + pageSize) % pageSize = 0 := by
      rw [Nat.add_mod_right]
      split_ifs <;> exact hpage _
    have hlow : a.buffer ≤ if start then bufferStartPage b else bufferEndPage b := by
      split_ifs
      all_goals
        simp only [bufferStartPage, bufferEndPage, pageFloor, data, headerSize, pageSize] at *
        omega
    have hthere : ∀ i, InRange a.buffer (if start then bufferStartPage b else bufferEndPage b)
        ((if stop then bufferEndPage b else bufferStartPage b) + pageSize) i →
        a.pages i = true := by
      intro i hin
      have honly := (hrange i).mp ⟨hflags, hin⟩
      exact (hres i).mpr ⟨b, by simp, .inl honly.1⟩
    obtain ⟨ok, pages', heq, hpages⟩ :=
      updatePageRange_unmap (a := { a with buffers := pre ++ p :: post }) haligned hfirst hlast hlow
        hthere false env
    refine ⟨pages', ?_, hgive pages' fun i ↦ ?_⟩
    · rw [if_pos hflags, heq]
      rfl
    · rw [hpages i, ← hrange i]
      simp [hflags]
  · refine ⟨a.pages, by rw [if_neg hflags], hgive a.pages fun i ↦ ?_⟩
    rw [← hrange i]
    simp [hflags]

/-- **Between the two halves of a release**: `b` is marked free and belongs to no tree. -/
structure Freeing (a : Arena) (m : Region) (pre : List ℕ) (b : ℕ) (post : List ℕ) : Prop where
  base : a.buffer = m.page * pageSize
  length : a.bufferSize = m.count * pageSize
  split : a.buffers = pre ++ b :: post
  /-- The list, the `free` bits and the two trees agree around `b`. -/
  detached : Detached a.buffer a.limit pre b post a.isFree a.freeBuffers a.allocatedBuffers
  resident : Resident a.buffer a.limit (pre ++ b :: post) a.isFree a.pages
  /-- What is recorded as wanted of an allocated buffer fits into it. -/
  recorded : ∀ x ∈ pre ++ b :: post, a.isFree x = false →
    (a.record x).size ≤ bufferRoom a.limit (pre ++ b :: post) x

theorem ne_of_inUse {x b : ℕ} (hx : a.isFree x = false) (hb : a.isFree b = true) : x ≠ b := by
  rintro rfl
  cases hx.symm.trans hb

namespace Freeing

variable {a : Arena} {pre post : List ℕ} {b : ℕ}

variable (h : a.Freeing m pre b post)
include h

theorem aligned : a.buffer % pageSize = 0 := by
  rw [h.base, Nat.mul_mod_left]

theorem base_le {x : ℕ} (hx : x ∈ pre ++ b :: post) : a.buffer ≤ x :=
  h.detached.spaced.head_le h.detached.head hx

/-- **The first merge.** -/
theorem mergeNext (env : Env) : ∃ a' post', a.mergeNext b env = some a' ∧ a'.Freeing m pre b post' ∧
      ∀ y ∈ post'.head?, a'.isFree y = false := by
  obtain ⟨hbpre, hbpost⟩ := notMem_of_nodup h.detached.nodup
  have hnext : next? a.buffers b = post.head? := by rw [h.split, next?_split hbpre]
  cases post with
  | nil => grind [Arena.mergeNext]
  | cons n post =>
    by_cases hn : a.isFree n = true
    · set a₁ : Arena := { a with freeBuffers := (env.rebalance 1).apply (erase n a.freeBuffers) }
      obtain ⟨pages', heq, hres⟩ := deleteFreeBuffer_spec (a := a₁) h.aligned
        (h.base_le (by simp)) h.split h.detached.spaced h.detached.isFree hn h.resident env
      obtain ⟨hdetached, hhead⟩ := h.detached.mergeNext hn
        ((h.detached.freeIndex.erase n).reshape (env.rebalance 1))
      refine ⟨{ a₁ with buffers := pre ++ b :: post, pages := pages' }, post, ?_,
        ⟨h.base, h.length, rfl, hdetached, hres, ?_⟩, hhead⟩
      · simp only [Arena.mergeNext, hnext, List.head?_cons, hn]
        exact heq
      · intro x hx hfree
        have hxb := ne_of_inUse hfree h.detached.isFree
        have hxn := ne_of_inUse hfree hn
        have hrec := h.recorded x (by
          simp only [mem_append, mem_cons] at hx ⊢
          tauto) hfree
        rwa [bufferRoom_insert_of_ne hxb hxn] at hrec
    · grind [Arena.mergeNext]

/-- **The second merge.** -/
theorem mergePrev (hnext : ∀ y ∈ post.head?, a.isFree y = false) (env : Env) :
    ∃ b' a' pre', a.mergePrev b env = some (b', a') ∧ a'.Freeing m pre' b' post ∧
      (∀ x ∈ pre'.getLast?, a'.isFree x = false) ∧ ∀ y ∈ post.head?, a'.isFree y = false := by
  have hprev : prev? a.buffers b = pre.getLast? := by rw [h.split, prev?_split h.detached.nodup]
  rcases eq_nil_or_concat pre with rfl | ⟨pre, p, rfl⟩
  · grind [Arena.mergePrev]
  · rw [concat_eq_append] at *
    have hlist : pre ++ [p] ++ b :: post = pre ++ p :: b :: post := by simp
    by_cases hp : a.isFree p = true
    · obtain ⟨pages', heq, hres⟩ := deleteFreeBuffer_spec h.aligned
        (h.base_le (by simp)) (h.split.trans hlist) (hlist ▸ h.detached.spaced) hp
        h.detached.isFree (hlist ▸ h.resident) env
      obtain ⟨hdetached, hlast⟩ := h.detached.mergePrev hp
        ((h.detached.freeIndex.erase p).reshape (env.rebalance 2))
      refine ⟨p, { a with
        buffers := pre ++ p :: post, pages := pages'
        freeBuffers := (env.rebalance 2).apply (erase p a.freeBuffers) }, pre, ?_,
        ⟨h.base, h.length, rfl, hdetached, hres, ?_⟩, hlast, hnext⟩
      · simp only [Arena.mergePrev, hprev, List.getLast?_append, List.getLast?_singleton,
          some_or, hp, heq]
        rfl
      · intro x hx hfree
        have hxb := ne_of_inUse hfree h.detached.isFree
        have hxp := ne_of_inUse hfree hp
        have hrec := h.recorded x (by
          simp only [mem_append, mem_cons] at hx ⊢
          tauto) hfree
        rwa [hlist, bufferRoom_insert_of_ne hxp hxb] at hrec
    · grind [Arena.mergePrev]

/-- **The end of a release**: the merged buffer enters the tree of free buffers. -/
theorem insert (hprev : ∀ x ∈ pre.getLast?, a.isFree x = false)
    (hnext : ∀ y ∈ post.head?, a.isFree y = false) (rb : Reshape ℕ) :
    ∃ a', a.insertFreeBuffer b rb = some a' ∧ a'.Good m := by
  obtain ⟨hbpre, hbpost⟩ := notMem_of_nodup h.detached.nodup
  have hindex := h.detached.freeIndex
  rw [← h.split] at hindex
  obtain ⟨t, heq, ht⟩ := a.insertFreeBuffer_spec rb hindex h.detached.isFree (fun y hy ↦ hy.2)
    (fun hmem ↦ hmem.1.elim hbpre hbpost)
  rw [h.split] at ht
  refine ⟨_, heq, ⟨h.base, h.length, ?_, ?_, ?_⟩⟩
  · show Layout a.buffer a.limit a.buffers a.isFree t a.allocatedBuffers
    rw [h.split]
    exact h.detached.attach hprev hnext ht
  · show Resident a.buffer a.limit a.buffers a.isFree a.pages
    rw [h.split]
    exact h.resident
  · intro x hx hfree
    have hx' : x ∈ pre ++ b :: post := h.split ▸ hx
    rw [binderBufferSize_eq]
    show (a.record x).size ≤ bufferRoom a.limit a.buffers x
    rw [h.split]
    exact h.recorded x hx' hfree

end Freeing

/-- **Release.** No `BUG`, and everything is as it should be again. -/
theorem Good.freeBuf (h : a.Good m) {b : ℕ} (hb : b ∈ a.buffers)
    (hfree : a.isFree b = false) (env : Env) :
    ∃ a', a.freeBuf b env = some a' ∧ a'.Good m := by
  obtain ⟨pre, post, hl⟩ := append_of_mem hb
  have hupper := upper_eq h.layout.spaced hb
  have hbounds := h.layout.spaced.upper_bounds header_pos hb
  have hbase := h.base_le hb
  have hassert : ¬ (a.isFree b = true ∨ a.binderBufferSize b < (a.record b).size ∨
      b < a.buffer ∨ a.buffer + a.bufferSize < b) := by
    have hrec := h.recorded b hb hfree
    simp only [limit] at hbounds
    simp only [hfree, Bool.false_eq_true, false_or]
    omega
  simp only [Arena.freeBuf, if_neg hassert]
  set space := if (a.record b).asyncTransaction = true then
    (a.freeAsyncSpace + ((a.record b).size + headerSize)) % 2 ^ 32 else a.freeAsyncSpace
  set a₁ : Arena := { a with freeAsyncSpace := space }
  have hfirst : pageAlign (data b) % pageSize = 0 := Nat.mul_mod_left _ _
  have hlast : pageFloor (data b + a.binderBufferSize b) % pageSize = 0 := Nat.mul_mod_left _ _
  have hlow : a.buffer ≤ pageAlign (data b) := by
    simp only [pageAlign, data, pageSize]
    omega
  have hthere : ∀ i, InRange a.buffer (pageAlign (data b))
      (pageFloor (data b + a.binderBufferSize b)) i → a.pages i = true := by
        grind [h.resident.present, h.aligned]
  obtain ⟨ok, pages', heq, hpages⟩ :=
    updatePageRange_unmap (a := a₁) h.aligned hfirst hlast hlow hthere false env
  rw [heq]
  set a₂ : Arena := { a₁ with
    pages := pages', allocatedBuffers := (env.rebalance 0).apply (erase b a.allocatedBuffers) }
  have hisFree : (a₂.setFree b true).isFree = update a.isFree b true :=
    a₂.isFree_setFree b true
  have hfreeing : (a₂.setFree b true).Freeing m pre b post := by
    have hlayout := h.layout
    have hres := h.resident
    rw [hl] at hlayout hres
    refine ⟨h.base, h.length, hl, ?_, ?_, fun x hx hx' ↦ ?_⟩
    · rw [hisFree]
      exact hlayout.detach hfree ((hlayout.allocIndex.erase b).reshape (env.rebalance 0))
    · rw [hisFree]
      refine hres.release hlayout.spaced (by simp) hfree h.aligned h.limit_aligned fun i ↦ ?_
      show pages' i = true ↔ a.pages i = true ∧
        ¬ InRange a.buffer (pageAlign (data b)) (pageFloor (upper a.limit (pre ++ b :: post) b)) i
      rw [← hl, hupper]
      exact hpages i
    · have hxb : x ≠ b := fun he ↦ by simp [hisFree, he] at hx'
      rw [hisFree, update_of_ne hxb] at hx'
      have hrec := h.recorded x (hl ▸ hx) hx'
      rw [size_setFree]
      rwa [binderBufferSize_eq, hl] at hrec
  obtain ⟨a₃, post', heq₃, h₃, hnext⟩ := hfreeing.mergeNext env
  obtain ⟨b', a₄, pre', heq₄, h₄, hprev, hnext'⟩ := h₃.mergePrev hnext env
  obtain ⟨a₅, heq₅, h₅⟩ := h₄.insert hprev hnext' (env.rebalance 3)
  refine ⟨a₅, ?_, h₅⟩
  simp only [bind_eq_bind]
  show ((a₂.setFree b true).mergeNext b env).bind _ = _
  simp only [heq₃, bind_some, heq₄, heq₅]

end Arena

end Binder
