import MerrukKernel.Binder.BufferCalls

/-!
# Runs of the binder allocator

From the region `binder_mmap` sets up, through every sequence of allocations (of any 32-bit sizes,
with pages that can be had or not) and of releases of allocated buffers:

* `Arena.runs_structured` — the buffers tile the region, free buffers are never neighbours, the two
  trees index the free and the allocated buffers, and an allocation returns a best fit or changes
  nothing;
* `Arena.runs_resident` — the pages present are exactly those that hold a byte of a header or of an
  allocated payload.

That such a run never ends in `none` says that no `BUG_ON` of the allocator is reached.
-/

namespace Binder

open SearchTree Tiling

/-- Nothing fails and no tree changes its shape. -/
def Env.plain : Env := ⟨true, fun _ ↦ false, fun _ ↦ Reshape.refl ℕ⟩

/-- Pages from the fifth on cannot be had. -/
def Env.short : Env := { Env.plain with fault := fun i ↦ 4 ≤ i }

/-- Sixteen pages at page 16. -/
def region16 : Region := ⟨16, 16, by decide, by decide, by decide⟩

/-! ### The start -/

namespace Arena

/-- The state `binder_mmap` leaves: one free buffer, its header on the first page. -/
def start (m : Region) : Arena where
  buffer := m.page * pageSize
  bufferSize := m.count * pageSize
  buffers := [m.page * pageSize]
  record := Function.update (fun _ ↦ default) (m.page * pageSize)
    { (default : Buffer) with free := true }
  freeBuffers := .node (m.page * pageSize) .nil .nil
  allocatedBuffers := .nil
  freeAsyncSpace := m.count * pageSize / 2
  pages := Function.update (fun _ ↦ false) 0 true
  vma := true

/-- A tree with one element has one shape. -/
theorem reshape_singleton (rb : Reshape ℕ) (b : ℕ) :
    rb.apply (.node b .nil .nil) = .node b .nil .nil := by
  have h : inorder (rb.apply (.node b .nil .nil)) = [b] := rb.inorder_apply _
  cases hrb : rb.apply (.node b .nil .nil) with
  | nil => rw [hrb] at h; simp at h
  | node x l r =>
    rw [hrb] at h
    cases l with
    | nil =>
      cases r with
      | nil =>
        obtain rfl : x = b := by simpa using h
        rfl
      | node y l r => simp at h
    | node y l r => simp [List.append_eq_singleton_iff] at h

end Arena

open Arena in
/-- **`binder_mmap`** fails if it cannot have the first page, and otherwise sets up `Arena.start`.
-/
theorem mmap_eq (m : Region) (env : Env) :
    mmap m env = some (if env.fault 0 then none else some (Arena.start m)) := by
  have hrange : ∀ base : ℕ, ¬ base + pageSize ≤ base := by
    intro base
    simp only [pageSize]
    omega
  have hcount : ∀ base : ℕ, (base + pageSize - base) / pageSize = 1 := by
    intro base
    simp only [pageSize]
    omega
  simp only [mmap, updatePageRange, hrange, if_false, if_true, Bool.true_or, Nat.sub_self,
    Nat.zero_div, hcount, mapPages, unmapPages, Nat.add_zero, Bool.false_eq_true]
  by_cases hfault : env.fault 0 = true
  · simp [hfault]
  · simp [hfault, insertFreeBuffer, setFree, isFree, insertWith, reshape_singleton, Arena.start]

namespace Arena

variable {m : Region}

theorem start_good (m : Region) : (start m).Good m := by
  have hfree : (start m).isFree (m.page * pageSize) = true := by simp [isFree, start]
  have hcount := m.pos
  have honly : ∀ {x}, x ∈ (start m).buffers → x = m.page * pageSize := by simp [start]
  have hspaced : Spaced headerSize (start m).limit [m.page * pageSize] := by
    simp only [Spaced, List.singleton_append, List.pairwise_cons, List.mem_singleton,
      List.not_mem_nil, false_implies, implies_true, List.Pairwise.nil, and_true]
    simp only [limit, start, headerSize, pageSize]
    omega
  refine ⟨rfl, rfl, ⟨rfl, hspaced, List.isChain_singleton _, ?_, ?_⟩, fun i ↦ ?_, ?_⟩
  · refine ⟨fun x ↦ ?_, by simp [start], by simp [start]⟩
    constructor
    · intro hx
      obtain rfl : x = m.page * pageSize := by simpa [start] using hx
      exact ⟨by simp [start], hfree⟩
    · rintro ⟨hx, -⟩
      simpa [start] using hx
  · refine Index.nil ?_
    rintro x ⟨hx, hx'⟩
    obtain rfl := honly hx
    rw [hfree] at hx'
    exact absurd hx' (by simp)
  · -- the header lies on the first page
    constructor
    · intro hi
      obtain rfl : i = 0 := by
        by_contra hne
        simp [start, hne] at hi
      refine ⟨m.page * pageSize, by simp [start], .inl (overlaps_iff.mpr ?_)⟩
      simp only [start, data, headerSize, pageSize]
      omega
    · rintro ⟨x, hx, hneed⟩
      obtain rfl := honly hx
      rw [hfree] at hneed
      have hover := hneed.resolve_right (by simp)
      rw [overlaps_iff] at hover
      obtain rfl : i = 0 := by
        simp only [start, data, headerSize, pageSize] at hover
        omega
      simp [start]
  · intro x hx hx'
    obtain rfl := honly hx
    rw [hfree] at hx'
    exact absurd hx' (by simp)

/-! ### Runs -/

variable {a : Arena} {p : ℕ → Bool}

/-- One call from a good state: no `BUG`, and a good state again. -/
theorem Good.call (h : a.Good m) {op : BufOp} (hop : a.Callable op) :
    ∃ r a', a.call op = some (r, a') ∧ a'.Good m := by
  cases op with
  | alloc d o isAsync env =>
    obtain ⟨r, a', heq, hgood, -⟩ := h.allocBuf d.isLt o.isLt isAsync env
    exact ⟨r, a', heq, hgood⟩
  | free b env =>
    obtain ⟨a', heq, hgood⟩ := h.freeBuf hop.1 hop.2 env
    exact ⟨none, a', by rw [Arena.call, heq]; rfl, hgood⟩
  | vmaClose => exact ⟨none, _, rfl, { h with }⟩

/-- **Every state of every run is good**; in particular there is one. -/
theorem runs_good {ops : List BufOp} {s : Option Arena}
    (h : bufMachine.Runs (some (start m)) ops s) : ∃ a, s = some a ∧ a.Good m := by
  refine h.invariant (I := fun s ↦ ∃ a, s = some a ∧ a.Good m) ?_ ⟨_, rfl, start_good m⟩
  rintro _ op ⟨a, rfl, hgood⟩ hguard
  obtain ⟨r, a', heq, hgood'⟩ := hgood.call (hguard a rfl)
  exact ⟨a', by simp [bufMachine, heq], hgood'⟩

instance : ∀ (s : Option Arena) (op : BufOp), Decidable (bufMachine.guard s op)
  | none, _ => .isTrue (by simp [bufMachine])
  | some a, .alloc .. => .isTrue (by simp [bufMachine, Callable])
  | some a, .free b _ =>
    decidable_of_iff (b ∈ a.buffers ∧ a.isFree b = false) (by simp [bufMachine, Callable])
  | some a, .vmaClose => .isTrue (by simp [bufMachine, Callable])

/-! ### The structure of the region -/

/-- The buffers of `l` lie one behind the other from `lo` on, each with its header and its room, up
to the end of the region. -/
def TilesFrom (a : Arena) : ℕ → List ℕ → Prop
  | lo, [] => lo = a.limit
  | lo, b :: l => b = lo ∧ a.TilesFrom (data b + a.binderBufferSize b) l

theorem tilesFrom_of_spaced (h : Spaced headerSize a.limit a.buffers)
    (pre : List ℕ) {l : List ℕ} (hl : a.buffers = pre ++ l) : a.TilesFrom (l.headD a.limit) l := by
  induction l generalizing pre with
  | nil => rfl
  | cons b l ih =>
    have hb : b ∈ a.buffers := by simp [hl]
    have hbpre := (notMem_of_nodup (hl ▸ h.nodup header_pos)).1
    have hup : upper a.limit a.buffers b = l.headD a.limit := by rw [hl, upper_split hbpre]
    refine ⟨rfl, ?_⟩
    rw [← upper_eq h hb, hup]
    exact ih (pre ++ [b]) (by simp [hl])

/-- **The structure of a region.** -/
structure Structured (a : Arena) (m : Region) : Prop where
  base : a.buffer = m.page * pageSize
  length : a.bufferSize = m.count * pageSize
  /-- The buffers tile it, in address order. -/
  tiles : a.TilesFrom a.buffer a.buffers
  separated : Separated a.isFree a.buffers
  /-- `free_buffers` holds the free buffers, as a search tree by their current size. -/
  freeTree : Index (fun x y ↦ a.binderBufferSize x ≤ a.binderBufferSize y)
    (fun b ↦ b ∈ a.buffers ∧ a.isFree b = true) a.freeBuffers
  /-- `allocated_buffers` holds the others, ordered by address. -/
  allocatedTree : Index (· < ·) (fun b ↦ b ∈ a.buffers ∧ a.isFree b = false) a.allocatedBuffers

theorem Good.structured (h : a.Good m) : a.Structured m where
  base := h.base
  length := h.length
  tiles := by
    have htiles : a.TilesFrom (a.buffers.headD a.limit) a.buffers :=
      tilesFrom_of_spaced h.layout.spaced [] rfl
    have hhead := h.layout.head
    cases hl : a.buffers with
    | nil => simp [hl] at hhead
    | cons b l => grind
  separated := h.layout.separated
  freeTree := by
    simp only [binderBufferSize_eq]
    exact h.layout.freeIndex
  allocatedTree := h.layout.allocIndex

/-- **The allocator keeps its region in order.** After every sequence of calls the region is
structured, and the next allocation, whatever sizes it asks for and whatever pages it can have,
returns `NULL` and changes nothing, or returns a smallest free buffer that holds both sizes rounded
up to whole pointers. -/
theorem runs_structured (m : Region) (ops : List BufOp) (s : Option Arena)
    (h : bufMachine.Runs (some (start m)) ops s) :
    ∃ a, s = some a ∧ a.Structured m ∧ ∀ (d o : BitVec 32) (isAsync : Bool) (env : Env),
        ∃ r a', a.call (.alloc d o isAsync env) = some (r, a') ∧ (r = none → a' = a) ∧
          ∀ b, r = some b → a.Allocated a' (wanted d.toNat o.toNat) b := by
  obtain ⟨a, rfl, hgood⟩ := runs_good h
  refine ⟨a, rfl, hgood.structured, fun d o isAsync env ↦ ?_⟩
  obtain ⟨r, a', heq, -, hnull, hsome⟩ := hgood.allocBuf d.isLt o.isLt isAsync env
  exact ⟨r, a', heq, hnull, hsome⟩

theorem runs_structured_reuse :
    let ops : List BufOp := [.alloc 100 8 false Env.plain, .alloc 5000 0 true Env.plain,
      .free 65536 Env.plain, .alloc 0 0 false Env.plain]
    ∃ a, bufMachine.final (some (start region16)) ops = some a ∧ a.Structured region16 ∧
      ∀ (d o : BitVec 32) (isAsync : Bool) (env : Env),
        ∃ r a', a.call (.alloc d o isAsync env) = some (r, a') ∧ (r = none → a' = a) ∧
          ∀ b, r = some b → a.Allocated a' (wanted d.toNat o.toNat) b :=
  runs_structured region16 _ _ (Machine.Permitted.runs (by decide +kernel))

/-! ### The pages of the region -/

/-- A failed update restores what it found. -/
theorem mapPages_restores {fault : ℕ → Bool} {first done n : ℕ} {orig cur : ℕ → Bool}
    (hcur : ∀ i, cur i = true ↔ orig i = true ∨ first ≤ i ∧ i < first + done)
    (horig : ∀ i, first ≤ i → i < first + done → orig i = false)
    (h : mapPages fault first done n cur = some (false, p)) : p = orig := by
  induction n generalizing done cur with
  | zero => simp [mapPages] at h
  | succ n ih =>
    rw [mapPages] at h
    split_ifs at h with hset
    · obtain ⟨p', heq, hspec⟩ := unmapPages_spec first done cur fun k hk ↦
        (hcur _).mpr (.inr (by omega))
      rw [heq] at h
      obtain rfl : p' = p := by simpa using h
      funext i
      rw [Bool.eq_iff_iff, hspec i, hcur i]
      by_cases hi : first ≤ i ∧ i < first + done
      · simp [hi, horig i hi.1 hi.2]
      · simp [hi]
    · grind

theorem updatePageRange_restores {start stop : ℕ} {vma : Bool} {env : Env}
    (h : a.updatePageRange true start stop vma env = some (false, p)) :
    p = a.pages := by
  simp only [updatePageRange] at h
  split_ifs at h with hle
  · simp at h
  · refine mapPages_restores (fun i ↦ ⟨fun hi ↦ .inl hi, ?_⟩) (fun i hlo hhi ↦ by omega) h
    rintro (hi | hi)
    · exact hi
    · omega
  · simpa using h.symm

/-- **The pages of a region are resident as needed.** After every sequence of calls, whatever pages
could be had in between, a page is present exactly when it holds a byte of a header or of the
payload of an allocated buffer; every byte of a buffer that the next allocation returns is on a
present page; and an update of a range that fails leaves the pages as they were. -/
theorem runs_resident (m : Region) (ops : List BufOp) (s : Option Arena)
    (h : bufMachine.Runs (some (start m)) ops s) :
    ∃ a, s = some a ∧ (∀ i, a.pages i = true ↔ Needed a.buffer a.limit a.buffers a.isFree i) ∧
      (∀ (d o : BitVec 32) (isAsync : Bool) (env : Env),
        ∃ r a', a.call (.alloc d o isAsync env) = some (r, a') ∧ (r = none → a'.pages = a.pages) ∧
          ∀ b, r = some b → ∀ i, Overlaps a'.buffer i (data b) (data b + a'.binderBufferSize b) →
            a'.pages i = true) ∧
      ∀ (first stop : ℕ) (vma : Bool) (env : Env) (p : ℕ → Bool),
        a.updatePageRange true first stop vma env = some (false, p) → p = a.pages := by
  obtain ⟨a, rfl, hgood⟩ := runs_good h
  refine ⟨a, rfl, hgood.resident, fun d o isAsync env ↦ ?_, fun _ _ _ _ _ h ↦
    updatePageRange_restores h⟩
  obtain ⟨r, a', heq, hgood', hnull, hsome⟩ := hgood.allocBuf d.isLt o.isLt isAsync env
  refine ⟨r, a', heq, fun hr ↦ by rw [hnull hr], fun b hb i hover ↦ ?_⟩
  have hdone := hsome b hb
  rw [← upper_eq hgood'.layout.spaced hdone.mem] at hover
  exact (hgood'.resident i).mpr ⟨b, hdone.mem, .inr ⟨hdone.inUse, hover⟩⟩

theorem runs_resident_short :
    let ops : List BufOp := [.alloc 9000 0 false Env.plain, .alloc 9000 0 false Env.short,
      .alloc 2000 0 false Env.plain, .free 65536 Env.plain]
    ∃ a, bufMachine.final (some (start region16)) ops = some a ∧
      (∀ i, a.pages i = true ↔ Needed a.buffer a.limit a.buffers a.isFree i) ∧
      (∀ (d o : BitVec 32) (isAsync : Bool) (env : Env),
        ∃ r a', a.call (.alloc d o isAsync env) = some (r, a') ∧ (r = none → a'.pages = a.pages) ∧
          ∀ b, r = some b → ∀ i, Overlaps a'.buffer i (data b) (data b + a'.binderBufferSize b) →
            a'.pages i = true) ∧
      ∀ (first stop : ℕ) (vma : Bool) (env : Env) (p : ℕ → Bool),
        a.updatePageRange true first stop vma env = some (false, p) → p = a.pages :=
  runs_resident region16 _ _ (Machine.Permitted.runs (by decide +kernel))

end Arena

end Binder
