import MerrukKernel.Binder.BufferLayout

/-!
# Which pages a binder region needs

A page of the region has to be present when it holds a byte of some header, or a byte of the
payload of an allocated buffer. `Needed` is that set, and `Resident` says that `proc->pages` is
exactly it.

Three places of the driver decide on pages, each by rounding addresses: an allocation maps the
pages of the payload and of the header behind it, a release unmaps those of the payload, and a
merge unmaps those of a header. The lemmas of this module say for each of the three that the
rounded range is the difference between what is needed before and after:

* `not_needed_of_inside` — the whole pages inside a free payload are needed by nobody;
* `overlaps_payload` — a page that holds a byte of a payload is one of them, or holds a byte of a
  header next to it, and is there already;
* `deletedRange_iff` — the range `binder_delete_free_buffer` computes consists of the pages that
  hold a byte of the deleted header and of no neighbouring one.
-/

namespace Binder

open SearchTree Tiling Function List Arena

/-! ### The two page loops -/

/-- Page `i` of the region at `base` lies in `[start, stop)`. -/
def InRange (base start stop i : ℕ) : Prop :=
  start ≤ base + i * pageSize ∧ base + i * pageSize < stop
deriving Decidable

theorem unmapPages_spec (first n : ℕ) (pages : ℕ → Bool) (h : ∀ k < n, pages (first + k) = true) :
    ∃ pages', unmapPages first n pages = some pages' ∧
      ∀ i, pages' i = true ↔ pages i = true ∧ ¬ (first ≤ i ∧ i < first + n) := by
  induction n generalizing pages with
  | zero =>
    refine ⟨pages, rfl, fun i ↦ ⟨fun hi ↦ ⟨hi, by omega⟩, fun hi ↦ hi.1⟩⟩
  | succ n ih =>
    have hrest : ∀ k < n, update pages (first + n) false (first + k) = true := by grind
    obtain ⟨pages', heq, hspec⟩ := ih _ hrest
    refine ⟨pages', ?_, fun i ↦ ?_⟩
    · rw [unmapPages, if_pos (h n (by omega)), heq]
    · grind

/-- The allocating loop either comes through, or takes back all it had mapped. -/
theorem mapPages_spec (fault : ℕ → Bool) (first done n : ℕ) (pages : ℕ → Bool)
    (hdone : ∀ k < done, pages (first + k) = true)
    (hfree : ∀ k, done ≤ k → k < done + n → pages (first + k) = false) :
    ∃ ok pages', mapPages fault first done n pages = some (ok, pages') ∧
      (ok = true → ∀ i, pages' i = true ↔
        pages i = true ∨ first + done ≤ i ∧ i < first + done + n) ∧
      (ok = false → ∀ i, pages' i = true ↔ pages i = true ∧ ¬ (first ≤ i ∧ i < first + done)) := by
  induction n generalizing done pages with
  | zero =>
    refine ⟨true, pages, rfl, fun _ i ↦ ⟨fun hi ↦ .inl hi, ?_⟩, by simp⟩
    rintro (hi | hi)
    · exact hi
    · omega
  | succ n ih =>
    have hcur : pages (first + done) = false := hfree done (by omega) (by omega)
    rw [mapPages, if_neg (by simp [hcur])]
    by_cases hfault : fault (first + done) = true
    · obtain ⟨pages', heq, hspec⟩ := unmapPages_spec first done pages hdone
      exact ⟨false, pages', by rw [if_pos hfault, heq]; rfl, by simp, fun _ ↦ hspec⟩
    · rw [if_neg hfault]
      have hdone' : ∀ k < done + 1, update pages (first + done) true (first + k) = true := by grind
      have hfree' : ∀ k, done + 1 ≤ k → k < done + 1 + n →
          update pages (first + done) true (first + k) = false := by grind
      obtain ⟨ok, pages', heq, htrue, hfalse⟩ := ih _ _ hdone' hfree'
      refine ⟨ok, pages', heq, fun hok i ↦ ?_, fun hok i ↦ ?_⟩
      · grind
      · grind

section Range

variable {a : Arena} {start stop : ℕ}

theorem inRange_iff {base : ℕ} (hbase : base % pageSize = 0) (hstart : start % pageSize = 0)
    (hstop : stop % pageSize = 0) (hlo : base ≤ start) (hlt : start < stop) (i : ℕ) :
    InRange base start stop i ↔
      (start - base) / pageSize ≤ i ∧
        i < (start - base) / pageSize + (stop - start) / pageSize := by
  simp only [InRange, pageSize] at *
  omega

/-- An empty range has no pages. -/
theorem not_inRange {base i : ℕ} (hle : stop ≤ start) : ¬ InRange base start stop i := by
  simp only [InRange]
  omega

variable (hbase : a.buffer % pageSize = 0) (hstart : start % pageSize = 0)
  (hstop : stop % pageSize = 0) (hlo : a.buffer ≤ start)
include hbase hstart hstop hlo

/-- **Mapping a range**: all of it, or nothing. -/
theorem Arena.updatePageRange_map
    (habsent : ∀ i, InRange a.buffer start stop i → a.pages i = false) (vma : Bool) (env : Env) :
    ∃ ok pages', a.updatePageRange true start stop vma env = some (ok, pages') ∧
      (ok = true → ∀ i, pages' i = true ↔ a.pages i = true ∨ InRange a.buffer start stop i) ∧
      (ok = false → pages' = a.pages) := by
  by_cases hle : stop ≤ start
  · refine ⟨true, a.pages, by simp [updatePageRange, hle], fun _ i ↦ ?_, by simp⟩
    simp [not_inRange hle]
  · have hrange := inRange_iff hbase hstart hstop hlo (by omega)
    simp only [updatePageRange, hle]
    by_cases hvma : (vma || (env.mm && a.vma)) = true
    · rw [if_pos hvma]
      obtain ⟨ok, pages', heq, htrue, hfalse⟩ := mapPages_spec env.fault
        ((start - a.buffer) / pageSize) 0 ((stop - start) / pageSize) a.pages (by simp)
        fun k _ hk ↦ habsent _ ((hrange _).mpr (by omega))
      refine ⟨ok, pages', heq, fun hok i ↦ ?_, fun hok ↦ ?_⟩
      · rw [htrue hok i, hrange i]
        simp
      · grind
    · rw [if_neg hvma]
      exact ⟨false, a.pages, rfl, by simp, fun _ ↦ rfl⟩

/-- **Unmapping a range** of pages that are all there. -/
theorem Arena.updatePageRange_unmap
    (hpresent : ∀ i, InRange a.buffer start stop i → a.pages i = true) (vma : Bool) (env : Env) :
    ∃ ok pages', a.updatePageRange false start stop vma env = some (ok, pages') ∧
      ∀ i, pages' i = true ↔ a.pages i = true ∧ ¬ InRange a.buffer start stop i := by
  by_cases hle : stop ≤ start
  · refine ⟨true, a.pages, by simp [updatePageRange, hle], fun i ↦ ?_⟩
    simp [not_inRange hle]
  · have hrange := inRange_iff hbase hstart hstop hlo (by omega)
    obtain ⟨pages', heq, hspec⟩ := unmapPages_spec ((start - a.buffer) / pageSize)
      ((stop - start) / pageSize) a.pages fun k hk ↦ hpresent _ ((hrange _).mpr (by omega))
    refine ⟨false, pages', ?_, fun i ↦ ?_⟩
    · simp [updatePageRange, hle, heq]
    · rw [hspec i, hrange i]

end Range

/-! ### Needed pages -/

/-- Page `i` of the region at `base` holds a byte of `[s, e)`. -/
def Overlaps (base i s e : ℕ) : Prop :=
  ∃ addr, s ≤ addr ∧ addr < e ∧ base + i * pageSize ≤ addr ∧ addr < base + (i + 1) * pageSize

variable {e s : ℕ}

theorem overlaps_iff {base i : ℕ} :
    Overlaps base i s e ↔ s < e ∧ s < base + (i + 1) * pageSize ∧ base + i * pageSize < e := by
  simp only [Overlaps, pageSize]
  constructor
  · rintro ⟨addr, h⟩
    omega
  · intro h
    exact ⟨max s (base + i * 4096), by omega⟩

/-- Page `i` holds a byte of some header, or of the payload of an allocated buffer. -/
def Needed (base hi : ℕ) (l : List ℕ) (free : ℕ → Bool) (i : ℕ) : Prop :=
  ∃ b ∈ l, Overlaps base i b (data b) ∨ free b = false ∧ Overlaps base i (data b) (upper hi l b)

/-- **Residency**: the pages that are present are the needed ones. -/
def Resident (base hi : ℕ) (l : List ℕ) (free : ℕ → Bool) (pages : ℕ → Bool) : Prop :=
  ∀ i, pages i = true ↔ Needed base hi l free i

section Geometry

variable {base hi : ℕ} {l pre post : List ℕ} {free : ℕ → Bool} {i b : ℕ}

/-- **Inside a free payload**, whole pages are needed by nobody. -/
theorem not_needed_of_inside (h : Spaced headerSize hi l) (hb : b ∈ l) (hfree : free b = true)
    (hbase : base % pageSize = 0)
    (hin : InRange base (pageAlign (data b)) (pageFloor (upper hi l b)) i) :
    ¬ Needed base hi l free i := by
  rintro ⟨x, hx, hneed⟩
  have hxb := h.upper_bounds header_pos hx
  -- every other buffer lies wholly before or wholly behind the payload of `b`
  have hsep : x = b ∨ upper hi l x ≤ b ∨ upper hi l b ≤ x := by
    rcases Nat.lt_trichotomy x b with hlt | heq | hlt
    · exact .inr (.inl (h.upper_le header_pos hx hb hlt))
    · exact .inl heq
    · exact .inr (.inr (h.upper_le header_pos hb hx hlt))
  simp only [overlaps_iff] at hneed
  simp only [InRange, pageAlign, pageFloor, data, pageSize] at *
  rcases hsep with rfl | hsep
  · grind
  · omega

/-- **A page with a byte of a payload** is one of the whole pages inside it, or holds a byte of the
header before it or of the header behind it. -/
theorem overlaps_payload (h : Spaced headerSize hi l) (hb : b ∈ l)
    (he : e ≤ upper hi l b) (hbase : base % pageSize = 0) (hhi : hi % pageSize = 0)
    (hi' : Overlaps base i (data b) e) :
    InRange base (pageAlign (data b)) (min (pageAlign e) (pageFloor (upper hi l b))) i ∨
      ∃ x ∈ l, Overlaps base i x (data x) := by
  rw [overlaps_iff] at hi'
  by_cases hlow : base + i * pageSize < data b
  · refine .inr ⟨b, hb, overlaps_iff.mpr ?_⟩
    simp only [data, headerSize] at *
    omega
  · by_cases hhigh : base + i * pageSize < pageFloor (upper hi l b)
    · refine .inl ?_
      simp only [InRange, pageAlign, pageSize] at *
      omega
    · -- the page holds the end of the payload, which is then no page boundary
      rcases h.upper_mem header_pos hb with hmem | heq
      · refine .inr ⟨_, hmem, overlaps_iff.mpr ?_⟩
        simp only [pageFloor, data, headerSize, pageSize] at *
        omega
      · simp only [pageFloor, pageSize] at *
        omega

theorem overlaps_of_inRange {stop : ℕ} (hbase : base % pageSize = 0)
    (hin : InRange base (pageAlign s) stop i) (hstop : stop ≤ pageAlign e) :
    Overlaps base i s e := by
  rw [overlaps_iff]
  simp only [InRange, pageAlign, pageSize] at *
  omega

/-! ### How the needed pages change -/

/-- Allocating a buffer adds the pages of its payload. -/
theorem needed_allocate (hb : b ∈ l) (hfree : free b = true) :
    Needed base hi l (update free b false) i ↔
      Needed base hi l free i ∨ Overlaps base i (data b) (upper hi l b) := by
  constructor
  · rintro ⟨x, hx, hneed⟩
    rcases eq_or_ne x b with rfl | hne
    · rcases hneed with hneed | hneed
      · exact .inl ⟨x, hx, .inl hneed⟩
      · exact .inr hneed.2
    · rw [update_of_ne hne] at hneed
      exact .inl ⟨x, hx, hneed⟩
  · rintro (⟨x, hx, hneed⟩ | hneed)
    · rcases eq_or_ne x b with rfl | hne
      · rcases hneed with hneed | hneed
        · exact ⟨x, hx, .inl hneed⟩
        · grind
      · exact ⟨x, hx, by rwa [update_of_ne hne]⟩
    · exact ⟨b, hb, .inr ⟨by simp, hneed⟩⟩

/-- Two neighbouring stretches of addresses. -/
theorem overlaps_append {m : ℕ} (hsm : s ≤ m) (hme : m ≤ e) :
    Overlaps base i s e ↔ Overlaps base i s m ∨ Overlaps base i m e := by
  simp only [overlaps_iff, pageSize]
  omega

/-- Cutting an allocated buffer at `new` gives up its payload from there on, but for a header. -/
theorem needed_split {new : ℕ} (hnd : (pre ++ b :: new :: post).Nodup) (hfree : free b = true)
    (hnew : data b ≤ new) :
    Needed base hi (pre ++ b :: new :: post)
        (update (update free b false) new true) i ↔
      Needed base hi (pre ++ b :: post) free i ∨ Overlaps base i (data b) (data new) := by
  obtain ⟨hbpre, hbpost⟩ := notMem_of_nodup hnd
  have hbnew : b ≠ new := fun he ↦ hbpost (by simp [he])
  have hupper : upper hi (pre ++ b :: new :: post) b = new := by rw [upper_split hbpre]; rfl
  have hcut : Overlaps base i (data b) (data new) ↔
      Overlaps base i (data b) new ∨ Overlaps base i new (data new) :=
    overlaps_append hnew (Nat.le_add_right new headerSize)
  have hother : ∀ x, x ≠ b → x ≠ new → (Overlaps base i x (data x) ∨
        update (update free b false) new true x = false ∧
          Overlaps base i (data x) (upper hi (pre ++ b :: new :: post) x) ↔
      Overlaps base i x (data x) ∨
        free x = false ∧ Overlaps base i (data x) (upper hi (pre ++ b :: post) x)) := by
        grind [upper_insert_of_ne]
  constructor
  · rintro ⟨x, hx, hneed⟩
    rcases eq_or_ne x new with rfl | hxn
    · grind
    · rcases eq_or_ne x b with rfl | hxb
      · rcases hneed with hneed | hneed
        · exact .inl ⟨x, by simp, .inl hneed⟩
        · grind
      · refine .inl ⟨x, ?_, (hother x hxb hxn).mp hneed⟩
        simpa [hxn] using hx
  · rintro (⟨x, hx, hneed⟩ | hneed)
    · rcases eq_or_ne x b with rfl | hxb
      · rcases hneed with hneed | hneed
        · exact ⟨x, by simp, .inl hneed⟩
        · grind
      · have hxn : x ≠ new := by
          rintro rfl
          rw [show pre ++ b :: x :: post = (pre ++ [b]) ++ x :: post by simp] at hnd
          obtain ⟨h1, h2⟩ := notMem_of_nodup hnd
          simp only [mem_append, mem_cons] at hx h1
          tauto
        refine ⟨x, ?_, (hother x hxb hxn).mpr hneed⟩
        simp only [mem_append, mem_cons] at hx ⊢
        tauto
    · rcases hcut.mp hneed with hneed | hneed
      · refine ⟨b, by simp, .inr ⟨?_, by rwa [hupper]⟩⟩
        rw [update_of_ne hbnew, update_self]
      · exact ⟨new, by simp, .inl hneed⟩

variable {p : ℕ} {pages pages' : ℕ → Bool}

/-- Deleting a free buffer that follows a free one gives up its header. -/
theorem needed_delete (hp : free p = true) (hb : free b = true) :
    Needed base hi (pre ++ p :: b :: post) free i ↔
      Needed base hi (pre ++ p :: post) free i ∨ Overlaps base i b (data b) := by
  have hother : ∀ x, free x = false →
      upper hi (pre ++ p :: b :: post) x = upper hi (pre ++ p :: post) x := by
        grind [upper_insert_of_ne]
  constructor
  · rintro ⟨x, hx, hneed⟩
    rcases eq_or_ne x b with rfl | hxb
    · grind
    · have hmem : x ∈ pre ++ p :: post := by simpa [hxb] using hx
      rcases hneed with hneed | ⟨hx', hneed⟩
      · exact .inl ⟨x, hmem, .inl hneed⟩
      · exact .inl ⟨x, hmem, .inr ⟨hx', hother x hx' ▸ hneed⟩⟩
  · rintro (⟨x, hx, hneed⟩ | hneed)
    · have hmem : x ∈ pre ++ p :: b :: post := by
        simp only [mem_append, mem_cons] at hx ⊢
        tauto
      rcases hneed with hneed | ⟨hx', hneed⟩
      · exact ⟨x, hmem, .inl hneed⟩
      · exact ⟨x, hmem, .inr ⟨hx', (hother x hx').symm ▸ hneed⟩⟩
    · exact ⟨b, by simp, .inl hneed⟩

/-! ### How residency is kept -/

/-- **Allocation without a split**: the range ends at the last page boundary of the payload. -/
theorem Resident.allocate (h : Spaced headerSize hi l)
    (hres : Resident base hi l free pages) (hb : b ∈ l) (hfree : free b = true)
    (hbase : base % pageSize = 0) (hhi : hi % pageSize = 0)
    (hpages : ∀ i, pages' i = true ↔ pages i = true ∨
      InRange base (pageAlign (data b)) (pageFloor (upper hi l b)) i) :
    Resident base hi l (update free b false) pages' := by
  have hmin : min (pageAlign (upper hi l b)) (pageFloor (upper hi l b)) =
      pageFloor (upper hi l b) := by
    simp only [pageAlign, pageFloor, pageSize]
    omega
  intro i
  rw [hpages i, hres i, needed_allocate hb hfree]
  constructor
  · grind [overlaps_of_inRange]
  · rintro (hneed | hneed)
    · exact .inl hneed
    · rcases overlaps_payload h hb (Nat.le_refl _) hbase hhi hneed with hin | ⟨x, hx, hover⟩
      · exact .inr (hmin ▸ hin)
      · exact .inl ⟨x, hx, .inl hover⟩

/-- **Allocation with a split**: the range also covers the header of the new buffer. -/
theorem Resident.split {new : ℕ}
    (h : Spaced headerSize hi (pre ++ b :: post))
    (hres : Resident base hi (pre ++ b :: post) free pages)
    (hfree : free b = true) (hbase : base % pageSize = 0) (hhi : hi % pageSize = 0)
    (hlo : data b ≤ new) (hnew : data new ≤ upper hi (pre ++ b :: post) b)
    (hpages : ∀ i, pages' i = true ↔ pages i = true ∨ InRange base (pageAlign (data b))
        (min (pageAlign (data new)) (pageFloor (upper hi (pre ++ b :: post) b))) i) :
    Resident base hi (pre ++ b :: new :: post) (update (update free b false) new true) pages' := by
  have hbpre := (notMem_of_nodup (h.nodup header_pos)).1
  have hspaced : Spaced headerSize hi (pre ++ b :: new :: post) := by
    rw [upper_split hbpre] at hnew
    exact h.insert hlo hnew
  intro i
  rw [hpages i, hres i, needed_split (hspaced.nodup header_pos) hfree hlo]
  constructor
  · grind [overlaps_of_inRange, Nat.min_le_left]
  · rintro (hneed | hneed)
    · exact .inl hneed
    · rcases overlaps_payload h (by simp) hnew hbase hhi hneed with hin | ⟨x, hx, hover⟩
      · exact .inr hin
      · exact .inl ⟨x, hx, .inl hover⟩

/-- **Release**: the whole pages inside the payload go, and they were all there. -/
theorem Resident.release (h : Spaced headerSize hi l)
    (hres : Resident base hi l free pages) (hb : b ∈ l) (hfree : free b = false)
    (hbase : base % pageSize = 0) (hhi : hi % pageSize = 0)
    (hpages : ∀ i, pages' i = true ↔ pages i = true ∧
      ¬ InRange base (pageAlign (data b)) (pageFloor (upper hi l b)) i) :
    Resident base hi l (update free b true) pages' := by
  have hback : update (update free b true) b false = free := by
    rw [update_idem, ← hfree, update_eq_self]
  have hadd : ∀ i, Needed base hi l free i ↔ Needed base hi l (update free b true) i ∨
        Overlaps base i (data b) (upper hi l b) := by grind [needed_allocate]
  intro i
  rw [hpages i, hres i, hadd i]
  constructor
  · rintro ⟨hneed | hneed, hout⟩
    · exact hneed
    · rcases overlaps_payload h hb (Nat.le_refl _) hbase hhi hneed with hin | ⟨x, hx, hover⟩
      · refine absurd ⟨hin.1, hin.2.trans_le (Nat.min_le_right _ _)⟩ hout
      · exact ⟨x, hx, .inl hover⟩
  · grind [not_needed_of_inside]

theorem Resident.present (hres : Resident base hi l free pages) (hb : b ∈ l)
    (hfree : free b = false) (hbase : base % pageSize = 0)
    (hin : InRange base (pageAlign (data b)) (pageFloor (upper hi l b)) i) : pages i = true := by
  refine (hres i).mpr ⟨b, hb, .inr ⟨hfree, overlaps_of_inRange hbase hin ?_⟩⟩
  simp only [pageAlign, pageFloor, pageSize]
  omega

theorem Resident.absent (h : Spaced headerSize hi l)
    (hres : Resident base hi l free pages) (hb : b ∈ l) (hfree : free b = true)
    (hbase : base % pageSize = 0)
    (hin : InRange base (pageAlign (data b)) (pageFloor (upper hi l b)) i) : pages i = false := by
  have hnot := not_needed_of_inside h hb hfree hbase hin
  rw [← hres i] at hnot
  simpa using hnot

/-- Page `i` holds a byte of the header at `b`, and neither of the header at `p` before it nor of
the one behind it. -/
def OnlyHeader (base p b : ℕ) (next : Option ℕ) (i : ℕ) : Prop :=
  Overlaps base i b (data b) ∧ ¬ Overlaps base i p (data p) ∧
    ∀ n ∈ next, ¬ Overlaps base i n (data n)

/-- **The range of a merge.** A header spans at most two pages, and the two flags of
`binder_delete_free_buffer` say of the first and of the last one whether a neighbour shares it. -/
theorem deletedRange_iff {next : Option ℕ} (hbase : base % pageSize = 0) (hp : data p ≤ b)
    (hnext : ∀ n ∈ next, data b ≤ n) :
    (freePageStart p b next || freePageEnd p b next) = true ∧ InRange base
        (if freePageStart p b next then bufferStartPage b else bufferEndPage b)
        ((if freePageEnd p b next then bufferEndPage b else bufferStartPage b) +
          pageSize) i ↔ OnlyHeader base p b next i := by
  have hstart : freePageStart p b next = true ↔
      bufferEndPage p ≠ bufferStartPage b ∧
      ∀ n ∈ next, bufferStartPage n ≠ bufferEndPage b ∨
        bufferStartPage n ≠ bufferStartPage b := by
    cases next <;> simp [freePageStart]
  have hstop : freePageEnd p b next = true ↔
      (bufferEndPage p ≠ bufferStartPage b ∨
        bufferEndPage p ≠ bufferEndPage b) ∧
      ∀ n ∈ next, bufferStartPage n ≠ bufferEndPage b := by
    cases next <;> simp [freePageEnd]
  generalize freePageStart p b next = start at *
  generalize freePageEnd p b next = stop at *
  simp only [OnlyHeader, overlaps_iff, InRange, bufferStartPage, bufferEndPage,
    pageFloor, data, headerSize, pageSize] at *
  cases next with
  | none =>
    simp only [Option.not_mem_none, false_implies, implies_true, and_true] at *
    cases start <;> cases stop <;>
      simp only [Bool.false_eq_true, if_true, if_false, false_iff, true_iff, Bool.or_self,
        Bool.or_true, true_and, false_and] at * <;> omega
  | some n =>
    simp only [Option.mem_some_iff, forall_eq'] at *
    cases start <;> cases stop <;>
      simp only [Bool.false_eq_true, if_true, if_false, false_iff, true_iff, Bool.or_self,
        Bool.or_true, Bool.true_or, true_and, false_and] at * <;> omega

/-- **Merging** gives up exactly the pages that only the deleted header was using. -/
theorem Resident.delete (h : Spaced headerSize hi (pre ++ p :: b :: post))
    (hres : Resident base hi (pre ++ p :: b :: post) free pages) (hp : free p = true)
    (hb : free b = true)
    (hpages : ∀ i, pages' i = true ↔ pages i = true ∧ ¬ OnlyHeader base p b post.head? i) :
    Resident base hi (pre ++ p :: post) free pages' := by
  have hsplit : pre ++ p :: b :: post = (pre ++ [p]) ++ b :: post := by simp
  have h' : Spaced headerSize hi (pre ++ p :: post) := by
    rw [hsplit] at h
    simpa using h.remove
  have hpb : p + headerSize ≤ b := h.parts.2.1
  have hbpost := (hsplit ▸ h).parts
  intro i
  rw [hpages i, hres i, needed_delete hp hb]
  constructor
  · rintro ⟨hneed | hneed, hout⟩
    · exact hneed
    · -- a page of the header that stays is shared with a neighbouring header
      by_cases hpi : Overlaps base i p (data p)
      · exact ⟨p, by simp, .inl hpi⟩
      · by_cases hni : ∃ n ∈ post.head?, Overlaps base i n (data n)
        · obtain ⟨n, hn, hni⟩ := hni
          exact ⟨n, by simp [mem_of_mem_head? hn], .inl hni⟩
        · refine absurd ⟨hneed, hpi, fun n hn hni' ↦ hni ⟨n, hn, hni'⟩⟩ hout
  · rintro ⟨x, hx, hneed⟩
    refine ⟨.inl ⟨x, hx, hneed⟩, ?_⟩
    rintro ⟨hbi, hpi, hni⟩
    have hxu := h'.upper_bounds header_pos hx
    have hcover : Overlaps base i x (upper hi (pre ++ p :: post) x) := by
      rw [overlaps_append (Nat.le_add_right x headerSize) hxu.1]
      exact hneed.imp id fun h ↦ h.2
    simp only [overlaps_iff] at hbi hpi hcover
    rcases Nat.lt_trichotomy x p with hlt | rfl | hlt
    · -- what lies before `p` reaches the page only across the header of `p`
      have := h'.upper_le header_pos hx (by simp) hlt
      simp only [data] at *
      omega
    · grind [overlaps_iff]
    · -- what lies behind it is in `post`
      have hxpost : x ∈ post := by
        rcases mem_append.mp hx with hx | hx
        · have := h'.parts.1 x hx
          omega
        · grind
      cases post with
      | nil => simp at hxpost
      | cons n post =>
        have hn := hni n rfl
        have hle : n ≤ x := hbpost.2.2.1 x hxpost
        have hbn : b + headerSize ≤ n := hbpost.2.1
        simp only [overlaps_iff, data] at *
        omega

end Geometry

end Binder
