import Mathlib.Data.List.Chain
import MerrukKernel.Binder.Buffers

/-!
# The layout of a binder region

What holds of the buffers of a process between two calls of the allocator, and how the pieces of
`binder_alloc_buf` and `binder_free_buf` keep it.

`Layout` is stated on the pieces of an arena (the list, the `free` bits and the two trees) rather
than on the arena, so that the intermediate states of a call can be spoken of as well. A call that
frees a buffer passes through states in which one buffer, already marked free, is in neither tree
and may have free neighbours; `Detached` is the layout around such a buffer, the two merges keep it
(`Detached.mergeNext`, `Detached.mergePrev`), and the final insertion closes it
(`Detached.attach`).

The point to watch is that the key of a buffer in the size tree is the distance to its neighbour.
Every lemma therefore says which buffers keep their key: all but the one whose neighbour changed,
and that one is out of the tree at that moment.
-/

namespace Binder

open SearchTree Tiling Function

variable {lo hi : ℕ} {l pre post : List ℕ} {free : ℕ → Bool} {ft alloc : BinaryTree ℕ}

/-- No two neighbours of the list are both free. -/
def Separated (free : ℕ → Bool) (l : List ℕ) : Prop :=
  l.IsChain fun x y ↦ ¬ (free x = true ∧ free y = true)

variable {b : ℕ} {ft' : BinaryTree ℕ}

theorem separated_split : Separated free (pre ++ b :: post) ↔
    Separated free pre ∧ Separated free post ∧
      (∀ x ∈ pre.getLast?, ¬ (free x = true ∧ free b = true)) ∧
      ∀ y ∈ post.head?, ¬ (free b = true ∧ free y = true) := by
  rw [Separated, List.isChain_append, List.isChain_cons]
  simp only [List.head?_cons, Option.mem_some_iff, forall_eq', Separated]
  tauto

theorem Separated.congr {free' : ℕ → Bool} (h : Separated free l) (hl : ∀ x ∈ l, free x = free' x) :
    Separated free' l :=
  List.IsChain.imp_of_mem_imp (fun x y hx hy hxy ↦ by rwa [← hl x hx, ← hl y hy]) h

/-- The room of a buffer in a region that ends at `hi`: what `binder_buffer_size` computes. -/
def bufferRoom (hi : ℕ) (l : List ℕ) (b : ℕ) : ℕ := room headerSize hi l b

theorem Arena.binderBufferSize_eq (a : Arena) (b : ℕ) :
    a.binderBufferSize b = bufferRoom a.limit a.buffers b := by
  rw [binderBufferSize, bufferRoom, room, upper]
  cases next? a.buffers b <;> rfl

variable {new : ℕ} {alloc' : BinaryTree ℕ} {S : ℕ → Prop} {a : Arena}

theorem bufferRoom_insert_of_ne {y : ℕ} (hb : y ≠ b) (hnew : y ≠ new) :
    bufferRoom hi (pre ++ b :: new :: post) y = bufferRoom hi (pre ++ b :: post) y := by
  rw [bufferRoom, bufferRoom, room, room, upper_insert_of_ne hb hnew]

/-- **The layout of a region** between two calls. -/
structure Layout (lo hi : ℕ) (l : List ℕ) (free : ℕ → Bool) (ft alloc : BinaryTree ℕ) : Prop where
  head : l.head? = some lo
  /-- Headers follow one another and end inside the region. -/
  spaced : Spaced headerSize hi l
  separated : Separated free l
  /-- The tree of free buffers is a search tree by the sizes of the moment. -/
  freeIndex : Index (fun x y ↦ bufferRoom hi l x ≤ bufferRoom hi l y)
    (fun x ↦ x ∈ l ∧ free x = true) ft
  /-- The tree of allocated buffers is ordered by address. -/
  allocIndex : Index (· < ·) (fun x ↦ x ∈ l ∧ free x = false) alloc

/-- **The layout around a detached buffer**: `b` is on the list and marked free, but in no tree, and
its neighbours may be free. -/
structure Detached (lo hi : ℕ) (pre : List ℕ) (b : ℕ) (post : List ℕ) (free : ℕ → Bool)
    (ft alloc : BinaryTree ℕ) : Prop where
  head : (pre ++ b :: post).head? = some lo
  /-- Headers follow one another and end inside the region. -/
  spaced : Spaced headerSize hi (pre ++ b :: post)
  isFree : free b = true
  /-- Before it, free buffers have been merged. -/
  before : Separated free pre
  /-- Behind it too. -/
  behind : Separated free post
  /-- The tree of free buffers holds all others. -/
  freeIndex : Index
    (fun x y ↦ bufferRoom hi (pre ++ b :: post) x ≤ bufferRoom hi (pre ++ b :: post) y)
    (fun x ↦ (x ∈ pre ∨ x ∈ post) ∧ free x = true) ft
  /-- The tree of allocated buffers is ordered by address. -/
  allocIndex : Index (· < ·) (fun x ↦ (x ∈ pre ∨ x ∈ post) ∧ free x = false) alloc

theorem header_pos : 0 < headerSize := by decide

theorem Layout.nodup (h : Layout lo hi l free ft alloc) : l.Nodup := h.spaced.nodup header_pos

theorem Detached.nodup (h : Detached lo hi pre b post free ft alloc) :
    (pre ++ b :: post).Nodup := h.spaced.nodup header_pos

theorem notMem_of_nodup (h : (pre ++ b :: post).Nodup) : b ∉ pre ∧ b ∉ post := by
  rw [List.nodup_middle, List.nodup_cons, List.mem_append, not_or] at h
  exact h.1

/-! ### Allocation -/

theorem Layout.allocate (h : Layout lo hi l free ft alloc) (hb : b ∈ l)
    (hft : Index (fun x y ↦ bufferRoom hi l x ≤ bufferRoom hi l y)
      (fun x ↦ (x ∈ l ∧ free x = true) ∧ x ≠ b) ft')
    (halloc : Index (· < ·) (fun x ↦ x = b ∨ x ∈ l ∧ free x = false) alloc') :
    Layout lo hi l (update free b false) ft' alloc' where
  head := h.head
  spaced := h.spaced
  separated := by
    refine List.IsChain.imp_of_mem_imp (fun x y _ _ hxy ↦ ?_) h.separated
    intro hfree
    rcases eq_or_ne x b with rfl | hx
    · simp at hfree
    · grind
  freeIndex := by
    refine hft.congr (fun x ↦ ?_) fun _ _ _ _ h ↦ h
    rcases eq_or_ne x b with rfl | hx <;> simp [*]
  allocIndex := by
    refine halloc.congr (fun x ↦ ?_) fun _ _ _ _ h ↦ h
    rcases eq_or_ne x b with rfl | hx <;> simp [*]

section

variable (h : Layout lo hi (pre ++ b :: post) free ft alloc) (hb : free b = false)
include h hb

/-- **A split.** A new free buffer between an allocated buffer and its successor, which is not free
either. -/
theorem Layout.split (hnext : ∀ y ∈ post.head?, free y = false)
    (hlo : b + headerSize ≤ new) (hhi : new + headerSize ≤ post.headD hi)
    (hft : Index (fun x y ↦ bufferRoom hi (pre ++ b :: new :: post) x ≤
        bufferRoom hi (pre ++ b :: new :: post) y)
      (fun x ↦ x = new ∨ x ∈ pre ++ b :: post ∧ free x = true) ft') :
    Layout lo hi (pre ++ b :: new :: post) (update free new true) ft' alloc := by
  have hspaced : Spaced headerSize hi (pre ++ b :: new :: post) := h.spaced.insert hlo hhi
  have hnd := hspaced.nodup header_pos
  have hkeep : ∀ x ∈ pre ++ b :: post, free x = update free new true x := by grind
  obtain ⟨hpre, hpost, hlast, -⟩ := separated_split.mp h.separated
  refine ⟨?_, hspaced, ?_, ?_, ?_⟩
  · rw [← h.head]
    cases pre <;> rfl
  · refine separated_split.mpr ⟨hpre.congr fun x hx ↦ hkeep x (by simp [hx]), ?_, ?_, ?_⟩
    · -- the new buffer and what follows it
      have hnew' : Separated (update free new true) ([] ++ new :: post) := by
        refine separated_split.mpr ⟨List.isChain_nil, ?_, by simp, fun y hy hfree ↦ ?_⟩
        · exact hpost.congr fun x hx ↦ hkeep x (by simp [hx])
        · grind
      exact hnew'
    · grind
    · grind
  · grind
  · grind [h.allocIndex.congr]

/-! ### Release -/

/-- **Detaching.** An allocated buffer is marked free and taken out of its tree. -/
theorem Layout.detach
    (halloc : Index (· < ·) (fun x ↦ (x ∈ pre ++ b :: post ∧ free x = false) ∧ x ≠ b) alloc') :
    Detached lo hi pre b post (update free b true) ft alloc' := by
  obtain ⟨hbpre, hbpost⟩ := notMem_of_nodup h.nodup
  obtain ⟨hpre, hpost, -, -⟩ := separated_split.mp h.separated
  have hkeep : ∀ x, x ∈ pre ∨ x ∈ post → x ≠ b := by grind
  refine ⟨h.head, h.spaced, by simp, ?_, ?_, ?_, ?_⟩
  · exact hpre.congr fun x hx ↦ (update_of_ne (hkeep x (.inl hx)) _ _).symm
  · exact hpost.congr fun x hx ↦ (update_of_ne (hkeep x (.inr hx)) _ _).symm
  · refine h.freeIndex.congr (fun x ↦ ?_) fun _ _ _ _ hxy ↦ hxy
    rcases eq_or_ne x b with rfl | hx
    · simp [hb, hbpre, hbpost]
    · simp [hx]
  · grind

end

/-- **Merging with the free buffer that follows.** The key of `b` grows, but `b` is in no tree. -/
theorem Detached.mergeNext {n : ℕ}
    (h : Detached lo hi pre b (n :: post) free ft alloc) (hn : free n = true) (hft : Index
      (fun x y ↦ bufferRoom hi (pre ++ b :: n :: post) x ≤ bufferRoom hi (pre ++ b :: n :: post) y)
      (fun x ↦ ((x ∈ pre ∨ x ∈ n :: post) ∧ free x = true) ∧ x ≠ n) ft') :
    Detached lo hi pre b post free ft' alloc ∧ ∀ y ∈ post.head?, free y = false := by
  have hnd := h.nodup
  obtain ⟨hbpre, hbpost⟩ := notMem_of_nodup hnd
  have hnb : n ∉ pre ∧ n ∉ post := by grind
  have hbehind : Separated free ([] ++ n :: post) := h.behind
  obtain ⟨-, hpost, -, hhead⟩ := separated_split.mp hbehind
  refine ⟨⟨?_, ?_, h.isFree, h.before, hpost, ?_, ?_⟩, fun y hy ↦ ?_⟩
  · rw [← h.head]
    cases pre <;> rfl
  · have := h.spaced
    rw [show pre ++ b :: n :: post = (pre ++ [b]) ++ n :: post by simp] at this
    simpa using this.remove
  · refine hft.congr (fun x ↦ ?_) fun x y hx hy hxy ↦ ?_
    · rcases eq_or_ne x n with rfl | hx
      · simp [hnb]
      · simp [hx]
    · have hne : ∀ z, ((z ∈ pre ∨ z ∈ n :: post) ∧ free z = true) ∧ z ≠ n → z ≠ b := by
        rintro z ⟨⟨hz | hz, -⟩, -⟩ rfl
        · exact hbpre hz
        · exact hbpost hz
      rwa [bufferRoom_insert_of_ne (hne x hx) hx.2, bufferRoom_insert_of_ne (hne y hy) hy.2] at hxy
  · refine h.allocIndex.congr (fun x ↦ ?_) fun _ _ _ _ hxy ↦ hxy
    rcases eq_or_ne x n with rfl | hx
    · simp [hn]
    · simp [hx]
  · grind

/-- **Merging into the free buffer that precedes**, which takes the place of the detached one. -/
theorem Detached.mergePrev {p : ℕ}
    (h : Detached lo hi (pre ++ [p]) b post free ft alloc) (hp : free p = true) (hft : Index
      (fun x y ↦ bufferRoom hi (pre ++ [p] ++ b :: post) x ≤
        bufferRoom hi (pre ++ [p] ++ b :: post) y)
      (fun x ↦ ((x ∈ pre ++ [p] ∨ x ∈ post) ∧ free x = true) ∧ x ≠ p) ft') :
    Detached lo hi pre p post free ft' alloc ∧ ∀ x ∈ pre.getLast?, free x = false := by
  have hnd := h.nodup
  have hsplit : pre ++ [p] ++ b :: post = pre ++ p :: b :: post := by simp
  obtain ⟨hbpre, hbpost⟩ := notMem_of_nodup hnd
  have hppre : p ∉ pre ∧ p ∉ post := by grind
  have hbefore : Separated free (pre ++ p :: []) := h.before
  obtain ⟨hpre, -, hlast, -⟩ := separated_split.mp hbefore
  refine ⟨⟨?_, ?_, hp, hpre, h.behind, ?_, ?_⟩, fun x hx ↦ ?_⟩
  · rw [← h.head]
    cases pre <;> rfl
  · simpa using h.spaced.remove
  · refine hft.congr (fun x ↦ ?_) fun x y hx hy hxy ↦ ?_
    · rcases eq_or_ne x p with rfl | hx
      · simp [hppre]
      · simp [hx]
    · have hne : ∀ z, ((z ∈ pre ++ [p] ∨ z ∈ post) ∧ free z = true) ∧ z ≠ p → z ≠ b := by
        rintro z ⟨⟨hz | hz, -⟩, -⟩ rfl
        · exact hbpre hz
        · exact hbpost hz
      rwa [hsplit, bufferRoom_insert_of_ne hx.2 (hne x hx),
        bufferRoom_insert_of_ne hy.2 (hne y hy)] at hxy
  · refine h.allocIndex.congr (fun x ↦ ?_) fun _ _ _ _ hxy ↦ hxy
    rcases eq_or_ne x p with rfl | hx
    · simp [hp]
    · simp [hx]
  · grind

/-- **Attaching** a buffer whose neighbours are not free. -/
theorem Detached.attach (h : Detached lo hi pre b post free ft alloc)
    (hprev : ∀ x ∈ pre.getLast?, free x = false) (hnext : ∀ y ∈ post.head?, free y = false)
    (hft : Index (fun x y ↦ bufferRoom hi (pre ++ b :: post) x ≤ bufferRoom hi (pre ++ b :: post) y)
      (fun x ↦ x = b ∨ (x ∈ pre ∨ x ∈ post) ∧ free x = true) ft') :
    Layout lo hi (pre ++ b :: post) free ft' alloc := by
  obtain ⟨hbpre, hbpost⟩ := notMem_of_nodup h.nodup
  refine ⟨h.head, h.spaced, ?_, ?_, ?_⟩
  · refine separated_split.mpr ⟨h.before, h.behind, fun x hx hfree ↦ ?_, fun y hy hfree ↦ ?_⟩
    · grind
    · grind
  · refine hft.congr (fun x ↦ ?_) fun _ _ _ _ hxy ↦ hxy
    rcases eq_or_ne x b with rfl | hx
    · simp [h.isFree]
    · simp [hx]
  · refine h.allocIndex.congr (fun x ↦ ?_) fun _ _ _ _ hxy ↦ hxy
    rcases eq_or_ne x b with rfl | hx
    · simp [h.isFree, hbpre, hbpost]
    · simp [hx]

/-! ### The tree insertions of the source -/

theorem Arena.insertFreeBuffer_spec (rb : Reshape ℕ)
    (h : Index (fun x y ↦ bufferRoom a.limit a.buffers x ≤ bufferRoom a.limit a.buffers y) S
      a.freeBuffers) (hb : a.isFree b = true) (hS : ∀ y, S y → a.isFree y = true) (hnew : ¬ S b) :
    ∃ t, a.insertFreeBuffer b rb = some { a with freeBuffers := t } ∧
      Index (fun x y ↦ bufferRoom a.limit a.buffers x ≤ bufferRoom a.limit a.buffers y)
        (fun x ↦ x = b ∨ S x) t := by
  set go : ℕ → Option Bool := fun y ↦ if a.isFree y then
    some (decide (a.binderBufferSize b < a.binderBufferSize y)) else none with hgo
  have hat : ∀ y, S y →
      go y = some (decide (bufferRoom a.limit a.buffers b < bufferRoom a.limit a.buffers y)) := by
    intro y hy
    rw [hgo]
    simp only [hS y hy, if_true, a.binderBufferSize_eq]
  have hside : ∀ y, S y →
      go y = some true ∧ bufferRoom a.limit a.buffers b ≤ bufferRoom a.limit a.buffers y ∨
      go y = some false ∧ bufferRoom a.limit a.buffers y ≤ bufferRoom a.limit a.buffers b := by
    intro y hy
    simp only [hat y hy, Option.some.injEq, decide_eq_true_eq, decide_eq_false_iff_not]
    omega
  obtain ⟨t, ht, hindex⟩ := h.insertWith go hnew hside fun y z hy hz hyz ↦ by
    simp only [hat y hy, hat z hz, Option.some.injEq, decide_eq_true_eq]
    omega
  refine ⟨rb.apply t, ?_, hindex.reshape rb⟩
  rw [insertFreeBuffer, if_pos hb, ht]
  rfl

theorem Arena.insertAllocatedBuffer_spec (rb : Reshape ℕ)
    (h : Index (· < ·) S a.allocatedBuffers) (hb : a.isFree b = false)
    (hS : ∀ y, S y → a.isFree y = false) (hnew : ¬ S b) :
    ∃ t, a.insertAllocatedBuffer b rb = some { a with allocatedBuffers := t } ∧
      Index (· < ·) (fun x ↦ x = b ∨ S x) t := by
  set go : ℕ → Option Bool := fun y ↦ if a.isFree y then none else if b < y then some true
    else if y < b then some false else none with hgo
  have hside : ∀ y, S y → go y = some true ∧ b < y ∨ go y = some false ∧ y < b := by grind
  obtain ⟨t, ht, hindex⟩ := h.insertWith go hnew hside fun y z hy hz hyz hy' ↦ by
    rcases hside y hy with ⟨-, hby⟩ | ⟨hf, -⟩
    · grind
    · rw [hy'] at hf
      exact absurd hf (by simp)
  refine ⟨rb.apply t, ?_, hindex.reshape rb⟩
  rw [insertAllocatedBuffer, if_neg (by simp [hb]), ht]
  rfl

end Binder
