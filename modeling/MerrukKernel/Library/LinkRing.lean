import Mathlib.Data.List.Nodup

/-!
# Circular doubly linked lists over a heap of links

A heap of links is a pair of functions `next prev : α → α` on addresses. A **ring** through a head
`h` visits the addresses of a list `xs` in order and comes back to `h`, with every backward link the
inverse of the forward link (`IsRing`). The head itself carries no element.

The representation is that of an intrusive queue: an element is linked in by writing four links,
and unlinked by writing four links. The two operations below are the ones a queue needs.

* `IsRing.insertBack` — link an unlinked address in just before the head;
* `IsRing.popFront` — unlink the address just after the head, leaving it linked to itself.

`walk` reads a ring back as a list, by following forward links for a bounded number of steps;
`IsRing.walk_eq` says it recovers exactly the list of a ring that is no longer than the bound.
-/

namespace LinkRing

open Function List

variable {α : Type*}

/-- Following the links from `a` visits `xs` in order and ends in `b`, with every backward link the
inverse of the forward one. -/
def Path (next prev : α → α) (a : α) : List α → α → Prop
  | [], b => next a = b ∧ prev b = a
  | x :: xs, b => next a = x ∧ prev x = a ∧ Path next prev x xs b

/-- The links form a ring through the head `h` on which the addresses `xs` lie, each once. -/
structure IsRing (next prev : α → α) (h : α) (xs : List α) : Prop where
  /-- The links visit `xs` in order and come back to the head. -/
  path : Path next prev h xs h
  /-- No address, the head included, is visited twice. -/
  nodup : (h :: xs).Nodup

/-! ### Paths -/

instance decidablePath [DecidableEq α] (next prev : α → α) :
    ∀ (a : α) (xs : List α) (b : α), Decidable (Path next prev a xs b)
  | _, [], _ => inferInstanceAs (Decidable (_ ∧ _))
  | _, x :: xs, b =>
    have := decidablePath next prev x xs b
    inferInstanceAs (Decidable (_ ∧ _ ∧ _))

instance [DecidableEq α] (next prev : α → α) (h : α) (xs : List α) :
    Decidable (IsRing next prev h xs) :=
  decidable_of_iff (Path next prev h xs h ∧ (h :: xs).Nodup)
    ⟨fun p ↦ ⟨p.1, p.2⟩, fun p ↦ ⟨p.1, p.2⟩⟩

variable {next prev next' prev' : α → α} {a b e h : α} {xs : List α}

/-- A path depends only on the forward links of its sources and the backward links of its
targets. -/
theorem Path.congr (h : Path next prev a xs b)
    (hn : ∀ c ∈ a :: xs, next' c = next c) (hp : ∀ c ∈ xs ++ [b], prev' c = prev c) :
    Path next' prev' a xs b := by
  induction xs generalizing a with
  | nil => exact ⟨(hn a (by simp)).trans h.1, (hp b (by simp)).trans h.2⟩
  | cons x xs ih =>
    refine ⟨(hn a (by simp)).trans h.1, (hp x (by simp)).trans h.2.1, ih h.2.2 ?_ ?_⟩
    · exact fun c hc ↦ hn c (mem_cons_of_mem _ hc)
    · exact fun c hc ↦ hp c (mem_cons_of_mem _ hc)

theorem path_snoc :
    Path next prev a (xs ++ [e]) b ↔ Path next prev a xs e ∧ next e = b ∧ prev b = e := by
  induction xs generalizing a with
  | nil => simp [Path, and_assoc]
  | cons x xs ih => simp [Path, ih, and_assoc]

/-- The last address before `b` is the one `b` points back to. -/
theorem Path.prev_mem (h : Path next prev a xs b) : prev b ∈ a :: xs := by
  induction xs generalizing a with
  | nil => simp [h.2]
  | cons x xs ih => exact mem_cons_of_mem _ (ih h.2.2)

/-- Links written outside a ring leave it alone. -/
theorem IsRing.congr (hr : IsRing next prev h xs)
    (hn : ∀ c ∈ h :: xs, next' c = next c) (hp : ∀ c ∈ h :: xs, prev' c = prev c) :
    IsRing next' prev' h xs := by
  refine ⟨hr.path.congr hn fun c hc ↦ hp c ?_, hr.nodup⟩
  rcases mem_append.1 hc with hc | hc
  · exact mem_cons_of_mem _ hc
  · simp [mem_singleton.1 hc]

/-- The front of a ring is read off the head: nothing is linked exactly when the head points to
itself. -/
theorem IsRing.next_head_eq (hr : IsRing next prev h xs) : next h = xs.headD h := by
  cases xs with
  | nil => exact hr.path.1
  | cons x xs => exact hr.path.1

theorem IsRing.next_eq_head_iff (hr : IsRing next prev h xs) : next h = h ↔ xs = [] := by
  rw [hr.next_head_eq]
  cases xs with
  | nil => simp
  | cons x xs => grind [hr.nodup]

variable [DecidableEq α]

/-- **Redirecting the last link** of a path from its end to a new address. -/
theorem Path.retarget (h : Path next prev a xs b)
    (hnodup : (a :: xs).Nodup) (hb : b ∉ xs) (he : e ∉ a :: xs) :
    Path (update next (prev b) e) (update prev e (prev b)) a xs e := by
  induction xs generalizing a with
  | nil => simp [Path, h.2]
  | cons x xs ih =>
    have hmem : prev b ∈ x :: xs := h.2.2.prev_mem
    have hne : a ≠ prev b := fun hab ↦ (nodup_cons.1 hnodup).1 (hab ▸ hmem)
    have hxe : x ≠ e := fun hx ↦ he (by simp [hx])
    refine ⟨?_, ?_, ih h.2.2 (nodup_cons.1 hnodup).2 ?_ ?_⟩
    · rw [update_of_ne hne]; exact h.1
    · rw [update_of_ne hxe]; exact h.2.1
    · exact fun hmem ↦ hb (mem_cons_of_mem _ hmem)
    · exact fun hmem ↦ he (mem_cons_of_mem _ hmem)

/-! ### The two queue operations -/

/-- **Linking in at the back.** The four link writes, in the order of the assignments: the entry
points forward to the head and back to the old last address, which then points forward to the entry,
as the head points back to it. -/
theorem IsRing.insertBack (hr : IsRing next prev h xs) (he : e ∉ h :: xs) :
    IsRing (update (update next e h) (prev h) e)
      (update (update prev e (prev h)) h e) h (xs ++ [e]) := by
  have hhx : h ∉ xs := (nodup_cons.1 hr.nodup).1
  have hmem : prev h ∈ h :: xs := hr.path.prev_mem
  have hne : e ≠ prev h := fun heq ↦ he (heq ▸ hmem)
  refine ⟨path_snoc.2 ⟨?_, ?_, ?_⟩, ?_⟩
  · refine (hr.path.retarget hr.nodup hhx he).congr (fun c hc ↦ ?_) (fun c hc ↦ ?_)
    · grind
    · grind
  · rw [update_of_ne hne, update_self]
  · rw [update_self]
  · exact List.Nodup.append hr.nodup (nodup_singleton e) (by simpa using he)

/-- **Unlinking at the front.** The head is pointed past the first address, the address after it
back to the head, and the unlinked address is left linked to itself. -/
theorem IsRing.popFront {x : α} (hr : IsRing next prev h (x :: xs)) :
    IsRing (update (update next h (next x)) x x) (update (update prev (next x) h) x x) h xs := by
  obtain ⟨hxh, hxs, hnd⟩ : x ≠ h ∧ x ∉ xs ∧ (h :: xs).Nodup := by
    have := hr.nodup
    simp only [nodup_cons, mem_cons, not_or] at this ⊢
    exact ⟨fun heq ↦ this.1.1 heq.symm, this.2.1, this.1.2, this.2.2⟩
  have hpath : Path next prev x xs h := hr.path.2.2
  refine ⟨?_, hnd⟩
  cases xs with
  | nil =>
    have hnx : next x = h := hpath.1
    simp [Path, hnx, hxh.symm]
  | cons y ys =>
    have hnx : next x = y := hpath.1
    refine ⟨?_, ?_, hpath.2.2.congr (fun c hc ↦ ?_) (fun c hc ↦ ?_)⟩
    · rw [update_of_ne hxh.symm, update_self, hnx]
    · rw [update_of_ne (fun heq ↦ hxs (by simp [heq])), hnx, update_self]
    · grind
    · -- `c` is past `y`, the only target whose backward link changes
      have hcx : c ≠ x := by grind
      have hcy : c ≠ y := by grind
      rw [update_of_ne hcx, hnx, update_of_ne hcy]

/-! ### Reading a ring back -/

/-- Follow forward links from `a` until the head, for at most the given number of steps. -/
def walk (next : α → α) (h : α) : ℕ → α → List α
  | 0, _ => []
  | k + 1, a => if a = h then [] else a :: walk next h k (next a)

theorem Path.walk_eq (hp : Path next prev a xs h) (hh : h ∉ xs) {k : ℕ}
    (hk : xs.length ≤ k) : walk next h k (next a) = xs := by
  induction xs generalizing a k with
  | nil => cases k <;> simp [walk, hp.1]
  | cons x xs ih =>
    obtain ⟨k, rfl⟩ : ∃ j, k = j + 1 := ⟨k - 1, by simp at hk; omega⟩
    have hx : x ≠ h := fun heq ↦ hh (by simp [heq])
    rw [hp.1, walk, if_neg hx, ih hp.2.2 (fun hmem ↦ hh (mem_cons_of_mem _ hmem))
      (by simpa using hk)]

/-- **Read-back**: a ring no longer than the bound is recovered by walking it. -/
theorem IsRing.walk_eq (hr : IsRing next prev h xs) {k : ℕ}
    (hk : xs.length ≤ k) : walk next h k (next h) = xs :=
  hr.path.walk_eq (nodup_cons.1 hr.nodup).1 hk

end LinkRing
