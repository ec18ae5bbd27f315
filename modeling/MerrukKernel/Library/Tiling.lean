import Mathlib.Data.List.Basic
import Mathlib.Order.Nat

/-!
# Blocks whose length is the distance to the next one

Blocks laid out behind one another in a region need no length field: a block reaches up to the block
that follows it in the list of blocks, and the last one up to the end of the region. Every block
starts with a header of a fixed size; the rest of it, its `room`, is what it can hold.

* `next?` / `prev?` — the neighbours of an element of a list, and what they are in a list taken
  apart at that element;
* `next?_insert_of_ne` — a block put behind `b` changes no neighbour but that of `b`; read the
  other way, taking it out changes only the neighbour of `b`;
* `Spaced` — the headers do not overlap and lie inside the region;
* `Spaced.insert` / `Spaced.remove` — splitting and joining blocks keep that.
-/

open List

namespace Tiling

section Neighbours

variable {α : Type*} [DecidableEq α] {pre post : List α}

/-- The element that follows `b`. -/
def next? : List α → α → Option α
  | [], _ => none
  | x :: l, b => if x = b then l.head? else next? l b

/-- The element that precedes `b`. -/
def prev? : List α → α → Option α
  | [], _ => none
  | x :: l, b => if l.head? = some b then some x else prev? l b

/-- Put `new` behind `b`. -/
def insertAfter (b new : α) : List α → List α
  | [] => []
  | x :: l => if x = b then x :: new :: l else x :: insertAfter b new l

variable {b new : α}

theorem next?_split (hb : b ∉ pre) :
    next? (pre ++ b :: post) b = post.head? := by
  induction pre with
  | nil => simp [next?]
  | cons x pre ih =>
    rw [mem_cons, not_or] at hb
    simp [next?, Ne.symm hb.1, ih hb.2]

theorem prev?_eq_none {l : List α} (hb : b ∉ l) : prev? l b = none := by
  induction l with
  | nil => rfl
  | cons x l ih =>
    rw [mem_cons, not_or] at hb
    have hhead : l.head? ≠ some b := fun h ↦ hb.2 (mem_of_mem_head? h)
    rw [prev?, if_neg hhead, ih hb.2]

theorem prev?_split (hnd : (pre ++ b :: post).Nodup) :
    prev? (pre ++ b :: post) b = pre.getLast? := by
  induction pre with
  | nil =>
    have hb : b ∉ post := (nodup_cons.mp hnd).1
    have hhead : post.head? ≠ some b := fun h ↦ hb (mem_of_mem_head? h)
    show (if post.head? = some b then _ else prev? post b) = none
    rw [if_neg hhead, prev?_eq_none hb]
  | cons x pre ih =>
    show (if (pre ++ b :: post).head? = some b then some x else prev? (pre ++ b :: post) b) = _
    cases pre with
    | nil => simp
    | cons y pre => grind

theorem insertAfter_split (hb : b ∉ pre) :
    insertAfter b new (pre ++ b :: post) = pre ++ b :: new :: post := by
  induction pre with
  | nil => simp [insertAfter]
  | cons x pre ih =>
    rw [mem_cons, not_or] at hb
    simp [insertAfter, Ne.symm hb.1, ih hb.2]

theorem mem_insertAfter {l : List α} {x : α} :
    x ∈ insertAfter b new l ↔ x ∈ l ∨ x = new ∧ b ∈ l := by
  induction l with
  | nil => simp [insertAfter]
  | cons y l ih =>
    rw [insertAfter]
    split
    · grind
    · grind

theorem nodup_insertAfter {l : List α} (h : l.Nodup) (hnew : new ∉ l) :
    (insertAfter b new l).Nodup := by
  induction l with
  | nil => exact h
  | cons y l ih =>
    rw [nodup_cons] at h
    rw [mem_cons, not_or] at hnew
    rw [insertAfter]
    split
    · grind
    · rw [nodup_cons, mem_insertAfter, not_or]
      exact ⟨⟨h.1, fun hy ↦ hnew.1 hy.1.symm⟩, ih h.2 hnew.2⟩

theorem erase_split (hb : b ∉ pre) :
    (pre ++ b :: post).erase b = pre ++ post := by
  rw [erase_append_right _ hb, erase_cons_head]

/-- **Locality of neighbours.** An element put behind `b` matters to the successor of `b` only. -/
theorem next?_insert_of_ne {y : α} (hb : y ≠ b) (hnew : y ≠ new) :
    next? (pre ++ b :: new :: post) y = next? (pre ++ b :: post) y := by
  induction pre with
  | nil => simp [next?, hb.symm, hnew.symm]
  | cons x pre ih =>
    by_cases hx : x = y
    · subst hx
      cases pre <;> simp [next?]
    · simp [next?, hx, ih]

end Neighbours

/-! ### Headers that do not overlap -/

variable {header hi : ℕ}

/-- The blocks `l` of a region that ends at `hi`: each starts behind the header of the ones before
it, and every header ends inside the region. -/
def Spaced (header hi : ℕ) (l : List ℕ) : Prop :=
  (l ++ [hi]).Pairwise fun x y ↦ x + header ≤ y

/-- Where a block ends: at its successor, or at the end of the region. -/
def upper (hi : ℕ) (l : List ℕ) (b : ℕ) : ℕ := (next? l b).getD hi

/-- What a block can hold behind its header. -/
def room (header hi : ℕ) (l : List ℕ) (b : ℕ) : ℕ := upper hi l b - (b + header)

variable {post pre : List ℕ}

theorem upper_split {b : ℕ} (hb : b ∉ pre) : upper hi (pre ++ b :: post) b = post.headD hi := by
  rw [upper, next?_split hb]
  cases post <;> rfl

theorem upper_insert_of_ne {b new y : ℕ} (hb : y ≠ b) (hnew : y ≠ new) :
    upper hi (pre ++ b :: new :: post) y = upper hi (pre ++ b :: post) y := by
  rw [upper, upper, next?_insert_of_ne hb hnew]

namespace Spaced

variable {l : List ℕ} {x : ℕ}

theorem nodup (h0 : 0 < header) (h : Spaced header hi l) : l.Nodup := by
  refine (h.sublist (sublist_append_left l [hi])).imp fun {x y} hxy ↦ ?_
  omega

/-- A block and those behind it. -/
theorem parts {b : ℕ} (h : Spaced header hi (pre ++ b :: post)) :
    (∀ x ∈ pre, x + header ≤ b) ∧ b + header ≤ post.headD hi ∧
      (∀ y ∈ post, post.headD hi ≤ y) ∧ post.headD hi ≤ hi := by
  rw [Spaced, append_assoc, cons_append, pairwise_append, pairwise_cons] at h
  obtain ⟨-, ⟨hb, hpost⟩, hpre⟩ := h
  refine ⟨fun x hx ↦ hpre x hx b (by simp), ?_⟩
  cases post with
  | nil => exact ⟨hb hi (by simp), by simp, Nat.le_refl hi⟩
  | cons n post =>
    rw [cons_append, pairwise_cons] at hpost
    have hn : n + header ≤ hi := hpost.1 hi (by simp)
    refine ⟨hb n (by simp), fun y hy ↦ ?_, (Nat.le_add_right n header).trans hn⟩
    rcases mem_cons.mp hy with rfl | hy
    · exact Nat.le_refl _
    · exact (Nat.le_add_right n header).trans (hpost.1 y (by simp [hy]))

/-- The first block lies in front of all others. -/
theorem head_le {b : ℕ} (h : Spaced header hi l) (hb : l.head? = some b) (hx : x ∈ l) : b ≤ x := by
  cases l with
  | nil => cases hb
  | cons y l =>
    cases hb
    obtain ⟨-, hlo, hpost, -⟩ := (show Spaced header hi ([] ++ b :: l) from h).parts
    rcases mem_cons.1 hx with rfl | hx
    · exact Nat.le_refl x
    · exact ((Nat.le_add_right _ _).trans hlo).trans (hpost x hx)

section

variable (h0 : 0 < header) (h : Spaced header hi l) (hx : x ∈ l)
include h0 h hx

/-- A block ends behind its own header and not past the region. -/
theorem upper_bounds : x + header ≤ upper hi l x ∧ upper hi l x ≤ hi := by
  obtain ⟨pre, post, rfl⟩ := append_of_mem hx
  obtain ⟨hpre, hlo, -, hhi⟩ := h.parts
  have hnot : x ∉ pre := fun hmem ↦ by
    have := hpre x hmem
    omega
  rw [upper_split hnot]
  exact ⟨hlo, hhi⟩

/-- **Blocks do not overlap**: a block ends where a later one starts, or before. -/
theorem upper_le {y : ℕ} (hy : y ∈ l) (hxy : x < y) : upper hi l x ≤ y := by
  obtain ⟨pre, post, rfl⟩ := append_of_mem hx
  obtain ⟨hpre, hlo, hpost, hhi⟩ := h.parts
  have hnot : x ∉ pre := fun hmem ↦ by
    have := hpre x hmem
    omega
  rw [upper_split hnot]
  rcases mem_append.mp hy with hy | hy
  · have := hpre y hy
    omega
  · grind

/-- A block ends at another one or at the end of the region. -/
theorem upper_mem : upper hi l x ∈ l ∨ upper hi l x = hi := by
  obtain ⟨pre, post, rfl⟩ := append_of_mem hx
  have hnot : x ∉ pre := fun hmem ↦ by
    have := h.parts.1 x hmem
    omega
  rw [upper_split hnot]
  cases post with
  | nil => exact .inr rfl
  | cons n post => exact .inl (by simp)

end

/-- **Splitting**: a header inside the room of a block. -/
theorem insert {b new : ℕ} (h : Spaced header hi (pre ++ b :: post))
    (hlo : b + header ≤ new) (hnew : new + header ≤ post.headD hi) :
    Spaced header hi (pre ++ b :: new :: post) := by
  obtain ⟨hpre, -, hpost, hhi⟩ := h.parts
  rw [Spaced, append_assoc, cons_append, pairwise_append, pairwise_cons] at h
  obtain ⟨h1, ⟨hb, h2⟩, h3⟩ := h
  rw [Spaced, append_assoc, cons_append, cons_append, pairwise_append, pairwise_cons, pairwise_cons]
  have hnewpost : ∀ y ∈ post ++ [hi], new + header ≤ y := by grind
  refine ⟨h1, ⟨fun y hy ↦ ?_, hnewpost, h2⟩, fun x hx y hy ↦ ?_⟩
  · grind
  · grind

/-- **Joining**: a block of the list goes away. -/
theorem remove {b : ℕ} (h : Spaced header hi (pre ++ b :: post)) :
    Spaced header hi (pre ++ post) := by
  refine h.sublist ?_
  exact ((sublist_cons_self b post).append_left pre).append_right [hi]

end Spaced

end Tiling
