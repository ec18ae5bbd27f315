import Mathlib.Data.List.Nodup
import Mathlib.Data.Tree.Basic

/-!
# Intrusive search trees

A kernel search tree is threaded through the objects it holds: the caller walks down from the root
by its own comparisons, links the new object at the leaf it arrives at, and only then hands the tree
to the rebalancing code; an object is erased by its address, with no comparison at all. The keys are
not stored in the tree. They are recomputed from the objects whenever the caller walks, so that a
tree is a search tree only with respect to the keys its objects have *now*.

The trees here are Mathlib's `BinaryTree`, and what a tree means is its in-order sequence:

* `insertWith go x t` walks down by `go` (which may also refuse, as an assertion of the caller does)
  and links `x` at the leaf; `insertWith_spec` says between which elements `x` comes to stand;
* `erase x t` takes `x` out, and its in-order sequence is the old one without `x`;
* `ceiling` is the search for a smallest adequate element, with `ceiling_spec`;
* a `Reshape` is what rebalancing may do: anything that keeps the in-order sequence;
* `Index r S t` packs what a caller keeps about a tree: it holds exactly the elements of `S`, each
  once, in the order `r`.
-/

open List

namespace SearchTree

variable {α : Type*}

/-- The elements of a tree from left to right. -/
def inorder : BinaryTree α → List α
  | .nil => []
  | .node x l r => inorder l ++ x :: inorder r

@[simp] theorem inorder_nil : inorder (.nil : BinaryTree α) = [] := rfl

@[simp] theorem inorder_node (x : α) (l r : BinaryTree α) :
    inorder (.node x l r) = inorder l ++ x :: inorder r := rfl

/-- **Rebalancing**: a change of shape that keeps the in-order sequence. -/
structure Reshape (α : Type*) where
  apply : BinaryTree α → BinaryTree α
  /-- Rotations and recolourings do not reorder. -/
  inorder_apply : ∀ t, inorder (apply t) = inorder t

attribute [simp] Reshape.inorder_apply

/-- The rebalancing that leaves every tree as it is. -/
def Reshape.refl (α : Type*) : Reshape α := ⟨fun t ↦ t, fun _ ↦ rfl⟩

/-! ### Insertion -/

/-- Walk down to a leaf, left where `go` answers `true` and right where it answers `false`, and link
`x` there. `none`: the walk met an element at which `go` refuses. -/
def insertWith (go : α → Option Bool) (x : α) : BinaryTree α → Option (BinaryTree α)
  | .nil => some (.node x .nil .nil)
  | .node y l r =>
    match go y with
    | none => none
    | some true => (insertWith go x l).map fun l' ↦ .node y l' r
    | some false => (insertWith go x r).map fun r' ↦ .node y l r'

/-- **Where an insertion lands.** If the walk is never refused and its answers are monotone along
the tree, the new element comes to stand after every element it was sent right of and before every
element it was sent left of. -/
theorem insertWith_spec {go : α → Option Bool} (x : α) : ∀ {t : BinaryTree α},
    (∀ y ∈ inorder t, go y ≠ none) →
    (inorder t).Pairwise (fun y z ↦ go y = some true → go z = some true) →
    ∃ t' before after, insertWith go x t = some t' ∧ inorder t = before ++ after ∧
      inorder t' = before ++ x :: after ∧ (∀ y ∈ before, go y = some false) ∧
      ∀ y ∈ after, go y = some true
  | .nil, _, _ => ⟨_, [], [], rfl, rfl, rfl, by simp, by simp⟩
  | .node y l r, hgo, hmono => by
    rw [inorder_node, pairwise_append, pairwise_cons] at hmono
    obtain ⟨hl, ⟨hyr, hr⟩, hlr⟩ := hmono
    have hy : go y ≠ none := hgo y (by simp)
    rcases hgy : go y with _ | _ | _
    · exact absurd hgy hy
    · -- sent right: everything on the left was sent right too
      obtain ⟨r', before, after, hins, hbr, hbr', hf, ht⟩ :=
        insertWith_spec x (fun z hz ↦ hgo z (by simp [hz])) hr
      refine ⟨.node y l r', inorder l ++ y :: before, after, ?_, ?_, ?_, ?_, ht⟩
      · rw [insertWith, hgy]
        simp [hins]
      · simp [hbr]
      · simp [hbr']
      · intro z hz
        rcases mem_append.mp hz with hz | hz
        · have hne : go z ≠ none := hgo z (by simp [hz])
          rcases hgz : go z with _ | _ | _
          · exact absurd hgz hne
          · rfl
          · grind
        · grind
    · -- sent left: everything on the right is sent left too
      obtain ⟨l', before, after, hins, hbl, hbl', hf, ht⟩ :=
        insertWith_spec x (fun z hz ↦ hgo z (by simp [hz])) hl
      refine ⟨.node y l' r, before, after ++ y :: inorder r, ?_, ?_, ?_, hf, ?_⟩
      · rw [insertWith, hgy]
        simp [hins]
      · simp [hbl]
      · simp [hbl']
      · grind

/-! ### Erasure -/

/-- One tree out of two, the second to the right of the first. -/
def join : BinaryTree α → BinaryTree α → BinaryTree α
  | .nil, r => r
  | .node x l m, r => .node x l (join m r)

@[simp] theorem inorder_join (l r : BinaryTree α) :
    inorder (join l r) = inorder l ++ inorder r := by
  induction l with
  | nil => rfl
  | node x l m _ ih => simp [join, ih]

/-- Take an element out, wherever it stands. -/
def erase [DecidableEq α] (x : α) : BinaryTree α → BinaryTree α
  | .nil => .nil
  | .node y l r => if y = x then join (erase x l) (erase x r) else .node y (erase x l) (erase x r)

@[simp] theorem inorder_erase [DecidableEq α] (x : α) (t : BinaryTree α) :
    inorder (erase x t) = (inorder t).filter (· ≠ x) := by
  induction t with
  | nil => rfl
  | node y l r ihl ihr =>
    rw [erase]
    split_ifs with h <;> simp [ihl, ihr, h]

/-! ### Search for a smallest adequate element -/

/-- **Best fit.** Walk down with a candidate in hand: an element above the wanted key replaces the
candidate and sends the walk left, one below sends it right, and one with exactly this key ends it.
`ok` is the caller's assertion on the elements met. The second component says whether the walk
ended on an exact hit. -/
def ceiling (key : α → ℕ) (ok : α → Bool) (k : ℕ) :
    Option α → BinaryTree α → Option (Option α × Bool)
  | best, .nil => some (best, false)
  | best, .node y l r =>
    if ok y then
      if k < key y then ceiling key ok k (some y) l
      else if key y < k then ceiling key ok k best r
      else some (some y, true)
    else none

/-- What a search for key `k` among `xs` returns, starting from the candidate `best`. -/
inductive Ceiling (key : α → ℕ) (k : ℕ) (best : Option α) (xs : List α) : Option α × Bool → Prop
  /-- An element has exactly this key. -/
  | hit {y : α} : y ∈ xs → key y = k → Ceiling key k best xs (some y, true)
  /-- A smallest element above the key; none has exactly this key. -/
  | above {y : α} : y ∈ xs → k < key y → (∀ z ∈ xs, k ≤ key z → key y ≤ key z) →
      Ceiling key k best xs (some y, false)
  /-- All elements are too small. -/
  | below : (∀ z ∈ xs, key z < k) → Ceiling key k best xs (best, false)

theorem ceiling_spec {key : α → ℕ} {ok : α → Bool} {k : ℕ} : ∀ (best : Option α)
    {t : BinaryTree α}, (∀ y ∈ inorder t, ok y = true) →
    (inorder t).Pairwise (fun y z ↦ key y ≤ key z) →
    ∃ res, ceiling key ok k best t = some res ∧ Ceiling key k best (inorder t) res
  | best, .nil, _, _ => ⟨_, rfl, .below (by simp)⟩
  | best, .node y l r, hok, hsort => by
    rw [inorder_node, pairwise_append, pairwise_cons] at hsort
    obtain ⟨hl, ⟨hyr, hr⟩, hlr⟩ := hsort
    have hy : ok y = true := hok y (by simp)
    rw [ceiling, if_pos hy]
    rcases Nat.lt_trichotomy k (key y) with hk | hk | hk
    · -- the walk goes left with `y` in hand
      rw [if_pos hk]
      obtain ⟨res, hres, hspec⟩ :=
        ceiling_spec (some y) (fun z hz ↦ hok z (by simp [hz])) hl
      refine ⟨res, hres, ?_⟩
      cases hspec with
      | hit hz hkz => exact .hit (by simp [hz]) hkz
      | @above w hw hkw hmin =>
        refine .above (by simp [hw]) hkw fun z hz hkz ↦ ?_
        rcases mem_append.mp hz with hz | hz
        · exact hmin z hz hkz
        · exact hlr w hw z hz
      | below hall =>
        refine .above (by simp) hk fun z hz hkz ↦ ?_
        rcases mem_append.mp hz with hz | hz
        · exact absurd hkz (Nat.not_le.mpr (hall z hz))
        · grind
    · rw [if_neg (by omega), if_neg (by omega)]
      exact ⟨_, rfl, .hit (by simp) hk.symm⟩
    · -- the walk goes right; everything on the left is too small
      rw [if_neg (by omega), if_pos hk]
      obtain ⟨res, hres, hspec⟩ :=
        ceiling_spec best (fun z hz ↦ hok z (by simp [hz])) hr
      refine ⟨res, hres, ?_⟩
      have hleft : ∀ z ∈ inorder l, key z < k := by
        intro z hz
        exact Nat.lt_of_le_of_lt (hlr z hz y (by simp)) hk
      cases hspec with
      | hit hz hkz => exact .hit (by simp [hz]) hkz
      | above hw hkw hmin =>
        refine .above (by simp [hw]) hkw fun z hz hkz ↦ ?_
        rcases mem_append.mp hz with hz | hz
        · exact absurd hkz (Nat.not_le.mpr (hleft z hz))
        · grind
      | below hall =>
        refine .below fun z hz ↦ ?_
        rcases mem_append.mp hz with hz | hz
        · exact hleft z hz
        · grind

/-! ### Trees as indexes -/

/-- **An index**: the tree holds exactly the elements of `S`, each once, ordered by `r`. -/
structure Index (r : α → α → Prop) (S : α → Prop) (t : BinaryTree α) : Prop where
  mem : ∀ x, x ∈ inorder t ↔ S x
  /-- No element is linked twice. -/
  nodup : (inorder t).Nodup
  sorted : (inorder t).Pairwise r

namespace Index

variable {r r' : α → α → Prop} {S S' : α → Prop} {t : BinaryTree α}

/-- The same elements, in an order that agrees on them: keys may change as long as those of the
elements held do not. -/
theorem congr (h : Index r S t) (hS : ∀ x, S x ↔ S' x) (hr : ∀ x y, S x → S y → r x y → r' x y) :
    Index r' S' t where
  mem x := (h.mem x).trans (hS x)
  nodup := h.nodup
  sorted := h.sorted.imp_of_mem fun hx hy hxy ↦ hr _ _ ((h.mem _).mp hx) ((h.mem _).mp hy) hxy

theorem nil (hS : ∀ x, ¬ S x) : Index r S .nil where
  mem x := by simpa using hS x
  nodup := by simp
  sorted := by simp

theorem reshape (h : Index r S t) (rb : Reshape α) : Index r S (rb.apply t) where
  mem x := by rw [rb.inorder_apply]; exact h.mem x
  nodup := by rw [rb.inorder_apply]; exact h.nodup
  sorted := by rw [rb.inorder_apply]; exact h.sorted

theorem erase [DecidableEq α] (h : Index r S t) (b : α) :
    Index r (fun x ↦ S x ∧ x ≠ b) (erase b t) where
  mem x := by simp [h.mem x]
  nodup := by rw [inorder_erase]; exact h.nodup.filter _
  sorted := by rw [inorder_erase]; exact h.sorted.filter _

/-- **Insertion into an index**, by any walk that refuses no element and sends the new element to
the side of each that `r` allows. -/
theorem insertWith (h : Index r S t) (go : α → Option Bool) {b : α} (hb : ¬ S b)
    (hgo : ∀ y, S y → go y = some true ∧ r b y ∨ go y = some false ∧ r y b)
    (hmono : ∀ y z, S y → S z → r y z → go y = some true → go z = some true) :
    ∃ t', insertWith go b t = some t' ∧ Index r (fun x ↦ x = b ∨ S x) t' := by
  have hne : ∀ y ∈ inorder t, go y ≠ none := by grind [h.mem]
  have hpw : (inorder t).Pairwise fun y z ↦ go y = some true → go z = some true :=
    h.sorted.imp_of_mem fun hy hz hyz ↦ hmono _ _ ((h.mem _).mp hy) ((h.mem _).mp hz) hyz
  obtain ⟨t', before, after, hins, ht, ht', hbefore, hafter⟩ := insertWith_spec b hne hpw
  have hsort := h.sorted
  have hnd := h.nodup
  rw [ht] at hsort hnd
  have hmem : ∀ x, x ∈ before ++ after ↔ S x := fun x ↦ ht ▸ h.mem x
  refine ⟨t', hins, ?_, ?_, ?_⟩
  · grind
  · grind
  · rw [pairwise_append] at hsort
    obtain ⟨h1, h2, h12⟩ := hsort
    rw [ht', pairwise_append, pairwise_cons]
    refine ⟨h1, ⟨fun y hy ↦ ?_, h2⟩, fun x hx y hy ↦ ?_⟩
    · grind
    · grind

end Index

end SearchTree
