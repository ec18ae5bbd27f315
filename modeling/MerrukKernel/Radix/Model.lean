import Mathlib.Logic.Function.Basic
import Mathlib.Algebra.Group.Nat.Defs

/-!
# Radix trees

`lib/radix-tree.c` stores items under indices that it reads in digits of `RADIX_TREE_MAP_SHIFT`
bits. A node has one slot for each digit, and a tree of height `h` has `h` layers of nodes over
its items; the one item of a tree of height 0 stands in the root. A node comes from the pool of
the CPU, or from the slab.

The type of a slot tells its height, so a node has slots of the height below and no others. The
width of a digit and of an index depend on the configuration and are parameters.
-/

namespace Radix

/-- The configuration: `RADIX_TREE_MAP_SHIFT` and `RADIX_TREE_INDEX_BITS`. -/
structure Config where
  mapShift : ℕ
  indexBits : ℕ
  mapShift_pos : 0 < mapShift
deriving DecidableEq

/-- A slot with the layers below it: empty, an item, or a node with its `count`, its tags and its
slots. -/
inductive Slot (α : Type) : ℕ → Type
  | null {h : ℕ} : Slot α h
  | item (a : α) : Slot α 0
  | node {h : ℕ} (count : ℕ) (tags : Fin 2 → ℕ → Bool) (slots : ℕ → Slot α h) : Slot α (h + 1)

/-- `radix_tree_root`. Whether `__GFP_WAIT` is in `gfp_mask`, and the tags that are kept there,
are told apart. -/
structure Root (α : Type) where
  height : ℕ
  wait : Bool
  tags : Fin 2 → Bool
  rnode : Slot α height

/-- Where nodes come from: how many are in the pool of this CPU (`rtp->nr`), and what
`kmem_cache_alloc` will answer; it fails when nothing is left. -/
structure Memory where
  nr : ℕ
  cache : List Bool
deriving DecidableEq

/-- What `radix_tree_insert` returns. -/
inductive Ret
  | ok
  | eexist
  | enomem
  /-- A tag of a slot without an item was set. -/
  | bug
deriving DecidableEq

/-- `kmem_cache_alloc` -/
def kmemCacheAlloc (m : Memory) : Bool × Memory :=
  match m.cache with
  | [] => (false, m)
  | ok :: cache => (ok, { m with cache := cache })

/-- `radix_tree_node_alloc`: whether there was a node. -/
def radixTreeNodeAlloc (wait : Bool) (m : Memory) : Bool × Memory :=
  if !wait && 0 < m.nr then (true, { m with nr := m.nr - 1 }) else kmemCacheAlloc m

/-- The node at a slot, which is added if the slot is empty. -/
def enter {α : Type} {h : ℕ} (wait : Bool) (m : Memory) :
    Slot α (h + 1) → Option (ℕ × (Fin 2 → ℕ → Bool) × (ℕ → Slot α h)) × Memory
  | .node count tags slots => (some (count, tags, slots), m)
  | .null =>
    match radixTreeNodeAlloc wait m with
    | (true, m) => (some (0, fun _ _ ↦ false, fun _ ↦ .null), m)
    | (false, m) => (none, m)

def Slot.isNull {α : Type} {h : ℕ} : Slot α h → Bool
  | .null => true
  | _ => false

namespace Config

variable {α : Type} (c : Config)

/-- `RADIX_TREE_MAX_PATH` -/
def maxPath : ℕ := (c.indexBits + c.mapShift - 1) / c.mapShift

/-- `radix_tree_maxindex` -/
def maxindex (height : ℕ) : ℕ := 2 ^ min c.indexBits (height * c.mapShift) - 1

/-- The digit of an index at a node whose slots have height `h`. -/
def offset (index h : ℕ) : ℕ := index / 2 ^ (h * c.mapShift) % 2 ^ c.mapShift

/-- `n` iterations of the loop of `radix_tree_preload`. -/
def fill : ℕ → Memory → Bool × Memory
  | 0, m => (true, m)
  | n + 1, m =>
    match kmemCacheAlloc m with
    | (false, m) => (false, m)
    | (true, m) => fill n { m with nr := m.nr + 1 }

/-- `radix_tree_preload`: whether it returned 0. -/
def radixTreePreload (m : Memory) : Bool × Memory := fill (c.maxPath - m.nr) m

/-- The first of `n` heights from `height` on that the index fits, where the index fits the last. -/
def heightFrom (index : ℕ) : ℕ → ℕ → ℕ
  | 0, height => height
  | n + 1, height => if c.maxindex height < index then heightFrom index n (height + 1) else height

/-- `n` iterations of the loop of `radix_tree_extend`: a node is put above the root. -/
def grow : ℕ → Root α → Memory → Bool × Root α × Memory
  | 0, root, m => (true, root, m)
  | n + 1, root, m =>
    match radixTreeNodeAlloc root.wait m with
    | (false, m) => (false, root, m)
    | (true, m) =>
      grow n ⟨root.height + 1, root.wait, root.tags, .node 1
        (fun tag i ↦ decide (i = 0) && root.tags tag)
        fun i ↦ if i = 0 then root.rnode else .null⟩ m

/-- `radix_tree_extend`: whether it returned 0. -/
def radixTreeExtend (root : Root α) (index : ℕ) (m : Memory) : Bool × Root α × Memory :=
  let height := c.heightFrom index (c.maxPath - (root.height + 1)) (root.height + 1)
  if root.rnode.isNull then (true, ⟨height, root.wait, root.tags, .null⟩, m)
  else grow (height - root.height) root m

/-- The way down of `radix_tree_insert`, from a slot on. -/
def insertAt (wait : Bool) (index : ℕ) (a : α) : (h : ℕ) → Slot α h → Memory →
    Ret × Slot α h × Memory
  | 0, .null, m => (.ok, .item a, m)
  | 0, .item b, m => (.eexist, .item b, m)
  | h + 1, slot, m =>
    match enter wait m slot with
    | (none, m) => (.enomem, slot, m)
    | (some (count, tags, slots), m) =>
      let i := c.offset index h
      let (ret, child, m) := insertAt wait index a h (slots i) m
      let tagged := decide (h = 0) && (tags 0 i || tags 1 i)
      (if ret = .ok ∧ tagged then .bug else ret,
        .node (if (slots i).isNull && !child.isNull then count + 1 else count) tags
        (Function.update slots i child), m)

/-- `radix_tree_insert` -/
def radixTreeInsert (root : Root α) (index : ℕ) (a : α) (m : Memory) : Ret × Root α × Memory :=
  match if c.maxindex root.height < index then c.radixTreeExtend root index m else
    (true, root, m) with
  | (false, root, m) => (.enomem, root, m)
  | (true, root, m) =>
    let (ret, rnode, m) := c.insertAt root.wait index a root.height root.rnode m
    let tagged := decide (root.height = 0) && (root.tags 0 || root.tags 1)
    (if ret = .ok ∧ tagged then .bug else ret, { root with rnode := rnode }, m)

end Config

end Radix
