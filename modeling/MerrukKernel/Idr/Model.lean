import Mathlib.Data.List.Range
import Mathlib.Order.Nat
import Mathlib.Algebra.Group.Nat.Defs
import Mathlib.Algebra.Group.Int.Defs

/-!
# Ids and their pointers

`lib/idr.c` binds pointers to small integers. The ids are the paths of a tree of layers with 32
places each; a bit of a layer says that nothing is free below a place. A new id is the first free
one from a given id on, and the layers that it needs come from a free list of the `idr`, which
`idr_pre_get` has filled.

The type of a pointer tells how many layers are below it, and so the field `layer` of what it
points to. The machine is a 32-bit one: `IDR_BITS` is 5.
-/

namespace Idr

open Function

/-- A pointer with the layers below it: `NULL`, a client's pointer, or a layer. -/
inductive Ptr (α : Type) : ℕ → Type
  | null {l : ℕ} : Ptr α l
  | item (a : α) : Ptr α 0
  | layer {l : ℕ} (bitmap : ℕ → Bool) (count : ℕ) (ary : ℕ → Ptr α l) : Ptr α (l + 1)

variable {α : Type}

/-- `struct idr`. The layers of the free list are all zero, and only their number matters. -/
structure Idp (α : Type) where
  layers : ℕ
  top : Ptr α layers
  idFreeCnt : ℕ

/-- `MAX_LEVEL` -/
def maxLevel : ℕ := 7

/-- `IDR_FREE_MAX` -/
def idrFreeMax : ℕ := maxLevel + maxLevel

/-- `(id >> (IDR_BITS * l)) & IDR_MASK` -/
def digit (id l : ℕ) : ℕ := id / 32 ^ l % 32

/-- `IDR_FULL` -/
def isFull (bitmap : ℕ → Bool) : Bool := (List.range 32).all bitmap

/-- `(id | ((1 << (IDR_BITS * l)) - 1)) + 1` -/
def above (id l : ℕ) : ℕ := (id / 32 ^ l + 1) * 32 ^ l

theorem lt_above (id l : ℕ) : id < above id l := by
  have hmod := Nat.mod_lt id (Nat.pow_pos (n := l) (show 0 < 32 by decide))
  rw [above, Nat.mul_comm]
  exact lt_of_eq_of_lt (Nat.div_add_mod id (32 ^ l)).symm (Nat.add_lt_add_left hmod _)

/-- A zeroed layer. -/
def Ptr.fresh {l : ℕ} : Ptr α (l + 1) := .layer (fun _ ↦ false) 0 fun _ ↦ .null

/-! ### The free list -/

/-- `n` iterations of the loop of `idr_pre_get`, for what `kmem_cache_zalloc` will answer. -/
def preGet : ℕ → List Bool → ℕ → Bool × ℕ
  | 0, _, cnt => (true, cnt)
  | n + 1, true :: cache, cnt => preGet n cache (cnt + 1)
  | _ + 1, _, cnt => (false, cnt)

/-- `idr_pre_get`: whether it returned 1. -/
def idrPreGet (cache : List Bool) (s : Idp α) : Bool × Idp α :=
  let (ret, cnt) := preGet (idrFreeMax - s.idFreeCnt) cache s.idFreeCnt
  (ret, { s with idFreeCnt := cnt })

/-- The last loop of `idr_remove`, which keeps the free list short. -/
def trim (cnt : ℕ) : ℕ := if idrFreeMax ≤ cnt then idrFreeMax - 1 else cnt

/-! ### A free id -/

/-- What the search below a layer gives. -/
inductive Sub (α : Type) (l : ℕ)
  /-- Nothing is free from the id on. -/
  | full
  /-- The free list was empty; the layers that it gave before stay in the tree. -/
  | again (p : Ptr α l)
  | found (id : ℕ) (p : Ptr α l) (cnt : ℕ)

/-- The clear bits of a layer from `n` on. -/
def places (bitmap : ℕ → Bool) (n : ℕ) : List ℕ := (List.range 32).filter fun m ↦ n ≤ m && !bitmap m

/-- The id at place `m` of a layer at level `l`: the lower digits stay if the search was there
already. -/
def moveTo (id l m : ℕ) : ℕ := if m = digit id l then id else (id / 32 ^ (l + 1) * 32 + m) * 32 ^ l

/-- The places of a layer above the leaves, one after another. A layer that is missing is created.
-/
def subAllocAt {l : ℕ} (search : Ptr α (l + 1) → ℕ → ℕ → Sub α (l + 1))
    (bitmap : ℕ → Bool) (count : ℕ)
    (ary : ℕ → Ptr α (l + 1)) (id cnt : ℕ) : List ℕ → Sub α (l + 2)
  | [] => .full
  | m :: ms =>
    match ary m with
    | .null =>
      if cnt = 0 then .again (.layer bitmap count ary)
      else match search .fresh (moveTo id (l + 1) m) (cnt - 1) with
        | .found id p cnt => .found id (.layer bitmap (count + 1) (update ary m p)) cnt
        | .again p => .again (.layer bitmap (count + 1) (update ary m p))
        | .full => .full
    | p =>
      match search p (moveTo id (l + 1) m) cnt with
      | .found id p cnt => .found id (.layer bitmap count (update ary m p)) cnt
      | .again p => .again (.layer bitmap count (update ary m p))
      | .full => subAllocAt search bitmap count ary id cnt ms

/-- `sub_alloc`, below a layer at level `l`. Where the layer has no place left, the search goes on
at the next place of the layer above: there the source takes `pa[l + 1]`, or begins at the top
again and comes to the same layer. -/
def subAlloc : (l : ℕ) → Ptr α (l + 1) → ℕ → ℕ → Sub α (l + 1)
  | 0, .layer bitmap count ary, id, cnt =>
    match places bitmap (digit id 0) with
    | [] => .full
    | m :: _ => .found (moveTo id 0 m) (.layer bitmap count ary) cnt
  | l + 1, .layer bitmap count ary, id, cnt =>
    subAllocAt (subAlloc l) bitmap count ary id cnt (places bitmap (digit id (l + 1)))
  | _, .null, _, _ => .full

/-- The loop of `idr_get_empty_slot` that puts layers above the top, where `n` of them may be
added. An empty top is moved upwards. -/
def buildUp (id : ℕ) : ℕ → (l : ℕ) → Ptr α (l + 1) → ℕ → Option (Idp α)
  | 0, l, p, cnt => some ⟨l + 1, p, cnt⟩
  | n + 1, l, p, cnt =>
    if id < 32 ^ (l + 1) then some ⟨l + 1, p, cnt⟩
    else match p with
      | .layer bitmap 0 _ => buildUp id n (l + 1) (.layer bitmap 0 fun _ ↦ .null) cnt
      | .layer bitmap count ary =>
        if cnt = 0 then none
        else buildUp id n (l + 1) (.layer (fun i ↦ decide (i = 0) && isFull bitmap) 1
          fun i ↦ if i = 0 then .layer bitmap count ary else .null) (cnt - 1)
      | .null => some ⟨l + 1, p, cnt⟩

/-- From `build_up` to the call of `sub_alloc`. Without a top there is one layer. -/
def buildTop (id : ℕ) : Idp α → Option (Idp α)
  | ⟨l + 1, .layer bitmap count ary, cnt⟩ =>
    buildUp id (maxLevel - 1 - (l + 1)) l (.layer bitmap count ary) cnt
  | ⟨_, _, cnt⟩ => if cnt = 0 then none else buildUp id (maxLevel - 1 - 1) 0 .fresh (cnt - 1)

/-- `sub_alloc` -/
def search (id : ℕ) : (s : Idp α) → Sub α s.layers
  | ⟨l + 1, p, cnt⟩ => subAlloc l p id cnt
  | ⟨0, _, _⟩ => .full

/-- What `idr_get_empty_slot` gives: a free id with the layers on its way, nothing for `-1`, or a
`BUG`. -/
inductive Slot (α : Type)
  | found (id : ℕ) (s : Idp α)
  | again (s : Idp α)
  | bug

/-- `idr_get_empty_slot`. Where nothing is free it begins again with the next id that the tree
does not cover. Behind the last id the source meets the `BUG_ON` of `pa[layers]`, which is `NULL`,
or returns `-ENOSPC` if the search has failed below the top layer; both are a `bug` here. -/
def idrGetEmptySlot (id : ℕ) (s : Idp α) : Slot α :=
  match buildTop id s with
  | none => .again s
  | some s =>
    match search id s with
    | .found id p cnt => .found id { s with top := p, idFreeCnt := cnt }
    | .again p => .again { s with top := p, idFreeCnt := 0 }
    | .full =>
      if _h : above id s.layers < 2 ^ 31 then idrGetEmptySlot (above id s.layers) s else .bug
termination_by 2 ^ 31 - id
decreasing_by
  have := lt_above id s.layers
  omega

/-- The pointer is stored and its bit set, and so are the bits of the layers above that are full
then (`idr_mark_full`). -/
def install (ptr : Ptr α 0) (id : ℕ) : (l : ℕ) → Ptr α (l + 1) → Ptr α (l + 1)
  | 0, .layer bitmap count ary =>
    .layer (update bitmap (digit id 0) true) (count + 1) (update ary (digit id 0) ptr)
  | l + 1, .layer bitmap count ary =>
    let child := install ptr id l (ary (digit id (l + 1)))
    let bitmap := match child with
      | .layer below _ _ => if isFull below then update bitmap (digit id (l + 1)) true else bitmap
      | .null => bitmap
    .layer bitmap count (update ary (digit id (l + 1)) child)
  | _, .null => .null

/-- What `idr_get_new_above` returns. -/
inductive Ret (α : Type)
  | ok (id : ℕ) (s : Idp α)
  | eagain (s : Idp α)
  | enospc (s : Idp α)
  | bug

/-- `idr_get_empty_slot` from a negative id: the top is enough, and `sub_alloc` gives
`IDR_NOMORE_SPACE` at the first place it finds there. -/
def belowZero (id : ℤ) : Idp α → Ret α
  | ⟨l + 1, .layer bitmap count ary, cnt⟩ =>
    if places bitmap (id / 32 ^ l % 32).toNat = [] then .bug else .enospc
      ⟨l + 1, .layer bitmap count ary, cnt⟩
  | ⟨l, top, cnt⟩ => if cnt = 0 then .eagain ⟨l, top, cnt⟩ else .enospc ⟨1, .fresh, cnt - 1⟩

/-- `idr_get_new_above` -/
def idrGetNewAbove (ptr : Ptr α 0) (startingId : ℤ) (s : Idp α) : Ret α :=
  if startingId < 0 then belowZero startingId s
  else match idrGetEmptySlot startingId.toNat s with
    | .found id ⟨l + 1, p, cnt⟩ => .ok id ⟨l + 1, install ptr id l p, cnt⟩
    | .found id s => .ok id s
    | .again s => .eagain s
    | .bug => .bug

end Idr
