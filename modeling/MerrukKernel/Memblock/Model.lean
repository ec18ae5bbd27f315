import Mathlib.Data.BitVec

/-!
# The tables of memblock

A table of `mm/memblock.c` is an array of 129 regions, of which the first `cnt` count; what is
behind them is what operations have left there. The functions return `none` where they run past
the end of the array: with `cnt` zero, `cnt - 1` is the largest unsigned number.
-/

namespace Memblock

open Function

/-- `MAX_MEMBLOCK_REGIONS` -/
def maxMemblockRegions : ℕ := 128

/-- `memblock_property` -/
structure Region where
  base : BitVec 64
  size : BitVec 64
deriving DecidableEq

/-- `memblock_region` -/
structure Table where
  cnt : ℕ
  region : ℕ → Region

def Table.set (t : Table) (i : ℕ) (r : Region) : Table := { t with region := update t.region i r }

/-- `memblock_init` of a table. -/
def Table.init (region : ℕ → Region) : Table := ⟨1, update region 0 ⟨0, 0⟩⟩

/-- `memblock_addrs_overlap` -/
def addrsOverlap (base₁ size₁ base₂ size₂ : BitVec 64) : Bool :=
  base₁ < base₂ + size₂ && base₂ < base₁ + size₁

/-- `memblock_addrs_adjacent` -/
def addrsAdjacent (base₁ size₁ base₂ size₂ : BitVec 64) : ℤ :=
  if base₂ = base₁ + size₁ then 1 else if base₁ = base₂ + size₂ then -1 else 0

/-- `memblock_regions_adjacent` -/
def regionsAdjacent (t : Table) (r₁ r₂ : ℕ) : ℤ :=
  addrsAdjacent (t.region r₁).base (t.region r₁).size (t.region r₂).base (t.region r₂).size

/-- `n` iterations of the loop of `memblock_remove_region`, from index `i`. -/
def shiftDown (region : ℕ → Region) (i : ℕ) : ℕ → ℕ → Region
  | 0 => region
  | n + 1 => shiftDown (update region i (region (i + 1))) (i + 1) n

/-- `memblock_remove_region` -/
def removeRegion (t : Table) (r : ℕ) : Option Table :=
  if t.cnt = 0 then none else some ⟨t.cnt - 1, shiftDown t.region r (t.cnt - 1 - r)⟩

/-- `memblock_coalesce_regions` -/
def coalesceRegions (t : Table) (r₁ r₂ : ℕ) : Option Table :=
  removeRegion (t.set r₁ { t.region r₁ with size := (t.region r₁).size + (t.region r₂).size }) r₂

/-- How the first loop of `memblock_add_region` ends. -/
inductive Scan
  /-- The region is there already. -/
  | already
  /-- The loop was left with this index, after so many regions were extended. -/
  | left (i : ℕ) (t : Table) (coalesced : ℕ)

/-- The first loop of `memblock_add_region`, with `n` regions to go. -/
def scan (t : Table) (base size : BitVec 64) : ℕ → ℕ → Scan
  | 0, i => .left i t 0
  | n + 1, i =>
    let r := t.region i
    if r.base = base ∧ r.size = size then .already
    else
      let adjacent := addrsAdjacent base size r.base r.size
      if 0 < adjacent then .left i (t.set i ⟨r.base - size, r.size + size⟩) 1
      else if adjacent < 0 then .left i (t.set i ⟨r.base, r.size + size⟩) 1
      else scan t base size n (i + 1)

/-- The second loop of `memblock_add_region`, from index `i - 1` down. -/
def insertFrom (region : ℕ → Region) (new : Region) : ℕ → ℕ → Region
  | 0 => region
  | i + 1 =>
    if new.base < (region i).base then insertFrom (update region (i + 1) (region i)) new i
    else update region (i + 1) new

/-- A region is added to the sorted table. -/
def insertRegion (t : Table) (new : Region) : Table :=
  let region := insertFrom t.region new t.cnt
  ⟨t.cnt + 1, if new.base < (region 0).base then update region 0 new else region⟩

/-- `cnt - 1` as an `unsigned long`. -/
def Table.lastIndex (t : Table) : ℕ := (t.cnt + (2 ^ 32 - 1)) % 2 ^ 32

/-- The region at which the first loop ended is merged with the one behind it. -/
def coalesceNext (t : Table) (i coalesced : ℕ) : Option (Table × ℕ) :=
  if i < t.lastIndex ∧ regionsAdjacent t i (i + 1) ≠ 0 then
    (coalesceRegions t i (i + 1)).map fun t ↦ (t, coalesced + 1)
  else some (t, coalesced)

/-- `memblock_add_region`, and what it returns. -/
def memblockAddRegion (t : Table) (base size : BitVec 64) : Option (Table × ℤ) :=
  if t.cnt = 1 ∧ (t.region 0).size = 0 then some (t.set 0 ⟨base, size⟩, 0)
  else
    match scan t base size t.cnt 0 with
    | .already => some (t, 0)
    | .left i t coalesced => do
      let (t, coalesced) ← coalesceNext t i coalesced
      if coalesced ≠ 0 then return (t, coalesced)
      else if maxMemblockRegions ≤ t.cnt then return (t, -1)
      else return (insertRegion t ⟨base, size⟩, 0)

/-- The loop of `__memblock_remove`, with `n` regions to go. -/
def findRegion (t : Table) (base limit : BitVec 64) : ℕ → ℕ → Option ℕ
  | 0, _ => none
  | n + 1, i =>
    if (t.region i).base ≤ base ∧ limit ≤ (t.region i).base + (t.region i).size then some i
    else findRegion t base limit n (i + 1)

/-- `__memblock_remove`, and what it returns. -/
def memblockRemove (t : Table) (base size : BitVec 64) : Option (Table × ℤ) :=
  let limit := base + size
  match findRegion t base limit t.cnt 0 with
  | none => some (t, -1)
  | some i =>
    let r := t.region i
    let rgnend := r.base + r.size
    if r.base = base ∧ rgnend = limit then (removeRegion t i).map fun t ↦ (t, 0)
    else if r.base = base then some (t.set i ⟨limit, r.size - size⟩, 0)
    else if rgnend = limit then some (t.set i ⟨r.base, r.size - size⟩, 0)
    else memblockAddRegion (t.set i ⟨r.base, base - r.base⟩) limit (rgnend - limit)

end Memblock
