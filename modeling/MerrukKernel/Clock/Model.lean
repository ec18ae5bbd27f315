import Mathlib.Order.WellFounded
import MerrukKernel.Library.Trace
import Mathlib.Algebra.Group.Nat.Defs

/-!
# The clock tree

`clk_enable` and `clk_disable` (`arch/arm/plat-bcmap/clock.c`) count the users of a clock. The
first user enables the parent of the clock and then opens its gate, the last one disables the
parent and then closes the gate; a parent that is always enabled is left alone, and so is
everything above it.

A gate is either switched by the callbacks of the clock, which are taken to succeed and to touch
no other gate, or it is a mask of bits of a register, set to open it, or cleared if the clock says
so (`BCM_CLK_INVERT_ENABLE`). The count is an `u8`.

The forest of the clocks is a structure whose parent relation is well founded; that is what the
recursion of the two functions runs on.
-/

namespace Clock

open Function

/-- `BCM_CLK_INVERT_ENABLE`. -/
def bcmClkInvertEnable : BitVec 16 := 1#16 <<< 1

/-- `BCM_CLK_ALWAYS_ENABLED`. -/
def bcmClkAlwaysEnabled : BitVec 16 := 1#16 <<< 2

/-- `-EINVAL`. -/
def einval : ℤ := -22

/-- The constant part of `struct clk`, as far as the two functions read it. `enable` and `disable`
say whether there are callbacks. -/
structure Clk (ι ρ : Type*) where
  flags : BitVec 16
  parent : Option ι
  enable : Bool
  disable : Bool
  enableReg : Option ρ
  enableBitMask : BitVec 8

variable {ι ρ : Type*}

/-- The clock cannot be disabled. -/
def Clk.always (k : Clk ι ρ) : Bool := k.flags &&& bcmClkAlwaysEnabled ≠ 0

/-- The gate is open when its bits are clear. -/
def Clk.inverted (k : Clk ι ρ) : Bool := k.flags &&& bcmClkInvertEnable ≠ 0

/-- `enable_bit_mask`, as a register has it. -/
def Clk.mask (k : Clk ι ρ) : BitVec 32 := k.enableBitMask.setWidth 32

/-- A forest of clocks. -/
structure Tree (ι ρ : Type*) where
  clk : ι → Clk ι ρ
  acyclic : WellFounded fun p c ↦ (clk c).parent = some p

/-- The counts, the registers and the gates that callbacks switch. -/
structure State (ι ρ : Type*) where
  cnt : ι → ℕ
  regs : ρ → BitVec 32
  own : ι → Bool

namespace State

variable [DecidableEq ι] [DecidableEq ρ]

/-- A count is changed. -/
def setCnt (s : State ι ρ) (c : ι) (n : ℕ) : State ι ρ := { s with cnt := update s.cnt c n }

/-- A register is written (`writel`). -/
def setReg (s : State ι ρ) (r : ρ) (v : BitVec 32) : State ι ρ :=
  { s with regs := update s.regs r v }

/-- A callback switches the gate of its clock. -/
def setOwn (s : State ι ρ) (c : ι) (b : Bool) : State ι ρ := { s with own := update s.own c b }

omit [DecidableEq ρ] in
@[simp] theorem cnt_setCnt_self (s : State ι ρ) (c : ι) (n : ℕ) : (s.setCnt c n).cnt c = n :=
  update_self ..

omit [DecidableEq ρ] in
theorem cnt_setCnt_of_ne (s : State ι ρ) {c k : ι} (h : k ≠ c) (n : ℕ) :
    (s.setCnt c n).cnt k = s.cnt k :=
  update_of_ne h ..

end State

namespace Tree

variable [DecidableEq ι] [DecidableEq ρ] (T : Tree ι ρ)

/-- The gate of a clock is closed: by its callback, or through its register. -/
def switchOff (s : State ι ρ) (c : ι) : State ι ρ :=
  if (T.clk c).disable then s.setOwn c false
  else
    match (T.clk c).enableReg with
    | none => s
    | some r =>
      if (T.clk c).enableBitMask = 0 then s
      else if (T.clk c).inverted then s.setReg r (s.regs r ||| (T.clk c).mask)
      else s.setReg r (s.regs r &&& ~~~(T.clk c).mask)

/-- The gate of a clock is opened, and the result of that. -/
def switchOn (s : State ι ρ) (c : ι) : ℤ × State ι ρ :=
  if (T.clk c).enable then (0, s.setOwn c true)
  else
    match (T.clk c).enableReg with
    | none => (einval, s)
    | some r =>
      if (T.clk c).enableBitMask = 0 then (einval, s)
      else if (T.clk c).inverted then (0, s.setReg r (s.regs r &&& ~~~(T.clk c).mask))
      else (0, s.setReg r (s.regs r ||| (T.clk c).mask))

/-- `__clk_disable`. -/
def rawClkDisable (s : State ι ρ) (c : ι) : State ι ρ :=
  if (T.clk c).always then s
  else if 0 < s.cnt c then
    let s' := s.setCnt c (s.cnt c - 1)
    if s.cnt c - 1 = 0 then
      match _h : (T.clk c).parent with
      | some p => if (T.clk p).always then T.switchOff s' c else T.switchOff (rawClkDisable s' p) c
      | none => T.switchOff s' c
    else s'
  else s
termination_by T.acyclic.wrap c
decreasing_by assumption

/-- `__clk_enable`. The count wraps around. -/
def rawClkEnable (s : State ι ρ) (c : ι) : ℤ × State ι ρ :=
  if (T.clk c).always then (0, s)
  else
    let s' := s.setCnt c ((s.cnt c + 1) % 2 ^ 8)
    if s.cnt c = 0 then
      match _h : (T.clk c).parent with
      | some p => if (T.clk p).always then T.switchOn s' c else T.switchOn (rawClkEnable s' p).2 c
      | none => T.switchOn s' c
    else (0, s')
termination_by T.acyclic.wrap c
decreasing_by assumption

/-- `clk_enable`, of a clock or of a null pointer. -/
def clkEnable (s : State ι ρ) : Option ι → ℤ × State ι ρ
  | none => (einval, s)
  | some c => T.rawClkEnable s c

/-- `clk_disable`, of a clock or of a null pointer. -/
def clkDisable (s : State ι ρ) : Option ι → State ι ρ
  | none => s
  | some c => T.rawClkDisable s c

end Tree

/-! ### Users -/

/-- A call of a driver. -/
inductive ClkOp (ι : Type*)
  | enable (c : Option ι)
  | disable (c : Option ι)

/-- The clocks, and for each clock how often the drivers have enabled it and not disabled it. -/
structure Usage (ι ρ : Type*) where
  clocks : State ι ρ
  direct : ι → ℕ

variable [DecidableEq ι] [DecidableEq ρ]

/-- The direct enables of a clock change. -/
def Usage.count (u : Usage ι ρ) : ClkOp ι → ι → ℕ
  | .enable (some c) => update u.direct c (u.direct c + 1)
  | .disable (some c) => update u.direct c (u.direct c - 1)
  | .enable none | .disable none => u.direct

/-- One call. -/
def Usage.step (T : Tree ι ρ) (u : Usage ι ρ) (op : ClkOp ι) : Usage ι ρ where
  clocks := match op with
    | .enable c => (T.clkEnable u.clocks c).2
    | .disable c => T.clkDisable u.clocks c
  direct := u.count op

/-- Drivers that disable no clock more often than they have enabled it. -/
def clockMachine (T : Tree ι ρ) : Machine (Usage ι ρ) (ClkOp ι) where
  guard u op :=
    match op with
    | .disable (some c) => 0 < u.direct c
    | .enable _ | .disable none => True
  exec := Usage.step T

end Clock
