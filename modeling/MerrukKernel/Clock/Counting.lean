import Mathlib.Algebra.BigOperators.Ring.Finset
import MerrukKernel.Clock.Model

/-!
# Counting the users of clocks

The count of a clock is the number of its direct users plus the number of its children that are in
use. While `__clk_enable` climbs, this is off by one at the clock to be visited next: it owes a
user to the child that has just come into use. Written with integers, that is the same equation
with the clock's own share lowered by one, so one induction on the recursion proves it; `Settled
d` is the equation with the shares `d`.

`__clk_disable` is `__clk_enable` the other way round, and `Moved` says what both do. The gates
follow clock by clock: whatever was right about a clock stays right, and the clock at which the
recursion stands is set right in the end.

All this rests on the counts staying below `256`: the `256`th user of a clock wraps its count to
`0`.
-/

namespace Clock

open Function Clock.Tree State

variable {ι ρ : Type*} {T : Tree ι ρ} {s s' : State ι ρ} {c k p : ι}

/-! ### Gates -/

/-- The bits of the gate of a clock. -/
def Tree.bits (T : Tree ι ρ) (s : State ι ρ) (c : ι) : BitVec 32 :=
  match (T.clk c).enableReg with
  | some r => s.regs r &&& (T.clk c).mask
  | none => 0

/-- The gate of a clock is open. -/
def Tree.On (T : Tree ι ρ) (s : State ι ρ) (c : ι) : Prop :=
  if (T.clk c).enable then s.own c = true
  else T.bits s c = if (T.clk c).inverted then 0 else (T.clk c).mask

/-- The gate of a clock is closed. -/
def Tree.Off (T : Tree ι ρ) (s : State ι ρ) (c : ι) : Prop :=
  if (T.clk c).enable then s.own c = false
  else T.bits s c = if (T.clk c).inverted then (T.clk c).mask else 0

/-- **Every clock has a gate of its own**: two callbacks, or bits of a register that no other clock
has. -/
structure Tree.Gated (T : Tree ι ρ) : Prop where
  paired : ∀ c, (T.clk c).enable = (T.clk c).disable
  mask : ∀ c, (T.clk c).always = false → (T.clk c).enable = false →
    (T.clk c).enableReg ≠ none ∧ (T.clk c).enableBitMask ≠ 0
  disjoint : ∀ c k, c ≠ k → (T.clk c).enable = false → (T.clk k).enable = false →
    (T.clk c).enableReg = (T.clk k).enableReg → (T.clk c).enableBitMask &&&
    (T.clk k).enableBitMask = 0

section Bits

variable {v m m' : BitVec 32}

theorem or_and_self : (v ||| m) &&& m = m := by
  ext i
  simpa using Or.inr

theorem and_not_and_self : (v &&& ~~~m) &&& m = 0 := by
  ext i
  simp

theorem or_and_of_disjoint (h : m &&& m' = 0) : (v ||| m) &&& m' = v &&& m' := by
  rw [BitVec.and_or_distrib_right, h]
  exact BitVec.or_zero

theorem and_not_and_of_disjoint (h : m &&& m' = 0) : (v &&& ~~~m) &&& m' = v &&& m' := by
  rw [← or_and_of_disjoint h, ← or_and_of_disjoint (v := v) h]
  ext i
  simp only [BitVec.getElem_or, BitVec.getElem_and, BitVec.getElem_not]
  cases v[i] <;> cases m[i] <;> rfl

end Bits

theorem Clk.mask_ne_zero {k : Clk ι ρ} (h : k.enableBitMask ≠ 0) : k.mask ≠ 0 := by
  intro h0
  refine h (BitVec.eq_of_toNat_eq ?_)
  have hlt : k.enableBitMask.toNat < 2 ^ 32 := Nat.lt_trans k.enableBitMask.isLt (by decide)
  have := congrArg BitVec.toNat h0
  rwa [Clk.mask, BitVec.toNat_setWidth, Nat.mod_eq_of_lt hlt] at this

theorem Clk.mask_disjoint {k k' : Clk ι ρ} (h : k.enableBitMask &&& k'.enableBitMask = 0) :
    k.mask &&& k'.mask = 0 := by
  rw [Clk.mask, Clk.mask, ← BitVec.setWidth_and, h]
  rfl

theorem Tree.Gated.not_on_and_off (hT : T.Gated) (hc : (T.clk c).always = false) (hon : T.On s c) :
    ¬ T.Off s c := by
  intro hoff
  cases he : (T.clk c).enable with
  | true =>
    rw [Tree.On, if_pos he] at hon
    rw [Tree.Off, if_pos he, hon] at hoff
    cases hoff
  | false =>
    have hmask := Clk.mask_ne_zero (hT.mask c hc he).2
    rw [Tree.On, if_neg (by simp [he])] at hon
    rw [Tree.Off, if_neg (by simp [he]), hon] at hoff
    cases hi : (T.clk c).inverted with
    | true => exact hmask (by simpa [hi] using hoff.symm)
    | false => exact hmask (by simpa [hi] using hoff)

/-- The gate of a clock is the same in two states. -/
def Tree.SameGate (T : Tree ι ρ) (s s' : State ι ρ) (c : ι) : Prop :=
  if (T.clk c).enable then s'.own c = s.own c else T.bits s' c = T.bits s c

theorem Tree.SameGate.iff (h : T.SameGate s s' c) :
    (T.On s' c ↔ T.On s c) ∧ (T.Off s' c ↔ T.Off s c) := by
  unfold On Off
  rw [Tree.SameGate] at h
  split at h
  · next he => simp only [if_pos he, h, and_self]
  · next he => simp only [if_neg he, h, and_self]

theorem Tree.sameGate_setOwn [DecidableEq ι] (hk : k ≠ c) (b : Bool) :
    T.SameGate s (s.setOwn c b) k := by
  rw [Tree.SameGate]
  split
  · exact update_of_ne hk ..
  · rfl

/-- No two clocks have a bit of a register in common. -/
def Tree.Disjoint (T : Tree ι ρ) : Prop :=
  ∀ c k, c ≠ k → (T.clk c).enable = false → (T.clk k).enable = false →
    (T.clk c).enableReg = (T.clk k).enableReg → (T.clk c).enableBitMask &&&
    (T.clk k).enableBitMask = 0

theorem Tree.Disjoint.sameGate_setReg [DecidableEq ρ] (hT : T.Disjoint) (hk : k ≠ c)
    {r : ρ} {v : BitVec 32}
    (he : (T.clk c).enable = false) (hr : (T.clk c).enableReg = some r)
    (hv : ∀ m, (T.clk c).mask &&& m = 0 → v &&& m = s.regs r &&& m) :
    T.SameGate s (s.setReg r v) k := by
  rw [Tree.SameGate]
  split
  · rfl
  · next hek =>
    rw [Bool.not_eq_true] at hek
    rw [bits, bits]
    cases hrk : (T.clk k).enableReg with
    | none => rfl
    | some r' =>
      by_cases hrr : r' = r
      · subst hrr
        have hdis := Clk.mask_disjoint (hT c k hk.symm he hek (hr.trans hrk.symm))
        show update s.regs r' v r' &&& (T.clk k).mask = s.regs r' &&& (T.clk k).mask
        rw [update_self]
        exact hv _ hdis
      · show update s.regs r v r' &&& (T.clk k).mask = s.regs r' &&& (T.clk k).mask
        rw [update_of_ne hrr]

/-- The gate of a clock has been opened (`up`), or closed, and nothing else has changed. -/
structure Tree.Switched (T : Tree ι ρ) (up : Bool) (c : ι) (s s' : State ι ρ) : Prop where
  cnt : s'.cnt = s.cnt
  gate : if up then T.On s' c else T.Off s' c
  others : ∀ k, k ≠ c → T.SameGate s s' k

section Switch

variable {up : Bool}

theorem Tree.switched_setOwn [DecidableEq ι] (he : (T.clk c).enable = true) :
    T.Switched up c s (s.setOwn c up) := by
  refine ⟨rfl, ?_, fun k hk ↦ sameGate_setOwn hk up⟩
  rw [Tree.On, Tree.Off, if_pos he, if_pos he]
  cases up <;> exact update_self ..

theorem Tree.Disjoint.switched_setReg [DecidableEq ρ] (hT : T.Disjoint) {r : ρ}
    (he : (T.clk c).enable = false) (hr : (T.clk c).enableReg = some r) :
    T.Switched up c s (s.setReg r
      (if up = (T.clk c).inverted then s.regs r &&& ~~~(T.clk c).mask
        else s.regs r ||| (T.clk c).mask)) := by
  refine ⟨rfl, ?_, fun k hk ↦ hT.sameGate_setReg hk he hr fun m hm ↦ ?_⟩
  · rw [Tree.On, Tree.Off, bits, hr, he]
    show if up = true then update s.regs r _ r &&& _ = _ else update s.regs r _ r &&& _ = _
    rw [update_self]
    cases up <;> cases (T.clk c).inverted <;>
      first | exact or_and_self | exact and_not_and_self
  · split
    · exact and_not_and_of_disjoint hm
    · exact or_and_of_disjoint hm

variable [DecidableEq ι] [DecidableEq ρ]

theorem Tree.Disjoint.switchOn (hT : T.Disjoint) (hc : (T.clk c).enable = false →
      (T.clk c).enableReg ≠ none ∧ (T.clk c).enableBitMask ≠ 0) :
    (T.switchOn s c).1 = 0 ∧ T.Switched true c s (T.switchOn s c).2 := by
  rw [Tree.switchOn]
  cases he : (T.clk c).enable with
  | true => exact ⟨rfl, switched_setOwn he⟩
  | false =>
    obtain ⟨hreg, hmask⟩ := hc he
    obtain ⟨r, hr⟩ := Option.ne_none_iff_exists'.1 hreg
    have hset : T.Switched true c s _ := hT.switched_setReg he hr
    simp only [hr, if_neg hmask]
    cases hi : (T.clk c).inverted <;> simpa [hi] using hset

theorem Tree.Gated.switchOn (hT : T.Gated) (hc : (T.clk c).always = false) :
    T.Switched true c s (T.switchOn s c).2 :=
  (Tree.Disjoint.switchOn hT.disjoint (hT.mask c hc)).2

theorem Tree.Gated.switchOff (hT : T.Gated) (hc : (T.clk c).always = false) :
    T.Switched false c s (T.switchOff s c) := by
  rw [Tree.switchOff, ← hT.paired c]
  cases he : (T.clk c).enable with
  | true => exact switched_setOwn he
  | false =>
    obtain ⟨hreg, hmask⟩ := hT.mask c hc he
    obtain ⟨r, hr⟩ := Option.ne_none_iff_exists'.1 hreg
    have hset : T.Switched false c s _ := Tree.Disjoint.switched_setReg hT.disjoint he hr
    simp only [hr, if_neg hmask]
    cases hi : (T.clk c).inverted <;> simpa [hi] using hset

end Switch

/-! ### Counts -/

section Counts

variable [DecidableEq ι]

/-- Whether a clock with this count is in use. -/
def share (n : ℕ) : ℤ := if 0 < n then 1 else 0

theorem share_of_pos {n : ℕ} (h : 0 < n) : share n = 1 := if_pos h

/-- The number of children of a clock that are in use. -/
def Tree.users [Fintype ι] (T : Tree ι ρ) (s : State ι ρ) (c : ι) : ℕ :=
  (Finset.univ.filter fun k ↦ (T.clk k).parent = some c ∧ 0 < s.cnt k).card

/-- What a clock whose count becomes `n` adds to the users of its parent. -/
def Tree.owes (T : Tree ι ρ) (s : State ι ρ) (c : ι) (n : ℕ) (k : ι) : ℤ :=
  if (T.clk c).parent = some k then share n - share (s.cnt c) else 0

theorem Tree.users_eq_sum [Fintype ι] (T : Tree ι ρ) (s : State ι ρ) (c : ι) :
    (T.users s c : ℤ) = ∑ k, if (T.clk k).parent = some c then share (s.cnt k) else 0 := by
  rw [users, Finset.card_filter]
  push_cast
  refine Finset.sum_congr rfl fun k _ ↦ ?_
  by_cases hp : (T.clk k).parent = some c
  · by_cases h : 0 < s.cnt k
    · rw [if_pos ⟨hp, h⟩, if_pos hp, share_of_pos h]
    · rw [if_neg (fun h' ↦ h h'.2), if_pos hp, share, if_neg h]
  · rw [if_neg (fun h' ↦ hp h'.1), if_neg hp]

theorem Tree.users_setCnt [Fintype ι] (T : Tree ι ρ) (s : State ι ρ) (c : ι) (n : ℕ) (k : ι) :
    (T.users (s.setCnt c n) k : ℤ) = T.users s k + T.owes s c n k := by
  rw [T.users_eq_sum, T.users_eq_sum,
    ← Finset.add_sum_erase _ (fun j ↦ if (T.clk j).parent = some k then share (s.cnt j) else 0)
      (Finset.mem_univ c),
    ← Finset.add_sum_erase _
      (fun j ↦ if (T.clk j).parent = some k then share ((s.setCnt c n).cnt j) else 0)
      (Finset.mem_univ c)]
  have hrest : ∀ j ∈ Finset.univ.erase c,
      (if (T.clk j).parent = some k then share ((s.setCnt c n).cnt j) else 0) =
        if (T.clk j).parent = some k then share (s.cnt j) else 0 := by grind [cnt_setCnt_of_ne]
  rw [Finset.sum_congr rfl hrest, cnt_setCnt_self, owes]
  split <;> omega

/-- **The count of every clock is its share plus the number of its children in use.** -/
def Tree.Settled [Fintype ι] (T : Tree ι ρ) (d : ι → ℤ) (s : State ι ρ) : Prop :=
  ∀ c, (T.clk c).always = false → (s.cnt c : ℤ) = d c + T.users s c

variable [Fintype ι] {d d' : ι → ℤ}

theorem Tree.Settled.congr (h : T.Settled d s) (hcnt : s'.cnt = s.cnt)
    (hd : ∀ k, (T.clk k).always = false → d' k = d k) : T.Settled d' s' := by
  intro k hk
  have husers : T.users s' k = T.users s k := by rw [users, users, hcnt]
  rw [hcnt, husers, hd k hk]
  exact h k hk

/-- A count changes, and the shares of the clock and of its parent with it. -/
theorem Tree.Settled.setCnt (h : T.Settled d s) (c : ι) (n : ℕ)
    (hd : ∀ k, (T.clk k).always = false →
      d' k = d k + (if k = c then (n : ℤ) - s.cnt c else 0) - T.owes s c n k) :
    T.Settled d' (s.setCnt c n) := by
  intro k hk
  rw [T.users_setCnt, hd k hk]
  have hold := h k hk
  by_cases hkc : k = c
  · subst hkc
    rw [cnt_setCnt_self, if_pos rfl]
    omega
  · rw [cnt_setCnt_of_ne _ hkc, if_neg hkc]
    omega

end Counts

/-! ### Enabling -/

/-- There is room for another user: the count that stops the climb is not at its end. -/
inductive Tree.Room (T : Tree ι ρ) (s : State ι ρ) : ι → Prop
  | always {c : ι} : (T.clk c).always = true → Room T s c
  | counted {c : ι} : 0 < s.cnt c → s.cnt c + 1 < 2 ^ 8 → Room T s c
  | root {c : ι} : s.cnt c = 0 → (T.clk c).parent = none → Room T s c
  | up {c p : ι} : s.cnt c = 0 → (T.clk c).parent = some p → Room T s p → Room T s c

theorem Tree.Room.of_zero (h : T.Room s c) (hc : (T.clk c).always = false) (hz : s.cnt c = 0)
    (hp : (T.clk c).parent = some p) : T.Room s p := by
  cases h with
  | always ha => rw [hc] at ha; cases ha
  | counted hpos _ => omega
  | root _ hpar => rw [hpar] at hp; cases hp
  | up _ hpar hroom => exact Option.mem_unique hpar hp ▸ hroom

theorem Tree.Room.lt_of_pos (h : T.Room s c) (hc : (T.clk c).always = false) (hpos : 0 < s.cnt c) :
    s.cnt c + 1 < 2 ^ 8 := by
  cases h with
  | always ha => rw [hc] at ha; cases ha
  | counted _ hlt => exact hlt
  | root hz _ => omega
  | up hz _ _ => omega

theorem Tree.Room.setCnt_one [DecidableEq ι] (hk : T.Room s k) : T.Room (s.setCnt c 1) k := by
  have hcnt : ∀ j, j ≠ c → (s.setCnt c 1).cnt j = s.cnt j := fun j hj ↦ s.cnt_setCnt_of_ne hj _
  have hself : T.Room (s.setCnt c 1) c := by
    have h1 := s.cnt_setCnt_self c 1
    exact .counted (by rw [h1]; decide) (by rw [h1]; decide)
  induction hk with
  | always h => exact .always h
  | @counted j hpos hlt =>
    by_cases hj : j = c
    · exact hj ▸ hself
    · exact .counted (by rwa [hcnt j hj]) (by rwa [hcnt j hj])
  | @root j hzero hpar =>
    by_cases hj : j = c
    · exact hj ▸ hself
    · exact .root (by rwa [hcnt j hj]) hpar
  | @up j p hzero hpar _ ih =>
    by_cases hj : j = c
    · exact hj ▸ hself
    · exact .up (by rwa [hcnt j hj]) hpar ih

section Moves

variable [DecidableEq ι] [DecidableEq ρ] {up : Bool}

/-- What a user more (`up`), or one less, adds to a count. -/
def delta (up : Bool) : ℤ := if up then 1 else -1

/-- **What the two functions do**: nothing, or the count of the clock moves, or the clock comes
into use, or goes out of use; then its parent has moved before its gate is switched. -/
inductive Tree.Moved (T : Tree ι ρ) (up : Bool) : ι → State ι ρ → State ι ρ → Prop
  | skip {c : ι} {s : State ι ρ} : (T.clk c).always = true ∨ up = false ∧ s.cnt c = 0 →
      Moved T up c s s
  | count {c : ι} {s : State ι ρ} {n : ℕ} : 0 < s.cnt c → 0 < n → (n : ℤ) = s.cnt c + delta up →
      Moved T up c s (s.setCnt c n)
  | root {c : ι} {s s' : State ι ρ} : s.cnt c = (!up).toNat → (T.clk c).parent = none →
      T.Switched up c (s.setCnt c up.toNat) s' → Moved T up c s s'
  | climb {c p : ι} {s s₁ s' : State ι ρ} : s.cnt c = (!up).toNat → (T.clk c).parent = some p →
      Moved T up p (s.setCnt c up.toNat) s₁ → T.Switched up c s₁ s' → Moved T up c s s'

/-- There is room, so the count does not wrap around. -/
theorem Tree.Gated.rawClkEnable (hT : T.Gated) (h : T.Room s c) :
    T.Moved true c s (T.rawClkEnable s c).2 := by
  induction c using T.acyclic.induction generalizing s with
  | _ c ih =>
    rw [rawClkEnable]
    cases hc : (T.clk c).always with
    | true => exact .skip (.inl hc)
    | false =>
      by_cases hz : s.cnt c = 0
      · have hone : (s.cnt c + 1) % 2 ^ 8 = 1 := by omega
        simp only [Bool.false_eq_true, if_false, if_pos hz, hone]
        split
        · next p hp =>
          split
          · next hpa => exact .climb hz hp (.skip (.inl hpa)) (hT.switchOn hc)
          · exact .climb hz hp (ih p hp (h.of_zero hc hz hp).setCnt_one) (hT.switchOn hc)
        · next hp => exact .root hz hp (hT.switchOn hc)
      · have hpos := Nat.pos_of_ne_zero hz
        simp only [if_neg hz, Nat.mod_eq_of_lt (h.lt_of_pos hc hpos)]
        exact .count hpos (Nat.succ_pos _) (Int.natCast_succ _)

theorem Tree.Gated.rawClkDisable (hT : T.Gated) : T.Moved false c s (T.rawClkDisable s c) := by
  induction c using T.acyclic.induction generalizing s with
  | _ c ih =>
    rw [rawClkDisable]
    cases hc : (T.clk c).always with
    | true => exact .skip (.inl hc)
    | false =>
      by_cases hpos : 0 < s.cnt c
      · by_cases hz : s.cnt c - 1 = 0
        · have hone : s.cnt c = 1 := by omega
          simp only [Bool.false_eq_true, if_false, if_pos hpos, if_pos hz]
          rw [hz]
          split
          · next p hp =>
            split
            · next hpa => exact .climb hone hp (.skip (.inl hpa)) (hT.switchOff hc)
            · exact .climb hone hp (ih p hp) (hT.switchOff hc)
          · next hp => exact .root hone hp (hT.switchOff hc)
        · simp only [if_pos hpos, if_neg hz]
          exact .count hpos (Nat.pos_of_ne_zero hz) (by rw [delta, if_neg (by decide)]; omega)
      · simp only [if_neg hpos]
        exact .skip (.inr ⟨rfl, Nat.eq_zero_of_not_pos hpos⟩)

omit [DecidableEq ρ] in
/-- All counts move the same way. -/
theorem Tree.Moved.cnt_mono (h : T.Moved up c s s') (k : ι) :
    (up = true → s.cnt k ≤ s'.cnt k) ∧ (up = false → s'.cnt k ≤ s.cnt k) := by
  induction h with
  | skip => exact ⟨fun _ ↦ le_rfl, fun _ ↦ le_rfl⟩
  | @count c s n hpos hn heq =>
    by_cases hk : k = c
    · grind [delta, cnt_setCnt_self]
    · rw [cnt_setCnt_of_ne _ hk]
      exact ⟨fun _ ↦ le_rfl, fun _ ↦ le_rfl⟩
  | @root c s s' hcnt hp hsw =>
    rw [hsw.cnt]
    by_cases hk : k = c
    · grind [cnt_setCnt_self]
    · grind [cnt_setCnt_of_ne]
  | @climb c p s s₁ s' hcnt hp _ hsw ih =>
    rw [hsw.cnt]
    by_cases hk : k = c
    · grind [cnt_setCnt_self]
    · grind [cnt_setCnt_of_ne]

omit [DecidableEq ρ] in
/-- A clock comes into use, or goes out of use, which its parent has not counted yet. -/
theorem Tree.Settled.turn [Fintype ι] {d : ι → ℤ} (h : T.Settled d s)
    (hcnt : s.cnt c = (!up).toNat) :
    T.Settled (d + Pi.single c (delta up) - fun k ↦ if (T.clk c).parent = some k then
      delta up else 0)
      (s.setCnt c up.toNat) := by
  refine h.setCnt c _ fun k _ ↦ ?_
  rw [Pi.sub_apply, Pi.add_apply, Pi.single_apply, owes, hcnt]
  cases up <;> rfl

omit [DecidableEq ρ] in
/-- **The clock has one user more, or one less.** -/
theorem Tree.Settled.moved [Fintype ι] {d : ι → ℤ} (h : T.Moved up c s s') (hset : T.Settled d s)
    (hd : up = false → (∀ k, 0 ≤ d k) ∧ 1 ≤ d c) : T.Settled (d + Pi.single c (delta up)) s' := by
  induction h generalizing d with
  | @skip c s hc =>
    have hc : (T.clk c).always = true := by
      rcases hc with hc | ⟨hup, hz⟩
      · exact hc
      · by_contra hne
        have := hset c (by simpa using hne)
        have := (hd hup).2
        omega
    refine hset.congr rfl fun k hk ↦ ?_
    rw [Pi.add_apply, Pi.single_apply, if_neg (by rintro rfl; rw [hc] at hk; cases hk), add_zero]
  | count hpos hn heq =>
    refine hset.setCnt _ _ fun k _ ↦ ?_
    rw [Pi.add_apply, Pi.single_apply, owes, share_of_pos hpos, share_of_pos hn, sub_self, ite_self]
    split <;> omega
  | root hcnt hp hsw =>
    refine (hset.turn hcnt).congr hsw.cnt fun k _ ↦ ?_
    rw [Pi.sub_apply, hp, if_neg (by simp), sub_zero]
  | @climb c p s s₁ s' hcnt hp _ hsw ih =>
    refine (ih (hset.turn hcnt) fun hup ↦ ?_).congr hsw.cnt fun k _ ↦ ?_
    · grind [delta, Pi.sub_apply, Pi.add_apply]
    · grind [Pi.sub_apply, Pi.add_apply]

/-- The gate of a clock is open exactly when the clock is in use. -/
def Tree.Fits (T : Tree ι ρ) (s : State ι ρ) (c : ι) : Prop :=
  (0 < s.cnt c → T.On s c) ∧ (s.cnt c = 0 → T.Off s c)

omit [DecidableEq ι] [DecidableEq ρ] in
theorem Tree.Fits.congr (h : T.Fits s k) (hcnt : 0 < s'.cnt k ↔ 0 < s.cnt k)
    (hgate : T.SameGate s s' k) : T.Fits s' k := by
  refine ⟨fun hpos ↦ hgate.iff.1.2 (h.1 (hcnt.1 hpos)), fun hz ↦ hgate.iff.2.2 (h.2 ?_)⟩
  by_contra hne
  exact absurd (hcnt.2 (Nat.pos_of_ne_zero hne)) (by omega)

omit [DecidableEq ρ] in
theorem Tree.sameGate_setCnt (n : ℕ) : T.SameGate s (s.setCnt c n) k := by
  rw [Tree.SameGate]
  split <;> rfl

omit [DecidableEq ρ] in
theorem Tree.Fits.setCnt {n : ℕ} (h : T.Fits s k) (hn : k = c → (0 < n ↔ 0 < s.cnt c)) :
    T.Fits (s.setCnt c n) k := by
  refine h.congr ?_ (sameGate_setCnt _)
  by_cases hk : k = c
  · subst hk
    rw [cnt_setCnt_self, hn rfl]
  · rw [cnt_setCnt_of_ne _ hk]

omit [DecidableEq ι] [DecidableEq ρ] in
/-- The gate is switched last; until then only this clock is not right. -/
theorem Tree.Switched.fits (h : T.Switched up c s s') (hcnt : 0 < s.cnt c ↔ up = true)
    (hother : k ≠ c → T.Fits s k) : T.Fits s' k := by
  by_cases hk : k = c
  · subst hk
    have hgate := h.gate
    rw [Tree.Fits, h.cnt]
    cases up with
    | true => exact ⟨fun _ ↦ hgate, fun h0 ↦ absurd h0 (hcnt.2 rfl).ne'⟩
    | false => exact ⟨fun hpos ↦ absurd (hcnt.1 hpos) (by decide), fun _ ↦ hgate⟩
  · exact (hother hk).congr (by rw [h.cnt]) (h.others k hk)

omit [DecidableEq ρ] in
/-- **What is right about the gates stays right.** -/
theorem Tree.Fits.moved (h : T.Moved up c s s') (hfit : T.Fits s k) : T.Fits s' k := by
  induction h with
  | skip => exact hfit
  | count hpos hn => exact hfit.setCnt fun _ ↦ ⟨fun _ ↦ hpos, fun _ ↦ hn⟩
  | root _ _ hsw =>
    refine hsw.fits ?_ fun hk ↦ hfit.setCnt (absurd · hk)
    rw [cnt_setCnt_self]
    cases up <;> decide
  | @climb c _ s _ _ _ _ hm hsw ih =>
    refine hsw.fits ?_ fun hk ↦ ih (hfit.setCnt (absurd · hk))
    have := hm.cnt_mono c
    rw [cnt_setCnt_self] at this
    cases up <;> grind

end Moves

/-! ### Runs -/

section Runs

variable [Fintype ι] [DecidableEq ι] [DecidableEq ρ]

/-- All clocks are off. -/
structure Tree.AllOff (T : Tree ι ρ) (u : Usage ι ρ) : Prop where
  cnt : ∀ c, u.clocks.cnt c = 0
  direct : ∀ c, u.direct c = 0
  off : ∀ c, (T.clk c).always = false → T.Off u.clocks c

/-- Drivers that leave room in the counts. -/
def carefulMachine (T : Tree ι ρ) : Machine (Usage ι ρ) (ClkOp ι) where
  guard u op :=
    match op with
    | .enable (some c) => T.Room u.clocks c
    | .disable (some c) => 0 < u.direct c
    | .enable none | .disable none => True
  exec := Usage.step T

/-- The direct users are the shares of the clocks, and the gates fit. -/
structure Tree.Sound (T : Tree ι ρ) (u : Usage ι ρ) : Prop where
  settled : T.Settled (fun c ↦ u.direct c) u.clocks
  fits : ∀ c, (T.clk c).always = false → T.Fits u.clocks c

variable {u : Usage ι ρ}

omit [DecidableEq ρ] in
theorem Tree.AllOff.sound (h : T.AllOff u) : T.Sound u := by
  refine ⟨fun c _ ↦ ?_, fun c hc ↦ ⟨fun hpos ↦ absurd (h.cnt c) hpos.ne', fun _ ↦ h.off c hc⟩⟩
  have husers : T.users u.clocks c = 0 := by
    rw [users, Finset.card_eq_zero, Finset.filter_eq_empty_iff]
    rintro k - ⟨-, hpos⟩
    exact absurd (h.cnt k) hpos.ne'
  show (u.clocks.cnt c : ℤ) = (u.direct c : ℤ) + (T.users u.clocks c : ℤ)
  rw [h.cnt c, h.direct c, husers]
  rfl

/-- One call keeps it. -/
theorem Tree.Sound.step (hT : T.Gated) (h : T.Sound u) (op : ClkOp ι)
    (hguard : (carefulMachine T).guard u op) : T.Sound (u.step T op) := by
  match op, hguard with
  | .enable none, _ => exact h
  | .disable none, _ => exact h
  | .enable (some c), hroom =>
    have hmoved := hT.rawClkEnable hroom
    refine ⟨(h.settled.moved hmoved nofun).congr rfl fun k _ ↦ ?_, fun k hk ↦
      (h.fits k hk).moved hmoved⟩
    rw [Pi.add_apply, Pi.single_apply]
    show ((update u.direct c (u.direct c + 1) k : ℕ) : ℤ) = _
    by_cases hkc : k = c
    · grind [delta]
    · rw [update_of_ne hkc, if_neg hkc, add_zero]
  | .disable (some c), hpos =>
    have hpos : 0 < u.direct c := hpos
    have hmoved := hT.rawClkDisable (s := u.clocks) (c := c)
    refine ⟨(h.settled.moved hmoved fun _ ↦ ⟨fun k ↦ Int.natCast_nonneg _, by omega⟩).congr rfl
      fun k _ ↦ ?_, fun k hk ↦ (h.fits k hk).moved hmoved⟩
    rw [Pi.add_apply, Pi.single_apply]
    show ((update u.direct c (u.direct c - 1) k : ℕ) : ℤ) = _
    by_cases hkc : k = c
    · grind [delta]
    · rw [update_of_ne hkc, if_neg hkc, add_zero]

/-- A clock feeds another one: its parent is not always enabled. -/
def Tree.FedBy (T : Tree ι ρ) (c p : ι) : Prop :=
  (T.clk c).parent = some p ∧ (T.clk p).always = false

omit [DecidableEq ρ] in
theorem Tree.Sound.cnt_eq (h : T.Sound u) (hc : (T.clk c).always = false) :
    u.clocks.cnt c = u.direct c + T.users u.clocks c := by
  have : (u.clocks.cnt c : ℤ) = (u.direct c : ℤ) + T.users u.clocks c := h.settled c hc
  exact_mod_cast this

omit [DecidableEq ρ] in
/-- What is in use is fed by what is in use. -/
theorem Tree.Sound.cnt_pos_of_fedBy (h : T.Sound u) (hc : 0 < u.clocks.cnt c)
    (hp : T.FedBy c p) : 0 < u.clocks.cnt p := by
  have huser : 0 < T.users u.clocks p := by
    refine Finset.card_pos.2 ⟨c, ?_⟩
    rw [Finset.mem_filter]
    exact ⟨Finset.mem_univ c, hp.1, hc⟩
  rw [h.cnt_eq hp.2]
  exact Nat.lt_of_lt_of_le huser (Nat.le_add_left ..)

omit [DecidableEq ρ] in
theorem Tree.Sound.on_iff (hT : T.Gated) (h : T.Sound u)
    (hc : (T.clk c).always = false) : T.On u.clocks c ↔ 0 < u.clocks.cnt c := by
  refine ⟨fun hon ↦ Nat.pos_of_ne_zero fun hz ↦ ?_, (h.fits c hc).1⟩
  exact hT.not_on_and_off hc hon ((h.fits c hc).2 hz)

/-- **The clock tree is counted right**, as long as the counts have room: every clock that is not
always enabled counts its direct users and its children in use, its gate is open exactly when it
is in use, and so is the gate of everything that feeds it. -/
theorem clocks_counted (hT : T.Gated) {u v : Usage ι ρ} (hu : T.AllOff u) {ops : List (ClkOp ι)}
    (hrun : (carefulMachine T).Runs u ops v) :
    ∀ c, (T.clk c).always = false → v.clocks.cnt c = v.direct c + T.users v.clocks c ∧
      (T.On v.clocks c ↔ 0 < v.clocks.cnt c) ∧
      (T.On v.clocks c → ∀ p, Relation.ReflTransGen T.FedBy c p → T.On v.clocks p) := by
  have hsound : T.Sound v := hrun.invariant (fun u op h hg ↦ h.step hT op hg) hu.sound
  intro c hc
  refine ⟨hsound.cnt_eq hc, hsound.on_iff hT hc, fun hon p hfed ↦ ?_⟩
  have huse : (T.clk p).always = false ∧ 0 < v.clocks.cnt p := by
    induction hfed with
    | refl => exact ⟨hc, (hsound.on_iff hT hc).1 hon⟩
    | tail _ hlast ih => exact ⟨hlast.2, hsound.cnt_pos_of_fedBy ih.2 hlast⟩
  exact (hsound.on_iff hT huse.1).2 huse.2

end Runs

/-- A clock (`true`) and its parent, in one register. -/
def pairTree : Tree Bool Unit where
  clk
    | true => ⟨0, some false, false, false, some (), 1⟩
    | false => ⟨0, none, false, false, some (), 2⟩
  acyclic := by
    have hroot : Acc (fun p c : Bool ↦ (match c with
        | true => (⟨0, some false, false, false, some (), 1⟩ : Clk Bool Unit)
        | false => ⟨0, none, false, false, some (), 2⟩).parent = some p) false :=
      ⟨_, fun p hp ↦ by cases hp⟩
    refine ⟨fun c ↦ ?_⟩
    cases c with
    | false => exact hroot
    | true =>
      refine ⟨_, fun p hp ↦ ?_⟩
      cases hp
      exact hroot

/-- Nobody uses a clock. -/
def unused {ι ρ : Type*} : Usage ι ρ := ⟨⟨fun _ ↦ 0, fun _ ↦ 0, fun _ ↦ false⟩, fun _ ↦ 0⟩

theorem pairTree_gated : pairTree.Gated := by
  refine ⟨fun c ↦ ?_, fun c _ _ ↦ ?_, fun c k hck _ _ _ ↦ ?_⟩
  · cases c <;> rfl
  · cases c <;> exact ⟨by simp [pairTree], by decide⟩
  · cases c <;> cases k <;> first | exact absurd rfl hck | decide

theorem pairTree_enable : (pairTree.rawClkEnable unused.clocks true).2.cnt false = 1 := by
  have hroot : pairTree.rawClkEnable (unused.clocks.setCnt true 1) false =
      pairTree.switchOn ((unused.clocks.setCnt true 1).setCnt false 1) false := by
    rw [rawClkEnable]
    rfl
  have hchild : pairTree.rawClkEnable unused.clocks true =
      pairTree.switchOn (pairTree.rawClkEnable (unused.clocks.setCnt true 1) false).2 true := by
    rw [rawClkEnable]
    rfl
  rw [hchild, hroot]
  rfl

/-- The clock is enabled, then its parent, and the clock is disabled. -/
theorem clocks_counted_pair : ∃ v, (carefulMachine pairTree).Runs unused
      [.enable (some true), .enable (some false), .disable (some true)] v ∧
    v.clocks.cnt false = v.direct false + pairTree.users v.clocks false ∧
    (pairTree.On v.clocks false ↔ 0 < v.clocks.cnt false) := by
  have hoff : pairTree.AllOff unused := by
    refine ⟨fun _ ↦ rfl, fun _ ↦ rfl, fun c _ ↦ ?_⟩
    cases c <;> rfl
  have hroom : pairTree.Room (pairTree.rawClkEnable unused.clocks true).2 false :=
    .counted (by rw [pairTree_enable]; decide) (by rw [pairTree_enable]; decide)
  have hrun : (carefulMachine pairTree).Permitted unused
      [.enable (some true), .enable (some false), .disable (some true)] :=
    ⟨.up rfl rfl (.root rfl rfl), hroom, Nat.one_pos, trivial⟩
  obtain ⟨hcnt, hgate, -⟩ := clocks_counted pairTree_gated hoff hrun.runs false rfl
  exact ⟨_, hrun.runs, hcnt, hgate⟩

/-- A clock without a parent. -/
def loneClock : Tree Unit Unit where
  clk _ := ⟨0, none, false, false, some (), 1⟩
  acyclic := ⟨fun _ ↦ ⟨_, nofun⟩⟩

theorem loneClock_gated : loneClock.Gated := by
  refine ⟨fun _ ↦ rfl, fun _ _ _ ↦ ⟨by simp [loneClock], by simp [loneClock]⟩, fun c k hck ↦ ?_⟩
  exact absurd rfl hck

theorem loneClock_enable (s : State Unit Unit) :
    (loneClock.rawClkEnable s ()).2.cnt () = (s.cnt () + 1) % 2 ^ 8 ∧
      (s.cnt () = 0 ∨ loneClock.On s () → loneClock.On (loneClock.rawClkEnable s ()).2 ()) := by
  rw [rawClkEnable]
  by_cases hz : s.cnt () = 0
  · rw [if_pos hz]
    have hsw := loneClock_gated.switchOn (s := s.setCnt () ((s.cnt () + 1) % 2 ^ 8)) (c := ()) rfl
    exact ⟨(congrFun hsw.cnt _).trans (s.cnt_setCnt_self ..), fun _ ↦ hsw.gate⟩
  · rw [if_neg hz]
    exact ⟨s.cnt_setCnt_self .., fun hon ↦ (sameGate_setCnt _).iff.1.2 (hon.resolve_left hz)⟩

/-- **The count of a clock wraps around**: its `256`th user makes it `0`, with the gate open. -/
theorem count_wraps_around : loneClock.Gated ∧ loneClock.AllOff unused ∧
    ∃ v, (clockMachine loneClock).Runs unused (List.replicate 256 (.enable (some ()))) v ∧
      v.clocks.cnt () = 0 ∧ v.direct () = 256 ∧ loneClock.On v.clocks () := by
  refine ⟨loneClock_gated, ⟨fun _ ↦ rfl, fun _ ↦ rfl, fun c _ ↦ ?_⟩, ?_⟩
  · cases c
    rfl
  have hmany : ∀ n, ∃ v, (clockMachine loneClock).Runs unused
      (List.replicate n (.enable (some ()))) v ∧ v.clocks.cnt () = n % 2 ^ 8 ∧ v.direct () = n ∧
      (n = 0 ∨ loneClock.On v.clocks ()) := by
    intro n
    induction n with
    | zero => exact ⟨_, .nil _, rfl, rfl, .inl rfl⟩
    | succ n ih =>
      obtain ⟨v, hrun, hcnt, hdirect, hon⟩ := ih
      obtain ⟨hcnt', hon'⟩ := loneClock_enable v.clocks
      rw [List.replicate_succ']
      refine ⟨_, hrun.snoc trivial, hcnt'.trans ?_, ?_, .inr (hon' ?_)⟩
      · rw [hcnt, Nat.add_mod, Nat.mod_mod, ← Nat.add_mod]
      · show update v.direct () (v.direct () + 1) () = n + 1
        rw [update_self, hdirect]
      · grind
  obtain ⟨v, hrun, hcnt, hdirect, hon⟩ := hmany 256
  exact ⟨v, hrun, hcnt, hdirect, hon.resolve_left (by decide)⟩

end Clock
