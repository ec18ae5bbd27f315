import Mathlib.Algebra.Order.Ring.Abs
import Mathlib.Algebra.Order.Ring.Int
import Mathlib.Tactic.Linarith
import Mathlib.Tactic.LinearCombination
import Mathlib.Tactic.Ring

/-!
# Rational approximation

`rational_best_approximation` runs through the convergents of a fraction and returns the last one
within the limits. Between that one and the next there are intermediate fractions, which it does
not try: it is right exactly if none of them that is within the limits is closer. The first
convergent is the integral part; if that is beyond the limits, the denominator returned is zero.
-/

namespace Rational

/-- The variables of the loop. -/
structure Round where
  n : ℕ
  d : ℕ
  n0 : ℕ
  d0 : ℕ
  n1 : ℕ
  d1 : ℕ

/-- The assignments of a round, in `w` bits. -/
def Round.next (w : ℕ) (r : Round) : Round where
  n := r.d
  d := r.n % r.d
  n0 := r.n1
  d0 := r.d1
  n1 := (r.n0 + r.n / r.d * r.n1) % 2 ^ w
  d1 := (r.d0 + r.n / r.d * r.d1) % 2 ^ w

/-- The test at the head of the loop. -/
abbrev Round.Exceeds (maxN maxD : ℕ) (r : Round) : Prop := maxN < r.n1 ∨ maxD < r.d1

/-- The loop, from a round on. -/
def loop (w maxN maxD : ℕ) (r : Round) : ℕ × ℕ :=
  if r.Exceeds maxN maxD then (r.n0, r.d0)
  else if _h : r.d = 0 then (r.n1, r.d1)
  else loop w maxN maxD (r.next w)
termination_by r.d
decreasing_by exact Nat.mod_lt _ (Nat.pos_of_ne_zero _h)

/-- `rational_best_approximation`. -/
def rationalBestApproximation (w givenNumerator givenDenominator maxNumerator maxDenominator : ℕ) :
    ℕ × ℕ :=
  loop w maxNumerator maxDenominator ⟨givenNumerator, givenDenominator, 0, 1, 1, 0⟩

/-! ### Continued fractions -/

/-- The partial quotients of `n / d`. -/
def quotients (n d : ℕ) : List ℕ :=
  if _h : d = 0 then [] else n / d :: quotients d (n % d)
termination_by d
decreasing_by exact Nat.mod_lt _ (Nat.pos_of_ne_zero _h)

/-- The value of a continued fraction, as numerator and denominator. -/
def fraction : List ℕ → ℕ × ℕ
  | [] => (1, 0)
  | a :: l => (a * (fraction l).1 + (fraction l).2, (fraction l).1)

/-- The first `k` partial quotients of `N / D`. -/
def partialQuotients (N D k : ℕ) : List ℕ := (quotients N D).take k

variable {w N D maxN maxD k : ℕ} {r : Round} {l : List ℕ}

/-- The fraction `u / v` is closer to `N / D` than `p / q`, multiplied out. -/
def Closer (N D u v p q : ℕ) : Prop :=
  |(N * v - D * u : ℤ)| * q < |(N * q - D * p : ℤ)| * v

/-- A fraction within the limits to which none is closer. -/
structure Best (N D maxN maxD : ℕ) (f : ℕ × ℕ) : Prop where
  le : f.1 ≤ maxN
  pos : 1 ≤ f.2
  le' : f.2 ≤ maxD
  not_closer : ∀ u v, u ≤ maxN → 1 ≤ v → v ≤ maxD → ¬ Closer N D u v f.1 f.2

/-- A fraction within the limits. -/
def Within (maxN maxD : ℕ) (f : ℕ × ℕ) : Prop := f.1 ≤ maxN ∧ f.2 ≤ maxD

/-- The convergent of `k` partial quotients is the last one within the limits. -/
structure LastWithin (N D maxN maxD k : ℕ) : Prop where
  le : k ≤ (quotients N D).length
  within : ∀ j ≤ k, Within maxN maxD (fraction (partialQuotients N D j))
  last : k < (quotients N D).length → ¬ Within maxN maxD (fraction (partialQuotients N D (k + 1)))

/-- There is one such convergent at most. -/
theorem LastWithin.forall_iff (h : LastWithin N D maxN maxD k) {P : ℕ → Prop} :
    (∀ j, LastWithin N D maxN maxD j → P j) ↔ P k := by
  have hle : ∀ {j k}, LastWithin N D maxN maxD j → LastWithin N D maxN maxD k → j ≤ k := by
    intro j k hj hk
    by_contra! hlt
    exact hk.last (hlt.trans_le hj.le) (hj.within (k + 1) hlt)
  refine ⟨fun hall ↦ hall k h, fun hk j hj ↦ ?_⟩
  rwa [(hle hj h).antisymm (hle h hj)]

/-- No intermediate fraction within the limits, with `t` in place of the next partial quotient, is
closer than the convergent. -/
def Passes (N D maxN maxD : ℕ) (l : List ℕ) : Prop :=
  ∀ t, Within maxN maxD (fraction (l ++ [t])) →
    ¬ Closer N D (fraction (l ++ [t])).1 (fraction (l ++ [t])).2 (fraction l).1 (fraction l).2

/-- The round after the partial quotients `l`. -/
structure Round.After (N D : ℕ) (l : List ℕ) (r : Round) : Prop where
  quotients_eq : quotients N D = l ++ quotients r.n r.d
  fraction_eq : ∀ m, fraction (l ++ m) = (r.n1 * (fraction m).1 + r.n0 * (fraction m).2,
    r.d1 * (fraction m).1 + r.d0 * (fraction m).2)

/-- What holds in each round. -/
structure Round.Sound (N D : ℕ) (r : Round) : Prop where
  num : N = r.n1 * r.n + r.n0 * r.d
  den : D = r.d1 * r.n + r.d0 * r.d
  det : (r.n1 * r.d0 - r.n0 * r.d1 : ℤ) = 1 ∨ (r.n1 * r.d0 - r.n0 * r.d1 : ℤ) = -1

/-- What holds from the second round on. -/
structure Round.Later (N D : ℕ) (r : Round) : Prop extends r.Sound N D where
  pos : 1 ≤ r.d1
  le : r.d0 ≤ r.d1
  lt : r.d < r.n

theorem Round.Sound.next_eq (h : r.Sound N D) (hN : N < 2 ^ w) (hD : D < 2 ^ w) (hd : r.d ≠ 0) :
    r.next w = ⟨r.d, r.n % r.d, r.n1, r.d1, r.n0 + r.n / r.d * r.n1, r.d0 + r.n / r.d * r.d1⟩ := by
  have hle : ∀ {x y z : ℕ}, z = y * r.n + x * r.d → z < 2 ^ w → x + r.n / r.d * y < 2 ^ w := by
    intro x y z hz hlt
    have hdiv : r.n / r.d * r.d ≤ r.n := Nat.div_mul_le_self ..
    have hpos : 1 ≤ r.d := Nat.pos_of_ne_zero hd
    nlinarith [Nat.mul_le_mul_left y hdiv]
  rw [Round.next, Nat.mod_eq_of_lt (hle h.num hN), Nat.mod_eq_of_lt (hle h.den hD)]

theorem Round.Sound.next (h : r.Sound N D) (hN : N < 2 ^ w) (hD : D < 2 ^ w) (hd : r.d ≠ 0)
    (hpos : 1 ≤ r.d0 + r.n / r.d * r.d1) (hle : r.d1 ≤ r.d0 + r.n / r.d * r.d1) :
    (r.next w).Later N D := by
  have hdiv := Nat.div_add_mod r.n r.d
  rw [h.next_eq hN hD hd]
  refine ⟨⟨?_, ?_, ?_⟩, hpos, hle, Nat.mod_lt _ (Nat.pos_of_ne_zero hd)⟩
  · linear_combination h.num + r.n1 * hdiv.symm
  · linear_combination h.den + r.d1 * hdiv.symm
  · push_cast
    rcases h.det with hdet | hdet
    · exact .inr (by linear_combination -hdet)
    · exact .inl (by linear_combination -hdet)

theorem Round.Later.next (h : r.Later N D) (hN : N < 2 ^ w) (hD : D < 2 ^ w) (hd : r.d ≠ 0) :
    (r.next w).Later N D := by
  have hone : 1 ≤ r.n / r.d := (Nat.one_le_div_iff (Nat.pos_of_ne_zero hd)).2 h.lt.le
  have hle : r.d1 ≤ r.n / r.d * r.d1 := Nat.le_mul_of_pos_left _ hone
  exact h.toSound.next hN hD hd (by have := h.pos; omega) (by omega)

/-- How far the convergent of a round is from the fraction given. -/
theorem Round.Sound.error (h : r.Sound N D) (x y : ℤ) :
    |N * (x * r.d1 + y * r.d0) - D * (x * r.n1 + y * r.n0)| = |y * r.n - x * r.d| := by
  have he : (N * (x * r.d1 + y * r.d0) - D * (x * r.n1 + y * r.n0) : ℤ) =
      (r.n1 * r.d0 - r.n0 * r.d1) * (y * r.n - x * r.d) := by
    rw [h.num, h.den]
    push_cast
    ring
  rw [he, abs_mul]
  rcases h.det with hdet | hdet <;> simp [hdet]

/-- The coordinates of a fraction in terms of two successive convergents. -/
theorem Round.Sound.coordinates (h : r.Sound N D) (u v : ℕ) :
    ∃ x y : ℤ, (u : ℤ) = x * r.n1 + y * r.n0 ∧ (v : ℤ) = x * r.d1 + y * r.d0 := by
  rcases h.det with hdet | hdet
  · exact ⟨u * r.d0 - v * r.n0, v * r.n1 - u * r.d1, by linear_combination -u * hdet,
      by linear_combination -v * hdet⟩
  · exact ⟨v * r.n0 - u * r.d0, u * r.d1 - v * r.n1, by linear_combination u * hdet,
      by linear_combination v * hdet⟩

/-- When a fraction is closer than the convergent of a round, by its coordinates. -/
theorem Round.Later.closer_iff (h : r.Later N D) {u v : ℕ} {x y : ℤ}
    (hu : (u : ℤ) = x * r.n1 + y * r.n0) (hv : (v : ℤ) = x * r.d1 + y * r.d0) :
    Closer N D u v r.n1 r.d1 ↔
      0 < y ∧ y * (r.n * r.d1) < r.d * (2 * (x * r.d1) + y * r.d0) := by
  have herr := h.error 1 0
  simp only [one_mul, zero_mul, add_zero, zero_sub, abs_neg, Nat.abs_cast] at herr
  have habs : |y * r.n - x * r.d| * r.d1 = |(y * r.n - x * r.d) * r.d1| := by
    rw [abs_mul, Nat.abs_cast]
  have hpos : (0 : ℤ) < r.n * r.d1 + r.d * r.d0 := by
    exact_mod_cast Nat.add_pos_left (Nat.mul_pos (Nat.zero_lt_of_lt h.lt) h.pos) _
  rw [Closer, hu, hv, h.error, herr, habs, abs_lt, ← mul_pos_iff_of_pos_right hpos]
  constructor
  · rintro ⟨hlow, hhigh⟩
    constructor <;> linarith
  · rintro ⟨hlow, hhigh⟩
    constructor <;> linarith

theorem Round.After.convergent (h : r.After N D l) : fraction l = (r.n1, r.d1) := by
  simpa [fraction] using h.fraction_eq []

theorem Round.After.intermediate (h : r.After N D l) (t : ℕ) :
    fraction (l ++ [t]) = (t * r.n1 + r.n0, t * r.d1 + r.d0) := by
  simpa [fraction, Nat.mul_comm] using h.fraction_eq [t]

/-- A round takes up one partial quotient. -/
theorem Round.After.next (h : r.After N D l) (hs : r.Sound N D) (hN : N < 2 ^ w) (hD : D < 2 ^ w)
    (hd : r.d ≠ 0) : (r.next w).After N D (l ++ [r.n / r.d]) := by
  rw [hs.next_eq hN hD hd]
  constructor
  · rw [h.quotients_eq, quotients, dif_neg hd, List.append_assoc]
    rfl
  · intro m
    rw [List.append_assoc, h.fraction_eq]
    simp only [List.singleton_append, fraction, Prod.mk.injEq]
    constructor <;> ring

/-- The convergent of a round is best if no intermediate fraction after it is closer: a fraction
that is closer has positive coordinates, and the intermediate one with its first coordinate is
closer too, and no larger. -/
theorem Round.Later.best_iff (h : r.Later N D) (ha : r.After N D l) (hr : ¬ r.Exceeds maxN maxD) :
    Best N D maxN maxD (r.n1, r.d1) ↔ Passes N D maxN maxD l := by
  obtain ⟨hn1, hd1⟩ := not_or.1 hr
  unfold Passes
  simp only [ha.intermediate, ha.convergent]
  constructor
  · rintro hbest t ⟨hn, hd⟩ hcloser
    refine hbest.not_closer _ _ hn (Nat.pos_of_ne_zero fun hzero ↦ ?_) hd hcloser
    -- no fraction with the denominator zero is closer
    simp only at hzero
    rw [Closer, hzero, Nat.cast_zero, mul_zero, mul_zero] at hcloser
    exact hcloser.not_ge (by positivity)
  · intro hpass
    refine ⟨not_lt.1 hn1, h.pos, not_lt.1 hd1, fun u v hun _ hvd hcloser ↦ ?_⟩
    obtain ⟨x, y, hu, hv⟩ := h.coordinates u v
    obtain ⟨hy, hlt⟩ := (h.closer_iff hu hv).1 hcloser
    have hprod : r.d * r.d0 ≤ r.n * r.d1 := Nat.mul_le_mul h.lt.le h.le
    have hx : 0 ≤ x := by
      by_contra! hx
      have : x * (r.d * r.d1) ≤ 0 := mul_nonpos_of_nonpos_of_nonneg hx.le (by positivity)
      have : y * (r.d * r.d0) ≤ y * (r.n * r.d1) := by
        gcongr ?_ * ?_
        exact_mod_cast hprod
      linarith
    lift x to ℕ using hx
    lift y to ℕ using hy.le
    norm_cast at hu hv hy hlt
    refine hpass x ⟨?_, ?_⟩ ((h.closer_iff (x := x) (y := 1) (by simp) (by simp)).2 ⟨one_pos, ?_⟩)
    · exact (by have := Nat.le_mul_of_pos_left r.n0 hy; omega)
    · exact (by have := Nat.le_mul_of_pos_left r.d0 hy; omega)
    · have := Nat.le_mul_of_pos_left (r.d * (x * r.d1)) hy
      norm_cast
      by_contra! hfar
      have := Nat.mul_le_mul_left y hfar
      linarith

/-- The convergents up to a round are within the limits. -/
def Reached (N D maxN maxD : ℕ) (l : List ℕ) : Prop :=
  ∀ j ≤ l.length, Within maxN maxD (fraction (partialQuotients N D j))

section

variable (ha : r.After N D l) (hreach : Reached N D maxN maxD l) (hs : r.Sound N D) (hN : N < 2 ^ w)
  (hD : D < 2 ^ w)

include ha

theorem Round.After.partialQuotients_length : partialQuotients N D l.length = l := by
  rw [partialQuotients, ha.quotients_eq, List.take_left]

include hreach

theorem Round.After.not_exceeds : ¬ r.Exceeds maxN maxD := by
  have hwithin := hreach l.length le_rfl
  rw [ha.partialQuotients_length, ha.convergent] at hwithin
  exact not_or.2 ⟨not_lt.2 hwithin.1, not_lt.2 hwithin.2⟩

include hs hN hD

omit hreach in
/-- The convergent after the next round. -/
theorem Round.After.convergent_succ (hd : r.d ≠ 0) :
    fraction (partialQuotients N D (l.length + 1)) = ((r.next w).n1, (r.next w).d1) := by
  have hafter := ha.next hs hN hD hd
  rw [← hafter.convergent, ← hafter.partialQuotients_length, List.length_append,
    List.length_singleton]

theorem Round.After.reached_next (hd : r.d ≠ 0) (hnext : ¬ (r.next w).Exceeds maxN maxD) :
    Reached N D maxN maxD (l ++ [r.n / r.d]) := by
  intro j hj
  rw [List.length_append, List.length_singleton] at hj
  rcases hj.lt_or_eq with hlt | rfl
  · exact hreach j (by omega)
  · rw [ha.convergent_succ hs hN hD hd]
    exact ⟨not_lt.1 (not_or.1 hnext).1, not_lt.1 (not_or.1 hnext).2⟩

/-- Where the loop ends. -/
theorem Round.After.lastWithin (hend : r.d ≠ 0 → (r.next w).Exceeds maxN maxD) :
    LastWithin N D maxN maxD l.length := by
  refine ⟨by simp [ha.quotients_eq], hreach, fun hlt hwithin ↦ ?_⟩
  have hd : r.d ≠ 0 := by
    intro hd
    rw [ha.quotients_eq, quotients, dif_pos hd, List.append_nil] at hlt
    exact hlt.false
  rw [ha.convergent_succ hs hN hD hd] at hwithin
  rcases hend hd with hn | hd
  · exact hn.not_ge hwithin.1
  · exact hd.not_ge hwithin.2

end

/-- The last convergent within the limits, where the loop ends. -/
theorem Round.Later.last_best_iff (h : r.Later N D) (ha : r.After N D l)
    (hreach : Reached N D maxN maxD l) (hN : N < 2 ^ w) (hD : D < 2 ^ w)
    (hend : r.d ≠ 0 → (r.next w).Exceeds maxN maxD) : Best N D maxN maxD (r.n1, r.d1) ↔
      ∀ k, LastWithin N D maxN maxD k → Passes N D maxN maxD (partialQuotients N D k) := by
  rw [(ha.lastWithin hreach h.toSound hN hD hend).forall_iff, ha.partialQuotients_length]
  exact h.best_iff ha (ha.not_exceeds hreach)

theorem Round.Later.loop_best_iff (h : r.Later N D) (ha : r.After N D l)
    (hreach : Reached N D maxN maxD l) (hN : N < 2 ^ w) (hD : D < 2 ^ w) :
    Best N D maxN maxD (loop w maxN maxD r) ↔
      ∀ k, LastWithin N D maxN maxD k → Passes N D maxN maxD (partialQuotients N D k) := by
  fun_induction loop w maxN maxD r generalizing l with
  | case1 r hexceeds => exact absurd hexceeds (ha.not_exceeds hreach)
  | case2 r _ hd => exact h.last_best_iff ha hreach hN hD fun hne ↦ absurd hd hne
  | case3 r _ hd ih =>
    by_cases hnext : (r.next w).Exceeds maxN maxD
    · rw [loop, if_pos hnext]
      exact h.last_best_iff ha hreach hN hD fun _ ↦ hnext
    · exact ih (h.next hN hD hd) (ha.next h.toSound hN hD hd)
        (ha.reached_next hreach h.toSound hN hD hd hnext)

/-- **When the approximation is best:** if no intermediate fraction after the last convergent within
the limits is closer than that one. -/
theorem rational_best_approximation_best_iff (hN : N < 2 ^ w) (hD : D < 2 ^ w) (hpos : 1 ≤ D)
    (hmaxN : 1 ≤ maxN) (hmaxD : 1 ≤ maxD) :
    Best N D maxN maxD (rationalBestApproximation w N D maxN maxD) ↔
      ∀ k, LastWithin N D maxN maxD k → Passes N D maxN maxD (partialQuotients N D k) := by
  have hsound : Round.Sound N D ⟨N, D, 0, 1, 1, 0⟩ := ⟨by simp, by simp, by simp⟩
  have hafter : Round.After N D [] ⟨N, D, 0, 1, 1, 0⟩ := ⟨rfl, by simp⟩
  have hreach : Reached N D maxN maxD [] := by
    intro j hj
    obtain rfl := Nat.le_zero.1 hj
    exact ⟨hmaxN, Nat.zero_le _⟩
  have hd : D ≠ 0 := by omega
  rw [rationalBestApproximation, loop, if_neg (hafter.not_exceeds hreach), dif_neg hd]
  by_cases hnext : (Round.next w ⟨N, D, 0, 1, 1, 0⟩).Exceeds maxN maxD
  · -- the integral part is beyond the limits
    rw [loop, if_pos hnext, (hafter.lastWithin hreach hsound hN hD fun _ ↦ hnext).forall_iff]
    refine iff_of_false (fun hbest ↦ absurd hbest.pos (by simp [Round.next])) fun hpass ↦ ?_
    refine hpass 0 ⟨Nat.zero_le _, hmaxD⟩ ?_
    simp [Closer, fraction, partialQuotients]
    omega
  · exact (hsound.next hN hD hd (by simp) (by simp)).loop_best_iff (hafter.next hsound hN hD hd)
      (hafter.reached_next hreach hsound hN hD hd hnext) hN hD

/-- The example of the source: the last convergent is `22 / 7`. -/
theorem rational_best_approximation_best_pi :
    Best 31415 10000 255 31 (rationalBestApproximation 32 31415 10000 255 31) := by
  have hquotients : quotients 31415 10000 = [3, 7, 14, 1, 8, 2] := by simp [quotients]
  have hlast : LastWithin 31415 10000 255 31 2 := by
    constructor
    · simp [hquotients]
    · unfold partialQuotients Within
      rw [hquotients]
      decide
    · simp [partialQuotients, hquotients, Within, fraction]
  rw [rational_best_approximation_best_iff (by decide) (by decide) (by decide) (by decide)
    (by decide), hlast.forall_iff, partialQuotients, hquotients]
  rintro t ⟨-, hd⟩
  have hle : t ≤ 4 := by
    simp [fraction] at hd
    omega
  have hfar : ∀ t ≤ 4, ¬ Closer 31415 10000 (fraction ([3, 7] ++ [t])).1
      (fraction ([3, 7] ++ [t])).2 22 7 := by
    unfold Closer
    decide
  exact hfar t hle

/-- With a numerator of at most one, `5 / 1` becomes `1 / 0`. With a denominator of at most two,
`3 / 10` becomes `0 / 1`, though `1 / 2` is closer. -/
theorem approximation_not_best : rationalBestApproximation 32 5 1 1 5 = (1, 0) ∧
    rationalBestApproximation 32 3 10 10 2 = (0, 1) ∧ Closer 3 10 1 2 0 1 := by
  simp [rationalBestApproximation, loop, Round.Exceeds, Round.next, Closer]

end Rational
