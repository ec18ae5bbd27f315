import Mathlib.Data.List.Nodup
import Mathlib.Order.Nat

/-!
# Nested calls between agents

Agents call one another and wait for the answer. While an agent waits it may be called itself,
from further down the same chain of calls, so that one agent may occur in a chain several times. A
call is one record, and two stacks run through it: that of its caller, by the link `outer` to what
the caller was working on when it called, and that of its callee, by the link `under` to what the
callee was waiting for when it took the call.

An agent may die at any time. All links between its stack and the rest are cut, on the caller's
side of the calls it made and on the callee's side of the calls it took; the calls themselves stay
until an answer comes back along the chain.

## What holds

`Calls.Sound` is an invariant of all operations. Its core is that **a chain is linear**: a call
has at most one call nested in it (`inner`). Whoever works on a call that has none nested in it is
the only one who can go on, and from this follows what an implementation has to check at run time:

* `Sound.top_of_bare` — a call with nothing nested in it is the topmost one of its caller;
* `Sound.call`, `Sound.take`, `Sound.finish`, `Sound.discard`, `Sound.die` — the operations.
-/

/-- The stack that starts at a record and goes on by `next`, which is undefined on a record that is
not part of it, visits the list `l`. -/
inductive Linked (next : ℕ → Option (Option ℕ)) : Option ℕ → List ℕ → Prop
  | nil : Linked next none []
  | cons {t : ℕ} {o : Option ℕ} {l : List ℕ} :
      next t = some o → Linked next o l → Linked next (some t) (t :: l)

namespace Linked

variable {next next' : ℕ → Option (Option ℕ)} {o : Option ℕ} {l : List ℕ} {t : ℕ}

variable (h : Linked next o l)
include h

/-- A stack depends on the links of its own records only. -/
theorem congr (hnext : ∀ t ∈ l, next' t = next t) : Linked next' o l := by
  induction h with
  | nil => exact .nil
  | cons ht _ ih =>
    exact .cons ((hnext _ (by simp)).trans ht) (ih fun u hu ↦ hnext u (by simp [hu]))

theorem eq_of_top {l' : List ℕ} (h' : Linked next o l') : l = l' := by
  induction h generalizing l' with
  | nil => cases h'; rfl
  | cons ht _ ih =>
    cases h' with
    | cons ht' h' => grind

theorem next_isSome (ht : t ∈ l) : ∃ o', next t = some o' := by
  induction h with
  | nil => simp at ht
  | @cons u o' l hu _ ih => grind

/-- A stack is closed under its links. -/
theorem next_mem (ht : t ∈ l) {u : ℕ} (hu : next t = some (some u)) : u ∈ l := by
  induction h with
  | nil => simp at ht
  | @cons v o' l hv hl ih =>
    rcases List.mem_cons.1 ht with rfl | ht
    · cases hv.symm.trans hu
      cases hl
      simp
    · exact List.mem_cons_of_mem _ (ih ht)

/-- What is not topmost is linked to from above. -/
theorem eq_top_or_above (ht : t ∈ l) : o = some t ∨ ∃ u ∈ l, next u = some (some t) := by
  induction h with
  | nil => simp at ht
  | @cons v o' l hv hl ih => grind

/-- Along links that go down in some order, everything on a stack is the topmost record or below
it. -/
theorem rel_top {r : ℕ → ℕ → Prop}
    (hr : ∀ u v, next u = some (some v) → r v u) (htrans : ∀ u v w, r u v → r v w → r u w)
    {v : ℕ} (ho : o = some v) (ht : t ∈ l) : t = v ∨ r t v := by
  induction h generalizing v with
  | nil => simp at ht
  | @cons u o' l hu hl ih =>
    cases ho
    rcases List.mem_cons.1 ht with rfl | ht
    · exact .inl rfl
    · cases hl with
      | nil => simp at ht
      | @cons w o'' l hw hl => grind

end Linked

/-- A call, as the two agents see it. -/
structure CallLink (θ : Type*) where
  /-- Who called, `none` once it is dead. -/
  caller : Option θ
  /-- What the caller was working on. -/
  outer : Option ℕ
  /-- Who took the call, or is meant to take it. -/
  callee : Option θ
  /-- What the callee was waiting for. -/
  under : Option ℕ

/-- **The calls in progress.** -/
structure Calls (θ : Type*) where
  link : ℕ → Option (CallLink θ)
  /-- The agents alive, with the topmost call of each. -/
  top : θ → Option (Option ℕ)
  /-- The calls that nobody has taken yet. -/
  pending : ℕ → Prop

namespace Calls

open Relation Function

variable {θ : Type*} [DecidableEq θ] {c : Calls θ} {t u v w : ℕ} {a b : θ} {L : CallLink θ}
  {l : List ℕ}

/-- The next call down on the stack of an agent. -/
def below (c : Calls θ) (a : θ) (t : ℕ) : Option (Option ℕ) :=
  (c.link t).bind fun L ↦
    if L.callee = some a then some L.under
    else if L.caller = some a then some L.outer else none

/-- The stack of an agent. -/
def Stack (c : Calls θ) (a : θ) (l : List ℕ) : Prop :=
  ∃ o, c.top a = some o ∧ Linked (c.below a) o l

/-- The call `t` is made by whoever works on `u`. -/
def Inner (c : Calls θ) (u t : ℕ) : Prop := ∃ L, c.link t = some L ∧ L.outer = some u

/-- Nothing is nested in the call. -/
def Bare (c : Calls θ) (t : ℕ) : Prop := ∀ v, ¬ c.Inner t v

/-- **The invariant.** -/
structure Sound (c : Calls θ) : Prop where
  /-- A nested call is younger, and its caller is who works on the outer one. -/
  outer : ∀ {t L u}, c.link t = some L → L.outer = some u →
    u < t ∧ ¬ c.pending u ∧ ∃ U, c.link u = some U ∧ U.callee = L.caller
  /-- At most one call is nested in a call. -/
  inner : ∀ {u t t'}, c.Inner u t → c.Inner u t' → t = t'
  /-- An agent that waits is called from further down the chain. -/
  under : ∀ {t L w}, c.link t = some L → L.under = some w → TransGen c.Inner w t
  /-- A call is on the stack of its caller, who is not its callee. -/
  caller : ∀ {t L a}, c.link t = some L → L.caller = some a →
    L.callee ≠ some a ∧ ∃ l, c.Stack a l ∧ t ∈ l
  stack : ∀ {a o}, c.top a = some o → ∃ l, Linked (c.below a) o l
  /-- A call that is meant for an agent finds it waiting further up the chain. -/
  pending : ∀ {t}, c.pending t → ∃ L, c.link t = some L ∧
    ∀ a o, L.callee = some a → c.top a = some o →
      ∃ w W, o = some w ∧ c.link w = some W ∧ W.callee ≠ some a ∧ TransGen c.Inner w t

/-! ### Reading stacks -/

theorem below_eq_some {o : Option ℕ} (h : c.below a t = some o) : ∃ L, c.link t = some L ∧
      ((L.callee = some a ∧ o = L.under) ∨
        (L.callee ≠ some a ∧ L.caller = some a ∧ o = L.outer)) := by
  obtain ⟨L, hL, h⟩ := Option.bind_eq_some_iff.1 h
  refine ⟨L, hL, ?_⟩
  by_cases h1 : L.callee = some a
  · grind
  · grind

theorem below_of_callee (hL : c.link t = some L) (h : L.callee = some a) :
    c.below a t = some L.under := by
  simp [below, hL, h]

theorem below_of_caller (hL : c.link t = some L) (hne : L.callee ≠ some a)
    (h : L.caller = some a) : c.below a t = some L.outer := by
  simp [below, hL, h, hne]

theorem Stack.linked {o : Option ℕ} (h : c.Stack a l) (ho : c.top a = some o) :
    Linked (c.below a) o l := by
  obtain ⟨o', ho', hl⟩ := h
  cases ho'.symm.trans ho
  exact hl

theorem Stack.eq {l' : List ℕ} (h : c.Stack a l) (h' : c.Stack a l') : l = l' := by
  obtain ⟨o, ho, hl⟩ := h
  exact hl.eq_of_top (h'.linked ho)

omit [DecidableEq θ] in
theorem not_bare_of_inner (hi : TransGen c.Inner u t) : ¬ c.Bare u := by
  intro hbare
  obtain ⟨v, hv, -⟩ := TransGen.head'_iff.1 hi
  exact hbare v hv

theorem Stack.link_of_mem (hl : c.Stack a l) (ht : t ∈ l) :
    ∃ L, c.link t = some L ∧ (L.callee = some a ∨ L.caller = some a) := by
  obtain ⟨o, -, hl⟩ := hl
  obtain ⟨o', ho'⟩ := hl.next_isSome ht
  obtain ⟨L, hL, ⟨h1, -⟩ | ⟨-, h2, -⟩⟩ := below_eq_some ho'
  · exact ⟨L, hL, .inl h1⟩
  · exact ⟨L, hL, .inr h2⟩

variable {M : CallLink θ} {c' : Calls θ} {x : ℕ}

namespace Sound

variable (h : c.Sound)

include h

theorem lt_of_inner (hi : TransGen c.Inner u t) : u < t := by
  induction hi with
  | single hi =>
    obtain ⟨L, hL, hu⟩ := hi
    exact (h.outer hL hu).1
  | tail _ hi ih =>
    obtain ⟨L, hL, hu⟩ := hi
    exact ih.trans (h.outer hL hu).1

/-- Going down a stack is going out along the chain. -/
theorem inner_of_below (hb : c.below a u = some (some v)) : TransGen c.Inner v u := by
  obtain ⟨L, hL, ⟨-, hv⟩ | ⟨-, -, hv⟩⟩ := below_eq_some hb
  · exact h.under hL hv.symm
  · exact .single ⟨L, hL, hv.symm⟩

theorem inner_top (hl : Linked (c.below a) (some v) l) (ht : t ∈ l) :
    t = v ∨ TransGen c.Inner t v :=
  hl.rel_top (fun _ _ ↦ h.inner_of_below) (fun _ _ _ ↦ TransGen.trans) rfl ht

/-- **Two calls of one chain that have nothing nested in them are the same.** -/
theorem eq_of_bare (hu : ReflTransGen c.Inner w u) (hv : ReflTransGen c.Inner w v)
    (hbu : c.Bare u) (hbv : c.Bare v) : u = v := by
  have hright : Relator.RightUnique c.Inner := fun _ _ _ ↦ h.inner
  rcases hu.total_of_right_unique hright hv with huv | hvu
  · rcases ReflTransGen.cases_head huv with rfl | ⟨x, hx, -⟩
    · rfl
    · exact absurd hx (hbu x)
  · rcases ReflTransGen.cases_head hvu with rfl | ⟨x, hx, -⟩
    · rfl
    · exact absurd hx (hbv x)

/-- **What an answer relies on.** A call with nothing nested in it is the topmost of its caller. -/
theorem top_of_bare (hL : c.link t = some L) (hbare : c.Bare t) (ha : L.caller = some a) :
    c.top a = some (some t) := by
  obtain ⟨-, l, ⟨o, ho, hl⟩, ht⟩ := h.caller hL ha
  rcases hl.eq_top_or_above ht with rfl | ⟨u, -, hu⟩
  · exact ho
  · -- whatever lies above it on the stack is further down the chain
    exact absurd hbare (not_bare_of_inner (h.inner_of_below hu))

/-- A stack whose topmost call is older than `t` does not have `t`. -/
theorem not_mem_of_lt {o : Option ℕ} (hl : Linked (c.below a) o l)
    (hlt : ∀ u, o = some u → u < t) : t ∉ l := by
  intro ht
  cases hl with
  | nil => simp at ht
  | @cons u o' l hu hl =>
    rcases h.inner_top (.cons hu hl) ht with rfl | hi
    · exact lt_irrefl _ (hlt t rfl)
    · exact lt_asymm (hlt u rfl) (h.lt_of_inner hi)

/-- No call is twice on a stack. -/
theorem nodup_stack {o : Option ℕ} (hl : Linked (c.below a) o l) : l.Nodup := by
  induction hl with
  | nil => exact List.nodup_nil
  | cons ht hl ih =>
    refine List.nodup_cons.2 ⟨h.not_mem_of_lt hl fun u hu ↦ ?_, ih⟩
    exact h.lt_of_inner (h.inner_of_below (hu ▸ ht))

section

variable (ho : c.top a = some (some t)) (hL : c.link t = some L) (ha : L.callee = some a)
include ho hL ha

/-- The call an agent works on has nothing nested in it. -/
theorem bare_of_top : c.Bare t := by
  rintro v ⟨V, hV, hvt⟩
  obtain ⟨hlt, -, U, hU, hcallee⟩ := h.outer hV hvt
  cases hU.symm.trans hL
  obtain ⟨-, l, hl, hv⟩ := h.caller hV (hcallee.symm.trans ha)
  rcases h.inner_top (hl.linked ho) hv with rfl | hi
  · exact lt_irrefl _ hlt
  · exact absurd (h.lt_of_inner hi) hlt.asymm

/-- No call is meant for an agent that is not waiting. -/
theorem not_pending_of_top (hM : c.link u = some M)
    (hu : M.callee = some a) : ¬ c.pending u := by grind [h.pending, Option.some.inj]

end

theorem bare_of_pending (hp : c.pending t) : c.Bare t := by
  rintro v ⟨V, hV, hvt⟩
  exact (h.outer hV hvt).2.1 hp

end Sound

/-! ### What a change leaves alone -/

theorem below_congr (h : c'.link t = c.link t) : c'.below a t = c.below a t := by
  simp [below, h]

theorem Stack.frame (h : c.Stack a l) (htop : c'.top a = c.top a)
    (hbelow : ∀ t ∈ l, c'.below a t = c.below a t) : c'.Stack a l := by
  obtain ⟨o, ho, hl⟩ := h
  exact ⟨o, htop.trans ho, hl.congr hbelow⟩

/-- Fewer calls may be pending. -/
theorem Sound.congr (h : c.Sound) (hlink : c'.link = c.link) (htop : c'.top = c.top)
    (hpending : ∀ t, c'.pending t → c.pending t) : c'.Sound := by
  obtain ⟨link, top, pending⟩ := c'
  obtain rfl : link = c.link := hlink
  obtain rfl : top = c.top := htop
  exact {
    outer := fun hL hu ↦
      let ⟨hlt, hnot, hU⟩ := h.outer hL hu
      ⟨hlt, fun hp ↦ hnot (hpending _ hp), hU⟩
    inner := h.inner
    under := h.under
    caller := h.caller
    stack := h.stack
    pending := fun hp ↦ h.pending (hpending _ hp) }

omit [DecidableEq θ] in
/-- A chain of calls survives as long as its calls do, the outermost apart. -/
theorem inner_frame (hi : TransGen c.Inner w v) (hv : c'.link v = c.link v)
    (hlink : ∀ x, ¬ c.Bare x → c'.link x = c.link x) : TransGen c'.Inner w v := by
  induction hi with
  | single hi =>
    obtain ⟨L, hL, hw⟩ := hi
    exact .single ⟨L, hv.trans hL, hw⟩
  | @tail x y _ hi ih =>
    obtain ⟨L, hL, hx⟩ := hi
    have hbare : ¬ c.Bare x := fun hb ↦ hb y ⟨L, hL, hx⟩
    exact (ih (hlink x hbare)).tail ⟨L, hv.trans hL, hx⟩

/-! ### A new call -/

/-- Agent `a`, whose topmost call is `o`, makes the call `t`, meant for `target`. -/
def call (c : Calls θ) (a : θ) (o : Option ℕ) (t : ℕ) (target : Option θ) : Calls θ where
  link := update c.link t (some ⟨some a, o, target, none⟩)
  top := update c.top a (some (some t))
  pending := fun x ↦ x = t ∨ c.pending x

/-- **Where a nested call finds its target.** An agent that waits further up the chain of `s` and is
not the one who works on `s` has on top a call that it made and in which `s` is nested. -/
theorem Sound.waits {s : ℕ} {S W : CallLink θ} (h : c.Sound) (hs : c.top a = some (some s))
    (hS : c.link s = some S) (ha : S.callee = some a) (hws : ReflTransGen c.Inner w s)
    (hW : c.link w = some W) (hb : W.caller = some b) (hne : b ≠ a) {o : Option ℕ}
    (ho : c.top b = some o) :
    ∃ x X, o = some x ∧ c.link x = some X ∧ X.callee ≠ some b ∧ ReflTransGen c.Inner x s := by
  obtain ⟨-, l, hl, hw⟩ := h.caller hW hb
  cases hl.linked ho with
  | nil => simp at hw
  | @cons x o'' l hx hrest =>
    obtain ⟨X, hX, -⟩ := below_eq_some hx
    have hwx : ReflTransGen c.Inner w x := by
      rcases h.inner_top (.cons hx hrest) hw with rfl | hi
      · exact .refl
      · exact hi.to_reflTransGen
    have hbs := h.bare_of_top hs hS ha
    refine ⟨x, X, rfl, hX, fun hcallee ↦ ?_, ?_⟩
    · -- both agents would be working on the innermost call
      obtain rfl := h.eq_of_bare hwx hws (h.bare_of_top ho hX hcallee) hbs
      cases hX.symm.trans hS
      exact hne (Option.mem_unique hcallee ha)
    · have hright : Relator.RightUnique c.Inner := fun _ _ _ ↦ h.inner
      rcases hwx.total_of_right_unique hright hws with hxs | hsx
      · exact hxs
      · rcases ReflTransGen.cases_head hsx with rfl | ⟨y, hy, -⟩
        · exact .refl
        · exact absurd hy (hbs y)

section Call

variable {o : Option ℕ} {target : Option θ}

theorem call_link_self (c : Calls θ) :
    (c.call a o t target).link t = some ⟨some a, o, target, none⟩ :=
  update_self ..

variable (hnew : ∀ x L, c.link x = some L → x < t)

include hnew

theorem call_link (hL : c.link x = some L) : (c.call a o t target).link x = some L :=
  (update_of_ne (Nat.ne_of_lt (hnew x L hL)) ..).trans hL

/-- A call of the new state is the new one or an old one. -/
theorem call_cases (hL : (c.call a o t target).link x = some L) :
    (x = t ∧ L = ⟨some a, o, target, none⟩) ∨ c.link x = some L := by
  by_cases hx : x = t
  · subst hx
    exact .inl ⟨rfl, Option.some.inj (hL.symm.trans (call_link_self c))⟩
  · exact .inr ((update_of_ne hx ..).symm.trans hL)

theorem call_inner (hi : c.Inner u v) : (c.call a o t target).Inner u v := by
  obtain ⟨L, hL, hu⟩ := hi
  exact ⟨L, call_link hnew hL, hu⟩

theorem call_below (hl : c.Stack b l) :
    ∀ x ∈ l, (c.call a o t target).below b x = c.below b x := by
  intro x hx
  obtain ⟨L, hL, -⟩ := hl.link_of_mem hx
  exact below_congr ((call_link hnew hL).trans hL.symm)

theorem call_stack_self (ho : c.top a = some o) (hl : Linked (c.below a) o l)
    (hne : target ≠ some a) : (c.call a o t target).Stack a (t :: l) := by
  refine ⟨some t, update_self .., .cons (o := o) ?_ ?_⟩
  · exact below_of_caller (call_link_self c) hne rfl
  · exact hl.congr (call_below hnew ⟨o, ho, hl⟩)

end Call

/-- **Calling** keeps the invariant, if the agent has nothing else to wait for and does not call
itself. -/
theorem Sound.call {o : Option ℕ} {target : Option θ} (h : c.Sound) (ho : c.top a = some o)
    (hwork : ∀ s, o = some s → ∃ S, c.link s = some S ∧ S.callee = some a)
    (hnew : ∀ x L, c.link x = some L → x < t)
    (htarget : ∀ b, target = some b → b ≠ a ∧ ∃ s w W, o = some s ∧ ReflTransGen c.Inner w s ∧
      c.link w = some W ∧ W.caller = some b) :
    (c.call a o t target).Sound := by
  have hne : target ≠ some a := fun hta ↦ (htarget a hta).1 rfl
  -- whatever the agent works on has nothing nested in it so far
  have hbare : ∀ s, o = some s → c.Bare s := fun s hs ↦
    let ⟨_, hS, hSa⟩ := hwork s hs
    h.bare_of_top (hs ▸ ho) hS hSa
  constructor
  case outer =>
    intro x L u hL hu
    rcases call_cases hnew hL with ⟨rfl, rfl⟩ | hL
    · obtain ⟨S, hS, hSa⟩ := hwork u hu
      have hlt := hnew u S hS
      refine ⟨hlt, ?_, S, call_link hnew hS, hSa⟩
      rintro (rfl | hp)
      · exact lt_irrefl _ hlt
      · exact h.not_pending_of_top (hu ▸ ho) hS hSa hS hSa hp
    · obtain ⟨hlt, hnot, U, hU, hcallee⟩ := h.outer hL hu
      refine ⟨hlt, ?_, U, call_link hnew hU, hcallee⟩
      rintro (rfl | hp)
      · exact lt_irrefl _ (hnew u U hU)
      · exact hnot hp
  case inner =>
    rintro u x y ⟨X, hX, hux⟩ ⟨Y, hY, huy⟩
    rcases call_cases hnew hX with ⟨rfl, rfl⟩ | hX'
    · rcases call_cases hnew hY with ⟨rfl, -⟩ | hY'
      · rfl
      · exact absurd ⟨Y, hY', huy⟩ (hbare u hux y)
    · rcases call_cases hnew hY with ⟨rfl, rfl⟩ | hY'
      · exact absurd ⟨X, hX', hux⟩ (hbare u huy x)
      · exact h.inner ⟨X, hX', hux⟩ ⟨Y, hY', huy⟩
  case under =>
    intro x L w hL hw
    rcases call_cases hnew hL with ⟨rfl, rfl⟩ | hL
    · cases hw
    · exact TransGen.mono (fun _ _ ↦ call_inner hnew) _ _ (h.under hL hw)
  case caller =>
    intro x L b hL hb
    rcases call_cases hnew hL with ⟨rfl, rfl⟩ | hL
    · cases hb
      obtain ⟨l, hl⟩ := h.stack ho
      exact ⟨hne, _, call_stack_self hnew ho hl hne, by simp⟩
    · obtain ⟨hne', l, hl, hx⟩ := h.caller hL hb
      refine ⟨hne', ?_⟩
      by_cases hba : b = a
      · subst hba
        exact ⟨_, call_stack_self hnew ho (hl.linked ho) hne, by simp [hx]⟩
      · exact ⟨l, hl.frame (update_of_ne hba ..) (call_below hnew hl), hx⟩
  case stack =>
    intro b o' ho'
    by_cases hba : b = a
    · subst hba
      obtain ⟨l, hl⟩ := h.stack ho
      exact ⟨_, (call_stack_self hnew ho hl hne).linked ho'⟩
    · have hob : c.top b = some o' := (update_of_ne hba ..).symm.trans ho'
      obtain ⟨l, hl⟩ := h.stack hob
      exact ⟨l, hl.congr (call_below hnew ⟨o', hob, hl⟩)⟩
  case pending =>
    rintro x (rfl | hp)
    · refine ⟨_, call_link_self c, fun b o' hb ho' ↦ ?_⟩
      obtain ⟨hba, s, w, W, rfl, hws, hW, hWb⟩ := htarget b hb
      obtain ⟨S, hS, hSa⟩ := hwork s rfl
      have hob : c.top b = some o' := (update_of_ne hba ..).symm.trans ho'
      obtain ⟨y, Y, rfl, hY, hYb, hys⟩ := h.waits ho hS hSa hws hW hWb hba hob
      refine ⟨y, Y, rfl, call_link hnew hY, hYb, ?_⟩
      exact .tail' (ReflTransGen.mono (fun _ _ ↦ call_inner hnew) _ _ hys)
        ⟨_, call_link_self c, rfl⟩
    · obtain ⟨L, hL, hmeant⟩ := h.pending hp
      refine ⟨L, call_link hnew hL, fun b o' hb ho' ↦ ?_⟩
      by_cases hba : b = a
      · -- nothing is meant for the agent that calls
        subst hba
        obtain ⟨w, W, rfl, hW, hWb, -⟩ := hmeant b o hb ho
        obtain ⟨S, hS, hSa⟩ := hwork w rfl
        cases hS.symm.trans hW
        exact absurd hSa hWb
      · obtain ⟨w, W, rfl, hW, hWb, hi⟩ :=
          hmeant b o' hb ((update_of_ne hba ..).symm.trans ho')
        exact ⟨w, W, rfl, call_link hnew hW, hWb, TransGen.mono (fun _ _ ↦ call_inner hnew) _ _ hi⟩

/-! ### Taking a call -/

/-- Agent `a`, whose topmost call is `o`, takes the call `t`. -/
def take (c : Calls θ) (a : θ) (o : Option ℕ) (t : ℕ) (L : CallLink θ) : Calls θ where
  link := update c.link t (some { L with callee := some a, under := o })
  top := update c.top a (some (some t))
  pending := fun x ↦ c.pending x ∧ x ≠ t

section Take

variable {o : Option ℕ}

theorem take_link_self (c : Calls θ) (L : CallLink θ) :
    (c.take a o t L).link t = some { L with callee := some a, under := o } :=
  update_self ..

theorem take_link_of_ne (L : CallLink θ) (hx : x ≠ t) : (c.take a o t L).link x = c.link x :=
  update_of_ne hx ..

theorem take_cases (hL : c.link t = some L) (hM : (c.take a o t L).link x = some M) :
    (x = t ∧ M = { L with callee := some a, under := o }) ∨ (x ≠ t ∧ c.link x = some M) := by
  by_cases hx : x = t
  · subst hx
    exact .inl ⟨rfl, Option.some.inj (hM.symm.trans (take_link_self c L))⟩
  · exact .inr ⟨hx, (take_link_of_ne L hx).symm.trans hM⟩

theorem take_inner (hL : c.link t = some L) : (c.take a o t L).Inner u v ↔ c.Inner u v := by
  by_cases hv : v = t
  · subst hv
    simp [Inner, take_link_self, hL]
  · simp [Inner, take_link_of_ne L hv]

theorem take_below_of_ne (hL : c.link t = some L) (hfree : ∀ b, L.callee = some b → b = a)
    (hb : b ≠ a) (x : ℕ) : (c.take a o t L).below b x = c.below b x := by
  by_cases hx : x = t
  · subst hx
    have h1 : L.callee ≠ some b := fun h ↦ hb (hfree b h)
    have h2 : some a ≠ some b := fun h ↦ hb (Option.some.inj h).symm
    simp [below, take_link_self, hL, h1, h2]
  · exact below_congr (take_link_of_ne L hx)

/-- The stack of the agent grows by the call. -/
theorem take_stack_self (hl : Linked (c.below a) o l) (ht : t ∉ l) :
    (c.take a o t L).Stack a (t :: l) := by
  refine ⟨some t, update_self .., .cons ?_ (hl.congr fun x hx ↦ ?_)⟩
  · exact below_of_callee (take_link_self c L) rfl
  · exact below_congr (take_link_of_ne L fun h ↦ ht (h ▸ hx))

end Take

section

variable {o : Option ℕ} (h : c.Sound) (hp : c.pending t) (hL : c.link t = some L)
  (ho : c.top a = some o) (hfor : L.callee = some a ∨ (L.callee = none ∧ o = none))
include h hp hL ho hfor

/-- A call that is taken is not on the stack of who takes it. -/
theorem Sound.not_mem_of_pending (hl : Linked (c.below a) o l) : t ∉ l := by
  refine h.not_mem_of_lt hl fun u hu ↦ ?_
  rcases hfor with hfor | ⟨-, hnone⟩
  · obtain ⟨L', hL', hmeant⟩ := h.pending hp
    cases hL'.symm.trans hL
    obtain ⟨w, W, hw, -, -, hi⟩ := hmeant a o hfor ho
    cases hu.symm.trans hw
    exact h.lt_of_inner hi
  · cases hu.symm.trans hnone

/-- **Taking a call** keeps the invariant: a call that is meant for the agent, or one that is meant
for nobody if the agent has nothing to do. -/
theorem Sound.take : (c.take a o t L).Sound := by
  have hfree : ∀ b, L.callee = some b → b = a := by grind
  have hmono : ∀ {x y}, TransGen c.Inner x y → TransGen (c.take a o t L).Inner x y :=
    fun hi ↦ TransGen.mono (fun _ _ ↦ (take_inner hL).2) _ _ hi
  have hself : ∀ {l}, Linked (c.below a) o l → (c.take a o t L).Stack a (t :: l) := fun hl ↦
    take_stack_self hl (h.not_mem_of_pending hp hL ho hfor hl)
  have hother : ∀ {b l}, b ≠ a → c.Stack b l → (c.take a o t L).Stack b l := fun hb hl ↦
    hl.frame (update_of_ne hb ..) fun x _ ↦ take_below_of_ne hL hfree hb x
  constructor
  case outer =>
    intro x M u hM hu
    have hi : c.Inner u x := (take_inner hL).1 ⟨M, hM, hu⟩
    obtain ⟨X, hX, hXu⟩ := hi
    have hcaller : X.caller = M.caller := by
      rcases take_cases hL hM with ⟨rfl, rfl⟩ | ⟨-, hM⟩
      · rw [Option.mem_unique hX hL]
      · rw [Option.mem_unique hX hM]
    obtain ⟨hlt, hnot, U, hU, hcallee⟩ := h.outer hX hXu
    have hne : u ≠ t := fun hut ↦ hnot (hut ▸ hp)
    exact ⟨hlt, fun hp' ↦ hnot hp'.1, U, (take_link_of_ne L hne).trans hU, hcallee.trans hcaller⟩
  case inner =>
    intro u x y hx hy
    exact h.inner ((take_inner hL).1 hx) ((take_inner hL).1 hy)
  case under =>
    intro x M w hM hw
    rcases take_cases hL hM with ⟨rfl, rfl⟩ | ⟨-, hM⟩
    · grind [h.pending]
    · exact hmono (h.under hM hw)
  case caller =>
    intro x M b hM hb
    rcases take_cases hL hM with ⟨rfl, rfl⟩ | ⟨-, hM⟩
    · obtain ⟨hne, l, hl, hx⟩ := h.caller hL hb
      have hba : b ≠ a := by
        rintro rfl
        rcases hfor with hfor | ⟨-, rfl⟩
        · exact hne hfor
        · cases hl.linked ho
          simp at hx
      exact ⟨fun hab ↦ hba (Option.some.inj hab).symm, l, hother hba hl, hx⟩
    · obtain ⟨hne, l, hl, hx⟩ := h.caller hM hb
      refine ⟨hne, ?_⟩
      by_cases hba : b = a
      · subst hba
        exact ⟨_, hself (hl.linked ho), by simp [hx]⟩
      · exact ⟨l, hother hba hl, hx⟩
  case stack =>
    intro b o' ho'
    by_cases hba : b = a
    · subst hba
      obtain ⟨l, hl⟩ := h.stack ho
      exact ⟨_, (hself hl).linked ho'⟩
    · obtain ⟨l, hl⟩ := h.stack ((update_of_ne hba ..).symm.trans ho')
      exact ⟨l, hl.congr fun x _ ↦ take_below_of_ne hL hfree hba x⟩
  case pending =>
    rintro x ⟨hpx, hne⟩
    obtain ⟨M, hM, hmeant⟩ := h.pending hpx
    refine ⟨M, (take_link_of_ne L hne).trans hM, fun b o' hb ho' ↦ ?_⟩
    by_cases hba : b = a
    · -- two calls that nobody has taken are never meant for one agent
      subst hba
      obtain ⟨w, W, rfl, -, -, hi⟩ := hmeant b o hb ho
      rcases hfor with hfor | ⟨-, hnone⟩
      · obtain ⟨L', hL', hmeant'⟩ := h.pending hp
        cases hL'.symm.trans hL
        obtain ⟨w', W', hw', -, -, hi'⟩ := hmeant' b _ hfor ho
        cases hw'
        exact absurd (h.eq_of_bare hi.to_reflTransGen hi'.to_reflTransGen (h.bare_of_pending hpx)
          (h.bare_of_pending hp)) hne
      · cases hnone
    · obtain ⟨w, W, rfl, hW, hWb, hi⟩ :=
        hmeant b o' hb ((update_of_ne hba ..).symm.trans ho')
      by_cases hwt : w = t
      · grind [take_link_self]
      · exact ⟨w, W, rfl, (take_link_of_ne L hwt).trans hW, hWb, hmono hi⟩

end

/-! ### The end of a call -/

/-- The agent is done with the topmost call, which it took. -/
def finish (c : Calls θ) (a : θ) (L : CallLink θ) : Calls θ :=
  { c with top := update c.top a (some L.under) }

/-- **Being done with a call** keeps the invariant. -/
theorem Sound.finish (h : c.Sound) (ho : c.top a = some (some t)) (hL : c.link t = some L)
    (ha : L.callee = some a) : (c.finish a L).Sound := by
  have hstack : ∀ {b l}, b ≠ a → (c.finish a L).Stack b l = c.Stack b l := by
    intro b l hb
    simp only [Stack, Calls.finish, update_of_ne hb]
    rfl
  have hpop : ∀ {l}, c.Stack a l → ∃ l', l = t :: l' ∧ (c.finish a L).Stack a l' := by
    intro l hl
    cases hl.linked ho with
    | @cons _ o' l' ht hl =>
      cases ht.symm.trans (below_of_callee hL ha)
      exact ⟨l', rfl, L.under, update_self .., hl⟩
  refine ⟨h.outer, h.inner, h.under, ?_, ?_, ?_⟩
  · intro x M b hM hb
    obtain ⟨hne, l, hl, hx⟩ := h.caller hM hb
    refine ⟨hne, ?_⟩
    by_cases hba : b = a
    · subst hba
      obtain ⟨l', rfl, hl'⟩ := hpop hl
      refine ⟨l', hl', (List.mem_cons.1 hx).resolve_left ?_⟩
      rintro rfl
      exact hne (Option.mem_unique hM hL ▸ ha)
    · exact ⟨l, (hstack hba).symm ▸ hl, hx⟩
  · intro b o ho'
    by_cases hba : b = a
    · subst hba
      obtain ⟨l, hl⟩ := h.stack ho
      obtain ⟨l', -, hl'⟩ := hpop ⟨_, ho, hl⟩
      exact ⟨l', hl'.linked ho'⟩
    · exact h.stack ((update_of_ne hba ..).symm.trans ho')
  · intro x hp
    obtain ⟨M, hM, hmeant⟩ := h.pending hp
    refine ⟨M, hM, fun b o hb ho' ↦ ?_⟩
    by_cases hba : b = a
    · grind
    · exact hmeant b o hb ((update_of_ne hba ..).symm.trans ho')

/-- A call that nobody works on and nobody is going to: it waits for its end. -/
structure Loose (c : Calls θ) (t : ℕ) (L : CallLink θ) : Prop where
  link : c.link t = some L
  bare : c.Bare t
  not_pending : ¬ c.pending t
  not_mem : ∀ a l, L.callee = some a → c.Stack a l → t ∉ l

theorem Loose.congr (h : c.Loose t L) (hlink : c'.link = c.link)
    (htop : c'.top = c.top) (hpending : c'.pending t → c.pending t) : c'.Loose t L := by
  obtain ⟨link, top, pending⟩ := c'
  obtain rfl : link = c.link := hlink
  obtain rfl : top = c.top := htop
  exact { h with not_pending := fun hp ↦ h.not_pending (hpending hp) }

/-- The call is gone, and so it is from the stack of its caller. -/
def discard (c : Calls θ) (t : ℕ) (L : CallLink θ) : Calls θ where
  link := update c.link t none
  top := L.caller.elim c.top fun a ↦ update c.top a (some L.outer)
  pending := c.pending

section Discard

theorem discard_link : (c.discard t L).link x = some M ↔ x ≠ t ∧ c.link x = some M := by
  by_cases hx : x = t
  · subst hx
    simp [discard]
  · simp [discard, hx]

theorem discard_top_of_ne (hb : L.caller ≠ some b) : (c.discard t L).top b = c.top b := by
  cases hcaller : L.caller with
  | none => simp [discard, hcaller]
  | some a =>
    have hne : b ≠ a := fun h ↦ hb (h ▸ hcaller)
    simp [discard, hcaller, hne]

theorem discard_top_self (ha : L.caller = some a) : (c.discard t L).top a = some L.outer := by
  simp [discard, ha]

theorem discard_below (hx : x ≠ t) : (c.discard t L).below b x = c.below b x :=
  below_congr (update_of_ne hx ..)

variable (hloose : c.Loose t L)

include hloose

theorem Loose.not_mem_stack (hb : L.caller ≠ some b) (hl : c.Stack b l) : t ∉ l := by
  intro ht
  obtain ⟨M, hM, hor⟩ := hl.link_of_mem ht
  cases hM.symm.trans hloose.link
  rcases hor with hcallee | hcaller
  · exact hloose.not_mem b l hcallee hl ht
  · exact hb hcaller

theorem discard_stack_of_ne (hb : L.caller ≠ some b) (hl : c.Stack b l) :
    (c.discard t L).Stack b l := by
  refine hl.frame (discard_top_of_ne hb) fun x hx ↦ discard_below ?_
  rintro rfl
  exact hloose.not_mem_stack hb hl hx

theorem discard_inner (hi : TransGen c.Inner w x) (hx : x ≠ t) :
    TransGen (c.discard t L).Inner w x := by
  refine inner_frame hi (update_of_ne hx ..) fun y hy ↦ ?_
  refine update_of_ne ?_ _ _
  rintro rfl
  exact hy hloose.bare

theorem discard_stack_self (h : c.Sound) (ha : L.caller = some a) (hl : c.Stack a l) :
    ∃ l', l = t :: l' ∧ (c.discard t L).Stack a l' := by
  cases hl.linked (h.top_of_bare hloose.link hloose.bare ha) with
  | @cons _ o' l' ht hrest =>
    have hne := (h.caller hloose.link ha).1
    obtain rfl : o' = L.outer :=
      Option.some.inj (ht.symm.trans (below_of_caller hloose.link hne ha))
    refine ⟨l', rfl, L.outer, discard_top_self ha, hrest.congr fun x hx ↦ discard_below ?_⟩
    -- the rest of the stack is further up the chain
    rintro rfl
    exact h.not_mem_of_lt hrest (fun u hu ↦ (h.outer hloose.link hu).1) hx

end Discard

/-- **Discarding a call** that nobody works on keeps the invariant. -/
theorem Sound.discard (h : c.Sound) (hloose : c.Loose t L) : (c.discard t L).Sound := by
  constructor
  case outer =>
    intro x M u hM hu
    obtain ⟨-, hM⟩ := discard_link.1 hM
    obtain ⟨hlt, hnot, U, hU, hcallee⟩ := h.outer hM hu
    have hne : u ≠ t := fun hut ↦ hloose.bare x ⟨M, hM, hut ▸ hu⟩
    exact ⟨hlt, hnot, U, discard_link.2 ⟨hne, hU⟩, hcallee⟩
  case inner =>
    rintro u x y ⟨X, hX, hux⟩ ⟨Y, hY, huy⟩
    exact h.inner ⟨X, (discard_link.1 hX).2, hux⟩ ⟨Y, (discard_link.1 hY).2, huy⟩
  case under =>
    intro x M w hM hw
    obtain ⟨hx, hM⟩ := discard_link.1 hM
    exact discard_inner hloose (h.under hM hw) hx
  case caller =>
    intro x M b hM hb
    obtain ⟨hx, hM⟩ := discard_link.1 hM
    obtain ⟨hne, l, hl, hmem⟩ := h.caller hM hb
    refine ⟨hne, ?_⟩
    by_cases hLb : L.caller = some b
    · grind [discard_stack_self]
    · exact ⟨l, discard_stack_of_ne hloose hLb hl, hmem⟩
  case stack =>
    intro b o ho
    by_cases hLb : L.caller = some b
    · obtain ⟨-, l, hl, -⟩ := h.caller hloose.link hLb
      obtain ⟨l', -, hl'⟩ := discard_stack_self hloose h hLb hl
      exact ⟨l', hl'.linked ho⟩
    · have ho' := (discard_top_of_ne hLb).symm.trans ho
      obtain ⟨l, hl⟩ := h.stack ho'
      exact ⟨l, (discard_stack_of_ne hloose hLb ⟨o, ho', hl⟩).linked ho⟩
  case pending =>
    intro x hp
    obtain ⟨M, hM, hmeant⟩ := h.pending hp
    have hx : x ≠ t := by
      rintro rfl
      exact hloose.not_pending hp
    refine ⟨M, discard_link.2 ⟨hx, hM⟩, fun b o hb ho ↦ ?_⟩
    by_cases hLb : L.caller = some b
    · -- a caller whose topmost call is bare is not waiting for a call meant for it
      obtain ⟨w, W, hw, -, -, hi⟩ :=
        hmeant b _ hb (h.top_of_bare hloose.link hloose.bare hLb)
      cases hw
      exact absurd hloose.bare (not_bare_of_inner hi)
    · rw [discard_top_of_ne hLb] at ho
      obtain ⟨w, W, rfl, hW, hWb, hi⟩ := hmeant b o hb ho
      have hw : w ≠ t := by grind [not_bare_of_inner, hloose.bare]
      exact ⟨w, W, rfl, discard_link.2 ⟨hw, hW⟩, hWb, discard_inner hloose hi hx⟩

/-- The outer call of a discarded one whose caller is dead waits for its end, too. -/
theorem Loose.outer (h : c.Sound) (hloose : c.Loose t L) (hcaller : L.caller = none)
    (hu : L.outer = some u) : ∃ U, (c.discard t L).Loose u U := by
  obtain ⟨hlt, hnot, U, hU, hcallee⟩ := h.outer hloose.link hu
  refine ⟨U, discard_link.2 ⟨Nat.ne_of_lt hlt, hU⟩, ?_, hnot, fun a l ha ↦ ?_⟩
  · rintro x ⟨X, hX, hxu⟩
    obtain ⟨hx, hX⟩ := discard_link.1 hX
    exact hx (h.inner ⟨X, hX, hxu⟩ ⟨L, hloose.link, hu⟩)
  · rw [hcallee, hcaller] at ha
    cases ha

/-- Whoever is done with a call leaves it to its end. -/
theorem Sound.loose_of_finish (h : c.Sound) (ho : c.top a = some (some t)) (hL : c.link t = some L)
    (ha : L.callee = some a) : (c.finish a L).Loose t L := by
  refine ⟨hL, h.bare_of_top ho hL ha, h.not_pending_of_top ho hL ha hL ha, fun b l hb hl ht ↦ ?_⟩
  cases ha.symm.trans hb
  exact h.not_mem_of_lt (hl.linked (update_self ..)) (fun u hu ↦ h.lt_of_inner (h.under hL hu)) ht

/-! ### Agents come and go -/

/-- A new agent. -/
def spawn (c : Calls θ) (a : θ) : Calls θ :=
  { c with top := update c.top a (some none) }

/-- **A new agent** that no call knows of keeps the invariant. -/
theorem Sound.spawn (h : c.Sound) (hnew : c.top a = none)
    (hcallee : ∀ t L, c.link t = some L → L.callee ≠ some a) : (c.spawn a).Sound := by
  have htop : ∀ {b o}, c.top b = some o → (c.spawn a).top b = some o := by
    intro b o ho
    refine (update_of_ne ?_ ..).trans ho
    rintro rfl
    cases hnew.symm.trans ho
  refine ⟨h.outer, h.inner, h.under, ?_, ?_, ?_⟩
  · intro t L b hL hb
    obtain ⟨hne, l, ⟨o, ho, hl⟩, ht⟩ := h.caller hL hb
    exact ⟨hne, l, ⟨o, htop ho, hl⟩, ht⟩
  · intro b o ho
    by_cases hba : b = a
    · subst hba
      have htop : (c.spawn b).top b = some none := update_self ..
      cases htop.symm.trans ho
      exact ⟨[], .nil⟩
    · exact h.stack ((update_of_ne hba ..).symm.trans ho)
  · intro t hp
    obtain ⟨L, hL, hmeant⟩ := h.pending hp
    refine ⟨L, hL, fun b o hb ho ↦ hmeant b o hb ((update_of_ne ?_ ..).symm.trans ho)⟩
    rintro rfl
    exact hcallee t L hL hb

/-- Cut a call off from an agent. -/
def cut (a : θ) (L : CallLink θ) : CallLink θ :=
  if L.callee = some a then { L with callee := none }
  else if L.caller = some a then { L with caller := none } else L

/-- Agent `a`, with the stack `l`, dies. -/
def die (c : Calls θ) (a : θ) (l : List ℕ) : Calls θ where
  link := fun t ↦ if t ∈ l then (c.link t).map (cut a) else c.link t
  top := update c.top a none
  pending := c.pending

@[simp] theorem cut_outer (L : CallLink θ) : (cut a L).outer = L.outer := by
  unfold cut
  split_ifs <;> rfl

@[simp] theorem cut_under (L : CallLink θ) : (cut a L).under = L.under := by
  unfold cut
  split_ifs <;> rfl

theorem cut_of_callee (h : L.callee = some a) : cut a L = { L with callee := none } := by
  simp [cut, h]

theorem cut_of_caller (hne : L.callee ≠ some a) (h : L.caller = some a) :
    cut a L = { L with caller := none } := by
  simp [cut, hne, h]

section Die

theorem die_link_of_mem (ht : t ∈ l) : (c.die a l).link t = (c.link t).map (cut a) := by
  simp [die, ht]

theorem die_link_of_not_mem (ht : t ∉ l) : (c.die a l).link t = c.link t := by
  simp [die, ht]

theorem die_cases (hM : (c.die a l).link t = some M) :
    ∃ L, c.link t = some L ∧ M.outer = L.outer ∧ M.under = L.under := by
  by_cases ht : t ∈ l
  · rw [die_link_of_mem ht] at hM
    obtain ⟨L, hL, rfl⟩ := Option.map_eq_some_iff.1 hM
    exact ⟨L, hL, cut_outer L, cut_under L⟩
  · grind [die_link_of_not_mem]

theorem die_inner : (c.die a l).Inner u v ↔ c.Inner u v := by
  by_cases hv : v ∈ l
  · cases hlink : c.link v <;> simp [Inner, die_link_of_mem hv, hlink]
  · simp [Inner, die_link_of_not_mem hv]

/-- For the other agents nothing changes. -/
theorem die_below (hb : b ≠ a) (x : ℕ) : (c.die a l).below b x = c.below b x := by
  by_cases hx : x ∈ l
  · unfold below
    rw [die_link_of_mem hx]
    cases hlink : c.link x with
    | none => rfl
    | some L =>
      have hab : some a ≠ some b := fun h ↦ hb (Option.some.inj h).symm
      by_cases h1 : L.callee = some a
      · simp [cut_of_callee h1, h1, hab]
      · by_cases h2 : L.caller = some a
        · simp [cut_of_caller h1 h2, h2, hab]
        · simp [cut, h1, h2]
  · exact below_congr (die_link_of_not_mem hx)

variable (h : c.Sound) (hl : c.Stack a l)

include h hl

/-- Every call the agent made loses its caller. -/
theorem die_caller (hL : c.link t = some L) (hM : (c.die a l).link t = some M) :
    M.caller = if L.caller = some a then none else L.caller := by
  by_cases ht : t ∈ l
  · rw [die_link_of_mem ht, hL] at hM
    cases hM
    obtain ⟨L', hL', hor⟩ := hl.link_of_mem ht
    obtain rfl : L' = L := Option.mem_unique hL' hL
    by_cases hcallee : L'.callee = some a
    · have hcaller : L'.caller ≠ some a := fun hc ↦ (h.caller hL hc).1 hcallee
      simp [cut_of_callee hcallee, hcaller]
    · grind [cut_of_caller]
  · rw [die_link_of_not_mem ht] at hM
    cases hL.symm.trans hM
    have hcaller : L.caller ≠ some a := by
      intro hc
      obtain ⟨-, l', hl', ht'⟩ := h.caller hL hc
      exact ht (hl'.eq hl ▸ ht')
    simp [hcaller]

omit h in
/-- Every call the agent took loses its callee; calls meant for it do not. -/
theorem die_callee (hL : c.link t = some L) (hM : (c.die a l).link t = some M) :
    M.callee = if L.callee = some a ∧ t ∈ l then none else L.callee := by
  by_cases ht : t ∈ l
  · rw [die_link_of_mem ht, hL] at hM
    cases hM
    by_cases hcallee : L.callee = some a
    · simp [cut_of_callee hcallee, hcallee, ht]
    · obtain ⟨L', hL', hor⟩ := hl.link_of_mem ht
      cases hL'.symm.trans hL
      simp [cut_of_caller hcallee (hor.resolve_left hcallee), hcallee]
  · grind [die_link_of_not_mem]

end Die

/-- **The death of an agent** keeps the invariant. -/
theorem Sound.die (h : c.Sound) (hl : c.Stack a l) : (c.die a l).Sound := by
  have hlive : ∀ {x X}, c.link x = some X → ∃ M, (c.die a l).link x = some M := by
    grind [die_link_of_mem, die_link_of_not_mem]
  have hmono : ∀ {x y}, TransGen c.Inner x y → TransGen (c.die a l).Inner x y :=
    fun hi ↦ TransGen.mono (fun _ _ ↦ die_inner.2) _ _ hi
  have hleft : ∀ {b o}, (c.die a l).top b = some o → b ≠ a ∧ c.top b = some o := by
    intro b o ho
    have hba : b ≠ a := by
      rintro rfl
      simp [Calls.die] at ho
    exact ⟨hba, (update_of_ne hba ..).symm.trans ho⟩
  constructor
  case outer =>
    intro x M u hM hu
    obtain ⟨X, hX, houter, -⟩ := die_cases hM
    rw [houter] at hu
    obtain ⟨hlt, hnot, U, hU, hcallee⟩ := h.outer hX hu
    obtain ⟨U', hU'⟩ := hlive hU
    refine ⟨hlt, hnot, U', hU', ?_⟩
    rw [die_callee hl hU hU', die_caller h hl hX hM, hcallee]
    by_cases hcaller : X.caller = some a
    · -- the agent worked on the outer call, so both lie on its stack
      obtain ⟨hne, l', hl', hx⟩ := h.caller hX hcaller
      obtain rfl := hl'.eq hl
      obtain ⟨o, -, hlinked⟩ := hl
      have hmem : u ∈ l' :=
        hlinked.next_mem hx ((below_of_caller hX hne hcaller).trans (by rw [hu]))
      simp [hcaller, hmem]
    · simp [hcaller]
  case inner =>
    intro u x y hx hy
    exact h.inner (die_inner.1 hx) (die_inner.1 hy)
  case under =>
    intro x M w hM hw
    obtain ⟨X, hX, -, hunder⟩ := die_cases hM
    exact hmono (h.under hX (hunder.symm.trans hw))
  case caller =>
    intro x M b hM hb
    obtain ⟨X, hX, -, -⟩ := die_cases hM
    rw [die_caller h hl hX hM] at hb
    by_cases hcaller : X.caller = some a
    · simp [hcaller] at hb
    · rw [if_neg hcaller] at hb
      have hba : b ≠ a := fun hba ↦ hcaller (hba ▸ hb)
      obtain ⟨hne, l', hl', hx⟩ := h.caller hX hb
      refine ⟨?_, l', hl'.frame (update_of_ne hba ..) fun y _ ↦ die_below hba y, hx⟩
      rw [die_callee hl hX hM]
      split_ifs
      · simp
      · exact hne
  case stack =>
    intro b o ho
    obtain ⟨hba, hob⟩ := hleft ho
    obtain ⟨l', hl'⟩ := h.stack hob
    exact ⟨l', hl'.congr fun y _ ↦ die_below hba y⟩
  case pending =>
    intro x hp
    obtain ⟨X, hX, hmeant⟩ := h.pending hp
    obtain ⟨M, hM⟩ := hlive hX
    refine ⟨M, hM, fun b o hb ho ↦ ?_⟩
    have hb' : X.callee = some b := by
      rw [die_callee hl hX hM] at hb
      split_ifs at hb
      exact hb
    obtain ⟨w, W, rfl, hW, hWb, hi⟩ := hmeant b o hb' (hleft ho).2
    obtain ⟨W', hW'⟩ := hlive hW
    refine ⟨w, W', rfl, hW', ?_, hmono hi⟩
    rw [die_callee hl hW hW']
    split_ifs
    · simp
    · exact hWb

/-- What a dead agent worked on waits for its end. -/
theorem Sound.loose_of_die (h : c.Sound) (hl : c.Stack a l)
    (ho : c.top a = some (some t)) (hL : c.link t = some L) (ha : L.callee = some a) :
    (c.die a l).Loose t (cut a L) := by
  have ht : t ∈ l := by
    cases hl.linked ho
    simp
  refine ⟨?_, ?_, h.not_pending_of_top ho hL ha hL ha, fun b l' hb ↦ ?_⟩
  · rw [die_link_of_mem ht, hL]
    rfl
  · intro v hv
    exact h.bare_of_top ho hL ha v (die_inner.1 hv)
  · simp [cut_of_callee ha] at hb

/-- A call that nobody has taken and nobody is left to take. -/
theorem Sound.loose_of_pending (h : c.Sound) (hp : c.pending t) (hL : c.link t = some L)
    (hdead : ∀ a, L.callee = some a → c.top a = none) (hlink : c'.link = c.link)
    (htop : c'.top = c.top) (hpending : ¬ c'.pending t) : c'.Loose t L := by
  refine ⟨hlink ▸ hL, ?_, hpending, fun a l ha hl ↦ ?_⟩
  · rintro v ⟨V, hV, hvt⟩
    exact h.bare_of_pending hp v ⟨V, hlink ▸ hV, hvt⟩
  · obtain ⟨o, ho, -⟩ := hl
    rw [htop, hdead a ha] at ho
    cases ho

/-! ### No calls -/

/-- Nobody has called anybody. -/
theorem sound_empty : (⟨fun _ ↦ none, fun _ ↦ none, fun _ ↦ False⟩ : Calls θ).Sound where
  outer := nofun
  inner := fun ⟨_, hL, _⟩ ↦ by cases hL
  under := nofun
  caller := nofun
  stack := nofun
  pending := fun hp ↦ hp.elim

end Calls
