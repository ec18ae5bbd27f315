import Mathlib.Data.List.Basic

/-!
# Red-black trees and places in them

A place in a tree is a subtree and the path from it to the root, the innermost step first
(`Crumb`). Code that follows parent pointers is a recursion over the path.

The two sides of a tree are treated alike: `join s c t a u` is the node with `t` on side `s` and
`u` on the other, so that an algorithm and its mirror image are one definition.

* `IsRB t c n`: `t` is a red-black tree with a root of colour `c` and black height `n`.
* `Fits path c n`: what belongs at the end of the path is a red-black tree of black height `n`,
  below a node of colour `c`.
* `Leads B W t`: `t` has a place at which `B` holds, and `W` holds of every subtree that hangs
  beside the path to it.
-/

open List

namespace RedBlack

variable {α : Type*}

inductive Color
  | red
  | black
deriving DecidableEq

inductive Side
  | left
  | right
deriving DecidableEq

def Side.flip : Side → Side
  | .left => .right
  | .right => .left

theorem Side.eq_flip_of_ne {s s' : Side} (h : s ≠ s') : s = s'.flip := by
  cases s <;> cases s' <;> first | rfl | exact absurd rfl h

inductive Tree (α : Type*)
  | nil
  | node (c : Color) (l : Tree α) (a : α) (r : Tree α)

namespace Tree

/-- The colour of the root; an empty tree counts as black. -/
def color : Tree α → Color
  | nil => .black
  | node c _ _ _ => c

/-- The root gets another colour. -/
def paint (c : Color) : Tree α → Tree α
  | nil => nil
  | node _ l a r => node c l a r

/-- The elements from left to right. -/
def toList : Tree α → List α
  | nil => []
  | node _ l a r => l.toList ++ a :: r.toList

/-- The node with `t` on side `s`. -/
def join (s : Side) (c : Color) (t : Tree α) (a : α) (u : Tree α) : Tree α :=
  match s with
  | .left => node c t a u
  | .right => node c u a t

/-- A node, seen from side `s`: its colour, the child on that side, the value and the other child.
-/
def unjoin (s : Side) : Tree α → Option (Color × Tree α × α × Tree α)
  | nil => none
  | node c l a r =>
    match s with
    | .left => some (c, l, a, r)
    | .right => some (c, r, a, l)

/-- The root goes down on side `s`, and its child on the other side comes up. -/
def rotate (s : Side) : Tree α → Tree α
  | nil => nil
  | node c l a r =>
    match s with
    | .left =>
      match r with
      | nil => node c l a r
      | node c' l' b r' => node c' (node c l a l') b r'
    | .right =>
      match l with
      | nil => node c l a r
      | node c' l' b r' => node c' l' b (node c r' a r)

variable {s : Side} {c c' : Color} {t u v : Tree α} {a b : α}

theorem node_ne_nil : node c t a u ≠ nil := nofun

@[simp] theorem color_nil : (nil : Tree α).color = .black := rfl

@[simp] theorem color_join : (join s c t a u).color = c := by cases s <;> rfl

@[simp] theorem paint_join : (join s c t a u).paint c' = join s c' t a u := by cases s <;> rfl

@[simp] theorem toList_nil : (nil : Tree α).toList = [] := rfl

@[simp] theorem toList_node : (node c t a u).toList = t.toList ++ a :: u.toList := rfl

@[simp] theorem toList_paint : (t.paint c).toList = t.toList := by cases t <;> rfl

theorem join_flip : join s.flip c t a u = join s c u a t := by cases s <;> rfl

theorem unjoin_join : unjoin s (join s c t a u) = some (c, t, a, u) := by cases s <;> rfl

theorem unjoin_eq_some (h : unjoin s v = some (c, t, a, u)) : v = join s c t a u := by
  cases v with
  | nil => cases h
  | node => cases s <;> cases h <;> rfl

theorem unjoin_eq_none (h : unjoin s t = none) : t = nil := by
  cases t with
  | nil => rfl
  | node => cases s <;> cases h

theorem rotate_join (s : Side) (c c' : Color) (t : Tree α) (a : α) (u : Tree α)
    (b : α) (v : Tree α) :
    rotate s (join s c t a (join s c' u b v)) = join s c' (join s c t a u) b v := by
  cases s <;> rfl

theorem rotate_flip_join (s : Side) (c c' : Color) (t : Tree α) (a : α) (u : Tree α) (b : α)
    (v : Tree α) :
    rotate s.flip (join s c (join s c' t a u) b v) = join s c' t a (join s c u b v) := by
  cases s <;> rfl

/-- Joining the same elements gives the same sequence. -/
theorem toList_join_congr {c₁ c₂ : Color} {t₁ t₂ u₁ u₂ : Tree α} (ht : t₁.toList = t₂.toList)
    (hu : u₁.toList = u₂.toList) : (join s c₁ t₁ a u₁).toList = (join s c₂ t₂ a u₂).toList := by
  cases s <;> simp [join, ht, hu]

theorem toList_rotate (s : Side) (t : Tree α) : (rotate s t).toList = t.toList := by
  cases t with
  | nil => rfl
  | node c l a r =>
    cases s with
    | left => cases r <;> simp [rotate]
    | right => cases l <;> simp [rotate]

theorem mem_toList_join {x : α} :
    x ∈ (join s c t a u).toList ↔ x ∈ t.toList ∨ x = a ∨ x ∈ u.toList := by
  cases s
  · simp [join]
  · simp only [join, toList_node, mem_append, mem_cons]
    tauto

end Tree

open RedBlack.Tree

/-! ### Places -/

/-- A step from a subtree to its parent: the side on which the subtree hangs, the parent's colour
and value, and its other child. -/
structure Crumb (α : Type*) where
  side : Side
  color : Color
  val : α
  other : Tree α

/-- The whole tree around a place. -/
def plug (t : Tree α) : List (Crumb α) → Tree α
  | [] => t
  | p :: path => plug (join p.side p.color t p.val p.other) path

theorem plug_append (t : Tree α) (path path' : List (Crumb α)) :
    plug t (path ++ path') = plug (plug t path) path' := by
  induction path generalizing t with
  | nil => rfl
  | cons p path ih => exact ih _

variable {t' : Tree α} {m : α → Bool}

/-- What is around a place does not depend on what is there. -/
theorem toList_plug_congr {t : Tree α} (h : t.toList = t'.toList) (path : List (Crumb α)) :
    (plug t path).toList = (plug t' path).toList := by
  induction path generalizing t t' with
  | nil => exact h
  | cons p path ih => exact ih (toList_join_congr h rfl)

/-- The elements before and after a place. -/
def around : List (Crumb α) → List α × List α
  | [] => ([], [])
  | p :: path =>
    match p.side with
    | .left => ((around path).1, p.val :: p.other.toList ++ (around path).2)
    | .right => ((around path).1 ++ p.other.toList ++ [p.val], (around path).2)

theorem toList_plug (t : Tree α) (path : List (Crumb α)) :
    (plug t path).toList = (around path).1 ++ t.toList ++ (around path).2 := by
  induction path generalizing t with
  | nil => simp [plug, around]
  | cons p path ih =>
    obtain ⟨s, c, a, u⟩ := p
    rw [plug, ih]
    cases s <;> simp [around, join]

/-- The place of the first element that satisfies `m`. -/
def locate (m : α → Bool) : List (Crumb α) → Tree α → Option (Tree α × List (Crumb α))
  | _, .nil => none
  | path, .node c l a r =>
    if m a then some (.node c l a r, path)
    else
      match locate m (⟨.left, c, a, r⟩ :: path) l with
      | some place => some place
      | none => locate m (⟨.right, c, a, l⟩ :: path) r

theorem locate_eq_none {path : List (Crumb α)} {t : Tree α}
    (h : ∀ a ∈ t.toList, m a = false) : locate m path t = none := by
  induction t generalizing path with
  | nil => rfl
  | node c l a r ihl ihr =>
    rw [locate, if_neg (by rw [h a (by simp)]; exact Bool.false_ne_true),
      ihl fun b hb ↦ h b (by simp [hb])]
    exact ihr fun b hb ↦ h b (by simp [hb])

theorem locate_some {path path' : List (Crumb α)} {t : Tree α}
    (h : locate m path t = some (t', path')) :
    plug t' path' = plug t path ∧ ∃ c l a r, t' = .node c l a r ∧ m a = true := by
  induction t generalizing path with
  | nil => cases h
  | node c l a r ihl ihr =>
    rw [locate] at h
    split at h
    · grind
    · split at h
      · next hl =>
        cases h
        exact ihl hl
      · exact ihr h

theorem locate_isSome (path : List (Crumb α)) {t : Tree α} {a : α} (ha : a ∈ t.toList)
    (hm : m a = true) : (locate m path t).isSome = true := by
  induction t generalizing path with
  | nil => cases ha
  | node c l b r ihl ihr =>
    rw [locate]
    split
    · rfl
    · next hb =>
      rw [toList_node, mem_append, mem_cons] at ha
      rcases ha with ha | rfl | ha
      · grind
      · exact absurd hm hb
      · split
        · rfl
        · exact ihr _ ha

/-! ### Red-black trees -/

/-- A red-black tree: a red node has black children, and both subtrees of a node have the same black
height. -/
inductive IsRB : Tree α → Color → ℕ → Prop
  | nil : IsRB .nil .black 0
  | red {l r : Tree α} {a : α} {n : ℕ} : IsRB l .black n → IsRB r .black n →
    IsRB (.node .red l a r) .red n
  | black {l r : Tree α} {a : α} {cl cr : Color} {n : ℕ} : IsRB l cl n → IsRB r cr n →
      IsRB (.node .black l a r) .black (n + 1)

variable {s : Side} {c c' c₁ c₂ : Color} {t u v : Tree α} {a b : α} {n : ℕ} {path : List (Crumb α)}

theorem IsRB.color (h : IsRB t c n) : t.color = c := by cases h <;> rfl

theorem IsRB.join_red (ht : IsRB t .black n) (hu : IsRB u .black n) :
    IsRB (join s .red t a u) .red n := by
  cases s
  · exact .red ht hu
  · exact .red hu ht

theorem IsRB.join_black (ht : IsRB t c₁ n) (hu : IsRB u c₂ n) :
    IsRB (join s .black t a u) .black (n + 1) := by
  cases s
  · exact .black ht hu
  · exact .black hu ht

theorem IsRB.join_congr {u' : Tree α} (h : IsRB (join s c t a u) c' n) (a' : α)
    (ht : ∀ c n, IsRB t c n → IsRB t' c n) (hu : ∀ c n, IsRB u c n → IsRB u' c n) :
    IsRB (join s c t' a' u') c' n := by
  cases s
  · cases h with
    | red hl hr => exact .red (ht _ _ hl) (hu _ _ hr)
    | black hl hr => exact .black (ht _ _ hl) (hu _ _ hr)
  · cases h with
    | red hl hr => exact .red (hu _ _ hl) (ht _ _ hr)
    | black hl hr => exact .black (hu _ _ hl) (ht _ _ hr)

/-- The black height of a node of colour `c` over trees of black height `n`. -/
def Color.over : Color → ℕ → ℕ
  | .red, n => n
  | .black, n => n + 1

theorem IsRB.join_over (ht : IsRB t .black n) (hu : IsRB u .black n) (s : Side)
    (c : Color) (a : α) :
    IsRB (join s c t a u) c (c.over n) := by
  cases c
  · exact ht.join_red hu
  · exact ht.join_black hu

theorem IsRB.of_join_red (h : IsRB (join s .red t a u) c n) :
    c = .red ∧ IsRB t .black n ∧ IsRB u .black n := by
  cases s
  · cases h with
    | red hl hr => exact ⟨rfl, hl, hr⟩
  · cases h with
    | red hl hr => exact ⟨rfl, hr, hl⟩

theorem IsRB.eq_join_red (h : IsRB t .red n) (s : Side) :
    ∃ x a y, t = join s .red x a y ∧ IsRB x .black n ∧ IsRB y .black n := by
  cases h with
  | @red l r a _ hl hr =>
    cases s
    · exact ⟨l, a, r, rfl, hl, hr⟩
    · exact ⟨r, a, l, rfl, hr, hl⟩

theorem IsRB.of_join_black (h : IsRB (join s .black t a u) c n) :
    c = .black ∧ ∃ m c₁ c₂, n = m + 1 ∧ IsRB t c₁ m ∧ IsRB u c₂ m := by
  cases s
  · cases h with
    | black hl hr => exact ⟨rfl, _, _, _, rfl, hl, hr⟩
  · cases h with
    | black hl hr => exact ⟨rfl, _, _, _, rfl, hr, hl⟩

theorem IsRB.of_node {c c' : Color} {l r : Tree α} {a : α} {n : ℕ} (h : IsRB (.node c l a r) c' n) :
    c' = c ∧ ∃ m c₁ c₂, n = c.over m ∧ IsRB l c₁ m ∧ IsRB r c₂ m ∧
      (c = .red → c₁ = .black ∧ c₂ = .black) := by
  cases h with
  | red hl hr => exact ⟨rfl, _, _, _, rfl, hl, hr, fun _ ↦ ⟨rfl, rfl⟩⟩
  | black hl hr => exact ⟨rfl, _, _, _, rfl, hl, hr, nofun⟩

theorem IsRB.paint_black (h : IsRB t .red n) : IsRB (t.paint .black) .black (n + 1) := by
  cases h with
  | red hl hr => exact .black hl hr

/-- The root of a tree may be painted black. -/
theorem IsRB.exists_black (h : IsRB t c n) : ∃ m, IsRB (t.paint .black) .black m := by
  cases h with
  | nil => exact ⟨0, .nil⟩
  | red hl hr => exact ⟨_, .black hl hr⟩
  | black hl hr => exact ⟨_, .black hl hr⟩

/-- Whether a tree is a red-black tree does not depend on its values. -/
theorem IsRB.plug_congr (ht : ∀ c n, IsRB t c n → IsRB t' c n)
    (h : IsRB (plug t path) c n) : IsRB (plug t' path) c n := by
  induction path generalizing t t' with
  | nil => exact ht _ _ h
  | cons p path ih => exact ih (fun _ _ hj ↦ hj.join_congr p.val ht fun _ _ hu ↦ hu) h

/-- What belongs at the end of a path is of black height `n` and hangs below a node of colour `c`.
The root hangs below nothing, and must be black. -/
inductive Fits : List (Crumb α) → Color → ℕ → Prop
  | nil {n : ℕ} : Fits [] .red n
  | red {s : Side} {a : α} {u : Tree α} {path : List (Crumb α)} {n : ℕ} : IsRB u .black n →
      Fits path .black n → Fits (⟨s, .red, a, u⟩ :: path) .red n
  | black {s : Side} {a : α} {u : Tree α} {path : List (Crumb α)} {c c' : Color}
    {n : ℕ} : IsRB u c n →
      Fits path c' (n + 1) → Fits (⟨s, .black, a, u⟩ :: path) .black n

theorem Fits.plug (h : Fits path c n) (ht : IsRB t c' n) (hcolor : c = .red → c' = .black) :
    ∃ m, IsRB (plug t path) .black m := by
  induction h generalizing t c' with
  | nil =>
    cases hcolor rfl
    exact ⟨_, ht⟩
  | red hu _ ih =>
    cases hcolor rfl
    exact ih (ht.join_red hu) nofun
  | black hu _ ih => exact ih (ht.join_black hu) fun _ ↦ rfl

theorem Fits.plug_paint (h : Fits path c n) (ht : IsRB t c' n) (hcolor : c = .red → c' = .black) :
    ∃ m, IsRB ((RedBlack.plug t path).paint .black) .black m := by
  obtain ⟨m, hm⟩ := h.plug ht hcolor
  exact hm.exists_black

theorem Fits.append {path' : List (Crumb α)} (h : Fits path c n)
    (ht : IsRB (RedBlack.plug t path') c' n)
    (hcolor : c = .red → c' = .black) :
    ∃ c₀ m c₁, Fits (path' ++ path) c₀ m ∧ IsRB t c₁ m ∧ (c₀ = .red → c₁ = .black) := by
  induction path' generalizing t with
  | nil => exact ⟨c, n, c', h, ht, hcolor⟩
  | cons p path' ih =>
    obtain ⟨s, cp, a, u⟩ := p
    obtain ⟨c₀, m, c₁, hfits, ht, hcolor⟩ := ih ht
    cases cp with
    | red =>
      obtain ⟨rfl, ht, hu⟩ := ht.of_join_red
      cases c₀ with
      | red => cases hcolor rfl
      | black => exact ⟨.red, m, .black, .red hu hfits, ht, fun _ ↦ rfl⟩
    | black =>
      obtain ⟨rfl, m, c₁, c₂, rfl, ht, hu⟩ := ht.of_join_black
      exact ⟨.black, m, c₁, .black hu hfits, ht, nofun⟩

theorem Fits.of_plug (h : IsRB (RedBlack.plug t path) .black n) :
    ∃ c m c', Fits path c m ∧ IsRB t c' m ∧ (c = .red → c' = .black) := by
  have happend := (Fits.nil).append h fun _ ↦ rfl
  rw [append_nil] at happend
  exact happend

/-! ### Paths that lead somewhere -/

/-- There is a place at which `B` holds, and `W` holds of all subtrees beside the path to it. -/
inductive Leads (B W : Tree α → Prop) : Tree α → Prop
  | here {t : Tree α} : B t → Leads B W t
  | down {s : Side} {c : Color} {t : Tree α} {a : α} {u : Tree α} : Leads B W t → W u →
      Leads B W (join s c t a u)

variable {B B' W W' : Tree α → Prop}

variable (h : Leads B W t)
include h

theorem Leads.imp (hB : ∀ t, B t → B' t) (hW : ∀ u, W u → W' u) : Leads B' W' t := by
  induction h with
  | here h => exact .here (hB _ h)
  | down _ hu ih => exact .down ih (hW _ hu)

theorem Leads.plug (hpath : ∀ p ∈ path, W p.other) : Leads B W (plug t path) := by
  induction path generalizing t with
  | nil => exact h
  | cons p path ih =>
    obtain ⟨hp, hpath⟩ := forall_mem_cons.1 hpath
    exact ih (.down h hp) hpath

theorem Leads.paint (hB : ∀ t c, B t → B (t.paint c)) (c : Color) : Leads B W (t.paint c) := by
  cases h with
  | here h => exact .here (hB _ _ h)
  | down h hu =>
    rw [paint_join]
    exact .down h hu

variable (hB : ∀ t, B t → ∃ c l a r, t = .node c l a r ∧ m a = true)
include hB

theorem Leads.exists_mem : ∃ a ∈ t.toList, m a = true := by
  induction h with
  | here h =>
    obtain ⟨c, l, a, r, rfl, hm⟩ := hB _ h
    exact ⟨a, by simp, hm⟩
  | down _ _ ih => grind [mem_toList_join]

/-- The search for an element that occurs once ends at the place that is led to. -/
theorem Leads.locate (honce : t.toList.Pairwise fun a b ↦ m a = true → m b = false) :
    ∃ t' path', locate m path t = some (t', path' ++ path) ∧ B t' ∧ ∀ p ∈ path', W p.other := by
  induction h generalizing path with
  | here h =>
    obtain ⟨c, l, a, r, rfl, hm⟩ := hB _ h
    exact ⟨_, [], by rw [RedBlack.locate, if_pos hm]; rfl, h, fun _ hp ↦ absurd hp not_mem_nil⟩
  | @down s c t a u h hu ih =>
    obtain ⟨x, hx, hm⟩ := h.exists_mem hB
    cases s with
    | left =>
      rw [join, toList_node, pairwise_append] at honce
      obtain ⟨ht, -, hcross⟩ := honce
      obtain ⟨t', path', hloc, hB', hW⟩ := ih ht
      have ha : ¬m a = true := by grind
      refine ⟨t', path' ++ [⟨.left, c, a, u⟩], ?_, hB', ?_⟩
      · rw [join, RedBlack.locate, if_neg ha, hloc, append_assoc]
        rfl
      · simpa [or_imp, forall_and] using ⟨hW, hu⟩
    | right =>
      rw [join, toList_node, pairwise_append, pairwise_cons] at honce
      obtain ⟨-, ⟨ha, ht⟩, hcross⟩ := honce
      obtain ⟨t', path', hloc, hB', hW⟩ := ih ht
      have ha : ¬m a = true := fun hma ↦ Bool.false_ne_true ((ha x hx hma).symm.trans hm)
      have hnone : ∀ b ∈ u.toList, m b = false := fun b hb ↦ by
        by_contra hmb
        rw [Bool.not_eq_false] at hmb
        exact Bool.false_ne_true ((hcross b hb x (mem_cons_of_mem _ hx) hmb).symm.trans hm)
      refine ⟨t', path' ++ [⟨.right, c, a, u⟩], ?_, hB', ?_⟩
      · rw [join, RedBlack.locate, if_neg ha, locate_eq_none hnone]
        rw [hloc, append_assoc]
        rfl
      · simpa [or_imp, forall_and] using ⟨hW, hu⟩

end RedBlack
