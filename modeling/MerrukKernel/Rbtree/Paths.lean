import MerrukKernel.Rbtree.Rebalance

/-!
# What rebalancing changes

The rebalancing code knows nothing of data that a user keeps in the nodes about their subtrees.
But the subtrees that change all lie on the path from one known place to the root, or hang beside
that path (`Leads`), so that a user can repair such data from that place upwards.

The place is, after an insertion, the new node or its left child (`CameUp`), and after a removal
the deepest node that `rb_erase` may have touched (`Ready`).
-/

namespace Rbtree

open RedBlack RedBlack.Tree List

variable {α : Type*}

/-- A property of subtrees that does not depend on the colour of their root and passes to their
children. -/
structure Hereditary (V : RedBlack.Tree α → Prop) : Prop where
  nil : V .nil
  paint : ∀ t c, V t → V (t.paint c)
  children : ∀ s c t a u, V (join s c t a u) → V t ∧ V u

/-- The children have the property. -/
def Semi (V : RedBlack.Tree α → Prop) (u : RedBlack.Tree α) : Prop :=
  ∀ s c t a v, u = join s c t a v → V t ∧ V v

section

variable {V : RedBlack.Tree α → Prop} {s : Side} {c : Color} {t u : RedBlack.Tree α} {a : α}
  {path : List (Crumb α)}

theorem Hereditary.semi (hV : Hereditary V) (hu : V u) : Semi V u := by
  rintro s c t a v rfl
  exact hV.children _ _ _ _ _ hu

theorem semi_join (ht : V t) (hu : V u) : Semi V (join s c t a u) := by
  intro s' c' t' a' v' heq
  cases s <;> cases s' <;> cases heq <;> first | exact ⟨ht, hu⟩ | exact ⟨hu, ht⟩

theorem Hereditary.of_plug (hV : Hereditary V) (h : V (plug t path)) :
    V t ∧ ∀ p ∈ path, V p.other := by
  induction path generalizing t with
  | nil => exact ⟨h, fun _ hp ↦ absurd hp not_mem_nil⟩
  | cons p path ih =>
    obtain ⟨hjoin, hpath⟩ := ih h
    obtain ⟨ht, hp⟩ := hV.children _ _ _ _ _ hjoin
    exact ⟨ht, forall_mem_cons.2 ⟨hp, hpath⟩⟩

/-- A new leaf. -/
def LeafAt (a : α) (t : RedBlack.Tree α) : Prop := ∃ c, t = .node c .nil a .nil

/-- A new node after the insertion: a leaf, or a node that came up between its parent and its
grandparent. -/
def CameUp (V : RedBlack.Tree α → Prop) (a : α) (t : RedBlack.Tree α) : Prop :=
  LeafAt a t ∨ ∃ c c' x b y u, t = .node c (.node c' x b y) a u ∧ V x ∧ V y ∧ Semi V u

variable {r : RedBlack.Tree α} {p : Crumb α}

/-- **What an insertion changes**: the subtrees on the path from the new node, or from its left
child if it has one, and those beside the path. -/
theorem insertColor_leads (hV : Hereditary V) (h : insertColor t path = some r)
    (ht : Leads (LeafAt a) V t) (hpath : ∀ p ∈ path, V p.other) :
    Leads (CameUp V a) (Semi V) r := by
  have hweak : ∀ {t}, Leads (LeafAt a) V t → Leads (CameUp V a) (Semi V) t := fun ht ↦
    ht.imp (fun _ hleaf ↦ .inl hleaf) fun _ ↦ hV.semi
  have hpaint : ∀ t c, CameUp V a t → CameUp V a (t.paint c) := by
    rintro t c (⟨c', rfl⟩ | ⟨c', c'', x, b, y, u, rfl, hx, hy, hu⟩)
    · exact .inl ⟨c, rfl⟩
    · exact .inr ⟨c, c'', x, b, y, u, rfl, hx, hy, hu⟩
  induction t, path using insertColor.induct with
  | case1 t =>
    cases h
    exact (hweak ht).paint hpaint _
  | case2 t p hp =>
    rw [insertColor, if_pos hp] at h
    cases h
  | case3 t p hp =>
    rw [insertColor, if_neg hp] at h
    cases h
    exact ((hweak ht).plug fun q hq ↦ hV.semi (hpath q hq)).paint hpaint _
  | case4 t p g path hp hg ih =>
    rw [insertColor, if_pos hp, if_pos hg] at h
    obtain ⟨hp, hpath⟩ := forall_mem_cons.1 hpath
    obtain ⟨hg, hpath⟩ := forall_mem_cons.1 hpath
    exact ih h (.down (.down ht hp) (hV.paint _ _ hg)) hpath
  | case5 t p g path hp hg =>
    rw [insertColor, if_pos hp, if_neg hg] at h
    cases h
    obtain ⟨hpv, hpath⟩ := forall_mem_cons.1 hpath
    obtain ⟨hgv, hpath⟩ := forall_mem_cons.1 hpath
    refine (Leads.plug ?_ fun q hq ↦ hV.semi (hpath q hq)).paint hpaint _
    obtain ⟨s, cp, b, u⟩ := p
    obtain ⟨s', cg, b', v⟩ := g
    by_cases hs : s = s'
    · subst hs
      rw [if_pos rfl, paint_join, rotate_flip_join]
      exact .down (hweak ht) (semi_join hpv hgv)
    · obtain rfl := Side.eq_flip_of_ne hs
      rw [if_neg hs, join_flip]
      cases ht with
      | here hleaf =>
        obtain ⟨c, rfl⟩ := hleaf
        refine .here (.inr ?_)
        cases s' with
        | left => exact ⟨_, _, _, _, _, _, rfl, hpv, hV.nil, semi_join (s := .left) hV.nil hgv⟩
        | right => exact ⟨_, _, _, _, _, _, rfl, hgv, hV.nil, semi_join (s := .right) hpv hV.nil⟩
      | @down s'' c'' t' b'' u' ht' hu' =>
        by_cases hs' : s'' = s'
        · subst hs'
          rw [rotate_join, paint_join, rotate_flip_join]
          refine .down ?_ (semi_join hu' hgv)
          rw [← join_flip]
          exact .down (hweak ht') (hV.semi hpv)
        · obtain rfl := Side.eq_flip_of_ne hs'
          rw [join_flip, rotate_join, paint_join, rotate_flip_join, ← join_flip]
          exact .down (.down (hweak ht') (hV.semi hgv)) (semi_join hpv hu')
  | case6 t p g path hp =>
    rw [insertColor, if_neg hp] at h
    cases h
    exact ((hweak ht).plug fun q hq ↦ hV.semi (hpath q hq)).paint hpaint _

/-- A node with a value that satisfies `m`, and with children that have the property. -/
def StartAt (V : RedBlack.Tree α → Prop) (m : α → Prop) (t : RedBlack.Tree α) : Prop :=
  ∃ c l b r, t = .node c l b r ∧ m b ∧ V l ∧ V r

theorem StartAt.paint {m : α → Prop} (h : StartAt V m t) (c : Color) : StartAt V m (t.paint c) := by
  obtain ⟨c', l, b, r, rfl, hb, hl, hr⟩ := h
  exact ⟨c, l, b, r, rfl, hb, hl, hr⟩

theorem startAt_join {m : α → Prop} (ha : m a) (ht : V t) (hu : V u) :
    StartAt V m (join s c t a u) := by
  cases s
  · exact ⟨_, _, _, _, rfl, ha, ht, hu⟩
  · exact ⟨_, _, _, _, rfl, ha, hu, ht⟩

variable {m : α → Prop}

theorem rebalance_leads (hV : Hereditary V) {near far : RedBlack.Tree α} {b : α} {st : Step α}
    (h : rebalance t p near b far = some st)
    (ht : ∀ c x, V x → Leads (StartAt V m) (Semi V) (join p.side c t p.val x))
    (hother : ∀ c, V (join p.side c near b far)) : Leads (StartAt V m) (Semi V) st.tree := by
  obtain ⟨hnear, hfar⟩ := hV.children _ _ _ _ _ (hother .black)
  unfold rebalance at h
  split at h
  · cases h
    exact ht _ _ (hother _)
  · next hcolor =>
    simp only at h
    split at h
    · cases h
    · next c x a y heq =>
      cases h
      show Leads _ _ (rotate p.side _)
      rw [rotate_join]
      have heq := unjoin_eq_some heq
      split at heq
      · next hblack =>
        -- the near child is red, hence not null
        obtain ⟨c', x', a', y', hjoin⟩ : ∃ c' x' a' y', near = join p.side c' x' a' y' := by
          cases hn : near.unjoin p.side with
          | none =>
            rw [unjoin_eq_none hn] at hcolor
            exact absurd ⟨rfl, hblack⟩ hcolor
          | some v => exact ⟨_, _, _, _, unjoin_eq_some hn⟩
        subst hjoin
        obtain ⟨hx', hy'⟩ := hV.children _ _ _ _ _ hnear
        rw [paint_join, rotate_flip_join] at heq
        have hinj := unjoin_join (s := p.side) (c := c) (t := x) (a := a) (u := y)
        rw [← heq, unjoin_join] at hinj
        cases hinj
        rw [paint_join]
        exact .down (ht _ _ hx') (semi_join hy' hfar)
      · have hinj := unjoin_join (s := p.side) (c := c) (t := x) (a := a) (u := y)
        rw [← heq, unjoin_join] at hinj
        cases hinj
        exact .down (ht _ _ hnear) (hV.semi (hV.paint _ _ hfar))

theorem eraseStep_leads (hV : Hereditary V) {st : Step α} (h : eraseStep t p = some st)
    (ht : ∀ c x, V x → Leads (StartAt V m) (Semi V) (join p.side c t p.val x))
    (hother : V p.other) :
    Leads (StartAt V m) (Semi V) st.tree := by
  unfold eraseStep at h
  split at h
  · cases h
  · next near b far heq =>
    rw [unjoin_eq_some heq] at hother
    refine rebalance_leads hV h ht fun c ↦ ?_
    rw [← paint_join]
    exact hV.paint _ _ hother
  · next near b far heq =>
    rw [unjoin_eq_some heq] at hother
    obtain ⟨hnear, hfar⟩ := hV.children _ _ _ _ _ hother
    split at h
    · cases h
    · next c x b' y heq' =>
      rw [unjoin_eq_some heq'] at hnear
      have hreb : ∀ {st' : Step α}, rebalance t { p with color := .red } x b' y = some st' →
          Leads (StartAt V m) (Semi V) st'.tree := fun hst' ↦ by
        refine rebalance_leads hV hst' ht fun c' ↦ ?_
        have hp := hV.paint _ c' hnear
        rw [paint_join] at hp
        exact hp
      split at h
      · cases h
      · next u hu =>
        cases h
        exact .down ((hreb hu).paint (fun _ c hs ↦ hs.paint c) _) (hV.semi hfar)
      · next u hu =>
        cases h
        exact .down (hreb hu) (hV.semi hfar)
      · next u hu =>
        cases h
        exact .down (hreb hu) (hV.semi hfar)

/-- The node with subtree `t` leads to the start, or its parent is the start. -/
def Ready (V : RedBlack.Tree α → Prop) (m : α → Prop) (t : RedBlack.Tree α)
    (path : List (Crumb α)) : Prop :=
  Leads (StartAt V m) (Semi V) t ∨ V t ∧ ∃ p ∈ path.head?, m p.val

variable (hV : Hereditary V)
include hV

theorem Ready.join (h : Ready V m t (p :: path)) (c : Color) {x : RedBlack.Tree α}
    (hx : V x) : Leads (StartAt V m) (Semi V) (join p.side c t p.val x) := by
  rcases h with h | ⟨ht, p', hp', hm⟩
  · exact .down h (hV.semi hx)
  · cases hp'
    exact .here (startAt_join hm ht hx)

theorem Ready.paint (h : Ready V m t path) (c : Color) : Ready V m (t.paint c) path := by
  rcases h with h | ⟨ht, hp⟩
  · exact .inl (h.paint (fun _ c hs ↦ hs.paint c) c)
  · exact .inr ⟨hV.paint _ _ ht, hp⟩

theorem Ready.plug (h : Ready V m t path) (hpath : ∀ p ∈ path, V p.other) :
    Leads (StartAt V m) (Semi V) (plug t path) := by
  cases path with
  | nil =>
    rcases h with h | ⟨-, p, hp, -⟩
    · exact h
    · cases hp
  | cons p path =>
    obtain ⟨hp, hpath⟩ := forall_mem_cons.1 hpath
    exact (h.join hV p.color hp).plug fun q hq ↦ hV.semi (hpath q hq)

theorem eraseColor_leads (h : eraseColor t path = some r)
    (ht : Ready V m t path) (hpath : ∀ p ∈ path, V p.other) : Leads (StartAt V m) (Semi V) r := by
  induction path generalizing t with
  | nil =>
    cases h
    exact (ht.paint hV .black).plug hV hpath
  | cons p path ih =>
    rw [eraseColor] at h
    split at h
    · cases h
      exact (ht.paint hV .black).plug hV hpath
    · obtain ⟨hp, hpath⟩ := forall_mem_cons.1 hpath
      have hsemi : ∀ q ∈ path, Semi V q.other := fun q hq ↦ hV.semi (hpath q hq)
      split at h
      · cases h
      · next u hu => exact ih h (.inl (eraseStep_leads hV hu (fun c _ ↦ ht.join hV c) hp)) hpath
      · next u hu =>
        cases h
        exact (eraseStep_leads hV hu (fun c _ ↦ ht.join hV c) hp).plug hsemi
      · next u hu =>
        cases h
        exact ((eraseStep_leads hV hu (fun c _ ↦ ht.join hV c) hp).plug hsemi).paint
          (fun _ c hs ↦ hs.paint c) _

theorem repair_leads (h : repair c t path = some r)
    (ht : Ready V m t path) (hpath : ∀ p ∈ path, V p.other) : Leads (StartAt V m) (Semi V) r := by
  unfold repair at h
  split at h
  · exact eraseColor_leads hV h ht hpath
  · cases h
    exact ht.plug hV hpath

end

end Rbtree
