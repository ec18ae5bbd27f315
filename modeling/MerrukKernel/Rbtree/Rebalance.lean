import MerrukKernel.Library.RedBlack

/-!
# Rebalancing

`lib/rbtree.c`. A node is linked as a red leaf and `rb_insert_color` repairs the colours on the
way to the root; `rb_erase` takes a node out and `__rb_erase_color` repairs the black heights.
Both follow parent pointers, so they are recursions over the path to the root. The two halves of
each function are mirror images, which `join` covers at once. `none` stands for a null pointer
that is followed.

The in-order sequence of the result is what it should be, and a red-black tree remains one; in
particular no null pointer is followed.
-/

namespace Rbtree

open RedBlack RedBlack.Tree List

variable {α : Type*}

/-- The loop of `rb_insert_color`, at the node with subtree `t`. -/
def insertColor : RedBlack.Tree α → List (Crumb α) → Option (RedBlack.Tree α)
  | t, [] => some (t.paint .black)
  | t, [p] => if p.color = .red then none else some ((plug t [p]).paint .black)
  | t, p :: g :: path =>
    if p.color = .red then
      if g.other.color = .red then
        -- the uncle is red: the grandparent is the next node
        insertColor (join g.side .red (join p.side .black t p.val p.other) g.val
          (g.other.paint .black)) path
      else
        let parent := join p.side p.color t p.val p.other
        let parent := if p.side = g.side then parent else rotate g.side parent
        let gparent := rotate g.side.flip (join g.side .red (parent.paint .black) g.val g.other)
        -- the node now has a black parent, so that the loop ends
        some ((plug gparent path).paint .black)
    else some ((plug t (p :: g :: path)).paint .black)

/-- The walk of a caller down to a null pointer, by its own comparisons. -/
def descend (go : α → Side) : RedBlack.Tree α → List (Crumb α) → List (Crumb α)
  | .nil, path => path
  | .node c l a r, path =>
    match go a with
    | .left => descend go l (⟨.left, c, a, r⟩ :: path)
    | .right => descend go r (⟨.right, c, a, l⟩ :: path)

/-- A new node is linked where the walk ends (`rb_link_node`), and the tree is rebalanced. -/
def insert (go : α → Side) (x : α) (t : RedBlack.Tree α) : Option (RedBlack.Tree α) :=
  insertColor (.node .red .nil x .nil) (descend go t [])

/-- What an iteration of `__rb_erase_color` leaves of the subtree at the parent. -/
inductive Step (α : Type*)
  /-- The loop goes on, with the parent as the node. -/
  | up (t : RedBlack.Tree α)
  /-- The loop ends, as the node is red; it was painted black. -/
  | settled (t : RedBlack.Tree α)
  /-- The loop ends, with the root as the node. -/
  | rotated (t : RedBlack.Tree α)

/-- The second part of an iteration of `__rb_erase_color`, at a parent `p` whose other child is a
black node with value `b`, and with the child `near` on the side of the node `t`. -/
def rebalance (t : RedBlack.Tree α) (p : Crumb α) (near : RedBlack.Tree α) (b : α)
    (far : RedBlack.Tree α) : Option (Step α) :=
  if near.color = .black ∧ far.color = .black then
    some (.up (join p.side p.color t p.val (join p.side .red near b far)))
  else
    let other := if far.color = .black then
        rotate p.side.flip (join p.side .red (near.paint .black) b far)
      else join p.side .black near b far
    match other.unjoin p.side with
    | none => none
    | some (_, near, b, far) =>
      some (.rotated (rotate p.side
        (join p.side .black t p.val (join p.side p.color near b (far.paint .black)))))

/-- An iteration of `__rb_erase_color`, at the node with subtree `t` and its parent `p`. -/
def eraseStep (t : RedBlack.Tree α) (p : Crumb α) : Option (Step α) :=
  match p.other.unjoin p.side with
  | none => none
  | some (.black, near, b, far) => rebalance t p near b far
  | some (.red, near, b, far) =>
    -- the other child is red and comes up, and its near child is the other child now
    match near.unjoin p.side with
    | none => none
    | some (_, near, b', far') =>
      match rebalance t { p with color := .red } near b' far' with
      | none => none
      | some (.up u) => some (.settled (join p.side .black (u.paint .black) b far))
      | some (.settled u) => some (.settled (join p.side .black u b far))
      | some (.rotated u) => some (.rotated (join p.side .black u b far))

/-- `__rb_erase_color`, at the node with subtree `t`. -/
def eraseColor : RedBlack.Tree α → List (Crumb α) → Option (RedBlack.Tree α)
  | t, [] => some (t.paint .black)
  | t, p :: path =>
    if t.color = .red then some (plug (t.paint .black) (p :: path))
    else
      match eraseStep t p with
      | none => none
      | some (.up u) => eraseColor u path
      | some (.settled u) => some (plug u path)
      | some (.rotated u) => some ((plug u path).paint .black)

/-- The leftmost node of a tree that is not empty: its colour, value and right child, and the path
to it. -/
def leftmost (c : Color) (a : α) (r : RedBlack.Tree α) : RedBlack.Tree α → List (Crumb α) →
    Color × α × RedBlack.Tree α × List (Crumb α)
  | .nil, path => (c, a, r, path)
  | .node c' l' a' r', path => leftmost c' a' r' l' (⟨.left, c, a, r⟩ :: path)

/-- `rb_erase`, of the node with colour `c` and children `l` and `r`. A node with two children is
replaced by its successor, which gets its colour. -/
def erase (c : Color) (l r : RedBlack.Tree α) (path : List (Crumb α)) : Option (RedBlack.Tree α) :=
  match l, r with
  | .nil, r => if c = .black then eraseColor r path else some (plug r path)
  | l, .nil => if c = .black then eraseColor l path else some (plug l path)
  | l, .node c' l' a' r' =>
    match leftmost c' a' r' l' [] with
    | (color, a, child, path') =>
      let path := path' ++ ⟨.right, c, a, l⟩ :: path
      if color = .black then eraseColor child path else some (plug child path)

/-! ### The in-order sequence -/

variable {path : List (Crumb α)} {r t l : RedBlack.Tree α} {go : α → Side} {p : Crumb α} {c : Color}
  {n : ℕ}

theorem toList_insertColor (h : insertColor t path = some r) : r.toList = (plug t path).toList := by
  induction t, path using insertColor.induct with
  | case1 t =>
    cases h
    exact toList_paint
  | case2 t p hp =>
    rw [insertColor, if_pos hp] at h
    cases h
  | case3 t p hp =>
    rw [insertColor, if_neg hp] at h
    cases h
    exact toList_paint
  | case4 t p g path hp hg ih =>
    rw [insertColor, if_pos hp, if_pos hg] at h
    rw [ih h]
    exact toList_plug_congr (toList_join_congr (toList_join_congr rfl rfl) toList_paint) path
  | case5 t p g path hp hg =>
    rw [insertColor, if_pos hp, if_neg hg] at h
    cases h
    rw [toList_paint]
    refine toList_plug_congr ?_ path
    rw [toList_rotate]
    refine toList_join_congr ?_ rfl
    rw [toList_paint]
    split
    · rfl
    · exact toList_rotate ..
  | case6 t p g path hp =>
    rw [insertColor, if_neg hp] at h
    cases h
    exact toList_paint

theorem plug_descend (go : α → Side) (t : RedBlack.Tree α) (path : List (Crumb α)) :
    plug .nil (descend go t path) = plug t path := by
  induction t generalizing path with
  | nil => rfl
  | node c l a r ihl ihr =>
    rw [descend]
    split
    · exact ihl _
    · exact ihr _

/-- Where a walk ends, if its answers are monotone along the tree. -/
theorem around_descend (path : List (Crumb α))
    (hmono : t.toList.Pairwise fun a b ↦ go a = .left → go b = .left) :
    ∃ before after, t.toList = before ++ after ∧ (∀ a ∈ before, go a = .right) ∧
      (∀ a ∈ after, go a = .left) ∧
      around (descend go t path) = ((around path).1 ++ before, after ++ (around path).2) := by
  induction t generalizing path with
  | nil => exact ⟨[], [], rfl, by simp, by simp, by simp [descend]⟩
  | node c l a r ihl ihr =>
    rw [toList_node, pairwise_append, pairwise_cons] at hmono
    obtain ⟨hl, ⟨har, hr⟩, hcross⟩ := hmono
    rw [descend]
    cases hgo : go a with
    | left =>
      obtain ⟨before, after, heq, hb, ha, haround⟩ := ihl (⟨.left, c, a, r⟩ :: path) hl
      refine ⟨before, after ++ a :: r.toList, ?_, hb, fun x hx ↦ ?_, ?_⟩
      · rw [toList_node, heq, append_assoc]
      · grind
      · rw [haround]
        simp [around]
    | right =>
      obtain ⟨before, after, heq, hb, ha, haround⟩ := ihr (⟨.right, c, a, l⟩ :: path) hr
      have hright : ∀ x ∈ l.toList, go x = .right := fun x hx ↦ by
        cases hx' : go x with
        | right => rfl
        | left => grind
      refine ⟨l.toList ++ a :: before, after, ?_, fun x hx ↦ ?_, ha, ?_⟩
      · grind [toList_node]
      · grind
      · rw [haround]
        simp [around]

variable {t' far near child : RedBlack.Tree α} {x b a : α} {st : Step α}

/-- An insertion adds one element somewhere, whatever the comparisons. -/
theorem exists_toList_insert (h : insert go x t = some t') :
    ∃ before after, t.toList = before ++ after ∧ t'.toList = before ++ x :: after := by
  refine ⟨(around (descend go t [])).1, (around (descend go t [])).2, ?_, ?_⟩
  · have hplug : (plug .nil (descend go t [])).toList = t.toList :=
      congrArg toList (plug_descend go t [])
    rw [← hplug, toList_plug]
    simp
  · rw [toList_insertColor h, toList_plug]
    simp

/-- **Where an insertion lands.** -/
theorem toList_insert
    (hmono : t.toList.Pairwise fun a b ↦ go a = .left → go b = .left)
    (h : insert go x t = some t') :
    ∃ before after, t.toList = before ++ after ∧ t'.toList = before ++ x :: after ∧
      (∀ a ∈ before, go a = .right) ∧ ∀ a ∈ after, go a = .left := by
  obtain ⟨before, after, heq, hb, ha, haround⟩ := around_descend [] hmono
  refine ⟨before, after, heq, ?_, hb, ha⟩
  rw [toList_insertColor h, toList_plug, haround]
  simp [around]

/-- The subtree that an iteration leaves. -/
def Step.tree : Step α → RedBlack.Tree α
  | .up t => t
  | .settled t => t
  | .rotated t => t

theorem toList_rebalance (h : rebalance t p near b far = some st) :
    st.tree.toList = (join p.side p.color t p.val (join p.side .black near b far)).toList := by
  unfold rebalance at h
  split at h
  · cases h
    exact toList_join_congr rfl (toList_join_congr rfl rfl)
  · simp only at h
    split at h
    · cases h
    · next c x a y hother =>
      cases h
      have hjoin := unjoin_eq_some hother
      show (rotate p.side _).toList = _
      rw [toList_rotate]
      refine toList_join_congr rfl ?_
      calc (join p.side p.color x a (y.paint .black)).toList = (join p.side c x a y).toList :=
            toList_join_congr rfl toList_paint
        _ = (join p.side .black near b far).toList := by
            rw [← hjoin]
            split
            · rw [toList_rotate]
              exact toList_join_congr toList_paint rfl
            · rfl

theorem toList_join_join (s : Side) (c₁ c₂ c₃ c₄ : Color) (t : RedBlack.Tree α) (a : α)
    (u : RedBlack.Tree α) (b : α)
    (v : RedBlack.Tree α) :
    (join s c₁ (join s c₂ t a u) b v).toList = (join s c₃ t a (join s c₄ u b v)).toList := by
  cases s <;> simp [join]

theorem toList_eraseStep (h : eraseStep t p = some st) :
    st.tree.toList = (join p.side p.color t p.val p.other).toList := by
  unfold eraseStep at h
  split at h
  · cases h
  · next hother =>
    rw [toList_rebalance h]
    exact toList_join_congr rfl (by rw [unjoin_eq_some hother])
  · next near b far hother =>
    have hother := unjoin_eq_some hother
    split at h
    · cases h
    · next c x b' y hnear =>
      have hnear := unjoin_eq_some hnear
      have hmove : ∀ {st' : Step α}, rebalance t { p with color := .red } x b' y = some st' →
          (join p.side .black st'.tree b far).toList =
            (join p.side p.color t p.val p.other).toList := by
        intro st' hst'
        rw [toList_join_congr (toList_rebalance hst') rfl,
          toList_join_join p.side .black .red p.color .red]
        refine toList_join_congr rfl ?_
        rw [hother, hnear]
        exact toList_join_congr (toList_join_congr rfl rfl) rfl
      split at h
      · cases h
      · next u hu =>
        cases h
        rw [← hmove hu]
        exact toList_join_congr toList_paint rfl
      · next u hu =>
        cases h
        exact hmove hu
      · next u hu =>
        cases h
        exact hmove hu

theorem toList_eraseColor (h : eraseColor t path = some r) : r.toList = (plug t path).toList := by
  induction path generalizing t with
  | nil =>
    cases h
    exact toList_paint
  | cons p path ih =>
    rw [eraseColor] at h
    split at h
    · grind [toList_plug_congr, toList_paint]
    · split at h
      · cases h
      · next u hu =>
        rw [ih h]
        exact toList_plug_congr (toList_eraseStep hu) path
      · next u hu =>
        cases h
        exact toList_plug_congr (toList_eraseStep hu) path
      · next u hu =>
        cases h
        rw [toList_paint]
        exact toList_plug_congr (toList_eraseStep hu) path

theorem leftmost_plug (c : Color) (a : α) (r l : RedBlack.Tree α) (path : List (Crumb α)) :
    plug (.node (leftmost c a r l path).1 .nil (leftmost c a r l path).2.1
      (leftmost c a r l path).2.2.1)
      (leftmost c a r l path).2.2.2 = plug (.node c l a r) path := by
  induction l generalizing c a r path with
  | nil => rfl
  | node c' l' a' r' ih => exact ih c' a' r' (⟨.left, c, a, r⟩ :: path)

/-- The end of `rb_erase`: the colours are repaired if a black node went. -/
def repair (color : Color) (child : RedBlack.Tree α) (path : List (Crumb α)) :
    Option (RedBlack.Tree α) :=
  if color = .black then eraseColor child path else some (plug child path)

theorem toList_repair {color : Color}
    (h : repair color child path = some t) : t.toList = (plug child path).toList := by
  unfold repair at h
  split at h
  · exact toList_eraseColor h
  · cases h
    rfl

/-- **The three cases of `rb_erase`.** -/
theorem erase_cases (c : Color) (l r : RedBlack.Tree α) (path : List (Crumb α)) :
    (l = .nil ∧ erase c l r path = repair c r path) ∨
    (r = .nil ∧ l ≠ .nil ∧ erase c l r path = repair c l path) ∨
    ∃ color a child path', l ≠ .nil ∧ r = plug (.node color .nil a child) path' ∧
      (∀ p ∈ path', p.side = .left) ∧
      erase c l r path = repair color child (path' ++ ⟨.right, c, a, l⟩ :: path) := by
  cases l with
  | nil => exact .inl ⟨rfl, by cases r <;> rfl⟩
  | node c₁ l₁ a₁ r₁ =>
    cases r with
    | nil => exact .inr (.inl ⟨rfl, node_ne_nil, rfl⟩)
    | node c' l' a' r' =>
      refine .inr (.inr ⟨_, _, _, _, node_ne_nil, (leftmost_plug c' a' r' l' []).symm, ?_, rfl⟩)
      have hleft :
          ∀ (l : RedBlack.Tree α) (c : Color) (a : α) (r : RedBlack.Tree α) (path : List (Crumb α)),
          (∀ p ∈ path, p.side = .left) → ∀ p ∈ (leftmost c a r l path).2.2.2, p.side = .left := by
        intro l
        induction l with
        | nil => exact fun _ _ _ _ h ↦ h
        | node c' l' a' r' ih =>
          exact fun c a r path h ↦ ih _ _ _ _ (forall_mem_cons.2 ⟨rfl, h⟩)
      exact hleft _ _ _ _ _ fun _ h ↦ absurd h not_mem_nil

theorem toList_erase (h : erase c l r path = some t) :
    t.toList = (around path).1 ++ (l.toList ++ r.toList) ++ (around path).2 := by
  rcases erase_cases c l r path with ⟨rfl, heq⟩ | ⟨rfl, -, heq⟩ |
    ⟨color, a, child, path', -, rfl, hleft, heq⟩
  · rw [toList_repair h, toList_plug]
    simp
  · rw [heq] at h
    rw [toList_repair h, toList_plug]
    simp
  · rw [heq] at h
    rw [toList_repair h, plug_append]
    -- the successor stands before everything else of the right subtree
    have hfront : (around path').1 = [] := by
      clear heq h
      induction path' with
      | nil => rfl
      | cons p path' ih =>
        obtain ⟨hp, hleft⟩ := forall_mem_cons.1 hleft
        rw [around, hp]
        exact ih hleft
    rw [plug]
    simp [hfront, join, toList_plug]

/-! ### Red-black trees remain red-black trees -/

/-- **`rb_insert_color` restores a red-black tree** in which one red node may have a red parent. -/
theorem insertColor_isRB (ht : IsRB t .red n)
    (hpath : Fits path c n) : ∃ r m, insertColor t path = some r ∧ IsRB r .black m := by
  induction t, path using insertColor.induct generalizing c n with
  | case1 t => exact ⟨_, _, rfl, ht.paint_black⟩
  | case2 t p hp =>
    -- the root is black
    obtain ⟨s, cp, a, u⟩ := p
    obtain rfl : cp = .red := hp
    cases hpath with
    | red _ h => cases h
  | case3 t p hp =>
    cases hpath with
    | red => exact absurd rfl hp
    | black hu h =>
      obtain ⟨m, hm⟩ := (Fits.black hu h).plug_paint ht nofun
      exact ⟨_, m, rfl, hm⟩
  | case4 t p g path hp hg ih =>
    rw [insertColor, if_pos hg]
    obtain ⟨s, cp, a, u⟩ := p
    obtain rfl : cp = .red := hp
    obtain ⟨s', cg, b, v⟩ := g
    cases hpath with
    | red hu h =>
      cases h with
      | black hv h =>
        have hv : IsRB v .red n := by grind [hv.color]
        exact ih ((ht.join_black hu).join_red hv.paint_black) h
  | case5 t p g path hp hg =>
    rw [insertColor, if_neg hg]
    obtain ⟨s, cp, a, u⟩ := p
    obtain rfl : cp = .red := hp
    obtain ⟨s', cg, b, v⟩ := g
    cases hpath with
    | red hu h =>
      cases h with
      | black hv h =>
        have hv : IsRB v .black n := by
          cases hv with
          | red => exact absurd rfl hg
          | nil => exact .nil
          | black hl hr => exact .black hl hr
        have hsub : ∃ t', (rotate s'.flip (join s' .red ((if s = s' then join s .red t a u
            else rotate s' (join s .red t a u)).paint .black) b v)) = t' ∧
              IsRB t' .black (n + 1) := by
          by_cases hs : s = s'
          · subst hs
            rw [if_pos rfl, paint_join, rotate_flip_join]
            exact ⟨_, rfl, ht.join_black (hu.join_red hv)⟩
          · obtain rfl := Side.eq_flip_of_ne hs
            rw [if_neg hs, join_flip]
            obtain ⟨y, x, z, rfl, hy, hz⟩ := ht.eq_join_red s'
            rw [rotate_join, paint_join, rotate_flip_join]
            exact ⟨_, rfl, (hu.join_red hy).join_black (hz.join_red hv)⟩
        obtain ⟨t', heq, ht'⟩ := hsub
        obtain ⟨m, hm⟩ := h.plug_paint ht' fun _ ↦ rfl
        exact ⟨_, m, rfl, heq ▸ hm⟩
  | case6 t p g path hp =>
    cases hpath with
    | red => exact absurd rfl hp
    | black hu h =>
      obtain ⟨m, hm⟩ := (Fits.black hu h).plug_paint ht nofun
      exact ⟨_, m, rfl, hm⟩

theorem insert_isRB (h : IsRB t .black n) (go : α → Side) (x : α) :
    ∃ t' m, insert go x t = some t' ∧ IsRB t' .black m := by
  have hplug : IsRB (plug .nil (descend go t [])) .black n := by
    rw [plug_descend]
    exact h
  obtain ⟨c, m, c', hfits, hnil, -⟩ := Fits.of_plug hplug
  cases hnil
  exact insertColor_isRB (.red .nil .nil) hfits

/-- A tree that lacks a black node to have black height `n + 1`: it is red and is to be painted,
or its height is `n`. -/
def Deficient (t : RedBlack.Tree α) (n : ℕ) : Prop :=
  t.color = .red ∧ IsRB (t.paint .black) .black (n + 1) ∨ IsRB t .black n

/-- What the second part of an iteration leaves at a parent of colour `c`. -/
inductive Rebalanced (c : Color) (n : ℕ) : Step α → Prop
  | up {u : RedBlack.Tree α} : u.color = c → IsRB (u.paint .black) .black (n + 1) →
      (c = .black → IsRB u .black (n + 1)) → Rebalanced c n (.up u)
  | rotated {u : RedBlack.Tree α} : IsRB u c (c.over (n + 1)) → Rebalanced c n (.rotated u)

theorem rebalance_isRB {c₁ c₂ : Color}
    (ht : IsRB t .black n) (hnear : IsRB near c₁ n) (hfar : IsRB far c₂ n) :
    ∃ st, rebalance t p near b far = some st ∧ Rebalanced p.color n st := by
  unfold rebalance
  cases c₂ with
  | red =>
    -- the other child comes up
    have hne : far.color ≠ .black := by
      rw [hfar.color]
      decide
    rw [if_neg fun h ↦ hne h.2]
    simp only [if_neg hne, unjoin_join, rotate_join]
    exact ⟨_, rfl, .rotated ((ht.join_black hnear).join_over hfar.paint_black ..)⟩
  | black =>
    have hc := hfar.color
    cases c₁ with
    | red =>
      -- its near child comes up, and then above the parent
      have hne : near.color ≠ .black := by
        rw [hnear.color]
        decide
      rw [if_neg fun h ↦ hne h.1]
      obtain ⟨x, a, y, rfl, hx, hy⟩ := hnear.eq_join_red p.side
      simp only [if_pos hc, paint_join, rotate_flip_join, unjoin_join, rotate_join]
      exact ⟨_, rfl, .rotated ((ht.join_black hx).join_over (hy.join_black hfar) ..)⟩
    | black =>
      rw [if_pos ⟨hnear.color, hc⟩]
      refine ⟨_, rfl, .up color_join ?_ fun h ↦ ?_⟩
      · rw [paint_join]
        exact ht.join_black (hnear.join_red hfar)
      · rw [h]
        exact ht.join_black (hnear.join_red hfar)

/-- **`__rb_erase_color` restores a red-black tree** in which a subtree lacks a black node. -/
theorem eraseColor_isRB (ht : Deficient t n)
    (hpath : Fits path c (n + 1)) : ∃ r m, eraseColor t path = some r ∧ IsRB r .black m := by
  induction path generalizing t c n with
  | nil =>
    rcases ht with ⟨-, ht⟩ | ht
    · exact ⟨_, _, rfl, ht⟩
    · obtain ⟨m, hm⟩ := ht.exists_black
      exact ⟨_, m, rfl, hm⟩
  | cons p path ih =>
    rw [eraseColor]
    rcases ht with ⟨hred, ht⟩ | ht
    · rw [if_pos hred]
      obtain ⟨m, hm⟩ := hpath.plug ht fun _ ↦ rfl
      exact ⟨_, m, rfl, hm⟩
    · rw [if_neg (by rw [ht.color]; exact Color.noConfusion)]
      unfold eraseStep
      obtain ⟨s, cp, a, u⟩ := p
      -- the other child is not null, as it has a greater black height
      obtain ⟨co, near, b, far, hother⟩ : ∃ co near b far, u.unjoin s = some
        (co, near, b, far) := by
        cases hu : u.unjoin s with
        | none =>
          obtain rfl := unjoin_eq_none hu
          cases hpath with
          | red h => cases h
          | black h => cases h
        | some v => exact ⟨_, _, _, _, rfl⟩
      obtain rfl := unjoin_eq_some hother
      simp only [hother]
      cases hpath with
      | red hu hfits =>
        cases co with
        | red => cases hu.of_join_red.1
        | black =>
          obtain ⟨-, m, c₁, c₂, hm, hnear, hfar⟩ := hu.of_join_black
          cases hm
          obtain ⟨st, hst, hreb⟩ := rebalance_isRB (p := ⟨s, .red, a, join s .black near b far⟩)
            (b := b)
            ht hnear hfar
          simp only [hst]
          cases hreb with
          | up hc hu _ => exact ih (.inl ⟨hc, hu⟩) hfits
          | rotated hu =>
            obtain ⟨k, hk⟩ := hfits.plug_paint hu nofun
            exact ⟨_, k, rfl, hk⟩
      | black hu hfits =>
        cases co with
        | black =>
          obtain ⟨-, m, c₁, c₂, hm, hnear, hfar⟩ := hu.of_join_black
          cases hm
          obtain ⟨st, hst, hreb⟩ := rebalance_isRB (p := ⟨s, .black, a, join s .black near b far⟩)
            (b := b)
            ht hnear hfar
          simp only [hst]
          cases hreb with
          | up _ _ hu => exact ih (.inr (hu rfl)) hfits
          | rotated hu =>
            obtain ⟨k, hk⟩ := hfits.plug_paint hu fun _ ↦ rfl
            exact ⟨_, k, rfl, hk⟩
        | red =>
          obtain ⟨-, hnear, hfar⟩ := hu.of_join_red
          obtain ⟨cn, x, b', y, hjoin⟩ : ∃ cn x b' y, near.unjoin s = some (cn, x, b', y) := by
            cases hnear
            cases s <;> exact ⟨_, _, _, _, rfl⟩
          obtain rfl := unjoin_eq_some hjoin
          obtain rfl : cn = .black := color_join.symm.trans hnear.color
          obtain ⟨-, m, c₁, c₂, hm, hx, hy⟩ := hnear.of_join_black
          cases hm
          obtain ⟨st, hst, hreb⟩ := rebalance_isRB
            (p := ⟨s, .red, a, join s .red (join s .black x b' y) b far⟩) (b := b') ht hx hy
          simp only [hjoin, hst]
          cases hreb with
          | up _ hu _ =>
            obtain ⟨k, hk⟩ := hfits.plug (hu.join_black hfar) fun _ ↦ rfl
            exact ⟨_, k, rfl, hk⟩
          | rotated hu =>
            obtain ⟨k, hk⟩ := hfits.plug_paint (hu.join_black hfar) fun _ ↦ rfl
            exact ⟨_, k, rfl, hk⟩

theorem repair_isRB {c₀ : Color} {c' : Color}
    (hfits : Fits path c₀ (c.over n)) (hchild : IsRB child c' n) (hcolor : c = .red → c' = .black) :
    ∃ r m, repair c child path = some r ∧ IsRB r .black m := by
  cases c with
  | red =>
    obtain ⟨m, hm⟩ := hfits.plug hchild fun _ ↦ hcolor rfl
    exact ⟨_, m, rfl, hm⟩
  | black =>
    refine eraseColor_isRB ?_ hfits
    cases c' with
    | red => exact .inl ⟨hchild.color, hchild.paint_black⟩
    | black => exact .inr hchild

/-- **`rb_erase` keeps a red-black tree.** -/
theorem erase_isRB (h : IsRB (plug (.node c l a r) path) .black n) :
    ∃ t m, erase c l r path = some t ∧ IsRB t .black m := by
  obtain ⟨c₀, m, c', hfits, hnode, hcolor⟩ := Fits.of_plug h
  obtain ⟨rfl, m, c₁, c₂, rfl, hl, hr, hred⟩ := hnode.of_node
  rcases erase_cases c' l r path with ⟨rfl, heq⟩ | ⟨rfl, -, heq⟩ |
    ⟨color, b, child, path', -, rfl, -, heq⟩
  · exact repair_isRB hfits hr fun hc ↦ (hred hc).2
  · rw [heq]
    exact repair_isRB hfits hl fun hc ↦ (hred hc).1
  · rw [heq]
    have hcrumb : Fits (⟨.right, c', b, l⟩ :: path) c' m := by
      cases c' with
      | red =>
        obtain ⟨rfl, -⟩ := hred rfl
        cases c₀ with
        | red => cases hcolor rfl
        | black => exact .red hl hfits
      | black => exact .black hl hfits
    obtain ⟨c₀', m', c₁', hfits', hsucc, hcolor'⟩ := hcrumb.append hr fun hc ↦ (hred hc).2
    obtain ⟨rfl, k, c₃, c₄, rfl, -, hchild, hred'⟩ := hsucc.of_node
    exact repair_isRB hfits' hchild fun hc ↦ (hred' hc).2

/-- **The removal of a node** that was looked up. -/
theorem erase_located {m : α → Bool} (h : IsRB t .black n)
    (hloc : locate m [] t = some (.node c l a r, path)) :
    ∃ t' k before after, erase c l r path = some t' ∧ IsRB t' .black k ∧
    t.toList = before ++ a :: after ∧
      t'.toList = before ++ after := by
  have hplug : plug (.node c l a r) path = t := (locate_some hloc).1
  obtain ⟨t', k, herase, hrb⟩ := erase_isRB (hplug.symm ▸ h)
  refine ⟨t', k, (around path).1 ++ l.toList, r.toList ++ (around path).2, herase, hrb, ?_, ?_⟩
  · rw [← hplug, toList_plug]
    simp
  · rw [toList_erase herase]
    simp

end Rbtree
