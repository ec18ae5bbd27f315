import MerrukKernel.Bfq.TreeUpdates

/-!
# The selection of an entity

`bfq_first_active_entity` looks for the eligible entity with the smallest finish time. It goes
down from the root, to the left whenever the left subtree contains an eligible entity, and to the
right only while it has not met an eligible one. So after it has met one, and has gone left to an
entity that is not eligible and whose left subtree contains none either, it stops, although there
must be an eligible entity in the right subtree of that one: it was the reason to come here.

`InReach` says which entities the walk can meet, and the selection is right exactly if one of
those with the smallest finish time is within reach.
-/

namespace Bfq

open RedBlack RedBlack.Tree

/-- The entity is eligible: its start time is not after the virtual time. -/
def Eligible (start : ℕ → Timestamp) (vtime : Timestamp) (e : ℕ) : Prop :=
  bfqGt (start e) vtime = false
deriving Decidable

section

variable (start : ℕ → Timestamp) (vtime : Timestamp)

/-- `first` after the visit of an entity. -/
def note (first : Option ℕ) (a : Node) : Option ℕ :=
  if bfqGt (start a.id) vtime then first else some a.id

/-- The left child is there, and its `min_start` is not after the virtual time. -/
def goLeft : ActiveTree → Bool
  | .nil => false
  | .node _ _ b _ => !bfqGt b.minStart vtime

/-- The loop of `bfq_first_active_entity`. The second component tells whether the `BUG_ON` in it
was hit. -/
def firstActive (first : Option ℕ) : ActiveTree → Option ℕ × Bool
  | .nil => (first, false)
  | .node _ l a r =>
    let bug := bfqGt a.minStart vtime
    let (found, bug') :=
      if goLeft vtime l then firstActive (note start vtime first a) l
      else if (note start vtime first a).isSome then (note start vtime first a, false)
      else firstActive none r
    (found, bug || bug')

/-- `bfq_first_active_entity`, and whether a `BUG_ON` was hit. -/
def bfqFirstActiveEntity (t : ActiveTree) : Option ℕ × Bool :=
  let (first, bug) := firstActive start vtime none t
  (first, bug || (first.isNone && !(ids t).isEmpty))

/-- **The entities within reach**, below eligible entities if `below`: an entity is in the right
subtree of another one only if neither that one nor its left subtree nor anything above it is
eligible. -/
inductive InReach : Bool → ActiveTree → ℕ → Prop
  | here {below : Bool} {c : Color} {l r : ActiveTree} {a : Node} : InReach below
    (.node c l a r) a.id
  | left {below : Bool} {c : Color} {l r : ActiveTree} {a : Node} {e : ℕ} :
      InReach (below || decide (Eligible start vtime a.id)) l e → InReach below (.node c l a r) e
  | right {below : Bool} {c : Color} {l r : ActiveTree} {a : Node} {e : ℕ} : below = false →
      ¬Eligible start vtime a.id → (∀ y ∈ ids l, ¬Eligible start vtime y) → InReach false r e →
      InReach below (.node c l a r) e

end

/-- The entity is eligible, and no eligible one has a smaller finish time. -/
structure IsFirst (start finish : ℕ → Timestamp) (vtime : Timestamp) (t : ActiveTree)
    (e : ℕ) : Prop where
  mem : e ∈ ids t
  eligible : Eligible start vtime e
  least : ∀ y ∈ ids t, Eligible start vtime y → bfqGt (finish e) (finish y) = false

section

variable {start finish : ℕ → Timestamp} {vtime base : Timestamp} {t l r : ActiveTree} {a : Node}
  {first : Option ℕ} {c : Color} {e : ℕ}

theorem InReach.mem {below : Bool} (h : InReach start vtime below t e) : e ∈ ids t := by
  induction h with
  | here => simp
  | left _ ih => simp [ih]
  | right _ _ _ _ ih => simp [ih]

/-- `min_start` tells whether there is an eligible entity. -/
theorem goLeft_iff (h : MinStarts start t) (hv : InWindow base vtime)
    (hw : StartsIn start base (ids t)) :
    goLeft vtime t = true ↔ ∃ e ∈ ids t, Eligible start vtime e := by
  cases t with
  | nil => simp [goLeft]
  | node c l a r =>
    obtain ⟨⟨e, he, hem⟩, hmin⟩ := h.isMinStart
    rw [goLeft, Bool.not_eq_true']
    constructor
    · exact fun hle ↦ ⟨e, he, by unfold Eligible; rw [hem]; exact hle⟩
    · rintro ⟨y, hy, hel⟩
      have hwm : InWindow base a.minStart := hem ▸ hw e he
      have h₁ := (bfqGt_eq_false_iff hwm (hw y hy)).1 (hmin y hy)
      have h₂ := (bfqGt_eq_false_iff (hw y hy) hv).1 hel
      exact (bfqGt_eq_false_iff hwm hv).2 (h₁.trans h₂)

theorem note_of_eligible (h : Eligible start vtime a.id) :
    note start vtime first a = some a.id := by
  unfold note
  rw [if_neg]
  rw [show bfqGt (start a.id) vtime = false from h]
  exact Bool.false_ne_true

theorem note_of_not_eligible (h : ¬Eligible start vtime a.id) : note start vtime first a = first :=
  if_pos (Bool.not_eq_false _ ▸ h)

theorem isSome_note : (note start vtime first a).isSome =
    (first.isSome || decide (Eligible start vtime a.id)) := by
  by_cases h : Eligible start vtime a.id
  · rw [note_of_eligible h]
    simp [h]
  · rw [note_of_not_eligible h]
    simp [h]

/-- **What the walk finds**: an eligible entity within reach whose finish time is not after that
of any other such, or what it had found before if there is none. -/
theorem firstActive_spec (first : Option ℕ) (hmin : MinStarts start t)
    (hord : Ordered finish (ids t))
    (hv : InWindow base vtime) (hw : StartsIn start base (ids t)) :
    (∀ e, InReach start vtime first.isSome t e → Eligible start vtime e →
      ∃ x, (firstActive start vtime first t).1 = some x ∧ InReach start vtime first.isSome t x ∧
        Eligible start vtime x ∧ (x = e ∨ bfqGt (finish x) (finish e) = false)) ∧
    ((∀ e, InReach start vtime first.isSome t e → ¬Eligible start vtime e) →
      (firstActive start vtime first t).1 = first) := by
  induction t generalizing first with
  | nil => exact ⟨(by rintro e ⟨⟩), fun _ ↦ rfl⟩
  | node c l a r ihl ihr =>
    obtain ⟨hl, hr, -⟩ := hmin
    rw [ids_node] at hord hw
    unfold Ordered at hord
    rw [List.pairwise_append, List.pairwise_cons] at hord
    obtain ⟨hordl, ⟨har, hordr⟩, hcross⟩ := hord
    have hwl : StartsIn start base (ids l) := fun e he ↦ hw e (by simp [he])
    have hwr : StartsIn start base (ids r) := fun e he ↦ hw e (by simp [he])
    have hgo := goLeft_iff hl hv hwl
    rw [firstActive]
    by_cases hleft : goLeft vtime l = true
    · -- there is an eligible entity on the left
      simp only [if_pos hleft]
      obtain ⟨ih₁, ih₂⟩ := ihl (note start vtime first a) hl hordl hwl
      rw [isSome_note] at ih₁ ih₂
      constructor
      · intro e he hel
        cases he with
        | here =>
          by_cases hany : ∃ y, InReach start vtime (first.isSome || decide
            (Eligible start vtime a.id)) l y ∧
              Eligible start vtime y
          · obtain ⟨y, hy, hely⟩ := hany
            obtain ⟨x, hx, hreach, helx, -⟩ := ih₁ y hy hely
            exact ⟨x, hx, .left hreach, helx, .inr (hcross x hreach.mem a.id List.mem_cons_self)⟩
          · rw [ih₂ fun y hy hely ↦ hany ⟨y, hy, hely⟩, note_of_eligible hel]
            exact ⟨a.id, rfl, .here, hel, .inl rfl⟩
        | left he =>
          obtain ⟨x, hx, hreach, helx, hle⟩ := ih₁ e he hel
          exact ⟨x, hx, .left hreach, helx, hle⟩
        | right _ _ hnone _ => grind
      · intro hnone
        rw [ih₂ fun y hy ↦ hnone y (.left hy), note_of_not_eligible (hnone a.id .here)]
    · simp only [if_neg hleft]
      have hnol : ∀ y ∈ ids l, ¬Eligible start vtime y :=
        fun y hy hely ↦ hleft (hgo.2 ⟨y, hy, hely⟩)
      by_cases hsome : (note start vtime first a).isSome = true
      · -- the walk ends here
        simp only [if_pos hsome]
        constructor
        · intro e he hel
          cases he with
          | here => exact ⟨a.id, note_of_eligible hel, .here, hel, .inl rfl⟩
          | left he => exact absurd hel (hnol e he.mem)
          | right hbelow hna _ _ => grind [isSome_note]
        · exact fun hnone ↦ note_of_not_eligible (hnone a.id .here)
      · -- nothing eligible so far
        simp only [if_neg hsome]
        rw [isSome_note, Bool.or_eq_true, not_or, decide_eq_true_eq] at hsome
        obtain ⟨hfirst, hna⟩ := hsome
        rw [Bool.not_eq_true] at hfirst
        obtain ⟨ih₁, ih₂⟩ := ihr none hr hordr hwr
        constructor
        · intro e he hel
          cases he with
          | here => exact absurd hel hna
          | left he => exact absurd hel (hnol e he.mem)
          | right _ _ _ he =>
            obtain ⟨x, hx, hreach, helx, hle⟩ := ih₁ e he hel
            exact ⟨x, hx, .right hfirst hna hnol hreach, helx, hle⟩
        · intro hnone
          rw [ih₂ fun y hy ↦ hnone y (.right hfirst hna hnol hy)]
          exact (Option.isNone_iff_eq_none.1 (Option.isSome_eq_false_iff.1 hfirst)).symm

/-- Entities that are not before another one in the order of finish times. -/
theorem IsFirst.of_le {x : ℕ} (h : IsFirst start finish vtime t e) (hx : x ∈ ids t)
    (helx : Eligible start vtime x) (hle : x = e ∨ bfqGt (finish x) (finish e) = false)
    (hw : StartsIn finish base (ids t)) : IsFirst start finish vtime t x := by
  rcases hle with rfl | hle
  · exact h
  · refine ⟨hx, helx, fun y hy hely ↦ ?_⟩
    have h₁ := (bfqGt_eq_false_iff (hw x hx) (hw e h.mem)).1 hle
    have h₂ := (bfqGt_eq_false_iff (hw e h.mem) (hw y hy)).1 (h.least y hy hely)
    exact (bfqGt_eq_false_iff (hw x hx) (hw y hy)).2 (h₁.trans h₂)

/-- The walk goes where there are eligible entities, and so hits no `BUG_ON`. -/
theorem firstActive_no_bug (first : Option ℕ) (hmin : MinStarts start t) (hv : InWindow base vtime)
    (hw : StartsIn start base (ids t)) (hel : ∃ e ∈ ids t, Eligible start vtime e) :
    (firstActive start vtime first t).2 = false := by
  induction t generalizing first with
  | nil => rfl
  | node c l a r ihl ihr =>
    have hgo := (goLeft_iff hmin hv hw).2 hel
    rw [goLeft, Bool.not_eq_true'] at hgo
    obtain ⟨hl, hr, -⟩ := hmin
    rw [ids_node] at hel hw
    have hwl : StartsIn start base (ids l) := fun e he ↦ hw e (by simp [he])
    rw [firstActive, hgo]
    by_cases hleft : goLeft vtime l = true
    · simp only [if_pos hleft]
      exact ihl _ hl hwl ((goLeft_iff hl hv hwl).1 hleft)
    · simp only [if_neg hleft]
      by_cases hsome : (note start vtime first a).isSome = true
      · simp only [if_pos hsome]
        rfl
      · simp only [if_neg hsome]
        refine ihr none hr (fun e he ↦ hw e (by simp [he])) ?_
        rw [isSome_note] at hsome
        grind [goLeft_iff hl hv hwl]

/-- **The selection is right exactly if** the tree is empty or an eligible entity with the smallest
finish time among the eligible ones is within reach. If no entity of a tree is eligible, a `BUG_ON`
is hit. -/
theorem first_active_entity_iff (hmin : MinStarts start t) (hord : Ordered finish (ids t))
    (hv : InWindow base vtime) (hw : Windowed start finish base (ids t)) :
    ((bfqFirstActiveEntity start vtime t).2 = false ∧
      (∀ e, (bfqFirstActiveEntity start vtime t).1 = some e → IsFirst start finish vtime t e) ∧
      ((bfqFirstActiveEntity start vtime t).1 = none ↔ ∀ e ∈ ids t, ¬Eligible start vtime e)) ↔
    (ids t = [] ∨ ∃ e, IsFirst start finish vtime t e ∧ InReach start vtime false t e) := by
  have hstarts : StartsIn start base (ids t) := fun e he ↦ (hw e he).1
  obtain ⟨hsome, hnone⟩ := firstActive_spec none hmin hord hv hstarts
  unfold bfqFirstActiveEntity
  constructor
  · rintro ⟨hbug, hfirst, hnull⟩
    by_cases hel : ∃ e ∈ ids t, Eligible start vtime e
    · grind
    · -- the `BUG_ON` at the end
      have hno : (firstActive start vtime none t).1 = none := hnull.2 (by grind)
      simp only [hno, Option.isNone_none, Bool.true_and, Bool.or_eq_false_iff,
        Bool.not_eq_false'] at hbug
      exact .inl (List.isEmpty_iff.1 hbug.2)
  · rintro (hempty | ⟨e, hfirst, he⟩)
    · cases t with
      | nil => simp [firstActive]
      | node => simp at hempty
    · obtain ⟨x, hx, hxr, helx, hle⟩ := hsome e he hfirst.eligible
      have hbug := firstActive_no_bug none hmin hv hstarts ⟨e, hfirst.mem, hfirst.eligible⟩
      simp only [hx, hbug]
      refine ⟨rfl, fun y hy ↦ ?_, nofun, fun h ↦ absurd hfirst.eligible (h e hfirst.mem)⟩
      cases hy
      exact hfirst.of_le hxr.mem helx hle fun z hz ↦ (hw z hz).2

end

/-- At the virtual time 2 the third of four entities is selected, behind two that are not
eligible. -/
theorem first_active_entity_right : let start : ℕ → Timestamp := fun e ↦ if e ≤ 2 then 3 else 1
    let finish : ℕ → Timestamp := fun e ↦ if e = 1 then 4 else if e = 2 then 5 else 6
    let t : ActiveTree := .node .black (.node .black .nil ⟨1, 3⟩ .nil) ⟨2, 1⟩
      (.node .black .nil ⟨3, 1⟩ (.node .red .nil ⟨4, 1⟩ .nil))
    bfqFirstActiveEntity start 2 t = (some 3, false) ∧
      (∀ e, (bfqFirstActiveEntity start 2 t).1 = some e → IsFirst start finish 2 t e) := by
  intro start finish t
  have hmin : MinStarts start t := by decide
  have hord : Ordered finish (ids t) := by decide
  have hv : InWindow 0 (2 : Timestamp) := by decide
  have hw : Windowed start finish 0 (ids t) := by decide
  have hright := (first_active_entity_iff hmin hord hv hw).2 (.inr
      ⟨3, ⟨by decide, by decide, by decide⟩, .right rfl (by decide) (by decide) .here⟩)
  exact ⟨by decide, hright.2.1⟩

/-- **The walk stops too early**: the first of four entities is eligible and has the finish time
10, its left child is not eligible, and the right child of that one is eligible and has the finish
time 7. -/
theorem first_active_entity_misses :
    let ops : List TreeOp := [.insert 1 1 10 0, .insert 2 3 5 0, .insert 3 3 12 0, .insert 4 1 7 0]
    let st := treeMachine.final (TreeState.empty 0 0) ops
    st.failed = false ∧ MinStarts st.start st.tree ∧ Ordered st.finish (ids st.tree) ∧
      Windowed st.start st.finish 0 (ids st.tree) ∧
      (bfqFirstActiveEntity st.start 2 st.tree).1 = some 1 ∧
      4 ∈ ids st.tree ∧ Eligible st.start 2 4 ∧ bfqGt (st.finish 1) (st.finish 4) = true := by
  intro ops st
  decide +kernel

end Bfq
