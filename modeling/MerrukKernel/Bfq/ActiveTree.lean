import MerrukKernel.Bfq.Timestamps
import MerrukKernel.Rbtree.Paths

/-!
# The active tree

The active tree of a service tree in `bfq-sched.c` is a red-black tree ordered by finish times, in
which each entity keeps the minimum of the start times in its subtree. `lib/rbtree.c` rotates
without knowing about this field. Afterwards `bfq_update_active_tree` recomputes it along the path
from a node to the root, and for the siblings of the nodes on that path.

A node of the tree holds the entity and its `min_start`. Start and finish times are kept in
tables; those of an entity in the tree do not change.
-/

namespace Bfq

open RedBlack RedBlack.Tree List

/-- An entity in an active tree. -/
structure Node where
  id : ℕ
  minStart : Timestamp
deriving DecidableEq

abbrev ActiveTree := RedBlack.Tree Node

/-- The entities of a tree, from left to right. -/
def ids (t : ActiveTree) : List ℕ := t.toList.map Node.id

/-! ### The minimum of the start times -/

/-- `bfq_update_min` -/
def bfqUpdateMin (m : Timestamp) : ActiveTree → Timestamp
  | .nil => m
  | .node _ _ child _ => if bfqGt m child.minStart then child.minStart else m

section

variable (start : ℕ → Timestamp)

/-- `bfq_update_active_node` -/
def bfqUpdateActiveNode : ActiveTree → ActiveTree
  | .nil => .nil
  | .node c l a r =>
    .node c l { a with minStart := bfqUpdateMin (bfqUpdateMin (start a.id) r) l } r

/-- `bfq_update_active_tree`, from the node with subtree `t`. At a left child without a sibling
the second branch of the source recomputes the node itself once more. -/
def bfqUpdateActiveTree : ActiveTree → List (Crumb Node) → ActiveTree
  | t, [] => bfqUpdateActiveNode start t
  | t, p :: path =>
    let t := bfqUpdateActiveNode start t
    match p.side, p.other with
    | .left, .nil =>
      bfqUpdateActiveTree (.node p.color (bfqUpdateActiveNode start t) p.val .nil) path
    | s, other =>
      bfqUpdateActiveTree (join s p.color t p.val (bfqUpdateActiveNode start other)) path

/-- `m` is the least start time of some entities. -/
def IsMinStart (m : Timestamp) (es : List ℕ) : Prop :=
  (∃ e ∈ es, start e = m) ∧ ∀ e ∈ es, bfqGt m (start e) = false
deriving Decidable

/-- **Every entity's `min_start` is the minimum over its subtree.** -/
def MinStarts : ActiveTree → Prop
  | .nil => True
  | .node _ l a r =>
    MinStarts l ∧ MinStarts r ∧ IsMinStart start a.minStart (ids l ++ a.id :: ids r)

def decidableMinStarts : ∀ t, Decidable (MinStarts start t)
  | .nil => .isTrue trivial
  | .node _ l a r =>
    have := decidableMinStarts l
    have := decidableMinStarts r
    inferInstanceAs (Decidable (_ ∧ _ ∧ IsMinStart start a.minStart (ids l ++ a.id :: ids r)))

instance : DecidablePred (MinStarts start) := decidableMinStarts start

end

/-! ### Insertion and extraction -/

/-- The node from which `bfq_active_insert` updates the tree. -/
def updateFrom : ActiveTree → List (Crumb Node) → ActiveTree × List (Crumb Node)
  | .node c (.node c' l' a' r') a r, path => (.node c' l' a' r', ⟨.left, c, a, r⟩ :: path)
  | .node c .nil a (.node c' l' a' r'), path => (.node c' l' a' r', ⟨.right, c, a, .nil⟩ :: path)
  | t, path => (t, path)

/-- `bfq_active_insert`, of an entity whose `min_start` is still `m`. -/
def bfqActiveInsert (start finish : ℕ → Timestamp) (t : ActiveTree) (x : ℕ) (m : Timestamp) :
    Option ActiveTree := do
  let t ← Rbtree.insert (fun a ↦ if bfqGt (finish a.id) (finish x) then .left else .right) ⟨x, m⟩ t
  let (n, path) ← locate (fun a ↦ a.id = x) [] t
  let (n, path) := updateFrom n path
  return bfqUpdateActiveTree start n path

/-- `bfq_find_deepest`, of the node with children `l` and `r`. -/
def bfqFindDeepest (l r : ActiveTree) (path : List (Crumb Node)) : Option ℕ :=
  match l, r with
  | .nil, .nil => path.head?.map (·.val.id)
  | .node _ _ a _, .nil => some a.id
  | .nil, .node _ _ a _ => some a.id
  | .node .., .node c l a r =>
    match Rbtree.leftmost c a r l [] with
    | (_, _, .node _ _ b _, _) => some b.id
    | (_, _, .nil, p :: _) => some p.val.id
    | (_, a, .nil, []) => some a.id

/-- `bfq_active_extract` -/
def bfqActiveExtract (start : ℕ → Timestamp) (t : ActiveTree) (x : ℕ) : Option ActiveTree := do
  match ← locate (fun a ↦ a.id = x) [] t with
  | (.nil, _) => none
  | (.node c l _ r, path) =>
    let t ← Rbtree.erase c l r path
    match bfqFindDeepest l r path with
    | none => return t
    | some y =>
      let (n, path) ← locate (fun a ↦ a.id = y) [] t
      return bfqUpdateActiveTree start n path

/-! ### Updating the tree -/

section

variable {start : ℕ → Timestamp} {base : Timestamp} {t l r : ActiveTree} {path : List (Crumb Node)}

@[simp] theorem ids_nil : ids (.nil : ActiveTree) = [] := rfl

@[simp] theorem ids_node (c : Color) (l : ActiveTree) (a : Node) (r : ActiveTree) :
    ids (.node c l a r) = ids l ++ a.id :: ids r := by
  simp [ids]

variable {a : Node} {c : Color} {s : Side} {t' u : ActiveTree} {es : List ℕ} {m : Timestamp} {n : ℕ}

theorem ids_join_congr {t u' : ActiveTree} (ht : ids t = ids t')
    (hu : ids u = ids u') : ids (join s c t a u) = ids (join s c t' a u') := by
  cases s <;> simp [join, ht, hu]

theorem ids_plug_congr {t : ActiveTree} (h : ids t = ids t') (path : List (Crumb Node)) :
    ids (plug t path) = ids (plug t' path) := by
  induction path generalizing t t' with
  | nil => exact h
  | cons p path ih => exact ih (ids_join_congr h rfl)

theorem ids_updateActiveNode (t : ActiveTree) : ids (bfqUpdateActiveNode start t) = ids t := by
  cases t <;> simp [bfqUpdateActiveNode]

theorem ids_updateActiveTree (t : ActiveTree) (path : List (Crumb Node)) :
    ids (bfqUpdateActiveTree start t path) = ids (plug t path) := by
  induction path generalizing t with
  | nil => exact ids_updateActiveNode t
  | cons p path ih =>
    obtain ⟨s, c, a, u⟩ := p
    rw [bfqUpdateActiveTree]
    split
    · next hs hu =>
      cases hs
      cases hu
      rw [ih]
      refine ids_plug_congr ?_ path
      exact ids_join_congr (s := .left) (by rw [ids_updateActiveNode, ids_updateActiveNode]) rfl
    · rw [ih]
      exact ids_plug_congr (ids_join_congr (ids_updateActiveNode t) (ids_updateActiveNode _)) path

/-- The start times of the entities of a tree lie in a window. -/
def StartsIn (start : ℕ → Timestamp) (base : Timestamp) (es : List ℕ) : Prop :=
  ∀ e ∈ es, InWindow base (start e)

theorem MinStarts.isMinStart (h : MinStarts start (.node c l a r)) :
    IsMinStart start a.minStart (ids (.node c l a r)) := by
  rw [ids_node]
  exact h.2.2

/-- The minimum of some entities and of a subtree. -/
theorem IsMinStart.updateMin (h : IsMinStart start m es)
    (ht : MinStarts start t) (hes : StartsIn start base es) (htw : StartsIn start base (ids t)) :
    IsMinStart start (bfqUpdateMin m t) (es ++ ids t) := by
  cases t with
  | nil =>
    rw [ids_nil, append_nil]
    exact h
  | node c l a r =>
    have ha := ht.isMinStart
    obtain ⟨⟨e, he, hem⟩, hmin⟩ := h
    obtain ⟨⟨e', he', hem'⟩, hmin'⟩ := ha
    have hm : InWindow base m := hem ▸ hes e he
    have hm' : InWindow base a.minStart := hem' ▸ htw e' he'
    rw [bfqUpdateMin]
    split
    · next hgt =>
      rw [bfqGt_iff hm hm'] at hgt
      refine ⟨⟨e', mem_append_right _ he', hem'⟩, fun x hx ↦ ?_⟩
      rcases mem_append.1 hx with hx | hx
      · have := (bfqGt_eq_false_iff hm (hes x hx)).1 (hmin x hx)
        exact (bfqGt_eq_false_iff hm' (hes x hx)).2 (hgt.le.trans this)
      · exact hmin' x hx
    · next hgt =>
      rw [Bool.not_eq_true, bfqGt_eq_false_iff hm hm'] at hgt
      refine ⟨⟨e, mem_append_left _ he, hem⟩, fun x hx ↦ ?_⟩
      rcases mem_append.1 hx with hx | hx
      · exact hmin x hx
      · have := (bfqGt_eq_false_iff hm' (htw x hx)).1 (hmin' x hx)
        exact (bfqGt_eq_false_iff hm (htw x hx)).2 (hgt.trans this)

theorem IsMinStart.perm {es' : List ℕ} (h : IsMinStart start m es)
    (hmem : ∀ e, e ∈ es ↔ e ∈ es') : IsMinStart start m es' :=
  ⟨by obtain ⟨e, he, hem⟩ := h.1; exact ⟨e, (hmem e).1 he, hem⟩, fun e he ↦ h.2 e ((hmem e).2 he)⟩

/-- **A node is recomputed** from its children. -/
theorem minStarts_updateActiveNode (hl : MinStarts start l)
    (hr : MinStarts start r) (hw : StartsIn start base (ids (.node c l a r))) :
    MinStarts start (bfqUpdateActiveNode start (.node c l a r)) := by
  have hself : IsMinStart start (start a.id) [a.id] := by
    refine ⟨⟨a.id, mem_singleton_self _, rfl⟩, fun e he ↦ ?_⟩
    obtain rfl := mem_singleton.1 he
    have ha := hw a.id (by simp)
    exact (bfqGt_eq_false_iff ha ha).2 le_rfl
  have hwl : StartsIn start base (ids l) := fun e he ↦ hw e (by simp [he])
  have hwr : StartsIn start base (ids r) := fun e he ↦ hw e (by simp [he])
  have hwa : StartsIn start base [a.id] := fun e he ↦ hw e (by simp_all)
  have hright := hself.updateMin hr hwa hwr
  have hboth := hright.updateMin hl (fun e he ↦ by
    rcases mem_append.1 he with he | he
    · exact hwa e he
    · exact hwr e he) hwl
  refine ⟨hl, hr, hboth.perm fun e ↦ ?_⟩
  simp only [mem_append, mem_cons]
  tauto

theorem minStarts_hereditary (start : ℕ → Timestamp) : Rbtree.Hereditary (MinStarts start) where
  nil := trivial
  paint t c h := by cases t <;> exact h
  children s c t a u h := by
    cases s
    · exact ⟨h.1, h.2.1⟩
    · exact ⟨h.2.1, h.1⟩

theorem minStarts_of_semi (h : Rbtree.Semi (MinStarts start) t) (hw : StartsIn start base (ids t)) :
    MinStarts start (bfqUpdateActiveNode start t) := by
  cases t with
  | nil => trivial
  | node c l a r =>
    obtain ⟨hl, hr⟩ := h .left c l a r rfl
    exact minStarts_updateActiveNode hl hr hw

theorem startsIn_join {path : List (Crumb Node)}
    (hw : StartsIn start base (ids (plug (join s c t a u) path))) :
    StartsIn start base (ids t) ∧ StartsIn start base (ids u) := by
  have hmem : ∀ e ∈ ids (join s c t a u), e ∈ ids (plug (join s c t a u) path) := fun e he ↦ by
    unfold ids at ⊢
    rw [toList_plug, map_append, map_append]
    exact mem_append_left _ (mem_append_right _ he)
  constructor
  · exact fun e he ↦ hw e (hmem e (by cases s <;> simp [join, he]))
  · exact fun e he ↦ hw e (hmem e (by cases s <;> simp [join, he]))

/-- **The tree is recomputed** from a node whose children are right, if beside its path only the
roots of subtrees may be wrong. -/
theorem minStarts_updateActiveTree (ht : Rbtree.Semi (MinStarts start) t)
    (hpath : ∀ p ∈ path, Rbtree.Semi (MinStarts start) p.other)
    (hw : StartsIn start base (ids (plug t path))) :
    MinStarts start (bfqUpdateActiveTree start t path) := by
  induction path generalizing t with
  | nil => exact minStarts_of_semi ht hw
  | cons p path ih =>
    obtain ⟨s, c, a, u⟩ := p
    obtain ⟨hp, hrest⟩ := forall_mem_cons.1 hpath
    obtain ⟨hwt, hwu⟩ := startsIn_join hw
    have ht' := minStarts_of_semi ht hwt
    have hwt' : StartsIn start base (ids (bfqUpdateActiveNode start t)) := by
      rw [ids_updateActiveNode]
      exact hwt
    rw [bfqUpdateActiveTree]
    split
    · next hs hu =>
      cases hs
      cases hu
      refine ih (Rbtree.semi_join (s := .left)
        (minStarts_of_semi ((minStarts_hereditary start).semi ht') hwt') trivial) hrest ?_
      have hids :
          ids (plug (join .left c (bfqUpdateActiveNode start (bfqUpdateActiveNode start t)) a .nil)
          path) = ids (plug (join .left c t a .nil) path) :=
        ids_plug_congr
          (ids_join_congr (by rw [ids_updateActiveNode, ids_updateActiveNode]) rfl) path
      exact fun e he ↦ hw e (hids ▸ he)
    · refine ih (Rbtree.semi_join ht' (minStarts_of_semi hp hwu)) hrest ?_
      rw [ids_plug_congr (ids_join_congr (ids_updateActiveNode t) (ids_updateActiveNode _)) path]
      exact hw

theorem isRB_updateActiveNode (h : IsRB t c n) : IsRB (bfqUpdateActiveNode start t) c n := by
  cases h with
  | nil => exact .nil
  | red hl hr => exact .red hl hr
  | black hl hr => exact .black hl hr

theorem isRB_updateActiveTree (h : IsRB (plug t path) c n) :
    IsRB (bfqUpdateActiveTree start t path) c n := by
  induction path generalizing t with
  | nil => exact isRB_updateActiveNode h
  | cons p path ih =>
    obtain ⟨s, cp, a, u⟩ := p
    rw [bfqUpdateActiveTree]
    split
    · next hs hu =>
      cases hs
      cases hu
      refine ih (IsRB.plug_congr (fun _ _ hj ↦ hj.join_congr (s := .left) a (fun _ _ ht ↦ ?_)
        fun _ _ hu ↦ hu) h)
      exact isRB_updateActiveNode (isRB_updateActiveNode ht)
    · exact ih (IsRB.plug_congr (fun _ _ hj ↦ hj.join_congr a (fun _ _ ↦ isRB_updateActiveNode)
        fun _ _ ↦ isRB_updateActiveNode) h)

/-- An entity occurs once. -/
theorem once_of_nodup (h : (ids t).Nodup) (x : ℕ) :
    t.toList.Pairwise fun a b ↦ decide (a.id = x) = true → decide (b.id = x) = false := by
  have h' : t.toList.Pairwise fun a b ↦ a.id ≠ b.id := pairwise_map.1 h
  refine h'.imp fun {a b} hne ha ↦ ?_
  rw [decide_eq_true_eq] at ha
  rw [decide_eq_false_iff_not]
  exact fun hb ↦ hne (ha.trans hb.symm)

end

end Bfq
