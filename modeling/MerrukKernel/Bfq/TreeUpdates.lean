import MerrukKernel.Bfq.ActiveTree
import MerrukKernel.Library.Trace

/-!
# Insertions into the active tree and extractions

What `bfq_active_insert` and `bfq_active_extract` do to the shape of the tree does not depend on the
timestamps (`Shaped`). If all timestamps lie in a window, the tree stays ordered and augmented
(`Augmented`).
-/

namespace Bfq

open RedBlack RedBlack.Tree Function List Option Rbtree

/-! ### The shape of the tree -/

/-- A red-black tree in which no entity occurs twice. -/
structure Shaped (t : ActiveTree) : Prop where
  balanced : ∃ n, IsRB t .black n
  nodup : (ids t).Nodup

section

variable {start finish : ℕ → Timestamp} {t : ActiveTree} {x : ℕ} {m : Timestamp}
  {V : ActiveTree → Prop}

/-- **An insertion.** If `V` holds of all subtrees, then it holds of the children of all nodes
beside the path along which the tree is updated. -/
theorem bfqActiveInsert_leads (start finish : ℕ → Timestamp) (hV : Rbtree.Hereditary V)
    (h : Shaped t) (hx : x ∉ ids t) (ht : V t) :
    ∃ t₁ t₂ path,
      insert (fun a ↦ if bfqGt (finish a.id) (finish x) then .left else .right) ⟨x, m⟩ t =
        some t₁ ∧ bfqActiveInsert start finish t x m = some (bfqUpdateActiveTree start t₂ path) ∧
      plug t₂ path = t₁ ∧ Shaped (bfqUpdateActiveTree start t₂ path) ∧ Rbtree.Semi V t₂ ∧
      ∀ p ∈ path, Rbtree.Semi V p.other := by
  obtain ⟨n, hrb⟩ := h.balanced
  obtain ⟨t₁, n₁, hins, hrb₁⟩ := insert_isRB hrb
    (fun a ↦ if bfqGt (finish a.id) (finish x) then .left else .right) ⟨x, m⟩
  have hnodup₁ : (ids t₁).Nodup := by
    obtain ⟨before, after, heq, heq₁⟩ := exists_toList_insert hins
    have hids : ids t = before.map Node.id ++ after.map Node.id := by
      unfold ids
      rw [heq, map_append]
    unfold ids
    rw [heq₁, map_append, map_cons, nodup_middle, ← hids, nodup_cons]
    exact ⟨hx, h.nodup⟩
  have hpath : ∀ p ∈
      descend (fun a ↦ if bfqGt (finish a.id) (finish x) then .left else .right) t [],
      V p.other := by
    refine (hV.of_plug (t := .nil) ?_).2
    rw [plug_descend]
    exact ht
  have hleads := insertColor_leads hV hins (.here ⟨.red, rfl⟩) hpath
  obtain ⟨t₂, path, hloc, hup, hbeside⟩ := hleads.locate
    (by
      rintro t (⟨c, rfl⟩ | ⟨c, c', l, b, r, u, rfl, -⟩)
      · exact ⟨_, _, _, _, rfl, decide_eq_true rfl⟩
      · exact ⟨_, _, _, _, rfl, decide_eq_true rfl⟩) (once_of_nodup hnodup₁ x)
  rw [append_nil] at hloc
  have hplug : plug t₂ path = t₁ := (locate_some hloc).1
  -- the update starts at the new node, or at the left child that a rotation has given it
  obtain ⟨t₃, path₃, hfrom, hplug₃, hsemi, hbeside₃⟩ : ∃ t₃ path₃,
    updateFrom t₂ path = (t₃, path₃) ∧
      plug t₃ path₃ = t₁ ∧ Rbtree.Semi V t₃ ∧ ∀ p ∈ path₃, Rbtree.Semi V p.other := by
    rcases hup with ⟨c, rfl⟩ | ⟨c, c', l, b, r, u, rfl, hl, hr, hu⟩
    · exact ⟨_, _, rfl, hplug, semi_join (s := .left) hV.nil hV.nil, hbeside⟩
    · exact ⟨_, _, rfl, hplug, semi_join (s := .left) hl hr, forall_mem_cons.2 ⟨hu, hbeside⟩⟩
  refine ⟨t₁, t₃, path₃, hins, ?_, hplug₃, ⟨⟨n₁, ?_⟩, ?_⟩, hsemi, hbeside₃⟩
  · unfold bfqActiveInsert
    rw [hins, bind_eq_bind, bind_some, hloc, bind_eq_bind, bind_some]
    simp only [hfrom]
    rfl
  · exact isRB_updateActiveTree (hplug₃ ▸ hrb₁)
  · grind [ids_updateActiveTree]

/-- The deepest node that a removal can modify leads to the root beside everything that changes. -/
theorem bfqFindDeepest_spec (hV : Rbtree.Hereditary V) {c : Color} {l r : ActiveTree}
    {path : List (Crumb Node)} (hl : V l) (hr : V r) (hpath : ∀ p ∈ path, V p.other) :
    (bfqFindDeepest l r path = none ∧ l = .nil ∧ r = .nil ∧ path = []) ∨
    ∃ y color child path', bfqFindDeepest l r path = some y ∧
      erase c l r path = repair color child path' ∧
      Rbtree.Ready V (fun a ↦ a.id = y) child path' ∧ ∀ p ∈ path', V p.other := by
  -- the root of a subtree is a start
  have hroot : ∀ {c : Color} {l r : ActiveTree} {a : Node} {path : List (Crumb Node)},
      V (.node c l a r) → Rbtree.Ready V (fun b ↦ b.id = a.id) (.node c l a r) path := fun h ↦ by
    obtain ⟨hl, hr⟩ := hV.children .left _ _ _ _ h
    exact .inl (.here ⟨_, _, _, _, rfl, rfl, hl, hr⟩)
  cases l with
  | nil =>
    cases r with
    | nil =>
      cases path with
      | nil => exact .inl ⟨rfl, rfl, rfl, rfl⟩
      | cons p path =>
        exact .inr ⟨p.val.id, c, .nil, p :: path, rfl, rfl, .inr ⟨hV.nil, p, rfl, rfl⟩, hpath⟩
    | node c' l' a' r' => exact .inr ⟨a'.id, c, _, path, rfl, rfl, hroot hr, hpath⟩
  | node c₁ l₁ a₁ r₁ =>
    cases r with
    | nil => exact .inr ⟨a₁.id, c, _, path, rfl, rfl, hroot hl, hpath⟩
    | node c' l' a' r' =>
      have hplug := leftmost_plug c' a' r' l' []
      obtain ⟨color, a, child, path', hleft⟩ : ∃ color a child path',
          leftmost c' a' r' l' [] = (color, a, child, path') := ⟨_, _, _, _, rfl⟩
      rw [hleft] at hplug
      have hr' : V (plug (.node color .nil a child) path') := by
        rw [show plug (.node color .nil a child) path' = .node c' l' a' r' from hplug]
        exact hr
      obtain ⟨hsucc, hpath'⟩ := hV.of_plug hr'
      have herase : erase c (.node c₁ l₁ a₁ r₁) (.node c' l' a' r') path =
          repair color child (path' ++ ⟨.right, c, a, .node c₁ l₁ a₁ r₁⟩ :: path) := by
        unfold erase
        simp only [hleft]
        rfl
      have hothers : ∀ p ∈ path' ++ ⟨.right, c, a, .node c₁ l₁ a₁ r₁⟩ :: path, V p.other := by grind
      refine .inr ?_
      unfold bfqFindDeepest
      simp only [hleft]
      cases child with
      | node cb lb b rb =>
        exact ⟨b.id, color, _, _, rfl, herase, hroot (hV.children .left _ _ _ _ hsucc).2, hothers⟩
      | nil =>
        cases path' with
        | nil => exact ⟨a.id, color, _, _, rfl, herase, .inr ⟨hV.nil, _, rfl, rfl⟩, hothers⟩
        | cons p path' =>
          exact ⟨p.val.id, color, _, _, rfl, herase, .inr ⟨hV.nil, p, rfl, rfl⟩, hothers⟩

/-- **An extraction.** -/
theorem bfqActiveExtract_leads (hV : Rbtree.Hereditary V) (h : Shaped t)
    (hx : x ∈ ids t) (ht : V t) :
    ∃ t', bfqActiveExtract start t x = some t' ∧ Shaped t' ∧ ids t' = (ids t).erase x ∧
      (t' = .nil ∨ ∃ t₂ path, t' = bfqUpdateActiveTree start t₂ path ∧ Rbtree.Semi V t₂ ∧
        ∀ p ∈ path, Rbtree.Semi V p.other) := by
  obtain ⟨n, hrb⟩ := h.balanced
  obtain ⟨a₀, ha₀, rfl⟩ := mem_map.1 hx
  obtain ⟨⟨t₁, path⟩, hloc⟩ := isSome_iff_exists.1
    (locate_isSome (m := fun a ↦ decide (a.id = a₀.id)) [] ha₀ (decide_eq_true rfl))
  obtain ⟨hplug, c, l, a, r, rfl, ha⟩ := locate_some hloc
  rw [decide_eq_true_eq] at ha
  have hplug : plug (.node c l a r) path = t := hplug
  obtain ⟨t', n', before, after, herase, hrb', heq, heq'⟩ := erase_located hrb hloc
  have hids' : ids t' = (ids t).erase a.id := by
    have hnodup := h.nodup
    unfold ids at hnodup ⊢
    rw [heq, map_append, map_cons] at hnodup
    rw [heq, heq', map_append, map_append, map_cons, erase_append_right, erase_cons_head]
    rw [nodup_middle, nodup_cons, mem_append, not_or] at hnodup
    exact hnodup.1.1
  have hnodup' : (ids t').Nodup := h.nodup.sublist (hids' ▸ erase_sublist)
  obtain ⟨hnode, hpath⟩ := hV.of_plug (hplug.symm ▸ ht)
  obtain ⟨hl, hr⟩ := hV.children .left _ _ _ _ hnode
  unfold bfqActiveExtract
  rw [hloc, bind_eq_bind]
  simp only [herase, bind_eq_bind, bind_some]
  rcases bfqFindDeepest_spec hV hl hr hpath with
    ⟨hnone, rfl, rfl, rfl⟩ | ⟨y, color, child, path', hsome, heq, hready, hpath'⟩
  · refine ⟨t', rfl, ⟨⟨n', hrb'⟩, hnodup'⟩, ha ▸ hids', .inl ?_⟩
    have hnil : t'.toList = [] := by
      rw [toList_erase herase]
      rfl
    cases t' with
    | nil => rfl
    | node => simp at hnil
  · rw [hsome]
    rw [heq] at herase
    obtain ⟨t₂, path₂, hloc₂, hstart, hbeside⟩ := (repair_leads hV herase hready hpath').locate
      (by
        rintro t ⟨c, l, b, r, rfl, hb, -⟩
        exact ⟨_, _, _, _, rfl, decide_eq_true hb⟩) (once_of_nodup hnodup' y)
    rw [append_nil] at hloc₂
    have hplug₂ : plug t₂ path₂ = t' := (locate_some hloc₂).1
    simp only [hloc₂]
    have hids₂ : ids (bfqUpdateActiveTree start t₂ path₂) = ids t' := by
      rw [ids_updateActiveTree, hplug₂]
    have hsemi : Rbtree.Semi V t₂ := by
      obtain ⟨c₂, l₂, b₂, r₂, rfl, -, hl₂, hr₂⟩ := hstart
      exact semi_join (s := .left) hl₂ hr₂
    refine ⟨_, rfl, ⟨⟨n', isRB_updateActiveTree (hplug₂ ▸ hrb')⟩, hids₂ ▸ hnodup'⟩, ?_, .inr
      ⟨t₂, path₂, rfl, hsemi, hbeside⟩⟩
    rw [hids₂, hids', ha]

/-- Nothing to keep beside the path. -/
theorem hereditary_true : Rbtree.Hereditary fun _ : ActiveTree ↦ True :=
  ⟨trivial, fun _ _ _ ↦ trivial, fun _ _ _ _ _ _ ↦ ⟨trivial, trivial⟩⟩

/-- **`bfq_active_insert`**, whatever the timestamps. -/
theorem Shaped.activeInsert (h : Shaped t) (hx : x ∉ ids t) (start finish : ℕ → Timestamp)
    (m : Timestamp) :
    ∃ t', bfqActiveInsert start finish t x m = some t' ∧ Shaped t' ∧
    (ids t').Perm (x :: ids t) := by
  obtain ⟨t₁, t₂, path, hins, hres, hplug, hshaped, -⟩ :=
    bfqActiveInsert_leads start finish hereditary_true h hx trivial
  refine ⟨_, hres, hshaped, ?_⟩
  obtain ⟨before, after, heq, heq₁⟩ := exists_toList_insert hins
  rw [ids_updateActiveTree, hplug]
  unfold ids
  rw [heq, heq₁, map_append, map_append]
  exact perm_middle

/-- **`bfq_active_extract`**, whatever the timestamps. -/
theorem Shaped.activeExtract (h : Shaped t) (hx : x ∈ ids t) (start : ℕ → Timestamp) :
    ∃ t', bfqActiveExtract start t x = some t' ∧ Shaped t' ∧ ids t' = (ids t).erase x := by
  obtain ⟨t', hres, hshaped, hids, -⟩ := bfqActiveExtract_leads hereditary_true h hx trivial
  exact ⟨t', hres, hshaped, hids⟩

end

/-! ### Timestamps in a window -/

/-- The entities are in the order of their finish times. -/
def Ordered (finish : ℕ → Timestamp) (es : List ℕ) : Prop :=
  es.Pairwise fun a b ↦ bfqGt (finish a) (finish b) = false
deriving Decidable

/-- The timestamps of some entities lie in a window. -/
def Windowed (start finish : ℕ → Timestamp) (base : Timestamp) (es : List ℕ) : Prop :=
  ∀ e ∈ es, InWindow base (start e) ∧ InWindow base (finish e)
deriving Decidable

/-- What holds of an active tree. -/
structure Augmented (start finish : ℕ → Timestamp) (t : ActiveTree) : Prop extends Shaped t where
  ordered : Ordered finish (ids t)
  minStarts : MinStarts start t

section

variable {start finish : ℕ → Timestamp} {base : Timestamp} {t : ActiveTree} {x : ℕ} {m : Timestamp}

theorem insert_monotone {es : List ℕ} (hord : Ordered finish es)
    (hw : ∀ e ∈ x :: es, InWindow base (finish e)) :
    es.Pairwise fun a b ↦
      (if bfqGt (finish a) (finish x) then Side.left else .right) = .left →
        (if bfqGt (finish b) (finish x) then Side.left else .right) = .left := by
  obtain ⟨hx, hmem⟩ := forall_mem_cons.1 hw
  refine List.Pairwise.imp_of_mem (fun {a b} ha hb hab ↦ ?_) hord
  rw [bfqGt_eq_false_iff (hmem a ha) (hmem b hb)] at hab
  intro hleft
  have hgt : bfqGt (finish a) (finish x) = true := by grind
  rw [bfqGt_iff (hmem a ha) hx] at hgt
  exact if_pos ((bfqGt_iff (hmem b hb) hx).2 (hgt.trans_le hab))

theorem ordered_insert {before after : List ℕ} (hord : Ordered finish (before ++ after))
    (hb : ∀ e ∈ before, bfqGt (finish e) (finish x) = false)
    (ha : ∀ e ∈ after, bfqGt (finish e) (finish x) = true) :
    Ordered finish (before ++ x :: after) := by
  unfold Ordered at hord ⊢
  rw [pairwise_append] at hord
  rw [pairwise_append, pairwise_cons]
  refine ⟨hord.1, ⟨fun e he ↦ bfqGt_asymm (ha e he), hord.2.1⟩, fun e he ↦ ?_⟩
  exact forall_mem_cons.2 ⟨hb e he, hord.2.2 e he⟩

/-- **`bfq_active_insert`** -/
theorem bfqActiveInsert_spec (h : Augmented start finish t) (hx : x ∉ ids t)
    (hw : Windowed start finish base (x :: ids t)) :
    ∃ t', bfqActiveInsert start finish t x m = some t' ∧ Augmented start finish t' ∧
      ∀ e, e ∈ ids t' ↔ e = x ∨ e ∈ ids t := by
  obtain ⟨t₁, t₂, path, hins, hres, hplug, hshaped, hsemi, hbeside⟩ :=
    bfqActiveInsert_leads (m := m)
    start finish (minStarts_hereditary start) h.toShaped hx h.minStarts
  obtain ⟨before, after, heq, heq₁, hb, ha⟩ := toList_insert
    (pairwise_map.1 (insert_monotone h.ordered fun e he ↦ (hw e he).2)) hins
  have hids : ids t = before.map Node.id ++ after.map Node.id := by
    unfold ids
    rw [heq, map_append]
  have hids₁ : ids t₁ = before.map Node.id ++ x :: after.map Node.id := by
    unfold ids
    rw [heq₁, map_append, map_cons]
  have hmem : ∀ e, e ∈ ids t₁ ↔ e = x ∨ e ∈ ids t := fun e ↦ by
    rw [hids, hids₁]
    simp only [mem_append, mem_cons]
    tauto
  have hord₁ : Ordered finish (ids t₁) := by
    rw [hids₁]
    have hord := h.ordered
    rw [hids] at hord
    refine ordered_insert hord (fun e he ↦ ?_) fun e he ↦ ?_
    · grind
    · grind
  have hstarts : StartsIn start base (ids t₁) := fun e he ↦ by
    rcases (hmem e).1 he with rfl | he
    · exact (hw e mem_cons_self).1
    · exact (hw e (mem_cons_of_mem _ he)).1
  have hids₂ : ids (bfqUpdateActiveTree start t₂ path) = ids t₁ := by
    rw [ids_updateActiveTree, hplug]
  refine ⟨_, hres, ⟨hshaped, hids₂ ▸ hord₁, ?_⟩, hids₂ ▸ hmem⟩
  exact minStarts_updateActiveTree hsemi hbeside (hplug ▸ hstarts)

/-- **`bfq_active_extract`** -/
theorem bfqActiveExtract_spec (h : Augmented start finish t) (hx : x ∈ ids t)
    (hw : StartsIn start base (ids t)) :
    ∃ t', bfqActiveExtract start t x = some t' ∧ Augmented start finish t' ∧
      ids t' = (ids t).erase x := by
  obtain ⟨t', hres, hshaped, hids, hbeside⟩ := bfqActiveExtract_leads
    (minStarts_hereditary start) h.toShaped hx h.minStarts
  have hsub : (ids t').Sublist (ids t) := hids ▸ erase_sublist
  refine ⟨t', hres, ⟨hshaped, List.Pairwise.sublist hsub h.ordered, ?_⟩, hids⟩
  rcases hbeside with rfl | ⟨t₂, path, rfl, hsemi, hbeside⟩
  · trivial
  · rw [ids_updateActiveTree] at hsub
    exact minStarts_updateActiveTree hsemi hbeside fun e he ↦ hw e (hsub.subset he)

end

/-! ### Runs -/

/-- An active tree and the timestamps of the entities. -/
structure TreeState where
  tree : ActiveTree
  start : ℕ → Timestamp
  finish : ℕ → Timestamp
  /-- A null pointer was followed. -/
  failed : Bool

/-- An operation on an active tree. An entity gets its timestamps while it is on no tree; its
`min_start` is whatever it was. -/
inductive TreeOp
  | insert (x : ℕ) (start finish minStart : Timestamp)
  | extract (x : ℕ)

def TreeState.step (st : TreeState) : TreeOp → TreeState
  | .insert x s f m =>
    let start := update st.start x s
    let finish := update st.finish x f
    match bfqActiveInsert start finish st.tree x m with
    | some tree => ⟨tree, start, finish, st.failed⟩
    | none => { st with failed := true }
  | .extract x =>
    match bfqActiveExtract st.start st.tree x with
    | some tree => { st with tree }
    | none => { st with failed := true }

/-- Entities are inserted that are not in the tree, with timestamps in a window that holds all of
them, and extracted when they are in it. -/
def treeMachine : Machine TreeState TreeOp where
  guard st
    | .insert x s f _ => x ∉ ids st.tree ∧ ∃ base, Windowed (update st.start x s)
        (update st.finish x f) base (x :: ids st.tree)
    | .extract x => x ∈ ids st.tree
  exec := TreeState.step

section

variable {start start' finish finish' : ℕ → Timestamp} {t : ActiveTree}

theorem MinStarts.congr (h : MinStarts start t) (heq : ∀ e ∈ ids t, start' e = start e) :
    MinStarts start' t := by
  induction t with
  | nil => trivial
  | node c l a r ihl ihr =>
    obtain ⟨hl, hr, ⟨e, he, hem⟩, hmin⟩ := h
    rw [ids_node] at heq
    refine ⟨ihl hl fun x hx ↦ heq x (by simp [hx]), ihr hr fun x hx ↦ heq x (by simp [hx]),
      ⟨e, he, (heq e he).trans hem⟩, fun x hx ↦ ?_⟩
    rw [heq x hx]
    exact hmin x hx

theorem Augmented.congr (h : Augmented start finish t) (hs : ∀ e ∈ ids t, start' e = start e)
    (hf : ∀ e ∈ ids t, finish' e = finish e) : Augmented start' finish' t where
  toShaped := h.toShaped
  ordered := List.Pairwise.imp_of_mem (fun {a b} ha hb hab ↦ by rw [hf a ha, hf b hb]; exact hab)
    h.ordered
  minStarts := h.minStarts.congr hs

/-- What holds of a state in a run. -/
structure TreeState.Sound (st : TreeState) : Prop where
  alive : st.failed = false
  augmented : Augmented st.start st.finish st.tree
  windowed : ∃ base, Windowed st.start st.finish base (ids st.tree)

theorem TreeState.Sound.step {st : TreeState} {op : TreeOp} (h : st.Sound)
    (hg : treeMachine.guard st op) :
    (treeMachine.exec st op).Sound := by
  cases op with
  | insert x s f m =>
    obtain ⟨hx, base, hw⟩ := hg
    have hne : ∀ e ∈ ids st.tree, e ≠ x := fun e he heq ↦ hx (heq ▸ he)
    have haug : Augmented (update st.start x s) (update st.finish x f) st.tree :=
      h.augmented.congr (fun e he ↦ update_of_ne (hne e he) ..)
        fun e he ↦ update_of_ne (hne e he) ..
    obtain ⟨t', hins, haug', hmem⟩ := bfqActiveInsert_spec (m := m) haug hx hw
    have hstep : treeMachine.exec st (.insert x s f m) = ⟨t', update st.start x s,
        update st.finish x f, st.failed⟩ := by
      show st.step (.insert x s f m) = _
      unfold TreeState.step
      simp only [hins]
    rw [hstep]
    exact ⟨h.alive, haug', base, fun e he ↦ hw e (mem_cons.2 ((hmem e).1 he))⟩
  | extract x =>
    obtain ⟨base, hw⟩ := h.windowed
    obtain ⟨t', hext, haug', hids⟩ := bfqActiveExtract_spec h.augmented hg fun e he ↦ (hw e he).1
    have hstep : treeMachine.exec st (.extract x) = { st with tree := t' } := by
      show st.step (.extract x) = _
      unfold TreeState.step
      simp only [hext]
    rw [hstep]
    refine ⟨h.alive, haug', base, fun e he ↦ hw e ?_⟩
    rw [hids] at he
    exact mem_of_mem_erase he

end

/-- An empty active tree. -/
def TreeState.empty (start finish : ℕ → Timestamp) : TreeState := ⟨.nil, start, finish, false⟩

theorem TreeState.empty_sound (start finish : ℕ → Timestamp) :
    (TreeState.empty start finish).Sound :=
  ⟨rfl, ⟨⟨⟨0, .nil⟩, nodup_nil⟩, .nil, trivial⟩, 0, fun _ he ↦ absurd he not_mem_nil⟩

/-- **The active tree is ordered and augmented** after every sequence of insertions and
extractions, in which no null pointer is followed. -/
theorem active_tree_augmented {start finish : ℕ → Timestamp} {ops : List TreeOp} {st : TreeState}
    (h : treeMachine.Runs (TreeState.empty start finish) ops st) :
    st.failed = false ∧ Ordered st.finish (ids st.tree) ∧ MinStarts st.start st.tree := by
  have hsound := h.invariant (fun _ _ hI hg ↦ TreeState.Sound.step hI hg) (TreeState.empty_sound ..)
  exact ⟨hsound.alive, hsound.augmented.ordered, hsound.augmented.minStarts⟩

/-- Four entities with the same finish time around a wrap of the timestamps, the root of which is
extracted. -/
theorem active_tree_augmented_wrap : let zero : ℕ → Timestamp := fun _ ↦ 0
    let ops : List TreeOp := [.insert 1 (-3) 4 0, .insert 2 (-5) 4 0, .insert 3 2 4 0,
      .insert 4 (-9) 4 0,
      .extract 2]
    let st := treeMachine.final (TreeState.empty zero zero) ops
    ids st.tree = [1, 3, 4] ∧ st.failed = false ∧ Ordered st.finish (ids st.tree) ∧
      MinStarts st.start st.tree := by
  intro zero ops st
  have hrun : treeMachine.Permitted (TreeState.empty zero zero) ops := by
    refine ⟨⟨by decide +kernel, -100, by decide +kernel⟩,
      ⟨by decide +kernel, -100, by decide +kernel⟩,
      ⟨by decide +kernel, -100, by decide +kernel⟩, ⟨by decide +kernel, -100, by decide +kernel⟩,
      ?_, trivial⟩
    show 2 ∈ ids _
    decide +kernel
  exact ⟨by decide +kernel, active_tree_augmented hrun.runs⟩

end Bfq
