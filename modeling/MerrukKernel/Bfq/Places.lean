import MerrukKernel.Bfq.Domain
import MerrukKernel.Library.Outcome
import Mathlib.Algebra.BigOperators.Group.List.Basic

/-!
# Where the entities are

An entity with `on_st` set is on one of the trees of its class or in service. While a function
moves it, it is **loose**: on no tree, and not in service. `Sound` says this of all entities, and
that `wsum` is the sum of the weights of those that belong to a service tree, as a 32-bit word.
-/

namespace Bfq

open RedBlack RedBlack.Tree Outcome List Option Domain

instance : DecidableEq (Except Halt (Fin 3)) := fun
  | .ok i, .ok j => decidable_of_iff (i = j) (by simp)
  | .error a, .error b => decidable_of_iff (a = b) (by simp)
  | .ok _, .error _ => .isFalse (by simp)
  | .error _, .ok _ => .isFalse (by simp)

/-- The entity is of the class of this service tree. -/
def Domain.InClass (d : Domain) (i : Fin 3) (e : ℕ) : Prop :=
  bfqEntityServiceTree (d.entity e) = .ok i
deriving Decidable

/-- The entity that is in service, and a loose one. -/
def Domain.offTrees (d : Domain) (loose : Option ℕ) : List ℕ :=
  d.activeEntity.toList ++ loose.toList

/-- The entities that belong to a service tree. -/
def Domain.members (d : Domain) (loose : Option ℕ) (i : Fin 3) : List ℕ :=
  ids (d.serviceTree i).active ++
    ((d.serviceTree i).idle.toList ++ (d.offTrees loose).filter fun e ↦ d.InClass i e)

def Domain.vtimes (d : Domain) (i : Fin 3) : Timestamp := (d.serviceTree i).vtime

/-- A red-black tree of entities, each of which occurs once. -/
structure IdleShaped (t : RedBlack.Tree ℕ) : Prop where
  balanced : ∃ n, IsRB t .black n
  nodup : t.toList.Nodup

/-- **The entities are where their fields say.** -/
structure Placed (loose : Option ℕ) (d : Domain) : Prop where
  active : ∀ i, Shaped (d.serviceTree i).active
  idle : ∀ i, IdleShaped (d.serviceTree i).idle
  mem_active : ∀ i e, e ∈ ids (d.serviceTree i).active ↔ (d.entity e).tree = some (.active i)
  mem_idle : ∀ i e, e ∈ (d.serviceTree i).idle.toList ↔ (d.entity e).tree = some (.idle i)
  inClass : ∀ i e, (d.entity e).tree = some (.active i) ∨ (d.entity e).tree = some
    (.idle i) → d.InClass i e
  onSt : ∀ e, (d.entity e).onSt = true ↔ (d.entity e).tree ≠ none ∨ e ∈ d.offTrees loose
  off : ∀ e ∈ d.offTrees loose, (d.entity e).tree = none
  nodup : (d.offTrees loose).Nodup
  firstIdle : ∀ i, ∀ e ∈ (d.serviceTree i).firstIdle, e ∈ (d.serviceTree i).idle.toList
  lastIdle : ∀ i, ∀ e ∈ (d.serviceTree i).lastIdle, e ∈ (d.serviceTree i).idle.toList

/-- **What holds of a domain**: `wsum` is the sum of the weights, and no entity of an active tree
finishes before it starts. -/
structure Sound (loose : Option ℕ) (d : Domain) : Prop extends Placed loose d where
  wsum : ∀ i, (d.serviceTree i).wsum = ((d.members loose i).map d.weight).sum
  forward : ∀ i, ∀ e ∈ ids (d.serviceTree i).active, bfqGt (d.start e) (d.finish e) = false

/-! ### Assignments -/

namespace Domain

variable (d : Domain) (e : ℕ) (i : Fin 3) (f : Entity → Entity) (g : ServiceTree → ServiceTree)

@[simp] theorem setEntity_self : (d.setEntity e f).entity e = f (d.entity e) :=
  Function.update_self ..

theorem setEntity_of_ne {x : ℕ} (h : x ≠ e) : (d.setEntity e f).entity x = d.entity x :=
  Function.update_of_ne h ..

@[simp] theorem setEntity_serviceTree : (d.setEntity e f).serviceTree = d.serviceTree := rfl

@[simp] theorem setEntity_activeEntity : (d.setEntity e f).activeEntity = d.activeEntity := rfl

@[simp] theorem setTree_self : (d.setTree i g).serviceTree i = g (d.serviceTree i) :=
  Function.update_self ..

theorem setTree_of_ne {j : Fin 3} (h : j ≠ i) : (d.setTree i g).serviceTree j = d.serviceTree j :=
  Function.update_of_ne h ..

theorem forall_setTree {P : Fin 3 → ServiceTree → Prop} (h : P i (g (d.serviceTree i)))
    (h' : ∀ j ≠ i, P j (d.serviceTree j)) : ∀ j, P j ((d.setTree i g).serviceTree j) :=
  (Function.forall_update_iff _ P).2 ⟨h, h'⟩

variable {d e i f g} {γ : Type*}

/-- What an assignment to an entity does not change. -/
theorem setEntity_congr (p : Entity → γ) (h : p (f (d.entity e)) = p (d.entity e)) (x : ℕ) :
    p ((d.setEntity e f).entity x) = p (d.entity x) :=
  (Function.forall_update_iff d.entity fun x a ↦ p a = p (d.entity x)).2 ⟨h, fun _ _ ↦ rfl⟩ x

theorem setTree_congr (p : ServiceTree → γ) (h : p (g (d.serviceTree i)) = p (d.serviceTree i))
    (j : Fin 3) : p ((d.setTree i g).serviceTree j) = p (d.serviceTree j) :=
  d.forall_setTree (P := fun j st ↦ p st = p (d.serviceTree j)) i g h (fun _ _ ↦ rfl) j

variable (d e i f g)

@[simp] theorem setTree_entity : (d.setTree i g).entity = d.entity := rfl

@[simp] theorem setTree_activeEntity : (d.setTree i g).activeEntity = d.activeEntity := rfl

@[simp] theorem setActive_entity (x : Option ℕ) : (d.setActive x).entity = d.entity := rfl

@[simp] theorem setActive_serviceTree (x : Option ℕ) :
    (d.setActive x).serviceTree = d.serviceTree := rfl

@[simp] theorem setActive_activeEntity (x : Option ℕ) : (d.setActive x).activeEntity = x := rfl

end Domain

section

variable {d d' : Domain} {loose loose' : Option ℕ} {e x : ℕ} {i j : Fin 3}
  {f : Entity → Entity} {g : ServiceTree → ServiceTree}

/-! ### The members of a service tree -/

theorem Domain.InClass.unique (hi : d.InClass i e) (hj : d.InClass j e) : i = j :=
  Except.ok.inj (hi.symm.trans hj)

theorem Placed.root_of_inClass (h : Placed loose d) (hclass : d.InClass i x)
    (htree : (d.entity x).tree ≠ none) :
    (d.entity x).tree = some (.active i) ∨ (d.entity x).tree = some (.idle i) := by
  cases hroot : (d.entity x).tree with
  | none => exact absurd hroot htree
  | some root =>
    cases root with
    | active j =>
      obtain rfl := hclass.unique (h.inClass j x (.inl hroot))
      exact .inl rfl
    | idle j =>
      obtain rfl := hclass.unique (h.inClass j x (.inr hroot))
      exact .inr rfl

/-- Members of a service tree are the entities of its class with `on_st` set. -/
theorem Placed.mem_members (h : Placed loose d) :
    x ∈ d.members loose i ↔ (d.entity x).onSt = true ∧ d.InClass i x := by
  unfold members
  rw [mem_append, mem_append, mem_filter, h.mem_active, h.mem_idle, h.onSt]
  grind [h.inClass, h.root_of_inClass]

theorem Placed.members_nodup (h : Placed loose d) (i : Fin 3) : (d.members loose i).Nodup := by
  refine nodup_append.2 ⟨(h.active i).nodup, nodup_append.2
    ⟨(h.idle i).nodup, h.nodup.filter _, ?_⟩, ?_⟩
  · rintro x hx y hy rfl
    rw [h.mem_idle, h.off x (mem_filter.1 hy).1] at hx
    cases hx
  · rintro x hx y hy rfl
    rw [h.mem_active] at hx
    rcases mem_append.1 hy with hy | hy
    · rw [h.mem_idle, hx] at hy
      cases hy
    · grind [h.off]

/-- Domains that agree on `on_st` and on the classes have the same members. -/
theorem Placed.members_perm (h : Placed loose d) (h' : Placed loose' d')
    (hsame : ∀ x, (d'.entity x).onSt = true ∧ d'.InClass i x ↔ (d.entity x).onSt = true ∧
      d.InClass i x) :
    (d'.members loose' i).Perm (d.members loose i) := by
  refine (perm_ext_iff_of_nodup (h'.members_nodup i) (h.members_nodup i)).2 fun x ↦ ?_
  rw [h'.mem_members, h.mem_members]
  exact hsame x

/-- **The sum of the weights is kept** where neither the members nor their weights change. -/
theorem Sound.wsum_of_same (h : Sound loose d) (h' : Placed loose' d')
    (hsame : ∀ x, (d'.entity x).onSt = true ∧ d'.InClass i x ↔
      (d.entity x).onSt = true ∧ d.InClass i x)
    (hweight : ∀ x, d'.weight x = d.weight x)
    (hwsum : (d'.serviceTree i).wsum = (d.serviceTree i).wsum) :
    (d'.serviceTree i).wsum = ((d'.members loose' i).map d'.weight).sum := by
  rw [hwsum, h.wsum i, ((h.toPlaced.members_perm h' hsame).map d'.weight).sum_eq, funext hweight]

/-! ### Assignments to an entity -/

theorem Domain.inClass_congr {d d' : Domain}
    (h : (d'.entity x).ioprioClass = (d.entity x).ioprioClass) :
    d'.InClass i x ↔ d.InClass i x := by
  unfold Domain.InClass bfqEntityServiceTree
  rw [h]

/-- An entity stays on its tree. If it is on none, it may come or go, and its class may change. -/
theorem Placed.alter (h : Placed loose d) (htree : (f (d.entity e)).tree = (d.entity e).tree)
    (hclass : (d.entity e).tree ≠ none → (f (d.entity e)).ioprioClass = (d.entity e).ioprioClass)
    (honSt : (f (d.entity e)).onSt = true ↔ (d.entity e).tree ≠ none ∨ e ∈ d.offTrees loose')
    (hoff : ∀ x ≠ e, x ∈ d.offTrees loose' ↔ x ∈ d.offTrees loose)
    (he : e ∈ d.offTrees loose' → (d.entity e).tree = none) (hnodup : (d.offTrees loose').Nodup) :
    Placed loose' (d.setEntity e f) := by
  have htrees := setEntity_congr Entity.tree htree
  refine ⟨h.active, h.idle, fun i x ↦ ?_, fun i x ↦ ?_, fun i x hx ↦ ?_, fun x ↦ ?_,
    fun x hx ↦ ?_, hnodup,
    h.firstIdle, h.lastIdle⟩
  · rw [htrees]
    exact h.mem_active i x
  · rw [htrees]
    exact h.mem_idle i x
  · rw [htrees] at hx
    refine (inClass_congr ?_).2 (h.inClass i x hx)
    rcases eq_or_ne x e with rfl | hne
    · rw [setEntity_self, hclass (by rintro hnone; simp [hnone] at hx)]
    · rw [setEntity_of_ne _ _ _ hne]
  · rw [htrees]
    change _ ↔ _ ∨ x ∈ d.offTrees loose'
    rcases eq_or_ne x e with rfl | hx
    · rw [setEntity_self, honSt]
    · rw [setEntity_of_ne _ _ _ hx, h.onSt x, hoff x hx]
  · rw [htrees]
    rcases eq_or_ne x e with rfl | hne
    · exact he hx
    · exact h.off x ((hoff x hne).1 hx)

/-- Fields of an entity change other than those that say where it is. -/
theorem Placed.setEntity (h : Placed loose d)
    (htree : (f (d.entity e)).tree = (d.entity e).tree)
    (honSt : (f (d.entity e)).onSt = (d.entity e).onSt)
    (hclass : (d.entity e).tree ≠ none → (f (d.entity e)).ioprioClass = (d.entity e).ioprioClass) :
    Placed loose (d.setEntity e f) :=
  h.alter htree hclass (honSt ▸ h.onSt e) (fun _ _ ↦ Iff.rfl) (h.off e) h.nodup

/-- Fields of an entity change other than those that say where it is, its weight and, if it is on
an active tree, its timestamps. -/
theorem Sound.setEntity (h : Sound loose d)
    (htree : (f (d.entity e)).tree = (d.entity e).tree)
    (honSt : (f (d.entity e)).onSt = (d.entity e).onSt)
    (hclass : (f (d.entity e)).ioprioClass = (d.entity e).ioprioClass)
    (hweight : (f (d.entity e)).weight = (d.entity e).weight)
    (htimes : ∀ i, (d.entity e).tree = some (.active i) →
      (f (d.entity e)).start = (d.entity e).start ∧ (f (d.entity e)).finish = (d.entity e).finish) :
    Sound loose (d.setEntity e f) := by
  have hplaced := h.toPlaced.setEntity htree honSt fun _ ↦ hclass
  refine ⟨hplaced, fun i ↦ h.wsum_of_same hplaced (fun x ↦ ?_) (fun x ↦ ?_) rfl, fun i x hx ↦ ?_⟩
  · rw [setEntity_congr Entity.onSt honSt, inClass_congr
      (setEntity_congr Entity.ioprioClass hclass x)]
  · exact congrArg _ (setEntity_congr Entity.weight hweight x)
  · have hforward := h.forward i x hx
    unfold start finish at hforward ⊢
    rcases eq_or_ne x e with rfl | hne
    · obtain ⟨hs, hf⟩ := htimes i ((h.mem_active i x).1 hx)
      rw [setEntity_self, hs, hf]
      exact hforward
    · grind [setEntity_of_ne]

/-! ### Moves -/

/-- The places in which an entity of a class can be. -/
def AtHome (i : Fin 3) (r : Option Root) : Prop :=
  r = none ∨ r = some (.active i) ∨ r = some (.idle i)

theorem AtHome.eq_of_active (h : AtHome i (some (.active j))) : j = i := by
  rcases h with h | h | h <;> cases h
  rfl

theorem AtHome.eq_of_idle (h : AtHome i (some (.idle j))) : j = i := by
  rcases h with h | h | h <;> cases h
  rfl

/-- An entity is moved within its service tree, or from it or to it. -/
def Domain.relocate (d : Domain) (i : Fin 3) (e : ℕ) (g : ServiceTree → ServiceTree)
    (r : Option Root) :
    Domain :=
  (d.setTree i g).setEntity e fun x ↦ { x with tree := r }

/-- What a move does not change. -/
theorem Domain.relocate_congr {γ : Type*} {r : Option Root}
    (p : Entity → γ) (h : ∀ a r, p { a with tree := r } = p a) (x : ℕ) :
    p ((d.relocate i e g r).entity x) = p (d.entity x) :=
  setEntity_congr (d := d.setTree i g) p (h _ r) x

/-- The entities of a tree after one of them was moved there or away. -/
def Moved (e : ℕ) (here : Prop) (es es' : List ℕ) : Prop :=
  ∀ x, x ∈ es' ↔ x = e ∧ here ∨ x ≠ e ∧ x ∈ es

variable {r : Option Root} {xs es es' : List ℕ} {p : Option ℕ} {t : RedBlack.Tree ℕ} {here : Prop}

theorem moved_in (h : here) (hperm : es'.Perm (e :: es)) : Moved e here es es' := fun x ↦ by
  rw [hperm.mem_iff, mem_cons]
  by_cases hx : x = e <;> simp [hx, h]

theorem moved_out (h : ¬ here) (hnodup : es.Nodup) : Moved e here es (es.erase e) := fun x ↦ by
  rw [hnodup.mem_erase_iff]
  simp [h]

theorem moved_elsewhere (h : ¬ here) (he : e ∉ es) : Moved e here es es := fun x ↦ by
  by_cases hx : x = e <;> simp [hx, h, he]

theorem Placed.relocate (h : Placed loose d)
    (hclass : d.InClass i e) (hon : (d.entity e).onSt = true) (hold : AtHome i (d.entity e).tree)
    (hr : AtHome i r) (hactive : Shaped (g (d.serviceTree i)).active)
    (hidle : IdleShaped (g (d.serviceTree i)).idle)
    (hma : Moved e (r = some (.active i)) (ids (d.serviceTree i).active)
      (ids (g (d.serviceTree i)).active))
    (hmi : Moved e (r = some (.idle i)) (d.serviceTree i).idle.toList
      (g (d.serviceTree i)).idle.toList)
    (hoff : Moved e (r = none) (d.offTrees loose) (d.offTrees loose'))
    (hnodup : (d.offTrees loose').Nodup)
    (hfirst : ∀ x ∈ (g (d.serviceTree i)).firstIdle, x ∈ (g (d.serviceTree i)).idle.toList)
    (hlast : ∀ x ∈ (g (d.serviceTree i)).lastIdle, x ∈ (g (d.serviceTree i)).idle.toList) :
    Placed loose' (d.relocate i e g r) := by
  have hself : ((d.relocate i e g r).entity e).tree = r := congrArg Entity.tree (setEntity_self ..)
  have hother : ∀ {x}, x ≠ e → (d.relocate i e g r).entity x = d.entity x := fun {x} hx ↦
    setEntity_of_ne _ _ _ hx
  have htree : (d.relocate i e g r).serviceTree i = g (d.serviceTree i) := setTree_self ..
  have htrees : ∀ {j}, j ≠ i → (d.relocate i e g r).serviceTree j = d.serviceTree j := fun {j} hj ↦
    setTree_of_ne _ _ _ hj
  -- a root holds what it has to, if the entity was moved there or away
  have hroot : ∀ {root es es'}, (∀ x, x ∈ es ↔ (d.entity x).tree = some root) →
      Moved e (r = some root) es es' →
      ∀ x, x ∈ es' ↔ ((d.relocate i e g r).entity x).tree = some root := by
    intro root es es' hes hm x
    rw [hm x]
    rcases eq_or_ne x e with rfl | hx
    · rw [hself]
      simp
    · rw [hother hx, hes]
      simp [hx]
  refine ⟨d.forall_setTree (P := fun _ st ↦ Shaped st.active) i g hactive fun j _ ↦ h.active j,
    d.forall_setTree (P := fun _ st ↦ IdleShaped st.idle) i g hidle fun j _ ↦ h.idle j,
    fun j ↦ ?_, fun j ↦ ?_, fun j x hx ↦ ?_, fun x ↦ ?_, fun x hx ↦ ?_, hnodup,
    d.forall_setTree (P := fun _ st ↦ ∀ x ∈ st.firstIdle, x ∈ st.idle.toList) i g hfirst
      fun j _ ↦ h.firstIdle j,
    d.forall_setTree (P := fun _ st ↦ ∀ x ∈ st.lastIdle, x ∈ st.idle.toList) i g hlast
      fun j _ ↦ h.lastIdle j⟩
  · rcases eq_or_ne j i with rfl | hj
    · exact htree ▸ hroot (h.mem_active j) hma
    · rw [htrees hj]
      refine hroot (h.mem_active j) (moved_elsewhere (fun hx ↦ ?_) fun he ↦ ?_)
      · exact hj (AtHome.eq_of_active (hx ▸ hr))
      · exact hj (AtHome.eq_of_active ((h.mem_active j e).1 he ▸ hold))
  · rcases eq_or_ne j i with rfl | hj
    · exact htree ▸ hroot (h.mem_idle j) hmi
    · rw [htrees hj]
      refine hroot (h.mem_idle j) (moved_elsewhere (fun hx ↦ ?_) fun he ↦ ?_)
      · exact hj (AtHome.eq_of_idle (hx ▸ hr))
      · exact hj (AtHome.eq_of_idle ((h.mem_idle j e).1 he ▸ hold))
  · rw [inClass_congr (relocate_congr Entity.ioprioClass (fun _ _ ↦ rfl) x)]
    rcases eq_or_ne x e with rfl | hne
    · rw [hself] at hx
      rcases hx with rfl | rfl
      · exact hr.eq_of_active ▸ hclass
      · exact hr.eq_of_idle ▸ hclass
    · rw [hother hne] at hx
      exact h.inClass j x hx
  · rw [show (d.relocate i e g r).offTrees loose' = d.offTrees loose' from rfl, hoff x]
    rcases eq_or_ne x e with rfl | hx
    · rw [hself, relocate_congr Entity.onSt fun _ _ ↦ rfl]
      simp only [hon, true_and, ne_eq, not_true_eq_false, false_and, or_false, true_iff]
      exact (em (r = none)).symm
    · rw [hother hx, h.onSt]
      simp [hx]
  · rcases (hoff x).1 hx with ⟨rfl, hnone⟩ | ⟨hne, hx⟩
    · rw [hself, hnone]
    · rw [hother hne]
      exact h.off x hx

theorem Sound.relocate (h : Sound loose d)
    (hplaced : Placed loose' (d.relocate i e g r))
    (hwsum : (g (d.serviceTree i)).wsum = (d.serviceTree i).wsum)
    (hma : Moved e (r = some (.active i)) (ids (d.serviceTree i).active)
      (ids (g (d.serviceTree i)).active))
    (hforward : r = some (.active i) → bfqGt (d.start e) (d.finish e) = false) :
    Sound loose' (d.relocate i e g r) := by
  refine ⟨hplaced, fun j ↦ h.wsum_of_same hplaced (fun x ↦ ?_) (fun x ↦ ?_)
    (setTree_congr ServiceTree.wsum hwsum j), fun j x hx ↦ ?_⟩
  · rw [inClass_congr (relocate_congr Entity.ioprioClass (fun _ _ ↦ rfl) x),
      relocate_congr Entity.onSt fun _ _ ↦ rfl]
  · exact congrArg _ (relocate_congr Entity.weight (fun _ _ ↦ rfl) x)
  · unfold start finish
    rw [relocate_congr Entity.start fun _ _ ↦ rfl, relocate_congr Entity.finish fun _ _ ↦ rfl]
    refine d.forall_setTree (P := fun _ st ↦ x ∈ ids st.active → _) i g (fun hx ↦ ?_)
      (fun j _ ↦ h.forward j x) j hx
    rcases (hma x).1 hx with ⟨rfl, hr⟩ | ⟨-, hx⟩
    · exact hforward hr
    · exact h.forward i x hx

/-- An entity becomes loose. -/
theorem offTrees_loosen (he : e ∉ d.offTrees none) :
    Moved e (none = (none : Option Root)) (d.offTrees none)
    (d.offTrees (some e)) := fun x ↦ by
  unfold offTrees at he ⊢
  simp only [toList_none, append_nil, toList_some, mem_append,
    mem_singleton, and_true] at he ⊢
  rcases eq_or_ne x e with rfl | hx
  · simp
  · simp [hx]

/-- A loose entity is settled. -/
theorem offTrees_settle {root : Root} (h : Placed (some e) d) :
    Moved e (some root = none) (d.offTrees (some e)) (d.offTrees none) := fun x ↦ by
  have hnodup := h.nodup
  unfold offTrees at hnodup ⊢
  rw [toList_some, nodup_append] at hnodup
  have he : e ∉ d.activeEntity.toList := fun he ↦ hnodup.2.2 e he e (mem_singleton_self e) rfl
  rcases eq_or_ne x e with rfl | hx
  · simpa using he
  · simp [hx]

theorem Placed.not_mem_offTrees (h : Placed loose d) (he : (d.entity e).tree ≠ none) :
    e ∉ d.offTrees loose :=
  fun hmem ↦ he (h.off e hmem)

theorem Placed.nodup_loosen (h : Placed none d) (he : e ∉ d.offTrees none) :
    (d.offTrees (some e)).Nodup := by
  unfold offTrees at he ⊢
  rw [toList_none, append_nil] at he
  rw [toList_some, ← concat_eq_append, nodup_concat]
  refine ⟨he, ?_⟩
  have := h.nodup
  unfold offTrees at this
  rwa [toList_none, append_nil] at this

theorem Placed.nodup_settle (h : Placed (some e) d) : (d.offTrees none).Nodup := by
  have := h.nodup
  unfold offTrees at this ⊢
  rw [toList_none, append_nil]
  exact (nodup_append.1 this).1

/-- Only one entity changes, and no virtual time. -/
structure Untouched (e : ℕ) (d d' : Domain) : Prop where
  entity : ∀ x ≠ e, d'.entity x = d.entity x
  vtimes : d'.vtimes = d.vtimes

theorem Untouched.trans {d₁ d₂ d₃ : Domain} (h : Untouched e d₁ d₂) (h' : Untouched e d₂ d₃) :
    Untouched e d₁ d₃ :=
  ⟨fun x hx ↦ (h'.entity x hx).trans (h.entity x hx), h'.vtimes.trans h.vtimes⟩

theorem untouched_setEntity (d : Domain) (e : ℕ) (f : Entity → Entity) :
    Untouched e d (d.setEntity e f) :=
  ⟨fun _ hx ↦ setEntity_of_ne _ _ _ hx, rfl⟩

theorem untouched_setActive (d : Domain) (e : ℕ) (a : Option ℕ) : Untouched e d (d.setActive a) :=
  ⟨fun _ _ ↦ rfl, rfl⟩

theorem vtimes_setTree (hg : (g (d.serviceTree i)).vtime = (d.serviceTree i).vtime) :
    (d.setTree i g).vtimes = d.vtimes := by
  funext j
  exact setTree_congr ServiceTree.vtime hg j

theorem untouched_change (hg : (g (d.serviceTree i)).vtime = (d.serviceTree i).vtime) :
    Untouched e d ((d.setTree i g).setEntity e f) :=
  ⟨fun _ hx ↦ setEntity_of_ne _ _ _ hx, vtimes_setTree hg⟩

/-- **`bfq_active_insert`** of a loose entity. -/
theorem Sound.insert_active (h : Sound (some e) d) (hclass : d.InClass i e)
    (hforward : bfqGt (d.start e) (d.finish e) = false) (m : Timestamp) :
    ∃ d', activeInsert d i e m = .ok d' ∧ Sound none d' ∧ Untouched e d d' ∧
      d'.entity e = { d.entity e with tree := some (.active i) } := by
  have hmem : e ∈ d.offTrees (some e) := mem_append_right _ (mem_singleton_self e)
  have htree := h.off e hmem
  have hnot : e ∉ ids (d.serviceTree i).active := fun he ↦ by
    rw [h.mem_active, htree] at he
    cases he
  obtain ⟨t, hins, hshaped, hperm⟩ := (h.active i).activeInsert hnot d.start d.finish m
  have hidle : e ∉ (d.serviceTree i).idle.toList := by simp [h.mem_idle, htree]
  refine ⟨d.relocate i e (fun st ↦ { st with active := t }) (some (.active i)), ?_, ?_,
    untouched_change rfl, setEntity_self ..⟩
  · unfold activeInsert
    rw [if_neg (by simp [htree]), hins]
    rfl
  · refine h.relocate ?_ rfl (moved_in rfl hperm) fun _ ↦ hforward
    exact h.toPlaced.relocate hclass ((h.onSt e).2 (.inr hmem)) (.inl htree) (.inr (.inl rfl))
      hshaped (h.idle i)
      (moved_in rfl hperm) (moved_elsewhere nofun hidle) (offTrees_settle h.toPlaced)
      h.toPlaced.nodup_settle (h.firstIdle i) (h.lastIdle i)

/-- **`bfq_active_extract`** -/
theorem Sound.extract_active (h : Sound none d) (htree : (d.entity e).tree = some (.active i)) :
    ∃ d', activeExtract d i e = .ok d' ∧ Sound (some e) d' ∧ Untouched e d d' ∧
      d'.entity e = { d.entity e with tree := none } ∧ d'.activeEntity = d.activeEntity := by
  have hmem := (h.mem_active i e).2 htree
  have hoff : e ∉ d.offTrees none := h.toPlaced.not_mem_offTrees (by simp [htree])
  obtain ⟨t, hext, hshaped, hids⟩ := (h.active i).activeExtract hmem d.start
  have hma : Moved e (none = some (Root.active i)) (ids (d.serviceTree i).active) (ids t) :=
    hids ▸ moved_out nofun (h.active i).nodup
  have hidle : e ∉ (d.serviceTree i).idle.toList := by simp [h.mem_idle, htree]
  refine ⟨d.relocate i e (fun st ↦ { st with active := t }) none, ?_, ?_, untouched_change rfl,
    setEntity_self .., rfl⟩
  · unfold activeExtract
    rw [if_neg (by simp [htree]), hext]
    rfl
  · refine h.relocate ?_ rfl hma nofun
    exact h.toPlaced.relocate (h.inClass i e (.inl htree)) ((h.onSt e).2 (.inl (by simp [htree])))
      (.inr (.inl htree)) (.inl rfl) hshaped (h.idle i) hma (moved_elsewhere nofun hidle)
      (offTrees_loosen hoff) (h.toPlaced.nodup_loosen hoff) (h.firstIdle i) (h.lastIdle i)

/-! ### The idle tree -/

theorem rbNext_mem (h : rbNext xs e = some x) : x ∈ xs := by
  induction xs with
  | nil => cases h
  | cons y ys ih =>
    unfold rbNext at h
    split at h
    · exact mem_cons_of_mem _ (mem_of_mem_head? h)
    · exact mem_cons_of_mem _ (ih h)

/-- The successor is another entity. -/
theorem rbNext_ne (hnodup : xs.Nodup) (h : rbNext xs e = some x) : x ≠ e := by
  induction xs with
  | nil => cases h
  | cons y ys ih =>
    obtain ⟨hy, hys⟩ := nodup_cons.1 hnodup
    unfold rbNext at h
    split at h
    · grind [mem_of_mem_head?]
    · exact ih hys h

/-- The entity that a pointer to an idle entity gives way to. -/
theorem mem_erase_of_next {next : Option ℕ} (hnodup : es.Nodup) (hp : ∀ x ∈ p, x ∈ es)
    (hnext : ∀ x ∈ next, x ∈ es ∧ x ≠ e) : ∀ x ∈ extractedPointer p e next, x ∈ es.erase e := by
  unfold extractedPointer
  intro x hx
  rw [hnodup.mem_erase_iff]
  split at hx
  · exact (hnext x hx).symm
  · next hne => exact ⟨fun heq ↦ hne (heq ▸ hx), hp x hx⟩

/-- **`rb_erase`** -/
theorem IdleShaped.rbErase (h : IdleShaped t) (he : e ∈ t.toList) :
    ∃ t', Bfq.rbErase t e = some t' ∧ IdleShaped t' ∧ t'.toList = t.toList.erase e := by
  obtain ⟨n, hrb⟩ := h.balanced
  obtain ⟨⟨t₁, path⟩, hloc⟩ := isSome_iff_exists.1
    (locate_isSome (m := fun a ↦ decide (a = e)) [] he (decide_eq_true rfl))
  obtain ⟨-, c, l, a, r, rfl, ha⟩ := locate_some hloc
  obtain rfl := of_decide_eq_true ha
  obtain ⟨t', k, before, after, herase, hrb', heq, heq'⟩ := Rbtree.erase_located hrb hloc
  have hlist : t'.toList = t.toList.erase a := by
    have hnodup := h.nodup
    rw [heq, nodup_middle, nodup_cons, mem_append, not_or] at hnodup
    rw [heq, heq', erase_append_right _ hnodup.1.1, erase_cons_head]
  refine ⟨t', ?_, ⟨⟨k, hrb'⟩, hlist ▸ h.nodup.erase a⟩, hlist⟩
  unfold Bfq.rbErase
  rw [hloc]
  exact herase

/-- **`bfq_insert`** into an idle tree. -/
theorem IdleShaped.insert (h : IdleShaped t) (he : e ∉ t.toList) (go : ℕ → Side) :
    ∃ t', Rbtree.insert go e t = some t' ∧ IdleShaped t' ∧ t'.toList.Perm (e :: t.toList) := by
  obtain ⟨n, hrb⟩ := h.balanced
  obtain ⟨t', k, hins, hrb'⟩ := Rbtree.insert_isRB hrb go e
  obtain ⟨before, after, heq, heq'⟩ := Rbtree.exists_toList_insert hins
  have hperm : t'.toList.Perm (e :: t.toList) := by
    rw [heq, heq']
    exact perm_middle
  exact ⟨t', hins, ⟨⟨k, hrb'⟩, hperm.nodup_iff.2 (nodup_cons.2 ⟨he, h.nodup⟩)⟩, hperm⟩

/-- **`bfq_idle_extract`** -/
theorem Sound.extract_idle (h : Sound none d) (htree : (d.entity e).tree = some (.idle i)) :
    ∃ d', bfqIdleExtract d i e = .ok d' ∧ Sound (some e) d' ∧ Untouched e d d' ∧
      d'.entity e = { d.entity e with tree := none } ∧ d'.activeEntity = d.activeEntity ∧
      ∀ j, (d'.serviceTree j).active = (d.serviceTree j).active := by
  have hmem := (h.mem_idle i e).2 htree
  have hoff : e ∉ d.offTrees none := h.toPlaced.not_mem_offTrees (by simp [htree])
  obtain ⟨t, hext, hshaped, hlist⟩ := (h.idle i).rbErase hmem
  have hactive : e ∉ ids (d.serviceTree i).active := by simp [h.mem_active, htree]
  have hprev : ∀ x ∈ rbPrev (d.serviceTree i).idle.toList e,
      x ∈ (d.serviceTree i).idle.toList ∧ x ≠ e :=
    fun x hx ↦ ⟨mem_reverse.1 (rbNext_mem hx), rbNext_ne (nodup_reverse.2 (h.idle i).nodup) hx⟩
  refine ⟨d.relocate i e (fun st ↦ { st with
      idle := t
      firstIdle := extractedPointer (d.serviceTree i).firstIdle e
        (rbNext (d.serviceTree i).idle.toList e)
      lastIdle := extractedPointer (d.serviceTree i).lastIdle e
        (rbPrev (d.serviceTree i).idle.toList e) })
    none, ?_, ?_, untouched_change rfl, setEntity_self .., rfl,
    fun j ↦ ?_⟩
  · unfold bfqIdleExtract
    rw [if_neg (by simp [htree]), hext]
    rfl
  · refine h.relocate ?_ rfl (moved_elsewhere nofun hactive) nofun
    refine h.toPlaced.relocate (h.inClass i e (.inr htree)) ((h.onSt e).2 (.inl (by simp [htree])))
      (.inr (.inr htree)) (.inl rfl) (h.active i) hshaped (moved_elsewhere nofun hactive)
      (hlist ▸ moved_out nofun (h.idle i).nodup) (offTrees_loosen hoff)
      (h.toPlaced.nodup_loosen hoff) ?_ ?_
    · rw [hlist]
      exact mem_erase_of_next (h.idle i).nodup (h.firstIdle i) fun x hx ↦
        ⟨rbNext_mem hx, rbNext_ne (h.idle i).nodup hx⟩
    · rw [hlist]
      exact mem_erase_of_next (h.idle i).nodup (h.lastIdle i) hprev
  · unfold Domain.relocate
    rw [setEntity_serviceTree]
    exact setTree_congr ServiceTree.active rfl j

theorem mem_of_inserted {replaces : ℕ → Bool} (hp : ∀ x ∈ p, x ∈ es)
    (hperm : es'.Perm (e :: es)) : ∀ x ∈ insertedPointer p e replaces, x ∈ es' := by
  unfold insertedPointer
  intro x hx
  rw [hperm.mem_iff, mem_cons]
  split at hx
  · exact .inl (Option.some.inj hx).symm
  · grind

/-- **`bfq_idle_insert`** of a loose entity. -/
theorem Sound.insert_idle (h : Sound (some e) d) (hclass : d.InClass i e) :
    ∃ d', bfqIdleInsert d i e = .ok d' ∧ Sound none d' ∧ Untouched e d d' ∧
      d'.entity e = { d.entity e with tree := some (.idle i) } := by
  have hmem : e ∈ d.offTrees (some e) := mem_append_right _ (mem_singleton_self e)
  have htree := h.off e hmem
  have hnot : e ∉ (d.serviceTree i).idle.toList := fun he ↦ by
    rw [h.mem_idle, htree] at he
    cases he
  obtain ⟨t, hins, hshaped, hperm⟩ := (h.idle i).insert hnot
    fun a ↦ if bfqGt (d.finish a) (d.finish e) then .left else .right
  have hactive : e ∉ ids (d.serviceTree i).active := by simp [h.mem_active, htree]
  refine ⟨d.relocate i e (fun st ↦ { st with
      idle := t
      firstIdle := insertedPointer (d.serviceTree i).firstIdle e fun f ↦ bfqGt
        (d.finish f) (d.finish e)
      lastIdle := insertedPointer (d.serviceTree i).lastIdle e fun l ↦ bfqGt
        (d.finish e) (d.finish l) })
    (some (.idle i)), ?_, ?_, untouched_change rfl, setEntity_self ..⟩
  · unfold bfqIdleInsert
    rw [if_neg (by simp [htree]), hins]
    rfl
  · refine h.relocate ?_ rfl (moved_elsewhere nofun hactive) nofun
    exact h.toPlaced.relocate hclass ((h.onSt e).2 (.inr hmem)) (.inl htree) (.inr (.inr rfl))
      (h.active i) hshaped
      (moved_elsewhere nofun hactive) (moved_in rfl hperm) (offTrees_settle h.toPlaced)
      h.toPlaced.nodup_settle (mem_of_inserted (h.firstIdle i) hperm)
      (mem_of_inserted (h.lastIdle i) hperm)

end

end Bfq
