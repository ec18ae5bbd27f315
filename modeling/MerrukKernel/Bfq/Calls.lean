import MerrukKernel.Bfq.Accounts
import Mathlib.Algebra.Order.BigOperators.Group.List

/-!
# Activation, deactivation, service and selection

The calls of `bfq-sched.c` on a sound domain. Each is put together from the moves of an entity and
from the changes of its share of the weight sums.
-/

namespace Bfq

open RedBlack RedBlack.Tree Outcome Function List Domain

section

variable {d d' : Domain} {loose loose' : Option ℕ} {e x : ℕ} {i j : Fin 3} {B : Prop}

/-! ### Activation -/

/-- The entity in service becomes loose, or a loose one is put into service. -/
theorem Sound.setActive (h : Sound loose d) {a : Option ℕ}
    (hoff : (d.setActive a).offTrees loose' = d.offTrees loose) : Sound loose' (d.setActive a) := by
  have hplaced : Placed loose' (d.setActive a) :=
    { h with
      onSt := fun x ↦ hoff ▸ h.onSt x
      off := fun x hx ↦ h.off x (hoff ▸ hx)
      nodup := hoff ▸ h.nodup }
  exact ⟨hplaced, fun i ↦ h.wsum_of_same hplaced (fun _ ↦ Iff.rfl) (fun _ ↦ rfl) rfl, h.forward⟩

/-- An entity with `on_st` set that is not in service is on a tree of its class. -/
theorem Placed.tree_of_onSt (h : Placed none d) (hclass : d.InClass i e)
    (hon : (d.entity e).onSt = true)
    (hservice : d.activeEntity ≠ some e) :
    (d.entity e).tree = some (.active i) ∨ (d.entity e).tree = some (.idle i) := by
  rcases (h.onSt e).1 hon with htree | hoff
  · exact h.root_of_inClass hclass htree
  · unfold offTrees at hoff
    rw [Option.toList_none, append_nil, Option.mem_toList] at hoff
    exact absurd hoff hservice

theorem Placed.tree_of_service (h : Placed none d) (hservice : d.activeEntity = some e) :
    (d.entity e).onSt = true ∧ (d.entity e).tree = none := by
  have hmem : e ∈ d.offTrees none := by simp [offTrees, hservice]
  exact ⟨(h.onSt e).2 (.inr hmem), h.off e hmem⟩

/-- **The first part of `__bfq_activate_entity`.** -/
theorem Sound.take_up (h : Sound none d) (hclass : d.InClass i e)
    (hB : d.activeEntity = some e → (d.entity e).weight = 0 → B) :
    Meets (takeUp d i e) (Bugs B) fun d' ↦ Sound (some e) d' ∧ Untouched e d d' ∧
      ∃ s f, d'.entity e =
        { d.entity e with onSt := true, start := s, finish := f, tree := none } := by
  unfold takeUp
  split
  · -- the entity in service
    next hservice =>
    obtain ⟨hon, htree⟩ := h.toPlaced.tree_of_service hservice
    rw [if_neg (by simp [htree])]
    refine (h.calc_finish htree _ (hB hservice)).bind ?_
    rintro d₁ ⟨h₁, hun₁, hact₁, -, -, f, he₁⟩
    have htree₁ : (d₁.entity e).tree = none := by rw [he₁, htree]
    have h₂ : Sound none (d₁.setEntity e fun x ↦ { x with start := x.finish }) :=
      h₁.setEntity rfl rfl rfl rfl fun j hj ↦ by
        rw [htree₁] at hj
        cases hj
    refine ⟨h₂.setActive ?_, hun₁.trans ((untouched_setEntity _ _ _).trans
      (untouched_setActive _ _ _)), f, f, ?_⟩
    · simp [offTrees, hact₁, hservice]
    · grind [setActive_entity, setEntity_self]
  · next hservice =>
    split
    · -- on the active tree
      next htree =>
      obtain ⟨d', hext, h', hun, he, -⟩ := h.extract_active htree
      rw [hext]
      have hon := (h.onSt e).2 (.inl (by simp [htree]))
      refine ⟨h', hun, (d.entity e).start, (d.entity e).finish, he.trans ?_⟩
      simp only [hon]
    · next hactive =>
      split
      · -- on the idle tree
        next htree =>
        obtain ⟨d₁, hext, h₁, hun₁, he₁, -, -⟩ := h.extract_idle htree
        rw [hext]
        have htree₁ : (d₁.entity e).tree = none := by rw [he₁]
        have hon := (h.onSt e).2 (.inl (by simp [htree]))
        refine ⟨h₁.setEntity rfl rfl rfl rfl fun j hj ↦ ?_, hun₁.trans (untouched_setEntity _ _ _),
          if bfqGt (d₁.serviceTree i).vtime (d₁.entity e).finish then (d₁.serviceTree i).vtime
            else (d₁.entity e).finish, (d.entity e).finish, ?_⟩
        · rw [htree₁] at hj
          cases hj
        · grind [setEntity_self]
      · -- on no tree
        next hidle =>
        have hon : (d.entity e).onSt = false := by
          rw [← Bool.not_eq_true]
          intro hon
          rcases h.toPlaced.tree_of_onSt hclass hon hservice with htree | htree
          · exact hactive htree
          · exact hidle htree
        have htree : (d.entity e).tree = none := by grind [h.onSt]
        rw [if_neg (by simp [hon])]
        refine ⟨h.join hclass hon _, untouched_change rfl, (d.serviceTree i).vtime,
          (d.entity e).finish, ?_⟩
        rw [setEntity_self, setTree_entity]
        simp only [htree]

/-! ### Sums that do not wrap around -/

theorem sum_weight_le (d : Domain) (es : List ℕ) :
    (es.map fun e ↦ (d.entity e).weight.toNat).sum ≤ es.length * 65535 := by
  induction es with
  | nil => simp
  | cons e es ih =>
    rw [map_cons, sum_cons, length_cons]
    omega

theorem toNat_weight (d : Domain) (e : ℕ) : (d.weight e).toNat = (d.entity e).weight.toNat := by
  unfold weight
  rw [BitVec.toNat_setWidth, Nat.mod_eq_of_lt (by omega)]

/-- Up to `2 ^ 16` weights are added without a wrap. -/
theorem toNat_sum_weight (d : Domain) {es : List ℕ} (hlen : es.length ≤ 2 ^ 16) :
    (es.map d.weight).sum.toNat = (es.map fun e ↦ (d.entity e).weight.toNat).sum := by
  induction es with
  | nil => rfl
  | cons e es ih =>
    rw [length_cons] at hlen
    have hle := sum_weight_le d es
    rw [map_cons, sum_cons, BitVec.toNat_add, ih (by omega), toNat_weight, map_cons, sum_cons,
      Nat.mod_eq_of_lt (by omega)]

theorem Sound.weight_le (h : Sound loose d) (hon : (d.entity e).onSt = true)
    (hclass : d.InClass i e)
    (hlen : (d.members loose i).length ≤ 2 ^ 16) : ¬(d.serviceTree i).wsum < d.weight e := by
  have hmem : e ∈ d.members loose i := h.toPlaced.mem_members.2 ⟨hon, hclass⟩
  rw [h.wsum i, BitVec.lt_def, toNat_sum_weight d hlen, not_lt]
  exact single_le_sum (fun _ _ ↦ Nat.zero_le _) _ (mem_map.2 ⟨e, hmem, rfl⟩)

/-- **`__bfq_activate_entity`** -/
theorem Sound.activate (h : Sound none d) (m : Timestamp)
    (hclass : bfqEntityServiceTree (d.entity e) = .error .bug → B)
    (hservice : d.activeEntity = some e → (d.entity e).weight = 0 → B)
    (hcount : (∃ i, 2 ^ 16 ≤ (d.members none i).length) → B)
    (hnew : bfqEntityServiceTree (settled (d.entity e)) = .error .bug → B)
    (hweight : (settled (d.entity e)).weight = 0 → B) :
    Meets (bfqActivateEntity d e m) (Bugs B) fun d' ↦ Sound none d' ∧ Untouched e d d' ∧
      (d'.entity e).weight ≠ 0 := by
  unfold bfqActivateEntity
  rcases bfqEntityServiceTree_cases (d.entity e) with ⟨i, hi⟩ | hbug
  · rw [hi]
    refine (h.take_up hi hservice).bind ?_
    rintro d₁ ⟨h₁, hun₁, s, f, he₁⟩
    have hclass₁ : d₁.InClass i e := by
      refine (inClass_congr ?_).2 hi
      rw [he₁]
    have hon₁ : (d₁.entity e).onSt = true := by rw [he₁]
    have hmem₁ : e ∈ d₁.offTrees (some e) := mem_append_right _ (mem_singleton_self e)
    have hsettled₁ : settled (d₁.entity e) =
        { settled (d.entity e) with onSt := true, start := s, finish := f, tree := none } := by
      rw [he₁]
      unfold settled adopt
      split_ifs <;> rfl
    refine Meets.bind (h₁.update_weight_prio hclass₁ hmem₁ (fun _ hlt ↦ ?_) fun hbug ↦ hnew ?_) ?_
    · by_contra hB
      have hlen : (d.members none i).length < 2 ^ 16 := not_le.1 fun hle ↦ hB (hcount ⟨i, hle⟩)
      have hle := h.toPlaced.length_le h₁.toPlaced hun₁.entity i
      exact h₁.weight_le hon₁ hclass₁ (by omega) hlt
    · rw [hsettled₁] at hbug
      exact hbug
    rintro ⟨d₂, j⟩ ⟨h₂, hun₂, -, hclass₂, s₂, he₂⟩
    rw [hsettled₁] at he₂
    have htree₂ : (d₂.entity e).tree = none := by rw [he₂]
    refine Meets.bind (h₂.calc_finish htree₂ _ fun hw ↦ hweight ?_) ?_
    · rw [he₂] at hw
      exact hw
    rintro d₃ ⟨h₃, hun₃, -, hw₃, hforward, f₃, he₃⟩
    have hclass₃ : d₃.InClass j e := by grind [inClass_congr]
    obtain ⟨d₄, hins, h₄, hun₄, he₄⟩ := h₃.insert_active hclass₃ hforward m
    rw [hins]
    refine ⟨h₄, ((hun₁.trans hun₂).trans hun₃).trans hun₄, ?_⟩
    rw [he₄, he₃]
    exact hw₃
  · rw [hbug]
    exact ⟨rfl, hclass hbug⟩

/-! ### Deactivation -/

/-- Weights and classes stay, and no entity comes to a service tree. -/
structure Quiet (d d' : Domain) : Prop where
  weight : ∀ x, (d'.entity x).weight = (d.entity x).weight
  ioprioClass : ∀ x, (d'.entity x).ioprioClass = (d.entity x).ioprioClass
  onSt : ∀ x, (d'.entity x).onSt = true → (d.entity x).onSt = true

theorem Quiet.refl (d : Domain) : Quiet d d := ⟨fun _ ↦ rfl, fun _ ↦ rfl, fun _ ↦ id⟩

theorem Quiet.trans {d₁ d₂ d₃ : Domain} (h : Quiet d₁ d₂) (h' : Quiet d₂ d₃) : Quiet d₁ d₃ :=
  ⟨fun x ↦ (h'.weight x).trans (h.weight x), fun x ↦ (h'.ioprioClass x).trans (h.ioprioClass x),
    fun x hx ↦ h.onSt x (h'.onSt x hx)⟩

theorem Quiet.of_entity (hentity : ∀ x ≠ e, d'.entity x = d.entity x)
    (hweight : (d'.entity e).weight = (d.entity e).weight)
    (hclass : (d'.entity e).ioprioClass = (d.entity e).ioprioClass)
    (honSt : (d'.entity e).onSt = true → (d.entity e).onSt = true) : Quiet d d' := by
  refine ⟨fun x ↦ ?_, fun x ↦ ?_, fun x ↦ ?_⟩
  · grind
  · grind
  · grind

/-- Other fields of an entity change. -/
theorem quiet_setEntity {f : Entity → Entity}
    (hweight : (f (d.entity e)).weight = (d.entity e).weight)
    (hclass : (f (d.entity e)).ioprioClass = (d.entity e).ioprioClass)
    (honSt : (f (d.entity e)).onSt = (d.entity e).onSt) : Quiet d (d.setEntity e f) :=
  ⟨setEntity_congr Entity.weight hweight, setEntity_congr Entity.ioprioClass hclass,
    fun x ↦ (setEntity_congr Entity.onSt honSt x).symm ▸ id⟩

theorem Shed.quiet (h : Shed d d') : Quiet d d' := by
  refine ⟨fun x ↦ ?_, fun x ↦ ?_, fun x hon ↦ ?_⟩
  · rcases h.entity x with heq | heq <;> rw [heq]
  · rcases h.entity x with heq | heq <;> rw [heq]
  · grind [h.entity]

/-- No entity becomes a member. -/
theorem Quiet.length_le (hquiet : Quiet d d') (h : Placed loose d)
    (h' : Placed loose' d') (i : Fin 3) :
    (d'.members loose' i).length ≤ (d.members loose i).length := by
  refine ((h'.members_nodup i).subperm fun x hx ↦ ?_).length_le
  rw [h'.mem_members] at hx
  exact h.mem_members.2 ⟨hquiet.onSt x hx.1, (inClass_congr (hquiet.ioprioClass x)).1 hx.2⟩

theorem Sound.take_off (h : Sound none d) (hclass : d.InClass i e) (hon : (d.entity e).onSt = true)
    (hB : d.activeEntity = some e → (d.entity e).weight = 0 → B) :
    Meets (takeOff d i e) (Bugs B) fun d' ↦ Sound (some e) d' ∧ Untouched e d d' ∧
      ∃ f, d'.entity e = { d.entity e with finish := f, tree := none } := by
  unfold takeOff
  split
  · next hservice =>
    obtain ⟨-, htree⟩ := h.toPlaced.tree_of_service hservice
    rw [if_neg (by simp [htree])]
    refine (h.calc_finish htree _ (hB hservice)).bind ?_
    rintro d₁ ⟨h₁, hun₁, hact₁, -, -, f, he₁⟩
    refine ⟨h₁.setActive ?_, hun₁.trans (untouched_setActive _ _ _), f, ?_⟩
    · simp [offTrees, hact₁, hservice]
    · grind [setActive_entity]
  · next hservice =>
    rcases h.toPlaced.tree_of_onSt hclass hon hservice with htree | htree
    · rw [if_pos htree]
      obtain ⟨d', hext, h', hun, he, -⟩ := h.extract_active htree
      rw [hext]
      exact ⟨h', hun, _, he⟩
    · rw [if_neg (by simp [htree]), if_pos htree]
      obtain ⟨d', hext, h', hun, he, -⟩ := h.extract_idle htree
      rw [hext]
      exact ⟨h', hun, _, he⟩

/-- **`__bfq_deactivate_entity`** -/
theorem Sound.deactivate (h : Sound none d) (requeue : Bool)
    (hclass : bfqEntityServiceTree (d.entity e) = .error .bug → B)
    (hservice : d.activeEntity = some e → (d.entity e).weight = 0 → B) :
    Meets (bfqDeactivateEntity d e requeue) (Bugs B) fun d' ↦ Sound none d' ∧ Quiet d d' ∧
      d'.vtimes = d.vtimes := by
  unfold bfqDeactivateEntity
  rcases bfqEntityServiceTree_cases (d.entity e) with ⟨i, hi⟩ | hbug
  · rw [hi]
    show Meets (if (d.entity e).onSt = false then _ else _) _ _
    split
    · exact ⟨h, .refl d, rfl⟩
    · next hon =>
      rw [Bool.not_eq_false] at hon
      refine (h.take_off hi hon hservice).bind ?_
      rintro d₁ ⟨h₁, hun₁, f, he₁⟩
      have hclass₁ : d₁.InClass i e := by
        refine (inClass_congr ?_).2 hi
        rw [he₁]
      split
      · obtain ⟨d₂, hforget, h₂, hun₂, he₂, -⟩ := h₁.forget hclass₁
        rw [hforget]
        refine ⟨h₂, .of_entity (hun₁.trans hun₂).entity ?_ ?_ fun _ ↦ hon, (hun₁.trans hun₂).vtimes⟩
        · rw [he₂, he₁]
        · rw [he₂, he₁]
      · obtain ⟨d₂, hins, h₂, hun₂, he₂⟩ := h₁.insert_idle hclass₁
        rw [hins]
        refine ⟨h₂, .of_entity (hun₁.trans hun₂).entity ?_ ?_ fun _ ↦ hon, (hun₁.trans hun₂).vtimes⟩
        · rw [he₂, he₁]
        · rw [he₂, he₁]
  · rw [hbug]
    exact ⟨rfl, hclass hbug⟩

/-! ### Service and selection -/

theorem forgottenTime_congr (hactive : (d'.serviceTree i).active = (d.serviceTree i).active)
    (hlast : (d'.serviceTree i).lastIdle = (d.serviceTree i).lastIdle)
    (hfinish : ∀ x, d'.finish x = d.finish x)
    (v : Timestamp) : forgottenTime d' i v = forgottenTime d i v := by
  unfold forgottenTime
  rw [hactive, hlast]
  cases (d.serviceTree i).lastIdle with
  | none => rfl
  | some last => simp only [hfinish]

/-- The virtual time of a service tree advances to `v`, and idle entities are forgotten. -/
theorem Sound.advance (h : Sound none d) (i : Fin 3) (v : Timestamp) :
    ∃ d', bfqForgetIdle (d.setTree i fun st ↦ { st with vtime := v }) i = .ok d' ∧ Sound none d' ∧
      d'.vtimes = update d.vtimes i (forgottenTime d i v) ∧ Shed d d' := by
  obtain ⟨d', hforget, h', hvtimes, hshed⟩ := (h.setVtime v).forget_idle i
  refine ⟨d', hforget, h', ?_, ⟨hshed.entity, hshed.activeEntity, fun j ↦ ?_⟩⟩
  · rw [hvtimes, vtimes_setVtime, update_idem, setTree_self]
    congr 1
    refine forgottenTime_congr (active_setTree rfl) ?_ (fun _ ↦ rfl) v
    rw [setTree_self]
  · exact (hshed.active j).trans (active_setTree rfl)

/-- **`bfq_bfqq_served`** -/
theorem Sound.served (h : Sound none d) (n : BitVec 32)
    (hclass : bfqEntityServiceTree (d.entity e) = .error .bug → B)
    (hB : ∀ i, d.InClass i e → (d.serviceTree i).wsum = 0 → B) :
    Meets (bfqBfqqServed d e n) (Bugs B) fun d' ↦ Sound none d' ∧ Quiet d d' ∧
      ∃ i, d.InClass i e ∧ (d.serviceTree i).wsum ≠ 0 ∧ d'.vtimes = update d.vtimes i
        (forgottenTime d i (d.vtimes i + bfqDelta n (d.serviceTree i).wsum)) := by
  unfold bfqBfqqServed
  rcases bfqEntityServiceTree_cases (d.entity e) with ⟨i, hi⟩ | hbug
  · rw [hi]
    show Meets (if (d.serviceTree i).wsum = 0 then _ else _) _ _
    split
    · next hzero => exact ⟨rfl, hB i hi hzero⟩
    · next hzero =>
      have h₁ : Sound none (d.setEntity e fun x ↦ { x with service := x.service + n }) :=
        h.setEntity rfl rfl rfl rfl fun _ _ ↦ ⟨rfl, rfl⟩
      have hquiet : Quiet d (d.setEntity e fun x ↦ { x with service := x.service + n }) :=
        quiet_setEntity rfl rfl rfl
      have hfinish : ∀ x,
          (d.setEntity e fun x ↦ { x with service := x.service + n }).finish x = d.finish x :=
        setEntity_congr Entity.finish rfl
      obtain ⟨d', hforget, h', hvtimes, hshed⟩ :=
        h₁.advance i ((d.serviceTree i).vtime + bfqDelta n (d.serviceTree i).wsum)
      rw [show (bfqForgetIdle ((d.setEntity e fun x ↦ { x with service := x.service + n }).setTree i
        fun st ↦
        { st with vtime := st.vtime + bfqDelta n st.wsum }) i) = .ok d' from hforget]
      refine ⟨h', hquiet.trans hshed.quiet, i, hi, hzero, hvtimes.trans ?_⟩
      refine congrArg (update d.vtimes i) (forgottenTime_congr ?_ ?_ hfinish _)
      · rw [setEntity_serviceTree]
      · rw [setEntity_serviceTree]
  · rw [hbug]
    exact ⟨rfl, hclass hbug⟩

/-- **`bfq_update_vtime`** of a service tree with an active entity. -/
theorem Sound.update_vtime (h : Sound none d)
    (hactive : rbEmptyRoot (d.serviceTree i).active = false) :
    ∃ d', bfqUpdateVtime d i = .ok d' ∧ Sound none d' ∧ Shed d d' ∧
      ∃ v, d'.vtimes = update d.vtimes i v ∧ bfqGt (d.vtimes i) v = false := by
  unfold bfqUpdateVtime
  cases htree : (d.serviceTree i).active with
  | nil => simp [htree, rbEmptyRoot] at hactive
  | node c l a r =>
    simp only
    split
    · next hgt =>
      obtain ⟨d', hforget, h', hvtimes, hshed⟩ := h.advance i a.minStart
      refine ⟨d', hforget, h', hshed, a.minStart, hvtimes.trans ?_, ?_⟩
      · unfold forgottenTime
        rw [hactive]
        cases (d.serviceTree i).lastIdle <;> rfl
      · exact bfqGt_asymm hgt
    · exact ⟨d, rfl, h, ⟨fun _ ↦ .inl rfl, rfl, fun _ ↦ rfl⟩, d.vtimes i, (update_eq_self ..).symm,
        bfqGt_self _⟩

/-- The walk finds entities of the tree. -/
theorem firstActive_mem {start : ℕ → Timestamp} {v : Timestamp} {first : Option ℕ} {t : ActiveTree}
    (h : (firstActive start v first t).1 = some x) : x ∈ ids t ∨ first = some x := by
  induction t generalizing first with
  | nil => exact .inr h
  | node c l a r ihl ihr =>
    have hnote : ∀ {y}, note start v first a = some y → y = a.id ∨ first = some y := fun {y} hy ↦ by
      unfold note at hy
      split at hy
      · exact .inr hy
      · exact .inl (Option.some.inj hy).symm
    rw [ids_node, mem_append]
    rw [firstActive] at h
    by_cases hleft : goLeft v l = true
    · grind
    · grind

/-- What a selection found. -/
inductive Found (i : Fin 3) (d : Domain) : Domain × Option ℕ → Prop
  | none : Found i d (d, none)
  | some {d' : Domain} {e : ℕ} {v : Timestamp} : Sound .none d' → Quiet d d' →
    d'.activeEntity = d.activeEntity →
      d'.vtimes = update d.vtimes i v → bfqGt (d.vtimes i) v = false →
      (d'.entity e).tree = some (.active i) → Found i d (d', some e)

/-- **`__bfq_lookup_next_entity`** -/
theorem Sound.lookup_next (h : Sound none d) (i : Fin 3) :
    Meets (lookupNextEntity d i) (Bugs True) (Found i d) := by
  unfold lookupNextEntity
  split
  · exact .none
  · next hempty =>
    rw [Bool.not_eq_true] at hempty
    obtain ⟨d', hupdate, h', hshed, v, hvtimes, hgt⟩ := h.update_vtime hempty
    rw [hupdate]
    have hnonempty : ids (d'.serviceTree i).active ≠ [] := by
      rw [hshed.active i]
      cases htree : (d.serviceTree i).active with
      | nil => simp [htree, rbEmptyRoot] at hempty
      | node c l a r => simp
    simp only [bind, Except.bind]
    split
    · exact ⟨rfl, trivial⟩
    · next hfirst =>
      unfold bfqFirstActiveEntity at hfirst
      rw [Prod.mk.injEq] at hfirst
      simp [hfirst.1, hnonempty] at hfirst
    · next e hfirst =>
      split
      · exact ⟨rfl, trivial⟩
      · have hmem : e ∈ ids (d'.serviceTree i).active := by
          rcases firstActive_mem (congrArg Prod.fst hfirst) with hmem | hnone
          · exact hmem
          · cases hnone
        exact .some h' hshed.quiet hshed.activeEntity hvtimes hgt ((h'.mem_active i e).1 hmem)

/-- **`bfq_lookup_next_entity`**: the virtual time of one service tree may advance. -/
theorem Sound.lookup_from (h : Sound none d) (hservice : d.activeEntity = none) (extract : Bool)
    (is : List (Fin 3)) :
    Meets (lookupFrom d extract is) (Bugs True) fun r ↦ Sound none r.1 ∧ Quiet d r.1 ∧
      ∀ j, bfqGt (d.vtimes j) (r.1.vtimes j) = false := by
  induction is with
  | nil => exact ⟨h, .refl d, fun j ↦ bfqGt_self _⟩
  | cons i is ih =>
    refine (h.lookup_next i).bind ?_
    rintro _ (_ | @⟨d', e, v, h', hquiet, hact, hvtimes, hgt, htree⟩)
    · exact ih
    · have hmono : ∀ j, bfqGt (d.vtimes j) (d'.vtimes j) = false := fun j ↦ by
        rw [hvtimes]
        rcases eq_or_ne j i with rfl | hj
        · rw [update_self]
          exact hgt
        · grind [bfqGt_self]
      cases extract with
      | false => exact ⟨h', hquiet, hmono⟩
      | true =>
        obtain ⟨d₂, hext, h₂, hun₂, he₂, hact₂⟩ := h'.extract_active htree
        simp only [if_true]
        rw [hext]
        have hquiet₂ : Quiet d' (d₂.setActive (some e)) := by
          refine .of_entity hun₂.entity ?_ ?_ ?_ <;> rw [setActive_entity, he₂]
          exact id
        refine ⟨h₂.setActive ?_, hquiet.trans hquiet₂, fun j ↦ ?_⟩
        · simp [offTrees, hact₂, hact, hservice]
        · rw [show (d₂.setActive (some e)).vtimes = d'.vtimes from hun₂.vtimes]
          exact hmono j

/-- **`bfq_get_next_queue`** -/
theorem Sound.get_next_queue (h : Sound none d) :
    Meets (bfqGetNextQueue d) (Bugs True) fun d' ↦ Sound none d' ∧ Quiet d d' ∧
      ∀ j, bfqGt (d.vtimes j) (d'.vtimes j) = false := by
  unfold bfqGetNextQueue bfqLookupNextEntity
  split
  · exact ⟨rfl, trivial⟩
  · next hservice =>
    refine (h.lookup_from (not_not.1 hservice) true _).bind ?_
    rintro ⟨d', found⟩ ⟨h', hquiet, hmono⟩
    cases found with
    | none => exact ⟨rfl, trivial⟩
    | some e =>
      exact ⟨h'.setEntity rfl rfl rfl rfl fun _ _ ↦ ⟨rfl, rfl⟩,
        hquiet.trans (quiet_setEntity rfl rfl rfl), hmono⟩

end

end Bfq
