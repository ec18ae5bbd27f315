import MerrukKernel.Bfq.Places
import Mathlib.Tactic.Ring

/-!
# What the functions of the scheduler keep

Each function of `bfq-sched.c` takes a sound domain to a sound domain. Where a `BUG_ON` may be
hit, the condition is a hypothesis of the form `… → B`: with `B` false the lemma says that the
function returns.
-/

namespace Bfq

open RedBlack RedBlack.Tree Outcome List Domain

/-- The function may hit a `BUG_ON` only if `B`, and it follows no null pointer. -/
def Bugs (B : Prop) : Halt → Prop := fun r ↦ r = .bug ∧ B

section

variable {d d' : Domain} {loose loose' : Option ℕ} {e x : ℕ} {i j : Fin 3} {B : Prop}

/-! ### The share of an entity -/

/-- What an entity contributes to the weight sum of a service tree. -/
def Domain.share (d : Domain) (e : ℕ) (i : Fin 3) : BitVec 32 :=
  if (d.entity e).onSt = true ∧ d.InClass i e then d.weight e else 0

theorem Placed.sum_eq (h : Placed loose d) (e : ℕ) (i : Fin 3) :
    ((d.members loose i).map d.weight).sum =
      (((d.members loose i).erase e).map d.weight).sum + d.share e i := by
  unfold share
  by_cases he : e ∈ d.members loose i
  · rw [if_pos (h.mem_members.1 he), ((perm_cons_erase he).map d.weight).sum_eq, map_cons,
      sum_cons, add_comm]
  · rw [if_neg (fun hm ↦ he (h.mem_members.2 hm)), erase_of_not_mem he, add_zero]

theorem Placed.erase_perm (h : Placed loose d) (h' : Placed loose' d')
    (hentity : ∀ x ≠ e, d'.entity x = d.entity x) (i : Fin 3) :
    ((d'.members loose' i).erase e).Perm ((d.members loose i).erase e) := by
  refine (perm_ext_iff_of_nodup ((h'.members_nodup i).erase e) ((h.members_nodup i).erase e)).2
    fun x ↦ ?_
  rw [(h'.members_nodup i).mem_erase_iff, (h.members_nodup i).mem_erase_iff,
    h'.mem_members, h.mem_members]
  refine and_congr_right fun hx ↦ ?_
  have hclass : d'.InClass i x ↔ d.InClass i x := inClass_congr (by rw [hentity x hx])
  rw [hentity x hx, hclass]

/-- **The weight sums are kept** if they change by what the share of the one entity changes. -/
theorem Sound.wsum_of_share (h : Sound loose d) (h' : Placed loose' d')
    (hentity : ∀ x ≠ e, d'.entity x = d.entity x) {w w' : BitVec 32} (hw : d.share e i = w)
    (hw' : d'.share e i = w') (hwsum : (d'.serviceTree i).wsum = (d.serviceTree i).wsum - w + w') :
    (d'.serviceTree i).wsum = ((d'.members loose' i).map d'.weight).sum := by
  have hrest : (((d'.members loose' i).erase e).map d'.weight).sum =
      (((d.members loose i).erase e).map d.weight).sum := by
    rw [((h.toPlaced.erase_perm h' hentity i).map d'.weight).sum_eq]
    congr 1
    refine map_congr_left fun x hx ↦ ?_
    unfold weight
    rw [hentity x (((h.toPlaced.members_nodup i).mem_erase_iff.1 hx).1)]
  rw [h'.sum_eq e i, hrest, hwsum, h.wsum i, h.toPlaced.sum_eq e i, hw, hw']
  ring

theorem Placed.length_le (h : Placed loose d) (h' : Placed loose' d')
    (hentity : ∀ x ≠ e, d'.entity x = d.entity x) (i : Fin 3) :
    (d'.members loose' i).length ≤ (d.members loose i).length + 1 := by
  have hperm := (h.erase_perm h' hentity i).length_eq
  have hle := length_erase_le (a := e) (l := d.members loose i)
  have hle' := le_length_erase (a := e) (l := d'.members loose' i)
  omega

variable {g : ServiceTree → ServiceTree}

theorem Placed.setTree (h : Placed loose d)
    (hactive : (g (d.serviceTree i)).active = (d.serviceTree i).active)
    (hidle : (g (d.serviceTree i)).idle = (d.serviceTree i).idle)
    (hfirst : (g (d.serviceTree i)).firstIdle = (d.serviceTree i).firstIdle)
    (hlast : (g (d.serviceTree i)).lastIdle = (d.serviceTree i).lastIdle) :
    Placed loose (d.setTree i g) := by
  have htrees := setTree_congr ServiceTree.active hactive
  have hidles := setTree_congr ServiceTree.idle hidle
  refine ⟨fun j ↦ ?_, fun j ↦ ?_, fun j x ↦ ?_, fun j x ↦ ?_, h.inClass, h.onSt, h.off, h.nodup,
    fun j ↦ ?_, fun j ↦ ?_⟩
  · rw [htrees]
    exact h.active j
  · rw [hidles]
    exact h.idle j
  · rw [htrees]
    exact h.mem_active j x
  · rw [hidles]
    exact h.mem_idle j x
  · rw [hidles, setTree_congr ServiceTree.firstIdle hfirst]
    exact h.firstIdle j
  · rw [hidles, setTree_congr ServiceTree.lastIdle hlast]
    exact h.lastIdle j

/-! ### `bfq_forget_entity` and `bfq_forget_idle` -/

theorem share_eq (hon : (d.entity e).onSt = true) (hclass : d.InClass i e) :
    d.share e j = if j = i then d.weight e else 0 := by
  by_cases hj : j = i
  · rw [if_pos hj, hj]
    exact if_pos ⟨hon, hclass⟩
  · rw [if_neg hj]
    exact if_neg fun h ↦ hj (h.2.unique hclass)

theorem share_of_not_onSt (hon : (d.entity e).onSt = false) : d.share e i = 0 :=
  if_neg fun h ↦ by simp [hon] at h

theorem Placed.loose_mem (h : Placed (some e) d) : (d.entity e).onSt = true ∧
    (d.entity e).tree = none ∧
    e ∉ d.activeEntity.toList := by
  have hmem : e ∈ d.offTrees (some e) := mem_append_right _ (mem_singleton_self e)
  have hnodup := h.nodup
  unfold offTrees at hnodup
  rw [nodup_append] at hnodup
  exact ⟨(h.onSt e).2 (.inr hmem), h.off e hmem, fun he ↦ hnodup.2.2 e he e
    (mem_singleton_self e) rfl⟩

/-- `on_st` is set or cleared for an entity that is on no tree. -/
theorem Placed.toggle (h : Placed loose d) (htree : (d.entity e).tree = none) {f : Entity → Entity}
    (hf : (f (d.entity e)).tree = none) (honSt : (f (d.entity e)).onSt = true ↔
      e ∈ d.offTrees loose')
    (hoff : ∀ x ≠ e, x ∈ d.offTrees loose' ↔ x ∈ d.offTrees loose)
    (hnodup : (d.offTrees loose').Nodup) :
    Placed loose' (d.setEntity e f) :=
  h.alter (hf.trans htree.symm) (fun hne ↦ absurd htree hne) (by simp [htree, honSt]) hoff
    (fun _ ↦ htree) hnodup

/-- Only the weight sum of a service tree changes. -/
theorem Placed.setWsum (h : Placed loose d) (w : BitVec 32) :
    Placed loose (d.setTree i fun st ↦ { st with wsum := w }) :=
  h.setTree rfl rfl rfl rfl

theorem active_setTree (hg : (g (d.serviceTree i)).active = (d.serviceTree i).active) :
    ((d.setTree i g).serviceTree j).active = (d.serviceTree j).active :=
  setTree_congr ServiceTree.active hg j

theorem wsum_setTree {w : BitVec 32}
    (hg : (g (d.serviceTree i)).wsum = (d.serviceTree i).wsum + w) :
    ((d.setTree i g).serviceTree j).wsum = (d.serviceTree j).wsum + if j = i then w else 0 := by
  rcases eq_or_ne j i with rfl | hj
  · rw [setTree_self, hg, if_pos rfl]
  · rw [setTree_of_ne _ _ _ hj, if_neg hj, add_zero]

theorem active_change {f : Entity → Entity}
    (hg : (g (d.serviceTree i)).active = (d.serviceTree i).active) :
    (((d.setTree i g).setEntity e f).serviceTree j).active = (d.serviceTree j).active :=
  active_setTree hg

theorem Sound.forward_of_untouched (h : Sound loose d) (htree : (d.entity e).tree = none)
    (hentity : ∀ x ≠ e, d'.entity x = d.entity x)
    (hactive : (d'.serviceTree i).active = (d.serviceTree i).active) :
    ∀ x ∈ ids (d'.serviceTree i).active, bfqGt (d'.start x) (d'.finish x) = false := by
  intro x hx
  rw [hactive] at hx
  have hne : x ≠ e := by grind [h.mem_active]
  have hforward := h.forward i x hx
  unfold start finish at ⊢
  rw [hentity x hne]
  exact hforward

/-- **`bfq_forget_entity`** of a loose entity. -/
theorem Sound.forget (h : Sound (some e) d) (hclass : d.InClass i e) :
    ∃ d', bfqForgetEntity d i e = .ok d' ∧ Sound none d' ∧ Untouched e d d' ∧
      d'.entity e = { d.entity e with onSt := false } ∧ d'.activeEntity = d.activeEntity ∧
      ∀ j, (d'.serviceTree j).active = (d.serviceTree j).active := by
  obtain ⟨hon, htree, hnot⟩ := h.toPlaced.loose_mem
  refine ⟨_, if_neg (by simp [hon]), ?_, untouched_change rfl, setEntity_self .., rfl,
    fun j ↦ active_change rfl⟩
  have hplaced := (h.toPlaced.setWsum (i := i) ((d.serviceTree i).wsum - d.weight e)).toggle
    (f := fun x ↦ { x with onSt := false }) htree htree
    (by simpa [offTrees] using hnot) (fun x hx ↦ by simp [offTrees, hx])
    h.toPlaced.nodup_settle
  refine ⟨hplaced, fun j ↦ ?_, fun j ↦ h.forward_of_untouched htree
    (fun x ↦ setEntity_of_ne _ _ _) (active_change rfl)⟩
  have hgone := share_of_not_onSt (d := (d.setTree i fun st ↦
      { st with wsum := st.wsum - d.weight e }).setEntity e
      fun x ↦ { x with onSt := false }) (i := j) (by rw [setEntity_self])
  refine h.wsum_of_share hplaced (fun x ↦ setEntity_of_ne _ _ _) (share_eq hon hclass) hgone ?_
  rw [setEntity_serviceTree, wsum_setTree (sub_eq_add_neg ..), add_zero]
  split
  · rw [sub_eq_add_neg]
  · rw [sub_zero, add_zero]

/-- **An entity is added to its service tree** by `__bfq_activate_entity`. -/
theorem Sound.join (h : Sound none d) (hclass : d.InClass i e) (hon : (d.entity e).onSt = false)
    (s : Timestamp) :
    Sound (some e) ((d.setTree i fun st ↦
      { st with wsum := st.wsum + d.weight e }).setEntity e
      fun x ↦ { x with start := s, onSt := true }) := by
  have hnot : (d.entity e).tree = none ∧ e ∉ d.offTrees none := by
    have := (h.onSt e).not.1 (by simp [hon])
    rw [not_or, not_not] at this
    exact this
  obtain ⟨htree, hoff⟩ := hnot
  have hplaced := (h.toPlaced.setWsum (i := i) ((d.serviceTree i).wsum + d.weight e)).toggle
    (f := fun x ↦ { x with start := s, onSt := true }) htree htree
    (by simp [offTrees]) (fun x hx ↦ by simp [offTrees, hx]) (h.toPlaced.nodup_loosen hoff)
  refine ⟨hplaced, fun j ↦ ?_, fun j ↦ h.forward_of_untouched htree
    (fun x hx ↦ setEntity_of_ne _ _ _ hx) (active_change rfl)⟩
  have hclass' : ((d.setTree i fun st ↦
      { st with wsum := st.wsum + d.weight e }).setEntity e
      fun x ↦ { x with start := s, onSt := true }).InClass i e := by
    refine (inClass_congr ?_).2 hclass
    rw [setEntity_self]
    rfl
  refine h.wsum_of_share hplaced (fun x ↦ setEntity_of_ne _ _ _) (share_of_not_onSt hon)
    (share_eq (by rw [setEntity_self]) hclass') ?_
  unfold weight
  rw [setEntity_serviceTree, wsum_setTree rfl, sub_zero, setEntity_self]
  rfl

/-- The virtual time of a service tree changes. -/
theorem Sound.setVtime (h : Sound loose d) (v : Timestamp) :
    Sound loose (d.setTree i fun st ↦ { st with vtime := v }) := by
  have hplaced : Placed loose (d.setTree i fun st ↦ { st with vtime := v }) :=
    h.toPlaced.setTree rfl rfl rfl rfl
  refine ⟨hplaced, fun j ↦ h.wsum_of_same hplaced (fun _ ↦ Iff.rfl) (fun _ ↦ rfl)
    (setTree_congr ServiceTree.wsum rfl j), fun j ↦ ?_⟩
  rw [setTree_congr ServiceTree.active rfl]
  exact h.forward j

theorem vtimes_setVtime (v : Timestamp) :
    (d.setTree i fun st ↦ { st with vtime := v }).vtimes = Function.update d.vtimes i v := by
  funext j
  unfold vtimes
  rcases eq_or_ne j i with rfl | hj
  · rw [setTree_self, Function.update_self]
  · rw [setTree_of_ne _ _ _ hj, Function.update_of_ne hj]

/-- Entities may have been forgotten; nothing else happened to them, and the active trees are the
same. -/
structure Shed (d d' : Domain) : Prop where
  entity : ∀ x, d'.entity x = d.entity x ∨
    d'.entity x = { d.entity x with tree := none, onSt := false }
  activeEntity : d'.activeEntity = d.activeEntity
  active : ∀ j, (d'.serviceTree j).active = (d.serviceTree j).active

/-- **`bfq_put_idle_entity`** -/
theorem Sound.put_idle (h : Sound none d) (htree : (d.entity e).tree = some (.idle i)) :
    ∃ d', bfqPutIdleEntity d i e = .ok d' ∧ Sound none d' ∧ d'.vtimes = d.vtimes ∧ Shed d d' := by
  obtain ⟨d₁, hext, h₁, hun₁, he₁, hact₁, htrees₁⟩ := h.extract_idle htree
  have hclass₁ : d₁.InClass i e := by
    refine (inClass_congr ?_).2 (h.inClass i e (.inr htree))
    rw [he₁]
  obtain ⟨d₂, hforget, h₂, hun₂, he₂, hact₂, htrees₂⟩ := h₁.forget hclass₁
  refine ⟨d₂, ?_, h₂, hun₂.vtimes.trans hun₁.vtimes, ⟨fun x ↦ ?_, hact₂.trans hact₁, fun j ↦
    (htrees₂ j).trans (htrees₁ j)⟩⟩
  · unfold bfqPutIdleEntity
    rw [hext]
    exact hforget
  · rcases eq_or_ne x e with rfl | hx
    · rw [he₂, he₁]
      exact .inr rfl
    · grind [hun₂.entity, hun₁.entity]

/-- **`bfq_forget_idle`** -/
theorem Sound.forget_idle (h : Sound none d) (i : Fin 3) :
    ∃ d', bfqForgetIdle d i = .ok d' ∧ Sound none d' ∧
      d'.vtimes = Function.update d.vtimes i (forgottenTime d i (d.serviceTree i).vtime) ∧
      Shed d d' := by
  have h₁ := h.setVtime (i := i) (forgottenTime d i (d.serviceTree i).vtime)
  have hstay : Shed d (d.setTree i fun st ↦
      { st with vtime := forgottenTime d i (d.serviceTree i).vtime }) :=
    ⟨fun _ ↦ .inl rfl, rfl, fun j ↦ active_setTree rfl⟩
  unfold bfqForgetIdle
  cases hfirst : (d.serviceTree i).firstIdle with
  | none => exact ⟨_, rfl, h₁, vtimes_setVtime _, hstay⟩
  | some first =>
    simp only
    split
    · exact ⟨_, rfl, h₁, vtimes_setVtime _, hstay⟩
    · have htree := (h.mem_idle i first).1 (h.firstIdle i first hfirst)
      obtain ⟨d', hput, h', hvtimes, hshed⟩ := h₁.put_idle htree
      refine ⟨d', hput, h', hvtimes.trans (vtimes_setVtime _),
        ⟨hshed.entity, hshed.activeEntity, fun j ↦ ?_⟩⟩
      exact (hshed.active j).trans (active_setTree rfl)

/-! ### Timestamps -/

theorem toNat_bfqDelta_lt (service weight : BitVec 32) :
    (bfqDelta service weight).toNat < 2 ^ 54 := by
  unfold bfqDelta
  rw [BitVec.toNat_udiv, BitVec.toNat_shiftLeft, BitVec.toNat_setWidth]
  exact (Nat.div_le_self _ _).trans_lt (by omega)

/-- A timestamp is not after one that is at most `2 ^ 63` later. -/
theorem bfqGt_add_eq_false (s δ : Timestamp) (h : δ.toNat ≤ 2 ^ 63) : bfqGt s (s + δ) = false := by
  unfold bfqGt
  rw [decide_eq_false_iff_not, BitVec.toInt_eq_toNat_cond]
  have hsub : (s - (s + δ)).toNat = (2 ^ 64 - δ.toNat) % 2 ^ 64 := by grind
  split <;> omega

/-- **`bfq_calc_finish`** of an entity that is on no tree. -/
theorem Sound.calc_finish (h : Sound loose d) (htree : (d.entity e).tree = none)
    (service : BitVec 32)
    (hB : (d.entity e).weight = 0 → B) :
    Meets (bfqCalcFinish d e service) (Bugs B) fun d' ↦ Sound loose d' ∧ Untouched e d d' ∧
      d'.activeEntity = d.activeEntity ∧ (d.entity e).weight ≠ 0 ∧
      bfqGt (d'.start e) (d'.finish e) = false ∧
      ∃ f, d'.entity e = { d.entity e with finish := f } := by
  unfold bfqCalcFinish
  split
  · next hw => exact ⟨rfl, hB hw⟩
  · next hw =>
    refine ⟨h.setEntity rfl rfl rfl rfl fun i hi ↦ ?_, untouched_setEntity _ _ _, rfl, hw, ?_, _,
      setEntity_self ..⟩
    · rw [htree] at hi
      cases hi
    · unfold start finish
      rw [setEntity_self]
      have hlt := toNat_bfqDelta_lt service ((d.entity e).weight.setWidth 32)
      exact bfqGt_add_eq_false _ _ (by omega)

/-! ### `__bfq_entity_update_weight_prio` -/

@[simp] theorem adopt_tree (x : Entity) : (adopt x).tree = x.tree := by
  unfold adopt
  split_ifs <;> rfl

@[simp] theorem adopt_onSt (x : Entity) : (adopt x).onSt = x.onSt := by
  unfold adopt
  split_ifs <;> rfl

theorem reweigh_self : (d.reweigh i j e).entity e = adopt (d.entity e) := setEntity_self ..

theorem reweigh_of_ne (hx : x ≠ e) : (d.reweigh i j e).entity x = d.entity x :=
  setEntity_of_ne _ _ _ hx

theorem vtimes_reweigh : (d.reweigh i j e).vtimes = d.vtimes :=
  (vtimes_setTree rfl).trans ((untouched_setEntity _ _ _).vtimes.trans (vtimes_setTree rfl))

/-- **The weight sums after a change** of the weight or the class of an entity that is on no tree.
-/
theorem Sound.reweigh (h : Sound loose d) (hclass : d.InClass i e) (hmem : e ∈ d.offTrees loose)
    (hnew : bfqEntityServiceTree (adopt (d.entity e)) = .ok j) : Sound loose (d.reweigh i j e) := by
  have htree := h.off e hmem
  have hon : (d.entity e).onSt = true := (h.onSt e).2 (.inr hmem)
  have hclass' : (d.reweigh i j e).InClass j e := by grind [Domain.InClass, reweigh_self]
  have hon' : ((d.reweigh i j e).entity e).onSt = true := by
    rw [reweigh_self, adopt_onSt, hon]
  have hplaced : Placed loose (d.reweigh i j e) :=
    ((h.toPlaced.setWsum ((d.serviceTree i).wsum - d.weight e)).setEntity
      (adopt_tree _) (adopt_onSt _) fun hne ↦ absurd htree hne).setTree rfl rfl rfl rfl
  have hother : ∀ x ≠ e, (d.reweigh i j e).entity x = d.entity x := fun x hx ↦ reweigh_of_ne hx
  have hnewWeight : (d.reweigh i j e).weight e = (adopt (d.entity e)).weight.setWidth 32 := by
    unfold weight
    rw [reweigh_self]
  refine ⟨hplaced, fun k ↦ ?_, fun k ↦ h.forward_of_untouched htree hother ?_⟩
  · refine h.wsum_of_share hplaced hother (share_eq hon hclass) (share_eq hon' hclass') ?_
    unfold Domain.reweigh at hnewWeight ⊢
    rw [hnewWeight, wsum_setTree rfl, setEntity_serviceTree, wsum_setTree (sub_eq_add_neg ..)]
    split
    · rw [sub_eq_add_neg]
    · rw [sub_zero, add_zero]
  · unfold Domain.reweigh
    rw [active_setTree rfl, setEntity_serviceTree, active_setTree rfl]

theorem bfqEntityServiceTree_cases (x : Entity) :
    (∃ j, bfqEntityServiceTree x = .ok j) ∨ bfqEntityServiceTree x = .error .bug := by
  unfold bfqEntityServiceTree
  simp only
  split
  · exact .inl ⟨_, rfl⟩
  · exact .inr rfl

/-- The fields that are in use after a change that was requested. -/
def settled (x : Entity) : Entity := if x.ioprioChanged then adopt x else x

/-- **`__bfq_entity_update_weight_prio`** of an entity that is on no tree. -/
theorem Sound.update_weight_prio (h : Sound loose d) (hclass : d.InClass i e)
    (hmem : e ∈ d.offTrees loose)
    (hsum : (d.entity e).ioprioChanged = true → (d.serviceTree i).wsum < d.weight e → B)
    (hnew : bfqEntityServiceTree (settled (d.entity e)) = .error .bug → B) :
    Meets (bfqEntityUpdateWeightPrio d i e) (Bugs B) fun r ↦ Sound loose r.1 ∧ Untouched e d r.1 ∧
      r.1.activeEntity = d.activeEntity ∧ r.1.InClass r.2 e ∧
      ∃ s, r.1.entity e = { settled (d.entity e) with start := s } := by
  have htree := h.off e hmem
  unfold bfqEntityUpdateWeightPrio
  split
  · next hchanged =>
    have hsettled : settled (d.entity e) = adopt (d.entity e) := if_pos hchanged
    split
    · next hlt => exact ⟨rfl, hsum hchanged hlt⟩
    · rcases bfqEntityServiceTree_cases (adopt (d.entity e)) with ⟨j, hj⟩ | hbug
      · have h' := h.reweigh hclass hmem hj
        have htree' : ((d.reweigh i j e).entity e).tree = none := by
          rw [reweigh_self, adopt_tree, htree]
        have hclass' : (d.reweigh i j e).InClass j e := by grind [Domain.InClass, reweigh_self]
        rw [hj, hsettled]
        show Meets (if j ≠ i then (.ok ((d.reweigh i j e).setEntity e fun x ↦ { x with
          start := ((d.reweigh i j e).serviceTree j).vtime }, j)) else .ok (d.reweigh i j e, j)) _ _
        split
        · have h'' : Sound loose ((d.reweigh i j e).setEntity e fun x ↦
              { x with start := ((d.reweigh i j e).serviceTree j).vtime }) :=
            h'.setEntity rfl rfl rfl rfl fun k hk ↦ by
              rw [htree'] at hk
              cases hk
          refine ⟨h'', ⟨fun x hx ↦ ?_, vtimes_reweigh⟩, rfl, ?_,
            ((d.reweigh i j e).serviceTree j).vtime, ?_⟩
          · rw [setEntity_of_ne _ _ _ hx, reweigh_of_ne hx]
          · grind [inClass_congr, setEntity_self]
          · rw [setEntity_self, reweigh_self]
        · exact ⟨h', ⟨fun x hx ↦ reweigh_of_ne hx, vtimes_reweigh⟩, rfl, hclass', _, reweigh_self⟩
      · rw [hbug]
        exact ⟨rfl, hnew (hsettled ▸ hbug)⟩
  · next hchanged =>
    exact ⟨h, ⟨fun _ _ ↦ rfl, rfl⟩, rfl, hclass, _, by rw [settled, if_neg hchanged]⟩

end

end Bfq
