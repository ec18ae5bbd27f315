import MerrukKernel.Bfq.DomainRuns

/-!
# The bounds of an idle tree

`first_idle` and `last_idle` are kept beside the idle tree. An entity goes behind those that finish
with it, and a pointer moves for one that finishes strictly before or after: the last entity is
missed if it finishes with the one before.
-/

namespace Bfq

open RedBlack RedBlack.Tree Outcome List Domain

inductive IdleOp
  | insert (e : ℕ) (finish : Timestamp)
  | extract (e : ℕ)

/-- The callers of `bfq_idle_insert` give the entity its finish time. -/
def Domain.setFinish (d : Domain) (e : ℕ) (finish : Timestamp) : Domain :=
  d.setEntity e fun x ↦ { x with finish }

/-- A call for service tree `i`. -/
def Domain.idleStep (i : Fin 3) (d : Domain) : IdleOp → Except Halt Domain
  | .insert e finish => bfqIdleInsert (d.setFinish e finish) i e
  | .extract e => bfqIdleExtract d i e

/-- The call hits no `BUG_ON`, and what is inserted finishes in the window, but not with the last
idle entity. -/
def IdleOp.Untied (base : Timestamp) (i : Fin 3) (d : Domain) : IdleOp → Prop
  | .insert e finish => (d.entity e).tree = none ∧ InWindow base finish ∧
      ∀ l ∈ (d.serviceTree i).lastIdle, d.finish l ≠ finish
  | .extract e => (d.entity e).tree = some (.idle i)

instance (base : Timestamp) (i : Fin 3) (d : Domain) (op : IdleOp) :
    Decidable (op.Untied base i d) :=
  match op with
  | .insert .. => inferInstanceAs (Decidable (_ ∧ _))
  | .extract .. => inferInstanceAs (Decidable (_ = _))

def untiedMachine (base : Timestamp) (i : Fin 3) : Machine (Except Halt Domain) IdleOp where
  guard s op := Returns s (IdleOp.Untied base i · op)
  exec s op := s >>= (·.idleStep i op)

instance (base : Timestamp) (i : Fin 3) (s : Except Halt Domain) (op : IdleOp) :
    Decidable ((untiedMachine base i).guard s op) :=
  inferInstanceAs (Decidable (Returns _ _))

/-- `first_idle` and `last_idle` are the ends of the idle tree. -/
def Domain.IdleEnds (d : Domain) (i : Fin 3) : Prop :=
  (d.serviceTree i).firstIdle = (d.serviceTree i).idle.toList.head? ∧
    (d.serviceTree i).lastIdle = (d.serviceTree i).idle.toList.getLast?

/-- **The idle tree is ordered by finish times**, and the pointers are its ends. -/
structure IdleBounded (base : Timestamp) (i : Fin 3) (d : Domain) : Prop where
  shaped : IdleShaped (d.serviceTree i).idle
  mem : ∀ e, e ∈ (d.serviceTree i).idle.toList ↔ (d.entity e).tree = some (.idle i)
  window : ∀ e ∈ (d.serviceTree i).idle.toList, InWindow base (d.finish e)
  ordered : Ordered d.finish (d.serviceTree i).idle.toList
  ends : d.IdleEnds i

variable {base : Timestamp} {i : Fin 3} {d : Domain} {e : ℕ} {before after es : List ℕ}

theorem IdleBounded.relocate (h : IdleBounded base i d) {t : RedBlack.Tree ℕ}
    {first last : Option ℕ}
    {r : Option Root} (hshaped : IdleShaped t)
    (hmoved : Moved e (r = some (.idle i)) (d.serviceTree i).idle.toList t.toList)
    (hwindow : ∀ x ∈ t.toList, InWindow base (d.finish x)) (hord : Ordered d.finish t.toList)
    (hends : first = t.toList.head? ∧ last = t.toList.getLast?) :
    IdleBounded base i
      (d.relocate i e
        (fun st ↦ { st with idle := t, firstIdle := first, lastIdle := last }) r) := by
  set d' := d.relocate i e (fun st ↦ { st with idle := t, firstIdle := first, lastIdle := last }) r
  have htree : d'.serviceTree i =
      { d.serviceTree i with idle := t, firstIdle := first, lastIdle := last } := by
    simp [d', Domain.relocate]
  have hfinish : d'.finish = d.finish := funext (relocate_congr Entity.finish fun _ _ ↦ rfl)
  have hmem : ∀ x, x ∈ t.toList ↔ (d'.entity x).tree = some (.idle i) := fun x ↦ by
    rw [hmoved x, h.mem]
    by_cases hx : x = e
    · simp [d', Domain.relocate, hx]
    · simp [d', Domain.relocate, hx, setEntity_of_ne]
  refine ⟨?_, ?_, ?_, ?_, ?_⟩ <;> (try unfold IdleEnds) <;> rw [htree] <;>
    first | assumption | rwa [hfinish]

/-! ### The pointers -/

/-- The entity is in front, unless the pointer stays. -/
theorem head?_inserted {replaces : ℕ → Bool} (hb : ∀ a ∈ before, replaces a = false)
    (ha : before = [] → ∀ a ∈ after.head?, replaces a = true) :
    insertedPointer (before ++ after).head? e replaces = (before ++ e :: after).head? := by
  cases before with
  | cons b bs => simp [insertedPointer, hb b mem_cons_self]
  | nil =>
    cases after with
    | nil => rfl
    | cons a as => simp [insertedPointer, ha rfl a rfl]

theorem head?_extracted (es : List ℕ) (e : ℕ) :
    extractedPointer es.head? e (rbNext es e) = (es.erase e).head? := by
  cases es with
  | nil => simp [extractedPointer]
  | cons x xs => by_cases hx : x = e <;> simp [extractedPointer, rbNext, hx]

theorem reverse_erase (h : es.Nodup) (e : ℕ) : (es.erase e).reverse = es.reverse.erase e := by
  rw [h.erase_eq_filter, (nodup_reverse.2 h).erase_eq_filter, filter_reverse]

/-! ### The calls -/

theorem IdleBounded.extract (h : IdleBounded base i d) (he : (d.entity e).tree = some (.idle i)) :
    Returns (bfqIdleExtract d i e) (IdleBounded base i) := by
  obtain ⟨t, hext, hshaped, hlist⟩ := h.shaped.rbErase ((h.mem e).2 he)
  have hnodup := h.shaped.nodup
  unfold bfqIdleExtract
  rw [if_neg (by simp [he]), hext]
  refine h.relocate hshaped ?_ ?_ ?_ ⟨?_, ?_⟩
  · exact hlist ▸ moved_out nofun hnodup
  · exact fun x hx ↦ h.window x (mem_of_mem_erase (hlist ▸ hx))
  · exact hlist ▸ h.ordered.sublist erase_sublist
  · rw [h.ends.1, hlist, head?_extracted]
  · rw [h.ends.2, hlist, getLast?_eq_head?_reverse, getLast?_eq_head?_reverse, reverse_erase hnodup]
    exact head?_extracted ..

theorem IdleBounded.finish_setFinish (h : IdleBounded base i d) (he : (d.entity e).tree = none)
    (finish : Timestamp) {x : ℕ} (hx : x ∈ (d.serviceTree i).idle.toList) :
    (d.setFinish e finish).finish x = d.finish x := by
  have hne : x ≠ e := by
    rintro rfl
    rw [h.mem, he] at hx
    cases hx
  exact congrArg Entity.finish (setEntity_of_ne _ _ _ hne)

theorem IdleBounded.setFinish (h : IdleBounded base i d) (he : (d.entity e).tree = none)
    (finish : Timestamp) : IdleBounded base i (d.setFinish e finish) := by
  have htree : ∀ x, ((d.setFinish e finish).entity x).tree = (d.entity x).tree :=
    setEntity_congr Entity.tree rfl
  have hfinish := fun x ↦ h.finish_setFinish he finish (x := x)
  refine ⟨h.shaped, fun x ↦ ?_, fun x hx ↦ ?_, ?_, h.ends⟩
  · rw [htree, ← h.mem]
    rfl
  · rw [hfinish x hx]
    exact h.window x hx
  · refine h.ordered.imp_of_mem fun hx hy hle ↦ ?_
    rwa [hfinish _ hx, hfinish _ hy]

theorem IdleBounded.insert (h : IdleBounded base i d) (htree : (d.entity e).tree = none)
    (hwin : InWindow base (d.finish e))
    (htie : ∀ l ∈ (d.serviceTree i).lastIdle, d.finish l ≠ d.finish e) :
    Returns (bfqIdleInsert d i e) (IdleBounded base i) := by
  have hnot : e ∉ (d.serviceTree i).idle.toList := by simp [h.mem, htree]
  obtain ⟨t, hins, hshaped, hperm⟩ := h.shaped.insert hnot
    fun a ↦ if bfqGt (d.finish a) (d.finish e) then .left else .right
  have hwindow : ∀ x ∈ e :: (d.serviceTree i).idle.toList, InWindow base (d.finish x) :=
    forall_mem_cons.2 ⟨hwin, h.window⟩
  obtain ⟨before, after, heq, heq', hb, ha⟩ := Rbtree.toList_insert
    (insert_monotone h.ordered hwindow) hins
  replace hb : ∀ a ∈ before, bfqGt (d.finish a) (d.finish e) = false := by grind
  replace ha : ∀ a ∈ after, bfqGt (d.finish a) (d.finish e) = true := by grind
  unfold bfqIdleInsert
  rw [if_neg (by simp [htree]), hins]
  refine h.relocate hshaped (moved_in rfl hperm) (fun x hx ↦ hwindow x (hperm.mem_iff.1 hx)) ?_
    ⟨?_, ?_⟩
  · rw [heq']
    exact ordered_insert (heq ▸ h.ordered) hb ha
  · rw [h.ends.1, heq, heq', head?_inserted hb fun _ a hin ↦ ha a (mem_of_mem_head? hin)]
  · have hlast := h.ends.2
    rw [hlast, heq, heq', getLast?_eq_head?_reverse, getLast?_eq_head?_reverse,
      reverse_append, reverse_append,
      reverse_cons, append_assoc]
    refine head?_inserted (fun a hin ↦ bfqGt_asymm (ha a (mem_reverse.1 hin))) fun hnil l hl ↦ ?_
    obtain rfl := reverse_eq_nil_iff.1 hnil
    rw [head?_reverse] at hl
    rw [heq, append_nil] at hlast
    have hin := mem_of_mem_getLast? hl
    have hl' := hwindow l (mem_cons_of_mem _ (heq ▸ mem_append_left _ hin))
    have hle := (bfqGt_eq_false_iff hl' hwin).1 (hb l hin)
    refine (bfqGt_iff hwin hl').2 (hle.lt_of_ne fun hsame ↦ htie l (hlast ▸ hl) ?_)
    exact sub_left_inj.1 (BitVec.eq_of_toNat_eq hsame)

/-- **The bounds of an idle tree are its ends**, after every sequence of insertions and extractions
in which no entity is inserted that finishes with the last one. -/
theorem idle_bounds_exact {entity : ℕ → Entity} {ops : List IdleOp} {s : Except Halt Domain}
    (hrun : (untiedMachine base i).Runs (.ok (Domain.init entity)) ops s) :
    ∃ d, s = .ok d ∧ d.IdleEnds i := by
  have hend : Returns s (IdleBounded base i) := by
    refine hrun.invariant (I := (Returns · (IdleBounded base i))) (fun s op h hg ↦ ?_) ?_
    · obtain ⟨d, rfl, hd⟩ := h.returns
      cases op with
      | insert e finish =>
        obtain ⟨htree, hwin, htie⟩ := hg
        have hself : (d.setFinish e finish).finish e = finish :=
          congrArg Entity.finish (setEntity_self ..)
        refine (hd.setFinish htree finish).insert ?_ (by rwa [hself]) fun l hl ↦ ?_
        · exact (congrArg Entity.tree (setEntity_self ..)).trans htree
        · have hmem := mem_of_mem_getLast? (hd.ends.2 ▸ hl)
          rw [hself, hd.finish_setFinish htree finish hmem]
          exact htie l hl
      | extract e => exact hd.extract hg
    · exact ⟨⟨⟨0, .nil⟩, nodup_nil⟩, fun e ↦ ⟨fun h ↦ absurd h not_mem_nil, nofun⟩,
        nofun, .nil, rfl, rfl⟩
  obtain ⟨d, rfl, hd⟩ := hend.returns
  exact ⟨d, rfl, hd.ends⟩

/-- Two entities finish together before a third one, which is extracted and comes back. -/
theorem idle_bounds_exact_five :
    let ops : List IdleOp :=
      [.insert 1 10, .insert 2 20, .insert 3 10, .extract 2, .insert 2 15, .insert 4 5]
    ∃ d, (untiedMachine 0 1).final (.ok (Domain.init fun _ ↦ plainEntity 0)) ops = .ok d ∧
      d.IdleEnds 1 :=
  idle_bounds_exact (Machine.Permitted.runs (by decide +kernel))

/-- **The last idle entity is missed.** Two entities finish at the same time. -/
theorem last_idle_missed :
    Returns ([IdleOp.insert 1 10, .insert 2 10].foldl (untiedMachine 0 1).exec
        (.ok (Domain.init fun _ ↦ plainEntity 0))) fun d ↦
      (d.serviceTree 1).idle.toList = [1, 2] ∧ (d.serviceTree 1).lastIdle = some 1 := by
  decide +kernel

end Bfq
