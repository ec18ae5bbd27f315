import MerrukKernel.Binder.Release

/-!
# The operations on nodes and references

What each operation of the machine does to the books: those of the internal references, which hold
whatever the users of the driver do, and those of the local counts.
-/

namespace Binder

open Ledger List Option

namespace Registry

variable {s s' : Registry} {n p q : ℕ} {nd nd' : Node} {D D' : Counter → ℤ}

/-! ### Node work -/

variable {w w' : World} {l : List ℕ}

/-- **Reading the work item of a node** tells its owner to take a reference, and counts it until
that is confirmed; or tells it to give one up, of which there are no local counts left; or ends
the item. -/
theorem readNode_cases (h : w.readNode n = some w') :
    ∃ nd nd', w.reg.nodes n = some nd ∧ Settled w.reg n nd' none w'.reg ∧
      w' = { w with reg := w'.reg } ∧ nd'.name = nd.name ∧
      nd'.internalStrongRefs = nd.internalStrongRefs ∧
      ((∃ st, nd.has st = false ∧ ∀ st',
          nd'.locals st' = nd.locals st' + (if st' = st then 1 else 0) ∧
          nd'.pending st' = (nd.pending st' || st' == st) ∧
          nd'.has st' = (nd.has st' || st' == st)) ∨
        ∀ st', nd'.locals st' = nd.locals st' ∧ nd'.pending st' = nd.pending st' ∧
          (nd'.has st' = nd.has st' ∨ nd.locals st' = 0)) := by
  unfold World.readNode at h
  cases hn : w.reg.nodes n with
  | none => simp [hn] at h
  | some nd =>
    simp only [hn] at h
    cases h
    refine ⟨nd, ?_⟩
    split_ifs with h1 h2 h3 h4 h5
    · refine ⟨_, rfl, .write .., rfl, rfl, rfl, .inl ⟨false, h1.2, fun st ↦ ?_⟩⟩
      cases st <;> simp [Node.locals, Node.pending, Node.has, Node.count, Node.setPending]
    · refine ⟨_, rfl, .write .., rfl, rfl, rfl, .inl ⟨true, h2.2, fun st ↦ ?_⟩⟩
      cases st <;> simp [Node.locals, Node.pending, Node.has, Node.count, Node.setPending]
    · have hzero : nd.localStrongRefs = 0 := by
        have := h3.1
        simp only [decide_eq_false_iff_not, not_or, not_not] at this
        exact this.2
      refine ⟨_, rfl, .write .., rfl, rfl, rfl, .inr fun st ↦ ?_⟩
      cases st
      · exact ⟨rfl, rfl, .inl rfl⟩
      · exact ⟨rfl, rfl, .inr hzero⟩
    · have hzero : nd.localWeakRefs = 0 := by
        have := h4.1
        simp only [decide_eq_false_iff_not, not_or, not_not] at this
        exact this.2.1
      refine ⟨_, rfl, .write .., rfl, rfl, rfl, .inr fun st ↦ ?_⟩
      cases st
      · exact ⟨rfl, rfl, .inr hzero⟩
      · exact ⟨rfl, rfl, .inl rfl⟩
    · have hweak := h5.1
      have hstrong := h5.2
      simp only [decide_eq_false_iff_not, not_or, not_not] at hweak hstrong
      refine ⟨{ nd with work := none }, rfl, .freed hweak.1 fun st ↦ ?_, rfl, rfl, rfl,
        .inr fun st ↦ ⟨rfl, rfl, .inl rfl⟩⟩
      cases st
      · exact hweak.2.1
      · exact hstrong.2
    · exact ⟨{ nd with work := none }, rfl, .write .., rfl, rfl, rfl,
        .inr fun st ↦ ⟨rfl, rfl, .inl rfl⟩⟩

theorem readNode_sound (hs : w.reg.Sound 0) (h : w.readNode n = some w') : w'.reg.Sound 0 := by
  obtain ⟨nd, nd', hn, hset, -, -, hint, -⟩ := readNode_cases h
  have := hs.settled hn hset
  simpa [hint] using this

theorem readNode_backed (hb : w.reg.Backed D)
    (hwork : ((w.reg.nodes n).bind (·.work)).isSome = true) (h : w.readNode n = some w') :
    w'.reg.Backed D ∧ Evolves w.reg w'.reg := by
  obtain ⟨nd, nd', hn, hset, -, hname, -, hcases⟩ := readNode_cases h
  have hp : nd.proc ≠ none := by grind [hb.dead]
  have hp' : nd'.proc ≠ none := by rwa [(Prod.mk.inj hname).1]
  have hbal := hb.balance n
  simp only [value, own, hn, map_some, getD_some] at hbal
  have htold := hb.told n nd hn
  refine ⟨hb.settled hn hset hname (hb.nonneg n) (fun _ _ _ ↦ rfl) (fun st ↦ ?_)
    (fun h ↦ absurd h hp') (fun st hpend ↦ ?_), .settled hn hname hset⟩
  · have h1 := hbal st
    rcases hcases with ⟨st₀, hhas, hnew⟩ | hsame
    · obtain ⟨hl, hpend, -⟩ := hnew st
      -- what the owner was not told before, it had not to confirm
      by_cases hst : st = st₀
      · subst hst
        have hnot : nd.pending st = false := by grind
        simp only [Node.own, if_neg hp, if_neg hp', hl, hpend, hnot, beq_self_eq_true, Bool.or_true,
          Bool.false_eq_true, if_false] at h1 ⊢
        omega
      · simp only [Node.own, if_neg hp, if_neg hp', hl, hpend, hst, if_false, beq_iff_eq,
          Bool.or_eq_true, or_false, add_zero] at h1 ⊢
        exact h1
    · obtain ⟨hl, hpend, -⟩ := hsame st
      rw [hl, h1]
      simp only [Node.own, if_neg hp, if_neg hp', hpend]
  · rcases hcases with ⟨st₀, -, hnew⟩ | hsame
    · grind
    · obtain ⟨-, hpend', hhas⟩ := hsame st
      rw [hpend'] at hpend
      rcases hhas with hhas | hzero
      · rw [hhas]
        exact htold st hpend
      · -- a count that is to be confirmed is a local count
        have h1 := hbal st
        have h2 := hb.nonneg n st
        simp only [Node.own, if_neg hp] at h1
        split_ifs at h1 <;> omega

/-! ### Confirmations -/

theorem setPending_spec (nd : Node) (st b : Bool) :
    (nd.setPending st b).name = nd.name ∧ (nd.setPending st b).proc = nd.proc ∧
      (nd.setPending st b).internalStrongRefs = nd.internalStrongRefs ∧
      ∀ st', (nd.setPending st b).locals st' = nd.locals st' ∧
        (nd.setPending st b).has st' = nd.has st' ∧
        (nd.setPending st b).pending st' = if st' = st then b else nd.pending st' := by
  cases st <;> refine ⟨rfl, rfl, rfl, fun st' ↦ ?_⟩ <;> cases st' <;> exact ⟨rfl, rfl, rfl⟩

/-- A confirmed count is nobody's until it is given back. -/
theorem Backed.confirm {st : Bool} (hb : s.Backed D) (hn : s.nodes n = some nd)
    (hp : nd.proc ≠ none) (hpend : nd.pending st = true) :
    (s.setNode n (nd.setPending st false)).Backed (D + Pi.single (.node n st) 1) ∧
      Evolves s (s.setNode n (nd.setPending st false)) := by
  obtain ⟨hname, hproc, -, hfields⟩ := setPending_spec nd st false
  have hset : Settled s n (nd.setPending st false) none (s.setNode n (nd.setPending st false)) :=
    .write ..
  have hbal := hb.balance n
  simp only [value, own, hn, map_some, getD_some] at hbal
  refine ⟨hb.settled hn hset hname (fun st' ↦ ?_) (fun m st' hm ↦ ?_) (fun st' ↦ ?_)
    (fun h ↦ absurd (hproc ▸ h) hp) (fun st' h ↦ ?_), .settled hn hname hset⟩
  · have h0 := hb.nonneg n st'
    rw [Pi.add_apply, Pi.single_apply]
    split_ifs <;> omega
  · simp [hm]
  · obtain ⟨hl, -, hpd⟩ := hfields st'
    have h1 := hbal st'
    rw [hl, h1]
    simp only [Node.own, hproc, hpd, Pi.add_apply]
    by_cases hst : st' = st
    · grind
    · simp [hst]
  · obtain ⟨-, hhas, hpd⟩ := hfields st'
    rw [hhas]
    refine hb.told n nd hn st' ?_
    by_cases hst : st' = st
    · rw [hst]
      exact hpend
    · rwa [hpd, if_neg hst] at h

/-! ### Lists of work -/

/-- A list that is emptied takes the work items off the nodes and leaves everything else. -/
theorem releaseWork_nodes {q : Queue} (h : (s.releaseWork q).nodes n = some nd') :
    ∃ nd, s.nodes n = some nd ∧ (nd' = nd ∨ nd' = { nd with work := none }) := by
  obtain ⟨nd, hn, rfl⟩ := map_eq_some_iff.1 h
  refine ⟨nd, hn, ?_⟩
  split_ifs
  · exact .inr rfl
  · exact .inl rfl

theorem releaseWork_value (s : Registry) (q : Queue) : (s.releaseWork q).value = s.value := by
  funext c
  cases c with
  | ref p d st => rfl
  | file p fd f => rfl
  | node n st =>
    simp only [value, releaseWork]
    cases s.nodes n with
    | none => rfl
    | some nd =>
      simp only [map_some]
      split_ifs <;> rfl

theorem releaseWork_own (s : Registry) (q : Queue) (n : ℕ) (st : Bool) :
    (s.releaseWork q).own n st = s.own n st := by
  simp only [own, releaseWork]
  cases s.nodes n with
  | none => rfl
  | some nd =>
    simp only [map_some]
    split_ifs <;> rfl

theorem Sound.releaseWork {debt : ℕ → ℤ} (hs : s.Sound debt) (q : Queue) :
    (s.releaseWork q).Sound debt := by
  refine ⟨hs.unique, hs.bounded, fun r hr ↦ ?_, fun n nd' hn ↦ ?_, fun n nd' hn ↦ ?_, hs.logged⟩
  · obtain ⟨nd, hn⟩ := hs.live r hr
    simp only [Registry.releaseWork, hn]
    exact ⟨_, rfl⟩
  · obtain ⟨nd, hn', rfl | rfl⟩ := releaseWork_nodes hn
    · exact hs.counted n _ hn'
    · exact hs.counted n nd hn'
  · obtain ⟨nd, hn', -⟩ := releaseWork_nodes hn
    exact hs.fresh n nd hn'

theorem Backed.releaseWork (hb : s.Backed D) (q : Queue) :
    (s.releaseWork q).Backed D ∧ Evolves s (s.releaseWork q) := by
  refine ⟨⟨hb.nonneg, fun n st ↦ ?_, fun n nd' hn hp ↦ ?_, fun n hn ↦ ?_,
    fun m n md nd hm hn hp heq ↦ ?_, fun n nd' hn st ↦ ?_, hb.quiet⟩, le_rfl,
    fun n nd' hn _ ↦ ?_⟩
  · rw [releaseWork_value, releaseWork_own]
    exact hb.balance n st
  · obtain ⟨nd, hn', rfl | rfl⟩ := releaseWork_nodes hn
    · exact hb.dead n _ hn' hp
    · exact ⟨rfl, (hb.dead n nd hn' hp).2⟩
  · obtain ⟨nd, hn', hp⟩ := hb.mgr n hn
    refine ⟨_, by simp only [Registry.releaseWork, hn', map_some]; rfl, ?_⟩
    split_ifs <;> exact hp
  · obtain ⟨md₀, hm₀, hmd⟩ := releaseWork_nodes hm
    obtain ⟨nd₀, hn₀, hnd⟩ := releaseWork_nodes hn
    have h1 : md.name = md₀.name := by rcases hmd with rfl | rfl <;> rfl
    have h2 : nd.name = nd₀.name := by rcases hnd with rfl | rfl <;> rfl
    refine hb.names m n md₀ nd₀ hm₀ hn₀ ?_ (h1.symm.trans (heq.trans h2))
    exact fun h ↦ hp ((Prod.mk.inj h2).1 ▸ h)
  · obtain ⟨nd, hn', rfl | rfl⟩ := releaseWork_nodes hn
    · exact hb.told n _ hn' st
    · exact hb.told n nd hn' st
  · obtain ⟨nd, hn', rfl | rfl⟩ := releaseWork_nodes hn
    · exact ⟨_, hn', fun _ ↦ rfl⟩
    · exact ⟨nd, hn', fun _ ↦ rfl⟩

/-! ### Closing -/

/-- The process that owns a node. -/
def owner (s : Registry) (n : ℕ) : Option ℕ := (s.nodes n).bind (·.proc)

/-- What closing process `p` leaves of a node. -/
def closedNode (s : Registry) (p n : ℕ) : Option Node :=
  if s.owner n = some p then if s.refCount n = 0 then none else (s.nodes n).map deadNode
  else s.nodes n

/-- **The loop over the nodes of a process**, after `k` rounds. -/
theorem closeNodes_spec (s : Registry) (p k : ℕ) :
    (∀ n, ((List.range k).foldl (closeNode p) s).nodes n =
      if n < k then s.closedNode p n else s.nodes n) ∧
    ((List.range k).foldl (closeNode p) s).refs = s.refs ∧
    ((List.range k).foldl (closeNode p) s).nextNode = s.nextNode ∧
    ((List.range k).foldl (closeNode p) s).contextMgr = s.contextMgr ∧
    ((List.range k).foldl (closeNode p) s).files = s.files ∧
    ∀ f ∈ ((List.range k).foldl (closeNode p) s).freed,
      f ∈ s.freed ∨ (f.closing = true ∧ f.refs = 0) := by
  induction k with
  | zero => exact ⟨fun n ↦ by simp, rfl, rfl, rfl, rfl, fun f hf ↦ .inl hf⟩
  | succ k ih =>
    obtain ⟨hnodes, hrefs, hnext, hmgr, hfiles, hfreed⟩ := ih
    rw [range_succ, foldl_append]
    set u := (List.range k).foldl (closeNode p) s with hu
    show (∀ n, (closeNode p u k).nodes n = _) ∧ (closeNode p u k).refs = _ ∧
      (closeNode p u k).nextNode = _ ∧ (closeNode p u k).contextMgr = _ ∧
      (closeNode p u k).files = _ ∧ ∀ f ∈ (closeNode p u k).freed, _
    have hk : u.nodes k = s.nodes k := by simp [hnodes]
    have hcount : u.refCount k = s.refCount k := by rw [refCount, hrefs, refCount]
    -- the node `k` is the one that changes
    have hat : ∀ x : Option Node, s.closedNode p k = x → ∀ n, (if n = k then x else u.nodes n) =
          if n < k + 1 then s.closedNode p n else s.nodes n := by grind
    cases hnode : s.nodes k with
    | none =>
      have hclosed : s.closedNode p k = none := by simp [closedNode, owner, hnode]
      have hsame : closeNode p u k = u := by simp [closeNode, hk, hnode]
      rw [hsame]
      refine ⟨fun n ↦ ?_, hrefs, hnext, hmgr, hfiles, hfreed⟩
      rw [← hat _ hclosed n]
      split_ifs with hn
      · rw [hn, hk, hnode]
      · rfl
    | some nd =>
      have howner : s.owner k = nd.proc := by simp [owner, hnode]
      by_cases hp : nd.proc = some p
      · by_cases hzero : s.refCount k = 0
        · have hclosed : s.closedNode p k = none := by simp [closedNode, howner, hp, hzero]
          have hfree : closeNode p u k = u.kfreeNode k { nd with work := none } true := by
            simp only [closeNode, hk, hnode, hp, hcount, hzero, if_true]
          rw [hfree]
          refine ⟨fun n ↦ ?_, hrefs, hnext, hmgr, hfiles, fun f hf ↦ ?_⟩
          · rw [kfreeNode_nodes, hat _ hclosed n]
          · rcases mem_cons.1 hf with rfl | hf
            · exact .inr ⟨rfl, hcount.trans hzero⟩
            · exact hfreed f hf
        · have hclosed : s.closedNode p k = some (deadNode nd) := by
            simp [closedNode, howner, hp, hzero, hnode]
          have hdead : closeNode p u k = u.setNode k (deadNode nd) := by
            simp only [closeNode, hk, hnode, hp, hcount, hzero, if_true, if_false]
          rw [hdead]
          refine ⟨fun n ↦ ?_, hrefs, hnext, hmgr, hfiles, hfreed⟩
          rw [setNode_nodes, hat _ hclosed n]
      · have hclosed : s.closedNode p k = some nd := by simp [closedNode, howner, hp, hnode]
        have hsame : closeNode p u k = u := by
          simp only [closeNode, hk, hnode, hp, if_false]
        rw [hsame]
        refine ⟨fun n ↦ ?_, hrefs, hnext, hmgr, hfiles, hfreed⟩
        rw [← hat _ hclosed n]
        split_ifs with hn
        · rw [hn, hk, hnode]
        · rfl

/-- A registry whose nodes are what closing process `p` leaves of those of `s`. -/
structure Closed (s : Registry) (p : ℕ) (s' : Registry) : Prop where
  nodes : ∀ n, s'.nodes n = s.closedNode p n
  refs : s'.refs = s.refs
  nextNode : s'.nextNode = s.nextNode
  contextMgr : ∀ n, s'.contextMgr = some n ↔ s.contextMgr = some n ∧ s.owner n ≠ some p
  freed : ∀ f ∈ s'.freed, f ∈ s.freed ∨ (f.closing = true ∧ f.refs = 0)

theorem closedNode_cases (h : s.closedNode p n = some nd') : ∃ nd, s.nodes n = some nd ∧
      ((nd.proc ≠ some p ∧ nd' = nd) ∨ (nd.proc = some p ∧ nd' = deadNode nd)) := by
  unfold closedNode at h
  split_ifs at h with howner
  · obtain ⟨nd, hn, rfl⟩ := map_eq_some_iff.1 h
    exact ⟨nd, hn, .inr ⟨by simpa [owner, hn] using howner, rfl⟩⟩
  · exact ⟨nd', h, .inl ⟨by simpa [owner, h] using howner, rfl⟩⟩

theorem Closed.sound (hc : Closed s p s') (hs : s.Sound 0) : s'.Sound 0 := by
  refine ⟨by rw [hc.refs]; exact hs.unique, by rw [hc.refs]; exact hs.bounded, fun r hr ↦ ?_,
    fun n nd' hn ↦ ?_, fun n nd' hn ↦ ?_, fun f hf ↦ ?_⟩
  · rw [hc.refs] at hr
    obtain ⟨nd, hn⟩ := hs.live r hr
    rw [hc.nodes, closedNode, if_neg fun h ↦ refCount_eq_zero h hr rfl, hn]
    split_ifs <;> exact ⟨_, rfl⟩
  · rw [hc.nodes] at hn
    rw [hc.refs]
    obtain ⟨nd, hn', ⟨-, rfl⟩ | ⟨-, rfl⟩⟩ := closedNode_cases hn
    · exact hs.counted n _ hn'
    · exact hs.counted n nd hn'
  · rw [hc.nodes] at hn
    obtain ⟨nd, hn', -⟩ := closedNode_cases hn
    exact hc.nextNode ▸ hs.fresh n nd hn'
  · grind [hc.freed, hs.logged]

/-- Closing a process keeps the balance of the nodes of the others; nobody may demand its own. -/
theorem Closed.backed (hc : Closed s p s') (hb : s.Backed D)
    (hother : ∀ n st, s.owner n ≠ some p → D' (.node n st) = D (.node n st))
    (hnone : ∀ n st, s.owner n = some p → D' (.node n st) = 0) :
    s'.Backed D' ∧ Evolves s s' := by
  refine ⟨⟨fun n st ↦ ?_, fun n st ↦ ?_, fun n nd' hn hp ↦ ?_, fun n hn ↦ ?_,
    fun m n md nd hm hn hp heq ↦ ?_, fun n nd' hn st ↦ ?_, fun f hf hclosing hp st ↦ ?_⟩,
    hc.nextNode.ge, fun n nd' hn _ ↦ ?_⟩
  · by_cases howner : s.owner n = some p
    · exact (hnone n st howner).ge
    · exact hother n st howner ▸ hb.nonneg n st
  · by_cases howner : s.owner n = some p
    · -- freed or dead, the node has no counts
      have hzero : s'.value (.node n st) = 0 ∧ s'.own n st = 0 := by
        simp only [value, own, hc.nodes, closedNode]
        split_ifs
        · exact ⟨rfl, rfl⟩
        · cases s.nodes n with
          | none => exact ⟨rfl, rfl⟩
          | some nd => cases st <;> exact ⟨rfl, rfl⟩
      rw [hzero.1, hzero.2, hnone n st howner, add_zero]
    · have hmgr : (s'.contextMgr == some n) = (s.contextMgr == some n) := by
        rw [Bool.eq_iff_iff, beq_iff_eq, beq_iff_eq, hc.contextMgr]
        exact and_iff_left howner
      rw [hother n st howner]
      simpa only [value, own, hc.nodes, closedNode, if_neg howner, hmgr] using hb.balance n st
  · rw [hc.nodes] at hn
    obtain ⟨nd, hn', ⟨-, rfl⟩ | ⟨-, rfl⟩⟩ := closedNode_cases hn
    · exact hb.dead n _ hn' hp
    · exact ⟨rfl, fun st ↦ by cases st <;> rfl⟩
  · obtain ⟨hn', howner⟩ := (hc.contextMgr n).1 hn
    rw [hc.nodes, closedNode, if_neg howner]
    exact hb.mgr n hn'
  · rw [hc.nodes] at hm hn
    obtain ⟨nd₀, hn₀, ⟨-, rfl⟩ | ⟨-, rfl⟩⟩ := closedNode_cases hn
    · obtain ⟨md₀, hm₀, ⟨-, rfl⟩ | ⟨-, rfl⟩⟩ := closedNode_cases hm
      · exact hb.names m n _ _ hm₀ hn₀ hp heq
      · exact absurd (Prod.mk.inj heq).1.symm hp
    · exact absurd rfl hp
  · rw [hc.nodes] at hn
    obtain ⟨nd, hn', ⟨-, rfl⟩ | ⟨-, rfl⟩⟩ := closedNode_cases hn
    · exact hb.told n _ hn' st
    · have := hb.told n nd hn' st
      cases st <;> exact this
  · grind [hc.freed, hb.quiet]
  · rw [hc.nodes] at hn
    obtain ⟨nd, hn', ⟨-, rfl⟩ | ⟨-, rfl⟩⟩ := closedNode_cases hn
    · exact ⟨_, hn', fun _ ↦ rfl⟩
    · exact ⟨nd, hn', fun h ↦ absurd rfl h⟩

theorem foldl_releaseWork (threads : List ℕ) (s : Registry) (mgr : Option ℕ) :
    threads.foldl (fun reg t ↦ reg.releaseWork (.thread t)) { s with contextMgr := mgr } =
      { threads.foldl (fun reg t ↦ reg.releaseWork (.thread t)) s with contextMgr := mgr } := by
  induction threads generalizing s with
  | nil => rfl
  | cons t threads ih =>
    rw [foldl_cons, foldl_cons, ← ih]
    rfl

theorem releaseWork_owner (s : Registry) (q : Queue) (n : ℕ) :
    (s.releaseWork q).owner n = s.owner n := by
  simp only [owner, releaseWork]
  cases s.nodes n with
  | none => rfl
  | some nd => grind

/-- Emptying the lists of the threads of a process. -/
def releaseThreads (s : Registry) (threads : List ℕ) : Registry :=
  threads.foldl (fun reg t ↦ reg.releaseWork (.thread t)) s

variable (hs : s.Sound 0)
include hs

theorem releaseThreads_spec (threads : List ℕ) :
    (s.releaseThreads threads).Sound 0 ∧ (s.releaseThreads threads).value = s.value ∧
      (s.releaseThreads threads).refs = s.refs ∧
      (s.releaseThreads threads).contextMgr = s.contextMgr ∧
      (∀ n, (s.releaseThreads threads).owner n = s.owner n) ∧
      ∀ D, s.Backed D → (s.releaseThreads threads).Backed D ∧
        Evolves s (s.releaseThreads threads) := by
  induction threads generalizing s with
  | nil => exact ⟨hs, rfl, rfl, rfl, fun _ ↦ rfl, fun _ hb ↦ ⟨hb, .refl s⟩⟩
  | cons t threads ih =>
    obtain ⟨hs', hval, hrefs, hmgr, howner, hback⟩ := ih (hs.releaseWork (.thread t))
    refine ⟨hs', hval.trans (releaseWork_value s _), hrefs, hmgr,
      fun n ↦ (howner n).trans (releaseWork_owner s _ n), fun D hb ↦ ?_⟩
    obtain ⟨hb₁, hev₁⟩ := hb.releaseWork (.thread t)
    obtain ⟨hb₂, hev₂⟩ := hback D hb₁
    exact ⟨hb₂, hev₁.trans hev₂⟩

theorem closeNodes_closed (p : ℕ) (threads : List ℕ) : Closed (s.releaseThreads threads) p
      ((List.range (threads.foldl (fun reg t ↦ reg.releaseWork (.thread t))
        (s.clearMgr p)).nextNode).foldl (closeNode p)
          (threads.foldl (fun reg t ↦ reg.releaseWork (.thread t)) (s.clearMgr p))) := by
  obtain ⟨hs', -, -, hmgr, howner, -⟩ := releaseThreads_spec hs threads
  rw [clearMgr, foldl_releaseWork]
  change Closed (s.releaseThreads threads) p ((List.range (s.releaseThreads threads).nextNode).foldl
    (closeNode p) { s.releaseThreads threads with contextMgr := _ })
  set u := s.releaseThreads threads with hu
  obtain ⟨hnodes, hrefs, hnext, hmgr', -, hfreed⟩ := closeNodes_spec
    { u with contextMgr := s.contextMgr.filter fun n ↦ (s.nodes n).bind (·.proc) ≠ some p } p
    u.nextNode
  refine ⟨fun n ↦ ?_, hrefs, hnext, fun n ↦ ?_, hfreed⟩
  · rw [hnodes n]
    split_ifs with hlt
    · rfl
    · have hnone : u.nodes n = none := by
        rw [eq_none_iff_forall_ne_some]
        intro nd hn
        exact hlt (hs'.fresh n nd hn)
      simp [closedNode, hnone]
  · rw [hmgr', howner, hmgr]
    simp [owner]

/-! ### The references of a process -/

theorem deleteRefs_spec (h : deleteRefs p l s = some s') : s'.Sound 0 ∧ (s.Held → s'.Held) ∧
      (∀ D, s.Backed D → s'.Backed D ∧ Evolves s s') ∧
      ∀ c, (∀ d st, c ≠ .ref p d st) → s'.value c = s.value c := by
  induction l generalizing s with
  | nil =>
    cases h
    exact ⟨hs, id, fun _ hb ↦ ⟨hb, .refl _⟩, fun _ _ ↦ rfl⟩
  | cons d l ih =>
    obtain ⟨u, hu, hrest⟩ := bind_eq_some_iff.1 h
    obtain ⟨hs', hheld, hback, hval⟩ := ih (hs.deleteRef hu) hrest
    refine ⟨hs', fun hh ↦ hheld (hh.erase (deleteRef_refs hu)), fun D hb ↦ ?_, fun c hc ↦ ?_⟩
    · obtain ⟨hb₁, hev₁⟩ := hb.deleteRef hu
      obtain ⟨hb₂, hev₂⟩ := hback D hb₁
      exact ⟨hb₂, hev₁.trans hev₂⟩
    · obtain ⟨r, -, hr, -⟩ := deleteRef_cases hu
      rw [hval c hc, deleteRef_value hr hu]
      simp [hc d true, hc d false]

theorem deleteRefs_isSome (hl : l.Nodup) (hmem : ∀ d ∈ l, ∃ r ∈ s.refs, r.proc = p ∧ r.desc = d) :
    ∃ s', deleteRefs p l s = some s' := by
  induction l generalizing s with
  | nil => exact ⟨s, rfl⟩
  | cons d l ih =>
    obtain ⟨hd, hl⟩ := nodup_cons.1 hl
    obtain ⟨r, hr, hp, hrd⟩ := hmem d (by simp)
    obtain ⟨u, hu⟩ := deleteRef_isSome hs (hs.getRef_of_mem hr hp hrd)
    obtain ⟨s', hs'⟩ := ih (hs.deleteRef hu) hl fun e he ↦ by
      obtain ⟨x, hx, hxp, hxe⟩ := hmem e (by simp [he])
      refine ⟨x, ?_, hxp, hxe⟩
      rw [deleteRef_refs hu]
      refine (mem_eraseP_of_neg ?_).2 hx
      have hne : e ≠ d := fun h ↦ hd (h ▸ he)
      simp [isRef, hxe, hne]
    exact ⟨s', by rw [deleteRefs, hu, bind_some, hs']⟩

theorem Sound.descs_nodup (p : ℕ) : ((s.refs.filter (·.proc = p)).map (·.desc)).Nodup := by
  have hpair := pairwise_map.1 hs.unique
  refine pairwise_map.2 ?_
  refine List.Pairwise.imp_of_mem ?_ (hpair.sublist filter_sublist)
  intro r r' hr hr' hne hd
  have hp : r.proc = p := by simpa using (mem_filter.1 hr).2
  have hp' : r'.proc = p := by simpa using (mem_filter.1 hr').2
  exact hne (by simp [refKey, hp, hp', hd])

end Registry

end Binder
