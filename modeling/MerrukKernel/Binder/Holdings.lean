import MerrukKernel.Binder.Translation

/-!
# Who holds the local counts of a node

A node's local counts have three kinds of holders: the owner that was told to take a reference and
has not confirmed it yet, the kernel for the node of the context manager, and the buffers in flight.
`Backed s D` says that they add up, where `D` is what the buffers demand. From it follows what a
buffer relies on: a node it holds exists, and belongs to the process that has the buffer.

The demand is a function on the counters, and the functions of the driver change it by the counter
they change. A function that only works on references leaves it alone.
-/

namespace Binder

open Ledger Registry

/-- `has_strong_ref` or `has_weak_ref`. -/
def Node.has (nd : Node) (st : Bool) : Bool := if st then nd.hasStrongRef else nd.hasWeakRef

@[simp] theorem Node.count_has (nd : Node) (strong internal : Bool) (k : ℤ) (st : Bool) :
    (nd.count strong internal k).has st = nd.has st := by
  cases strong <;> cases internal <;> rfl

/-- What of the local counts of a node is not held by buffers. -/
def Node.own (nd : Node) (mgr st : Bool) : ℤ :=
  if nd.proc = none then 0
  else (if nd.pending st = true then 1 else 0) + if mgr = true then 1 else 0

theorem Node.own_nonneg (nd : Node) (mgr st : Bool) : 0 ≤ nd.own mgr st := by
  unfold own
  split_ifs <;> omega

namespace Registry

variable {s s' : Registry} {n p q t tp desc : ℕ} {nd nd' : Node} {strong internal ok memory : Bool}
  {target : Option Queue} {r : Ref} {debt : ℕ → ℤ} {D D' : Counter → ℤ}

/-- What of the local counts is not held by buffers. -/
def own (s : Registry) (n : ℕ) (st : Bool) : ℤ :=
  ((s.nodes n).map (·.own (s.contextMgr == some n) st)).getD 0

/-- **The local counts are backed**: by their owner, the kernel and the demand `D` of the buffers. A
node without an owner has none, names are unique, an owner has to confirm only what it was told, and
no node was freed with a count that its owner had yet to confirm. -/
structure Backed (s : Registry) (D : Counter → ℤ) : Prop where
  nonneg : ∀ n st, 0 ≤ D (.node n st)
  balance : ∀ n st, s.value (.node n st) = s.own n st + D (.node n st)
  dead : ∀ n nd, s.nodes n = some nd → nd.proc = none → nd.work = none ∧ ∀ st, nd.locals st = 0
  mgr : ∀ n, s.contextMgr = some n → ∃ nd, s.nodes n = some nd ∧ nd.proc ≠ none
  names : ∀ m n md nd, s.nodes m = some md → s.nodes n = some nd → nd.proc ≠ none →
    md.name = nd.name → m = n
  told : ∀ n nd, s.nodes n = some nd → ∀ st, nd.pending st = true → nd.has st = true
  quiet : ∀ f ∈ s.freed, f.closing = false → f.node.proc ≠ none → ∀ st, f.node.pending st = false

/-- A node keeps its name as long as it has an owner. -/
def Evolves (s s' : Registry) : Prop :=
  s.nextNode ≤ s'.nextNode ∧ ∀ n nd', s'.nodes n = some nd' → n < s.nextNode →
    ∃ nd, s.nodes n = some nd ∧ (nd'.proc ≠ none → nd'.name = nd.name)

theorem Evolves.refl (s : Registry) : Evolves s s :=
  ⟨le_rfl, fun _ nd' h _ ↦ ⟨nd', h, fun _ ↦ rfl⟩⟩

theorem Evolves.trans {u : Registry} (h : Evolves s s') (h' : Evolves s' u) : Evolves s u := by
  refine ⟨h.1.trans h'.1, fun n nd'' hn hlt ↦ ?_⟩
  obtain ⟨nd', hn', hname'⟩ := h'.2 n nd'' hn (hlt.trans_le h.1)
  obtain ⟨nd, hnd, hname⟩ := h.2 n nd' hn' hlt
  refine ⟨nd, hnd, fun hp ↦ ?_⟩
  have heq := hname' hp
  have hp' : nd'.proc ≠ none := (Prod.mk.inj heq).1 ▸ hp
  rw [heq, hname hp']

theorem Evolves.of_nodes (hnodes : s'.nodes = s.nodes) (hnext : s'.nextNode = s.nextNode) :
    Evolves s s' := by
  refine ⟨hnext.ge, fun n nd' hn _ ↦ ⟨nd', ?_, fun _ ↦ rfl⟩⟩
  rwa [← hnodes]

theorem Evolves.settled (hn : s.nodes n = some nd) (hname : nd'.name = nd.name)
    (h : Settled s n nd' target s') : Evolves s s' := by
  cases h with
  | kept work hwork =>
    refine ⟨le_rfl, fun m md hm _ ↦ ?_⟩
    rw [setNode_nodes] at hm
    split_ifs at hm with hmn
    · cases hm
      exact ⟨nd, hmn ▸ hn, fun _ ↦ hname⟩
    · exact ⟨md, hm, fun _ ↦ rfl⟩
  | freed hrefs hlocals =>
    refine ⟨le_rfl, fun m md hm _ ↦ ?_⟩
    rw [kfreeNode_nodes] at hm
    split_ifs at hm with hmn
    exact ⟨md, hm, fun _ ↦ rfl⟩

/-! ### Backing -/

theorem Backed.congr (hb : s.Backed D) (h : ∀ n st, D' (.node n st) = D (.node n st)) :
    s.Backed D' :=
  { hb with
    nonneg := fun n st ↦ h n st ▸ hb.nonneg n st
    balance := fun n st ↦ h n st ▸ hb.balance n st }

theorem Backed.of_nodes (hb : s.Backed D) (hnodes : s'.nodes = s.nodes)
    (hmgr : s'.contextMgr = s.contextMgr) (hfreed : s'.freed = s.freed) : s'.Backed D := by
  refine ⟨hb.nonneg, fun n st ↦ ?_, ?_, ?_, ?_, ?_, ?_⟩
  · have := hb.balance n st
    simpa only [value, own, hnodes, hmgr] using this
  · rw [hnodes]
    exact hb.dead
  · rw [hnodes, hmgr]
    exact hb.mgr
  · rw [hnodes]
    exact hb.names
  · rw [hnodes]
    exact hb.told
  · rw [hfreed]
    exact hb.quiet

theorem Backed.held_node {st : Bool} (hb : s.Backed D) (h : 0 < D (.node n st)) :
    ∃ nd, s.nodes n = some nd ∧ nd.proc ≠ none := by
  have hbal := hb.balance n st
  cases hn : s.nodes n with
  | none => simp [value, own, hn] at hbal; omega
  | some nd =>
    refine ⟨nd, rfl, fun hp ↦ ?_⟩
    have hzero := (hb.dead n nd hn hp).2 st
    simp [value, own, hn, Node.own, hp, hzero] at hbal
    omega

/-- **A function on one node** keeps the balance if it does at that node. -/
theorem Backed.settled (hb : s.Backed D) (hn : s.nodes n = some nd)
    (h : Settled s n nd' target s') (hname : nd'.name = nd.name)
    (hnonneg : ∀ st, 0 ≤ D' (.node n st))
    (hother : ∀ m st, m ≠ n → D' (.node m st) = D (.node m st))
    (hbal : ∀ st, nd'.locals st = nd'.own (s.contextMgr == some n) st + D' (.node n st))
    (hdead : nd'.proc = none → target = none ∧ nd'.work = none ∧ ∀ st, nd'.locals st = 0)
    (htold : ∀ st, nd'.pending st = true → nd'.has st = true) : s'.Backed D' := by
  obtain ⟨hproc, -⟩ := Prod.mk.inj hname
  have hD' : ∀ m st, 0 ≤ D' (.node m st) := by
    intro m st
    by_cases hm : m = n
    · exact hm ▸ hnonneg st
    · exact hother m st hm ▸ hb.nonneg m st
  cases h with
  | kept work hwork =>
    refine ⟨hD', fun m st ↦ ?_, fun m md hm hp ↦ ?_, fun m hm ↦ ?_, fun m k md kd hm hk hp heq ↦ ?_,
      fun m md hm st ↦ ?_, hb.quiet⟩
    · by_cases hm : m = n
      · subst hm
        have hb' := hbal st
        simpa [value, own, setNode_nodes, setNode, Node.own, Node.locals,
          Node.pending] using hb'
      · rw [hother m st hm]
        simpa [value, own, setNode_nodes, hm, setNode] using hb.balance m st
    · rw [setNode_nodes] at hm
      split_ifs at hm with hmn
      · cases hm
        obtain ⟨ht, hw, hl⟩ := hdead hp
        exact ⟨(hwork hp ht).trans hw, hl⟩
      · exact hb.dead m md hm hp
    · obtain ⟨md, hmd, hp⟩ := hb.mgr m hm
      rw [setNode_nodes]
      split_ifs with hmn
      · grind
      · exact ⟨md, hmd, hp⟩
    · -- the names before were the same
      have hback : ∀ (m : ℕ) (md : Node),
          (s.setNode n { nd' with work := work }).nodes m = some md →
          ∃ md₀, s.nodes m = some md₀ ∧ md₀.name = md.name := by
        intro m md hm
        rw [setNode_nodes] at hm
        split_ifs at hm with hmn
        · cases hm
          exact ⟨nd, hmn ▸ hn, hname.symm⟩
        · exact ⟨md, hm, rfl⟩
      obtain ⟨md₀, hm₀, hmn⟩ := hback m md hm
      obtain ⟨kd₀, hk₀, hkn⟩ := hback k kd hk
      refine hb.names m k md₀ kd₀ hm₀ hk₀ ?_ (hmn.trans (heq.trans hkn.symm))
      exact fun h ↦ hp ((Prod.mk.inj hkn).1 ▸ h)
    · rw [setNode_nodes] at hm
      split_ifs at hm with hmn
      · cases hm
        exact htold st
      · exact hb.told m md hm st
  | freed hrefs hlocals =>
    have hown := fun st ↦ Node.own_nonneg nd' (s.contextMgr == some n) st
    have hzero : ∀ st, nd'.own (s.contextMgr == some n) st = 0 ∧ D' (.node n st) = 0 := by grind
    refine ⟨hD', fun m st ↦ ?_, fun m md hm hp ↦ ?_, fun m hm ↦ ?_, fun m k md kd hm hk hp heq ↦ ?_,
      fun m md hm st ↦ ?_, fun f hf hclose hp st ↦ ?_⟩
    · by_cases hm : m = n
      · subst hm
        simp [value, own, kfreeNode_nodes, (hzero st).2]
      · rw [hother m st hm]
        simpa [value, own, kfreeNode_nodes, hm, kfreeNode] using hb.balance m st
    · grind [kfreeNode_nodes, hb.dead]
    · obtain ⟨md, hmd, hp⟩ := hb.mgr m hm
      rw [kfreeNode_nodes]
      split_ifs with hmn
      · -- the node of the context manager has a count of its own
        rw [hmn, hn] at hmd
        cases hmd
        have hmgr : s.contextMgr = some n := hmn ▸ hm
        have h1 := (hzero true).1
        have hp' : nd'.proc ≠ none := fun h ↦ hp (hproc ▸ h)
        simp only [Node.own, if_neg hp', hmgr, beq_self_eq_true] at h1
        split_ifs at h1 <;> omega
      · exact ⟨md, hmd, hp⟩
    · grind [kfreeNode_nodes, hb.names]
    · grind [kfreeNode_nodes, hb.told]
    · rcases List.mem_cons.1 hf with rfl | hf
      · have h1 := (hzero st).1
        have hp' : nd'.proc ≠ none := hp
        simp only [Node.own, if_neg hp'] at h1
        by_contra hpend
        simp only [Bool.not_eq_false] at hpend
        split_ifs at h1 <;> omega
      · exact hb.quiet f hf hclose hp st

theorem nodeCount_node (k : ℤ) (n : ℕ) (strong internal : Bool) (m : ℕ) (st : Bool) :
    (k • nodeCount n strong internal) (.node m st) =
      if m = n then if internal = false ∧ st = strong then k else 0 else 0 := by
  by_cases hm : m = n
  · subst hm
    cases internal <;> simp [nodeCount, Pi.single_apply]
  · cases internal <;> simp [nodeCount, hm]

section

variable (hb : s.Backed D)
include hb

theorem Backed.count {k : ℤ} (hn : s.nodes n = some nd)
    (hown : internal = false → nd.proc ≠ none) (htarget : nd.proc = none → target = none)
    (hnonneg : internal = false → 0 ≤ D (.node n strong) + k)
    (h : Settled s n (nd.count strong internal k) target s') :
    s'.Backed (D + k • nodeCount n strong internal) := by
  have hbal := hb.balance n
  simp only [value, own, hn, Option.map_some, Option.getD_some] at hbal
  refine hb.settled hn h (nd.count_name strong internal k) (fun st ↦ ?_) (fun m st hm ↦ ?_)
    (fun st ↦ ?_) (fun hp ↦ ?_) (fun st ↦ by simpa using hb.told n nd hn st)
  · have h0 := hb.nonneg n st
    simp only [Pi.add_apply, nodeCount_node, if_true]
    split_ifs with hst
    · have := hnonneg hst.1
      rw [hst.2]
      omega
    · omega
  · simp only [Pi.add_apply, nodeCount_node, if_neg hm, add_zero]
  · have hsame : (nd.count strong internal k).own (s.contextMgr == some n) st =
        nd.own (s.contextMgr == some n) st := by simp [Node.own]
    rw [nd.count_locals, hbal st]
    simp only [Pi.add_apply, nodeCount_node]
    split_ifs <;> omega
  · have hp' : nd.proc = none := by simpa using hp
    cases internal with
    | false => exact absurd hp' (hown rfl)
    | true =>
      obtain ⟨hw, hl⟩ := hb.dead n nd hn hp'
      exact ⟨htarget hp', by simpa using hw, fun st ↦ by simpa [nd.count_locals] using hl st⟩

theorem Backed.decNode (hpos : internal = false → 0 < D (.node n strong))
    (h : s.decNode n strong internal = some s') :
    s'.Backed (D - nodeCount n strong internal) ∧ Evolves s s' := by
  obtain ⟨nd, hn, hset⟩ := decNode_settled h
  refine ⟨?_, .settled hn (nd.count_name ..) hset⟩
  rw [sub_eq_add_neg, ← neg_one_zsmul]
  refine hb.count hn (fun hi ↦ ?_) (fun _ ↦ rfl) (fun hi ↦ ?_) hset
  · grind [hb.held_node]
  · have := hpos hi
    omega

theorem Backed.incNode (hn : s.nodes n = some nd)
    (hown : internal = false → nd.proc ≠ none) (htarget : nd.proc = none → target = none)
    (h : s.incNode n strong internal target = some (ok, s')) :
    s'.Backed (D + nodeCount n strong internal) ∧ Evolves s s' := by
  obtain ⟨nd', hn', ⟨-, rfl, rfl⟩ | ⟨-, hset⟩⟩ := incNode_settled h
  · exact ⟨by simpa [nodeCount] using hb, .refl _⟩
  · rw [hn] at hn'
    cases hn'
    refine ⟨?_, .settled hn (nd.count_name ..) hset⟩
    rw [← one_zsmul (nodeCount n strong internal)]
    refine hb.count hn hown htarget (fun _ ↦ ?_) hset
    have := hb.nonneg n strong
    omega

/-! ### References do not matter -/

theorem Backed.incRef (hr : s.getRef p desc = some r)
    (hn : s.nodes r.node = some nd) (htarget : nd.proc = none → target = none)
    (h : s.incRef p desc strong target = some (ok, s')) : s'.Backed D ∧ Evolves s s' := by
  obtain ⟨r', hr', ⟨-, rfl⟩ | ⟨-, u, hu, rfl⟩⟩ := incRef_cases h
  · exact ⟨hb, .refl _⟩
  obtain rfl : r' = r := Option.mem_unique hr' hr
  have hset : ∀ u : Registry, u.Backed D ∧ Evolves s u →
      (u.setRef p desc (r'.setCount strong (r'.count strong + 1))).Backed D ∧
        Evolves s (u.setRef p desc (r'.setCount strong (r'.count strong + 1))) :=
    fun u hu ↦ ⟨hu.1.of_nodes rfl rfl rfl, hu.2.trans (.of_nodes rfl rfl)⟩
  rcases hu with ⟨-, hu⟩ | ⟨-, rfl⟩
  · have := hb.incNode hn (fun h ↦ absurd h (by simp)) htarget hu
    simp only [nodeCount, if_true, add_zero] at this
    exact hset u this
  · exact hset _ ⟨hb, .refl _⟩

theorem Backed.decInternal (h : s.decNode n strong true = some s') :
    s'.Backed D ∧ Evolves s s' := by
  have := hb.decNode (fun h ↦ absurd h (by simp)) h
  simpa [nodeCount] using this

theorem Backed.deleteRef (h : s.deleteRef p desc = some s') : s'.Backed D ∧ Evolves s s' := by
  obtain ⟨r, u, -, hu, hrest⟩ := deleteRef_cases h
  have hub : u.Backed D ∧ Evolves s u := by
    rcases hu with ⟨-, hu⟩ | ⟨-, rfl⟩
    · exact hb.decInternal hu
    · exact ⟨hb, .refl _⟩
  have herase : (u.eraseRef p desc).Backed D := hub.1.of_nodes rfl rfl rfl
  obtain ⟨hb', hev⟩ := herase.decInternal hrest
  exact ⟨hb', hub.2.trans (.trans (.of_nodes rfl rfl) hev)⟩

theorem Backed.decRef (h : s.decRef p desc strong = some s') : s'.Backed D ∧ Evolves s s' := by
  obtain ⟨r, -, ⟨-, rfl⟩ | ⟨-, r', u, -, hu, hrest⟩⟩ := decRef_cases h
  · exact ⟨hb, .refl _⟩
  have hset : (s.setRef p desc r').Backed D := hb.of_nodes rfl rfl rfl
  have hev : Evolves s (s.setRef p desc r') := .of_nodes rfl rfl
  have hub : u.Backed D ∧ Evolves s u := by
    rcases hu with ⟨-, -, hu⟩ | ⟨-, rfl⟩
    · obtain ⟨hb', hev'⟩ := hset.decInternal hu
      exact ⟨hb', hev.trans hev'⟩
    · exact ⟨hset, hev⟩
  rcases hrest with ⟨-, -, hdel⟩ | ⟨-, rfl⟩
  · obtain ⟨hb', hev'⟩ := hub.1.deleteRef hdel
    exact ⟨hb', hub.2.trans hev'⟩
  · exact hub

end

/-- Names are unique: a reference is the one found under its name. -/
theorem Sound.getRef_of_mem (hs : s.Sound debt) (hr : r ∈ s.refs) (hp : r.proc = p)
    (hd : r.desc = desc) : s.getRef p desc = some r := by
  obtain ⟨r', hr'⟩ : ∃ r', s.getRef p desc = some r' :=
    Option.isSome_iff_exists.1 (List.find?_isSome.2 ⟨r, hr, by simp [isRef, hp, hd]⟩)
  obtain ⟨hmem, hp', hd'⟩ := getRef_spec hr'
  have hkey : refKey r = refKey r' := by simp [refKey, hp, hd, hp', hd']
  rw [hr', List.inj_on_of_nodup_map hs.unique hr hmem hkey]

theorem Backed.grantRef {res : Option (ℕ × Bool)} (hs : s.Sound debt) (hb : s.Backed D)
    (hn : s.nodes n = some nd) (htarget : nd.proc = none → target = none)
    (h : s.grantRef tp n strong memory target = some (res, s')) :
    s'.Backed D ∧ Evolves s s' := by
  obtain ⟨-, rfl⟩ | ⟨d, u, hget, ok, -, hinc⟩ := grantRef_cases h
  · exact ⟨hb, .refl _⟩
  have hsu := getRefForNode_sound hs hn hget
  obtain ⟨rfl, r, hr, hp, hd, hnode⟩ | ⟨rfl, -⟩ := getRefForNode_cases hget
  · exact hb.incRef (hs.getRef_of_mem hr hp hd) (hnode.symm ▸ hn) htarget hinc
  · have hadd : (s.addRef tp d n).Backed D := hb.of_nodes rfl rfl rfl
    obtain ⟨hb', hev⟩ := hadd.incRef (hsu.getRef_of_mem List.mem_cons_self rfl rfl) hn htarget hinc
    exact ⟨hb', .trans (.of_nodes rfl rfl) hev⟩

theorem Backed.addNode (hs : s.Sound 0) (hb : s.Backed D) (hnew : Newborn s nd) :
    (s.addNode nd).Backed D ∧ Evolves s (s.addNode nd) := by
  have hnone : s.nodes s.nextNode = none := by
    rw [Option.eq_none_iff_forall_ne_some]
    intro md hmd
    exact absurd (hs.fresh _ md hmd) (lt_irrefl _)
  have hmgr : s.contextMgr ≠ some s.nextNode := by grind [hb.mgr]
  obtain ⟨p, hp, hget⟩ := hnew.owner
  -- no node has the name of the new one
  have hname : ∀ m md, s.nodes m = some md → md.name ≠ nd.name := by
    grind [getNode_isSome, Node.name]
  refine ⟨⟨hb.nonneg, fun m st ↦ ?_, fun m md hm hpm ↦ ?_, fun m hm ↦ ?_,
    fun m k md kd hm hk hpk heq ↦ ?_, fun m md hm st ↦ ?_, hb.quiet⟩, Nat.le_succ _,
    fun m md hm hlt ↦ ?_⟩
  · rw [addNode_value hs hnew, hb.balance m st]
    by_cases hm : m = s.nextNode
    · subst hm
      have hmgr' : (s.contextMgr == some s.nextNode) = false := by simpa using hmgr
      have hown : nd.own false st = 0 := by simp [Node.own, hnew.counts.2.2 st]
      simp [own, hnone, Registry.addNode, hmgr', hown]
    · simp [own, hm, Registry.addNode]
  · grind [addNode_nodes, hb.dead]
  · have hne : m ≠ s.nextNode := fun h ↦ hmgr (h ▸ hm)
    rw [addNode_nodes, if_neg hne]
    exact hb.mgr m hm
  · grind [addNode_nodes, hb.names]
  · rw [addNode_nodes] at hm
    split_ifs at hm
    · grind [hnew.counts]
    · exact hb.told m md hm st
  · rw [addNode_nodes, if_neg (Nat.ne_of_lt hlt)] at hm
    exact ⟨md, hm, fun _ ↦ rfl⟩

end Registry

end Binder
