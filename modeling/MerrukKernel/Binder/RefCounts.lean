import Mathlib.Algebra.Group.Pi.Lemmas
import Mathlib.Tactic.Abel
import MerrukKernel.Binder.Nodes

/-!
# What the functions on nodes and references count

`binder_inc_node`, `binder_dec_node` and the reading of node work all end in the same way: the
node is written back, perhaps with its work item on another list, or it is freed. `Settled` says
so once, and every fact about these functions is a fact about `Settled`.

Two things are kept books of.

* `Registry.value` are the **counters** that an operation takes or gives back: the counts of the
  references, the local counts of the nodes, and the entries of the tables of open files. What is
  not there counts as nothing. Every function here changes at most one of them, by one.
* `Sound` is the agreement of `internal_strong_refs` with the references. It is stated with a
  **debt**, the amount by which the two differ, because the functions change one side first.
-/

namespace Binder

open Ledger List

/-! ### Nodes -/

namespace Node

/-- `local_strong_refs` or `local_weak_refs`. -/
def locals (nd : Node) (strong : Bool) : ℤ :=
  if strong then nd.localStrongRefs else nd.localWeakRefs

/-- What identifies a node in its owner. -/
def name (nd : Node) : Option ℕ × BitVec 32 := (nd.proc, nd.ptr)

variable (nd : Node) (strong internal : Bool) (k : ℤ)

theorem count_internal : (nd.count strong internal k).internalStrongRefs =
      nd.internalStrongRefs + if strong = true ∧ internal = true then k else 0 := by
  cases strong <;> cases internal <;> simp [count]

theorem count_locals (st : Bool) : (nd.count strong internal k).locals st =
      nd.locals st + if internal = false ∧ st = strong then k else 0 := by
  cases strong <;> cases internal <;> cases st <;> simp [count, locals]

@[simp] theorem count_name : (nd.count strong internal k).name = nd.name := by
  cases strong <;> cases internal <;> rfl

@[simp] theorem count_proc : (nd.count strong internal k).proc = nd.proc := by
  cases strong <;> cases internal <;> rfl

@[simp] theorem count_work : (nd.count strong internal k).work = nd.work := by
  cases strong <;> cases internal <;> rfl

@[simp] theorem count_pending (st : Bool) :
    (nd.count strong internal k).pending st = nd.pending st := by
  cases strong <;> cases internal <;> rfl

end Node

namespace Registry

variable {s s' : Registry} {n p desc : ℕ} {nd nd' : Node} {strong internal : Bool}
  {target : Option Queue}

@[simp] theorem setNode_refs : (s.setNode n nd).refs = s.refs := rfl

@[simp] theorem kfreeNode_refs {b : Bool} : (s.kfreeNode n nd b).refs = s.refs := rfl

theorem setNode_nodes (m : ℕ) :
    (s.setNode n nd).nodes m = if m = n then some nd else s.nodes m := by
  simp [setNode, Function.update_apply]

theorem setNode_self (hn : s.nodes n = some nd) : s.setNode n nd = s := by
  have hnodes : Function.update s.nodes n (some nd) = s.nodes := by
    rw [← hn, Function.update_eq_self]
  simp [setNode, hnodes, hn]

theorem kfreeNode_nodes (m : ℕ) {b : Bool} :
    (s.kfreeNode n nd b).nodes m = if m = n then none else s.nodes m := by
  simp [kfreeNode, Function.update_apply]

/-- **How a function on a node ends.** The node, as `nd`, is written back, its work item where it
was or on the list `target` that the caller offered or on the list of its owner; or, when nothing
refers to it, it is freed. -/
inductive Settled (s : Registry) (n : ℕ) (nd : Node) (target : Option Queue) : Registry → Prop
  | kept (work : Option Queue) (hwork : nd.proc = none → target = none → work = nd.work) :
      Settled s n nd target (s.setNode n { nd with work := work })
  | freed (hrefs : s.refCount n = 0) (hlocals : ∀ st, nd.locals st = 0) :
      Settled s n nd target (s.kfreeNode n nd false)

theorem Settled.write (s : Registry) (n : ℕ) (nd : Node) (target : Option Queue) :
    Settled s n nd target (s.setNode n nd) :=
  .kept nd.work fun _ _ ↦ rfl

theorem settleNode_settled (s : Registry) (n : ℕ) (nd : Node) (target : Option Queue) :
    Settled s n nd target (s.settleNode n nd) := by
  -- both ways to the end of the function make the same test before the `kfree`
  have hrest : Settled s n nd target
      (if s.refCount n = 0 ∧ nd.localStrongRefs = 0 ∧ nd.localWeakRefs = 0 then
        s.kfreeNode n nd false else s.setNode n nd) := by
    split_ifs with h
    · refine .freed h.1 fun st ↦ ?_
      cases st
      · exact h.2.2
      · exact h.2.1
    · exact .write s n nd target
  unfold settleNode
  split
  · next q hproc =>
    split_ifs with hhas hfree
    · exact .kept _ fun h ↦ absurd (h.symm.trans hproc) (by simp)
    · rwa [if_pos hfree] at hrest
    · rwa [if_neg hfree] at hrest
  · exact hrest

theorem decNode_settled (h : s.decNode n strong internal = some s') :
    ∃ nd, s.nodes n = some nd ∧ Settled s n (nd.count strong internal (-1)) none s' := by
  unfold decNode at h
  cases hn : s.nodes n with
  | none => simp [hn] at h
  | some nd =>
    refine ⟨nd, rfl, ?_⟩
    simp only [hn] at h
    split_ifs at h <;> cases h
    · exact .write ..
    · exact settleNode_settled ..
    · exact .write ..
    · exact settleNode_settled ..

theorem decNode_isSome (hn : s.nodes n = some nd) (strong internal : Bool) :
    ∃ s', s.decNode n strong internal = some s' := by
  unfold decNode
  simp only [hn]
  split_ifs <;> exact ⟨_, rfl⟩

/-- `binder_inc_node` writes the node back. Only an internal count can be refused, and then nothing
changes. -/
theorem incNode_settled {ok : Bool} (h : s.incNode n strong internal target = some (ok, s')) :
    ∃ nd, s.nodes n = some nd ∧ ((ok = false ∧ internal = true ∧ s' = s) ∨
        ((internal = true → ok = true) ∧ Settled s n (nd.count strong internal 1) target s')) := by
  unfold incNode at h
  cases hn : s.nodes n with
  | none => simp [hn] at h
  | some nd =>
    refine ⟨nd, rfl, ?_⟩
    simp only [hn] at h
    cases strong with
    | true =>
      simp only [if_true] at h
      split_ifs at h with hrefuse <;> cases h
      · exact .inl ⟨rfl, hrefuse.1, rfl⟩
      · exact .inr ⟨fun _ ↦ rfl, .write ..⟩
      · exact .inr ⟨fun _ ↦ rfl, .kept _ fun _ ht ↦ by simp [ht]⟩
    | false =>
      simp only [Bool.false_eq_true, if_false] at h
      split_ifs at h with hqueue <;> cases h
      · have hwork : nd.work = none := by simpa using hqueue.2
        cases target with
        | some q => exact .inr ⟨fun _ ↦ rfl, .kept (some q) nofun⟩
        | none =>
          cases internal with
          | true =>
            -- the weak count of the references has no counter: nothing was written
            refine .inl ⟨rfl, rfl, ?_⟩
            have hsame : { nd.count false true 1 with work := none } = nd := by
              rw [← hwork]
              rfl
            rw [hsame, setNode_self hn]
          | false =>
            exact .inr ⟨nofun, .kept none fun _ _ ↦ hwork.symm⟩
      · exact .inr ⟨fun _ ↦ rfl, .write ..⟩

theorem incNode_isSome (hn : s.nodes n = some nd) (strong internal : Bool)
    (target : Option Queue) : ∃ u, s.incNode n strong internal target = some u := by
  unfold incNode
  simp only [hn]
  split_ifs <;> exact ⟨_, rfl⟩

end Registry

/-! ### Counters -/

/-- What is counted. -/
inductive Counter
  /-- `strong` or `weak` of a reference. -/
  | ref (p desc : ℕ) (strong : Bool)
  /-- `local_strong_refs` or `local_weak_refs` of a node. -/
  | node (n : ℕ) (strong : Bool)
  /-- The entry of a table of open files. -/
  | file (p : ℕ) (fd : BitVec 32) (f : ℕ)
  deriving DecidableEq, Repr

namespace Registry

variable {s s' : Registry} {n p desc : ℕ} {nd nd' : Node} {strong internal ok : Bool}
  {target : Option Queue} {r : Ref}

/-- What a reference contributes to a counter. -/
def refAmount (p desc : ℕ) (strong : Bool) (r : Ref) : ℤ :=
  if isRef p desc r then (r.count strong : ℤ) else 0

/-- **The counters.** What does not exist counts as nothing. -/
def value (s : Registry) : Counter → ℤ
  | .ref p desc strong => total (refAmount p desc strong) s.refs
  | .node n strong => ((s.nodes n).map (·.locals strong)).getD 0
  | .file p fd f => if s.files p fd = some f then 1 else 0

/-- The counter that `strong` and `internal` select for a node. -/
def nodeCount (n : ℕ) (strong internal : Bool) : Counter → ℤ :=
  if internal then 0 else Pi.single (.node n strong) 1

theorem Settled.value_node (h : Settled s n nd target s') (m : ℕ) (st : Bool) :
    s'.value (.node m st) = if m = n then nd.locals st else s.value (.node m st) := by
  cases h with
  | kept work hwork =>
    by_cases hm : m = n
    · simp [value, setNode_nodes, hm, Node.locals]
    · simp [value, setNode_nodes, hm]
  | freed hrefs hlocals =>
    by_cases hm : m = n
    · simp [value, kfreeNode_nodes, hm, hlocals]
    · simp [value, kfreeNode_nodes, hm]

theorem Settled.refs (h : Settled s n nd target s') : s'.refs = s.refs := by
  cases h <;> rfl

theorem Settled.files (h : Settled s n nd target s') : s'.files = s.files := by
  cases h <;> rfl

theorem Settled.value (hn : s.nodes n = some nd) {k : ℤ}
    (h : Settled s n (nd.count strong internal k) target s') :
    s'.value = s.value + k • nodeCount n strong internal := by
  funext c
  cases c with
  | ref p d st => cases internal <;> simp [Registry.value, h.refs, nodeCount]
  | file p fd f => cases internal <;> simp [Registry.value, h.files, nodeCount]
  | node m st =>
    rw [h.value_node, nd.count_locals]
    by_cases hm : m = n
    · subst hm
      cases internal <;> simp [Registry.value, hn, nodeCount, Pi.single_apply]
    · cases internal <;> simp [hm, nodeCount]

theorem decNode_value (h : s.decNode n strong internal = some s') :
    s'.value = s.value - nodeCount n strong internal := by
  obtain ⟨nd, hn, hset⟩ := decNode_settled h
  rw [hset.value hn]
  simp [sub_eq_add_neg]

theorem incNode_value (h : s.incNode n strong internal target = some (ok, s')) :
    s'.value = s.value + nodeCount n strong internal := by
  obtain ⟨nd, hn, ⟨-, rfl, rfl⟩ | ⟨-, hset⟩⟩ := incNode_settled h
  · simp [nodeCount]
  · rw [hset.value hn, one_zsmul]

/-! ### Soundness -/

/-- The reference makes one of the internal strong references of the node. -/
def strongOf (n : ℕ) (r : Ref) : ℤ := if r.node = n ∧ 0 < r.strong then 1 else 0

/-- What names a reference. -/
def refKey (r : Ref) : ℕ × ℕ := (r.proc, r.desc)

/-- **The books of the internal references**, up to a debt: references have names of their own and
are to nodes in use, `internal_strong_refs` counts the references with a strong count, a freed node
had no references, and unless its owner was closing no local counts. -/
structure Sound (s : Registry) (debt : ℕ → ℤ) : Prop where
  unique : (s.refs.map refKey).Nodup
  bounded : ∀ r ∈ s.refs, r.desc < 2 ^ 32
  live : ∀ r ∈ s.refs, ∃ nd, s.nodes r.node = some nd
  counted : ∀ n nd, s.nodes n = some nd → nd.internalStrongRefs = total (strongOf n) s.refs + debt n
  fresh : ∀ n nd, s.nodes n = some nd → n < s.nextNode
  logged : ∀ f ∈ s.freed, f.refs = 0 ∧ (f.closing = false → ∀ st, f.node.locals st = 0)

theorem refCount_eq_zero (h : s.refCount n = 0) (hr : r ∈ s.refs) : r.node ≠ n := by
  intro hn
  have hnil : s.refs.filter (·.node = n) = [] := eq_nil_of_length_eq_zero h
  have hmem : r ∈ s.refs.filter (·.node = n) := mem_filter.2 ⟨hr, by simpa using hn⟩
  simp [hnil] at hmem

variable {debt : ℕ → ℤ}

theorem Sound.settled (hs : s.Sound debt) (hn : s.nodes n = some nd)
    (h : Settled s n nd' target s') :
    s'.Sound (debt + Pi.single n (nd'.internalStrongRefs - nd.internalStrongRefs)) := by
  have hcount := hs.counted n nd hn
  cases h with
  | kept work hwork =>
    refine ⟨hs.unique, hs.bounded, fun r hr ↦ ?_, fun m md hm ↦ ?_, fun m md hm ↦ ?_, hs.logged⟩
    · rw [setNode_nodes]
      split_ifs
      · exact ⟨_, rfl⟩
      · exact hs.live r hr
    · rw [setNode_nodes] at hm
      split_ifs at hm with hmn
      · subst hmn
        cases hm
        simp only [setNode_refs, Pi.add_apply, Pi.single_eq_same]
        omega
      · simpa [Pi.single_eq_of_ne hmn] using hs.counted m md hm
    · rw [setNode_nodes] at hm
      split_ifs at hm with hmn
      · exact hmn ▸ hs.fresh n nd hn
      · exact hs.fresh m md hm
  | freed hrefs hlocals =>
    refine ⟨hs.unique, hs.bounded, fun r hr ↦ ?_, fun m md hm ↦ ?_, fun m md hm ↦ ?_, fun f hf ↦ ?_⟩
    · rw [kfreeNode_nodes, if_neg (refCount_eq_zero hrefs hr)]
      exact hs.live r hr
    · rw [kfreeNode_nodes] at hm
      split_ifs at hm with hmn
      simpa [Pi.single_eq_of_ne hmn] using hs.counted m md hm
    · rw [kfreeNode_nodes] at hm
      split_ifs at hm with hmn
      exact hs.fresh m md hm
    · rcases mem_cons.1 hf with rfl | hf
      · exact ⟨hrefs, fun _ ↦ hlocals⟩
      · exact hs.logged f hf

/-- What `strong` and `internal` add to the internal count of a node. -/
def internalCount (n : ℕ) (strong internal : Bool) : ℕ → ℤ :=
  if strong = true ∧ internal = true then Pi.single n 1 else 0

theorem Sound.count (hs : s.Sound debt) (hn : s.nodes n = some nd) {k : ℤ}
    (h : Settled s n (nd.count strong internal k) target s') :
    s'.Sound (debt + k • internalCount n strong internal) := by
  have hset := hs.settled hn h
  rw [nd.count_internal, add_sub_cancel_left] at hset
  have hk : Pi.single n (if strong = true ∧ internal = true then k else 0) =
      k • internalCount n strong internal := by
    funext m
    unfold internalCount
    by_cases hm : m = n
    · subst hm
      split_ifs <;> simp
    · split_ifs <;> simp [hm]
  rwa [hk] at hset

theorem Sound.decNode (hs : s.Sound debt) (h : s.decNode n strong internal = some s') :
    s'.Sound (debt - internalCount n strong internal) := by
  obtain ⟨nd, hn, hset⟩ := decNode_settled h
  have := hs.count hn hset
  rwa [neg_one_zsmul] at this

theorem Sound.incNode (hs : s.Sound debt) (h : s.incNode n strong internal target = some (ok, s')) :
    s'.Sound (debt + if ok then internalCount n strong internal else 0) := by
  obtain ⟨nd, hn, ⟨rfl, -, rfl⟩ | ⟨hok, hset⟩⟩ := incNode_settled h
  · simpa using hs
  · have := hs.count hn hset
    cases ok with
    | true => simpa using this
    | false =>
      have hint : internal = false := by simpa using hok
      simpa [internalCount, hint] using this

/-! ### References -/

theorem getRef_spec (h : s.getRef p desc = some r) : r ∈ s.refs ∧ r.proc = p ∧ r.desc = desc := by
  have hr := List.find?_some h
  simp only [isRef, decide_eq_true_eq] at hr
  exact ⟨mem_of_find?_eq_some h, hr⟩

theorem refAmount_of_name {q d : ℕ} (hp : r.proc = p) (hd : r.desc = desc) (st : Bool) :
    refAmount q d st r = if p = q ∧ desc = d then (r.count st : ℤ) else 0 := by
  simp [refAmount, isRef, hp, hd]

@[simp] theorem setCount_name (r : Ref) (st : Bool) (k : ℕ) :
    (r.setCount st k).proc = r.proc ∧ (r.setCount st k).desc = r.desc ∧
      (r.setCount st k).node = r.node := by
  cases st <;> exact ⟨rfl, rfl, rfl⟩

theorem count_setCount (r : Ref) (st : Bool) (k : ℕ) (st' : Bool) :
    (r.setCount st k).count st' = if st' = st then k else r.count st' := by
  cases st <;> cases st' <;> rfl

theorem getRef_setRef (hr : s.getRef p desc = some r) {r' : Ref} (hp : r'.proc = r.proc)
    (hd : r'.desc = r.desc) : (s.setRef p desc r').getRef p desc = some r' := by
  obtain ⟨-, rfl, rfl⟩ := getRef_spec hr
  exact find?_modifyFirst hr (by simp [isRef, hp, hd])

theorem setRef_value (hr : s.getRef p desc = some r) (strong : Bool) (k : ℕ) :
    (s.setRef p desc (r.setCount strong k)).value =
      s.value + Pi.single (.ref p desc strong) ((k : ℤ) - r.count strong) := by
  obtain ⟨-, hp, hd⟩ := getRef_spec hr
  obtain ⟨hp', hd', -⟩ := setCount_name r strong k
  funext c
  cases c with
  | node n st => exact (add_zero _).symm
  | file q fd f => exact (add_zero _).symm
  | ref q d st =>
    show total (refAmount q d st) (modifyFirst (isRef p desc) _ s.refs) = _
    rw [total_modifyFirst hr, refAmount_of_name hp hd,
      refAmount_of_name (hp'.trans hp) (hd'.trans hd), count_setCount]
    by_cases hc : p = q ∧ desc = d ∧ st = strong
    · obtain ⟨rfl, rfl, rfl⟩ := hc
      simp only [and_self, if_true, Pi.add_apply, Pi.single_eq_same, value]
      omega
    · have hne : Counter.ref q d st ≠ Counter.ref p desc strong := by
        intro h
        injection h with h1 h2 h3
        exact hc ⟨h1.symm, h2.symm, h3⟩
      rw [Pi.add_apply, Pi.single_eq_of_ne hne]
      by_cases hpd : p = q ∧ desc = d
      · have hst : st ≠ strong := fun h ↦ hc ⟨hpd.1, hpd.2, h⟩
        simp only [hpd, hst, if_false, and_self, value]
        omega
      · simp only [hpd, if_false, value]
        omega

theorem Sound.setRef {r' : Ref} (hs : s.Sound debt) (hr : s.getRef p desc = some r)
    (hname : r'.proc = r.proc ∧ r'.desc = r.desc ∧ r'.node = r.node) :
    (s.setRef p desc r').Sound (debt + (strongOf · r) - (strongOf · r')) := by
  obtain ⟨hp, hd, hnode⟩ := hname
  have hmem := (getRef_spec hr).1
  refine ⟨?_, fun x hx ↦ ?_, fun x hx ↦ ?_, fun n nd hn ↦ ?_, hs.fresh, hs.logged⟩
  · show ((modifyFirst (isRef p desc) _ s.refs).map refKey).Nodup
    rw [map_modifyFirst hr refKey (by simp [refKey, hp, hd])]
    exact hs.unique
  · rcases mem_modifyFirst hx with hx | ⟨y, hy, rfl⟩
    · exact hs.bounded x hx
    · exact hd ▸ hs.bounded r hmem
  · rcases mem_modifyFirst hx with hx | ⟨y, hy, rfl⟩
    · exact hs.live x hx
    · exact hnode ▸ hs.live r hmem
  · have hcount := hs.counted n nd hn
    show nd.internalStrongRefs = total (strongOf n) (modifyFirst (isRef p desc) _ s.refs) + _
    rw [total_modifyFirst hr]
    simp only [Pi.add_apply, Pi.sub_apply]
    omega

theorem strongOf_setCount (r : Ref) (st : Bool) (k : ℕ) : (strongOf · (r.setCount st k)) =
      (strongOf · r) + if st then (if 0 < k then Pi.single r.node 1 else 0) -
        (if 0 < r.strong then Pi.single r.node 1 else 0) else 0 := by
  funext n
  cases st with
  | false => simp [strongOf, Ref.setCount]
  | true =>
    by_cases hn : n = r.node
    · subst hn
      by_cases hk : 0 < k <;> by_cases hr : 0 < r.strong <;> simp [strongOf, Ref.setCount, hk, hr]
    · have hn' : ¬ r.node = n := fun h ↦ hn h.symm
      by_cases hk : 0 < k <;> by_cases hr : 0 < r.strong <;>
        simp [strongOf, Ref.setCount, hn', hk, hr, hn]

theorem Sound.eraseRef (hs : s.Sound debt) (hr : s.getRef p desc = some r) :
    (s.eraseRef p desc).Sound (debt + (strongOf · r)) := by
  refine ⟨hs.unique.sublist (eraseP_sublist.map refKey),
    fun x hx ↦ hs.bounded x (mem_of_mem_eraseP hx),
    fun x hx ↦ hs.live x (mem_of_mem_eraseP hx), fun n nd hn ↦ ?_, hs.fresh, hs.logged⟩
  have hcount := hs.counted n nd hn
  show nd.internalStrongRefs = total (strongOf n) (s.refs.eraseP (isRef p desc)) + _
  rw [total_eraseP hr]
  simp only [Pi.add_apply]
  omega

/-- Striking out a reference takes both its counts away. -/
theorem eraseRef_value (hr : s.getRef p desc = some r) : (s.eraseRef p desc).value =
      s.value - (Pi.single (.ref p desc true) (r.strong : ℤ) +
        Pi.single (.ref p desc false) (r.weak : ℤ)) := by
  obtain ⟨-, hp, hd⟩ := getRef_spec hr
  funext c
  cases c with
  | node n st => exact (sub_zero _).symm
  | file q fd f => exact (sub_zero _).symm
  | ref q d st =>
    show total (refAmount q d st) (s.refs.eraseP (isRef p desc)) = _
    rw [total_eraseP hr, refAmount_of_name hp hd]
    by_cases hpd : p = q ∧ desc = d
    · obtain ⟨rfl, rfl⟩ := hpd
      cases st <;> simp [value, Ref.count]
    · have hne : ∀ st', Counter.ref q d st ≠ Counter.ref p desc st' := by
        intro st' h
        injection h with h1 h2
        exact hpd ⟨h1.symm, h2.symm⟩
      simp [value, hpd, hne]

/-- `binder_inc_ref` is refused, and then changes nothing, or counts; the first count of its kind
goes through the node. -/
theorem incRef_cases (h : s.incRef p desc strong target = some (ok, s')) :
    ∃ r, s.getRef p desc = some r ∧ ((ok = false ∧ s' = s) ∨ (ok = true ∧ ∃ u,
          ((r.count strong = 0 ∧ s.incNode r.node strong true target = some (true, u)) ∨
            (r.count strong ≠ 0 ∧ u = s)) ∧
          s' = u.setRef p desc (r.setCount strong (r.count strong + 1)))) := by
  unfold incRef at h
  cases hr : s.getRef p desc with
  | none => simp [hr] at h
  | some r => grind [incNode_settled]

theorem incNode_refs (h : s.incNode n strong internal target = some (ok, s')) :
    s'.refs = s.refs := by
  obtain ⟨nd, -, ⟨-, -, rfl⟩ | ⟨-, hset⟩⟩ := incNode_settled h
  · rfl
  · exact hset.refs

theorem Sound.incRef (hs : s.Sound debt)
    (h : s.incRef p desc strong target = some (ok, s')) : s'.Sound debt := by
  obtain ⟨r, hr, ⟨-, rfl⟩ | ⟨-, u, hu, rfl⟩⟩ := incRef_cases h
  · exact hs
  rcases hu with ⟨hzero, hu⟩ | ⟨hpos, rfl⟩
  · -- the node has been counted before the reference is
    have hru : u.getRef p desc = some r := by rw [getRef, incNode_refs hu]; exact hr
    have := (hs.incNode hu).setRef hru (setCount_name r strong (r.count strong + 1))
    rw [strongOf_setCount] at this
    convert this using 1
    cases strong with
    | true =>
      simp only [internalCount, show r.strong = 0 from hzero, and_self, if_true, Nat.succ_pos]
      abel
    | false => simp [internalCount]
  · have := hs.setRef hr (setCount_name r strong (r.count strong + 1))
    rw [strongOf_setCount] at this
    convert this using 1
    cases strong with
    | true => simp [Nat.pos_of_ne_zero (show r.strong ≠ 0 from hpos)]
    | false => simp

/-- A granted count shows on its own counter. -/
theorem incRef_value (h : s.incRef p desc strong target = some (ok, s')) :
    s'.value = s.value + if ok then Pi.single (.ref p desc strong) 1 else 0 := by
  obtain ⟨r, hr, ⟨rfl, rfl⟩ | ⟨rfl, u, hu, rfl⟩⟩ := incRef_cases h
  · simp
  have hone : (((r.count strong + 1 : ℕ) : ℤ) - r.count strong) = 1 := by omega
  rcases hu with ⟨-, hu⟩ | ⟨-, rfl⟩
  · have hru : u.getRef p desc = some r := by rw [getRef, incNode_refs hu]; exact hr
    have hval : u.value = s.value := by simpa [nodeCount] using incNode_value hu
    rw [setRef_value hru, hval, hone, if_pos rfl]
  · rw [setRef_value hr, hone, if_pos rfl]

theorem incRef_isSome (hs : s.Sound debt) (hr : s.getRef p desc = some r)
    (strong : Bool) (target : Option Queue) : ∃ u, s.incRef p desc strong target = some u := by
  obtain ⟨nd, hn⟩ := hs.live r (getRef_spec hr).1
  obtain ⟨⟨ok, u⟩, hu⟩ := incNode_isSome hn strong true target
  unfold incRef
  simp only [hr, hu]
  split_ifs
  · cases ok <;> exact ⟨_, rfl⟩
  · exact ⟨_, rfl⟩

/-! ### Giving back -/

/-- A node with a reference is not freed. -/
theorem decNode_live (hs : s.Sound debt) (hr : r ∈ s.refs)
    (h : s.decNode r.node strong internal = some s') : ∃ nd, s'.nodes r.node = some nd := by
  have hs' := hs.decNode h
  obtain ⟨nd, -, hset⟩ := decNode_settled h
  exact hs'.live r (by rwa [hset.refs])

theorem decNode_refs (h : s.decNode n strong internal = some s') : s'.refs = s.refs := by
  obtain ⟨nd, -, hset⟩ := decNode_settled h
  exact hset.refs

/-- `binder_delete_ref` gives the strong count back while the reference is still there. -/
theorem deleteRef_cases (h : s.deleteRef p desc = some s') : ∃ r u, s.getRef p desc = some r ∧
      ((r.strong ≠ 0 ∧ s.decNode r.node true true = some u) ∨ (r.strong = 0 ∧ u = s)) ∧
      (u.eraseRef p desc).decNode r.node false true = some s' := by
  unfold deleteRef at h
  cases hr : s.getRef p desc with
  | none => simp [hr] at h
  | some r =>
    simp only [hr] at h
    obtain ⟨u, hu, hrest⟩ := Option.bind_eq_some_iff.1 h
    refine ⟨r, u, rfl, ?_, hrest⟩
    split_ifs at hu with hstrong
    · exact .inl ⟨hstrong, hu⟩
    · grind

theorem Sound.deleteRef (hs : s.Sound debt) (h : s.deleteRef p desc = some s') : s'.Sound debt := by
  obtain ⟨r, u, hr, hu, hrest⟩ := deleteRef_cases h
  rcases hu with ⟨hstrong, hu⟩ | ⟨hstrong, rfl⟩
  · have hru : u.getRef p desc = some r := by rw [getRef, decNode_refs hu]; exact hr
    have := ((hs.decNode hu).eraseRef hru).decNode hrest
    convert this using 1
    funext n
    by_cases hn : n = r.node
    · subst hn
      simp [internalCount, strongOf, Nat.pos_of_ne_zero hstrong]
    · have hn' : ¬ r.node = n := fun h ↦ hn h.symm
      simp [internalCount, strongOf, hn, hn']
  · have := (hs.eraseRef hr).decNode hrest
    convert this using 1
    funext n
    simp [internalCount, strongOf, hstrong]

theorem deleteRef_value (hr : s.getRef p desc = some r) (h : s.deleteRef p desc = some s') :
    s'.value = s.value - (Pi.single (.ref p desc true) (r.strong : ℤ) +
      Pi.single (.ref p desc false) (r.weak : ℤ)) := by
  obtain ⟨r', u, hr', hu, hrest⟩ := deleteRef_cases h
  obtain rfl : r' = r := Option.mem_unique hr' hr
  rw [decNode_value hrest]
  rcases hu with ⟨-, hu⟩ | ⟨-, rfl⟩
  · have hru : u.getRef p desc = some r' := by rw [getRef, decNode_refs hu]; exact hr
    rw [eraseRef_value hru, decNode_value hu]
    simp [nodeCount]
  · rw [eraseRef_value hr]
    simp [nodeCount]

theorem deleteRef_isSome (hs : s.Sound debt) (hr : s.getRef p desc = some r) :
    ∃ s', s.deleteRef p desc = some s' := by
  obtain ⟨hmem, -⟩ := getRef_spec hr
  obtain ⟨nd, hn⟩ := hs.live r hmem
  have hend : ∀ u : Registry, (∃ nd, u.nodes r.node = some nd) →
      ∃ s', (u.eraseRef p desc).decNode r.node false true = some s' :=
    fun u ⟨_, hu⟩ ↦ decNode_isSome (s := u.eraseRef p desc) hu false true
  unfold deleteRef
  simp only [hr]
  by_cases hstrong : r.strong ≠ 0
  · obtain ⟨u, hu⟩ := decNode_isSome hn true true
    rw [if_pos hstrong, hu]
    exact hend u (decNode_live hs hmem hu)
  · rw [if_neg hstrong]
    exact hend s ⟨nd, hn⟩

/-- `binder_dec_ref` finds nothing to give back, or gives one count back; the last strong count goes
through the node, and a reference without counts is deleted. -/
theorem decRef_cases (h : s.decRef p desc strong = some s') : ∃ r, s.getRef p desc = some r ∧
      ((r.count strong = 0 ∧ s' = s) ∨
        (r.count strong ≠ 0 ∧ ∃ r' u, r' = r.setCount strong (r.count strong - 1) ∧
          ((strong = true ∧ r'.strong = 0 ∧
              (s.setRef p desc r').decNode r.node true true = some u) ∨
            (¬ (strong = true ∧ r'.strong = 0) ∧ u = s.setRef p desc r')) ∧
          ((r'.strong = 0 ∧ r'.weak = 0 ∧ u.deleteRef p desc = some s') ∨
            (¬ (r'.strong = 0 ∧ r'.weak = 0) ∧ s' = u)))) := by
  unfold decRef at h
  cases hr : s.getRef p desc with
  | none => simp [hr] at h
  | some r =>
    refine ⟨r, rfl, ?_⟩
    simp only [hr] at h
    by_cases hzero : r.count strong = 0
    · grind
    · rw [if_neg hzero] at h
      obtain ⟨u, hu, hrest⟩ := Option.bind_eq_some_iff.1 h
      refine .inr ⟨hzero, _, u, rfl, ?_, ?_⟩
      · split_ifs at hu with hlast
        · exact .inl ⟨hlast.1, hlast.2, hu⟩
        · cases hu
          exact .inr ⟨hlast, rfl⟩
      · grind

theorem Sound.decRef (hs : s.Sound debt) (h : s.decRef p desc strong = some s') :
    s'.Sound debt := by
  obtain ⟨r, hr, ⟨-, rfl⟩ | ⟨hpos, r', u, hr', hu, hrest⟩⟩ := decRef_cases h
  · exact hs
  have hset := hs.setRef hr (setCount_name r strong (r.count strong - 1))
  rw [strongOf_setCount, ← hr'] at hset
  have hsound : u.Sound debt := by
    rcases hu with ⟨rfl, hlast, hu⟩ | ⟨hlast, rfl⟩
    · -- the last strong count: the reference stops counting before the node does
      have hone : r.strong - 1 = 0 := by simpa [hr', Ref.setCount, Ref.count] using hlast
      have hrs : 0 < r.strong := Nat.pos_of_ne_zero hpos
      have := hset.decNode hu
      convert this using 1
      simp only [internalCount, Ref.count, hone, hrs, and_self, if_true]
      abel
    · convert hset using 1
      cases strong with
      | false => simp
      | true =>
        have hmore : r.strong - 1 ≠ 0 := by simpa [hr', Ref.setCount, Ref.count] using hlast
        have hrs : 0 < r.strong := Nat.pos_of_ne_zero hpos
        simp [Ref.count, hrs, Nat.pos_of_ne_zero hmore]
  rcases hrest with ⟨-, -, hdel⟩ | ⟨-, rfl⟩
  · exact hsound.deleteRef hdel
  · exact hsound

theorem decRef_value (hr : s.getRef p desc = some r) (h : s.decRef p desc strong = some s') :
    s'.value = s.value - if r.count strong = 0 then 0 else Pi.single (.ref p desc strong) 1 := by
  obtain ⟨r₀, hr₀, ⟨hzero, rfl⟩ | ⟨hpos, r', u, hr', hu, hrest⟩⟩ := decRef_cases h <;>
    obtain rfl : r₀ = r := Option.mem_unique hr₀ hr
  · simp [hzero]
  obtain ⟨hp, hd, -⟩ := setCount_name r₀ strong (r₀.count strong - 1)
  have hminus : (((r₀.count strong - 1 : ℕ) : ℤ) - r₀.count strong) = -1 := by omega
  have hset := setRef_value hr strong (r₀.count strong - 1)
  rw [← hr', hminus] at hset
  have hval : u.value = s.value - Pi.single (.ref p desc strong) 1 := by
    rw [sub_eq_add_neg, ← Pi.single_neg, ← hset]
    rcases hu with ⟨-, -, hu⟩ | ⟨-, rfl⟩
    · simpa [nodeCount] using decNode_value hu
    · rfl
  have hru : u.getRef p desc = some r' := by
    have hset := getRef_setRef hr (hr' ▸ hp : r'.proc = r₀.proc) (hr' ▸ hd)
    rcases hu with ⟨-, -, hu⟩ | ⟨-, rfl⟩
    · rw [getRef, decNode_refs hu]
      exact hset
    · exact hset
  rw [if_neg hpos]
  rcases hrest with ⟨hs0, hw0, hdel⟩ | ⟨-, rfl⟩
  · rw [deleteRef_value hru hdel, hval, hs0, hw0]
    simp
  · exact hval

theorem decRef_isSome (hs : s.Sound debt) (hr : s.getRef p desc = some r)
    (strong : Bool) : ∃ s', s.decRef p desc strong = some s' := by
  obtain ⟨hmem, -⟩ := getRef_spec hr
  obtain ⟨nd, hn⟩ := hs.live r hmem
  obtain ⟨hp, hd, hnode⟩ := setCount_name r strong (r.count strong - 1)
  unfold decRef
  simp only [hr]
  by_cases hzero : r.count strong = 0
  · exact ⟨s, if_pos hzero⟩
  rw [if_neg hzero]
  generalize hr' : r.setCount strong (r.count strong - 1) = r' at hp hd hnode
  have hru : (s.setRef p desc r').getRef p desc = some r' := getRef_setRef hr hp hd
  have hset := hs.setRef hr ⟨hp, hd, hnode⟩
  have hend : ∀ (u : Registry) (debt : ℕ → ℤ), u.Sound debt → u.getRef p desc = some r' →
      ∃ s', (if r'.strong = 0 ∧ r'.weak = 0 then u.deleteRef p desc else some u) = some s' := by
    intro u debt hu hru
    by_cases hnone : r'.strong = 0 ∧ r'.weak = 0
    · rw [if_pos hnone]
      exact deleteRef_isSome hu hru
    · exact ⟨u, if_neg hnone⟩
  by_cases hlast : strong = true ∧ r'.strong = 0
  · obtain ⟨u, hu⟩ := decNode_isSome (s := s.setRef p desc r') hn true true
    rw [if_pos hlast, hu]
    refine hend u _ (hset.decNode hu) ?_
    rw [getRef, decNode_refs hu]
    exact hru
  · rw [if_neg hlast]
    exact hend _ _ hset hru

end Registry

end Binder
