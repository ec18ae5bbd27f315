import MerrukKernel.Binder.Objects
import MerrukKernel.Binder.RefCounts

/-!
# The books through translation and release

Every function that the translation of a message or the release of a buffer goes through keeps the
books of the internal references, whatever the words of the message are: nothing here depends on the
offsets being sorted, distinct or apart.

That every reference has a count (`Held`) is kept as long as no count is refused. A new reference
starts without one, and when `binder_inc_ref` fails on it, it stays that way.
-/

namespace Binder

open Ledger List Option

namespace Registry

variable {s s' : Registry} {n p q t tp desc : ℕ} {nd : Node} {strong internal ok memory : Bool}
  {target : Option Queue} {r : Ref} {debt : ℕ → ℤ}

/-! ### Descriptors -/

/-- The loop for an unused descriptor ends at one that is not on the list. -/
theorem firstGap_spec (d : ℕ) {l : List ℕ} (hl : l.Pairwise (· ≤ ·)) :
    firstGap d l ∉ l ∧ (firstGap d l = d ∨ ∃ x ∈ l, firstGap d l = x + 1) := by
  induction l generalizing d with
  | nil => exact ⟨by simp, .inl rfl⟩
  | cons x l ih =>
    obtain ⟨hx, hl⟩ := pairwise_cons.1 hl
    by_cases hd : d < x
    · have heq : firstGap d (x :: l) = d := by simp [firstGap, hd]
      rw [heq]
      refine ⟨fun h ↦ ?_, .inl rfl⟩
      rcases mem_cons.1 h with rfl | h
      · omega
      · have := hx d h
        omega
    · have heq : firstGap d (x :: l) = firstGap (x + 1) l := by simp [firstGap, hd]
      obtain ⟨hnot, hcases⟩ := ih (x + 1) hl
      -- the result lies above every descriptor passed, `x` among them
      rw [heq]
      refine ⟨fun h ↦ ?_, .inr ?_⟩
      · grind
      · rcases hcases with h | ⟨y, hy, h⟩
        · exact ⟨x, by simp, h⟩
        · exact ⟨y, by simp [hy], h⟩

theorem firstGap_le (d : ℕ) (l : List ℕ) : firstGap d l ≤ d + l.length := by
  induction l generalizing d with
  | nil => exact le_rfl
  | cons x l ih =>
    rw [firstGap, length_cons]
    split_ifs with hd
    · omega
    · have := ih (x + 1)
      omega

theorem newDesc_fresh (s : Registry) (p n : ℕ) (hr : r ∈ s.refs) (hp : r.proc = p) :
    r.desc ≠ s.newDesc p n := by
  intro h
  have hsort := pairwise_insertionSort (· ≤ ·) ((s.refs.filter (·.proc = p)).map (·.desc))
  have hnot := (firstGap_spec (if s.contextMgr = some n then 0 else 1) hsort).1
  refine hnot ?_
  show s.newDesc p n ∈ _
  rw [← h, mem_insertionSort]
  exact mem_map.2 ⟨r, mem_filter.2 ⟨hr, by simpa using hp⟩, rfl⟩

theorem newDesc_lt (p n : ℕ) (h : s.refs.length + 1 < 2 ^ 32) : s.newDesc p n < 2 ^ 32 := by
  have hle := firstGap_le (if s.contextMgr = some n then 0 else 1)
    (((s.refs.filter (·.proc = p)).map (·.desc)).insertionSort (· ≤ ·))
  rw [length_insertionSort, length_map] at hle
  have hlen := length_filter_le (fun r ↦ decide (r.proc = p)) s.refs
  have hzero : (if s.contextMgr = some n then 0 else 1) ≤ 1 := by split_ifs <;> omega
  have : s.newDesc p n ≤ (if s.contextMgr = some n then 0 else 1) + s.refs.length :=
    hle.trans (Nat.add_le_add_left hlen _)
  omega

/-- A reference without counts, under a name not in use. -/
def addRef (s : Registry) (p desc n : ℕ) : Registry :=
  { s with refs := { proc := p, desc := desc, node := n } :: s.refs }

/-- `binder_get_ref_for_node` finds a reference or makes one. -/
theorem getRefForNode_cases (h : s.getRefForNode p n memory = some (desc, s')) :
    (s' = s ∧ ∃ r ∈ s.refs, r.proc = p ∧ r.desc = desc ∧ r.node = n) ∨
      (s' = s.addRef p desc n ∧ desc < 2 ^ 32 ∧ ∀ r ∈ s.refs, r.proc = p → r.desc ≠ desc) := by
  unfold getRefForNode at h
  split at h
  · grind
  · split_ifs at h with hmem
    cases h
    exact .inr ⟨rfl, newDesc_lt p n hmem.2, fun r hr hp ↦ newDesc_fresh s p n hr hp⟩

theorem Sound.addRef (hs : s.Sound debt) (hn : s.nodes n = some nd) (hlt : desc < 2 ^ 32)
    (hfresh : ∀ r ∈ s.refs, r.proc = p → r.desc ≠ desc) : (s.addRef p desc n).Sound debt := by
  refine ⟨?_, fun r hr ↦ ?_, fun r hr ↦ ?_, fun m md hm ↦ ?_, hs.fresh, hs.logged⟩
  · refine nodup_cons.2 ⟨fun h ↦ ?_, hs.unique⟩
    obtain ⟨r, hr, hkey⟩ := mem_map.1 h
    obtain ⟨hp, hd⟩ := Prod.mk.inj hkey
    exact hfresh r hr hp hd
  · rcases mem_cons.1 hr with rfl | hr
    · exact hlt
    · exact hs.bounded r hr
  · rcases mem_cons.1 hr with rfl | hr
    · exact ⟨nd, hn⟩
    · exact hs.live r hr
  · show _ = total (strongOf m) (_ :: s.refs) + _
    simpa [strongOf] using hs.counted m md hm

theorem addRef_value : (s.addRef p desc n).value = s.value := by
  funext c
  cases c with
  | node m st => rfl
  | file q fd f => rfl
  | ref q d st =>
    show total (refAmount q d st) (_ :: s.refs) = _
    cases st <;> simp [refAmount, Ref.count, value]

theorem getRefForNode_sound (hs : s.Sound debt) (hn : s.nodes n = some nd)
    (h : s.getRefForNode p n memory = some (desc, s')) : s'.Sound debt := by
  obtain ⟨rfl, -⟩ | ⟨rfl, hlt, hfresh⟩ := getRefForNode_cases h
  · exact hs
  · exact hs.addRef hn hlt hfresh

/-- The reference is there, under a descriptor that fits a word. -/
theorem getRefForNode_getRef (hs : s.Sound debt)
    (h : s.getRefForNode p n memory = some (desc, s')) :
    s'.value = s.value ∧ desc < 2 ^ 32 ∧ ∃ r, s'.getRef p desc = some r := by
  have hfound : ∀ u : Registry, (∃ r ∈ u.refs, r.proc = p ∧ r.desc = desc) →
      ∃ r, u.getRef p desc = some r := by
    rintro u ⟨r, hr, hp, hd⟩
    refine isSome_iff_exists.1 (List.find?_isSome.2 ⟨r, hr, ?_⟩)
    simp [isRef, hp, hd]
  obtain ⟨rfl, r, hr, hp, hd, -⟩ | ⟨rfl, hlt, -⟩ := getRefForNode_cases h
  · exact ⟨rfl, hd ▸ hs.bounded r hr, hfound _ ⟨r, hr, hp, hd⟩⟩
  · exact ⟨addRef_value, hlt, hfound _ ⟨_, mem_cons_self, rfl, rfl⟩⟩

/-! ### References without a count -/

/-- Every reference has a count. -/
def Held (s : Registry) : Prop := ∀ r ∈ s.refs, 0 < r.strong + r.weak

theorem setCount_pos (r : Ref) (st : Bool) {k : ℕ} (hk : 0 < k) :
    0 < (r.setCount st k).strong + (r.setCount st k).weak := by
  cases st
  · exact Nat.add_pos_right _ hk
  · exact Nat.add_pos_left hk _

theorem Held.of_refs (h : s.Held) (hrefs : s'.refs = s.refs) : s'.Held := by
  rwa [Held, hrefs]

theorem Held.setRef (h : s.Held) (hr : 0 < r.strong + r.weak) : (s.setRef p desc r).Held := by
  intro x hx
  rcases mem_modifyFirst hx with hx | ⟨y, -, rfl⟩
  · exact h x hx
  · exact hr

theorem Held.incRef (hh : s.Held) (h : s.incRef p desc strong target = some (ok, s')) :
    s'.Held := by
  obtain ⟨r, -, ⟨-, rfl⟩ | ⟨-, u, hu, rfl⟩⟩ := incRef_cases h
  · exact hh
  · refine Held.setRef ?_ (setCount_pos r strong (Nat.succ_pos _))
    rcases hu with ⟨-, hu⟩ | ⟨-, rfl⟩
    · exact hh.of_refs (incNode_refs hu)
    · exact hh

theorem deleteRef_refs (h : s.deleteRef p desc = some s') :
    s'.refs = s.refs.eraseP (isRef p desc) := by
  obtain ⟨r, u, -, hu, hrest⟩ := deleteRef_cases h
  have hrefs : u.refs = s.refs := by grind [decNode_refs]
  rw [decNode_refs hrest, eraseRef, hrefs]

theorem Held.erase (hh : s.Held) (h : s'.refs = s.refs.eraseP (isRef p desc)) : s'.Held := by
  intro x hx
  rw [h] at hx
  exact hh x (mem_of_mem_eraseP hx)

/-- `binder_dec_ref` deletes a reference with its last count. -/
theorem Held.decRef (hh : s.Held) (h : s.decRef p desc strong = some s') : s'.Held := by
  obtain ⟨r, hr, ⟨-, rfl⟩ | ⟨-, r', u, hr', hu, hrest⟩⟩ := decRef_cases h
  · exact hh
  have hrefs : u.refs = (s.setRef p desc r').refs := by grind [decNode_refs]
  rcases hrest with ⟨-, -, hdel⟩ | ⟨hsome, rfl⟩
  · -- the reference that was left without a count is the one struck out
    have hname : isRef p desc r' = true := by
      obtain ⟨-, rfl, rfl⟩ := getRef_spec hr
      simp [isRef, hr']
    have hsame : s'.refs = s.refs.eraseP (isRef p desc) := by
      rw [deleteRef_refs hdel, hrefs]
      exact eraseP_modifyFirst hr hname
    exact hh.erase hsame
  · exact (hh.setRef (by omega)).of_refs hrefs

/-! ### Granting a reference -/

variable {res : Option (ℕ × Bool)} {ptr off : BitVec 32} {allowFds failed : Bool} {dataSize : ℕ}

theorem grantRef_cases (h : s.grantRef tp n strong memory target = some (res, s')) :
    (res = none ∧ s' = s) ∨ ∃ d u, s.getRefForNode tp n memory = some (d, u) ∧
        ∃ ok, res = some (d, ok) ∧ u.incRef tp d strong target = some (ok, s') := by
  unfold grantRef at h
  cases hget : s.getRefForNode tp n memory with
  | none => grind
  | some u => grind [map_eq_some_iff]

theorem Sound.grantRef (hs : s.Sound debt) (hn : s.nodes n = some nd)
    (h : s.grantRef tp n strong memory target = some (res, s')) : s'.Sound debt := by
  obtain ⟨-, rfl⟩ | ⟨d, u, hget, ok, -, hinc⟩ := grantRef_cases h
  · exact hs
  · exact (getRefForNode_sound hs hn hget).incRef hinc

theorem grantRef_value {d : ℕ} (hs : s.Sound debt)
    (h : s.grantRef tp n strong memory target = some (some (d, ok), s')) :
    d < 2 ^ 32 ∧ s'.value = s.value + if ok then Pi.single (.ref tp d strong) 1 else 0 := by
  obtain ⟨hres, -⟩ | ⟨d', u, hget, ok', hres, hinc⟩ := grantRef_cases h
  · exact absurd hres (by simp)
  · cases hres
    obtain ⟨hval, hlt, -⟩ := getRefForNode_getRef hs hget
    exact ⟨hlt, by rw [incRef_value hinc, hval]⟩

theorem grantRef_isSome (hs : s.Sound debt) (hn : s.nodes n = some nd) (tp : ℕ)
    (strong memory : Bool) (target : Option Queue) :
    ∃ u, s.grantRef tp n strong memory target = some u := by
  unfold grantRef
  cases hget : s.getRefForNode tp n memory with
  | none => exact ⟨_, rfl⟩
  | some u =>
    obtain ⟨-, -, r, hr⟩ := getRefForNode_getRef hs hget
    obtain ⟨v, hv⟩ := incRef_isSome (getRefForNode_sound hs hn hget) hr strong target
    simp only [hv]
    exact ⟨_, rfl⟩

/-- A reference that was granted a count has one. -/
theorem Held.grantRef (hh : s.Held) (h : s.grantRef tp n strong memory target = some (res, s'))
    (hres : ∀ d, res ≠ some (d, false)) : s'.Held := by
  obtain ⟨-, rfl⟩ | ⟨d, u, hget, ok, rfl, hinc⟩ := grantRef_cases h
  · exact hh
  rcases getRefForNode_cases hget with ⟨rfl, -⟩ | ⟨rfl, -⟩
  · exact hh.incRef hinc
  · -- the new reference is the first on the list, and the one that is counted
    obtain ⟨r, hr, ⟨rfl, -⟩ | ⟨-, v, hv, rfl⟩⟩ := incRef_cases hinc
    · exact absurd rfl (hres d)
    have hvrefs : v.refs = (s.addRef tp d n).refs := by grind [incNode_refs]
    intro x hx
    have hhead : isRef tp d { proc := tp, desc := d, node := n } = true := by simp [isRef]
    simp only [Registry.setRef, hvrefs, Registry.addRef, modifyFirst, hhead, if_true,
      mem_cons] at hx
    rcases hx with rfl | hx
    · exact setCount_pos r strong (Nat.succ_pos _)
    · exact hh x hx

/-! ### New nodes -/

theorem getNode_spec (h : s.getNode p ptr = some n) :
    ∃ nd, s.nodes n = some nd ∧ nd.name = (some p, ptr) := by
  have hn := List.find?_some h
  cases hnode : s.nodes n with
  | none => simp [hnode] at hn
  | some nd =>
    simp only [hnode, decide_eq_true_eq] at hn
    exact ⟨nd, rfl, by simp [Node.name, hn.1, hn.2]⟩

theorem getNode_isSome (hs : s.Sound debt) (hn : s.nodes n = some nd)
    (hname : nd.name = (some p, ptr)) : ∃ m, s.getNode p ptr = some m := by
  obtain ⟨hproc, hptr⟩ := Prod.mk.inj hname
  refine isSome_iff_exists.1 (List.find?_isSome.2 ⟨n, ?_, ?_⟩)
  · exact mem_range.2 (hs.fresh n nd hn)
  · simp [hn, hproc, hptr]

/-- Allocate a node. -/
def addNode (s : Registry) (nd : Node) : Registry :=
  { s with nodes := Function.update s.nodes s.nextNode (some nd), nextNode := s.nextNode + 1 }

theorem addNode_nodes (m : ℕ) :
    (s.addNode nd).nodes m = if m = s.nextNode then some nd else s.nodes m := by
  simp [addNode, Function.update_apply]

/-- A node as `binder_new_node` makes it for a process that has none of that name. -/
structure Newborn (s : Registry) (nd : Node) : Prop where
  counts : nd.internalStrongRefs = 0 ∧ (∀ st, nd.locals st = 0) ∧ ∀ st, nd.pending st = false
  work : nd.work = none
  owner : ∃ p, nd.proc = some p ∧ s.getNode p nd.ptr = none

theorem newNode_cases {cookie : BitVec 32} {acceptFds : Bool}
    (h : s.newNode p ptr cookie acceptFds memory = some (n, s')) :
    n = s.nextNode ∧ ∃ nd, nd.name = (some p, ptr) ∧ Newborn s nd ∧ s' = s.addNode nd := by
  unfold newNode at h
  split_ifs at h with hcond
  cases h
  have hnone : s.getNode p ptr = none := by
    rw [not_or] at hcond
    simpa using hcond.1
  refine ⟨rfl, { proc := some p, ptr := ptr, cookie := cookie, acceptFds := acceptFds }, rfl,
    ⟨⟨rfl, fun st ↦ ?_, fun st ↦ ?_⟩, rfl, p, rfl, hnone⟩, rfl⟩
  · cases st <;> rfl
  · cases st <;> rfl

theorem Sound.addNode (hs : s.Sound 0) (hnd : Newborn s nd) : (s.addNode nd).Sound 0 := by
  have hlt : ∀ r ∈ s.refs, r.node ≠ s.nextNode := by
    intro r hr h
    obtain ⟨md, hm⟩ := hs.live r hr
    exact absurd (hs.fresh r.node md hm) (by omega)
  refine ⟨hs.unique, hs.bounded, fun r hr ↦ ?_, fun m md hm ↦ ?_, fun m md hm ↦ ?_, hs.logged⟩
  · rw [addNode_nodes, if_neg (hlt r hr)]
    exact hs.live r hr
  · rw [addNode_nodes] at hm
    split_ifs at hm with hmn
    · cases hm
      -- nothing refers to an address that was not given out before
      have hzero : total (strongOf m) s.refs = total (fun _ ↦ 0) s.refs := by
        refine total_congr fun r hr ↦ ?_
        have := hlt r hr
        simp only [strongOf, hmn]
        rw [if_neg fun h ↦ this h.1]
      show _ = total (strongOf m) s.refs + _
      rw [hzero, hnd.counts.1]
      simp [total]
    · exact hs.counted m md hm
  · rw [addNode_nodes] at hm
    split_ifs at hm with hmn
    · exact hmn ▸ Nat.lt_succ_self _
    · exact Nat.lt_succ_of_lt (hs.fresh m md hm)

theorem addNode_value (hs : s.Sound 0) (hnd : Newborn s nd) : (s.addNode nd).value = s.value := by
  funext c
  cases c with
  | ref q d st => rfl
  | file q fd f => rfl
  | node m st =>
    simp only [value, addNode_nodes]
    split_ifs with hm
    · have hnone : s.nodes m = none := by
        rw [eq_none_iff_forall_ne_some]
        intro md hmd
        exact absurd (hs.fresh m md hmd) (by omega)
      simp [hnone, hnd.counts.2.1 st]
    · rfl

/-! ### Translation -/

/-- **What one round of the translation does** to the registry, once a node that was missing has
been made: nothing, or one count for the receiver, of the kind the object is rewritten to. -/
inductive Rewrites (s : Registry) (tp : ℕ) (w : Words) (i : ℕ) : Verdict → Registry → Prop
  | failed : Rewrites s tp w i .failed s
  | handle {n : ℕ} {nd : Node} {strong memory granted : Bool} {target : Option Queue} {desc : ℕ}
      {s' : Registry} (hn : s.nodes n = some nd) (ht : nd.proc = none → target = none)
      (h : s.grantRef tp n strong memory target = some (some (desc, granted), s')) :
      Rewrites s tp w i
        (.done (putObj w i (.ref strong) (BitVec.ofNat 32 desc) (w (i + 3))) granted) s'
  | binder {n : ℕ} {nd : Node} {strong ok : Bool} {s' : Registry} (hn : s.nodes n = some nd)
      (hp : nd.proc = some tp) (h : s.incNode n strong false none = some (ok, s')) :
      Rewrites s tp w i (.done (putObj w i (.node strong) nd.ptr nd.cookie) true) s'
  | fd {fd : BitVec 32} {f : ℕ} (h : s.files tp fd = none) :
      Rewrites s tp w i (.done (putObj w i .fd fd (w (i + 3))) true) (s.setFile tp fd (some f))

/-- Granting a reference and writing it down is one of the rounds. -/
theorem Rewrites.ofRef (w : Words) (i : ℕ) (hn : s.nodes n = some nd)
    (ht : nd.proc = none → target = none)
    (h : s.grantRef tp n strong memory target = some (res, s')) :
    Rewrites s tp w i (.ofRef w i strong res) s' := by
  cases res with
  | none =>
    obtain ⟨-, rfl⟩ | ⟨d, u, -, ok, hres, -⟩ := grantRef_cases h
    · exact .failed
    · exact absurd hres (by simp)
  | some u => exact .handle hn ht h

variable {w : Words} {i : ℕ} {o : Outcome} {v : Verdict}

theorem translateBinder_rewrites (h : s.translateBinder p t tp strong w i o = some (v, s')) :
    ∃ u, (u = s ∨ ∃ nd, Newborn s nd ∧ u = s.addNode nd) ∧ Rewrites u tp w i v s' := by
  unfold translateBinder at h
  cases hget : s.getOrNewNode p (w (i + 2)) (w (i + 3)) (w (i + 1)) o.nodeMemory with
  | none =>
    simp only [hget] at h
    cases h
    exact ⟨s, .inl rfl, .failed⟩
  | some u =>
    obtain ⟨n, u⟩ := u
    -- the node is one of the process, found or made
    obtain ⟨hu, nd, hn, hname⟩ : (u = s ∨ ∃ nd, Newborn s nd ∧ u = s.addNode nd) ∧
        ∃ nd, u.nodes n = some nd ∧ nd.name = (some p, w (i + 2)) := by
      unfold getOrNewNode at hget
      split at hget
      · grind [getNode_spec]
      · obtain ⟨rfl, nd, hname, hnew, rfl⟩ := newNode_cases hget
        exact ⟨.inr ⟨nd, hnew, rfl⟩, nd, by simp [addNode_nodes], hname⟩
    refine ⟨u, hu, ?_⟩
    simp only [hget, hn] at h
    split_ifs at h with hcookie
    · cases h
      exact .failed
    · obtain ⟨x, hx, heq⟩ := map_eq_some_iff.1 h
      cases heq
      refine .ofRef w i hn (fun hp ↦ ?_) hx
      cases (Prod.mk.inj hname).1.symm.trans hp

theorem translateHandle_rewrites (h : s.translateHandle p tp strong w i o = some (v, s')) :
    Rewrites s tp w i v s' := by
  unfold translateHandle at h
  cases hr : s.getRef p (w (i + 2)).toNat with
  | none =>
    simp only [hr] at h
    cases h
    exact .failed
  | some r =>
    simp only [hr] at h
    cases hn : s.nodes r.node with
    | none => simp [hn] at h
    | some nd =>
      simp only [hn] at h
      split_ifs at h with hp <;> obtain ⟨x, hx, heq⟩ := map_eq_some_iff.1 h <;> cases heq
      · exact .binder hn hp hx
      · exact .ofRef w i hn (fun _ ↦ rfl) hx

theorem translateFd_rewrites (h : s.translateFd p tp allowFds w i o = (v, s')) :
    Rewrites s tp w i v s' := by
  unfold translateFd at h
  split at h
  · split_ifs at h with hused <;> cases h
    · exact .failed
    · exact .fd (by simpa using hused)
  · cases h
    exact .failed

/-- One round of the loop: perhaps a node is made, and then at most one count is taken. An object
that was translated lies in the data. -/
theorem translateObj_rewrites (h : s.translateObj p t tp allowFds dataSize w off o = some (v, s')) :
    (∃ u, (u = s ∨ ∃ nd, Newborn s nd ∧ u = s.addNode nd) ∧ Rewrites u tp w (objAt off) v s') ∧
      (v = .failed ∨ validOffset dataSize off = true) := by
  unfold translateObj at h
  split_ifs at h with hvalid
  · refine ⟨?_, .inr hvalid⟩
    split at h
    · exact translateBinder_rewrites h
    · exact translateBinder_rewrites h
    · exact ⟨s, .inl rfl, translateHandle_rewrites h⟩
    · exact ⟨s, .inl rfl, translateHandle_rewrites h⟩
    · exact ⟨s, .inl rfl, translateFd_rewrites (Option.some.inj h)⟩
    · cases h
      exact ⟨s, .inl rfl, .failed⟩
  · cases h
    exact ⟨⟨s, .inl rfl, .failed⟩, .inl rfl⟩

theorem Rewrites.sound (hs : s.Sound 0) (h : Rewrites s tp w i v s') : s'.Sound 0 := by
  cases h with
  | failed => exact hs
  | handle hn _ h => exact hs.grantRef hn h
  | binder hn _ h =>
    have := hs.incNode h
    simpa [internalCount] using this
  | fd _ => exact { hs with }

theorem Rewrites.held (hh : s.Held) (h : Rewrites s tp w i v s')
    (hv : ∀ w', v ≠ .done w' false) : s'.Held := by
  cases h with
  | failed => exact hh
  | handle hn _ h => grind [hh.grantRef]
  | binder hn _ h => exact hh.of_refs (incNode_refs h)
  | fd _ => exact hh

theorem translateObj_sound (hs : s.Sound 0)
    (h : s.translateObj p t tp allowFds dataSize w off o = some (v, s')) : s'.Sound 0 := by
  obtain ⟨⟨u, rfl | ⟨nd, hnew, rfl⟩, hrw⟩, -⟩ := translateObj_rewrites h
  · exact hrw.sound hs
  · exact hrw.sound (hs.addNode hnew)

theorem translateObj_held (hh : s.Held)
    (h : s.translateObj p t tp allowFds dataSize w off o = some (v, s'))
    (hv : ∀ w', v ≠ .done w' false) : s'.Held := by
  obtain ⟨⟨u, rfl | ⟨nd, hnew, rfl⟩, hrw⟩, -⟩ := translateObj_rewrites h
  · exact hrw.held hh hv
  · exact hrw.held (s := s.addNode nd) hh hv

/-- **The loop keeps the books**, whatever the message. -/
theorem translate_sound {l : List (BitVec 32 × Outcome)}
    {r : Translated} (hs : s.Sound 0) (h : translate p t tp allowFds dataSize l s w = some r) :
    r.reg.Sound 0 ∧ (r.granted = true → s.Held → r.reg.Held) := by
  induction l generalizing s w r with
  | nil =>
    cases h
    exact ⟨hs, fun _ hh ↦ hh⟩
  | cons x l ih =>
    rw [translate] at h
    split at h
    · simp at h
    · grind [translateObj_sound, translateObj_held]
    · next w' granted u hu =>
      obtain ⟨r', hr', rfl⟩ := map_eq_some_iff.1 h
      obtain ⟨hsound, hheld⟩ := ih (translateObj_sound hs hu) hr'
      refine ⟨hsound, fun hg hh ↦ ?_⟩
      obtain ⟨hgranted, hrest⟩ := Bool.and_eq_true_iff.1 hg
      refine hheld hrest (translateObj_held hh hu fun w'' heq ↦ ?_)
      injection heq with _ heq
      cases hgranted.symm.trans heq

/-! ### Release -/

theorem releaseHandle_spec (hs : s.Sound debt) (h : s.releaseHandle p desc strong = some s') :
    s'.Sound debt ∧ (s.Held → s'.Held) := by
  unfold releaseHandle at h
  split at h
  · cases h
    exact ⟨hs, id⟩
  · exact ⟨hs.decRef h, fun hh ↦ hh.decRef h⟩

theorem releaseBinder_spec (hs : s.Sound 0)
    (h : s.releaseBinder p ptr strong = some s') : s'.Sound 0 ∧ (s.Held → s'.Held) := by
  unfold releaseBinder at h
  split at h
  · cases h
    exact ⟨hs, id⟩
  · have := hs.decNode h
    exact ⟨by simpa [internalCount] using this, fun hh ↦ hh.of_refs (decNode_refs h)⟩

theorem releaseObj_sound (hs : s.Sound 0) (h : s.releaseObj p failed dataSize w off = some s') :
    s'.Sound 0 ∧ (s.Held → s'.Held) := by
  unfold releaseObj at h
  by_cases hvalid : validOffset dataSize off = true
  · rw [if_pos hvalid] at h
    split at h
    · exact releaseBinder_spec hs h
    · exact releaseBinder_spec hs h
    · exact releaseHandle_spec hs h
    · exact releaseHandle_spec hs h
    · split_ifs at h <;> cases h
      · exact ⟨{ hs with }, id⟩
      · exact ⟨hs, id⟩
    · cases h
      exact ⟨hs, id⟩
  · grind

theorem releaseObjs_sound {offs : List (BitVec 32)}
    (hs : s.Sound 0) (h : releaseObjs p failed dataSize w offs s = some s') :
    s'.Sound 0 ∧ (s.Held → s'.Held) := by
  induction offs generalizing s with
  | nil =>
    cases h
    exact ⟨hs, id⟩
  | cons off offs ih =>
    obtain ⟨u, hu, hrest⟩ := bind_eq_some_iff.1 h
    obtain ⟨hsu, hheldu⟩ := releaseObj_sound hs hu
    obtain ⟨hs', hheld'⟩ := ih hsu hrest
    exact ⟨hs', hheld' ∘ hheldu⟩

/-- **The release of a buffer keeps the books**, whatever is in it. -/
theorem transactionBufferRelease_sound {targetNode : Option ℕ}
    {offs : List (BitVec 32)} (hs : s.Sound 0)
    (h : s.transactionBufferRelease p targetNode failed dataSize w offs = some s') :
    s'.Sound 0 ∧ (s.Held → s'.Held) := by
  cases targetNode with
  | none => exact releaseObjs_sound hs h
  | some n =>
    obtain ⟨u, hu, hrest⟩ := bind_eq_some_iff.1 h
    have hsu : u.Sound 0 := by simpa [internalCount] using hs.decNode hu
    obtain ⟨hs', hheld⟩ := releaseObjs_sound hsu hrest
    exact ⟨hs', fun hh ↦ hheld (hh.of_refs (decNode_refs hu))⟩

end Registry

end Binder
