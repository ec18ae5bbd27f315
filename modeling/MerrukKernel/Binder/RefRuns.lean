import MerrukKernel.Binder.Parcels
import Mathlib.Data.BitVec

/-!
# Reference counts over whole runs

The machine of `Objects` run from the empty registry. Three things are shown of the states it
reaches.

* Whatever the users of the driver do, `internal_strong_refs` is the number of references with a
  strong count, and a node is freed only without references and, while its owner lives, without
  local counts.
* As long as no refused count was ignored, every reference has a count.
* As long as the objects of every message lie apart, no pointer to a freed node is followed, and no
  node is freed while its owner has a count to confirm.

The second part is about what a message leaves behind. If its objects lie apart and its counts were
granted, then sending it and freeing its buffer, at whatever time, leaves no trace in any count; nor
does a transaction that fails. The receiver must not have given back what the buffer holds in the
meantime. The files that came with a delivered message stay open in the receiver.
-/

namespace Binder

open Ledger Registry Holding List Option World ObjType

/-- The objects of a message lie apart. -/
def RefOp.Separate : RefOp → Prop
  | .transaction _ _ _ m => m.offsets.Pairwise Apart
  | .reply _ _ _ _ m => m.offsets.Pairwise Apart
  | _ => True

/-- The operation is a transaction or a reply. -/
def RefOp.Sends : RefOp → Prop
  | .transaction _ _ _ _ => True
  | .reply _ _ _ _ _ => True
  | _ => False

variable {ops : List RefOp} {s : Option World}

namespace World

variable {w w' : World} {L : ℕ → List Holding} {n p t tp : ℕ} {op : RefOp}

/-! ### What holds whatever the users do -/

/-- An operation keeps the books of the internal references, and as long as no refusal is ignored
every reference keeps a count. -/
def Keeps (w w' : World) : Prop :=
  w'.reg.Sound 0 ∧ (w'.refused = false → w.refused = false ∧ (w.reg.Held → w'.reg.Held))

theorem Keeps.of_reg {reg : Registry} (hs : reg.Sound 0) (hh : w.reg.Held → reg.Held) :
    Keeps w { w with reg := reg } :=
  ⟨hs, fun h ↦ ⟨h, hh⟩⟩

theorem Keeps.refl (hs : w.reg.Sound 0) : Keeps w w := ⟨hs, fun h ↦ ⟨h, id⟩⟩

variable {m : Message} {memory strong : Bool} {targetNode : Option ℕ}

theorem deliver_keeps {r : Translated}
    (hs : r.reg.Sound 0) (hh : r.granted = true → w.reg.Held → r.reg.Held)
    (h : w.deliver tp targetNode m r = some w') : Keeps w w' := by
  have hflag : ∀ {b : Bool}, (w.refused || !b) = false → w.refused = false ∧ b = true := by
    intro b hb
    simpa using hb
  unfold deliver at h
  split_ifs at h
  · cases h
    exact ⟨hs, fun href ↦ ⟨(hflag href).1, hh (hflag href).2⟩⟩
  · obtain ⟨reg, hrel, rfl⟩ := map_eq_some_iff.1 h
    obtain ⟨hs', hh'⟩ := transactionBufferRelease_sound hs hrel
    exact ⟨hs', fun href ↦ ⟨(hflag href).1, fun hheld ↦ hh' (hh (hflag href).2 hheld)⟩⟩

theorem send_keeps {allowFds : Bool} (hs : w.reg.Sound 0)
    (h : w.send p t tp targetNode allowFds m = some w') : Keeps w w' := by
  unfold send at h
  by_cases hbuffer : m.buffer = false
  · rw [if_pos hbuffer] at h
    cases h
    exact .refl hs
  rw [if_neg hbuffer] at h
  obtain ⟨reg, hreg, h⟩ := bind_eq_some_iff.1 h
  obtain ⟨hsr, hhr⟩ : reg.Sound 0 ∧ (w.reg.Held → reg.Held) := by
    cases targetNode with
    | none =>
      cases hreg
      exact ⟨hs, id⟩
    | some n =>
      obtain ⟨⟨ok, u⟩, hu, rfl⟩ := map_eq_some_iff.1 hreg
      have := hs.incNode hu
      exact ⟨by simpa [internalCount] using this, fun hh ↦ hh.of_refs (incNode_refs hu)⟩
  split_ifs at h with hcopied
  · exact deliver_keeps hsr (fun _ ↦ hhr) h
  · obtain ⟨r, hr, h⟩ := bind_eq_some_iff.1 h
    obtain ⟨hst, hht⟩ := translate_sound hsr hr
    exact deliver_keeps hst (fun hg hh ↦ hht hg (hhr hh)) h

theorem transaction_keeps {handle : ℕ} (hs : w.reg.Sound 0)
    (h : w.transaction p t handle m = some w') : Keeps w w' := by
  unfold transaction at h
  split at h
  · cases h
    exact .refl hs
  · split at h
    · simp at h
    · split at h
      · cases h
        exact .refl hs
      · exact send_keeps hs h

/-- Only a node in use can be granted a reference to. -/
theorem grantRef_live {s s' : Registry} {target : Option Queue} {res : ℕ × Bool} (hs : s.Sound 0)
    (h : s.grantRef tp n strong memory target = some (some res, s')) :
    ∃ nd, s.nodes n = some nd := by
  obtain ⟨hres, -⟩ | ⟨d, u, hget, ok, -, hinc⟩ := grantRef_cases h
  · exact absurd hres (by simp)
  obtain ⟨rfl, r, hr, -, -, rfl⟩ | ⟨rfl, -⟩ := getRefForNode_cases hget
  · exact hs.live r hr
  · -- the first count of a new reference goes through the node
    have hhead : (s.addRef tp d n).getRef tp d = some { proc := tp, desc := d, node := n } := by
      simp [getRef, addRef, isRef]
    cases hn : s.nodes n with
    | some nd => exact ⟨nd, rfl⟩
    | none =>
      have hnone : (s.addRef tp d n).incNode n strong true target = none := by
        have : (s.addRef tp d n).nodes n = none := hn
        simp [incNode, this]
      have hcount : ({ proc := tp, desc := d, node := n } : Ref).count strong = 0 := by
        cases strong <;> rfl
      simp [incRef, hhead, hnone, hcount] at hinc

section

variable (hs : w.reg.Sound 0)
include hs

theorem incRefs_keeps {desc : ℕ} (h : w.incRefs p desc strong memory = some w') : Keeps w w' := by
  unfold incRefs at h
  split at h
  · split at h
    · next n _ d granted reg hgrant =>
      cases h
      obtain ⟨nd, hn⟩ := grantRef_live hs hgrant
      refine ⟨hs.grantRef hn hgrant, fun href ↦ ?_⟩
      obtain ⟨href, hgranted⟩ : w.refused = false ∧ granted = true := by simpa using href
      refine ⟨href, fun hh ↦ hh.grantRef hgrant fun d' hd' ↦ ?_⟩
      cases hd'
      exact absurd hgranted (by simp)
    · simp at h
  · split at h
    · cases h
      exact .refl hs
    · obtain ⟨⟨ok, reg⟩, hinc, rfl⟩ := map_eq_some_iff.1 h
      exact .of_reg (hs.incRef hinc) fun hh ↦ hh.incRef hinc

theorem refsDone_keeps {ptr cookie : BitVec 32}
    (h : w.refsDone p ptr cookie strong = some w') : Keeps w w' := by
  unfold refsDone at h
  split at h
  · cases h
    exact .refl hs
  · next n _ =>
    cases hn : w.reg.nodes n with
    | none => simp [hn] at h
    | some nd =>
      simp only [hn] at h
      split_ifs at h
      · cases h
        exact .refl hs
      · obtain ⟨reg, hdec, rfl⟩ := map_eq_some_iff.1 h
        have hset : Settled w.reg n (nd.setPending strong false) none
            (w.reg.setNode n (nd.setPending strong false)) := .write ..
        have hs₁ := hs.settled hn hset
        rw [(setPending_spec nd strong false).2.2.1, sub_self, Pi.single_zero] at hs₁
        have hs₂ := hs₁.decNode hdec
        have hrefs := decNode_refs hdec
        exact .of_reg (by simpa [internalCount] using hs₂) fun hh ↦ hh.of_refs hrefs

theorem setContextMgr_keeps (h : w.setContextMgr p memory = some w') : Keeps w w' := by
  unfold setContextMgr at h
  split_ifs at h
  · cases h
    exact .refl hs
  split at h
  · cases h
    exact .refl hs
  · next n reg hnew =>
    obtain ⟨rfl, nd, -, hborn, rfl⟩ := newNode_cases hnew
    have hn : (w.reg.addNode nd).nodes w.reg.nextNode = some nd := by simp [addNode_nodes]
    simp only [hn] at h
    cases h
    have hs₁ := (hs.addNode hborn).settled hn (.write _ _
      { (nd.count false false 1).count true false 1 with
        hasStrongRef := true, hasWeakRef := true } none)
    rw [show ({ (nd.count false false 1).count true false 1 with
        hasStrongRef := true, hasWeakRef := true } : Node).internalStrongRefs =
      nd.internalStrongRefs from rfl, sub_self, Pi.single_zero] at hs₁
    exact .of_reg { hs₁ with } id

theorem deferredRelease_keeps {threads : List ℕ}
    (h : w.deferredRelease p threads = some w') : Keeps w w' := by
  obtain ⟨hs₁, -, hrefs₁, -⟩ := releaseThreads_spec hs threads
  have hclosed := closeNodes_closed hs p threads
  obtain ⟨reg, hdel, rfl⟩ := map_eq_some_iff.1 h
  obtain ⟨hs₃, hh₃, -⟩ := deleteRefs_spec (hclosed.sound hs₁) hdel
  refine ⟨{ hs₃ with }, fun href ↦ ⟨href, fun hh ↦ hh₃ (hh.of_refs ?_)⟩⟩
  rw [hclosed.refs, hrefs₁]

/-- **Every operation keeps the books of the internal references.** -/
theorem step_keeps (h : w.step op = some w') : Keeps w w' := by
  cases op with
  | setContextMgr p memory => exact setContextMgr_keeps hs h
  | incRefs p desc strong memory => exact incRefs_keeps hs h
  | decRefs p desc strong =>
    obtain ⟨reg, hrel, rfl⟩ := map_eq_some_iff.1 h
    obtain ⟨hs', hh'⟩ := releaseHandle_spec hs hrel
    exact .of_reg hs' hh'
  | refsDone p ptr cookie strong => exact refsDone_keeps hs h
  | transaction p t handle m => exact transaction_keeps hs h
  | reply p t tp allowFds m => exact send_keeps hs h
  | freeBuffer id =>
    simp only [step, freeBuffer] at h
    split at h
    · cases h
      exact .refl hs
    · obtain ⟨reg, hrel, rfl⟩ := map_eq_some_iff.1 h
      obtain ⟨hs', hh'⟩ := transactionBufferRelease_sound hs hrel
      exact ⟨hs', fun href ↦ ⟨href, hh'⟩⟩
  | readNode n =>
    obtain ⟨nd, nd', -, hset, heq, -⟩ := readNode_cases h
    refine ⟨readNode_sound hs h, fun href ↦ ?_⟩
    rw [heq] at href
    exact ⟨href, fun hh ↦ hh.of_refs hset.refs⟩
  | threadExit t =>
    cases h
    exact .of_reg (hs.releaseWork _) id
  | deferredRelease p threads => exact deferredRelease_keeps hs h
  | setFile p fd f =>
    cases h
    exact .of_reg { hs with } id

end

theorem empty_sound : empty.reg.Sound 0 :=
  ⟨nodup_nil, by simp [empty], by simp [empty], by simp [empty],
    by simp [empty], by simp [empty]⟩

theorem runs_sound (h : refMachine.Runs (some empty) ops s) :
    ∀ w, s = some w → w.reg.Sound 0 ∧ (w.refused = false → w.reg.Held) := by
  refine h.invariant (I := fun s ↦ ∀ w, s = some w → w.reg.Sound 0 ∧
    (w.refused = false → w.reg.Held)) (fun s op hI _ w' hw' ↦ ?_) fun w hw ↦ ?_
  · cases s with
    | none => exact absurd hw' (by simp [refMachine])
    | some w =>
      obtain ⟨hs, hh⟩ := hI w rfl
      obtain ⟨hs', hk⟩ := step_keeps hs hw'
      exact ⟨hs', fun href ↦ (hk href).2 (hh (hk href).1)⟩
  · cases hw
    exact ⟨empty_sound, fun _ r hr ↦ absurd hr (by simp [empty])⟩

/-! ### Messages whose objects lie apart -/

end World

/-- The objects of a buffer that stand for a reference. -/
def Parcel.claims (b : Parcel) (desc : ℕ) (strong : Bool) : ℕ :=
  b.offsets.countP fun off ↦
    b.words (objAt off) = (ObjType.ref strong).code ∧ (b.words (objAt off + 2)).toNat = desc

/-- What the buffers of a process hold of one of its references. -/
def World.claimed (w : World) (p desc : ℕ) (strong : Bool) : ℤ :=
  total (fun b ↦ if b.proc = p then (b.claims desc strong : ℤ) else 0) w.parcels

/-- A process gives back a count of its own, not one that a buffer holds for it. -/
def RefOp.Fair (w : World) : RefOp → Prop
  | .decRefs p desc strong =>
    w.claimed p desc strong = 0 ∨ w.claimed p desc strong < w.reg.value (.ref p desc strong)
  | _ => True

namespace World

variable {w w' : World} {L : ℕ → List Holding} {n p t tp : ℕ} {op : RefOp} {b : Parcel}
  {fair : Prop}

/-- What the words of a buffer say it holds of a reference is what it holds. -/
theorem demand_ref {s : Registry} {H : List Holding} (hc : b.Carried s H) (p desc : ℕ) (st : Bool) :
    b.demand H (.ref p desc st) = if b.proc = p then (b.claims desc st : ℤ) else 0 := by
  have htarget : targetAmount b.targetNode (.ref p desc st) = 0 := by
    cases b.targetNode <;> simp [targetAmount]
  obtain ⟨hcarry, -⟩ := hc
  rw [Parcel.demand, Pi.add_apply, htarget, zero_add, Parcel.claims]
  generalize b.offsets = offs at hcarry
  induction hcarry with
  | nil => simp
  | @cons off h offs H hhead _ ih =>
    rw [amounts_cons, Pi.add_apply, ih, countP_cons]
    obtain ⟨-, hreads⟩ := hhead
    cases h with
    | node m st' =>
      have hcode : (ObjType.node st').code ≠ (ObjType.ref st).code := by
        cases st' <;> cases st <;> decide
      simp [amount, hreads.1, hcode]
    | file fd f =>
      have hcode : ObjType.fd.code ≠ (ObjType.ref st).code := by cases st <;> decide
      simp [amount, hreads.1, hcode]
    | ref d st' =>
      obtain ⟨hcode, hd⟩ := hreads
      have hst : (ObjType.ref st').code = (ObjType.ref st).code ↔ st' = st := by
        cases st' <;> cases st <;> decide
      by_cases hp : b.proc = p
      · subst hp
        by_cases hsame : st' = st ∧ d = desc
        · obtain ⟨rfl, rfl⟩ := hsame
          simp only [amount, hcode, hd, Pi.single_eq_same, and_self, decide_true, if_true]
          omega
        · have hne : Counter.ref b.proc desc st ≠ Counter.ref b.proc d st' := by
            intro heq
            injection heq with _ h2 h3
            exact hsame ⟨h3.symm, h2.symm⟩
          have hnot : ¬ (b.words (objAt off) = (ObjType.ref st).code ∧
              (b.words (objAt off + 2)).toNat = desc) := by grind
          simp [amount, hne, hnot]
      · have hne : Counter.ref p desc st ≠ Counter.ref b.proc d st' := by
          intro heq
          injection heq with h1
          exact hp h1.symm
        simp [amount, hne, hp]

/-- The references are covered: each has at least the counts that buffers hold of it. -/
def Covered (w : World) (L : ℕ → List Holding) : Prop :=
  ∀ q d st, w.demand L (.ref q d st) ≤ w.reg.value (.ref q d st)

theorem Booked.claimed_eq (hw : w.Booked L) (p desc : ℕ) (st : Bool) :
    w.claimed p desc st = w.demand L (.ref p desc st) :=
  total_congr fun b hb ↦ (demand_ref (hw.carried b hb) p desc st).symm

theorem demand_file (b : Parcel) (H : List Holding) {c : Counter} (hc : c.IsFile) :
    b.demand H c = 0 := by
  cases c with
  | node n st => exact absurd hc id
  | ref q d st => exact absurd hc id
  | file q fd f =>
    have htarget : targetAmount b.targetNode (.file q fd f) = 0 := by
      cases b.targetNode <;> simp [targetAmount]
    have hamounts : amounts b.proc false H (.file q fd f) = 0 := by
      induction H with
      | nil => rfl
      | cons h H ih =>
        rw [amounts_cons, Pi.add_apply, ih]
        cases h <;> simp [amount]
    rw [Parcel.demand, Pi.add_apply, htarget, hamounts, add_zero]

/-- A buffer in flight holds no more than there is. -/
theorem Booked.demand_le (hw : w.Booked L) (hcov : w.Covered L)
    (hb : b ∈ w.parcels) (c : Counter) : b.demand (L b.id) c ≤ w.reg.value c := by
  have hle := le_demand (L := L) hb c
  cases c with
  | ref q d st => exact hle.trans (hcov q d st)
  | node n st =>
    have hown : 0 ≤ w.reg.own n st := by
      unfold own
      cases w.reg.nodes n with
      | none => exact le_rfl
      | some nd => exact nd.own_nonneg _ st
    have := hw.backed.balance n st
    omega
  | file q fd f =>
    rw [demand_file b (L b.id) (c := .file q fd f) trivial]
    exact value_nonneg hw.backed _

/-- What an operation of the disciplined users does to the books. -/
structure Progress (w : World) (L : ℕ → List Holding) (fair : Prop) (w' : World)
    (L' : ℕ → List Holding) : Prop where
  booked : w'.Booked L'
  same : ∀ id < w.nextParcel, L' id = L id
  next : w.nextParcel ≤ w'.nextParcel
  old : ∀ b ∈ w'.parcels, b ∈ w.parcels ∨ w.nextParcel ≤ b.id
  refused : w'.refused = false → w.refused = false
  covered : fair → w'.refused = false → w.Covered L → w'.Covered L'

theorem Progress.of_refs (hb : w'.Booked L) (hnext : w'.nextParcel = w.nextParcel)
    (hparcels : w'.parcels = w.parcels) (href : w'.refused = false → w.refused = false)
    (hval : fair → ∀ q d st, w.demand L (.ref q d st) ≤ w.reg.value (.ref q d st) →
      w.demand L (.ref q d st) ≤ w'.reg.value (.ref q d st)) : w.Progress L fair w' L := by
  refine ⟨hb, fun _ _ ↦ rfl, hnext.ge, fun b hb ↦ .inl (hparcels ▸ hb), href,
    fun hfair _ hcov q d st ↦ ?_⟩
  have : w'.demand L (.ref q d st) = w.demand L (.ref q d st) := by rw [demand, hparcels, demand]
  rw [this]
  exact hval hfair q d st (hcov q d st)

theorem Sent.progress {L' : ℕ → List Holding} (hw : w.Booked L) (hb : w'.Booked L')
    (hsame : ∀ id < w.nextParcel, L' id = L id) (href : w'.refused = false → w.refused = false)
    (hsent : Sent w w' L') : w.Progress L fair w' L' := by
  have hold : ∀ c, total (fun b ↦ b.demand (L' b.id) c) w.parcels = w.demand L c := fun c ↦
    total_congr fun x hx ↦ by rw [hsame x.id (hw.ids x hx)]
  obtain ⟨hparcels, hnext, hval⟩ | ⟨b, hid, hparcels, hnext, hval⟩ := hsent
  · refine ⟨hb, hsame, hnext.ge, fun b hb ↦ .inl (hparcels ▸ hb), href, fun _ hr hcov q d st ↦ ?_⟩
    rw [demand, hparcels, hold, hval hr]
    exact hcov q d st
  · refine ⟨hb, hsame, by omega, fun x hx ↦ ?_, href, fun _ hr hcov q d st ↦ ?_⟩
    · grind
    have h1 := hval hr (.ref q d st) id
    have h2 := hcov q d st
    rw [demand, hparcels, total_cons, hold]
    omega

/-- Sending takes nothing, or what the new buffer holds. -/
theorem step_sends (hw : w.Booked L) (hsep : op.Separate) (hsends : op.Sends) :
    ∃ w' L', w.step op = some w' ∧ w'.Booked L' ∧ (∀ id < w.nextParcel, L' id = L id) ∧
      Sent w w' L' := by
  cases op with
  | transaction p t handle m =>
    simp only [step, transaction]
    cases htarget : w.target p handle with
    | none => exact ⟨w, L, rfl, hw, fun _ _ ↦ rfl, .inl ⟨rfl, rfl, fun _ ↦ rfl⟩⟩
    | some n =>
      -- the node named by the handle exists
      obtain ⟨nd, hn⟩ : ∃ nd, w.reg.nodes n = some nd := by
        unfold target at htarget
        split_ifs at htarget
        · grind [hw.backed.mgr]
        · obtain ⟨r, hr, rfl⟩ := map_eq_some_iff.1 htarget
          exact hw.sound.live r (getRef_spec hr).1
      simp only [hn]
      cases hp : nd.proc with
      | none => exact ⟨w, L, rfl, hw, fun _ _ ↦ rfl, .inl ⟨rfl, rfl, fun _ ↦ rfl⟩⟩
      | some tp =>
        have howner : ∀ n', some n = some n' → w.reg.owner n' = some tp := by
          intro n' h
          cases h
          simp [owner, hn, hp]
        exact send_booked hw howner hsep p t nd.acceptFds
  | reply p t tp allowFds m =>
    have howner : ∀ n, (none : Option ℕ) = some n → w.reg.owner n = some tp := by simp
    exact send_booked hw howner hsep p t allowFds
  | _ => exact absurd hsends (by simp [RefOp.Sends])

/-- **One operation** of users whose messages have their objects apart: it never follows a pointer
to a freed node, and it keeps the books. -/
theorem step_progress (hw : w.Booked L) (hguard : refMachine.guard (some w) op)
    (hsep : op.Separate) : ∃ w' L', w.step op = some w' ∧ w.Progress L (op.Fair w) w' L' := by
  cases op with
  | setContextMgr p memory =>
    obtain ⟨w', h, hb, hnext, hparcels, href, hrefs⟩ := setContextMgr_booked hw p memory
    refine ⟨w', L, h, .of_refs hb hnext hparcels (fun h ↦ href ▸ h) fun _ q d st hle ↦ ?_⟩
    rwa [value, hrefs]
  | incRefs p desc strong memory =>
    obtain ⟨w', h, hb, hnext, hparcels, href, hval⟩ := incRefs_booked hw strong hguard.1
    exact ⟨w', L, h, .of_refs hb hnext hparcels href fun _ q d st hle ↦ hle.trans (hval _)⟩
  | decRefs p desc strong =>
    obtain ⟨w', h, hb, hnext, hparcels, href, hval⟩ := decRefs_booked hw p desc strong
    refine ⟨w', L, h, .of_refs hb hnext hparcels (fun h ↦ href ▸ h) fun hfair q d st hle ↦ ?_⟩
    by_cases hc : Counter.ref q d st = Counter.ref p desc strong
    · -- the count given back is one that no buffer holds
      have hown : w.demand L (.ref p desc strong) = 0 ∨
          w.demand L (.ref p desc strong) < w.reg.value (.ref p desc strong) := by
            grind [RefOp.Fair, hw.claimed_eq]
      rw [hc, hval, Pi.sub_apply]
      rw [hc] at hle
      split_ifs with hzero
      · rw [Pi.single_eq_same]
        omega
      · rw [Pi.zero_apply]
        omega
    · rw [hval, Pi.sub_apply]
      split_ifs
      · rw [Pi.single_eq_of_ne hc]
        omega
      · rw [Pi.zero_apply]
        omega
  | refsDone p ptr cookie strong =>
    obtain ⟨w', h, hb, hnext, hparcels, href, hval⟩ := refsDone_booked hw p ptr cookie strong
    refine ⟨w', L, h, .of_refs hb hnext hparcels (fun h ↦ href ▸ h) fun _ q d st hle ↦ ?_⟩
    rwa [hval]
  | transaction _ _ _ _ | reply _ _ _ _ _ =>
    obtain ⟨w', L', h, hb, hsame, hsent⟩ := step_sends hw hsep trivial
    obtain ⟨-, hk⟩ := step_keeps hw.sound h
    exact ⟨w', L', h, hsent.progress hw hb hsame fun h ↦ (hk h).1⟩
  | freeBuffer id =>
    obtain ⟨w', h, hb, hnext, href, hsub, hcases⟩ := freeBuffer_booked hw id
    refine ⟨w', L, h, hb, fun _ _ ↦ rfl, hnext.ge, fun b hb ↦ .inl (hsub b hb), fun h ↦ href ▸ h,
      fun _ _ hcov q d st ↦ ?_⟩
    obtain ⟨-, rfl⟩ | ⟨b, hfind, hdemand, hval⟩ := hcases
    · exact hcov q d st
    · have hmem := mem_of_find?_eq_some hfind
      rw [hdemand, hval (hw.demand_le hcov hmem), Pi.sub_apply]
      have := hcov q d st
      omega
  | readNode n =>
    obtain ⟨w', h, hb, hnext, hparcels, href, hrefs⟩ := readNode_booked hw hguard.1
    refine ⟨w', L, h, .of_refs hb hnext hparcels (fun h ↦ href ▸ h) fun _ q d st hle ↦ ?_⟩
    rwa [value, hrefs]
  | threadExit t =>
    obtain ⟨hb, hev⟩ := hw.backed.releaseWork (.thread t)
    exact ⟨_, L, rfl, .of_refs (hw.of_reg rfl rfl (hw.sound.releaseWork _) hb hev) rfl rfl id
      fun _ _ _ _ h ↦ h⟩
  | deferredRelease p threads =>
    obtain ⟨w', h, hb, hnext, href, hparcels, hval⟩ := deferredRelease_booked hw p threads
    refine ⟨w', L, h, hb, fun _ _ ↦ rfl, hnext.ge,
      fun b hb ↦ .inl (mem_of_mem_filter (hparcels ▸ hb)), fun h ↦ href ▸ h,
      fun _ _ hcov q d st ↦ ?_⟩
    have hfilter : w'.demand L (.ref q d st) =
        total (fun b ↦ if b.proc ≠ p then b.demand (L b.id) (.ref q d st) else 0) w.parcels := by
      rw [demand, hparcels, total_filter]
      simp only [decide_eq_true_eq]
    by_cases hq : q = p
    · -- the buffers of the process are gone with it
      have hzero : w'.demand L (.ref q d st) = total (fun _ ↦ 0) w.parcels := by
        rw [hfilter]
        refine total_congr fun b hbm ↦ ?_
        split_ifs with hbp
        · rw [demand_ref (hw.carried b hbm), if_neg (hq ▸ hbp)]
        · rfl
      have hpos := value_nonneg hb.backed (.ref q d st)
      rw [hzero]
      simpa [total] using hpos
    · have hsame : w'.demand L (.ref q d st) = w.demand L (.ref q d st) := by
        rw [hfilter]
        refine total_congr fun b hbm ↦ ?_
        split_ifs with hbp
        · rfl
        · have hbq : b.proc ≠ q := fun h ↦ hq (h.symm.trans (not_not.1 hbp))
          rw [demand_ref (hw.carried b hbm), if_neg hbq]
      rw [hsame, hval q d st hq]
      exact hcov q d st
  | setFile p fd f =>
    have hs : (w.reg.setFile p fd f).Sound 0 := { hw.sound with }
    exact ⟨_, L, rfl, .of_refs (hw.of_reg rfl rfl hs (hw.backed.of_nodes rfl rfl rfl)
      (.of_nodes rfl rfl)) rfl rfl id fun _ _ _ _ h ↦ h⟩

theorem empty_booked : empty.Booked fun _ ↦ [] := by
  refine ⟨empty_sound, by simp [empty], nodup_nil, ?_, by simp [empty]⟩
  exact ⟨fun _ _ ↦ le_rfl, fun _ _ ↦ rfl, by simp [empty], by simp [empty],
    by simp [empty], by simp [empty], by simp [empty]⟩

theorem runs_booked
    (h : refMachine.Runs (some empty) ops s) (hsep : ∀ op ∈ ops, op.Separate) :
    ∃ w L, s = some w ∧ w.Booked L := by
  refine h.invariant_of_forall (I := fun s ↦ ∃ w L, s = some w ∧ w.Booked L)
    (fun s op hop hI hguard ↦ ?_) hsep ⟨_, _, rfl, empty_booked⟩
  obtain ⟨w, L, rfl, hw⟩ := hI
  obtain ⟨w', L', hstep, hp⟩ := step_progress hw hguard hop
  exact ⟨w', L', hstep, hp.booked⟩

end World

open World in
/-- **Reference counts.** In every state that a run reaches, `internal_strong_refs` of a node is the
number of its references with a strong count, a node was freed only without references and, unless
by the release of its own process, without local counts; and every reference has a count, as long as
no refused count was ignored.

If the objects of every message lay apart, then moreover the run did not end at a freed node, and no
node was freed while its owner, still there, had a count to confirm. -/
theorem refs_counted {ops : List RefOp} {s : Option World}
    (hrun : refMachine.Runs (some World.empty) ops s) :
    (∀ w, s = some w → (∀ n nd, w.reg.nodes n = some nd → nd.internalStrongRefs =
        (w.reg.refs.filter fun r ↦ r.node = n ∧ 0 < r.strong).length) ∧
      (∀ f ∈ w.reg.freed, f.refs = 0 ∧
        (f.closing = false → f.node.localStrongRefs = 0 ∧ f.node.localWeakRefs = 0)) ∧
      (w.refused = false → ∀ r ∈ w.reg.refs, 0 < r.strong + r.weak)) ∧
    ((∀ op ∈ ops, op.Separate) → ∃ w, s = some w ∧
      ∀ f ∈ w.reg.freed, f.closing = false → f.node.proc ≠ none →
        f.node.pendingStrongRef = false ∧ f.node.pendingWeakRef = false) := by
  refine ⟨fun w hw ↦ ?_, fun hsep ↦ ?_⟩
  · obtain ⟨hs, hheld⟩ := runs_sound hrun w hw
    refine ⟨fun n nd hn ↦ ?_, fun f hf ↦ ?_, hheld⟩
    · rw [hs.counted n nd hn, Pi.zero_apply, add_zero, total_eq_length_filter]
      exact fun r ↦ by simp [strongOf]
    · obtain ⟨hrefs, hlocals⟩ := hs.logged f hf
      exact ⟨hrefs, fun hc ↦ ⟨hlocals hc true, hlocals hc false⟩⟩
  · obtain ⟨w, L, hw, hb⟩ := runs_booked hrun hsep
    refine ⟨w, hw, fun f hf hc hp ↦ ?_⟩
    exact ⟨hb.backed.quiet f hf hc hp true, hb.backed.quiet f hf hc hp false⟩

/-- The data of one object, and where the driver is told to look for objects. -/
def objMessage (type : ObjType) (name : BitVec 32) (objects : List (BitVec 32 × Outcome)) :
    Message :=
  { dataSize := 16
    words := fun i ↦ if i = 0 then type.code else if i = 2 then name else 0
    objects := objects }

/-- A message with one object, the node `8` of the sender. -/
def nodeMessage : Message := objMessage .binder 8 [(0, {})]

/-- A process sends a node to the context manager, is told to take a reference and confirms it. -/
theorem refs_counted_sent : ∃ w, refMachine.final (some World.empty)
        [.setContextMgr 1 true, .transaction 2 0 0 nodeMessage, .readNode 1,
          .refsDone 2 8 0 false] = some w ∧
      (∀ n nd, w.reg.nodes n = some nd → nd.internalStrongRefs =
        (w.reg.refs.filter fun r ↦ r.node = n ∧ 0 < r.strong).length) ∧
      ∀ r ∈ w.reg.refs, 0 < r.strong + r.weak := by
  refine (refs_counted (Machine.Permitted.runs ?_)).elim fun hall hsep ↦ (hsep ?_).imp fun w hw ↦
    ⟨hw.1, (hall w hw.1).1, (hall w hw.1).2.2 ?_⟩
  · decide +kernel
  · simp [RefOp.Separate, Message.offsets, nodeMessage, objMessage]
  · exact Machine.of_map_eq hw.1 (by decide +kernel)

/-- The release of the context manager frees its node with the counts it has. -/
theorem closing_frees_counted_node :
    ∃ s w f, refMachine.Runs (some World.empty) [.setContextMgr 1 true, .deferredRelease 1 []] s ∧
      s = some w ∧ f ∈ w.reg.freed ∧ f.node.localStrongRefs = 1 ∧ f.node.localWeakRefs = 1 :=
  ⟨_, _, _, Machine.Permitted.runs (by decide +kernel), rfl, mem_cons_self, rfl, rfl⟩

/-! ### What a message leaves behind -/

/-- The machine with **disciplined users**: the objects of a message lie apart, and nobody gives
back what a buffer holds. -/
def fairMachine : Machine (Option World) RefOp where
  guard s op := refMachine.guard s op ∧ op.Separate ∧ ∀ w, s = some w → op.Fair w
  exec := refMachine.exec

namespace World

variable {w w' : World} {L : ℕ → List Holding} {op : RefOp}

/-- Over a disciplined run the holdings of a buffer stay what they are. -/
theorem runs_progress {s' : Option World} (h : fairMachine.Runs s ops s')
    (hs : s = some w) (hw : w.Booked L) (hcov : w.refused = false → w.Covered L) :
    ∃ w' L', s' = some w' ∧ w'.Booked L' ∧ (∀ id < w.nextParcel, L' id = L id) ∧
      (∀ b ∈ w'.parcels, b ∈ w.parcels ∨ w.nextParcel ≤ b.id) ∧
      (w'.refused = false → w.refused = false ∧ w'.Covered L') := by
  induction h generalizing w L with
  | nil s => exact ⟨w, L, hs, hw, fun _ _ ↦ rfl, fun b hb ↦ .inl hb, fun h ↦ ⟨h, hcov h⟩⟩
  | @cons s t op ops hguard hrest ih =>
    subst hs
    obtain ⟨hg, hsep, hfair⟩ := hguard
    obtain ⟨w₁, L₁, hstep, hp⟩ := step_progress hw hg hsep
    obtain ⟨w', L', ht, hw', hsame, hold, hcov'⟩ := ih hstep hp.booked
      fun href ↦ hp.covered (hfair w rfl) href (hcov (hp.refused href))
    refine ⟨w', L', ht, hw', fun id hid ↦ ?_, fun b hb ↦ ?_, fun href ↦ ?_⟩
    · rw [hsame id (hid.trans_le hp.next), hp.same id hid]
    · grind [hp.old, hp.next]
    · exact ⟨hp.refused (hcov' href).1, (hcov' href).2⟩

end World

open World in
/-- **Release undoes translation.** A transaction or a reply either leaves every counter as it
was, or it puts one buffer into flight. In that case, whenever that buffer is freed later on, what
sending and freeing have done to a count of a reference or of a node adds up to nothing, and
freeing leaves the files alone. -/
theorem release_undoes_translation {ops ops' : List RefOp} {op : RefOp} {w w₁ w₂ : World}
    {b : Parcel} (hrun : fairMachine.Runs (some World.empty) ops (some w))
    (hguard : fairMachine.guard (some w) op) (hsends : op.Sends) (hstep : w.step op = some w₁)
    (hrun' : fairMachine.Runs (some w₁) ops' (some w₂)) (hrefused : w₂.refused = false) :
    (w₁.nextParcel = w.nextParcel ∧ w₁.reg.value = w.reg.value) ∨
      (w₁.nextParcel = w.nextParcel + 1 ∧ (b ∈ w₂.parcels → b.id = w.nextParcel →
        ∃ w₃, w₂.freeBuffer b.id = some w₃ ∧ (∀ c, ¬ c.IsFile →
            (w₁.reg.value c - w.reg.value c) + (w₃.reg.value c - w₂.reg.value c) = 0) ∧
          ∀ c, c.IsFile → w₃.reg.value c = w₂.reg.value c)) := by
  obtain ⟨w', L, heq, hw, -, -, hcov⟩ := runs_progress hrun rfl empty_booked
    fun _ _ _ _ ↦ le_rfl
  cases heq
  obtain ⟨w', L₁, h, hw₁, hsame₁, hsent⟩ := step_sends hw hguard.2.1 hsends
  cases h.symm.trans hstep
  obtain ⟨-, hkeep⟩ := step_keeps hw.sound hstep
  have hprog : w.Progress L True w₁ L₁ := hsent.progress hw hw₁ hsame₁ fun h ↦ (hkeep h).1
  obtain ⟨w', L₂, heq, hw₂, hsame₂, hold₂, hcov₂⟩ := runs_progress hrun' rfl hw₁
    fun h ↦ hprog.covered trivial h (hcov (hkeep h).1).2
  cases heq
  obtain ⟨href₁, hcov₂⟩ := hcov₂ hrefused
  obtain ⟨-, hnext, hval⟩ | ⟨b₁, hid₁, hparcels, hnext, hval⟩ := hsent
  · exact .inl ⟨hnext, hval href₁⟩
  refine .inr ⟨hnext, fun hb hid ↦ ?_⟩
  -- the buffer is the one that was sent
  obtain rfl : b = b₁ := by
    rcases hold₂ b hb with hb | hb
    · rw [hparcels] at hb
      rcases mem_cons.1 hb with hb | hb
      · exact hb
      · exact absurd hid (Nat.ne_of_lt (hw.ids b hb))
    · omega
  obtain ⟨w₃, hfree, -, -, -, -, hcases⟩ := freeBuffer_booked hw₂ b.id
  obtain ⟨hnone, -⟩ | ⟨b', hfind, -, hval₃⟩ := hcases
  · exact absurd (List.find?_eq_none.1 hnone b hb) (by simp)
  obtain rfl : b' = b := by
    have hid' : b'.id = b.id := by simpa using List.find?_some hfind
    exact inj_on_of_nodup_map hw₂.unique (mem_of_find?_eq_some hfind) hb hid'
  have hval₃ := hval₃ (hw₂.demand_le hcov₂ hb)
  have hL : L₂ b'.id = L₁ b'.id := hsame₂ b'.id (by omega)
  rw [hL] at hval₃
  refine ⟨w₃, hfree, fun c hc ↦ ?_, fun c hc ↦ ?_⟩
  · rw [hval₃, hval href₁ c hc, Pi.sub_apply]
    omega
  · rw [hval₃, Pi.sub_apply, demand_file b' _ hc, sub_zero]

/-- A process sends a node to the context manager, which frees the buffer. -/
theorem release_undoes_translation_node :
    let w := (World.empty.step (.setContextMgr 1 true)).get (by decide)
    let w₁ := (w.step (.transaction 2 0 0 nodeMessage)).get (by decide +kernel)
    w₁.nextParcel = 1 ∧ ∃ w₃, w₁.freeBuffer 0 = some w₃ ∧ ∀ c, ¬ c.IsFile →
      (w₁.reg.value c - w.reg.value c) + (w₃.reg.value c - w₁.reg.value c) = 0 := by
  intro w w₁
  have hw₁ : w.step (.transaction 2 0 0 nodeMessage) = some w₁ := (some_get _).symm
  have hrun : fairMachine.Runs (some empty) [.setContextMgr 1 true] (some w) := by
    exact .cons ⟨by decide +kernel, trivial, fun _ _ ↦ trivial⟩ (.nil _)
  have hguard : fairMachine.guard (some w) (.transaction 2 0 0 nodeMessage) :=
    ⟨by decide +kernel, by simp [RefOp.Separate, Message.offsets, nodeMessage, objMessage],
      fun _ _ ↦ trivial⟩
  have hnext : w₁.nextParcel = 1 := by decide +kernel
  have hparcel : w₁.parcels.map (·.id) = [0] := by decide +kernel
  obtain ⟨b, hb, hid⟩ : ∃ b ∈ w₁.parcels, b.id = 0 := mem_map.1 (by simp [hparcel])
  have hzero : w.nextParcel = 0 := by decide +kernel
  obtain ⟨h, -⟩ | ⟨-, h⟩ := release_undoes_translation (b := b) hrun hguard trivial hw₁ (.nil _)
    (by decide +kernel)
  · omega
  · grind

/-- After `ops` a message is sent by `op`, and after `ops'` its buffer `id` is freed: what sending
and freeing have done to a counter adds up to this. -/
def residue (ops : List RefOp) (op : RefOp) (ops' : List RefOp) (id : ℕ) (c : Counter) : Option ℤ :=
  if refMachine.Permitted (some World.empty) (ops ++ op :: ops' ++ [.freeBuffer id]) then do
    let w ← refMachine.final (some World.empty) ops
    let w₁ ← w.step op
    let w₂ ← refMachine.final (some w₁) ops'
    let w₃ ← w₂.freeBuffer id
    return (w₁.reg.value c - w.reg.value c) + (w₃.reg.value c - w₂.reg.value c)
  else none

/-- **What is left of a message that was freed.** A file comes with a reply, and stays open. A
handle of the receiver's node is named by two offsets: the second time the object is the node
already, and both are released as the reference that it becomes then. The receiver gives back a
count before the buffer does. A count is refused, and the release gives back one that came later. -/
theorem delivery_leaves_residue :
    residue [.setContextMgr 1 true, .setFile 1 5 (some 9),
        .transaction 2 0 0 ⟨0, 0, [], true, true⟩, .freeBuffer 0]
      (.reply 1 0 2 true (objMessage .fd 5 [(0, { unusedFd := some 3 })])) [] 1
      (.file 2 3 9) = some 1 ∧
    residue [.setContextMgr 1 true, .incRefs 2 0 true true]
      (.transaction 2 0 0 (objMessage .handle 0 [(0, {}), (0, {})])) [] 0 (.node 0 true) = some 1 ∧
    residue [.setContextMgr 1 true] (.transaction 2 0 0 nodeMessage) [.decRefs 1 1 true] 0
      (.ref 1 1 true) = some 1 ∧
    residue [.setContextMgr 1 true, .reply 3 0 2 true (objMessage .weakBinder 8 [(0, {})])]
      (.reply 2 0 1 true (objMessage .handle 1 [(0, {})])) [.reply 3 0 1 true nodeMessage] 1
      (.ref 1 1 true) = some (-1) := by
  decide +kernel

end Binder
