import MerrukKernel.Binder.Holdings

/-!
# Release undoes translation

A **holding** is what the translation of one object took: a local count of a node, a count of a
reference, or an entry of the table of open files. It can be read off the rewritten object, and
that is what the release does.

For this to work the words must still be those that were written. Objects that lie apart do not
write into each other, so after the whole loop every one of them reads as what was taken for it
(`translate_holdings`). The release then gives back exactly that (`releaseObjs_holdings`), in the
failing transaction itself or at any later time at which the holdings are still backed.
-/

namespace Binder

open Ledger

/-- What the translation of an object takes. -/
inductive Holding
  | node (n : ℕ) (strong : Bool)
  | ref (desc : ℕ) (strong : Bool)
  | file (fd : BitVec 32) (f : ℕ)
  deriving DecidableEq, Repr

namespace Holding

/-- The holding as an amount of its counter, for process `tp`; `files` says whether files count. -/
def amount (tp : ℕ) (files : Bool) : Holding → Counter → ℤ
  | .node n strong => Pi.single (.node n strong) 1
  | .ref desc strong => Pi.single (.ref tp desc strong) 1
  | .file fd f => if files then Pi.single (.file tp fd f) 1 else 0

/-- All of a list of holdings. -/
def amounts (tp : ℕ) (files : Bool) (H : List Holding) : Counter → ℤ :=
  (H.map (amount tp files)).sum

section

variable (tp : ℕ) (files : Bool)

@[simp] theorem amounts_nil : amounts tp files [] = 0 := rfl

@[simp] theorem amounts_cons (h : Holding) (H : List Holding) :
    amounts tp files (h :: H) = h.amount tp files + amounts tp files H := by
  simp [amounts]

theorem amount_nonneg (h : Holding) (c : Counter) : 0 ≤ h.amount tp files c := by
  have hsingle : ∀ c', (0 : ℤ) ≤ Pi.single (M := fun _ ↦ ℤ) c' 1 c := by grind
  cases h with
  | node n st => exact hsingle _
  | ref d st => exact hsingle _
  | file fd f =>
    unfold amount
    split_ifs
    · exact hsingle _
    · exact le_rfl

theorem amounts_nonneg (H : List Holding) (c : Counter) : 0 ≤ amounts tp files H c := by
  induction H with
  | nil => exact le_rfl
  | cons h H ih =>
    exact add_nonneg (h.amount_nonneg tp files c) ih

end

/-- The object at word `i` stands for the holding. -/
def Reads (s : Registry) (tp : ℕ) (w : Words) (i : ℕ) : Holding → Prop
  | .node n strong => w i = (ObjType.node strong).code ∧
      ∃ nd, s.nodes n = some nd ∧ nd.name = (some tp, w (i + 2))
  | .ref desc strong => w i = (ObjType.ref strong).code ∧ (w (i + 2)).toNat = desc
  | .file fd _ => w i = ObjType.fd.code ∧ w (i + 2) = fd

end Holding

@[simp] theorem ObjType.ofCode_code (type : ObjType) : ObjType.ofCode type.code = some type := by
  cases type <;> decide

theorem putObj_apply (w : Words) (i : ℕ) (type : ObjType) (value cookie : BitVec 32) :
    putObj w i type value cookie i = type.code ∧ putObj w i type value cookie (i + 2) = value ∧
      ∀ j, j < i ∨ i + 4 ≤ j → putObj w i type value cookie j = w j := by
  refine ⟨by simp [putObj], by simp [putObj], fun j hj ↦ ?_⟩
  have h0 : j ≠ i := by omega
  have h2 : j ≠ i + 2 := by omega
  have h3 : j ≠ i + 3 := by omega
  simp [putObj, h0, h2, h3]

namespace Registry

open Holding

variable {s s' : Registry} {p t tp desc : ℕ} {strong : Bool} {r : Ref} {D : Counter → ℤ}
  {w w' : Words} {i : ℕ} {v : Verdict} {h : Holding} {H : List Holding}

/-! ### Counters of references -/

theorem Sound.value_ref {debt : ℕ → ℤ} (hs : s.Sound debt) (hr : s.getRef p desc = some r)
    (st : Bool) : s.value (.ref p desc st) = r.count st := by
  have hpair : s.refs.Pairwise fun x y ↦ ¬ (isRef p desc x = true ∧ isRef p desc y = true) := by
    refine (List.pairwise_map.1 hs.unique).imp fun {x y} hne hboth ↦ hne ?_
    simp only [isRef, decide_eq_true_eq] at hboth
    simp [refKey, hboth.1, hboth.2]
  have hname := List.find?_some hr
  show total (refAmount p desc st) s.refs = _
  rw [total_eq_of_unique (fun x hx ↦ by simp [refAmount, hx]) hpair hr, refAmount, if_pos hname]

theorem value_ref_none (hr : s.getRef p desc = none) (st : Bool) : s.value (.ref p desc st) = 0 :=
  total_eq_zero (fun x hx ↦ by simp [refAmount, hx]) hr

variable {fd : BitVec 32} {failed : Bool} {n : ℕ}

theorem setFile_value_of_none (hfd : s.files tp fd = none) (f : ℕ) :
    (s.setFile tp fd (some f)).value = s.value + Pi.single (.file tp fd f) 1 := by
  funext c
  cases c with
  | node n st => exact (add_zero _).symm
  | ref q d st => exact (add_zero _).symm
  | file q e g =>
    by_cases hq : q = tp ∧ e = fd
    · obtain ⟨rfl, rfl⟩ := hq
      by_cases hg : g = f
      · subst hg
        simp [value, setFile, hfd]
      · have hg' : ¬ f = g := fun h ↦ hg h.symm
        simp [value, setFile, hfd, hg, hg']
    · have hne : Counter.file q e g ≠ Counter.file tp fd f := by
        intro heq
        injection heq with h1 h2
        exact hq ⟨h1, h2⟩
      rw [Pi.add_apply, Pi.single_eq_of_ne hne, add_zero]
      have hsame : (s.setFile tp fd (some f)).files q e = s.files q e := by
        by_cases hqt : q = tp
        · subst hqt
          have he : e ≠ fd := fun he ↦ hq ⟨rfl, he⟩
          simp [setFile, he]
        · simp [setFile, hqt]
      simp only [value, hsame]

theorem setFile_value_of_some {f : ℕ} (hfd : s.files tp fd = some f) :
    (s.setFile tp fd none).value = s.value - Pi.single (.file tp fd f) 1 := by
  have hnone : (s.setFile tp fd none).files tp fd = none := by simp [setFile]
  have hback : (s.setFile tp fd none).setFile tp fd (some f) = s := by
    simp [setFile, ← hfd]
  have := setFile_value_of_none hnone f
  rw [hback] at this
  rw [this, add_sub_cancel_right]

/-! ### One object -/

/-- What a round took can be read off the words it wrote. -/
theorem Rewrites.holding (hs : s.Sound 0) (hb : s.Backed D) {granted : Bool}
    (hrw : Rewrites s tp w i (.done w' granted) s') :
    ∃ h : Holding, s'.Backed (D + h.amount tp true) ∧ Evolves s s' ∧
      (granted = true → s'.value = s.value + h.amount tp true) ∧ h.Reads s' tp w' i ∧
      ∀ j, j < i ∨ i + 4 ≤ j → w' j = w j := by
  cases hrw with
  | @handle n nd strong memory granted target d s' hn ht hgrant =>
    obtain ⟨hcode, hvalue, hrest⟩ := putObj_apply w i (.ref strong) (BitVec.ofNat 32 d) (w (i + 3))
    obtain ⟨hb', hev⟩ := hb.grantRef hs hn ht hgrant
    obtain ⟨hlt, hval⟩ := grantRef_value hs hgrant
    refine ⟨.ref d strong, hb'.congr fun m st ↦ by simp [amount], hev, fun hg ↦ ?_, ⟨hcode, ?_⟩,
      hrest⟩
    · rw [hval, if_pos hg]
      rfl
    · rw [hvalue, BitVec.toNat_ofNat, Nat.mod_eq_of_lt hlt]
  | @binder n nd strong ok s' hn hp hinc =>
    obtain ⟨hcode, hvalue, hrest⟩ := putObj_apply w i (.node strong) nd.ptr nd.cookie
    obtain ⟨hb', hev⟩ := hb.incNode hn (fun _ ↦ by simp [hp]) (fun h ↦ absurd h (by simp [hp])) hinc
    have hheld : 0 < (D + nodeCount n strong false) (.node n strong) := by
      have := hb.nonneg n strong
      simp [nodeCount]
      omega
    obtain ⟨nd', hn', hp'⟩ := hb'.held_node hheld
    obtain ⟨_, hn₀, hname⟩ := hev.2 n nd' hn' (hs.fresh n nd hn)
    cases hn.symm.trans hn₀
    refine ⟨.node n strong, hb', hev, fun _ ↦ ?_, ⟨hcode, nd', hn', ?_⟩, hrest⟩
    · simpa [nodeCount, amount] using incNode_value hinc
    · rw [hvalue, hname hp', Node.name, hp]
  | @fd fd f hfd =>
    obtain ⟨hcode, hvalue, hrest⟩ := putObj_apply w i .fd fd (w (i + 3))
    refine ⟨.file fd f, ?_, .of_nodes rfl rfl, fun _ ↦ ?_, ⟨hcode, hvalue⟩, hrest⟩
    · have hset : (s.setFile tp fd (some f)).Backed D := hb.of_nodes rfl rfl rfl
      exact hset.congr fun m st ↦ by simp [amount]
    · simpa [amount] using setFile_value_of_none hfd f

variable {dataSize : ℕ} {off : BitVec 32} {files : Bool} {offs : List (BitVec 32)}

theorem releaseObj_node (hvalid : validOffset dataSize off = true)
    (hcode : w (objAt off) = (ObjType.node strong).code) :
    s.releaseObj tp failed dataSize w off = s.releaseBinder tp (w (objAt off + 2)) strong := by
  cases strong <;> simp [releaseObj, hvalid, hcode, ObjType.node]

theorem releaseObj_ref (hvalid : validOffset dataSize off = true)
    (hcode : w (objAt off) = (ObjType.ref strong).code) : s.releaseObj tp failed dataSize w off =
      s.releaseHandle tp (w (objAt off + 2)).toNat strong := by
  cases strong <;> simp [releaseObj, hvalid, hcode, ObjType.ref]

theorem releaseBinder_holding {nd : Node} (hs : s.Sound 0)
    (hb : s.Backed (D + Pi.single (.node n strong) 1)) (hD : ∀ m st, 0 ≤ D (.node m st))
    (hn : s.nodes n = some nd) {ptr : BitVec 32} (hname : nd.name = (some tp, ptr)) :
    ∃ s', s.releaseBinder tp ptr strong = some s' ∧ s'.Backed D ∧ Evolves s s' ∧
      s'.value = s.value - Pi.single (.node n strong) 1 := by
  -- the name leads to the node that was counted
  obtain ⟨m, hm⟩ := getNode_isSome hs hn hname
  obtain ⟨md, hmd, hmname⟩ := getNode_spec hm
  have hp : nd.proc ≠ none := by
    rw [(Prod.mk.inj hname).1]
    simp
  obtain rfl : m = n := hb.names m n md nd hmd hn hp (hmname.trans hname.symm)
  obtain ⟨s', hdec⟩ := decNode_isSome hmd strong false
  have hpos : 0 < (D + Pi.single (.node m strong) 1 : Counter → ℤ) (.node m strong) := by
    grind [Pi.add_apply]
  obtain ⟨hb', hev⟩ := hb.decNode (fun _ ↦ hpos) hdec
  have hcount : nodeCount m strong false = Pi.single (.node m strong) 1 := rfl
  rw [hcount, add_sub_cancel_right] at hb'
  exact ⟨s', by simp only [releaseBinder, hm, hdec], hb', hev, decNode_value hdec⟩

theorem releaseHandle_holding (hs : s.Sound 0) (hb : s.Backed D) (p desc : ℕ) (strong : Bool) :
    ∃ s', s.releaseHandle p desc strong = some s' ∧ s'.Backed D ∧ Evolves s s' ∧
      s'.value = s.value -
        if 0 < s.value (.ref p desc strong) then Pi.single (.ref p desc strong) 1 else 0 := by
  cases hr : s.getRef p desc with
  | none =>
    refine ⟨s, by simp [releaseHandle, hr], hb, .refl s, ?_⟩
    simp [value_ref_none hr]
  | some r =>
    obtain ⟨s', hdec⟩ := decRef_isSome hs hr strong
    obtain ⟨hb', hev⟩ := hb.decRef hdec
    refine ⟨s', by simp [releaseHandle, hr, hdec], hb', hev, ?_⟩
    rw [decRef_value hr hdec, hs.value_ref hr]
    by_cases hzero : r.count strong = 0
    · simp [hzero]
    · grind

/-- **The release of one object** gives back what it reads. -/
theorem releaseObj_holding (hs : s.Sound 0)
    (hb : s.Backed (D + h.amount tp files)) (hD : ∀ n st, 0 ≤ D (.node n st))
    (hvalid : validOffset dataSize off = true) (hreads : h.Reads s tp w (objAt off))
    (failed : Bool) : ∃ s', s.releaseObj tp failed dataSize w off = some s' ∧
    s'.Backed D ∧ Evolves s s' ∧
      ((∀ c, h.amount tp failed c ≤ s.value c) → s'.value = s.value - h.amount tp failed) := by
  cases h with
  | node n st =>
    obtain ⟨hcode, nd, hn, hname⟩ := hreads
    obtain ⟨s', hrel, hb', hev, hval⟩ := releaseBinder_holding hs hb hD hn hname
    exact ⟨s', by rw [releaseObj_node hvalid hcode, hrel], hb', hev, fun _ ↦ hval⟩
  | ref d st =>
    obtain ⟨hcode, rfl⟩ := hreads
    have hb₀ : s.Backed D := hb.congr fun n st ↦ by simp [amount]
    obtain ⟨s', hrel, hb', hev, hval⟩ :=
      releaseHandle_holding hs hb₀ tp (w (objAt off + 2)).toNat st
    refine ⟨s', by rw [releaseObj_ref hvalid hcode, hrel], hb', hev, fun hcov ↦ ?_⟩
    have hpos := hcov (.ref tp (w (objAt off + 2)).toNat st)
    rw [amount, Pi.single_eq_same] at hpos
    rw [hval, if_pos (by omega), amount]
  | file fd f =>
    obtain ⟨hcode, rfl⟩ := hreads
    have hb₀ : s.Backed D := hb.congr fun n st ↦ by cases files <;> simp [amount]
    have hrel : s.releaseObj tp failed dataSize w off =
        if failed then some (s.setFile tp (w (objAt off + 2)) none) else some s := by
      simp [releaseObj, hvalid, hcode]
    cases failed with
    | false => exact ⟨s, hrel, hb₀, .refl s, fun _ ↦ by simp [amount]⟩
    | true =>
      refine ⟨_, hrel, hb₀.of_nodes rfl rfl rfl, .of_nodes rfl rfl, fun hcov ↦ ?_⟩
      have hpos := hcov (.file tp (w (objAt off + 2)) f)
      have hfile : s.files tp (w (objAt off + 2)) = some f := by
        by_contra hne
        simp [amount, value, hne] at hpos
      exact setFile_value_of_some hfile

/-! ### All objects -/

/-- The objects at the offsets read as the holdings, one by one. -/
def Carries (s : Registry) (tp dataSize : ℕ) (w : Words) : List (BitVec 32) → List Holding → Prop :=
  List.Forall₂ fun off h ↦ validOffset dataSize off = true ∧ h.Reads s tp w (objAt off)

theorem reads_evolves (hr : h.Reads s tp w i) (hs : s.Sound 0) (hev : Evolves s s')
    (hb : s'.Backed D) (hh : ∀ n st, h = .node n st → 0 < D (.node n st)) :
    h.Reads s' tp w i := by
  cases h with
  | node n st =>
    obtain ⟨hcode, nd, hn, hname⟩ := hr
    obtain ⟨nd', hn', hp⟩ := hb.held_node (hh n st rfl)
    obtain ⟨nd₀, hn₀, heq⟩ := hev.2 n nd' hn' (hs.fresh n nd hn)
    rw [hn] at hn₀
    cases hn₀
    exact ⟨hcode, nd', hn', (heq hp).trans hname⟩
  | ref d st => exact hr
  | file fd f => exact hr

theorem amounts_pos {st : Bool} (hmem : Holding.node n st ∈ H) :
    0 < amounts tp files H (.node n st) := by
  induction H with
  | nil => simp at hmem
  | cons h H ih =>
    rw [amounts_cons, Pi.add_apply]
    have h1 := h.amount_nonneg tp files (.node n st)
    have h2 := amounts_nonneg tp files H (.node n st)
    rcases List.mem_cons.1 hmem with rfl | hmem
    · have : (Holding.node n st).amount tp files (.node n st) = 1 := by simp [amount]
      omega
    · have := ih hmem
      omega

section

variable (hc : Carries s tp dataSize w offs H)
include hc

theorem Carries.imp
    (himp : ∀ off ∈ offs, ∀ h ∈ H, h.Reads s tp w (objAt off) → h.Reads s' tp w' (objAt off)) :
    Carries s' tp dataSize w' offs H := by
  induction hc with
  | nil => exact .nil
  | cons hhead _ ih =>
    refine .cons ⟨hhead.1, himp _ (by simp) _ (by simp) hhead.2⟩ (ih fun off hoff h hh ↦ ?_)
    exact himp off (by simp [hoff]) h (by simp [hh])

theorem Carries.evolves (hs : s.Sound 0) (hev : Evolves s s') (hb : s'.Backed D)
    (hD : ∀ n st, Holding.node n st ∈ H → 0 < D (.node n st)) :
    Carries s' tp dataSize w offs H := by
  refine hc.imp fun off _ h hh hr ↦ reads_evolves hr hs hev hb fun n st hnode ↦ ?_
  exact hD n st (hnode ▸ hh)

/-- **The release of a buffer** gives back what its objects read, all of it if it is still there. -/
theorem releaseObjs_holdings (hs : s.Sound 0)
    (hb : s.Backed (D + amounts tp files H)) (hD : ∀ n st, 0 ≤ D (.node n st)) (failed : Bool) :
    ∃ s', releaseObjs tp failed dataSize w offs s = some s' ∧ s'.Backed D ∧ Evolves s s' ∧
      ((∀ c, amounts tp failed H c ≤ s.value c) → s'.value = s.value - amounts tp failed H) := by
  induction offs generalizing s H with
  | nil =>
    obtain rfl := List.forall₂_nil_left_iff.1 hc
    exact ⟨s, rfl, by simpa using hb, .refl s, fun _ ↦ by simp⟩
  | cons off offs ih =>
    obtain ⟨h, H, ⟨hvalid, hreads⟩, hrest, rfl⟩ := List.forall₂_cons_left_iff.1 hc
    have hD' : ∀ n st, 0 ≤ (D + amounts tp files H) (.node n st) := fun n st ↦
      add_nonneg (hD n st) (amounts_nonneg tp files H _)
    have hb₁ : s.Backed ((D + amounts tp files H) + h.amount tp files) := by
      rw [amounts_cons, ← add_assoc, add_right_comm] at hb
      exact hb
    obtain ⟨u, hu, hbu, hevu, hvalu⟩ :=
      releaseObj_holding hs hb₁ hD' hvalid hreads failed
    obtain ⟨hsu, -⟩ := releaseObj_sound hs hu
    have hcu : Carries u tp dataSize w offs H := by
      refine Carries.evolves hrest hs hevu hbu fun n st hmem ↦ ?_
      exact add_pos_of_nonneg_of_pos (hD n st) (amounts_pos hmem)
    obtain ⟨s', hs', hb', hev', hval'⟩ := ih hcu hsu hbu
    refine ⟨s', by rw [releaseObjs, hu, Option.bind_some, hs'], hb', hevu.trans hev', fun hcov ↦ ?_⟩
    have hsplit : ∀ c, h.amount tp failed c + amounts tp failed H c ≤ s.value c := by
      intro c
      have := hcov c
      rwa [amounts_cons] at this
    have hu' := hvalu fun c ↦ by
      have h1 := hsplit c
      have h2 := amounts_nonneg tp failed H c
      omega
    have hrest' : ∀ c, amounts tp failed H c ≤ u.value c := by
      intro c
      have h1 := hsplit c
      rw [hu', Pi.sub_apply]
      omega
    rw [hval' hrest', hu', amounts_cons, sub_sub]

end

/-- Two objects have no word in common. -/
def Apart (off off' : BitVec 32) : Prop :=
  off.toNat + 16 ≤ off'.toNat ∨ off'.toNat + 16 ≤ off.toNat
deriving Decidable

theorem Apart.objAt {off' : BitVec 32} (h : Apart off off') :
    Binder.objAt off + 4 ≤ Binder.objAt off' ∨ Binder.objAt off' + 4 ≤ Binder.objAt off := by
  unfold Apart at h
  unfold Binder.objAt
  omega

/-- **The translation of a message whose objects lie apart.** After the loop, every object that was
translated reads as what was taken for it. -/
theorem translate_holdings {allowFds : Bool} {l : List (BitVec 32 × Outcome)}
    {r : Translated} (hs : s.Sound 0) (hb : s.Backed D) (hsep : (l.map (·.1)).Pairwise Apart)
    (h : translate p t tp allowFds dataSize l s w = some r) :
    ∃ H, r.reg.Backed (D + amounts tp true H) ∧ Evolves s r.reg ∧
      Carries r.reg tp dataSize r.words ((l.map (·.1)).take r.done) H ∧
      (r.granted = true → r.reg.value = s.value + amounts tp true H) ∧
      (∀ j, (∀ off ∈ (l.map (·.1)).take r.done, j < objAt off ∨ objAt off + 4 ≤ j) →
        r.words j = w j) ∧ (r.ok = true → r.done = l.length) := by
  induction l generalizing s w r D with
  | nil =>
    cases h
    exact ⟨[], by simpa using hb, .refl s, .nil, fun _ ↦ by simp, fun _ _ ↦ rfl, fun _ ↦ rfl⟩
  | cons x l ih =>
    obtain ⟨off, o⟩ := x
    rw [translate] at h
    obtain ⟨hoff, hsep⟩ := List.pairwise_cons.1 hsep
    replace hoff : ∀ off' ∈ l.map (·.1), Apart off off' := hoff
    split at h
    · simp at h
    · next u hu =>
      -- the object fails: what is left is perhaps a new node
      cases h
      obtain ⟨⟨u', hu', hrw⟩, -⟩ := translateObj_rewrites hu
      cases hrw
      rcases hu' with rfl | ⟨nd, hnew, rfl⟩
      · exact ⟨[], by simpa using hb, .refl _, .nil, fun _ ↦ by simp, fun _ _ ↦ rfl,
          fun hok ↦ absurd hok (by simp)⟩
      · obtain ⟨hb', hev⟩ := hb.addNode hs hnew
        exact ⟨[], by simpa using hb', hev, .nil, fun _ ↦ by simp [addNode_value hs hnew],
          fun _ _ ↦ rfl, fun hok ↦ absurd hok (by simp)⟩
    · next w₁ granted u hu =>
      obtain ⟨r', hr', rfl⟩ := Option.map_eq_some_iff.1 h
      have hsu := translateObj_sound hs hu
      obtain ⟨⟨u', hu', hrw⟩, hvalid⟩ := translateObj_rewrites hu
      replace hvalid : validOffset dataSize off = true := by simpa using hvalid
      -- the first object, with the node made for it if there was none
      obtain ⟨hs', hb', hev', hval'⟩ : u'.Sound 0 ∧ u'.Backed D ∧ Evolves s u' ∧
          u'.value = s.value := by
        rcases hu' with rfl | ⟨nd, hnew, rfl⟩
        · exact ⟨hs, hb, .refl _, rfl⟩
        · obtain ⟨hb', hev⟩ := hb.addNode hs hnew
          exact ⟨hs.addNode hnew, hb', hev, addNode_value hs hnew⟩
      obtain ⟨hold, hbu, hevu, hvalu, hreads, hwords⟩ := hrw.holding hs' hb'
      obtain ⟨H, hbr, hevr, hcarry, hvalr, hwordsr, hok⟩ := ih hsu hbu hsep hr'
      have hbr' : r'.reg.Backed (D + amounts tp true (hold :: H)) := by
        rw [amounts_cons, ← add_assoc]
        exact hbr
      -- the later objects wrote elsewhere
      have hsame : ∀ j, objAt off ≤ j → j < objAt off + 4 → r'.words j = w₁ j := by
        intro j h1 h2
        refine hwordsr j fun off' hoff' ↦ ?_
        have := (hoff off' (List.mem_of_mem_take hoff')).objAt
        omega
      have hreads' : hold.Reads r'.reg tp r'.words (objAt off) := by
        have h0 := hsame (objAt off) (by omega) (by omega)
        have h2 := hsame (objAt off + 2) (by omega) (by omega)
        have hpos : ∀ n st, hold = .node n st →
            0 < (D + amounts tp true (hold :: H)) (.node n st) := by
          intro n st hnode
          have h1 := hb.nonneg n st
          have h2 : 0 < amounts tp true (hold :: H) (.node n st) := amounts_pos (by simp [hnode])
          rw [Pi.add_apply]
          omega
        have := reads_evolves hreads hsu hevr hbr' hpos
        cases hold <;> simpa only [Holding.Reads, h0, h2] using this
      refine ⟨hold :: H, hbr', hev'.trans (hevu.trans hevr), ?_, fun hg ↦ ?_, fun j hj ↦ ?_,
        fun h ↦ by simpa using hok h⟩
      · exact .cons ⟨hvalid, hreads'⟩ hcarry
      · obtain ⟨hg₁, hg₂⟩ := Bool.and_eq_true_iff.1 hg
        rw [hvalr hg₂, hvalu hg₁, hval', amounts_cons, add_assoc]
      · grind

/-! ### Nothing freed is followed -/

theorem translateObj_isSome (hs : s.Sound 0) (p t tp : ℕ) (allowFds : Bool) (dataSize : ℕ)
    (w : Words) (off : BitVec 32) (o : Outcome) :
    ∃ u, s.translateObj p t tp allowFds dataSize w off o = some u := by
  have hbinder : ∀ (strong : Bool) (i : ℕ),
      ∃ u, s.translateBinder p t tp strong w i o = some u := by
    intro strong i
    unfold translateBinder
    cases hget : s.getOrNewNode p (w (i + 2)) (w (i + 3)) (w (i + 1)) o.nodeMemory with
    | none => exact ⟨_, rfl⟩
    | some u =>
      obtain ⟨n, u⟩ := u
      obtain ⟨hsu, nd, hn⟩ : u.Sound 0 ∧ ∃ nd, u.nodes n = some nd := by
        unfold getOrNewNode at hget
        split at hget
        · grind [getNode_spec]
        · obtain ⟨rfl, nd, -, hnew, rfl⟩ := newNode_cases hget
          exact ⟨hs.addNode hnew, nd, by simp [addNode_nodes]⟩
      obtain ⟨v, hv⟩ := grantRef_isSome hsu hn tp strong o.refMemory (some (.thread t))
      simp only [hn, hv]
      split_ifs <;> exact ⟨_, rfl⟩
  have hhandle : ∀ (strong : Bool) (i : ℕ), ∃ u, s.translateHandle p tp strong w i o = some u := by
    intro strong i
    unfold translateHandle
    cases hr : s.getRef p (w (i + 2)).toNat with
    | none => exact ⟨_, rfl⟩
    | some r =>
      obtain ⟨nd, hn⟩ := hs.live r (getRef_spec hr).1
      obtain ⟨v, hv⟩ := grantRef_isSome hs hn tp strong o.refMemory none
      obtain ⟨v', hv'⟩ := incNode_isSome hn strong false none
      simp only [hn, hv, hv']
      split_ifs <;> exact ⟨_, rfl⟩
  unfold translateObj
  by_cases hvalid : validOffset dataSize off = true
  · rw [if_pos hvalid]
    split
    · exact hbinder _ _
    · exact hbinder _ _
    · exact hhandle _ _
    · exact hhandle _ _
    · exact ⟨_, rfl⟩
    · exact ⟨_, rfl⟩
  · rw [if_neg hvalid]
    exact ⟨_, rfl⟩

theorem translate_isSome (hs : s.Sound 0) (p t tp : ℕ) (allowFds : Bool) (dataSize : ℕ)
    (l : List (BitVec 32 × Outcome)) (w : Words) :
    ∃ r, translate p t tp allowFds dataSize l s w = some r := by
  induction l generalizing s w with
  | nil => exact ⟨_, rfl⟩
  | cons x l ih =>
    obtain ⟨⟨v, u⟩, hu⟩ := translateObj_isSome hs p t tp allowFds dataSize w x.1 x.2
    have hsu := translateObj_sound hs hu
    rw [translate, hu]
    cases v with
    | failed => exact ⟨_, rfl⟩
    | done w' granted =>
      obtain ⟨r, hr⟩ := ih hsu w'
      simp only [hr]
      exact ⟨_, rfl⟩

end Registry

end Binder
