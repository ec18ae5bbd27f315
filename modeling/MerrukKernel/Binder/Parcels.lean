import MerrukKernel.Binder.RefSteps

/-!
# Buffers in flight

The books of a whole `World`. To every buffer in flight belongs the list of what its translation
took; the list is not part of the driver's state, but the words of the buffer read as it
(`Parcel.Carried`). `Booked w L` says that the local counts of the nodes are backed by exactly
these lists.

The step lemmas say how an operation changes the lists: sending adds one, freeing a buffer drops
one, the release of a process drops those of its own buffers, and nothing else touches any.
-/

namespace Binder

open Ledger Registry Holding Function List Option

/-- The count that a buffer has on its target. -/
def targetAmount (targetNode : Option ℕ) : Counter → ℤ :=
  match targetNode with
  | none => 0
  | some n => Pi.single (.node n true) 1

theorem targetAmount_nonneg (targetNode : Option ℕ) (c : Counter) :
    0 ≤ targetAmount targetNode c := by
  cases targetNode with
  | none => exact le_rfl
  | some n => exact (Holding.node n true).amount_nonneg 0 true c

namespace Parcel

/-- What a buffer holds, given what its objects read. -/
def demand (b : Parcel) (H : List Holding) : Counter → ℤ :=
  targetAmount b.targetNode + amounts b.proc false H

/-- The objects of the buffer read as the holdings, and its target belongs to its receiver. -/
def Carried (s : Registry) (b : Parcel) (H : List Holding) : Prop :=
  Carries s b.proc b.dataSize b.words b.offsets H ∧
    ∀ n, b.targetNode = some n → s.owner n = some b.proc

variable {s s' : Registry} {b : Parcel} {H : List Holding} {D : Counter → ℤ}

theorem demand_nonneg (b : Parcel) (H : List Holding) (c : Counter) : 0 ≤ b.demand H c :=
  add_nonneg (targetAmount_nonneg _ c) (amounts_nonneg _ _ H c)

theorem owner_evolves {n p : ℕ} (howner : s.owner n = some p) (hs : s.Sound 0)
    (hev : Evolves s s') (hb : s'.Backed D) (st : Bool) (hpos : 0 < D (.node n st)) :
    s'.owner n = some p := by
  obtain ⟨nd, hn, hp⟩ := bind_eq_some_iff.1 howner
  obtain ⟨nd', hn', hp'⟩ := hb.held_node hpos
  obtain ⟨nd₀, hn₀, heq⟩ := hev.2 n nd' hn' (hs.fresh n nd hn)
  rw [hn] at hn₀
  cases hn₀
  simp only [owner, hn', bind_some, (Prod.mk.inj (heq hp')).1, hp]

theorem Carried.evolves (hc : Carried s b H) (hs : s.Sound 0) (hev : Evolves s s')
    (hb : s'.Backed D) (hD : ∀ c, b.demand H c ≤ D c) : Carried s' b H := by
  refine ⟨hc.1.evolves hs hev hb fun n st hmem ↦ ?_, fun n hn ↦ ?_⟩
  · have h1 := hD (.node n st)
    have h2 : 0 < amounts b.proc false H (.node n st) := amounts_pos hmem
    have h3 := targetAmount_nonneg b.targetNode (.node n st)
    rw [demand, Pi.add_apply] at h1
    omega
  · refine owner_evolves (hc.2 n hn) hs hev hb true ?_
    have h1 := hD (.node n true)
    have h2 := amounts_nonneg b.proc false H (.node n true)
    have h3 : targetAmount b.targetNode (.node n true) = 1 := by simp [hn, targetAmount]
    rw [demand, Pi.add_apply] at h1
    omega

end Parcel

/-- The counter is that of a file. -/
def Counter.IsFile : Counter → Prop
  | .file _ _ _ => True
  | _ => False

theorem amounts_of_not_isFile {c : Counter} (hc : ¬ c.IsFile) (tp : ℕ) (files files' : Bool)
    (H : List Holding) : amounts tp files H c = amounts tp files' H c := by
  induction H with
  | nil => rfl
  | cons h H ih =>
    rw [amounts_cons, amounts_cons, Pi.add_apply, ih]
    cases h with
    | node m st' => rfl
    | ref d st' => rfl
    | file fd f =>
      have hne : c ≠ .file tp fd f := by
        rintro rfl
        exact hc trivial
      cases files <;> cases files' <;> simp [amount, hne]

namespace World

variable {w w' : World} {L L' : ℕ → List Holding} {n p t tp : ℕ} {s : Registry} {D : Counter → ℤ}
  {b : Parcel} {H : List Holding}

/-- What the buffers in flight hold. -/
def demand (w : World) (L : ℕ → List Holding) (c : Counter) : ℤ :=
  total (fun b ↦ b.demand (L b.id) c) w.parcels

/-- **The books of the local counts.** -/
structure Booked (w : World) (L : ℕ → List Holding) : Prop where
  sound : w.reg.Sound 0
  ids : ∀ b ∈ w.parcels, b.id < w.nextParcel
  unique : (w.parcels.map (·.id)).Nodup
  backed : w.reg.Backed (w.demand L)
  carried : ∀ b ∈ w.parcels, b.Carried w.reg (L b.id)

theorem demand_nonneg (w : World) (L : ℕ → List Holding) (c : Counter) : 0 ≤ w.demand L c :=
  total_nonneg fun b _ ↦ b.demand_nonneg (L b.id) c

theorem le_demand (hb : b ∈ w.parcels) (c : Counter) :
    b.demand (L b.id) c ≤ w.demand L c :=
  le_total (fun b _ ↦ b.demand_nonneg (L b.id) c) hb

/-- An operation that leaves the buffers alone. -/
theorem Booked.of_reg (hw : w.Booked L) (hparcels : w'.parcels = w.parcels)
    (hnext : w'.nextParcel = w.nextParcel) (hs : w'.reg.Sound 0)
    (hb : w'.reg.Backed (w.demand L)) (hev : Evolves w.reg w'.reg) : w'.Booked L := by
  have hdemand : w'.demand L = w.demand L := by
    funext c
    rw [demand, hparcels, demand]
  refine ⟨hs, ?_, ?_, hdemand ▸ hb, fun b hmem ↦ ?_⟩
  · rw [hparcels, hnext]
    exact hw.ids
  · rw [hparcels]
    exact hw.unique
  · rw [hparcels] at hmem
    exact (hw.carried b hmem).evolves hw.sound hev hb (le_demand hmem)

/-! ### Releasing a buffer -/

/-- The counters are never negative. -/
theorem value_nonneg (hb : s.Backed D) (c : Counter) :
    0 ≤ s.value c := by
  cases c with
  | node n st =>
    have h1 := hb.nonneg n st
    have h2 : 0 ≤ s.own n st := by
      unfold own
      cases s.nodes n with
      | none => exact le_rfl
      | some nd => exact nd.own_nonneg _ st
    rw [hb.balance]
    omega
  | ref q d st =>
    refine total_nonneg fun r _ ↦ ?_
    unfold refAmount
    split_ifs <;> omega
  | file q fd f =>
    simp only [value]
    split_ifs <;> omega

variable {targetNode : Option ℕ} {m : Message}

theorem transactionBufferRelease_holdings
    {files : Bool} {dataSize : ℕ} {words : Words} {offs : List (BitVec 32)} (hs : s.Sound 0)
    (hb : s.Backed (D + (targetAmount targetNode + amounts tp files H)))
    (hD : ∀ n st, 0 ≤ D (.node n st)) (hc : Carries s tp dataSize words offs H) (failed : Bool) :
    ∃ s', s.transactionBufferRelease tp targetNode failed dataSize words offs = some s' ∧
      s'.Backed D ∧ Evolves s s' ∧
      ((∀ c, (targetAmount targetNode + amounts tp failed H) c ≤ s.value c) →
        s'.value = s.value - (targetAmount targetNode + amounts tp failed H)) := by
  cases targetNode with
  | none =>
    simp only [targetAmount, zero_add] at hb ⊢
    exact releaseObjs_holdings hc hs hb hD failed
  | some n =>
    simp only [targetAmount] at ⊢
    have hb' : s.Backed ((D + amounts tp files H) + Pi.single (.node n true) 1) := by
      rwa [add_assoc, add_comm (amounts tp files H)]
    have hpos : 0 < ((D + amounts tp files H) + Pi.single (.node n true) 1 : Counter → ℤ)
        (.node n true) := by
      have h1 := hD n true
      have h2 := amounts_nonneg tp files H (.node n true)
      simp only [Pi.add_apply, Pi.single_eq_same]
      omega
    obtain ⟨nd, hn, -⟩ := hb'.held_node hpos
    obtain ⟨u, hu⟩ := decNode_isSome hn true false
    have hcount : nodeCount n true false = Pi.single (.node n true) 1 := rfl
    obtain ⟨hbu, hevu⟩ := hb'.decNode (fun _ ↦ hpos) hu
    rw [hcount, add_sub_cancel_right] at hbu
    have hsu : u.Sound 0 := by simpa [internalCount] using hs.decNode hu
    have hvalu : u.value = s.value - Pi.single (.node n true) 1 := decNode_value hu
    have hcu : Carries u tp dataSize words offs H := by
      refine hc.evolves hs hevu hbu fun m st hmem ↦ ?_
      exact add_pos_of_nonneg_of_pos (hD m st) (amounts_pos hmem)
    obtain ⟨s', hs', hb₂, hev₂, hval₂⟩ :=
      releaseObjs_holdings hcu hsu hbu hD failed
    refine ⟨s', by rw [transactionBufferRelease, hu, bind_some, hs'], hb₂,
      hevu.trans hev₂, fun hcov ↦ ?_⟩
    have hcov' : ∀ c, amounts tp failed H c ≤ u.value c := by
      intro c
      have := hcov c
      rw [hvalu, Pi.sub_apply]
      rw [Pi.add_apply] at this
      omega
    rw [hval₂ hcov', hvalu, sub_sub]

/-- **`BC_FREE_BUFFER`** gives back what the buffer holds. -/
theorem freeBuffer_booked (hw : w.Booked L) (id : ℕ) :
    ∃ w', w.freeBuffer id = some w' ∧ w'.Booked L ∧ w'.nextParcel = w.nextParcel ∧
      w'.refused = w.refused ∧ (∀ b ∈ w'.parcels, b ∈ w.parcels) ∧
      ((w.parcels.find? (fun b ↦ b.id = id) = none ∧ w' = w) ∨
        ∃ b, w.parcels.find? (fun b ↦ b.id = id) = some b ∧
          (∀ c, w'.demand L c = w.demand L c - b.demand (L b.id) c) ∧
          ((∀ c, b.demand (L b.id) c ≤ w.reg.value c) →
            w'.reg.value = w.reg.value - b.demand (L b.id))) := by
  unfold freeBuffer
  cases hfind : w.parcels.find? (fun b ↦ b.id = id) with
  | none => exact ⟨w, rfl, hw, rfl, rfl, fun _ h ↦ h, .inl ⟨rfl, rfl⟩⟩
  | some b =>
    have hmem := mem_of_find?_eq_some hfind
    set rest := w.parcels.eraseP (fun b ↦ b.id = id) with hrest
    have hsplit : ∀ c, total (fun b ↦ b.demand (L b.id) c) rest =
        w.demand L c - b.demand (L b.id) c := fun c ↦ total_eraseP hfind _
    have hb : w.reg.Backed ((fun c ↦ total (fun b ↦ b.demand (L b.id) c) rest) +
        (targetAmount b.targetNode + amounts b.proc false (L b.id))) := by
      refine hw.backed.congr fun n st ↦ ?_
      show total (fun b ↦ b.demand (L b.id) (.node n st)) rest + b.demand (L b.id) (.node n st) = _
      rw [hsplit]
      omega
    have hD : ∀ n st, 0 ≤ (fun c ↦ total (fun b ↦ b.demand (L b.id) c) rest) (.node n st) :=
      fun n st ↦ total_nonneg fun x _ ↦ x.demand_nonneg (L x.id) _
    obtain ⟨s', hs', hb', hev, hval⟩ := transactionBufferRelease_holdings hw.sound hb hD
      (hw.carried b hmem).1 false
    obtain ⟨hsound, -⟩ := transactionBufferRelease_sound hw.sound hs'
    refine ⟨{ w with reg := s', parcels := rest }, by simp only [hs', map_some], ?_, rfl, rfl,
      fun x hx ↦ mem_of_mem_eraseP hx, .inr ⟨b, rfl, hsplit, hval⟩⟩
    refine ⟨hsound, fun x hx ↦ hw.ids x (mem_of_mem_eraseP hx), ?_, hb', fun x hx ↦ ?_⟩
    · exact hw.unique.sublist (eraseP_sublist.map _)
    · refine (hw.carried x (mem_of_mem_eraseP hx)).evolves hw.sound hev hb' fun c ↦ ?_
      exact le_total (fun y _ ↦ y.demand_nonneg (L y.id) c) hx

/-! ### Sending -/

/-- What the translation of a message for `tp` has done to the books, its target included. -/
structure Prepared (w : World) (L : ℕ → List Holding) (tp : ℕ) (targetNode : Option ℕ)
    (m : Message) (r : Translated) (H : List Holding) : Prop where
  sound : r.reg.Sound 0
  backed : r.reg.Backed (w.demand L + (targetAmount targetNode + amounts tp true H))
  evolves : Evolves w.reg r.reg
  carries : Carries r.reg tp m.dataSize r.words (m.offsets.take r.done) H
  value : r.granted = true →
    r.reg.value = w.reg.value + (targetAmount targetNode + amounts tp true H)
  complete : r.ok = true → r.done = m.offsets.length

theorem holdTarget_booked (hw : w.Booked L)
    (htarget : ∀ n, targetNode = some n → w.reg.owner n = some tp) :
    ∃ reg, holdTarget w.reg targetNode = some reg ∧ reg.Sound 0 ∧
      reg.Backed (w.demand L + targetAmount targetNode) ∧ Evolves w.reg reg ∧
      reg.value = w.reg.value + targetAmount targetNode := by
  cases targetNode with
  | none =>
    refine ⟨w.reg, rfl, hw.sound, ?_, .refl _, ?_⟩
    · simpa [targetAmount] using hw.backed
    · simp [targetAmount]
  | some n =>
    obtain ⟨nd, hn, hp⟩ := bind_eq_some_iff.1 (htarget n rfl)
    obtain ⟨⟨ok, reg⟩, hinc⟩ := incNode_isSome hn true false none
    have hpn : nd.proc ≠ none := by simp [hp]
    obtain ⟨hb, hev⟩ := hw.backed.incNode hn (fun _ ↦ hpn) (fun h ↦ absurd h hpn) hinc
    have hs : reg.Sound 0 := by simpa [internalCount] using hw.sound.incNode hinc
    exact ⟨reg, by simp only [holdTarget, hinc, map_some], hs, hb, hev, incNode_value hinc⟩

theorem translate_prepared {allowFds : Bool} {r : Translated}
    {reg : Registry} (hs : reg.Sound 0) (hb : reg.Backed (w.demand L + targetAmount targetNode))
    (hev : Evolves w.reg reg) (hval : reg.value = w.reg.value + targetAmount targetNode)
    (hsep : m.offsets.Pairwise Apart)
    (h : translate p t tp allowFds m.dataSize m.objects reg m.words = some r) :
    ∃ H, w.Prepared L tp targetNode m r H := by
  obtain ⟨H, hb', hev', hcarry, hval', -, hok⟩ := translate_holdings hs hb hsep h
  refine ⟨H, (translate_sound hs h).1, by rwa [← add_assoc], hev.trans hev', hcarry,
    fun hg ↦ by rw [hval' hg, hval, add_assoc], fun h ↦ ?_⟩
  rw [hok h, Message.offsets, length_map]

/-- How sending can end: nothing was handed over and nothing is held, or a new buffer holds what was
taken. -/
def Sent (w : World) (w' : World) (L' : ℕ → List Holding) : Prop :=
  (w'.parcels = w.parcels ∧ w'.nextParcel = w.nextParcel ∧
      (w'.refused = false → w'.reg.value = w.reg.value)) ∨
    ∃ b, b.id = w.nextParcel ∧ w'.parcels = b :: w.parcels ∧ w'.nextParcel = w.nextParcel + 1 ∧
      (w'.refused = false → ∀ c, ¬ c.IsFile → w'.reg.value c = w.reg.value c + b.demand (L' b.id) c)

section

variable (hw : w.Booked L) (htarget : ∀ n, targetNode = some n → w.reg.owner n = some tp)
include hw htarget

theorem deliver_booked {r : Translated} (hr : w.Prepared L tp targetNode m r H) :
    ∃ w' L', w.deliver tp targetNode m r = some w' ∧ w'.Booked L' ∧
      (∀ id < w.nextParcel, L' id = L id) ∧ Sent w w' L' := by
  unfold deliver
  by_cases hok : r.ok = true
  · -- the buffer is handed over with its holdings
    rw [if_pos hok]
    set b : Parcel := ⟨w.nextParcel, tp, targetNode, m.dataSize, r.words, m.offsets⟩ with hbdef
    set L' := update L w.nextParcel H with hL'
    have hold : ∀ id < w.nextParcel, L' id = L id := fun id hid ↦ by
      simp [hL', Nat.ne_of_lt hid]
    have hnew : L' b.id = H := by simp [hL', hbdef]
    have hdemand : ∀ c, total (fun b ↦ b.demand (L' b.id) c) (b :: w.parcels) =
        b.demand H c + w.demand L c := by
      intro c
      rw [total_cons, hnew]
      congr 1
      exact total_congr fun x hx ↦ by rw [hold x.id (hw.ids x hx)]
    have hback : r.reg.Backed fun c ↦ total (fun b ↦ b.demand (L' b.id) c) (b :: w.parcels) := by
      refine hr.backed.congr fun n st ↦ ?_
      rw [hdemand]
      simp only [Parcel.demand, Pi.add_apply, hbdef,
        amounts_of_not_isFile (c := .node n st) id tp true false H]
      omega
    have hle : ∀ x ∈ b :: w.parcels, ∀ c, x.demand (L' x.id) c ≤
        total (fun b ↦ b.demand (L' b.id) c) (b :: w.parcels) := fun x hx c ↦
      le_total (fun y _ ↦ y.demand_nonneg (L' y.id) c) hx
    refine ⟨_, L', rfl, ⟨hr.sound, fun x hx ↦ ?_, ?_, hback, fun x hx ↦ ?_⟩, hold,
      .inr ⟨b, rfl, rfl, rfl, fun href c hc ↦ ?_⟩⟩
    · rcases mem_cons.1 hx with rfl | hx
      · exact Nat.lt_succ_self _
      · exact Nat.lt_succ_of_lt (hw.ids x hx)
    · refine nodup_cons.2 ⟨fun hmem ↦ ?_, hw.unique⟩
      obtain ⟨x, hx, hid⟩ := mem_map.1 hmem
      exact absurd (hid : x.id = w.nextParcel) (Nat.ne_of_lt (hw.ids x hx))
    · rcases mem_cons.1 hx with rfl | hx
      · refine ⟨?_, fun n hn ↦ ?_⟩
        · have hcarry := hr.carries
          rw [hr.complete hok, take_length] at hcarry
          rw [hnew]
          exact hcarry
        · refine Parcel.owner_evolves (htarget n hn) hw.sound hr.evolves hback true ?_
          have h2 := amounts_nonneg tp false H (.node n true)
          have h3 : targetAmount targetNode (.node n true) = 1 := by
            rw [show targetNode = some n from hn]
            simp [targetAmount]
          have h4 : b.demand H (.node n true) =
              targetAmount targetNode (.node n true) + amounts tp false H (.node n true) := rfl
          have h5 := demand_nonneg w L (.node n true)
          rw [hdemand, h4]
          omega
      · have hcar := hw.carried x hx
        rw [← hold x.id (hw.ids x hx)] at hcar
        exact hcar.evolves hw.sound hr.evolves hback (hle x (by simp [hx]))
    · have hg : r.granted = true := by
        simp only [Bool.or_eq_false_iff, Bool.not_eq_false'] at href
        exact href.2
      show r.reg.value c = _
      rw [hr.value hg, hnew]
      simp only [Pi.add_apply, Parcel.demand, hbdef, amounts_of_not_isFile hc tp true false H]
  · -- what was taken is given back
    rw [if_neg hok]
    obtain ⟨s', hs', hb', hev', hval'⟩ := transactionBufferRelease_holdings hr.sound
      hr.backed (fun n st ↦ demand_nonneg w L _) hr.carries true
    obtain ⟨hsound, -⟩ := transactionBufferRelease_sound hr.sound hs'
    refine ⟨{ w with reg := s', refused := w.refused || !r.granted }, L,
      by simp only [hs', map_some], ?_, fun _ _ ↦ rfl, .inl ⟨rfl, rfl, fun href ↦ ?_⟩⟩
    · exact hw.of_reg rfl rfl hsound hb' (hr.evolves.trans hev')
    · have hg : r.granted = true := by
        simp only [Bool.or_eq_false_iff, Bool.not_eq_false'] at href
        exact href.2
      show s'.value = w.reg.value
      have hcov : ∀ c, (targetAmount targetNode + amounts tp true H) c ≤ r.reg.value c := by
        intro c
        have := value_nonneg hw.backed c
        rw [hr.value hg, Pi.add_apply w.reg.value]
        omega
      rw [hval' hcov, hr.value hg, add_sub_cancel_right]

/-- **Sending** either takes nothing, or what the new buffer holds. -/
theorem send_booked (hsep : m.offsets.Pairwise Apart) (p t : ℕ) (allowFds : Bool) :
    ∃ w' L', w.send p t tp targetNode allowFds m = some w' ∧ w'.Booked L' ∧
      (∀ id < w.nextParcel, L' id = L id) ∧ Sent w w' L' := by
  unfold send
  by_cases hbuffer : m.buffer = false
  · rw [if_pos hbuffer]
    exact ⟨w, L, rfl, hw, fun _ _ ↦ rfl, .inl ⟨rfl, rfl, fun _ ↦ rfl⟩⟩
  rw [if_neg hbuffer]
  obtain ⟨reg, hreg, hs, hb, hev, hval⟩ := holdTarget_booked hw htarget
  rw [hreg, bind_some]
  by_cases hcopied : m.copied = false
  · -- nothing was translated
    rw [if_pos hcopied]
    refine deliver_booked hw htarget ⟨hs, ?_, hev, .nil, fun _ ↦ ?_, ?_⟩
    · simpa using hb
    · simpa using hval
    · exact fun h ↦ absurd h (by simp)
  · rw [if_neg hcopied]
    obtain ⟨r, hr⟩ := translate_isSome hs p t tp allowFds m.dataSize m.objects m.words
    rw [hr]
    obtain ⟨H, hprep⟩ := translate_prepared hs hb hev hval hsep hr
    exact deliver_booked hw htarget hprep

end

/-! ### Closing a process -/

/-- A buffer holds only nodes of its receiver. -/
theorem demand_eq_zero (hc : b.Carried s H)
    (hn : s.owner n ≠ some b.proc) (st : Bool) : b.demand H (.node n st) = 0 := by
  have htarget : targetAmount b.targetNode (.node n st) = 0 := by
    cases htn : b.targetNode with
    | none => rfl
    | some m =>
      have hm := hc.2 m htn
      have hne : n ≠ m := fun h ↦ hn (h ▸ hm)
      simp [targetAmount, hne]
  have hamounts : amounts b.proc false H (.node n st) = 0 := by
    obtain ⟨hcarry, -⟩ := hc
    generalize b.offsets = offs at hcarry
    induction hcarry with
    | nil => rfl
    | @cons off h offs H hhead _ ih =>
      rw [amounts_cons, Pi.add_apply, ih]
      cases h with
      | ref d st' => simp [amount]
      | file fd f => simp [amount]
      | node m st' =>
        obtain ⟨-, -, nd, hm, hname⟩ := hhead
        have hne : n ≠ m := by
          rintro rfl
          exact hn (by simp [owner, hm, (Prod.mk.inj hname).1])
        simp [amount, hne]
  rw [Parcel.demand, Pi.add_apply, htarget, hamounts, add_zero]

theorem deferredRelease_booked (hw : w.Booked L) (p : ℕ) (threads : List ℕ) :
    ∃ w', w.deferredRelease p threads = some w' ∧ w'.Booked L ∧ w'.nextParcel = w.nextParcel ∧
      w'.refused = w.refused ∧ w'.parcels = w.parcels.filter (·.proc ≠ p) ∧
      ∀ q d st, q ≠ p → w'.reg.value (.ref q d st) = w.reg.value (.ref q d st) := by
  obtain ⟨hs₁, hval₁, -, -, howner₁, hback₁⟩ := releaseThreads_spec hw.sound threads
  obtain ⟨hb₁, hev₁⟩ := hback₁ _ hw.backed
  have hclosed := closeNodes_closed hw.sound p threads
  set reg := (List.range (threads.foldl (fun reg t ↦ reg.releaseWork (.thread t))
    (w.reg.clearMgr p)).nextNode).foldl (closeNode p)
      (threads.foldl (fun reg t ↦ reg.releaseWork (.thread t)) (w.reg.clearMgr p)) with hreg
  have hs₂ := hclosed.sound hs₁
  -- the buffers that stay hold nothing of the process, those that go hold nothing else
  set kept := w.parcels.filter (·.proc ≠ p) with hkept
  set D' : Counter → ℤ := fun c ↦ total (fun b ↦ b.demand (L b.id) c) kept with hD'
  have hfilter : ∀ c, D' c =
      total (fun b ↦ if b.proc ≠ p then b.demand (L b.id) c else 0) w.parcels := by
    intro c
    simp only [hD', hkept, total_filter, decide_eq_true_eq]
  have hother : ∀ n st, (w.reg.releaseThreads threads).owner n ≠ some p →
      D' (.node n st) = w.demand L (.node n st) := by
    intro n st hn
    rw [howner₁] at hn
    rw [hfilter]
    refine total_congr fun b hb ↦ ?_
    split_ifs with hbp
    · rfl
    · have hbp : b.proc = p := not_not.1 hbp
      exact (demand_eq_zero (hw.carried b hb) (hbp ▸ hn) st).symm
  have hnone : ∀ n st, (w.reg.releaseThreads threads).owner n = some p → D' (.node n st) = 0 := by
    intro n st hn
    rw [howner₁] at hn
    have hzero : D' (.node n st) = total (fun _ ↦ 0) w.parcels := by
      rw [hfilter]
      refine total_congr fun b hb ↦ ?_
      split_ifs with hbp
      · refine demand_eq_zero (hw.carried b hb) (fun h ↦ hbp ?_) st
        exact Option.mem_unique h hn
      · rfl
    rw [hzero]
    simp [total]
  obtain ⟨hb₂, hev₂⟩ := hclosed.backed hb₁ hother hnone
  obtain ⟨reg₃, hreg₃⟩ := deleteRefs_isSome hs₂ (hs₂.descs_nodup p) fun d hd ↦ by
    obtain ⟨r, hr, rfl⟩ := mem_map.1 hd
    obtain ⟨hr, hp⟩ := mem_filter.1 hr
    exact ⟨r, hr, by simpa using hp, rfl⟩
  obtain ⟨hs₃, -, hback₃, hval₃⟩ := deleteRefs_spec hs₂ hreg₃
  obtain ⟨hb₃, hev₃⟩ := hback₃ _ hb₂
  refine ⟨{ w with
      reg := { reg₃ with files := update reg₃.files p fun _ ↦ none }, parcels := kept },
    ?_, ?_, rfl, rfl, rfl, fun q d st hq ↦ ?_⟩
  · simp only [deferredRelease, ← hreg, hreg₃]
    rfl
  · have hs₄ : Sound { reg₃ with files := update reg₃.files p fun _ ↦ none } 0 := { hs₃ with }
    have hb₄ : Backed { reg₃ with files := update reg₃.files p fun _ ↦ none } D' :=
      hb₃.of_nodes rfl rfl rfl
    have hev : Evolves w.reg { reg₃ with files := update reg₃.files p fun _ ↦ none } :=
      hev₁.trans (hev₂.trans (hev₃.trans (.of_nodes rfl rfl)))
    refine ⟨hs₄, fun b hb ↦ hw.ids b (mem_of_mem_filter hb), ?_, hb₄, fun b hb ↦ ?_⟩
    · exact hw.unique.sublist (filter_sublist.map _)
    · refine (hw.carried b (mem_of_mem_filter hb)).evolves hw.sound hev hb₄ fun c ↦ ?_
      exact le_total (fun y _ ↦ y.demand_nonneg (L y.id) c) hb
  · show reg₃.value (.ref q d st) = _
    rw [hval₃ _ fun d' st' h ↦ hq (by injection h), ← hval₁]
    show total _ reg.refs = total _ (w.reg.releaseThreads threads).refs
    rw [hclosed.refs]

/-! ### Counts by hand -/

theorem incRefs_booked {desc : ℕ} {memory : Bool} (hw : w.Booked L) (strong : Bool)
    (hserved : ∀ n ∈ (if desc = 0 then w.reg.contextMgr else none),
      (w.reg.getRefForNode p n memory).isSome = true) :
    ∃ w', w.incRefs p desc strong memory = some w' ∧ w'.Booked L ∧
      w'.nextParcel = w.nextParcel ∧ w'.parcels = w.parcels ∧
      (w'.refused = false → w.refused = false) ∧ ∀ c, w.reg.value c ≤ w'.reg.value c := by
  have hsingle : ∀ (c : Counter) (q d : ℕ) (ok : Bool),
      0 ≤ (if ok then Pi.single (.ref q d strong) 1 else 0 : Counter → ℤ) c := by
    intro c q d ok
    cases ok
    · exact le_rfl
    · exact (Holding.ref d strong).amount_nonneg q true c
  unfold incRefs
  split
  · next n hmgr =>
    have hn : w.reg.contextMgr = some n := by
      split_ifs at hmgr
      exact hmgr
    obtain ⟨nd, hnode, hp⟩ := hw.backed.mgr n hn
    obtain ⟨⟨res, reg⟩, hgrant⟩ := grantRef_isSome hw.sound hnode p strong memory none
    obtain ⟨hb, hev⟩ := hw.backed.grantRef hw.sound hnode (fun _ ↦ rfl) hgrant
    have hs := hw.sound.grantRef hnode hgrant
    cases res with
    | none =>
      -- memory for the reference was granted
      have hsome := hserved n hmgr
      obtain ⟨⟨d, u⟩, hget⟩ := isSome_iff_exists.1 hsome
      unfold grantRef at hgrant
      simp only [hget] at hgrant
      obtain ⟨v, -, heq⟩ := map_eq_some_iff.1 hgrant
      exact absurd (Prod.mk.inj heq).1 (by simp)
    | some res =>
      obtain ⟨d, granted⟩ := res
      simp only [hgrant]
      refine ⟨_, rfl, hw.of_reg rfl rfl hs hb hev, rfl, rfl, fun h ↦ ?_, fun c ↦ ?_⟩
      · grind
      · rw [(grantRef_value hw.sound hgrant).2, Pi.add_apply]
        have := hsingle c p d granted
        omega
  · cases hr : w.reg.getRef p desc with
    | none => exact ⟨w, rfl, hw, rfl, rfl, id, fun _ ↦ le_rfl⟩
    | some r =>
      obtain ⟨⟨ok, reg⟩, hinc⟩ := incRef_isSome hw.sound hr strong none
      obtain ⟨nd, hnode⟩ := hw.sound.live r (getRef_spec hr).1
      obtain ⟨hb, hev⟩ := hw.backed.incRef hr hnode (fun _ ↦ rfl) hinc
      refine ⟨{ w with reg := reg }, by simp only [hinc, map_some],
        hw.of_reg rfl rfl (hw.sound.incRef hinc) hb hev, rfl, rfl, id, fun c ↦ ?_⟩
      show _ ≤ reg.value c
      rw [incRef_value hinc, Pi.add_apply]
      have := hsingle c p desc ok
      omega

theorem decRefs_booked (hw : w.Booked L) (p desc : ℕ) (strong : Bool) :
    ∃ w', w.decRefs p desc strong = some w' ∧ w'.Booked L ∧ w'.nextParcel = w.nextParcel ∧
      w'.parcels = w.parcels ∧ w'.refused = w.refused ∧
      w'.reg.value = w.reg.value -
        if 0 < w.reg.value (.ref p desc strong) then Pi.single (.ref p desc strong) 1 else 0 := by
  obtain ⟨reg, hrel, hb, hev, hval⟩ := releaseHandle_holding hw.sound hw.backed p desc strong
  obtain ⟨hs, -⟩ := releaseHandle_spec hw.sound hrel
  exact ⟨{ w with reg := reg }, by simp only [decRefs, hrel, map_some],
    hw.of_reg rfl rfl hs hb hev, rfl, rfl, rfl, hval⟩

theorem refsDone_booked (hw : w.Booked L) (p : ℕ) (ptr cookie : BitVec 32) (strong : Bool) :
    ∃ w', w.refsDone p ptr cookie strong = some w' ∧ w'.Booked L ∧
      w'.nextParcel = w.nextParcel ∧ w'.parcels = w.parcels ∧ w'.refused = w.refused ∧
      ∀ q d st, w'.reg.value (.ref q d st) = w.reg.value (.ref q d st) := by
  unfold refsDone
  cases hget : w.reg.getNode p ptr with
  | none => exact ⟨w, rfl, hw, rfl, rfl, rfl, fun _ _ _ ↦ rfl⟩
  | some n =>
    obtain ⟨nd, hn, hname⟩ := getNode_spec hget
    simp only [hn]
    split_ifs with hcond
    · exact ⟨w, rfl, hw, rfl, rfl, rfl, fun _ _ _ ↦ rfl⟩
    · have hpend : nd.pending strong = true := by
        rw [not_or] at hcond
        simpa using hcond.2
      have hp : nd.proc ≠ none := by simp [(Prod.mk.inj hname).1]
      -- the confirmed count is given back at once
      obtain ⟨hb₁, hev₁⟩ := hw.backed.confirm hn hp hpend
      have hset : Settled w.reg n (nd.setPending strong false) none
          (w.reg.setNode n (nd.setPending strong false)) := .write ..
      have hs₁ : (w.reg.setNode n (nd.setPending strong false)).Sound 0 := by
        have := hw.sound.settled hn hset
        rwa [(setPending_spec nd strong false).2.2.1, sub_self, Pi.single_zero] at this
      have hn₁ : (w.reg.setNode n (nd.setPending strong false)).nodes n =
          some (nd.setPending strong false) := by simp [setNode]
      obtain ⟨reg, hdec⟩ := decNode_isSome hn₁ strong false
      have hpos : 0 < (w.demand L + Pi.single (.node n strong) 1 : Counter → ℤ)
          (.node n strong) := by
        have := demand_nonneg w L (.node n strong)
        rw [Pi.add_apply, Pi.single_eq_same]
        omega
      obtain ⟨hb₂, hev₂⟩ := hb₁.decNode (fun _ ↦ hpos) hdec
      have hcount : nodeCount n strong false = Pi.single (.node n strong) 1 := rfl
      rw [hcount, add_sub_cancel_right] at hb₂
      have hs₂ : reg.Sound 0 := by simpa [internalCount] using hs₁.decNode hdec
      refine ⟨{ w with reg := reg }, by simp only [hdec, map_some],
        hw.of_reg rfl rfl hs₂ hb₂ (hev₁.trans hev₂), rfl, rfl, rfl, fun q d st ↦ ?_⟩
      show total _ reg.refs = _
      rw [decNode_refs hdec]
      rfl

/-! ### The context manager and the rest -/

/-- The counts of a node that nobody holds become those of the context manager. -/
theorem backed_appoint (hmgr : s.contextMgr = none)
    (howner : s.owner n = some p) (hD : ∀ m st, 0 ≤ D (.node m st))
    (hb : s.Backed (D + (Pi.single (.node n true) 1 + Pi.single (.node n false) 1))) :
    Backed { s with contextMgr := some n } D := by
  obtain ⟨nd, hn, hp⟩ := bind_eq_some_iff.1 howner
  have hpn : nd.proc ≠ none := by simp [hp]
  refine ⟨hD, fun m st ↦ ?_, hb.dead, fun m hm ↦ ?_, hb.names, hb.told, hb.quiet⟩
  · have hbal := hb.balance m st
    by_cases hm : m = n
    · subst hm
      have hone : (Pi.single (.node m true) 1 + Pi.single (.node m false) 1 : Counter → ℤ)
          (.node m st) = 1 := by cases st <;> simp
      simp only [value, own, hn, hmgr, map_some, getD_some, Pi.add_apply D, Node.own, if_neg hpn,
        beq_self_eq_true, if_true] at hbal ⊢
      simp only [beq_iff_eq, reduceCtorEq, if_false] at hbal
      omega
    · have hzero : (Pi.single (.node n true) 1 + Pi.single (.node n false) 1 : Counter → ℤ)
          (.node m st) = 0 := by simp [hm]
      have hne : (some n == some m) = false := by simpa using fun h ↦ hm h.symm
      have hne' : ((none : Option ℕ) == some m) = false := rfl
      simp only [own, hmgr, Pi.add_apply D, hzero, add_zero, hne] at hbal ⊢
      exact hbal
  · cases hm
    exact ⟨nd, hn, hpn⟩

theorem setContextMgr_booked (hw : w.Booked L) (p : ℕ) (memory : Bool) :
    ∃ w', w.setContextMgr p memory = some w' ∧ w'.Booked L ∧ w'.nextParcel = w.nextParcel ∧
      w'.parcels = w.parcels ∧ w'.refused = w.refused ∧ w'.reg.refs = w.reg.refs := by
  unfold setContextMgr
  by_cases hmgr : w.reg.contextMgr.isSome
  · grind
  rw [if_neg hmgr]
  have hmgr : w.reg.contextMgr = none := by simpa using hmgr
  cases hnew : w.reg.newNode p 0 0 false memory with
  | none => exact ⟨w, rfl, hw, rfl, rfl, rfl, rfl⟩
  | some u =>
    obtain ⟨n, u⟩ := u
    obtain ⟨rfl, nd, hname, hborn, rfl⟩ := newNode_cases hnew
    set n := w.reg.nextNode with hndef
    have hn : (w.reg.addNode nd).nodes n = some nd := by simp [addNode_nodes, hndef]
    simp only [hn]
    set nd' : Node := { (nd.count false false 1).count true false 1 with
      hasStrongRef := true, hasWeakRef := true } with hnd'
    obtain ⟨hb₁, hev₁⟩ := hw.backed.addNode hw.sound hborn
    have hs₁ := hw.sound.addNode hborn
    have hproc : nd'.proc = some p := (Prod.mk.inj hname).1
    have hset : Settled (w.reg.addNode nd) n nd' none ((w.reg.addNode nd).setNode n nd') :=
      .write ..
    have hlocals : ∀ st, nd'.locals st = nd.locals st + 1 := by
      intro st
      cases st <;> rfl
    have hpending : ∀ st, nd'.pending st = false := by
      intro st
      rw [← hborn.counts.2.2 st]
      cases st <;> rfl
    have hbal := hb₁.balance n
    simp only [value, own, hn, map_some, getD_some] at hbal
    -- the two counts are taken first, and then belong to the context manager
    have hb₂ : ((w.reg.addNode nd).setNode n nd').Backed
        (w.demand L + (Pi.single (.node n true) 1 + Pi.single (.node n false) 1)) := by
      refine hb₁.settled hn hset rfl (fun st ↦ ?_) (fun m st hm ↦ ?_) (fun st ↦ ?_)
        (fun h ↦ absurd (hproc.symm.trans h) (by simp))
        (fun st h ↦ absurd ((hpending st).symm.trans h) (by simp))
      · have := demand_nonneg w L (.node n st)
        cases st <;> simp <;> omega
      · simp [hm]
      · have hb0 := hbal st
        have hmgr' : ((w.reg.addNode nd).contextMgr == some n) = false := by
          show (w.reg.contextMgr == some n) = false
          rw [hmgr]
          rfl
        have hone : (Pi.single (.node n true) 1 + Pi.single (.node n false) 1 : Counter → ℤ)
            (.node n st) = 1 := by cases st <;> simp
        have hpn : nd.proc ≠ none := by simp [(Prod.mk.inj hname).1]
        have hpn' : nd'.proc ≠ none := by simp [hproc]
        rw [hlocals, hb0, Pi.add_apply, hone, hmgr']
        simp only [Node.own, if_neg hpn, if_neg hpn', hborn.counts.2.2 st, hpending st]
        omega
    have howner : ((w.reg.addNode nd).setNode n nd').owner n = some p := by
      simp [owner, setNode, hproc]
    have hb₃ := backed_appoint (s := (w.reg.addNode nd).setNode n nd') hmgr howner
      (fun m st ↦ demand_nonneg w L _) hb₂
    have hs₂ : ((w.reg.addNode nd).setNode n nd').Sound 0 := by
      have := hs₁.settled hn hset
      rwa [show nd'.internalStrongRefs = nd.internalStrongRefs from rfl, sub_self,
        Pi.single_zero] at this
    have hev₂ : Evolves (w.reg.addNode nd) ((w.reg.addNode nd).setNode n nd') :=
      .settled hn (show nd'.name = nd.name from rfl) hset
    refine ⟨_, rfl, hw.of_reg rfl rfl ?_ hb₃ (hev₁.trans (hev₂.trans (.of_nodes rfl rfl))), rfl,
      rfl,
      rfl, rfl⟩
    exact { hs₂ with }

theorem readNode_booked (hw : w.Booked L) (hwork : ((w.reg.nodes n).bind (·.work)).isSome = true) :
    ∃ w', w.readNode n = some w' ∧ w'.Booked L ∧ w'.nextParcel = w.nextParcel ∧
      w'.parcels = w.parcels ∧ w'.refused = w.refused ∧ w'.reg.refs = w.reg.refs := by
  cases hn : w.reg.nodes n with
  | none => simp [hn] at hwork
  | some nd =>
    obtain ⟨w', h⟩ : ∃ w', w.readNode n = some w' := by simp [readNode, hn]
    obtain ⟨hb, hev⟩ := readNode_backed hw.backed hwork h
    obtain ⟨_, _, -, hset, heq, -⟩ := readNode_cases h
    have hparcels : w'.parcels = w.parcels := by rw [heq]
    have hnext : w'.nextParcel = w.nextParcel := by rw [heq]
    exact ⟨w', h, hw.of_reg hparcels hnext (readNode_sound hw.sound h) hb hev, hnext, hparcels,
      by rw [heq], hset.refs⟩

end World

end Binder
