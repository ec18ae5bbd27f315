import MerrukKernel.Dma.Bands
import MerrukKernel.Dma.Chains

/-!
# Binding buffers to a channel

`csl_dma_bind_data` adds the buffers of a request to a channel one after the other. After each of
them the chain from `headNode` holds the pieces of the buffers so far and ends with a null link
(`Bound`), as long as there were enough nodes, which is when every call returns `0`.

The pieces tile the buffers if none was truncated and the two addresses went in step, which is the
condition of the main theorem.
-/

namespace Dma

open Function List Dev

namespace Dev

variable {d d' : Dev} {c : ChanId} {b : BufferDesc} {lliXferSize : ℕ} {bs : List BufferDesc}

/-! ### One buffer -/

/-- What adding pieces does: the nodes at `as` hold them, linked and ended, and `rest` is left. -/
structure Filled (d d' : Dev) (c : ChanId) (as rest : List ℕ) (ps : List Extent) : Prop
    extends SameBands d d' where
  chan : d'.chan = d.chan
  node : ∀ a, a ∉ as → d'.node a = d.node a
  linked : d'.LinkedTo 0 as ps
  supply : d'.supply c = rest

theorem sameBands_setNode (d : Dev) (a : ℕ) (n : LinkNode) : d.SameBands (d.setNode a n) :=
  ⟨rfl, rfl, rfl, fun _ ↦ rfl, fun _ ↦ rfl⟩

theorem sameBands_setChan (d : Dev) (c : ChanId) (k : ChanInfo) : d.SameBands (d.setChan c k) :=
  ⟨rfl, rfl, rfl, fun _ ↦ rfl, fun _ ↦ rfl⟩

theorem setNode_node_self (d : Dev) (a : ℕ) (n : LinkNode) : (d.setNode a n).node a = n :=
  update_self ..

variable {a curr : ℕ} {rest as : List ℕ} {d₀ : Dev} {ps : List Extent}

theorem setNode_node_of_ne {a' : ℕ} (h : a' ≠ a) (n : LinkNode) :
    (d.setNode a n).node a' = d.node a' :=
  update_of_ne h ..

theorem extent_control {src dst next n t : ℕ} :
    LinkNode.extent ⟨src, dst, next, { b.control with xferSize := n, tcIntEnable := t }⟩ =
      ⟨src, dst, n * transferWidth b.srcWidth⟩ := by
  show Extent.mk src dst (n * [1, 2, 4].getD b.srcWidth 0) = _
  rw [getD_transferWidth]

/-- **The loop of `chal_dma_add_buffer`.** -/
theorem addNodes_spec {rounds xfer : ℕ} (src dst : ℕ) (hnodup : (d.listed c).Nodup)
    (hsup : d.supply c = rest) (hrest : (curr :: rest).Nodup) (hpos : ∀ a ∈ rest, a ≠ 0)
    (hlli : 0 < lliXferSize) (hx : 0 < xfer) (hrounds : xfer ≤ rounds) :
    (addNodes c b lliXferSize rounds d curr src dst xfer).1 ≤ xfer ∧
      ((addNodes c b lliXferSize rounds d curr src dst xfer).1 = 0 → ∃ as rest',
        rest = as ++ rest' ∧
        (curr :: as).getLast? = some (addNodes c b lliXferSize rounds d curr src dst xfer).2.1 ∧
        d.Filled (addNodes c b lliXferSize rounds d curr src dst xfer).2.2 c (curr :: as) rest'
          (pieces b lliXferSize rounds src dst xfer)) := by
  induction rounds generalizing d curr src dst xfer rest with
  | zero => omega
  | succ rounds ih =>
    rw [addNodes, pieces, if_neg hx.ne', if_neg hx.ne']
    by_cases hfits : xfer ≤ lliXferSize
    · rw [if_pos hfits, if_pos hfits]
      refine ⟨Nat.zero_le _, fun _ ↦ ⟨[], rest, rfl, rfl, sameBands_setNode .., rfl,
        fun a ha ↦ ?_, ?_,
        hsup⟩⟩
      · exact setNode_node_of_ne (ne_of_not_mem_cons ha) _
      · refine ⟨?_, ?_, trivial⟩
        · grind [setNode_node_self, extent_control]
        · rw [setNode_node_self]
          rfl
    · rw [if_neg hfits, if_neg hfits]
      simp only
      -- the node is filled, and the next one taken
      generalize hd₁ : d.setNode curr ⟨src, dst, 0, _⟩ = d₁
      have hnodup₁ : (d₁.listed c).Nodup := by rw [← hd₁]; exact hnodup
      have hsup₁ : d₁.supply c = rest := by rw [← hd₁]; exact hsup
      cases rest with
      | nil => grind [getNextNode_of_nil]
      | cons a rest =>
        obtain ⟨d₂, hnext, hsame, hsup₂⟩ := getNextNode_of_cons hnodup₁ hsup₁
        obtain ⟨hcurr, hrest⟩ := nodup_cons.1 hrest
        obtain ⟨a, rfl⟩ := Nat.exists_eq_succ_of_ne_zero (hpos a mem_cons_self)
        rw [hnext]
        simp only
        generalize hctl : ({ b.control with xferSize := lliXferSize % 2 ^ 12 } : Control) = control
        generalize hd₃ : d₂.setNode curr ⟨src, dst, d₂.chalDmaGetLliPhysicalAddr
          (a + 1), control⟩ = d₃
        have hsame₃ : d.SameBands d₃ := by
          rw [← hd₃]
          exact ((hd₁ ▸ sameBands_setNode .. : d.SameBands d₁).trans hsame.toSameBands).trans
            (sameBands_setNode ..)
        have hchan₃ : d₃.chan = d.chan := by
          rw [← hd₃]
          exact hsame.chan.trans (by rw [← hd₁]; rfl)
        have hnodup₃ : (d₃.listed c).Nodup := by
          unfold listed
          rw [hchan₃]
          exact hnodup
        have hsup₃ : d₃.supply c = rest := by
          rw [← hd₃]
          exact hsup₂
        have hpos' : ∀ a' ∈ rest, a' ≠ 0 := fun a' ha' ↦ hpos a' (mem_cons_of_mem _ ha')
        have hx' : 0 < xfer - lliXferSize := by omega
        have hrounds' : xfer - lliXferSize ≤ rounds := by omega
        refine ⟨(ih _ _ hnodup₃ hsup₃ hrest hpos' hx' hrounds').1.trans
          (Nat.sub_le ..), fun h0 ↦ ?_⟩
        obtain ⟨as, rest', rfl, hlast, hfilled⟩ :=
          (ih _ _ hnodup₃ hsup₃ hrest hpos' hx' hrounds').2 h0
        have hnot : curr ∉ (a + 1) :: as := fun hmem ↦ by
          rcases mem_cons.1 hmem with heq | hmem
          · exact hcurr (heq ▸ mem_cons_self)
          · exact hcurr (mem_cons_of_mem _ (mem_append_left _ hmem))
        have hnode := hfilled.node curr hnot
        have hself : d₃.node curr = ⟨src, dst, d₂.chalDmaGetLliPhysicalAddr (a + 1), control⟩ := by
          rw [← hd₃, setNode_node_self]
        rw [hself] at hnode
        refine ⟨(a + 1) :: as, rest', rfl, ?_, hsame₃.trans hfilled.toSameBands,
          hfilled.chan.trans hchan₃, fun a' ha' ↦ ?_, ⟨?_, ?_, hfilled.linked⟩, hfilled.supply⟩
        · grind
        · rw [mem_cons, not_or] at ha'
          rw [hfilled.node a' ha'.2, ← hd₃, setNode_node_of_ne ha'.1, hsame.node, ← hd₁,
            setNode_node_of_ne ha'.1]
        · grind [extent_control]
        · rw [hnode]
          show d₂.chalDmaGetLliPhysicalAddr (a + 1) = _
          have hphys : d₂.SameBands d₃ := by grind [sameBands_setNode]
          exact ((hphys.trans hfilled.toSameBands).physicalAddr (a + 1)).symm

/-- What adding a buffer to a channel does: its pieces are in the nodes at `as`, which `currNode`
is the last of. -/
structure Added (d d' : Dev) (c : ChanId) (as rest : List ℕ) (ps : List Extent) : Prop
    extends SameBands d d' where
  listed : d'.listed c = d.listed c
  headNode : (d'.chan c).headNode = (d.chan c).headNode
  last : as.getLast? = some (d'.chan c).currNode
  node : ∀ a, a ∉ as → d'.node a = d.node a
  linked : d'.LinkedTo 0 as ps
  supply : d'.supply c = rest

section

variable {k : ChanInfo} (hband : k.chanNodeBand = (d.chan c).chanNodeBand)
  (hnum : k.bandNum = (d.chan c).bandNum)
include hband hnum

theorem listed_setChan : (d.setChan c k).listed c = d.listed c := by
  unfold listed
  rw [setChan_chan_self, hband, hnum]

theorem supply_setChan : (d.setChan c k).supply c = d.supply c := by
  unfold supply
  rw [listed_setChan hband hnum]
  rfl

end

/-- Nothing is left when no bytes are. -/
theorem eq_zero_of_bytes {x : ℕ} (hb : b.WellFormed) (hle : x ≤ b.size / transferWidth b.srcWidth)
    (h0 : x * transferWidth b.srcWidth % 2 ^ 32 = 0) : x = 0 := by
  have hbytes : x * transferWidth b.srcWidth ≤ b.size :=
    (Nat.mul_le_mul_right _ hle).trans (Nat.div_mul_le_self ..)
  rw [Nat.mod_eq_of_lt (hbytes.trans_lt hb.lt)] at h0
  exact (Nat.mul_eq_zero.1 h0).resolve_right (transferWidth_pos _).ne'

theorem fillNodes_of_addNodes {x last : ℕ}
    (h : addNodes c b lliXferSize (b.size / transferWidth b.srcWidth) d curr b.src b.dst
      (b.size / transferWidth b.srcWidth) = (x, last, d')) :
    d.fillNodes c b lliXferSize curr = (x * transferWidth b.srcWidth % 2 ^ 32,
      d'.setChan c { d'.chan c with currNode := last }) := by
  unfold fillNodes
  simp only [h]

/-- **`chal_dma_add_buffer`, from the first node of the buffer on.** -/
theorem fillNodes_spec (hnodup : (d.listed c).Nodup)
    (hsup : d.supply c = rest) (hrest : (curr :: rest).Nodup) (hpos : ∀ a ∈ rest, a ≠ 0)
    (hlli : 0 < lliXferSize) (hb : b.WellFormed) (hret : (d.fillNodes c b lliXferSize curr).1 = 0) :
    ∃ as rest', rest = as ++ rest' ∧
      d.Added (d.fillNodes c b lliXferSize curr).2 c (curr :: as) rest' (b.pieces lliXferSize) := by
  have hx : 0 < b.size / transferWidth b.srcWidth :=
    Nat.div_pos (Nat.le_of_dvd hb.pos hb.dvd) (transferWidth_pos _)
  obtain ⟨hle, hfill⟩ := addNodes_spec b.src b.dst hnodup hsup hrest hpos hlli hx le_rfl
  obtain ⟨x, last, d', hr⟩ : ∃ x last d', addNodes c b lliXferSize
    (b.size / transferWidth b.srcWidth)
      d curr b.src b.dst (b.size / transferWidth b.srcWidth) = (x, last, d') := ⟨_, _, _, rfl⟩
  rw [hr] at hle hfill
  rw [fillNodes_of_addNodes hr] at hret ⊢
  obtain ⟨as, rest', hsplit, hlast, h⟩ := hfill (eq_zero_of_bytes hb hle hret)
  refine ⟨as, rest', hsplit, ?_⟩
  have hlisted : (d'.setChan c { d'.chan c with currNode := last }).listed c = d.listed c := by
    refine (listed_setChan (by rfl) (by rfl)).trans ?_
    unfold listed
    rw [h.chan]
  refine ⟨h.toSameBands.trans (sameBands_setChan ..), hlisted, ?_, ?_, h.node,
    h.linked.congr (sameBands_setChan ..) fun _ _ ↦ rfl, ?_⟩
  · rw [setChan_chan_self, h.chan]
  · rw [setChan_chan_self]
    exact hlast
  · exact (supply_setChan (by rfl) (by rfl)).trans h.supply

/-- The chain of a channel to which buffers were added: the nodes at `as`, taken from all nodes of
the channel, of which `rest` is left. -/
structure Bound (d₀ d : Dev) (c : ChanId) (as rest : List ℕ) (ps : List Extent) : Prop
    extends SameBands d₀ d where
  listed : d.listed c = d₀.listed c
  all : d₀.allNodes c = as ++ rest
  supply : d.supply c = rest
  linked : d.LinkedTo 0 as ps
  head : as.head? = some (d.chan c).headNode
  last : as.getLast? = some (d.chan c).currNode

theorem ne_zero_of_mem_allNodes (hlaid : d.Laid) (ha : a ∈ d.allNodes c) : a ≠ 0 := by
  obtain ⟨k, -, rfl⟩ := mem_allNodes hlaid ha
  have := hlaid.virt_pos
  omega

/-- **The first buffer** starts the chain. -/
theorem addBuffer_first (hlaid : d.Laid) (hnodup : (d.listed c).Nodup) (hb : b.WellFormed)
    (hlli : dmaMaxXferSize ≤ lliXferSize) (hfirst : b.firstBuffer = true)
    (hret : (d.chalDmaAddBuffer c b lliXferSize).1 = 0) :
    ∃ as rest, d.Bound (d.chalDmaAddBuffer c b lliXferSize).2 c as rest (b.pieces lliXferSize) := by
  unfold chalDmaAddBuffer at hret ⊢
  rw [if_neg (not_lt.2 hlli), if_pos hfirst] at hret ⊢
  have hlisted : d.listed c ≠ [] := fun hnil ↦ by
    have hget : d.chalDmaGetFirstNode c = (0, d) := by
      unfold chalDmaGetFirstNode
      rw [hnil]
    rw [hget] at hret
    exact hb.pos.ne' hret
  obtain ⟨a, rest, d₁, hall, hget, hsame, hsup⟩ := getFirstNode_of_laid hlaid hnodup hlisted
  have hne : ∀ a' ∈ a :: rest, a' ≠ 0 := fun a' ha' ↦ ne_zero_of_mem_allNodes hlaid (hall ▸ ha')
  obtain ⟨a, rfl⟩ := Nat.exists_eq_succ_of_ne_zero (hne a mem_cons_self)
  rw [hget] at hret ⊢
  simp only at ⊢
  have hlisted₂ : (d₁.setChan c { d₁.chan c with headNode := a + 1 }).listed c = d.listed c :=
    (listed_setChan (by rfl) (by rfl)).trans (hsame.listed c)
  obtain ⟨as, rest', rfl, h⟩ := fillNodes_spec (hlisted₂ ▸ hnodup)
    ((supply_setChan (by rfl) (by rfl)).trans hsup) (hall ▸ allNodes_nodup hlaid hnodup)
    (fun a' ha' ↦ hne a' (mem_cons_of_mem _ ha')) (by unfold dmaMaxXferSize at hlli; omega) hb hret
  refine ⟨(a + 1) :: as, rest', ?_, h.listed.trans hlisted₂, hall, h.supply, h.linked, ?_, h.last⟩
  · exact (hsame.toSameBands.trans (sameBands_setChan ..)).trans h.toSameBands
  · rw [h.headNode, setChan_chan_self]
    rfl

/-- **A further buffer** is linked behind the chain. -/
theorem Bound.addBuffer (h : d₀.Bound d c as rest ps)
    (hlaid : d₀.Laid) (hnodup : (d₀.listed c).Nodup) (hb : b.WellFormed)
    (hlli : dmaMaxXferSize ≤ lliXferSize) (hfirst : b.firstBuffer = false)
    (hret : (d.chalDmaAddBuffer c b lliXferSize).1 = 0) :
    ∃ as' rest', d₀.Bound (d.chalDmaAddBuffer c b lliXferSize).2 c as' rest'
      (ps ++ b.pieces lliXferSize) := by
  unfold chalDmaAddBuffer at hret ⊢
  rw [if_neg (not_lt.2 hlli), if_neg (by rw [hfirst]; exact Bool.false_ne_true)] at hret ⊢
  have hall := h.all
  have hnodups := allNodes_nodup hlaid hnodup
  rw [hall, nodup_append] at hnodups
  obtain ⟨has, hrest, hdisj⟩ := hnodups
  cases rest with
  | nil =>
    rw [getNextNode_of_nil h.supply] at hret
    rw [Nat.div_mul_cancel hb.dvd] at hret
    exact absurd hret hb.pos.ne'
  | cons a rest =>
    have hne : ∀ a' ∈ a :: rest, a' ≠ 0 := fun a' ha' ↦
      ne_zero_of_mem_allNodes hlaid (hall ▸ mem_append_right _ ha')
    obtain ⟨d₁, hnext, hsame, hsup⟩ := getNextNode_of_cons (h.listed ▸ hnodup) h.supply
    obtain ⟨a, rfl⟩ := Nat.exists_eq_succ_of_ne_zero (hne a mem_cons_self)
    rw [hnext] at hret ⊢
    simp only at hret ⊢
    -- the last node of the chain is linked to the new one
    have hlinked := ((h.linked.congr hsame.toSameBands fun a' _ ↦ congrFun hsame.node a').relink
      (d₁.chalDmaGetLliPhysicalAddr (a + 1)) has h.last)
    generalize hd₂ : d₁.setNode (d.chan c).currNode
      { d₁.node (d.chan c).currNode with next := d₁.chalDmaGetLliPhysicalAddr (a + 1) } = d₂
      at hret hlinked
    have hsame₂ : d₁.SameBands d₂ := hd₂ ▸ sameBands_setNode ..
    have hchan₂ : d₂.chan = d.chan := by
      rw [← hd₂]
      exact hsame.chan
    have hlisted₂ : d₂.listed c = d₀.listed c := by grind [h.listed, Dev.listed]
    have hsup₂ : d₂.supply c = rest := by
      rw [← hd₂]
      exact hsup
    obtain ⟨as', rest', rfl, h'⟩ := fillNodes_spec (hlisted₂ ▸ hnodup) hsup₂ hrest
      (fun a' ha' ↦ hne a' (mem_cons_of_mem _ ha')) (by unfold dmaMaxXferSize at hlli; omega) hb
      hret
    refine ⟨as ++ (a + 1) :: as', rest', ?_, h'.listed.trans hlisted₂, ?_, h'.supply, ?_, ?_, ?_⟩
    · exact ((h.toSameBands.trans hsame.toSameBands).trans hsame₂).trans h'.toSameBands
    · rw [hall, append_assoc]
      rfl
    · refine LinkedTo.append ?_ h'.linked
      rw [(hsame₂.trans h'.toSameBands).physicalAddr]
      refine hlinked.congr h'.toSameBands fun a' ha' ↦ h'.node a' fun hmem ↦ ?_
      exact hdisj a' ha' a' (mem_append_left rest' hmem) rfl
    · rw [h'.headNode, hchan₂, List.head?_append, h.head]
      rfl
    · rw [List.getLast?_append, h'.last]
      rfl

/-! ### All buffers -/

/-- The loop of `csl_dma_bind_data` over the buffers: what the calls return, and the state. The
first buffer is marked as such. -/
def bindBuffers (c : ChanId) (lliXferSize : ℕ) : Bool → Dev → List BufferDesc → List ℕ × Dev
  | _, d, [] => ([], d)
  | first, d, b :: bs =>
    let (r, d) := d.chalDmaAddBuffer c { b with firstBuffer := first } lliXferSize
    let (rs, d) := bindBuffers c lliXferSize false d bs
    (r :: rs, d)

theorem Bound.bindBuffers
    (h : d₀.Bound d c as rest ps) (hlaid : d₀.Laid) (hnodup : (d₀.listed c).Nodup)
    (hlli : dmaMaxXferSize ≤ lliXferSize) (hbs : ∀ b ∈ bs, b.WellFormed)
    (hret : ∀ r ∈ (bindBuffers c lliXferSize false d bs).1, r = 0) :
    ∃ as' rest', d₀.Bound (bindBuffers c lliXferSize false d bs).2 c as' rest'
      (ps ++ bs.flatMap (·.pieces lliXferSize)) := by
  induction bs generalizing d as rest ps with
  | nil => exact ⟨as, rest, (append_nil ps).symm ▸ h⟩
  | cons b bs ih =>
    obtain ⟨hr, hrs⟩ := forall_mem_cons.1 hret
    obtain ⟨hb, hbs⟩ := forall_mem_cons.1 hbs
    obtain ⟨as₁, rest₁, h₁⟩ := h.addBuffer hlaid hnodup (hb.setFirst false) hlli rfl hr
    rw [pieces_setFirst] at h₁
    obtain ⟨as₂, rest₂, h₂⟩ := ih h₁ hbs hrs
    rw [append_assoc] at h₂
    exact ⟨as₂, rest₂, h₂⟩

/-- **The chain after all buffers are bound.** -/
theorem bindBuffers_bound (hlaid : d.Laid) (hnodup : (d.listed c).Nodup)
    (hlli : dmaMaxXferSize ≤ lliXferSize) (hne : bs ≠ []) (hbs : ∀ b ∈ bs, b.WellFormed)
    (hret : ∀ r ∈ (bindBuffers c lliXferSize true d bs).1, r = 0) :
    ∃ as rest, d.Bound (bindBuffers c lliXferSize true d bs).2 c as rest
      (bs.flatMap (·.pieces lliXferSize)) := by
  obtain ⟨b, bs, rfl⟩ := exists_cons_of_ne_nil hne
  obtain ⟨hr, hrs⟩ := forall_mem_cons.1 hret
  obtain ⟨hb, hbs⟩ := forall_mem_cons.1 hbs
  obtain ⟨as₁, rest₁, h₁⟩ := addBuffer_first hlaid hnodup (hb.setFirst true) hlli rfl hr
  rw [pieces_setFirst] at h₁
  exact h₁.bindBuffers hlaid hnodup hlli hbs hrs

/-! ### What the controller visits -/

/-- The nodes that are visited from the node at `a` on: the next one is the one with the physical
address `next`, until that is null. -/
inductive Follows (d : Dev) : ℕ → List ℕ → Prop
  | last {a : ℕ} : (d.node a).next = 0 → Follows d a [a]
  | link {a : ℕ} {as : List ℕ} : (d.node a).next ≠ 0 → Follows d
    (d.virtualAddr (d.node a).next) as →
      Follows d a (a :: as)

theorem Follows.unique {as' : List ℕ} (h : d.Follows a as) (h' : d.Follows a as') : as = as' := by
  induction h generalizing as' with
  | last hnext =>
    cases h' with
    | last => rfl
    | link hnext' => exact absurd hnext hnext'
  | link hnext _ ih =>
    cases h' with
    | last hnext' => exact absurd hnext' hnext
    | link _ hrest => rw [ih hrest]

theorem LinkedTo.follows (h : d.LinkedTo 0 (a :: as) ps)
    (haddr : ∀ a' ∈ as, d.chalDmaGetLliPhysicalAddr a' ≠ 0 ∧
      d.virtualAddr (d.chalDmaGetLliPhysicalAddr a') = a') : d.Follows a (a :: as) := by
  induction as generalizing a ps with
  | nil =>
    cases ps with
    | nil => exact h.elim
    | cons => exact .last h.2.1
  | cons a' as ih =>
    cases ps with
    | nil => exact h.elim
    | cons p ps =>
      obtain ⟨-, hnext, hrest⟩ := h
      have hnext : (d.node a).next = d.chalDmaGetLliPhysicalAddr a' := hnext
      obtain ⟨hne, heq⟩ := haddr a' mem_cons_self
      refine .link (hnext ▸ hne) ?_
      rw [hnext, heq]
      exact ih hrest fun x hx ↦ haddr x (mem_cons_of_mem _ hx)

theorem LinkedTo.map_extent {e : ℕ} (h : d.LinkedTo e as ps) :
    (as.map fun a ↦ (d.node a).extent) = ps := by
  induction as generalizing ps with
  | nil =>
    cases ps with
    | nil => rfl
    | cons => exact h.elim
  | cons a as ih =>
    cases ps with
    | nil => exact h.elim
    | cons p ps =>
      obtain ⟨hext, -, hrest⟩ := h
      rw [map_cons, hext, ih hrest]

theorem Bound.follows (h : d₀.Bound d c as rest ps)
    (hlaid : d₀.Laid) : d.Follows (d.chan c).headNode as := by
  have hhead := h.head
  cases as with
  | nil => cases hhead
  | cons a as =>
    cases hhead
    refine h.linked.follows fun a' ha' ↦ ?_
    have hmem : a' ∈ d₀.allNodes c := by
      rw [h.all]
      exact mem_append_left _ (mem_cons_of_mem _ ha')
    have hvirtual : ∀ p, d.virtualAddr p = d₀.virtualAddr p := fun p ↦ by
      unfold virtualAddr
      rw [h.virt, h.phys]
    rw [h.toSameBands.physicalAddr, hvirtual]
    exact physicalAddr_spec hlaid hmem

/-- What is visited tiles a request exactly if the pieces that were bound do. -/
theorem Bound.tiles_iff {rs : List Extent} (h : d₀.Bound d c as rest ps) (hlaid : d₀.Laid) :
    (∃ as', d.Follows (d.chan c).headNode as' ∧ Tiles rs (as'.map fun a ↦ (d.node a).extent)) ↔
      Tiles rs ps := by
  rw [← h.linked.map_extent]
  constructor
  · rintro ⟨as', hfollows, htiles⟩
    rw [(h.follows hlaid).unique hfollows]
    exact htiles
  · exact fun htiles ↦ ⟨as, h.follows hlaid, htiles⟩

/-! ### A channel that is configured -/

/-- The bands of a channel are some of those into which the memory is divided, at most as many as
there is room for. -/
structure Ready (d : Dev) (c : ChanId) : Prop where
  laid : d.Laid
  nodup : (d.listed c).Nodup
  bandNum_le : (d.chan c).bandNum ≤ maxBandNumPerChan

theorem SameBands.laid (h : d.SameBands d') (hlaid : d.Laid) : d'.Laid where
  firstNode i := by rw [h.firstNode, hlaid.firstNode, h.virt, h.perBand]
  nodeNum i := by rw [h.nodeNum, hlaid.nodeNum, h.perBand]
  perBand_pos := h.perBand.symm ▸ hlaid.perBand_pos
  virt_pos := h.virt.symm ▸ hlaid.virt_pos
  virt_le := h.virt.symm ▸ h.perBand.symm ▸ hlaid.virt_le
  phys_pos := h.phys.symm ▸ hlaid.phys_pos
  phys_le := h.phys.symm ▸ h.perBand.symm ▸ hlaid.phys_le

theorem SameBands.enlist (d : Dev) (c : ChanId) (i : ℕ) (j : BandId) :
    d.SameBands (d.enlist c i j) :=
  ⟨rfl, rfl, rfl, proj_update Band.firstNode rfl, proj_update Band.nodeNum rfl⟩

theorem SameBands.unmark (d : Dev) (c : ChanId) : d.SameBands (d.unmark c) := by
  refine ⟨rfl, rfl, rfl, fun i ↦ ?_, fun i ↦ ?_⟩
  · show (if i ∈ d.listed c then _ else _ : Band).firstNode = _
    split <;> rfl
  · show (if i ∈ d.listed c then _ else _ : Band).nodeNum = _
    split <;> rfl

theorem SameBands.reserve (d : Dev) (c : ChanId) (i n : ℕ) : d.SameBands (d.reserve c i n).2 := by
  induction n generalizing d i with
  | zero => exact ⟨rfl, rfl, rfl, fun _ ↦ rfl, fun _ ↦ rfl⟩
  | succ n ih =>
    rw [Dev.reserve]
    split
    · next j _ => exact (SameBands.enlist d c i j).trans (ih ..)
    · exact (SameBands.unmark d c).trans (sameBands_setChan ..)

/-- **A configured channel is ready**, if no more bands were asked for than there is room for. -/
theorem ready_of_config {chan : Fin totalDmaChannels} {assoc : Option (Fin associateChannel)}
    {n : ℕ}
    (hlaid : d.Laid) (hused : (d.chan (configChan chan assoc)).bUsed = true)
    (hn : d.bandRequested n ≤ maxBandNumPerChan) :
    (d.chalDmaConfigChannel chan assoc n).2.Ready (configChan chan assoc) := by
  obtain ⟨js, hcfg, -⟩ := config_used hused
  have hsame : d.SameBands (d.chalDmaConfigChannel chan assoc n).2 := by
    unfold chalDmaConfigChannel
    rw [if_pos hused]
    exact (sameBands_setChan ..).trans (.reserve ..)
  refine ⟨hsame.laid hlaid, hcfg.listed.symm ▸ hcfg.nodup, ?_⟩
  rw [hcfg.bandNum]
  exact (hcfg.le.trans (min_le_left ..)).trans hn

end Dev

/-- **The chain describes the request** exactly if every buffer can be described: it fits into one
node, or nodes hold 4095 items and both widths are the same. -/
theorem chain_describes_iff {d : Dev} {c : ChanId} {lliXferSize : ℕ} {bs : List BufferDesc}
    (hready : d.Ready c) (hlli : dmaMaxXferSize ≤ lliXferSize) (hne : bs ≠ [])
    (hbs : ∀ b ∈ bs, b.WellFormed)
    (hret : ∀ r ∈ (Dev.bindBuffers c lliXferSize true d bs).1, r = 0) :
    (∃ as, (Dev.bindBuffers c lliXferSize true d bs).2.Follows
          ((Dev.bindBuffers c lliXferSize true d bs).2.chan c).headNode as ∧
        Tiles (bs.map BufferDesc.request)
          (as.map fun a ↦ ((Dev.bindBuffers c lliXferSize true d bs).2.node a).extent)) ↔
      ∀ b ∈ bs, b.Describable lliXferSize := by
  obtain ⟨as, rest, h⟩ := bindBuffers_bound hready.laid hready.nodup hlli hne hbs hret
  exact (h.tiles_iff hready.laid).trans (tiles_iff hlli hbs)

/-- The device with channel 0 configured. -/
def devReady : Dev :=
  let d := (devBoot 0x10000 0x20000 16384).chalDmaAllocateSpecificChannel
    (Dev.configChan ⟨0, by decide⟩ none)
  (d.2.chalDmaConfigChannel ⟨0, by decide⟩ none 0).2

theorem devReady_ready : devReady.Ready (configChan ⟨0, by decide⟩ none) := by
  refine ready_of_config ?_ (by decide +kernel) (by decide +kernel)
  refine Dev.SameBands.laid (sameBands_setChan ..) ?_
  exact ⟨fun _ ↦ rfl, fun _ ↦ rfl, by decide, by decide, by decide, by decide, by decide⟩

/-- A buffer with incrementing addresses. -/
def memoryBuffer (src dst size : ℕ) (srcWidth dstWidth : Fin 3) : BufferDesc :=
  ⟨false, src, dst, size, 1, 0, 1, 1, 0, 0, dstWidth, srcWidth, 0, 0⟩

/-- Two buffers of words, the first one in two pieces. -/
theorem chain_describes_two : let c := Dev.configChan ⟨0, by decide⟩ none
    let bs := [memoryBuffer 0x100000 0x200000 20000 2 2, memoryBuffer 0x300000 0x400000 64 0 2]
    let d := (Dev.bindBuffers c 4095 true devReady bs).2
    ∃ as, d.Follows (d.chan c).headNode as ∧
      Tiles (bs.map BufferDesc.request) (as.map fun a ↦ (d.node a).extent) := by
  refine (chain_describes_iff devReady_ready (by decide) (by decide) ?_ (by decide +kernel)).2
    (by decide)
  rw [forall_mem_cons, forall_mem_singleton]
  exact ⟨⟨by decide, by decide, by decide, by decide, by decide, rfl, rfl⟩,
    ⟨by decide, by decide, by decide, by decide, by decide, rfl, rfl⟩⟩

theorem not_describes {d : Dev} {c : ChanId} {lliXferSize : ℕ} {b : BufferDesc} (hready : d.Ready c)
    (hlli : dmaMaxXferSize ≤ lliXferSize) (hb : b.WellFormed) (hdesc : ¬b.Describable lliXferSize)
    (hret : (bindBuffers c lliXferSize true d [b]).1 = [0]) :
    ¬∃ as, (bindBuffers c lliXferSize true d [b]).2.Follows
        ((bindBuffers c lliXferSize true d [b]).2.chan c).headNode as ∧
      Tiles [b.request]
        (as.map fun a ↦ ((bindBuffers c lliXferSize true d [b]).2.node a).extent) := by
  intro hex
  have hbs : ∀ b' ∈ [b], b'.WellFormed := forall_mem_singleton.2 hb
  obtain ⟨as, rest, h⟩ := bindBuffers_bound hready.laid hready.nodup hlli (cons_ne_nil b []) hbs
    (by rw [hret]; exact forall_mem_singleton.2 rfl)
  exact hdesc ((tiles_iff hlli hbs).1 ((h.tiles_iff hready.laid).1 hex) b mem_cons_self)

/-- **Two ways to misdescribe a buffer.** 5000 items in one node are 904; and when bytes are
gathered into words, the second piece is written three pieces too far. -/
theorem chain_misdescribes : let c := Dev.configChan ⟨0, by decide⟩ none
    (let bs := [memoryBuffer 0x100000 0x200000 5000 0 0]
      let d := Dev.bindBuffers c 8192 true devReady bs
      d.1 = [0] ∧ ¬∃ as, d.2.Follows (d.2.chan c).headNode as ∧
        Tiles (bs.map BufferDesc.request) (as.map fun a ↦ (d.2.node a).extent)) ∧
    (let bs := [memoryBuffer 0x100000 0x200000 8000 0 2]
      let d := Dev.bindBuffers c 4095 true devReady bs
      d.1 = [0] ∧ ¬∃ as, d.2.Follows (d.2.chan c).headNode as ∧
        Tiles (bs.map BufferDesc.request) (as.map fun a ↦ (d.2.node a).extent)) := by
  refine ⟨⟨by decide +kernel, not_describes devReady_ready (by decide) ?_ (by decide)
    (by decide +kernel)⟩,
    ⟨by decide +kernel, not_describes devReady_ready (by decide) ?_ (by decide)
      (by decide +kernel)⟩⟩
  · exact ⟨by decide, by decide, by decide, by decide, by decide, rfl, rfl⟩
  · exact ⟨by decide, by decide, by decide, by decide, by decide, rfl, rfl⟩

end Dma
