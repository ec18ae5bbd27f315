import MerrukKernel.Dma.Model
import MerrukKernel.Library.Update

/-!
# The nodes of a channel

The nodes of a channel come from its bands, the first band first. What is left of them is a list
of addresses, the supply: `chal_dma_get_next_node` takes its head, and `chal_dma_get_first_node`
starts again with all of them.

The addresses of a supply are distinct and lie in the memory of the nodes, so that the physical
address of a node determines the node.
-/

namespace Dma

open Function List

namespace Dev

variable {d d' : Dev} {c : ChanId} {j : BandId}

/-- The memory is divided into bands, and neither its virtual nor its physical range contains
address `0` or wraps around. -/
structure Laid (d : Dev) : Prop where
  firstNode : ∀ i, (d.band i).firstNode = d.lliVirtualAddr + i * d.nodeNumPerBand * dmaLliNodeSize
  nodeNum : ∀ i, (d.band i).nodeNum = d.nodeNumPerBand
  perBand_pos : 0 < d.nodeNumPerBand
  virt_pos : 0 < d.lliVirtualAddr
  virt_le : d.lliVirtualAddr + lliNodeBandNum * d.nodeNumPerBand * dmaLliNodeSize ≤ 2 ^ 32
  phys_pos : 0 < d.lliPhysicalAddr
  phys_le : d.lliPhysicalAddr + lliNodeBandNum * d.nodeNumPerBand * dmaLliNodeSize ≤ 2 ^ 32

/-- The nodes of a band that are left. -/
def remaining (b : Band) : List ℕ :=
  (List.range' b.currNode (b.nodeNum - b.currNode)).map fun i ↦ b.firstNode + i * dmaLliNodeSize

/-- The nodes of a channel that are left. -/
def supply (d : Dev) (c : ChanId) : List ℕ := (d.listed c).flatMap fun j ↦ remaining (d.band j)

/-- All nodes of a channel. -/
def allNodes (d : Dev) (c : ChanId) : List ℕ :=
  (d.listed c).flatMap fun j ↦ remaining { d.band j with currNode := 0 }

/-! ### Taking nodes -/

variable {b : Band} {band : BandId → Band} {bs : List BandId} {d₁ d₂ d₃ : Dev} {a : ℕ}

theorem remaining_eq_nil (h : ¬b.currNode < b.nodeNum) : remaining b = [] := by
  unfold remaining
  rw [Nat.sub_eq_zero_of_le (not_lt.1 h)]
  rfl

theorem remaining_eq_cons (h : b.currNode < b.nodeNum) :
    remaining b = (b.firstNode + b.currNode * dmaLliNodeSize) ::
      remaining { b with currNode := b.currNode + 1 } := by
  obtain ⟨k, hk⟩ : ∃ k, b.nodeNum - b.currNode = k + 1 := ⟨b.nodeNum - b.currNode - 1, by omega⟩
  have hk' : b.nodeNum - (b.currNode + 1) = k := by omega
  unfold remaining
  simp only [hk, hk', range'_succ, map_cons]

theorem flatMap_remaining_eq_nil (h : ∀ j ∈ bs, ¬(band j).currNode < (band j).nodeNum) :
    (bs.flatMap fun j ↦ remaining (band j)) = [] :=
  flatMap_eq_nil_iff.2 fun j hj ↦ remaining_eq_nil (h j hj)

/-- The first band that is not exhausted gives the head of the supply. -/
theorem flatMap_remaining_eq_cons (hnodup : bs.Nodup)
    (hfind : (bs.find? fun j ↦ (band j).currNode < (band j).nodeNum) = some j) :
    (bs.flatMap fun j ↦ remaining (band j)) =
      ((band j).firstNode + (band j).currNode * dmaLliNodeSize) :: bs.flatMap fun i ↦ remaining
          (update band j { band j with currNode := (band j).currNode + 1 } i) := by
  obtain ⟨hlt, as, bs, rfl, has⟩ := List.find?_eq_some_iff_append.1 hfind
  simp only [decide_eq_true_eq, Bool.not_eq_eq_eq_not, Bool.not_true,
    decide_eq_false_iff_not] at hlt has
  rw [nodup_append] at hnodup
  obtain ⟨-, ⟨hbs, -⟩, hdisj⟩ := hnodup
  set band' := update band j { band j with currNode := (band j).currNode + 1 } with hband'
  have hupd : ∀ i, i ≠ j → band' i = band i := fun i hi ↦ update_of_ne hi ..
  have hfront : (as.flatMap fun i ↦ remaining (band' i)) = [] := by
    refine flatMap_remaining_eq_nil fun i hi ↦ ?_
    rw [hupd i (hdisj i hi j mem_cons_self)]
    exact has i hi
  have hback : (bs.flatMap fun i ↦ remaining (band' i)) = bs.flatMap
      fun i ↦ remaining (band i) := by
    grind [flatMap_congr]
  rw [flatMap_append, flatMap_append, flatMap_cons, flatMap_cons,
    flatMap_remaining_eq_nil has, hfront, hback, hband', update_self, remaining_eq_cons hlt]
  rfl

/-- The memory of the nodes and its division into bands stay as they were. -/
structure SameBands (d d' : Dev) : Prop where
  virt : d'.lliVirtualAddr = d.lliVirtualAddr
  phys : d'.lliPhysicalAddr = d.lliPhysicalAddr
  perBand : d'.nodeNumPerBand = d.nodeNumPerBand
  firstNode : ∀ j, (d'.band j).firstNode = (d.band j).firstNode
  nodeNum : ∀ j, (d'.band j).nodeNum = (d.band j).nodeNum

theorem SameBands.trans (h : d₁.SameBands d₂) (h' : d₂.SameBands d₃) : d₁.SameBands d₃ :=
  ⟨h'.virt.trans h.virt, h'.phys.trans h.phys, h'.perBand.trans h.perBand,
    fun j ↦ (h'.firstNode j).trans (h.firstNode j), fun j ↦ (h'.nodeNum j).trans (h.nodeNum j)⟩

/-- What taking a node leaves as it was. -/
structure SameNodes (d d' : Dev) : Prop extends SameBands d d' where
  chan : d'.chan = d.chan
  node : d'.node = d.node

theorem SameNodes.setCurr (d : Dev) (j : BandId) (n : ℕ) :
    d.SameNodes (d.setBand j { d.band j with currNode := n }) :=
  ⟨⟨rfl, rfl, rfl, proj_update Band.firstNode rfl, proj_update Band.nodeNum rfl⟩, rfl, rfl⟩

theorem SameNodes.trans (h : d₁.SameNodes d₂) (h' : d₂.SameNodes d₃) : d₁.SameNodes d₃ :=
  ⟨h.toSameBands.trans h'.toSameBands, h'.chan.trans h.chan, h'.node.trans h.node⟩

theorem SameNodes.rewind (d : Dev) (c : ChanId) : d.SameNodes (d.rewind c) := by
  refine ⟨⟨rfl, rfl, rfl, fun i ↦ ?_, fun i ↦ ?_⟩, rfl, rfl⟩
  · show (if i ∈ d.listed c then _ else _ : Band).firstNode = _
    split <;> rfl
  · show (if i ∈ d.listed c then _ else _ : Band).nodeNum = _
    split <;> rfl

theorem supply_rewind (d : Dev) (c : ChanId) : (d.rewind c).supply c = d.allNodes c := by
  refine flatMap_congr fun j hj ↦ congrArg remaining ?_
  exact if_pos hj

theorem SameNodes.listed (h : d.SameNodes d') (c : ChanId) : d'.listed c = d.listed c := by
  unfold Dev.listed
  rw [h.chan]

theorem getNextNode_of_nil (h : d.supply c = []) : d.chalDmaGetNextNode c = (0, d) := by
  unfold chalDmaGetNextNode
  cases hfind : (d.listed c).find? fun j ↦ (d.band j).currNode < (d.band j).nodeNum with
  | none => rfl
  | some j =>
    have hmem := mem_of_find?_eq_some hfind
    have hlt := List.find?_some hfind
    rw [decide_eq_true_eq] at hlt
    have hnil := flatMap_eq_nil_iff.1 h j hmem
    rw [remaining_eq_cons hlt] at hnil
    cases hnil

/-- **The next node** is the head of the supply. -/
theorem getNextNode_of_cons {rest : List ℕ} (hnodup : (d.listed c).Nodup)
    (h : d.supply c = a :: rest) :
    ∃ d', d.chalDmaGetNextNode c = (a, d') ∧ d.SameNodes d' ∧ d'.supply c = rest := by
  unfold chalDmaGetNextNode
  cases hfind : (d.listed c).find? fun j ↦ (d.band j).currNode < (d.band j).nodeNum with
  | none =>
    rw [List.find?_eq_none] at hfind
    have hnil : d.supply c = [] := flatMap_remaining_eq_nil fun j hj ↦ by simpa using hfind j hj
    rw [hnil] at h
    cases h
  | some j =>
    have hcons := flatMap_remaining_eq_cons hnodup hfind
    obtain ⟨rfl, hrest⟩ := List.cons.inj (hcons.symm.trans h)
    exact ⟨_, rfl, .setCurr d j _, hrest⟩

/-- **The first node** is the head of all nodes, the rest of which are the supply afterwards. -/
theorem getFirstNode_of_laid (hlaid : d.Laid) (hnodup : (d.listed c).Nodup) (h : d.listed c ≠ []) :
    ∃ a rest d', d.allNodes c = a :: rest ∧ d.chalDmaGetFirstNode c = (a, d') ∧ d.SameNodes d' ∧
      d'.supply c = rest := by
  obtain ⟨j, js, hlisted⟩ := exists_cons_of_ne_nil h
  have hj : j ∈ d.listed c := hlisted ▸ mem_cons_self
  have hzero : ((d.rewind c).band j).currNode = 0 :=
    congrArg Band.currNode (if_pos hj : (d.rewind c).band j = _)
  have hfind : ((d.rewind c).listed c).find?
      (fun j ↦ ((d.rewind c).band j).currNode < ((d.rewind c).band j).nodeNum) = some j := by
    rw [(SameNodes.rewind d c).listed, hlisted, List.find?_cons_of_pos]
    rw [decide_eq_true_eq, hzero, (SameNodes.rewind d c).nodeNum, hlaid.nodeNum]
    exact hlaid.perBand_pos
  have hcons := flatMap_remaining_eq_cons (hnodup : ((d.rewind c).listed c).Nodup) hfind
  refine ⟨_, _, _, (supply_rewind d c).symm.trans hcons, ?_,
    (SameNodes.rewind d c).trans (.setCurr (d.rewind c) j _), rfl⟩
  unfold chalDmaGetFirstNode
  rw [hlisted]
  show (((d.rewind c).band j).firstNode, _) = _
  rw [hzero]
  rfl

/-! ### Addresses -/

theorem mem_allNodes (h : d.Laid) (ha : a ∈ d.allNodes c) :
    ∃ k, k < lliNodeBandNum * d.nodeNumPerBand ∧ a = d.lliVirtualAddr + k * dmaLliNodeSize := by
  obtain ⟨j, -, hj⟩ := mem_flatMap.1 ha
  obtain ⟨i, hi, rfl⟩ := mem_map.1 hj
  rw [mem_range'_1] at hi
  have hi : i < d.nodeNumPerBand := by
    have := hi.2
    rw [h.nodeNum] at this
    omega
  refine ⟨j * d.nodeNumPerBand + i, ?_, ?_⟩
  · calc j * d.nodeNumPerBand + i < j * d.nodeNumPerBand + d.nodeNumPerBand := by omega
      _ = (j + 1) * d.nodeNumPerBand := (Nat.succ_mul ..).symm
      _ ≤ lliNodeBandNum * d.nodeNumPerBand := Nat.mul_le_mul_right _ j.isLt
  · show (d.band j).firstNode + i * dmaLliNodeSize = _
    rw [h.firstNode, Nat.add_mul, Nat.add_assoc]

theorem node_lt {n i i' : ℕ} {j j' : BandId} (hj : j < j') (hi : i < n) :
    j * n + i < j' * n + i' := by
  have hle : (j + 1) * n ≤ j' * n := Nat.mul_le_mul_right n (Fin.lt_def.1 hj)
  rw [Nat.succ_mul] at hle
  omega

theorem allNodes_nodup (h : d.Laid) (hnodup : (d.listed c).Nodup) : (d.allNodes c).Nodup := by
  refine nodup_flatMap.2 ⟨fun j _ ↦ ?_, hnodup.imp fun {j j'} hne ↦ ?_⟩
  · refine (nodup_range' ..).map fun i i' heq ↦ ?_
    rw [dmaLliNodeSize] at heq
    omega
  · rintro a ha ha'
    obtain ⟨i, hi, rfl⟩ := mem_map.1 ha
    obtain ⟨i', hi', heq⟩ := mem_map.1 ha'
    have hlt : ∀ {j : BandId} {i : ℕ}, i ∈ List.range' 0 ((d.band j).nodeNum - 0) →
        i < d.nodeNumPerBand := fun {j i} hi ↦ by
      rw [mem_range'_1, h.nodeNum] at hi
      omega
    rw [h.firstNode, h.firstNode, Nat.add_assoc, Nat.add_assoc, ← Nat.add_mul, ← Nat.add_mul] at heq
    have heq := Nat.eq_of_mul_eq_mul_right (by decide) (Nat.add_left_cancel heq)
    rcases lt_or_gt_of_ne hne with hj | hj
    · exact (node_lt hj (hlt hi)).ne' heq
    · exact (node_lt hj (hlt hi')).ne heq

/-- The node with a physical address. -/
def virtualAddr (d : Dev) (p : ℕ) : ℕ :=
  (d.lliVirtualAddr + p + (2 ^ 32 - d.lliPhysicalAddr)) % 2 ^ 32

theorem physicalAddr_spec (h : d.Laid) (ha : a ∈ d.allNodes c) :
    d.chalDmaGetLliPhysicalAddr a ≠ 0 ∧ d.virtualAddr (d.chalDmaGetLliPhysicalAddr a) = a := by
  obtain ⟨k, hk, rfl⟩ := mem_allNodes h ha
  have hv := h.virt_le
  have hp := h.phys_le
  have hp0 := h.phys_pos
  have hk' : k * dmaLliNodeSize < lliNodeBandNum * d.nodeNumPerBand * dmaLliNodeSize :=
    Nat.mul_lt_mul_of_pos_right hk (by decide)
  generalize k * dmaLliNodeSize = x at hk'
  have hphys : d.chalDmaGetLliPhysicalAddr (d.lliVirtualAddr + x) = d.lliPhysicalAddr + x := by
    unfold chalDmaGetLliPhysicalAddr
    omega
  unfold virtualAddr
  omega

end Dev

end Dma
