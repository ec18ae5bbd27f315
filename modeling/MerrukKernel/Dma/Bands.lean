import MerrukKernel.Dma.Model
import MerrukKernel.Library.Trace

/-!
# Every band has one owner

A band is marked as used exactly when one channel that is in use lists it. `reserve_eq` says what
a configuration does in one line: it takes the first bands that are free, as many as are asked
for, or it fails and leaves the marks as they were.

The three functions do not agree about who forgets the list of a channel. A configuration of a
channel that has bands drops its list and leaves their marks; `chal_dma_free_channel` removes the
marks and leaves the list, which is live again when the channel is allocated, and which is
unmarked once more when the channel is freed again; and a configuration may list more bands than
there is room for. The guard of `safeBandMachine` leaves out exactly these calls.
-/

namespace Dma

open Function List

variable {assoc : Option (Fin associateChannel)} {chan : Fin totalDmaChannels} {n : ℕ}

namespace Dev

variable {d : Dev} {c : ChanId} {j : BandId}

/-- The bands that are not used. -/
def free (d : Dev) : List BandId := (List.finRange lliNodeBandNum).filter fun j ↦ !(d.band j).bUsed

theorem mem_free : j ∈ d.free ↔ (d.band j).bUsed = false := by
  simp [free]

theorem free_nodup (d : Dev) : d.free.Nodup := (nodup_finRange _).filter _

theorem freeBand?_eq (d : Dev) : d.freeBand? = d.free.head? := List.head?_filter.symm

/-! ### Reserving bands -/

/-- Bands are entered one after the other. -/
def enlistAll (d : Dev) (c : ChanId) : ℕ → List BandId → Dev
  | _, [] => d
  | i, j :: js => (d.enlist c i j).enlistAll c (i + 1) js

theorem free_enlist {i : ℕ} {js : List BandId} (h : d.free = j :: js) :
    (d.enlist c i j).free = js := by
  have hj : j ∉ js := (nodup_cons.1 (h ▸ d.free_nodup)).1
  have hused : ∀ x, (!((d.enlist c i j).band x).bUsed) = (decide (x ≠ j) && !(d.band x).bUsed) := by
    intro x
    show (!(update d.band j _ x).bUsed) = _
    by_cases hx : x = j
    · subst hx
      simp
    · simp [hx]
  calc (d.enlist c i j).free
      = d.free.filter fun x ↦ decide (x ≠ j) := by
        unfold free
        rw [filter_filter]
        exact filter_congr fun x _ ↦ hused x
    _ = js := by
        rw [h, filter_cons_of_neg (by simp)]
        exact filter_eq_self.2 fun x hx ↦ decide_eq_true fun heq ↦ hj (heq ▸ hx)

/-- **What a configuration reserves.** -/
theorem reserve_eq (d : Dev) (c : ChanId) (i n : ℕ) : d.reserve c i n =
      if n ≤ d.free.length then (1, d.enlistAll c i (d.free.take n))
      else
        let d' := (d.enlistAll c i d.free).unmark c
        (0, d'.setChan c { d'.chan c with bandNum := 0 }) := by
  induction n generalizing d i with
  | zero => simp [reserve, enlistAll]
  | succ n ih =>
    rw [reserve, freeBand?_eq]
    cases hfree : d.free with
    | nil => simp [enlistAll]
    | cons j js =>
      simp only [List.head?_cons]
      rw [ih, free_enlist hfree]
      simp [enlistAll]

theorem listed_congr {d' : Dev} (h : d'.chan c = d.chan c) : d'.listed c = d.listed c := by
  unfold listed
  rw [h]

theorem enlist_chan_self (d : Dev) (c : ChanId) (i : ℕ) (j : BandId) : (d.enlist c i j).chan c =
    { d.chan c with
      chanNodeBand := update (d.chan c).chanNodeBand i j
      bandNum := (d.chan c).bandNum + 1 } :=
  update_self ..

theorem listed_enlist (d : Dev) (c : ChanId) (j : BandId) :
    (d.enlist c (d.chan c).bandNum j).listed c = d.listed c ++ [j] := by
  unfold listed
  rw [enlist_chan_self]
  simp only [range_succ, map_append, map_cons, update_self]
  congr 1
  refine map_congr_left fun x hx ↦ ?_
  rw [update_of_ne (mem_range.1 hx).ne]

/-- What enlisting bands does, seen from outside. -/
structure Enlisted (d d' : Dev) (c : ChanId) (js : List BandId) : Prop where
  chan_of_ne : ∀ c', c' ≠ c → d'.chan c' = d.chan c'
  used : (d'.chan c).bUsed = (d.chan c).bUsed
  bandNum : (d'.chan c).bandNum = (d.chan c).bandNum + js.length
  listed : d'.listed c = d.listed c ++ js
  marked : ∀ j, (d'.band j).bUsed = ((d.band j).bUsed || decide (j ∈ js))
  overflow : d'.overflow = (d.overflow ||
    decide (js ≠ [] ∧ maxBandNumPerChan < (d.chan c).bandNum + js.length))

theorem enlistAll_spec (d : Dev) (c : ChanId) (js : List BandId) :
    d.Enlisted (d.enlistAll c (d.chan c).bandNum js) c js := by
  induction js generalizing d with
  | nil =>
    exact ⟨fun _ _ ↦ rfl, rfl, rfl, by simp [enlistAll], by simp [enlistAll], by simp [enlistAll]⟩
  | cons j js ih =>
    have hself := enlist_chan_self d c (d.chan c).bandNum j
    have hnum : ((d.enlist c (d.chan c).bandNum j).chan c).bandNum = (d.chan c).bandNum + 1 := by
      rw [hself]
    have h := ih (d.enlist c (d.chan c).bandNum j)
    rw [hnum] at h
    refine ⟨fun c' hc ↦ ?_, ?_, ?_, ?_, fun x ↦ ?_, ?_⟩
    · exact (h.chan_of_ne c' hc).trans (update_of_ne hc ..)
    · exact h.used.trans (by rw [hself])
    · rw [enlistAll, h.bandNum, length_cons]
      omega
    · rw [enlistAll, h.listed, listed_enlist, append_assoc]
      rfl
    · rw [enlistAll, h.marked]
      show ((update d.band j _ x).bUsed || _) = _
      by_cases hx : x = j
      · grind
      · simp [hx]
    · rw [enlistAll, h.overflow]
      show ((d.overflow || decide (maxBandNumPerChan ≤ (d.chan c).bandNum)) || _) = _
      rw [Bool.or_assoc, ← Bool.decide_or]
      congr 1
      rw [decide_eq_decide]
      cases js <;>
        simp only [ne_eq, not_true_eq_false, false_and, or_false, reduceCtorEq, not_false_eq_true,
          true_and, List.length_cons, List.length_nil] <;> omega

theorem listed_eq_nil : d.listed c = [] ↔ (d.chan c).bandNum = 0 := by
  unfold listed
  rw [map_eq_nil_iff, range_eq_nil]

/-- The number of bands that a configuration asks for. -/
def bandRequested (d : Dev) (nodeNumRequested : ℕ) : ℕ :=
  (nodeNumRequested / d.nodeNumPerBand + 1) % 2 ^ 32

/-- What a configuration of a channel in use does: its bands are now `js`. -/
structure Configured (d d' : Dev) (c : ChanId) (n : ℕ) (js : List BandId) : Prop where
  chan_of_ne : ∀ c', c' ≠ c → d'.chan c' = d.chan c'
  used : (d'.chan c).bUsed = (d.chan c).bUsed
  bandNum : (d'.chan c).bandNum = js.length
  listed : d'.listed c = js
  marked : ∀ j, (d'.band j).bUsed = ((d.band j).bUsed || decide (j ∈ js))
  overflow : d'.overflow = (d.overflow || decide (maxBandNumPerChan < min n d.free.length))
  free : ∀ j ∈ js, (d.band j).bUsed = false
  nodup : js.Nodup
  le : js.length ≤ min n d.free.length

/-- A channel that lists no bands is given the first free ones, or none if there are not enough. -/
theorem reserve_spec (hnum : (d.chan c).bandNum = 0) (n : ℕ) :
    ∃ js, d.Configured (d.reserve c 0 n).2 c n js ∧ ((d.reserve c 0 n).1 = 0 → js = []) := by
  have hnil := listed_eq_nil.2 hnum
  rw [reserve_eq]
  by_cases hn : n ≤ d.free.length
  · have h := enlistAll_spec d c (d.free.take n)
    have hlen : (d.free.take n).length = n := by rw [length_take, min_eq_left hn]
    rw [hnum] at h
    rw [if_pos hn]
    refine ⟨_, ⟨h.chan_of_ne, h.used, ?_, ?_, h.marked, ?_, fun j hj ↦ mem_free.1
      (mem_of_mem_take hj),
      d.free_nodup.sublist (take_sublist ..), ?_⟩, nofun⟩
    · rw [h.bandNum, hnum, Nat.zero_add]
    · rw [h.listed, hnil, nil_append]
    · rw [h.overflow, hnum, Nat.zero_add, min_eq_left hn]
      congr 1
      rw [decide_eq_decide, ← length_pos_iff, hlen]
      exact ⟨fun hlt ↦ hlt.2, fun hlt ↦ ⟨(Nat.zero_le _).trans_lt hlt, hlt⟩⟩
    · rw [hlen, min_eq_left hn]
  · have h := enlistAll_spec d c d.free
    rw [hnum] at h
    have hlisted : (d.enlistAll c 0 d.free).listed c = d.free := by rw [h.listed, hnil, nil_append]
    rw [if_neg hn]
    refine ⟨[], ⟨fun c' hc ↦ (setChan_chan_of_ne _ hc _).trans (h.chan_of_ne c' hc), ?_, ?_, ?_,
      fun j ↦ ?_, ?_, by simp, nodup_nil, Nat.zero_le _⟩, fun _ ↦ rfl⟩
    · rw [setChan_chan_self]
      exact h.used
    · rw [setChan_chan_self]
      rfl
    · rw [listed_eq_nil, setChan_chan_self]
    · show (if j ∈ (d.enlistAll c 0 d.free).listed c then _ else _ : Band).bUsed = _
      rw [hlisted]
      split
      · next hj => simp [mem_free.1 hj]
      · next hj =>
        rw [h.marked]
        simp [hj]
    · show ((d.enlistAll c 0 d.free).overflow ||
        decide (maxBandNumPerChan < ((d.enlistAll c 0 d.free).chan c).bandNum)) = _
      rw [h.overflow, h.bandNum, Bool.or_assoc, ← Bool.decide_or]
      congr 1
      rw [decide_eq_decide]
      omega

theorem config_used (hused : (d.chan (configChan chan assoc)).bUsed = true) :
    ∃ js, d.Configured (d.chalDmaConfigChannel chan assoc n).2 (configChan chan assoc)
        (d.bandRequested n) js ∧ ((d.chalDmaConfigChannel chan assoc n).1 = 0 → js = []) := by
  generalize hc : configChan chan assoc = c at hused
  have heq : d.chalDmaConfigChannel chan assoc n =
      (d.setChan c { d.chan c with bandNum := 0 }).reserve c 0 (d.bandRequested n) := by
    unfold chalDmaConfigChannel
    rw [hc]
    exact if_pos hused
  have hself := setChan_chan_self d c { d.chan c with bandNum := 0 }
  obtain ⟨js, h, hzero⟩ := reserve_spec (by rw [hself]) (d.bandRequested n)
  rw [heq]
  exact ⟨js, ⟨fun c' hc' ↦ (h.chan_of_ne c' hc').trans (setChan_chan_of_ne _ hc' _),
    h.used.trans (by rw [hself]), h.bandNum, h.listed, h.marked, h.overflow, h.free, h.nodup, h.le⟩,
    hzero⟩

/-! ### Ownership -/

/-- The channel is in use and lists the band. -/
def Owns (d : Dev) (c : ChanId) (j : BandId) : Prop := (d.chan c).bUsed = true ∧ j ∈ d.listed c
deriving Decidable

/-- **Every band has one owner.** -/
structure OneOwner (d : Dev) : Prop where
  marked_iff : ∀ j, (d.band j).bUsed = true ↔ ∃! c, d.Owns c j
  once : ∀ c c' j, d.Owns c j → d.Owns c' j → c = c'
  nodup : ∀ c, (d.chan c).bUsed = true → (d.listed c).Nodup
  in_bounds : d.overflow = false

theorem OneOwner.marked (h : d.OneOwner) (hown : d.Owns c j) : (d.band j).bUsed = true :=
  (h.marked_iff j).2 ⟨c, hown, fun c' hc' ↦ h.once c' c j hc' hown⟩

theorem OneOwner.exists_owner (h : d.OneOwner) (hmark : (d.band j).bUsed = true) :
    ∃ c, d.Owns c j :=
  ((h.marked_iff j).1 hmark).exists

theorem OneOwner.of_exists (hmark : ∀ j, (d.band j).bUsed = true ↔ ∃ c, d.Owns c j)
    (honce : ∀ c c' j, d.Owns c j → d.Owns c' j → c = c')
    (hnodup : ∀ c, (d.chan c).bUsed = true → (d.listed c).Nodup) (hover : d.overflow = false) :
    d.OneOwner where
  marked_iff j := (hmark j).trans
    ⟨fun ⟨c, hc⟩ ↦ ⟨c, hc, fun c' hc' ↦ honce c' c j hc' hc⟩, fun hc ↦ hc.exists⟩
  once := honce
  nodup := hnodup
  in_bounds := hover

/-- **One channel changes.** The marks have to tell the bands that it has now and those of the
other channels, of which it has none. -/
theorem OneOwner.change_iff {d' : Dev} (h : d.OneOwner)
    (hchan : ∀ c', c' ≠ c → d'.chan c' = d.chan c') : d'.OneOwner ↔
      (∀ j, (d'.band j).bUsed = true ↔ d'.Owns c j ∨ ∃ c', c' ≠ c ∧ d.Owns c' j) ∧
      (∀ j, d'.Owns c j → ∀ c', c' ≠ c → ¬d.Owns c' j) ∧
      ((d'.chan c).bUsed = true → (d'.listed c).Nodup) ∧ d'.overflow = false := by
  have hne : ∀ c' j, c' ≠ c → (d'.Owns c' j ↔ d.Owns c' j) := fun c' j hc' ↦ by
    unfold Owns
    rw [hchan c' hc', listed_congr (hchan c' hc')]
  constructor
  · intro h'
    refine ⟨fun j ↦ ⟨fun hm ↦ ?_, ?_⟩, fun j hj c' hc' hown ↦ ?_, h'.nodup c, h'.in_bounds⟩
    · obtain ⟨c', hc'⟩ := h'.exists_owner hm
      by_cases heq : c' = c
      · exact .inl (heq ▸ hc')
      · exact .inr ⟨c', heq, (hne c' j heq).1 hc'⟩
    · rintro (hj | ⟨c', hc', hown⟩)
      · exact h'.marked hj
      · exact h'.marked ((hne c' j hc').2 hown)
    · exact hc' (h'.once c' c j ((hne c' j hc').2 hown) hj)
  · rintro ⟨hmark, hother, hnodup, hover⟩
    refine .of_exists (fun j ↦ ?_) (fun c₁ c₂ j h₁ h₂ ↦ ?_) (fun c' hc' ↦ ?_) hover
    · grind
    · grind [h.once]
    · by_cases heq : c' = c
      · exact heq ▸ hnodup (heq ▸ hc')
      · rw [hchan c' heq] at hc'
        rw [listed_congr (hchan c' heq)]
        exact h.nodup c' hc'

/-- The lists fit into their arrays, as long as no array was overrun. -/
def Bounded (d : Dev) : Prop := d.overflow = false → ∀ c, (d.chan c).bandNum ≤ maxBandNumPerChan

end Dev

/-! ### Runs -/

/-- The calls. -/
inductive BandOp
  | allocate (c : ChanId)
  | config (chan : Fin totalDmaChannels) (assoc : Option (Fin associateChannel))
    (nodeNumRequested : ℕ)
  | free (channel : ℕ)

def Dev.step (d : Dev) : BandOp → Dev
  | .allocate c => (d.chalDmaAllocateSpecificChannel c).2
  | .config chan assoc n => (d.chalDmaConfigChannel chan assoc n).2
  | .free channel => (d.chalDmaFreeChannel channel).2

/-- **The calls that keep the books.** A channel is allocated, or configured, when it lists no
bands, and the bands it is given fit into its list; a channel that is freed and not in use lists
no band that another one has now. -/
def Dev.Safe (d : Dev) : BandOp → Prop
  | .allocate c => (d.chan c).bUsed = true ∨ (d.chan c).bandNum = 0
  | .config chan assoc n => (d.chan (Dev.configChan chan assoc)).bUsed = true →
      (d.chan (Dev.configChan chan assoc)).bandNum = 0 ∧
        min (d.bandRequested n) d.free.length ≤ maxBandNumPerChan
  | .free channel => ∀ h : channel < totalDmaChannels + associateChannel,
      (d.chan ⟨channel, h⟩).bUsed = true ∨ ∀ j ∈ d.listed ⟨channel, h⟩, (d.band j).bUsed = false

def safeBandMachine : Machine Dev BandOp where
  guard := Dev.Safe
  exec := Dev.step

namespace Dev

variable {d : Dev}

theorem allocate_of_used {c : ChanId} (h : (d.chan c).bUsed = true) : d.step (.allocate c) = d := by
  show (d.chalDmaAllocateSpecificChannel c).2 = d
  rw [chalDmaAllocateSpecificChannel, if_pos h]

theorem allocate_of_unused {c : ChanId} (h : ¬(d.chan c).bUsed = true) :
    d.step (.allocate c) = d.setChan c { d.chan c with bUsed := true } := by
  show (d.chalDmaAllocateSpecificChannel c).2 = _
  rw [chalDmaAllocateSpecificChannel, if_neg h]

theorem allocate_exact {c : ChanId} (h : d.OneOwner) :
    d.Safe (.allocate c) ↔ (d.step (.allocate c)).OneOwner := by
  by_cases hused : (d.chan c).bUsed = true
  · rw [allocate_of_used hused]
    exact ⟨fun _ ↦ h, fun _ ↦ .inl hused⟩
  · rw [allocate_of_unused hused]
    have hself := setChan_chan_self d c { d.chan c with bUsed := true }
    have hown : ∀ j, (d.setChan c { d.chan c with bUsed := true }).Owns c j ↔ j ∈ d.listed c := by
      intro j
      unfold Owns listed
      rw [hself]
      exact and_iff_right rfl
    have hmark : ∀ j, (d.band j).bUsed = true ↔ ∃ c', c' ≠ c ∧ d.Owns c' j := by
      intro j
      refine ⟨fun hm ↦ ?_, fun ⟨_, _, hc'⟩ ↦ h.marked hc'⟩
      obtain ⟨c', hc'⟩ := h.exists_owner hm
      exact ⟨c', fun heq ↦ hused (heq ▸ hc'.1), hc'⟩
    rw [h.change_iff fun c' hc' ↦ setChan_chan_of_ne _ hc' _]
    simp only [hown]
    constructor
    · rintro (hyes | hzero)
      · exact absurd hyes hused
      · -- the channel comes into use without bands
        have hnil := listed_eq_nil.2 hzero
        refine ⟨fun j ↦ (hmark j).trans (by simp [hnil]), by simp [hnil], fun _ ↦ ?_, h.in_bounds⟩
        rw [listed_eq_nil.2 (by rw [hself]; exact hzero)]
        exact nodup_nil
    · rintro ⟨hall, hother, -⟩
      refine .inr (listed_eq_nil.1 (eq_nil_iff_forall_not_mem.2 fun j hj ↦ ?_))
      -- the band of the stale list is marked, so another channel has it
      obtain ⟨c', hc', hown'⟩ := (hmark j).1 ((hall j).2 (.inl hj))
      exact hother j hj c' hc' hown'

theorem config_of_unused
    (h : ¬(d.chan (configChan chan assoc)).bUsed = true) : d.step (.config chan assoc n) = d := by
  show (d.chalDmaConfigChannel chan assoc n).2 = d
  unfold chalDmaConfigChannel
  rw [if_neg h]

theorem config_exact (h : d.OneOwner) :
    d.Safe (.config chan assoc n) ↔ (d.step (.config chan assoc n)).OneOwner := by
  by_cases hused : (d.chan (configChan chan assoc)).bUsed = true
  · obtain ⟨js, hcfg, -⟩ := config_used hused
    show (_ → _) ↔ (d.chalDmaConfigChannel chan assoc n).2.OneOwner
    generalize (d.chalDmaConfigChannel chan assoc n).2 = d' at hcfg
    generalize configChan chan assoc = c at hcfg hused
    have hself : ∀ j, d'.Owns c j ↔ j ∈ js := fun j ↦ by
      unfold Owns
      rw [hcfg.used, hcfg.listed]
      simp [hused]
    have hmark : ∀ j, (d'.band j).bUsed = true ↔ (d.band j).bUsed = true ∨ j ∈ js := fun j ↦ by
      rw [hcfg.marked]
      simp
    rw [h.change_iff hcfg.chan_of_ne, hcfg.overflow, hcfg.listed, h.in_bounds, Bool.false_or,
      decide_eq_false_iff_not, not_lt]
    simp only [hself, hmark]
    constructor
    · intro hsafe
      obtain ⟨hzero, hfits⟩ := hsafe hused
      have hnone : ∀ j, ¬d.Owns c j := fun j hown ↦ by
        have hj := hown.2
        rw [listed_eq_nil.2 hzero] at hj
        cases hj
      refine ⟨fun j ↦ ?_, fun j hj c' _ hown ↦ ?_, fun _ ↦ hcfg.nodup, hfits⟩
      · grind [h.exists_owner, h.marked]
      · exact Bool.false_ne_true ((hcfg.free j hj).symm.trans (h.marked hown))
    · rintro ⟨hall, -, -, hfits⟩ -
      refine ⟨listed_eq_nil.1 (eq_nil_iff_forall_not_mem.2 fun j hj ↦ ?_), hfits⟩
      have hown : d.Owns c j := ⟨hused, hj⟩
      -- the band that is dropped stays marked, and nobody lists it
      rcases (hall j).1 (.inl (h.marked hown)) with hnew | ⟨c', hc', hown'⟩
      · exact Bool.false_ne_true ((hcfg.free j hnew).symm.trans (h.marked hown))
      · exact hc' (h.once c' c j hown' hown)
  · rw [config_of_unused hused]
    exact ⟨fun _ ↦ h, fun _ hyes ↦ absurd hyes hused⟩

/-- What freeing a channel does. -/
structure Freed (d d' : Dev) (c : ChanId) : Prop where
  chan_of_ne : ∀ c', c' ≠ c → d'.chan c' = d.chan c'
  unused : (d'.chan c).bUsed = false
  bandNum : (d'.chan c).bandNum = (d.chan c).bandNum
  marked : ∀ j, (d'.band j).bUsed = true ↔ (d.band j).bUsed = true ∧ j ∉ d.listed c
  overflow : d'.overflow = (d.overflow || decide (maxBandNumPerChan < (d.chan c).bandNum))

variable {channel : ℕ}

theorem free_spec (h : channel < totalDmaChannels + associateChannel) :
    d.Freed (d.step (.free channel)) ⟨channel, h⟩ := by
  show d.Freed (d.chalDmaFreeChannel channel).2 _
  rw [chalDmaFreeChannel, dif_pos h]
  refine ⟨fun c' hc' ↦ setChan_chan_of_ne _ hc' _, ?_, ?_, fun j ↦ ?_, rfl⟩
  · exact congrArg ChanInfo.bUsed (setChan_chan_self ..)
  · show (update d.chan ⟨channel, h⟩ _ ⟨channel, h⟩).bandNum = _
    rw [update_self]
  · grind

theorem free_of_invalid (h : ¬channel < totalDmaChannels + associateChannel) :
    d.step (.free channel) = d := by
  show (d.chalDmaFreeChannel channel).2 = d
  rw [chalDmaFreeChannel, dif_neg h]

theorem free_exact (h : d.OneOwner) (hb : d.Bounded) :
    d.Safe (.free channel) ↔ (d.step (.free channel)).OneOwner := by
  by_cases hchan : channel < totalDmaChannels + associateChannel
  · have hfreed := d.free_spec hchan
    show (∀ h : channel < totalDmaChannels + associateChannel, _) ↔ _
    rw [forall_prop_of_true hchan]
    generalize d.step (.free channel) = d' at hfreed
    generalize (⟨channel, hchan⟩ : ChanId) = c at hfreed
    have hnone : ∀ j, ¬d'.Owns c j := fun j hown ↦
      Bool.false_ne_true (hfreed.unused.symm.trans hown.1)
    have hover : d'.overflow = false := by
      rw [hfreed.overflow, h.in_bounds, Bool.false_or, decide_eq_false_iff_not, not_lt]
      exact hb h.in_bounds c
    rw [h.change_iff hfreed.chan_of_ne]
    simp only [hfreed.marked, hnone, false_or]
    constructor
    · intro hsafe
      refine ⟨fun j ↦ ⟨?_, ?_⟩, nofun, fun hused ↦ ?_, hover⟩
      · rintro ⟨hm, hj⟩
        obtain ⟨c', hc'⟩ := h.exists_owner hm
        exact ⟨c', fun heq ↦ hj (heq ▸ hc'.2), hc'⟩
      · rintro ⟨c', hne, hc'⟩
        refine ⟨h.marked hc', fun hj ↦ ?_⟩
        rcases hsafe with hused | hnone
        · exact hne (h.once c' c j hc' ⟨hused, hj⟩)
        · exact Bool.false_ne_true ((hnone j hj).symm.trans (h.marked hc'))
      · exact absurd (hfreed.unused.symm.trans hused) Bool.false_ne_true
    · rintro ⟨hall, -⟩
      by_contra hunsafe
      rw [not_or] at hunsafe
      refine hunsafe.2 fun j hj ↦ ?_
      cases hm : (d.band j).bUsed with
      | false => rfl
      | true =>
        -- the band belongs to another channel, and has lost its mark
        obtain ⟨c', hc'⟩ := h.exists_owner hm
        exact absurd hj ((hall j).2 ⟨c', fun heq ↦ hunsafe.1 (heq ▸ hc'.1), hc'⟩).2
  · rw [free_of_invalid hchan]
    exact ⟨fun _ ↦ h, fun _ h' ↦ absurd h' hchan⟩

theorem Bounded.step (h : d.Bounded) (op : BandOp) : (d.step op).Bounded := by
  intro hover
  cases op with
  | allocate c =>
    by_cases hused : (d.chan c).bUsed = true
    · rw [allocate_of_used hused] at hover ⊢
      exact h hover
    · rw [allocate_of_unused hused] at hover ⊢
      intro c'
      by_cases hc' : c' = c
      · subst hc'
        rw [setChan_chan_self]
        exact h hover c'
      · rw [setChan_chan_of_ne _ hc']
        exact h hover c'
  | config chan assoc n =>
    by_cases hused : (d.chan (configChan chan assoc)).bUsed = true
    · obtain ⟨js, hcfg, -⟩ := config_used hused
      have hover' := hcfg.overflow.symm.trans hover
      rw [Bool.or_eq_false_iff, decide_eq_false_iff_not, not_lt] at hover'
      intro c'
      by_cases hc' : c' = configChan chan assoc
      · rw [hc']
        exact hcfg.bandNum.le.trans (hcfg.le.trans hover'.2)
      · exact (congrArg ChanInfo.bandNum (hcfg.chan_of_ne c' hc')).le.trans (h hover'.1 c')
    · rw [config_of_unused hused] at hover ⊢
      exact h hover
  | free channel =>
    by_cases hchan : channel < totalDmaChannels + associateChannel
    · have hfreed := d.free_spec hchan
      rw [hfreed.overflow, Bool.or_eq_false_iff] at hover
      intro c'
      by_cases hc' : c' = ⟨channel, hchan⟩
      · grind [hfreed.bandNum]
      · rw [hfreed.chan_of_ne c' hc']
        exact h hover.1 c'
    · rw [free_of_invalid hchan] at hover ⊢
      exact h hover

/-- **Exactly the safe calls keep the books.** -/
theorem safe_iff (h : d.OneOwner) (hb : d.Bounded) (op : BandOp) :
    d.Safe op ↔ (d.step op).OneOwner := by
  cases op with
  | allocate c => exact allocate_exact h
  | config chan assoc n => exact config_exact h
  | free channel => exact free_exact h hb

theorem config_failure (h : (d.chalDmaConfigChannel chan assoc n).1 = 0) :
    (∀ j, ((d.chalDmaConfigChannel chan assoc n).2.band j).bUsed = (d.band j).bUsed) ∧
      ∀ c, c ≠ configChan chan assoc →
        (d.chalDmaConfigChannel chan assoc n).2.chan c = d.chan c := by
  by_cases hused : (d.chan (configChan chan assoc)).bUsed = true
  · obtain ⟨js, hcfg, hnil⟩ := config_used hused
    refine ⟨fun j ↦ ?_, hcfg.chan_of_ne⟩
    rw [hcfg.marked, hnil h]
    simp
  · unfold chalDmaConfigChannel at h
    rw [if_neg hused] at h
    cases h

end Dev

/-- The device with its memory configured, before any channel is. -/
def devBoot (lliVirtualAddr lliPhysicalAddr size : ℕ) : Dev :=
  chalDmaConfigDeviceMemory lliVirtualAddr lliPhysicalAddr size devZero

theorem devBoot_oneOwner (v p size : ℕ) : (devBoot v p size).OneOwner := by
  have hunused : ∀ c, ((devBoot v p size).chan c).bUsed = false := fun _ ↦ rfl
  have hnone : ∀ c j, ¬(devBoot v p size).Owns c j := fun c j hown ↦
    Bool.false_ne_true ((hunused c).symm.trans hown.1)
  refine .of_exists (fun j ↦ ⟨fun hm ↦ ?_, fun ⟨c, hc⟩ ↦ absurd hc (hnone c j)⟩)
    (fun c _ j hc ↦ absurd hc (hnone c j)) (fun c hc ↦ ?_) rfl
  · exact absurd hm Bool.false_ne_true
  · exact absurd ((hunused c).symm.trans hc) Bool.false_ne_true

/-- **Bands have one owner.** A list of calls keeps the books, after each of them, exactly when
each call is safe where it is made; and a configuration that fails leaves the other channels'
bands unchanged, if it has not written past the end of a list. -/
theorem bands_have_one_owner (v p size : ℕ) (ops : List BandOp) :
    (safeBandMachine.Permitted (devBoot v p size) ops ↔
      ∀ done, done <+: ops → (safeBandMachine.final (devBoot v p size) done).OneOwner) ∧
    ∀ (d : Dev) (chan : Fin totalDmaChannels) (assoc : Option (Fin associateChannel)) (n : ℕ),
      (d.chalDmaConfigChannel chan assoc n).1 = 0 →
      (d.chalDmaConfigChannel chan assoc n).2.overflow = false →
        (∀ j, ((d.chalDmaConfigChannel chan assoc n).2.band j).bUsed = (d.band j).bUsed) ∧
          ∀ c, c ≠ Dev.configChan chan assoc →
            (d.chalDmaConfigChannel chan assoc n).2.chan c = d.chan c := by
  refine ⟨Machine.permitted_iff_forall (J := Dev.Bounded) (fun d op h ↦ h.step op)
    (fun d op hb h ↦ Dev.safe_iff h hb op) ?_ (devBoot_oneOwner v p size) ops,
    fun d chan assoc n h _ ↦ Dev.config_failure h⟩
  exact fun _ _ ↦ Nat.zero_le _

/-- **Four ways to lose track.** A channel with a band is configured again; it is freed and
allocated again; it is freed again, after another one has got its band; it is given 25 bands. -/
theorem bands_lost : let c : Fin totalDmaChannels := ⟨0, by decide⟩
    let c' : Fin totalDmaChannels := ⟨1, by decide⟩
    let start : List BandOp := [.allocate (Dev.configChan c none), .config c none 0]
    let final : List BandOp → Dev := safeBandMachine.final (devBoot 0x10000 0x20000 16384)
    ¬(final (start ++ [.config c none 0])).OneOwner ∧
      ¬(final (start ++ [.free 0, .allocate (Dev.configChan c none)])).OneOwner ∧
      ¬(final (start ++
        [.free 0, .allocate (Dev.configChan c' none), .config c' none 0, .free 0])).OneOwner ∧
      ¬(final [.allocate (Dev.configChan c none), .config c none 768]).OneOwner := by
  refine ⟨fun h ↦ ?_, fun h ↦ ?_, fun h ↦ ?_, fun h ↦ ?_⟩
  · -- a mark without an owner
    obtain ⟨c, hc⟩ := h.exists_owner (j := ⟨0, by decide⟩) (by decide +kernel)
    revert c
    decide +kernel
  · -- an owner without a mark
    have hm := h.marked (c := ⟨0, by decide⟩) (j := ⟨0, by decide⟩) (by decide +kernel)
    revert hm
    decide +kernel
  · have hm := h.marked (c := ⟨1, by decide⟩) (j := ⟨0, by decide⟩) (by decide +kernel)
    revert hm
    decide +kernel
  · have hover := h.in_bounds
    revert hover
    decide +kernel

end Dma
