import MerrukKernel.Library.Trace
import MerrukKernel.Rpc.Lookup

/-!
# Which client a message belongs to

The lookup of a message is compared with a directory of the clients: a list of all that have ever
been registered, the newest first, each marked as long as it is registered. The word that the
two-level table holds for an id is that of the newest client with the id, whether or not that client
is still there (`wordOf`). So a lookup finds the newest client as long as it is registered; what an
older client has registered under the same id does not come back when the newer one goes, and the
word of a client that is gone is read as one of whoever gets its handle next.
-/

namespace Rpc

open Function List Option Rpc.System

variable {P : Type}

/-- A client in the directory. -/
structure Client (P : Type) where
  handle : ℕ
  params : InitParams P
  live : Bool

/-- The table of the client contains the id. -/
def Client.has (id : ℕ) (c : Client P) : Bool := c.params.xdrtbl.any (·.id = id)

variable {c : Client P} {id : ℕ}

theorem Client.has_eq_true : c.has id = true ↔ ∃ x ∈ c.params.xdrtbl, x.id = id := by
  simp [Client.has]

/-- The RPC layer with the directory of its clients, the newest first. -/
structure Registry (P : Type) where
  sys : System P := {}
  log : List (Client P) := []

/-- What the clients do. -/
inductive RegistryOp (P : Type)
  | register (mem₀ mem : Memory) (params : InitParams P)
  | deregister (handle : ℕ)

/-- The client that has a handle is no longer there. -/
def markGone (handle : ℕ) (c : Client P) : Client P :=
  if c.handle = handle then { c with live := false } else c

/-- One call. -/
def Registry.step (s : Registry P) : RegistryOp P → Registry P
  | .register mem₀ mem params =>
    let r := s.sys.registerClient mem₀ mem params
    ⟨r.2, if r.1 = 0 then s.log else ⟨r.1, params, true⟩ :: s.log⟩
  | .deregister handle => ⟨s.sys.deregisterClient handle, s.log.map (markGone handle)⟩

/-- All the memory that is asked for is there. -/
def Memory.Ample (mem : Memory) : Prop := mem.base = true ∧ ∀ i, mem.row i = true

/-- The calls of orderly clients: there is memory, `gClientIndex` does not overflow, and nobody
gives back the null handle when there is no client. -/
def Registry.Orderly (s : Registry P) : RegistryOp P → Prop
  | .register mem₀ mem _ => mem₀.Ample ∧ mem.Ample ∧ s.sys.clientIndex < 127
  | .deregister handle => handle = 0 → s.sys.clientIndex ≠ 0

/-- The RPC layer and its clients. -/
def registryMachine (P : Type) : Machine (Registry P) (RegistryOp P) where
  guard := Registry.Orderly
  exec := Registry.step

/-! ### The words of the directory -/

/-- The ids of the RPC layer itself. -/
def Internal (id : ℕ) : Prop :=
  id = msgCapi2AckRsp ∨ id = msgRpcSimpleReqRsp ∨ id = dontcare % 65536

/-- The word that a client leaves under an id, with that of the RPC layer, which every registration
enters again. -/
def Client.word? (c : Client P) (id : ℕ) : Option ℕ :=
  (lastIndex id c.params.xdrtbl 0).map (entryWord c.handle) <|>
    (lastIndex id (ackDscrm P) 0).map (entryWord 0)

/-- The word for an id after all registrations. -/
def wordOf : List (Client P) → ℕ → ℕ
  | [], _ => noEntry
  | c :: log, id => (c.word? id).getD (wordOf log id)

theorem lastIndex_ackDscrm_eq_none : lastIndex id (ackDscrm P) 0 = none ↔ ¬ Internal id := by
  rw [lastIndex_eq_none, Internal]
  simp only [ackDscrm, mem_cons, not_mem_nil, or_false, forall_eq_or_imp, forall_eq]
  rw [not_or, not_or]
  exact ⟨fun h ↦ ⟨h.1.symm, h.2.1.symm, h.2.2.symm⟩, fun h ↦ ⟨Ne.symm h.1,
    Ne.symm h.2.1, Ne.symm h.2.2⟩⟩

theorem Client.word?_of_has (h : c.has id = true) :
    ∃ j x, c.word? id = some (entryWord c.handle j) ∧ c.params.xdrtbl[j]? = some x ∧ x.id = id := by
  cases hj : lastIndex id c.params.xdrtbl 0 with
  | none => grind [Client.has_eq_true, lastIndex_eq_none]
  | some j => grind [lastIndex_eq_some, Client.word?]

theorem Client.lastIndex_of_not_has (h : c.has id = false) :
    lastIndex id c.params.xdrtbl 0 = none := by grind [lastIndex_eq_none, Client.has_eq_true]

/-- A client without the id leaves the word of the RPC layer, if any. -/
theorem Client.word?_of_not_has (h : c.has id = false) :
    c.word? id = (lastIndex id (ackDscrm P) 0).map (entryWord 0) := by
  simp [Client.word?, lastIndex_of_not_has h]

/-- Under an id that the RPC layer does not use itself stands the word of the newest client that has
the id. -/
theorem wordOf_eq {log : List (Client P)} (hid : ¬ Internal id) :
    wordOf log id = ((log.find? (·.has id)).bind (·.word? id)).getD noEntry := by
  induction log with
  | nil => rfl
  | cons c log ih =>
    rw [wordOf]
    cases hc : c.has id with
    | true => grind [Client.word?_of_has]
    | false => grind [Client.word?_of_not_has, lastIndex_ackDscrm_eq_none]

/-! ### The invariant -/

/-- **The state of the RPC layer is that of its directory.** -/
structure Registry.Filed (s : Registry P) : Prop where
  /-- `gClientIndex` has not overflowed. -/
  index : 0 ≤ s.sys.clientIndex ∧ s.sys.clientIndex ≤ 127
  /-- Handles are those of `gClientMap`, without `0`. -/
  handle : ∀ c ∈ s.log, 0 < c.handle ∧ c.handle < maxRpcClients
  /-- What is registered is in `gClientMap`. -/
  live : ∀ c ∈ s.log, c.live = true →
    (c.handle : ℤ) ≤ s.sys.clientIndex ∧ s.sys.clientMap c.handle = c.params
  /-- What is not registered has no table. -/
  free : ∀ h, (∀ c ∈ s.log, c.live = true → c.handle ≠ h) → (s.sys.clientMap h).xdrtbl = []
  /-- The two-level table is that of all registrations. -/
  table : s.log ≠ [] → ∃ t, s.sys.tableBase = some t ∧ ∀ id < 65536, t.word id = wordOf s.log id
  /-- There is no table before the first. -/
  base : s.log = [] → s.sys.tableBase = none

/-- Where there is memory, both tables of a registration are entered. -/
theorem buildLookup_word {mem : Memory} (hmem : mem.Ample) (tbl : List (XdrInfo P)) (c : ℕ)
    (base : Option Rows) :
    ∃ t, buildLookup mem tbl c base = some t ∧ ∀ id < 65536,
      t.word id = ((lastIndex id tbl 0).map (entryWord c)).getD
        ((base.map (·.word id)).getD noEntry) := by
  cases base with
  | some t => exact ⟨_, rfl, fun id hid ↦ setEntries_word hid hmem.2 c tbl 0 t⟩
  | none =>
    refine ⟨_, by rw [buildLookup, hmem.1]; rfl, fun id hid ↦ ?_⟩
    exact setEntries_word hid hmem.2 c tbl 0 _

variable {s : Registry P}

theorem Registry.Filed.register (h : s.Filed) {mem₀ mem : Memory}
    {params : InitParams P} (hok : s.Orderly (.register mem₀ mem params)) :
    (s.step (.register mem₀ mem params)).Filed := by
  obtain ⟨hmem₀, hmem, hlt⟩ := hok
  -- `gClientIndex++` does not overflow
  obtain ⟨hindex, hhandle⟩ : (s.sys.clientIndex + 1).bmod 256 = s.sys.clientIndex + 1 ∧
      ((s.sys.clientIndex + 1) % 256).toNat = s.sys.clientIndex.toNat + 1 := by grind [h.index]
  have hto : ((s.sys.clientIndex.toNat : ℕ) : ℤ) = s.sys.clientIndex :=
    Int.toNat_of_nonneg h.index.1
  by_cases hfull : maxRpcClients ≤ s.sys.clientIndex.toNat + 1
  · -- there is no handle left: only `gClientIndex` moves
    have hstep : s.step (.register mem₀ mem params) =
        ⟨{ s.sys with clientIndex := s.sys.clientIndex + 1 }, s.log⟩ := by
      simp only [Registry.step, registerClient, hindex, hhandle, if_pos hfull, if_true]
    rw [hstep]
    refine ⟨⟨by simp only; omega, by simp only; omega⟩, h.handle, fun c hc hlive ↦ ?_, h.free,
      h.table, h.base⟩
    have := h.live c hc hlive
    exact ⟨by simp only; omega, this.2⟩
  · obtain ⟨t₀, ht₀, hword₀⟩ := buildLookup_word hmem₀ (ackDscrm P) 0 s.sys.tableBase
    obtain ⟨t, ht, hword⟩ := buildLookup_word hmem params.xdrtbl
      (s.sys.clientIndex.toNat + 1) (some t₀)
    obtain ⟨sys', hreg, hindex', htable', hmap'⟩ : ∃ sys',
        s.sys.registerClient mem₀ mem params = (s.sys.clientIndex.toNat + 1, sys') ∧
        sys'.clientIndex = s.sys.clientIndex + 1 ∧ sys'.tableBase = some t ∧
        sys'.clientMap = update s.sys.clientMap (s.sys.clientIndex.toNat + 1) params := by
      simp only [registerClient, hindex, hhandle, if_neg hfull, ht₀, ht]
      exact ⟨_, rfl, rfl, rfl, rfl⟩
    have hstep : s.step (.register mem₀ mem params) =
        ⟨sys', ⟨s.sys.clientIndex.toNat + 1, params, true⟩ :: s.log⟩ := by
      simp only [Registry.step, hreg, Nat.succ_ne_zero, if_false]
    rw [hstep]
    refine ⟨⟨?_, ?_⟩, ?_, ?_, ?_, fun _ ↦ ⟨t, htable', fun id hid ↦ ?_⟩, nofun⟩
    · grind
    · show sys'.clientIndex ≤ 127
      omega
    · intro c hc
      rcases mem_cons.1 hc with rfl | hc
      · exact ⟨Nat.succ_pos _, not_le.1 hfull⟩
      · exact h.handle c hc
    · intro c hc hlive
      show (c.handle : ℤ) ≤ sys'.clientIndex ∧ sys'.clientMap c.handle = c.params
      rw [hmap']
      rcases mem_cons.1 hc with rfl | hc
      · exact ⟨by simp only; omega, update_self ..⟩
      · -- an older client has a smaller handle
        obtain ⟨hle, hparams⟩ := h.live c hc hlive
        exact ⟨by omega, (update_of_ne (by omega) ..).trans hparams⟩
    · intro i hfree
      show (sys'.clientMap i).xdrtbl = []
      have hne : i ≠ s.sys.clientIndex.toNat + 1 := fun hi ↦
        hfree _ (mem_cons_self ..) rfl hi.symm
      rw [hmap', update_of_ne hne]
      exact h.free i fun c hc ↦ hfree c (mem_cons_of_mem _ hc)
    · have hold : ((s.sys.tableBase.map (·.word id)).getD noEntry) = wordOf s.log id := by
        by_cases hlog : s.log = []
        · rw [h.base hlog, hlog]
          rfl
        · obtain ⟨t', ht', hword'⟩ := h.table hlog
          rw [ht']
          exact hword' id hid
      rw [hword id hid, wordOf, Client.word?]
      simp only [map_some, hword₀ id hid, hold]
      cases lastIndex id params.xdrtbl 0 with
      | none => simp
      | some j => simp

theorem Registry.Filed.deregister (h : s.Filed) {handle : ℕ}
    (hok : s.Orderly (.deregister handle)) : (s.step (.deregister handle)).Filed := by
  have hmark : ∀ c : Client P, (markGone handle c).handle = c.handle ∧
      (markGone handle c).params = c.params ∧ ((markGone handle c).live = true →
        c.live = true ∧ c.handle ≠ handle) ∧
      (c.live = true → c.handle ≠ handle → (markGone handle c).live = true) := by
    intro c
    rw [markGone]
    split_ifs with hc
    · exact ⟨rfl, rfl, nofun, fun _ hne ↦ absurd hc hne⟩
    · exact ⟨rfl, rfl, fun hl ↦ ⟨hl, hc⟩, fun hl _ ↦ hl⟩
  have hword : ∀ (log : List (Client P)) id, wordOf (log.map (markGone handle))
      id = wordOf log id := by
    intro log id
    induction log with
    | nil => rfl
    | cons c log ih =>
      rw [map_cons, wordOf, wordOf, ih, Client.word?, Client.word?, (hmark c).1, (hmark c).2.1]
  by_cases hlt : handle < maxRpcClients
  · obtain ⟨sys', hsys, hindex, hmap, htable⟩ : ∃ sys', s.sys.deregisterClient handle = sys' ∧
        (sys'.clientIndex = s.sys.clientIndex ∨
          (handle : ℤ) = s.sys.clientIndex ∧ sys'.clientIndex = s.sys.clientIndex - 1) ∧
        sys'.clientMap = update s.sys.clientMap handle (.zero P) ∧
        sys'.tableBase = s.sys.tableBase := by
      refine ⟨_, rfl, ?_, ?_, ?_⟩ <;> rw [deregisterClient, if_pos hlt]
      have := h.index
      by_cases hlast : (handle : ℤ) = s.sys.clientIndex
      · grind
      · exact .inl (if_neg hlast)
    have hindex0 : 0 ≤ sys'.clientIndex ∧ sys'.clientIndex ≤ s.sys.clientIndex := by
      have := h.index
      rcases hindex with hi | ⟨hlast, hi⟩
      · exact ⟨by omega, by omega⟩
      · have hne : s.sys.clientIndex ≠ 0 := fun h0 ↦ hok (by omega) h0
        exact ⟨by omega, by omega⟩
    rw [show s.step (.deregister handle) = ⟨sys', s.log.map (markGone handle)⟩ by rw [← hsys]; rfl]
    refine ⟨⟨hindex0.1, Int.le_trans hindex0.2 h.index.2⟩, ?_, ?_, ?_, ?_, ?_⟩
    · intro c' hc'
      obtain ⟨c, hc, rfl⟩ := mem_map.1 hc'
      rw [(hmark c).1]
      exact h.handle c hc
    · intro c' hc' hlive
      obtain ⟨c, hc, rfl⟩ := mem_map.1 hc'
      obtain ⟨hlive, hne⟩ := (hmark c).2.2.1 hlive
      obtain ⟨hle, hparams⟩ := h.live c hc hlive
      show ((markGone handle c).handle : ℤ) ≤ sys'.clientIndex ∧
        sys'.clientMap (markGone handle c).handle = (markGone handle c).params
      rw [(hmark c).1, (hmark c).2.1, hmap, update_of_ne hne]
      refine ⟨?_, hparams⟩
      rcases hindex with hi | ⟨hlast, hi⟩ <;> omega
    · intro i hfree
      show (sys'.clientMap i).xdrtbl = []
      rw [hmap]
      by_cases hi : i = handle
      · rw [hi, update_self]
        rfl
      · rw [update_of_ne hi]
        refine h.free i fun c hc hlive heq ↦ ?_
        have hne : c.handle ≠ handle := by rw [heq]; exact hi
        exact hfree _ (mem_map_of_mem hc) ((hmark c).2.2.2 hlive hne) ((hmark c).1.trans heq)
    · intro hlog
      obtain ⟨t, ht, hall⟩ := h.table fun hnil ↦ hlog (by rw [hnil]; rfl)
      exact ⟨t, htable.trans ht, fun id hid ↦ (hall id hid).trans (hword s.log id).symm⟩
    · grind [h.base, map_eq_nil_iff]
  · -- a handle that is none of `gClientMap` is nobody's
    have hsame : s.step (.deregister handle) = s := by
      have hlog : s.log.map (markGone handle) = s.log := by
        conv_rhs => rw [← map_id s.log]
        refine map_congr_left fun c hc ↦ ?_
        have := (h.handle c hc).2
        rw [markGone, if_neg (by omega), id]
      rw [Registry.step, deregisterClient, if_neg hlt, hlog]
    rw [hsame]
    exact h

/-- In every run of orderly clients the state of the RPC layer is that of its directory. -/
theorem registryMachine_filed {ops : List (RegistryOp P)}
    (h : (registryMachine P).Runs {} ops s) : s.Filed := by
  refine h.invariant ?_ ⟨⟨Int.le_refl 0, Int.zero_le_ofNat 127⟩, nofun,
    nofun, fun _ _ ↦ rfl, fun hne ↦ absurd rfl hne, fun _ ↦ rfl⟩
  intro s op hs hok
  cases op with
  | register mem₀ mem params => exact hs.register hok
  | deregister handle => exact hs.deregister hok

/-! ### Lookups -/

theorem System.lookup_of_internal {s : System P} {j : ℕ} {x : XdrInfo P}
    (hword : s.basicFastLookup id = entryWord 0 j) (hx : (ackDscrm P)[j]? = some x) :
    ∃ e, s.lookup id = some (x, e) ∧ e.clientIndex = 0 := by
  have hj : j < 3 := by
    obtain ⟨hj, -⟩ := List.getElem?_eq_some_iff.1 hx
    exact hj
  obtain ⟨-, hc, hi⟩ := entryWord_fields (c := 0) (i := j) (by decide) (by omega)
  have hne : entryWord 0 j ≠ noEntry :=
    entryWord_ne_noEntry (by decide) (by omega) (.inr (by rw [noEntry]; omega))
  refine ⟨⟨some x, 0, none, 0, 0⟩, ?_, rfl⟩
  rw [lookup, fastLookup]
  simp only [hword, if_neg hne, hc, hi, if_true, internalXdr, hx, bind_some, map_some]

theorem System.lookup_of_client {s : System P} {c j : ℕ} (hc0 : 0 < c) (hc : c < maxRpcClients)
    (hj : j < 65536) (hword : s.basicFastLookup id = entryWord c j) :
    s.lookup id = (s.lookupXdr c j).map fun e ↦
      (e.1, ⟨some e.1, c, e.2.mainProc, e.2.maxDataBufSize, 0⟩) := by
  obtain ⟨hmask, hclient, hindex⟩ := entryWord_fields hc hj
  have hne : entryWord c j ≠ noEntry := entryWord_ne_noEntry hc hj (.inl hc0)
  rw [lookup, fastLookup]
  simp only [hword, if_neg hne, hmask, hclient, hindex, if_neg hc0.ne']
  cases s.lookupXdr c j with
  | none => rfl
  | some e => rfl

/-- **Lookups find the newest client.** Take an id for which the client that was the last to
register it is still registered, or has left neither its handle nor the id to another one. If the
id is none of the RPC layer itself, it is found exactly if the table of some registered client
contains it, and the entry found has this id and belongs to the client that was the last to
register it. The RPC layer's own ids are found as its own entries, unless the newest client has
them. -/
theorem lookup_finds_newest {ops : List (RegistryOp P)} {s : Registry P}
    (h : (registryMachine P).Runs {} ops s) (hlog : s.log ≠ []) (id : ℕ) (hid : id < 65536)
    (hlast : ∀ c, s.log.find? (·.has id) = some c → c.live = true ∨
      ∀ c' ∈ s.log, c'.live = true → c'.handle ≠ c.handle ∧ c'.has id = false) :
    (¬ Internal id →
      ((s.sys.lookup id).isSome = true ↔ ∃ c ∈ s.log, c.live = true ∧ c.has id = true) ∧
      ∀ e, s.sys.lookup id = some e → ∃ c, s.log.find? (·.has id) = some c ∧ c.live = true ∧
        e.2.clientIndex = c.handle ∧ e.1 ∈ c.params.xdrtbl ∧ e.1.msgType % 65536 = id) ∧
    (Internal id → ∀ c log, s.log = c :: log → c.has id = false →
      ∃ e, s.sys.lookup id = some e ∧ e.2.clientIndex = 0 ∧ e.1 ∈ ackDscrm P ∧
        e.1.msgType % 65536 = id) := by
  have hfiled := registryMachine_filed h
  obtain ⟨t, ht, hword⟩ := hfiled.table hlog
  have hbasic : s.sys.basicFastLookup id = wordOf s.log id := by grind [basicFastLookup]
  refine ⟨fun hnot ↦ ?_, fun hint c log hcons hhas ↦ ?_⟩
  · rw [wordOf_eq hnot] at hbasic
    cases hfind : s.log.find? (·.has id) with
    | none =>
      -- nobody has ever registered the id
      have hnone : s.sys.lookup id = none := by
        rw [hfind] at hbasic
        rw [System.lookup, System.fastLookup]
        simp only [hbasic, bind_none, getD_none, if_true]
      rw [hnone]
      refine ⟨⟨nofun, ?_⟩, nofun⟩
      rintro ⟨c, hc, -, hhas⟩
      exact absurd hhas (List.find?_eq_none.1 hfind c hc)
    | some c =>
      have hc : c ∈ s.log := mem_of_find?_eq_some hfind
      have hhas : c.has id = true := by simpa using List.find?_some hfind
      obtain ⟨j, x, hj, hx, hxid⟩ := Client.word?_of_has hhas
      obtain ⟨hpos, hlt⟩ := hfiled.handle c hc
      have hjlt : j < 65536 := by grind [c.params.tableSize_lt]
      rw [hfind, bind_some, hj] at hbasic
      rw [lookup_of_client hpos hlt hjlt hbasic, lookupXdr]
      rcases hlast c hfind with hlive | hgone
      · obtain ⟨hle, hparams⟩ := hfiled.live c hc hlive
        rw [if_pos hle, hparams, hx]
        refine ⟨⟨fun _ ↦ ⟨c, hc, hlive, hhas⟩, fun _ ↦ rfl⟩, fun e he ↦ ?_⟩
        cases he
        exact ⟨c, rfl, hlive, rfl, mem_of_getElem? hx, hxid⟩
      · -- the client has gone, and its handle is free
        have hfree := hfiled.free c.handle fun c' hc' hl ↦ (hgone c' hc' hl).1
        have hnone : (if (c.handle : ℤ) ≤ s.sys.clientIndex then
            (s.sys.clientMap c.handle).xdrtbl[j]?.map (·, s.sys.clientMap c.handle) else none) =
            none := by
          rw [hfree]
          simp
        rw [hnone]
        refine ⟨⟨nofun, ?_⟩, nofun⟩
        rintro ⟨c', hc', hl, hhas'⟩
        rw [(hgone c' hc' hl).2] at hhas'
        cases hhas'
  · -- the newest registration has entered the ids of the RPC layer
    rw [hcons, wordOf, Client.word?_of_not_has hhas] at hbasic
    cases hj : lastIndex id (ackDscrm P) 0 with
    | none => exact absurd hint (lastIndex_ackDscrm_eq_none.1 hj)
    | some j =>
      obtain ⟨k, x, hk, hx, hxid⟩ := lastIndex_eq_some hj
      rw [hj] at hbasic
      obtain ⟨e, he, hclient⟩ := lookup_of_internal hbasic (by rwa [hk, Nat.zero_add])
      exact ⟨_, he, hclient, mem_of_getElem? hx, hxid⟩

/-- A client with a table of two messages. -/
def twoMessages : InitParams Unit :=
  ⟨false, true, true, [⟨0xF601, .client (), 4⟩, ⟨0xF602, .client (), 4⟩], none, 0, by decide⟩

/-- A client with one of these messages. -/
def oneMessage : InitParams Unit :=
  ⟨false, true, true, [⟨0xF602, .client (), 4⟩], none, 0, by decide⟩

/-- Memory without end. -/
def ample : Memory := ⟨true, fun _ ↦ true⟩

/-- Two clients share message `0xF602`: it belongs to the second. -/
theorem lookup_finds_newest_shared :
    ∃ s, (registryMachine Unit).Runs {} [.register ample ample twoMessages,
        .register ample ample oneMessage] s ∧
      ((s.sys.lookup 0xF602).isSome = true ↔ ∃ c ∈ s.log, c.live = true ∧ c.has 0xF602 = true) ∧
      ∃ c ∈ s.log, c.live = true ∧ c.has 0xF602 = true := by
  refine Machine.Permitted.exists_runs ?_ fun s hrun hs ↦ ?_
  · exact ⟨⟨⟨rfl, fun _ ↦ rfl⟩, ⟨rfl, fun _ ↦ rfl⟩, by decide⟩,
      ⟨⟨rfl, fun _ ↦ rfl⟩, ⟨rfl, fun _ ↦ rfl⟩, by decide⟩, trivial⟩
  · have hlive : ∀ c ∈ s.log, c.live = true := hs ▸ by decide
    refine ⟨((lookup_finds_newest hrun (hs ▸ by decide) 0xF602 (by decide) ?_).1 ?_).1, hs ▸ by
      decide⟩
    · exact fun c hc ↦ .inl (hlive c (mem_of_find?_eq_some hc))
    · intro h
      rcases h with h | h | h <;> revert h <;> decide

/-- **The RPC layer's own messages.** `MSG_CAPI2_ACK_RSP` is found, although no client knows it. -/
theorem own_messages_found :
    ∃ s, (registryMachine Unit).Runs {} [.register ample ample twoMessages] s ∧
      (s.sys.lookup 0x3FFE).isSome = true ∧
      ¬ ∃ c ∈ s.log, c.live = true ∧ c.has 0x3FFE = true := by
  exact ⟨_, Machine.Permitted.runs ⟨⟨⟨rfl, fun _ ↦ rfl⟩, ⟨rfl, fun _ ↦ rfl⟩, by decide⟩, trivial⟩,
    by decide, by decide⟩

end Rpc
