import Mathlib.Data.List.Basic
import Mathlib.Order.Nat
import Mathlib.Algebra.Group.Nat.Defs

/-!
# RPC clients and the lookup of their XDR procedures

A client of the RPC layer registers a table of the messages it knows (`rpc_sys.c`), and a message
is later found again by its 16-bit id (`rpc_lookup.c`). The lookup goes through a table of two
levels, indexed by the two bytes of the id, whose entries are 32-bit words: a mask, the index of a
client and an index into the table of that client. Client `0` stands for the table of the RPC
layer itself.

Nothing is ever taken out of the two-level table: that a client is gone shows only in
`gClientMap`, where its parameters have been zeroed.

Words are natural numbers with their conversions written out. `gClientIndex` is the only signed
one, an integer that wraps around like an `Int8`. Whether `capi2_malloc` finds memory is an
argument.
-/

namespace Rpc

open Function

/-- The procedures that tables refer to (`xdrproc_t`): those of the RPC layer, the null pointer, and
those of its clients. -/
inductive XdrProc (P : Type)
  | ack
  | simpleMsg
  | null
  | client (p : P)
  deriving DecidableEq

/-- An entry of a table of messages (`RPC_XdrInfo_t`). -/
structure XdrInfo (P : Type) where
  msgType : ℕ
  xdrProc : XdrProc P
  xdrSize : ℕ
  deriving DecidableEq

/-- `MSG_CAPI2_ACK_RSP`. -/
def msgCapi2AckRsp : ℕ := 0x3FFE

/-- `MSG_RPC_SIMPLE_REQ_RSP`. -/
def msgRpcSimpleReqRsp : ℕ := 0x3FF8

/-- `(MsgType_t)__dontcare__`, which closes the tables. -/
def dontcare : ℕ := 0xFFFFFFFF

/-- `(unsigned short)msgType`. -/
def XdrInfo.id {P : Type} (x : XdrInfo P) : ℕ := x.msgType % 65536

/-- The table of the RPC layer itself (`ACK_dscrm`). -/
def ackDscrm (P : Type) : List (XdrInfo P) :=
  [⟨msgCapi2AckRsp, .ack, 8⟩, ⟨msgRpcSimpleReqRsp, .simpleMsg, 12⟩, ⟨dontcare, .null, 0⟩]

/-- What a client registers (`RPC_InitParams_t`); of the callbacks, whether there is one. The size
of the table is a 16-bit word. -/
structure InitParams (P : Type) where
  reqCb : Bool
  respCb : Bool
  ackCb : Bool
  xdrtbl : List (XdrInfo P)
  mainProc : Option P
  maxDataBufSize : ℕ
  tableSize_lt : xdrtbl.length < 65536

theorem length_nil_lt (P : Type) : ([] : List (XdrInfo P)).length < 65536 := Nat.zero_lt_succ _

/-- `memset(.., 0, sizeof(RPC_InitParams_t))`. -/
def InitParams.zero (P : Type) : InitParams P :=
  ⟨false, false, false, [], none, 0, length_nil_lt P⟩

/-- `MAX_RPC_CLIENTS`. -/
def maxRpcClients : ℕ := 25

/-- The word that marks an id nobody has registered. -/
def noEntry : ℕ := 0xFFFF

/-- The second level of the table, where it has been allocated. -/
abbrev Rows := ℕ → Option (ℕ → ℕ)

/-- The state of the RPC layer. -/
structure System (P : Type) where
  tableBase : Option Rows := none
  clientIndex : ℤ := 0
  clientMap : ℕ → InitParams P := fun _ ↦ .zero P
  /-- `gClientLocalMap`. -/
  notifyUnsolicited : ℕ → Bool := fun _ ↦ false
  clientIds : ℕ → ℕ := fun _ ↦ 0
  clientIdIndex : ℕ := 0

/-- Whether `capi2_malloc` finds memory for the first level and, at each entry, for a row. -/
structure Memory where
  base : Bool
  row : ℕ → Bool

variable {P : Type}

/-! ### Filling the table -/

/-- The word that stands for entry `i` of the table of a client. -/
def entryWord (clientIndex i : ℕ) : ℕ := clientIndex % 65536 * 65536 + i % 65536

/-- One round of the loop in `rpc_build_lookup`. -/
def setEntry (mem : Bool) (clientIndex : ℕ) (x : XdrInfo P) (i : ℕ) (t : Rows) : Rows :=
  match t (x.id / 256) with
  | some row => update t (x.id / 256)
      (some (update row (x.id % 256) (entryWord clientIndex i)))
  | none =>
    if mem then
      update t (x.id / 256)
        (some (update (fun _ ↦ noEntry) (x.id % 256) (entryWord clientIndex i)))
    else t

/-- The loop in `rpc_build_lookup`, from entry `i` on. -/
def setEntries (row : ℕ → Bool) (clientIndex : ℕ) : List (XdrInfo P) → ℕ → Rows → Rows
  | [], _, t => t
  | x :: tbl, i, t => setEntries row clientIndex tbl (i + 1) (setEntry (row i) clientIndex x i t)

/-- `rpc_build_lookup`. -/
def buildLookup (mem : Memory) (tbl : List (XdrInfo P)) (clientIndex : ℕ) (base : Option Rows) :
    Option Rows :=
  match base with
  | some t => some (setEntries mem.row clientIndex tbl 0 t)
  | none => if mem.base then some (setEntries mem.row clientIndex tbl 0 fun _ ↦ none) else none

/-! ### Looking up -/

/-- The word for an id in the second level. -/
def Rows.word (t : Rows) (id : ℕ) : ℕ :=
  match t (id / 256) with
  | none => noEntry
  | some row => row (id % 256)

/-- `rpc_basic_fast_lookup`; `0` before anything has been registered. -/
def System.basicFastLookup (s : System P) (dscm : ℕ) : ℕ :=
  match s.tableBase with
  | none => 0
  | some t => t.word (dscm % 65536)

/-- What a lookup finds (`RPC_InternalXdrInfo_t`). -/
structure InternalXdrInfo (P : Type) where
  xdrInfo : Option (XdrInfo P)
  clientIndex : ℕ
  mainProc : Option P
  maxDataBufSize : ℕ
  mask : ℕ

/-- `RPC_InternalXdr`. -/
def internalXdr (P : Type) (index : ℕ) : Option (XdrInfo P) := (ackDscrm P)[index]?

/-- `RPC_SYS_LookupXdr`: the entry of a client's table, with what else the client has registered. -/
def System.lookupXdr (s : System P) (clientIndex index : ℕ) : Option (XdrInfo P × InitParams P) :=
  if (clientIndex : ℤ) ≤ s.clientIndex then
    (s.clientMap clientIndex).xdrtbl[index]?.map (·, s.clientMap clientIndex)
  else none

/-- `rpc_fast_lookup`. -/
def System.fastLookup (s : System P) (dscm : ℕ) : Option (InternalXdrInfo P) :=
  let val := s.basicFastLookup dscm
  if val = noEntry then none
  else
    let mask := val / 2 ^ 24 % 256
    let clientIndex := val / 2 ^ 16 % 256
    let index := val % 65536
    if clientIndex = 0 then some ⟨internalXdr P index, 0, none, 0, 0⟩
    else
      (s.lookupXdr clientIndex index).map fun e ↦
        ⟨some e.1, clientIndex, e.2.mainProc, e.2.maxDataBufSize, mask⟩

/-- **A lookup succeeds** when an entry has been found (`ret && entry.xdrInfo != NULL`). -/
def System.lookup (s : System P) (dscm : ℕ) : Option (XdrInfo P × InternalXdrInfo P) :=
  (s.fastLookup dscm).bind fun e ↦ e.xdrInfo.map (·, e)

/-! ### Registering -/

/-- `SYS_GenClientID`. -/
def System.genClientId (s : System P) : ℕ × System P :=
  ((64 + s.clientIdIndex) % 256, { s with clientIdIndex := (s.clientIdIndex + 1) % 256 })

/-- `RPC_SYS_RegisterClient`. The handle `0` is the null handle. -/
def System.registerClient (mem₀ mem : Memory) (params : InitParams P) (s : System P) :
    ℕ × System P :=
  let s := { s with clientIndex := (s.clientIndex + 1).bmod 256 }
  let clientIndex := (s.clientIndex % 256).toNat
  if maxRpcClients ≤ clientIndex then (0, s)
  else
    let base := buildLookup mem₀ (ackDscrm P) 0 s.tableBase
    let s := { s with
      clientMap := update s.clientMap clientIndex params
      tableBase := buildLookup mem params.xdrtbl clientIndex base }
    let (userClientId, s) := s.genClientId
    (clientIndex, { s with
      clientIds := update s.clientIds userClientId clientIndex
      notifyUnsolicited := update s.notifyUnsolicited clientIndex false })

/-- `RPC_SYS_DeregisterClient`. -/
def System.deregisterClient (handle : ℕ) (s : System P) : System P :=
  if handle < maxRpcClients then
    { s with
      clientMap := update s.clientMap handle (.zero P)
      clientIndex := if (handle : ℤ) = s.clientIndex then (s.clientIndex - 1).bmod 256
        else s.clientIndex }
  else s

/-! ### What the table holds -/

/-- The last entry with an id, counted from `i`: the one that stays in the table of words. -/
def lastIndex (id : ℕ) : List (XdrInfo P) → ℕ → Option ℕ
  | [], _ => none
  | x :: tbl, i => lastIndex id tbl (i + 1) <|> if x.id = id then some i else none

variable {i id c : ℕ} {tbl : List (XdrInfo P)}

theorem lastIndex_eq_none : lastIndex id tbl i = none ↔ ∀ x ∈ tbl, x.id ≠ id := by
  induction tbl generalizing i with
  | nil => simp [lastIndex]
  | cons x tbl ih =>
    rw [lastIndex, Option.orElse_eq_orElse, Option.orElse_eq_or, Option.or_eq_none_iff]
    constructor
    · grind
    · grind

theorem lastIndex_eq_some {j : ℕ}
    (h : lastIndex id tbl i = some j) : ∃ k x, j = i + k ∧ tbl[k]? = some x ∧ x.id = id := by
  induction tbl generalizing i with
  | nil => cases h
  | cons x tbl ih =>
    rw [lastIndex] at h
    cases hrest : lastIndex id tbl (i + 1) with
    | some j' =>
      rw [hrest] at h
      cases h
      obtain ⟨k, y, rfl, hy, hid⟩ := ih hrest
      exact ⟨k + 1, y, by omega, by simpa using hy, hid⟩
    | none =>
      rw [hrest] at h
      by_cases hx : x.id = id
      · rw [if_pos hx] at h
        cases h
        exact ⟨0, x, rfl, rfl, hx⟩
      · rw [if_neg hx] at h
        cases h

theorem setEntry_word (hid : id < 65536) (c : ℕ) (x : XdrInfo P) (i : ℕ) (t : Rows) :
    (setEntry true c x i t).word id = if x.id = id then entryWord c i else t.word id := by
  have hrow : ∀ row : ℕ → ℕ, t (x.id / 256) = some row ∨ t (x.id / 256) = none ∧
      row = (fun _ ↦ noEntry) → Rows.word (update t (x.id / 256)
        (some (update row (x.id % 256) (entryWord c i)))) id =
        if x.id = id then entryWord c i else t.word id := by
    intro row h
    by_cases h1 : id / 256 = x.id / 256
    · rw [Rows.word, h1, update_self]
      show update row (x.id % 256) (entryWord c i) (id % 256) = _
      by_cases h2 : id % 256 = x.id % 256
      · rw [h2, update_self, if_pos (by omega)]
      · rw [update_of_ne h2, if_neg (by omega), Rows.word, h1]
        rcases h with h | ⟨h, rfl⟩ <;> rw [h]
    · rw [Rows.word, update_of_ne h1, if_neg (by rintro rfl; exact h1 rfl)]
      rfl
  rw [setEntry]
  cases ht : t (x.id / 256) with
  | some row => exact hrow row (.inl ht)
  | none => exact hrow _ (.inr ⟨ht, rfl⟩)

/-- With memory, a table leaves the word of its last entry under each of its ids. -/
theorem setEntries_word (hid : id < 65536) {row : ℕ → Bool} (hrow : ∀ i, row i = true)
    (c : ℕ) (tbl : List (XdrInfo P)) (i : ℕ) (t : Rows) : (setEntries row c tbl i t).word id =
      ((lastIndex id tbl i).map (entryWord c)).getD (t.word id) := by
  induction tbl generalizing i t with
  | nil => rfl
  | cons x tbl ih =>
    rw [setEntries, ih, hrow, setEntry_word hid, lastIndex]
    cases lastIndex id tbl (i + 1) with
    | some j => rfl
    | none => grind

/-- The word of entry `i` of client `c` gives both of them back. -/
theorem entryWord_fields (hc : c < maxRpcClients) (hi : i < 65536) :
    entryWord c i / 2 ^ 24 % 256 = 0 ∧ entryWord c i / 2 ^ 16 % 256 = c ∧
      entryWord c i % 65536 = i := by
  rw [maxRpcClients] at hc
  rw [entryWord]
  omega

theorem entryWord_ne_noEntry (hc : c < maxRpcClients) (hi : i < 65536)
    (h : 0 < c ∨ i < noEntry) : entryWord c i ≠ noEntry := by
  rw [maxRpcClients] at hc
  rw [noEntry] at h ⊢
  rw [entryWord]
  omega

end Rpc
