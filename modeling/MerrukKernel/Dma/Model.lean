import Mathlib.Data.List.FinRange
import Mathlib.Algebra.Group.Nat.Defs

/-!
# The descriptors of the DMA controller

`chal_dma.c`. The memory for the descriptors of transfers (linked list items, nodes) is divided
into 32 bands. A channel that is configured reserves bands, up to 24 of them, and the nodes for
the buffers that are added to it are taken from its bands in order. Ownership is recorded twice: a
band is marked as used, and the channel lists its bands, of which `bandNum` count.

A pointer to a band is its index. A pointer to a node is its address, `0` the null pointer, and
the nodes are a table over addresses. The array `chanNodeBand` is a function; an access at or
beyond its size of 24 sets the flag `overflow`. Words are natural numbers, reduced where the
arithmetic can exceed 32 bits and where a bit field is narrower. The registers of the controller
are left out: nothing here reads them.
-/

namespace Dma

open Function

/-- `LLI_NODE_BAND_NUM` -/
def lliNodeBandNum : ℕ := 32

/-- `MAX_BAND_NUM_PER_CHAN` -/
def maxBandNumPerChan : ℕ := 24

/-- `DMA_LLI_NODE_SIZE`, and the size of a `ChalDmaLinkNode_t`. -/
def dmaLliNodeSize : ℕ := 16

/-- `DMA_MAX_XFER_SIZE` -/
def dmaMaxXferSize : ℕ := 4095

/-- `TOTAL_DMA_CHANNELS` -/
def totalDmaChannels : ℕ := 12

/-- `ASSOCIATE_CHANNEL` -/
def associateChannel : ℕ := 8

abbrev BandId := Fin lliNodeBandNum

/-- An index of `chanInfo`. -/
abbrev ChanId := Fin (totalDmaChannels + associateChannel)

/-- `DmaChanControl_t`: the bit fields of the control word of a node. -/
structure Control where
  xferSize : ℕ
  srcBSize : ℕ
  dstBSize : ℕ
  srcWidth : ℕ
  dstWidth : ℕ
  srcMaster : ℕ
  dstMaster : ℕ
  srcIncrement : ℕ
  dstIncrement : ℕ
  prot : ℕ
  tcIntEnable : ℕ
deriving DecidableEq

/-- `ChalDmaLinkNode_t` -/
structure LinkNode where
  src : ℕ
  dst : ℕ
  next : ℕ
  control : Control
deriving DecidableEq

/-- `ChalLLIBand_t` -/
structure Band where
  firstNode : ℕ
  nodeNum : ℕ
  currNode : ℕ
  bUsed : Bool

/-- `ChalDmaChanInfo_t` -/
structure ChanInfo where
  chanNodeBand : ℕ → BandId
  bandNum : ℕ
  headNode : ℕ
  currNode : ℕ
  active : ℕ
  refCount : ℕ
  bUsed : Bool

/-- `ChalDmaDev_t` -/
structure Dev where
  lliVirtualAddr : ℕ
  lliPhysicalAddr : ℕ
  band : BandId → Band
  chan : ChanId → ChanInfo
  nodeNumPerBand : ℕ
  /-- The memory of the nodes. -/
  node : ℕ → LinkNode
  /-- `chanNodeBand` was indexed at or beyond its size. -/
  overflow : Bool

namespace Dev

variable (d : Dev)

def setBand (j : BandId) (b : Band) : Dev := { d with band := update d.band j b }

def setChan (c : ChanId) (k : ChanInfo) : Dev := { d with chan := update d.chan c k }

def setNode (a : ℕ) (n : LinkNode) : Dev := { d with node := update d.node a n }

@[simp]
theorem setChan_chan_self (c : ChanId) (k : ChanInfo) : (d.setChan c k).chan c = k :=
  update_self ..

theorem setChan_chan_of_ne {c c' : ChanId} (h : c' ≠ c) (k : ChanInfo) :
    (d.setChan c k).chan c' = d.chan c' :=
  update_of_ne h ..

/-- The bands of a channel: the first `bandNum` entries of its list. -/
def listed (c : ChanId) : List BandId :=
  (List.range (d.chan c).bandNum).map (d.chan c).chanNodeBand

/-! ### Channels and their bands -/

/-- `chal_dma_allocate_specific_channel`: the channel, or `0xffffffff`. -/
def chalDmaAllocateSpecificChannel (c : ChanId) : ℕ × Dev :=
  if (d.chan c).bUsed then (2 ^ 32 - 1, d)
  else (c, d.setChan c { d.chan c with bUsed := true })

/-- The first band that is not used. -/
def freeBand? : Option BandId := (List.finRange lliNodeBandNum).find? fun j ↦ !(d.band j).bUsed

/-- A band is entered as the `i`-th of a channel, and marked. -/
def enlist (c : ChanId) (i : ℕ) (j : BandId) : Dev :=
  let k := d.chan c
  { (d.setChan c
      { k with chanNodeBand := update k.chanNodeBand i j, bandNum := k.bandNum + 1 }).setBand j
      { d.band j with bUsed := true } with
    overflow := d.overflow || maxBandNumPerChan ≤ i }

/-- The marks of the bands of a channel are removed. -/
def unmark (c : ChanId) : Dev :=
  { d with
    band := fun j ↦ if j ∈ d.listed c then { d.band j with bUsed := false } else d.band j
    overflow := d.overflow || maxBandNumPerChan < (d.chan c).bandNum }

/-- The loop of `chal_dma_config_channel` that reserves `n` bands, from the `i`-th on. When there
is none left, all of them are given back. -/
def reserve (d : Dev) (c : ChanId) : ℕ → ℕ → ℕ × Dev
  | _, 0 => (1, d)
  | i, n + 1 =>
    match d.freeBand? with
    | some j => (d.enlist c i j).reserve c (i + 1) n
    | none =>
      let d := d.unmark c
      (0, d.setChan c { d.chan c with bandNum := 0 })

/-- The entry of `chanInfo` that is configured. -/
def configChan (chan : Fin totalDmaChannels) : Option (Fin associateChannel) → ChanId
  | none => chan.castAdd associateChannel
  | some assoc => assoc.natAdd totalDmaChannels

/-- `chal_dma_config_channel`, the part that follows the registers. -/
def chalDmaConfigChannel (chan : Fin totalDmaChannels) (assoc : Option (Fin associateChannel))
    (nodeNumRequested : ℕ) : ℕ × Dev :=
  let c := configChan chan assoc
  if (d.chan c).bUsed then
    let bandRequested := (nodeNumRequested / d.nodeNumPerBand + 1) % 2 ^ 32
    (d.setChan c { d.chan c with bandNum := 0 }).reserve c 0 bandRequested
  else (1, d)

/-- `chal_dma_free_channel`, of any channel number: success is `0`, failure `1`. -/
def chalDmaFreeChannel (channel : ℕ) : ℕ × Dev :=
  if h : channel < totalDmaChannels + associateChannel then
    let c : ChanId := ⟨channel, h⟩
    let d' := d.setChan c
      { d.chan c with bUsed := false, active := 0, refCount := 0, headNode := 0, currNode := 0 }
    (0, { d' with
      band := fun j ↦
        if j ∈ d.listed c then { d.band j with bUsed := false, currNode := 0 } else d.band j
      overflow := d.overflow || maxBandNumPerChan < (d.chan c).bandNum })
  else (1, d)

/-! ### Nodes -/

/-- `TRANSFER_WIDTH` -/
def transferWidth : Fin 3 → ℕ
  | 0 => 1
  | 1 => 2
  | 2 => 4

/-- The bands of a channel start again with their first node. -/
def rewind (c : ChanId) : Dev :=
  { d with
    band := fun j ↦ if j ∈ d.listed c then { d.band j with currNode := 0 } else d.band j }

/-- `chal_dma_get_first_node`: the first node of the first band, after all bands are rewound. -/
def chalDmaGetFirstNode (c : ChanId) : ℕ × Dev :=
  match d.listed c with
  | [] => (0, d)
  | j :: _ =>
    let d' := d.rewind c
    ((d'.band j).firstNode, d'.setBand j { d'.band j with currNode := (d'.band j).currNode + 1 })

/-- `chal_dma_get_next_node`: the next node of the first band of the channel that is not
exhausted. -/
def chalDmaGetNextNode (c : ChanId) : ℕ × Dev :=
  match (d.listed c).find? fun j ↦ (d.band j).currNode < (d.band j).nodeNum with
  | some j =>
    ((d.band j).firstNode + (d.band j).currNode * dmaLliNodeSize,
      d.setBand j { d.band j with currNode := (d.band j).currNode + 1 })
  | none => (0, d)

/-- `chal_dma_get_lli_physical_addr` -/
def chalDmaGetLliPhysicalAddr (a : ℕ) : ℕ :=
  (d.lliPhysicalAddr + a + (2 ^ 32 - d.lliVirtualAddr)) % 2 ^ 32

end Dev

/-- `ChalDmaBufferDesc_t`, with `ChalDmaChanControl_t`. -/
structure BufferDesc where
  firstBuffer : Bool
  src : ℕ
  dst : ℕ
  size : ℕ
  tcIntEnable : ℕ
  prot : ℕ
  dstIncrement : ℕ
  srcIncrement : ℕ
  dstMaster : ℕ
  srcMaster : ℕ
  dstWidth : Fin 3
  srcWidth : Fin 3
  dstBSize : ℕ
  srcBSize : ℕ

/-- The control word that the nodes of a buffer start with. -/
def BufferDesc.control (b : BufferDesc) : Control where
  xferSize := 0
  srcBSize := b.srcBSize % 2 ^ 3
  dstBSize := b.dstBSize % 2 ^ 3
  srcWidth := b.srcWidth
  dstWidth := b.dstWidth
  srcMaster := b.srcMaster % 2
  dstMaster := b.dstMaster % 2
  srcIncrement := b.srcIncrement % 2
  dstIncrement := b.dstIncrement % 2
  prot := b.prot % 2 ^ 3
  tcIntEnable := 0

namespace Dev

variable (d : Dev)

/-- The loop of `chal_dma_add_buffer`: what remains, the node it stops at, and the state. Each
round leaves less to transfer, so as many rounds as there are items are enough. -/
def addNodes (c : ChanId) (b : BufferDesc) (lliXferSize : ℕ) : ℕ → Dev → ℕ → ℕ → ℕ → ℕ → ℕ × ℕ × Dev
  | 0, d, curr, _, _, xfer => (xfer, curr, d)
  | rounds + 1, d, curr, src, dst, xfer =>
    if xfer = 0 then (xfer, curr, d)
    else if xfer ≤ lliXferSize then
      let control :=
        { b.control with xferSize := xfer % 2 ^ 12, tcIntEnable := b.tcIntEnable % 2 }
      (0, curr, d.setNode curr ⟨src, dst, 0, control⟩)
    else
      let control := { b.control with xferSize := lliXferSize % 2 ^ 12 }
      let d := d.setNode curr ⟨src, dst, 0, control⟩
      let xfer := xfer - lliXferSize
      match d.chalDmaGetNextNode c with
      | (0, d) => (xfer, curr, d)
      | (next, d) =>
        let d := d.setNode curr ⟨src, dst, d.chalDmaGetLliPhysicalAddr next, control⟩
        let src := if b.control.srcIncrement = 0 then src
          else (src + lliXferSize * transferWidth b.srcWidth) % 2 ^ 32
        let dst := if b.control.dstIncrement = 0 then dst
          else (dst + lliXferSize * transferWidth b.dstWidth) % 2 ^ 32
        addNodes c b lliXferSize rounds d next src dst xfer

/-- The end of `chal_dma_add_buffer`, from the node that the buffer starts with. -/
def fillNodes (c : ChanId) (b : BufferDesc) (lliXferSize curr : ℕ) : ℕ × Dev :=
  let xfer := b.size / transferWidth b.srcWidth
  match addNodes c b lliXferSize xfer d curr b.src b.dst xfer with
  | (xfer, curr, d) =>
    (xfer * transferWidth b.srcWidth % 2 ^ 32, d.setChan c { d.chan c with currNode := curr })

/-- `chal_dma_add_buffer`: the number of bytes that did not fit. -/
def chalDmaAddBuffer (c : ChanId) (b : BufferDesc) (lliXferSize : ℕ) : ℕ × Dev :=
  if lliXferSize < dmaMaxXferSize then (0, d)
  else if b.firstBuffer then
    match d.chalDmaGetFirstNode c with
    | (0, d) => (b.size, d)
    | (curr, d) =>
      (d.setChan c { d.chan c with headNode := curr }).fillNodes c b lliXferSize curr
  else
    let curr := (d.chan c).currNode
    match d.chalDmaGetNextNode c with
    | (0, d) => (b.size / transferWidth b.srcWidth * transferWidth b.srcWidth, d)
    | (next, d) =>
      (d.setNode curr { d.node curr with next := d.chalDmaGetLliPhysicalAddr next }).fillNodes c b
        lliXferSize next

end Dev

/-- `chal_dma_config_device_memory`: the memory is divided into bands, none of which is used. -/
def chalDmaConfigDeviceMemory (lliVirtualAddr lliPhysicalAddr size : ℕ) (d : Dev) : Dev :=
  let nodeNumPerBand := size / (dmaLliNodeSize * lliNodeBandNum)
  { d with
    lliVirtualAddr
    lliPhysicalAddr
    nodeNumPerBand
    band := fun i ↦
      { d.band i with
        firstNode := lliVirtualAddr + i * nodeNumPerBand * dmaLliNodeSize
        nodeNum := nodeNumPerBand
        bUsed := false } }

/-- The device before its memory is configured, all zero. -/
def devZero : Dev where
  lliVirtualAddr := 0
  lliPhysicalAddr := 0
  band _ := ⟨0, 0, 0, false⟩
  chan _ := ⟨fun _ ↦ ⟨0, by decide⟩, 0, 0, 0, 0, 0, false⟩
  nodeNumPerBand := 0
  node _ := ⟨0, 0, 0, ⟨0, 0, 0, 0, 0, 0, 0, 0, 0, 0, 0⟩⟩
  overflow := false

end Dma
