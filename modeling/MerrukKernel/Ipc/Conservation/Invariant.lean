import MerrukKernel.Library.Placement
import MerrukKernel.Library.Update
import MerrukKernel.Ipc.PoolLayout
import MerrukKernel.Ipc.Messages

/-!
# Conservation of buffers: the invariant

Every buffer of a pool is in exactly one place: the free queue of its pool, a client's hands, a slot
of a send FIFO or a slot of a free FIFO. Nothing in the source says so in one place: the queue is a
ring of links, the counts are kept apart from it, and the only protection against a double free is a
status code.

The invariant compares each container with one placement of all buffers (`Conserves`). It says of
the rest of the state what the moves need: pools do not overlap, a buffer knows its pool, its status
code tells whether it is on its way home, and a FIFO carries buffers of one CPU only, so that it has
room. Each operation is then one move (`Conserves.move`) or none (`Conserves.same`).
-/

open Placement List

namespace Ipc

open Function

/-- Where a buffer can be; `outside` is for offsets that are no buffers. -/
inductive Place
  | outside
  | pool (pool : SmPtr)
  | held
  | fifo (id : FifoId)
  deriving DecidableEq

/-- The places in which a buffer counts as freed. -/
def Place.IsFree : Place → Prop
  | .outside | .pool _ | .fifo (.free _) => True
  | .held | .fifo (.send _) => False

/-- The CPU whose buffers a FIFO carries: messages to a CPU come from the other one, buffers on
their way back are its own. -/
def FifoId.owner : FifoId → Cpu
  | .send cpu => cpu.other
  | .free cpu => cpu

/-- The configuration of the pool at an offset. -/
def Sm.config (sm : Sm) (pool : SmPtr) : PoolConfig := (sm.pools pool).config

/-- The buffers of the pool at an offset. -/
def Sm.poolBuffers (sm : Sm) (pool : SmPtr) : List SmPtr := (sm.config pool).buffers pool

namespace System

/-- What is in a place. -/
def content (s : System) : Place → List SmPtr
  | .outside => []
  | .pool pool =>
    queueEntries s.sm.links (poolFreeQ pool) (s.sm.pools pool).maxBuffers.toNat
  | .held => s.held
  | .fifo id => (s.sm.fifos id).pending

/-- The places a buffer of a pool can be in. -/
def placesOf (pool : SmPtr) : List Place :=
  [.pool pool, .held, .fifo (.send .cp), .fifo (.send .ap), .fifo (.free .cp), .fifo (.free .ap)]

/-- **Conservation**: the free queue of each pool is a well-formed ring of buffers of the pool, as
many as the free count says, and each buffer of the pool is in exactly one place. -/
def Conserved (s : System) : Prop :=
  ∀ pool ∈ s.pools, IsQueue s.sm.links (poolFreeQ pool) (s.content (.pool pool)) ∧
    (s.sm.pools pool).freeBuffers.toNat = (s.content (.pool pool)).length ∧
    (∀ b ∈ s.content (.pool pool), b ∈ s.sm.poolBuffers pool) ∧
    ∀ b ∈ s.sm.poolBuffers pool, ((placesOf pool).flatMap s.content).count b = 1

instance (s : System) : Decidable s.Conserved :=
  inferInstanceAs (Decidable (∀ pool ∈ s.pools, _ ∧ _ ∧ _ ∧ _))

/-! ### The layout of the pools -/

/-- The pools lie outside the gap between the allocation counters and do not overlap. -/
structure Layout (sm : Sm) (pools : List SmPtr) : Prop where
  base : 0 < (sm.allocated .ap).toNat
  gap : (sm.allocated .ap).toNat ≤ (sm.allocated .cp).toNat
  fits : ∀ p ∈ pools, p ≠ 0 ∧ (sm.config p).Fits p
  outside : ∀ p ∈ pools, p.toNat + (sm.config p).bytes ≤ (sm.allocated .ap).toNat ∨
    (sm.allocated .cp).toNat ≤ p.toNat
  disjoint : ∀ p ∈ pools, ∀ q ∈ pools, p ≠ q →
    p.toNat + (sm.config p).bytes ≤ q.toNat ∨ q.toNat + (sm.config q).bytes ≤ p.toNat

/-- The offset `a` lies in the stretch of the pool at `p`. -/
def InPool (sm : Sm) (p a : SmPtr) : Prop :=
  p.toNat ≤ a.toNat ∧ a.toNat < p.toNat + (sm.config p).bytes

namespace Layout

variable {sm : Sm} {pools : List SmPtr} {p q a : SmPtr}

section

variable (h : Layout sm pools) (hp : p ∈ pools)
include h hp

theorem inPool_head : InPool sm p (poolFreeQ p) := by
  have := (h.fits p hp).2.toNat_poolFreeQ
  unfold InPool PoolConfig.bytes
  omega

theorem inPool_buffer (ha : a ∈ sm.poolBuffers p) : InPool sm p a := by
  have := (h.fits p hp).2.mem_buffers ha
  unfold InPool
  omega

theorem buffer_ne_zero (ha : a ∈ sm.poolBuffers p) : a ≠ 0 := by
  have := (h.fits p hp).2.mem_buffers ha
  rintro rfl
  simp at this

theorem buffer_ne_head (ha : a ∈ sm.poolBuffers p) : a ≠ poolFreeQ p := by
  have := (h.fits p hp).2.mem_buffers ha
  have := (h.fits p hp).2.toNat_poolFreeQ
  rintro rfl
  omega

/-- **Pools do not overlap.** -/
theorem eq_of_inPool (hq : q ∈ pools) (hpa : InPool sm p a) (hqa : InPool sm q a) : p = q := by
  by_contra hne
  have := h.disjoint p hp q hq hne
  unfold InPool at hpa hqa
  omega

end

/-- A stretch carved out of the gap extends the layout. -/
theorem carve (h : Layout sm pools) {sm' : Sm} (hp : p ≠ 0)
    (hconfig : ∀ q ∈ pools, sm'.config q = sm.config q)
    (hcarved : Carved sm.allocated sm'.allocated p (sm'.config p).bytes)
    (hfits : (sm'.config p).Fits p) : Layout sm' (pools ++ [p]) := by
  obtain ⟨hlower, hupper, hap, hcp, hgap, hout⟩ := hcarved
  have hbase := h.base
  have hold : ∀ q ∈ pools, q.toNat + (sm'.config q).bytes ≤ (sm.allocated .ap).toNat ∨
      (sm.allocated .cp).toNat ≤ q.toNat := fun q hq ↦ by
    rw [hconfig q hq]
    exact h.outside q hq
  refine ⟨by omega, hgap, fun q hq ↦ ?_, fun q hq ↦ ?_, fun q hq r hr hne ↦ ?_⟩
  · rcases mem_append.1 hq with hq | hq
    · rw [hconfig q hq]
      exact h.fits q hq
    · grind
  · grind
  · rcases mem_append.1 hq with hq | hq <;> rcases mem_append.1 hr with hr | hr
    · rw [hconfig q hq, hconfig r hr]
      exact h.disjoint q hq r hr hne
    · grind
    · grind
    · grind

end Layout

/-! ### The invariant -/

/-- The places buffers are kept in. -/
def IsPlace (s : System) : Place → Prop
  | .outside => False
  | .pool p => p ∈ s.pools
  | .held | .fifo _ => True

/-- The buffers of one CPU's pools. -/
def owned (s : System) (cpu : Cpu) : List SmPtr :=
  (s.pools.filter fun p ↦ (s.sm.config p).cpu = cpu).flatMap s.sm.poolBuffers

/-- The part of the invariant that only the creation of a pool changes. -/
structure Settled (s : System) : Prop where
  layout : Layout s.sm s.pools
  /-- No pool has a free callback. -/
  noCallback : ∀ p ∈ s.pools, (s.sm.config p).bufferFreeFunction = 0
  /-- A buffer's queue entry belongs to it, and it knows its pool. -/
  item : ∀ p ∈ s.pools, ∀ b ∈ s.sm.poolBuffers p, s.sm.links.item b = b
  owner : ∀ p ∈ s.pools, ∀ b ∈ s.sm.poolBuffers p, (s.sm.buffers b).pool = p
  /-- Each CPU has fewer buffers than a FIFO has slots. -/
  counted : ∀ cpu, (s.owned cpu).length = (s.sm.currentBuffers cpu).toNat
  admitted : ∀ cpu, (s.sm.currentBuffers cpu).toNat < 1024
  /-- Neither CPU has seen a crash. -/
  crashCode : s.sm.crashCode = 0
  cpCrashed : ∀ cpu, s.cpCrashed cpu = false

/-- **The invariant**: the containers agree with the placement `loc` of the buffers. -/
structure Conserves (s : System) (loc : SmPtr → Place) : Prop where
  settled : Settled s
  lists : ∀ x, s.IsPlace x → Lists loc x (s.content x)
  queue : ∀ p ∈ s.pools, IsQueue s.sm.links (poolFreeQ p) (s.content (.pool p))
  count : ∀ p ∈ s.pools, (s.sm.pools p).freeBuffers.toNat = (s.content (.pool p)).length
  wf : ∀ id, (s.sm.fifos id).WF
  /-- The buffers are those of the pools, and a free queue holds buffers of its own pool. -/
  created : ∀ b, loc b ≠ .outside ↔ ∃ p ∈ s.pools, b ∈ s.sm.poolBuffers p
  home : ∀ p b, loc b = .pool p → p ∈ s.pools ∧ b ∈ s.sm.poolBuffers p
  /-- The status code tells whether a buffer is freed. -/
  status : ∀ b, (s.sm.buffers b).statusCode = .free ↔ (loc b).IsFree
  /-- A FIFO carries buffers of one CPU. -/
  route : ∀ id, ∀ p ∈ s.pools, ∀ b ∈ s.sm.poolBuffers p, loc b = .fifo id →
    (s.sm.config p).cpu = id.owner

variable {s s' : System} {loc : SmPtr → Place}

namespace Conserves

/-- A buffer in a free queue is in the queue of the pool it belongs to. -/
theorem eq_of_home (h : Conserves s loc) {p q b : SmPtr} (hp : p ∈ s.pools)
    (hb : b ∈ s.sm.poolBuffers p) (hq : loc b = .pool q) : q = p := by
  obtain ⟨hqs, hbq⟩ := h.home q b hq
  exact h.settled.layout.eq_of_inPool hqs hp (h.settled.layout.inPool_buffer hqs hbq)
    (h.settled.layout.inPool_buffer hp hb)

/-- **The invariant gives conservation.** -/
theorem conserved (h : Conserves s loc) : s.Conserved := by
  intro p hp
  refine ⟨h.queue p hp, h.count p hp, fun b hb ↦ ?_, fun b hb ↦ ?_⟩
  · exact (h.home p b (((h.lists (.pool p) hp).mem_iff b).1 hb)).2
  · have hplace : ∀ x ∈ placesOf p, s.IsPlace x := by
      intro x hx
      simp only [placesOf, mem_cons, not_mem_nil, or_false] at hx
      rcases hx with rfl | rfl | rfl | rfl | rfl | rfl
      · exact hp
      all_goals exact trivial
    have hcount : ∀ x ∈ placesOf p, (List.count b ∘ s.content) x = if loc b = x then 1 else 0 :=
      fun x hx ↦ (h.lists x (hplace x hx)).count_eq b
    rw [count_flatMap, map_congr_left hcount]
    have hout := (h.created b).2 ⟨p, hp, hb⟩
    cases hloc : loc b with
    | outside => exact absurd hloc hout
    | pool q =>
      obtain rfl := h.eq_of_home hp hb hloc
      simp [placesOf]
    | held => simp [placesOf]
    | fifo id => cases id <;> rename_i cpu <;> cases cpu <;> simp [placesOf]

/-- A free queue is no longer than its pool. -/
theorem length_content_le (h : Conserves s loc) {p : SmPtr} (hp : p ∈ s.pools) :
    (s.content (.pool p)).length ≤ (s.sm.pools p).maxBuffers.toNat := by
  have hsub : s.content (.pool p) ⊆ s.sm.poolBuffers p := fun b hb ↦
    (h.home p b (((h.lists (.pool p) hp).mem_iff b).1 hb)).2
  have := (subperm_of_subset (h.lists (.pool p) hp).nodup hsub).length_le
  rwa [Sm.poolBuffers, PoolConfig.length_buffers] at this

end Conserves

/-! ### Steps that move one buffer, or none -/

/-- Nothing an invariant calls settled has changed. -/
structure SameSettled (s s' : System) : Prop where
  pools : s'.pools = s.pools
  allocated : s'.sm.allocated = s.sm.allocated
  currentBuffers : s'.sm.currentBuffers = s.sm.currentBuffers
  crashCode : s'.sm.crashCode = s.sm.crashCode
  cpCrashed : s'.cpCrashed = s.cpCrashed
  config : ∀ p, s'.sm.config p = s.sm.config p
  item : ∀ b, s'.sm.links.item b = s.sm.links.item b
  owner : ∀ b, (s'.sm.buffers b).pool = (s.sm.buffers b).pool

namespace SameSettled

variable (h : SameSettled s s')
include h

theorem poolBuffers (p : SmPtr) : s'.sm.poolBuffers p = s.sm.poolBuffers p := by
  rw [Sm.poolBuffers, h.config, Sm.poolBuffers]

theorem owned (cpu : Cpu) : s'.owned cpu = s.owned cpu := by
  have hbuffers : s'.sm.poolBuffers = s.sm.poolBuffers := funext h.poolBuffers
  simp only [System.owned, h.pools, h.config, hbuffers]

theorem settled (hs : Settled s) : Settled s' where
  layout := by
    obtain ⟨hbase, hgap, hfits, hout, hdisj⟩ := hs.layout
    constructor <;> simpa only [h.pools, h.allocated, h.config]
  noCallback := by simpa only [h.pools, h.config] using hs.noCallback
  item := by simpa only [h.pools, h.poolBuffers, h.item] using hs.item
  owner := by simpa only [h.pools, h.poolBuffers, h.owner] using hs.owner
  counted cpu := by rw [h.owned, h.currentBuffers]; exact hs.counted cpu
  admitted := by simpa only [h.currentBuffers] using hs.admitted
  crashCode := h.crashCode.trans hs.crashCode
  cpCrashed := by simpa only [h.cpCrashed] using hs.cpCrashed

theorem isPlace (x : Place) : s'.IsPlace x ↔ s.IsPlace x := by
  cases x <;> simp [IsPlace, h.pools]

end SameSettled

namespace Conserves

/-- **A step that moves the buffer `b`** to the place `y`. -/
theorem move (h : Conserves s loc) (hset : SameSettled s s') {b : SmPtr} {y : Place}
    (hb : loc b ≠ .outside) (hxy : loc b ≠ y) (hy : s.IsPlace y)
    (hmove : Move s.IsPlace s.content s'.content (loc b) y b)
    (hqueue : ∀ p ∈ s.pools, IsQueue s'.sm.links (poolFreeQ p) (s'.content (.pool p)))
    (hcount : ∀ p ∈ s.pools, (s'.sm.pools p).freeBuffers.toNat = (s'.content (.pool p)).length)
    (hwf : ∀ id, (s'.sm.fifos id).WF)
    (hhome : ∀ p, y = .pool p → b ∈ s.sm.poolBuffers p)
    (hroute : ∀ id, y = .fifo id → ∀ p ∈ s.pools, b ∈ s.sm.poolBuffers p →
      (s.sm.config p).cpu = id.owner)
    (hstatus : ∀ a ≠ b, (s'.sm.buffers a).statusCode = (s.sm.buffers a).statusCode)
    (hstatus' : (s'.sm.buffers b).statusCode = .free ↔ y.IsFree) :
    Conserves s' (update loc b y) := by
  have hyout : y ≠ .outside := by
    rintro rfl
    exact hy
  constructor
  · exact hset.settled h.settled
  · intro x hx
    have hplace := (hset.isPlace x).1 hx
    exact (h.lists x hplace).move hmove hxy rfl hplace
  · simpa only [hset.pools] using hqueue
  · simpa only [hset.pools] using hcount
  · exact hwf
  · intro a
    rw [hset.pools]
    simp only [hset.poolBuffers]
    rcases eq_or_ne a b with rfl | hne
    · grind [h.created]
    · rw [update_of_ne hne, h.created a]
  · intro p a hloc
    rw [hset.pools, hset.poolBuffers]
    rcases eq_or_ne a b with rfl | hne
    · rw [update_self] at hloc
      exact ⟨by simpa [hloc, IsPlace] using hy, hhome p hloc⟩
    · grind [h.home]
  · intro a
    rcases eq_or_ne a b with rfl | hne
    · rw [update_self]
      exact hstatus'
    · grind [h.status]
  · intro id p hp a ha hloc
    rw [hset.pools] at hp
    rw [hset.poolBuffers] at ha
    rw [hset.config]
    rcases eq_or_ne a b with rfl | hne
    · grind
    · grind [h.route]

/-- **A step that moves nothing.** -/
theorem same (h : Conserves s loc) (hset : SameSettled s s')
    (hlinks : s'.sm.links = s.sm.links) (hheld : s'.held = s.held)
    (hfifos : s'.sm.fifos = s.sm.fifos)
    (hcount : ∀ p, (s'.sm.pools p).freeBuffers = (s.sm.pools p).freeBuffers)
    (hstatus : ∀ a, (s'.sm.buffers a).statusCode = .free ↔ (s.sm.buffers a).statusCode = .free) :
    Conserves s' loc := by
  have hcontent : s'.content = s.content := by
    funext x
    have hmax : ∀ p, (s'.sm.pools p).maxBuffers = (s.sm.pools p).maxBuffers :=
      fun p ↦ congrArg PoolConfig.maxBuffers (hset.config p)
    cases x <;> simp [content, hlinks, hheld, hfifos, hmax]
  constructor
  · exact hset.settled h.settled
  · intro x hx
    rw [hcontent]
    exact h.lists x ((hset.isPlace x).1 hx)
  · rw [hset.pools, hcontent, hlinks]
    exact h.queue
  · intro p hp
    rw [hset.pools] at hp
    rw [hcontent, hcount]
    exact h.count p hp
  · rw [hfifos]
    exact h.wf
  · simpa only [hset.pools, hset.poolBuffers] using h.created
  · simpa only [hset.pools, hset.poolBuffers] using h.home
  · exact fun a ↦ (hstatus a).trans (h.status a)
  · simpa only [hset.pools, hset.poolBuffers, hset.config] using h.route

end Conserves

end System

end Ipc
