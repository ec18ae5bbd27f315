import MerrukKernel.Dma.Supply
import Mathlib.Algebra.Order.Group.Nat
import Mathlib.Algebra.Ring.Nat

/-!
# The chain that describes a transfer

`chal_dma_add_buffer` cuts a buffer into pieces, one for each node, and links the nodes behind
those of the buffers before it. The controller follows the links from `headNode` on and moves, for
each node, `xferSize` items of the source width.

`pieces` is the list of pieces into which a buffer is cut, and `addNodes_spec` says that these are
what the nodes hold. Whether they tile the buffer is then a question about numbers: the field
`xferSize` has 12 bits and is filled with whatever fits into `lliXferSize`, and the destination is
stepped by items of the destination width although items of the source width are moved.
-/

open List

namespace Dma

open Dev BufferDesc

/-! ### Extents -/

/-- A range of bytes at the source and one of the same length at the destination. -/
structure Extent where
  src : ℕ
  dst : ℕ
  len : ℕ
deriving DecidableEq

/-- **The pieces tile the requests**, in order, without gap or overlap, at the source and at the
destination. -/
inductive Tiles : List Extent → List Extent → Prop
  | done : Tiles [] []
  | next {src dst : ℕ} {rs ps : List Extent} : Tiles rs ps → Tiles (⟨src, dst, 0⟩ :: rs) ps
  | piece {src dst n len : ℕ} {rs ps : List Extent} : 0 < n →
      Tiles (⟨src + n, dst + n, len⟩ :: rs) ps → Tiles (⟨src, dst, n + len⟩ :: rs)
      (⟨src, dst, n⟩ :: ps)

/-- The length of all extents. -/
def total (es : List Extent) : ℕ := (es.map Extent.len).sum

@[simp]
theorem total_nil : total [] = 0 := rfl

@[simp]
theorem total_cons (e : Extent) (es : List Extent) : total (e :: es) = e.len + total es :=
  sum_cons

@[simp]
theorem total_append (es es' : List Extent) : total (es ++ es') = total es + total es' := by
  unfold total
  rw [map_append, sum_append]

variable {ps rs : List Extent}

theorem Tiles.total_eq (h : Tiles rs ps) : total ps = total rs := by
  induction h with
  | done => rfl
  | next _ ih => simpa using ih
  | piece _ _ ih =>
    simp only [total_cons] at ih ⊢
    omega

/-- The bytes that a node moves. -/
def LinkNode.bytes (n : LinkNode) : ℕ := n.control.xferSize * [1, 2, 4].getD n.control.srcWidth 0

/-- The extent of a node. -/
def LinkNode.extent (n : LinkNode) : Extent := ⟨n.src, n.dst, n.bytes⟩

theorem getD_transferWidth (w : Fin 3) : [1, 2, 4].getD w 0 = transferWidth w := by
  revert w
  decide

theorem transferWidth_pos (w : Fin 3) : 0 < transferWidth w := by
  revert w
  decide

theorem transferWidth_le (w : Fin 3) : transferWidth w ≤ 4 := by
  revert w
  decide

theorem transferWidth_inj {w w' : Fin 3} (h : transferWidth w = transferWidth w') : w = w' := by
  revert w w'
  decide

/-- The pieces of a buffer, from some place in it. -/
def pieces (b : BufferDesc) (lliXferSize : ℕ) : ℕ → ℕ → ℕ → ℕ → List Extent
  | 0, _, _, _ => []
  | rounds + 1, src, dst, xfer =>
    if xfer = 0 then []
    else if xfer ≤ lliXferSize then [⟨src, dst, xfer % 2 ^ 12 * Dev.transferWidth b.srcWidth⟩]
    else ⟨src, dst, lliXferSize % 2 ^ 12 * Dev.transferWidth b.srcWidth⟩ ::
      pieces b lliXferSize rounds
        (if b.control.srcIncrement = 0 then src
          else (src + lliXferSize * Dev.transferWidth b.srcWidth) % 2 ^ 32)
        (if b.control.dstIncrement = 0 then dst
          else (dst + lliXferSize * Dev.transferWidth b.dstWidth) % 2 ^ 32)
        (xfer - lliXferSize)

/-- The pieces of a whole buffer. -/
def BufferDesc.pieces (b : BufferDesc) (lliXferSize : ℕ) : List Extent :=
  Dma.pieces b lliXferSize (b.size / Dev.transferWidth b.srcWidth) b.src b.dst
    (b.size / Dev.transferWidth b.srcWidth)

/-- What a buffer asks for. -/
def BufferDesc.request (b : BufferDesc) : Extent := ⟨b.src, b.dst, b.size⟩

/-- A buffer that is added: its length is a positive multiple of the source width, its ranges lie
in the address space, and both addresses are stepped. -/
structure BufferDesc.WellFormed (b : BufferDesc) : Prop where
  pos : 0 < b.size
  lt : b.size < 2 ^ 32
  dvd : Dev.transferWidth b.srcWidth ∣ b.size
  src_le : b.src + b.size ≤ 2 ^ 32
  dst_le : b.dst + b.size ≤ 2 ^ 32
  srcIncrement : b.srcIncrement % 2 = 1
  dstIncrement : b.dstIncrement % 2 = 1

theorem BufferDesc.WellFormed.setFirst {b : BufferDesc} (h : b.WellFormed) (first : Bool) :
    BufferDesc.WellFormed { b with firstBuffer := first } :=
  { h with }

theorem pieces_setFirst (b : BufferDesc) (first : Bool) (lliXferSize : ℕ) :
    BufferDesc.pieces { b with firstBuffer := first } lliXferSize = b.pieces lliXferSize := by
  have hrounds : ∀ rounds src dst xfer,
      pieces { b with firstBuffer := first } lliXferSize rounds src dst xfer =
        pieces b lliXferSize rounds src dst xfer := by
    intro rounds
    induction rounds with
    | zero => exact fun _ _ _ ↦ rfl
    | succ rounds ih =>
      intro src dst xfer
      rw [pieces, ih]
      rfl
  exact hrounds ..

/-! ### When the pieces tile the buffers -/

/-- A node can hold the whole buffer, or pieces as large as a node holds are cut and both
addresses go in step. -/
def BufferDesc.Describable (b : BufferDesc) (lliXferSize : ℕ) : Prop :=
  b.size / Dev.transferWidth b.srcWidth ≤ dmaMaxXferSize ∨
    lliXferSize = dmaMaxXferSize ∧ b.srcWidth = b.dstWidth
deriving Decidable

section

variable {b : BufferDesc} {lliXferSize : ℕ}

theorem BufferDesc.WellFormed.srcIncrement_ne (hb : b.WellFormed) :
    ¬b.control.srcIncrement = 0 := by
  rw [show b.control.srcIncrement = 1 from hb.srcIncrement]
  exact Nat.one_ne_zero

theorem BufferDesc.WellFormed.dstIncrement_ne (hb : b.WellFormed) :
    ¬b.control.dstIncrement = 0 := by
  rw [show b.control.dstIncrement = 1 from hb.dstIncrement]
  exact Nat.one_ne_zero

variable {dst src : ℕ} {qs : List Extent} {rounds xfer len : ℕ} {bs : List BufferDesc}

/-- The pieces of a buffer that can be described tile what they are cut from. -/
theorem pieces_tile (hb : b.WellFormed) (hlli : dmaMaxXferSize ≤ lliXferSize)
    (hrest : Tiles rs qs) (hrounds : xfer ≤ rounds)
    (hsrc : src + xfer * transferWidth b.srcWidth ≤ 2 ^ 32)
    (hdst : dst + xfer * transferWidth b.srcWidth ≤ 2 ^ 32)
    (hdesc : xfer ≤ dmaMaxXferSize ∨ lliXferSize = dmaMaxXferSize ∧ b.srcWidth = b.dstWidth) :
    Tiles (⟨src, dst, xfer * transferWidth b.srcWidth⟩ :: rs)
      (pieces b lliXferSize rounds src dst xfer ++ qs) := by
  have hw := transferWidth_pos b.srcWidth
  induction rounds generalizing src dst xfer with
  | zero =>
    obtain rfl : xfer = 0 := by omega
    rw [Nat.zero_mul]
    exact .next hrest
  | succ rounds ih =>
    rw [pieces]
    by_cases h0 : xfer = 0
    · rw [h0, Nat.zero_mul]
      exact .next hrest
    rw [if_neg h0]
    by_cases hfits : xfer ≤ lliXferSize
    · have hxfer : xfer ≤ 4095 := by
        unfold dmaMaxXferSize at hdesc
        omega
      rw [if_pos hfits, Nat.mod_eq_of_lt (by omega)]
      exact Tiles.piece (Nat.mul_pos (Nat.pos_of_ne_zero h0) hw) (.next hrest)
    · obtain ⟨rfl, heq⟩ : lliXferSize = dmaMaxXferSize ∧ b.srcWidth = b.dstWidth :=
        hdesc.resolve_left fun h ↦ hfits (h.trans hlli)
      rw [if_neg hfits, if_neg hb.srcIncrement_ne, if_neg hb.dstIncrement_ne, ← heq]
      -- the piece and what remains
      have hsplit : xfer * transferWidth b.srcWidth =
          dmaMaxXferSize * transferWidth b.srcWidth +
            (xfer - dmaMaxXferSize) * transferWidth b.srcWidth := by
        rw [← Nat.add_mul, Nat.add_sub_cancel' (not_le.1 hfits).le]
      have hleft : 0 < (xfer - dmaMaxXferSize) * transferWidth b.srcWidth :=
        Nat.mul_pos (Nat.sub_pos_of_lt (not_le.1 hfits)) hw
      have hpos : 0 < dmaMaxXferSize * transferWidth b.srcWidth := Nat.mul_pos (by decide) hw
      rw [hsplit] at ⊢
      rw [Nat.mod_eq_of_lt (by decide : dmaMaxXferSize < 2 ^ 12), Nat.mod_eq_of_lt (by omega),
        Nat.mod_eq_of_lt (by omega)]
      refine .piece hpos (ih ?_ (by omega) (by omega) (.inr ⟨rfl, heq⟩))
      unfold dmaMaxXferSize
      omega

theorem total_pieces_le (rounds src dst xfer : ℕ) :
    total (pieces b lliXferSize rounds src dst xfer) ≤ xfer * transferWidth b.srcWidth := by
  induction rounds generalizing src dst xfer with
  | zero => exact Nat.zero_le _
  | succ rounds ih =>
    rw [pieces]
    split
    · exact Nat.zero_le _
    split
    · exact Nat.mul_le_mul_right _ (Nat.mod_le ..)
    · next hfits =>
      refine (Nat.add_le_add (Nat.mul_le_mul_right _ (Nat.mod_le ..)) (ih ..)).trans ?_
      rw [← Nat.add_mul]
      exact Nat.mul_le_mul_right _ (by omega)

/-- Bytes are lost when the number of items of a node is truncated. -/
theorem total_pieces_lt (hrounds : xfer ≤ rounds)
    (hlli : dmaMaxXferSize ≤ lliXferSize) (hxfer : dmaMaxXferSize < xfer)
    (hne : lliXferSize ≠ dmaMaxXferSize) :
    total (pieces b lliXferSize rounds src dst xfer) < xfer * transferWidth b.srcWidth := by
  have hw := transferWidth_pos b.srcWidth
  have hmod : ∀ {n}, dmaMaxXferSize < n → n % 2 ^ 12 < n := fun {n} hn ↦ by
    unfold dmaMaxXferSize at hn
    omega
  cases rounds with
  | zero => exact absurd hrounds (by omega)
  | succ rounds =>
    rw [pieces, if_neg (by omega)]
    split
    · exact Nat.mul_lt_mul_of_pos_right (hmod hxfer) hw
    · next hfits =>
      have hlt : lliXferSize % 2 ^ 12 * transferWidth b.srcWidth <
          lliXferSize * transferWidth b.srcWidth :=
        Nat.mul_lt_mul_of_pos_right (hmod (lt_of_le_of_ne hlli hne.symm)) hw
      refine (Nat.add_lt_add_of_lt_of_le hlt (total_pieces_le ..)).trans_le ?_
      rw [← Nat.add_mul]
      exact Nat.mul_le_mul_right _ (by omega)

theorem Tiles.pos (h : Tiles rs ps) : ∀ p ∈ ps, 0 < p.len := by
  induction h with
  | done => exact fun _ h ↦ absurd h not_mem_nil
  | next _ ih => exact ih
  | piece hn _ ih => exact forall_mem_cons.2 ⟨hn, ih⟩

/-- Pieces as long as the first request belong to it. -/
theorem Tiles.of_append
    (h : Tiles (⟨src, dst, len⟩ :: rs) (ps ++ qs)) (htotal : total ps = len) : Tiles rs qs := by
  induction ps generalizing src dst len with
  | nil =>
    cases h with
    | next h => exact h
    | piece hn _ =>
      rw [total_nil] at htotal
      omega
  | cons p ps ih =>
    have hpos := h.pos p mem_cons_self
    rw [total_cons] at htotal
    cases h with
    | next h => omega
    | piece hn h => exact ih h (Nat.add_left_cancel htotal)

/-- The first piece is where the first request starts. -/
theorem Tiles.cons_inv {p : Extent} (h : Tiles (⟨src, dst, len⟩ :: rs) (p :: ps)) (hlen : 0 < len) :
    p.dst = dst ∧ Tiles (⟨src + p.len, dst + p.len, len - p.len⟩ :: rs) ps := by
  cases h with
  | next => exact absurd hlen (lt_irrefl 0)
  | piece _ h =>
    rw [Nat.add_sub_cancel_left]
    exact ⟨rfl, h⟩

/-- If a buffer is cut into more than one piece, the second one is where the tiling expects it
only if both widths are the same. -/
theorem width_eq_of_tiles (hb : b.WellFormed)
    (hlong : dmaMaxXferSize < b.size / transferWidth b.srcWidth)
    (h : Tiles (b.request :: rs) (b.pieces dmaMaxXferSize ++ qs)) : b.srcWidth = b.dstWidth := by
  have hw := transferWidth_pos b.srcWidth
  have hsize := Nat.div_mul_cancel hb.dvd
  have hdst := hb.dst_le
  unfold BufferDesc.pieces BufferDesc.request at h
  generalize b.size / transferWidth b.srcWidth = xfer at hlong hsize h
  obtain ⟨rest, rfl⟩ : ∃ rest, xfer = dmaMaxXferSize + (rest + 1) :=
    ⟨xfer - dmaMaxXferSize - 1, by omega⟩
  rw [← hsize, Nat.add_mul] at h
  have hrest : 0 < (rest + 1) * transferWidth b.srcWidth := Nat.mul_pos (Nat.succ_pos _) hw
  have hcut : ∃ p ps, pieces b dmaMaxXferSize (dmaMaxXferSize + rest)
      ((b.src + dmaMaxXferSize * transferWidth b.srcWidth) % 2 ^ 32)
      ((b.dst + dmaMaxXferSize * transferWidth b.dstWidth) % 2 ^ 32) (rest + 1) = p :: ps ∧
      p.dst = (b.dst + dmaMaxXferSize * transferWidth b.dstWidth) % 2 ^ 32 := by
    obtain ⟨r, hr⟩ : ∃ r, dmaMaxXferSize + rest = r + 1 :=
      ⟨4094 + rest, by unfold dmaMaxXferSize; omega⟩
    rw [hr, pieces, if_neg (Nat.succ_ne_zero _)]
    split
    · exact ⟨_, _, rfl, rfl⟩
    · exact ⟨_, _, rfl, rfl⟩
  obtain ⟨p, ps, hcut, hp⟩ := hcut
  rw [← Nat.add_assoc, pieces, if_neg (by omega), if_neg (by omega), if_neg hb.srcIncrement_ne,
    if_neg hb.dstIncrement_ne, Nat.add_assoc, Nat.add_sub_cancel_left, hcut] at h
  obtain ⟨-, h⟩ := h.cons_inv (by omega)
  simp only [Nat.mod_eq_of_lt (by decide : dmaMaxXferSize < 2 ^ 12), Nat.add_sub_cancel_left] at h
  obtain ⟨hnext, -⟩ := h.cons_inv hrest
  rw [hp] at hnext
  have hle' := transferWidth_le b.dstWidth
  refine transferWidth_inj ?_
  unfold dmaMaxXferSize at hnext
  omega

theorem total_flatMap_pieces_le (hbs : ∀ b ∈ bs, b.WellFormed) (lliXferSize : ℕ) :
    total (bs.flatMap (·.pieces lliXferSize)) ≤ total (bs.map request) := by
  induction bs with
  | nil => exact le_rfl
  | cons b bs ih =>
    obtain ⟨hb, hbs⟩ := forall_mem_cons.1 hbs
    rw [flatMap_cons, map_cons, total_append]
    have hle : total (b.pieces lliXferSize) ≤ b.size :=
      (total_pieces_le ..).trans_eq (Nat.div_mul_cancel hb.dvd)
    exact Nat.add_le_add hle (ih hbs)

/-- **The pieces of buffers tile them** exactly if all of them can be described. -/
theorem tiles_iff (hlli : dmaMaxXferSize ≤ lliXferSize) (hbs : ∀ b ∈ bs, b.WellFormed) :
    Tiles (bs.map request) (bs.flatMap (·.pieces lliXferSize)) ↔
      ∀ b ∈ bs, b.Describable lliXferSize := by
  induction bs with
  | nil => exact ⟨fun _ _ h ↦ absurd h not_mem_nil, fun _ ↦ .done⟩
  | cons b bs ih =>
    obtain ⟨hb, hbs⟩ := forall_mem_cons.1 hbs
    have hsize := Nat.div_mul_cancel hb.dvd
    rw [map_cons, flatMap_cons, forall_mem_cons, ← ih hbs]
    constructor
    · intro h
      have hle : total (b.pieces lliXferSize) ≤ b.size := (total_pieces_le ..).trans_eq hsize
      have hle' := total_flatMap_pieces_le hbs lliXferSize
      have htotal := h.total_eq
      rw [total_append, total_cons] at htotal
      have hfull : total (b.pieces lliXferSize) = b.size := by
        have : total (b.pieces lliXferSize) + _ = b.size + _ := htotal
        omega
      refine ⟨?_, h.of_append hfull⟩
      by_cases hlong : dmaMaxXferSize < b.size / transferWidth b.srcWidth
      · by_cases heq : lliXferSize = dmaMaxXferSize
        · subst heq
          exact .inr ⟨rfl, width_eq_of_tiles hb hlong h⟩
        · have hlt : total (b.pieces lliXferSize) < b.size :=
            (total_pieces_lt le_rfl hlli hlong heq).trans_eq hsize
          exact absurd hfull hlt.ne
      · exact .inl (not_lt.1 hlong)
    · rintro ⟨hdesc, hrest⟩
      have htile := pieces_tile hb hlli hrest (le_refl (b.size / transferWidth b.srcWidth))
        (hsize.symm ▸ hb.src_le) (hsize.symm ▸ hb.dst_le) hdesc
      rw [hsize] at htile
      exact htile

end

namespace Dev

variable {d d' : Dev} {c : ChanId}

/-! ### Linked nodes -/

/-- The nodes at some addresses hold some extents, and each is linked to the one behind it, the
last one to `e`. -/
def LinkedTo (d : Dev) (e : ℕ) : List ℕ → List Extent → Prop
  | [], [] => True
  | a :: as, p :: ps => (d.node a).extent = p ∧
      (d.node a).next = (as.head?.map d.chalDmaGetLliPhysicalAddr).getD e ∧ d.LinkedTo e as ps
  | _, _ => False

theorem SameBands.physicalAddr (h : d.SameBands d') (a : ℕ) :
    d'.chalDmaGetLliPhysicalAddr a = d.chalDmaGetLliPhysicalAddr a := by
  unfold chalDmaGetLliPhysicalAddr
  rw [h.virt, h.phys]

variable {as : List ℕ} {e : ℕ}

theorem LinkedTo.congr (h : d.LinkedTo e as ps)
    (hsame : d.SameBands d') (hnode : ∀ a ∈ as, d'.node a = d.node a) : d'.LinkedTo e as ps := by
  induction as generalizing ps with
  | nil => cases ps <;> exact h
  | cons a as ih =>
    cases ps with
    | nil => exact h
    | cons p ps =>
      obtain ⟨hext, hnext, hrest⟩ := h
      refine ⟨?_, ?_, ih hrest fun a' ha' ↦ hnode a' (mem_cons_of_mem _ ha')⟩
      · grind
      · rw [hnode a mem_cons_self, hnext]
        cases as with
        | nil => rfl
        | cons a' as => exact (hsame.physicalAddr a').symm

theorem LinkedTo.append {a' : ℕ} {as' : List ℕ} {ps' : List Extent}
    (h : d.LinkedTo (d.chalDmaGetLliPhysicalAddr a') as ps) (h' : d.LinkedTo e (a' :: as') ps') :
    d.LinkedTo e (as ++ a' :: as') (ps ++ ps') := by
  induction as generalizing ps with
  | nil =>
    cases ps with
    | nil => exact h'
    | cons => exact h.elim
  | cons a as ih =>
    cases ps with
    | nil => exact h.elim
    | cons p ps =>
      obtain ⟨hext, hnext, hrest⟩ := h
      refine ⟨hext, ?_, ih hrest⟩
      rw [hnext]
      cases as <;> rfl

theorem LinkedTo.relink {last : ℕ} (e' : ℕ) (h : d.LinkedTo e as ps)
    (hnodup : as.Nodup) (hlast : as.getLast? = some last) :
    (d.setNode last { d.node last with next := e' }).LinkedTo e' as ps := by
  induction as generalizing ps with
  | nil => cases hlast
  | cons a as ih =>
    cases ps with
    | nil => exact h.elim
    | cons p ps =>
      obtain ⟨hext, hnext, hrest⟩ := h
      obtain ⟨ha, hnodup⟩ := nodup_cons.1 hnodup
      cases as with
      | nil =>
        obtain rfl : a = last := Option.some.inj hlast
        have hself : (d.setNode a { d.node a with next := e' }).node a =
            { d.node a with next := e' } := Function.update_self ..
        cases ps with
        | nil =>
          refine ⟨?_, ?_, trivial⟩
          · rw [hself]
            exact hext
          · rw [hself]
            rfl
        | cons => exact hrest.elim
      | cons a' as =>
        have hne : a ≠ last := fun heq ↦ ha (heq ▸ mem_of_getLast? hlast)
        have hself : (d.setNode last { d.node last with next := e' }).node a = d.node a :=
          Function.update_of_ne hne ..
        refine ⟨?_, ?_, ih hrest hnodup hlast⟩
        · rw [hself]
          exact hext
        · rw [hself, hnext]
          rfl

end Dev

end Dma
