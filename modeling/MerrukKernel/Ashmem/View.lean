import MerrukKernel.Ashmem.Lru

/-!
# The list of an area as a list of ranges

What a call does to an area is a matter of the sequence of records on its list, its *view*; which
identifiers carry them is not. This module says what the calls do to views, on any well formed
heap and for any arguments:

* `ashmem_pin` replaces the ranges at the front of the list by what is left of each (`trim`), up
  to the point where it stops (`pinRanges`);
* `ashmem_unpin` takes ranges that meet the interval out and widens the interval, until it finds
  the interval covered or a place to insert it (`Unpins`);
* `ashmem_shrink` changes nothing but purged flags.

No order of the list is assumed here.
-/

namespace Ashmem

open Function List Heap

/-- The records on the list of an area, in order. -/
def Heap.view (h : Heap) (a : AreaId) : List Range := (h.unpinnedList a).map h.ranges

/-! ### The three changes of the heap -/

section Changes

variable {h : Heap} {a : AreaId} {r : RangeId} {done rest : List RangeId}

section

variable (hwf : h.WellFormed) (hlist : h.unpinnedList a = done ++ r :: rest)
include hwf hlist

/-- Where a range stands, it stands once. -/
theorem Heap.WellFormed.split : r ∈ h.unpinnedList a ∧ r ∉ done ∧ r ∉ rest := by
  have hnodup := hwf.nodup a
  rw [hlist, nodup_middle, nodup_cons, mem_append, not_or] at hnodup
  exact ⟨by simp [hlist], hnodup.1⟩

theorem Heap.WellFormed.list_unlink :
    (h.unlink r).unpinnedList = update h.unpinnedList a (done ++ rest) := by
  obtain ⟨hmem, hdone, -⟩ := hwf.split hlist
  simp only [Heap.unlink, hwf.owner a r hmem, hlist]
  rw [erase_append_right _ hdone, erase_cons_head]

theorem Heap.WellFormed.map_setRange (p : Range) :
    done.map (h.setRange r p).ranges = done.map h.ranges ∧ (h.setRange r p).ranges r = p ∧
      rest.map (h.setRange r p).ranges = rest.map h.ranges := by
  obtain ⟨-, hdone, hrest⟩ := hwf.split hlist
  have hne : ∀ l : List RangeId, r ∉ l → l.map (h.setRange r p).ranges = l.map h.ranges :=
    fun l hl ↦ map_congr_left fun x hx ↦
      update_of_ne (ne_of_mem_of_not_mem hx hl) _ _
  exact ⟨hne done hdone, update_self _ _ _, hne rest hrest⟩

end

/-- Writing a record of one area shows in no other. -/
theorem Heap.WellFormed.view_setRange_of_ne (hwf : h.WellFormed) (hr : r ∈ h.unpinnedList a)
    (p : Range) {b : AreaId} (hb : b ≠ a) : (h.setRange r p).view b = h.view b :=
  map_congr_left fun x hx ↦ update_of_ne (by
    rintro rfl
    exact hb (hwf.area_eq hx hr)) _ _

theorem insertBefore_eq (range : RangeId) (hdone : ∀ x ∈ done, x ∉ rest) :
    insertBefore rest.head? range (done ++ rest) = done ++ range :: rest := by
  induction done with
  | nil => cases rest <;> simp [insertBefore]
  | cons x xs ih =>
    have hx : rest.head? ≠ some x := fun heq ↦
      hdone x (by simp) (mem_of_mem_head? heq)
    simp only [cons_append, insertBefore, if_neg hx, ih fun y hy ↦ hdone y (by simp [hy])]

/-- A new range, in front of the first of `rest`. -/
theorem Heap.WellFormed.link_eq (hwf : h.WellFormed) (hlist : h.unpinnedList a = done ++ rest)
    {p : Range} (hp : p.asma = a) :
    (h.link p rest.head?).unpinnedList = update h.unpinnedList a (done ++ h.nextRange :: rest) ∧
      (h.link p rest.head?).ranges h.nextRange = p ∧
      ∀ b, (h.unpinnedList b).map (h.link p rest.head?).ranges = h.view b := by
  subst hp
  have hnodup := hwf.nodup p.asma
  rw [hlist] at hnodup
  refine ⟨?_, update_self _ _ _, fun b ↦ map_congr_left fun x hx ↦
    update_of_ne (hwf.allocated b x hx).ne _ _⟩
  simp only [Heap.link, hlist]
  rw [insertBefore_eq _ fun x hx hx' ↦ disjoint_of_nodup_append hnodup hx hx']

end Changes

/-! ### Pinning -/

/-- What `ashmem_pin` leaves of a range: nothing, the part above the interval, the part below it, or
both. The upper part of a range with a hole needs memory. -/
def trim (pgstart pgend : ℕ) (memory : Bool) (r : Range) : List Range :=
  if ¬ r.PageRangeIn pgstart pgend then [r]
  else if r.PageRangeSubsumes pgstart pgend then []
  else if pgstart ≤ r.pgstart then [{ r with pgstart := pgend + 1 }]
  else if r.pgend ≤ pgend then [{ r with pgend := pgstart - 1 }]
  else (if memory then [{ r with pgstart := pgend + 1 }] else []) ++
    [{ r with pgend := pgstart - 1 }]

/-- `ashmem_pin` on the view. -/
def pinRanges (pgstart pgend : ℕ) (memory : Bool) : List Range → Bool × List Range
  | [] => (false, [])
  | r :: rest =>
    if r.BeforePage pgstart then (false, r :: rest)
    else if r.PageRangeIn pgstart pgend ∧ r.pgstart < pgstart ∧ pgend < r.pgend then
      (r.purged, trim pgstart pgend memory r ++ rest)
    else
      let q := pinRanges pgstart pgend memory rest
      ((decide (r.PageRangeIn pgstart pgend) && r.purged) || q.1,
        trim pgstart pgend memory r ++ q.2)

namespace State

variable {s : State} {a : AreaId}

/-- The effect of a call on the view of one area, all others being left alone. -/
structure Acts (s t : State) (a : AreaId) (l : List Range) : Prop where
  view_self : t.view a = l
  view_of_ne : ∀ b ≠ a, t.view b = s.view b

/-- A step of a loop over the list of an area: `done` becomes `done'`, with the records `out`
added at its end, in front of an unchanged `rest`. -/
structure Advances (s t : State) (a : AreaId) (done done' rest : List RangeId) (out : List Range) :
    Prop where
  wellFormed : t.WellFormed
  live : t.live = s.live
  list : t.unpinnedList a = done' ++ rest
  map_done : done'.map t.ranges = done.map s.ranges ++ out
  map_rest : rest.map t.ranges = rest.map s.ranges
  view_of_ne : ∀ b ≠ a, t.view b = s.view b

theorem Advances.acts {s t : State} {done done' rest : List RangeId} {out : List Range}
    (h : Advances s t a done done' rest out) :
    Acts s t a (done.map s.ranges ++ (out ++ rest.map s.ranges)) where
  view_self := by
    rw [view, h.list, map_append, h.map_done, h.map_rest, append_assoc]
  view_of_ne := h.view_of_ne

theorem Advances.trans {s t u : State} {range : RangeId} {done done' done'' rest : List RangeId}
    {out out' : List Range} (h : Advances s t a done done' (range :: rest) out)
    (h' : Advances t u a done' done'' rest out') :
    Advances s u a done done'' rest (out ++ out') where
  wellFormed := h'.wellFormed
  live := h'.live.trans h.live
  list := h'.list
  map_done := by rw [h'.map_done, h.map_done, append_assoc]
  map_rest := h'.map_rest.trans (List.cons.inj h.map_rest).2
  view_of_ne b hb := (h'.view_of_ne b hb).trans (h.view_of_ne b hb)

section Steps

variable {range : RangeId} {done rest : List RangeId}

section

variable (h : s.WellFormed) (hlist : s.unpinnedList a = done ++ range :: rest)
include h hlist

theorem advances_rangeDel : Advances s (s.rangeDel range) a done done rest [] := by
  have hunlink := h.list_unlink hlist
  refine ⟨?_, ?_, ?_, ?_, ?_, fun b hb ↦ ?_⟩ <;> simp only [toHeap_rangeDel]
  · exact h.unlink (h.split hlist).1
  · rfl
  · rw [hunlink, update_self]
  · simp [unlink]
  · rfl
  · rw [view, hunlink, update_of_ne hb]
    rfl

theorem advances_rangeShrink
    (first last : ℕ) : Advances s (s.rangeShrink range first last) a done (done ++ [range]) rest
      [{ s.ranges range with pgstart := first, pgend := last }] := by
  obtain ⟨hdone, hself, hrest⟩ :=
    h.map_setRange hlist { s.ranges range with pgstart := first, pgend := last }
  refine ⟨?_, ?_, ?_, ?_, ?_, fun b hb ↦ ?_⟩ <;> simp only [toHeap_rangeShrink]
  · exact h.setRange rfl
  · rfl
  · simpa [setRange] using hlist
  · rw [map_append, hdone, map_singleton, hself]
  · exact hrest
  · exact h.view_setRange_of_ne (h.split hlist).1 _ hb

end

theorem advances_rangeAlloc (h : s.WellFormed) (hlive : s.live a = true)
    (hlist : s.unpinnedList a = done ++ rest) (purged : Bool) (first last : ℕ) :
    Advances s (s.rangeAlloc a rest.head? purged first last true).2 a done
      (done ++ [s.nextRange]) rest [⟨a, first, last, purged⟩] := by
  have hlink := h.link_eq hlist (p := ⟨a, first, last, purged⟩) rfl
  have hmap := hlink.2.2 a
  rw [view, hlist, map_append, map_append] at hmap
  obtain ⟨hdone, hrest⟩ := append_inj hmap (by simp)
  refine ⟨?_, ?_, ?_, ?_, ?_, fun b hb ↦ ?_⟩ <;> simp only [toHeap_rangeAlloc]
  · exact h.link hlive _
  · rfl
  · rw [hlink.1, update_self, append_assoc, singleton_append]
  · rw [map_append, hdone, map_singleton, hlink.2.1]
  · exact hrest
  · rw [view, hlink.1, update_of_ne hb]
    exact hlink.2.2 b

theorem advances_self (h : s.WellFormed) (hlist : s.unpinnedList a = done ++ range :: rest) :
    Advances s s a done (done ++ [range]) rest [s.ranges range] :=
  ⟨h, rfl, by simpa using hlist, by simp, rfl, fun _ _ ↦ rfl⟩

end Steps

/-- **The loop of `ashmem_pin`**, with the ranges `done` behind it. -/
theorem acts_pinLoop {pgstart pgend : ℕ} {memory : Bool} {done l : List RangeId} (ret : Bool)
    (h : s.WellFormed) (hlive : s.live a = true) (hlist : s.unpinnedList a = done ++ l) :
    let q := pinRanges pgstart pgend memory (l.map s.ranges)
    let t := pinLoop a pgstart pgend memory l ret s
    t.1 = (ret || q.1) ∧ Acts s t.2 a (done.map s.ranges ++ q.2) := by
  induction l generalizing s done ret with
  | nil =>
    simp only [pinLoop, pinRanges, map_nil, Bool.or_false, true_and]
    exact ⟨by rw [view, hlist]; simp, fun _ _ ↦ rfl⟩
  | cons range rest ih =>
    -- all iterations but the last step over `range` and go on with `rest`
    have hgo : ∀ {t : State} {done' : List RangeId} {out : List Range} (ret' : Bool),
        Advances s t a done done' rest out →
        (pinLoop a pgstart pgend memory rest ret' t).1 =
            (ret' || (pinRanges pgstart pgend memory (rest.map s.ranges)).1) ∧
          Acts s (pinLoop a pgstart pgend memory rest ret' t).2 a (done.map s.ranges ++
            (out ++ (pinRanges pgstart pgend memory (rest.map s.ranges)).2)) := by
      intro t done' out ret' hadv
      obtain ⟨hret, hacts⟩ := ih ret' hadv.wellFormed (by rw [hadv.live]; exact hlive)
        hadv.list
      rw [hadv.map_rest] at hret hacts
      refine ⟨hret, ?_, fun b hb ↦ (hacts.view_of_ne b hb).trans (hadv.view_of_ne b hb)⟩
      rw [hacts.view_self, hadv.map_done, append_assoc]
    rw [map_cons]
    unfold pinLoop pinRanges
    dsimp only
    by_cases hbefore : (s.ranges range).BeforePage pgstart
    · rw [if_pos hbefore, if_pos hbefore]
      exact ⟨by simp, (advances_self h hlist).acts⟩
    rw [if_neg hbefore, if_neg hbefore]
    by_cases hin : (s.ranges range).PageRangeIn pgstart pgend
    · rw [if_pos hin]
      unfold trim
      rw [if_neg (not_not.2 hin), decide_eq_true hin]
      by_cases hsub : (s.ranges range).PageRangeSubsumes pgstart pgend
      · rw [if_pos hsub, if_pos hsub, if_neg fun hhole ↦ absurd hsub.1 (by omega)]
        rw [← Bool.or_assoc]
        exact hgo _ (advances_rangeDel h hlist)
      rw [if_neg hsub, if_neg hsub]
      by_cases hstart : pgstart ≤ (s.ranges range).pgstart
      · rw [if_pos hstart, if_pos hstart, if_neg fun hhole ↦ absurd hstart (by omega)]
        rw [← Bool.or_assoc]
        exact hgo _ (advances_rangeShrink h hlist _ _)
      rw [if_neg hstart, if_neg hstart]
      by_cases hend : (s.ranges range).pgend ≤ pgend
      · rw [if_pos hend, if_pos hend, if_neg fun hhole ↦ absurd hend (by omega)]
        rw [← Bool.or_assoc]
        exact hgo _ (advances_rangeShrink h hlist _ _)
      rw [if_neg hend, if_neg hend, if_pos ⟨hin, by omega, by omega⟩]
      refine ⟨rfl, ?_⟩
      cases memory with
      | false => exact (advances_rangeShrink h hlist _ _).acts
      | true =>
        have halloc := advances_rangeAlloc h hlive hlist (s.ranges range).purged (pgend + 1)
          (s.ranges range).pgend
        have hshrink := advances_rangeShrink halloc.wellFormed halloc.list
          (s.ranges range).pgstart (pgstart - 1)
        have hupper : (⟨a, pgend + 1, (s.ranges range).pgend, (s.ranges range).purged⟩ : Range) =
            { s.ranges range with pgstart := pgend + 1 } := by
          rw [← h.owner a range (h.split hlist).1]
        have hboth := (halloc.trans hshrink).acts
        rw [(List.cons.inj halloc.map_rest).1, hupper] at hboth
        exact hboth
    · simpa [trim, hin] using hgo ret (advances_self h hlist)

theorem acts_ashmemPin (h : s.WellFormed) (hlive : s.live a = true) (pgstart pgend : ℕ)
    (memory : Bool) :
    (s.ashmemPin a pgstart pgend memory).1 = (pinRanges pgstart pgend memory (s.view a)).1 ∧
      Acts s (s.ashmemPin a pgstart pgend memory).2 a
        (pinRanges pgstart pgend memory (s.view a)).2 := by
  exact acts_pinLoop false h hlive (nil_append (s.unpinnedList a)).symm

end State

/-! ### Unpinning -/

/-- **`ashmem_unpin` on the view** of an area: the interval and the purged flag on entry to a
pass, the list, the result of the call and the list it leaves. -/
inductive Unpins (a : AreaId) : ℕ → ℕ → Bool → List Range → ℤ → List Range → Prop
  | covered {pgstart pgend : ℕ} {purged : Bool} {l : List Range} {r : Range} :
      r ∈ l → r.PageRangeSubsumedBy pgstart pgend → Unpins a pgstart pgend purged l 0 l
  | merge {pgstart pgend : ℕ} {purged : Bool} {l₁ l₂ l' : List Range} {r : Range} {ret : ℤ} :
      ¬ r.BeforePage pgstart → ¬ r.PageRangeSubsumedBy pgstart pgend →
      r.PageRangeIn pgstart pgend →
      Unpins a (min r.pgstart pgstart) (max r.pgend pgend) (purged || r.purged) (l₁ ++ l₂) ret l' →
      Unpins a pgstart pgend purged (l₁ ++ r :: l₂) ret l'
  | insert {pgstart pgend : ℕ} {purged : Bool} {l₁ l₂ : List Range} :
      (∀ r ∈ l₁, ¬ r.BeforePage pgstart ∧ ¬ r.PageRangeIn pgstart pgend) →
      (∀ r ∈ l₂.head?, r.BeforePage pgstart) →
      Unpins a pgstart pgend purged (l₁ ++ l₂) 0 (l₁ ++ ⟨a, pgstart, pgend, purged⟩ :: l₂)
  | noMemory {pgstart pgend : ℕ} {purged : Bool} {l₁ l₂ : List Range} :
      (∀ r ∈ l₁, ¬ r.BeforePage pgstart ∧ ¬ r.PageRangeIn pgstart pgend) →
      (∀ r ∈ l₂.head?, r.BeforePage pgstart) →
      Unpins a pgstart pgend purged (l₁ ++ l₂) enomem (l₁ ++ l₂)

namespace State

variable {s : State} {a : AreaId}

/-- What a pass finds. -/
theorem scan_cases (ranges : RangeId → Range) (pgstart pgend : ℕ) (l : List RangeId) :
    (scan ranges pgstart pgend l = .covered ∧
        ∃ r ∈ l, (ranges r).PageRangeSubsumedBy pgstart pgend) ∨
      (∃ l₁ r l₂, scan ranges pgstart pgend l = .merge r ∧ l = l₁ ++ r :: l₂ ∧
        ¬ (ranges r).BeforePage pgstart ∧ ¬ (ranges r).PageRangeSubsumedBy pgstart pgend ∧
        (ranges r).PageRangeIn pgstart pgend) ∨
      ∃ l₁ l₂, scan ranges pgstart pgend l = .insert l₂.head? ∧ l = l₁ ++ l₂ ∧
        (∀ r ∈ l₁, ¬ (ranges r).BeforePage pgstart ∧ ¬ (ranges r).PageRangeIn pgstart pgend) ∧
        ∀ r ∈ l₂.head?, (ranges r).BeforePage pgstart := by
  induction l with
  | nil => exact .inr (.inr ⟨[], [], rfl, rfl, by simp, by simp⟩)
  | cons x xs ih =>
    rw [scan]
    by_cases hbefore : (ranges x).BeforePage pgstart
    · exact .inr (.inr ⟨[], x :: xs, by simp [hbefore], rfl, by simp, by simpa using hbefore⟩)
    by_cases hcovered : (ranges x).PageRangeSubsumedBy pgstart pgend
    · exact .inl ⟨by simp [hbefore, hcovered], x, by simp, hcovered⟩
    by_cases hin : (ranges x).PageRangeIn pgstart pgend
    · exact .inr (.inl ⟨[], x, xs, by simp [hbefore, hcovered, hin], rfl, hbefore, hcovered, hin⟩)
    simp only [if_neg hbefore, if_neg hin, mem_cons, exists_eq_or_imp, hcovered, false_or]
    rcases ih with h | ⟨l₁, r, l₂, hscan, rfl, h⟩ | ⟨l₁, l₂, hscan, rfl, h₁, h₂⟩
    · exact .inl h
    · exact .inr (.inl ⟨x :: l₁, r, l₂, hscan, rfl, h⟩)
    · exact .inr (.inr ⟨x :: l₁, l₂, hscan, rfl, by simpa [hbefore, hin] using h₁, h₂⟩)

/-- **The restart loop of `ashmem_unpin`**: with one pass more than there are ranges it comes to an
end. -/
theorem unpins_unpinLoop {memory : Bool} {fuel : ℕ} (pgstart pgend : ℕ) (purged : Bool)
    (h : s.WellFormed) (hlive : s.live a = true) (hfuel : (s.unpinnedList a).length < fuel) :
    let t := unpinLoop a memory fuel pgstart pgend purged s
    Unpins a pgstart pgend purged (s.view a) t.1 (t.2.view a) ∧
      (∀ b ≠ a, t.2.view b = s.view b) ∧ (memory = true → t.1 = 0) := by
  induction fuel generalizing s pgstart pgend purged with
  | zero => omega
  | succ fuel ih =>
    unfold unpinLoop
    rcases scan_cases s.ranges pgstart pgend (s.unpinnedList a) with
      ⟨hscan, r, hr, hcovered⟩ | ⟨l₁, r, l₂, hscan, hlist, hbefore, hcovered, hin⟩ |
      ⟨l₁, l₂, hscan, hlist, hfront, hpoint⟩
    · rw [hscan]
      exact ⟨.covered (mem_map_of_mem hr) hcovered, fun _ _ ↦ rfl, fun _ ↦ rfl⟩
    · rw [hscan]
      have hdel := advances_rangeDel h hlist
      have hshorter : ((s.rangeDel r).unpinnedList a).length < fuel := by
        rw [hlist] at hfuel
        rw [hdel.list]
        simp only [length_append, length_cons] at hfuel ⊢
        omega
      obtain ⟨hunpins, hother, hret⟩ := ih (min (s.ranges r).pgstart pgstart)
        (max (s.ranges r).pgend pgend) (purged || (s.ranges r).purged) hdel.wellFormed
        (by rw [hdel.live]; exact hlive) hshorter
      refine ⟨?_, fun b hb ↦ (hother b hb).trans (hdel.view_of_ne b hb), hret⟩
      rw [hdel.acts.view_self] at hunpins
      rw [view, hlist, map_append]
      exact .merge hbefore hcovered hin hunpins
    · rw [hscan]
      have hview : s.view a = l₁.map s.ranges ++ l₂.map s.ranges := by
        rw [view, hlist, map_append]
      have hfront' : ∀ p ∈ l₁.map s.ranges,
          ¬ p.BeforePage pgstart ∧ ¬ p.PageRangeIn pgstart pgend := by grind
      have hpoint' : ∀ p ∈ (l₂.map s.ranges).head?, p.BeforePage pgstart := by
        grind [List.head?_map, Option.mem_map]
      cases memory with
      | false =>
        refine ⟨?_, fun _ _ ↦ rfl, fun hmemory ↦ absurd hmemory (by decide)⟩
        change Unpins a pgstart pgend purged _ enomem (s.view a)
        rw [hview]
        exact .noMemory hfront' hpoint'
      | true =>
        have halloc := advances_rangeAlloc h hlive hlist purged pgstart pgend
        refine ⟨?_, halloc.view_of_ne, fun _ ↦ rfl⟩
        rw [hview]
        rw [halloc.acts.view_self]
        exact .insert hfront' hpoint'

theorem unpins_ashmemUnpin (h : s.WellFormed) (hlive : s.live a = true) (pgstart pgend : ℕ)
    (memory : Bool) :
    let t := s.ashmemUnpin a pgstart pgend memory
    Unpins a pgstart pgend false (s.view a) t.1 (t.2.view a) ∧
      (∀ b ≠ a, t.2.view b = s.view b) ∧ (memory = true → t.1 = 0) :=
  unpins_unpinLoop pgstart pgend false h hlive (Nat.lt_succ_self _)

/-! ### Eviction -/

/-- `ashmem_shrink` changes no list and, of the records, only purged flags, which it sets. -/
structure Evicts (s t : State) : Prop where
  unpinnedList : t.unpinnedList = s.unpinnedList
  live : t.live = s.live
  record : ∀ r, t.ranges r = { s.ranges r with purged := (t.ranges r).purged }
  purged : ∀ r, (s.ranges r).purged = true → (t.ranges r).purged = true

theorem Evicts.refl (s : State) : Evicts s s := ⟨rfl, rfl, fun _ ↦ rfl, fun _ h ↦ h⟩

theorem Evicts.trans {s t u : State} (h : Evicts s t) (h' : Evicts t u) : Evicts s u where
  unpinnedList := h'.unpinnedList.trans h.unpinnedList
  live := h'.live.trans h.live
  record r := by rw [h'.record r, h.record r]
  purged r hr := h'.purged r (h.purged r hr)

theorem evicts_purge (s : State) (range : RangeId) : Evicts s (s.purge range) where
  unpinnedList := rfl
  live := rfl
  record r := by
    rcases eq_or_ne r range with rfl | hne
    · simp [purge, lruDel, setRange]
    · simp [purge, lruDel, setRange, hne]
  purged r hr := by
    rcases eq_or_ne r range with rfl | hne
    · simp [purge, lruDel, setRange]
    · simpa [purge, lruDel, setRange, hne] using hr

theorem evicts_shrinkLoop (l : List RangeId) (nrToScan : BitVec 32) (s : State) :
    Evicts s (shrinkLoop l nrToScan s) := by
  induction l generalizing nrToScan s with
  | nil => exact .refl s
  | cons range rest ih =>
    unfold shrinkLoop
    dsimp only
    split
    · exact evicts_purge s range
    · exact (evicts_purge s range).trans (ih _ _)

/-- **What is truncated is marked.** -/
theorem truncated_shrinkLoop (l : List RangeId) (nrToScan : BitVec 32) (s : State) :
    let t := shrinkLoop l nrToScan s
    ∃ calls, t.truncated = s.truncated ++ calls ∧ ∀ c ∈ calls, ∃ r ∈ l,
      c = ((s.ranges r).asma, (s.ranges r).pgstart, (s.ranges r).pgend) ∧
        (t.ranges r).purged = true := by
  induction l generalizing nrToScan s with
  | nil => exact ⟨[], (append_nil _).symm, by simp⟩
  | cons range rest ih =>
    have hrange : ((s.purge range).ranges range).purged = true := by
      simp [purge, lruDel, setRange]
    unfold shrinkLoop
    dsimp only
    split
    · exact ⟨[_], rfl, by simp [hrange]⟩
    · obtain ⟨calls, heq, hcalls⟩ := ih (nrToScan - ((s.purge range).ranges range).size)
        (s.purge range)
      refine ⟨_ :: calls, heq.trans (append_assoc ..), forall_mem_cons.2 ⟨?_, fun c hc ↦ ?_⟩⟩
      · exact ⟨range, by simp, rfl, (evicts_shrinkLoop ..).purged range hrange⟩
      · obtain ⟨r, hr, hc, hpurged⟩ := hcalls c hc
        refine ⟨r, mem_cons_of_mem _ hr, hc.trans ?_, hpurged⟩
        rw [(evicts_purge s range).record r]

theorem evicts_ashmemShrink (s : State) (nrToScan : BitVec 32) (gfpFs unlocked : Bool) :
    Evicts s (s.ashmemShrink nrToScan gfpFs unlocked).2 := by
  unfold ashmemShrink
  split_ifs
  · exact .refl s
  · exact .refl s
  · exact .refl s
  · exact evicts_shrinkLoop _ _ _

theorem truncated_ashmemShrink (s : State) (nrToScan : BitVec 32) (gfpFs unlocked : Bool) :
    let t := (s.ashmemShrink nrToScan gfpFs unlocked).2
    ∀ c ∈ t.truncated.drop s.truncated.length, ∃ r ∈ s.lruList,
      c = ((s.ranges r).asma, (s.ranges r).pgstart, (s.ranges r).pgend) ∧
        (t.ranges r).purged = true := by
  unfold ashmemShrink
  split_ifs
  · simp
  · simp
  · simp
  · obtain ⟨calls, heq, hcalls⟩ := truncated_shrinkLoop s.lruList nrToScan s
    dsimp only
    rw [heq, drop_left]
    exact hcalls

/-! ### Opening and releasing -/

theorem view_ashmemOpen (h : s.Accounted) (hclosed : s.live a = false) (memory : Bool)
    (b : AreaId) : (s.ashmemOpen a memory).2.view b = s.view b := by
  obtain ⟨-, hranges, hlist⟩ := h.openFile hclosed memory
  rw [view, hlist, hranges]
  rfl

theorem acts_ashmemRelease (h : s.Accounted) (a : AreaId) : Acts s (s.ashmemRelease a) a [] := by
  obtain ⟨-, hranges, hlist⟩ := h.release (a := a)
  constructor
  · rw [view, hlist, update_self, map_nil]
  · intro b hb
    rw [view, hlist, hranges, update_of_ne hb]
    rfl

end State

end Ashmem
