import Mathlib.Data.List.Nodup
import Mathlib.Algebra.Order.Ring.Int
import MerrukKernel.Library.Trace

/-!
# Priority lists

`lib/plist.c`. All nodes are on `node_list`, by priority and in the order of insertion where
priorities are equal; the first node of each priority is on `prio_list` as well. An insertion finds
its place on `prio_list` alone, and where the first node of a priority is deleted the next node of
`node_list` takes its place on `prio_list`. The next node may be the head of the list, which is then
moved to where it is already.

A circular list is the list of its nodes from the head on, and `none` stands for the head.
-/

open List

namespace Plist

/-- `struct plist_node`, with the priority it was initialised with. -/
structure Node where
  addr : ℕ
  prio : ℤ
deriving DecidableEq

/-! ### Circular lists -/

/-- `list_add_tail(a, pos)` -/
def listAddTail (a : Node) (pos : Option Node) : List Node → List Node
  | [] => [a]
  | x :: l => if pos = some x then a :: x :: l else x :: listAddTail a pos l

/-- `list_move_tail(n, a)`. Moving the head begins the list elsewhere. -/
def listMoveTail (n : Option Node) (a : Node) (l : List Node) : List Node :=
  match n with
  | some n => listAddTail n (some a) (l.erase n)
  | none => l.dropWhile (· ≠ a) ++ l.takeWhile (· ≠ a)

/-- The node behind `a`. -/
def next (a : Node) (l : List Node) : Option Node := (l.dropWhile (· ≠ a)).tail.head?

/-! ### The operations -/

/-- `struct plist_head` -/
structure Head where
  prioList : List Node := []
  nodeList : List Node := []

/-- The loop of `plist_add`: the entry `iter` it ends with, and whether it goes on at `eq_prio`. -/
def findPlace (p : ℤ) : List Node → Option Node × Bool
  | [] => (none, false)
  | x :: l =>
    if p < x.prio then (some x, false) else if p = x.prio then (l.head?, true) else findPlace p l

/-- `plist_add` -/
def plistAdd (s : Head) (a : Node) : Head :=
  let iter := findPlace a.prio s.prioList
  { prioList := if iter.2 then s.prioList else listAddTail a iter.1 s.prioList
    nodeList := listAddTail a iter.1 s.nodeList }

/-- What `plist_del` does to `prio_list`. -/
def delPrio (a : Node) (nodeList prioList : List Node) : List Node :=
  if a ∈ prioList then (listMoveTail (next a nodeList) a prioList).erase a else prioList

/-- `plist_del` -/
def plistDel (s : Head) (a : Node) : Head :=
  { prioList := delPrio a s.nodeList s.prioList
    nodeList := s.nodeList.erase a }

/-- A list with its nodes in the order in which they were added. -/
structure Recorded extends Head where
  added : List Node := []

/-- A call. -/
inductive Op
  | add (a : Node)
  | del (a : Node)

/-- Nodes are added that are not on the list, and deleted if they are. -/
def machine : Machine Recorded Op where
  guard s
    | .add a => ∀ x ∈ s.nodeList, x.addr ≠ a.addr
    | .del a => a ∈ s.nodeList
  exec s
    | .add a => ⟨plistAdd s.toHead a, s.added ++ [a]⟩
    | .del a => ⟨plistDel s.toHead a, s.added.erase a⟩

/-! ### Groups of equal priority -/

/-- The nodes of the first list stand in groups of one priority, and the second list has the first
node of each. -/
inductive Groups : List Node → List Node → Prop
  | nil : Groups [] []
  | cons {x : Node} {xs l q : List Node} : (∀ y ∈ xs, y.prio = x.prio) →
    (∀ y ∈ l, x.prio < y.prio) →
      Groups l q → Groups (x :: xs ++ l) (x :: q)

variable {a : Node} {l q ys : List Node} {pos : Option Node} {p : ℤ}

theorem Groups.head?_eq (h : Groups l q) : l.head? = q.head? := by
  cases h <;> rfl

theorem Groups.sublist (h : Groups l q) : q.Sublist l := by
  induction h with
  | nil => exact .slnil
  | cons _ _ _ ih => exact (ih.trans (sublist_append_right ..)).cons_cons _

theorem Groups.pairwise (h : Groups l q) : l.Pairwise (·.prio ≤ ·.prio) := by
  induction h with
  | nil => exact .nil
  | @cons x xs l q hxs hl _ ih =>
    refine pairwise_append.2 ⟨pairwise_of_forall_mem_list ?_, ih, ?_⟩ <;> grind

/-! ### Adding a node -/

theorem listAddTail_append (hpos : ∀ x, pos = some x → x ∉ ys) :
    listAddTail a pos (ys ++ l) = ys ++ listAddTail a pos l := by
  induction ys with
  | nil => rfl
  | cons y ys ih =>
    have hy : pos ≠ some y := fun heq ↦ hpos y heq (by simp)
    rw [cons_append, listAddTail, if_neg hy, ih fun x hx hmem ↦ hpos x hx
      (by simp [hmem]), cons_append]

theorem listAddTail_head? (a : Node) (l : List Node) : listAddTail a l.head? l = a :: l := by
  cases l <;> simp [listAddTail]

theorem findPlace_mem {x : Node} (h : (findPlace p q).1 = some x) : x ∈ q := by
  induction q with
  | nil => cases h
  | cons y q ih =>
    rw [findPlace] at h
    split_ifs at h
    · grind
    · exact mem_cons_of_mem _ (mem_of_head? h)
    · exact mem_cons_of_mem _ (ih h)

/-- **The place of an insertion** is behind all nodes of a smaller or equal priority, and the groups
stay. -/
theorem Groups.add (h : Groups l q) (hnd : l.Nodup) (a : Node) :
    Groups (listAddTail a (findPlace a.prio q).1 l)
        (if (findPlace a.prio q).2 then q else listAddTail a (findPlace a.prio q).1 q) ∧
      ∃ ys zs, l = ys ++ zs ∧ listAddTail a (findPlace a.prio q).1 l = ys ++ a :: zs ∧
        ∀ z ∈ zs, a.prio < z.prio := by
  induction h with
  | nil =>
    have hone : Groups ([a] ++ []) [a] := .cons (by simp) (by simp) .nil
    exact ⟨hone, [], [], rfl, rfl, by simp⟩
  | @cons x xs l q hxs hl hg ih =>
    obtain ⟨-, hndl, hapart⟩ := nodup_append'.1 hnd
    rcases lt_trichotomy a.prio x.prio with hlt | heq | hgt
    · -- before the first group
      have hplace : findPlace a.prio (x :: q) = (some x, false) := if_pos hlt
      have hadd (l : List Node) : listAddTail a (some x) (x :: l) = a :: x :: l := if_pos rfl
      have hl' : ∀ y ∈ x :: xs ++ l, a.prio < y.prio := by grind
      simp only [hplace, cons_append, hadd]
      have hfirst : Groups ([a] ++ (x :: xs ++ l)) (a :: x :: q) :=
        .cons (by simp) hl' (.cons hxs hl hg)
      exact ⟨hfirst, [], x :: xs ++ l, rfl, rfl, hl'⟩
    · -- behind the nodes of the first group
      have hplace : findPlace a.prio (x :: q) = (q.head?, true) := by
        rw [findPlace, if_neg heq.not_lt, if_pos heq]
      have hadd : listAddTail a q.head? (x :: xs ++ l) = x :: (xs ++ [a]) ++ l := by
        rw [listAddTail_append, ← hg.head?_eq, listAddTail_head?]
        · simp
        · intro y hy hmem
          exact hapart hmem (hg.sublist.subset (mem_of_head? hy))
      simp only [hplace, hadd]
      refine ⟨.cons ?_ hl hg, x :: xs, l, rfl, by simp, heq ▸ hl⟩
      grind
    · have hplace : findPlace a.prio (x :: q) = findPlace a.prio q := by
        rw [findPlace, if_neg hgt.not_gt, if_neg hgt.ne']
      obtain ⟨ih, ys, zs, rfl, hadd, hzs⟩ := ih hndl
      have hpos : ∀ y, (findPlace a.prio q).1 = some y → y ∉ x :: xs := fun y hy hmem ↦
        hapart hmem (hg.sublist.subset (findPlace_mem hy))
      have hq : listAddTail a (findPlace a.prio q).1 (x :: q) = x :: listAddTail a
          (findPlace a.prio q).1 q :=
        if_neg fun heq ↦ hpos x heq (by simp)
      have hl' : ∀ y ∈ listAddTail a (findPlace a.prio q).1 (ys ++ zs), x.prio < y.prio := by grind
      rw [hplace, listAddTail_append hpos, hq, ← apply_ite (x :: ·)]
      exact ⟨.cons hxs hl' ih, x :: xs ++ ys, zs, by simp, by simp [hadd], hzs⟩

/-! ### Deleting a node -/

theorem next_append (ha : a ∉ ys) : next a (ys ++ l) = next a l := by
  rw [next, dropWhile_append_of_pos (by grind), next]

/-- Where there is no node behind it, a node that comes first of its priority is the last on both
lists. -/
theorem Groups.last (h : Groups l q) (hnd : l.Nodup) (ha : a ∈ q) (hnext : next a l = none) :
    ∃ q', q = q' ++ [a] ∧ a ∉ q' := by
  induction h with
  | nil => cases ha
  | @cons x xs l q _ _ hg ih =>
    obtain ⟨-, hndl, hapart⟩ := nodup_append'.1 hnd
    rcases mem_cons.1 ha with rfl | ha
    · have hnil : xs ++ l = [] := by simpa [next] using hnext
      obtain ⟨rfl, rfl⟩ := append_eq_nil_iff.1 hnil
      cases hg
      exact ⟨[], rfl, by simp⟩
    · have hal := hg.sublist.subset ha
      have hax : a ∉ x :: xs := fun hmem ↦ hapart hmem hal
      rw [next_append hax] at hnext
      obtain ⟨q', rfl, hq'⟩ := ih hndl ha hnext
      exact ⟨x :: q', rfl, by grind⟩

theorem next_mem {x : Node} (h : next a l = some x) : x ∈ l :=
  (dropWhile_sublist _).subset (mem_of_mem_tail (mem_of_head? h))

theorem listMoveTail_last (ha : a ∉ q) : listMoveTail none a (q ++ [a]) = a :: q := by
  have hq : ∀ x ∈ q, decide (x ≠ a) = true := by grind
  simp only [listMoveTail, dropWhile_append_of_pos hq, takeWhile_append_of_pos hq]
  simp

theorem erase_listMoveTail_head {x y : Node} (hne : y ≠ x) :
    (listMoveTail (some y) x (x :: q)).erase x = y :: q.erase y := by
  rw [listMoveTail, erase_cons_tail (by simpa using hne.symm), listAddTail, if_pos rfl,
    erase_cons_tail (by simpa using hne), erase_cons_head]

/-- **A deletion** keeps the groups. -/
theorem Groups.del (h : Groups l q) (hnd : l.Nodup) (ha : a ∈ l) :
    Groups (l.erase a) (delPrio a l q) := by
  induction h with
  | nil => cases ha
  | @cons x xs l q hxs hl hg ih =>
    obtain ⟨hndx, hndl, hapart⟩ := nodup_append'.1 hnd
    by_cases hax : a ∈ x :: xs
    · have haq : a ∉ q := fun hmem ↦ hapart hax (hg.sublist.subset hmem)
      rw [erase_append_left _ hax]
      rcases mem_cons.1 hax with rfl | hmem
      · -- the first node of its group; behind it is one of its group, of the next one, or the head
        rw [erase_cons_head, delPrio, if_pos (by simp)]
        cases xs with
        | nil =>
          cases hg with
          | nil => simpa [next, listMoveTail] using Groups.nil
          | @cons y ys l q hys hl' hg =>
            have hne : y ≠ a := fun heq ↦ haq (by simp [heq])
            have hnext : next a ([a] ++ (y :: ys ++ l)) = some y := by simp [next]
            rw [hnext, erase_listMoveTail_head hne, erase_cons_head]
            exact .cons hys hl' hg
        | cons y ys =>
          have hne : y ≠ a := by grind
          have hyq : y ∉ q := fun hmem ↦ hapart (by simp) (hg.sublist.subset hmem)
          have hnext : next a (a :: y :: ys ++ l) = some y := by simp [next]
          rw [hnext, erase_listMoveTail_head hne, erase_of_not_mem hyq]
          have hy := hxs y (by simp)
          exact .cons (fun z hz ↦ (hxs z (by simp [hz])).trans hy.symm) (fun z hz ↦ hy ▸ hl z hz) hg
      · have hne : a ≠ x := fun heq ↦ (nodup_cons.1 hndx).1 (heq ▸ hmem)
        rw [delPrio, if_neg (by simp [hne, haq]), erase_cons_tail (by simpa using hne.symm)]
        exact .cons (fun y hy ↦ hxs y (mem_of_mem_erase hy)) hl hg
    · have hal : a ∈ l := by grind
      have hne : a ≠ x := fun heq ↦ hax (by simp [heq])
      rw [erase_append_right _ hax]
      have hprio : delPrio a (x :: xs ++ l) (x :: q) = x :: delPrio a l q := by
        simp only [delPrio, mem_cons, hne, false_or, next_append hax]
        split_ifs with haq
        · cases hnext : next a l with
          | none =>
            obtain ⟨q', rfl, hq'⟩ := hg.last hndl haq hnext
            rw [← cons_append, listMoveTail_last (by grind), listMoveTail_last hq']
            simp
          | some y =>
            have hy : y ≠ x := fun heq ↦ hapart (by simp [heq]) (next_mem hnext)
            rw [listMoveTail, erase_cons_tail (by simpa using hy.symm), listAddTail,
              if_neg (by simpa using hne), erase_cons_tail (by simpa using hne.symm)]
            rfl
        · rfl
      rw [hprio]
      exact .cons hxs (fun y hy ↦ hl y (mem_of_mem_erase hy)) (ih hndl hal)

/-! ### Runs -/

/-- The lists are in order, and the nodes of a priority in the order in which they were added. -/
structure Sound (s : Recorded) : Prop where
  groups : Groups s.nodeList s.prioList
  nodup : (s.nodeList.map Node.addr).Nodup
  stable : ∀ p, s.nodeList.filter (·.prio = p) = s.added.filter (·.prio = p)

theorem Sound.exec {s : Recorded} (h : Sound s) {op : Op} (hop : machine.guard s op) :
    Sound (machine.exec s op) := by
  have hnd : s.nodeList.Nodup := h.nodup.of_map
  cases op with
  | add a =>
    obtain ⟨hgroups, ys, zs, hlist, hadd, hzs⟩ := h.groups.add hnd a
    refine ⟨hgroups, ?_, fun p ↦ ?_⟩
    · have hnodup := h.nodup
      have hnew : ∀ x ∈ s.nodeList, x.addr ≠ a.addr := hop
      simp only [machine, plistAdd]
      grind
    · have hstable := h.stable p
      simp only [machine, plistAdd, hadd, filter_append, ← hstable]
      rw [hlist]
      by_cases hp : a.prio = p
      · have hnil : zs.filter (·.prio = p) = [] := filter_eq_nil_iff.2 fun z hz ↦ by grind
        simp [hp, hnil]
      · simp [hp]
  | del a =>
    refine ⟨h.groups.del hnd hop, h.nodup.sublist (erase_sublist.map _), fun p ↦ ?_⟩
    simp only [machine, plistDel]
    rw [← erase_filter, ← erase_filter, h.stable p]

/-- **The order of a priority list**: the nodes are in the order of their priorities, those of one
priority in the order in which they were added, and the first node of each priority is on
`prio_list`. -/
theorem plist_ordered {ops : List Op} {s : Recorded} (h : machine.Runs {} ops s) :
    s.nodeList.Pairwise (·.prio ≤ ·.prio) ∧
    (∀ p, s.nodeList.filter (·.prio = p) = s.added.filter (·.prio = p)) ∧
      Groups s.nodeList s.prioList := by
  have hsound : Sound s := h.invariant (fun _ _ hs hop ↦ hs.exec hop) ⟨.nil, by simp, fun _ ↦ rfl⟩
  exact ⟨hsound.groups.pairwise, hsound.stable, hsound.groups⟩

instance (s : Recorded) : ∀ op, Decidable (machine.guard s op)
  | .add a => inferInstanceAs (Decidable (∀ x ∈ s.nodeList, x.addr ≠ a.addr))
  | .del a => inferInstanceAs (Decidable (a ∈ s.nodeList))

/-- The first node of a priority is deleted, and later the last node of the list. -/
theorem plist_ordered_three :
    ∃ s, machine.Runs {} [.add ⟨0, 5⟩, .add ⟨1, 5⟩, .add ⟨2, 3⟩, .del ⟨0, 5⟩, .del ⟨1, 5⟩] s ∧
    s.nodeList = [⟨2, 3⟩] ∧ Groups s.nodeList s.prioList := by
  exact Machine.Permitted.exists_runs (by decide) fun s hrun hs ↦
    ⟨hs ▸ by decide, (plist_ordered hrun).2.2⟩

end Plist
