import MerrukKernel.Binder.FlowSteps

/-!
# Transactions over whole runs

Two things are shown of the states that `flowMachine` reaches from a binder that nobody has
opened.

* **Stacks.** As long as no thread calls itself, whatever is on the stack of a thread has been
  sent or taken by that thread, no `BUG` is reached, and a call is answered at most once, to its
  sender. The context manager can call itself: it may do so while it works on a call from a
  process that it is itself waiting for, and the call is then routed to its sender, who need not
  have read it to leave it behind.
* **One-way transactions.** As long as no thread exits with a one-way transaction of a node on its
  list, the node has at most one out, they are delivered in the order sent and none gets lost. A
  thread that exits takes them with it, and the node is stuck.
-/

namespace Binder

open AsyncView Option

namespace Flow

variable {s : Flow} {loc : ℕ → Option WorkList} {t th n : ℕ}

/-! ### Stacks -/

/-- **The stack of a thread**: what is reached from `transaction_stack` by following `to_parent` of
what the thread has taken, and `from_parent` of everything else. -/
inductive OnStack (s : Flow) (th : ℕ) : ℕ → Prop
  | top {r : Thread} {t : ℕ} : s.threads th = some r → r.transactionStack = some t → OnStack s th t
  | toParent {t u : ℕ} {x : Transaction} : OnStack s th t → s.transactions t = some x →
      x.toThread = some th → x.toParent = some u → OnStack s th u
  | fromParent {t u : ℕ} {x : Transaction} : OnStack s th t → s.transactions t = some x →
      x.toThread ≠ some th → x.fromParent = some u → OnStack s th u

theorem Good.onStack (h : s.Good loc none) (ht : s.OnStack th t) :
    ∃ x, s.transactions t = some x ∧ (x.fromThread = some th ∨ x.toThread = some th) := by
  -- the stack is a finite list, and following the pointers does not leave it
  have hmem : ∃ l, (s.calls none).Stack th l ∧ t ∈ l := by
    induction ht with
    | top hr hstack =>
      have htop := top_eq_some.2 ⟨some_ne_none th ∘ Eq.symm, _, hr, hstack⟩
      obtain ⟨l, hl⟩ := h.sound.stack htop
      refine ⟨l, ⟨_, htop, hl⟩, ?_⟩
      cases hl
      simp
    | toParent _ hx hto hparent ih =>
      obtain ⟨l, ⟨o, ho, hl⟩, hmem⟩ := ih
      obtain ⟨L, hL, -⟩ := Calls.Stack.link_of_mem ⟨o, ho, hl⟩ hmem
      obtain ⟨y, hy, -, rfl⟩ := link_eq_some.1 hL
      cases hy.symm.trans hx
      refine ⟨l, ⟨o, ho, hl⟩, hl.next_mem hmem ?_⟩
      exact (Calls.below_of_callee hL hto).trans (congrArg some hparent)
    | fromParent _ hx hto hparent ih =>
      obtain ⟨l, ⟨o, ho, hl⟩, hmem⟩ := ih
      obtain ⟨L, hL, hside⟩ := Calls.Stack.link_of_mem ⟨o, ho, hl⟩ hmem
      obtain ⟨y, hy, -, rfl⟩ := link_eq_some.1 hL
      cases hy.symm.trans hx
      refine ⟨l, ⟨o, ho, hl⟩, hl.next_mem hmem ?_⟩
      obtain ⟨o', hbelow⟩ := hl.next_isSome hmem
      obtain ⟨L', hL', hside⟩ := Calls.below_eq_some hbelow
      cases hL'.symm.trans hL
      rcases hside with ⟨hcallee, -⟩ | ⟨-, hcaller, -⟩
      · exact absurd hcallee hto
      · exact (Calls.below_of_caller hL hto hcaller).trans (congrArg some hparent)
  obtain ⟨l, ⟨o, ho, hl⟩, hmem⟩ := hmem
  obtain ⟨o', hbelow⟩ := hl.next_isSome hmem
  obtain ⟨L, hL, hside⟩ := Calls.below_eq_some hbelow
  obtain ⟨x, hx, -, rfl⟩ := link_eq_some.1 hL
  refine ⟨x, hx, ?_⟩
  rcases hside with ⟨hcallee, -⟩ | ⟨-, hcaller, -⟩
  · exact .inr hcallee
  · exact .inl hcaller

end Flow

open Binder.Flow

/-- The machine in which **no thread calls itself**. -/
def calmMachine : Machine (Option Flow) FlowOp where
  guard s op := flowMachine.guard s op ∧ ∀ f, s = some f → f.Calm op
  exec := flowMachine.exec

/-- No run of the calm machine meets a bug, and the invariant holds throughout. -/
theorem calmMachine_kept {ops : List FlowOp} {s : Option Flow}
    (h : calmMachine.Runs (some .empty) ops s) : ∃ f loc, s = some f ∧ f.Kept loc := by
  refine h.invariant (I := fun s ↦ ∃ f loc, s = some f ∧ f.Kept loc) ?_
    ⟨_, _, rfl, kept_empty⟩
  rintro s op ⟨f, loc, rfl, hf⟩ ⟨hallowed, hcalm⟩
  obtain ⟨f', loc', hf', hkept, -⟩ := hf.step (hallowed f rfl) (hcalm f rfl)
  exact ⟨f', loc', hf', hkept⟩

/-- **Stacks are well formed.** Whatever is reached from the stack of a thread has been sent or
taken by the thread; no `BUG` is met; every synchronous call gets at most one reply or failed
reply, and it goes to the one thread that made the call. -/
theorem stacks_well_formed {ops : List FlowOp} {s : Option Flow}
    (h : calmMachine.Runs (some .empty) ops s) :
    ∃ f, s = some f ∧ (∀ th t, f.OnStack th t →
        ∃ x, f.transactions t = some x ∧ (x.fromThread = some th ∨ x.toThread = some th)) ∧
      (f.callsMade.map Prod.fst).Nodup ∧ (f.answers.map Prod.fst).Nodup ∧
      ∀ c ∈ f.answers, c ∈ f.callsMade := by
  obtain ⟨f, loc, hf, hkept⟩ := calmMachine_kept h
  exact ⟨f, hf, fun th t ↦ hkept.good.onStack, hkept.good.logged.nodup, hkept.good.logged.once,
    fun c hc ↦ (hkept.good.logged.answered c hc).1⟩

/-- A thread may call anybody if it works on nothing, or on a call of another thread that is nested
in no call. -/
theorem Flow.calm_of_outermost {f : Flow} {th handle : ℕ} {fits : Bool}
    (h : (((f.threads th).bind (f.topIncoming th)).bind f.transactions).all
      (fun x ↦ x.fromParent = none ∧ x.fromThread ≠ some th) = true) :
    f.Calm (.transaction th handle false fits) := by
  intro r n nd t hr _ _ _ htop u x hu hx
  rw [hr, bind_some, htop, bind_some] at h
  rcases hu.cases_tail with rfl | ⟨v, -, y, hy, hparent⟩
  · rw [hx] at h
    exact (of_decide_eq_true h).2
  · rw [hy] at h
    exact absurd ((of_decide_eq_true h).1.symm.trans hparent) nofun

/-- Thread `2` of process `0` calls the context manager, which is process `1`. Thread `3` takes the
call and calls its own process, where thread `4` takes the nested call; both reply. -/
theorem stacks_well_formed_reply :
    ∃ f, calmMachine.final (some .empty) [.openProc, .openProc, .getThread 0, .getThread 1,
        .getThread 1, .setContextMgr 1, .transaction 2 0 false true, .read 3 100,
        .transaction 3 0 false true, .read 4 100, .reply 4 false true, .reply 3 false true] =
        some f ∧ f.answers = [(7, 3), (6, 2)] ∧ (f.answers.map Prod.fst).Nodup ∧
      ∀ c ∈ f.answers, c ∈ f.callsMade := by
  refine (stacks_well_formed (Machine.Permitted.runs ?_)).imp fun f h ↦
    ⟨h.1, Machine.of_map_eq h.1 (by decide +kernel), h.2.2.2.1, h.2.2.2.2⟩
  iterate 6 refine ⟨⟨fun _ _ ↦ trivial, fun _ _ ↦ trivial⟩, ?_⟩
  -- the caller has an empty stack
  refine ⟨⟨fun _ _ ↦ trivial, fun f hf ↦ calm_of_outermost (by cases hf; rfl)⟩, ?_⟩
  refine ⟨⟨fun _ _ ↦ trivial, fun _ _ ↦ trivial⟩, ?_⟩
  -- thread `3` works on a call of thread `2`
  refine ⟨⟨fun _ _ ↦ trivial, fun f hf ↦ calm_of_outermost (by cases hf; rfl)⟩, ?_⟩
  iterate 3 refine ⟨⟨fun _ _ ↦ trivial, fun _ _ ↦ trivial⟩, ?_⟩
  trivial

/-- **The context manager calls itself.** Its thread `2` calls node `5` of process `1`, whose thread
`3` calls the context manager back; working on that, thread `2` calls the context manager once more.
The call `8` is routed to thread `2` itself. The thread replies without having read it, by which its
stack is emptied, and exits: `binder_release_work` sends a failed reply for the call, and
`binder_pop_transaction` finds that it is not on the stack of its sender. -/
theorem self_call_meets_bug :
    let ops : List FlowOp := [.openProc, .openProc, .getThread 0, .getThread 1, .setContextMgr 0,
      .newNode 1, .learn 0 1 5, .transaction 2 1 false true, .read 3 100,
      .transaction 3 0 false true,
      .read 2 100, .transaction 2 0 false true, .reply 2 false true]
    flowMachine.Permitted (some .empty) (ops ++ [.exit 2]) ∧
      (flowMachine.final (some .empty) ops).isSome = true ∧
      flowMachine.final (some .empty) (ops ++ [.exit 2]) = none := by
  refine ⟨?_, by decide +kernel, ?_⟩
  · repeat' first | exact trivial | refine ⟨fun _ _ ↦ trivial, ?_⟩
  · exact isNone_iff_eq_none.1 (by decide +kernel)

/-! ### One-way transactions -/

/-- The calm machine in which **no one-way transaction of node `n` gets lost**. -/
def orderlyMachine (n : ℕ) : Machine (Option Flow) FlowOp where
  guard s op := calmMachine.guard s op ∧ ∀ f, s = some f → f.Orderly n op
  exec := flowMachine.exec

/-- The one-way transactions of a node stay in line. -/
theorem orderlyMachine_line {n : ℕ} {ops : List FlowOp} {s : Option Flow}
    (h : (orderlyMachine n).Runs (some .empty) ops s) :
    ∃ f loc, s = some f ∧ f.Kept loc ∧ ∀ nd, f.nodes n = some nd → ∃ out, f.Line loc n out := by
  refine h.invariant (I := fun s ↦ ∃ f loc, s = some f ∧ f.Kept loc ∧
    ∀ nd, f.nodes n = some nd → ∃ out, f.Line loc n out) ?_ ⟨_, _, rfl, kept_empty, by
      intro nd hnd
      cases hnd⟩
  rintro s op ⟨f, loc, rfl, hf, hline⟩ ⟨⟨hallowed, hcalm⟩, horderly⟩
  obtain ⟨f', loc', hf', hkept, heffect⟩ := hf.step (hallowed f rfl) (hcalm f rfl)
  refine ⟨f', loc', hf', hkept, fun nd' hnd' ↦ ?_⟩
  have he : Effect True n (f.view n) (f'.view n) loc loc' := by grind
  cases hnd : f.nodes n with
  | some nd =>
    obtain ⟨out, hout⟩ := hline nd hnd
    exact hout.step hf.good.stocked (hf.single n) hnd he
  | none =>
    -- the node is new, and nothing has happened to it
    have hlog : f'.asyncLog n = [] ∧ f'.nodes n = some { proc := nd'.proc } ∧
        ∀ b, f'.asyncState n b = none := by
      cases he with
      | passive hview =>
        have hsame : f'.nodes n = f.nodes n := congrArg AsyncView.node hview
        cases hnd.symm.trans (hsame.symm.trans hnd')
      | created p hold hnew hstate hlog =>
        cases hnew.symm.trans hnd'
        exact ⟨hlog.trans (hf.blank n hnd), hnew, hstate⟩
      | closed hwild => exact absurd trivial hwild
      | sent t p nd hold => cases hnd.symm.trans hold
      | delivered t q hq hnot hold hnew =>
        have hsame : f'.nodes n = f.nodes n := hnew
        cases hnd.symm.trans (hsame.symm.trans hnd')
      | freed t nd hold => cases hnd.symm.trans hold
      | turn t u th rest nd hold => cases hnd.symm.trans hold
    obtain ⟨hnil, hnew, hstate⟩ := hlog
    refine ⟨none, ⟨?_, fun hnd ↦ ?_, fun ht ↦ absurd (hstate _) ht, .idle ?_⟩⟩
    · simp [sentTo, freedFrom, hnil, waiting_node hnew]
    · grind
    · simp [deliveredFrom, freedFrom, hnil]

/-- **One-way transactions are serialised and never stranded.** Of the one-way transactions of the
node, at most one is not on `async_todo`; they are delivered in the order sent; each is on a list
of work, or has been delivered and not been freed, or has been freed; no `BUG_ON` is met; and the
flag of the node is set only while there is one that has not been freed. -/
theorem oneWay_serialised {n : ℕ} {ops : List FlowOp} {s : Option Flow}
    (h : (orderlyMachine n).Runs (some .empty) ops s) :
    ∃ f, s = some f ∧ ∀ nd, f.nodes n = some nd →
      (∀ t u, f.asyncState n t ≠ none → t ∉ f.waiting (.node n) →
        f.asyncState n u ≠ none → u ∉ f.waiting (.node n) → t = u) ∧
      f.deliveredFrom n <+: f.sentTo n ∧
      (∀ t ∈ f.sentTo n, (∃ q, t ∈ f.waiting q) ∨
        (t ∈ f.deliveredFrom n ∧ f.asyncState n t = some true) ∨ t ∈ f.freedFrom n) ∧
      (nd.hasAsyncTransaction = true → ∃ t ∈ f.sentTo n, f.asyncState n t ≠ none) := by
  obtain ⟨f, loc, hf, hkept, hline⟩ := orderlyMachine_line h
  refine ⟨f, hf, fun nd hnd ↦ ?_⟩
  obtain ⟨out, hout⟩ := hline nd hnd
  have hmem : ∀ q t, t ∈ f.waiting q ↔ loc t = some q := fun q t ↦
    (hkept.good.stocked.lists q).mem_iff t
  refine ⟨fun t u ht htn hu hun ↦ ?_, ?_, fun t ht ↦ ?_, fun hflag ↦ ?_⟩
  · exact (hkept.single n).one ⟨ht, fun hl ↦ htn ((hmem _ _).2 hl)⟩
      ⟨hu, fun hl ↦ hun ((hmem _ _).2 hl)⟩
  · rw [hout.sent]
    cases hout.phase with
    | idle hd => exact hd ▸ List.prefix_append ..
    | queued t q hq hnot hstate hd => exact hd ▸ List.prefix_append ..
    | delivered t hloc hstate hd => grind
  · rw [hout.sent] at ht
    rcases List.mem_append.1 ht with ht | ht
    · exact .inr (.inr ht)
    · rcases List.mem_append.1 ht with ht | ht
      · have hcur : out = some t := mem_toList.1 ht
        subst hcur
        cases hout.phase with
        | queued _ q hq => exact .inl ⟨q, (hmem q t).2 hq⟩
        | delivered _ hloc hstate hd => exact .inr (.inl ⟨by simp [hd], hstate⟩)
      · exact .inl ⟨_, ht⟩
  · rw [hout.flag hnd] at hflag
    obtain ⟨t, rfl⟩ := isSome_iff_exists.1 hflag
    exact ⟨t, by simp [hout.sent], hout.phase.state rfl⟩

/-- Two one-way transactions to node `4`; the first has been delivered and freed, and the second
is on the list of the thread that did so. -/
theorem oneWay_serialised_turn :
    ∃ f nd, (orderlyMachine 4).final (some .empty)
        [.openProc, .openProc, .getThread 0, .getThread 1, .newNode 1, .learn 0 1 4,
          .transaction 2 1 true true, .transaction 2 1 true true, .read 3 100,
          .freeBuffer 3 5] = some f ∧ f.nodes 4 = some nd ∧ f.sentTo 4 = [5, 6] ∧
      f.deliveredFrom 4 <+: f.sentTo 4 ∧
      ∀ t ∈ f.sentTo 4, (∃ q, t ∈ f.waiting q) ∨
        (t ∈ f.deliveredFrom 4 ∧ f.asyncState 4 t = some true) ∨ t ∈ f.freedFrom 4 := by
  refine (oneWay_serialised (Machine.Permitted.runs ?_)).imp fun f h ↦
    (isSome_iff_exists.1 ?_).imp fun nd hnd ↦
      ⟨h.1, hnd, ?_, (h.2 nd hnd).2.1, (h.2 nd hnd).2.2.1⟩
  · iterate 10 refine ⟨⟨⟨fun _ _ ↦ trivial, fun _ _ ↦ trivial⟩, fun _ _ ↦ trivial⟩, ?_⟩
    exact trivial
  · exact Machine.of_map_eq (f := fun f : Flow ↦ (f.nodes 4).isSome) h.1 (by decide +kernel)
  · exact Machine.of_map_eq (f := (sentTo · 4)) h.1 (by decide +kernel)

/-- **A thread exits with a one-way transaction in its hands.** It has freed the buffer of the first
one, which gave it the second, and exits before it reads on. The second one is then on no list of
work, has not been delivered and will not be: the flag of the node stays set, and nothing waits that
could clear it. -/
theorem exit_strands_oneWay :
    ∃ f, flowMachine.Runs (some .empty) [.openProc, .openProc, .getThread 0, .getThread 1,
        .newNode 1, .learn 0 1 4, .transaction 2 1 true true, .transaction 2 1 true true,
        .read 3 100, .freeBuffer 3 5, .exit 3] (some f) ∧
      f.sentTo 4 = [5, 6] ∧ f.deliveredFrom 4 = [5] ∧ f.freedFrom 4 = [5] ∧
      (f.nodes 4).map (·.hasAsyncTransaction) = some true ∧
      ∀ i < f.next, 6 ∉ f.waiting (.thread i) ∧ 6 ∉ f.waiting (.proc i) ∧
        6 ∉ f.waiting (.node i) := by
  refine Machine.Permitted.exists_some ?_ (by decide +kernel)
  repeat' first | exact trivial | refine ⟨fun _ _ ↦ trivial, ?_⟩

end Binder
