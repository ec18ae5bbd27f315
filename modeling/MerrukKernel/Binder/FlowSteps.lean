import MerrukKernel.Binder.Deliveries

/-!
# The steps of a binder

What is left after the commands that move transactions: threads and processes that come and go,
nodes and handles. With them every step of `Flow.step` keeps the invariant, unless a thread calls
itself; `Kept` is that invariant, and `Kept.step` what a step does.
-/

namespace Binder

open Placement Relation AsyncView Function Option Binder.Flow

namespace Flow

variable {s s' s'' : Flow} {loc loc' loc'' : ℕ → Option WorkList} {t u b th p n : ℕ} {q : WorkList}
  {x : Transaction} {buf : TransactionBuffer} {r : Thread}

/-! ### Threads that go -/

theorem Freed.refl (s : Flow) (loc : ℕ → Option WorkList) : s.Freed s [] loc loc :=
  ⟨rfl, rfl, fun _ ↦ by simp, fun _ ↦ rfl, rfl, fun _ ↦ .inl rfl⟩

theorem Freed.trans {ths ths' : List ℕ} (h : s.Freed s' ths loc loc')
    (h' : s'.Freed s'' ths' loc' loc'') : s.Freed s'' (ths ++ ths') loc loc'' where
  procs := h'.procs.trans h.procs
  nodes := h'.nodes.trans h.nodes
  threads := by
    intro i
    rw [h'.threads, h.threads]
    by_cases hi : i ∈ ths <;> by_cases hi' : i ∈ ths' <;> simp [hi, hi']
  buffers := fun b ↦ (h'.buffers b).trans (h.buffers b)
  log := h'.log.trans h.log
  loc := by
    intro u
    rcases h'.loc u with hu' | ⟨⟨th, hth, hu'⟩, hnone⟩
    · grind [h.loc]
    · grind [h.loc]

theorem Freed.view {ths : List ℕ} (h : s.Freed s' ths loc loc') (n : ℕ) : s'.view n = s.view n :=
  view_congr (congrFun h.nodes n) h.buffers h.log

/-- **A thread exits.** One-way transactions on its list are lost. -/
theorem Good.exit (h : s.Good loc none) (th : ℕ) : ∃ s' loc', s.freeThread th = some s' ∧
      s.Done (fun n ↦ ∀ t ∈ s.waiting (.thread th), s.asyncState n t = none) s' loc loc' := by
  cases hr : s.threads th with
  | none => exact ⟨s, loc, by simp [Flow.freeThread, hr], .of_quiet _ h (.refl s)⟩
  | some r =>
    obtain ⟨s', loc', hs', hg, hf⟩ := h.freeThread hr
    refine ⟨s', loc', hs', hg, fun n ↦ .passive (hf.view n) (fun b _ ↦ ?_) fun ho b hb ↦ ?_⟩
    · grind [hf.loc]
    · rcases hf.loc b with hsame | ⟨⟨i, hi, hbi⟩, -⟩
      · exact hsame
      · obtain rfl : i = th := by simpa using hi
        exact absurd (ho b (((h.stocked.lists _).mem_iff b).2 hbi)) hb

/-- The loop over the threads of a process. -/
theorem Good.freeThreads (ths : List ℕ) (h : s.Good loc none) :
    ∃ s' loc', freeThreads ths s = some s' ∧ s'.Good loc' none ∧ s.Freed s' ths loc loc' := by
  induction ths generalizing s loc with
  | nil => exact ⟨s, loc, rfl, h, .refl s loc⟩
  | cons th rest ih =>
    -- a thread that is gone already is skipped
    have hone : ∃ s₁ loc₁, s.freeThread th = some s₁ ∧ s₁.Good loc₁ none ∧
        s.Freed s₁ [th] loc loc₁ := by
      cases hr : s.threads th with
      | some r => exact h.freeThread hr
      | none =>
        refine ⟨s, loc, by simp [Flow.freeThread, hr], h, rfl, rfl, fun i ↦ ?_, fun _ ↦ rfl, rfl,
          fun _ ↦ .inl rfl⟩
        by_cases hi : i = th
        · subst hi
          simp [hr]
        · simp [hi]
    obtain ⟨s₁, loc₁, hs₁, h₁, hf₁⟩ := hone
    obtain ⟨s', loc', hs', h', hf'⟩ := ih h₁
    exact ⟨s', loc', by simp [freeThreads, hs₁, hs'], h', hf₁.trans hf'⟩

/-! ### What comes and goes besides transactions -/

/-- **Threads, processes, nodes and handles** may come and go, as long as no list of work goes that
has something on it, and none comes. -/
theorem Stocked.extend (h : s.Stocked loc) (htr : s'.transactions = s.transactions)
    (hbuf : s'.buffers = s.buffers) (hnext : s.next ≤ s'.next) (htodo : ∀ q, s'.todo q = s.todo q)
    (hown : ∀ q p, s.todo q ≠ [] → s'.owner q = some p → s.owner q = some p)
    (hfresh : ∀ i, s'.next ≤ i → s'.threads i = none ∧ s'.procs i = none ∧ s'.nodes i = none)
    (hthread : ∀ th r, s'.threads th = some r → (s'.procs r.proc).isSome = true)
    (hnode : ∀ n nd p, s'.nodes n = some nd → nd.proc = some p → (s'.procs p).isSome = true)
    (hkeep : ∀ n nd, s.nodes n = some nd → ∃ nd', s'.nodes n = some nd' ∧
      ∀ p, nd'.proc = some p → nd.proc = some p)
    (hmgr : ∀ n, s'.contextMgr = some n → (s'.nodes n).isSome = true)
    (hhandle : ∀ p h n, s'.handles p h = some n → (s'.nodes n).isSome = true) :
    s'.Stocked loc where
  lists := by
    intro q
    rw [waiting, htodo]
    exact h.lists q
  carried := by
    intro t q p hq hp
    have hne : s.todo q ≠ [] := by
      intro hnil
      have hmem := ((h.lists q).mem_iff t).2 hq
      simp [waiting, hnil] at hmem
    obtain ⟨x, buf, hc⟩ := h.carried hq (hown q p hne hp)
    exact ⟨x, buf, { hc with transaction := htr ▸ hc.transaction, found := hbuf ▸ hc.found }⟩
  tied := h.tied.congr htr hbuf
  fresh := by
    intro i hi
    obtain ⟨h1, h2, -, -, -, h6⟩ := h.fresh (hnext.trans hi)
    obtain ⟨h3, h4, h5⟩ := hfresh i hi
    exact ⟨htr ▸ h1, hbuf ▸ h2, h3, h4, h5, h6⟩
  toThread := fun hx hth ↦ Nat.lt_of_lt_of_le (h.toThread (htr ▸ hx) hth) hnext
  sync := fun hx ↦ h.sync (htr ▸ hx)
  threadProc := hthread _ _
  nodeProc := hnode _ _ _
  target := by
    intro b buf n hb hn
    obtain ⟨nd, hnd, hp⟩ := h.target (hbuf ▸ hb) hn
    obtain ⟨nd', hnd', hp'⟩ := hkeep n nd hnd
    exact ⟨nd', hnd', fun p hpp ↦ hp p (hp' p hpp)⟩
  mgr := hmgr _
  handle := hhandle _ _ _

/-- Nothing of that has to do with calls, but that threads come. -/
theorem Logged.extend (h : s.Logged) (htr : s'.transactions = s.transactions)
    (hlog : s'.log = s.log) (hnext : s.next ≤ s'.next) : s'.Logged :=
  h.grow (by rw [callsMade, hlog, callsMade]) (by rw [answers, hlog, answers]) hnext
    fun hx ↦ .inr ⟨_, htr ▸ hx, rfl, fun _ h ↦ h⟩

theorem pending_congr (htr : s'.transactions = s.transactions) (htodo : ∀ q, s'.todo q = s.todo q) :
    ∀ t, (s'.calls none).pending t → (s.calls none).pending t :=
  pending_of_waiting (fun q ↦ by rw [waiting, htodo, waiting]) fun hx ↦ ⟨_, htr ▸ hx, rfl⟩

theorem todo_owner_of_empty (s s' : Flow) (q₀ : WorkList) (h : s.todo q₀ = [])
    (h' : s'.todo q₀ = [])
    (hsame : ∀ q, q ≠ q₀ → s'.todo q = s.todo q ∧ s'.owner q = s.owner q) :
    (∀ q, s'.todo q = s.todo q) ∧
      ∀ q p, s.todo q ≠ [] → s'.owner q = some p → s.owner q = some p := by
  refine ⟨fun q ↦ ?_, fun q p hne hp ↦ ?_⟩
  · by_cases hq : q = q₀
    · rw [hq, h, h']
    · exact (hsame q hq).1
  · rwa [← (hsame q fun hq ↦ hne (hq ▸ h)).2]

/-! ### A process that goes -/

/-- The nodes of a process stay without an owner. -/
theorem Good.dropNodes (h : s.Good loc none) (p : ℕ) : (s.dropNodes p).Good loc none := by
  have hnodes : ∀ m, (s.dropNodes p).nodes m = (s.nodes m).map (orphan p) := fun _ ↦ rfl
  have horphan : ∀ {nd : AsyncNode} {i : ℕ}, (orphan p nd).proc = some i → nd.proc = some i := by
    intro nd i hi
    unfold orphan at hi
    split_ifs at hi
    exact hi
  have hsome : ∀ m, ((s.dropNodes p).nodes m).isSome = (s.nodes m).isSome :=
    fun m ↦ by simp [hnodes]
  have htodo : ∀ q, (s.dropNodes p).todo q = s.todo q := by
    intro q
    cases q with
    | thread th => rfl
    | proc p => rfl
    | node m =>
      rw [todo, todo, hnodes]
      cases hnd : s.nodes m with
      | none => rfl
      | some nd =>
        show (orphan p nd).asyncTodo = nd.asyncTodo
        unfold orphan
        split_ifs <;> rfl
  refine ⟨h.stocked.extend rfl rfl le_rfl htodo (fun q i _ hq ↦ ?_) (fun i hi ↦ ?_)
    (fun th r ↦ h.stocked.threadProc) (fun m nd i hm hi ↦ ?_) (fun m nd hm ↦ ?_) (fun m hm ↦ ?_)
    fun i hd m hm ↦ ?_, ?_, ?_⟩
  · cases q with
    | thread th => exact hq
    | proc p => exact hq
    | node m =>
      obtain ⟨nd', hnd', hi⟩ := bind_eq_some_iff.1 hq
      obtain ⟨nd, hnd, rfl⟩ := map_eq_some_iff.1 hnd'
      exact bind_eq_some_iff.2 ⟨nd, hnd, horphan hi⟩
  · obtain ⟨-, -, h3, h4, h5, -⟩ := h.stocked.fresh hi
    exact ⟨h3, h4, by rw [hnodes, h5]; rfl⟩
  · obtain ⟨nd, hnd, rfl⟩ := map_eq_some_iff.1 hm
    exact h.stocked.nodeProc hnd (horphan hi)
  · exact ⟨orphan p nd, by rw [hnodes, hm]; rfl, fun i ↦ horphan⟩
  · rw [hsome]
    exact h.stocked.mgr (filter_eq_some_iff.1 hm).1
  · rw [hsome]
    by_cases hip : i = p
    · subst hip
      simp [Flow.dropNodes] at hm
    · have hm' : s.handles i hd = some m := by simpa [Flow.dropNodes, hip] using hm
      exact h.stocked.handle hm'
  · exact h.sound.congr rfl rfl (pending_congr rfl htodo)
  · exact h.logged.extend rfl rfl le_rfl

/-- No list of work of the process has anything on it. -/
def Cleared (s : Flow) (loc : ℕ → Option WorkList) (p : ℕ) : Prop :=
  ∀ t q, loc t = some q → s.owner q ≠ some p

/-- **The loop over the buffers** of a process without work. -/
theorem Good.freeBuffers (bs : List ℕ) (h : s.Good loc none) (hclear : s.Cleared loc p) :
    ∃ s', freeBuffers p bs s = some s' ∧ s'.Good loc none ∧ s'.procs = s.procs ∧
      s'.nodes = s.nodes ∧ s'.threads = s.threads ∧ s'.log = s.log ∧
      ∀ b, s'.buffers b = (s.buffers b).filter fun buf ↦ ¬ (b ∈ bs ∧ buf.proc = p) := by
  induction bs generalizing s with
  | nil =>
    refine ⟨s, rfl, h, rfl, rfl, rfl, rfl, fun b ↦ ?_⟩
    cases s.buffers b <;> simp [Option.filter]
  | cons b rest ih =>
    -- a buffer that is not freed does not matter
    have hskip : (∀ buf, s.buffers b = some buf → buf.proc ≠ p) →
        freeBuffers p (b :: rest) s = freeBuffers p rest s →
        ∃ s', freeBuffers p (b :: rest) s = some s' ∧ s'.Good loc none ∧ s'.procs = s.procs ∧
          s'.nodes = s.nodes ∧ s'.threads = s.threads ∧ s'.log = s.log ∧
          ∀ c, s'.buffers c = (s.buffers c).filter fun buf ↦ ¬ (c ∈ b :: rest ∧ buf.proc = p) := by
      intro hb heq
      obtain ⟨s', hs', hg, h1, h2, h3, h4, h5⟩ := ih h hclear
      refine ⟨s', heq.trans hs', hg, h1, h2, h3, h4, fun c ↦ ?_⟩
      rw [h5]
      cases hc : s.buffers c with
      | none => rfl
      | some buf => grind
    cases hb : s.buffers b with
    | none => exact hskip (by simp [hb]) (by simp [freeBuffers, hb])
    | some buf =>
      by_cases hp : buf.proc = p
      · have hloc : ∀ q, loc b = some q → s.owner q = none := by
          intro q hq
          by_contra hown
          obtain ⟨i, hi⟩ := ne_none_iff_exists'.1 hown
          obtain ⟨x, buf', hc⟩ := h.stocked.carried hq hi
          cases hb.symm.trans hc.found
          exact hclear b q hq (hi.trans (congrArg some (hc.proc.symm.trans hp)))
        have hrun : freeBuffers p (b :: rest) s =
            freeBuffers p rest (s.dropBuffer b) := by
          simp only [freeBuffers, hb, if_pos hp, detachTransaction_eq h.stocked.tied hb]
          rfl
        obtain ⟨s', hs', hg, h1, h2, h3, h4, h5⟩ := ih (h.dropBuffer hb hloc) hclear
        refine ⟨s', hrun.trans hs', hg, h1, h2, h3, h4, fun c ↦ ?_⟩
        rw [h5]
        by_cases hcb : c = b
        · subst hcb
          have hnone : (s.dropBuffer c).buffers c = none := update_self ..
          simp [Option.filter, hnone, hb, hp]
        · have hsame : (s.dropBuffer b).buffers c = s.buffers c := update_of_ne hcb ..
          simp [hsame, hcb]
      · grind [freeBuffers]

theorem Good.removeProc (h : s.Good loc none) (htodo : s.todo (.proc p) = [])
    (hthread : ∀ th r, s.threads th = some r → r.proc ≠ p)
    (hnode : ∀ n nd, s.nodes n = some nd → nd.proc ≠ some p) :
    ({ s with procs := update s.procs p none } : Flow).Good loc none := by
  obtain ⟨htodo', hown⟩ := todo_owner_of_empty s { s with procs := update s.procs p none } (.proc p)
    htodo (by simp [todo]) fun q hq ↦ by cases q <;> simp_all [todo, owner]
  refine ⟨h.stocked.extend rfl rfl le_rfl htodo' hown (fun i hi ↦ ?_)
    (fun th r hr ↦ ?_) (fun m nd i hm hi ↦ ?_) (fun m nd hm ↦ ⟨nd, hm, fun _ h ↦ h⟩)
    (fun m ↦ h.stocked.mgr) fun i hd m ↦ h.stocked.handle, ?_, ?_⟩
  · obtain ⟨-, -, h3, h4, h5, -⟩ := h.stocked.fresh hi
    refine ⟨h3, ?_, h5⟩
    by_cases hip : i = p
    · simp [hip]
    · simpa [hip] using h4
  · grind [h.stocked.threadProc]
  · grind [h.stocked.nodeProc]
  · exact h.sound.congr rfl rfl (pending_congr rfl htodo')
  · exact h.logged.extend rfl rfl le_rfl

/-- The list of a process that may be gone is emptied. -/
theorem Good.releaseProc (h : s.Good loc none) (p : ℕ) :
    ∃ s' loc', Flow.releaseWork (.proc p) (s.todo (.proc p)) s = some s' ∧ s'.Good loc' none ∧
      (s.setTodo (.proc p) []).Quiet s' ∧
      ∀ u, loc' u = loc u ∨ (loc u = some (.proc p) ∧ loc' u = none) := by
  cases hp : s.procs p with
  | none =>
    have hnil : s.todo (.proc p) = [] := by simp [todo, hp]
    have hid : s.setTodo (.proc p) [] = s := hnil ▸ setTodo_todo s (.proc p)
    rw [hnil, hid]
    exact ⟨s, loc, rfl, h, .refl s, fun u ↦ .inl rfl⟩
  | some l =>
    exact h.releaseWork _ (fun th hth ↦ by cases hth) (fun n hn ↦ by cases hn) (p := p)
      (by simp [owner, hp]) rfl

/-- What the end of a process leaves: the buffers, the nodes and the lists of the others. -/
structure Closed (s s' : Flow) (p : ℕ) (loc loc' : ℕ → Option WorkList) : Prop where
  nodes : ∀ n, s'.nodes n = (s.nodes n).map (orphan p)
  buffers : ∀ b, (s'.buffers b).map untied =
    ((s.buffers b).map untied).filter fun buf ↦ buf.proc ≠ p
  log : s'.log.filter FlowEvent.isAsync = s.log.filter FlowEvent.isAsync
  loc : ∀ u, loc' u = loc u ∨ (∃ q, loc u = some q ∧ s.owner q = some p ∧ (∀ n, q ≠ .node n)) ∧
    loc' u = none

/-- **`binder_deferred_release`** runs into no `BUG`. -/
theorem Good.deferredRelease {order : List ℕ} (h : s.Good loc none)
    (horder : ∀ th, th ∈ order ↔ ∃ r, s.threads th = some r ∧ r.proc = p) :
    ∃ s' loc', s.deferredRelease p order = some s' ∧ s'.Good loc' none ∧
      s.Closed s' p loc loc' := by
  obtain ⟨s₁, loc₁, hs₁, h₁, hf⟩ := h.freeThreads order
  have h₂ := h₁.dropNodes p
  obtain ⟨s₃, loc₃, hs₃, h₃, hquiet, hloc₃⟩ := h₂.releaseProc p
  have htodo : s₃.todo (.proc p) = [] := by
    rw [hquiet.todo]
    rcases todo_setTodo_self (s₁.dropNodes p) (.proc p) [] with hnil | ⟨-, hnil⟩ <;> exact hnil
  have hnodes : ∀ m, s₃.nodes m = (s.nodes m).map (orphan p) := by
    intro m
    rw [congrFun hquiet.nodes m, ← hf.nodes]
    rfl
  -- no thread and no node of the process is left
  have hthread : ∀ th r, s₃.threads th = some r → r.proc ≠ p := by
    intro th r hr hp
    obtain ⟨r₂, hr₂, hproc, -⟩ := hquiet.thread hr
    have hth := hf.threads th
    have hr₁ : s₁.threads th = some r₂ := hr₂
    rw [hr₁] at hth
    split_ifs at hth with hmem
    · cases hth
    · grind [map_eq_some_iff]
  have hnode : ∀ m nd, s₃.nodes m = some nd → nd.proc ≠ some p := by
    intro m nd hnd
    rw [hnodes] at hnd
    obtain ⟨nd₀, -, rfl⟩ := map_eq_some_iff.1 hnd
    unfold orphan
    split_ifs with hp
    · simp
    · exact hp
  have hclear : s₃.Cleared loc₃ p := by
    intro t q hq hp
    cases q with
    | thread th =>
      obtain ⟨r, hr, hproc⟩ := map_eq_some_iff.1 hp
      exact hthread th r hr hproc
    | proc j =>
      obtain ⟨l, -, rfl⟩ := map_eq_some_iff.1 hp
      have hmem := ((h₃.stocked.lists _).mem_iff t).2 hq
      simp [waiting, htodo] at hmem
    | node m =>
      obtain ⟨nd, hnd, hproc⟩ := bind_eq_some_iff.1 hp
      exact hnode m nd hnd hproc
  obtain ⟨s₄, hs₄, h₄, hp₄, hn₄, ht₄, hl₄, hb₄⟩ := h₃.freeBuffers (List.range s₃.next) hclear
  have htodo₄ : s₄.todo (.proc p) = [] := by
    rw [todo, hp₄]
    exact htodo
  refine ⟨_, loc₃, ?_, h₄.removeProc htodo₄ (ht₄.symm ▸ hthread) (hn₄.symm ▸ hnode),
    fun m ↦ ?_, fun b ↦ ?_, ?_, fun u ↦ ?_⟩
  · simp only [Flow.deferredRelease, hs₁, bind_eq_bind, bind_some, hs₃, hs₄]
    rfl
  · rw [← hnodes, ← hn₄]
  · have hbuf : (s₃.buffers b).map untied = (s.buffers b).map untied :=
      (hquiet.buffers b).trans (hf.buffers b)
    have hs' : s₄.buffers b = (s₃.buffers b).filter fun buf ↦
        ¬ (b ∈ List.range s₃.next ∧ buf.proc = p) := hb₄ b
    rw [← hbuf]
    show (s₄.buffers b).map untied = _
    rw [hs']
    cases hb : s₃.buffers b with
    | none => rfl
    | some buf =>
      have hlt := h₃.stocked.buffer_lt_next hb
      by_cases hp : buf.proc = p
      · simp [Option.filter, hp, hlt, untied]
      · simp [Option.filter, hp, untied]
  · show s₄.log.filter FlowEvent.isAsync = _
    rw [hl₄]
    exact hquiet.log.trans hf.log
  · rcases hloc₃ u with hu | ⟨hu, hnone⟩
    · rcases hf.loc u with hu' | ⟨⟨th, hth, hu'⟩, hnone⟩
      · exact .inl (hu.trans hu')
      · obtain ⟨r, hr, hp⟩ := (horder th).1 hth
        refine .inr ⟨⟨.thread th, hu', by simp [owner, hr, hp], by simp⟩, hu.trans hnone⟩
    · rcases hf.loc u with hu' | ⟨-, hgone⟩
      · refine .inr ⟨⟨.proc p, hu'.symm.trans hu, ?_, by simp⟩, hnone⟩
        -- an entry of the list shows that the process was open
        have hmem := ((h.stocked.lists (.proc p)).mem_iff u).2 (hu'.symm.trans hu)
        cases hp : s.procs p with
        | none => simp [waiting, todo, hp] at hmem
        | some l => simp [owner, hp]
      · cases hgone.symm.trans hu

theorem Closed.effect (h : s.Closed s' p loc loc') (hs : s.Stocked loc) (hsingle : s.Single loc n) :
    Effect (∀ nd, s.nodes n = some nd → nd.proc ≠ some p) n (s.view n) (s'.view n) loc loc' := by
  have hlog := asyncLog_congr h.log n
  -- the buffers of the process are gone, the others are there
  have hstate : ∀ {b buf}, s.buffers b = some buf →
      s'.asyncState n b = if buf.proc = p then none else s.asyncState n b := by
    intro b buf hb
    have hmap := h.buffers b
    rw [hb] at hmap
    split_ifs with hp
    · refine asyncState_of_no_buffer (map_eq_none_iff.1 (hmap.trans ?_))
      simp [Option.filter, untied, hp]
    · refine asyncState_congr (hmap.trans ?_) n
      simp [Option.filter, untied, hp, hb]
  have hnobuf : ∀ {b}, s.buffers b = none → s'.asyncState n b = none := by
    intro b hb
    have hmap := h.buffers b
    rw [hb] at hmap
    exact asyncState_of_no_buffer (map_eq_none_iff.1 hmap)
  by_cases hown : ∀ nd, s.nodes n = some nd → nd.proc ≠ some p
  · -- a buffer for the node belongs to its owner, who is another process
    have hproc : ∀ {b}, s.asyncState n b ≠ none → ∃ buf, s.buffers b = some buf ∧ buf.proc ≠ p := by
      intro b hb
      obtain ⟨c, hc⟩ := ne_none_iff_exists'.1 hb
      obtain ⟨buf, hbuf, -, hn, -⟩ := asyncState_eq_some.1 hc
      obtain ⟨nd, i, hnd, hi⟩ := hsingle.housed hb
      obtain ⟨nd', hnd', hi'⟩ := hs.target hbuf hn
      obtain rfl : nd' = nd := Option.mem_unique hnd' hnd
      refine ⟨buf, hbuf, fun hp ↦ hown nd' hnd (hi.trans ?_)⟩
      rw [hi' i hi, hp]
    have hnode : s'.nodes n = s.nodes n := by
      rw [h.nodes]
      cases hnd : s.nodes n with
      | none => rfl
      | some nd =>
        rw [map_some, orphan, if_neg (hown nd hnd)]
    have hview : s'.view n = s.view n := by
      have hst : s'.asyncState n = s.asyncState n := by
        funext b
        by_cases hb : s.asyncState n b = none
        · rw [hb]
          cases hbuf : s.buffers b with
          | none => exact hnobuf hbuf
          | some buf =>
            rw [hstate hbuf, hb, ite_self]
        · grind
      rw [view, hnode, hst, hlog, view]
    refine .passive hview (fun b _ ↦ ?_) fun _ b hb ↦ ?_
    · grind [h.loc]
    · rcases h.loc b with hsame | ⟨⟨q, hq, hq', -⟩, -⟩
      · exact hsame
      · obtain ⟨buf, hbuf, hp⟩ := hproc hb
        obtain ⟨x, buf', hc⟩ := hs.carried hq hq'
        cases hbuf.symm.trans hc.found
        exact absurd hc.proc hp
  · obtain ⟨nd, hnd, hp⟩ : ∃ nd, s.nodes n = some nd ∧ nd.proc = some p := by
      simpa using hown
    refine .closed hown nd hnd ?_ (fun b ↦ ?_) hlog
    · show s'.nodes n = _
      rw [h.nodes, hnd, map_some, orphan, if_pos hp]
    · show s'.asyncState n b = none
      cases hbuf : s.buffers b with
      | none => exact hnobuf hbuf
      | some buf =>
        rw [hstate hbuf]
        split_ifs with hbp
        · rfl
        · by_contra hb
          obtain ⟨c, hc⟩ := ne_none_iff_exists'.1 hb
          obtain ⟨buf', hbuf', -, hn, -⟩ := asyncState_eq_some.1 hc
          cases hbuf.symm.trans hbuf'
          obtain ⟨nd', hnd', hi'⟩ := hs.target hbuf hn
          cases hnd'.symm.trans hnd
          exact hbp (hi' p hp).symm

/-! ### Setting up -/

section

variable (h : s.Good loc none)
include h

theorem Good.openProc : s.Done (fun _ ↦ True) s.openProc loc loc := by
  have hfresh := h.stocked.fresh (le_refl s.next)
  have hopen : ∀ {i}, (s.procs i).isSome = true → (s.openProc.procs i).isSome = true := by
    intro i hi
    by_cases hin : i = s.next
    · grind
    · simpa [Flow.openProc, hin] using hi
  obtain ⟨htodo, hown⟩ := todo_owner_of_empty s s.openProc (.proc s.next)
    (by simp [todo, hfresh.2.2.2.1]) (by simp [todo, Flow.openProc]) fun q hq ↦ by
      cases q <;> simp_all [todo, owner, Flow.openProc]
  refine ⟨⟨h.stocked.extend rfl rfl (Nat.le_succ _) htodo hown (fun i hi ↦ ?_)
    (fun th r hr ↦ hopen (h.stocked.threadProc hr))
    (fun m nd i hm hi ↦ hopen (h.stocked.nodeProc hm hi)) (fun m nd hm ↦ ⟨nd, hm, fun _ h ↦ h⟩)
    (fun m ↦ h.stocked.mgr) fun i hd m ↦ h.stocked.handle, ?_, ?_⟩, fun n ↦ effect_of_view rfl⟩
  · have hlt : s.next < i := hi
    obtain ⟨-, -, h3, h4, h5, -⟩ := h.stocked.fresh hlt.le
    exact ⟨h3, (update_of_ne hlt.ne' ..).trans h4, h5⟩
  · exact h.sound.congr rfl rfl (pending_congr rfl htodo)
  · exact h.logged.extend rfl rfl (Nat.le_succ _)

theorem Good.getThread (p : ℕ) : s.Done (fun _ ↦ True) (s.getThread p) loc loc := by
  unfold Flow.getThread
  split_ifs with hp
  · have hfresh := h.stocked.fresh (le_refl s.next)
    obtain ⟨htodo, hown⟩ := todo_owner_of_empty s { s with
        threads := update s.threads s.next (some { proc := p })
        next := s.next + 1 } (.thread s.next) (by simp [todo, hfresh.2.2.1]) (by simp [todo])
      fun q hq ↦ by cases q <;> simp_all [todo, owner]
    refine ⟨⟨h.stocked.extend rfl rfl (Nat.le_succ _) htodo hown (fun i hi ↦ ?_)
      (fun th r hr ↦ ?_) (fun m nd i ↦ h.stocked.nodeProc) (fun m nd hm ↦ ⟨nd, hm, fun _ h ↦ h⟩)
      (fun m ↦ h.stocked.mgr) fun i hd m ↦ h.stocked.handle, ?_, ?_⟩, fun n ↦ effect_of_view rfl⟩
    · have hlt : s.next < i := hi
      obtain ⟨-, -, h3, h4, h5, -⟩ := h.stocked.fresh hlt.le
      exact ⟨(update_of_ne hlt.ne' ..).trans h3, h4, h5⟩
    · by_cases hth : th = s.next
      · grind
      · have hr' : s.threads th = some r := by simpa [hth] using hr
        exact h.stocked.threadProc hr'
    · have hnew : (s.calls none).top s.next = none := by simp [calls, hfresh.2.2.1]
      refine (h.sound.spawn hnew fun t L hL hcallee ↦ ?_).congr rfl (funext fun i ↦ ?_)
        (pending_congr rfl htodo)
      · obtain ⟨x, hx, -, rfl⟩ := link_eq_some.1 hL
        exact absurd (h.stocked.toThread hx hcallee) (lt_irrefl _)
      · by_cases hi : i = s.next
        · simp [calls, Calls.spawn, hi]
        · simp [calls, Calls.spawn, hi]
    · exact h.logged.extend rfl rfl (Nat.le_succ _)
  · exact .of_quiet _ h (.refl s)

theorem Good.newNode (hp : (s.procs p).isSome = true) (mgr : Option ℕ)
    (hmgr : mgr = s.contextMgr ∨ mgr = some s.next) :
    s.Done (fun _ ↦ True) { s.newNode p with contextMgr := mgr } loc loc := by
  have hfresh := h.stocked.fresh (le_refl s.next)
  have hnew : s.newNode p = { s with
      nodes := update s.nodes s.next (some { proc := some p })
      next := s.next + 1 } := if_pos hp
  rw [hnew]
  have hkeep : ∀ {m nd}, s.nodes m = some nd →
      update s.nodes s.next (some { proc := some p }) m = some nd := by grind
  have hsome : ∀ {m}, (s.nodes m).isSome = true →
      (update s.nodes s.next (some { proc := some p }) m).isSome = true := by grind
  obtain ⟨htodo, hown⟩ := todo_owner_of_empty s { s with
      nodes := update s.nodes s.next (some { proc := some p })
      next := s.next + 1
      contextMgr := mgr } (.node s.next) (by simp [todo, hfresh.2.2.2.2.1]) (by simp [todo])
    fun q hq ↦ by cases q <;> simp_all [todo, owner]
  refine ⟨⟨h.stocked.extend rfl rfl (Nat.le_succ _) htodo hown (fun i hi ↦ ?_)
    (fun th r ↦ h.stocked.threadProc) (fun m nd i hm hi ↦ ?_)
    (fun m nd hm ↦ ⟨nd, hkeep hm, fun _ h ↦ h⟩) (fun m hm ↦ ?_)
    fun i hd m hm ↦ hsome (h.stocked.handle hm), ?_, ?_⟩, fun n ↦ ?_⟩
  · have hlt : s.next < i := hi
    obtain ⟨-, -, h3, h4, h5, -⟩ := h.stocked.fresh hlt.le
    exact ⟨h3, h4, (update_of_ne hlt.ne' ..).trans h5⟩
  · by_cases hmn : m = s.next
    · grind
    · have hm' : s.nodes m = some nd := by simpa [hmn] using hm
      exact h.stocked.nodeProc hm' hi
  · rcases hmgr with rfl | rfl
    · exact hsome (h.stocked.mgr hm)
    · grind
  · exact h.sound.congr rfl rfl (pending_congr rfl htodo)
  · exact h.logged.extend rfl rfl (Nat.le_succ _)
  · by_cases hn : n = s.next
    · subst hn
      refine .created p hfresh.2.2.2.2.1 (update_self ..) (fun b ↦ ?_) rfl
      -- a buffer for the node would show that the node was there
      show s.asyncState s.next b = none
      by_contra hb
      obtain ⟨c, hc⟩ := ne_none_iff_exists'.1 hb
      obtain ⟨buf, hbuf, -, htarget, -⟩ := asyncState_eq_some.1 hc
      obtain ⟨nd, hnd, -⟩ := h.stocked.target hbuf htarget
      cases hfresh.2.2.2.2.1.symm.trans hnd
    · refine effect_of_view (view_congr (update_of_ne hn ..) (fun _ ↦ rfl) rfl)

theorem Good.learn (p handle n : ℕ) : s.Done (fun _ ↦ True) (s.learn p handle n) loc loc := by
  unfold Flow.learn
  split_ifs with hn
  · refine ⟨⟨h.stocked.extend rfl rfl le_rfl (fun _ ↦ rfl) (fun _ _ _ hq ↦ hq) (fun i hi ↦ ?_)
      (fun th r ↦ h.stocked.threadProc) (fun m nd i ↦ h.stocked.nodeProc)
      (fun m nd hm ↦ ⟨nd, hm, fun _ h ↦ h⟩) (fun m ↦ h.stocked.mgr) fun i hd m hm ↦ ?_, ?_, ?_⟩,
      fun m ↦ effect_of_view rfl⟩
    · obtain ⟨-, -, h3, h4, h5, -⟩ := h.stocked.fresh hi
      exact ⟨h3, h4, h5⟩
    · by_cases hi : i = p
      · subst hi
        by_cases hhd : hd = handle
        · subst hhd
          obtain rfl : n = m := by simpa using hm
          exact hn
        · have hm' : s.handles i hd = some m := by simpa [hhd] using hm
          exact h.stocked.handle hm'
      · have hm' : s.handles i hd = some m := by simpa [hi] using hm
        exact h.stocked.handle hm'
    · exact h.sound.congr rfl rfl fun _ hp ↦ hp
    · exact h.logged.extend rfl rfl le_rfl
  · exact .of_quiet _ h (.refl s)

end

/-! ### Any step -/

/-- **The step loses no one-way transaction of the node**: no thread exits with one on its list, and
the owner of the node stays. -/
def Orderly (s : Flow) (n : ℕ) : FlowOp → Prop
  | .exit th => ∀ t ∈ s.waiting (.thread th), s.asyncState n t = none
  | .release p _ => ∀ nd, s.nodes n = some nd → nd.proc ≠ some p
  | _ => True

/-- **The invariant of a binder.** -/
structure Kept (s : Flow) (loc : ℕ → Option WorkList) : Prop where
  good : s.Good loc none
  single : ∀ n, s.Single loc n
  blank : ∀ n, s.nodes n = none → s.asyncLog n = []

/-- **What a step does**, unless a thread calls itself. -/
theorem Kept.done {op : FlowOp} (h : s.Kept loc) (hallowed : s.Allowed op) (hcalm : s.Calm op) :
    ∃ s' loc', s.step op = some s' ∧ s.Done (fun n ↦ s.Orderly n op) s' loc loc' := by
  cases op with
  | openProc => exact ⟨_, loc, rfl, h.good.openProc⟩
  | getThread p => exact ⟨_, loc, rfl, h.good.getThread p⟩
  | newNode p =>
    refine ⟨_, loc, rfl, ?_⟩
    by_cases hp : (s.procs p).isSome = true
    · have hdone := h.good.newNode hp s.contextMgr (.inl rfl)
      have hid : ({ s.newNode p with contextMgr := s.contextMgr } : Flow) = s.newNode p := by
        simp [newNode, hp]
      exact hid ▸ hdone
    · rw [newNode, if_neg hp]
      exact .of_quiet _ h.good (.refl s)
  | setContextMgr p =>
    refine ⟨_, loc, rfl, ?_⟩
    unfold setContextMgr
    split_ifs with hp
    · exact h.good.newNode hp.2 (some s.next) (.inr rfl)
    · exact .of_quiet _ h.good (.refl s)
  | learn p handle n => exact ⟨_, loc, rfl, h.good.learn p handle n⟩
  | transaction th handle oneWay fits => exact h.good.transaction hcalm
  | reply th oneWay fits => exact h.good.reply th oneWay fits
  | read th room => exact h.good.threadRead th room
  | freeBuffer th b => exact h.good.freeBuffer h.single th b
  | exit th => exact h.good.exit th
  | release p order =>
    obtain ⟨s', loc', hs', hg, hclosed⟩ := h.good.deferredRelease hallowed
    exact ⟨s', loc', hs', hg, fun n ↦ hclosed.effect h.good.stocked (h.single n)⟩

/-- **Every step keeps the invariant**, unless a thread calls itself. -/
theorem Kept.step {op : FlowOp} (h : s.Kept loc) (hallowed : s.Allowed op) (hcalm : s.Calm op) :
    ∃ s' loc', s.step op = some s' ∧ s'.Kept loc' ∧
      ∀ n, Effect (s.Orderly n op) n (s.view n) (s'.view n) loc loc' := by
  obtain ⟨s', loc', hs', hdone⟩ := h.done hallowed hcalm
  refine ⟨s', loc', hs', ⟨hdone.good, fun n ↦ (h.single n).step h.good.stocked (hdone.effect n),
    fun n hn ↦ ?_⟩, hdone.effect⟩
  have he := hdone.effect n
  have hnone : ∀ {nd}, (s'.view n).node = some nd → False := fun hnd ↦
    absurd (hn.symm.trans hnd) (by simp)
  cases he with
  | passive hview hplace hmove =>
    have hold : s.nodes n = none := (congrArg AsyncView.node hview).symm.trans hn
    exact (congrArg AsyncView.log hview).trans (h.blank n hold)
  | created p hold hnew => exact (hnone hnew).elim
  | closed hwild nd hold hnew => exact (hnone hnew).elim
  | sent t p nd hold hproc hfresh hnew => exact (hnone hnew).elim
  | delivered t q hq hnot hold hnew =>
    obtain ⟨nd, p, hnd, -⟩ := (h.single n).housed (ne_of_eq_of_ne hold (by simp))
    exact (hnone (hnew.trans hnd)).elim
  | freed t nd hnd hold htodo hnew => exact (hnone hnew).elim
  | turn t u th rest nd hnd hold htodo hnew => exact (hnone hnew).elim

/-- The driver before the first `binder_open`. -/
theorem kept_empty : empty.Kept fun _ ↦ none where
  good :=
    { stocked :=
        { lists := fun q ↦ by
            have hnil : empty.waiting q = [] := by cases q <;> rfl
            rw [hnil]
            exact ⟨List.nodup_nil, fun a ↦ by simp⟩
          carried := nofun
          tied := ⟨nofun, nofun⟩
          fresh := fun _ ↦ ⟨rfl, rfl, rfl, rfl, rfl, rfl⟩
          toThread := nofun
          sync := nofun
          threadProc := nofun
          nodeProc := nofun
          target := nofun
          mgr := nofun
          handle := fun hn ↦ by cases hn }
      sound := Calls.sound_empty.congr rfl rfl fun t hp ↦ by
        obtain ⟨-, x, hx, -⟩ := hp
        cases hx
      logged :=
        { nodup := List.nodup_nil
          lt_next := fun c hc ↦ by cases hc
          sender := nofun
          answered := fun c hc ↦ by cases hc
          once := List.nodup_nil } }
  single := fun n ↦ single_of_state (fun _ ↦ rfl) nofun nofun
  blank := fun _ _ ↦ rfl

end Flow

end Binder
