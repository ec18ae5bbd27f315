import MerrukKernel.Binder.Queued

/-!
# One-way transactions of a node

A node lets one one-way transaction out at a time. The first goes to the list of the process that
owns the node, and `has_async_transaction` is set; later ones wait on `async_todo`, and whoever
frees the buffer of the one that is out gets the next.

What a step can do to the one-way transactions of a node is the relation `Effect`: nothing at all
in most cases, else accept one, deliver one or free one. Two facts follow from that alone:

* `Single`, of every run: at most one is out, and while it is the flag is set;
* `Line`, of the runs in which no thread goes with one of them in its hands: what was sent is what
  was freed, then the one that is out, then what waits, in this order.
-/

namespace Binder

open Placement Function List FlowEvent

/-- The node whose one-way transaction an event is about. -/
def FlowEvent.node? : FlowEvent → Option ℕ
  | .sent n _ | .delivered n _ | .freed n _ => some n
  | _ => none

/-- The transaction that an event tells to have been sent. -/
def FlowEvent.sent? : FlowEvent → Option ℕ
  | .sent _ t => some t
  | _ => none

/-- The transaction that an event tells to have been delivered. -/
def FlowEvent.delivered? : FlowEvent → Option ℕ
  | .delivered _ t => some t
  | _ => none

/-- The transaction whose buffer an event tells to have been freed. -/
def FlowEvent.freed? : FlowEvent → Option ℕ
  | .freed _ t => some t
  | _ => none

/-- For the buffer of a one-way transaction to the node, whether its receiver may free it yet. -/
def TransactionBuffer.asyncState (n : ℕ) (buf : TransactionBuffer) : Option Bool :=
  if buf.asyncTransaction = true ∧ buf.targetNode = some n then some buf.allowUserFree else none

namespace Flow

variable {s s' : Flow} {loc loc' : ℕ → Option WorkList} {t b th p n : ℕ} {q : WorkList}

/-- The buffers of the one-way transactions to a node. -/
def asyncState (s : Flow) (n b : ℕ) : Option Bool :=
  (s.buffers b).bind (TransactionBuffer.asyncState n)

/-- What has happened to the one-way transactions of a node. -/
def asyncLog (s : Flow) (n : ℕ) : List FlowEvent := s.log.filter fun e ↦ e.node? = some n

/-- The one-way transactions accepted for a node, in order. -/
def sentTo (s : Flow) (n : ℕ) : List ℕ := (s.asyncLog n).filterMap FlowEvent.sent?

/-- The one-way transactions of a node delivered so far, in order. -/
def deliveredFrom (s : Flow) (n : ℕ) : List ℕ := (s.asyncLog n).filterMap FlowEvent.delivered?

/-- The one-way transactions of a node that their receivers are done with, in order. -/
def freedFrom (s : Flow) (n : ℕ) : List ℕ := (s.asyncLog n).filterMap FlowEvent.freed?

/-- A one-way transaction of the node that does not wait there. -/
def Out (s : Flow) (loc : ℕ → Option WorkList) (n t : ℕ) : Prop :=
  s.asyncState n t ≠ none ∧ loc t ≠ some (.node n)

theorem asyncState_congr (h : (s'.buffers b).map untied = (s.buffers b).map untied) (n : ℕ) :
    s'.asyncState n b = s.asyncState n b := by
  have hread : ∀ s : Flow,
      s.asyncState n b = ((s.buffers b).map untied).bind (TransactionBuffer.asyncState n) := by
    intro s
    rw [Option.bind_map]
    rfl
  rw [hread, hread, h]

theorem asyncState_eq_some {c : Bool} :
    s.asyncState n b = some c ↔ ∃ buf, s.buffers b = some buf ∧ buf.asyncTransaction = true ∧
      buf.targetNode = some n ∧ buf.allowUserFree = c := by
  simp only [asyncState, Option.bind_eq_some_iff, TransactionBuffer.asyncState]
  constructor
  · grind
  · grind

variable {buf : TransactionBuffer}

theorem asyncState_of_buffer (hb : s.buffers b = some buf)
    (hasync : buf.asyncTransaction = true) (hn : buf.targetNode = some n) :
    s.asyncState n b = some buf.allowUserFree :=
  asyncState_eq_some.2 ⟨buf, hb, hasync, hn, rfl⟩

theorem asyncState_eq_none (hb : s.buffers b = some buf)
    (h : ¬ (buf.asyncTransaction = true ∧ buf.targetNode = some n)) : s.asyncState n b = none := by
  rw [asyncState, hb]
  exact if_neg h

theorem asyncState_of_no_buffer (hb : s.buffers b = none) : s.asyncState n b = none := by
  simp [asyncState, hb]

theorem asyncLog_congr (h : s'.log.filter isAsync = s.log.filter isAsync)
    (n : ℕ) : s'.asyncLog n = s.asyncLog n := by
  have hread : ∀ s : Flow, s.asyncLog n =
      (s.log.filter isAsync).filter fun e ↦ e.node? = some n := by
    intro s
    rw [filter_filter]
    refine filter_congr fun e _ ↦ ?_
    cases e <;> simp [node?, isAsync]
  rw [hread, hread, h]

/-! ### What a step can do -/

end Flow

/-- What there is to know of the one-way transactions of a node. -/
structure AsyncView where
  node : Option AsyncNode
  state : ℕ → Option Bool
  log : List FlowEvent

/-- **What a step can do** to the one-way transactions of a node; `orderly` is what it takes for
none of them to get lost. -/
inductive AsyncView.Effect (orderly : Prop) (n : ℕ) (v v' : AsyncView)
    (loc loc' : ℕ → Option WorkList) : Prop
  /-- Nothing happens, but that some may get lost. -/
  | passive (hview : v' = v)
      (hplace : ∀ b, v.state b ≠ none → (loc' b = some (.node n) ↔ loc b = some (.node n)))
      (hmove : orderly → ∀ b, v.state b ≠ none → loc' b = loc b)
  /-- The node is new. -/
  | created (p : ℕ) (hold : v.node = none) (hnew : v'.node = some { proc := some p })
      (hstate : ∀ b, v'.state b = none) (hlog : v'.log = v.log)
  /-- The owner of the node is gone. -/
  | closed (hwild : ¬ orderly) (nd : AsyncNode) (hold : v.node = some nd)
      (hnew : v'.node = some { nd with proc := none }) (hstate : ∀ b, v'.state b = none)
      (hlog : v'.log = v.log)
  /-- A transaction is accepted. -/
  | sent (t p : ℕ) (nd : AsyncNode) (hold : v.node = some nd) (hproc : nd.proc = some p)
      (hfresh : v.state t = none)
      (hnew : v'.node = some (if nd.hasAsyncTransaction then
        { nd with asyncTodo := nd.asyncTodo ++ [.transaction t] }
        else { nd with hasAsyncTransaction := true }))
      (hstate : v'.state = update v.state t (some false))
      (hloc : loc' = update loc t
        (some (if nd.hasAsyncTransaction then .node n else .proc p)))
      (hlog : v'.log = v.log ++ [.sent n t])
  /-- The transaction that is out is delivered. -/
  | delivered (t : ℕ) (q : WorkList) (hq : loc t = some q) (hnot : ∀ m, q ≠ .node m)
      (hold : v.state t = some false) (hnew : v'.node = v.node)
      (hstate : v'.state = update v.state t (some true))
      (hloc : loc' = update loc t none) (hlog : v'.log = v.log ++ [.delivered n t])
  /-- Its buffer is freed, and there is no other. -/
  | freed (t : ℕ) (nd : AsyncNode) (hnd : v.node = some nd) (hold : v.state t = some true)
      (htodo : nd.asyncTodo = [])
      (hnew : v'.node = some { nd with hasAsyncTransaction := false })
      (hstate : v'.state = update v.state t none) (hloc : loc = loc')
      (hlog : v'.log = v.log ++ [.freed n t])
  /-- Its buffer is freed, and the next one goes to the thread that did it. -/
  | turn (t u th : ℕ) (rest : List Work) (nd : AsyncNode) (hnd : v.node = some nd)
      (hold : v.state t = some true) (htodo : nd.asyncTodo = .transaction u :: rest)
      (hnew : v'.node = some { nd with asyncTodo := rest })
      (hstate : v'.state = update v.state t none)
      (hloc : loc' = update loc u (some (.thread th)))
      (hlog : v'.log = v.log ++ [.freed n t])

open AsyncView

namespace Flow

/-- The one-way transactions of a node, as a state has them. -/
def view (s : Flow) (n : ℕ) : AsyncView := ⟨s.nodes n, s.asyncState n, s.asyncLog n⟩

variable {s s' : Flow} {loc loc' : ℕ → Option WorkList} {t b th p n : ℕ} {q : WorkList}

theorem view_congr (hnode : s'.nodes n = s.nodes n)
    (hbuf : ∀ b, (s'.buffers b).map untied = (s.buffers b).map untied)
    (hlog : s'.log.filter isAsync = s.log.filter isAsync) :
    s'.view n = s.view n := by
  have hstate : s'.asyncState n = s.asyncState n := funext fun b ↦ asyncState_congr (hbuf b) n
  rw [view, view, hnode, hstate, asyncLog_congr hlog]

theorem Quiet.view (h : s.Quiet s') (n : ℕ) : s'.view n = s.view n :=
  view_congr (congrFun h.nodes n) h.buffers h.log

variable {orderly : Prop} {nd : AsyncNode} {out : Option ℕ}

/-- Nothing moves. -/
theorem effect_of_view (h : s'.view n = s.view n) :
    Effect orderly n (s.view n) (s'.view n) loc loc :=
  .passive h (fun _ _ ↦ .rfl) fun _ _ _ ↦ rfl

/-! ### At most one is out -/

/-- **At most one transaction of a node is out.** -/
structure Single (s : Flow) (loc : ℕ → Option WorkList) (n : ℕ) : Prop where
  one : ∀ {t u}, s.Out loc n t → s.Out loc n u → t = u
  /-- While there are any, the node has an owner. -/
  housed : ∀ {t}, s.asyncState n t ≠ none → ∃ nd p, s.nodes n = some nd ∧ nd.proc = some p
  flag : ∀ {t nd}, s.Out loc n t → s.nodes n = some nd → nd.hasAsyncTransaction = true
  /-- Nothing waits for its turn while nothing is out. -/
  idle : ∀ {nd}, s.nodes n = some nd → nd.hasAsyncTransaction = false → nd.asyncTodo = []
  entries : ∀ {nd w}, s.nodes n = some nd → w ∈ nd.asyncTodo → ∃ t, w = .transaction t

/-- A node without one-way transactions. -/
theorem single_of_state (hstate : ∀ b, s.asyncState n b = none)
    (hidle : ∀ {nd}, s.nodes n = some nd → nd.hasAsyncTransaction = false → nd.asyncTodo = [])
    (hentries : ∀ {nd w}, s.nodes n = some nd → w ∈ nd.asyncTodo → ∃ t, w = .transaction t) :
    s.Single loc n where
  one := fun ht _ ↦ absurd (hstate _) ht.1
  housed := fun ht ↦ absurd (hstate _) ht
  flag := fun ht _ ↦ absurd (hstate _) ht.1
  idle := hidle
  entries := hentries

theorem waiting_node (h : s.nodes n = some nd) :
    s.waiting (.node n) = nd.asyncTodo.filterMap Work.transaction? := by
  simp [waiting, todo, h]

/-- **Every step keeps it.** -/
theorem Single.step (h : s.Single loc n) (hs : s.Stocked loc)
    (he : Effect orderly n (s.view n) (s'.view n) loc loc') : s'.Single loc' n := by
  cases he with
  | passive hview hplace hmove =>
    obtain ⟨hnode, hstate, -⟩ := AsyncView.mk.inj hview
    dsimp only [view] at hplace
    have hout : ∀ {t}, s'.Out loc' n t → s.Out loc n t := fun {t} ht ↦
      ⟨hstate ▸ ht.1, fun hloc ↦ ht.2 ((hplace t (hstate ▸ ht.1)).2 hloc)⟩
    exact ⟨fun ht hu ↦ h.one (hout ht) (hout hu), fun ht ↦ hnode ▸ h.housed (hstate ▸ ht),
      fun ht hnd ↦ h.flag (hout ht) (hnode ▸ hnd), fun hnd ↦ h.idle (hnode ▸ hnd),
      fun hnd ↦ h.entries (hnode ▸ hnd)⟩
  | created p hold hnew hstate hlog =>
    refine single_of_state hstate (fun hnd _ ↦ ?_) fun hnd hw ↦ ?_
    · cases hnew.symm.trans hnd
      rfl
    · cases hnew.symm.trans hnd
      cases hw
  | closed hwild nd hold hnew hstate hlog =>
    refine single_of_state hstate (fun hnd hno ↦ ?_) fun hnd hw ↦ ?_
    · cases hnew.symm.trans hnd
      have hempty : nd.asyncTodo = [] := h.idle hold hno
      exact hempty
    · cases hnew.symm.trans hnd
      exact h.entries hold hw
  | sent t p nd hold hproc hfresh hnew hstate hloc hlog =>
    dsimp only [view] at hnew hstate
    -- the others are where they were; the new one is out only if the flag was not set
    have hout : ∀ {u}, s'.Out (update loc t
        (some (if nd.hasAsyncTransaction then .node n else .proc p))) n u →
        s.Out loc n u ∨ (u = t ∧ nd.hasAsyncTransaction = false) := by
      rintro u ⟨hu, hplace⟩
      by_cases hut : u = t
      · grind
      · rw [hstate, update_of_ne hut] at hu
        rw [update_of_ne hut] at hplace
        exact .inl ⟨hu, hplace⟩
    have hidle : ∀ {u}, nd.hasAsyncTransaction = false → ¬ s.Out loc n u := fun hno hu ↦
      absurd ((h.flag hu hold).symm.trans hno) (by simp)
    refine ⟨fun {u v} hu hv ↦ ?_, fun {u} _ ↦ ?_, fun {u nd'} _ hnd' ↦ ?_, fun {nd'} hnd' hno ↦ ?_,
      fun {nd' w} hnd' hw ↦ ?_⟩
    · grind [h.one]
    · grind
    · grind
    · grind
    · cases hnew.symm.trans hnd'
      split_ifs at hw with hhas
      · rcases mem_append.1 hw with hw | hw
        · exact h.entries hold hw
        · exact ⟨t, mem_singleton.1 hw⟩
      · exact h.entries hold hw
  | delivered t q hq hnot hold hnew hstate hloc hlog =>
    subst hloc
    dsimp only [view] at hold hnew hstate
    have hout : ∀ {u}, s'.Out (update loc t none) n u → s.Out loc n u := by
      rintro u ⟨hu, hplace⟩
      by_cases hut : u = t
      · subst hut
        exact ⟨by simp [hold], fun hloc ↦ hnot n (Option.mem_unique hq hloc)⟩
      · rw [hstate, update_of_ne hut] at hu
        rw [update_of_ne hut] at hplace
        exact ⟨hu, hplace⟩
    refine ⟨fun ht hu ↦ h.one (hout ht) (hout hu), fun {u} hu ↦ ?_,
      fun ht hnd ↦ h.flag (hout ht) (hnew ▸ hnd), fun hnd ↦ h.idle (hnew ▸ hnd),
      fun hnd ↦ h.entries (hnew ▸ hnd)⟩
    rw [hnew]
    exact h.housed (t := t) (by simp [hold])
  | freed t nd hnd hold htodo hnew hstate hloc hlog =>
    dsimp only [view] at hold hnew hstate
    -- nothing waits on the node, so that what there is was out, and has been freed
    have hplace : ∀ u, loc u ≠ some (.node n) := by
      intro u hu
      have hmem := ((hs.lists (.node n)).mem_iff u).2 hu
      rw [waiting_node hnd, htodo] at hmem
      cases hmem
    refine single_of_state (fun u ↦ ?_) (fun hnd' _ ↦ ?_) fun hnd' hw ↦ ?_
    · rw [hstate]
      by_cases hut : u = t
      · subst hut
        exact update_self ..
      · rw [update_of_ne hut]
        by_contra hu
        exact hut (h.one ⟨hu, hplace u⟩ ⟨by simp [hold], hplace t⟩)
    · grind
    · grind
  | turn t u th rest nd hnd hold htodo hnew hstate hloc hlog =>
    subst hloc
    dsimp only [view] at hnd hold hnew hstate
    obtain ⟨nd₀, p, hnd₀, hproc⟩ := h.housed (t := t) (by simp [hold])
    obtain rfl : nd₀ = nd := Option.mem_unique hnd₀ hnd
    -- what user space may free waits nowhere
    have ht : s.Out loc n t := by
      refine ⟨by simp [hold], fun hloc ↦ ?_⟩
      obtain ⟨x, buf, hc⟩ := hs.carried hloc (p := p) (by simp [owner, hnd, hproc])
      obtain ⟨buf', hbuf', -, -, hfree⟩ := asyncState_eq_some.1 hold
      obtain rfl : buf = buf' := Option.mem_unique hc.found hbuf'
      exact absurd (hc.unfreed.symm.trans hfree) (by simp)
    have hout : ∀ {v}, s'.Out (update loc u (some (.thread th))) n v → v = u := by
      rintro v ⟨hv, hplace⟩
      by_contra hvu
      rw [update_of_ne hvu] at hplace
      by_cases hvt : v = t
      · subst hvt
        rw [hstate, update_self] at hv
        exact hv rfl
      · rw [hstate, update_of_ne hvt] at hv
        exact hvt (h.one ⟨hv, hplace⟩ ht)
    refine ⟨fun hv hw ↦ (hout hv).trans (hout hw).symm, fun _ ↦ ⟨_, p, hnew, hproc⟩,
      fun _ hnd' ↦ ?_, fun hnd' hno ↦ ?_, fun hnd' hw ↦ ?_⟩
    · obtain rfl := Option.mem_unique hnew hnd'
      have hflag : nd₀.hasAsyncTransaction = true := h.flag ht hnd
      exact hflag
    · grind [h.flag]
    · cases hnew.symm.trans hnd'
      exact h.entries hnd (htodo ▸ mem_cons_of_mem _ hw)

/-! ### The order of delivery -/

/-- The transaction that is out, if there is one, waits for a reader or has been delivered. -/
inductive Phase (s : Flow) (loc : ℕ → Option WorkList) (n : ℕ) : Option ℕ → Prop
  | idle (h : s.deliveredFrom n = s.freedFrom n) : Phase s loc n none
  | queued (t : ℕ) (q : WorkList) (hq : loc t = some q) (hnot : ∀ m, q ≠ .node m)
      (hstate : s.asyncState n t = some false) (h : s.deliveredFrom n = s.freedFrom n) :
      Phase s loc n (some t)
  | delivered (t : ℕ) (hloc : loc t = none) (hstate : s.asyncState n t = some true)
      (h : s.deliveredFrom n = s.freedFrom n ++ [t]) : Phase s loc n (some t)

/-- **The one-way transactions of a node in line**: those that are over, the one that is out, those
that wait. -/
structure Line (s : Flow) (loc : ℕ → Option WorkList) (n : ℕ) (out : Option ℕ) : Prop where
  sent : s.sentTo n = s.freedFrom n ++ (out.toList ++ s.waiting (.node n))
  flag : ∀ {nd}, s.nodes n = some nd → nd.hasAsyncTransaction = out.isSome
  known : ∀ {t}, s.asyncState n t ≠ none → t ∈ out.toList ++ s.waiting (.node n)
  phase : s.Phase loc n out

theorem Phase.state (h : s.Phase loc n out) (ht : t ∈ out) : s.asyncState n t ≠ none := by
  cases h with
  | idle => cases ht
  | queued u q hq hnot hstate => grind
  | delivered u hloc hstate => grind

/-- A step that leaves the one-way transactions of the node alone. -/
theorem Phase.congr (h : s.Phase loc n out)
    (hdel : s'.deliveredFrom n = s.deliveredFrom n) (hfreed : s'.freedFrom n = s.freedFrom n)
    (hsame : ∀ t, s.asyncState n t ≠ none →
      loc' t = loc t ∧ s'.asyncState n t = s.asyncState n t) : s'.Phase loc' n out := by
  cases h with
  | idle hd => exact .idle (by rw [hdel, hfreed, hd])
  | queued t q hq hnot hstate hd =>
    obtain ⟨hloc', hstate'⟩ := hsame t (by simp [hstate])
    exact .queued t q (hloc'.trans hq) hnot (hstate'.trans hstate) (by rw [hdel, hfreed, hd])
  | delivered t hloc hstate hd =>
    obtain ⟨hloc', hstate'⟩ := hsame t (by simp [hstate])
    exact .delivered t (hloc'.trans hloc) (hstate'.trans hstate) (by rw [hdel, hfreed, hd])

theorem log_sent (h : s'.asyncLog n = s.asyncLog n ++ [.sent n t]) :
    s'.sentTo n = s.sentTo n ++ [t] ∧ s'.deliveredFrom n = s.deliveredFrom n ∧
      s'.freedFrom n = s.freedFrom n := by
  simp [sentTo, deliveredFrom, freedFrom, h, sent?, delivered?,
    freed?]

theorem log_delivered (h : s'.asyncLog n = s.asyncLog n ++ [.delivered n t]) :
    s'.sentTo n = s.sentTo n ∧ s'.deliveredFrom n = s.deliveredFrom n ++ [t] ∧
      s'.freedFrom n = s.freedFrom n := by
  simp [sentTo, deliveredFrom, freedFrom, h, sent?, delivered?,
    freed?]

theorem log_freed (h : s'.asyncLog n = s.asyncLog n ++ [.freed n t]) :
    s'.sentTo n = s.sentTo n ∧ s'.deliveredFrom n = s.deliveredFrom n ∧
      s'.freedFrom n = s.freedFrom n ++ [t] := by
  simp [sentTo, deliveredFrom, freedFrom, h, sent?, delivered?,
    freed?]

/-- **Every orderly step keeps the line.** -/
theorem Line.step (h : s.Line loc n out) (hs : s.Stocked loc)
    (h1 : s.Single loc n) (hnode : s.nodes n = some nd)
    (he : Effect True n (s.view n) (s'.view n) loc loc') :
    ∃ out', s'.Line loc' n out' := by
  cases he with
  | passive hview hplace hmove =>
    obtain ⟨hnew, hstate', hlog'⟩ := AsyncView.mk.inj hview
    have hmove := hmove trivial
    have hlog : s'.sentTo n = s.sentTo n ∧ s'.deliveredFrom n = s.deliveredFrom n ∧
        s'.freedFrom n = s.freedFrom n := by
      simp only [sentTo, deliveredFrom, freedFrom, hlog', and_self]
    have hwait : s'.waiting (.node n) = s.waiting (.node n) := by
      simp only [waiting, todo, hnew]
    refine ⟨out, ⟨?_, fun hnd ↦ h.flag (hnew ▸ hnd), fun {t} ht ↦ ?_, ?_⟩⟩
    · rw [hlog.1, hlog.2.2, hwait]
      exact h.sent
    · rw [hwait]
      exact h.known (hstate' ▸ ht)
    · exact h.phase.congr hlog.2.1 hlog.2.2 fun t ht ↦ ⟨hmove t ht, congrFun hstate' t⟩
  | created p hold => cases hold.symm.trans hnode
  | closed hwild => exact absurd trivial hwild
  | sent t p nd₀ hold hproc hfresh hnew hstate hloc hlog =>
    obtain rfl : nd₀ = nd := Option.mem_unique hold hnode
    subst hloc
    dsimp only [view] at hnew hstate
    obtain ⟨hsent, hdel, hfreed⟩ := log_sent hlog
    have hflag := h.flag hnode
    cases hhas : nd₀.hasAsyncTransaction with
    | true =>
      -- the new one is the last that waits
      rw [hhas, if_pos rfl] at hnew
      have hwait : s'.waiting (.node n) = s.waiting (.node n) ++ [t] := by
        rw [waiting_node hnew, waiting_node hnode, filterMap_append]
        rfl
      refine ⟨out, ⟨?_, fun hnd ↦ ?_, fun {u} hu ↦ ?_, ?_⟩⟩
      · rw [hsent, hfreed, hwait, h.sent]
        simp
      · grind
      · rw [hwait, ← append_assoc]
        by_cases hut : u = t
        · simp [hut]
        · rw [hstate, update_of_ne hut] at hu
          exact mem_append_left _ (h.known hu)
      · refine h.phase.congr hdel hfreed fun u hu ↦ ?_
        have hut : u ≠ t := by
          rintro rfl
          exact hu hfresh
        exact ⟨update_of_ne hut .., by rw [hstate, update_of_ne hut]⟩
    | false =>
      -- nothing is out and nothing waits: the new one goes out
      rw [hhas] at hnew
      obtain rfl : out = none := by grind [Option.isSome_eq_false_iff, Option.isNone_iff_eq_none]
      have hempty := h1.idle hnode hhas
      have hwait : s.waiting (.node n) = [] := by rw [waiting_node hnode, hempty]; rfl
      have hwait' : s'.waiting (.node n) = [] := by rw [waiting_node hnew, hempty]; rfl
      refine ⟨some t, ⟨?_, fun hnd ↦ ?_, fun {u} hu ↦ ?_, ?_⟩⟩
      · grind [h.sent]
      · grind
      · by_cases hut : u = t
        · simp [hut]
        · rw [hstate, update_of_ne hut] at hu
          have hmem := h.known hu
          rw [hwait] at hmem
          cases hmem
      · cases h.phase with
        | idle hd =>
          refine .queued t (.proc p) ?_ (by simp) ?_ (by rw [hdel, hfreed, hd])
          · rw [update_self, if_neg (by simp)]
          · rw [hstate, update_self]
  | delivered t q hq hnot hold hnew hstate hloc hlog =>
    subst hloc
    dsimp only [view] at hold hnew hstate
    obtain ⟨hsent, hdel, hfreed⟩ := log_delivered hlog
    have hwait : s'.waiting (.node n) = s.waiting (.node n) := by
      simp only [waiting, todo, hnew]
    -- it does not wait on the node, so it is the one that is out
    obtain rfl : out = some t := by
      rcases mem_append.1 (h.known (t := t) (by simp [hold])) with ht | ht
      · exact Option.mem_toList.1 ht
      · have hloc := ((hs.lists (.node n)).mem_iff t).1 ht
        exact absurd (Option.mem_unique hq hloc) (hnot n)
    refine ⟨some t, ⟨?_, fun hnd ↦ h.flag (hnew ▸ hnd), fun {u} hu ↦ ?_, ?_⟩⟩
    · rw [hsent, hfreed, hwait]
      exact h.sent
    · rw [hwait]
      by_cases hut : u = t
      · simp [hut]
      · rw [hstate, update_of_ne hut] at hu
        exact h.known hu
    · have hd : s.deliveredFrom n = s.freedFrom n := by
        cases h.phase with
        | queued _ _ _ _ _ hd => exact hd
        | delivered _ hnone => cases hnone.symm.trans hq
      refine .delivered t (update_self ..) ?_ (by rw [hdel, hfreed, hd])
      rw [hstate, update_self]
  | freed t nd₀ hnd hold htodo hnew hstate hloc hlog =>
    cases hnd.symm.trans hnode
    dsimp only [view] at hold hnew hstate
    obtain ⟨hsent, hdel, hfreed⟩ := log_freed hlog
    have hwait : s.waiting (.node n) = [] := by rw [waiting_node hnode, htodo]; rfl
    have hwait' : s'.waiting (.node n) = [] := by rw [waiting_node hnew, htodo]; rfl
    have hout : out = some t := by
      have hmem := h.known (t := t) (by simp [hold])
      rw [hwait, append_nil] at hmem
      exact Option.mem_toList.1 hmem
    subst hout
    refine ⟨none, ⟨?_, fun hnd' ↦ ?_, fun {u} hu ↦ ?_, ?_⟩⟩
    · grind [h.sent]
    · grind
    · by_cases hut : u = t
      · subst hut
        rw [hstate, update_self] at hu
        exact absurd rfl hu
      · rw [hstate, update_of_ne hut] at hu
        have hmem := h.known hu
        rw [hwait] at hmem
        simp [hut] at hmem
    · cases h.phase with
      | queued _ _ _ _ hold' => cases hold'.symm.trans hold
      | delivered _ _ _ hd => exact .idle (by rw [hdel, hfreed, hd])
  | turn t u th rest nd₀ hnd hold htodo hnew hstate hloc hlog =>
    obtain rfl : nd₀ = nd := Option.mem_unique hnd hnode
    subst hloc
    dsimp only [view] at hold hstate
    obtain ⟨hsent, hdel, hfreed⟩ := log_freed hlog
    have hwait : s.waiting (.node n) = u :: s'.waiting (.node n) := by
      rw [waiting_node hnode, waiting_node hnew, htodo]
      rfl
    obtain ⟨nd₁, p, hnd₁, hproc⟩ := h1.housed (t := t) (by simp [hold])
    obtain rfl : nd₁ = nd₀ := Option.mem_unique hnd₁ hnode
    have hwaits : ∀ {v}, v ∈ s.waiting (.node n) → s.asyncState n v = some false := by
      intro v hv
      have hloc := ((hs.lists (.node n)).mem_iff v).1 hv
      obtain ⟨x, buf, hc⟩ := hs.carried hloc (p := p) (by simp [owner, hnd₁, hproc])
      obtain ⟨hn, hasync⟩ := hc.node n rfl
      exact (asyncState_of_buffer hc.found hasync hn).trans (by rw [hc.unfreed])
    -- what user space may free does not wait on the node
    have hout : out = some t := by
      rcases mem_append.1 (h.known (t := t) (by simp [hold])) with ht | ht
      · exact Option.mem_toList.1 ht
      · exact absurd ((hwaits ht).symm.trans hold) (by simp)
    subst hout
    have hu := hwaits (v := u) (by rw [hwait]; simp)
    have hut : u ≠ t := by grind
    refine ⟨some u, ⟨?_, fun hnd' ↦ ?_, fun {v} hv ↦ ?_, ?_⟩⟩
    · rw [hsent, hfreed, h.sent, hwait]
      simp
    · obtain rfl := Option.mem_unique hnew hnd'
      have hflag : nd₁.hasAsyncTransaction = true := h.flag hnode
      exact hflag
    · by_cases hvt : v = t
      · subst hvt
        rw [hstate, update_self] at hv
        exact absurd rfl hv
      · rw [hstate, update_of_ne hvt] at hv
        have hmem := h.known hv
        rw [hwait] at hmem
        simpa [hvt] using hmem
    · cases h.phase with
      | queued _ _ _ _ hold' => cases hold'.symm.trans hold
      | delivered _ _ _ hd =>
        refine .queued u (.thread th) (update_self ..) (by simp) ?_ (by rw [hdel, hfreed, hd])
        rw [hstate, update_of_ne hut, hu]

end Flow

end Binder
