import MerrukKernel.Library.Trace
import MerrukKernel.Rpc.Message

/-!
# Who frees the buffer of a received message

`RPC_HandleEvent` allocates a result buffer, deserialises the packet into it and dispatches it;
the packet is freed at the end. The result buffer is freed by whoever gives back the last
reference to it (`RPC_SYSFreeResultDataBuffer`): the dispatcher itself, or the client whose
callback has been called, which may do so at once or at any later time.

What the handler does is written down as the list of its accesses to the buffer (`Act`), and the
clients that still owe a release act in between. Reads that are made for a trace only are told
apart from the others: `_DBG_` is on by default, and two traces read the buffer after it may have
been freed, one of them in `RPC_SYSFreeResultDataBuffer` right after `capi2_free`.
-/

open List

namespace Rpc

variable {P V : Type}

/-! ### Accesses to the result buffer -/

/-- What the handler does with the result buffer and the packet. -/
inductive Act
  /-- The buffer is read or written. -/
  | use
  /-- The buffer is read for a trace. -/
  | trace
  | setRef (n : ℕ)
  | incRef
  /-- A callback gets the buffer, and reads it. -/
  | call
  /-- `RPC_SYSFreeResultDataBuffer`. -/
  | free
  | freePacket
  /-- A null pointer is followed. -/
  | fault
  deriving DecidableEq

/-- A message on its way through the handler. -/
structure Delivery where
  /-- What the handler still has to do. -/
  prog : List Act
  /-- How many callbacks have been called and have not released the buffer. -/
  owed : ℕ := 0
  refCount : ℕ := 0
  /-- How often the buffer has been freed, and how often the packet. -/
  frees : ℕ := 0
  packetFrees : ℕ := 0
  /-- The buffer was used after it had been freed; it was read so for a trace. -/
  staleUse : Bool := false
  staleTrace : Bool := false

namespace Delivery

/-- The buffer is used. -/
def use (d : Delivery) : Delivery := { d with staleUse := d.staleUse || decide (0 < d.frees) }

/-- The buffer is read for a trace. -/
def trace (d : Delivery) : Delivery := { d with staleTrace := d.staleTrace || decide (0 < d.frees) }

/-- `RPC_SYSFreeResultDataBuffer`. -/
def freeResultDataBuffer (d : Delivery) : Delivery :=
  let d := d.trace.use
  if d.refCount = 0 then d
  else if d.refCount = 1 then { d with refCount := 0, frees := d.frees + 1 }.trace
  else { d with refCount := d.refCount - 1 }

/-- One access. -/
def act (d : Delivery) : Act → Delivery
  | .use => d.use
  | .trace => d.trace
  | .setRef n => { d.use with refCount := n }
  | .incRef => { d.use with refCount := d.refCount + 1 }
  | .call => { d.use with owed := d.owed + 1 }
  | .free => d.freeResultDataBuffer
  | .freePacket => { d with packetFrees := d.packetFrees + 1 }
  | .fault => { d with prog := [] }

end Delivery

/-- Either the handler goes on, or a client releases the buffer. -/
inductive DeliveryOp
  | handler
  | release

/-- The handler and the clients that it has called. -/
def deliveryMachine : Machine Delivery DeliveryOp where
  guard d
    | .handler => d.prog ≠ []
    | .release => 0 < d.owed
  exec d
    | .handler =>
      match d.prog with
      | [] => d
      | a :: rest => { d with prog := rest }.act a
    | .release => { d with owed := d.owed - 1 }.freeResultDataBuffer

instance decidableDeliveryGuard : ∀ d op, Decidable (deliveryMachine.guard d op)
  | d, .handler => inferInstanceAs (Decidable (d.prog ≠ []))
  | d, .release => inferInstanceAs (Decidable (0 < d.owed))

/-- The handler has come to its end, and every callback has released the buffer. -/
def Delivery.Complete (d : Delivery) : Prop := d.prog = [] ∧ d.owed = 0

/-! ### Dispatching -/

/-- `GetClientIndex`: the index, and whether the message is unsolicited. -/
def getClientIndex (s : System P) (m : Msg V) : ℕ × Bool :=
  let entry := s.fastLookup m.msgId.toNat
  let isAck := decide (m.msgId.toNat = msgCapi2AckRsp)
  let isUnsolicited := !isAck && entry.any fun e ↦ e.mask % 2 = 1
  let index := s.clientIds m.clientId.toNat
  if 0 < index ∧ index < maxRpcClients then (index, isUnsolicited)
  else if isAck then (m.clientIndex.toNat, isUnsolicited)
  else ((entry.filter fun e ↦ e.clientIndex < maxRpcClients).elim 0 (·.clientIndex), isUnsolicited)

/-- `RPC_TYPE_REQUEST`. -/
def rpcTypeRequest : UInt32 := 0

/-- A client that gets a broadcast. -/
def isRecipient (s : System P) (clientIndex i : ℕ) : Bool :=
  (s.clientMap i).respCb && (s.notifyUnsolicited i || clientIndex == i)

/-- The clients, in the order of the loops of a broadcast. -/
def clients (s : System P) : List ℕ := List.range' 1 s.clientIndex.toNat

/-- A broadcast. -/
def broadcast (s : System P) (clientIndex : ℕ) : List Act :=
  let recipients := (clients s).filter (isRecipient s clientIndex)
  [.trace, .setRef 0] ++ recipients.map (fun _ ↦ .incRef) ++ [.use] ++
    (clients s).flatMap (fun i ↦ if isRecipient s clientIndex i then [.trace, .call]
      else [.trace]) ++
    if recipients = [] then [.trace, .setRef 1, .free] else []

/-- The branch for a message of one client: a response that is not unsolicited and carries an id. -/
def isUnicast (s : System P) (m : Msg V) : Bool :=
  decide (0 < (getClientIndex s m).1) && (m.tid != 0 || m.clientId != 0) && !(getClientIndex s m).2

/-- `RPC_DispatchMsg`. -/
def dispatchMsg (s : System P) (m : Msg V) : List Act :=
  let clientIndex := (getClientIndex s m).1
  [.setRef 1, .use] ++ if m.msgId.toNat = msgCapi2AckRsp then
      if (s.clientMap clientIndex).ackCb then
        if m.dataBuf.isSome then [.use, .free] else [.use, .fault]
      else []
    else if m.msgType = rpcTypeRequest then
      if (s.clientMap clientIndex).reqCb then [.call] else []
    else if isUnicast s m then
      [.trace] ++ if (s.clientMap clientIndex).respCb then [.call] else []
    else if (m.tid = 0 ∧ m.clientId = 0) ∨ (getClientIndex s m).2 then broadcast s clientIndex
    else [.trace, .free]

/-- `RPC_HandleEvent`: `mem` says whether there is memory for the result buffer, `memPayload`
whether there is for the payload. -/
def handleEvent (s : System P) (procs : Procs P V) (mem memPayload : Bool) (packet : List UInt8) :
    Delivery where
  prog :=
    (if mem then
      [.setRef 1, .use] ++ match deserializeMsg s procs memPayload packet with
        | (true, m) => dispatchMsg s m
        | (false, _) => []
    else []) ++ [.freePacket]

/-! ### What becomes of the references -/

/-- What is done before the buffer is handed out. -/
def Act.IsSetup : Act → Prop
  | .use | .trace | .setRef _ | .incRef => True
  | _ => False

/-- What is done from then on. -/
def Act.IsTail : Act → Prop
  | .trace | .call | .free | .freePacket => True
  | _ => False

/-- The count that the first part leaves. -/
def refAfter : List Act → ℕ → ℕ
  | [], n => n
  | .setRef k :: acts, _ => refAfter acts k
  | .incRef :: acts, n => refAfter acts (n + 1)
  | _ :: acts, n => refAfter acts n

/-- The references that the handler has still to hand out or to give back. -/
def pending : List Act → ℕ
  | [] => 0
  | .call :: acts => pending acts + 1
  | .free :: acts => pending acts + 1
  | _ :: acts => pending acts

/-- How often the handler will free the packet. -/
def packets : List Act → ℕ
  | [] => 0
  | .freePacket :: acts => packets acts + 1
  | _ :: acts => packets acts

theorem pending_append (l l' : List Act) : pending (l ++ l') = pending l + pending l' := by
  induction l with
  | nil => rw [nil_append, pending, Nat.zero_add]
  | cons a l ih =>
    cases a with
    | call | free => simp only [cons_append, pending, ih, Nat.add_right_comm]
    | use | trace | setRef _ | incRef | freePacket | fault => simp only [cons_append, pending, ih]

theorem packets_append (l l' : List Act) : packets (l ++ l') = packets l + packets l' := by
  induction l with
  | nil => rw [nil_append, packets, Nat.zero_add]
  | cons a l ih =>
    cases a with
    | freePacket => simp only [cons_append, packets, ih, Nat.add_right_comm]
    | use | trace | setRef _ | incRef | call | free | fault => simp only [cons_append, packets, ih]

/-- **The references of a buffer.** The count is that of the references that are still to be given
back, together with `slack`, which nobody gives back; where there is no slack, the last one frees
the buffer. -/
structure Delivery.Counted (slack : ℕ) (d : Delivery) : Prop where
  parts : ∃ setup tail, d.prog = setup ++ tail ∧ (∀ a ∈ setup, a.IsSetup) ∧ (∀ a ∈ tail, a.IsTail) ∧
    (setup ≠ [] → d.owed = 0 ∧ d.frees = 0) ∧ d.packetFrees + packets tail = 1 ∧
    (d.frees = 0 ∧ refAfter setup d.refCount = pending tail + d.owed + slack ∧
        (slack = 0 → 0 < pending tail + d.owed) ∨
      d.frees = 1 ∧ slack = 0 ∧ d.refCount = 0 ∧ pending tail + d.owed = 0)
  staleUse : d.staleUse = false
  staleTrace : d.staleTrace = true ↔ d.frees = 1

variable {d : Delivery} {slack : ℕ} {ops : List DeliveryOp} {s : System P} {memPayload : Bool}
  {packet : List UInt8} {procs : Procs P V} {d' : Delivery} {tail : List Act}

/-- A release keeps the count, whoever makes it: the references go down by one. -/
theorem Delivery.Counted.free (hprog : d.prog = tail)
    (htail : ∀ a ∈ tail, a.IsTail) (hpackets : d.packetFrees + packets tail = 1)
    (hrefs : d.frees = 0) (hcount : d.refCount = pending tail + d.owed + 1 + slack)
    (huse : d.staleUse = false) (htrace : d.staleTrace = true ↔ d.frees = 1)
    (hd' : d' = d.freeResultDataBuffer) : d'.Counted slack := by
  have hf : decide (0 < d.frees) = false := by simp [hrefs]
  have hdone : d.trace.use = d := by
    simp only [Delivery.trace, Delivery.use, hf, Bool.or_false]
  rw [hd', Delivery.freeResultDataBuffer, hdone]
  by_cases hlast : pending tail + d.owed + slack = 0
  · -- the last reference: the buffer is freed
    rw [if_neg (by omega), if_pos (by omega)]
    refine ⟨⟨[], tail, hprog, fun _ ↦ nofun, htail, fun h ↦ absurd rfl h, hpackets,
      .inr ⟨?_, by omega, rfl, ?_⟩⟩, huse, ?_⟩
    · show d.frees + 1 = 1
      omega
    · show pending tail + d.owed = 0
      omega
    · show (d.staleTrace || decide (0 < d.frees + 1)) = true ↔ d.frees + 1 = 1
      simp [hrefs]
  · rw [if_neg (by omega), if_neg (by omega)]
    refine ⟨⟨[], tail, hprog, fun _ ↦ nofun, htail, fun h ↦ absurd rfl h, hpackets,
      .inl ⟨hrefs, ?_, fun h ↦ ?_⟩⟩, huse, ?_⟩
    · show d.refCount - 1 = pending tail + d.owed + slack
      omega
    · show 0 < pending tail + d.owed
      omega
    · omega

theorem exec_handler {a : Act} {rest : List Act} (hprog : d.prog = a :: rest) :
    deliveryMachine.exec d .handler = { d with prog := rest }.act a := by
  show (match d.prog with | [] => d | a :: rest => _) = _
  rw [hprog]

section

variable (h : d.Counted slack)
include h

theorem Delivery.Counted.release (ho : 0 < d.owed) :
    (deliveryMachine.exec d .release).Counted slack := by
  obtain ⟨setup, tail, hprog, -, htail, hsetup, hpackets, hrefs⟩ := h.parts
  have hnil : setup = [] := by
    by_contra hne
    have := (hsetup hne).1
    omega
  subst hnil
  rcases hrefs with ⟨hfrees, hcount, -⟩ | ⟨-, -, -, hzero⟩
  · refine Delivery.Counted.free (d := { d with owed := d.owed - 1 }) hprog htail hpackets hfrees ?_
      h.staleUse h.staleTrace rfl
    have hcount : d.refCount = pending tail + d.owed + slack := hcount
    show d.refCount = pending tail + (d.owed - 1) + 1 + slack
    omega
  · omega

theorem Delivery.Counted.handler
    (hne : d.prog ≠ []) : (deliveryMachine.exec d .handler).Counted slack := by
  obtain ⟨setup, tail, hprog, hset, htail, hsetup, hpackets, hrefs⟩ := h.parts
  have htrace : d.frees ≤ 1 → ((d.staleTrace || decide (0 < d.frees)) = true ↔ d.frees = 1) := by
    intro hle
    rw [Bool.or_eq_true, h.staleTrace, decide_eq_true_eq]
    omega
  cases setup with
  | cons a setup =>
    -- nobody has been called: only the count moves
    obtain ⟨howed, hfrees⟩ := hsetup (cons_ne_nil _ _)
    have hrest : ∀ b ∈ setup, b.IsSetup := fun b hb ↦ hset b (mem_cons_of_mem _ hb)
    have hrefs : refAfter (a :: setup) d.refCount = pending tail + d.owed + slack ∧
        (slack = 0 → 0 < pending tail + d.owed) := by omega
    have huse : (d.staleUse || decide (0 < d.frees)) = false := by simp [h.staleUse, hfrees]
    have htr : (d.staleTrace || decide (0 < d.frees)) = true ↔ d.frees = 1 :=
      htrace (by omega)
    have hdone : ∀ d' : Delivery, d'.prog = setup ++ tail → d'.owed = d.owed → d'.frees = d.frees →
        d'.packetFrees = d.packetFrees → refAfter setup d'.refCount = refAfter
        (a :: setup) d.refCount →
        d'.staleUse = false → (d'.staleTrace = true ↔ d.frees = 1) → d'.Counted slack := by
      intro d' h1 h2 h3 h4 h5 h6 h7
      refine ⟨⟨setup, tail, h1, hrest, htail, fun _ ↦ ⟨h2.trans howed, h3.trans hfrees⟩,
        h4.symm ▸ hpackets, .inl ⟨h3.trans hfrees, ?_, ?_⟩⟩, h6, h3.symm ▸ h7⟩
      · rw [h5, h2]
        exact hrefs.1
      · rw [h2]
        exact hrefs.2
    rw [exec_handler hprog]
    cases a with
    | use => exact hdone _ rfl rfl rfl rfl rfl huse h.staleTrace
    | trace => exact hdone _ rfl rfl rfl rfl rfl h.staleUse htr
    | setRef n => exact hdone _ rfl rfl rfl rfl rfl huse h.staleTrace
    | incRef => exact hdone _ rfl rfl rfl rfl rfl huse h.staleTrace
    | call | free | freePacket | fault => exact (hset _ (mem_cons_self ..)).elim
  | nil =>
    cases tail with
    | nil => exact absurd hprog hne
    | cons a tail =>
      have hrest : ∀ b ∈ tail, b.IsTail := fun b hb ↦ htail b (mem_cons_of_mem _ hb)
      rw [exec_handler hprog]
      cases a with
      | trace =>
        refine ⟨⟨[], tail, rfl, fun _ ↦ nofun, hrest, fun h ↦ absurd rfl h, hpackets, hrefs⟩,
          h.staleUse, htrace ?_⟩
        rcases hrefs with h | h <;> omega
      | call =>
        -- the buffer is there: a reference is still to be handed out
        obtain ⟨hfrees, hcount, hpos⟩ : d.frees = 0 ∧
            d.refCount = pending tail + 1 + d.owed + slack ∧
            (slack = 0 → 0 < pending tail + 1 + d.owed) := by
          rcases hrefs with hrefs | ⟨-, -, -, hzero⟩
          · exact hrefs
          · rw [pending] at hzero
            omega
        refine ⟨⟨[], tail, rfl, fun _ ↦ nofun, hrest, fun h ↦ absurd rfl h, hpackets,
          .inl ⟨hfrees, ?_, fun _ ↦ ?_⟩⟩, ?_, h.staleTrace⟩
        · show d.refCount = pending tail + (d.owed + 1) + slack
          omega
        · show 0 < pending tail + (d.owed + 1)
          omega
        · show (d.staleUse || decide (0 < d.frees)) = false
          simp [h.staleUse, hfrees]
      | free =>
        obtain ⟨hfrees, hcount⟩ : d.frees = 0 ∧ d.refCount = pending tail + 1 + d.owed + slack := by
          rcases hrefs with ⟨h1, h2, -⟩ | ⟨-, -, -, hzero⟩
          · exact ⟨h1, h2⟩
          · rw [pending] at hzero
            omega
        refine Delivery.Counted.free (d := { d with prog := tail }) rfl hrest hpackets hfrees ?_
          h.staleUse h.staleTrace rfl
        show d.refCount = pending tail + d.owed + 1 + slack
        omega
      | freePacket =>
        refine ⟨⟨[], tail, rfl, fun _ ↦ nofun, hrest, fun h ↦ absurd rfl h, ?_, hrefs⟩,
          h.staleUse, h.staleTrace⟩
        have hpackets : d.packetFrees + (packets tail + 1) = 1 := hpackets
        show d.packetFrees + 1 + packets tail = 1
        omega
      | use | setRef _ | incRef | fault => exact (htail _ (mem_cons_self ..)).elim

theorem Delivery.Counted.runs (hrun : deliveryMachine.Runs d ops d') : d'.Counted slack := by
  refine hrun.invariant ?_ h
  intro d op hd hguard
  cases op with
  | handler => exact hd.handler hguard
  | release => exact hd.release hguard

/-- At the end the packet has been freed once, and so has the buffer unless there is slack. -/
theorem Delivery.Counted.complete
    (hd : d.Complete) : d.frees = (if slack = 0 then 1 else 0) ∧ d.packetFrees = 1 := by
  obtain ⟨setup, tail, hprog, -, -, -, hpackets, hrefs⟩ := h.parts
  obtain ⟨rfl, rfl⟩ := append_eq_nil_iff.1 (hprog.symm.trans hd.1)
  have howed := hd.2
  refine ⟨?_, hpackets⟩
  rcases hrefs with ⟨hfrees, -, hpos⟩ | ⟨hfrees, hslack, -⟩
  · have hne : slack ≠ 0 := by
      intro h0
      have : 0 < pending [] + d.owed := hpos h0
      rw [pending] at this
      omega
    rw [hfrees, if_neg hne]
  · rw [hfrees, if_pos hslack]

end

/-- Whatever is still to be done can be done. -/
theorem exists_complete (d : Delivery) : ∃ ops d', deliveryMachine.Runs d ops d' ∧ d'.Complete := by
  -- a step of the handler shortens its program, and may leave one more release to be made
  have hmeasure : ∀ k d, 2 * d.prog.length + d.owed ≤ k →
      ∃ ops d', deliveryMachine.Runs d ops d' ∧ d'.Complete := by
    intro k
    induction k with
    | zero =>
      intro d hk
      exact ⟨[], d, .nil d, length_eq_zero_iff.1 (by omega), by omega⟩
    | succ k ih =>
      intro d hk
      cases hprog : d.prog with
      | cons a rest =>
        have hle : 2 * (deliveryMachine.exec d .handler).prog.length +
            (deliveryMachine.exec d .handler).owed ≤ k := by
          rw [hprog, length_cons] at hk
          rw [exec_handler hprog]
          cases a with
          | free =>
            rw [Delivery.act, Delivery.freeResultDataBuffer]
            split_ifs <;> (simp only [Delivery.trace, Delivery.use]; omega)
          | call | use | trace | setRef _ | incRef | freePacket | fault =>
            simp only [Delivery.act, Delivery.use, Delivery.trace, length_nil]
            omega
        obtain ⟨ops, d', hrun, hd'⟩ := ih _ hle
        exact ⟨.handler :: ops, d', .cons (hprog ▸ cons_ne_nil _ _ : d.prog ≠ []) hrun, hd'⟩
      | nil =>
        by_cases howed : d.owed = 0
        · exact ⟨[], d, .nil d, hprog, howed⟩
        · have hle : 2 * (deliveryMachine.exec d .release).prog.length +
              (deliveryMachine.exec d .release).owed ≤ k := by
            show 2 * (Delivery.freeResultDataBuffer _).prog.length +
              (Delivery.freeResultDataBuffer _).owed ≤ k
            rw [Delivery.freeResultDataBuffer]
            split_ifs <;>
              (simp only [Delivery.trace, Delivery.use, hprog, length_nil]; omega)
          obtain ⟨ops, d', hrun, hd'⟩ := ih _ hle
          exact ⟨.release :: ops, d', .cons (by omega : 0 < d.owed) hrun, hd'⟩
  exact hmeasure _ d le_rfl

/-! ### The program of the handler -/

/-- The message finds somebody who releases the buffer: an acknowledgement a callback, a request
and a unicast response likewise; other responses are broadcast, or released by the dispatcher. -/
def Taken (s : System P) (m : Msg V) : Prop :=
  if m.msgId.toNat = msgCapi2AckRsp then (s.clientMap (getClientIndex s m).1).ackCb = true
  else if m.msgType = rpcTypeRequest then (s.clientMap (getClientIndex s m).1).reqCb = true
  else isUnicast s m = true → (s.clientMap (getClientIndex s m).1).respCb = true

/-- The acknowledgement has no payload, which a callback is to be told of. -/
def Faulty (s : System P) (m : Msg V) : Prop :=
  m.msgId.toNat = msgCapi2AckRsp ∧ (s.clientMap (getClientIndex s m).1).ackCb = true ∧
    m.dataBuf = none

/-- A program that sets up the count and then hands out or gives back the references, up to
`slack`. -/
structure Balanced (slack : ℕ) (acts : List Act) : Prop where
  parts : ∃ setup tail, acts = setup ++ tail ∧ (∀ a ∈ setup, a.IsSetup) ∧ (∀ a ∈ tail, a.IsTail) ∧
    packets tail = 0 ∧ (∀ n, refAfter setup n = pending tail + slack) ∧
    (slack = 0 → 0 < pending tail)

theorem Balanced.append_setup {acts : List Act} (h : Balanced slack acts) {l : List Act}
    (hl : ∀ a ∈ l, a.IsSetup) : Balanced slack (l ++ acts) := by
  induction l with
  | nil => exact h
  | cons a l ih =>
    obtain ⟨setup, tail, hacts, hset, htail, hpackets, hcount, hpos⟩ :=
      (ih fun b hb ↦ hl b (mem_cons_of_mem _ hb)).parts
    have ha := hl a (mem_cons_self ..)
    refine ⟨a :: setup, tail, by rw [cons_append, hacts, cons_append], fun b hb ↦ ?_, htail,
      hpackets, fun n ↦ ?_, hpos⟩
    · grind
    · cases a with
      | use | trace | setRef _ | incRef => exact hcount _
      | call | free | freePacket | fault => exact ha.elim

/-- The count is set to one; a reference that nobody takes over is slack. -/
theorem balanced_one (mid : List Act)
    (hmid : ∀ a ∈ mid, a = .use ∨ a = .trace) (htail : ∀ a ∈ tail, a.IsTail)
    (hpackets : packets tail = 0) (hone : pending tail + slack = 1) :
    Balanced slack (.setRef 1 :: (mid ++ tail)) := by
  have hcount : ∀ n, refAfter mid n = n := by
    intro n
    induction mid with
    | nil => rfl
    | cons a mid ih =>
      have hrest := ih fun b hb ↦ hmid b (mem_cons_of_mem _ hb)
      rcases hmid a (mem_cons_self ..) with rfl | rfl
      · exact hrest
      · exact hrest
  refine ⟨.setRef 1 :: mid, tail, rfl, fun a ha ↦ ?_, htail, hpackets, fun _ ↦ ?_, fun h ↦ by omega⟩
  · rcases mem_cons.1 ha with rfl | ha
    · trivial
    · rcases hmid a ha with rfl | rfl <;> trivial
  · exact (hcount 1).trans hone.symm

theorem refAfter_incs (l : List ℕ) (acts : List Act) (n : ℕ) :
    refAfter (l.map (fun _ ↦ .incRef) ++ acts) n = refAfter acts (n + l.length) := by
  induction l generalizing n with
  | nil => rfl
  | cons i l ih =>
    rw [map_cons, cons_append, refAfter, ih, length_cons, Nat.add_assoc, Nat.add_comm 1]

/-- The accesses of the second loop of a broadcast. -/
theorem loop_acts (rec : ℕ → Bool) (l : List ℕ) :
    let acts := l.flatMap fun i ↦ if rec i then [Act.trace, .call] else [.trace]
    pending acts = (l.filter rec).length ∧ packets acts = 0 ∧ (∀ a ∈ acts, a.IsTail) ∧
      (l.filter rec = [] → ∀ a ∈ acts, a.IsSetup) := by
  induction l with
  | nil => exact ⟨rfl, rfl, fun _ ↦ nofun, nofun⟩
  | cons i l ih =>
    obtain ⟨hpending, hpackets, htail, hset⟩ := ih
    simp only [flatMap_cons, pending_append, packets_append, hpending, hpackets, mem_append]
    by_cases hi : rec i = true
    · rw [if_pos hi, filter_cons_of_pos hi]
      refine ⟨by rw [length_cons]; exact Nat.add_comm .., rfl, ?_, nofun⟩
      rintro a (ha | ha)
      · rcases mem_cons.1 ha with rfl | ha
        · trivial
        · obtain rfl := mem_singleton.1 ha
          trivial
      · exact htail a ha
    · rw [if_neg hi, filter_cons_of_neg hi]
      refine ⟨Nat.zero_add _, rfl, ?_, fun hnone ↦ ?_⟩
      · rintro a (ha | ha)
        · obtain rfl := mem_singleton.1 ha
          trivial
        · exact htail a ha
      · rintro a (ha | ha)
        · obtain rfl := mem_singleton.1 ha
          trivial
        · exact hset hnone a ha

/-- A broadcast hands out as many references as it has counted, or frees the buffer itself. -/
theorem balanced_broadcast (s : System P) (clientIndex : ℕ) :
    Balanced 0 (broadcast s clientIndex) := by
  obtain ⟨hpending, hpackets, htail, hset⟩ := loop_acts (isRecipient s clientIndex) (clients s)
  rw [broadcast]
  by_cases hnone : (clients s).filter (isRecipient s clientIndex) = []
  · -- nobody wants the message
    simp only [hnone]
    have hfree : Balanced 0 [.setRef 1, .free] :=
      balanced_one [] (by simp) (by simp [Act.IsTail]) rfl rfl
    have := (hfree.append_setup (l := [.trace]) (by simp [Act.IsSetup])).append_setup
      (l := [.trace, .setRef 0] ++ [.use] ++ (clients s).flatMap fun i ↦
        if isRecipient s clientIndex i then [.trace, .call] else [.trace]) ?_
    · simpa using this
    · intro a ha
      rcases mem_append.1 ha with ha | ha
      · simp only [mem_append, mem_cons, not_mem_nil, or_false] at ha
        rcases ha with (rfl | rfl) | rfl <;> trivial
      · exact hset hnone a ha
  · simp only [if_neg hnone, append_nil]
    refine ⟨_, _, rfl, ?_, htail, hpackets, fun n ↦ ?_, fun _ ↦ ?_⟩
    · intro a ha
      simp only [mem_append, mem_cons, not_mem_nil, or_false, mem_map] at ha
      rcases ha with ((rfl | rfl) | ⟨i, -, rfl⟩) | rfl <;> trivial
    · rw [hpending, append_assoc, cons_append, cons_append, nil_append, refAfter,
        refAfter, refAfter_incs]
      · exact Nat.zero_add _
      · simp
      · simp
    · grind

/-- **The program of the dispatcher**: unless it follows a null pointer, it is balanced exactly
where somebody takes the message. -/
theorem balanced_dispatchMsg {m : Msg V} (hfaulty : ¬ Faulty s m) :
    ∃ slack, (slack = 0 ↔ Taken s m) ∧ Balanced slack (dispatchMsg s m) := by
  have hnone : ∀ a ∈ ([] : List Act), a.IsTail := fun _ ↦ nofun
  have hcall : ∀ a ∈ [Act.call], a.IsTail := by simp [Act.IsTail]
  have hfree : ∀ a ∈ [Act.free], a.IsTail := by simp [Act.IsTail]
  have huse : ∀ a ∈ [Act.use], a = .use ∨ a = .trace := by simp
  have htrace : ∀ a ∈ [Act.use, .trace], a = .use ∨ a = .trace := by simp
  -- a callback takes the reference, or it stays behind
  have hcb : ∀ cb : Bool, ∃ slack, (slack = 0 ↔ cb = true) ∧
      Balanced slack (.setRef 1 :: ([.use] ++ if cb then [.call] else [])) ∧
      Balanced slack (.setRef 1 :: ([.use, .trace] ++ if cb then [.call] else [])) := by
    intro cb
    cases cb with
    | true =>
      exact ⟨0, by simp, balanced_one _ huse hcall rfl rfl, balanced_one _ htrace hcall rfl rfl⟩
    | false =>
      exact ⟨1, by simp, balanced_one _ huse hnone rfl rfl, balanced_one _ htrace hnone rfl rfl⟩
  rw [dispatchMsg, Taken]
  by_cases hack : m.msgId.toNat = msgCapi2AckRsp
  · simp only [if_pos hack]
    cases hcb : (s.clientMap (getClientIndex s m).1).ackCb with
    | true =>
      have hsome : m.dataBuf.isSome = true := by
        cases hv : m.dataBuf with
        | some v => rfl
        | none => exact absurd ⟨hack, hcb, hv⟩ hfaulty
      refine ⟨0, by simp, ?_⟩
      rw [if_pos rfl, if_pos hsome]
      exact balanced_one [.use, .use] (by simp) hfree rfl rfl
    | false => exact ⟨1, by simp, balanced_one _ huse hnone rfl rfl⟩
  · simp only [if_neg hack]
    by_cases hreq : m.msgType = rpcTypeRequest
    · simp only [if_pos hreq]
      obtain ⟨slack, hslack, hbal, -⟩ := hcb (s.clientMap (getClientIndex s m).1).reqCb
      exact ⟨slack, hslack, hbal⟩
    · simp only [if_neg hreq]
      by_cases huni : isUnicast s m = true
      · simp only [huni, forall_const]
        obtain ⟨slack, hslack, -, hbal⟩ := hcb (s.clientMap (getClientIndex s m).1).respCb
        exact ⟨slack, hslack, hbal⟩
      · simp only [if_neg huni]
        refine ⟨0, by simp [huni], ?_⟩
        split_ifs
        · exact (balanced_broadcast s _).append_setup (by simp [Act.IsSetup])
        · exact balanced_one [.use, .trace] htrace hfree rfl rfl

/-! ### Received messages -/

/-- **Ownership as it should be**: however the handler and the clients are interleaved, in the end
the packet has been freed once, and so has the result buffer if there is one, and neither has been
touched after that. -/
def Delivery.Owned (start : Delivery) (buffer : Bool) : Prop :=
  ∀ ops d, deliveryMachine.Runs start ops d → d.Complete →
    (buffer = true → d.frees = 1) ∧ d.packetFrees = 1 ∧ d.staleUse = false ∧ d.staleTrace = false

/-- A packet that is deserialised into a message that is taken, by somebody who can be told. -/
def Delivered (s : System P) (procs : Procs P V) (memPayload : Bool) (packet : List UInt8) : Prop :=
  ∃ m, deserializeMsg s procs memPayload packet = (true, m) ∧ Taken s m ∧ ¬ Faulty s m

/-- A packet on which the handler follows a null pointer. -/
def Crashes (s : System P) (procs : Procs P V) (memPayload : Bool) (packet : List UInt8) : Prop :=
  ∃ m, deserializeMsg s procs memPayload packet = (true, m) ∧ Faulty s m

theorem handleEvent_counted (h : ¬ Crashes s procs memPayload packet) :
    ∃ slack, (slack = 0 ↔ Delivered s procs memPayload packet) ∧
      (handleEvent s procs true memPayload packet).Counted slack := by
  have hstart : ∀ {slack : ℕ} {acts : List Act}, Balanced slack acts →
      (⟨acts ++ [.freePacket], 0, 0, 0, 0, false, false⟩ : Delivery).Counted slack := by
    intro slack acts hacts
    obtain ⟨setup, tail, rfl, hset, htail, hpackets, hcount, hpos⟩ := hacts.parts
    refine ⟨⟨setup, tail ++ [.freePacket], append_assoc .., hset, fun a ha ↦ ?_,
      fun _ ↦ ⟨rfl, rfl⟩, ?_, .inl ⟨rfl, ?_, fun h0 ↦ ?_⟩⟩, rfl, by simp⟩
    · rcases mem_append.1 ha with ha | ha
      · exact htail a ha
      · obtain rfl := mem_singleton.1 ha
        trivial
    · show 0 + packets (tail ++ [.freePacket]) = 1
      rw [packets_append, hpackets]
      rfl
    · show refAfter setup 0 = pending (tail ++ [.freePacket]) + 0 + slack
      rw [hcount, pending_append]
      rfl
    · grind [pending_append, Nat.add_pos_left]
  have hset : ∀ a ∈ [Act.setRef 1, .use], a.IsSetup := by simp [Act.IsSetup]
  rcases hm : deserializeMsg s procs memPayload packet with ⟨ok, m⟩
  cases ok with
  | false =>
    -- a packet that is refused leaves the buffer behind
    refine ⟨1, ⟨nofun, ?_⟩, ?_⟩
    · rintro ⟨m', hm', -⟩
      rw [hm] at hm'
      cases hm'
    · rw [handleEvent, hm]
      exact hstart (balanced_one [.use] (by simp) (fun _ ↦ nofun) rfl rfl)
  | true =>
    have hfaulty : ¬ Faulty s m := fun hf ↦ h ⟨m, hm, hf⟩
    obtain ⟨slack, hslack, hbal⟩ := balanced_dispatchMsg hfaulty
    refine ⟨slack, hslack.trans ⟨fun ht ↦ ⟨m, hm, ht, hfaulty⟩, ?_⟩, ?_⟩
    · rintro ⟨m', hm', ht, -⟩
      obtain rfl := (Prod.mk.inj (hm.symm.trans hm')).2
      exact ht
    · rw [handleEvent, hm]
      exact hstart (hbal.append_setup hset)

/-- A handler that hands out nothing: after its setup it follows a null pointer, or it frees the
packet. -/
theorem runs_idle {setup last : List Act} {k : ℕ} (hset : ∀ a ∈ setup, a = .use ∨ a = .setRef 1)
    (hlast : last = [.fault, .freePacket] ∧ k = 0 ∨ last = [.freePacket] ∧ k = 1)
    (hrun : deliveryMachine.Runs ⟨setup ++ last, 0, 0, 0, 0, false, false⟩ ops d)
    (hd : d.Complete) :
    d.frees = 0 ∧ d.packetFrees = k ∧ d.staleUse = false ∧ d.staleTrace = false := by
  have hinv := hrun.invariant (I := fun d ↦ d.owed = 0 ∧ d.frees = 0 ∧ d.staleUse = false ∧
    d.staleTrace = false ∧ (d.prog = [] ∧ d.packetFrees = k ∨ d.packetFrees = 0 ∧ ∃ setup,
      d.prog = setup ++ last ∧ ∀ a ∈ setup, a = .use ∨ a = .setRef 1)) ?_
    ⟨rfl, rfl, rfl, rfl, .inr ⟨rfl, setup, rfl, hset⟩⟩
  · obtain ⟨-, hfrees, huse, htrace, ⟨-, hpackets⟩ | ⟨-, setup, hprog, -⟩⟩ := hinv
    · exact ⟨hfrees, hpackets, huse, htrace⟩
    · have hnil := (append_eq_nil_iff.1 (hprog.symm.trans hd.1)).2
      rcases hlast with ⟨rfl, -⟩ | ⟨rfl, -⟩ <;> cases hnil
  · rintro d op ⟨howed, hfrees, huse, htrace, hprog⟩ hguard
    cases op with
    | release => exact absurd howed (Nat.ne_of_gt hguard)
    | handler =>
      rcases hprog with ⟨hnil, -⟩ | ⟨hpackets, setup, hprog, hset⟩
      · exact absurd hnil hguard
      · cases setup with
        | nil =>
          rcases hlast with ⟨rfl, rfl⟩ | ⟨rfl, rfl⟩
          · rw [exec_handler hprog]
            exact ⟨howed, hfrees, huse, htrace, .inl ⟨rfl, hpackets⟩⟩
          · rw [exec_handler hprog]
            exact ⟨howed, hfrees, huse, htrace, .inl ⟨rfl, congrArg (· + 1) hpackets⟩⟩
        | cons a setup =>
          have hrest : ∀ b ∈ setup, b = .use ∨ b = .setRef 1 := fun b hb ↦
            hset b (mem_cons_of_mem _ hb)
          have hstale : (d.staleUse || decide (0 < d.frees)) = false := by simp [huse, hfrees]
          rw [exec_handler hprog]
          rcases hset a (mem_cons_self ..) with rfl | rfl
          · exact ⟨howed, hfrees, hstale, htrace, .inr ⟨hpackets, setup, rfl, hrest⟩⟩
          · exact ⟨howed, hfrees, hstale, htrace, .inr ⟨hpackets, setup, rfl, hrest⟩⟩

theorem handleEvent_crashes (h : Crashes s procs memPayload packet) :
    handleEvent s procs true memPayload packet =
      ⟨[.setRef 1, .use, .setRef 1, .use, .use] ++ [.fault, .freePacket], 0, 0, 0, 0,
        false, false⟩ := by
  obtain ⟨m, hm, hack, hcb, hnone⟩ := h
  rw [handleEvent, hm]
  simp only [dispatchMsg, if_pos hack, hcb, hnone]
  rfl

/-- **Who frees the buffers of a received message.** Strictly, ownership is as it should be only
where there is no memory for a result buffer, since freeing it is followed by a trace that reads
it. That apart: the result buffer is freed at most once, and exactly where the packet is
deserialised and somebody takes the message; the packet is freed exactly once, unless an
acknowledgement without a payload makes the handler follow a null pointer; and nothing but traces
reads a freed buffer. -/
theorem result_buffer_freed (s : System P) (procs : Procs P V) (mem memPayload : Bool)
    (packet : List UInt8) :
    ((handleEvent s procs mem memPayload packet).Owned mem ↔ mem = false) ∧
    ∀ ops d, deliveryMachine.Runs (handleEvent s procs mem memPayload packet) ops d → d.Complete →
      (d.frees = 1 ↔ mem = true ∧ Delivered s procs memPayload packet) ∧ d.frees ≤ 1 ∧
      (d.packetFrees = 1 ↔ (mem = true → ¬ Crashes s procs memPayload packet)) ∧
      d.packetFrees ≤ 1 ∧ d.staleUse = false ∧ (d.staleTrace = true ↔ d.frees = 1) := by
  cases mem with
  | false =>
    -- there is no result buffer: only the packet is freed
    have hall : ∀ ops d, deliveryMachine.Runs (handleEvent s procs false memPayload packet) ops d →
        d.Complete → _ := fun ops d hrun ↦ runs_idle (forall_mem_nil _) (.inr ⟨rfl, rfl⟩) hrun
    refine ⟨⟨fun _ ↦ rfl, fun _ ops d hrun hd ↦ ?_⟩, fun ops d hrun hd ↦ ?_⟩
    · exact ⟨nofun, (hall ops d hrun hd).2⟩
    · grind
  | true =>
    have hall : ∀ ops d, deliveryMachine.Runs (handleEvent s procs true memPayload packet) ops d →
        d.Complete → (d.frees = 1 ↔ true = true ∧ Delivered s procs memPayload packet) ∧
        d.frees ≤ 1 ∧
        (d.packetFrees = 1 ↔ (true = true → ¬ Crashes s procs memPayload packet)) ∧
        d.packetFrees ≤ 1 ∧ d.staleUse = false ∧ (d.staleTrace = true ↔ d.frees = 1) := by
      intro ops d hrun hd
      by_cases hcrash : Crashes s procs memPayload packet
      · rw [handleEvent_crashes hcrash] at hrun
        obtain ⟨hfrees, hpackets, huse, htrace⟩ := runs_idle (by simp) (.inl ⟨rfl, rfl⟩) hrun hd
        have hnot : ¬ Delivered s procs memPayload packet := by
          rintro ⟨m, hm, -, hok⟩
          obtain ⟨m', hm', hfaulty⟩ := hcrash
          obtain rfl := (Prod.mk.inj (hm.symm.trans hm')).2
          exact hok hfaulty
        simp [hfrees, hpackets, huse, htrace, hnot, hcrash]
      · obtain ⟨slack, hslack, hstart⟩ := handleEvent_counted hcrash
        have hcounted := hstart.runs hrun
        obtain ⟨hfrees, hpackets⟩ := hcounted.complete hd
        refine ⟨?_, ?_, ?_, hpackets.le, hcounted.staleUse, hcounted.staleTrace⟩
        · grind
        · rw [hfrees]
          split_ifs <;> simp
        · simp [hpackets, hcrash]
    refine ⟨⟨fun howned ↦ ?_, nofun⟩, hall⟩
    -- a run to the end either leaves the buffer or reads it after it was freed
    obtain ⟨ops, d, hrun, hd⟩ := exists_complete (handleEvent s procs true memPayload packet)
    obtain ⟨hfrees, -, -, htrace⟩ := howned ops d hrun hd
    have hlate := (hall ops d hrun hd).2.2.2.2.2.2 (hfrees rfl)
    rw [htrace] at hlate
    cases hlate

theorem length_one_lt : [(⟨0xF601, .client (), 12⟩ : XdrInfo Unit)].length < 65536 :=
  Nat.one_lt_succ_succ _

/-- The client of the system interface without its response callback. -/
def deafClient : System Unit :=
  { sysClient with clientMap := fun _ ↦ ⟨true, false, true, [⟨0xF601, .client (), 12⟩], some (), 12,
    length_one_lt⟩ }

/-- **A buffer read after it was freed, and a buffer that is never freed.** A response for a
client is handed to it, and its release is the last: the trace of `RPC_SYSFreeResultDataBuffer`
reads the freed buffer. For a client without a response callback the buffer is left behind. -/
theorem result_buffer_read_or_leaked :
    let packet := (serializeMsg sysClient sysProcs sysResponse 36).2
    (∃ ops d, deliveryMachine.Runs (handleEvent sysClient sysProcs true true packet) ops d ∧
      d.Complete ∧ d.frees = 1 ∧ d.staleTrace = true) ∧
    ∃ ops d, deliveryMachine.Runs (handleEvent deafClient sysProcs true true packet) ops d ∧
      d.Complete ∧ d.frees = 0 := by
  intro packet
  refine ⟨⟨[.handler, .handler, .handler, .handler, .handler, .handler, .handler, .release], _,
    Machine.Permitted.runs (by decide +kernel), ⟨by decide +kernel, by decide +kernel⟩,
    by decide +kernel⟩, [.handler, .handler, .handler, .handler, .handler, .handler], _,
    Machine.Permitted.runs (by decide +kernel), ⟨by decide +kernel, by decide +kernel⟩,
    by decide +kernel⟩

end Rpc
