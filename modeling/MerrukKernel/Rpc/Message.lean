import MerrukKernel.Library.WordStream
import MerrukKernel.Rpc.Lookup

/-!
# RPC messages on the wire

A message is sent as five words, the **envelope**, a word that says whether there is a payload,
and the payload (`rpc_msg.c`). The procedure for the payload is looked up by the id of the
message, on both sides; a client may have registered a procedure for a header of its own in front
of it.

`xdr_RPC_Msg_t` does not look at what `xdr_pointer` returns. Once the envelope is through and the
id is known, it reports success, whether or not there was room for the rest.
-/

namespace Rpc

open WordStream List Codec Fixed

/-! ### XDR procedures -/

/-- `xdr_u_char`: a byte takes a word. -/
def xdrUChar : Codec UInt8 := Codec.word.via (fun b ↦ b.toUInt32) (fun w ↦ w.toUInt8)

/-- `xdr_bool`. -/
def xdrBool : Codec Bool := Codec.word.via (fun b ↦ if b then 1 else 0) (fun w ↦ w ≠ 0)

theorem fixed_xdrUChar : Fixed xdrUChar 4 fun b ↦ wordBytes b.toUInt32 :=
  word.via UInt8.toUInt8_toUInt32

theorem fixed_xdrBool : Fixed xdrBool 4 fun b ↦ wordBytes (if b then 1 else 0) :=
  word.via fun b ↦ by cases b <;> rfl

/-- The header of the messages of the system interface (`SYS_ReqRep_t`). -/
structure SysReqRep (B : Type) where
  respId : UInt32
  result : UInt32
  body : B
  deriving DecidableEq

/-- `xdr_SYS_ReqRep_t`, for a procedure of the body. -/
def xdrSysReqRep {B : Type} (proc : Codec B) : Codec (SysReqRep B) :=
  (Codec.word.seq (Codec.word.seq proc)).via (fun r ↦ (r.respId, r.result, r.body))
    (fun x ↦ ⟨x.1, x.2.1, x.2.2⟩)

/-! ### Messages -/

/-- A message (`RPC_InternalMsg_t`), with payloads in `V`. -/
structure Msg (V : Type) where
  msgType : UInt32
  clientIndex : UInt8
  tid : UInt32
  clientId : UInt8
  msgId : UInt32
  dataBuf : Option V
  dataLen : ℕ

/-- The procedures that are registered, as codecs: of the payloads, and of a client's own header in
front of them; and the payload in memory that has just been allocated. -/
structure Procs (P V : Type) where
  proc : XdrProc P → Codec V
  main : P → XdrProc P → Codec V
  zero : V

variable {P V : Type}

/-- The procedure that `xdr_RPC_Msg_t` hands to `xdr_pointer`. -/
def Procs.payload (procs : Procs P V) (x : XdrInfo P) (e : InternalXdrInfo P) : Codec V :=
  match e.mainProc with
  | some p => procs.main p x.xdrProc
  | none => procs.proc x.xdrProc

/-- The envelope: `msgType`, `clientIndex`, `tid`, `clientID` and `msgId`. -/
abbrev Envelope := UInt32 × UInt8 × UInt32 × UInt8 × UInt32

/-- What `xdr_RPC_InternalMsg_t` and `xdr_RPC_Msg_t` do one after the other before the lookup. -/
def xdrEnvelope : Codec Envelope :=
  Codec.word.seq (xdrUChar.seq (Codec.word.seq (xdrUChar.seq Codec.word)))

/-- The envelope of a message. -/
def Msg.envelope (m : Msg V) : Envelope := (m.msgType, m.clientIndex, m.tid, m.clientId, m.msgId)

/-- The bytes of an envelope. -/
def envelopeBytes (x : Envelope) : List UInt8 :=
  wordBytes x.1 ++ (wordBytes x.2.1.toUInt32 ++ (wordBytes x.2.2.1 ++
    (wordBytes x.2.2.2.1.toUInt32 ++ wordBytes x.2.2.2.2)))

theorem fixed_xdrEnvelope : Fixed xdrEnvelope 20 envelopeBytes :=
  word.seq (fixed_xdrUChar.seq (word.seq (fixed_xdrUChar.seq word)))

/-- `xdr_pointerEx` while encoding. -/
def pointerEnc (c : Codec V) (v : Option V) (s : Sink) : Bool × Sink :=
  match xdrBool.enc v.isSome s with
  | (false, s) => (false, s)
  | (true, s) =>
    match v with
    | none => (true, s)
    | some v => c.enc v s

/-- `xdr_pointerEx` while decoding into a null pointer; `mem` says whether there is memory for the
payload. What it returns is what it leaves in the pointer. -/
def pointerDec (c : Codec V) (zero : V) (mem : Bool) (l : List UInt8) : Bool × Option V :=
  match xdrBool.dec false l with
  | (false, _, _) => (false, none)
  | (true, false, _) => (true, none)
  | (true, true, l) =>
    if mem then
      match c.dec zero l with
      | (ok, v, _) => (ok, some v)
    else (false, none)

/-- `RPC_SerializeMsg`: whether it returns `RESULT_OK`, and the first `outLen` bytes of the
stream. -/
def serializeMsg (s : System P) (procs : Procs P V) (m : Msg V) (streamLen : ℕ) :
    Bool × List UInt8 :=
  match xdrEnvelope.enc m.envelope ⟨[], streamLen⟩ with
  | (false, sink) => (false, sink.out)
  | (true, sink) =>
    match s.lookup m.msgId.toNat with
    | none => (false, sink.out)
    | some (x, e) =>
      -- the report of `xdr_pointer` is dropped
      (true, (pointerEnc (procs.payload x e) m.dataBuf sink).2.out)

/-- `RPC_DeserializeMsg`: whether it returns `RESULT_OK`, and the message. -/
def deserializeMsg (s : System P) (procs : Procs P V) (mem : Bool) (stream : List UInt8) :
    Bool × Msg V :=
  match xdrEnvelope.dec (0, 0, 0, 0, 0) stream with
  | (false, (t, i, tid, c, id), _) => (false, ⟨t, i, tid, c, id, none, 0⟩)
  | (true, (t, i, tid, c, id), rest) =>
    match s.lookup id.toNat with
    | none => (false, ⟨t, i, tid, c, id, none, 0⟩)
    | some (x, e) =>
      (true, ⟨t, i, tid, c, id, (pointerDec (procs.payload x e) procs.zero mem rest).2, x.xdrSize⟩)

/-! ### One function at a time -/

variable {streamLen : ℕ} {m : Msg V} {s : System P} {e : InternalXdrInfo P} {x : XdrInfo P}

theorem serializeMsg_short (s : System P) (procs : Procs P V) (m : Msg V)
    (h : streamLen < 20) : (serializeMsg s procs m streamLen).1 = false := by
  have hfail := fixed_xdrEnvelope.enc_short m.envelope ⟨[], streamLen⟩ h
  rw [serializeMsg]
  cases henc : xdrEnvelope.enc m.envelope ⟨[], streamLen⟩ with
  | mk ok sink => grind

theorem serializeMsg_unknown (procs : Procs P V) (streamLen : ℕ)
    (h : s.lookup m.msgId.toNat = none) : (serializeMsg s procs m streamLen).1 = false := by
  rw [serializeMsg, h]
  cases xdrEnvelope.enc m.envelope ⟨[], streamLen⟩ with
  | mk ok sink => cases ok <;> rfl

/-- With room for the envelope, a message that is known is reported to be written. -/
theorem serializeMsg_known (procs : Procs P V) (hlen : 20 ≤ streamLen)
    (h : s.lookup m.msgId.toNat = some (x, e)) :
    serializeMsg s procs m streamLen = (true, (pointerEnc (procs.payload x e) m.dataBuf
      ⟨envelopeBytes m.envelope, streamLen - 20⟩).2.out) := by
  have henc := fixed_xdrEnvelope.enc_ok m.envelope ⟨[], streamLen⟩
    (by rw [fixed_xdrEnvelope.length]; exact hlen)
  rw [nil_append, fixed_xdrEnvelope.length] at henc
  rw [serializeMsg]
  simp only [henc, h]

theorem deserializeMsg_short (s : System P) (procs : Procs P V) (mem : Bool) {stream : List UInt8}
    (h : stream.length < 20) : (deserializeMsg s procs mem stream).1 = false := by
  have hfail := fixed_xdrEnvelope.dec_short (0, 0, 0, 0, 0) stream h
  rw [deserializeMsg]
  rcases hdec : xdrEnvelope.dec (0, 0, 0, 0, 0) stream with ⟨ok, ⟨t, i, tid, c, id⟩, rest⟩
  rw [hdec] at hfail
  obtain rfl : ok = false := hfail
  rfl

/-- Once the envelope of a known message is there, it is reported to be read. -/
theorem deserializeMsg_known (procs : Procs P V) (mem : Bool)
    (h : s.lookup m.msgId.toNat = some (x, e))
    (rest : List UInt8) : deserializeMsg s procs mem (envelopeBytes m.envelope ++ rest) =
      (true, ⟨m.msgType, m.clientIndex, m.tid, m.clientId, m.msgId,
        (pointerDec (procs.payload x e) procs.zero mem rest).2, x.xdrSize⟩) := by
  rw [deserializeMsg, fixed_xdrEnvelope.dec_ok]
  simp only [Msg.envelope, h]

/-- A null pointer costs a word, and nothing is lost if there is no room for it. -/
theorem pointer_none (c : Codec V) (zero : V) (mem : Bool) (s : Sink) :
    ∃ more, (pointerEnc c none s).2.out = s.out ++ more ∧
    (pointerDec c zero mem more).2 = none := by
  by_cases hroom : s.room < 4
  · refine ⟨[], ?_, rfl⟩
    have hfail : xdrBool.enc false s = (false, s) := if_pos hroom
    simp only [pointerEnc, Option.isSome_none, hfail, append_nil]
  · have hok := fixed_xdrBool.enc_ok false s (not_lt.1 hroom)
    refine ⟨wordBytes 0, ?_, ?_⟩
    · simp only [pointerEnc, Option.isSome_none, hok]
      rfl
    · have hdec := fixed_xdrBool.dec_ok false false []
      rw [append_nil] at hdec
      rw [show wordBytes 0 = wordBytes (if false = true then 1 else 0) from rfl, pointerDec, hdec]

/-- A payload for which there is room is read back. -/
theorem pointer_some {c : Codec V} {bytes : V → List UInt8} (hc : Faithful c bytes) (v zero : V)
    {s : Sink} (hroom : 4 + (bytes v).length ≤ s.room) :
    ∃ more, (pointerEnc c (some v) s).2.out = s.out ++ more ∧ more.length = 4 + (bytes v).length ∧
      ∀ mem, (pointerDec c zero mem more).2 = if mem then some v else none := by
  have hok := fixed_xdrBool.enc_ok true s (by rw [fixed_xdrBool.length]; omega)
  have hbody := hc.enc_ok v ⟨s.out ++ wordBytes 1, s.room - 4⟩ (by simp only; omega)
  refine ⟨wordBytes 1 ++ bytes v, ?_, ?_, fun mem ↦ ?_⟩
  · rw [pointerEnc, Option.isSome_some, hok]
    show (c.enc v ⟨s.out ++ wordBytes 1, s.room - 4⟩).2.out = _
    rw [hbody, append_assoc]
  · rw [length_append, length_wordBytes]
  · have hflag := fixed_xdrBool.dec_ok true false (bytes v)
    have hdec := hc.dec_ok v zero []
    rw [append_nil] at hdec
    rw [if_pos rfl] at hflag
    cases mem with
    | true => simp only [pointerDec, hflag, hdec, if_true]
    | false => simp only [pointerDec, hflag, Bool.false_eq_true, if_false]

/-! ### Round trips -/

/-- **The round trip of a message** through a stream of `streamLen` bytes, of which the receiver
may get all that has been written, or only the first `k` bytes: what is written with success is
read with success, as the same message; a stream that is too short for the payload is refused by
the sender; and so is one by the receiver. -/
def RoundTrip (s : System P) (procs : Procs P V) (bytes : UInt32 → V → List UInt8) (m : Msg V)
    (streamLen k : ℕ) (mem : Bool) : Prop :=
  (∀ stream, serializeMsg s procs m streamLen = (true, stream) →
    ∃ m', deserializeMsg s procs mem stream = (true, m') ∧ m'.msgType = m.msgType ∧ m'.tid = m.tid ∧
      m'.clientId = m.clientId ∧ m'.msgId = m.msgId ∧ m'.dataBuf = m.dataBuf) ∧
  (∀ v, m.dataBuf = some v → streamLen < 24 + (bytes m.msgId v).length →
    (serializeMsg s procs m streamLen).1 = false) ∧
  ∀ v, m.dataBuf = some v → k < 24 + (bytes m.msgId v).length →
    ∀ stream, serializeMsg s procs m streamLen = (true, stream) →
      (deserializeMsg s procs mem (stream.take k)).1 = false

/-- **When messages make the round trip.** Exactly if there is no payload, or nothing is written
at all (the id is unknown, or there is no room for the envelope), or the stream has room for all
of the message, the receiver has memory for the payload, and what the receiver gets is the whole
stream or not even the envelope. -/
theorem roundTrip_iff (s : System P) (procs : Procs P V) (bytes : UInt32 → V → List UInt8)
    (hprocs : ∀ (id : UInt32) x e, s.lookup id.toNat = some (x, e) →
      Faithful (procs.payload x e) (bytes id))
    (m : Msg V) (streamLen k : ℕ) (mem : Bool) :
    RoundTrip s procs bytes m streamLen k mem ↔
      s.lookup m.msgId.toNat = none ∨ streamLen < 20 ∨ ∀ v, m.dataBuf = some v →
        24 + (bytes m.msgId v).length ≤ streamLen ∧ mem = true ∧
          (k < 20 ∨ 24 + (bytes m.msgId v).length ≤ k) := by
  have hrefused : (serializeMsg s procs m streamLen).1 = false →
      RoundTrip s procs bytes m streamLen k mem := by
    intro h
    refine ⟨fun stream hs ↦ ?_, fun _ _ _ ↦ h, fun _ _ _ stream hs ↦ ?_⟩ <;>
    · rw [hs] at h
      cases h
  by_cases hlen : streamLen < 20
  · exact ⟨fun _ ↦ .inr (.inl hlen), fun _ ↦ hrefused (serializeMsg_short s procs m hlen)⟩
  cases hfound : s.lookup m.msgId.toNat with
  | none => exact ⟨fun _ ↦ .inl rfl, fun _ ↦ hrefused (serializeMsg_unknown procs streamLen hfound)⟩
  | some xe =>
    obtain ⟨x, e⟩ := xe
    have hser := serializeMsg_known procs (not_lt.1 hlen) hfound
    have henv : (envelopeBytes m.envelope).length = 20 := fixed_xdrEnvelope.length _
    cases hv : m.dataBuf with
    | none =>
      -- without a payload the round trip is made even if the flag does not fit
      refine ⟨fun _ ↦ .inr (.inr fun v h ↦ (by cases h)), fun _ ↦ ⟨fun stream hs ↦ ?_, ?_, ?_⟩⟩
      · obtain ⟨more, hmore, hback⟩ := pointer_none (procs.payload x e) procs.zero mem
          ⟨envelopeBytes m.envelope, streamLen - 20⟩
        rw [hser, hv, hmore] at hs
        obtain rfl := (Prod.mk.inj hs).2
        exact ⟨_, deserializeMsg_known procs mem hfound more, rfl, rfl, rfl, rfl,
          hback.trans hv.symm⟩
      · intro v h
        rw [hv] at h
        cases h
      · intro v h
        rw [hv] at h
        cases h
    | some v =>
      obtain ⟨n, hn⟩ : ∃ n, (bytes m.msgId v).length = n := ⟨_, rfl⟩
      have hfit : 24 + n ≤ streamLen → ∃ more, more.length = 4 + n ∧
          serializeMsg s procs m streamLen = (true, envelopeBytes m.envelope ++ more) ∧
          (pointerDec (procs.payload x e) procs.zero mem more).2 =
            if mem then some v else none := by
        intro h
        obtain ⟨more, hmore, hlength, hback⟩ := pointer_some
          (hprocs m.msgId x e hfound) v procs.zero
          (s := ⟨envelopeBytes m.envelope, streamLen - 20⟩) (by simp only; omega)
        exact ⟨more, hn ▸ hlength, by rw [hser, hv, hmore], hback mem⟩
      constructor
      · rintro ⟨hback, hfull, hcut⟩
        refine .inr (.inr fun v' hv' ↦ ?_)
        cases hv'
        rw [hn]
        have hroom : 24 + n ≤ streamLen := by grind
        obtain ⟨more, hlength, hstream, hpayload⟩ := hfit hroom
        refine ⟨hroom, ?_, ?_⟩
        · grind [deserializeMsg_known]
        · -- a stream that is cut behind the envelope is accepted
          by_contra hk
          have := hcut v hv (by omega) _ hstream
          rw [take_append, take_of_length_le (by omega),
            deserializeMsg_known procs mem hfound] at this
          cases this
      · rintro (h | h | h)
        · cases h
        · exact absurd h hlen
        · obtain ⟨hroom, rfl, hk⟩ := h v rfl
          rw [hn] at hroom hk
          refine ⟨fun stream hs ↦ ?_, fun v' hv' hshort ↦ ?_, fun v' hv' hshort stream hs ↦ ?_⟩
          · grind [deserializeMsg_known]
          · grind
          · cases hv.symm.trans hv'
            have hk : k < 20 := hk.resolve_right (by rw [← hn]; exact not_le.2 hshort)
            refine deserializeMsg_short s procs true ?_
            rw [length_take]
            exact lt_of_le_of_lt (Nat.min_le_left ..) hk

/-- A client of the system interface with one message. -/
def sysClient : System Unit :=
  (System.registerClient ⟨true, fun _ ↦ true⟩ ⟨true, fun _ ↦ true⟩
    ⟨true, true, true, [⟨0xF601, .client (), 12⟩], some (), 12, by decide⟩ {}).2

/-- Its procedures: bodies of one word. -/
def sysProcs : Procs Unit (SysReqRep UInt32) where
  proc _ := xdrSysReqRep Codec.word
  main _ _ := xdrSysReqRep Codec.word
  zero := ⟨0, 0, 0⟩

/-- A response with result `5`. -/
def sysResponse : Msg (SysReqRep UInt32) := ⟨1, 1, 7, 64, 0xF601, some ⟨0xF602, 5, 9⟩, 0⟩

/-- In a stream of `36` bytes the response makes the round trip. -/
theorem roundTrip_iff_whole :
    RoundTrip sysClient sysProcs (fun _ r ↦ wordBytes r.respId ++ (wordBytes r.result ++
      wordBytes r.body)) sysResponse 36 36 true := by
  refine (roundTrip_iff sysClient sysProcs _ (fun id x e _ ↦ ?_) sysResponse 36 36 true).2
    (.inr (.inr fun v hv ↦ ?_))
  · have hpayload : sysProcs.payload x e = xdrSysReqRep word := by
      rw [Procs.payload]
      cases e.mainProc <;> rfl
    rw [hpayload]
    exact (word.toFaithful.seq (word.toFaithful.seq word.toFaithful)).via fun _ ↦ rfl
  · cases hv
    decide

/-- **A payload that does not fit is dropped in silence.** In a stream of `24` bytes there is no
room for the payload of the response. `RPC_SerializeMsg` returns `RESULT_OK` all the same, and so
does `RPC_DeserializeMsg`, with a payload of zeros: the result `5` has become `0`. -/
theorem truncated_payload_accepted : (serializeMsg sysClient sysProcs sysResponse 24).1 = true ∧
      (deserializeMsg sysClient sysProcs true
        (serializeMsg sysClient sysProcs sysResponse 24).2).1 = true ∧
      (deserializeMsg sysClient sysProcs true
        (serializeMsg sysClient sysProcs sysResponse 24).2).2.dataBuf = some ⟨0, 0, 0⟩ ∧
      sysResponse.dataBuf = some ⟨0xF602, 5, 9⟩ := by
  decide

end Rpc
