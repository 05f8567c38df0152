import FluxCore.Utp.Connection
import Mathlib.Tactic.Tauto

/-!
# What each operation of a connection changes

`Core` is what the protocol turns on: the received stream, the numbers a connection sends under, the
packets waiting for an acknowledgement and the phase. Round-trip times, windows, timers and the
datagrams put out are not part of it. Most operations leave the core alone and the others change
one part of it; the lemmas here say so once for every operation, so that no later proof opens one.
`Emits` does the same for the datagrams put out: each one stands for the core its operation ends in.
-/

namespace FluxCore.Utp

/-- What reception builds: the stream up to `ack` and the packets ahead of it. -/
structure Incoming where
  ack : UInt16
  recvOut : Bytes
  recvReorder : OrderedMap UInt16 InPacket
  recvBuffered : UInt32
  eof : Bool

/-- Where packets go and under which numbers. -/
structure Outgoing where
  remoteAddr : String
  remotePort : UInt16
  recvId : UInt16
  sendId : UInt16
  synSeq : UInt16
  seq : UInt16
  pendingSend : Bytes
  finSeq : UInt16
  finSent : Bool
  finPending : Bool

/-- The state of a connection without its timers, windows and output. -/
structure Core where
  incoming : Incoming
  outgoing : Outgoing
  /-- The numbers and payloads waiting for an acknowledgement. -/
  unacked : List (UInt16 × Bytes)
  state : State
  synAcked : Bool

/-- The number and the payload of a packet, which no retransmission changes. -/
def OutPacket.content (p : OutPacket) : UInt16 × Bytes := (p.seq, p.payload)

@[simp] theorem OutPacket.content_resent (p : OutPacket) (nowUs : UInt32) :
    (p.resent nowUs).content = p.content := rfl

namespace UtpConnection

def incoming (c : UtpConnection) : Incoming :=
  ⟨c.ack, c.recvOut, c.recvReorder, c.recvBuffered, c.eof⟩

def outgoing (c : UtpConnection) : Outgoing :=
  ⟨c.remoteAddr, c.remotePort, c.recvId, c.sendId, c.synSeq, c.seq, c.pendingSend, c.finSeq,
    c.finSent, c.finPending⟩

def unacked (c : UtpConnection) : List (UInt16 × Bytes) := c.sendQueue.map OutPacket.content

def core (c : UtpConnection) : Core := ⟨c.incoming, c.outgoing, c.unacked, c.state, c.synAcked⟩

variable (c : UtpConnection)

@[simp] theorem core_incoming : c.core.incoming = c.incoming := rfl
@[simp] theorem core_outgoing : c.core.outgoing = c.outgoing := rfl
@[simp] theorem core_unacked : c.core.unacked = c.unacked := rfl
@[simp] theorem core_state : c.core.state = c.state := rfl
@[simp] theorem core_synAcked : c.core.synAcked = c.synAcked := rfl

@[simp] theorem length_unacked : c.unacked.length = c.sendQueue.length := List.length_map _

@[simp] theorem unacked_eq_nil : c.unacked = [] ↔ c.sendQueue = [] := List.map_eq_nil_iff

variable {c} {c' : UtpConnection}

theorem advertsiedWnd_congr (h : c.incoming = c'.incoming) :
    c.advertsiedWnd = c'.advertsiedWnd := by
  simp only [incoming, Incoming.mk.injEq] at h
  simp only [advertsiedWnd, h]

/-! ## Operations that leave the core alone -/

variable (c)

@[simp] theorem core_queueControl (type nowUs seqForAck) :
    (c.queueControl type nowUs seqForAck).core = c.core := rfl

@[simp] theorem core_sendAck (nowUs) : (c.sendAck nowUs).core = c.core := rfl

@[simp] theorem core_flushAck (nowUs) : (c.flushAck nowUs).core = c.core := by
  unfold flushAck
  split <;> rfl

@[simp] theorem core_noteReadable : c.noteReadable.core = c.core := rfl

@[simp] theorem core_retransmitPacket (i nowUs) : (c.retransmitPacket i nowUs).core = c.core := by
  unfold retransmitPacket
  split
  · rfl
  next p hp =>
    have hq : (c.sendQueue.set i (p.resent nowUs)).map OutPacket.content = c.unacked := by
      obtain ⟨hi, rfl⟩ := List.getElem?_eq_some_iff.mp hp
      rw [List.map_set, OutPacket.content_resent, ← List.map_set, List.set_getElem_self]
      rfl
    simp only [core, unacked, hq]
    rfl

@[simp] theorem core_retransmitUnacked (nowUs) : (c.retransmitUnacked nowUs).core = c.core := by
  have hq : (c.sendQueue.map (·.resent nowUs)).map OutPacket.content = c.unacked := by
    rw [List.map_map]; rfl
  simp only [core, unacked, retransmitUnacked, hq]
  rfl

@[simp] theorem core_fastRetransmit (i target nowUs) :
    (c.fastRetransmit i target nowUs).core = c.core := by
  unfold fastRetransmit
  split
  · rfl
  · exact c.core_retransmitPacket i nowUs

@[simp] theorem core_sackRetransmit (ackNr sackBits nowUs) :
    (c.sackRetransmit ackNr sackBits nowUs).core = c.core := by
  unfold sackRetransmit
  split
  · rfl
  · split
    · exact c.core_fastRetransmit ..
    · rfl

@[simp] theorem core_retransmitNumbered (target nowUs) :
    (c.retransmitNumbered target nowUs).core = c.core := by
  unfold retransmitNumbered
  split
  · rfl
  · exact c.core_fastRetransmit ..

@[simp] theorem core_dupAckRetransmit (ackNr nowUs) :
    (c.dupAckRetransmit ackNr nowUs).core = c.core := by
  unfold dupAckRetransmit
  split
  · exact c.core_retransmitNumbered ..
  · rfl

@[simp] theorem core_updateRtt (rttUs) : (c.updateRtt rttUs).core = c.core := by
  unfold updateRtt
  split
  · rfl
  · dsimp only
    split <;> rfl

@[simp] theorem core_updateDelay (sampleUs nowUs) :
    (c.updateDelay sampleUs nowUs).core = c.core := by
  unfold updateDelay
  dsimp only
  split <;> rfl

@[simp] theorem core_updateWindow (newlyAcked) : (c.updateWindow newlyAcked).core = c.core := rfl

@[simp] theorem core_countAck (ackNr) : (c.countAck ackNr).core = c.core := by
  unfold countAck
  split <;> rfl

@[simp] theorem core_shrinkWindow (freed) : (c.shrinkWindow freed).core = c.core := rfl

@[simp] theorem core_wakeWriter : c.wakeWriter.core = c.core := rfl

@[simp] theorem core_freeWindow (s) : (c.freeWindow s).core = c.core := by
  unfold freeWindow
  dsimp only
  split
  · split <;> simp
  · rfl

@[simp] theorem core_noteFinAck (ackNr) : (c.noteFinAck ackNr).core = c.core := by
  unfold noteFinAck
  split <;> rfl

@[simp] theorem core_notePacket (hdr nowUs) : (c.notePacket hdr nowUs).core = c.core := by
  unfold notePacket
  dsimp only
  split
  · exact core_updateDelay ..
  · rfl

/-! ## Acknowledgements -/

theorem removeAcked_content (finSent finSeq ackNr nowUs) (queue : List OutPacket) (s : AckScan) :
    (removeAcked finSent finSeq ackNr nowUs queue s).1.map OutPacket.content =
      (queue.map OutPacket.content).dropWhile fun p => seqLeq p.1 ackNr := by
  induction queue generalizing s with
  | nil => rfl
  | cons front queue ih =>
    by_cases h : seqLeq front.seq ackNr
    · simp [removeAcked, h, ih, OutPacket.content]
    · simp [removeAcked, h, OutPacket.content]

/-- Acknowledged packets leave the front of the send queue. -/
theorem core_ackPackets (ackNr nowUs) :
    (c.ackPackets ackNr nowUs).core =
      { c.core with unacked := c.unacked.dropWhile fun p => seqLeq p.1 ackNr } := by
  have hcore := c.core_countAck ackNr
  unfold ackPackets
  generalize c.countAck ackNr = c₁ at hcore ⊢
  rw [core_noteFinAck, core_freeWindow, ← core_unacked c, ← hcore, core_unacked, unacked,
    ← removeAcked_content]
  rfl

theorem core_finishCloseIfIdle :
    c.finishCloseIfIdle.core = { c.core with state := c.finishCloseIfIdle.state } := by
  unfold finishCloseIfIdle
  split <;> rfl

theorem finishCloseIfIdle_state : c.finishCloseIfIdle.state = c.state ∨
    c.finishCloseIfIdle.state = .closed := by
  unfold finishCloseIfIdle
  split
  · exact .inr rfl
  · exact .inl rfl

/-- What an acknowledgement leaves waiting. Before the handshake is over it is not looked at. -/
def afterAck (ackNr : UInt16) : List (UInt16 × Bytes) :=
  if c.state = .synSent && !c.synAcked then c.unacked
  else c.unacked.dropWhile fun p => seqLeq p.1 ackNr

theorem core_onAck (ackNr sackBits nowUs) :
    (c.onAck ackNr sackBits nowUs).core =
      { c.core with
        unacked := c.afterAck ackNr
        state := (c.onAck ackNr sackBits nowUs).state } := by
  unfold onAck afterAck
  split
  · rfl
  · have hcore := c.core_ackPackets ackNr nowUs
    rw [← core_sackRetransmit _ ackNr sackBits nowUs, ← core_dupAckRetransmit _ ackNr nowUs]
      at hcore
    dsimp only
    split
    · rw [core_finishCloseIfIdle, hcore]
    · rw [← core_state, hcore]

theorem onAck_state (ackNr sackBits nowUs) :
    (c.onAck ackNr sackBits nowUs).state = c.state ∨
      (c.onAck ackNr sackBits nowUs).state = .closed := by
  unfold onAck
  split
  · exact .inl rfl
  · have hstate : (((c.ackPackets ackNr nowUs).sackRetransmit ackNr sackBits nowUs).dupAckRetransmit
        ackNr nowUs).state = c.state := by
      rw [← core_state, core_dupAckRetransmit, core_sackRetransmit, core_ackPackets]
      rfl
    dsimp only
    split
    · exact hstate ▸ finishCloseIfIdle_state _
    · exact .inl hstate

@[simp] theorem onAck_incoming (ackNr sackBits nowUs) :
    (c.onAck ackNr sackBits nowUs).incoming = c.incoming :=
  congrArg Core.incoming (c.core_onAck ..)

@[simp] theorem onAck_outgoing (ackNr sackBits nowUs) :
    (c.onAck ackNr sackBits nowUs).outgoing = c.outgoing :=
  congrArg Core.outgoing (c.core_onAck ..)

@[simp] theorem onAck_synAcked (ackNr sackBits nowUs) :
    (c.onAck ackNr sackBits nowUs).synAcked = c.synAcked :=
  congrArg Core.synAcked (c.core_onAck ..)

@[simp] theorem onAck_unacked (ackNr sackBits nowUs) :
    (c.onAck ackNr sackBits nowUs).unacked = c.afterAck ackNr :=
  congrArg Core.unacked (c.core_onAck ..)

/-! ## Data and FIN -/

theorem core_drainReorder (fuel) :
    (c.drainReorder fuel).core = { c.core with incoming := (c.drainReorder fuel).incoming } := by
  induction fuel generalizing c with
  | zero => rfl
  | succ fuel ih =>
    unfold drainReorder
    split
    · rfl
    · split
      · rfl
      · exact ih _

theorem core_bufferPacket (s payload nowUs) :
    (c.bufferPacket s payload nowUs).core =
      { c.core with incoming := (c.bufferPacket s payload nowUs).incoming } := by
  unfold bufferPacket
  split
  · split <;> rfl
  · rfl

theorem core_onData (hdr payload nowUs) :
    (c.onData hdr payload nowUs).core =
      { c.core with incoming := (c.onData hdr payload nowUs).incoming } := by
  unfold onData
  dsimp only
  split
  · rfl
  · split
    · rfl
    · split
      · exact core_drainReorder ..
      · exact core_bufferPacket ..

/-- A packet at or before `ack`, or without payload, changes nothing in the received stream. -/
theorem onData_incoming_of_old {c : UtpConnection} {hdr : PacketHeader} {payload : Bytes}
    (h : payload = [] ∨ seqLeq hdr.seqNr c.ack = true) (nowUs) :
    (c.onData hdr payload nowUs).incoming = c.incoming := by
  unfold onData
  dsimp only
  split
  · rfl
  next hne =>
    rw [if_pos (h.resolve_left (by simpa using hne))]
    rfl

@[simp] theorem drainReorder_eof (fuel) : (c.drainReorder fuel).eof = c.eof := by
  induction fuel generalizing c with
  | zero => rfl
  | succ fuel ih =>
    unfold drainReorder
    split
    · rfl
    · split
      · rfl
      · exact ih _

@[simp] theorem bufferPacket_eof (s payload nowUs) :
    (c.bufferPacket s payload nowUs).eof = c.eof := by
  unfold bufferPacket
  split
  · split <;> rfl
  · rfl

@[simp] theorem onData_eof (hdr payload nowUs) : (c.onData hdr payload nowUs).eof = c.eof := by
  unfold onData
  dsimp only
  split
  · rfl
  · split
    · rfl
    · split
      · exact drainReorder_eof ..
      · exact bufferPacket_eof ..

theorem onFin_incoming (hdr : PacketHeader) : (c.onFin hdr).incoming =
    if hdr.seqNr = c.ack + 1 && !c.eof then { c.incoming with ack := hdr.seqNr, eof := true }
    else c.incoming := by
  unfold onFin
  dsimp only
  split <;> rfl

theorem core_onFin (hdr) :
    (c.onFin hdr).core = { c.core with incoming := (c.onFin hdr).incoming } := by
  unfold onFin
  dsimp only
  split <;> rfl

theorem enterConnected_of_ne {c : UtpConnection} {hdr : PacketHeader} (h : c.state ≠ .synSent)
    (h' : c.state ≠ .synRecv) : c.enterConnected hdr = c := by
  unfold enterConnected
  split
  · contradiction
  · contradiction
  · rfl

@[simp] theorem enterConnected_outgoing (hdr) : (c.enterConnected hdr).outgoing = c.outgoing := by
  unfold enterConnected
  split <;> rfl

@[simp] theorem enterConnected_unacked (hdr) : (c.enterConnected hdr).unacked = c.unacked := by
  unfold enterConnected
  split <;> rfl

theorem enterConnected_incoming {c : UtpConnection} (hdr) (h : c.state ≠ .synSent) :
    (c.enterConnected hdr).incoming = c.incoming := by
  unfold enterConnected
  split
  · rfl
  · contradiction
  · rfl

@[simp] theorem onData_outgoing (hdr payload nowUs) :
    (c.onData hdr payload nowUs).outgoing = c.outgoing :=
  congrArg Core.outgoing (c.core_onData ..)

@[simp] theorem onData_unacked (hdr payload nowUs) :
    (c.onData hdr payload nowUs).unacked = c.unacked :=
  congrArg Core.unacked (c.core_onData ..)

@[simp] theorem onData_state (hdr payload nowUs) :
    (c.onData hdr payload nowUs).state = c.state :=
  congrArg Core.state (c.core_onData ..)

@[simp] theorem onData_synAcked (hdr payload nowUs) :
    (c.onData hdr payload nowUs).synAcked = c.synAcked :=
  congrArg Core.synAcked (c.core_onData ..)

@[simp] theorem onFin_outgoing (hdr) : (c.onFin hdr).outgoing = c.outgoing :=
  congrArg Core.outgoing (c.core_onFin hdr)

@[simp] theorem onFin_unacked (hdr) : (c.onFin hdr).unacked = c.unacked :=
  congrArg Core.unacked (c.core_onFin hdr)

@[simp] theorem onFin_state (hdr) : (c.onFin hdr).state = c.state :=
  congrArg Core.state (c.core_onFin hdr)

@[simp] theorem onFin_synAcked (hdr) : (c.onFin hdr).synAcked = c.synAcked :=
  congrArg Core.synAcked (c.core_onFin hdr)

@[simp] theorem notePacket_incoming (hdr nowUs) : (c.notePacket hdr nowUs).incoming = c.incoming :=
  congrArg Core.incoming (c.core_notePacket ..)

@[simp] theorem notePacket_outgoing (hdr nowUs) : (c.notePacket hdr nowUs).outgoing = c.outgoing :=
  congrArg Core.outgoing (c.core_notePacket ..)

@[simp] theorem notePacket_unacked (hdr nowUs) : (c.notePacket hdr nowUs).unacked = c.unacked :=
  congrArg Core.unacked (c.core_notePacket ..)

@[simp] theorem notePacket_state (hdr nowUs) : (c.notePacket hdr nowUs).state = c.state :=
  congrArg Core.state (c.core_notePacket ..)

@[simp] theorem notePacket_synAcked (hdr nowUs) : (c.notePacket hdr nowUs).synAcked = c.synAcked :=
  congrArg Core.synAcked (c.core_notePacket ..)

@[simp] theorem notePacket_ackPending (hdr nowUs) :
    (c.notePacket hdr nowUs).ackPending = c.ackPending := by
  unfold notePacket
  dsimp only
  split
  · unfold updateDelay
    dsimp only
    split <;> rfl
  · rfl

/-! ## Packet reception -/

theorem adoptState_of_ne {c : UtpConnection} {hdr : PacketHeader} (h : c.state ≠ .synSent) :
    c.adoptState hdr = c := if_neg h

@[simp] theorem adoptState_outgoing (hdr) : (c.adoptState hdr).outgoing = c.outgoing := by
  unfold adoptState
  split <;> rfl

@[simp] theorem adoptState_unacked (hdr) : (c.adoptState hdr).unacked = c.unacked := by
  unfold adoptState
  split <;> rfl

/-- Every packet but a reset acts on the core through the type switch. -/
theorem core_handleParsed {c : UtpConnection} {hdr : PacketHeader} (h : hdr.type ≠ ST_RESET)
    (sack payload nowUs) :
    (c.handleParsed hdr sack payload nowUs).core =
      ((c.notePacket hdr nowUs).dispatchPacket hdr sack payload nowUs).core := by
  unfold handleParsed
  rw [if_neg h]
  exact core_flushAck ..

theorem core_handleParsed_reset {c : UtpConnection} {hdr : PacketHeader} (h : hdr.type = ST_RESET)
    (sack payload nowUs) :
    (c.handleParsed hdr sack payload nowUs).core = { c.core with state := .closed } := by
  unfold handleParsed
  rw [if_pos h, ← c.core_notePacket hdr nowUs]
  rfl

theorem dispatchPacket_syn {c : UtpConnection} {hdr : PacketHeader} (h : hdr.type = ST_SYN)
    (sack payload nowUs) : (c.dispatchPacket hdr sack payload nowUs).core = c.core := by
  unfold dispatchPacket
  rw [if_pos h]
  split
  · exact core_queueControl ..
  · rfl

theorem dispatchPacket_state {c : UtpConnection} {hdr : PacketHeader} (h : hdr.type = ST_STATE)
    (sack payload nowUs) : c.dispatchPacket hdr sack payload nowUs =
      (c.adoptState hdr).onAck hdr.ackNr sack nowUs := by
  simp [dispatchPacket, h, ST_STATE, ST_SYN]

theorem dispatchPacket_data {c : UtpConnection} {hdr : PacketHeader} (h : hdr.type = ST_DATA)
    (sack payload nowUs) : c.dispatchPacket hdr sack payload nowUs =
      ((c.enterConnected hdr).onData hdr payload nowUs).onAck hdr.ackNr sack nowUs := by
  simp [dispatchPacket, h, ST_STATE, ST_SYN, ST_DATA]

theorem dispatchPacket_fin {c : UtpConnection} {hdr : PacketHeader} (h : hdr.type = ST_FIN)
    (sack payload nowUs) : c.dispatchPacket hdr sack payload nowUs =
      ((c.enterConnected hdr).onFin hdr).onAck hdr.ackNr sack nowUs := by
  simp [dispatchPacket, h, ST_STATE, ST_SYN, ST_DATA, ST_FIN]

theorem dispatchPacket_other {c : UtpConnection} {hdr : PacketHeader} (h : hdr.type ≠ ST_SYN)
    (h₁ : hdr.type ≠ ST_STATE) (h₂ : hdr.type ≠ ST_DATA) (h₃ : hdr.type ≠ ST_FIN)
    (sack payload nowUs) : c.dispatchPacket hdr sack payload nowUs = c := by
  simp [dispatchPacket, h, h₁, h₂, h₃]

/-- The kinds of packet the type switch tells apart. -/
theorem type_cases (hdr : PacketHeader) : hdr.type = ST_SYN ∨ hdr.type = ST_STATE ∨
    hdr.type = ST_DATA ∨ hdr.type = ST_FIN ∨
    hdr.type ≠ ST_SYN ∧ hdr.type ≠ ST_STATE ∧ hdr.type ≠ ST_DATA ∧ hdr.type ≠ ST_FIN := by
  tauto

@[simp] theorem handleParsed_outgoing (hdr sack payload nowUs) :
    (c.handleParsed hdr sack payload nowUs).outgoing = c.outgoing := by
  rw [← core_outgoing]
  by_cases hreset : hdr.type = ST_RESET
  · rw [core_handleParsed_reset hreset, core_outgoing]
  · rw [core_handleParsed hreset]
    rcases type_cases hdr with h | h | h | h | ⟨h, h₁, h₂, h₃⟩
    · rw [dispatchPacket_syn h]; simp
    · rw [dispatchPacket_state h]; simp
    · rw [dispatchPacket_data h]; simp
    · rw [dispatchPacket_fin h]; simp
    · rw [dispatchPacket_other h h₁ h₂ h₃]; simp

/-- A received packet leaves what it sends under and where as it is. -/
@[simp] theorem handlePacket_outgoing (data nowUs) :
    (c.handlePacket data nowUs).outgoing = c.outgoing := by
  unfold handlePacket
  split
  · rfl
  · exact handleParsed_outgoing ..

/-- What a packet leaves waiting: a packet with an acknowledgement takes the packets it covers. -/
def unackedAfter (hdr : PacketHeader) : List (UInt16 × Bytes) :=
  if hdr.type = ST_STATE ∨ hdr.type = ST_DATA ∨ hdr.type = ST_FIN then
    c.unacked.dropWhile fun p => seqLeq p.1 hdr.ackNr
  else c.unacked

theorem afterAck_of_ne {c : UtpConnection} (h : c.state ≠ .synSent) (ackNr) :
    c.afterAck ackNr = c.unacked.dropWhile fun p => seqLeq p.1 ackNr := by
  simp [afterAck, h]

theorem enterConnected_state (hdr : PacketHeader) :
    (c.enterConnected hdr).state =
      if c.state = .synSent ∨ c.state = .synRecv then .connected else c.state := by
  unfold enterConnected
  split <;> simp_all

theorem adoptState_state (hdr : PacketHeader) :
    (c.adoptState hdr).state = if c.state = .synSent then .connected else c.state := by
  unfold adoptState
  split <;> rfl

theorem enterConnected_ne_synSent (hdr : PacketHeader) :
    (c.enterConnected hdr).state ≠ .synSent := by
  rw [enterConnected_state]
  split <;> simp_all

theorem adoptState_ne_synSent (hdr : PacketHeader) : (c.adoptState hdr).state ≠ .synSent := by
  rw [adoptState_state]
  split <;> simp_all

theorem handleParsed_unacked (hdr sack payload nowUs) :
    (c.handleParsed hdr sack payload nowUs).unacked = c.unackedAfter hdr := by
  rw [← core_unacked]
  by_cases hreset : hdr.type = ST_RESET
  · rw [core_handleParsed_reset hreset, unackedAfter, if_neg (by rw [hreset]; decide)]
    rfl
  rw [core_handleParsed hreset]
  rcases type_cases hdr with h | h | h | h | ⟨h, h₁, h₂, h₃⟩
  · rw [dispatchPacket_syn h, core_notePacket, unackedAfter, if_neg (by rw [h]; decide)]
    rfl
  · rw [dispatchPacket_state h, core_unacked, onAck_unacked,
      afterAck_of_ne (adoptState_ne_synSent _ _), unackedAfter, if_pos (.inl h)]
    simp
  · rw [dispatchPacket_data h, core_unacked, onAck_unacked, afterAck_of_ne
      (by rw [onData_state]; exact enterConnected_ne_synSent _ _), unackedAfter,
      if_pos (.inr (.inl h))]
    simp
  · rw [dispatchPacket_fin h, core_unacked, onAck_unacked, afterAck_of_ne
      (by rw [onFin_state]; exact enterConnected_ne_synSent _ _), unackedAfter,
      if_pos (.inr (.inr h))]
    simp
  · rw [dispatchPacket_other h h₁ h₂ h₃, core_notePacket, unackedAfter, if_neg (by tauto)]
    rfl

theorem unackedAfter_suffix (hdr) : c.unackedAfter hdr <:+ c.unacked := by
  unfold unackedAfter
  split
  · exact List.dropWhile_suffix _
  · exact List.suffix_refl _

/-- A received packet takes at most a prefix of the send queue. -/
theorem handlePacket_unacked_suffix (data nowUs) :
    (c.handlePacket data nowUs).unacked <:+ c.unacked := by
  unfold handlePacket
  split
  · exact List.suffix_refl _
  · rw [handleParsed_unacked]
    exact c.unackedAfter_suffix _

/-! ### By type of packet -/

section
variable {c : UtpConnection} {hdr : PacketHeader} {data : Bytes} {exts : List (UInt8 × Bytes)}

theorem handlePacket_eq (h : parsePacket data = some (hdr, exts)) (nowUs) :
    c.handlePacket data nowUs = c.handleParsed hdr (sackOf exts) (payloadOf data exts) nowUs := by
  rw [handlePacket, h]

/-- A data packet reaches the received stream through `onData` only. -/
theorem handleParsed_incoming_data (h : hdr.type = ST_DATA) (sack payload nowUs) :
    (c.handleParsed hdr sack payload nowUs).incoming =
      (((c.notePacket hdr nowUs).enterConnected hdr).onData hdr payload nowUs).incoming := by
  rw [← core_incoming, core_handleParsed (by rw [h]; decide), dispatchPacket_data h, core_incoming,
    onAck_incoming]

theorem handleParsed_incoming_fin (h : hdr.type = ST_FIN) (sack payload nowUs) :
    (c.handleParsed hdr sack payload nowUs).incoming =
      (((c.notePacket hdr nowUs).enterConnected hdr).onFin hdr).incoming := by
  rw [← core_incoming, core_handleParsed (by rw [h]; decide), dispatchPacket_fin h, core_incoming,
    onAck_incoming]

theorem handleParsed_incoming_state (h : hdr.type = ST_STATE) (sack payload nowUs) :
    (c.handleParsed hdr sack payload nowUs).incoming =
      ((c.notePacket hdr nowUs).adoptState hdr).incoming := by
  rw [← core_incoming, core_handleParsed (by rw [h]; decide), dispatchPacket_state h,
    core_incoming, onAck_incoming]

/-- A packet of another type leaves the received stream as it is. -/
theorem handleParsed_incoming_other (h₁ : hdr.type ≠ ST_STATE) (h₂ : hdr.type ≠ ST_DATA)
    (h₃ : hdr.type ≠ ST_FIN) (sack payload nowUs) :
    (c.handleParsed hdr sack payload nowUs).incoming = c.incoming := by
  rw [← core_incoming]
  by_cases hreset : hdr.type = ST_RESET
  · rw [core_handleParsed_reset hreset, core_incoming]
  · rw [core_handleParsed hreset]
    by_cases h : hdr.type = ST_SYN
    · rw [dispatchPacket_syn h]; simp
    · rw [dispatchPacket_other h h₁ h₂ h₃]; simp

/-- A received packet moves a connection from the handshake to `connected` or closes it. -/
theorem handleParsed_state (c : UtpConnection) (hdr sack payload nowUs) :
    (c.handleParsed hdr sack payload nowUs).state = c.state ∨
      (c.handleParsed hdr sack payload nowUs).state = .closed ∨
      (c.handleParsed hdr sack payload nowUs).state = .connected ∧
        (c.state = .synSent ∨ c.state = .synRecv) := by
  rw [← core_state, ← c.notePacket_state hdr nowUs]
  by_cases hreset : hdr.type = ST_RESET
  · exact .inr (.inl (congrArg Core.state (core_handleParsed_reset hreset sack payload nowUs)))
  rw [core_handleParsed hreset]
  generalize c.notePacket hdr nowUs = c
  rcases type_cases hdr with h | h | h | h | ⟨h, h₁, h₂, h₃⟩
  · rw [dispatchPacket_syn h]
    exact .inl rfl
  · rw [dispatchPacket_state h, core_state]
    have hst := adoptState_state c hdr
    rcases onAck_state (c.adoptState hdr) hdr.ackNr sack nowUs with h | h
    · rw [h, hst]
      split <;> simp_all
    · exact .inr (.inl h)
  · rw [dispatchPacket_data h, core_state]
    have hst := enterConnected_state c hdr
    rcases onAck_state ((c.enterConnected hdr).onData hdr payload nowUs) hdr.ackNr sack nowUs with
      h | h
    · rw [h, onData_state, hst]
      split <;> simp_all
    · exact .inr (.inl h)
  · rw [dispatchPacket_fin h, core_state]
    have hst := enterConnected_state c hdr
    rcases onAck_state ((c.enterConnected hdr).onFin hdr) hdr.ackNr sack nowUs with h | h
    · rw [h, onFin_state, hst]
      split <;> simp_all
    · exact .inr (.inl h)
  · rw [dispatchPacket_other h h₁ h₂ h₃]
    exact .inl rfl

/-- Without data or a FIN an answered connection does not change its phase, unless it closes. -/
theorem handleParsed_state_of_control (h : c.state ≠ .synSent) (h₂ : hdr.type ≠ ST_DATA)
    (h₃ : hdr.type ≠ ST_FIN) (sack payload nowUs) :
    (c.handleParsed hdr sack payload nowUs).state = c.state ∨
      (c.handleParsed hdr sack payload nowUs).state = .closed := by
  rw [← core_state]
  by_cases hreset : hdr.type = ST_RESET
  · exact .inr (congrArg Core.state (core_handleParsed_reset hreset sack payload nowUs))
  rw [core_handleParsed hreset, ← c.notePacket_state hdr nowUs]
  rw [← c.notePacket_state hdr nowUs] at h
  generalize c.notePacket hdr nowUs = c at h ⊢
  rcases type_cases hdr with h₀ | h₁ | h' | h' | ⟨h₀, h₁, -, -⟩
  · rw [dispatchPacket_syn h₀]
    exact .inl rfl
  · rw [dispatchPacket_state h₁, adoptState_of_ne h]
    exact onAck_state ..
  · exact absurd h' h₂
  · exact absurd h' h₃
  · rw [dispatchPacket_other h₀ h₁ h₂ h₃]
    exact .inl rfl

/-- An ST_STATE answers the SYN. -/
theorem handleParsed_answer (h : c.state = .synSent) (ht : hdr.type = ST_STATE)
    (sack payload nowUs) :
    ((c.handleParsed hdr sack payload nowUs).state = .connected ∨
      (c.handleParsed hdr sack payload nowUs).state = .closed) ∧
    (c.handleParsed hdr sack payload nowUs).synAcked = true ∧
    (c.handleParsed hdr sack payload nowUs).incoming =
      { c.incoming with ack := hdr.seqNr - 1 } := by
  rw [← core_state, ← core_synAcked, ← core_incoming, core_handleParsed (by rw [ht]; decide),
    dispatchPacket_state ht, ← c.notePacket_incoming hdr nowUs]
  rw [← c.notePacket_state hdr nowUs] at h
  generalize c.notePacket hdr nowUs = c at h ⊢
  have hadopt : c.adoptState hdr =
      { c with ack := hdr.seqNr - 1, synAcked := true, state := .connected } := if_pos h
  rw [hadopt, core_state, core_synAcked, core_incoming, onAck_synAcked, onAck_incoming]
  exact ⟨onAck_state .., rfl, rfl⟩

theorem handleParsed_synAcked_of_ne (h : c.state ≠ .synSent) (sack payload nowUs) :
    (c.handleParsed hdr sack payload nowUs).synAcked = c.synAcked := by
  rw [← core_synAcked]
  by_cases hreset : hdr.type = ST_RESET
  · rw [core_handleParsed_reset hreset]
    rfl
  rw [core_handleParsed hreset, ← c.notePacket_synAcked hdr nowUs]
  rw [← c.notePacket_state hdr nowUs] at h
  generalize c.notePacket hdr nowUs = c at h ⊢
  have henter : (c.enterConnected hdr).synAcked = c.synAcked := by
    unfold enterConnected
    split <;> first | rfl | contradiction
  rcases type_cases hdr with h₀ | h₁ | h₂ | h₃ | ⟨h₀, h₁, h₂, h₃⟩
  · rw [dispatchPacket_syn h₀]
    rfl
  · rw [dispatchPacket_state h₁, adoptState_of_ne h]
    exact onAck_synAcked ..
  · rw [dispatchPacket_data h₂]
    simpa using henter
  · rw [dispatchPacket_fin h₃]
    simpa using henter
  · rw [dispatchPacket_other h₀ h₁ h₂ h₃]
    rfl

theorem handlePacket_state (c : UtpConnection) (data nowUs) :
    (c.handlePacket data nowUs).state = c.state ∨ (c.handlePacket data nowUs).state = .closed ∨
      (c.handlePacket data nowUs).state = .connected ∧
        (c.state = .synSent ∨ c.state = .synRecv) := by
  unfold handlePacket
  split
  · exact .inl rfl
  · exact handleParsed_state ..

end

/-! ## Stream interface -/

theorem core_read (cap) :
    (c.read cap).2.core =
      { c.core with incoming := { c.incoming with recvOut := c.recvOut.drop cap } } := by
  unfold read
  dsimp only
  split <;> rfl

@[simp] theorem read_ack (cap) : (c.read cap).2.ack = c.ack :=
  congrArg (·.incoming.ack) (c.core_read cap)

@[simp] theorem read_recvOut (cap) : (c.read cap).2.recvOut = c.recvOut.drop cap :=
  congrArg (·.incoming.recvOut) (c.core_read cap)

@[simp] theorem read_recvReorder (cap) : (c.read cap).2.recvReorder = c.recvReorder :=
  congrArg (·.incoming.recvReorder) (c.core_read cap)

@[simp] theorem read_eof (cap) : (c.read cap).2.eof = c.eof :=
  congrArg (·.incoming.eof) (c.core_read cap)

@[simp] theorem read_state (cap) : (c.read cap).2.state = c.state :=
  congrArg Core.state (c.core_read cap)

@[simp] theorem read_synAcked (cap) : (c.read cap).2.synAcked = c.synAcked :=
  congrArg Core.synAcked (c.core_read cap)

@[simp] theorem read_outgoing (cap) : (c.read cap).2.outgoing = c.outgoing :=
  congrArg Core.outgoing (c.core_read cap)

@[simp] theorem read_unacked (cap) : (c.read cap).2.unacked = c.unacked :=
  congrArg Core.unacked (c.core_read cap)

/-- Reading takes the bytes it returns off the front of the stream. -/
theorem read_append (cap) : (c.read cap).1 ++ (c.read cap).2.recvOut = c.recvOut := by
  rw [read_recvOut]
  exact List.take_append_drop cap c.recvOut

theorem core_write (data) :
    (c.write data).2.core =
      { c.core with
        outgoing := { c.outgoing with
          pendingSend := c.pendingSend ++ data.take (c.write data).1 } } := by
  unfold write
  split
  · simp [core, outgoing, incoming, unacked]
  · rfl

theorem core_close :
    c.close.core =
      { c.core with
        outgoing := { c.outgoing with finPending := c.close.finPending }
        state := c.close.state } := by
  unfold close
  split
  · rfl
  · split <;> rfl

theorem close_state : c.close.state = c.state ∨ c.close.state = .closed := by
  unfold close
  split
  · exact .inl rfl
  · split
    · exact .inr rfl
    · exact .inl rfl

@[simp] theorem core_drainOutbox : c.drainOutbox.2.core = c.core := rfl

end UtpConnection

end FluxCore.Utp
