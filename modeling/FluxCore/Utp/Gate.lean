import FluxCore.Utp.Output

/-!
# The flow-control gate

What `canSendData` and the timers wait for beside the core of a connection: the window the peer has
advertised, the packet size, whether an acknowledgement of the FIN or to the peer is still due, and
when a packet last arrived. Only a received packet sets the peer's window and the time, and only an
acknowledgement ends the wait for a FIN.
-/

namespace FluxCore.Utp

structure Gate where
  peerWnd : UInt32
  packetSize : UInt32
  finAcked : Bool
  ackPending : Bool
  lastRecvUs : UInt32

/-- Packets whose acknowledgement number is looked at. -/
def PacketHeader.Acks (hdr : PacketHeader) : Prop :=
  hdr.type = ST_STATE ∨ hdr.type = ST_DATA ∨ hdr.type = ST_FIN

namespace UtpConnection

def gate (c : UtpConnection) : Gate := ⟨c.peerWnd, c.packetSize, c.finAcked, c.ackPending, c.lastRecvUs⟩

variable (c : UtpConnection)

/-! ## Operations that leave the gate alone -/

@[simp] theorem gate_retransmitPacket (i nowUs) : (c.retransmitPacket i nowUs).gate = c.gate := by
  unfold retransmitPacket
  split <;> rfl

@[simp] theorem gate_fastRetransmit (i target nowUs) :
    (c.fastRetransmit i target nowUs).gate = c.gate := by
  unfold fastRetransmit
  split
  · rfl
  · exact c.gate_retransmitPacket i nowUs

@[simp] theorem gate_sackRetransmit (ackNr sackBits nowUs) :
    (c.sackRetransmit ackNr sackBits nowUs).gate = c.gate := by
  unfold sackRetransmit
  split
  · rfl
  · split
    · exact c.gate_fastRetransmit ..
    · rfl

@[simp] theorem gate_retransmitNumbered (target nowUs) :
    (c.retransmitNumbered target nowUs).gate = c.gate := by
  unfold retransmitNumbered
  split
  · rfl
  · exact c.gate_fastRetransmit ..

@[simp] theorem gate_dupAckRetransmit (ackNr nowUs) :
    (c.dupAckRetransmit ackNr nowUs).gate = c.gate := by
  unfold dupAckRetransmit
  split
  · exact c.gate_retransmitNumbered ..
  · rfl

@[simp] theorem gate_updateRtt (rttUs) : (c.updateRtt rttUs).gate = c.gate := by
  unfold updateRtt
  split
  · rfl
  · dsimp only
    split <;> rfl

@[simp] theorem gate_updateDelay (sampleUs nowUs) :
    (c.updateDelay sampleUs nowUs).gate = c.gate := by
  unfold updateDelay
  dsimp only
  split <;> rfl

@[simp] theorem gate_countAck (ackNr) : (c.countAck ackNr).gate = c.gate := by
  unfold countAck
  split <;> rfl

@[simp] theorem gate_finishCloseIfIdle : c.finishCloseIfIdle.gate = c.gate := by
  unfold finishCloseIfIdle
  split <;> rfl

@[simp] theorem gate_drainReorder (fuel) : (c.drainReorder fuel).gate = c.gate := by
  induction fuel generalizing c with
  | zero => rfl
  | succ fuel ih =>
    unfold drainReorder
    split
    · rfl
    · split
      · rfl
      · exact ih _

@[simp] theorem gate_bufferPacket (s payload nowUs) :
    (c.bufferPacket s payload nowUs).gate = c.gate := by
  unfold bufferPacket
  split
  · split <;> rfl
  · rfl

@[simp] theorem gate_enterConnected (hdr) : (c.enterConnected hdr).gate = c.gate := by
  unfold enterConnected
  split <;> rfl

@[simp] theorem gate_adoptState (hdr) : (c.adoptState hdr).gate = c.gate := by
  unfold adoptState
  split <;> rfl

@[simp] theorem gate_flushFin (nowUs) : (c.flushFin nowUs).gate = c.gate := by
  unfold flushFin
  split <;> rfl

@[simp] theorem gate_retransmitFin (nowUs) : (c.retransmitFin nowUs).gate = c.gate := by
  unfold retransmitFin
  split <;> rfl

@[simp] theorem gate_synTimeout (nowUs) : (c.synTimeout nowUs).gate = c.gate := by
  unfold synTimeout
  split
  · rfl
  · dsimp only
    split <;> rfl

@[simp] theorem gate_flushPending (nowUs fuel) : (flushPending nowUs fuel c).gate = c.gate := by
  induction fuel generalizing c with
  | zero => rfl
  | succ fuel ih =>
    unfold flushPending
    split
    · rfl
    · split
      · rfl
      · exact ih _

@[simp] theorem gate_flushData (nowUs) : (c.flushData nowUs).gate = c.gate := by
  unfold flushData
  split
  · exact c.gate_flushPending ..
  · rfl

@[simp] theorem gate_write (data) : (c.write data).2.gate = c.gate := by
  unfold write
  split <;> rfl

@[simp] theorem gate_read (cap) : (c.read cap).2.gate = c.gate := by
  unfold read
  dsimp only
  split <;> rfl

@[simp] theorem gate_close : c.close.gate = c.gate := by
  unfold close
  split
  · rfl
  · split <;> rfl

/-! ## Operations that change it -/

theorem gate_flushAck (nowUs) : (c.flushAck nowUs).gate = { c.gate with ackPending := false } := by
  unfold flushAck
  split
  · rfl
  next h => simp [gate, h]

theorem gate_onData (hdr payload nowUs) :
    (c.onData hdr payload nowUs).gate = { c.gate with ackPending := true } := by
  unfold onData
  dsimp only
  split
  · rfl
  · split
    · rfl
    · split
      · exact gate_drainReorder ..
      · exact gate_bufferPacket ..

theorem gate_onFin (hdr) : (c.onFin hdr).gate = { c.gate with ackPending := true } := by
  unfold onFin
  dsimp only
  split <;> rfl

theorem gate_notePacket (hdr nowUs) :
    (c.notePacket hdr nowUs).gate =
      { c.gate with peerWnd := hdr.wndSize, lastRecvUs := nowUs } := by
  unfold notePacket
  dsimp only
  split
  · exact gate_updateDelay ..
  · rfl

/-- Freed bytes restore a packet size that a timeout has collapsed. -/
theorem gate_freeWindow (s) :
    (c.freeWindow s).gate = { c.gate with packetSize := (c.freeWindow s).packetSize } ∧
      (c.packetSize ≤ DEFAULT_PACKET_SIZE → (c.freeWindow s).packetSize ≤ DEFAULT_PACKET_SIZE) := by
  have hshrink : ∀ freed, c.packetSize ≤ DEFAULT_PACKET_SIZE →
      (c.shrinkWindow freed).packetSize ≤ DEFAULT_PACKET_SIZE := fun freed hs => by
    unfold shrinkWindow
    dsimp only
    split
    · exact UInt32.le_refl _
    · exact hs
  unfold freeWindow
  split
  · dsimp only
    split
    · have h := gate_updateRtt (c.shrinkWindow s.freed) s.rttSampleUs
      simp only [gate, Gate.mk.injEq] at h
      obtain ⟨hw, hp, hf, ha, hr⟩ := h
      exact ⟨by simp [gate, updateWindow, wakeWriter, hw, hf, ha, hr]; exact ⟨rfl, rfl, rfl, rfl⟩,
        fun hs => hp ▸ hshrink s.freed hs⟩
    · exact ⟨rfl, hshrink s.freed⟩
  · exact ⟨rfl, id⟩

theorem removeAcked_finAcked (finSent : Bool) (finSeq ackNr : UInt16) (nowUs : UInt32)
    (queue : List OutPacket) (s : AckScan)
    (h : (removeAcked finSent finSeq ackNr nowUs queue s).2.finAcked = true) :
    s.finAcked = true ∨ finSent = true ∧ seqLeq finSeq ackNr = true := by
  induction queue generalizing s with
  | nil => exact .inl h
  | cons front queue ih =>
    unfold removeAcked at h
    split at h
    · exact .inl h
    next hle =>
      rcases ih _ h with hs | hs
      · simp only [Bool.or_eq_true, Bool.and_eq_true, decide_eq_true_iff] at hs
        rcases hs with hs | ⟨hseq, hf⟩
        · exact .inl hs
        · exact .inr ⟨hf, by simpa [hseq] using hle⟩
      · exact .inr hs

/-- What an acknowledgement of `ackNr` may change of the gate. -/
structure Acknowledges (ackNr : UInt16) (c c' : UtpConnection) : Prop where
  peerWnd : c'.peerWnd = c.peerWnd
  finAcked : c'.finAcked = true →
    c.finAcked = true ∨ c.finSent = true ∧ seqLeq c.finSeq ackNr = true
  packetSize : c.packetSize ≤ DEFAULT_PACKET_SIZE → c'.packetSize ≤ DEFAULT_PACKET_SIZE
  ackPending : c.ackPending = true → c'.ackPending = true
  lastRecvUs : c'.lastRecvUs = c.lastRecvUs

variable {c} {c' c'' : UtpConnection} {ackNr : UInt16}

theorem Acknowledges.of_gate (h : c'.gate = c.gate) : Acknowledges ackNr c c' := by
  simp only [gate, Gate.mk.injEq] at h
  obtain ⟨hw, hp, hf, ha, hr⟩ := h
  exact ⟨hw, fun hfin => .inl (hf ▸ hfin), fun hs => hp ▸ hs, fun hpend => ha ▸ hpend, hr⟩

theorem Acknowledges.congr_right (h : Acknowledges ackNr c c') (hg : c''.gate = c'.gate) :
    Acknowledges ackNr c c'' := by
  simp only [gate, Gate.mk.injEq] at hg
  obtain ⟨hw, hp, hf, ha, hr⟩ := hg
  exact ⟨hw.trans h.peerWnd, fun hfin => h.finAcked (hf ▸ hfin), fun hs => hp ▸ h.packetSize hs,
    fun hpend => ha ▸ h.ackPending hpend, hr.trans h.lastRecvUs⟩

theorem acknowledges_noteFinAck (c : UtpConnection) (ackNr) :
    Acknowledges ackNr c (c.noteFinAck ackNr) := by
  unfold noteFinAck
  split
  next h =>
    simp only [Bool.and_eq_true, Bool.not_eq_true'] at h
    exact ⟨rfl, fun _ => .inr ⟨h.1.1, h.2⟩, id, id, rfl⟩
  next h => exact .of_gate rfl

theorem Acknowledges.trans (h : Acknowledges ackNr c c') (h' : Acknowledges ackNr c' c'')
    (hout : c'.outgoing = c.outgoing) : Acknowledges ackNr c c'' := by
  refine ⟨h'.peerWnd.trans h.peerWnd, fun hfin => ?_, fun hs => h'.packetSize (h.packetSize hs),
    fun hpend => h'.ackPending (h.ackPending hpend), h'.lastRecvUs.trans h.lastRecvUs⟩
  have hfs : c'.finSent = c.finSent := congrArg Outgoing.finSent hout
  have hfq : c'.finSeq = c.finSeq := congrArg Outgoing.finSeq hout
  rcases h'.finAcked hfin with hf | hf
  · exact h.finAcked hf
  · exact .inr (by rwa [hfs, hfq] at hf)

theorem acknowledges_freeWindow (c : UtpConnection) (s) :
    Acknowledges ackNr c (c.freeWindow s) := by
  obtain ⟨hgate, hsize⟩ := c.gate_freeWindow s
  simp only [gate, Gate.mk.injEq] at hgate
  obtain ⟨hw, -, hf, ha, hr⟩ := hgate
  exact ⟨hw, fun hfin => .inl (hf ▸ hfin), hsize, fun hpend => ha ▸ hpend, hr⟩

theorem acknowledges_ackPackets (c : UtpConnection) (ackNr nowUs) :
    Acknowledges ackNr c (c.ackPackets ackNr nowUs) := by
  refine Acknowledges.trans (.of_gate (c.gate_countAck ackNr)) ?_
    (congrArg Core.outgoing (c.core_countAck ackNr))
  unfold ackPackets
  dsimp only
  generalize c.countAck ackNr = k
  have hscan := removeAcked_finAcked k.finSent k.finSeq ackNr nowUs k.sendQueue
    { finAcked := k.finAcked }
  generalize removeAcked k.finSent k.finSeq ackNr nowUs k.sendQueue { finAcked := k.finAcked } = r
    at hscan ⊢
  have hremove : Acknowledges ackNr k { k with sendQueue := r.1, finAcked := r.2.finAcked } :=
    ⟨rfl, hscan, id, id, rfl⟩
  have hfree := (hremove.trans (acknowledges_freeWindow _ r.2) rfl).trans
    (acknowledges_noteFinAck _ ackNr) (congrArg Core.outgoing (core_freeWindow _ r.2))
  exact hfree

theorem acknowledges_onAck (c : UtpConnection) (ackNr sackBits nowUs) :
    Acknowledges ackNr c (c.onAck ackNr sackBits nowUs) := by
  unfold onAck
  split
  · exact .of_gate rfl
  · have h := (c.acknowledges_ackPackets ackNr nowUs).congr_right
      ((gate_dupAckRetransmit _ ackNr nowUs).trans (gate_sackRetransmit _ ackNr sackBits nowUs))
    dsimp only
    split
    · exact h.congr_right (gate_finishCloseIfIdle _)
    · exact h

/-! ## A received packet -/

variable {hdr : PacketHeader}

theorem acknowledges_onData (c : UtpConnection) (hdr payload nowUs) :
    Acknowledges ackNr c (c.onData hdr payload nowUs) ∧
      (c.onData hdr payload nowUs).ackPending = true := by
  have h := c.gate_onData hdr payload nowUs
  simp only [gate, Gate.mk.injEq] at h
  obtain ⟨hw, hp, hf, ha, hr⟩ := h
  exact ⟨⟨hw, fun hfin => .inl (hf ▸ hfin), fun hs => hp ▸ hs, fun _ => ha, hr⟩, ha⟩

theorem acknowledges_onFin (c : UtpConnection) (hdr) :
    Acknowledges ackNr c (c.onFin hdr) ∧ (c.onFin hdr).ackPending = true := by
  have h := c.gate_onFin hdr
  simp only [gate, Gate.mk.injEq] at h
  obtain ⟨hw, hp, hf, ha, hr⟩ := h
  exact ⟨⟨hw, fun hfin => .inl (hf ▸ hfin), fun hs => hp ▸ hs, fun _ => ha, hr⟩, ha⟩

/-- What a packet does to the gate, and that data and a FIN are to be acknowledged. -/
theorem dispatchPacket_gate (c : UtpConnection) (hdr : PacketHeader) (sack payload nowUs) :
    ¬hdr.Acks ∧ (c.dispatchPacket hdr sack payload nowUs).gate = c.gate ∨
      hdr.Acks ∧ Acknowledges hdr.ackNr c (c.dispatchPacket hdr sack payload nowUs) ∧
        (hdr.type ≠ ST_STATE → (c.dispatchPacket hdr sack payload nowUs).ackPending = true) := by
  rcases type_cases hdr with h | h | h | h | ⟨h, h₁, h₂, h₃⟩
  · left
    refine ⟨by rw [PacketHeader.Acks, h]; decide, ?_⟩
    unfold dispatchPacket
    rw [if_pos h]
    split <;> rfl
  · right
    rw [dispatchPacket_state h]
    exact ⟨.inl h, Acknowledges.trans (.of_gate (c.gate_adoptState hdr)) (acknowledges_onAck ..)
      (c.adoptState_outgoing hdr), fun hne => absurd h hne⟩
  · right
    rw [dispatchPacket_data h]
    obtain ⟨hdata, hpend⟩ :=
      @acknowledges_onData hdr.ackNr (c.enterConnected hdr) hdr payload nowUs
    have hack := acknowledges_onAck ((c.enterConnected hdr).onData hdr payload nowUs) hdr.ackNr sack
      nowUs
    exact ⟨.inr (.inl h), (Acknowledges.trans (.of_gate (c.gate_enterConnected hdr)) hdata
      (c.enterConnected_outgoing hdr)).trans hack (by simp), fun _ => hack.ackPending hpend⟩
  · right
    rw [dispatchPacket_fin h]
    obtain ⟨hfin, hpend⟩ := @acknowledges_onFin hdr.ackNr (c.enterConnected hdr) hdr
    have hack := acknowledges_onAck ((c.enterConnected hdr).onFin hdr) hdr.ackNr sack nowUs
    exact ⟨.inr (.inr h), (Acknowledges.trans (.of_gate (c.gate_enterConnected hdr)) hfin
      (c.enterConnected_outgoing hdr)).trans hack (by simp), fun _ => hack.ackPending hpend⟩
  · left
    rw [dispatchPacket_other h h₁ h₂ h₃]
    exact ⟨by rw [PacketHeader.Acks]; tauto, rfl⟩

/-- What a packet makes of the gate. -/
structure Received (hdr : PacketHeader) (nowUs : UInt32) (c c' : UtpConnection) : Prop where
  peerWnd : c'.peerWnd = hdr.wndSize
  lastRecvUs : c'.lastRecvUs = nowUs
  finAcked : c'.finAcked = true →
    c.finAcked = true ∨ hdr.Acks ∧ c.finSent = true ∧ seqLeq c.finSeq hdr.ackNr = true
  packetSize : c.packetSize ≤ DEFAULT_PACKET_SIZE → c'.packetSize ≤ DEFAULT_PACKET_SIZE

theorem received_handleParsed (c : UtpConnection) (hdr : PacketHeader) (sack payload nowUs) :
    Received hdr nowUs c (c.handleParsed hdr sack payload nowUs) := by
  have hnote := c.gate_notePacket hdr nowUs
  have hout := c.notePacket_outgoing hdr nowUs
  unfold handleParsed
  dsimp only
  generalize c.notePacket hdr nowUs = k at *
  have hfs : k.finSent = c.finSent := congrArg Outgoing.finSent hout
  have hfq : k.finSeq = c.finSeq := congrArg Outgoing.finSeq hout
  simp only [gate, Gate.mk.injEq] at hnote
  obtain ⟨hw, hp, hf, -, hr⟩ := hnote
  split
  · exact ⟨hw, hr, fun hfin => .inl (hf ▸ hfin), fun hs => hp ▸ hs⟩
  · have hflush := gate_flushAck (k.dispatchPacket hdr sack payload nowUs) nowUs
    have hdisp := k.dispatchPacket_gate hdr sack payload nowUs
    generalize k.dispatchPacket hdr sack payload nowUs = m at *
    simp only [gate, Gate.mk.injEq] at hflush hdisp
    obtain ⟨hw', hp', hf', -, hr'⟩ := hflush
    rcases hdisp with ⟨-, hw'', hp'', hf'', -, hr''⟩ | ⟨hacks, hack, -⟩
    · exact ⟨by rw [hw', hw'', hw], by rw [hr', hr'', hr], fun hfin => .inl (by rwa [hf', hf'', hf] at hfin),
        fun hs => by rwa [hp', hp'', hp]⟩
    · refine ⟨by rw [hw', hack.peerWnd, hw], by rw [hr', hack.lastRecvUs, hr], fun hfin => ?_,
        fun hs => ?_⟩
      · rw [hf'] at hfin
        rcases hack.finAcked hfin with h | h
        · exact .inl (hf ▸ h)
        · exact .inr ⟨hacks, by rwa [hfs, hfq] at h⟩
      · rw [hp']
        exact hack.packetSize (hp ▸ hs)

/-- The FIN stays in flight unless the packet acknowledges it or the connection closes. -/
theorem handleParsed_finInFlight {c : UtpConnection} (h : c.finInFlight = true)
    (hack : ¬(hdr.Acks ∧ seqLeq c.finSeq hdr.ackNr = true)) (sack payload nowUs)
    (hopen : (c.handleParsed hdr sack payload nowUs).state ≠ .closed) :
    (c.handleParsed hdr sack payload nowUs).finInFlight = true := by
  simp only [finInFlight, Bool.and_eq_true, Bool.not_eq_true', decide_eq_true_iff] at h ⊢
  obtain ⟨⟨hfs, hfa⟩, hst⟩ := h
  have hout := congrArg Outgoing.finSent (c.handleParsed_outgoing hdr sack payload nowUs)
  refine ⟨⟨hout.trans hfs, Bool.eq_false_iff.mpr fun hfin => ?_⟩, ?_⟩
  · rcases (c.received_handleParsed hdr sack payload nowUs).finAcked hfin with hf | ⟨hacks, -, hle⟩
    · rw [hfa] at hf
      cases hf
    · exact hack ⟨hacks, hle⟩
  · rcases c.handleParsed_state hdr sack payload nowUs with hs | hs | ⟨-, hs | hs⟩
    · exact hs.trans hst
    · exact absurd hs hopen
    · rw [hst] at hs; cases hs
    · rw [hst] at hs; cases hs

/-- A packet that is answered whatever it says: a repeated SYN, data and a FIN. -/
def Answers (c : UtpConnection) (hdr : PacketHeader) : Prop :=
  hdr.type = ST_SYN ∧ (c.state = .synRecv ∨ c.state = .connected) ∨ hdr.type = ST_DATA ∨
    hdr.type = ST_FIN

theorem flushAck_outbox {c : UtpConnection} (h : c.ackPending = true) (nowUs) :
    (c.flushAck nowUs).outbox ≠ [] := by
  simp [flushAck, h, sendAck, queueControl]

theorem handleParsed_outbox {c : UtpConnection} (h : c.Answers hdr) (sack payload nowUs) :
    (c.handleParsed hdr sack payload nowUs).outbox ≠ [] := by
  have hstate := c.notePacket_state hdr nowUs
  have hreset : hdr.type ≠ ST_RESET := by
    rcases h with ⟨h, -⟩ | h | h <;> rw [h] <;> decide
  unfold handleParsed
  rw [if_neg hreset]
  generalize c.notePacket hdr nowUs = k at *
  rcases h with ⟨h, hst⟩ | h
  · have hdisp : k.dispatchPacket hdr sack payload nowUs = k.queueControl ST_STATE nowUs k.ack := by
      unfold dispatchPacket
      rw [if_pos h, if_pos (by rw [hstate]; simpa using hst)]
    rw [hdisp]
    obtain ⟨new, hout, -⟩ := flushAck_emits (k.queueControl ST_STATE nowUs k.ack) nowUs
    rw [hout]
    simp [queueControl]
  · refine flushAck_outbox ?_ nowUs
    rcases k.dispatchPacket_gate hdr sack payload nowUs with ⟨hacks, -⟩ | ⟨-, -, hpend⟩
    · exact absurd (.inr h) hacks
    · exact hpend (by rcases h with h | h <;> rw [h] <;> decide)

/-! ## A tick -/

theorem handleTimeout_gate (c : UtpConnection) (nowUs) :
    (c.handleTimeout nowUs).gate = { c.gate with
      packetSize := (c.handleTimeout nowUs).packetSize
      lastRecvUs := (c.handleTimeout nowUs).lastRecvUs } ∧
      (c.packetSize ≤ DEFAULT_PACKET_SIZE →
        (c.handleTimeout nowUs).packetSize ≤ DEFAULT_PACKET_SIZE) := by
  unfold handleTimeout
  split
  · have h := c.gate_synTimeout nowUs
    have hp : (c.synTimeout nowUs).packetSize = c.packetSize := congrArg Gate.packetSize h
    have hr : (c.synTimeout nowUs).lastRecvUs = c.lastRecvUs := congrArg Gate.lastRecvUs h
    exact ⟨by rw [h, hp, hr]; rfl, fun hs => hp ▸ hs⟩
  · dsimp only
    split
    · exact ⟨rfl, id⟩
    · have h := gate_retransmitFin ((c.countTimeout.collapseWindow nowUs).retransmitUnacked nowUs)
        nowUs
      have hp : (((c.countTimeout.collapseWindow nowUs).retransmitUnacked nowUs).retransmitFin
          nowUs).packetSize = MIN_PACKET_SIZE := congrArg Gate.packetSize h
      have hr : (((c.countTimeout.collapseWindow nowUs).retransmitUnacked nowUs).retransmitFin
          nowUs).lastRecvUs = nowUs := congrArg Gate.lastRecvUs h
      exact ⟨by rw [h, hp, hr]; rfl, fun _ => by rw [hp]; decide⟩

/-- A tick leaves the peer's window and the acknowledgement of the FIN as they are. -/
theorem processTick_gate (c : UtpConnection) (nowUs) :
    (c.processTick nowUs).peerWnd = c.peerWnd ∧ (c.processTick nowUs).finAcked = c.finAcked ∧
      (c.packetSize ≤ DEFAULT_PACKET_SIZE →
        (c.processTick nowUs).packetSize ≤ DEFAULT_PACKET_SIZE) := by
  have hflush := c.gate_flushFin nowUs
  unfold processTick
  split
  · exact ⟨rfl, rfl, id⟩
  · generalize c.flushFin nowUs = f at *
    simp only [gate, Gate.mk.injEq] at hflush
    obtain ⟨hw, hp, hf, -⟩ := hflush
    dsimp only
    split
    · exact ⟨hw, hf, fun hs => hp ▸ hs⟩
    · split
      · obtain ⟨hg, hsize⟩ := f.handleTimeout_gate nowUs
        simp only [gate, Gate.mk.injEq] at hg
        exact ⟨hg.1.trans hw, hg.2.2.1.trans hf, fun hs => hsize (hp ▸ hs)⟩
      · have hg : ((f.flushData nowUs).flushAck nowUs).noteReadable.gate =
            { f.gate with ackPending := false } :=
          ((f.flushData nowUs).gate_flushAck nowUs).trans (by rw [gate_flushData])
        simp only [gate, Gate.mk.injEq] at hg
        exact ⟨hg.1.trans hw, hg.2.2.1.trans hf, fun hs => by rw [hg.2.1, hp]; exact hs⟩

/-- A requested FIN goes out with the next tick. -/
theorem processTick_outbox {c : UtpConnection} (hfin : c.finPending = true)
    (hopen : c.state ≠ .closed) (nowUs) : (c.processTick nowUs).outbox ≠ [] := by
  have hout : (c.flushFin nowUs).outbox ≠ [] := by simp [flushFin, hfin, queueControl]
  unfold processTick
  rw [if_neg hopen]
  generalize c.flushFin nowUs = f at *
  have hadds : ∀ {c' : UtpConnection} {P : PacketHeader → Bytes → Prop}, Emits f c' P →
      c'.outbox ≠ [] := by
    rintro c' P ⟨new, hnew, -⟩
    rw [hnew]
    simp [hout]
  dsimp only
  split
  · exact hout
  · split
    · exact hadds (f.handleTimeout_emits nowUs)
    · have h := ((f.flushData_emits nowUs).mono fun _ _ _ => trivial).trans
        ((flushAck_emits (f.flushData nowUs) nowUs).mono fun _ _ _ => trivial)
      exact hadds (P := fun _ _ => True) (h.trans (.of_eq rfl))

/-- The FIN stays in flight through a tick unless the connection closes. -/
theorem processTick_finInFlight {c : UtpConnection} (h : c.finInFlight = true) (nowUs)
    (hopen : (c.processTick nowUs).state ≠ .closed) :
    (c.processTick nowUs).finInFlight = true := by
  simp only [finInFlight, Bool.and_eq_true, Bool.not_eq_true', decide_eq_true_iff] at h ⊢
  obtain ⟨⟨hfs, hfa⟩, hst⟩ := h
  refine ⟨⟨c.processTick_finSent nowUs hfs, (c.processTick_gate nowUs).2.1.trans hfa⟩, ?_⟩
  rcases c.processTick_state nowUs with hs | hs | hs
  · exact hs.trans hst
  · exact hs
  · exact absurd hs hopen

end UtpConnection

end FluxCore.Utp
