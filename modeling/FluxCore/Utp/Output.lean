import FluxCore.Utp.Tick

/-!
# The datagrams a connection puts out

Every datagram the program builds is parsed back to the header it was built from. `Says` is what
such a packet tells the other side about the connection it came from; `Emits` says that an
operation only appends datagrams to the outbox and that each of them has a property. A tick and a
received packet put out only packets that speak for the state they end in (`processTick_emits`,
`handlePacket_emits`).
-/

namespace FluxCore.Utp

/-- The number, and with it the content, a packet of each type carries. -/
inductive Content (c : UtpConnection) (hdr : PacketHeader) (payload : Bytes) : Prop where
  | syn (type : hdr.type = ST_SYN) (seqNr : hdr.seqNr = c.synSeq)
  | state (type : hdr.type = ST_STATE) (seqNr : hdr.seqNr = c.seq)
  | fin (type : hdr.type = ST_FIN) (sent : c.finSent = true) (seqNr : hdr.seqNr = c.finSeq)
  | data (type : hdr.type = ST_DATA) (mem : (hdr.seqNr, payload) ∈ c.unacked)

/-- What a packet tells about the connection that put it out. -/
structure Says (c : UtpConnection) (hdr : PacketHeader) (payload : Bytes) : Prop where
  connectionId : hdr.connectionId = if hdr.type = ST_SYN then c.recvId else c.sendId
  ackNr : hdr.ackNr = c.ack
  wndSize : hdr.wndSize = if hdr.type = ST_SYN then 0 else c.advertsiedWnd
  content : Content c hdr payload

/-- The datagram parses to a header and a payload with the property. -/
def Parses (P : PacketHeader → Bytes → Prop) (d : Bytes) : Prop :=
  ∃ hdr exts, parsePacket d = some (hdr, exts) ∧ P hdr (payloadOf d exts)

/-- The outbox of `c'` is that of `c` and datagrams with the property behind it. -/
def Emits (c c' : UtpConnection) (P : PacketHeader → Bytes → Prop) : Prop :=
  ∃ new, c'.outbox = c.outbox ++ new ∧ ∀ d ∈ new, Parses P d

variable {c c' c'' : UtpConnection} {P Q : PacketHeader → Bytes → Prop}
  {hdr : PacketHeader} {payload : Bytes}

theorem Parses.mono {d : Bytes} (h : Parses P d) (hPQ : ∀ hdr payload, P hdr payload → Q hdr payload) :
    Parses Q d := by
  obtain ⟨hdr, exts, hparse, hp⟩ := h
  exact ⟨hdr, exts, hparse, hPQ _ _ hp⟩

namespace Emits

theorem of_eq (h : c'.outbox = c.outbox) : Emits c c' P :=
  ⟨[], by rw [h, List.append_nil], fun _ hd => nomatch hd⟩

theorem mono (h : Emits c c' P) (hPQ : ∀ hdr payload, P hdr payload → Q hdr payload) :
    Emits c c' Q := by
  obtain ⟨new, hout, hnew⟩ := h
  exact ⟨new, hout, fun d hd => (hnew d hd).mono hPQ⟩

theorem trans (h : Emits c c' P) (h' : Emits c' c'' P) : Emits c c'' P := by
  obtain ⟨new, hout, hnew⟩ := h
  obtain ⟨new', hout', hnew'⟩ := h'
  refine ⟨new ++ new', by rw [hout', hout, List.append_assoc], fun d hd => ?_⟩
  rcases List.mem_append.mp hd with hd | hd
  · exact hnew d hd
  · exact hnew' d hd

/-- What holds of all datagrams of the outbox and of the new ones holds afterwards. -/
theorem forall_outbox {R : Bytes → Prop} (h : Emits c c' P) (hold : ∀ d ∈ c.outbox, R d)
    (hnew : ∀ d, Parses P d → R d) : ∀ d ∈ c'.outbox, R d := by
  obtain ⟨new, hout, hP⟩ := h
  intro d hd
  rw [hout] at hd
  rcases List.mem_append.mp hd with hd | hd
  · exact hold d hd
  · exact hnew d (hP d hd)

end Emits

/-- A packet keeps speaking for a connection that has only sent more since, unless it carries the
next number. -/
theorem Says.later (h : Says c hdr payload) (hin : c'.incoming = c.incoming)
    (hout : c'.outgoing =
      { c.outgoing with seq := c'.seq, pendingSend := c'.pendingSend })
    (hseq : hdr.type = ST_STATE → c'.seq = c.seq) (hun : ∀ e ∈ c.unacked, e ∈ c'.unacked) :
    Says c' hdr payload := by
  have hwnd := UtpConnection.advertsiedWnd_congr hin
  have hack : c'.ack = c.ack := congrArg Incoming.ack hin
  simp only [UtpConnection.outgoing, Outgoing.mk.injEq, true_and] at hout
  obtain ⟨-, -, hrecvId, hsendId, hsyn, hfinSeq, hfinSent, -⟩ := hout
  refine ⟨by rw [hrecvId, hsendId]; exact h.connectionId, h.ackNr.trans hack.symm,
    by rw [hwnd]; exact h.wndSize, ?_⟩
  cases h.content with
  | syn ht hs => exact .syn ht (hs.trans hsyn.symm)
  | state ht hs => exact .state ht (hs.trans (hseq ht).symm)
  | fin ht hf hs => exact .fin ht (hfinSent.trans hf) (hs.trans hfinSeq.symm)
  | data ht hm => exact .data ht (hun _ hm)

theorem Says.congr (h : Says c hdr payload) (hin : c'.incoming = c.incoming)
    (hout : c'.outgoing = c.outgoing) (hun : c'.unacked = c.unacked) : Says c' hdr payload := by
  have hseq : c'.seq = c.seq := congrArg Outgoing.seq hout
  have hpending : c'.pendingSend = c.pendingSend := congrArg Outgoing.pendingSend hout
  exact h.later hin (by rw [hout, hseq, hpending]; rfl) (fun _ => hseq) (fun e he => hun ▸ he)

theorem Says.congr_core (h : Says c hdr payload) (hcore : c'.core = c.core) :
    Says c' hdr payload :=
  h.congr (congrArg Core.incoming hcore) (congrArg Core.outgoing hcore)
    (congrArg Core.unacked hcore)

namespace UtpConnection

/-! ## Packets one by one -/

theorem queueControl_emits (c : UtpConnection) {type : UInt8} (ht : type < 16) (nowUs seqForAck) :
    Emits c (c.queueControl type nowUs seqForAck)
      fun hdr _ => hdr = c.controlHeader type nowUs seqForAck := by
  have hh : (c.controlHeader type nowUs seqForAck).Encodable := ⟨ht, rfl⟩
  refine ⟨_, rfl, fun d hd => ?_⟩
  rw [List.mem_singleton] at hd
  split at hd
  next he =>
    have hext : (c.controlHeader type nowUs seqForAck).extension = EXT_NONE := if_pos he
    have hparse := parsePacket_encodeHeader hh hext []
    rw [List.append_nil, ← hd] at hparse
    exact ⟨_, _, hparse, rfl⟩
  next he =>
    have hext : (c.controlHeader type nowUs seqForAck).extension = EXT_SACK := if_neg he
    have hparse := parsePacket_appendSackExtension hh hext c.sackBits
    rw [← hd] at hparse
    exact ⟨_, _, hparse, rfl⟩

theorem controlHeader_ackNr (c : UtpConnection) (type nowUs) {seqForAck : UInt16}
    (h : seqForAck = 0 ∨ seqForAck = c.ack) :
    (c.controlHeader type nowUs seqForAck).ackNr = c.ack := by
  show (if seqForAck = 0 then c.ack else seqForAck) = c.ack
  rcases h with h | h
  · rw [if_pos h]
  · split
    · rfl
    · exact h

theorem encodeData_parses (c : UtpConnection) (p : OutPacket) (nowUs) :
    Parses (fun hdr payload => hdr = c.dataHeader p.seq nowUs ∧ payload = p.payload)
      (c.encodeData p nowUs) :=
  have hh : (c.dataHeader p.seq nowUs).Encodable := ⟨show ST_DATA < 16 by decide, rfl⟩
  ⟨_, _, parsePacket_encodeHeader hh rfl _, rfl, payloadOf_encodeHeader _ _⟩

theorem says_dataHeader {p : OutPacket} (hp : p.content ∈ c.unacked) (nowUs) :
    Says c (c.dataHeader p.seq nowUs) p.payload := by
  have ht : (c.dataHeader p.seq nowUs).type ≠ ST_SYN := show ST_DATA ≠ ST_SYN by decide
  refine ⟨?_, rfl, ?_, .data rfl hp⟩
  · rw [if_neg ht]; rfl
  · rw [if_neg ht]; rfl

theorem says_state (c : UtpConnection) (nowUs) {seqForAck : UInt16}
    (h : seqForAck = 0 ∨ seqForAck = c.ack) (payload : Bytes) :
    Says c (c.controlHeader ST_STATE nowUs seqForAck) payload := by
  have hn : ST_STATE ≠ ST_SYN := by decide
  have hn' : ST_STATE ≠ ST_FIN := by decide
  refine ⟨?_, c.controlHeader_ackNr _ nowUs h, ?_, .state rfl ?_⟩
  · simp only [controlHeader, if_neg hn]
  · simp only [controlHeader, if_neg hn]
  · simp only [controlHeader, if_neg hn, if_neg hn']

theorem says_fin (hfin : c.finSent = true) (nowUs) {seqForAck : UInt16}
    (h : seqForAck = 0 ∨ seqForAck = c.ack) (payload : Bytes) :
    Says c (c.controlHeader ST_FIN nowUs seqForAck) payload := by
  have hn : ST_FIN ≠ ST_SYN := by decide
  refine ⟨?_, c.controlHeader_ackNr _ nowUs h, ?_, .fin rfl hfin ?_⟩
  · simp only [controlHeader, if_neg hn]
  · simp only [controlHeader, if_neg hn]
  · simp only [controlHeader, if_neg hn, if_true]

theorem says_syn (c : UtpConnection) (nowUs) {seqForAck : UInt16}
    (h : seqForAck = 0 ∨ seqForAck = c.ack) (payload : Bytes) :
    Says c (c.controlHeader ST_SYN nowUs seqForAck) payload := by
  refine ⟨?_, c.controlHeader_ackNr _ nowUs h, ?_, .syn rfl ?_⟩ <;> simp only [controlHeader, if_true]

theorem queueControl_state_emits (c : UtpConnection) (nowUs) {seqForAck : UInt16}
    (h : seqForAck = 0 ∨ seqForAck = c.ack) :
    Emits c (c.queueControl ST_STATE nowUs seqForAck) (Says c) :=
  (c.queueControl_emits (by decide) nowUs seqForAck).mono fun _ payload hhdr =>
    hhdr ▸ c.says_state nowUs h payload

theorem flushAck_emits (c : UtpConnection) (nowUs) : Emits c (c.flushAck nowUs) (Says c) := by
  unfold flushAck
  split
  · exact (c.queueControl_state_emits nowUs (.inr rfl)).trans (.of_eq rfl)
  · exact .of_eq rfl

/-! ## Acknowledgements -/

theorem retransmitPacket_emits (c : UtpConnection) (i nowUs) :
    Emits c (c.retransmitPacket i nowUs) (Says c) := by
  unfold retransmitPacket
  split
  · exact .of_eq rfl
  next p hp =>
    refine ⟨[c.encodeData p nowUs], rfl, fun d hd => ?_⟩
    rw [List.mem_singleton.mp hd]
    refine (c.encodeData_parses p nowUs).mono ?_
    rintro hdr payload ⟨rfl, rfl⟩
    exact says_dataHeader (List.mem_map_of_mem (List.mem_of_getElem? hp)) nowUs

theorem retransmitUnacked_emits (c : UtpConnection) (nowUs) :
    Emits c (c.retransmitUnacked nowUs) fun hdr payload =>
      hdr.type = ST_DATA ∧ Says c hdr payload := by
  refine ⟨c.sendQueue.map (c.encodeData · nowUs), rfl, fun d hd => ?_⟩
  obtain ⟨p, hp, rfl⟩ := List.mem_map.mp hd
  refine (c.encodeData_parses p nowUs).mono ?_
  rintro hdr payload ⟨rfl, rfl⟩
  exact ⟨rfl, says_dataHeader (List.mem_map_of_mem hp) nowUs⟩

theorem fastRetransmit_emits (c : UtpConnection) (i target nowUs) :
    Emits c (c.fastRetransmit i target nowUs) (Says c) := by
  unfold fastRetransmit
  split
  · exact .of_eq rfl
  · exact (c.retransmitPacket_emits i nowUs).trans (.of_eq rfl)

theorem sackRetransmit_emits (c : UtpConnection) (ackNr sackBits nowUs) :
    Emits c (c.sackRetransmit ackNr sackBits nowUs) (Says c) := by
  unfold sackRetransmit
  split
  · exact .of_eq rfl
  · split
    · exact c.fastRetransmit_emits ..
    · exact .of_eq rfl

theorem dupAckRetransmit_emits (c : UtpConnection) (ackNr nowUs) :
    Emits c (c.dupAckRetransmit ackNr nowUs) (Says c) := by
  unfold dupAckRetransmit retransmitNumbered
  split
  · split
    · exact .of_eq rfl
    · exact (c.fastRetransmit_emits ..).trans (.of_eq rfl)
  · exact .of_eq rfl

section
variable (c : UtpConnection)

@[simp] theorem updateRtt_outbox (rttUs) : (c.updateRtt rttUs).outbox = c.outbox := by
  unfold updateRtt
  split
  · rfl
  · dsimp only
    split <;> rfl

@[simp] theorem updateDelay_outbox (sampleUs nowUs) :
    (c.updateDelay sampleUs nowUs).outbox = c.outbox := by
  unfold updateDelay
  dsimp only
  split <;> rfl

@[simp] theorem freeWindow_outbox (s) : (c.freeWindow s).outbox = c.outbox := by
  unfold freeWindow
  dsimp only
  split
  · split
    · exact updateRtt_outbox ..
    · rfl
  · rfl

@[simp] theorem countAck_outbox (ackNr) : (c.countAck ackNr).outbox = c.outbox := by
  unfold countAck
  split <;> rfl

@[simp] theorem noteFinAck_outbox (ackNr) : (c.noteFinAck ackNr).outbox = c.outbox := by
  unfold noteFinAck
  split <;> rfl

@[simp] theorem ackPackets_outbox (ackNr nowUs) : (c.ackPackets ackNr nowUs).outbox = c.outbox := by
  have h := c.countAck_outbox ackNr
  unfold ackPackets
  generalize c.countAck ackNr = c₁ at h ⊢
  rw [noteFinAck_outbox, freeWindow_outbox]
  exact h

@[simp] theorem finishCloseIfIdle_outbox : c.finishCloseIfIdle.outbox = c.outbox := by
  unfold finishCloseIfIdle
  split <;> rfl

@[simp] theorem notePacket_outbox (hdr nowUs) : (c.notePacket hdr nowUs).outbox = c.outbox := by
  unfold notePacket
  dsimp only
  split
  · exact updateDelay_outbox ..
  · rfl

@[simp] theorem enterConnected_outbox (hdr) : (c.enterConnected hdr).outbox = c.outbox := by
  unfold enterConnected
  split <;> rfl

@[simp] theorem adoptState_outbox (hdr) : (c.adoptState hdr).outbox = c.outbox := by
  unfold adoptState
  split <;> rfl

@[simp] theorem drainReorder_outbox (fuel) : (c.drainReorder fuel).outbox = c.outbox := by
  induction fuel generalizing c with
  | zero => rfl
  | succ fuel ih =>
    unfold drainReorder
    split
    · rfl
    · split
      · rfl
      · exact ih _

@[simp] theorem bufferPacket_outbox (s payload nowUs) :
    (c.bufferPacket s payload nowUs).outbox = c.outbox := by
  unfold bufferPacket
  split
  · split <;> rfl
  · rfl

@[simp] theorem onData_outbox (hdr payload nowUs) :
    (c.onData hdr payload nowUs).outbox = c.outbox := by
  unfold onData
  dsimp only
  split
  · rfl
  · split
    · rfl
    · split
      · exact drainReorder_outbox ..
      · exact bufferPacket_outbox ..

@[simp] theorem onFin_outbox (hdr) : (c.onFin hdr).outbox = c.outbox := by
  unfold onFin
  dsimp only
  split <;> rfl

theorem onAck_emits (ackNr sackBits nowUs) :
    Emits c (c.onAck ackNr sackBits nowUs) (Says (c.onAck ackNr sackBits nowUs)) := by
  have hfinal : ∀ c' : UtpConnection, Emits c c' (Says c') →
      Emits c c'.finishCloseIfIdle (Says c'.finishCloseIfIdle) := by
    intro c' h
    refine (h.trans (.of_eq c'.finishCloseIfIdle_outbox)).mono fun hdr payload hs => ?_
    have hcore := c'.core_finishCloseIfIdle
    exact hs.congr (congrArg Core.incoming hcore) (congrArg Core.outgoing hcore)
      (congrArg Core.unacked hcore)
  unfold onAck
  split
  · exact .of_eq rfl
  · have h₁ : Emits c (c.ackPackets ackNr nowUs) (Says (c.ackPackets ackNr nowUs)) :=
      .of_eq (c.ackPackets_outbox ackNr nowUs)
    have h₂ := h₁.trans (sackRetransmit_emits _ ackNr sackBits nowUs)
    have h₃ := (h₂.mono fun _ _ hs => hs.congr_core (core_sackRetransmit ..)).trans
      (dupAckRetransmit_emits _ ackNr nowUs)
    have h₄ := h₃.mono fun _ _ hs => hs.congr_core (core_dupAckRetransmit _ ackNr nowUs)
    dsimp only
    split
    · exact hfinal _ h₄
    · exact h₄

/-! ## Construction and the stream interface -/

theorem initiator_outbox (remoteAddr remotePort nowUs synTimeoutUs) :
    ∀ d ∈ (initiator remoteAddr remotePort nowUs synTimeoutUs).outbox,
      Parses (fun hdr payload => hdr.type = ST_SYN ∧
        Says (initiator remoteAddr remotePort nowUs synTimeoutUs) hdr payload) d := by
  unfold initiator
  refine ((queueControl_emits _ (show ST_SYN < 16 by decide) nowUs 0).trans
    (.of_eq rfl)).forall_outbox (List.forall_mem_nil _) fun d hd => hd.mono ?_
  rintro hdr payload rfl
  exact ⟨rfl, (says_syn _ nowUs (.inl rfl) payload).later rfl rfl (fun ht => by cases ht)
    fun e he => he⟩

theorem responder_outbox (remoteAddr remotePort peerRecvId ackNr nowUs) :
    ∀ d ∈ (responder remoteAddr remotePort peerRecvId ackNr nowUs).outbox,
      Parses (fun hdr payload => hdr.type = ST_STATE ∧
        Says (responder remoteAddr remotePort peerRecvId ackNr nowUs) hdr payload) d := by
  unfold responder
  refine (queueControl_emits _ (show ST_STATE < 16 by decide) nowUs _).forall_outbox
    (List.forall_mem_nil _) fun d hd => hd.mono ?_
  rintro hdr payload rfl
  exact ⟨rfl, (says_state _ nowUs (.inr rfl) payload).congr_core rfl⟩

@[simp] theorem write_outbox (data) : (c.write data).2.outbox = c.outbox := by
  unfold write
  split <;> rfl

@[simp] theorem read_outbox (cap) : (c.read cap).2.outbox = c.outbox := by
  unfold read
  dsimp only
  split <;> rfl

@[simp] theorem close_outbox : c.close.outbox = c.outbox := by
  unfold close
  split
  · rfl
  · split <;> rfl

/-! ## Received packets -/

theorem dispatchPacket_emits (hdr sack payload nowUs) :
    Emits c (c.dispatchPacket hdr sack payload nowUs)
      (Says (c.dispatchPacket hdr sack payload nowUs)) := by
  rcases type_cases hdr with h | h | h | h | ⟨h, h₁, h₂, h₃⟩
  · unfold dispatchPacket
    rw [if_pos h]
    split
    · exact (c.queueControl_state_emits nowUs (.inr rfl)).mono fun _ _ hs => hs.congr_core rfl
    · exact .of_eq rfl
  · rw [dispatchPacket_state h]
    exact (Emits.of_eq (c.adoptState_outbox hdr)).trans (onAck_emits ..)
  · rw [dispatchPacket_data h]
    exact (Emits.of_eq (by simp)).trans (onAck_emits ..)
  · rw [dispatchPacket_fin h]
    exact (Emits.of_eq (by simp)).trans (onAck_emits ..)
  · rw [dispatchPacket_other h h₁ h₂ h₃]
    exact .of_eq rfl

theorem handleParsed_emits (hdr sack payload nowUs) :
    Emits c (c.handleParsed hdr sack payload nowUs)
      (Says (c.handleParsed hdr sack payload nowUs)) := by
  have hnote := c.notePacket_outbox hdr nowUs
  unfold handleParsed
  dsimp only
  split
  · exact .of_eq hnote
  · have h := ((Emits.of_eq hnote).trans (dispatchPacket_emits _ hdr sack payload nowUs)).trans
      (flushAck_emits _ nowUs)
    exact h.mono fun _ _ hs => hs.congr_core (core_flushAck ..)

/-- The packets a received packet gives rise to speak for the state after it. -/
theorem handlePacket_emits (data nowUs) :
    Emits c (c.handlePacket data nowUs) (Says (c.handlePacket data nowUs)) := by
  unfold handlePacket
  split
  · exact .of_eq rfl
  · exact handleParsed_emits ..

/-! ## Ticks -/

theorem flushFin_emits (nowUs) :
    Emits c (c.flushFin nowUs) fun hdr payload =>
      hdr.type = ST_FIN ∧ Says (c.flushFin nowUs) hdr payload := by
  unfold flushFin
  split
  · dsimp only
    refine Emits.trans (show Emits c { c with
      finPending := false
      finSent := true
      finSeq := c.seq
      state := if c.state = .synSent then .closed else .finSent } _ from .of_eq rfl)
      ((queueControl_emits _ (show ST_FIN < 16 by decide) nowUs 0).mono fun _ payload hhdr => ?_)
    rw [hhdr]
    exact ⟨rfl, (says_fin rfl nowUs (.inl rfl) payload).congr_core rfl⟩
  · exact .of_eq rfl

theorem synTimeout_emits (nowUs) :
    Emits c (c.synTimeout nowUs) fun hdr payload =>
      hdr.type = ST_SYN ∧ Says (c.synTimeout nowUs) hdr payload := by
  unfold synTimeout
  split
  · exact .of_eq rfl
  · dsimp only
    split
    · exact .of_eq rfl
    · refine Emits.trans (show Emits c { c with
        synAttempts := c.synAttempts + 1
        timeout := min (c.timeout * 2) RTO_MAX_US } _ from .of_eq rfl)
        (((queueControl_emits _ (show ST_SYN < 16 by decide) nowUs 0).trans (.of_eq rfl)).mono
          fun _ payload hhdr => ?_)
      rw [hhdr]
      exact ⟨rfl, (says_syn _ nowUs (.inl rfl) payload).congr_core rfl⟩

theorem retransmitFin_emits (nowUs) :
    Emits c (c.retransmitFin nowUs) fun hdr payload => hdr.type = ST_FIN ∧ Says c hdr payload := by
  unfold retransmitFin
  split
  next h =>
    have hfin : c.finSent = true := by simp_all
    refine (c.queueControl_emits (show ST_FIN < 16 by decide) nowUs 0).mono fun _ payload hhdr => ?_
    rw [hhdr]
    exact ⟨rfl, says_fin hfin nowUs (.inl rfl) payload⟩
  · exact .of_eq rfl

theorem handleTimeout_emits (nowUs) :
    Emits c (c.handleTimeout nowUs) fun hdr payload =>
      hdr.type ≠ ST_STATE ∧ Says (c.handleTimeout nowUs) hdr payload := by
  unfold handleTimeout
  split
  · exact (c.synTimeout_emits nowUs).mono fun _ _ h => ⟨by rw [h.1]; decide, h.2⟩
  · dsimp only
    split
    · exact .of_eq rfl
    · have hdata := (retransmitUnacked_emits (c.countTimeout.collapseWindow nowUs) nowUs).mono
        fun hdr _ h => show hdr.type ≠ ST_STATE ∧ _ from
          ⟨by rw [h.1]; decide, h.2.congr_core (core_retransmitUnacked _ nowUs)⟩
      have hall := hdata.trans ((retransmitFin_emits _ nowUs).mono fun _ _ h =>
        ⟨by rw [h.1]; decide, h.2⟩)
      exact (Emits.of_eq rfl).trans (hall.mono fun _ _ h =>
        ⟨h.1, h.2.congr_core (core_retransmitFin _ nowUs)⟩)

theorem queueDataPacket_emits (op nowUs) :
    Emits c (c.queueDataPacket op nowUs) fun hdr payload =>
      hdr.type = ST_DATA ∧ Says (c.queueDataPacket op nowUs) hdr payload := by
  refine ⟨[c.encodeData op nowUs], rfl, fun d hd => ?_⟩
  rw [List.mem_singleton.mp hd]
  refine (c.encodeData_parses op nowUs).mono ?_
  rintro hdr payload ⟨rfl, rfl⟩
  have hmem : op.content ∈ (c.queueDataPacket op nowUs).unacked :=
    List.mem_map_of_mem (List.mem_append_right _ (List.mem_singleton_self op))
  have hs : c.dataHeader op.seq nowUs = (c.queueDataPacket op nowUs).dataHeader op.seq nowUs := rfl
  exact ⟨rfl, hs ▸ says_dataHeader hmem nowUs⟩

theorem sendChunk_emits (nowUs) :
    Emits c (c.sendChunk nowUs) fun hdr payload =>
      hdr.type = ST_DATA ∧ Says (c.sendChunk nowUs) hdr payload :=
  (Emits.of_eq rfl).trans (queueDataPacket_emits _ _ nowUs)

/-- What has been said before data is cut still holds afterwards. -/
theorem Cuts.says {c c' : UtpConnection} {chunks : List Bytes} (h : Cuts c c' chunks)
    {hdr : PacketHeader} {payload : Bytes} (hs : Says c hdr payload) (ht : hdr.type ≠ ST_STATE) :
    Says c' hdr payload := by
  have hseq : c'.seq = seqNo c.seq chunks.length := congrArg Outgoing.seq h.outgoing
  refine hs.later h.incoming (by rw [h.outgoing, hseq]) (fun h => absurd h ht) fun e he => ?_
  rw [h.unacked]
  exact List.mem_append_left _ he

theorem flushPending_emits (nowUs fuel) :
    Emits c (flushPending nowUs fuel c) fun hdr payload =>
      hdr.type = ST_DATA ∧ Says (flushPending nowUs fuel c) hdr payload := by
  induction fuel generalizing c with
  | zero => exact .of_eq rfl
  | succ fuel ih =>
    unfold flushPending
    split
    · exact .of_eq rfl
    · split
      · exact .of_eq rfl
      · obtain ⟨chunks, hcuts, -⟩ := flushPending_cuts (c.sendChunk nowUs) nowUs fuel
        exact ((c.sendChunk_emits nowUs).mono fun _ _ h =>
          ⟨h.1, hcuts.says h.2 (by rw [h.1]; decide)⟩).trans (ih _)

theorem flushData_emits (nowUs) :
    Emits c (c.flushData nowUs) fun hdr payload =>
      hdr.type = ST_DATA ∧ Says (c.flushData nowUs) hdr payload := by
  unfold flushData
  split
  · exact c.flushPending_emits ..
  · exact .of_eq rfl

/-- The packets a tick puts out speak for the state after it. -/
theorem processTick_emits (nowUs) :
    Emits c (c.processTick nowUs) (Says (c.processTick nowUs)) := by
  by_cases hclosed : c.state = .closed
  · rw [processTick_closed hclosed]
    exact .of_eq rfl
  obtain ⟨chunks, hcuts, -⟩ := processTick_spec hclosed nowUs
  have hfin : Emits c (c.flushFin nowUs) (Says (c.processTick nowUs)) :=
    (c.flushFin_emits nowUs).mono fun _ _ h => hcuts.says h.2 (by rw [h.1]; decide)
  refine hfin.trans ?_
  unfold processTick
  rw [if_neg hclosed]
  generalize c.flushFin nowUs = f
  dsimp only
  split
  · exact .of_eq rfl
  · split
    · exact (f.handleTimeout_emits nowUs).mono fun _ _ h => h.2
    · have hcore : ((f.flushData nowUs).flushAck nowUs).noteReadable.core =
          (f.flushData nowUs).core := by
        rw [core_noteReadable, core_flushAck]
      have h := ((f.flushData_emits nowUs).mono fun _ _ h => h.2).trans (flushAck_emits _ nowUs)
      exact (h.trans (.of_eq rfl)).mono fun _ _ hs => hs.congr_core hcore

/-- While its SYN is unanswered a connection puts out SYNs only. -/
theorem processTick_emits_syn (hstate : c.state = .synSent) (hack : c.ackPending = false)
    (hfin : c.finPending = false) (nowUs) :
    Emits c (c.processTick nowUs) fun hdr _ => hdr.type = ST_SYN := by
  rcases processTick_synSent hstate hfin hack nowUs with h | h
  · rw [h]
    exact (c.synTimeout_emits nowUs).mono fun _ _ h => h.1
  · rw [h]
    exact .of_eq rfl

end

end UtpConnection

end FluxCore.Utp
