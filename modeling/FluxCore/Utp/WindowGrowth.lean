import FluxCore.Utp.Flight

/-!
# How far the congestion window grows

The window is computed in 64 bits and stored in 32, and nothing caps it. As long as the windows that
acknowledgements lead to fit in the field, none is ever smaller than a packet, and with nothing in
flight a packet may be sent (`window_floor`). A peer that acknowledges everything takes it past the
end of the field (`Loaded.rounds`).
-/

namespace FluxCore.Utp

/-- The windows that the acknowledgements lead to fit in the field. -/
def AcksFit (c : UtpConnection) : Call → Prop
  | .packet data nowUs => ∀ hdr exts, parsePacket data = some (hdr, exts) → hdr.Acks →
    (c.notePacket hdr nowUs).WindowFits hdr.ackNr
  | _ => True

/-- The window admits a packet, and with nothing in flight only the peer's can forbid one. -/
structure Roomy (c : UtpConnection) : Prop where
  floor : c.packetSize ≤ c.maxWindow
  sends : c.sendQueue = [] → c.packetSize ≤ c.peerWnd → c.canSendData = true

/-- The window admits a packet, and the counter is the number of bytes in flight modulo its width.
-/
structure Floored (c : UtpConnection) : Prop where
  floor : c.packetSize ≤ c.maxWindow
  curWindow : c.curWindow = .ofNat (inFlight c.sendQueue)

namespace Floored

variable {c c' : UtpConnection} {ackNr : UInt16} {nowUs : UInt32}

theorem roomy (h : Floored c) : Roomy c := by
  refine ⟨h.floor, fun hnil hpeer => ?_⟩
  have hzero : c.curWindow = 0 := by
    rw [h.curWindow, hnil]
    rfl
  rw [UtpConnection.canSendData, hzero, UInt32.zero_add, decide_eq_true_iff,
    UInt32.le_iff_toNat_le, toNat_min]
  exact le_min (UInt32.le_iff_toNat_le.mp h.floor) (UInt32.le_iff_toNat_le.mp hpeer)

theorem of_flight (h : Floored c) (hflight : c'.flight = c.flight) : Floored c' := by
  simp only [UtpConnection.flight, Flight.mk.injEq] at hflight
  obtain ⟨hqueue, hcur, hmax, hsize, -⟩ := hflight
  exact ⟨by rw [hsize, hmax]; exact h.floor, by rw [hcur, hqueue]; exact h.curWindow⟩

theorem covers (h : Floored c) (hfits : c.WindowFits ackNr)
    (hcovers : UtpConnection.Covers ackNr nowUs c c') : Floored c' := by
  refine ⟨hcovers.maxWindow hfits h.floor, ?_⟩
  rw [hcovers.curWindow, hcovers.sendQueue.inFlight_eq, h.curWindow,
    ← c.covered_append_uncovered ackNr, inFlight_append, UInt32.ofNat_add, UtpConnection.freed,
    UInt32.add_comm, UInt32.add_sub_cancel]

theorem puts {added : List OutPacket} (h : Floored c) (hputs : UtpConnection.Puts nowUs c c' added) :
    Floored c' := by
  refine ⟨by rw [hputs.packetSize, hputs.maxWindow]; exact h.floor, ?_⟩
  rw [hputs.curWindow, hputs.sendQueue, inFlight_append, UInt32.ofNat_add, h.curWindow]

theorem expires (h : Floored c) (hexpires : UtpConnection.Expires nowUs c c') : Floored c' := by
  refine ⟨?_, ?_⟩
  · rcases hexpires.sizes with ⟨hsize, hmax⟩ | ⟨hsize, hmax⟩
    · rw [hsize, hmax]
      exact h.floor
    · rw [hsize, hmax]
      exact UInt32.le_refl _
  · rw [hexpires.curWindow, hexpires.sendQueue.inFlight_eq]
    exact h.curWindow

theorem processTick (h : Floored c) (nowUs) : Floored (c.processTick nowUs) := by
  have hfin := h.of_flight (c.flight_flushFin nowUs)
  rcases c.processTick_flight nowUs with heq | ⟨-, -, heq⟩ | ⟨-, -, -, heq⟩
  · exact h.of_flight heq
  · rw [heq]
    exact hfin.expires (UtpConnection.handleTimeout_flight _ nowUs)
  · obtain ⟨added, hputs⟩ := UtpConnection.flushPending_puts (c.flushFin nowUs) nowUs
      (c.flushFin nowUs).pendingSend.length
    exact (hfin.puts hputs).of_flight heq

theorem call (h : Floored c) (x : Call) (hx : AcksFit c x) : Floored (c.call x) := by
  cases x with
  | act a =>
    cases a with
    | write data => exact h.of_flight (c.flight_write data)
    | read cap => exact h.of_flight (c.flight_read cap)
    | close => exact h.of_flight c.flight_close
    | tick nowUs => exact h.processTick nowUs
  | packet data nowUs =>
    change Floored (c.handlePacket data nowUs)
    cases hparse : parsePacket data with
    | none =>
      rw [UtpConnection.handlePacket, hparse]
      exact h
    | some r =>
      obtain ⟨hdr, exts⟩ := r
      rw [UtpConnection.handlePacket_eq hparse]
      rcases c.handleParsed_flight hdr (UtpConnection.sackOf exts) (payloadOf data exts) nowUs with
        heq | ⟨hacks, hcovers⟩
      · exact h.of_flight heq
      · exact (h.of_flight (c.flight_notePacket hdr nowUs)).covers (hx hdr exts hparse hacks) hcovers
  | drain => exact h.of_flight rfl

end Floored

/-- In every run whose acknowledgements lead to windows that fit in the field, the window admits a
packet, and nothing but the peer's window keeps a connection with an empty queue from sending. -/
theorem window_floor {c : UtpConnection} (h : c.Fresh) (xs : List Call)
    (hfits : Along UtpConnection.call AcksFit c xs) : Visits UtpConnection.call Roomy c xs :=
  visits_of_along (fun _ x (hc : Floored _) hx => hc.call x hx) (fun _ hc => hc.roomy)
    ⟨by cases h <;> exact (by decide : DEFAULT_PACKET_SIZE ≤ DEFAULT_PACKET_SIZE * 10),
      by cases h <;> rfl⟩ hfits

/-! ## A peer that acknowledges everything -/

theorem ofInt_natCast (k : Nat) : UInt32.ofInt (k : Int) = .ofNat k := by
  rw [UInt32.ofInt, ← UInt32.ofNat_mod_size (x := k)]
  rfl

/-- Connected to a peer whose window is as large as can be, at times that are zero, with these
packets in flight and bytes waiting. -/
structure Loaded (seq : UInt16) (queue : List OutPacket) (cur max : UInt32) (pending : Bytes)
    (c : UtpConnection) : Prop where
  state : c.state = .connected
  error : c.error = false
  finSent : c.finSent = false
  finPending : c.finPending = false
  lastRecvUs : c.lastRecvUs = 0
  baseDelay : c.baseDelay = 0
  peerWnd : c.peerWnd = 0xFFFFFFFF
  pendingSend : c.pendingSend = pending
  seq : c.seq = seq
  sendQueue : c.sendQueue = queue
  curWindow : c.curWindow = cur
  maxWindow : c.maxWindow = max
  packetSize : c.packetSize = DEFAULT_PACKET_SIZE

/-- The packet that takes `n` bytes. -/
def zeros (seq : UInt16) (n : Nat) : OutPacket where
  payload := List.replicate n 0
  seq := seq
  sendTimeUs := 0
  size := .ofNat n

def ackPacket (ackNr : UInt16) : Bytes :=
  encodeHeader { type := ST_STATE, ackNr := ackNr, wndSize := 0xFFFFFFFF }

namespace Loaded

variable {c : UtpConnection} {seq : UInt16} {queue : List OutPacket} {cur max : UInt32} {n : Nat}
  {pending : Bytes}

theorem write (h : Loaded seq queue cur max [] c) (hn : n ≤ 1400) :
    Loaded seq queue cur max (List.replicate n 0) (c.write (List.replicate n 0)).2 := by
  unfold UtpConnection.write
  rw [if_neg (by simp [h.state, h.error])]
  refine { h with pendingSend := ?_ }
  have haccepted : min (List.replicate n (0 : UInt8)).length (MAX_PENDING - c.pendingSend.length) =
      n := by
    rw [List.length_replicate, h.pendingSend]
    exact Nat.min_eq_left (hn.trans (by decide))
  change c.pendingSend ++ (List.replicate n 0).take (min _ _) = _
  rw [haccepted, h.pendingSend, List.take_replicate, Nat.min_self, List.nil_append]

theorem sendChunk (h : Loaded seq queue cur max (List.replicate n 0) c) (hn : n ≤ 1400) :
    Loaded (seq + 1) (queue ++ [zeros seq n]) (cur + .ofNat n) max [] (c.sendChunk 0) := by
  have hlen : c.chunkLen = n := by
    rw [UtpConnection.chunkLen, h.pendingSend, h.packetSize, List.length_replicate]
    exact Nat.min_eq_left hn
  unfold UtpConnection.sendChunk
  simp only [hlen]
  refine { h with pendingSend := ?_, seq := ?_, sendQueue := ?_, curWindow := ?_ }
  · change c.pendingSend.drop n = []
    rw [h.pendingSend, List.drop_replicate, Nat.sub_self, List.replicate_zero]
  · exact congrArg (· + 1) h.seq
  · change c.sendQueue ++ [_] = _
    rw [h.sendQueue, h.pendingSend, h.seq, List.take_replicate, Nat.min_self]
    rfl
  · exact congrArg (· + UInt32.ofNat n) h.curWindow

theorem flushAck (h : Loaded seq queue cur max pending c) :
    Loaded seq queue cur max pending (c.flushAck 0) := by
  unfold UtpConnection.flushAck
  split
  · exact { h with }
  · exact h

/-- A tick sends the bytes that wait, as one packet. -/
theorem tick (h : Loaded seq queue cur max (List.replicate n 0) c) (hpos : 0 < n) (hn : n ≤ 1400)
    (hroom : cur + DEFAULT_PACKET_SIZE ≤ max) :
    Loaded (seq + 1) (queue ++ [zeros seq n]) (cur + .ofNat n) max [] (c.processTick 0) := by
  have hnoFin : c.flushFin 0 = c := if_neg (by simp [h.finPending])
  have hnoRto : c.rtoDue 0 = false := by
    simp [UtpConnection.rtoDue, UtpConnection.needRto, h.state, h.lastRecvUs]
  have hcan : c.canSendData = true := by
    rw [UtpConnection.canSendData, h.curWindow, h.packetSize, h.maxWindow, h.peerWnd,
      decide_eq_true_iff, UInt32.le_iff_toNat_le, toNat_min]
    have := max.toNat_lt
    exact le_min (UInt32.le_iff_toNat_le.mp hroom) (by
      have := (cur + DEFAULT_PACKET_SIZE).toNat_lt
      change _ ≤ 4294967295
      omega)
  have hsent := h.sendChunk hn
  have hflush : c.flushData 0 = c.sendChunk 0 := by
    obtain ⟨m, rfl⟩ : ∃ m, n = m + 1 := ⟨n - 1, by omega⟩
    have hrest : UtpConnection.flushPending 0 m (c.sendChunk 0) = c.sendChunk 0 := by
      cases m with
      | zero => rfl
      | succ m => exact if_pos (by rw [hsent.pendingSend]; rfl)
    unfold UtpConnection.flushData
    rw [if_pos (by simp [h.state]), h.pendingSend, List.length_replicate, UtpConnection.flushPending,
      if_neg (by simp [h.pendingSend]), if_neg (by simp [hcan]), hrest]
  unfold UtpConnection.processTick
  rw [if_neg (by simp [h.state])]
  simp only [hnoFin, hnoRto, hflush]
  rw [if_neg (by simp [h.state]), if_neg (by simp)]
  exact { hsent.flushAck with }

theorem notePacket (h : Loaded seq queue cur max pending c) {hdr : PacketHeader}
    (htime : hdr.timestamp = 0) (hwnd : hdr.wndSize = 0xFFFFFFFF) :
    Loaded seq queue cur max pending (c.notePacket hdr 0) := by
  unfold UtpConnection.notePacket
  dsimp only
  split
  · unfold UtpConnection.updateDelay
    rw [if_pos (by simp [h.baseDelay])]
    exact { h with lastRecvUs := rfl, baseDelay := by rw [htime]; rfl, peerWnd := hwnd }
  · exact { h with lastRecvUs := rfl, peerWnd := hwnd }

theorem countAck (h : Loaded seq queue cur max pending c) (ackNr) :
    Loaded seq queue cur max pending (c.countAck ackNr) := by
  unfold UtpConnection.countAck
  split <;> exact { h with }

/-- Without a delay baseline the window grows by what is acknowledged and a packet. -/
theorem updateWindow (h : Loaded seq queue cur max pending c) (hn : n ≤ 1400) :
    Loaded seq queue cur (.ofNat (max.toNat + (n + 1400))) pending (c.updateWindow (.ofNat n)) := by
  have hfactor : c.delayFactor = 1 := by
    unfold UtpConnection.delayFactor
    rw [h.baseDelay]
    simp only [decide_true, Bool.true_or, if_true]
    decide +kernel
  have hcount : (UInt32.ofNat n).toNat = n := UInt32.toNat_ofNat_of_lt' (by
    change n < 4294967296
    omega)
  have hgrown : (c.updateWindow (.ofNat n)).maxWindow = .ofNat (max.toNat + (n + 1400)) := by
    have hsize : DEFAULT_PACKET_SIZE.toNat = 1400 := rfl
    have hsum : ((max.toNat : Int) + (n + (1400 : Nat))) = ((max.toNat + (n + 1400) : Nat) : Int) := by
      push_cast
      rfl
    unfold UtpConnection.updateWindow
    simp only [hfactor, hcount, h.baseDelay, one_mul, h.maxWindow, h.packetSize, hsize,
      if_true]
    rw [Binary64.round_natCast (by omega), Binary64.trunc_natCast, hsum,
      max_eq_left (by omega)]
    exact ofInt_natCast _
  exact ⟨h.state, h.error, h.finSent, h.finPending, h.lastRecvUs, h.baseDelay, h.peerWnd,
    h.pendingSend, h.seq, h.sendQueue, h.curWindow, hgrown, h.packetSize⟩

theorem freeWindow (h : Loaded seq queue cur max pending c) (hpos : 0 < n) (hn : n ≤ 1400)
    (finAcked) :
    Loaded seq queue (cur - .ofNat n) (.ofNat (max.toNat + (n + 1400))) pending
      (c.freeWindow { haveRtt := true, freed := .ofNat n, finAcked := finAcked }) := by
  have hfreed : (0 : UInt32) < .ofNat n := by
    rw [UInt32.lt_iff_toNat_lt, UInt32.toNat_ofNat_of_lt' (by change n < 4294967296; omega)]
    exact hpos
  have hshrunk : Loaded seq queue (cur - .ofNat n) max pending (c.shrinkWindow (.ofNat n)) := by
    refine { h with curWindow := ?_, packetSize := ?_ }
    · exact congrArg (· - UInt32.ofNat n) h.curWindow
    · change (if c.packetSize < DEFAULT_PACKET_SIZE then DEFAULT_PACKET_SIZE else c.packetSize) = _
      rw [h.packetSize]
      rfl
  have hfree : c.freeWindow { haveRtt := true, freed := .ofNat n, finAcked := finAcked } =
      ((c.shrinkWindow (.ofNat n)).updateWindow (.ofNat n)).wakeWriter := if_pos hfreed
  rw [hfree]
  exact { hshrunk.updateWindow hn with }

theorem noteFinAck (h : Loaded seq queue cur max pending c) (a) :
    Loaded seq queue cur max pending (c.noteFinAck a) := by
  unfold UtpConnection.noteFinAck
  rwa [if_neg (by simp [h.finSent])]

theorem ackPackets {a : UInt16} (h : Loaded seq [zeros a n] cur max pending c) (hpos : 0 < n)
    (hn : n ≤ 1400) :
    Loaded seq [] (cur - .ofNat n) (.ofNat (max.toNat + (n + 1400))) pending (c.ackPackets a 0) := by
  have hcounted := h.countAck a
  unfold UtpConnection.ackPackets
  dsimp only
  generalize c.countAck a = k at hcounted ⊢
  have hremoved : UtpConnection.removeAcked k.finSent k.finSeq a 0 [zeros a n]
      { finAcked := k.finAcked } =
      ([], { haveRtt := true, freed := .ofNat n, finAcked := k.finAcked }) := by
    have hself : seqLeq a a = true := by
      rw [seqLeq, UInt16.sub_self]
      decide
    have hfreed : (0 : UInt32) + .ofNat n = .ofNat n := UInt32.zero_add _
    simp [UtpConnection.removeAcked, zeros, hself, hcounted.finSent, hfreed]
  rw [hcounted.sendQueue, hremoved]
  refine noteFinAck (freeWindow ?_ hpos hn _) a
  exact { hcounted with sendQueue := rfl }

/-- With nothing in flight there is nothing to retransmit. -/
theorem dupAckRetransmit (h : Loaded seq [] cur max pending c) (a) :
    Loaded seq [] cur max pending (c.dupAckRetransmit a 0) := by
  have hnone : c.retransmitNumbered (a + 1) 0 = c := by
    unfold UtpConnection.retransmitNumbered
    rw [h.sendQueue]
    rfl
  unfold UtpConnection.dupAckRetransmit
  split
  · rw [hnone]
    exact { h with }
  · exact h

/-- The packet in flight is acknowledged. -/
theorem ack {a : UInt16} (h : Loaded seq [zeros a n] cur max [] c) (hpos : 0 < n) (hn : n ≤ 1400) :
    Loaded seq [] (cur - .ofNat n) (.ofNat (max.toNat + (n + 1400))) []
      (c.handlePacket (ackPacket a) 0) := by
  have hparse : parsePacket (ackPacket a) =
      some ({ type := ST_STATE, ackNr := a, wndSize := 0xFFFFFFFF }, []) :=
    (congrArg parsePacket (List.append_nil _).symm).trans
      (parsePacket_encodeHeader ⟨show ST_STATE < 16 by decide, rfl⟩ rfl [])
  rw [UtpConnection.handlePacket_eq hparse]
  generalize hhdr : ({ type := ST_STATE, ackNr := a, wndSize := 0xFFFFFFFF } : PacketHeader) = hdr
  have htype : hdr.type = ST_STATE := hhdr ▸ rfl
  have hnr : hdr.ackNr = a := hhdr ▸ rfl
  have htime : hdr.timestamp = 0 := hhdr ▸ rfl
  have hwnd : hdr.wndSize = 0xFFFFFFFF := hhdr ▸ rfl
  have hnoted := h.notePacket htime hwnd
  unfold UtpConnection.handleParsed
  dsimp only
  rw [if_neg (by rw [htype]; decide), UtpConnection.dispatchPacket_state htype,
    UtpConnection.adoptState_of_ne (by rw [hnoted.state]; decide), hnr]
  generalize c.notePacket hdr 0 = k at hnoted ⊢
  refine flushAck ?_
  unfold UtpConnection.onAck
  rw [if_neg (by simp [hnoted.state])]
  have hacked := hnoted.ackPackets hpos hn
  generalize k.ackPackets a 0 = k' at hacked ⊢
  have hsack : k'.sackRetransmit a (UtpConnection.sackOf []) 0 = k' := by
    unfold UtpConnection.sackRetransmit
    rw [hacked.sendQueue]
  have hdup := hacked.dupAckRetransmit a
  simp only [hsack]
  rw [if_neg (by simp [hdup.finSent])]
  exact hdup

end Loaded

/-- A packet of `n` bytes is sent with the number `a` and acknowledged. -/
def round (a : UInt16) (n : Nat) : List Call :=
  [.act (.write (List.replicate n 0)), .act (.tick 0), .packet (ackPacket a) 0]

/-- A connection is answered, and full packets are acknowledged one by one. -/
def rounds (k : Nat) : List Call :=
  .packet (ackPacket 1) 0 :: (List.range k).flatMap fun i => round (seqNo 2 i) 1400

theorem Loaded.round {c : UtpConnection} {seq : UInt16} {max : UInt32} {n : Nat}
    (h : Loaded seq [] 0 max [] c) (hpos : 0 < n) (hn : n ≤ 1400)
    (hroom : DEFAULT_PACKET_SIZE ≤ max) :
    Loaded (seq + 1) [] 0 (.ofNat (max.toNat + (n + 1400))) []
      (exec UtpConnection.call c (round seq n)) := by
  have hsent := (h.write hn).tick hpos hn (by rwa [UInt32.zero_add])
  have hacked := hsent.ack hpos hn (a := seq)
  rwa [UInt32.zero_add, UInt32.sub_self] at hacked

/-- As long as it stays in its field, the window grows by two packets a round. -/
theorem loaded_rounds {k : Nat} (hk : 14000 + 2800 * k < 2 ^ 32 + 2800) :
    Loaded (seqNo 2 k) [] 0 (.ofNat (14000 + 2800 * k)) []
      (exec UtpConnection.call (.initiator "" 0 0 0) (rounds k)) := by
  induction k with
  | zero => constructor <;> decide +kernel
  | succ k ih =>
    have hbefore := ih (by omega)
    have hlast : exec UtpConnection.call (.initiator "" 0 0 0) (rounds (k + 1)) =
        exec UtpConnection.call (exec UtpConnection.call (.initiator "" 0 0 0) (rounds k))
          (FluxCore.Utp.round (seqNo 2 k) 1400) := by
      rw [rounds, List.range_succ, List.flatMap_append, ← List.cons_append, exec_append, ← rounds,
        List.flatMap_singleton]
    have hmax : (UInt32.ofNat (14000 + 2800 * k)).toNat = 14000 + 2800 * k :=
      UInt32.toNat_ofNat_of_lt' (by change _ < 4294967296; omega)
    have hround := hbefore.round (n := 1400) (by decide) le_rfl (by
      rw [UInt32.le_iff_toNat_le, hmax]
      change 1400 ≤ _
      omega)
    have hnext : 14000 + 2800 * k + (1400 + 1400) = 14000 + 2800 * (k + 1) := by omega
    rw [hmax, hnext] at hround
    rwa [hlast, seqNo_succ]

/-- A byte is sent and acknowledged. -/
theorem window_floor_byte :
    Visits UtpConnection.call Roomy (.initiator "" 0 0 0) (rounds 0 ++ round 2 1) := by
  refine window_floor (.initiator ..) _ ⟨?_, trivial, trivial, ?_, trivial⟩
  · intro hdr exts hparse _
    have hack : parsePacket (ackPacket 1) =
        some ({ type := ST_STATE, ackNr := 1, wndSize := 0xFFFFFFFF }, []) := rfl
    obtain ⟨rfl, rfl⟩ := Prod.mk.inj (Option.some.inj (hack.symm.trans hparse))
    unfold UtpConnection.WindowFits
    decide +kernel
  · intro hdr exts hparse _
    have hack : parsePacket (ackPacket 2) =
        some ({ type := ST_STATE, ackNr := 2, wndSize := 0xFFFFFFFF }, []) := rfl
    obtain ⟨rfl, rfl⟩ := Prod.mk.inj (Option.some.inj (hack.symm.trans hparse))
    unfold UtpConnection.WindowFits
    decide +kernel

/-- With 1533912 rounds the window leaves its field and falls below a packet. -/
theorem window_wrapped :
    ¬∀ c : UtpConnection, c.Fresh → ∀ xs, Visits UtpConnection.call Roomy c xs := by
  intro h
  obtain ⟨k, hk⟩ : ∃ k, k = 1533912 := ⟨_, rfl⟩
  have hfloor := (h _ (.initiator "" 0 0 0) (rounds k)).last.floor
  have hloaded := loaded_rounds (k := k) (by omega)
  rw [hloaded.packetSize, hloaded.maxWindow, UInt32.le_iff_toNat_le, UInt32.toNat_ofNat'] at hfloor
  change 1400 ≤ _ at hfloor
  omega

end FluxCore.Utp
