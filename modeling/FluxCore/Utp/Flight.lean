import FluxCore.Utp.Gate
import FluxCore.Utp.Calls

/-!
# The packets in flight and the windows

What each operation does to the send queue with its sizes and times, to the two windows and to the
retransmission timeout. Most operations leave this part alone; an acknowledgement takes a prefix of
the queue (`onAck_flight`), and a tick either handles a timeout or puts packets on its end.
-/

namespace FluxCore.Utp

theorem toNat_max (a b : UInt32) : (max a b).toNat = max a.toNat b.toNat := by
  change (if a ≤ b then b else a).toNat = _
  split
  next h => exact (max_eq_right h).symm
  next h => exact (max_eq_left (Nat.le_of_lt (UInt32.not_le.mp h))).symm

theorem toNat_min (a b : UInt32) : (min a b).toNat = min a.toNat b.toNat := by
  change (if a ≤ b then a else b).toNat = _
  split
  next h => exact (min_eq_left h).symm
  next h => exact (min_eq_right (Nat.le_of_lt (UInt32.not_le.mp h))).symm

structure Flight where
  sendQueue : List OutPacket
  curWindow : UInt32
  maxWindow : UInt32
  packetSize : UInt32
  timeout : UInt32

/-- What the growth of the window is computed from. -/
structure Delay where
  baseDelay : UInt32
  lastDelaySampleUs : UInt32

/-- The bytes of the packets of a queue. -/
def inFlight (queue : List OutPacket) : Nat := (queue.map fun p => p.size.toNat).sum

@[simp] theorem inFlight_nil : inFlight [] = 0 := rfl

@[simp] theorem inFlight_cons (p : OutPacket) (queue : List OutPacket) :
    inFlight (p :: queue) = p.size.toNat + inFlight queue := List.sum_cons

@[simp] theorem inFlight_append (queue queue' : List OutPacket) :
    inFlight (queue ++ queue') = inFlight queue + inFlight queue' := by
  simp [inFlight]

/-- The packet is as before, but for a retransmission at `nowUs`. -/
structure OutPacket.Renewed (nowUs : UInt32) (p p' : OutPacket) : Prop where
  content : p'.content = p.content
  size : p'.size = p.size
  time : p' = p ∨ p'.sendTimeUs = nowUs

theorem OutPacket.Renewed.refl (nowUs : UInt32) (p : OutPacket) : p.Renewed nowUs p :=
  ⟨rfl, rfl, .inl rfl⟩

theorem OutPacket.Renewed.resent (nowUs : UInt32) (p : OutPacket) :
    p.Renewed nowUs (p.resent nowUs) := ⟨rfl, rfl, .inr rfl⟩

theorem OutPacket.Renewed.trans {nowUs : UInt32} {p p' p'' : OutPacket} (h : p.Renewed nowUs p')
    (h' : p'.Renewed nowUs p'') : p.Renewed nowUs p'' := by
  refine ⟨h'.content.trans h.content, h'.size.trans h.size, ?_⟩
  rcases h'.time with rfl | htime
  exacts [h.time, .inr htime]

/-- The queue is as before, but for retransmissions at `nowUs`. -/
abbrev RenewedQueue (nowUs : UInt32) : List OutPacket → List OutPacket → Prop :=
  List.Forall₂ (OutPacket.Renewed nowUs)

theorem RenewedQueue.refl (nowUs : UInt32) (queue : List OutPacket) :
    RenewedQueue nowUs queue queue := List.forall₂_same.mpr fun p _ => .refl nowUs p

theorem RenewedQueue.trans {nowUs : UInt32} {queue queue' queue'' : List OutPacket}
    (h : RenewedQueue nowUs queue queue') (h' : RenewedQueue nowUs queue' queue'') :
    RenewedQueue nowUs queue queue'' := by
  induction h generalizing queue'' with
  | nil => exact h'
  | cons hp _ ih =>
    obtain _ | ⟨hp', h'⟩ := h'
    exact .cons (hp.trans hp') (ih h')

theorem RenewedQueue.inFlight_eq {nowUs : UInt32} {queue queue' : List OutPacket}
    (h : RenewedQueue nowUs queue queue') : inFlight queue' = inFlight queue := by
  induction h with
  | nil => rfl
  | cons hp _ ih => rw [inFlight_cons, inFlight_cons, ih, hp.size]

theorem RenewedQueue.map (nowUs : UInt32) (queue : List OutPacket) :
    RenewedQueue nowUs queue (queue.map (·.resent nowUs)) := by
  induction queue with
  | nil => exact .nil
  | cons p queue ih => exact .cons (.resent nowUs p) ih

theorem RenewedQueue.set {queue : List OutPacket} {i : Nat} {p : OutPacket}
    (h : queue[i]? = some p) (nowUs : UInt32) :
    RenewedQueue nowUs queue (queue.set i (p.resent nowUs)) := by
  induction queue generalizing i with
  | nil => exact .nil
  | cons q queue ih =>
    cases i with
    | zero =>
      obtain rfl := Option.some.inj h
      exact .cons (.resent nowUs _) (RenewedQueue.refl nowUs queue)
    | succ i => exact .cons (.refl nowUs q) (ih h)

namespace UtpConnection

def flight (c : UtpConnection) : Flight :=
  ⟨c.sendQueue, c.curWindow, c.maxWindow, c.packetSize, c.timeout⟩

def delay (c : UtpConnection) : Delay := ⟨c.baseDelay, c.lastDelaySampleUs⟩

variable (c : UtpConnection)

/-! ## Operations that leave the flight alone -/

@[simp] theorem flight_flushAck (nowUs) : (c.flushAck nowUs).flight = c.flight := by
  unfold flushAck
  split <;> rfl

@[simp] theorem flight_noteReadable : c.noteReadable.flight = c.flight := rfl

@[simp] theorem flight_updateDelay (sampleUs nowUs) :
    (c.updateDelay sampleUs nowUs).flight = c.flight := by
  unfold updateDelay
  dsimp only
  split <;> rfl

@[simp] theorem flight_notePacket (hdr nowUs) : (c.notePacket hdr nowUs).flight = c.flight := by
  unfold notePacket
  dsimp only
  split
  · exact flight_updateDelay ..
  · rfl

@[simp] theorem flight_finishCloseIfIdle : c.finishCloseIfIdle.flight = c.flight := by
  unfold finishCloseIfIdle
  split <;> rfl

@[simp] theorem flight_drainReorder (fuel) : (c.drainReorder fuel).flight = c.flight := by
  induction fuel generalizing c with
  | zero => rfl
  | succ fuel ih =>
    unfold drainReorder
    split
    · rfl
    · split
      · rfl
      · exact ih _

@[simp] theorem flight_bufferPacket (s payload nowUs) :
    (c.bufferPacket s payload nowUs).flight = c.flight := by
  unfold bufferPacket
  split
  · split <;> rfl
  · rfl

@[simp] theorem flight_onData (hdr payload nowUs) :
    (c.onData hdr payload nowUs).flight = c.flight := by
  unfold onData
  dsimp only
  split
  · rfl
  · split
    · rfl
    · split
      · exact flight_drainReorder ..
      · exact flight_bufferPacket ..

@[simp] theorem delay_drainReorder (fuel) : (c.drainReorder fuel).delay = c.delay := by
  induction fuel generalizing c with
  | zero => rfl
  | succ fuel ih =>
    unfold drainReorder
    split
    · rfl
    · split
      · rfl
      · exact ih _

@[simp] theorem delay_onData (hdr payload nowUs) :
    (c.onData hdr payload nowUs).delay = c.delay := by
  unfold onData
  dsimp only
  split
  · rfl
  · split
    · rfl
    · split
      · exact delay_drainReorder ..
      · unfold bufferPacket
        split
        · split <;> rfl
        · rfl

@[simp] theorem flight_onFin (hdr) : (c.onFin hdr).flight = c.flight := by
  unfold onFin
  dsimp only
  split <;> rfl

@[simp] theorem flight_enterConnected (hdr) : (c.enterConnected hdr).flight = c.flight := by
  unfold enterConnected
  split <;> rfl

@[simp] theorem flight_adoptState (hdr) : (c.adoptState hdr).flight = c.flight := by
  unfold adoptState
  split <;> rfl

@[simp] theorem flight_flushFin (nowUs) : (c.flushFin nowUs).flight = c.flight := by
  unfold flushFin
  split <;> rfl

@[simp] theorem flight_retransmitFin (nowUs) : (c.retransmitFin nowUs).flight = c.flight := by
  unfold retransmitFin
  split <;> rfl

@[simp] theorem flight_write (data) : (c.write data).2.flight = c.flight := by
  unfold write
  split <;> rfl

@[simp] theorem flight_read (cap) : (c.read cap).2.flight = c.flight := by
  unfold read
  dsimp only
  split <;> rfl

@[simp] theorem flight_close : c.close.flight = c.flight := by
  unfold close
  split
  · rfl
  · split <;> rfl

/-! ## Retransmissions -/

/-- Packets are put out again, and the window may be halved down to a packet. -/
structure Resends (nowUs : UInt32) (c c' : UtpConnection) : Prop where
  sendQueue : RenewedQueue nowUs c.sendQueue c'.sendQueue
  curWindow : c'.curWindow = c.curWindow
  packetSize : c'.packetSize = c.packetSize
  timeout : c'.timeout = c.timeout
  maxWindow : c.packetSize ≤ c.maxWindow → c.packetSize ≤ c'.maxWindow

variable {c} {c' c'' : UtpConnection} {nowUs : UInt32}

theorem Resends.of_flight (h : c'.flight = c.flight) : Resends nowUs c c' := by
  simp only [flight, Flight.mk.injEq] at h
  obtain ⟨hq, hc, hm, hp, ht⟩ := h
  exact ⟨hq ▸ .refl nowUs c.sendQueue, hc, hp, ht, fun hle => hm ▸ hle⟩

theorem Resends.trans (h : Resends nowUs c c') (h' : Resends nowUs c' c'') :
    Resends nowUs c c'' := by
  refine ⟨h.sendQueue.trans h'.sendQueue, h'.curWindow.trans h.curWindow,
    h'.packetSize.trans h.packetSize, h'.timeout.trans h.timeout, fun hle => ?_⟩
  rw [← h.packetSize]
  exact h'.maxWindow (h.packetSize ▸ h.maxWindow hle)

variable (c) (nowUs)

theorem resends_retransmitPacket (i) : Resends nowUs c (c.retransmitPacket i nowUs) := by
  unfold retransmitPacket
  split
  · exact .of_flight rfl
  next p hp => exact ⟨.set hp nowUs, rfl, rfl, rfl, id⟩

theorem resends_fastRetransmit (i target) : Resends nowUs c (c.fastRetransmit i target nowUs) := by
  unfold fastRetransmit
  split
  · exact .of_flight rfl
  · have h := c.resends_retransmitPacket nowUs i
    refine ⟨h.sendQueue, h.curWindow, h.packetSize, h.timeout, fun _ => ?_⟩
    rw [← h.packetSize, UInt32.le_iff_toNat_le]
    dsimp only
    rw [toNat_max]
    exact le_max_right _ _

theorem resends_sackRetransmit (ackNr sackBits) :
    Resends nowUs c (c.sackRetransmit ackNr sackBits nowUs) := by
  unfold sackRetransmit
  split
  · exact .of_flight rfl
  · split
    · exact c.resends_fastRetransmit nowUs ..
    · exact .of_flight rfl

theorem resends_dupAckRetransmit (ackNr) :
    Resends nowUs c (c.dupAckRetransmit ackNr nowUs) := by
  unfold dupAckRetransmit retransmitNumbered
  split
  · split
    · exact .of_flight rfl
    · exact (c.resends_fastRetransmit nowUs ..).trans (.of_flight rfl)
  · exact .of_flight rfl

/-! ## Acknowledgements -/

variable {nowUs}

/-- The packets that an acknowledgement takes off the queue. -/
def covered (ackNr : UInt16) : List OutPacket := c.sendQueue.takeWhile fun p => seqLeq p.seq ackNr

/-- The packets that it leaves. -/
def uncovered (ackNr : UInt16) : List OutPacket := c.sendQueue.dropWhile fun p => seqLeq p.seq ackNr

theorem covered_append_uncovered (ackNr) : c.covered ackNr ++ c.uncovered ackNr = c.sendQueue :=
  List.takeWhile_append_dropWhile

/-- The bytes that it frees, in the width of the code. -/
def freed (ackNr : UInt16) : UInt32 := .ofNat (inFlight (c.covered ackNr))

theorem removeAcked_sendQueue (finSent finSeq ackNr nowUs) (queue : List OutPacket) (s : AckScan) :
    (removeAcked finSent finSeq ackNr nowUs queue s).1 =
        queue.dropWhile (fun p => seqLeq p.seq ackNr) ∧
      (removeAcked finSent finSeq ackNr nowUs queue s).2.freed =
        s.freed + .ofNat (inFlight (queue.takeWhile fun p => seqLeq p.seq ackNr)) := by
  induction queue generalizing s with
  | nil => exact ⟨rfl, by simp [removeAcked]⟩
  | cons front queue ih =>
    unfold removeAcked
    by_cases h : seqLeq front.seq ackNr = true
    · rw [if_neg (by simp [h]), List.dropWhile_cons_of_pos (by simpa using h),
        List.takeWhile_cons_of_pos (by simpa using h), inFlight_cons, UInt32.ofNat_add,
        UInt32.ofNat_toNat, ← UInt32.add_assoc]
      exact ih _
    · rw [if_pos (by simp [h]), List.dropWhile_cons_of_neg (by simpa using h),
        List.takeWhile_cons_of_neg (by simpa using h)]
      exact ⟨rfl, (UInt32.add_zero _).symm⟩

/-- What the window grows by. -/
def growth (newlyAcked : UInt32) : Int :=
  let delta := Binary64.trunc (Binary64.round (c.delayFactor * newlyAcked.toNat))
  if c.baseDelay = 0 then delta + c.packetSize.toNat else delta

/-- The window that an acknowledgement leads to fits in its field. -/
def WindowFits (ackNr : UInt16) : Prop :=
  0 < c.freed ackNr → c.maxWindow.toNat +
    (c.shrinkWindow (c.freed ackNr)).growth (c.freed ackNr) < 2 ^ 32

/-- What an acknowledgement does to the flight. -/
structure Covers (ackNr : UInt16) (nowUs : UInt32) (c c' : UtpConnection) : Prop where
  sendQueue : RenewedQueue nowUs (c.uncovered ackNr) c'.sendQueue
  curWindow : c'.curWindow = c.curWindow - c.freed ackNr
  packetSize : c'.packetSize = c.packetSize ∨ c'.packetSize = DEFAULT_PACKET_SIZE
  timeout : c'.timeout = c.timeout ∨ RTO_MIN_US ≤ c'.timeout ∧ c'.timeout ≤ RTO_MAX_US
  maxWindow : c.WindowFits ackNr → c.packetSize ≤ c.maxWindow → c'.packetSize ≤ c'.maxWindow

theorem updateRtt_flight (rttUs) :
    (c.updateRtt rttUs).flight = { c.flight with timeout := (c.updateRtt rttUs).timeout } ∧
      (c.updateRtt rttUs).delay = c.delay ∧
      ((c.updateRtt rttUs).timeout = c.timeout ∨
        RTO_MIN_US ≤ (c.updateRtt rttUs).timeout ∧ (c.updateRtt rttUs).timeout ≤ RTO_MAX_US) := by
  have hclamp : ∀ n, RTO_MIN_US ≤ min (max n RTO_MIN_US) RTO_MAX_US ∧
      min (max n RTO_MIN_US) RTO_MAX_US ≤ RTO_MAX_US := fun n => by
    have hle : RTO_MIN_US.toNat ≤ RTO_MAX_US.toNat := by decide
    rw [UInt32.le_iff_toNat_le, UInt32.le_iff_toNat_le, toNat_min, toNat_max]
    omega
  unfold updateRtt
  split
  · exact ⟨rfl, rfl, .inl rfl⟩
  · dsimp only
    split
    · exact ⟨rfl, rfl, .inr (hclamp _)⟩
    · exact ⟨rfl, rfl, .inr (hclamp _)⟩

variable {c}

theorem growth_congr (hdelay : c'.delay = c.delay) (hsize : c'.packetSize = c.packetSize) (n) :
    c'.growth n = c.growth n := by
  simp only [delay, Delay.mk.injEq] at hdelay
  simp only [growth, delayFactor, hdelay, hsize]

/-- The new window is no smaller than a packet, where it fits in its field. -/
theorem packetSize_le_updateWindow {n : UInt32} (h : c.maxWindow.toNat + c.growth n < 2 ^ 32) :
    c.packetSize ≤ (c.updateWindow n).maxWindow := by
  change c.packetSize ≤ .ofInt (max (c.maxWindow.toNat + c.growth n) c.packetSize.toNat)
  have hsize := c.packetSize.toNat_lt
  obtain ⟨k, hk⟩ : ∃ k : Nat, max (c.maxWindow.toNat + c.growth n) c.packetSize.toNat = (k : Int) :=
    Int.eq_ofNat_of_zero_le (by omega)
  rw [UInt32.le_iff_toNat_le, hk]
  change _ ≤ (UInt32.ofNat _).toNat
  rw [UInt32.toNat_ofNat']
  omega

theorem Covers.of_resends {ackNr : UInt16} (h : Covers ackNr nowUs c c')
    (h' : Resends nowUs c' c'') : Covers ackNr nowUs c c'' := by
  refine ⟨h.sendQueue.trans h'.sendQueue, h'.curWindow.trans h.curWindow, ?_, ?_, ?_⟩
  · rw [h'.packetSize]
    exact h.packetSize
  · rw [h'.timeout]
    exact h.timeout
  · intro hfits hle
    rw [h'.packetSize]
    exact h'.maxWindow (h.maxWindow hfits hle)

/-- Where bytes are freed, the window grows after the round-trip time is updated, which does not
touch what it grows by. -/
theorem freeWindow_of_pos (c : UtpConnection) {s : AckScan} (h : 0 < s.freed) :
    ∃ k : UtpConnection, c.freeWindow s = (k.updateWindow s.freed).wakeWriter ∧
      k.flight = { (c.shrinkWindow s.freed).flight with timeout := k.timeout } ∧
      k.delay = c.delay ∧
      (k.timeout = c.timeout ∨ RTO_MIN_US ≤ k.timeout ∧ k.timeout ≤ RTO_MAX_US) := by
  unfold freeWindow
  rw [if_pos h]
  dsimp only
  split
  · exact ⟨_, rfl, updateRtt_flight _ s.rttSampleUs⟩
  · exact ⟨_, rfl, rfl, rfl, .inl rfl⟩

theorem flight_updateWindow (c : UtpConnection) (n) : (c.updateWindow n).wakeWriter.flight =
    { c.flight with maxWindow := (c.updateWindow n).maxWindow } := rfl

theorem covers_freeWindow {ackNr : UInt16} {s : AckScan} (hs : s.freed = c.freed ackNr)
    (hflight : c'.flight = { c.flight with sendQueue := c.uncovered ackNr })
    (hdelay : c'.delay = c.delay) : Covers ackNr nowUs c (c'.freeWindow s) := by
  simp only [flight, Flight.mk.injEq] at hflight
  obtain ⟨hqueue, hcur, hmax, hsize, htimeout⟩ := hflight
  by_cases hpos : 0 < s.freed
  · obtain ⟨k, hfree, hkflight, hkdelay, hktimeout⟩ := c'.freeWindow_of_pos hpos
    rw [hfree]
    have hflight := k.flight_updateWindow s.freed
    rw [hkflight] at hflight
    generalize (k.updateWindow s.freed).wakeWriter = f at hflight ⊢
    have hshrunk : (c'.shrinkWindow s.freed).packetSize = (c.shrinkWindow s.freed).packetSize := by
      simp only [shrinkWindow, hsize]
    have hmax' : k.maxWindow = c.maxWindow := (congrArg Flight.maxWindow hkflight).trans hmax
    have hsize' : k.packetSize = (c.shrinkWindow s.freed).packetSize :=
      (congrArg Flight.packetSize hkflight).trans hshrunk
    have hfsize : f.packetSize = (c.shrinkWindow s.freed).packetSize :=
      (congrArg Flight.packetSize hflight).trans hshrunk
    refine ⟨?_, ?_, ?_, ?_, fun hfits _ => ?_⟩
    · have hf : f.sendQueue = c.uncovered ackNr :=
        (congrArg Flight.sendQueue hflight).trans hqueue
      exact hf ▸ .refl nowUs (c.uncovered ackNr)
    · have hf : f.curWindow = c'.curWindow - s.freed := congrArg Flight.curWindow hflight
      rw [hf, hcur, hs]
    · rw [hfsize]
      simp only [shrinkWindow]
      split
      exacts [.inr rfl, .inl rfl]
    · have hf : f.timeout = k.timeout := congrArg Flight.timeout hflight
      rw [hf, ← htimeout]
      exact hktimeout
    · have hf : f.maxWindow = (k.updateWindow s.freed).maxWindow := congrArg Flight.maxWindow hflight
      rw [hf, hfsize, ← hsize']
      refine packetSize_le_updateWindow ?_
      have hgrowth : k.growth s.freed = (c.shrinkWindow s.freed).growth s.freed :=
        growth_congr (c := c.shrinkWindow s.freed) (hkdelay.trans hdelay) hsize' _
      rw [hgrowth, hmax', hs]
      exact hfits (hs ▸ hpos)
  · have hzero : c.freed ackNr = 0 := by
      rw [hs] at hpos
      exact UInt32.le_zero_iff.mp (UInt32.not_lt.mp hpos)
    have hfree : c'.freeWindow s = c' := if_neg hpos
    rw [hfree]
    refine ⟨hqueue ▸ .refl nowUs (c.uncovered ackNr), ?_, .inl hsize, .inl htimeout, fun _ hle => ?_⟩
    · rw [hcur, hzero, UInt32.sub_zero]
    · rwa [hsize, hmax]

variable (c)

@[simp] theorem flight_countAck (ackNr) : (c.countAck ackNr).flight = c.flight := by
  unfold countAck
  split <;> rfl

@[simp] theorem delay_countAck (ackNr) : (c.countAck ackNr).delay = c.delay := by
  unfold countAck
  split <;> rfl

@[simp] theorem flight_noteFinAck (ackNr) : (c.noteFinAck ackNr).flight = c.flight := by
  unfold noteFinAck
  split <;> rfl

theorem covers_ackPackets (ackNr nowUs) : Covers ackNr nowUs c (c.ackPackets ackNr nowUs) := by
  have hflight := c.flight_countAck ackNr
  have hdelay := c.delay_countAck ackNr
  unfold ackPackets
  dsimp only
  generalize c.countAck ackNr = k at hflight hdelay ⊢
  have hqueue : k.sendQueue = c.sendQueue := congrArg Flight.sendQueue hflight
  obtain ⟨hleft, hfreed⟩ := removeAcked_sendQueue k.finSent k.finSeq ackNr nowUs k.sendQueue
    { finAcked := k.finAcked }
  rw [hqueue, UInt32.zero_add] at hfreed
  rw [hqueue] at hleft ⊢
  generalize removeAcked k.finSent k.finSeq ackNr nowUs c.sendQueue { finAcked := k.finAcked } = r
    at hleft hfreed ⊢
  refine Covers.of_resends ?_ (.of_flight (flight_noteFinAck _ ackNr))
  refine covers_freeWindow hfreed ?_ hdelay
  change { k.flight with sendQueue := r.1 } = _
  rw [hflight, hleft]
  rfl

theorem covers_onAck (h : c.state ≠ .synSent) (ackNr sackBits nowUs) :
    Covers ackNr nowUs c (c.onAck ackNr sackBits nowUs) := by
  unfold onAck
  rw [if_neg (by simp [h])]
  have hack := ((c.covers_ackPackets ackNr nowUs).of_resends
    (resends_sackRetransmit _ nowUs ackNr sackBits)).of_resends
    (resends_dupAckRetransmit _ nowUs ackNr)
  dsimp only
  split
  · exact hack.of_resends (.of_flight (flight_finishCloseIfIdle _))
  · exact hack

/-! ## A packet arrives -/

variable {c} {hdr : PacketHeader}

theorem covered_congr (h : c'.flight = c.flight) (ackNr) : c'.covered ackNr = c.covered ackNr := by
  simp only [flight, Flight.mk.injEq] at h
  simp only [covered, h.1]

theorem uncovered_congr (h : c'.flight = c.flight) (ackNr) :
    c'.uncovered ackNr = c.uncovered ackNr := by
  simp only [flight, Flight.mk.injEq] at h
  simp only [uncovered, h.1]

theorem windowFits_congr (h : c'.flight = c.flight) (hdelay : c'.delay = c.delay) (ackNr) :
    c'.WindowFits ackNr ↔ c.WindowFits ackNr := by
  have hfreed : c'.freed ackNr = c.freed ackNr := by rw [freed, freed, covered_congr h]
  have hshrink : (c'.shrinkWindow (c.freed ackNr)).packetSize =
      (c.shrinkWindow (c.freed ackNr)).packetSize := by
    simp only [shrinkWindow, show c'.packetSize = c.packetSize from congrArg Flight.packetSize h]
  have hgrowth : (c'.shrinkWindow (c.freed ackNr)).growth (c.freed ackNr) =
      (c.shrinkWindow (c.freed ackNr)).growth (c.freed ackNr) := by
    refine growth_congr ?_ hshrink _
    exact hdelay
  rw [WindowFits, WindowFits, hfreed, hgrowth,
    show c'.maxWindow = c.maxWindow from congrArg Flight.maxWindow h]

/-- The effect of an acknowledgement is that on a connection with the same flight. -/
theorem Covers.congr_left {ackNr : UInt16} (h : Covers ackNr nowUs c' c'')
    (hflight : c'.flight = c.flight) (hdelay : c'.delay = c.delay) :
    Covers ackNr nowUs c c'' := by
  obtain ⟨hq, hcur, hsize, htimeout, hmax⟩ := h
  rw [uncovered_congr hflight] at hq
  rw [freed, covered_congr hflight, ← freed] at hcur
  rw [windowFits_congr hflight hdelay] at hmax
  simp only [flight, Flight.mk.injEq] at hflight
  obtain ⟨-, hcur', hmax', hsize', htimeout'⟩ := hflight
  exact ⟨hq, hcur' ▸ hcur, hsize' ▸ hsize, htimeout' ▸ htimeout, hmax' ▸ hsize' ▸ hmax⟩

/-- A packet either leaves the flight alone or acts on it as an acknowledgement. -/
theorem handleParsed_flight (c : UtpConnection) (hdr : PacketHeader) (sack payload nowUs) :
    (c.handleParsed hdr sack payload nowUs).flight = c.flight ∨
      hdr.Acks ∧ Covers hdr.ackNr nowUs (c.notePacket hdr nowUs)
        (c.handleParsed hdr sack payload nowUs) := by
  have hnote := c.flight_notePacket hdr nowUs
  unfold handleParsed
  dsimp only
  generalize c.notePacket hdr nowUs = k at hnote ⊢
  split
  · exact .inl hnote
  suffices hdispatch : (k.dispatchPacket hdr sack payload nowUs).flight = k.flight ∨
      hdr.Acks ∧ Covers hdr.ackNr nowUs k (k.dispatchPacket hdr sack payload nowUs) by
    rcases hdispatch with heq | ⟨hacks, hcovers⟩
    · exact .inl ((flight_flushAck _ nowUs).trans (heq.trans hnote))
    · exact .inr ⟨hacks, hcovers.of_resends (.of_flight (flight_flushAck _ nowUs))⟩
  rcases type_cases hdr with h | h | h | h | ⟨h, h₁, h₂, h₃⟩
  · left
    unfold dispatchPacket
    rw [if_pos h]
    split <;> rfl
  · rw [dispatchPacket_state h]
    refine .inr ⟨.inl h, ((covers_onAck _ (adoptState_ne_synSent k hdr) ..).congr_left
      (k.flight_adoptState hdr) ?_)⟩
    unfold adoptState
    split <;> rfl
  · rw [dispatchPacket_data h]
    refine .inr ⟨.inr (.inl h), (covers_onAck _ (by
      rw [onData_state]; exact enterConnected_ne_synSent k hdr) ..).congr_left
      (by rw [flight_onData, flight_enterConnected]) ?_⟩
    rw [delay_onData]
    unfold enterConnected
    split <;> rfl
  · rw [dispatchPacket_fin h]
    refine .inr ⟨.inr (.inr h), (covers_onAck _ (by
      rw [onFin_state]; exact enterConnected_ne_synSent k hdr) ..).congr_left
      (by rw [flight_onFin, flight_enterConnected]) ?_⟩
    unfold onFin enterConnected
    dsimp only
    split <;> split <;> rfl
  · rw [dispatchPacket_other h h₁ h₂ h₃]
    exact .inl rfl

/-! ## A tick -/

/-- What a timeout does to the flight. -/
structure Expires (nowUs : UInt32) (c c' : UtpConnection) : Prop where
  sendQueue : RenewedQueue nowUs c.sendQueue c'.sendQueue
  curWindow : c'.curWindow = c.curWindow
  timeout : c'.timeout = c.timeout ∨ c'.timeout = min (c.timeout * 2) RTO_MAX_US
  sizes : c'.packetSize = c.packetSize ∧ c'.maxWindow = c.maxWindow ∨
    c'.packetSize = MIN_PACKET_SIZE ∧ c'.maxWindow = MIN_PACKET_SIZE

theorem handleTimeout_flight (c : UtpConnection) (nowUs) :
    Expires nowUs c (c.handleTimeout nowUs) := by
  unfold handleTimeout
  split
  · unfold synTimeout
    split
    · exact ⟨.refl nowUs _, rfl, .inl rfl, .inl ⟨rfl, rfl⟩⟩
    · dsimp only
      split
      · exact ⟨.refl nowUs _, rfl, .inr rfl, .inl ⟨rfl, rfl⟩⟩
      · exact ⟨.refl nowUs _, rfl, .inr rfl, .inl ⟨rfl, rfl⟩⟩
  · dsimp only
    split
    · exact ⟨.refl nowUs _, rfl, .inr rfl, .inl ⟨rfl, rfl⟩⟩
    · have hfin := flight_retransmitFin
        ((c.countTimeout.collapseWindow nowUs).retransmitUnacked nowUs) nowUs
      simp only [flight, Flight.mk.injEq] at hfin
      obtain ⟨hq, hcur, hmax, hsize, htimeout⟩ := hfin
      refine ⟨?_, hcur, .inr htimeout, .inr ⟨hsize, hmax⟩⟩
      rw [hq]
      exact .map nowUs c.sendQueue

/-- Packets with the rest of the flight unchanged. -/
structure Puts (nowUs : UInt32) (c c' : UtpConnection) (added : List OutPacket) : Prop where
  sendQueue : c'.sendQueue = c.sendQueue ++ added
  each : ∀ p ∈ added, p.sendTimeUs = nowUs ∧ p.size.toNat = p.payload.length
  curWindow : c'.curWindow = c.curWindow + .ofNat (inFlight added)
  maxWindow : c'.maxWindow = c.maxWindow
  packetSize : c'.packetSize = c.packetSize
  timeout : c'.timeout = c.timeout

theorem Puts.of_flight (h : c'.flight = c.flight) : Puts nowUs c c' [] := by
  simp only [flight, Flight.mk.injEq] at h
  obtain ⟨hq, hc, hm, hp, ht⟩ := h
  exact ⟨by rw [hq, List.append_nil], nofun, by rw [hc]; exact (UInt32.add_zero _).symm, hm, hp, ht⟩

theorem Puts.trans {added added' : List OutPacket} (h : Puts nowUs c c' added)
    (h' : Puts nowUs c' c'' added') : Puts nowUs c c'' (added ++ added') := by
  refine ⟨by rw [h'.sendQueue, h.sendQueue, List.append_assoc], ?_, ?_, h'.maxWindow.trans h.maxWindow,
    h'.packetSize.trans h.packetSize, h'.timeout.trans h.timeout⟩
  · simp only [List.forall_mem_append]
    exact ⟨h.each, h'.each⟩
  · rw [h'.curWindow, h.curWindow, inFlight_append, UInt32.ofNat_add, UInt32.add_assoc]

theorem toNat_ofNat_chunkLen (c : UtpConnection) : (UInt32.ofNat c.chunkLen).toNat = c.chunkLen := by
  have := c.packetSize.toNat_lt
  rw [UInt32.toNat_ofNat', Nat.mod_eq_of_lt]
  exact (Nat.min_le_right _ _).trans_lt this

theorem puts_sendChunk (c : UtpConnection) (nowUs) :
    ∃ p, Puts nowUs c (c.sendChunk nowUs) [p] ∧ p.size.toNat = c.chunkLen := by
  have hsize := c.toNat_ofNat_chunkLen
  refine ⟨_, ⟨rfl, ?_, ?_, rfl, rfl, rfl⟩, hsize⟩
  · intro p hp
    rw [List.mem_singleton.mp hp]
    refine ⟨rfl, ?_⟩
    rw [hsize, List.length_take]
    exact (Nat.min_eq_left (Nat.min_le_left _ _)).symm
  · rw [inFlight_cons, inFlight_nil, Nat.add_zero, UInt32.ofNat_toNat]
    rfl

theorem flushPending_puts (c : UtpConnection) (nowUs) (fuel : Nat) :
    ∃ added, Puts nowUs c (flushPending nowUs fuel c) added := by
  induction fuel generalizing c with
  | zero => exact ⟨[], .of_flight rfl⟩
  | succ fuel ih =>
    unfold flushPending
    split
    · exact ⟨[], .of_flight rfl⟩
    · split
      · exact ⟨[], .of_flight rfl⟩
      · obtain ⟨p, hp, -⟩ := c.puts_sendChunk nowUs
        obtain ⟨added, hadded⟩ := ih (c.sendChunk nowUs)
        exact ⟨_, hp.trans hadded⟩

/-- A tick leaves the flight alone, handles a timeout, or puts packets on the queue. -/
theorem processTick_flight (c : UtpConnection) (nowUs) :
    (c.processTick nowUs).flight = c.flight ∨
      (c.state ≠ .closed ∧ (c.flushFin nowUs).rtoDue nowUs = true ∧
        c.processTick nowUs = (c.flushFin nowUs).handleTimeout nowUs) ∨
      (c.state ≠ .closed ∧ (c.flushFin nowUs).rtoDue nowUs = false ∧
        ((c.flushFin nowUs).state = .connected ∨ (c.flushFin nowUs).state = .finSent) ∧
        (c.processTick nowUs).flight =
          (flushPending nowUs (c.flushFin nowUs).pendingSend.length (c.flushFin nowUs)).flight) := by
  have hfin := c.flight_flushFin nowUs
  unfold processTick
  split
  · exact .inl rfl
  next hopen =>
    dsimp only
    generalize c.flushFin nowUs = f at hfin ⊢
    split
    · exact .inl hfin
    · split
      next hrto => exact .inr (.inl ⟨hopen, hrto, rfl⟩)
      next hrto =>
        rw [flight_noteReadable, flight_flushAck]
        unfold flushData
        split
        next hstate =>
          exact .inr (.inr ⟨hopen, by simpa using hrto, by simpa using hstate, rfl⟩)
        · exact .inl hfin

end UtpConnection

end FluxCore.Utp
