import FluxCore.Utp.WindowGrowth
import FluxCore.Utp.SendStream

/-!
# Accounting on the send side

`Sender` carries along what has been acknowledged and what the owner has got rid of. In every run
the packets are numbered on from the first, acknowledgements take them off the front, and together
with the bytes that wait they are the bytes accepted (`Streamed`). The counter of the bytes in
flight is exact as long as the sum that a tick compares with the windows does not wrap
(`send_accounting`).
-/

namespace FluxCore

/-- What is left of a numbered stream behind its first items. -/
theorem drop_numbered {α : Type} (base : UInt16) (xs : List α) (n : Nat) :
    (numbered base xs).drop n = numbered (seqNo base n) (xs.drop n) := by
  induction n generalizing base xs with
  | zero => simp
  | succ n ih =>
    cases xs with
    | nil => simp
    | cons x xs =>
      rw [numbered_cons, List.drop_succ_cons, ih, List.drop_succ_cons, Nat.add_comm, seqNo_add,
        seqNo_succ, seqNo_zero]

end FluxCore

namespace FluxCore.Utp

namespace UtpConnection

/-- The sum that turn `k` of the loop of a tick compares with the windows; before it, `k` full
packets have been put out. -/
def sumAt (c : UtpConnection) (k : Nat) : Nat := c.curWindow.toNat + (k + 1) * c.packetSize.toNat

/-- Where the loop gets to a turn with bytes to send and finds room in the windows, the sum it
compares has not wrapped. -/
def SumsFit (c : UtpConnection) : Prop :=
  ∀ k, k * c.packetSize.toNat < c.pendingSend.length →
    (∀ j ≤ k, UInt32.ofNat (c.sumAt j) ≤ min c.maxWindow c.peerWnd) → c.sumAt k < 2 ^ 32

end UtpConnection

/-- A connection with the payloads acknowledged so far and the bytes its owner has written. -/
structure Sender where
  conn : UtpConnection
  acked : List Bytes := []
  accepted : Bytes := []

/-- The size of each packet is that of its payload. -/
def Sized (queue : List OutPacket) : Prop := ∀ p ∈ queue, p.size.toNat = p.payload.length

theorem Sized.renewed {nowUs : UInt32} {queue queue' : List OutPacket} (h : Sized queue)
    (hq : RenewedQueue nowUs queue queue') : Sized queue' := by
  induction hq with
  | nil => exact h
  | @cons p p' _ _ hp _ ih =>
    obtain ⟨hhead, htail⟩ := List.forall_mem_cons.mp h
    have hpayload : p'.payload = p.payload := congrArg Prod.snd hp.content
    refine List.forall_mem_cons.mpr ⟨?_, ih htail⟩
    rw [hp.size, hhead, hpayload]

theorem Sized.handleParsed {c : UtpConnection} (h : Sized c.sendQueue) (hdr sack payload nowUs) :
    Sized (c.handleParsed hdr sack payload nowUs).sendQueue := by
  rcases c.handleParsed_flight hdr sack payload nowUs with heq | ⟨-, hcovers⟩
  · have hqueue : (c.handleParsed hdr sack payload nowUs).sendQueue = c.sendQueue :=
      congrArg Flight.sendQueue heq
    rwa [hqueue]
  · refine Sized.renewed (fun p hp => ?_) hcovers.sendQueue
    rw [UtpConnection.uncovered_congr (c.flight_notePacket hdr nowUs)] at hp
    exact h p ((List.dropWhile_sublist _).mem hp)

theorem Sized.processTick {c : UtpConnection} (h : Sized c.sendQueue) (nowUs) :
    Sized (c.processTick nowUs).sendQueue := by
  have hfin : (c.flushFin nowUs).sendQueue = c.sendQueue :=
    congrArg Flight.sendQueue (c.flight_flushFin nowUs)
  rcases c.processTick_flight nowUs with heq | ⟨-, -, heq⟩ | ⟨-, -, -, heq⟩
  · have hqueue : (c.processTick nowUs).sendQueue = c.sendQueue := congrArg Flight.sendQueue heq
    rwa [hqueue]
  · rw [heq]
    exact Sized.renewed (hfin ▸ h) (UtpConnection.handleTimeout_flight _ nowUs).sendQueue
  · obtain ⟨added, hputs⟩ := UtpConnection.flushPending_puts (c.flushFin nowUs) nowUs
      (c.flushFin nowUs).pendingSend.length
    have hqueue : (c.processTick nowUs).sendQueue = (UtpConnection.flushPending nowUs
        (c.flushFin nowUs).pendingSend.length (c.flushFin nowUs)).sendQueue :=
      congrArg Flight.sendQueue heq
    rw [hqueue, hputs.sendQueue, hfin]
    exact List.forall_mem_append.mpr ⟨h, fun p hp => (hputs.each p hp).2⟩

namespace Sender

/-- The payloads that wait for an acknowledgement. -/
def waiting (s : Sender) : List Bytes := s.conn.unacked.map Prod.snd

/-- The bytes that a call accepts. -/
def accepts (c : UtpConnection) : Call → Bytes
  | .act (.write data) => data.take (c.write data).1
  | _ => []

def step (s : Sender) (x : Call) : Sender where
  conn := s.conn.call x
  acked := s.acked ++
    s.waiting.take (s.conn.unacked.length - (s.conn.call x).unacked.length)
  accepted := s.accepted ++ accepts s.conn x

/-- The packets acknowledged and those in the queue are numbered on from the first, and with the
bytes that wait they are the bytes accepted. -/
structure Streamed (first : UInt16) (s : Sender) : Prop where
  queue : s.conn.unacked = numbered (seqNo first s.acked.length) s.waiting
  seq : s.conn.seq = seqNo first (s.acked.length + s.waiting.length)
  stream : (s.acked ++ s.waiting).flatten ++ s.conn.pendingSend = s.accepted
  sizes : Sized s.conn.sendQueue

/-- The counter is the number of bytes in flight, and no acknowledgement frees more. -/
structure Counted (s : Sender) : Prop where
  curWindow : s.conn.curWindow.toNat = inFlight s.conn.sendQueue
  freed : ∀ ackNr nowUs, (UtpConnection.removeAcked s.conn.finSent s.conn.finSeq ackNr nowUs
    s.conn.sendQueue { finAcked := s.conn.finAcked }).2.freed ≤ s.conn.curWindow

/-- Where a tick sends, the sums it compares with the windows do not wrap. -/
def SumsFit (s : Sender) : Call → Prop
  | .act (.tick nowUs) => s.conn.sendsData nowUs = true → s.conn.SumsFit
  | _ => True

variable {first : UInt16} {s : Sender} {c c' : UtpConnection} {x : Call}

/-! ## The stream -/

theorem length_waiting (s : Sender) : s.waiting.length = s.conn.unacked.length :=
  List.length_map _

/-- A call that takes a prefix off the queue and accepts nothing. -/
theorem Streamed.acked (h : Streamed first s) (hun : (s.conn.call x).unacked <:+ s.conn.unacked)
    (hseq : (s.conn.call x).seq = s.conn.seq)
    (hpending : (s.conn.call x).pendingSend = s.conn.pendingSend) (hnone : accepts s.conn x = [])
    (hsizes : Sized (s.conn.call x).sendQueue) :
    Streamed first (s.step x) := by
  have hdrop := List.suffix_iff_eq_drop.mp hun
  have hle : s.conn.unacked.length - (s.conn.call x).unacked.length ≤ s.waiting.length := by
    rw [length_waiting]
    omega
  obtain ⟨n, hn⟩ : ∃ n, n = s.conn.unacked.length - (s.conn.call x).unacked.length := ⟨_, rfl⟩
  rw [← hn] at hdrop hle
  have hwaiting : (s.step x).waiting = s.waiting.drop n := by
    change (s.conn.call x).unacked.map Prod.snd = _
    rw [hdrop, List.map_drop]
    rfl
  have hacked : (s.step x).acked = s.acked ++ s.waiting.take n := by
    rw [hn]
    rfl
  refine ⟨?_, ?_, ?_, hsizes⟩
  · change (s.conn.call x).unacked = _
    rw [hwaiting, hacked, hdrop, h.queue, drop_numbered, List.length_append, List.length_take,
      Nat.min_eq_left hle, seqNo_add]
  · change (s.conn.call x).seq = _
    rw [hseq, h.seq, hwaiting, hacked, List.length_append, List.length_take, List.length_drop]
    congr 1
    omega
  · change _ ++ (s.conn.call x).pendingSend = s.accepted ++ accepts s.conn x
    rw [hwaiting, hacked, hpending, hnone, List.append_nil, ← h.stream, List.append_assoc,
      List.take_append_drop]

/-- A call that leaves the queue alone and accepts what joins the bytes that wait. -/
theorem Streamed.accepted (h : Streamed first s)
    (hqueue : (s.conn.call x).sendQueue = s.conn.sendQueue)
    (hseq : (s.conn.call x).seq = s.conn.seq)
    (hpending : (s.conn.call x).pendingSend = s.conn.pendingSend ++ accepts s.conn x) :
    Streamed first (s.step x) := by
  have hun : (s.conn.call x).unacked = s.conn.unacked := by
    rw [UtpConnection.unacked, hqueue]
    rfl
  have hwaiting : (s.step x).waiting = s.waiting := congrArg (List.map Prod.snd) hun
  have hacked : (s.step x).acked = s.acked := by
    change s.acked ++ s.waiting.take _ = _
    rw [hun, Nat.sub_self, List.take_zero, List.append_nil]
  refine ⟨?_, ?_, ?_, ?_⟩
  · change (s.conn.call x).unacked = _
    rw [hun, hacked, hwaiting]
    exact h.queue
  · change (s.conn.call x).seq = _
    rw [hseq, hacked, hwaiting]
    exact h.seq
  · change _ ++ (s.conn.call x).pendingSend = s.accepted ++ accepts s.conn x
    rw [hacked, hwaiting, hpending, ← List.append_assoc, h.stream]
  · change Sized (s.conn.call x).sendQueue
    rw [hqueue]
    exact h.sizes

/-- A tick that cuts waiting bytes into packets. -/
theorem Streamed.cuts {nowUs : UInt32} {chunks : List Bytes} (h : Streamed first s)
    (hcuts : UtpConnection.Cuts (s.conn.flushFin nowUs) (s.conn.processTick nowUs) chunks)
    (hsizes : Sized (s.conn.processTick nowUs).sendQueue) :
    Streamed first (s.step (.act (.tick nowUs))) := by
  have hun := hcuts.unacked
  have hout := s.conn.flushFin_outgoing nowUs
  have hseq : (s.conn.flushFin nowUs).seq = s.conn.seq := by
    have := congrArg Outgoing.seq hout
    split at this <;> exact this
  have hpending : (s.conn.flushFin nowUs).pendingSend = s.conn.pendingSend := by
    have := congrArg Outgoing.pendingSend hout
    split at this <;> exact this
  rw [s.conn.flushFin_unacked, hseq] at hun
  have hwaiting : (s.step (.act (.tick nowUs))).waiting = s.waiting ++ chunks := by
    change (s.conn.processTick nowUs).unacked.map Prod.snd = _
    rw [hun, List.map_append, map_snd_numbered]
    rfl
  have hacked : (s.step (.act (.tick nowUs))).acked = s.acked := by
    change s.acked ++ s.waiting.take (s.conn.unacked.length -
      (s.conn.processTick nowUs).unacked.length) = _
    rw [hun, List.length_append, Nat.sub_eq_zero_of_le (Nat.le_add_right _ _), List.take_zero,
      List.append_nil]
  refine ⟨?_, ?_, ?_, hsizes⟩
  · change (s.conn.processTick nowUs).unacked = _
    rw [hun, hwaiting, hacked, h.seq, numbered_append, ← h.queue, seqNo_add]
  · have hnext : (s.conn.processTick nowUs).seq =
        seqNo (s.conn.flushFin nowUs).seq chunks.length := congrArg Outgoing.seq hcuts.outgoing
    change (s.conn.processTick nowUs).seq = _
    rw [hnext, hseq, h.seq, hwaiting, hacked, List.length_append, ← seqNo_add, Nat.add_assoc]
  · change _ ++ (s.conn.processTick nowUs).pendingSend = s.accepted ++ []
    rw [hacked, hwaiting, List.append_nil, ← h.stream, ← hpending, hcuts.pending]
    simp

theorem Streamed.step (h : Streamed first s) (x : Call) : Streamed first (s.step x) := by
  cases x with
  | act a =>
    cases a with
    | write data =>
      have hcore := s.conn.core_write data
      exact h.accepted (congrArg Flight.sendQueue (s.conn.flight_write data))
        (congrArg (·.outgoing.seq) hcore) (congrArg (·.outgoing.pendingSend) hcore)
    | read cap =>
      have hcore := s.conn.core_read cap
      exact h.accepted (congrArg Flight.sendQueue (s.conn.flight_read cap))
        (congrArg (·.outgoing.seq) hcore)
        ((congrArg (·.outgoing.pendingSend) hcore).trans (List.append_nil _).symm)
    | close =>
      have hcore := s.conn.core_close
      exact h.accepted (congrArg Flight.sendQueue s.conn.flight_close)
        (congrArg (·.outgoing.seq) hcore)
        ((congrArg (·.outgoing.pendingSend) hcore).trans (List.append_nil _).symm)
    | tick nowUs =>
      by_cases hclosed : s.conn.state = .closed
      · have heq : s.conn.call (.act (.tick nowUs)) = s.conn :=
          UtpConnection.processTick_closed hclosed nowUs
        exact h.accepted (by rw [heq]) (by rw [heq]) (by rw [heq]; exact (List.append_nil _).symm)
      · obtain ⟨chunks, hcuts, -⟩ := UtpConnection.processTick_spec hclosed nowUs
        exact h.cuts hcuts (h.sizes.processTick nowUs)
  | packet data nowUs =>
    have hout := s.conn.handlePacket_outgoing data nowUs
    refine h.acked (s.conn.handlePacket_unacked_suffix data nowUs) (congrArg Outgoing.seq hout)
      (congrArg Outgoing.pendingSend hout) rfl ?_
    change Sized (s.conn.handlePacket data nowUs).sendQueue
    unfold UtpConnection.handlePacket
    split
    exacts [h.sizes, h.sizes.handleParsed _ _ _ nowUs]
  | drain => exact h.accepted rfl rfl (List.append_nil _).symm

/-! ## The counter -/

theorem freed_le (hcur : c.curWindow.toNat = inFlight c.sendQueue)
    (finSent finSeq finAcked ackNr nowUs) :
    (UtpConnection.removeAcked finSent finSeq ackNr nowUs c.sendQueue
      { finAcked := finAcked }).2.freed ≤ c.curWindow ∧
      (c.freed ackNr).toNat = inFlight (c.covered ackNr) := by
  have hsplit := congrArg inFlight (c.covered_append_uncovered ackNr)
  rw [inFlight_append, ← hcur] at hsplit
  have hlt := c.curWindow.toNat_lt
  have hfreed : (c.freed ackNr).toNat = inFlight (c.covered ackNr) := by
    rw [UtpConnection.freed, UInt32.toNat_ofNat', Nat.mod_eq_of_lt (by omega)]
  refine ⟨?_, hfreed⟩
  rw [(UtpConnection.removeAcked_sendQueue finSent finSeq ackNr nowUs c.sendQueue
    { finAcked := finAcked }).2]
  change 0 + c.freed ackNr ≤ c.curWindow
  rw [UInt32.zero_add, UInt32.le_iff_toNat_le, hfreed]
  omega

theorem Counted.of_curWindow (h : s.conn.curWindow.toNat = inFlight s.conn.sendQueue) : Counted s :=
  ⟨h, fun _ _ => (freed_le h ..).1⟩

theorem counted_congr (h : c.curWindow.toNat = inFlight c.sendQueue)
    (hflight : c'.flight = c.flight) :
    c'.curWindow.toNat = inFlight c'.sendQueue := by
  simp only [UtpConnection.flight, Flight.mk.injEq] at hflight
  rw [hflight.1, hflight.2.1]
  exact h

/-- What an acknowledgement takes off the queue it takes off the counter. -/
theorem counted_covers {ackNr : UInt16} {nowUs : UInt32}
    (h : c.curWindow.toNat = inFlight c.sendQueue)
    (hcovers : UtpConnection.Covers ackNr nowUs c c') :
    c'.curWindow.toNat = inFlight c'.sendQueue := by
  have hsplit := congrArg inFlight (c.covered_append_uncovered ackNr)
  rw [inFlight_append, ← h] at hsplit
  have hfreed := (freed_le h false 0 false ackNr nowUs).2
  rw [hcovers.sendQueue.inFlight_eq, hcovers.curWindow, UInt32.toNat_sub_of_le _ _ (by
    rw [UInt32.le_iff_toNat_le]; omega)]
  omega

theorem canSendData_iff :
    c.canSendData = true ↔ UInt32.ofNat (c.sumAt 0) ≤ min c.maxWindow c.peerWnd := by
  have hsum : UInt32.ofNat (c.sumAt 0) = c.curWindow + c.packetSize := by
    rw [UtpConnection.sumAt, Nat.zero_add, Nat.one_mul, UInt32.ofNat_add, UInt32.ofNat_toNat,
      UInt32.ofNat_toNat]
  rw [hsum, UtpConnection.canSendData, decide_eq_true_iff]

theorem counted_flushPending {nowUs : UInt32} (fuel : Nat)
    (h : c.curWindow.toNat = inFlight c.sendQueue) (hfits : c.SumsFit) :
    (UtpConnection.flushPending nowUs fuel c).curWindow.toNat =
      inFlight (UtpConnection.flushPending nowUs fuel c).sendQueue := by
  induction fuel generalizing c with
  | zero => exact h
  | succ fuel ih =>
    unfold UtpConnection.flushPending
    split
    · exact h
    next hpending =>
      split
      · exact h
      next hcan =>
        have hroom := canSendData_iff.mp (by simpa using hcan)
        have hne : 0 < c.pendingSend.length := by simpa [List.length_pos_iff] using hpending
        have hfirst := hfits 0 (by omega) fun j hj => by rwa [Nat.le_zero.mp hj]
        obtain ⟨p, hp, hsize⟩ := c.puts_sendChunk nowUs
        have hlen : c.chunkLen ≤ c.packetSize.toNat := Nat.min_le_right _ _
        have hcur : (c.sendChunk nowUs).curWindow.toNat = c.curWindow.toNat + c.chunkLen := by
          rw [hp.curWindow, inFlight_cons, inFlight_nil, Nat.add_zero, UInt32.ofNat_toNat,
            UInt32.toNat_add, hsize]
          rw [UtpConnection.sumAt] at hfirst
          omega
        refine ih ?_ ?_
        · rw [hcur, hp.sendQueue, inFlight_append, inFlight_cons, inFlight_nil, hsize, h]
          rfl
        -- the turns that follow are those of `c` behind the first, whose packet is full
        · intro k hk hj
          have hrest : (c.sendChunk nowUs).pendingSend.length = c.pendingSend.length - c.chunkLen :=
            List.length_drop
          rw [hp.packetSize, hrest] at hk
          have hfull : c.chunkLen = c.packetSize.toNat := by
            unfold UtpConnection.chunkLen at hk ⊢
            omega
          have hsum : ∀ j, (c.sendChunk nowUs).sumAt j = c.sumAt (j + 1) := fun j => by
            simp only [UtpConnection.sumAt, hcur, hp.packetSize, hfull]
            ring
          rw [hsum]
          refine hfits (k + 1) ?_ fun j hjk => ?_
          · rw [Nat.succ_mul]
            omega
          · cases j with
            | zero => exact hroom
            | succ j =>
              have := hj j (by omega)
              rwa [hsum, hp.maxWindow, show (c.sendChunk nowUs).peerWnd = c.peerWnd from rfl] at this

theorem counted_processTick {nowUs : UInt32} (h : c.curWindow.toNat = inFlight c.sendQueue)
    (hfits : c.sendsData nowUs = true → c.SumsFit) :
    (c.processTick nowUs).curWindow.toNat = inFlight (c.processTick nowUs).sendQueue := by
  have hfin := counted_congr h (c.flight_flushFin nowUs)
  rcases c.processTick_flight nowUs with heq | ⟨-, -, heq⟩ | ⟨hopen, hrto, hstate, heq⟩
  · exact counted_congr h heq
  · have hexpires := UtpConnection.handleTimeout_flight (c.flushFin nowUs) nowUs
    rw [heq, hexpires.sendQueue.inFlight_eq, hexpires.curWindow]
    exact hfin
  · refine counted_congr (counted_flushPending _ hfin ?_) heq
    have hkept : (c.flushFin nowUs).SumsFit ↔ c.SumsFit := by
      unfold UtpConnection.flushFin
      split <;> exact Iff.rfl
    by_cases hsends : c.sendsData nowUs = true
    · exact hkept.mpr (hfits hsends)
    · intro k hk hroom
      refine absurd ?_ hsends
      have hpending := List.length_pos_iff.mp (Nat.zero_lt_of_lt hk)
      have hcan := canSendData_iff.mpr (hroom 0 k.zero_le)
      unfold UtpConnection.sendsData
      simp [hopen, hrto, hstate, hpending, hcan]

theorem Counted.step (h : Counted s) (hx : s.SumsFit x) : Counted (s.step x) := by
  refine .of_curWindow ?_
  have hcur := h.curWindow
  cases x with
  | act a =>
    cases a with
    | write data => exact counted_congr hcur (s.conn.flight_write data)
    | read cap => exact counted_congr hcur (s.conn.flight_read cap)
    | close => exact counted_congr hcur s.conn.flight_close
    | tick nowUs => exact counted_processTick hcur hx
  | packet data nowUs =>
    change (s.conn.handlePacket data nowUs).curWindow.toNat =
      inFlight (s.conn.handlePacket data nowUs).sendQueue
    unfold UtpConnection.handlePacket
    split
    · exact hcur
    next hdr exts _ =>
      have hflight := s.conn.handleParsed_flight hdr (UtpConnection.sackOf exts)
        (payloadOf data exts) nowUs
      rcases hflight with heq | ⟨-, hcovers⟩
      · exact counted_congr hcur heq
      · exact counted_covers (counted_congr hcur (s.conn.flight_notePacket hdr nowUs)) hcovers
  | drain => exact hcur

/-! ## Runs -/

/-- A fresh connection, whose stream starts with the number it sends next. -/
theorem streamed_fresh (h : c.Fresh) : Streamed c.seq { conn := c } := by
  cases h <;> exact ⟨rfl, (seqNo_zero _).symm, rfl, nofun⟩

/-- In every run the packets acknowledged, those in the queue and the bytes that wait are, in order
and numbered on from the first, the bytes accepted. In every run in which the sums that a tick
compares do not wrap, the counter is exact and no acknowledgement frees more. -/
theorem send_accounting (h : c.Fresh) (xs : List Call) :
    Visits step (Streamed c.seq) { conn := c } xs ∧
      (Along step SumsFit { conn := c } xs → Visits step Counted { conn := c } xs) := by
  have hcounted : Counted { conn := c } := .of_curWindow (by cases h <;> rfl)
  exact ⟨visits_of_along (P := fun _ _ => True) (fun _ x hs _ => hs.step x) (fun _ hs => hs)
    (streamed_fresh h) (.of_forall fun _ _ => trivial),
    visits_of_along (fun _ _ hs hx => hs.step hx) (fun _ hs => hs) hcounted⟩

/-- A written byte is sent. -/
theorem send_accounting_byte : Visits step Counted { conn := .initiator "" 0 0 0 }
    [.packet (ackPacket 1) 0, .act (.write [7]), .act (.tick 0)] := by
  refine (send_accounting (.initiator ..) _).2 ⟨trivial, trivial, fun _ k hk _ => ?_, trivial⟩
  have hzero : k * 1400 < 1 := hk
  obtain rfl : k = 0 := by omega
  decide +kernel

/-! ## A window at the end of its field -/

/-- Full packets that nobody acknowledges. -/
def pile (m : Nat) : List Call :=
  (List.replicate m [.act (.write (List.replicate 1400 0)), .act (.tick 0)]).flatten

/-- The loop sends as long as the sum is within the window, and once more where it has wrapped. -/
theorem loaded_pile {seq : UInt16} {m : Nat} (h : Loaded seq [] 0 (.ofNat 4294966201) [] c)
    (hm : m ≤ 3067834) : ∃ seq' queue, inFlight queue = 1400 * m ∧
      Loaded seq' queue (.ofNat (1400 * m)) (.ofNat 4294966201) []
        (exec UtpConnection.call c (pile m)) := by
  induction m with
  | zero => exact ⟨seq, [], rfl, h⟩
  | succ m ih =>
    obtain ⟨seq', queue, hqueue, hloaded⟩ := ih (by omega)
    have hsent := (hloaded.write (n := 1400) le_rfl).tick (by decide) le_rfl (by
      have hsum : UInt32.ofNat (1400 * m) + DEFAULT_PACKET_SIZE = .ofNat (1400 * m + 1400) :=
        (UInt32.ofNat_add ..).symm
      rw [hsum, UInt32.le_iff_toNat_le, UInt32.toNat_ofNat', UInt32.toNat_ofNat']
      rcases Nat.lt_or_ge (1400 * m + 1400) (2 ^ 32) with hlt | hge
      · rw [Nat.mod_eq_of_lt hlt]
        omega
      · omega)
    have hnext : 1400 * m + 1400 = 1400 * (m + 1) := rfl
    rw [← UInt32.ofNat_add, hnext] at hsent
    refine ⟨seq' + 1, queue ++ [zeros seq' 1400], ?_, ?_⟩
    · rw [inFlight_append, hqueue, inFlight_cons]
      rfl
    · rw [pile, List.replicate_succ', List.flatten_append, exec_append, ← pile]
      exact hsent

theorem exec_conn (s : Sender) (xs : List Call) :
    (exec step s xs).conn = exec UtpConnection.call s.conn xs := by
  induction xs generalizing s with
  | nil => rfl
  | cons x xs ih => exact ih (s.step x)

/-- Where the window is at the end of its field, the sum wraps and the loop goes on: more bytes are
in flight than the counter can say. -/
theorem send_accounting_wrapped :
    ¬∀ c : UtpConnection, c.Fresh → ∀ xs, Visits step Counted { conn := c } xs := by
  intro h
  obtain ⟨k, hk⟩ : ∃ k, k = 1533911 := ⟨_, rfl⟩
  obtain ⟨m, hm⟩ : ∃ m, m = 3067834 := ⟨_, rfl⟩
  have hcounted := (h _ (.initiator "" 0 0 0) (rounds k ++ round (seqNo 2 k) 1 ++ pile m)).last
  have hgrown := (loaded_rounds (k := k) (by omega)).round (n := 1) (by decide) (by decide) (by
    rw [UInt32.le_iff_toNat_le, UInt32.toNat_ofNat_of_lt' (by change _ < 4294967296; omega)]
    change 1400 ≤ _
    omega)
  have hmax : (UInt32.ofNat (14000 + 2800 * k)).toNat + (1 + 1400) = 4294966201 := by
    rw [UInt32.toNat_ofNat_of_lt' (by change _ < 4294967296; omega)]
    omega
  rw [hmax] at hgrown
  obtain ⟨seq, queue, hqueue, hloaded⟩ := loaded_pile (m := m) hgrown (by omega)
  have hcur := hcounted.curWindow
  rw [exec_conn, exec_append, exec_append, hloaded.sendQueue, hqueue, hloaded.curWindow,
    UInt32.toNat_ofNat'] at hcur
  omega

end Sender

end FluxCore.Utp
