import FluxCore.Utp.WindowGrowth

/-!
# Early timeouts

A connection with the clock it is read at: `Timed` carries the true time, of which the code sees the
last 32 bits, and the times at which the packets of the send queue were last put out. The timer of a
tick runs from the last reception instead, so a tick may find it run out early; `early_iff` says for
every reachable state when.
-/

namespace FluxCore.Utp

namespace UtpConnection

/-- Past the handshake and not closed. -/
def established (c : UtpConnection) : Bool := c.state = .connected || c.state = .finSent

/-- The tick reaches `handleTimeout`. -/
def timesOut (c : UtpConnection) (nowUs : UInt32) : Bool :=
  c.state ≠ .closed && (c.flushFin nowUs).state ≠ .closed && (c.flushFin nowUs).rtoDue nowUs

end UtpConnection

/-- What happens at a time. -/
inductive Moment where
  | write (data : Bytes)
  | read (cap : Nat)
  | close
  | drain
  | tick
  | packet (data : Bytes)

def Moment.call (nowUs : UInt32) : Moment → Call
  | .write data => .act (.write data)
  | .read cap => .act (.read cap)
  | .close => .act .close
  | .drain => .drain
  | .tick => .act (.tick nowUs)
  | .packet data => .packet data nowUs

/-- Each packet of a queue with the time it was last put out: a packet that is still as it was keeps
its time, one that is new or was put out again takes the time of the clock. -/
def restamp (clock : Nat) : List (OutPacket × Nat) → List OutPacket → List (OutPacket × Nat)
  | _, [] => []
  | [], p :: queue => (p, clock) :: restamp clock [] queue
  | e :: stamps, p :: queue => (p, if p = e.1 then e.2 else clock) :: restamp clock stamps queue

/-- A connection, the time in microseconds, and the times of the packets of its send queue. -/
structure Timed where
  conn : UtpConnection
  clock : Nat
  stamps : List (OutPacket × Nat) := []

namespace Timed

/-- Time passes, then something happens. Acknowledged packets leave from the front of the queue, new
ones join its end. -/
def step (s : Timed) (x : Nat × Moment) : Timed :=
  let clock := s.clock + x.1
  let conn := s.conn.call (x.2.call (.ofNat clock))
  { conn, clock
    stamps := restamp clock (s.stamps.drop (s.stamps.length - conn.sendQueue.length)) conn.sendQueue }

inductive Fresh : Timed → Prop where
  | initiator (remoteAddr : String) (remotePort : UInt16) (clock : Nat) (synTimeoutUs : UInt32) :
    Fresh { conn := .initiator remoteAddr remotePort (.ofNat clock) synTimeoutUs, clock := clock }
  | responder (remoteAddr : String) (remotePort peerRecvId ackNr : UInt16) (clock : Nat) :
    Fresh { conn := .responder remoteAddr remotePort peerRecvId ackNr (.ofNat clock), clock := clock }

/-- A tick `k` microseconds from now handles a timeout although the oldest packet was put out less
than a timeout before. -/
def Early (s : Timed) (k : Nat) : Prop :=
  s.conn.established = true ∧ s.conn.timesOut (.ofNat (s.clock + k)) = true ∧
    ∃ e ∈ s.stamps.head?, s.clock + k - e.2 < s.conn.timeout.toNat

/-- The timer is at most a microsecond ahead of the time since the oldest packet was put out, unless
that is a timeout ago or the timer is off. -/
def Heard (s : Timed) : Prop :=
  s.conn.established = true → s.conn.lastRecvUs ≠ 0 → ∀ e ∈ s.stamps.head?,
    s.conn.timeout.toNat ≤ s.clock - e.2 ∨
      (UInt32.ofNat s.clock - s.conn.lastRecvUs).toNat ≤ s.clock - e.2 + 1

/-- The stamps are those of the packets of the queue, agree with the times the code has noted, and
are past. -/
structure Stamped (s : Timed) : Prop where
  queue : s.stamps.map Prod.fst = s.conn.sendQueue
  noted : ∀ e ∈ s.stamps, e.1.sendTimeUs = .ofNat e.2
  past : ∀ e ∈ s.stamps, e.2 ≤ s.clock
  timeout : s.conn.timeout ≤ RTO_MAX_US

end Timed

/-! ## What a call does to the queue -/

/-- The front of a queue leaves, packets are put out again, and packets join its end, but not with
others leaving. -/
structure Requeues (nowUs : UInt32) (c c' : UtpConnection) : Prop where
  queue : ∃ gone old kept added, c.sendQueue = gone ++ old ∧ RenewedQueue nowUs old kept ∧
    c'.sendQueue = kept ++ added ∧ (gone = [] ∨ added = []) ∧ ∀ p ∈ added, p.sendTimeUs = nowUs
  timeout : c.timeout ≤ RTO_MAX_US → c'.timeout ≤ RTO_MAX_US

namespace Requeues

variable {c c' : UtpConnection} {nowUs : UInt32}

theorem of_flight (h : c'.flight = c.flight) : Requeues nowUs c c' := by
  simp only [UtpConnection.flight, Flight.mk.injEq] at h
  obtain ⟨hq, -, -, -, ht⟩ := h
  exact ⟨⟨[], c.sendQueue, c.sendQueue, [], rfl, .refl nowUs _, by rw [hq, List.append_nil],
    .inl rfl, List.forall_mem_nil _⟩, fun hle => ht ▸ hle⟩

theorem of_renewed (hqueue : RenewedQueue nowUs c.sendQueue c'.sendQueue)
    (htimeout : c.timeout ≤ RTO_MAX_US → c'.timeout ≤ RTO_MAX_US) : Requeues nowUs c c' :=
  ⟨⟨[], _, _, [], rfl, hqueue, (List.append_nil _).symm, .inl rfl, nofun⟩, htimeout⟩

theorem handlePacket (c : UtpConnection) (data nowUs) :
    Requeues nowUs c (c.handlePacket data nowUs) := by
  unfold UtpConnection.handlePacket
  split
  · exact .of_flight rfl
  next hdr exts _ =>
    rcases c.handleParsed_flight hdr (UtpConnection.sackOf exts) (payloadOf data exts) nowUs with
      heq | ⟨-, hcovers⟩
    · exact .of_flight heq
    · have hqueue := (c.notePacket hdr nowUs).covered_append_uncovered hdr.ackNr
      have hnote := c.flight_notePacket hdr nowUs
      simp only [UtpConnection.flight, Flight.mk.injEq] at hnote
      rw [hnote.1] at hqueue
      refine ⟨⟨_, _, _, [], hqueue.symm, hcovers.sendQueue, (List.append_nil _).symm, .inr rfl,
        List.forall_mem_nil _⟩, fun hle => ?_⟩
      rcases hcovers.timeout with heq | ⟨-, hmax⟩
      · rw [heq, hnote.2.2.2.2]
        exact hle
      · exact hmax

theorem processTick (c : UtpConnection) (nowUs) : Requeues nowUs c (c.processTick nowUs) := by
  have hfin := c.flight_flushFin nowUs
  simp only [UtpConnection.flight, Flight.mk.injEq] at hfin
  obtain ⟨hqueue, -, -, -, htimeout⟩ := hfin
  rcases c.processTick_flight nowUs with heq | ⟨-, -, heq⟩ | ⟨-, -, -, heq⟩
  · exact .of_flight heq
  · have hexpires := UtpConnection.handleTimeout_flight (c.flushFin nowUs) nowUs
    rw [heq]
    refine .of_renewed (hqueue ▸ hexpires.sendQueue) fun hle => ?_
    rcases hexpires.timeout with heq | heq
    · rw [heq, htimeout]
      exact hle
    · rw [heq, UInt32.le_iff_toNat_le, toNat_min]
      exact min_le_right _ _
  · obtain ⟨added, hputs⟩ := UtpConnection.flushPending_puts (c.flushFin nowUs) nowUs
      (c.flushFin nowUs).pendingSend.length
    simp only [UtpConnection.flight, Flight.mk.injEq] at heq
    refine ⟨⟨[], c.sendQueue, c.sendQueue, added, rfl, .refl nowUs _, ?_, .inl rfl,
      fun p hp => (hputs.each p hp).1⟩, fun hle => ?_⟩
    · rw [heq.1, hputs.sendQueue, hqueue]
    · rw [heq.2.2.2.2, hputs.timeout, htimeout]
      exact hle

theorem call (c : UtpConnection) (nowUs) (x : Moment) : Requeues nowUs c (c.call (x.call nowUs)) := by
  cases x with
  | write data => exact .of_flight (c.flight_write data)
  | read cap => exact .of_flight (c.flight_read cap)
  | close => exact .of_flight c.flight_close
  | drain => exact .of_flight rfl
  | tick => exact .processTick c nowUs
  | packet data => exact .handlePacket c data nowUs

end Requeues

/-! ## The times of the packets -/

/-- What holds of the old stamps, of packets put out again and of new ones holds of the new stamps.
-/
theorem forall_restamp {P : OutPacket × Nat → Prop} {clock : Nat} {nowUs : UInt32}
    {stamps : List (OutPacket × Nat)} {kept added : List OutPacket}
    (hold : ∀ e ∈ stamps, P e) (hnow : ∀ p : OutPacket, p.sendTimeUs = nowUs → P (p, clock))
    (hkept : RenewedQueue nowUs (stamps.map Prod.fst) kept)
    (hadded : ∀ p ∈ added, p.sendTimeUs = nowUs) :
    ∀ e ∈ restamp clock stamps (kept ++ added), P e := by
  induction stamps generalizing kept with
  | nil =>
    obtain _ | _ := hkept
    induction added with
    | nil => nofun
    | cons p added ih =>
      obtain ⟨hp, hadded⟩ := List.forall_mem_cons.mp hadded
      exact List.forall_mem_cons.mpr ⟨hnow p hp, ih hadded⟩
  | cons e stamps ih =>
    obtain _ | ⟨hp, hkept⟩ := hkept
    obtain ⟨he, hold⟩ := List.forall_mem_cons.mp hold
    refine List.forall_mem_cons.mpr ⟨?_, ih hold hkept⟩
    split
    next heq => rwa [heq]
    next hne => exact hnow _ (hp.time.resolve_left hne)

theorem map_fst_restamp (clock : Nat) (stamps : List (OutPacket × Nat)) (queue : List OutPacket) :
    (restamp clock stamps queue).map Prod.fst = queue := by
  induction queue generalizing stamps with
  | nil => cases stamps <;> rfl
  | cons p queue ih => cases stamps <;> exact congrArg (p :: ·) (ih _)

namespace Timed

variable {s : Timed}

theorem Stamped.fresh (h : Fresh s) : Stamped s := by
  have hinitial : (1000 * 1000 : UInt32) ≤ RTO_MAX_US := by decide
  cases h <;> exact ⟨rfl, nofun, nofun, hinitial⟩

theorem Stamped.step (h : Stamped s) (x : Nat × Moment) : Stamped (s.step x) := by
  obtain ⟨⟨gone, old, kept, added, hold, hkept, hnew, hor, hadded⟩, htimeout⟩ :=
    Requeues.call s.conn (.ofNat (s.clock + x.1)) x.2
  have hlen := hkept.length_eq
  have hqueue : s.stamps.map Prod.fst = gone ++ old := h.queue.trans hold
  have hcount : s.stamps.length = gone.length + old.length := by
    simpa using congrArg List.length hqueue
  have hdrop : s.stamps.length - (s.step x).conn.sendQueue.length = gone.length := by
    change s.stamps.length - (s.conn.call _).sendQueue.length = _
    rw [hnew, hcount, List.length_append]
    rcases hor with rfl | rfl
    · simp
      omega
    · simp
      omega
  have hstamps : (s.step x).stamps =
      restamp (s.clock + x.1) (s.stamps.drop gone.length) (kept ++ added) := by
    rw [← hdrop, ← hnew]
    rfl
  have hrest : (s.stamps.drop gone.length).map Prod.fst = old := by
    rw [List.map_drop, hqueue, List.drop_left]
  refine ⟨map_fst_restamp .., ?_, ?_, htimeout h.timeout⟩
  · rw [hstamps]
    exact forall_restamp (fun e he => h.noted e (List.mem_of_mem_drop he)) (fun _ hp => hp)
      (hrest ▸ hkept) hadded
  · rw [hstamps]
    refine forall_restamp (fun e he => ?_) (fun _ _ => le_rfl) (hrest ▸ hkept) hadded
    exact (h.past e (List.mem_of_mem_drop he)).trans (Nat.le_add_right _ _)

/-! ## When the timer is early -/

/-- A timer that runs from `r` and one that runs from `t`, read `k` later than `clock`. -/
theorem early_timer_iff {r : UInt32} {timeout t clock : Nat} (ht : t ≤ clock)
    (hmax : timeout ≤ 2 ^ 31) :
    (∀ k, timeout < (UInt32.ofNat (clock + k) - r).toNat → timeout ≤ clock + k - t) ↔
      timeout ≤ clock - t ∨ (UInt32.ofNat clock - r).toNat ≤ clock - t + 1 := by
  have hk : ∀ k, (UInt32.ofNat (clock + k) - r).toNat =
      ((UInt32.ofNat clock - r).toNat + k) % 2 ^ 32 := fun k => by
    rw [UInt32.toNat_sub, UInt32.toNat_sub, UInt32.toNat_ofNat', UInt32.toNat_ofNat']
    omega
  have hlt := (UInt32.ofNat clock - r).toNat_lt
  simp only [hk]
  generalize (UInt32.ofNat clock - r).toNat = x at hlt ⊢
  constructor
  · intro h
    by_contra hneg
    push Not at hneg
    -- the timer runs out just before the timeout has passed, or has run out already
    have hsoon := h (timeout - 1 - (clock - t))
    have hnow := h 0
    omega
  · rintro (hle | hle) k hdue <;> omega

theorem rtoDue_iff {c : UtpConnection} (hopen : c.established = true) (hqueue : c.sendQueue ≠ [])
    (nowUs) : c.timesOut nowUs = true ↔ c.lastRecvUs ≠ 0 ∧ c.timeout < nowUs - c.lastRecvUs := by
  have hstate : c.state = .connected ∨ c.state = .finSent := by
    simpa [UtpConnection.established] using hopen
  have hfin := c.flight_flushFin nowUs
  simp only [UtpConnection.flight, Flight.mk.injEq] at hfin
  obtain ⟨hsame, -, -, -, htimeout⟩ := hfin
  have hrecv : (c.flushFin nowUs).lastRecvUs = c.lastRecvUs := by
    unfold UtpConnection.flushFin
    split <;> rfl
  have hopen' : (c.flushFin nowUs).state = .connected ∨ (c.flushFin nowUs).state = .finSent := by
    rw [c.flushFin_state]
    rcases hstate with hs | hs <;> simp [hs]
  have hne : c.sendQueue.isEmpty = false := by simpa using hqueue
  have hclosed : c.state ≠ .closed := by rcases hstate with hs | hs <;> rw [hs] <;> decide
  have hclosed' : (c.flushFin nowUs).state ≠ .closed := by
    rcases hopen' with hs | hs <;> rw [hs] <;> decide
  have hsyn : (c.flushFin nowUs).state ≠ .synSent := by
    rcases hopen' with hs | hs <;> rw [hs] <;> decide
  simp only [UtpConnection.timesOut, UtpConnection.rtoDue, UtpConnection.needRto,
    UtpConnection.sinceLast, hsame, htimeout, hrecv, hne, hsyn]
  simp [hclosed, hclosed']

/-! ## Runs -/

theorem Stamped.never_early_iff (h : Stamped s) : (∀ k, ¬s.Early k) ↔ s.Heard := by
  unfold Early Heard
  by_cases hopen : s.conn.established = true
  · cases hstamps : s.stamps with
    | nil => simp
    | cons e rest =>
      have hne : s.conn.sendQueue ≠ [] := by
        rw [← h.queue, hstamps]
        nofun
      have hpast := h.past e (hstamps ▸ List.mem_cons_self)
      have hmax : s.conn.timeout.toNat ≤ 2 ^ 31 :=
        (UInt32.le_iff_toNat_le.mp h.timeout).trans (by decide)
      by_cases hrecv : s.conn.lastRecvUs = 0
      · simp [rtoDue_iff hopen hne, hrecv]
      · have hiff := early_timer_iff (r := s.conn.lastRecvUs) hpast hmax
        simp only [hopen, true_and, rtoDue_iff hopen hne, hrecv, ne_eq, not_false_eq_true,
          List.head?_cons, Option.mem_some_iff, exists_eq_left', forall_eq', not_and, not_lt,
          forall_const, UInt32.lt_iff_toNat_lt]
        exact hiff
  · simp [hopen]

/-- In every state of every run, no tick handles a timeout early if and only if the peer has been
heard from since the oldest packet was put out. -/
theorem early_iff (h : Fresh s) (xs : List (Nat × Moment)) :
    Visits step (fun s => (∀ k, ¬s.Early k) ↔ s.Heard) s xs :=
  visits_of_along (P := fun _ _ => True) (fun _ x (hs : Stamped _) _ => hs.step x)
    (fun _ hs => hs.never_early_iff) (.fresh h) (.of_forall fun _ _ => trivial)

/-- Answered at once, a packet sent. -/
theorem early_iff_sent : Visits step (fun s => (∀ k, ¬s.Early k) ↔ s.Heard)
    { conn := .initiator "" 0 (.ofNat 100) 0, clock := 100 }
    [(0, .packet (ackPacket 1)), (5, .write [7]), (0, .tick)] :=
  early_iff (.initiator ..) _

/-- Idle for two seconds, then a byte is sent: the tick a microsecond later handles a timeout. -/
theorem early_idle : ¬∀ s, Fresh s → ∀ xs, Visits step (fun s => ∀ k, ¬s.Early k) s xs := by
  intro h
  refine (h _ (.initiator "" 0 100 0)
    [(0, .packet (ackPacket 1)), (2000000, .write [0]), (0, .tick)]).last 1 ?_
  exact ⟨by decide +kernel, by decide +kernel, ({ zeros 2 1 with sendTimeUs := 2000100 }, 2000100),
    by decide +kernel, by decide +kernel⟩

end Timed

end FluxCore.Utp
