import FluxCore.Utp.Flight

/-!
# The round-trip estimate

The smoothed round-trip time, its variation and the timeout. `updateRtt?` and `backOff?` compute
them with a check of every expression against its type. A call takes the estimate at most one of
these steps further (`WellTimed.call`), and from a sane estimate none of them overflows.
-/

namespace FluxCore.Utp

structure Estimate where
  rtt : UInt32
  rttVar : UInt32
  timeout : UInt32
  deriving DecidableEq, Repr

/-- An expression of type `int64_t`, unless it overflows. -/
def int64? (x : Int) : Option Int := if -2 ^ 63 ≤ x ∧ x < 2 ^ 63 then some x else none

/-- An expression of type `uint32_t`, unless it overflows. -/
def uint32? (x : Int) : Option UInt32 := if 0 ≤ x ∧ x < 2 ^ 32 then some (.ofInt x) else none

namespace Estimate

def abs? (delta : Int) : Option Int := if delta < 0 then int64? (-delta) else some delta

/-- The averages after a sample that is not the first. -/
def smooth? (e : Estimate) (packetRttUs : UInt32) : Option Estimate := do
  let delta ← int64? ((e.rtt.toNat : Int) - packetRttUs.toNat)
  let absDelta ← abs? delta
  let varChange ← int64? (absDelta - e.rttVar.toNat)
  let rttVar ← int64? (e.rttVar.toNat + varChange.tdiv 4)
  let rttVar ← uint32? rttVar
  let change ← int64? ((packetRttUs.toNat : Int) - e.rtt.toNat)
  let rtt ← int64? (e.rtt.toNat + change.tdiv 8)
  let rtt ← uint32? rtt
  some { e with rtt, rttVar }

def average? (e : Estimate) (packetRttUs : UInt32) : Option Estimate :=
  if e.rtt = 0 then some { e with rtt := packetRttUs, rttVar := packetRttUs / 2 }
  else e.smooth? packetRttUs

/-- The estimate after a sample. -/
def updateRtt? (e : Estimate) (packetRttUs : UInt32) : Option Estimate :=
  if packetRttUs = 0 || RTO_MAX_US < packetRttUs then some e
  else do
    let e ← e.average? packetRttUs
    let spread ← uint32? (4 * e.rttVar.toNat)
    let sum ← uint32? (e.rtt.toNat + spread.toNat)
    some { e with timeout := min (max sum RTO_MIN_US) RTO_MAX_US }

/-- The estimate after a timeout. -/
def backOff? (e : Estimate) : Option Estimate := do
  let doubled ← uint32? (e.timeout.toNat * 2)
  some { e with timeout := min doubled RTO_MAX_US }

structure Sane (e : Estimate) : Prop where
  rtt : e.rtt ≤ RTO_MAX_US
  rttVar : e.rttVar ≤ RTO_MAX_US
  least : RTO_MIN_US ≤ e.timeout
  most : e.timeout ≤ RTO_MAX_US

end Estimate

/-- The estimate and the timeouts that are counted. -/
structure Timing where
  estimate : Estimate
  synAttempts : UInt32
  consecutiveTimeouts : UInt32
  deriving DecidableEq, Repr

namespace Timing

/-- An acknowledgement gives at most one sample. -/
inductive Samples (t : Timing) : Timing → Prop where
  | none : Samples t t
  | one (packetRttUs : UInt32) (e : Estimate) : t.estimate.updateRtt? packetRttUs = some e →
      Samples t { t with estimate := e }

/-- What a call makes of it, without an overflow. -/
inductive Advances (t : Timing) : Timing → Prop where
  | stays : Advances t t
  | heard (t' : Timing) : Samples { t with consecutiveTimeouts := 0 } t' → Advances t t'
  | resendSyn (e : Estimate) (n : UInt32) : t.estimate.backOff? = some e →
      uint32? (t.synAttempts.toNat + 1) = some n →
      Advances t { t with estimate := e, synAttempts := n }
  | timeout (e : Estimate) (n : UInt32) : t.estimate.backOff? = some e →
      uint32? (t.consecutiveTimeouts.toNat + 1) = some n →
      Advances t { t with estimate := e, consecutiveTimeouts := n }

end Timing

/-! ## Arithmetic -/

theorem int64?_of_le {x : Int} (h : |x| ≤ 2 ^ 62) : int64? x = some x :=
  if_pos (by rw [abs_le] at h; omega)

theorem toNat_ofInt_natCast {n : Nat} (h : n < 2 ^ 32) : (UInt32.ofInt n).toNat = n := by
  rw [UInt32.ofInt, UInt32.toNat_ofNat']
  omega

theorem uint32?_eq_some {x : Int} {u : UInt32} : uint32? x = some u ↔ x = u.toNat := by
  have hlt := u.toNat_lt
  rw [uint32?]
  constructor
  · intro h
    split at h
    next hx =>
      obtain rfl := Option.some.inj h
      obtain ⟨n, rfl⟩ := Int.eq_ofNat_of_zero_le hx.1
      rw [toNat_ofInt_natCast (by omega)]
    · exact nomatch h
  · rintro rfl
    rw [if_pos (by omega)]
    exact congrArg some (UInt32.toNat_inj.mp (toNat_ofInt_natCast hlt))

/-- An average lies between what it is of. -/
theorem average_between (a b : Int) {k : Int} (hk : 0 < k) :
    min a b ≤ a + (b - a).tdiv k ∧ a + (b - a).tdiv k ≤ max a b := by
  rcases le_total a b with hle | hle
  · have h0 := Int.tdiv_nonneg (Int.sub_nonneg.mpr hle) hk.le
    have h1 := Int.tdiv_le_self k (Int.sub_nonneg.mpr hle)
    omega
  · have h0 := Int.tdiv_nonneg (Int.sub_nonneg.mpr hle) hk.le
    have h1 := Int.tdiv_le_self k (Int.sub_nonneg.mpr hle)
    have hneg : (b - a).tdiv k = -(a - b).tdiv k := by rw [← Int.neg_tdiv, Int.neg_sub]
    omega

namespace UtpConnection

variable (c : UtpConnection)

def estimate : Estimate := ⟨c.rtt, c.rttVar, c.timeout⟩

def timing : Timing := ⟨c.estimate, c.synAttempts, c.consecutiveTimeouts⟩

open Estimate Timing

/-- The averages are those of the code, and are no larger than what they are of. -/
theorem smooth?_eq {e : Estimate} (hr : e.rtt ≤ RTO_MAX_US) (hv : e.rttVar ≤ RTO_MAX_US)
    {x : UInt32} (hx : x ≤ RTO_MAX_US) : ∃ rtt rttVar : UInt32,
      e.smooth? x = some { e with rtt, rttVar } ∧ rtt ≤ RTO_MAX_US ∧ rttVar ≤ RTO_MAX_US ∧
      rtt = .ofInt (e.rtt.toNat + ((x.toNat : Int) - e.rtt.toNat).tdiv 8) ∧
      rttVar = .ofInt (e.rttVar.toNat +
        (|(e.rtt.toNat : Int) - x.toNat| - e.rttVar.toNat).tdiv 4) := by
  have hmax : RTO_MAX_US.toNat = 60000000 := rfl
  rw [UInt32.le_iff_toNat_le, hmax] at hr hv hx
  generalize hdelta : |(e.rtt.toNat : Int) - x.toNat| = d
  have hd : 0 ≤ d ∧ d ≤ 60000000 := by
    rw [← hdelta, abs_le']
    exact ⟨abs_nonneg _, by omega⟩
  have habs : abs? ((e.rtt.toNat : Int) - x.toNat) = some d := by
    rw [← hdelta, abs?]
    split
    next hneg => rw [int64?_of_le (by rw [abs_neg, hdelta]; omega), abs_of_neg hneg]
    next hpos => rw [abs_of_nonneg (not_lt.mp hpos)]
  -- both averages are numbers again
  obtain ⟨v, hv'⟩ : ∃ v : Nat, e.rttVar.toNat + (d - e.rttVar.toNat).tdiv 4 = (v : Int) :=
    Int.eq_ofNat_of_zero_le (by have := average_between e.rttVar.toNat d (k := 4) (by decide); omega)
  obtain ⟨r, hr'⟩ : ∃ r : Nat, e.rtt.toNat + ((x.toNat : Int) - e.rtt.toNat).tdiv 8 = (r : Int) :=
    Int.eq_ofNat_of_zero_le (by
      have := average_between e.rtt.toNat x.toNat (k := 8) (by decide); omega)
  have hvle : v ≤ 60000000 := by
    have := average_between e.rttVar.toNat d (k := 4) (by decide)
    omega
  have hrle : r ≤ 60000000 := by
    have := average_between e.rtt.toNat x.toNat (k := 8) (by decide)
    omega
  have hv64 : (UInt32.ofInt v).toNat = v := toNat_ofInt_natCast (by omega)
  have hr64 : (UInt32.ofInt r).toNat = r := toNat_ofInt_natCast (by omega)
  refine ⟨.ofInt r, .ofInt v, ?_, ?_, ?_, by rw [hr'], by rw [hv']⟩
  · rw [smooth?, int64?_of_le (by rw [hdelta]; omega)]
    simp only [Option.bind_eq_bind, Option.bind_some, habs]
    rw [int64?_of_le (by rw [abs_le]; omega), Option.bind_some, hv',
      int64?_of_le (by rw [abs_le]; omega), Option.bind_some,
      uint32?_eq_some.mpr (congrArg Nat.cast hv64.symm), Option.bind_some,
      int64?_of_le (by rw [abs_le]; omega), Option.bind_some, hr',
      int64?_of_le (by rw [abs_le]; omega), Option.bind_some,
      uint32?_eq_some.mpr (congrArg Nat.cast hr64.symm), Option.bind_some]
  · rw [UInt32.le_iff_toNat_le, hr64]
    exact hrle
  · rw [UInt32.le_iff_toNat_le, hv64]
    exact hvle

/-- The sum that the timeout is made of fits. -/
theorem spread_eq {rtt rttVar : UInt32} (hr : rtt ≤ RTO_MAX_US) (hv : rttVar ≤ RTO_MAX_US) :
    uint32? (4 * rttVar.toNat) = some (4 * rttVar) ∧
      uint32? (rtt.toNat + (4 * rttVar).toNat) = some (rtt + 4 * rttVar) := by
  have hmax : RTO_MAX_US.toNat = 60000000 := rfl
  rw [UInt32.le_iff_toNat_le, hmax] at hr hv
  have hfour : (4 * rttVar).toNat = 4 * rttVar.toNat := by
    rw [UInt32.toNat_mul]
    exact Nat.mod_eq_of_lt (by change 4 * rttVar.toNat < _; omega)
  refine ⟨uint32?_eq_some.mpr (by omega), uint32?_eq_some.mpr ?_⟩
  rw [UInt32.toNat_add, hfour, Nat.mod_eq_of_lt (by omega)]
  omega

theorem clamp_timeout (n : UInt32) : RTO_MIN_US ≤ min (max n RTO_MIN_US) RTO_MAX_US ∧
    min (max n RTO_MIN_US) RTO_MAX_US ≤ RTO_MAX_US :=
  by
  have hle : RTO_MIN_US.toNat ≤ RTO_MAX_US.toNat := by decide
  rw [UInt32.le_iff_toNat_le, UInt32.le_iff_toNat_le, toNat_min, toNat_max]
  omega

/-- The timeout that averages lead to. -/
def timeoutOf (rtt rttVar : UInt32) : UInt32 :=
  min (max (rtt + 4 * rttVar) RTO_MIN_US) RTO_MAX_US

theorem estimate_updateRtt_first {x : UInt32} (hx : ¬(x = 0 || RTO_MAX_US < x) = true)
    (h : c.rtt = 0) : (c.updateRtt x).estimate = ⟨x, x / 2, timeoutOf x (x / 2)⟩ := by
  unfold updateRtt
  rw [if_neg hx, if_pos h]
  rfl

theorem estimate_updateRtt_next {x rtt rttVar : UInt32}
    (hx : ¬(x = 0 || RTO_MAX_US < x) = true) (h : c.rtt ≠ 0)
    (hrtt : rtt = .ofInt (c.rtt.toNat + ((x.toNat : Int) - c.rtt.toNat).tdiv 8))
    (hvar : rttVar = .ofInt (c.rttVar.toNat +
      (|(c.rtt.toNat : Int) - x.toNat| - c.rttVar.toNat).tdiv 4)) :
    (c.updateRtt x).estimate = ⟨rtt, rttVar, timeoutOf rtt rttVar⟩ := by
  unfold updateRtt
  rw [if_neg hx, if_neg h, hrtt, hvar]
  rfl

/-- Good averages make a sane estimate. -/
theorem finish_eq {e : Estimate} (hr : e.rtt ≤ RTO_MAX_US) (hv : e.rttVar ≤ RTO_MAX_US) :
    (do let spread ← uint32? (4 * e.rttVar.toNat)
        let sum ← uint32? (e.rtt.toNat + spread.toNat)
        some { e with timeout := min (max sum RTO_MIN_US) RTO_MAX_US }) =
      some ⟨e.rtt, e.rttVar, timeoutOf e.rtt e.rttVar⟩ ∧
    Sane ⟨e.rtt, e.rttVar, timeoutOf e.rtt e.rttVar⟩ := by
  obtain ⟨hspread, hsum⟩ := spread_eq hr hv
  refine ⟨?_, hr, hv, (clamp_timeout _).1, (clamp_timeout _).2⟩
  rw [Option.bind_eq_bind, hspread, Option.bind_some, hsum, Option.bind_some]
  rfl

/-- The code computes what the checked expressions do, and the estimate stays sane. -/
theorem updateRtt?_of_sane (h : c.estimate.Sane) (x : UInt32) :
    c.estimate.updateRtt? x = some (c.updateRtt x).estimate ∧ (c.updateRtt x).estimate.Sane := by
  by_cases hx : (x = 0 || RTO_MAX_US < x) = true
  · have hstays : c.updateRtt x = c := if_pos hx
    rw [hstays]
    exact ⟨if_pos hx, h⟩
  have hle : x ≤ RTO_MAX_US := by
    simp only [Bool.or_eq_true, decide_eq_true_eq, not_or, UInt32.not_lt] at hx
    exact hx.2
  rw [updateRtt?, if_neg hx, average?, Option.bind_eq_bind]
  by_cases hfirst : c.rtt = 0
  · have hhalf : x / 2 ≤ RTO_MAX_US := by
      rw [UInt32.le_iff_toNat_le] at hle ⊢
      rw [UInt32.toNat_div]
      exact (Nat.div_le_self ..).trans hle
    rw [if_pos (show c.estimate.rtt = 0 from hfirst), Option.bind_some,
      c.estimate_updateRtt_first hx hfirst]
    exact finish_eq (e := ⟨x, x / 2, c.timeout⟩) hle hhalf
  · obtain ⟨rtt, rttVar, hsmooth, hr, hv, hrtt, hvar⟩ := smooth?_eq h.rtt h.rttVar hle
    rw [if_neg (show c.estimate.rtt ≠ 0 from hfirst), hsmooth, Option.bind_some,
      c.estimate_updateRtt_next hx hfirst hrtt hvar]
    exact finish_eq (e := ⟨rtt, rttVar, c.timeout⟩) hr hv

/-- A timeout doubles without an overflow. -/
theorem backOff?_of_sane {e : Estimate} (h : e.Sane) :
    e.backOff? = some { e with timeout := min (e.timeout * 2) RTO_MAX_US } ∧
      Sane { e with timeout := min (e.timeout * 2) RTO_MAX_US } := by
  have hmax : RTO_MAX_US.toNat = 60000000 := rfl
  have hmin : RTO_MIN_US.toNat = 500000 := rfl
  have hleast := h.least
  have hmost := h.most
  rw [UInt32.le_iff_toNat_le] at hleast hmost
  have htwo : (e.timeout * 2).toNat = e.timeout.toNat * 2 := by
    rw [UInt32.toNat_mul]
    exact Nat.mod_eq_of_lt (by change e.timeout.toNat * 2 < _; omega)
  have hdoubled : uint32? (e.timeout.toNat * 2) = some (e.timeout * 2) :=
    uint32?_eq_some.mpr (by omega)
  refine ⟨?_, h.rtt, h.rttVar, ?_, ?_⟩
  · rw [backOff?, hdoubled]
    rfl
  · rw [UInt32.le_iff_toNat_le, toNat_min, htwo]
    omega
  · rw [UInt32.le_iff_toNat_le, toNat_min]
    omega

/-! ## What leaves the timing alone -/

section
variable (nowUs : UInt32)

@[simp] theorem timing_retransmitPacket (i) :
    (c.retransmitPacket i nowUs).timing = c.timing := by
  unfold retransmitPacket
  split <;> rfl

@[simp] theorem timing_fastRetransmit (i target) :
    (c.fastRetransmit i target nowUs).timing = c.timing := by
  unfold fastRetransmit
  split
  · rfl
  · exact c.timing_retransmitPacket nowUs i

@[simp] theorem timing_sackRetransmit (ackNr sackBits) :
    (c.sackRetransmit ackNr sackBits nowUs).timing = c.timing := by
  unfold sackRetransmit
  split
  · rfl
  · split
    · exact c.timing_fastRetransmit ..
    · rfl

@[simp] theorem timing_dupAckRetransmit (ackNr) :
    (c.dupAckRetransmit ackNr nowUs).timing = c.timing := by
  unfold dupAckRetransmit retransmitNumbered
  split
  · split
    · rfl
    · exact c.timing_fastRetransmit ..
  · rfl

@[simp] theorem timing_countAck (ackNr) : (c.countAck ackNr).timing = c.timing := by
  unfold countAck
  split <;> rfl

@[simp] theorem timing_noteFinAck (ackNr) : (c.noteFinAck ackNr).timing = c.timing := by
  unfold noteFinAck
  split <;> rfl

@[simp] theorem timing_finishCloseIfIdle : c.finishCloseIfIdle.timing = c.timing := by
  unfold finishCloseIfIdle
  split <;> rfl

theorem timing_notePacket (hdr) :
    (c.notePacket hdr nowUs).timing = { c.timing with consecutiveTimeouts := 0 } := by
  unfold notePacket updateDelay
  dsimp only
  split
  · split <;> rfl
  · rfl

@[simp] theorem timing_adoptState (hdr) : (c.adoptState hdr).timing = c.timing := by
  unfold adoptState
  split <;> rfl

@[simp] theorem timing_enterConnected (hdr) : (c.enterConnected hdr).timing = c.timing := by
  unfold enterConnected
  split <;> rfl

@[simp] theorem timing_onFin (hdr) : (c.onFin hdr).timing = c.timing := by
  unfold onFin
  dsimp only
  split <;> rfl

theorem timing_drainReorder (fuel : Nat) : (c.drainReorder fuel).timing = c.timing := by
  induction fuel generalizing c with
  | zero => rfl
  | succ fuel ih =>
    unfold drainReorder
    split
    · rfl
    · split
      · rfl
      · exact ih _

theorem timing_bufferPacket (s payload) :
    (c.bufferPacket s payload nowUs).timing = c.timing := by
  unfold bufferPacket
  split
  · dsimp only
    split <;> rfl
  · rfl

@[simp] theorem timing_onData (hdr payload) :
    (c.onData hdr payload nowUs).timing = c.timing := by
  unfold onData
  dsimp only
  split
  · rfl
  · split
    · rfl
    · split
      · exact timing_drainReorder ..
      · exact timing_bufferPacket ..

@[simp] theorem timing_flushAck : (c.flushAck nowUs).timing = c.timing := by
  unfold flushAck
  split <;> rfl

@[simp] theorem timing_flushFin : (c.flushFin nowUs).timing = c.timing := by
  unfold flushFin
  split <;> rfl

@[simp] theorem timing_retransmitFin : (c.retransmitFin nowUs).timing = c.timing := by
  unfold retransmitFin
  split <;> rfl

@[simp] theorem timing_flushData : (c.flushData nowUs).timing = c.timing := by
  have hpending (fuel : Nat) (c : UtpConnection) :
      (flushPending nowUs fuel c).timing = c.timing := by
    induction fuel generalizing c with
    | zero => rfl
    | succ fuel ih =>
      unfold flushPending
      split
      · rfl
      · split
        · rfl
        · exact ih _
  unfold flushData
  split
  · exact hpending _ c
  · rfl

end

/-! ## Calls -/

/-- Freed packets give at most one sample. -/
theorem samples_freeWindow (h : c.timing.estimate.Sane) (s : AckScan) :
    Samples c.timing (c.freeWindow s).timing ∧ (c.freeWindow s).timing.estimate.Sane := by
  unfold freeWindow
  split
  · dsimp only
    split
    · obtain ⟨hsome, hsane⟩ := (c.shrinkWindow s.freed).updateRtt?_of_sane h s.rttSampleUs
      have hrest : ((c.shrinkWindow s.freed).updateRtt s.rttSampleUs).timing =
          { c.timing with
            estimate := ((c.shrinkWindow s.freed).updateRtt s.rttSampleUs).estimate } := by
        unfold updateRtt
        split
        · rfl
        · dsimp only
          split <;> rfl
      refine ⟨?_, hsane⟩
      change Samples c.timing ((c.shrinkWindow s.freed).updateRtt s.rttSampleUs).timing
      rw [hrest]
      exact .one s.rttSampleUs _ hsome
    · exact ⟨.none, h⟩
  · exact ⟨.none, h⟩

theorem samples_onAck (h : c.timing.estimate.Sane) (ackNr : UInt16) (sackBits nowUs : UInt32) :
    Samples c.timing (c.onAck ackNr sackBits nowUs).timing ∧
      (c.onAck ackNr sackBits nowUs).timing.estimate.Sane := by
  -- what follows the samples leaves the timing alone
  have hfree (k : UtpConnection) (hk : k.timing = c.timing) (s : AckScan) :
      Samples c.timing ((k.freeWindow s).noteFinAck ackNr).timing ∧
        ((k.freeWindow s).noteFinAck ackNr).timing.estimate.Sane := by
    obtain ⟨hsamples, hsane⟩ := k.samples_freeWindow (hk ▸ h) s
    rw [timing_noteFinAck, ← hk]
    exact ⟨hsamples, hsane⟩
  have hpackets : Samples c.timing (c.ackPackets ackNr nowUs).timing ∧
      (c.ackPackets ackNr nowUs).timing.estimate.Sane := by
    have hcount := c.timing_countAck ackNr
    unfold ackPackets
    generalize c.countAck ackNr = k at hcount ⊢
    dsimp only
    refine hfree _ ?_ _
    exact hcount
  have hrest {k : UtpConnection} (hk : k.timing = (c.ackPackets ackNr nowUs).timing) :
      Samples c.timing k.timing ∧ k.timing.estimate.Sane :=
    hk ▸ hpackets
  unfold onAck
  split
  · exact ⟨.none, h⟩
  · dsimp only
    split
    · exact hrest (by simp)
    · exact hrest (by simp)

theorem samples_dispatchPacket (h : c.timing.estimate.Sane) (hdr : PacketHeader) (sack : UInt32)
    (payload : Bytes) (nowUs : UInt32) :
    Samples c.timing (c.dispatchPacket hdr sack payload nowUs).timing ∧
      (c.dispatchPacket hdr sack payload nowUs).timing.estimate.Sane := by
  have hack {k : UtpConnection} (heq : k.timing = c.timing) :
      Samples c.timing (k.onAck hdr.ackNr sack nowUs).timing ∧
        (k.onAck hdr.ackNr sack nowUs).timing.estimate.Sane :=
    heq ▸ k.samples_onAck (heq ▸ h) hdr.ackNr sack nowUs
  unfold dispatchPacket
  split
  · split
    · exact ⟨.none, h⟩
    · exact ⟨.none, h⟩
  · split
    · exact hack (by simp)
    · split
      · exact hack (by simp)
      · split
        · exact hack (by simp)
        · exact ⟨.none, h⟩

theorem samples_handlePacket (h : c.timing.estimate.Sane) (data : Bytes) (nowUs : UInt32) :
    ((c.handlePacket data nowUs).timing = c.timing ∨
      Samples { c.timing with consecutiveTimeouts := 0 } (c.handlePacket data nowUs).timing) ∧
      (c.handlePacket data nowUs).timing.estimate.Sane := by
  unfold handlePacket
  split
  · exact ⟨.inl rfl, h⟩
  next hdr exts _ =>
    have hnote := c.timing_notePacket nowUs hdr
    have hsane : (c.notePacket hdr nowUs).timing.estimate.Sane := by
      rw [hnote]
      exact h
    unfold handleParsed
    dsimp only
    split
    · exact ⟨.inr (hnote ▸ .none), hsane⟩
    · obtain ⟨hsamples, hsane⟩ :=
        (c.notePacket hdr nowUs).samples_dispatchPacket hsane hdr (sackOf exts)
          (payloadOf data exts) nowUs
      have hflush := timing_flushAck ((c.notePacket hdr nowUs).dispatchPacket hdr (sackOf exts)
        (payloadOf data exts) nowUs) nowUs
      rw [hflush]
      exact ⟨.inr (hnote ▸ hsamples), hsane⟩

/-- No count of timeouts gets far. -/
structure Counted : Prop where
  synAttempts : c.synAttempts.toNat ≤ 4
  consecutiveTimeouts : c.consecutiveTimeouts.toNat ≤ 2
  going : c.state ≠ .closed → c.synAttempts.toNat < 4 ∧ c.consecutiveTimeouts.toNat < 2

theorem toNat_succ {n : UInt32} (h : n.toNat ≤ 4) : (n + 1).toNat = n.toNat + 1 := by
  rw [UInt32.toNat_add]
  exact Nat.mod_eq_of_lt (by change n.toNat + 1 < _; omega)

theorem advances_handleTimeout (h : c.timing.estimate.Sane) (hcount : c.Counted) (nowUs : UInt32) :
    Advances c.timing (c.handleTimeout nowUs).timing ∧
      (c.handleTimeout nowUs).timing.estimate.Sane := by
  obtain ⟨hsome, hsane⟩ := backOff?_of_sane h
  have hsyn : uint32? (c.synAttempts.toNat + 1) = some (c.synAttempts + 1) :=
    uint32?_eq_some.mpr (by rw [toNat_succ hcount.synAttempts]; rfl)
  have hcons : uint32? (c.consecutiveTimeouts.toNat + 1) = some (c.consecutiveTimeouts + 1) :=
    uint32?_eq_some.mpr (by
      rw [toNat_succ (hcount.consecutiveTimeouts.trans (by decide))]; rfl)
  unfold handleTimeout
  split
  · unfold synTimeout
    split
    · exact ⟨.stays, h⟩
    · dsimp only
      split
      · exact ⟨.resendSyn _ _ hsome hsyn, hsane⟩
      · exact ⟨.resendSyn _ _ hsome hsyn, hsane⟩
  · dsimp only
    split
    · exact ⟨.timeout _ _ hsome hcons, hsane⟩
    · have hfin := timing_retransmitFin ((c.countTimeout.collapseWindow nowUs).retransmitUnacked
        nowUs) nowUs
      rw [hfin]
      exact ⟨.timeout _ _ hsome hcons, hsane⟩

variable {c} in
theorem Counted.congr {c' : UtpConnection} (h : c.Counted) (ht : c'.timing = c.timing)
    (hs : c'.state ≠ .closed → c.state ≠ .closed) : c'.Counted := by
  have hsyn : c'.synAttempts = c.synAttempts := congrArg Timing.synAttempts ht
  have hcons : c'.consecutiveTimeouts = c.consecutiveTimeouts :=
    congrArg Timing.consecutiveTimeouts ht
  exact ⟨hsyn ▸ h.synAttempts, hcons ▸ h.consecutiveTimeouts,
    fun hopen => hsyn ▸ hcons ▸ h.going (hs hopen)⟩

/-- A count that gets to its end closes the connection. -/
theorem counted_handleTimeout (h : c.Counted) (hopen : c.state ≠ .closed) (nowUs : UInt32) :
    (c.handleTimeout nowUs).Counted := by
  obtain ⟨hsyn, hcons⟩ := h.going hopen
  have hsyn' := toNat_succ (n := c.synAttempts) (by omega)
  have hcons' := toNat_succ (n := c.consecutiveTimeouts) (by omega)
  unfold handleTimeout
  split
  · unfold synTimeout
    split
    · exact ⟨hsyn.le, hcons.le, fun h => absurd rfl h⟩
    · dsimp only
      split
      next => exact ⟨by change (c.synAttempts + 1).toNat ≤ 4; omega, hcons.le, fun h => absurd rfl h⟩
      next hfew =>
        have hlt : (c.synAttempts + 1).toNat < 4 :=
          Nat.not_le.mp fun hle => hfew (UInt32.le_iff_toNat_le.mpr hle)
        exact ⟨hlt.le, hcons.le, fun _ => ⟨hlt, hcons⟩⟩
  · dsimp only
    split
    next =>
      exact ⟨hsyn.le, by change (c.consecutiveTimeouts + 1).toNat ≤ 2; omega, fun h => absurd rfl h⟩
    next hfew =>
      have hlt : (c.consecutiveTimeouts + 1).toNat < 2 :=
        Nat.not_le.mp fun hle => hfew (UInt32.le_iff_toNat_le.mpr hle)
      have hcounted : ((c.countTimeout.collapseWindow nowUs).retransmitUnacked nowUs).Counted :=
        ⟨hsyn.le, hlt.le, fun _ => ⟨hsyn, hlt⟩⟩
      refine hcounted.congr (timing_retransmitFin ..) fun _ => hopen

theorem advances_processTick (h : c.timing.estimate.Sane) (hcount : c.Counted) (nowUs : UInt32) :
    Advances c.timing (c.processTick nowUs).timing ∧
      (c.processTick nowUs).timing.estimate.Sane := by
  have hfin := c.timing_flushFin nowUs
  unfold processTick
  split
  · exact ⟨.stays, h⟩
  next hopen =>
    dsimp only
    split
    · rw [hfin]
      exact ⟨.stays, h⟩
    · split
      · have hcount' : (c.flushFin nowUs).Counted := by
          have hsyn : (c.flushFin nowUs).synAttempts = c.synAttempts :=
            congrArg Timing.synAttempts hfin
          have hcons : (c.flushFin nowUs).consecutiveTimeouts = c.consecutiveTimeouts :=
            congrArg Timing.consecutiveTimeouts hfin
          exact ⟨hsyn ▸ hcount.synAttempts, hcons ▸ hcount.consecutiveTimeouts,
            fun _ => hsyn ▸ hcons ▸ hcount.going hopen⟩
        rw [← hfin] at h ⊢
        exact advances_handleTimeout _ h hcount' nowUs
      · have hrest : (((c.flushFin nowUs).flushData nowUs).flushAck nowUs).noteReadable.timing =
            c.timing := by
          change (((c.flushFin nowUs).flushData nowUs).flushAck nowUs).timing = _
          simp
        rw [hrest]
        exact ⟨.stays, h⟩

theorem counted_processTick (h : c.Counted) (nowUs : UInt32) : (c.processTick nowUs).Counted := by
  unfold processTick
  split
  · exact h
  next hopen =>
    dsimp only
    have hfin : (c.flushFin nowUs).Counted := h.congr (c.timing_flushFin nowUs) fun _ => hopen
    split
    · exact hfin
    next hopen' =>
      split
      · exact counted_handleTimeout _ hfin hopen' nowUs
      · refine hfin.congr ?_ fun _ => hopen'
        change (((c.flushFin nowUs).flushData nowUs).flushAck nowUs).timing = _
        simp

theorem counted_handlePacket (h : c.Counted) (hsane : c.timing.estimate.Sane) (data : Bytes)
    (nowUs : UInt32) : (c.handlePacket data nowUs).Counted := by
  have hopen : (c.handlePacket data nowUs).state ≠ .closed → c.state ≠ .closed := by
    intro hopen hclosed
    rcases c.handlePacket_state data nowUs with heq | heq | ⟨-, heq | heq⟩
    · exact hopen (heq.trans hclosed)
    · exact hopen heq
    · exact nomatch hclosed.symm.trans heq
    · exact nomatch hclosed.symm.trans heq
  rcases (c.samples_handlePacket hsane data nowUs).1 with heq | hsamples
  · exact h.congr heq hopen
  · have hcounts : (c.handlePacket data nowUs).synAttempts = c.synAttempts ∧
        (c.handlePacket data nowUs).consecutiveTimeouts = 0 := by
      generalize ht : (c.handlePacket data nowUs).timing = t at hsamples
      have hsyn : (c.handlePacket data nowUs).synAttempts = t.synAttempts :=
        congrArg Timing.synAttempts ht
      have hcons : (c.handlePacket data nowUs).consecutiveTimeouts = t.consecutiveTimeouts :=
        congrArg Timing.consecutiveTimeouts ht
      cases hsamples with
      | none => exact ⟨hsyn, hcons⟩
      | one => exact ⟨hsyn, hcons⟩
    obtain ⟨hsyn, hcons⟩ := hcounts
    refine ⟨hsyn ▸ h.synAttempts, hcons ▸ by decide, fun hgoing => ?_⟩
    exact ⟨hsyn ▸ (h.going (hopen hgoing)).1, hcons ▸ by decide⟩

/-! ## Runs -/

/-- What holds of a connection in every run. -/
structure WellTimed : Prop where
  sane : c.estimate.Sane
  counted : c.Counted

variable {c}

/-- A call takes the timing at most one step further, without an overflow. -/
theorem WellTimed.call (h : c.WellTimed) (x : Call) :
    Advances c.timing (c.call x).timing ∧ (c.call x).WellTimed := by
  -- a call that leaves the timing alone
  have hstays (c' : UtpConnection) (ht : c'.timing = c.timing)
      (hs : c'.state ≠ .closed → c.state ≠ .closed) :
      Advances c.timing c'.timing ∧ c'.WellTimed := by
    have hsane : c'.timing.estimate.Sane := by
      rw [ht]
      exact h.sane
    exact ⟨ht ▸ .stays, hsane, h.counted.congr ht hs⟩
  cases x with
  | act a =>
    cases a with
    | write data =>
      refine hstays (c.write data).2 ?_ fun hopen => ?_
      · unfold write
        split <;> rfl
      · have hstate : (c.write data).2.state = c.state := congrArg Core.state (c.core_write data)
        rwa [← hstate]
    | read cap =>
      refine hstays (c.read cap).2 ?_ fun hopen => ?_
      · unfold read
        dsimp only
        split <;> rfl
      · rwa [← c.read_state cap]
    | close =>
      refine hstays c.close ?_ fun hopen hclosed => ?_
      · unfold close
        split
        · rfl
        · split <;> rfl
      · exact hopen (c.close_state.elim (·.trans hclosed) id)
    | tick nowUs =>
      obtain ⟨hadvances, hsane⟩ := c.advances_processTick h.sane h.counted nowUs
      exact ⟨hadvances, hsane, c.counted_processTick h.counted nowUs⟩
  | packet data nowUs =>
    obtain ⟨hheard, hsane⟩ := c.samples_handlePacket h.sane data nowUs
    refine ⟨?_, hsane, c.counted_handlePacket h.counted h.sane data nowUs⟩
    rcases hheard with heq | hsamples
    · change Advances c.timing (c.handlePacket data nowUs).timing
      rw [heq]
      exact .stays
    · exact .heard _ hsamples
  | drain => exact hstays c.drainOutbox.2 rfl id

theorem Fresh.wellTimed (h : Fresh c) : c.WellTimed := by
  have hsane : Sane ⟨0, 0, 1000 * 1000⟩ := ⟨by decide, by decide, by decide, by decide⟩
  have hnone : (0 : UInt32).toNat ≤ 4 ∧ (0 : UInt32).toNat ≤ 2 ∧ (0 : UInt32).toNat < 4 ∧
      (0 : UInt32).toNat < 2 := by decide
  obtain ⟨h1, h2, h3⟩ := hnone
  cases h with
  | initiator => exact ⟨hsane, h1, h2, fun _ => h3⟩
  | responder => exact ⟨hsane, h1, h2, fun _ => h3⟩

theorem WellTimed.run (h : c.WellTimed) (calls : List Call) :
    (calls.foldl UtpConnection.call c).WellTimed := by
  induction calls generalizing c with
  | nil => exact h
  | cons x calls ih => exact ih (h.call x).2

/-- In every run the averages and the timeout keep their bounds, and each call computes the next ones
without an overflow. -/
theorem estimate_sane (h : Fresh c) (calls : List Call) :
    (calls.foldl UtpConnection.call c).estimate.Sane ∧ ∀ x : Call,
      Advances (calls.foldl UtpConnection.call c).timing
        ((calls.foldl UtpConnection.call c).call x).timing :=
  have hrun := h.wellTimed.run calls
  ⟨hrun.sane, fun x => (hrun.call x).1⟩

/-- An ST_STATE that acknowledges everything up to `ackNr`. -/
def acknowledgement (ackNr : UInt16) : Bytes :=
  encodeHeader { type := ST_STATE, seqNr := 100, ackNr, wndSize := 65536 }

/-- A handshake and two bytes, acknowledged 60 and 100 milliseconds after they were put out. -/
def twoSamples : List Call :=
  [.packet (acknowledgement 1) 20000, .act (.write [42]), .act (.tick 30000),
    .packet (acknowledgement 2) 90000, .act (.write [43]), .act (.tick 200000),
    .packet (acknowledgement 3) 300000]

theorem estimate_sane_twoSamples :
    let c := twoSamples.foldl UtpConnection.call (.initiator "" 0 7 0)
    c.estimate = ⟨65000, 32500, 500000⟩ ∧ c.estimate.Sane ∧
      ∀ x : Call, Advances c.timing (c.call x).timing :=
  ⟨by decide +kernel, estimate_sane (.initiator "" 0 7 0) twoSamples⟩

end UtpConnection

end FluxCore.Utp
