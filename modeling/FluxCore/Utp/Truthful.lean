import FluxCore.Utp.Handshake

/-!
# Truthful acknowledgements over whole runs

`Handshake` is the system of two connections, observed. `truthful_of_straight` carries the
invariant of `Handshake.lean` along every run whose steps are `Straight`: the answer to the SYN is
an ST_STATE, the responder cuts no data once its FIN is requested, and what arrives lies within
`2^15` of the position it is compared with. `fin_first_counterexample` is a run in which a FIN
arrives first.
-/

namespace FluxCore.Utp

structure Handshake where
  pair : Pair
  /-- The number of the responder's first packet. -/
  first : UInt16 := 0
  /-- The payloads of the responder's ST_DATA packets, in the order of their numbers. -/
  sent : List Bytes := []
  /-- How far the initiator's `ack` has advanced since its SYN was answered. -/
  pos : Nat := 0
  /-- The bytes read from the initiator. -/
  taken : Bytes := []

namespace Handshake

def observeFirst (first : UInt16) : Option UtpConnection → Option UtpConnection → UInt16
  | none, some b => b.seq
  | _, _ => first

def observeSent (sent : List Bytes) : Option UtpConnection → Option UtpConnection → List Bytes
  | some b, some b' => sent ++ newPayloads b b'
  | _, _ => sent

def observePos (pos : Nat) : Option UtpConnection → Option UtpConnection → Nat
  | some a, some a' => advance pos a a'
  | _, _ => pos

def observeTaken (taken : Bytes) : Option UtpConnection → Pair.Event → Bytes
  | some a, .act .ini (.read cap) => taken ++ (a.read cap).1
  | _, _ => taken

def step (s : Handshake) (e : Pair.Event) : Handshake where
  pair := s.pair.step e
  first := observeFirst s.first (s.pair.conn .resp) ((s.pair.step e).conn .resp)
  sent := observeSent s.sent (s.pair.conn .resp) ((s.pair.step e).conn .resp)
  pos := observePos s.pos (s.pair.conn .ini) ((s.pair.step e).conn .ini)
  taken := observeTaken s.taken (s.pair.conn .ini) e

/-- The initiator holds what it acknowledges: once its SYN is answered it has the first `n` packets
of the responder, `ack` is at the last of them or, with the end of the stream recorded, at the FIN
behind them, and the responder takes no more for acknowledged than these. Before, it has nothing and
`ack` is where it was unless a FIN has been recorded. -/
def Truthful (s : Handshake) : Prop :=
  ∀ a, s.pair.conn .ini = some a →
    (a.synAcked = true → ∃ n ≤ s.sent.length,
      a.ack + 1 = seqNo s.first (n + a.eof.toNat) ∧
      s.taken ++ a.recvOut = (s.sent.take n).flatten ∧
      (a.eof = true → n = s.sent.length) ∧
      ∀ b, s.pair.conn .resp = some b →
        s.sent.length ≤ n + b.sendQueue.length ∧ (a.eof = true → b.finSent = true)) ∧
    (a.synAcked = false → s.taken ++ a.recvOut = [] ∧ (a.ack = 0 ∨ a.eof = true))

/-- The condition on a step, in terms of the state before it and of what arrives. -/
def Straight (s : Handshake) : Pair.Event → Prop
  | .act .resp (.tick nowUs) => ∀ b, s.pair.conn .resp = some b →
    b.finPending = true ∨ b.finSent = true → b.sendsData nowUs = false
  | .deliver .ini i _ => ∀ a d hdr exts, s.pair.conn .ini = some a → (s.pair.wire .ini)[i]? = some d →
    parsePacket d = some (hdr, exts) → Arrives s.first s.sent s.pos a hdr (payloadOf d exts)
  | .deliver .resp i _ => ∀ b d hdr exts, s.pair.conn .resp = some b →
    (s.pair.wire .resp)[i]? = some d → parsePacket d = some (hdr, exts) → hdr.type ≠ ST_SYN →
    AckNear s.first s.sent s.pos b hdr
  | _ => True

/-- The invariant of the runs. -/
def Inv (s : Handshake) : Prop :=
  ∃ a, s.pair.conn .ini = some a ∧
    Good s.first s.sent s.pos s.taken a (s.pair.conn .resp) (s.pair.out .ini) (s.pair.out .resp)

variable {s : Handshake}

theorem Inv.truthful (h : Inv s) : Truthful s := by
  obtain ⟨a, ha, h⟩ := h
  intro a' ha'
  obtain rfl : a = a' := Option.some.inj (ha.symm.trans ha')
  cases h.phase with
  | waiting hw quiet _ =>
    refine ⟨fun hsyn => ?_, fun _ => ⟨by rw [quiet.taken, hw.recvOut]; rfl, .inl hw.ack⟩⟩
    rw [hw.synAcked] at hsyn
    cases hsyn
  | gaveUp hg quiet _ =>
    refine ⟨fun hsyn => ?_, fun _ => ⟨by rw [quiet.taken, hg.recvOut]; rfl, hg.ack⟩⟩
    rw [hg.synAcked] at hsyn
    cases hsyn
  | established b hb he _ acked =>
    rw [b.length_unacked] at acked
    refine ⟨fun _ => ?_, fun hsyn => ?_⟩
    · rcases he.stream with ⟨heof, hpos, hr⟩ | ⟨heof, hpos, hnext, hout, hfin⟩
      · refine ⟨s.pos, hpos, ?_, hr.stream, fun h => ?_, fun b' hb' => ?_⟩
        · rw [heof]
          exact hr.next
        · rw [heof] at h
          cases h
        · obtain rfl : b = b' := Option.some.inj (hb.symm.trans hb')
          exact ⟨acked, fun h => by rw [heof] at h; cases h⟩
      · refine ⟨s.sent.length, le_rfl, ?_, ?_, fun _ => rfl, fun b' hb' => ?_⟩
        · rw [heof]
          rwa [hpos] at hnext
        · rwa [List.take_length]
        · obtain rfl : b = b' := Option.some.inj (hb.symm.trans hb')
          exact ⟨Nat.le_add_right _ _, fun _ => hfin⟩
    · rw [he.synAcked] at hsyn
      cases hsyn

/-! ## One step -/

theorem observeFirst_same (first : UInt16) (ob : Option UtpConnection) :
    observeFirst first ob ob = first := by
  cases ob <;> rfl

theorem observeSent_same (sent : List Bytes) (ob : Option UtpConnection) :
    observeSent sent ob ob = sent := by
  cases ob with
  | none => rfl
  | some b => simp [observeSent, newPayloads]

/-- In the phases before the answer the position is not looked at. -/
theorem good_advance_same {first : UInt16} {sent : List Bytes} {pos : Nat} {taken : Bytes}
    {a : UtpConnection} {ob : Option UtpConnection} {oi orr : Bytes → Prop}
    (h : Good first sent pos taken a ob oi orr) :
    Good first sent (advance pos a a) taken a ob oi orr := by
  refine ⟨?_, h.resp, h.respOut⟩
  cases h.phase with
  | waiting hw quiet out => exact .waiting hw quiet out
  | gaveUp hg quiet out => exact .gaveUp hg quiet out
  | established b hb he out acked =>
    rw [advance_of_eq he.synAcked rfl]
    exact .established b hb he out acked

variable {e : Pair.Event} {a a' b b' : UtpConnection} {oi orr : Bytes → Prop}

/-- A step of the initiator, or of neither side. -/
theorem Inv.of_ini (ha : s.pair.conn .ini = some a) (ha' : (s.pair.step e).conn .ini = some a')
    (hb : (s.pair.step e).conn .resp = s.pair.conn .resp)
    (h : Good s.first s.sent (advance s.pos a a') (observeTaken s.taken (some a) e) a'
      (s.pair.conn .resp) oi orr)
    (hoi : ∀ d, (s.pair.step e).out .ini d → oi d)
    (hor : ∀ d, (s.pair.step e).out .resp d → orr d) : Inv (s.step e) := by
  refine ⟨a', ha', ?_⟩
  simp only [step, ha, ha', hb, observeFirst_same, observeSent_same, observePos]
  exact h.mono hoi hor

/-- A step of the responder. -/
theorem Inv.of_resp (ha : s.pair.conn .ini = some a) (ha' : (s.pair.step e).conn .ini = some a)
    (hb : s.pair.conn .resp = some b) (hb' : (s.pair.step e).conn .resp = some b')
    (htaken : observeTaken s.taken (some a) e = s.taken)
    (h : Good s.first (s.sent ++ newPayloads b b') s.pos s.taken a (some b') oi orr)
    (hoi : ∀ d, (s.pair.step e).out .ini d → oi d)
    (hor : ∀ d, (s.pair.step e).out .resp d → orr d) : Inv (s.step e) := by
  refine ⟨a, ha', ?_⟩
  simp only [step, ha, ha', hb, hb', observeFirst, observeSent, observePos, htaken]
  exact (good_advance_same h).mono hoi hor

/-- The step that makes the responder. -/
theorem Inv.of_accept (ha : s.pair.conn .ini = some a) (ha' : (s.pair.step e).conn .ini = some a)
    (hb : s.pair.conn .resp = none) (hb' : (s.pair.step e).conn .resp = some b)
    (htaken : observeTaken s.taken (some a) e = s.taken)
    (h : Good b.seq s.sent s.pos s.taken a (some b) oi orr)
    (hoi : ∀ d, (s.pair.step e).out .ini d → oi d)
    (hor : ∀ d, (s.pair.step e).out .resp d → orr d) : Inv (s.step e) := by
  refine ⟨a, ha', ?_⟩
  simp only [step, ha, ha', hb, hb', observeFirst, observeSent, observePos, htaken]
  exact (good_advance_same h).mono hoi hor

/-- A step that changes neither connection and puts nothing new under way. -/
theorem Inv.of_quiet (h : Inv s) (hconn : (s.pair.step e).conn = s.pair.conn)
    (htaken : ∀ a, observeTaken s.taken (some a) e = s.taken)
    (hout : ∀ x d, (s.pair.step e).out x d → s.pair.out x d) : Inv (s.step e) := by
  obtain ⟨a, ha, h⟩ := h
  refine .of_ini ha (by rw [hconn, ha]) (by rw [hconn]) ?_ (hout .ini) (hout .resp)
  rw [htaken]
  exact good_advance_same h

theorem Inv.act_ini (h : Inv s) (act : Act) : Inv (s.step (.act .ini act)) := by
  obtain ⟨a, ha, h⟩ := h
  have hstep : s.pair.step (.act .ini act) = s.pair.setConn .ini (act.run a) := by
    simp only [Pair.step, ha]
  refine @Inv.of_ini s _ a (act.run a) (Adds (s.pair.out .ini) a (act.run a)) (s.pair.out .resp)
    ha ?_ ?_ ?_ (fun d hd => ?_) fun d hd => ?_
  · rw [hstep, Pair.setConn_conn_same]
  · rw [hstep]
    exact s.pair.setConn_conn_other .ini _
  · cases act with
    | write data => exact h.writeIni data
    | read cap => exact h.readIni cap
    | close => exact h.closeIni
    | tick nowUs => exact h.tickIni nowUs
  · rw [hstep] at hd
    exact Pair.out_setConn ha hd
  · rw [hstep] at hd
    exact Pair.out_setConn_other (x := .ini) hd

theorem Inv.act_resp (h : Inv s) (act : Act) (hs : Straight s (.act .resp act)) :
    Inv (s.step (.act .resp act)) := by
  cases hb : s.pair.conn .resp with
  | none =>
    have hstep : s.pair.step (.act .resp act) = s.pair := by simp only [Pair.step, hb]
    exact h.of_quiet (by rw [hstep]) (fun _ => rfl) fun x d hd => hstep ▸ hd
  | some b =>
    obtain ⟨a, ha, h⟩ := h
    rw [hb] at h
    have hstep : s.pair.step (.act .resp act) = s.pair.setConn .resp (act.run b) := by
      simp only [Pair.step, hb]
    have hrun := h.runResp act (by
      rintro nowUs rfl
      exact hs b hb)
    refine .of_resp ha ?_ hb ?_ rfl hrun (fun d hd => ?_) fun d hd => ?_
    · rw [hstep]
      exact (s.pair.setConn_conn_other .resp _).trans ha
    · rw [hstep, Pair.setConn_conn_same]
    · rw [hstep] at hd
      exact Pair.out_setConn_other (x := .resp) hd
    · rw [hstep] at hd
      exact Pair.out_setConn hb hd

theorem Inv.flush (h : Inv s) (x : Side) : Inv (s.step (.flush x)) := by
  cases hx : s.pair.conn x with
  | none =>
    have hstep : s.pair.step (.flush x) = s.pair := by simp only [Pair.step, hx]
    exact h.of_quiet (by rw [hstep]) (fun _ => rfl) fun y d hd => hstep ▸ hd
  | some c =>
    obtain ⟨a, ha, h⟩ := h
    have hstep : s.pair.step (.flush x) = (s.pair.setConn x c.drainOutbox.2).setWire x.other
        (s.pair.wire x.other ++ c.drainOutbox.1) := by
      simp only [Pair.step, hx]
    have hout : ∀ y d, (s.pair.step (.flush x)).out y d → s.pair.out y d := fun y d hd => by
      rw [hstep] at hd
      exact Pair.out_flush hx hd
    have hsame : (s.pair.step (.flush x)).conn x = some c.drainOutbox.2 := by
      rw [hstep, Pair.setWire_conn, Pair.setConn_conn_same]
    have hother : (s.pair.step (.flush x)).conn x.other = s.pair.conn x.other := by
      rw [hstep, Pair.setWire_conn, Pair.setConn_conn_other]
    cases x with
    | ini =>
      obtain rfl : a = c := Option.some.inj (ha.symm.trans hx)
      exact .of_ini ha hsame hother h.drainIni (hout .ini) (hout .resp)
    | resp =>
      rw [hx] at h
      exact .of_resp ha (hother.trans ha) hx hsame rfl h.drainResp (hout .ini) (hout .resp)

theorem Inv.network (h : Inv s) (x : Side) {ds : List Bytes}
    (hstep : s.pair.step e = s.pair.setWire x ds) (hds : ∀ d ∈ ds, s.pair.out x.other d)
    (htaken : ∀ a, observeTaken s.taken (some a) e = s.taken) : Inv (s.step e) :=
  h.of_quiet (by rw [hstep]; rfl) htaken fun y d hd => Pair.out_setWire hds (hstep ▸ hd)

theorem Inv.drop (h : Inv s) (x : Side) (i : Nat) : Inv (s.step (.drop x i)) :=
  h.network x rfl (fun _ hd => Pair.out_of_wire ((List.eraseIdx_sublist _ i).mem hd)) fun _ => rfl

theorem Inv.duplicate (h : Inv s) (x : Side) (i : Nat) : Inv (s.step (.duplicate x i)) := by
  cases hd : (s.pair.wire x)[i]? with
  | none =>
    have hstep : s.pair.step (.duplicate x i) = s.pair := by simp only [Pair.step, hd]
    exact h.of_quiet (by rw [hstep]) (fun _ => rfl) fun y d' hd' => hstep ▸ hd'
  | some d =>
    have hstep : s.pair.step (.duplicate x i) = s.pair.setWire x (s.pair.wire x ++ [d]) := by
      simp only [Pair.step, hd]
    refine h.network x hstep (fun d' hd' => Pair.out_of_wire ?_) fun _ => rfl
    rcases List.mem_append.mp hd' with hd' | hd'
    · exact hd'
    · rw [List.mem_singleton.mp hd']
      exact List.mem_of_getElem? hd

/-- What is under way when a datagram has left the network. -/
theorem out_taken {x y : Side} {i : Nat} {d : Bytes}
    (hd : (s.pair.setWire x ((s.pair.wire x).eraseIdx i)).out y d) : s.pair.out y d :=
  Pair.out_setWire (fun _ h => Pair.out_of_wire ((List.eraseIdx_sublist _ i).mem h)) hd

theorem out_answered {x : Side} {i : Nat} {c c' : UtpConnection} (hc : s.pair.conn x = some c)
    {d : Bytes}
    (hd : ((s.pair.setWire x ((s.pair.wire x).eraseIdx i)).setConn x c').out x d) :
    Adds (s.pair.out x) c c' d :=
  Or.imp_left out_taken (Pair.out_setConn (p := s.pair.setWire x _) hc hd)

theorem Inv.deliver_ini (h : Inv s) (i : Nat) (nowUs : UInt32)
    (hs : Straight s (.deliver .ini i nowUs)) : Inv (s.step (.deliver .ini i nowUs)) := by
  cases hd : (s.pair.wire .ini)[i]? with
  | none =>
    have hstep : s.pair.step (.deliver .ini i nowUs) = s.pair := by simp only [Pair.step, hd]
    exact h.of_quiet (by rw [hstep]) (fun _ => rfl) fun y d hd => hstep ▸ hd
  | some d =>
    obtain ⟨a, ha, h⟩ := h
    have hstep : s.pair.step (.deliver .ini i nowUs) =
        (s.pair.setWire .ini ((s.pair.wire .ini).eraseIdx i)).setConn .ini
          (a.handlePacket d nowUs) := by
      simp only [Pair.step, hd, Pair.receive, Pair.setWire_conn, ha]
    refine .of_ini ha (by rw [hstep, Pair.setConn_conn_same]) ?_
      (h.receiveIni (Pair.out_of_wire (x := .ini) (List.mem_of_getElem? hd)) nowUs
        fun hdr exts hp => hs a d hdr exts ha hd hp) (fun d' hd' => ?_) fun d' hd' => ?_
    · rw [hstep]
      exact Pair.setConn_conn_other _ .ini _
    · rw [hstep] at hd'
      exact out_answered ha hd'
    · rw [hstep] at hd'
      exact out_taken (Pair.out_setConn_other (x := .ini) hd')

theorem Inv.deliver_resp (h : Inv s) (i : Nat) (nowUs : UInt32)
    (hs : Straight s (.deliver .resp i nowUs)) : Inv (s.step (.deliver .resp i nowUs)) := by
  cases hd : (s.pair.wire .resp)[i]? with
  | none =>
    have hstep : s.pair.step (.deliver .resp i nowUs) = s.pair := by simp only [Pair.step, hd]
    exact h.of_quiet (by rw [hstep]) (fun _ => rfl) fun y d hd => hstep ▸ hd
  | some d =>
    obtain ⟨a, ha, h⟩ := h
    have hdout : s.pair.out .ini d := Pair.out_of_wire (x := .resp) (List.mem_of_getElem? hd)
    cases hb : s.pair.conn .resp with
    | some b =>
      rw [hb] at h
      have hstep : s.pair.step (.deliver .resp i nowUs) =
          (s.pair.setWire .resp ((s.pair.wire .resp).eraseIdx i)).setConn .resp
            (b.handlePacket d nowUs) := by
        simp only [Pair.step, hd, Pair.receive, Pair.setWire_conn, hb]
      have hnone : newPayloads b (b.handlePacket d nowUs) = [] :=
        newPayloads_of_suffix (b.handlePacket_unacked_suffix d nowUs)
      have hgood := h.receiveResp hdout nowUs fun hdr exts hp => hs b d hdr exts hb hd hp
      rw [← List.append_nil s.sent, ← hnone] at hgood
      refine .of_resp ha ?_ hb (by rw [hstep, Pair.setConn_conn_same]) rfl hgood
        (fun d' hd' => ?_) fun d' hd' => ?_
      · rw [hstep]
        exact (Pair.setConn_conn_other _ .resp _).trans ha
      · rw [hstep] at hd'
        exact out_taken (Pair.out_setConn_other (x := .resp) hd')
      · rw [hstep] at hd'
        exact out_answered hb hd'
    | none =>
      have hstep : s.pair.step (.deliver .resp i nowUs) =
          (s.pair.setWire .resp ((s.pair.wire .resp).eraseIdx i)).accept .resp d nowUs := by
        simp only [Pair.step, hd, Pair.receive, Pair.setWire_conn, hb]
      have hdropped : ∀ d' ∈ (s.pair.wire .resp).eraseIdx i, s.pair.out .ini d' := fun d' hd' =>
        Pair.out_of_wire (x := .resp) ((List.eraseIdx_sublist _ i).mem hd')
      rw [Pair.accept] at hstep
      split at hstep
      · exact Inv.network ⟨a, ha, h⟩ .resp hstep hdropped fun _ => rfl
      next hdr _ _ =>
        split at hstep
        · rw [hb] at h
          refine .of_accept ha ?_ hb (by rw [hstep, Pair.setConn_conn_same]; rfl) rfl
            (h.accept s.pair.iniAddr s.pair.iniPort hdr.connectionId hdr.seqNr nowUs)
            (fun d' hd' => ?_) fun d' hd' => ?_
          · rw [hstep]
            exact (Pair.setConn_conn_other _ .resp _).trans ha
          · rw [hstep] at hd'
            exact out_taken (Pair.out_setConn_other (x := .resp) hd')
          · rw [hstep] at hd'
            refine (Pair.out_setConn_new (x := .resp) hd').resolve_right fun hold => ?_
            obtain ⟨b, hb, -⟩ := h.respOut d' (out_taken hold)
            cases hb
        · exact Inv.network ⟨a, ha, h⟩ .resp hstep hdropped fun _ => rfl

theorem Inv.step (h : Inv s) (hs : Straight s e) : Inv (s.step e) := by
  cases e with
  | act x act =>
    cases x with
    | ini => exact h.act_ini act
    | resp => exact h.act_resp act hs
  | flush x => exact h.flush x
  | deliver x i nowUs =>
    cases x with
    | ini => exact h.deliver_ini i nowUs hs
    | resp => exact h.deliver_resp i nowUs hs
  | duplicate x i => exact h.duplicate x i
  | drop x i => exact h.drop x i

/-! ## Whole runs -/

/-- Before anything has happened. -/
def start (iniAddr : String) (iniPort : UInt16) (respAddr : String) (respPort : UInt16)
    (nowUs synTimeoutUs : UInt32) : Handshake where
  pair := .start iniAddr iniPort respAddr respPort nowUs synTimeoutUs

theorem inv_start (iniAddr iniPort respAddr respPort nowUs synTimeoutUs) :
    Inv (start iniAddr iniPort respAddr respPort nowUs synTimeoutUs) := by
  refine ⟨_, rfl, ?_, fun b hb => by (cases hb), fun d hd => ?_⟩
  · refine .waiting ⟨rfl, rfl, rfl, rfl, rfl, rfl, rfl, rfl, rfl, rfl⟩
      ⟨rfl, rfl, fun b hb => by cases hb⟩ fun d hd => ?_
    rcases hd with ⟨c, hc, hd⟩ | hd
    · cases hc
      exact (UtpConnection.initiator_outbox _ _ _ _ d hd).mono fun _ _ h => h.1
    · cases hd
  · rcases hd with ⟨c, hc, -⟩ | hd
    · cases hc
    · cases hd

end Handshake

open Handshake

/-- In every run whose steps are straight the initiator acknowledges only what it holds. -/
theorem truthful_of_straight (iniAddr : String) (iniPort : UInt16) (respAddr : String)
    (respPort : UInt16) (nowUs synTimeoutUs : UInt32) (es : List Pair.Event)
    (h : Along step Straight (start iniAddr iniPort respAddr respPort nowUs synTimeoutUs) es) :
    Visits step Truthful (start iniAddr iniPort respAddr respPort nowUs synTimeoutUs) es :=
  visits_of_along (fun _ _ hinv hs => hinv.step hs) (fun _ hinv => hinv.truthful) (inv_start ..) h

/-- Nothing is asked of an ST_STATE that reaches the initiator. -/
theorem Handshake.straight_of_state {s : Handshake} {i : Nat} {nowUs : UInt32}
    (h : ((s.pair.wire .ini)[i]?.bind parsePacket).map (·.1.type) = some ST_STATE) :
    Straight s (.deliver .ini i nowUs) := by
  intro a d hdr exts _ hd hp
  rw [hd, Option.bind_some, hp, Option.map_some, Option.some.injEq] at h
  have hdata : hdr.type ≠ ST_DATA := by rw [h]; decide
  have hfin : hdr.type ≠ ST_FIN := by rw [h]; decide
  exact ⟨fun _ => ⟨hdata, hfin⟩, fun _ ht => absurd ht hdata, fun _ ht => absurd ht hdata,
    fun _ ht => absurd ht hfin⟩

/-- Of a stream shorter than half the numbers, every packet that reaches an established initiator
without buffered packets is near enough. -/
theorem Handshake.straight_of_short {s : Handshake} {i : Nat} {nowUs : UInt32}
    (hsent : s.sent.length < 2 ^ 15) (hpos : s.pos < 2 ^ 15)
    (h : (s.pair.conn .ini).all fun a => a.state ≠ .synSent && a.recvReorder.entries.isEmpty) :
    Straight s (.deliver .ini i nowUs) := by
  intro a d hdr exts ha _ _
  rw [ha, Option.all_some, Bool.and_eq_true, decide_eq_true_eq, List.isEmpty_iff] at h
  refine ⟨fun hs => absurd hs h.1, fun _ _ ⟨j, hj, hseq⟩ => ?_, fun _ _ _ p hp e he => ?_,
    fun _ _ => by omega⟩
  · have := (List.getElem?_eq_some_iff.mp hj).1
    exact ⟨j, hj, hseq, by omega, by omega⟩
  · rw [h.2] at he
    cases he

/-- An acknowledgement of such a stream is near enough too. -/
theorem Handshake.straight_of_ack {s : Handshake} {i : Nat} {nowUs : UInt32}
    (hsent : s.sent.length + 1 < 2 ^ 15) : Straight s (.deliver .resp i nowUs) := by
  intro b d hdr exts _ _ _ _ ⟨k, hk, hseq⟩
  exact ⟨k, hk, hseq, by omega⟩

/-- A tick may cut data as long as no FIN is requested, and need not be looked at where it cuts
none. -/
theorem Handshake.straight_of_tick {s : Handshake} {nowUs : UInt32}
    (h : (s.pair.conn .resp).all fun b => !(b.finPending || b.finSent) || !b.sendsData nowUs) :
    Straight s (.act .resp (.tick nowUs)) := by
  intro b hb hfin
  rw [hb, Option.all_some] at h
  grind

/-- A whole exchange: the SYN and its answer, a byte of the initiator's, two of the responder's, the
FIN behind them, a read, and the acknowledgement. -/
def exchange : List Pair.Event :=
  [.flush .ini, .deliver .resp 0 2, .flush .resp, .deliver .ini 0 3, .act .ini (.write [5]),
    .act .ini (.tick 4), .flush .ini, .deliver .resp 0 5, .act .resp (.write [1, 2]),
    .act .resp (.tick 6), .act .resp .close, .act .resp (.tick 7), .flush .resp,
    .deliver .ini 1 8, .deliver .ini 1 9, .act .ini (.read 2), .flush .ini, .deliver .resp 0 10]

theorem truthful_after_fin :
    Visits step Truthful (start "10.0.0.1" 6881 "10.0.0.2" 6882 1 0) exchange ∧
      (exec step (start "10.0.0.1" 6881 "10.0.0.2" 6882 1 0) exchange).taken = [1, 2] := by
  refine ⟨truthful_of_straight _ _ _ _ _ _ _ ?_, by decide +kernel⟩
  exact ⟨trivial, straight_of_ack (by decide +kernel), trivial,
      straight_of_state (by decide +kernel), trivial, trivial, trivial, straight_of_ack (by decide +kernel), trivial,
      straight_of_tick (by decide +kernel), trivial, straight_of_tick (by decide +kernel), trivial,
      straight_of_short (by decide +kernel) (by decide +kernel) (by decide +kernel),
      straight_of_short (by decide +kernel) (by decide +kernel) (by decide +kernel), trivial,
      trivial, straight_of_ack (by decide +kernel), trivial⟩

/-- The responder closes at once, and its FIN overtakes the answer to the SYN. -/
def finFirst : List Pair.Event :=
  [.flush .ini, .deliver .resp 0 2, .act .resp .close, .act .resp (.tick 3), .flush .resp,
    .deliver .ini 1 4]

/-- The FIN takes the place of the answer: it is acknowledged, and the end of the stream is not
recorded. -/
theorem fin_first_counterexample :
    ¬Visits step Truthful (start "10.0.0.1" 6881 "10.0.0.2" 6882 1 0) finFirst := by
  intro h
  have hrun : ((exec step (start "10.0.0.1" 6881 "10.0.0.2" 6882 1 0) finFirst).pair.conn .ini).map
        (fun a => (a.synAcked, a.eof, a.ack)) =
      some (true, false, (exec step (start "10.0.0.1" 6881 "10.0.0.2" 6882 1 0) finFirst).first) := by
    decide +kernel
  have hsent : (exec step (start "10.0.0.1" 6881 "10.0.0.2" 6882 1 0) finFirst).sent = [] := by
    decide +kernel
  have hlast := h.last
  generalize exec step (start "10.0.0.1" 6881 "10.0.0.2" 6882 1 0) finFirst = s at *
  obtain ⟨a, ha, hvals⟩ := Option.map_eq_some_iff.mp hrun
  simp only [Prod.mk.injEq] at hvals
  obtain ⟨hsyn, heof, hack⟩ := hvals
  obtain ⟨n, hn, hnext, -⟩ := (hlast a ha).1 hsyn
  rw [hsent, List.length_nil, Nat.le_zero] at hn
  rw [hack, heof, hn, Bool.toNat_false, seqNo_zero] at hnext
  exact absurd hnext (by simp)

end FluxCore.Utp
