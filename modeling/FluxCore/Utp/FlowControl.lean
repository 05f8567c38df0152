import FluxCore.Utp.Gate
import FluxCore.Utp.System

/-!
# Flow control

A sender whose peer has advertised a window smaller than a packet waits for a larger one. `Contact`
lists what can still bring it word: a datagram under way, a retransmission timer on either side, or
a receiver whose owner has not read everything yet. `never_stuck` says that a run in which no event
takes the last of these away never gets stuck; `late_syn_counterexample` is a run in which a
repeated SYN, whose header carries no window, takes it away.
-/

namespace FluxCore.Utp

namespace UtpConnection

/-- The phases in which user data is sent. -/
def IsOpen (c : UtpConnection) : Prop := c.state = .connected ∨ c.state = .finSent

/-- A retransmission timer runs. -/
def Armed (c : UtpConnection) : Prop := c.sendQueue ≠ [] ∨ c.finInFlight = true

/-- A retransmission timer runs after the packet, too. -/
def ArmedAfter (c : UtpConnection) (hdr : PacketHeader) : Prop :=
  c.unackedAfter hdr ≠ [] ∨
    c.finInFlight = true ∧ ¬(hdr.Acks ∧ seqLeq c.finSeq hdr.ackNr = true)

instance (c : UtpConnection) : Decidable c.IsOpen :=
  inferInstanceAs (Decidable (c.state = .connected ∨ c.state = .finSent))

instance (c : UtpConnection) : Decidable c.Armed :=
  inferInstanceAs (Decidable (c.sendQueue ≠ [] ∨ c.finInFlight = true))

instance (hdr : PacketHeader) : Decidable hdr.Acks :=
  inferInstanceAs (Decidable (_ ∨ _ ∨ _))

instance (c : UtpConnection) (hdr : PacketHeader) : Decidable (c.ArmedAfter hdr) :=
  inferInstanceAs (Decidable (_ ∨ _))

instance (c : UtpConnection) (hdr : PacketHeader) : Decidable (c.Answers hdr) :=
  inferInstanceAs (Decidable (_ ∨ _ ∨ _))

end UtpConnection

open UtpConnection

/-- What can still bring the sender `s` word of the window of the receiver `t`. -/
def Contact (busy : Prop) (s t : UtpConnection) : Prop :=
  s.IsOpen → t.IsOpen →
    DEFAULT_PACKET_SIZE ≤ s.peerWnd ∨ s.Armed ∨ t.Armed ∨ t.recvOut ≠ [] ∨ busy

/-- Both sides can still hear of each other after `c` has received a packet. -/
def HearsAfter (busy : Prop) (c o : UtpConnection) (hdr : PacketHeader) : Prop :=
  c.state ≠ .closed → c.state ≠ .synRecv → o.IsOpen → hdr.type ≠ ST_RESET →
    c.Answers hdr ∨ c.ArmedAfter hdr ∨ o.Armed ∨ busy ∨
      (DEFAULT_PACKET_SIZE ≤ hdr.wndSize ∨ o.recvOut ≠ []) ∧
        (DEFAULT_PACKET_SIZE ≤ o.peerWnd ∨ c.recvOut ≠ [])

instance (busy : Prop) [Decidable busy] (s t : UtpConnection) : Decidable (Contact busy s t) :=
  inferInstanceAs (Decidable (_ → _ → _))

instance (busy : Prop) [Decidable busy] (c o : UtpConnection) (hdr : PacketHeader) :
    Decidable (HearsAfter busy c o hdr) :=
  inferInstanceAs (Decidable (_ → _ → _ → _ → _))

namespace Pair

/-- Something is under way. -/
def Busy (p : Pair) : Prop := (∃ x, p.wire x ≠ []) ∨ ∃ x, ∃ c ∈ p.conn x, c.outbox ≠ []

def InContact (p : Pair) : Prop :=
  ∀ x, ∀ c ∈ p.conn x, ∀ o ∈ p.conn x.other, Contact p.Busy c o

/-- Nothing is under way, no timer runs, the receiver has been read out, and the sender does not
send what it has because the last window it heard of is too small. -/
def Stuck (p : Pair) : Prop :=
  ∃ x, ∃ s ∈ p.conn x, ∃ t ∈ p.conn x.other,
    (s.IsOpen ∧ t.IsOpen) ∧ ((∀ y, p.wire y = []) ∧ s.outbox = [] ∧ t.outbox = []) ∧
    (¬s.Armed ∧ ¬t.Armed) ∧ (t.recvOut = [] ∧ t.advertsiedWnd = RECV_WINDOW) ∧
    s.pendingSend ≠ [] ∧ s.canSendData = false ∧ s.curWindow + s.packetSize ≤ s.maxWindow ∧
    s.peerWnd < s.packetSize

/-- Something is under way beside the `i`-th datagram to `x`. -/
def BusyBeside (p : Pair) (x : Side) (i : Nat) : Prop :=
  (p.wire x).eraseIdx i ≠ [] ∨ p.wire x.other ≠ [] ∨ ∃ y, ∃ c ∈ p.conn y, c.outbox ≠ []

/-- The `i`-th datagram under way to `x` may be lost: it is not the only one, or each side hears of
the other without one. -/
def CanSpare (p : Pair) (x : Side) (i : Nat) : Prop :=
  p.BusyBeside x i ∨ ∀ y, ∀ c ∈ p.conn y, ∀ o ∈ p.conn y.other, Contact False c o

/-- The event does not take the last contact away: a read that empties the receiver, a packet that
arrives, and a datagram that is lost or says nothing. -/
def KeepsContact (p : Pair) : Event → Prop
  | .act x (.read cap) => ∀ t ∈ p.conn x, ∀ s ∈ p.conn x.other, s.IsOpen → t.IsOpen →
    t.recvOut.length ≤ cap → DEFAULT_PACKET_SIZE ≤ s.peerWnd ∨ s.Armed ∨ t.Armed ∨ p.Busy
  | .deliver x i _ => ∀ d ∈ (p.wire x)[i]?,
    (parsePacket d = none → p.CanSpare x i) ∧
      ∀ q ∈ parsePacket d, ∀ c ∈ p.conn x, ∀ o ∈ p.conn x.other,
        HearsAfter (p.BusyBeside x i) c o q.1
  | .drop x i => ∀ d ∈ (p.wire x)[i]?, p.CanSpare x i
  | _ => True

instance (p : Pair) : Decidable p.Busy := inferInstanceAs (Decidable (_ ∨ _))

instance (p : Pair) (x : Side) (i : Nat) : Decidable (p.BusyBeside x i) :=
  inferInstanceAs (Decidable (_ ∨ _ ∨ _))

instance (p : Pair) (x : Side) (i : Nat) : Decidable (p.CanSpare x i) :=
  inferInstanceAs (Decidable (_ ∨ ∀ y, ∀ c ∈ p.conn y, ∀ o ∈ p.conn y.other, Contact False c o))

instance (p : Pair) : Decidable p.Stuck := inferInstanceAs (Decidable (∃ x, ∃ s ∈ p.conn x, _))

instance (p : Pair) : (e : Event) → Decidable (p.KeepsContact e)
  | .act _ (.read _) => inferInstanceAs (Decidable (∀ t ∈ _, ∀ s ∈ _, _ → _))
  | .deliver _ _ _ =>
    inferInstanceAs (Decidable (∀ d ∈ _, (_ → _) ∧ ∀ q ∈ _, ∀ c ∈ _, ∀ o ∈ _, _))
  | .drop x i => inferInstanceAs (Decidable (∀ d ∈ _, p.CanSpare x i))
  | .act _ (.write _) | .act _ .close | .act _ (.tick _) | .flush _ | .duplicate _ _ =>
    inferInstanceAs (Decidable True)

/-- The invariant of the runs. -/
structure Flows (p : Pair) : Prop where
  contact : p.InContact
  packetSize : ∀ x, ∀ c ∈ p.conn x, c.packetSize ≤ DEFAULT_PACKET_SIZE

end Pair

variable {p : Pair} {x : Side} {c c' o s t : UtpConnection} {busy busy' : Prop}

theorem UtpConnection.IsOpen.ne_closed (h : c.IsOpen) : c.state ≠ .closed := by
  rcases h with h | h <;> rw [h] <;> decide

theorem Side.eq_or_eq_other (x y : Side) : y = x ∨ y = x.other := by
  cases x <;> cases y <;> simp [Side.other]

theorem Pair.Flows.not_stuck (h : p.Flows) : ¬p.Stuck := by
  rintro ⟨x, s, hs, t, ht, ⟨hso, hto⟩, ⟨hwire, hsout, htout⟩, ⟨hsa, hta⟩, ⟨hread, -⟩, -, -, -, hwnd⟩
  rcases h.contact x s hs t ht hso hto with hw | hw | hw | hw | hw | hw
  · exact absurd (UInt32.lt_of_lt_of_le hwnd (UInt32.le_trans (h.packetSize x s hs) hw))
      (UInt32.lt_irrefl _)
  · exact hsa hw
  · exact hta hw
  · exact hw hread
  · obtain ⟨y, hy⟩ := hw
    exact hy (hwire y)
  · obtain ⟨y, c, hc, hout⟩ := hw
    rcases Side.eq_or_eq_other x y with rfl | rfl
    · exact hout (Option.some.inj (hc.symm.trans hs) ▸ hsout)
    · exact hout (Option.some.inj (hc.symm.trans ht) ▸ htout)

/-! ## One side changes -/

theorem Contact.mono (h : Contact busy s t) (hb : busy → busy') : Contact busy' s t := fun hs ht =>
  (h hs ht).imp_right <| Or.imp_right <| Or.imp_right <| Or.imp_right hb

theorem Contact.of_busy (h : busy) : Contact busy s t := fun _ _ => .inr (.inr (.inr (.inr h)))

/-- The sender changes. -/
theorem Contact.left (h : Contact busy c o) (hopen : c'.IsOpen → c.IsOpen)
    (hwnd : c'.peerWnd = c.peerWnd) (harmed : c'.IsOpen → c.Armed → c'.Armed)
    (hb : busy → busy') : Contact busy' c' o := by
  intro hc' ho
  rcases h (hopen hc') ho with h | h | h | h | h
  · exact .inl (hwnd ▸ h)
  · exact .inr (.inl (harmed hc' h))
  · exact .inr (.inr (.inl h))
  · exact .inr (.inr (.inr (.inl h)))
  · exact .inr (.inr (.inr (.inr (hb h))))

/-- The receiver changes. -/
theorem Contact.right (h : Contact busy o c) (hopen : c'.IsOpen → c.IsOpen)
    (harmed : c'.IsOpen → c.Armed → c'.Armed) (hread : c.recvOut ≠ [] → c'.recvOut ≠ [])
    (hb : busy → busy') : Contact busy' o c' := by
  intro ho hc'
  rcases h ho (hopen hc') with h | h | h | h | h
  · exact .inl h
  · exact .inr (.inl h)
  · exact .inr (.inr (.inl (harmed hc' h)))
  · exact .inr (.inr (.inr (.inl (hread h))))
  · exact .inr (.inr (.inr (.inr (hb h))))

/-- A change that leaves what contact is about alone, on both sides of it. -/
theorem Contact.both (h : Contact busy c o ∧ Contact busy o c) (hopen : c'.IsOpen → c.IsOpen)
    (hwnd : c'.peerWnd = c.peerWnd) (harmed : c'.IsOpen → c.Armed → c'.Armed)
    (hread : c.recvOut ≠ [] → c'.recvOut ≠ []) (hb : busy → busy') :
    Contact busy' c' o ∧ Contact busy' o c' :=
  ⟨h.1.left hopen hwnd harmed hb, h.2.right hopen harmed hread hb⟩

/-- A timer that depends on the core and on the acknowledgement of the FIN only. -/
theorem UtpConnection.Armed.congr (h : c.Armed) (hun : c'.unacked = c.unacked)
    (hout : c'.finSent = c.finSent) (hfin : c'.finAcked = c.finAcked)
    (hstate : c'.state = c.state) : c'.Armed := by
  rcases h with h | h
  · exact .inl fun hn => h (c.unacked_eq_nil.mp (hun ▸ c'.unacked_eq_nil.mpr hn))
  · exact .inr (by simpa [finInFlight, hout, hfin, hstate] using h)

theorem contact_write (h : Contact busy c o ∧ Contact busy o c) (data : Bytes) (hb : busy → busy') :
    Contact busy' (c.write data).2 o ∧ Contact busy' o (c.write data).2 := by
  have hcore := c.core_write data
  have hgate := c.gate_write data
  have hstate : (c.write data).2.state = c.state := congrArg Core.state hcore
  have hread : (c.write data).2.recvOut = c.recvOut := congrArg (·.incoming.recvOut) hcore
  refine Contact.both h (fun ho => by rwa [UtpConnection.IsOpen, hstate] at ho) (congrArg Gate.peerWnd hgate)
    (fun _ ha => ha.congr (congrArg Core.unacked hcore) (congrArg (·.outgoing.finSent) hcore)
      (congrArg Gate.finAcked hgate) hstate) (fun hr => by rwa [hread]) hb

theorem contact_close (h : Contact busy c o ∧ Contact busy o c) (hb : busy → busy') :
    Contact busy' c.close o ∧ Contact busy' o c.close := by
  have hcore := c.core_close
  have hgate := c.gate_close
  have hread : c.close.recvOut = c.recvOut := congrArg (·.incoming.recvOut) hcore
  have hstate : c.close.IsOpen → c.close.state = c.state := fun ho => by
    rcases c.close_state with hs | hs
    · exact hs
    · exact absurd hs ho.ne_closed
  refine Contact.both h (fun ho => by rwa [UtpConnection.IsOpen, hstate ho] at ho) (congrArg Gate.peerWnd hgate)
    (fun ho ha => ha.congr (congrArg Core.unacked hcore) (congrArg (·.outgoing.finSent) hcore)
      (congrArg Gate.finAcked hgate) (hstate ho)) (fun hr => by rwa [hread]) hb

theorem contact_drain (h : Contact busy c o ∧ Contact busy o c) (hb : busy → busy') :
    Contact busy' c.drainOutbox.2 o ∧ Contact busy' o c.drainOutbox.2 :=
  Contact.both h id rfl (fun _ ha => ha.congr rfl rfl rfl rfl) id hb

theorem contact_tick (h : Contact busy c o ∧ Contact busy o c) (nowUs : UInt32)
    (hb : busy → busy') (hout : (c.processTick nowUs).outbox ≠ [] → busy') :
    Contact busy' (c.processTick nowUs) o ∧ Contact busy' o (c.processTick nowUs) := by
  by_cases hclosed : c.state = .closed
  · rw [processTick_closed hclosed]
    exact ⟨h.1.mono hb, h.2.mono hb⟩
  by_cases hfin : c.finPending = true
  · have := hout (processTick_outbox hfin hclosed nowUs)
    exact ⟨.of_busy this, .of_busy this⟩
  obtain ⟨hwnd, -, -⟩ := c.processTick_gate nowUs
  have hread : (c.processTick nowUs).recvOut = c.recvOut :=
    congrArg Incoming.recvOut (c.processTick_incoming nowUs)
  have hstate : (c.processTick nowUs).IsOpen → (c.processTick nowUs).state = c.state := fun ho => by
    obtain ⟨-, -, hst, -⟩ := processTick_spec hclosed nowUs
    rw [c.flushFin_state nowUs, if_neg hfin] at hst
    exact hst.resolve_right ho.ne_closed
  refine Contact.both h (fun ho => by rwa [UtpConnection.IsOpen, hstate ho] at ho) hwnd (fun ho ha => ?_)
    (fun hr => by rwa [hread]) hb
  rcases ha with ha | ha
  · obtain ⟨more, hun⟩ := c.processTick_unacked nowUs
    refine .inl fun hn => ha (c.unacked_eq_nil.mp ?_)
    rw [← (c.processTick nowUs).unacked_eq_nil, hun] at hn
    exact (List.append_eq_nil_iff.mp hn).1
  · exact .inr (processTick_finInFlight ha nowUs ho.ne_closed)

theorem contact_read (h : Contact busy c o ∧ Contact busy o c) (cap : Nat)
    (hkeeps : o.IsOpen → c.IsOpen → c.recvOut.length ≤ cap →
      DEFAULT_PACKET_SIZE ≤ o.peerWnd ∨ o.Armed ∨ c.Armed ∨ busy) (hb : busy → busy') :
    Contact busy' (c.read cap).2 o ∧ Contact busy' o (c.read cap).2 := by
  have hgate := c.gate_read cap
  have hopen : (c.read cap).2.IsOpen ↔ c.IsOpen := by simp [UtpConnection.IsOpen]
  have harmed : c.Armed → (c.read cap).2.Armed := fun ha =>
    ha.congr (c.read_unacked cap) (congrArg Outgoing.finSent (c.read_outgoing cap))
      (congrArg Gate.finAcked hgate) (c.read_state cap)
  refine ⟨h.1.left hopen.mp (congrArg Gate.peerWnd hgate) (fun _ => harmed) hb, ?_⟩
  by_cases hcap : c.recvOut.length ≤ cap
  · intro ho hc
    rcases hkeeps ho (hopen.mp hc) hcap with h | h | h | h
    · exact .inl h
    · exact .inr (.inl h)
    · exact .inr (.inr (.inl (harmed h)))
    · exact .inr (.inr (.inr (.inr (hb h))))
  · refine h.2.right hopen.mp (fun _ => harmed) (fun _ => ?_) hb
    rw [c.read_recvOut, ← List.length_pos_iff, List.length_drop]
    omega

/-! ## A packet arrives -/

/-- A packet without data leaves the bytes that wait to be read as they are. -/
theorem handleParsed_recvOut {hdr : PacketHeader} (hdata : hdr.type ≠ ST_DATA)
    (hfin : hdr.type ≠ ST_FIN) (sack payload nowUs) :
    (c.handleParsed hdr sack payload nowUs).recvOut = c.recvOut := by
  by_cases hst : hdr.type = ST_STATE
  · have hin := congrArg Incoming.recvOut
      (handleParsed_incoming_state (c := c) hst sack payload nowUs)
    have hnote : (c.notePacket hdr nowUs).recvOut = c.recvOut :=
      congrArg Incoming.recvOut (c.notePacket_incoming hdr nowUs)
    refine hin.trans (Eq.trans ?_ hnote)
    unfold adoptState
    split <;> rfl
  · exact congrArg Incoming.recvOut (handleParsed_incoming_other hst hdata hfin sack payload nowUs)

theorem armed_handleParsed {hdr : PacketHeader} (h : c.ArmedAfter hdr) (sack payload nowUs)
    (hopen : (c.handleParsed hdr sack payload nowUs).IsOpen) :
    (c.handleParsed hdr sack payload nowUs).Armed := by
  rcases h with h | ⟨hf, hack⟩
  · rw [← c.handleParsed_unacked hdr sack payload nowUs] at h
    exact .inl fun hn => h ((unacked_eq_nil _).mpr hn)
  · exact .inr (handleParsed_finInFlight hf hack sack payload nowUs hopen.ne_closed)

theorem contact_handleParsed {hdr : PacketHeader} (h : HearsAfter busy c o hdr) (sack payload nowUs)
    (hb : busy → busy') (hout : (c.handleParsed hdr sack payload nowUs).outbox ≠ [] → busy') :
    Contact busy' (c.handleParsed hdr sack payload nowUs) o ∧
      Contact busy' o (c.handleParsed hdr sack payload nowUs) := by
  by_cases hans : c.Answers hdr
  · have := hout (handleParsed_outbox hans sack payload nowUs)
    exact ⟨.of_busy this, .of_busy this⟩
  have hdata : hdr.type ≠ ST_DATA := fun ht => hans (.inr (.inl ht))
  have hfin : hdr.type ≠ ST_FIN := fun ht => hans (.inr (.inr ht))
  have hstate := c.handleParsed_state hdr sack payload nowUs
  have hwnd := (c.received_handleParsed hdr sack payload nowUs).peerWnd
  have hread := handleParsed_recvOut (c := c) hdata hfin sack payload nowUs
  -- the two sides are open together only if the packet has left `c` open
  suffices hboth : (c.handleParsed hdr sack payload nowUs).IsOpen → o.IsOpen →
      (c.handleParsed hdr sack payload nowUs).Armed ∨ o.Armed ∨ busy' ∨
        (DEFAULT_PACKET_SIZE ≤ hdr.wndSize ∨ o.recvOut ≠ []) ∧
          (DEFAULT_PACKET_SIZE ≤ o.peerWnd ∨ c.recvOut ≠ []) by
    refine ⟨fun hc ho => ?_, fun ho hc => ?_⟩
    · rw [hwnd]
      rcases hboth hc ho with h | h | h | ⟨h | h, -⟩
      · exact .inr (.inl h)
      · exact .inr (.inr (.inl h))
      · exact .inr (.inr (.inr (.inr h)))
      · exact .inl h
      · exact .inr (.inr (.inr (.inl h)))
    · rw [hread]
      rcases hboth hc ho with h | h | h | ⟨-, h | h⟩
      · exact .inr (.inr (.inl h))
      · exact .inr (.inl h)
      · exact .inr (.inr (.inr (.inr h)))
      · exact .inl h
      · exact .inr (.inr (.inr (.inl h)))
  intro hc ho
  have hne : c.state ≠ .closed := fun hs => by
    rcases hstate with h | h | ⟨-, h | h⟩
    · exact hc.ne_closed (h.trans hs)
    · exact hc.ne_closed h
    · rw [hs] at h; cases h
    · rw [hs] at h; cases h
  have hrecv : c.state ≠ .synRecv := fun hs => by
    rcases handleParsed_state_of_control (by rw [hs]; decide) hdata hfin sack payload nowUs with h | h
    · rw [UtpConnection.IsOpen, h, hs] at hc
      rcases hc with hc | hc <;> cases hc
    · exact hc.ne_closed h
  have hreset : hdr.type ≠ ST_RESET := fun ht =>
    hc.ne_closed (congrArg Core.state (core_handleParsed_reset ht sack payload nowUs))
  rcases h hne hrecv ho hreset with h | h | h | h | h
  · exact absurd h hans
  · exact .inl (armed_handleParsed h sack payload nowUs hc)
  · exact .inr (.inl h)
  · exact .inr (.inr (.inl (hb h)))
  · exact .inr (.inr (.inr h))

theorem contact_handlePacket {d : Bytes}
    (hnone : parsePacket d = none → Contact busy c o ∧ Contact busy o c)
    (hsome : ∀ hdr exts, parsePacket d = some (hdr, exts) → HearsAfter busy c o hdr) (nowUs)
    (hb : busy → busy') (hout : (c.handlePacket d nowUs).outbox ≠ [] → busy') :
    Contact busy' (c.handlePacket d nowUs) o ∧ Contact busy' o (c.handlePacket d nowUs) := by
  cases hp : parsePacket d with
  | none =>
    have hsame : c.handlePacket d nowUs = c := by rw [handlePacket, hp]
    rw [hsame]
    exact (hnone hp).imp (·.mono hb) (·.mono hb)
  | some q =>
    rw [handlePacket_eq hp] at hout ⊢
    exact contact_handleParsed (hsome _ _ hp) _ _ nowUs hb hout

theorem handlePacket_packetSize (h : c.packetSize ≤ DEFAULT_PACKET_SIZE) (d nowUs) :
    (c.handlePacket d nowUs).packetSize ≤ DEFAULT_PACKET_SIZE := by
  unfold handlePacket
  split
  · exact h
  · exact (received_handleParsed ..).packetSize h

theorem responder_outbox_ne (addr port peerRecvId ackNr nowUs) :
    (responder addr port peerRecvId ackNr nowUs).outbox ≠ [] := by
  simp [responder, queueControl]

/-! ## The system -/

namespace Pair

variable {p' : Pair} {i : Nat} {e : Event}

theorem busy_of_outbox (hc : p.conn x = some c) (hout : c.outbox ≠ []) : p.Busy :=
  .inr ⟨x, c, hc, hout⟩

/-- A connection that has just put something out is in contact. -/
theorem contact_new (hc : p.conn x = some c) (hout : c.outbox ≠ []) :
    Contact p.Busy c o ∧ Contact p.Busy o c :=
  ⟨.of_busy (busy_of_outbox hc hout), .of_busy (busy_of_outbox hc hout)⟩

theorem Busy.setConn (hc : p.conn x = some c) (hout : c.outbox ≠ [] → c'.outbox ≠ [])
    (h : p.Busy) : (p.setConn x c').Busy := by
  rcases h with h | ⟨y, k, hk, hkout⟩
  · exact .inl h
  · rcases Side.eq_or_eq_other x y with rfl | rfl
    · obtain rfl : c = k := Option.some.inj (hc.symm.trans hk)
      exact busy_of_outbox (p.setConn_conn_same y c') (hout hkout)
    · exact busy_of_outbox ((p.setConn_conn_other x c').trans hk) hkout

theorem InContact.both (h : p.InContact) (hc : p.conn x = some c) :
    ∀ o ∈ p.conn x.other, Contact p.Busy c o ∧ Contact p.Busy o c := fun o ho =>
  ⟨h x c hc o ho, h x.other o ho c (by rwa [Side.other_other])⟩

/-- One side changes, and the datagrams under way. -/
theorem Flows.of_side (h : p.Flows) (hc' : p'.conn x = some c')
    (hother : p'.conn x.other = p.conn x.other) (hsize : c'.packetSize ≤ DEFAULT_PACKET_SIZE)
    (hcontact : ∀ o ∈ p.conn x.other, Contact p'.Busy c' o ∧ Contact p'.Busy o c') : p'.Flows := by
  refine ⟨fun y k hk o ho => ?_, fun y k hk => ?_⟩
  · rcases Side.eq_or_eq_other x y with rfl | rfl
    · obtain rfl : c' = k := Option.some.inj (hc'.symm.trans hk)
      exact (hcontact o (hother.symm.trans ho)).1
    · rw [Side.other_other] at ho
      obtain rfl : c' = o := Option.some.inj (hc'.symm.trans ho)
      exact (hcontact k (hother.symm.trans hk)).2
  · rcases Side.eq_or_eq_other x y with rfl | rfl
    · obtain rfl : c' = k := Option.some.inj (hc'.symm.trans hk)
      exact hsize
    · exact h.packetSize x.other k (hother.symm.trans hk)

/-- Only the datagrams under way change. -/
theorem Flows.of_conn (h : p.Flows) (hconn : p'.conn = p.conn) (hcontact : p'.InContact) :
    p'.Flows :=
  ⟨hcontact, fun y k hk => h.packetSize y k (by rwa [hconn] at hk)⟩

theorem Flows.act (h : p.Flows) (x : Side) (a : Act) (hk : p.KeepsContact (.act x a)) :
    (p.step (.act x a)).Flows := by
  cases hc : p.conn x with
  | none =>
    have hstep : p.step (.act x a) = p := by simp only [step, hc]
    rwa [hstep]
  | some c =>
    have hstep : p.step (.act x a) = p.setConn x (a.run c) := by simp only [step, hc]
    have hboth := h.contact.both hc
    have hs := h.packetSize x c hc
    rw [hstep]
    cases a with
    | write data =>
      have hb := Busy.setConn hc fun h => show (c.write data).2.outbox ≠ [] by rwa [c.write_outbox]
      have hsize : (c.write data).2.packetSize = c.packetSize :=
        congrArg Gate.packetSize (c.gate_write data)
      exact h.of_side (p.setConn_conn_same ..) (p.setConn_conn_other ..) (hsize ▸ hs)
        fun o ho => contact_write (hboth o ho) data hb
    | read cap =>
      have hb := Busy.setConn hc fun h => show (c.read cap).2.outbox ≠ [] by rwa [c.read_outbox]
      have hsize : (c.read cap).2.packetSize = c.packetSize :=
        congrArg Gate.packetSize (c.gate_read cap)
      exact h.of_side (p.setConn_conn_same ..) (p.setConn_conn_other ..) (hsize ▸ hs)
        fun o ho => contact_read (hboth o ho) cap (hk c hc o ho) hb
    | close =>
      have hb := Busy.setConn hc fun h => show c.close.outbox ≠ [] by rwa [c.close_outbox]
      have hsize : c.close.packetSize = c.packetSize := congrArg Gate.packetSize c.gate_close
      exact h.of_side (p.setConn_conn_same ..) (p.setConn_conn_other ..) (hsize ▸ hs)
        fun o ho => contact_close (hboth o ho) hb
    | tick nowUs =>
      obtain ⟨new, hout, -⟩ := c.processTick_emits nowUs
      have hb := Busy.setConn hc fun h => show (c.processTick nowUs).outbox ≠ [] by simp [hout, h]
      exact h.of_side (p.setConn_conn_same ..) (p.setConn_conn_other ..)
        ((c.processTick_gate nowUs).2.2 hs) fun o ho => contact_tick (hboth o ho) nowUs hb
          (busy_of_outbox (p.setConn_conn_same x _))

theorem Flows.flush (h : p.Flows) (x : Side) : (p.step (.flush x)).Flows := by
  cases hc : p.conn x with
  | none =>
    have hstep : p.step (.flush x) = p := by simp only [step, hc]
    rwa [hstep]
  | some c =>
    have hstep : p.step (.flush x) = (p.setConn x c.drainOutbox.2).setWire x.other
        (p.wire x.other ++ c.drainOutbox.1) := by simp only [step, hc]
    rw [hstep]
    have hb : p.Busy → ((p.setConn x c.drainOutbox.2).setWire x.other
        (p.wire x.other ++ c.drainOutbox.1)).Busy := by
      rintro (⟨y, hy⟩ | ⟨y, k, hk, hkout⟩)
      · refine .inl ⟨y, ?_⟩
        rcases Side.eq_or_eq_other x y with rfl | rfl
        · rwa [setWire_wire_of_other]
        · rw [setWire_wire_same]
          simp [hy]
      · rcases Side.eq_or_eq_other x y with rfl | rfl
        · obtain rfl : c = k := Option.some.inj (hc.symm.trans hk)
          refine .inl ⟨y.other, ?_⟩
          rw [setWire_wire_same]
          simp [drainOutbox, hkout]
        · exact busy_of_outbox ((p.setConn_conn_other x _).trans hk) hkout
    exact h.of_side (p.setConn_conn_same x _) (p.setConn_conn_other x _) (h.packetSize x c hc)
      fun o ho => contact_drain (h.contact.both hc o ho) hb

theorem busy_setWire_iff :
    (p.setWire x ((p.wire x).eraseIdx i)).Busy ↔ p.BusyBeside x i := by
  have hsides : (∃ y, (p.setWire x ((p.wire x).eraseIdx i)).wire y ≠ []) ↔
      (p.wire x).eraseIdx i ≠ [] ∨ p.wire x.other ≠ [] := by
    constructor
    · rintro ⟨y, hy⟩
      rcases Side.eq_or_eq_other x y with rfl | rfl
      · exact .inl (by rwa [setWire_wire_same] at hy)
      · exact .inr (by rwa [setWire_wire_of_ne x.other_ne] at hy)
    · rintro (h | h)
      · exact ⟨x, by rwa [setWire_wire_same]⟩
      · exact ⟨x.other, by rwa [setWire_wire_of_ne x.other_ne]⟩
  rw [Busy, hsides, or_assoc]
  rfl

/-- Without a datagram that can be spared the two sides are still in contact. -/
theorem CanSpare.inContact (h : p.CanSpare x i) :
    (p.setWire x ((p.wire x).eraseIdx i)).InContact := by
  intro y c hc o ho
  rcases h with h | h
  · exact .of_busy (busy_setWire_iff.mpr h)
  · exact (h y c hc o ho).mono False.elim

theorem Flows.drop (h : p.Flows) (x : Side) (i : Nat) (hk : p.KeepsContact (.drop x i)) :
    (p.step (.drop x i)).Flows := by
  refine h.of_conn rfl ?_
  cases hd : (p.wire x)[i]? with
  | none =>
    have hsame : p.step (.drop x i) = p := by
      rw [step, List.eraseIdx_of_length_le (List.getElem?_eq_none_iff.mp hd)]
      exact congrArg (fun wire => { p with wire }) (Function.update_eq_self x p.wire)
    rw [hsame]
    exact h.contact
  | some d => exact (hk d hd).inContact

theorem Flows.duplicate (h : p.Flows) (x : Side) (i : Nat) : (p.step (.duplicate x i)).Flows := by
  cases hd : (p.wire x)[i]? with
  | none =>
    have hstep : p.step (.duplicate x i) = p := by simp only [step, hd]
    rwa [hstep]
  | some d =>
    have hstep : p.step (.duplicate x i) = p.setWire x (p.wire x ++ [d]) := by simp only [step, hd]
    rw [hstep]
    refine h.of_conn rfl fun y k hk o ho => .of_busy (.inl ⟨x, ?_⟩)
    rw [setWire_wire_same]
    simp

theorem inContact_of_none (hc : p.conn x = none) : p.InContact := fun y k hk o ho => by
  rcases Side.eq_or_eq_other x y with rfl | rfl
  · rw [hc] at hk; cases hk
  · rw [Side.other_other, hc] at ho; cases ho

theorem Flows.deliver (h : p.Flows) (x : Side) (i : Nat) (nowUs : UInt32)
    (hk : p.KeepsContact (.deliver x i nowUs)) : (p.step (.deliver x i nowUs)).Flows := by
  cases hd : (p.wire x)[i]? with
  | none =>
    have hstep : p.step (.deliver x i nowUs) = p := by simp only [step, hd]
    rwa [hstep]
  | some d =>
    have hstep : p.step (.deliver x i nowUs) =
        (p.setWire x ((p.wire x).eraseIdx i)).receive x d nowUs := by
      simp only [step, hd]
    rw [hstep, receive, setWire_conn]
    cases hc : p.conn x with
    | none =>
      have h' : (p.setWire x ((p.wire x).eraseIdx i)).Flows := h.of_conn rfl (inContact_of_none hc)
      dsimp only
      rw [accept]
      split
      · exact h'
      · split
        · exact h'.of_side (setConn_conn_same ..) (setConn_conn_other ..) (UInt32.le_refl _)
            fun o _ => contact_new (setConn_conn_same ..) (responder_outbox_ne _ _ _ _ _)
        · exact h'
    | some c =>
      obtain ⟨new, hnew, -⟩ := c.handlePacket_emits d nowUs
      have hb := Busy.setConn (p := p.setWire x ((p.wire x).eraseIdx i)) hc fun h =>
        show (c.handlePacket d nowUs).outbox ≠ [] by simp [hnew, h]
      rw [busy_setWire_iff] at hb
      obtain ⟨hnone, hsome⟩ := hk d hd
      refine h.of_side (setConn_conn_same ..) (setConn_conn_other ..)
        (handlePacket_packetSize (h.packetSize x c hc) d nowUs) fun o ho =>
          contact_handlePacket (fun hp => ?_) (fun _ _ hp => hsome _ hp c hc o ho) nowUs hb
            (busy_of_outbox (setConn_conn_same ..))
      have hboth := (hnone hp).inContact.both (x := x) hc o ho
      exact hboth.imp (·.mono busy_setWire_iff.mp) (·.mono busy_setWire_iff.mp)

theorem Flows.step (h : p.Flows) (hk : p.KeepsContact e) : (p.step e).Flows := by
  cases e with
  | act x a => exact h.act x a hk
  | flush x => exact h.flush x
  | deliver x i nowUs => exact h.deliver x i nowUs hk
  | duplicate x i => exact h.duplicate x i
  | drop x i => exact h.drop x i hk

theorem flows_start (iniAddr iniPort respAddr respPort nowUs synTimeoutUs) :
    (start iniAddr iniPort respAddr respPort nowUs synTimeoutUs).Flows := by
  refine ⟨inContact_of_none (x := .resp) rfl, fun y c hc => ?_⟩
  cases y with
  | ini =>
    cases hc
    exact UInt32.le_refl _
  | resp => cases hc

end Pair

open Pair

/-- A run no event of which takes the last contact away never gets stuck. -/
theorem never_stuck (iniAddr : String) (iniPort : UInt16) (respAddr : String) (respPort : UInt16)
    (nowUs synTimeoutUs : UInt32) (es : List Event)
    (h : Along step KeepsContact (start iniAddr iniPort respAddr respPort nowUs synTimeoutUs) es) :
    Visits step (fun p => ¬p.Stuck)
      (start iniAddr iniPort respAddr respPort nowUs synTimeoutUs) es :=
  visits_of_along (fun _ _ hf hk => hf.step hk) (fun _ hf => hf.not_stuck) (flows_start ..) h

/-- A handshake, a byte, and a read that empties the receiver while the sender's window is open. -/
theorem never_stuck_exchange :
    Visits step (fun p => ¬p.Stuck) (start "10.0.0.1" 6881 "10.0.0.2" 6882 1 0)
      [.flush .ini, .deliver .resp 0 2, .flush .resp, .deliver .ini 0 3, .act .ini (.write [1]),
        .act .ini (.tick 4), .flush .ini, .deliver .resp 0 5, .act .resp (.read 10), .flush .resp,
        .deliver .ini 0 6] :=
  never_stuck _ _ _ _ _ _ _
    ⟨trivial, by decide +kernel, trivial, by decide +kernel, trivial, trivial, trivial,
      by decide +kernel, by decide +kernel, trivial, by decide +kernel, trivial⟩

/-- A handshake, a byte, its acknowledgement, and a repeated SYN that arrives late; then the
responder has a byte to send. -/
def lateSyn : List Event :=
  [.flush .ini, .duplicate .resp 0, .deliver .resp 0 2, .flush .resp, .deliver .ini 0 3,
    .act .ini (.write [1]), .act .ini (.tick 4), .flush .ini, .deliver .resp 1 5, .flush .resp,
    .deliver .ini 0 6, .deliver .resp 0 7, .flush .resp, .deliver .ini 0 8,
    .act .resp (.write [2]), .act .resp (.tick 9)]

/-- The late SYN sets the responder's window to 0; everything is acknowledged and read out, and
nothing will tell the responder otherwise. -/
theorem late_syn_counterexample :
    ¬Visits step (fun p => ¬p.Stuck) (start "10.0.0.1" 6881 "10.0.0.2" 6882 1 0) lateSyn :=
  fun h => h.last (by decide +kernel)

end FluxCore.Utp
