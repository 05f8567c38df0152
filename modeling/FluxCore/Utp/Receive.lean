import FluxCore.Utp.Reassembly

/-!
# The receive side over whole runs

A connected connection is given the packets of a stream in any order, with any loss and any
duplication, while its owner reads. `Receiving` carries along how far `ack` has advanced, counted
without wrap, and the bytes read. `receive_intact_iff` says when every state of such a run has the
stream intact: exactly when every packet that becomes due together with the next one is at the front
of the reorder buffer. `receive_wrap_counterexample` is a run in which it is not.
-/

namespace FluxCore.Utp

/-- The datagram is an ST_DATA packet with the number and the payload of position `j`. -/
def Carries (base : UInt16) (sent : List Bytes) (j : Nat) (data : Bytes) : Prop :=
  ∃ hdr exts, parsePacket data = some (hdr, exts) ∧ hdr.type = ST_DATA ∧
    hdr.seqNr = seqNo base j ∧ sent[j]? = some (payloadOf data exts)

structure Receiving where
  conn : UtpConnection
  /-- How far `ack` has advanced since the start. -/
  pos : Nat := 0
  /-- The bytes read since the start. -/
  taken : Bytes := []

namespace Receiving

inductive Event where
  /-- The packet at position `j` of the stream arrives as the datagram `data`. -/
  | packet (j : Nat) (data : Bytes) (nowUs : UInt32)
  | read (cap : Nat)

def step (s : Receiving) : Event → Receiving
  | .packet _ data nowUs =>
    let conn := s.conn.handlePacket data nowUs
    { s with conn, pos := s.pos + (conn.ack - s.conn.ack).toNat }
  | .read cap => { s with conn := (s.conn.read cap).2, taken := s.taken ++ (s.conn.read cap).1 }

/-- What arrives is a packet of the stream, less than `2^15` ahead of `ack`. -/
def Delivers (base : UInt16) (sent : List Bytes) (s : Receiving) : Event → Prop
  | .packet j data _ => Carries base sent j data ∧ j + 1 < s.pos + 2 ^ 15
  | .read _ => True

/-- A packet delivered again after the stream has passed it is not so old that its 16-bit number
reads as a new one. -/
def ReadsAsOld (s : Receiving) : Event → Prop
  | .packet j _ _ => j < s.pos → (s.pos - (j + 1)) % 2 ^ 16 ≤ 2 ^ 15
  | .read _ => True

instance (s : Receiving) : (e : Event) → Decidable (ReadsAsOld s e)
  | .packet j _ _ => inferInstanceAs (Decidable (j < s.pos → _ ≤ _))
  | .read _ => .isTrue trivial

/-- If what arrives is the next packet and the one behind it is buffered, no buffered packet has a
smaller raw number than that one. -/
def DrainsFront (s : Receiving) : Event → Prop
  | .packet j _ _ => j = s.pos → DrainsFrom s.conn (s.conn.ack + 1 + 1)
  | .read _ => True

/-- The bytes received are the payloads of the first `n` packets, `ack` is at the last of them, and
no packet whose turn has come is left in the reorder buffer. -/
def Intact (ack₀ : UInt16) (sent : List Bytes) (start : Bytes) (s : Receiving) : Prop :=
  ∃ n ≤ sent.length, s.taken ++ s.conn.recvOut = start ++ (sent.take n).flatten ∧
    s.conn.ack = seqNo ack₀ n ∧ s.conn.recvReorder.find? (s.conn.ack + 1) = none

/-- The invariant of the runs: the connection stands at the position counted. -/
structure Inv (ack₀ : UInt16) (sent : List Bytes) (start : Bytes) (s : Receiving) : Prop where
  open_ : s.conn.state ≠ .synSent ∧ s.conn.state ≠ .synRecv
  len : s.pos ≤ sent.length
  reassembles : Reassembles (ack₀ + 1) sent start s.taken s.pos s.conn

variable {ack₀ base : UInt16} {sent : List Bytes} {start : Bytes} {s : Receiving}

theorem Inv.intact (h : Inv ack₀ sent start s) : Intact ack₀ sent start s := by
  refine ⟨s.pos, h.len, h.reassembles.stream, ?_, h.reassembles.find?_next⟩
  simpa using eq_seqNo_of_succ_eq h.reassembles.next

theorem Inv.read (h : Inv ack₀ sent start s) (cap : Nat) :
    Inv ack₀ sent start (s.step (.read cap)) :=
  ⟨by simpa [step] using h.open_, h.len, h.reassembles.read cap⟩

/-- What a packet of the stream does to an established connection. -/
theorem incoming_of_carries {c : UtpConnection} {j : Nat} {data : Bytes}
    (hc : c.state ≠ .synSent ∧ c.state ≠ .synRecv) (h : Carries base sent j data) (nowUs : UInt32) :
    ∃ (hdr : PacketHeader) (payload : Bytes) (c₁ : UtpConnection),
      hdr.seqNr = seqNo base j ∧ sent[j]? = some payload ∧ c₁.incoming = c.incoming ∧
      (c.handlePacket data nowUs).incoming = (c₁.onData hdr payload nowUs).incoming := by
  obtain ⟨hdr, exts, hparse, htype, hseq, hp⟩ := h
  refine ⟨hdr, _, c.notePacket hdr nowUs, hseq, hp, c.notePacket_incoming hdr nowUs, ?_⟩
  rw [UtpConnection.handlePacket_eq hparse, UtpConnection.handleParsed_incoming_data htype,
    UtpConnection.enterConnected_of_ne (by simpa using hc.1) (by simpa using hc.2)]

theorem Inv.packet (h : Inv ack₀ sent start s) (hsent : ∀ p ∈ sent, p ≠ []) {j : Nat}
    {data : Bytes} {nowUs : UInt32} (hd : Delivers (ack₀ + 1) sent s (.packet j data nowUs))
    (hold : ReadsAsOld s (.packet j data nowUs)) (hfront : DrainsFront s (.packet j data nowUs)) :
    Inv ack₀ sent start (s.step (.packet j data nowUs)) := by
  obtain ⟨hdr, payload, c₁, hseq, hp, hin, hout⟩ := incoming_of_carries h.open_ hd.1 nowUs
  have hr := h.reassembles.congr hin
  have hreorder : c₁.recvReorder = s.conn.recvReorder := congrArg Incoming.recvReorder hin
  obtain ⟨n, hle, hlen, hhi, hr'⟩ := hr.onData h.len hseq hp
    (hsent _ (List.mem_of_getElem? hp)) hd.2 hold (fun hj => by
      have := hfront hj
      rwa [h.reassembles.next, ← seqNo_succ, DrainsFrom, ← hreorder] at this) nowUs
  have hr'' := hr'.congr hout
  have hpos : s.pos + ((s.conn.handlePacket data nowUs).ack - s.conn.ack).toNat = n := by
    rw [eq_seqNo_of_succ_eq hr''.next, eq_seqNo_of_succ_eq h.reassembles.next,
      toNat_seqNo_sub _ hle, Nat.mod_eq_of_lt (by omega)]
    omega
  refine ⟨?_, ?_, ?_⟩
  · rcases s.conn.handlePacket_state data nowUs with hst | hst | ⟨-, hst | hst⟩
    · simpa only [step, hst] using h.open_
    · simp [step, hst]
    · exact absurd hst h.open_.1
    · exact absurd hst h.open_.2
  · simpa only [step, hpos] using hlen
  · simpa only [step, hpos] using hr''

theorem Inv.step (h : Inv ack₀ sent start s) (hsent : ∀ p ∈ sent, p ≠ []) (e : Event)
    (hd : Delivers (ack₀ + 1) sent s e) (hold : ReadsAsOld s e) (hfront : DrainsFront s e) :
    Inv ack₀ sent start (s.step e) := by
  cases e with
  | packet j data nowUs => exact h.packet hsent hd hold hfront
  | read cap => exact h.read cap

/-- A packet that becomes due behind another entry of the buffer is left there. -/
theorem Inv.not_intact (h : Inv ack₀ sent start s) (hsent : ∀ p ∈ sent, p ≠ []) (e : Event)
    (hd : Delivers (ack₀ + 1) sent s e) (hfront : ¬DrainsFront s e) :
    ¬Intact ack₀ sent start (s.step e) := by
  cases e with
  | read cap => exact absurd trivial hfront
  | packet j data nowUs =>
    rintro ⟨-, -, -, -, hnone⟩
    obtain ⟨hj, hbad⟩ := Classical.not_imp.mp hfront
    obtain ⟨hdr, payload, c₁, hseq, hp, hin, hout⟩ := incoming_of_carries h.open_ hd.1 nowUs
    simp only [UtpConnection.incoming, Incoming.mk.injEq] at hin hout
    refine @onData_leaves_due c₁ hdr payload ?_ (hsent _ (List.mem_of_getElem? hp)) ?_ nowUs ?_
    · rw [hseq, hj, hin.1, h.reassembles.next]
    · rwa [DrainsFrom, hin.1, hin.2.2.1]
    · rw [← hout.1, ← hout.2.2.1]
      exact hnone

end Receiving

open Receiving

/-- In a run that delivers packets of the stream, none of them old enough to read as new, the stream
is intact at every moment if and only if the packets that become due are found at the front of the
reorder buffer. -/
theorem receive_intact_iff {c : UtpConnection} {sent : List Bytes} {es : List Event}
    (hopen : c.state = .connected) (hsent : ∀ p ∈ sent, p ≠ [])
    (hbuf : Ahead (c.ack + 1) sent 1 (2 ^ 15) c.recvReorder)
    (hrun : Along step (Delivers (c.ack + 1) sent) ⟨c, 0, []⟩ es)
    (hold : Along step ReadsAsOld ⟨c, 0, []⟩ es) :
    Visits step (Intact c.ack sent c.recvOut) ⟨c, 0, []⟩ es ↔
      Along step DrainsFront ⟨c, 0, []⟩ es := by
  have h0 : Inv c.ack sent c.recvOut ⟨c, 0, []⟩ :=
    ⟨by simp [hopen], Nat.zero_le _, ⟨(seqNo_zero _).symm, by simp, hbuf.mono le_rfl (by simp)⟩⟩
  exact visits_iff_along (fun s e h hd => h.step hsent e hd.1 hd.2) (fun s h => h.intact)
    (fun s e h hd => h.not_intact hsent e hd.1) h0 (hrun.and hold)

/-- The datagram of a data packet with a one-byte payload. -/
def dataDatagram (seqNr : UInt16) (payload : UInt8) : Bytes :=
  encodeHeader { type := ST_DATA, seqNr } ++ [payload]

/-- A connected connection that has received everything up to `ack`. -/
def receiverAt (ack : UInt16) : UtpConnection :=
  { remoteAddr := "", remotePort := 0, state := .connected, ack }

/-- The second packet arrives ahead of the first, which arrives twice, and a byte is read. -/
theorem receive_intact_reordered :
    Visits step (Intact 7 [[1], [2], [3]] []) ⟨receiverAt 7, 0, []⟩
      [.packet 1 (dataDatagram 9 2) 0, .packet 0 (dataDatagram 8 1) 0,
        .packet 0 (dataDatagram 8 1) 0, .read 1, .packet 2 (dataDatagram 10 3) 0] := by
  refine (receive_intact_iff (c := receiverAt 7) rfl (by decide) (List.forall_mem_nil _) ?_ ?_).mpr
    ?_
  · refine ⟨⟨⟨_, _, rfl, rfl, rfl, rfl⟩, ?_⟩, ⟨⟨_, _, rfl, rfl, rfl, rfl⟩, ?_⟩,
      ⟨⟨_, _, rfl, rfl, rfl, rfl⟩, ?_⟩, trivial, ⟨⟨_, _, rfl, rfl, rfl, rfl⟩, ?_⟩, trivial⟩ <;>
      omega
  · exact ⟨by decide +kernel, by decide +kernel, by decide +kernel, trivial, by decide +kernel,
      trivial⟩
  · -- Only the first packet finds its successor in the buffer, alone there.
    refine ⟨fun h => absurd h (by decide), fun _ p _ => by decide +kernel, fun _ p hp => ?_,
      trivial, fun _ p hp => ?_, trivial⟩ <;> cases hp

/-- The packets numbered 65535 and 0 arrive ahead of the one numbered 65534. -/
def wrapRun : List Event :=
  [.packet 1 (dataDatagram 65535 2) 0, .packet 2 (dataDatagram 0 3) 0,
    .packet 0 (dataDatagram 65534 1) 0]

/-- When 65534 arrives the packet 65535 is due, but the reorder buffer starts with 0: the loop stops
there and 65535 stays in the buffer. -/
theorem receive_wrap_counterexample :
    Along step (Delivers 65534 [[1], [2], [3]]) ⟨receiverAt 65533, 0, []⟩ wrapRun ∧
      ¬Visits step (Intact 65533 [[1], [2], [3]] []) ⟨receiverAt 65533, 0, []⟩ wrapRun := by
  constructor
  · refine ⟨⟨⟨_, _, rfl, rfl, rfl, rfl⟩, ?_⟩, ⟨⟨_, _, rfl, rfl, rfl, rfl⟩, ?_⟩,
      ⟨⟨_, _, rfl, rfl, rfl, rfl⟩, ?_⟩, trivial⟩ <;> omega
  · intro h
    obtain ⟨-, -, -, -, hnone⟩ := h.last
    exact absurd hnone (by decide +kernel)

end FluxCore.Utp
