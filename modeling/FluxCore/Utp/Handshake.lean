import FluxCore.Utp.System
import FluxCore.Utp.SendStream
import FluxCore.Utp.Reassembly

/-!
# Acknowledgements through the handshake

The system of `System.lean`, observed: the responder's stream, how far the initiator's `ack` has
advanced in it, and what has been read from the initiator. `Truthful` says that the initiator
acknowledges only what it holds. The invariant `Good` has one phase for an initiator whose SYN is
unanswered, one for an initiator that gave up, and one for an established initiator, with what may
be under way in each.
-/

namespace FluxCore.Utp

/-- The responder's packets, as they arrive at the initiator. -/
inductive RespPacket (first : UInt16) (sent : List Bytes) (fin : Prop) (hdr : PacketHeader)
    (payload : Bytes) : Prop where
  | syn (type : hdr.type = ST_SYN)
  /-- While no data has been sent, the next number is the first one. -/
  | state (type : hdr.type = ST_STATE) (seqNr : sent = [] → hdr.seqNr = first)
  | fin (type : hdr.type = ST_FIN) (out : fin) (seqNr : hdr.seqNr = seqNo first sent.length)
  | data (type : hdr.type = ST_DATA) (mem : (hdr.seqNr, payload) ∈ numbered first sent)

/-- The initiator before its SYN is answered. -/
structure Waiting (a : UtpConnection) : Prop where
  state : a.state = .synSent
  synAcked : a.synAcked = false
  ack : a.ack = 0
  recvOut : a.recvOut = []
  recvReorder : a.recvReorder.entries = []
  eof : a.eof = false
  unacked : a.unacked = []
  finSent : a.finSent = false
  finPending : a.finPending = false
  ackPending : a.ackPending = false

/-- The initiator after it closed without an answer. A FIN may still be recorded. -/
structure GaveUp (a : UtpConnection) : Prop where
  state : a.state = .closed
  synAcked : a.synAcked = false
  ack : a.ack = 0 ∨ a.eof = true
  recvOut : a.recvOut = []
  unacked : a.unacked = []
  finSent : a.finSent = false

/-- The initiator after the answer: at position `pos` of the responder's stream, or one behind its
end once the FIN is recorded. -/
structure Established (first : UInt16) (sent : List Bytes) (pos : Nat) (taken : Bytes) (fin : Prop)
    (a : UtpConnection) : Prop where
  synAcked : a.synAcked = true
  answered : a.state ≠ .synSent ∧ a.state ≠ .synRecv
  stream :
    a.eof = false ∧ pos ≤ sent.length ∧ Reassembles first sent [] taken pos a ∨
    a.eof = true ∧ pos = sent.length + 1 ∧ a.ack + 1 = seqNo first pos ∧
      taken ++ a.recvOut = sent.flatten ∧ fin

/-- Nothing has been sent or read, and the responder has not left the handshake. -/
structure Quiet (sent : List Bytes) (taken : Bytes) (ob : Option UtpConnection) : Prop where
  sent : sent = []
  taken : taken = []
  resp : ∀ b, ob = some b → b.state ≠ .connected

/-- The phases of the initiator `a`, with what it has put out (`oi`). -/
inductive Phase (first : UInt16) (sent : List Bytes) (pos : Nat) (taken : Bytes) (a : UtpConnection)
    (ob : Option UtpConnection) (oi : Bytes → Prop) : Prop where
  | waiting (h : Waiting a) (quiet : Quiet sent taken ob)
    (out : ∀ d, oi d → Parses (fun hdr _ => hdr.type = ST_SYN) d)
  | gaveUp (h : GaveUp a) (quiet : Quiet sent taken ob)
    (out : ∀ d, oi d → Parses (fun hdr _ => hdr.type ≠ ST_DATA ∧ hdr.type ≠ ST_FIN) d)
  | established (b : UtpConnection) (hb : ob = some b)
    (h : Established first sent pos taken (b.finSent = true) a)
    (out : ∀ d, oi d → Parses
      (fun hdr _ => hdr.type = ST_SYN ∨ ∃ k ≤ pos, hdr.ackNr + 1 = seqNo first k) d)
    (acked : sent.length ≤ pos + b.unacked.length)

structure Good (first : UInt16) (sent : List Bytes) (pos : Nat) (taken : Bytes) (a : UtpConnection)
    (ob : Option UtpConnection) (oi orr : Bytes → Prop) : Prop where
  phase : Phase first sent pos taken a ob oi
  resp : ∀ b, ob = some b → Sends first sent b
  respOut : ∀ d, orr d → ∃ b, ob = some b ∧ Parses (RespPacket first sent (b.finSent = true)) d

variable {first : UInt16} {sent : List Bytes} {pos : Nat} {taken : Bytes} {a a' : UtpConnection}
  {ob : Option UtpConnection} {oi oi' orr orr' : Bytes → Prop}

theorem Phase.mono (h : Phase first sent pos taken a ob oi) (hoi : ∀ d, oi' d → oi d) :
    Phase first sent pos taken a ob oi' := by
  cases h with
  | waiting h quiet out => exact .waiting h quiet fun d hd => out d (hoi d hd)
  | gaveUp h quiet out => exact .gaveUp h quiet fun d hd => out d (hoi d hd)
  | established b hb h out acked => exact .established b hb h (fun d hd => out d (hoi d hd)) acked

theorem Good.mono (h : Good first sent pos taken a ob oi orr) (hoi : ∀ d, oi' d → oi d)
    (hor : ∀ d, orr' d → orr d) : Good first sent pos taken a ob oi' orr' :=
  ⟨h.phase.mono hoi, h.resp, fun d hd => h.respOut d (hor d hd)⟩

/-! ## The owner of the initiator -/

/-- A change of the initiator that leaves the received stream and the answer to its SYN alone. -/
theorem Established.congr {fin : Prop} (h : Established first sent pos taken fin a)
    (hin : a'.incoming = a.incoming) (hsyn : a'.synAcked = a.synAcked)
    (hstate : a'.state = a.state ∨ a'.state = .finSent ∨ a'.state = .closed) :
    Established first sent pos taken fin a' := by
  refine ⟨hsyn.trans h.synAcked, ?_, ?_⟩
  · rcases hstate with hs | hs | hs
    · rw [hs]; exact h.answered
    · rw [hs]; decide
    · rw [hs]; decide
  · have heof : a'.eof = a.eof := congrArg Incoming.eof hin
    have hack : a'.ack = a.ack := congrArg Incoming.ack hin
    have hout : a'.recvOut = a.recvOut := congrArg Incoming.recvOut hin
    rw [heof, hack, hout]
    exact h.stream.imp (fun ⟨h₁, h₂, h₃⟩ => ⟨h₁, h₂, h₃.congr hin⟩) id

/-- What an established initiator puts out acknowledges the position it stands at. -/
theorem Established.ackNr {fin : Prop} (h : Established first sent pos taken fin a) {d : Bytes}
    (hd : Parses (Says a) d) :
    Parses (fun hdr _ => hdr.type = ST_SYN ∨ ∃ k ≤ pos, hdr.ackNr + 1 = seqNo first k) d := by
  refine hd.mono fun hdr payload hs => .inr ⟨pos, le_rfl, ?_⟩
  rw [hs.ackNr]
  rcases h.stream with ⟨-, -, hr⟩ | ⟨-, -, hnext, -⟩
  · exact hr.next
  · exact hnext

/-- What an initiator without data puts out is neither data nor a FIN. -/
theorem says_not_data (hun : a.unacked = []) (hfin : a.finSent = false) {d : Bytes}
    (hd : Parses (Says a) d) :
    Parses (fun hdr _ => hdr.type ≠ ST_DATA ∧ hdr.type ≠ ST_FIN) d := by
  refine hd.mono fun hdr payload hs => ?_
  cases hs.content with
  | syn ht _ => rw [ht]; decide
  | state ht _ => rw [ht]; decide
  | fin _ hf _ => rw [hfin] at hf; cases hf
  | data _ hm => rw [hun] at hm; cases hm

/-- The position the initiator stands at after a step from `a` to `a'`. -/
def advance (pos : Nat) (a a' : UtpConnection) : Nat :=
  if a.synAcked then pos + (a'.ack - a.ack).toNat else 0

theorem advance_of_eq (h : a.synAcked = true) (hack : a'.ack = a.ack) : advance pos a a' = pos := by
  simp [advance, h, hack]

theorem Waiting.tick (h : Waiting a) (nowUs : UInt32) :
    Waiting (a.processTick nowUs) ∨ GaveUp (a.processTick nowUs) := by
  rcases UtpConnection.processTick_synSent h.state h.finPending h.ackPending nowUs with heq | heq
  · rw [heq]
    have hcore := a.core_synTimeout nowUs
    simp only [UtpConnection.core, Core.mk.injEq, UtpConnection.incoming, Incoming.mk.injEq,
      UtpConnection.outgoing, Outgoing.mk.injEq] at hcore
    obtain ⟨⟨hack, hout, hreorder, -, heof⟩, ⟨-, -, -, -, -, -, -, -, hfs, hfp⟩, hun, -, hsyn⟩ := hcore
    rcases a.synTimeout_state nowUs with hst | hst
    · exact .inl ⟨hst.trans h.state, hsyn.trans h.synAcked, hack.trans h.ack, hout.trans h.recvOut,
        by rw [hreorder]; exact h.recvReorder, heof.trans h.eof, hun.trans h.unacked,
        hfs.trans h.finSent, hfp.trans h.finPending,
        (a.synTimeout_ackPending nowUs).trans h.ackPending⟩
    · exact .inr ⟨hst, hsyn.trans h.synAcked, .inl (hack.trans h.ack), hout.trans h.recvOut,
        hun.trans h.unacked, hfs.trans h.finSent⟩
  · rw [heq]
    exact .inl ⟨h.state, h.synAcked, h.ack, h.recvOut, h.recvReorder, h.eof, h.unacked, h.finSent,
      h.finPending, h.ackPending⟩

theorem Good.tickIni (h : Good first sent pos taken a ob oi orr) (nowUs : UInt32) :
    Good first sent (advance pos a (a.processTick nowUs)) taken (a.processTick nowUs) ob
      (Adds oi a (a.processTick nowUs)) orr := by
  refine ⟨?_, h.resp, h.respOut⟩
  cases h.phase with
  | waiting hw quiet out =>
    have hsyn := a.processTick_emits_syn hw.state hw.ackPending hw.finPending nowUs
    rcases hw.tick nowUs with hw' | hg
    · exact .waiting hw' quiet fun d hd => hd.cases hsyn (out d) id
    · refine .gaveUp hg quiet fun d hd => Parses.mono (hd.cases hsyn (out d) id) ?_
      intro hdr _ ht
      rw [ht]
      decide
  | gaveUp hg quiet out =>
    rw [UtpConnection.processTick_closed hg.state]
    exact .gaveUp hg quiet fun d hd => hd.cases (P := fun _ _ => False) (.of_eq rfl) (out d)
      fun ⟨_, _, _, hf⟩ => hf.elim
  | established b hb he out acked =>
    have he' := he.congr (a.processTick_incoming nowUs) (a.processTick_synAcked nowUs)
      (a.processTick_state nowUs)
    have hack : (a.processTick nowUs).ack = a.ack :=
      congrArg Incoming.ack (a.processTick_incoming nowUs)
    rw [advance_of_eq he.synAcked hack]
    exact .established b hb he' (fun d hd => hd.cases (a.processTick_emits nowUs) (out d) he'.ackNr)
      acked

theorem Good.writeIni (h : Good first sent pos taken a ob oi orr) (data : Bytes) :
    Good first sent (advance pos a (a.write data).2) taken (a.write data).2 ob
      (Adds oi a (a.write data).2) orr := by
  have hcore := a.core_write data
  have hin : (a.write data).2.incoming = a.incoming := congrArg Core.incoming hcore
  refine ⟨Phase.mono ?_ fun d hd => hd.of_outbox_eq (a.write_outbox data), h.resp, h.respOut⟩
  cases h.phase with
  | waiting hw quiet out =>
    refine .waiting ?_ quiet out
    unfold UtpConnection.write
    split <;> exact ⟨hw.state, hw.synAcked, hw.ack, hw.recvOut, hw.recvReorder, hw.eof, hw.unacked,
      hw.finSent, hw.finPending, hw.ackPending⟩
  | gaveUp hg quiet out =>
    refine .gaveUp ?_ quiet out
    unfold UtpConnection.write
    split <;> exact ⟨hg.state, hg.synAcked, hg.ack, hg.recvOut, hg.unacked, hg.finSent⟩
  | established b hb he out acked =>
    rw [advance_of_eq he.synAcked (congrArg Incoming.ack hin)]
    exact .established b hb (he.congr hin (congrArg Core.synAcked hcore)
      (.inl (congrArg Core.state hcore))) out acked

theorem Good.closeIni (h : Good first sent pos taken a ob oi orr) :
    Good first sent (advance pos a a.close) taken a.close ob (Adds oi a a.close) orr := by
  have hcore := a.core_close
  have hin : a.close.incoming = a.incoming := congrArg Core.incoming hcore
  refine ⟨Phase.mono ?_ fun d hd => hd.of_outbox_eq a.close_outbox, h.resp, h.respOut⟩
  cases h.phase with
  | waiting hw quiet out =>
    have hclose : a.close = { a with state := .closed } := by
      simp [UtpConnection.close, hw.finPending, hw.finSent, hw.state]
    rw [hclose]
    refine .gaveUp ⟨rfl, hw.synAcked, .inl hw.ack, hw.recvOut, hw.unacked, hw.finSent⟩ quiet
      fun d hd => (out d hd).mono fun hdr _ ht => ?_
    rw [ht]
    decide
  | gaveUp hg quiet out =>
    have hclose : a.close = a := by simp [UtpConnection.close, hg.state]
    rw [hclose]
    exact .gaveUp hg quiet out
  | established b hb he out acked =>
    rw [advance_of_eq he.synAcked (congrArg Incoming.ack hin)]
    exact .established b hb (he.congr hin (congrArg Core.synAcked hcore)
      (a.close_state.imp_right .inr)) out acked

theorem Established.read {fin : Prop} (h : Established first sent pos taken fin a) (cap : Nat) :
    Established first sent pos (taken ++ (a.read cap).1) fin (a.read cap).2 := by
  refine ⟨by simpa using h.synAcked, by simpa using h.answered, ?_⟩
  rw [a.read_eof, a.read_ack, List.append_assoc, a.read_append]
  exact h.stream.imp (fun ⟨h₁, h₂, h₃⟩ => ⟨h₁, h₂, h₃.read cap⟩) id

theorem Good.readIni (h : Good first sent pos taken a ob oi orr) (cap : Nat) :
    Good first sent (advance pos a (a.read cap).2) (taken ++ (a.read cap).1) (a.read cap).2 ob
      (Adds oi a (a.read cap).2) orr := by
  refine ⟨Phase.mono ?_ fun d hd => hd.of_outbox_eq (a.read_outbox cap), h.resp, h.respOut⟩
  have hquiet : a.recvOut = [] → Quiet sent taken ob →
      Quiet sent (taken ++ (a.read cap).1) ob := fun hout hq => by
    have hread := a.read_append cap
    rw [hout] at hread
    exact ⟨hq.sent, by rw [hq.taken, (List.append_eq_nil_iff.mp hread).1]; rfl, hq.resp⟩
  cases h.phase with
  | waiting hw quiet out =>
    refine .waiting ?_ (hquiet hw.recvOut quiet) out
    have hack : (a.read cap).2.ackPending = a.ackPending := by
      unfold UtpConnection.read
      dsimp only
      split <;> rfl
    have hout := a.read_outgoing cap
    simp only [UtpConnection.outgoing, Outgoing.mk.injEq] at hout
    obtain ⟨-, -, -, -, -, -, -, -, hfs, hfp⟩ := hout
    exact ⟨by simpa using hw.state, by simpa using hw.synAcked, by simpa using hw.ack,
      by simp [hw.recvOut], by simpa using hw.recvReorder, by simpa using hw.eof,
      by simpa using hw.unacked, hfs.trans hw.finSent, hfp.trans hw.finPending,
      hack.trans hw.ackPending⟩
  | gaveUp hg quiet out =>
    refine .gaveUp ?_ (hquiet hg.recvOut quiet) out
    exact ⟨by simpa using hg.state, by simpa using hg.synAcked, by simpa using hg.ack,
      by simp [hg.recvOut], by simpa using hg.unacked,
      (congrArg Outgoing.finSent (a.read_outgoing cap)).trans hg.finSent⟩
  | established b hb he out acked =>
    rw [advance_of_eq he.synAcked (a.read_ack cap)]
    exact .established b hb (he.read cap) out acked

/-! ## The owner of the responder -/

variable {b b' : UtpConnection} {chunks : List Bytes} {fin fin' : Prop} {hdr : PacketHeader}
  {payload : Bytes}

theorem RespPacket.append (h : RespPacket first sent fin hdr payload)
    (hfin : fin → chunks = [] ∧ fin') : RespPacket first (sent ++ chunks) fin' hdr payload := by
  cases h with
  | syn ht => exact .syn ht
  | state ht hs => exact .state ht fun hn => hs (List.append_eq_nil_iff.mp hn).1
  | fin ht hf hs =>
    obtain ⟨rfl, hf'⟩ := hfin hf
    exact .fin ht hf' (by rwa [List.append_nil])
  | data ht hm => exact .data ht (mem_numbered_append hm)

theorem RespPacket.of_content (hb : Sends first sent b) (h : Says b hdr payload) :
    RespPacket first sent (b.finSent = true) hdr payload := by
  cases h.content with
  | syn ht _ => exact .syn ht
  | state ht hs => exact .state ht fun hn => by rw [hs, hb.seq, hn]; exact seqNo_zero first
  | fin ht hf hs => exact .fin ht hf (by rw [hs, hb.finSeq hf, hb.seq])
  | data ht hm => exact .data ht (hb.queued.mem hm)

theorem Established.append (h : Established first sent pos taken fin a)
    (hfin : fin → chunks = [] ∧ fin') : Established first (sent ++ chunks) pos taken fin' a := by
  refine ⟨h.synAcked, h.answered, ?_⟩
  rcases h.stream with ⟨heof, hpos, hr⟩ | ⟨heof, hpos, hnext, hout, hf⟩
  · exact .inl ⟨heof, by rw [List.length_append]; omega, hr.append hpos chunks⟩
  · obtain ⟨rfl, hf'⟩ := hfin hf
    rw [List.append_nil]
    exact .inr ⟨heof, hpos, hnext, hout, hf'⟩

theorem respOut_change (h : ∀ d, orr d → Parses (RespPacket first sent (b.finSent = true)) d)
    (hs : Sends first (sent ++ chunks) b')
    (hfin : b.finSent = true → chunks = [] ∧ b'.finSent = true) (hemits : Emits b b' (Says b')) :
    ∀ d, Adds orr b b' d → Parses (RespPacket first (sent ++ chunks) (b'.finSent = true)) d :=
  fun d hd => hd.cases hemits (fun ho => (h d ho).mono fun _ _ hp => hp.append hfin)
    fun hn => hn.mono fun _ _ hp => .of_content hs hp

theorem Good.respOut_some (h : Good first sent pos taken a (some b) oi orr) :
    ∀ d, orr d → Parses (RespPacket first sent (b.finSent = true)) d := by
  intro d hd
  obtain ⟨b', hb', hp⟩ := h.respOut d hd
  cases hb'
  exact hp

/-- A call of the responder's owner that puts `chunks` on the end of the stream. -/
theorem Good.actResp (h : Good first sent pos taken a (some b) oi orr)
    (hs : Sends first (sent ++ chunks) b')
    (hfin : b.finSent = true → chunks = [] ∧ b'.finSent = true)
    (hlen : b'.unacked.length = b.unacked.length + chunks.length)
    (hquiet : b.state ≠ .connected → chunks = [] ∧ b'.state ≠ .connected)
    (hemits : Emits b b' (Says b')) :
    Good first (sent ++ chunks) pos taken a (some b') oi (Adds orr b b') := by
  have hq : Quiet sent taken (some b) → Quiet (sent ++ chunks) taken (some b') := fun hq => by
    obtain ⟨rfl, hne⟩ := hquiet (hq.resp b rfl)
    exact ⟨by rw [hq.sent]; rfl, hq.taken, fun b'' hb'' => by cases hb''; exact hne⟩
  refine ⟨?_, fun b'' hb'' => by cases hb''; exact hs,
    fun d hd => ⟨b', rfl, respOut_change h.respOut_some hs hfin hemits d hd⟩⟩
  cases h.phase with
  | waiting hw quiet out => exact .waiting hw (hq quiet) out
  | gaveUp hg quiet out => exact .gaveUp hg (hq quiet) out
  | established b₀ hb he out acked =>
    cases hb
    refine .established b' rfl (he.append hfin) out ?_
    rw [List.length_append, hlen]
    omega

theorem Good.tickResp (h : Good first sent pos taken a (some b) oi orr) (nowUs : UInt32)
    (hlast : b.finPending = true ∨ b.finSent = true → b.sendsData nowUs = false) :
    Good first (sent ++ newPayloads b (b.processTick nowUs)) pos taken a
      (some (b.processTick nowUs)) oi (Adds orr b (b.processTick nowUs)) := by
  have hb := h.resp b rfl
  obtain ⟨hs, hnone⟩ := hb.processTick nowUs hlast
  refine h.actResp hs (fun hf => ⟨hnone hf, b.processTick_finSent nowUs hf⟩) ?_
    (fun hne => ⟨hb.quiet_tick hne nowUs hlast, ?_⟩) (b.processTick_emits nowUs)
  · obtain ⟨more, hun⟩ := b.processTick_unacked nowUs
    rw [newPayloads, hun, List.drop_left, List.length_append, List.length_map]
  · rcases b.processTick_state nowUs with hst | hst | hst
    · rw [hst]; exact hne
    · rw [hst]; decide
    · rw [hst]; decide

/-- A call of the responder's owner other than a tick puts nothing on the end of the stream. -/
theorem Good.callResp (h : Good first sent pos taken a (some b) oi orr) (hs : Sends first sent b')
    (hfin : b'.finSent = b.finSent) (hun : b'.unacked = b.unacked)
    (hstate : b'.state = b.state ∨ b'.state = .closed) (hout : b'.outbox = b.outbox) :
    Good first (sent ++ newPayloads b b') pos taken a (some b') oi (Adds orr b b') := by
  have hnone : newPayloads b b' = [] := newPayloads_of_suffix (hun ▸ List.suffix_refl _)
  rw [hnone]
  refine h.actResp (by rwa [List.append_nil]) (fun hf => ⟨rfl, hfin.trans hf⟩) (by rw [hun]; rfl)
    (fun hne => ⟨rfl, ?_⟩) (.of_eq hout)
  rcases hstate with hst | hst
  · rwa [hst]
  · rw [hst]; decide

theorem Good.runResp (h : Good first sent pos taken a (some b) oi orr) (act : Act)
    (hlast : ∀ nowUs, act = .tick nowUs → b.finPending = true ∨ b.finSent = true →
      b.sendsData nowUs = false) :
    Good first (sent ++ newPayloads b (act.run b)) pos taken a (some (act.run b)) oi
      (Adds orr b (act.run b)) := by
  have hb := h.resp b rfl
  cases act with
  | write data =>
    have hcore := b.core_write data
    exact h.callResp (hb.write data) (congrArg (·.outgoing.finSent) hcore)
      (congrArg Core.unacked hcore) (.inl (congrArg Core.state hcore)) (b.write_outbox data)
  | read cap =>
    exact h.callResp (hb.of_outgoing (b.read_outgoing cap) (b.read_unacked cap ▸ List.suffix_refl _)
      (.inl (b.read_state cap))) (congrArg Outgoing.finSent (b.read_outgoing cap))
      (b.read_unacked cap) (.inl (b.read_state cap)) (b.read_outbox cap)
  | close =>
    have hcore := b.core_close
    exact h.callResp hb.close (congrArg (·.outgoing.finSent) hcore) (congrArg Core.unacked hcore)
      b.close_state b.close_outbox
  | tick nowUs => exact h.tickResp nowUs (hlast nowUs rfl)

/-! ## The hand-over of an outbox -/

theorem Good.drainIni (h : Good first sent pos taken a ob oi orr) :
    Good first sent (advance pos a a.drainOutbox.2) taken a.drainOutbox.2 ob oi orr := by
  refine ⟨?_, h.resp, h.respOut⟩
  cases h.phase with
  | waiting hw quiet out =>
    exact .waiting ⟨hw.state, hw.synAcked, hw.ack, hw.recvOut, hw.recvReorder, hw.eof, hw.unacked,
      hw.finSent, hw.finPending, hw.ackPending⟩ quiet out
  | gaveUp hg quiet out =>
    exact .gaveUp ⟨hg.state, hg.synAcked, hg.ack, hg.recvOut, hg.unacked, hg.finSent⟩ quiet out
  | established b hb he out acked =>
    have hpos : advance pos a a.drainOutbox.2 = pos := advance_of_eq he.synAcked rfl
    rw [hpos]
    exact .established b hb (he.congr rfl rfl (.inl rfl)) out acked

theorem Good.drainResp (h : Good first sent pos taken a (some b) oi orr) :
    Good first (sent ++ newPayloads b b.drainOutbox.2) pos taken a (some b.drainOutbox.2) oi orr := by
  have hnone : newPayloads b b.drainOutbox.2 = [] := newPayloads_of_suffix (List.suffix_refl _)
  have hs : Sends first sent b.drainOutbox.2 :=
    (h.resp b rfl).of_outgoing rfl (List.suffix_refl _) (.inl rfl)
  have hq : Quiet sent taken (some b) → Quiet sent taken (some b.drainOutbox.2) := fun hq =>
    ⟨hq.sent, hq.taken, fun b' hb' => by cases hb'; exact hq.resp b rfl⟩
  rw [hnone, List.append_nil]
  refine ⟨?_, fun b' hb' => by cases hb'; exact hs, fun d hd => ⟨_, rfl, h.respOut_some d hd⟩⟩
  cases h.phase with
  | waiting hw quiet out => exact .waiting hw (hq quiet) out
  | gaveUp hg quiet out => exact .gaveUp hg (hq quiet) out
  | established b₀ hb he out acked =>
    cases hb
    exact .established _ rfl he out acked

/-! ## Packets that reach the responder -/

/-- An acknowledgement of the initiator's, if it names a position the initiator has reached at all,
names one that is less than `2^15` behind the first packet waiting. -/
def AckNear (first : UInt16) (sent : List Bytes) (pos : Nat) (b : UtpConnection)
    (hdr : PacketHeader) : Prop :=
  (∃ k ≤ pos, hdr.ackNr + 1 = seqNo first k) →
    ∃ k ≤ pos, hdr.ackNr + 1 = seqNo first k ∧
      sent.length - b.unacked.length + 1 < k + 2 ^ 15

theorem Good.receiveResp (h : Good first sent pos taken a (some b) oi orr) {d : Bytes}
    (hd : oi d) (nowUs : UInt32)
    (hnear : ∀ hdr exts, parsePacket d = some (hdr, exts) → hdr.type ≠ ST_SYN →
      AckNear first sent pos b hdr) :
    Good first sent pos taken a (some (b.handlePacket d nowUs)) oi
      (Adds orr b (b.handlePacket d nowUs)) := by
  have hb := h.resp b rfl
  have hs := hb.handlePacket d nowUs
  have hfin : (b.handlePacket d nowUs).finSent = b.finSent :=
    congrArg Outgoing.finSent (b.handlePacket_outgoing d nowUs)
  have hs' : Sends first (sent ++ []) (b.handlePacket d nowUs) := by rwa [List.append_nil]
  have hout := respOut_change h.respOut_some hs'
    (fun hf => ⟨rfl, hfin ▸ hf⟩) (b.handlePacket_emits d nowUs)
  rw [List.append_nil] at hout
  refine ⟨?_, fun b' hb' => by cases hb'; exact hs, fun d hd => ⟨_, rfl, hout d hd⟩⟩
  have hq : Quiet sent taken (some b) →
      Parses (fun hdr _ => hdr.type ≠ ST_DATA ∧ hdr.type ≠ ST_FIN) d →
      Quiet sent taken (some (b.handlePacket d nowUs)) := by
    rintro hq ⟨hdr, exts, hparse, hdata, hfin⟩
    refine ⟨hq.sent, hq.taken, fun b' hb' => ?_⟩
    cases hb'
    rw [UtpConnection.handlePacket_eq hparse]
    rcases UtpConnection.handleParsed_state_of_control hb.state hdata hfin
      (UtpConnection.sackOf exts) (payloadOf d exts) nowUs with hst | hst
    · rw [hst]; exact hq.resp b rfl
    · rw [hst]; decide
  cases h.phase with
  | waiting hw quiet out =>
    exact .waiting hw (hq quiet ((out d hd).mono fun hdr _ ht => by rw [ht]; decide)) out
  | gaveUp hg quiet out => exact .gaveUp hg (hq quiet (out d hd)) out
  | established b₀ hb₀ he out acked =>
    cases hb₀
    refine .established _ rfl (hfin.symm ▸ he) out ?_
    obtain ⟨hdr, exts, hparse, hack⟩ := out d hd
    rw [UtpConnection.handlePacket_eq hparse, UtpConnection.handleParsed_unacked,
      UtpConnection.unackedAfter]
    split
    next ht =>
      have hsyn : hdr.type ≠ ST_SYN := by rcases ht with ht | ht | ht <;> rw [ht] <;> decide
      obtain ⟨k, hk, ha, hlt⟩ := hnear hdr exts hparse hsyn (hack.resolve_left hsyn)
      have := sent_le_of_ack ha hb.queued hlt
      omega
    next => exact acked

/-- The SYN reaches the responder's side for the first time. -/
theorem Good.accept (h : Good first sent pos taken a none oi orr) (addr : String)
    (port peerRecvId ackNr : UInt16) (nowUs : UInt32) :
    Good (UtpConnection.responder addr port peerRecvId ackNr nowUs).seq sent pos taken a
      (some (.responder addr port peerRecvId ackNr nowUs)) oi
      (fun d => d ∈ (UtpConnection.responder addr port peerRecvId ackNr nowUs).outbox) := by
  have hsent : sent = [] := by
    cases h.phase with
    | waiting _ quiet _ => exact quiet.sent
    | gaveUp _ quiet _ => exact quiet.sent
    | established b hb _ _ _ => cases hb
  have hs : Sends (UtpConnection.responder addr port peerRecvId ackNr nowUs).seq sent
      (.responder addr port peerRecvId ackNr nowUs) := by
    rw [hsent]
    refine ⟨(seqNo_zero _).symm, List.nil_suffix, fun hf => ?_, fun hst => ?_, fun hst => ?_⟩
    · cases (show false = true from hf)
    · cases (show State.synRecv = .synSent from hst)
    · cases (show State.synRecv = .finSent from hst)
  have hquiet : Quiet sent taken none →
      Quiet sent taken (some (.responder addr port peerRecvId ackNr nowUs)) :=
    fun hq => ⟨hq.sent, hq.taken, fun b hb hst => by
      cases hb
      cases (show State.synRecv = .connected from hst)⟩
  refine ⟨?_, fun b hb => by cases hb; exact hs, fun d hd => ⟨_, rfl, ?_⟩⟩
  · cases h.phase with
    | waiting hw quiet out => exact .waiting hw (hquiet quiet) out
    | gaveUp hg quiet out => exact .gaveUp hg (hquiet quiet) out
    | established b hb _ _ _ => cases hb
  · exact (UtpConnection.responder_outbox _ _ _ _ _ d hd).mono fun _ _ hp => .of_content hs hp.2

/-! ## Packets that reach the initiator -/

/-- A data packet, if it is a packet of the stream at all, is one within `2^15` of the position the
initiator stands at. -/
def DataNear (first : UInt16) (sent : List Bytes) (pos : Nat) (hdr : PacketHeader)
    (payload : Bytes) : Prop :=
  (∃ j, sent[j]? = some payload ∧ hdr.seqNr = seqNo first j) →
    ∃ j, sent[j]? = some payload ∧ hdr.seqNr = seqNo first j ∧ j + 1 < pos + 2 ^ 15 ∧
      (j < pos → (pos - (j + 1)) % 2 ^ 16 ≤ 2 ^ 15)

/-- What a packet of the responder's must meet for the initiator to keep its account straight. -/
structure Arrives (first : UInt16) (sent : List Bytes) (pos : Nat) (a : UtpConnection)
    (hdr : PacketHeader) (payload : Bytes) : Prop where
  /-- The answer to the SYN is an ST_STATE. -/
  answer : a.state = .synSent → hdr.type ≠ ST_DATA ∧ hdr.type ≠ ST_FIN
  data : a.synAcked = true → hdr.type = ST_DATA → DataNear first sent pos hdr payload
  drains : a.synAcked = true → hdr.type = ST_DATA → hdr.seqNr = a.ack + 1 →
    DrainsFrom a (a.ack + 1 + 1)
  fin : a.synAcked = true → hdr.type = ST_FIN → sent.length < pos + 2 ^ 16

theorem advance_eq {n : Nat} (hsyn : a.synAcked = true) (ha : a.ack + 1 = seqNo first pos)
    (ha' : a'.ack + 1 = seqNo first n) (hle : pos ≤ n) (hlt : n < pos + 2 ^ 16) :
    advance pos a a' = n := by
  rw [advance, if_pos hsyn, eq_seqNo_of_succ_eq ha, eq_seqNo_of_succ_eq ha',
    toNat_seqNo_sub _ hle, Nat.mod_eq_of_lt (by omega)]
  omega

/-- The position of an established initiator does not change with a packet that leaves the received
stream alone. -/
theorem Established.unchanged (h : Established first sent pos taken fin a)
    (hin : a'.incoming = a.incoming) (hsyn : a'.synAcked = a.synAcked)
    (hstate : a'.state = a.state ∨ a'.state = .finSent ∨ a'.state = .closed) :
    Established first sent (advance pos a a') taken fin a' ∧ pos ≤ advance pos a a' := by
  rw [advance_of_eq h.synAcked (congrArg Incoming.ack hin)]
  exact ⟨h.congr hin hsyn hstate, le_rfl⟩

theorem Established.data (h : Established first sent pos taken fin a)
    (hd : DataNear first sent pos hdr payload)
    (hdrain : hdr.seqNr = a.ack + 1 → DrainsFrom a (a.ack + 1 + 1))
    (hmem : (hdr.seqNr, payload) ∈ numbered first sent) {c : UtpConnection}
    (hc : c.incoming = a.incoming) {nowUs : UInt32}
    (hin : a'.incoming = (c.onData hdr payload nowUs).incoming) (hsyn : a'.synAcked = a.synAcked)
    (hstate : a'.state = a.state ∨ a'.state = .finSent ∨ a'.state = .closed) :
    Established first sent (advance pos a a') taken fin a' ∧ pos ≤ advance pos a a' := by
  obtain ⟨j, hp, hs, hhi, hold⟩ := hd (by
    obtain ⟨j, hp, hs⟩ := mem_numbered.mp hmem
    exact ⟨j, hp, hs⟩)
  have hcack : c.ack = a.ack := congrArg Incoming.ack hc
  by_cases hne : payload = []
  · exact h.unchanged (hin.trans ((UtpConnection.onData_incoming_of_old (.inl hne) nowUs).trans hc))
      hsyn hstate
  rcases h.stream with ⟨heof, hpos, hr⟩ | ⟨heof, hpos, hnext, hout, hf⟩
  · have hdrain' : j = pos → DrainsFrom c (seqNo first (pos + 1)) := by
      rintro rfl
      have hreorder : c.recvReorder = a.recvReorder := congrArg Incoming.recvReorder hc
      have := hdrain (by rw [hs, hr.next])
      rwa [hr.next, ← seqNo_succ, DrainsFrom, ← hreorder] at this
    obtain ⟨n, hle, hlen, hlt, hr'⟩ := (hr.congr hc).onData hpos hs hp hne hhi hold hdrain' nowUs
    have hr'' := hr'.congr hin
    rw [advance_eq h.synAcked hr.next hr''.next hle (by omega)]
    have hst : a'.state ≠ .synSent ∧ a'.state ≠ .synRecv := by
      rcases hstate with hs | hs | hs
      · rw [hs]; exact h.answered
      · rw [hs]; decide
      · rw [hs]; decide
    have heof' : a'.eof = a.eof := by
      have h₁ : a'.eof = (c.onData hdr payload nowUs).eof := congrArg Incoming.eof hin
      have h₂ : c.eof = a.eof := congrArg Incoming.eof hc
      rw [h₁, c.onData_eof, h₂]
    exact ⟨⟨hsyn.trans h.synAcked, hst, .inl ⟨heof'.trans heof, hlen, hr''⟩⟩, hle⟩
  · have hj := (List.getElem?_eq_some_iff.mp hp).1
    have hle : seqLeq hdr.seqNr c.ack = true := by
      rw [hs, hcack]
      exact seqLeq_of_behind hnext (by omega) (hold (by omega))
    exact h.unchanged (hin.trans ((UtpConnection.onData_incoming_of_old (.inr hle) nowUs).trans hc))
      hsyn hstate

theorem Established.finPacket (h : Established first sent pos taken fin a) (hfin : fin)
    (hs : hdr.seqNr = seqNo first sent.length) (hnear : sent.length < pos + 2 ^ 16)
    {c : UtpConnection} (hc : c.incoming = a.incoming)
    (hin : a'.incoming = (c.onFin hdr).incoming) (hsyn : a'.synAcked = a.synAcked)
    (hstate : a'.state = a.state ∨ a'.state = .finSent ∨ a'.state = .closed) :
    Established first sent (advance pos a a') taken fin a' ∧ pos ≤ advance pos a a' := by
  have hcack : c.ack = a.ack := congrArg Incoming.ack hc
  have hceof : c.eof = a.eof := congrArg Incoming.eof hc
  rw [c.onFin_incoming, hcack, hceof, hc] at hin
  split at hin
  next hdue =>
    simp only [Bool.and_eq_true, decide_eq_true_iff, Bool.not_eq_true'] at hdue
    obtain ⟨hseq, heof⟩ := hdue
    rcases h.stream with ⟨-, hpos, hr⟩ | ⟨heof', -⟩
    · have hend : sent.length = pos :=
        (eq_next_iff hr.next hpos hnear).mp (hs.symm.trans hseq)
      have hnext : a'.ack + 1 = seqNo first (pos + 1) := by
        have hack : a'.ack = hdr.seqNr := congrArg Incoming.ack hin
        rw [hack, hseq, hr.next, seqNo_succ]
      rw [advance_eq h.synAcked hr.next hnext (by omega) (by omega)]
      have hst : a'.state ≠ .synSent ∧ a'.state ≠ .synRecv := by
        rcases hstate with hs | hs | hs
        · rw [hs]; exact h.answered
        · rw [hs]; decide
        · rw [hs]; decide
      refine ⟨⟨hsyn.trans h.synAcked, hst, .inr ⟨congrArg Incoming.eof hin, by omega, hnext, ?_,
        hfin⟩⟩, by omega⟩
      have hout : a'.recvOut = a.recvOut := congrArg Incoming.recvOut hin
      have := hr.stream
      rwa [← hout, List.nil_append, ← hend, List.take_length] at this
    · rw [heof] at heof'
      cases heof'
  next => exact h.unchanged hin hsyn hstate

/-- A packet of the responder's reaches the established initiator. -/
theorem Established.receive (h : Established first sent pos taken fin a)
    (hp : RespPacket first sent fin hdr payload) (harr : Arrives first sent pos a hdr payload)
    (sack : UInt32) (nowUs : UInt32) :
    Established first sent (advance pos a (a.handleParsed hdr sack payload nowUs)) taken fin
      (a.handleParsed hdr sack payload nowUs) ∧
      pos ≤ advance pos a (a.handleParsed hdr sack payload nowUs) := by
  have hsyn := @UtpConnection.handleParsed_synAcked_of_ne a hdr h.answered.1 sack payload nowUs
  have hstate : (a.handleParsed hdr sack payload nowUs).state = a.state ∨
      (a.handleParsed hdr sack payload nowUs).state = .finSent ∨
      (a.handleParsed hdr sack payload nowUs).state = .closed := by
    rcases a.handleParsed_state hdr sack payload nowUs with hst | hst | ⟨-, hst | hst⟩
    · exact .inl hst
    · exact .inr (.inr hst)
    · exact absurd hst h.answered.1
    · exact absurd hst h.answered.2
  have hnote := a.notePacket_incoming hdr nowUs
  have henter : (a.notePacket hdr nowUs).enterConnected hdr = a.notePacket hdr nowUs :=
    UtpConnection.enterConnected_of_ne (by simpa using h.answered.1) (by simpa using h.answered.2)
  cases hp with
  | syn ht =>
    exact h.unchanged (UtpConnection.handleParsed_incoming_other (by rw [ht]; decide)
      (by rw [ht]; decide) (by rw [ht]; decide) sack payload nowUs) hsyn hstate
  | state ht _ =>
    refine h.unchanged ?_ hsyn hstate
    rw [UtpConnection.handleParsed_incoming_state ht,
      UtpConnection.adoptState_of_ne (by simpa using h.answered.1), hnote]
  | fin ht hf hs =>
    have hin := UtpConnection.handleParsed_incoming_fin (c := a) ht sack payload nowUs
    rw [henter] at hin
    exact h.finPacket hf hs (harr.fin h.synAcked ht) hnote hin hsyn hstate
  | data ht hm =>
    have hin := UtpConnection.handleParsed_incoming_data (c := a) ht sack payload nowUs
    rw [henter] at hin
    exact h.data (harr.data h.synAcked ht) (harr.drains h.synAcked ht) hm hnote hin hsyn hstate

/-- The answer to the SYN puts the initiator at the start of the stream. -/
theorem Waiting.answer (h : Waiting a) (ht : hdr.type = ST_STATE) (hs : hdr.seqNr = first)
    (sack : UInt32) (nowUs : UInt32) :
    Established first [] (advance pos a (a.handleParsed hdr sack payload nowUs)) [] fin
      (a.handleParsed hdr sack payload nowUs) := by
  obtain ⟨hstate, hsyn, hin⟩ :=
    UtpConnection.handleParsed_answer h.state ht sack payload nowUs
  have hpos : advance pos a (a.handleParsed hdr sack payload nowUs) = 0 := by
    simp [advance, h.synAcked]
  rw [hpos]
  refine ⟨hsyn, ?_, .inl ⟨(congrArg Incoming.eof hin).trans h.eof, le_rfl, ?_, ?_, ?_⟩⟩
  · rcases hstate with hst | hst <;> rw [hst] <;> decide
  · have hack : (a.handleParsed hdr sack payload nowUs).ack = hdr.seqNr - 1 :=
      congrArg Incoming.ack hin
    rw [hack, hs, seqNo_zero, UInt16.sub_add_cancel]
  · exact (congrArg Incoming.recvOut hin).trans h.recvOut
  · intro e he
    have hreorder : (a.handleParsed hdr sack payload nowUs).recvReorder = a.recvReorder :=
      congrArg Incoming.recvReorder hin
    rw [hreorder, h.recvReorder] at he
    cases he

/-- A SYN is no answer. -/
theorem Waiting.syn (h : Waiting a) (ht : hdr.type = ST_SYN) (sack : UInt32) (nowUs : UInt32) :
    Waiting (a.handleParsed hdr sack payload nowUs) ∧
      (a.handleParsed hdr sack payload nowUs).outbox = a.outbox := by
  have hparsed : a.handleParsed hdr sack payload nowUs = a.notePacket hdr nowUs := by
    simp [UtpConnection.handleParsed, ht, ST_SYN, ST_RESET, UtpConnection.dispatchPacket, h.state,
      UtpConnection.flushAck, h.ackPending]
  rw [hparsed]
  have hcore := a.core_notePacket hdr nowUs
  simp only [UtpConnection.core, Core.mk.injEq, UtpConnection.incoming, Incoming.mk.injEq,
    UtpConnection.outgoing, Outgoing.mk.injEq] at hcore
  obtain ⟨⟨hack, hout, hreorder, -, heof⟩, ⟨-, -, -, -, -, -, -, -, hfs, hfp⟩, hun, hst, hsyn⟩ := hcore
  exact ⟨⟨hst.trans h.state, hsyn.trans h.synAcked, hack.trans h.ack, hout.trans h.recvOut,
    by rw [hreorder]; exact h.recvReorder, heof.trans h.eof, hun.trans h.unacked,
    hfs.trans h.finSent, hfp.trans h.finPending, by simpa using h.ackPending⟩,
    a.notePacket_outbox hdr nowUs⟩

/-- An initiator that gave up may still record a FIN, and nothing else. -/
theorem GaveUp.receive (h : GaveUp a) (hp : RespPacket first [] fin hdr payload) (sack : UInt32)
    (nowUs : UInt32) : GaveUp (a.handleParsed hdr sack payload nowUs) := by
  have hne : a.state ≠ .synSent := by rw [h.state]; decide
  have hne' : a.state ≠ .synRecv := by rw [h.state]; decide
  have hstate : (a.handleParsed hdr sack payload nowUs).state = .closed := by
    rcases a.handleParsed_state hdr sack payload nowUs with hst | hst | ⟨-, hst | hst⟩
    · exact hst.trans h.state
    · exact hst
    · exact absurd hst hne
    · exact absurd hst hne'
  have hun : (a.handleParsed hdr sack payload nowUs).unacked = [] := by
    have hsuffix := a.unackedAfter_suffix hdr
    rw [← a.handleParsed_unacked hdr sack payload nowUs, h.unacked] at hsuffix
    exact List.suffix_nil.mp hsuffix
  have hfin := congrArg Outgoing.finSent (a.handleParsed_outgoing hdr sack payload nowUs)
  have hsyn := @UtpConnection.handleParsed_synAcked_of_ne a hdr hne sack payload nowUs
  have hsame : (a.handleParsed hdr sack payload nowUs).incoming = a.incoming →
      GaveUp (a.handleParsed hdr sack payload nowUs) := by
    intro hin
    have hack : (a.handleParsed hdr sack payload nowUs).ack = a.ack := congrArg Incoming.ack hin
    have heof : (a.handleParsed hdr sack payload nowUs).eof = a.eof := congrArg Incoming.eof hin
    exact ⟨hstate, hsyn.trans h.synAcked, by rw [hack, heof]; exact h.ack,
      (congrArg Incoming.recvOut hin).trans h.recvOut, hun, hfin.trans h.finSent⟩
  have hnote := a.notePacket_incoming hdr nowUs
  cases hp with
  | syn ht =>
    exact hsame (UtpConnection.handleParsed_incoming_other (by rw [ht]; decide)
      (by rw [ht]; decide) (by rw [ht]; decide) sack payload nowUs)
  | state ht _ =>
    refine hsame ?_
    rw [UtpConnection.handleParsed_incoming_state ht,
      UtpConnection.adoptState_of_ne (by simpa using hne), hnote]
  | data _ hm => simp at hm
  | fin ht _ _ =>
    have hin := UtpConnection.handleParsed_incoming_fin (c := a) ht sack payload nowUs
    rw [UtpConnection.enterConnected_of_ne (by simpa using hne) (by simpa using hne'),
      UtpConnection.onFin_incoming, hnote] at hin
    split at hin
    · exact ⟨hstate, hsyn.trans h.synAcked, .inr (congrArg Incoming.eof hin),
        (congrArg Incoming.recvOut hin).trans h.recvOut, hun, hfin.trans h.finSent⟩
    · exact hsame hin

theorem Good.receiveIni (h : Good first sent pos taken a ob oi orr) {d : Bytes} (hd : orr d)
    (nowUs : UInt32)
    (harr : ∀ hdr exts, parsePacket d = some (hdr, exts) →
      Arrives first sent pos a hdr (payloadOf d exts)) :
    Good first sent (advance pos a (a.handlePacket d nowUs)) taken (a.handlePacket d nowUs) ob
      (Adds oi a (a.handlePacket d nowUs)) orr := by
  obtain ⟨b, rfl, hdr, exts, hparse, hp⟩ := h.respOut d hd
  have harr := harr hdr exts hparse
  have hemits := a.handlePacket_emits d nowUs
  rw [UtpConnection.handlePacket_eq hparse] at hemits ⊢
  refine ⟨?_, h.resp, h.respOut⟩
  cases h.phase with
  | waiting hw quiet out =>
    obtain ⟨hdata, hfin⟩ := harr.answer hw.state
    cases hp with
    | syn ht =>
      obtain ⟨hw', hout⟩ := @Waiting.syn a hdr (payloadOf d exts) hw ht (UtpConnection.sackOf exts) nowUs
      exact .waiting hw' quiet fun d hd => out d (hd.of_outbox_eq hout)
    | state ht hs =>
      obtain rfl := quiet.sent
      obtain rfl := quiet.taken
      have he : Established first [] (advance pos a (a.handleParsed hdr (UtpConnection.sackOf exts)
          (payloadOf d exts) nowUs)) [] (b.finSent = true) _ :=
        hw.answer ht (hs rfl) (UtpConnection.sackOf exts) nowUs
      exact .established b rfl he (fun d hd => hd.cases hemits
        (fun ho => (out d ho).mono fun _ _ ht => .inl ht) he.ackNr) (Nat.zero_le _)
    | fin ht _ _ => exact absurd ht hfin
    | data ht _ => exact absurd ht hdata
  | gaveUp hg quiet out =>
    obtain rfl := quiet.sent
    have hg' := hg.receive hp (UtpConnection.sackOf exts) nowUs
    exact .gaveUp hg' quiet fun d hd => hd.cases hemits (out d)
      (says_not_data hg'.unacked hg'.finSent)
  | established b₀ hb₀ he out acked =>
    cases hb₀
    obtain ⟨he', hle⟩ := he.receive hp harr (UtpConnection.sackOf exts) nowUs
    refine .established b rfl he' (fun d hd => hd.cases hemits (fun ho => (out d ho).mono ?_)
      he'.ackNr) (by omega)
    rintro hdr _ (ht | ⟨k, hk, hs⟩)
    · exact .inl ht
    · exact .inr ⟨k, hk.trans hle, hs⟩

end FluxCore.Utp
