import FluxCore.Utp.SendStream
import FluxCore.Utp.Calls

/-!
# Graceful close over whole runs

`Closing` follows one connection through any order of writes, reads, closes, ticks and received
datagrams, and records what it has accepted, the payloads it has put in ST_DATA packets, in the
order of their numbers, and the position in that stream which the number of the FIN stands for. A
close is graceful (`Graceful`) if what was accepted before it is in packets ahead of the FIN and no
packet takes the position of the FIN. A tick puts the FIN out before the data that waits and the
FIN does not consume its number, so this depends on what the windows let through: `graceful_iff`
gives the exact condition on the ticks, `close_before_data_counterexample` a run that breaks it.
-/

namespace FluxCore.Utp

structure Closing where
  conn : UtpConnection
  /-- The bytes `write` has accepted. -/
  accepted : Bytes := []
  /-- The payloads of the ST_DATA packets put out, in the order of their numbers. -/
  sent : List Bytes := []
  /-- How many of the accepted bytes came before `close` on the established connection. -/
  promised : Nat := 0
  /-- The position in `sent` whose number the FIN carries. -/
  finAt : Option Nat := none

namespace Closing

def step (s : Closing) : Call → Closing
  | .act (.write data) =>
    let (n, conn) := s.conn.write data
    { s with conn, accepted := s.accepted ++ data.take n }
  | .act .close =>
    let conn := s.conn.close
    { s with
      conn
      promised := if s.conn.state = .connected && conn.finPending && !s.conn.finPending
        then s.accepted.length else s.promised }
  | .act (.tick nowUs) =>
    let conn := s.conn.processTick nowUs
    { s with
      conn
      sent := s.sent ++ newPayloads s.conn conn
      finAt := if conn.finSent && !s.conn.finSent then some s.sent.length else s.finAt }
  | x => { s with conn := s.conn.call x }

/-- The datagram, if it is an ST_DATA packet, is one of the packets of the stream. -/
def IsOf (base : UInt16) (sent : List Bytes) : Bytes → Prop :=
  Parses fun hdr payload => hdr.type = ST_DATA → (hdr.seqNr, payload) ∈ numbered base sent

/-- Once the FIN is out, under the number of position `F`: the packets ahead of it hold every byte
accepted before the close, and no packet has that position or a later one. -/
structure GracefulAt (base : UInt16) (s : Closing) (F : Nat) : Prop where
  finSeq : s.conn.finSeq = seqNo base F
  last : s.sent.length ≤ F
  whole : s.accepted.take s.promised <+: (s.sent.take F).flatten
  outbox : ∀ d ∈ s.conn.outbox, IsOf base (s.sent.take F) d

def Graceful (base : UInt16) (s : Closing) : Prop := ∀ F, s.finAt = some F → GracefulAt base s F

/-- The tick that puts the FIN out finds every byte accepted before the close in a packet, and
neither it nor a later tick cuts a packet. -/
def FinLast (s : Closing) : Call → Prop
  | .act (.tick nowUs) => s.conn.state ≠ .closed →
    (s.conn.finPending → s.promised ≤ s.sent.flatten.length) ∧
      (s.conn.finPending ∨ s.conn.finSent → s.conn.sendsData nowUs = false)
  | _ => True

structure Inv (base : UInt16) (s : Closing) : Prop where
  seq : s.conn.seq = seqNo base s.sent.length
  accepted : s.accepted = s.sent.flatten ++ s.conn.pendingSend
  promised : s.promised ≤ s.accepted.length
  finSent : s.conn.finSent = s.finAt.isSome
  finPending : s.conn.finPending → s.conn.finSent = false
  fin : ∀ F, s.finAt = some F → s.conn.finSeq = seqNo base F ∧ F = s.sent.length ∧
    s.promised ≤ s.sent.flatten.length
  synSent : s.conn.state = .synSent → s.conn.finPending = false
  queued : ∀ e ∈ s.conn.unacked, e ∈ numbered base s.sent
  outbox : ∀ d ∈ s.conn.outbox, IsOf base s.sent d

variable {base : UInt16} {s : Closing}

theorem Inv.graceful (h : Inv base s) : Graceful base s := by
  intro F hF
  obtain ⟨hseq, rfl, hle⟩ := h.fin F hF
  refine ⟨hseq, le_rfl, ?_, ?_⟩
  · rw [List.take_length, h.accepted, List.take_append_of_le_length hle]
    exact List.take_prefix ..
  · rw [List.take_length]
    exact h.outbox

/-- The packets put out by a connection whose queue is part of the stream are part of it. -/
theorem isOf_of_says {c : UtpConnection} {sent : List Bytes}
    (hqueued : ∀ e ∈ c.unacked, e ∈ numbered base sent) {d : Bytes} (h : Parses (Says c) d) :
    IsOf base sent d := by
  refine h.mono fun hdr payload hs ht => ?_
  cases hs.content with
  | data _ hm => exact hqueued _ hm
  | syn ht' _ => rw [ht] at ht'; cases ht'
  | state ht' _ => rw [ht] at ht'; cases ht'
  | fin ht' _ _ => rw [ht] at ht'; cases ht'

theorem IsOf.append {sent sent' : List Bytes} {d : Bytes} (h : IsOf base sent d) :
    IsOf base (sent ++ sent') d :=
  Parses.mono h fun _ _ h ht => mem_numbered_append (h ht)

/-- A step that leaves the sending side as it is, but for acknowledged packets, keeps the
invariant. -/
theorem Inv.of_outgoing (h : Inv base s) {conn : UtpConnection}
    (hout : conn.outgoing = s.conn.outgoing)
    (hstate : conn.state = .synSent → s.conn.state = .synSent)
    (hun : ∀ e ∈ conn.unacked, e ∈ s.conn.unacked) (hemits : Emits s.conn conn (Says conn)) :
    Inv base { s with conn } := by
  have hqueued : ∀ e ∈ conn.unacked, e ∈ numbered base s.sent := fun e he => h.queued e (hun e he)
  simp only [UtpConnection.outgoing, Outgoing.mk.injEq] at hout
  obtain ⟨-, -, -, -, -, hseq, hpending, hfinSeq, hfinSent, hfinPending⟩ := hout
  refine ⟨hseq.trans h.seq, ?_, h.promised, hfinSent.trans h.finSent, ?_, ?_, ?_, hqueued,
    hemits.forall_outbox h.outbox fun d hd => isOf_of_says hqueued hd⟩
  · dsimp only
    rw [hpending]
    exact h.accepted
  · dsimp only
    rw [hfinPending, hfinSent]
    exact h.finPending
  · dsimp only
    rw [hfinSeq]
    exact h.fin
  · dsimp only
    rw [hfinPending]
    exact fun hs => h.synSent (hstate hs)

theorem Inv.write (h : Inv base s) (data : Bytes) : Inv base (s.step (.act (.write data))) := by
  have hcore := s.conn.core_write data
  simp only [UtpConnection.core, Core.mk.injEq, UtpConnection.outgoing, Outgoing.mk.injEq] at hcore
  obtain ⟨-, ⟨-, -, -, -, -, hseq, hpending, hfinSeq, hfinSent, hfinPending⟩, hun, hstate, -⟩ := hcore
  refine ⟨hseq.trans h.seq, ?_, ?_, hfinSent.trans h.finSent, ?_, ?_, ?_, ?_, ?_⟩
  · simp only [step]
    rw [hpending, h.accepted, List.append_assoc]
  · simp only [step, List.length_append]
    have := h.promised
    omega
  · simp only [step]
    rw [hfinPending, hfinSent]
    exact h.finPending
  · simp only [step]
    rw [hfinSeq]
    exact h.fin
  · simp only [step]
    rw [hfinPending, hstate]
    exact h.synSent
  · simp only [step]
    rw [hun]
    exact h.queued
  · simp only [step, UtpConnection.write_outbox]
    exact h.outbox

/-- Closing asks for a FIN only where none has been asked for or put out. -/
theorem close_finPending (c : UtpConnection) :
    c.close.finPending = c.finPending ∨
      c.close.finPending = true ∧ c.finSent = false ∧ c.state ≠ .synSent ∧ c.close.state = c.state := by
  unfold UtpConnection.close
  split
  · exact .inl rfl
  · split
    · exact .inl rfl
    · simp_all

theorem Inv.close (h : Inv base s) : Inv base (s.step (.act .close)) := by
  have hcore := s.conn.core_close
  simp only [UtpConnection.core, Core.mk.injEq, UtpConnection.outgoing, Outgoing.mk.injEq] at hcore
  obtain ⟨-, ⟨-, -, -, -, -, hseq, hpending, hfinSeq, hfinSent, -⟩, hun, -, -⟩ := hcore
  have hnone : s.conn.finSent = false → s.finAt = none := fun hf => by
    simpa [hf] using h.finSent.symm
  refine ⟨hseq.trans h.seq, ?_, ?_, hfinSent.trans h.finSent, ?_, ?_, ?_, ?_, ?_⟩
  · simp only [step]
    rw [hpending]
    exact h.accepted
  · simp only [step]
    split
    · exact le_rfl
    · exact h.promised
  · simp only [step]
    rw [hfinSent]
    rcases close_finPending s.conn with hp | ⟨-, hf, -⟩
    · rw [hp]
      exact h.finPending
    · exact fun _ => hf
  · intro F hF
    simp only [step] at hF ⊢
    rcases close_finPending s.conn with hp | ⟨-, hf, -⟩
    · rw [hfinSeq, if_neg (by simp [hp])]
      exact h.fin F hF
    · rw [hnone hf] at hF
      cases hF
  · simp only [step]
    intro hst
    have hst' : s.conn.state = .synSent := by
      rcases s.conn.close_state with he | he
      · exact he ▸ hst
      · rw [he] at hst
        cases hst
    rcases close_finPending s.conn with hp | ⟨-, -, hne, -⟩
    · rw [hp]
      exact h.synSent hst'
    · exact absurd hst' hne
  · simp only [step]
    rw [hun]
    exact h.queued
  · simp only [step, UtpConnection.close_outbox]
    exact h.outbox

/-- What a tick on an open connection does to the stream and to the FIN. -/
structure Ticks (s s' : Closing) (chunks : List Bytes) : Prop where
  sent : s'.sent = s.sent ++ chunks
  pending : s.conn.pendingSend = chunks.flatten ++ s'.conn.pendingSend
  seq : s'.conn.seq = seqNo s.conn.seq chunks.length
  finPending : s'.conn.finPending = false
  finSent : s'.conn.finSent = (s.conn.finSent || s.conn.finPending)
  finSeq : s'.conn.finSeq = if s.conn.finPending then s.conn.seq else s.conn.finSeq
  finAt : s'.finAt = if s.conn.finPending then some s.sent.length else s.finAt
  state : s'.conn.state = .synSent → s.conn.state = .synSent
  unacked : s'.conn.unacked = s.conn.unacked ++ numbered s.conn.seq chunks

theorem Inv.ticks (h : Inv base s) (hopen : s.conn.state ≠ .closed) (nowUs : UInt32) :
    ∃ chunks, Ticks s (s.step (.act (.tick nowUs))) chunks ∧
      (chunks ≠ [] ↔ s.conn.sendsData nowUs) := by
  obtain ⟨chunks, hcuts, hstate, hne⟩ := UtpConnection.processTick_spec hopen nowUs
  have hnew := newPayloads_of_cuts (s.conn.flushFin_unacked nowUs) hcuts
  have hout := hcuts.outgoing
  have hpend := hcuts.pending
  refine ⟨chunks, ?_, hne⟩
  have hst : (s.conn.processTick nowUs).state = .synSent → s.conn.state = .synSent := by
    intro hs
    rw [s.conn.flushFin_state nowUs] at hstate
    rcases hstate with he | he
    · rw [he] at hs
      split at hs
      · split at hs <;> cases hs
      · exact hs
    · rw [he] at hs
      cases hs
  rw [s.conn.flushFin_outgoing nowUs] at hout
  have hfpend : (s.conn.flushFin nowUs).pendingSend = s.conn.pendingSend := by
    have := congrArg Outgoing.pendingSend (s.conn.flushFin_outgoing nowUs)
    split at this <;> exact this
  have hfseq : (s.conn.flushFin nowUs).seq = s.conn.seq := by
    have := congrArg Outgoing.seq (s.conn.flushFin_outgoing nowUs)
    split at this <;> exact this
  have hun := hcuts.unacked
  rw [s.conn.flushFin_unacked nowUs, hfseq] at hun
  rw [hfpend] at hpend
  rw [hfseq] at hout
  by_cases hp : s.conn.finPending
  · have hf := h.finPending hp
    rw [if_pos hp] at hout
    simp only [UtpConnection.outgoing, Outgoing.mk.injEq] at hout
    obtain ⟨-, -, -, -, -, hseq, -, hfinSeq, hfinSent, hfinPending⟩ := hout
    exact ⟨by simp only [step, hnew], hpend, hseq, hfinPending, by simp [step, hfinSent, hp],
      by simp [step, hfinSeq, hp], by simp [step, hfinSent, hf, hp], hst, hun⟩
  · rw [if_neg hp] at hout
    simp only [UtpConnection.outgoing, Outgoing.mk.injEq] at hout
    obtain ⟨-, -, -, -, -, hseq, -, hfinSeq, hfinSent, hfinPending⟩ := hout
    exact ⟨by simp only [step, hnew], hpend, hseq, by simp [step, hfinPending, hp],
      by simp [step, hfinSent, hp], by simp [step, hfinSeq, hp], by simp [step, hfinSent, hp], hst,
      hun⟩

theorem step_tick_closed (hclosed : s.conn.state = .closed) (nowUs : UInt32) :
    s.step (.act (.tick nowUs)) = s := by
  simp [step, UtpConnection.processTick_closed hclosed,
    newPayloads_of_suffix (List.suffix_refl s.conn.unacked)]

theorem Inv.tick (h : Inv base s) (nowUs : UInt32) (hfin : FinLast s (.act (.tick nowUs))) :
    Inv base (s.step (.act (.tick nowUs))) := by
  by_cases hopen : s.conn.state = .closed
  · rwa [step_tick_closed hopen]
  obtain ⟨hpromised, hnone⟩ := hfin hopen
  obtain ⟨chunks, ht, hne⟩ := h.ticks hopen nowUs
  have hacc : (s.step (.act (.tick nowUs))).accepted = s.accepted := rfl
  have hprom : (s.step (.act (.tick nowUs))).promised = s.promised := rfl
  have hqueued : ∀ e ∈ (s.step (.act (.tick nowUs))).conn.unacked,
      e ∈ numbered base (s.step (.act (.tick nowUs))).sent := by
    intro e he
    rw [ht.unacked, h.seq] at he
    rw [ht.sent, numbered_append]
    rcases List.mem_append.mp he with he | he
    · exact List.mem_append_left _ (h.queued e he)
    · exact List.mem_append_right _ he
  have houtbox := (s.conn.processTick_emits nowUs).forall_outbox
    (R := IsOf base (s.step (.act (.tick nowUs))).sent)
    (fun d hd => by rw [ht.sent]; exact (h.outbox d hd).append) fun d hd => isOf_of_says hqueued hd
  refine ⟨?_, ?_, h.promised, ?_, ?_, ?_, fun hs => ht.finPending, hqueued, houtbox⟩
  · rw [ht.seq, h.seq, ht.sent, List.length_append, seqNo_add]
  · rw [hacc, h.accepted, ht.sent, ht.pending, List.flatten_append, List.append_assoc]
  · rw [ht.finSent, ht.finAt, h.finSent]
    split <;> simp_all
  · simp [ht.finPending]
  · intro F hF
    rw [ht.finAt] at hF
    rw [ht.finSeq, ht.sent, hprom]
    split at hF
    next hp =>
      have hchunks : chunks = [] := by
        by_contra hc
        rw [hne.mp hc] at hnone
        exact absurd (hnone (.inl hp)) (by simp)
      cases hF
      rw [if_pos hp, hchunks, List.append_nil]
      exact ⟨h.seq, rfl, hpromised hp⟩
    next hp =>
      have hchunks : chunks = [] := by
        by_contra hc
        rw [hne.mp hc] at hnone
        exact absurd (hnone (.inr (by rw [h.finSent, hF]; rfl))) (by simp)
      rw [if_neg hp, hchunks, List.append_nil]
      exact h.fin F hF

/-- A tick that puts the FIN out ahead of promised data, or data behind the FIN, is not graceful. -/
theorem Inv.not_graceful (h : Inv base s) (e : Call) (hfin : ¬FinLast s e) :
    ¬Graceful base (s.step e) := by
  rcases e with (_ | _ | _ | nowUs) | _ | _
  case act.tick =>
    intro hg
    obtain ⟨hopen, hbad⟩ := Classical.not_imp.mp hfin
    obtain ⟨chunks, ht, hne⟩ := h.ticks hopen nowUs
    by_cases hp : s.conn.finPending
    · obtain ⟨-, hlen, hprefix, -⟩ := hg s.sent.length (by rw [ht.finAt, if_pos hp])
      have hchunks : chunks = [] := by
        rw [ht.sent, List.length_append] at hlen
        exact List.length_eq_zero_iff.mp (by omega)
      have hacc : (s.step (.act (.tick nowUs))).accepted = s.accepted := rfl
      have hprom : (s.step (.act (.tick nowUs))).promised = s.promised := rfl
      rw [ht.sent, hchunks, List.append_nil, List.take_length, hacc, hprom] at hprefix
      have hle := hprefix.length_le
      rw [List.length_take, Nat.min_eq_left h.promised] at hle
      refine hbad ⟨fun _ => hle, fun _ => ?_⟩
      rw [← Bool.not_eq_true, ← hne]
      exact not_not.mpr hchunks
    · refine hbad ⟨fun h => absurd h hp, fun hf => ?_⟩
      obtain ⟨F, hF⟩ : ∃ F, s.finAt = some F := Option.isSome_iff_exists.mp
        (h.finSent ▸ hf.resolve_left hp)
      have hlen := (hg F (by rw [ht.finAt, if_neg hp, hF])).last
      have hFlen := (h.fin F hF).2.1
      rw [ht.sent, List.length_append] at hlen
      rw [← Bool.not_eq_true, ← hne]
      exact not_not.mpr (List.length_eq_zero_iff.mp (by omega))
  all_goals exact absurd trivial hfin

theorem Inv.step (h : Inv base s) (e : Call) (hfin : FinLast s e) : Inv base (s.step e) := by
  cases e with
  | act a =>
    cases a with
    | write data => exact h.write data
    | read cap =>
      change Inv base { s with conn := (s.conn.read cap).2 }
      exact h.of_outgoing (s.conn.read_outgoing cap) (by simp) (by simp) (.of_eq (by simp))
    | close => exact h.close
    | tick nowUs => exact h.tick nowUs hfin
  | packet data nowUs =>
    change Inv base { s with conn := s.conn.handlePacket data nowUs }
    refine h.of_outgoing (s.conn.handlePacket_outgoing data nowUs) (fun hs => ?_)
      (fun e he => (s.conn.handlePacket_unacked_suffix data nowUs).mem he)
      (s.conn.handlePacket_emits data nowUs)
    rcases s.conn.handlePacket_state data nowUs with he | he | ⟨he, -⟩
    · exact he ▸ hs
    · rw [he] at hs; cases hs
    · rw [he] at hs; cases hs
  | drain =>
    exact ⟨h.seq, h.accepted, h.promised, h.finSent, h.finPending, h.fin, h.synSent, h.queued,
      fun d hd => nomatch hd⟩

end Closing

open Closing

theorem UtpConnection.Fresh.inv {c : UtpConnection} (h : c.Fresh) : Inv c.seq { conn := c } := by
  have hc : c.pendingSend = [] ∧ c.finSent = false ∧ c.finPending = false ∧ c.unacked = [] := by
    cases h <;> exact ⟨rfl, rfl, rfl, rfl⟩
  have hout : ∀ d ∈ c.outbox, Parses (Says c) d := by
    cases h with
    | initiator addr port now timeout =>
      exact fun d hd => (UtpConnection.initiator_outbox addr port now timeout d hd).mono
        fun _ _ h => h.2
    | responder addr port id ack now =>
      exact fun d hd => (UtpConnection.responder_outbox addr port id ack now d hd).mono
        fun _ _ h => h.2
  have hqueued : ∀ e ∈ c.unacked, e ∈ numbered c.seq [] := by simp [hc.2.2.2]
  exact ⟨(seqNo_zero _).symm, by simp [hc.1], Nat.zero_le _, hc.2.1, fun _ => hc.2.1,
    fun F hF => (nomatch hF), fun _ => hc.2.2.1, hqueued,
    fun d hd => isOf_of_says hqueued (hout d hd)⟩

/-- Over every run of a connection from its construction on, the close is graceful at every moment
if and only if every tick leaves the FIN behind the data. -/
theorem graceful_iff {c : UtpConnection} (hc : c.Fresh) (es : List Call) :
    Visits step (Graceful c.seq) { conn := c } es ↔ Along step FinLast { conn := c } es :=
  visits_iff_along (P := fun _ _ => True) (fun _ e h _ hfin => h.step e hfin)
    (fun _ h => h.graceful) (fun _ e h _ hfin => h.not_graceful e hfin) hc.inv
    (Along.of_forall fun _ _ => trivial)

/-- The handshake of an initiator, one byte written, and a close before the next tick. -/
def closeRun : List Call :=
  [.packet (encodeHeader { type := ST_STATE, seqNr := 100, ackNr := 1, wndSize := 65536 }) 1,
    .act (.write [42]), .act .close, .act (.tick 2)]

/-- The tick puts the FIN out first and then the byte, under the number of the FIN. -/
theorem close_before_data_counterexample :
    (UtpConnection.initiator "" 0 0 0).Fresh ∧
      ¬Visits step (Graceful (UtpConnection.initiator "" 0 0 0).seq)
        { conn := .initiator "" 0 0 0 } closeRun := by
  refine ⟨.initiator .., fun h => ?_⟩
  exact absurd (h.last 0 (by decide +kernel)).last (by decide +kernel)

/-- Where a tick comes between the byte and the close, the close is graceful. -/
theorem graceful_after_tick :
    Visits step (Graceful (UtpConnection.initiator "" 0 0 0).seq) { conn := .initiator "" 0 0 0 }
      [.packet (encodeHeader { type := ST_STATE, seqNr := 100, ackNr := 1, wndSize := 65536 }) 1,
        .act (.write [42]), .act (.tick 2), .act .close, .act (.tick 3)] := by
  refine (graceful_iff (.initiator ..) _).mpr ⟨trivial, trivial, ?_, trivial, ?_, trivial⟩
  · exact fun _ => by decide +kernel
  · exact fun _ => by decide +kernel

end FluxCore.Utp
