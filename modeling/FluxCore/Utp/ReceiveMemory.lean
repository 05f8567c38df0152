import FluxCore.Utp.Calls
import FluxCore.Utp.Receive

/-!
# The memory of the receive side

The counter of the reorder buffer is exact and stays within its cap, whatever arrives (`Counted`).
The bytes that wait to be read have no cap of their own: they stay within the advertised window as
long as every packet that is delivered in order fits in it (`receive_memory`).
-/

namespace FluxCore.Utp

/-- The payload bytes of the packets in a reorder buffer. -/
def buffered (m : OrderedMap UInt16 InPacket) : Nat :=
  (m.entries.map fun e => e.2.payload.length).sum

section
variable {m : OrderedMap UInt16 InPacket} {s : UInt16} {p : InPacket}

theorem buffered_insert (h : m.find? s = none) :
    buffered (m.insert s p) = p.payload.length + buffered m := by
  have hperm := (m.perm_insert s p).map fun e => e.2.payload.length
  rw [OrderedMap.erase_of_find?_none h] at hperm
  exact hperm.sum_eq

theorem buffered_erase (h : m.find? s = some p) :
    buffered m = p.payload.length + buffered (m.erase s) := by
  have hperm := (OrderedMap.perm_erase h).map fun e => e.2.payload.length
  exact hperm.sum_eq

theorem buffered_tail {e : UInt16 × InPacket} {es : List (UInt16 × InPacket)}
    (h : m.entries = e :: es) : buffered m = e.2.payload.length + buffered m.tail := by
  simp [buffered, h]

end

/-- The counter of the reorder buffer is the size of its payloads, and within the cap. -/
structure Counted (c : UtpConnection) : Prop where
  recvBuffered : c.recvBuffered.toNat = buffered c.recvReorder
  le : buffered c.recvReorder ≤ REORDER_WINDOW.toNat

namespace UtpConnection

/-- The bytes received that the owner has not read. -/
def held (c : UtpConnection) : Nat := c.recvOut.length + c.recvBuffered.toNat

variable {c c' : UtpConnection}

theorem held_congr (h : c'.incoming = c.incoming) : c'.held = c.held := by
  simp only [incoming, Incoming.mk.injEq] at h
  simp only [held, h]

end UtpConnection

variable {c c' : UtpConnection}

theorem Counted.congr (h : Counted c) (hin : c'.incoming = c.incoming) : Counted c' := by
  simp only [UtpConnection.incoming, Incoming.mk.injEq] at hin
  obtain ⟨-, -, hreorder, hbuf, -⟩ := hin
  exact ⟨by rw [hbuf, hreorder]; exact h.recvBuffered, by rw [hreorder]; exact h.le⟩

theorem toNat_ofNat_of_le {n : Nat} (h : n ≤ REORDER_WINDOW.toNat) :
    (UInt32.ofNat n).toNat = n := by
  have hcap : REORDER_WINDOW.toNat < 2 ^ 32 := by decide
  rw [UInt32.toNat_ofNat', Nat.mod_eq_of_lt (h.trans_lt hcap)]

/-- Draining moves bytes from the buffer to the stream. -/
theorem Counted.drainReorder (h : Counted c) (fuel : Nat) :
    Counted (c.drainReorder fuel) ∧ (c.drainReorder fuel).held = c.held := by
  induction fuel generalizing c with
  | zero => exact ⟨h, rfl⟩
  | succ fuel ih =>
    unfold UtpConnection.drainReorder
    split
    · exact ⟨h, rfl⟩
    next key p es hes =>
      split
      · exact ⟨h, rfl⟩
      · have htail : buffered c.recvReorder = p.payload.length + buffered c.recvReorder.tail :=
          buffered_tail hes
        have hle := h.le
        have hsub : (c.recvBuffered - UInt32.ofNat p.payload.length).toNat =
            buffered c.recvReorder.tail := by
          have hlen := toNat_ofNat_of_le (n := p.payload.length) (by omega)
          rw [UInt32.toNat_sub_of_le _ _ (by
            rw [UInt32.le_iff_toNat_le, hlen, h.recvBuffered]; omega), hlen, h.recvBuffered]
          omega
        obtain ⟨hcounted, hheld⟩ := ih (c := { c with
          recvOut := c.recvOut ++ p.payload
          recvBuffered := c.recvBuffered - UInt32.ofNat p.payload.length
          ack := key
          recvReorder := c.recvReorder.tail }) ⟨hsub, by dsimp only; omega⟩
        refine ⟨hcounted, hheld.trans ?_⟩
        simp only [UtpConnection.held, List.length_append, hsub, h.recvBuffered]
        omega

theorem Counted.bufferPacket (h : Counted c) (s : UInt16) (payload : Bytes) (nowUs : UInt32) :
    Counted (c.bufferPacket s payload nowUs) := by
  have hcap : REORDER_WINDOW.toNat < 2 ^ 32 := by decide
  unfold UtpConnection.bufferPacket
  split
  next hfits =>
    rw [h.recvBuffered] at hfits
    have hlen := toNat_ofNat_of_le (n := payload.length) (by omega)
    cases hfind : c.recvReorder.find? s with
    | none =>
      have hins := buffered_insert (p := { payload, receivedAtUs := nowUs }) hfind
      dsimp only at hins ⊢
      refine ⟨?_, by dsimp only; omega⟩
      dsimp only
      rw [hins, UInt32.toNat_add, hlen, h.recvBuffered, Nat.mod_eq_of_lt (by omega), Nat.add_comm]
    | some dup =>
      have hdup := buffered_erase hfind
      have hins := buffered_insert (p := { payload, receivedAtUs := nowUs })
        (c.recvReorder.find?_erase_self s)
      have hdlen := toNat_ofNat_of_le (n := dup.payload.length) (by have := h.le; omega)
      dsimp only at hins ⊢
      refine ⟨?_, by dsimp only; omega⟩
      dsimp only
      rw [hins, UInt32.toNat_add, UInt32.toNat_sub_of_le _ _ (by
        rw [UInt32.le_iff_toNat_le, hdlen, h.recvBuffered]; omega), hlen, hdlen, h.recvBuffered,
        Nat.mod_eq_of_lt (by omega)]
      omega
  · exact h

theorem Counted.onData (h : Counted c) (hdr : PacketHeader) (payload : Bytes) (nowUs : UInt32) :
    Counted (c.onData hdr payload nowUs) := by
  unfold UtpConnection.onData
  dsimp only
  split
  · exact h.congr rfl
  · split
    · exact h.congr rfl
    · split
      · have hcounted := Counted.drainReorder (c := { { c with ackPending := true } with
          recvOut := c.recvOut ++ payload, ack := hdr.seqNr }) ⟨h.recvBuffered, h.le⟩
        exact (hcounted _).1.congr rfl
      · have hcounted := Counted.bufferPacket (c := { c with ackPending := true })
          ⟨h.recvBuffered, h.le⟩ hdr.seqNr payload nowUs
        exact hcounted.congr rfl

/-- The stream grows by what is buffered, and by a payload that is due. -/
theorem Counted.recvOut_onData (h : Counted c) (hdr : PacketHeader) (payload : Bytes)
    (nowUs : UInt32) : (c.onData hdr payload nowUs).recvOut = c.recvOut ∨
      hdr.seqNr = c.ack + 1 ∧ payload ≠ [] ∧
        (c.onData hdr payload nowUs).recvOut.length ≤ c.held + payload.length := by
  unfold UtpConnection.onData
  dsimp only
  split
  · exact .inl rfl
  next hne =>
    split
    · exact .inl rfl
    · split
      next hdue =>
        have hdrained := (Counted.drainReorder (c := { { c with ackPending := true } with
          recvOut := c.recvOut ++ payload, ack := hdr.seqNr }) ⟨h.recvBuffered, h.le⟩
          c.recvReorder.entries.length).2
        simp only [UtpConnection.held, List.length_append] at hdrained
        refine .inr ⟨hdue, by simpa using hne, ?_⟩
        simp only [UtpConnection.held]
        omega
      · left
        unfold UtpConnection.bufferPacket
        split
        · dsimp only
          split <;> rfl
        · rfl

/-! ## A packet arrives -/

theorem Counted.of_eq (h : Counted c) (hreorder : c'.recvReorder = c.recvReorder)
    (hbuf : c'.recvBuffered = c.recvBuffered) : Counted c' :=
  ⟨by rw [hreorder, hbuf]; exact h.recvBuffered, by rw [hreorder]; exact h.le⟩

namespace UtpConnection

/-- Without data, a packet leaves the buffers of the receive side as they are. -/
theorem handleParsed_buffers {hdr : PacketHeader} (h : hdr.type ≠ ST_DATA) (sack payload nowUs) :
    (c.handleParsed hdr sack payload nowUs).recvOut = c.recvOut ∧
      (c.handleParsed hdr sack payload nowUs).recvReorder = c.recvReorder ∧
      (c.handleParsed hdr sack payload nowUs).recvBuffered = c.recvBuffered := by
  suffices hsame : ∃ ack eof, (c.handleParsed hdr sack payload nowUs).incoming =
      { c.incoming with ack, eof } by
    obtain ⟨ack, eof, hin⟩ := hsame
    exact ⟨congrArg Incoming.recvOut hin, congrArg Incoming.recvReorder hin,
      congrArg Incoming.recvBuffered hin⟩
  by_cases hstate : hdr.type = ST_STATE
  · rw [handleParsed_incoming_state hstate, ← c.notePacket_incoming hdr nowUs]
    generalize c.notePacket hdr nowUs = k
    unfold adoptState
    split
    exacts [⟨_, k.eof, rfl⟩, ⟨k.ack, k.eof, rfl⟩]
  · by_cases hfin : hdr.type = ST_FIN
    · rw [handleParsed_incoming_fin hfin, onFin_incoming, ← c.notePacket_incoming hdr nowUs]
      generalize c.notePacket hdr nowUs = k
      have henter : ∃ ack, (k.enterConnected hdr).incoming = { k.incoming with ack } := by
        unfold enterConnected
        split
        exacts [⟨k.ack, rfl⟩, ⟨_, rfl⟩, ⟨k.ack, rfl⟩]
      obtain ⟨ack, henter⟩ := henter
      rw [henter]
      split
      exacts [⟨_, _, rfl⟩, ⟨_, _, rfl⟩]
    · rw [handleParsed_incoming_other hstate h hfin]
      exact ⟨c.ack, c.eof, rfl⟩

/-- The packet is a data packet, and its number is the next one. -/
def Due (c : UtpConnection) (hdr : PacketHeader) : Prop :=
  hdr.type = ST_DATA ∧ c.state ≠ .synSent ∧ hdr.seqNr = c.ack + 1

end UtpConnection

theorem Counted.handleParsed (h : Counted c) (hdr : PacketHeader) (sack : UInt32) (payload : Bytes)
    (nowUs : UInt32) : Counted (c.handleParsed hdr sack payload nowUs) ∧
      ((c.handleParsed hdr sack payload nowUs).recvOut = c.recvOut ∨
        c.Due hdr ∧ payload ≠ [] ∧
          (c.handleParsed hdr sack payload nowUs).recvOut.length ≤ c.held + payload.length) := by
  by_cases hdata : hdr.type = ST_DATA
  case neg =>
    obtain ⟨hout, hreorder, hbuf⟩ := c.handleParsed_buffers hdata sack payload nowUs
    exact ⟨h.of_eq hreorder hbuf, .inl hout⟩
  have hincoming := UtpConnection.handleParsed_incoming_data (c := c) hdata sack payload nowUs
  have hnote := c.notePacket_incoming hdr nowUs
  have hstate := c.notePacket_state hdr nowUs
  have hcounted := h.congr hnote
  have hheld := UtpConnection.held_congr hnote
  generalize c.notePacket hdr nowUs = k at hincoming hnote hstate hcounted hheld
  simp only [UtpConnection.incoming, Incoming.mk.injEq] at hnote
  obtain ⟨hack, hout, -⟩ := hnote
  have hfinal := congrArg Incoming.recvOut hincoming
  dsimp only [UtpConnection.incoming] at hfinal
  rw [hfinal]
  by_cases hsyn : k.state = .synSent
  · -- the number of the packet is taken over, and the payload is not
    have henter : k.enterConnected hdr =
        { k with ack := hdr.seqNr, synAcked := true, state := .connected } := by
      unfold UtpConnection.enterConnected
      rw [hsyn]
    have hold : seqLeq hdr.seqNr (k.enterConnected hdr).ack = true := by
      rw [henter, seqLeq, UInt16.sub_self]
      rfl
    have hsame : ((k.enterConnected hdr).onData hdr payload nowUs).incoming =
        (k.enterConnected hdr).incoming := UtpConnection.onData_incoming_of_old (.inr hold) nowUs
    refine ⟨Counted.congr ?_ (hincoming.trans hsame), .inl ?_⟩
    · rw [henter]
      exact ⟨hcounted.recvBuffered, hcounted.le⟩
    · rw [show ((k.enterConnected hdr).onData hdr payload nowUs).recvOut = _ from
        congrArg Incoming.recvOut hsame, henter]
      exact hout
  · have henter : (k.enterConnected hdr).incoming = k.incoming := k.enterConnected_incoming hdr hsyn
    have hcounted' := hcounted.congr henter
    refine ⟨(hcounted'.onData hdr payload nowUs).congr hincoming, ?_⟩
    have hheld' := UtpConnection.held_congr henter
    simp only [UtpConnection.incoming, Incoming.mk.injEq] at henter
    rcases hcounted'.recvOut_onData hdr payload nowUs with heq | ⟨hseq, hne, hle⟩
    · exact .inl (heq.trans (henter.2.1.trans hout))
    · refine .inr ⟨⟨hdata, hstate ▸ hsyn, ?_⟩, hne, ?_⟩
      · rw [hseq, henter.1, hack]
      · rw [hheld', hheld] at hle
        exact hle

/-! ## Runs -/

theorem Counted.fresh (h : c.Fresh) : Counted c := by
  cases h <;> exact ⟨rfl, Nat.zero_le _⟩

theorem Counted.call (h : Counted c) (x : Call) : Counted (c.call x) := by
  cases x with
  | act a =>
    cases a with
    | write data => exact h.congr (congrArg Core.incoming (c.core_write data))
    | read cap =>
      have hin := congrArg Core.incoming (c.core_read cap)
      exact h.of_eq (congrArg Incoming.recvReorder hin) (congrArg Incoming.recvBuffered hin)
    | close => exact h.congr (congrArg Core.incoming c.core_close)
    | tick nowUs => exact h.congr (c.processTick_incoming nowUs)
  | packet data nowUs =>
    change Counted (c.handlePacket data nowUs)
    unfold UtpConnection.handlePacket
    split
    · exact h
    · exact (h.handleParsed ..).1
  | drain => exact h.congr rfl

/-- A payload that is delivered in order is no longer than the window advertised at the moment. -/
def InWindow (c : UtpConnection) : Call → Prop
  | .packet data _ => ∀ hdr exts, parsePacket data = some (hdr, exts) → c.Due hdr →
    (payloadOf data exts).length ≤ c.advertsiedWnd.toNat
  | _ => True

/-- The invariant of the runs. -/
structure Windowed (c : UtpConnection) : Prop where
  counted : Counted c
  recvOut_le : c.recvOut.length ≤ RECV_WINDOW.toNat

theorem Windowed.held_le (h : Windowed c) : c.held ≤ RECV_WINDOW.toNat + REORDER_WINDOW.toNat := by
  have := h.counted.recvBuffered
  have := h.counted.le
  have := h.recvOut_le
  unfold UtpConnection.held
  omega

/-- What is advertised is what is left. -/
theorem Windowed.advertsiedWnd (h : Windowed c) :
    c.advertsiedWnd.toNat = RECV_WINDOW.toNat - c.held := by
  have hrecv : RECV_WINDOW.toNat = 8388608 := rfl
  have hreorder : REORDER_WINDOW.toNat = 1048576 := rfl
  have hle := h.held_le
  have hused : (c.recvBuffered + UInt32.ofNat c.recvOut.length).toNat = c.held := by
    have := h.recvOut_le
    unfold UtpConnection.held at hle ⊢
    rw [UInt32.toNat_add, UInt32.toNat_ofNat', Nat.mod_eq_of_lt (a := c.recvOut.length) (by omega),
      Nat.mod_eq_of_lt (by omega), Nat.add_comm]
  unfold UtpConnection.advertsiedWnd
  dsimp only
  split
  next hfull =>
    rw [UInt32.le_iff_toNat_le, hused] at hfull
    rw [UInt32.toNat_zero]
    omega
  next hroom =>
    rw [UInt32.le_iff_toNat_le, hused] at hroom
    rw [UInt32.toNat_sub_of_le _ _ (by rw [UInt32.le_iff_toNat_le, hused]; omega), hused]

theorem Windowed.call (h : Windowed c) (x : Call) (hx : InWindow c x) : Windowed (c.call x) := by
  refine ⟨h.counted.call x, ?_⟩
  cases x with
  | act a =>
    cases a with
    | write data =>
      have hin := congrArg (·.incoming.recvOut) (c.core_write data)
      exact (congrArg List.length hin).trans_le h.recvOut_le
    | read cap =>
      change (c.read cap).2.recvOut.length ≤ _
      rw [c.read_recvOut, List.length_drop]
      have := h.recvOut_le
      omega
    | close =>
      have hin := congrArg (·.incoming.recvOut) c.core_close
      exact (congrArg List.length hin).trans_le h.recvOut_le
    | tick nowUs =>
      have hin := congrArg Incoming.recvOut (c.processTick_incoming nowUs)
      exact (congrArg List.length hin).trans_le h.recvOut_le
  | packet data nowUs =>
    change (c.handlePacket data nowUs).recvOut.length ≤ _
    unfold UtpConnection.handlePacket
    split
    · exact h.recvOut_le
    next hdr exts hparse =>
      rcases (h.counted.handleParsed hdr (UtpConnection.sackOf exts) (payloadOf data exts) nowUs).2 with
        heq | ⟨hdue, hne, hle⟩
      · rw [heq]
        exact h.recvOut_le
      · have hfits := hx hdr exts hparse hdue
        rw [h.advertsiedWnd] at hfits
        have hpos := List.length_pos_iff.mpr hne
        omega
  | drain => exact h.recvOut_le

/-- In every run the counter of the reorder buffer is exact and within its cap, and in every run in
which the payloads delivered in order fit in the window, so is all that is held. -/
theorem receive_memory {c : UtpConnection} (h : c.Fresh) (xs : List Call) :
    Visits UtpConnection.call Counted c xs ∧
      (Along UtpConnection.call InWindow c xs → Visits UtpConnection.call
        (fun c => c.held ≤ RECV_WINDOW.toNat + REORDER_WINDOW.toNat) c xs) := by
  have hcounted : Counted c := .fresh h
  have hempty : c.recvOut.length ≤ RECV_WINDOW.toNat := by cases h <;> exact Nat.zero_le _
  refine ⟨visits_of_along (P := fun _ _ => True) (fun _ x hc _ => hc.call x) (fun _ hc => hc)
    hcounted (.of_forall fun _ _ => trivial), fun hwindow => ?_⟩
  exact visits_of_along (fun _ x (hc : Windowed _) hx => hc.call x hx)
    (fun _ hc => hc.held_le) ⟨hcounted, hempty⟩ hwindow

/-! ## A peer that ignores the window -/

/-- The `k`-th full data packet of a stream that starts with number 1. -/
def fullPacket (k : Nat) : Bytes :=
  encodeHeader { type := ST_DATA, seqNr := seqNo 1 k } ++ List.replicate 1400 0

theorem parsePacket_fullPacket (k : Nat) :
    parsePacket (fullPacket k) = some ({ type := ST_DATA, seqNr := seqNo 1 k }, []) :=
  parsePacket_encodeHeader ⟨show ST_DATA < 16 by decide, rfl⟩ rfl _

theorem payloadOf_fullPacket (k : Nat) : payloadOf (fullPacket k) [] = List.replicate 1400 0 :=
  payloadOf_encodeHeader _ _

def flood (n : Nat) : List Call := (List.range n).map fun k => .packet (fullPacket k) 0

/-- The first `k` packets have been delivered and none of them read. -/
structure Flooded (k : Nat) (c : UtpConnection) : Prop where
  state : c.state ≠ .synSent
  next : c.ack + 1 = seqNo 1 k
  recvOut : c.recvOut.length = 1400 * k
  recvReorder : c.recvReorder = .empty

theorem Flooded.packet {k : Nat} (h : Flooded k c) :
    Flooded (k + 1) (c.handlePacket (fullPacket k) 0) := by
  have hparse := parsePacket_fullPacket k
  generalize hhdr : ({ type := ST_DATA, seqNr := seqNo 1 k } : PacketHeader) = hdr at hparse
  have htype : hdr.type = ST_DATA := hhdr ▸ rfl
  have hseq : hdr.seqNr = c.ack + 1 := by rw [h.next, ← hhdr]
  have hstate : (c.handlePacket (fullPacket k) 0).state ≠ .synSent := by
    rcases c.handlePacket_state (fullPacket k) 0 with hs | hs | ⟨hs, -⟩ <;> rw [hs]
    exacts [h.state, nofun, nofun]
  rw [UtpConnection.handlePacket_eq hparse, payloadOf_fullPacket] at hstate ⊢
  have hin := UtpConnection.handleParsed_incoming_data (c := c) htype
    (UtpConnection.sackOf []) (List.replicate 1400 0) 0
  have hkept : ((c.notePacket hdr 0).enterConnected hdr).incoming = c.incoming := by
    rw [UtpConnection.enterConnected_incoming _ (by rw [c.notePacket_state]; exact h.state),
      c.notePacket_incoming]
  generalize (c.notePacket hdr 0).enterConnected hdr = k₁ at hin hkept
  simp only [UtpConnection.incoming, Incoming.mk.injEq] at hkept
  obtain ⟨hack, hout, hreorder, -⟩ := hkept
  have hnew : seqLeq hdr.seqNr k₁.ack = false := by
    rw [hseq, hack]
    have hzero : seqLeq (seqNo (c.ack + 1) 0) c.ack = false :=
      seqLeq_of_ahead (n := 0) (j := 0) (seqNo_zero _).symm le_rfl (by omega)
    simpa using hzero
  have hempty : k₁.recvReorder.entries.length = 0 := by
    rw [hreorder, h.recvReorder]
    rfl
  have hdata : (k₁.onData hdr (List.replicate 1400 0) 0).incoming =
      { k₁.incoming with ack := hdr.seqNr, recvOut := k₁.recvOut ++ List.replicate 1400 0 } := by
    unfold UtpConnection.onData
    rw [if_neg (by simp), if_neg (by simp [hnew]), if_pos (by rw [hseq, hack])]
    simp only [hempty]
    rfl
  rw [hdata] at hin
  simp only [UtpConnection.incoming, Incoming.mk.injEq] at hin
  refine ⟨hstate, ?_, ?_, ?_⟩
  · rw [hin.1, hseq, h.next, seqNo_succ]
  · rw [hin.2.1, List.length_append, List.length_replicate, hout, h.recvOut]
    ring
  · rw [hin.2.2.1, hreorder, h.recvReorder]

theorem flooded (n : Nat) :
    Flooded n (exec UtpConnection.call (.responder "" 0 0 0 0) (flood n)) := by
  induction n with
  | zero => exact ⟨nofun, rfl, rfl, rfl⟩
  | succ n ih =>
    have hlast : exec UtpConnection.call (.responder "" 0 0 0 0) (flood (n + 1)) =
        (exec UtpConnection.call (.responder "" 0 0 0 0) (flood n)).handlePacket (fullPacket n) 0 := by
      rw [flood, List.range_succ, List.map_append, exec_append, ← flood, List.map_cons,
        List.map_nil, exec, exec, UtpConnection.call]
    rw [hlast]
    exact ih.packet

/-- A byte arrives and is read. -/
theorem receive_memory_read :
    Visits UtpConnection.call (fun c => c.held ≤ RECV_WINDOW.toNat + REORDER_WINDOW.toNat)
      (.responder "" 0 0 0 0) [.packet (dataDatagram 1 7) 0, .act (.read 1)] := by
  refine (receive_memory (.responder ..) _).2 ⟨fun hdr exts hparse _ => ?_, trivial, trivial⟩
  have hexts : parsePacket (dataDatagram 1 7) = some ({ type := ST_DATA, seqNr := 1 }, []) := rfl
  obtain ⟨rfl, rfl⟩ := Prod.mk.inj (Option.some.inj (hexts.symm.trans hparse))
  decide +kernel

/-- Nothing stops a peer that sends its data in order: with 6742 full packets, more is held than
the window and the reorder buffer together may hold. -/
theorem receive_memory_flooded :
    ¬∀ c : UtpConnection, c.Fresh → ∀ xs, Visits UtpConnection.call
      (fun c => c.held ≤ RECV_WINDOW.toNat + REORDER_WINDOW.toNat) c xs := by
  intro h
  obtain ⟨n, hn⟩ : ∃ n, n = 6742 := ⟨_, rfl⟩
  have hle := (h _ (.responder "" 0 0 0 0) (flood n)).last
  have hlen := (flooded n).recvOut
  have hcap : RECV_WINDOW.toNat + REORDER_WINDOW.toNat = 9437184 := rfl
  unfold UtpConnection.held at hle
  omega

end FluxCore.Utp
