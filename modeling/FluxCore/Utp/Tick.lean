import FluxCore.Utp.ConnectionLemmas

/-!
# What a tick does

A tick puts out a requested FIN, then either runs the timeout or cuts user data into packets while
the windows allow. `processTick_spec` says this once: the packets cut are a list of chunks, numbered
on from `seq`, and there are any exactly when `sendsData` holds of the state before the tick.
-/

namespace FluxCore.Utp

namespace UtpConnection

variable (c : UtpConnection)

/-! ## The FIN -/

theorem flushFin_outgoing (nowUs) :
    (c.flushFin nowUs).outgoing =
      if c.finPending then
        { c.outgoing with finPending := false, finSent := true, finSeq := c.seq }
      else c.outgoing := by
  unfold flushFin
  split <;> rfl

theorem flushFin_state (nowUs) :
    (c.flushFin nowUs).state =
      if c.finPending then if c.state = .synSent then .closed else .finSent else c.state := by
  unfold flushFin
  split <;> rfl

@[simp] theorem flushFin_incoming (nowUs) : (c.flushFin nowUs).incoming = c.incoming := by
  unfold flushFin
  split <;> rfl

@[simp] theorem flushFin_unacked (nowUs) : (c.flushFin nowUs).unacked = c.unacked := by
  unfold flushFin
  split <;> rfl

@[simp] theorem flushFin_synAcked (nowUs) : (c.flushFin nowUs).synAcked = c.synAcked := by
  unfold flushFin
  split <;> rfl

/-! ## The timeout -/

theorem core_synTimeout (nowUs) :
    (c.synTimeout nowUs).core = { c.core with state := (c.synTimeout nowUs).state } := by
  unfold synTimeout
  split
  · rfl
  · dsimp only
    split <;> rfl

theorem synTimeout_state (nowUs) : (c.synTimeout nowUs).state = c.state ∨
    (c.synTimeout nowUs).state = .closed := by
  unfold synTimeout
  split
  · exact .inr rfl
  · dsimp only
    split
    · exact .inr rfl
    · exact .inl rfl

@[simp] theorem core_countTimeout : c.countTimeout.core = c.core := rfl

@[simp] theorem core_collapseWindow (nowUs) : (c.collapseWindow nowUs).core = c.core := rfl

@[simp] theorem core_retransmitFin (nowUs) : (c.retransmitFin nowUs).core = c.core := by
  unfold retransmitFin
  split <;> rfl

theorem core_handleTimeout (nowUs) :
    (c.handleTimeout nowUs).core = { c.core with state := (c.handleTimeout nowUs).state } := by
  unfold handleTimeout
  split
  · exact c.core_synTimeout nowUs
  · dsimp only
    split
    · rfl
    · have hcore : (((c.countTimeout.collapseWindow nowUs).retransmitUnacked nowUs).retransmitFin
          nowUs).core = c.core := by simp
      rw [← core_state, hcore]

theorem handleTimeout_state (nowUs) : (c.handleTimeout nowUs).state = c.state ∨
    (c.handleTimeout nowUs).state = .closed := by
  unfold handleTimeout
  split
  · exact c.synTimeout_state nowUs
  · dsimp only
    split
    · exact .inr rfl
    · left
      rw [← core_state]
      simp

/-! ## User data -/

theorem core_sendChunk (nowUs) :
    (c.sendChunk nowUs).core =
      { c.core with
        outgoing := { c.outgoing with
          seq := c.seq + 1, pendingSend := c.pendingSend.drop c.chunkLen }
        unacked := c.unacked ++ [(c.seq, c.pendingSend.take c.chunkLen)] } := by
  simp [sendChunk, core, unacked, queueDataPacket, OutPacket.content, incoming, outgoing]

/-- The packets a tick cuts, as the state after it shows them. -/
structure Cuts (c c' : UtpConnection) (chunks : List Bytes) : Prop where
  incoming : c'.incoming = c.incoming
  outgoing : c'.outgoing =
    { c.outgoing with seq := seqNo c.seq chunks.length, pendingSend := c'.pendingSend }
  pending : c.pendingSend = chunks.flatten ++ c'.pendingSend
  unacked : c'.unacked = c.unacked ++ numbered c.seq chunks
  synAcked : c'.synAcked = c.synAcked

variable {c} {c' c'' : UtpConnection} {chunks : List Bytes}

theorem Cuts.of_core (h : c'.core = { c.core with state := c'.state }) : Cuts c c' [] := by
  simp only [core, Core.mk.injEq] at h
  obtain ⟨hin, hout, hun, -, hsyn⟩ := h
  have hpending : c'.pendingSend = c.pendingSend := congrArg Outgoing.pendingSend hout
  exact ⟨hin, by rw [hout, hpending, List.length_nil, seqNo_zero]; rfl, hpending.symm,
    by simp [hun], hsyn⟩

theorem Cuts.congr_right (h : Cuts c c' chunks) (hcore : c''.core = c'.core) :
    Cuts c c'' chunks := by
  simp only [core, Core.mk.injEq] at hcore
  obtain ⟨hin, hout, hun, -, hsyn⟩ := hcore
  have hpending : c''.pendingSend = c'.pendingSend := congrArg Outgoing.pendingSend hout
  exact ⟨hin.trans h.incoming, by rw [hout, hpending]; exact h.outgoing,
    by rw [hpending]; exact h.pending, hun.trans h.unacked, hsyn.trans h.synAcked⟩

theorem Cuts.sendChunk (nowUs) :
    Cuts c (c.sendChunk nowUs) [c.pendingSend.take c.chunkLen] := by
  have h := c.core_sendChunk nowUs
  simp only [core, Core.mk.injEq] at h
  obtain ⟨hin, hout, hun, -, hsyn⟩ := h
  have hpending : (c.sendChunk nowUs).pendingSend = c.pendingSend.drop c.chunkLen :=
    congrArg Outgoing.pendingSend hout
  refine ⟨hin, ?_, ?_, by rw [hun, numbered_cons, numbered_nil], hsyn⟩
  · rw [hout, hpending, List.length_singleton, seqNo_succ, seqNo_zero]
  · rw [hpending]
    simp

theorem Cuts.trans {chunks' : List Bytes} (h : Cuts c c' chunks) (h' : Cuts c' c'' chunks') :
    Cuts c c'' (chunks ++ chunks') := by
  have hseq : c'.seq = seqNo c.seq chunks.length := congrArg Outgoing.seq h.outgoing
  refine ⟨h'.incoming.trans h.incoming, ?_, ?_, ?_, h'.synAcked.trans h.synAcked⟩
  · rw [h'.outgoing, h.outgoing, hseq, List.length_append, seqNo_add]
  · rw [h.pending, h'.pending, List.flatten_append, List.append_assoc]
  · rw [h'.unacked, h.unacked, hseq, List.append_assoc, numbered_append]

theorem flushPending_cuts (c : UtpConnection) (nowUs) (fuel : Nat) :
    ∃ chunks, Cuts c (flushPending nowUs fuel c) chunks ∧
      (flushPending nowUs fuel c).state = c.state ∧
      (chunks ≠ [] ↔ fuel ≠ 0 ∧ c.pendingSend ≠ [] ∧ c.canSendData) := by
  induction fuel generalizing c with
  | zero => exact ⟨[], Cuts.of_core rfl, rfl, by simp⟩
  | succ fuel ih =>
    unfold flushPending
    split
    next h => exact ⟨[], Cuts.of_core rfl, rfl, by simp [List.isEmpty_iff.mp h]⟩
    next h =>
      split
      next h' => exact ⟨[], Cuts.of_core rfl, rfl, by simp_all⟩
      next h' =>
        obtain ⟨chunks, hcuts, hstate, -⟩ := ih (c.sendChunk nowUs)
        refine ⟨_, (Cuts.sendChunk nowUs).trans hcuts, hstate, ?_⟩
        simp_all

theorem flushData_cuts (c : UtpConnection) (nowUs) :
    ∃ chunks, Cuts c (c.flushData nowUs) chunks ∧ (c.flushData nowUs).state = c.state ∧
      (chunks ≠ [] ↔ (c.state = .connected || c.state = .finSent) ∧ c.pendingSend ≠ [] ∧
        c.canSendData) := by
  unfold flushData
  split
  next h =>
    obtain ⟨chunks, hcuts, hstate, hne⟩ := flushPending_cuts c nowUs c.pendingSend.length
    exact ⟨chunks, hcuts, hstate, by rw [hne]; simp [h]⟩
  next h => exact ⟨[], Cuts.of_core rfl, rfl, by simp [h]⟩

/-- The tick cuts user data into packets. -/
def sendsData (c : UtpConnection) (nowUs : UInt32) : Bool :=
  let c' := c.flushFin nowUs
  c.state ≠ .closed && !c'.rtoDue nowUs && (c'.state = .connected || c'.state = .finSent) &&
    !c'.pendingSend.isEmpty && c'.canSendData

theorem processTick_closed (h : c.state = .closed) (nowUs) : c.processTick nowUs = c := by
  unfold processTick
  rw [if_pos h]

/-- What a tick does: the FIN first, then the packets it cuts. -/
theorem processTick_spec (h : c.state ≠ .closed) (nowUs) :
    ∃ chunks, Cuts (c.flushFin nowUs) (c.processTick nowUs) chunks ∧
      ((c.processTick nowUs).state = (c.flushFin nowUs).state ∨
        (c.processTick nowUs).state = .closed) ∧
      (chunks ≠ [] ↔ c.sendsData nowUs) := by
  unfold processTick sendsData
  rw [if_neg h]
  dsimp only
  generalize c.flushFin nowUs = f
  split
  next hclosed =>
    exact ⟨[], Cuts.of_core rfl, .inl rfl, by simp [hclosed]⟩
  next hclosed =>
    split
    next hrto =>
      exact ⟨[], Cuts.of_core (f.core_handleTimeout nowUs), f.handleTimeout_state nowUs,
        by simp [hrto]⟩
    next hrto =>
      obtain ⟨chunks, hcuts, hstate, hne⟩ := flushData_cuts f nowUs
      have hcore : ((f.flushData nowUs).flushAck nowUs).noteReadable.core =
          (f.flushData nowUs).core := by
        rw [core_noteReadable, core_flushAck]
      refine ⟨chunks, hcuts.congr_right hcore, .inl ((congrArg Core.state hcore).trans hstate), ?_⟩
      rw [hne]
      simp [h, hrto]
      tauto

@[simp] theorem processTick_incoming (c : UtpConnection) (nowUs) :
    (c.processTick nowUs).incoming = c.incoming := by
  by_cases h : c.state = .closed
  · rw [processTick_closed h]
  · obtain ⟨chunks, hcuts, -⟩ := processTick_spec h nowUs
    rw [hcuts.incoming, flushFin_incoming]

@[simp] theorem processTick_synAcked (c : UtpConnection) (nowUs) :
    (c.processTick nowUs).synAcked = c.synAcked := by
  by_cases h : c.state = .closed
  · rw [processTick_closed h]
  · obtain ⟨chunks, hcuts, -⟩ := processTick_spec h nowUs
    rw [hcuts.synAcked, flushFin_synAcked]

/-- A tick puts packets on the end of the send queue only. -/
theorem processTick_unacked (c : UtpConnection) (nowUs) :
    ∃ more, (c.processTick nowUs).unacked = c.unacked ++ more := by
  by_cases h : c.state = .closed
  · exact ⟨[], by rw [processTick_closed h, List.append_nil]⟩
  · obtain ⟨chunks, hcuts, -⟩ := processTick_spec h nowUs
    exact ⟨_, by rw [hcuts.unacked, flushFin_unacked]⟩

theorem processTick_finSent (c : UtpConnection) (nowUs) (hfin : c.finSent = true) :
    (c.processTick nowUs).finSent = true := by
  by_cases h : c.state = .closed
  · rw [processTick_closed h]
    exact hfin
  · obtain ⟨chunks, hcuts, -⟩ := processTick_spec h nowUs
    have hout := congrArg Outgoing.finSent hcuts.outgoing
    have hflush := congrArg Outgoing.finSent (c.flushFin_outgoing nowUs)
    refine hout.trans (hflush.trans ?_)
    split
    · rfl
    · exact hfin

/-- A tick moves a connection to `finSent` or closes it. -/
theorem processTick_state (c : UtpConnection) (nowUs) :
    (c.processTick nowUs).state = c.state ∨ (c.processTick nowUs).state = .finSent ∨
      (c.processTick nowUs).state = .closed := by
  by_cases h : c.state = .closed
  · rw [processTick_closed h]
    exact .inl rfl
  · obtain ⟨chunks, -, hstate, -⟩ := processTick_spec h nowUs
    rw [c.flushFin_state nowUs] at hstate
    split at hstate
    · split at hstate <;> simp_all
    · tauto

/-- While the SYN is unanswered a tick looks at its timer only. -/
theorem processTick_synSent (hstate : c.state = .synSent) (hfin : c.finPending = false)
    (hack : c.ackPending = false) (nowUs) :
    c.processTick nowUs = c.synTimeout nowUs ∨ c.processTick nowUs = c.noteReadable := by
  have hf : c.flushFin nowUs = c := by simp [flushFin, hfin]
  have hd : c.flushData nowUs = c := by simp [flushData, hstate]
  have ha : c.flushAck nowUs = c := by simp [flushAck, hack]
  unfold processTick
  rw [if_neg (by simp [hstate]), hf]
  dsimp only
  rw [if_neg (by simp [hstate]), hd, ha]
  split
  · rw [handleTimeout, if_pos hstate]
    exact .inl rfl
  · exact .inr rfl

@[simp] theorem synTimeout_ackPending (c : UtpConnection) (nowUs) :
    (c.synTimeout nowUs).ackPending = c.ackPending := by
  unfold synTimeout
  split
  · rfl
  · dsimp only
    split <;> rfl

end UtpConnection

end FluxCore.Utp
