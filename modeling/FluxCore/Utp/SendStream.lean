import FluxCore.Utp.Output

/-!
# The sent stream and its acknowledgement

The counterpart of reassembly. `Sends` says where the sending side of a connection stands in the
stream of payloads it has put in ST_DATA packets: the next number follows the last packet, what
waits for an acknowledgement is an end of the stream, and a FIN carries the number behind the last
packet. An acknowledgement takes nothing the other side has not reached (`sent_le_of_ack`), as long
as the number it carries is not so old that it reads as a new one.
-/

namespace FluxCore.Utp

/-- The payloads that have joined the send queue. -/
def newPayloads (c c' : UtpConnection) : List Bytes :=
  (c'.unacked.drop c.unacked.length).map Prod.snd

theorem newPayloads_of_cuts {c f c' : UtpConnection} {chunks : List Bytes}
    (hc : f.unacked = c.unacked) (h : UtpConnection.Cuts f c' chunks) :
    newPayloads c c' = chunks := by
  rw [newPayloads, h.unacked, hc, List.drop_left, map_snd_numbered]

theorem newPayloads_of_suffix {c c' : UtpConnection} (h : c'.unacked <:+ c.unacked) :
    newPayloads c c' = [] := by
  rw [newPayloads, List.drop_eq_nil_of_le h.length_le]
  rfl

structure Sends (first : UInt16) (sent : List Bytes) (c : UtpConnection) : Prop where
  seq : c.seq = seqNo first sent.length
  queued : c.unacked <:+ numbered first sent
  finSeq : c.finSent = true → c.finSeq = c.seq
  state : c.state ≠ .synSent
  finState : c.state = .finSent → c.finSent = true

namespace Sends

variable {first a : UInt16} {sent : List Bytes} {c c' : UtpConnection} {k : Nat}

theorem of_outgoing (h : Sends first sent c) (hout : c'.outgoing = c.outgoing)
    (hun : c'.unacked <:+ c.unacked) (hstate : c'.state = c.state ∨ c'.state = .closed ∨
      c'.state = .connected) : Sends first sent c' := by
  simp only [UtpConnection.outgoing, Outgoing.mk.injEq] at hout
  obtain ⟨-, -, -, -, -, hseq, -, hfinSeq, hfinSent, -⟩ := hout
  refine ⟨hseq.trans h.seq, hun.trans h.queued, fun hf => by
    rw [hfinSeq, hseq]; exact h.finSeq (hfinSent ▸ hf), ?_, ?_⟩
  · rcases hstate with hs | hs | hs
    · rw [hs]; exact h.state
    · rw [hs]; decide
    · rw [hs]; decide
  · intro hf
    rcases hstate with hs | hs | hs
    · rw [hfinSent]
      exact h.finState (hs ▸ hf)
    · rw [hs] at hf; cases hf
    · rw [hs] at hf; cases hf

theorem handlePacket (h : Sends first sent c) (data nowUs) :
    Sends first sent (c.handlePacket data nowUs) := by
  refine h.of_outgoing (c.handlePacket_outgoing data nowUs)
    (c.handlePacket_unacked_suffix data nowUs) ?_
  rcases c.handlePacket_state data nowUs with hst | hst | ⟨hst, -⟩
  · exact .inl hst
  · exact .inr (.inl hst)
  · exact .inr (.inr hst)

/-- A tick puts packets on the end of the stream; if it has a FIN to put out or has put one out, it
must put none, since the FIN does not consume its number. -/
theorem processTick (h : Sends first sent c) (nowUs)
    (hlast : c.finPending = true ∨ c.finSent = true → c.sendsData nowUs = false) :
    Sends first (sent ++ newPayloads c (c.processTick nowUs)) (c.processTick nowUs) ∧
      (c.finSent = true → newPayloads c (c.processTick nowUs) = []) := by
  by_cases hclosed : c.state = .closed
  · rw [UtpConnection.processTick_closed hclosed, newPayloads_of_suffix (List.suffix_refl _),
      List.append_nil]
    exact ⟨h, fun _ => rfl⟩
  obtain ⟨chunks, hcuts, hstate, hne⟩ := UtpConnection.processTick_spec hclosed nowUs
  rw [newPayloads_of_cuts (c.flushFin_unacked nowUs) hcuts]
  have hnone : c.finPending = true ∨ c.finSent = true → chunks = [] := fun hf => by
    by_contra hc
    rw [hlast hf] at hne
    exact absurd (hne.mp hc) (by simp)
  have hout := hcuts.outgoing
  have hfout := c.flushFin_outgoing nowUs
  have hfseq : (c.flushFin nowUs).seq = c.seq := by
    have := congrArg Outgoing.seq hfout
    split at this <;> exact this
  have hseq : (c.processTick nowUs).seq = seqNo c.seq chunks.length := by
    rw [← hfseq]
    exact congrArg Outgoing.seq hout
  refine ⟨⟨?_, ?_, ?_, ?_, ?_⟩, fun hf => hnone (.inr hf)⟩
  · rw [hseq, h.seq, List.length_append, seqNo_add]
  · rw [hcuts.unacked, c.flushFin_unacked, hfseq, h.seq, numbered_append]
    obtain ⟨pre, hpre⟩ := h.queued
    exact ⟨pre, by rw [← hpre, List.append_assoc]⟩
  · intro hf
    have hfinSent : (c.flushFin nowUs).finSent = true :=
      (congrArg Outgoing.finSent hout).symm.trans hf
    have hfinSeq : (c.processTick nowUs).finSeq = (c.flushFin nowUs).finSeq :=
      congrArg Outgoing.finSeq hout
    have hfs := congrArg Outgoing.finSent hfout
    have hfq := congrArg Outgoing.finSeq hfout
    by_cases hp : c.finPending = true
    · rw [if_pos hp] at hfq
      rw [hfinSeq, hseq, hnone (.inl hp), List.length_nil, seqNo_zero]
      exact hfq
    · rw [if_neg hp] at hfs hfq
      have hcf : c.finSent = true := hfs.symm.trans hfinSent
      rw [hfinSeq, hseq, hnone (.inr hcf), List.length_nil, seqNo_zero, ← h.finSeq hcf]
      exact hfq
  · rw [c.flushFin_state nowUs] at hstate
    rcases hstate with hst | hst
    · rw [hst]
      split
      · split <;> decide
      · exact h.state
    · rw [hst]; decide
  · intro hf
    rw [c.flushFin_state nowUs] at hstate
    rcases hstate with hst | hst
    · have hfinSent : (c.processTick nowUs).finSent = (c.flushFin nowUs).finSent :=
        congrArg Outgoing.finSent hout
      have hfs := congrArg Outgoing.finSent hfout
      rw [hfinSent]
      by_cases hp : c.finPending = true
      · rw [if_pos hp] at hfs
        exact hfs
      · rw [if_neg hp] at hfs hst
        exact hfs.trans (h.finState (hst ▸ hf))
    · rw [hst] at hf
      cases hf

/-- Outside the established phases no data is sent either. -/
theorem quiet_tick (h : Sends first sent c) (hne : c.state ≠ .connected) (nowUs)
    (hlast : c.finPending = true ∨ c.finSent = true → c.sendsData nowUs = false) :
    newPayloads c (c.processTick nowUs) = [] := by
  by_cases hclosed : c.state = .closed
  · rw [UtpConnection.processTick_closed hclosed, newPayloads_of_suffix (List.suffix_refl _)]
  obtain ⟨chunks, hcuts, -, hsends⟩ := UtpConnection.processTick_spec hclosed nowUs
  rw [newPayloads_of_cuts (c.flushFin_unacked nowUs) hcuts]
  by_contra hc
  have hs := hsends.mp hc
  by_cases hf : c.finPending = true ∨ c.finSent = true
  · rw [hlast hf] at hs
    cases hs
  · have hp : ¬c.finPending = true := fun hp => hf (.inl hp)
    have hstate := c.flushFin_state nowUs
    rw [if_neg hp] at hstate
    have hfin : c.state ≠ .finSent := fun he => hf (.inr (h.finState he))
    simp [UtpConnection.sendsData, hstate, hne, hfin] at hs

theorem write (h : Sends first sent c) (data) : Sends first sent (c.write data).2 := by
  have hcore := c.core_write data
  simp only [UtpConnection.core, Core.mk.injEq, UtpConnection.outgoing, Outgoing.mk.injEq] at hcore
  obtain ⟨-, ⟨-, -, -, -, -, hseq, -, hfinSeq, hfinSent, -⟩, hun, hstate, -⟩ := hcore
  exact ⟨hseq.trans h.seq, hun ▸ h.queued, fun hf => by
    rw [hfinSeq, hseq]; exact h.finSeq (hfinSent ▸ hf), hstate ▸ h.state, fun hf => by
    rw [hfinSent]; exact h.finState (hstate ▸ hf)⟩

theorem close (h : Sends first sent c) : Sends first sent c.close := by
  have hcore := c.core_close
  simp only [UtpConnection.core, Core.mk.injEq, UtpConnection.outgoing, Outgoing.mk.injEq] at hcore
  obtain ⟨-, ⟨-, -, -, -, -, hseq, -, hfinSeq, hfinSent, -⟩, hun, -, -⟩ := hcore
  refine ⟨hseq.trans h.seq, hun ▸ h.queued, fun hf => by
    rw [hfinSeq, hseq]; exact h.finSeq (hfinSent ▸ hf), ?_, fun hf => ?_⟩
  · rcases c.close_state with hs | hs
    · rw [hs]; exact h.state
    · rw [hs]; decide
  · rw [hfinSent]
    rcases c.close_state with hs | hs
    · exact h.finState (hs ▸ hf)
    · rw [hs] at hf; cases hf

end Sends

/-- An acknowledgement of the first `k` packets takes none behind them, if `k` is less than `2^15`
behind the first packet waiting. -/
theorem sent_le_of_ack {first a : UInt16} {sent : List Bytes} {k : Nat} (ha : a + 1 = seqNo first k)
    {queue : List (UInt16 × Bytes)} (hqueue : queue <:+ numbered first sent)
    (hnear : sent.length - queue.length + 1 < k + 2 ^ 15) :
    sent.length ≤
      max k (sent.length - queue.length) + (queue.dropWhile fun p => seqLeq p.1 a).length := by
  induction queue with
  | nil => simp
  | cons e queue ih =>
    have hlen : queue.length + 1 ≤ sent.length := by simpa using hqueue.length_le
    have hdrop := List.suffix_iff_eq_drop.mp hqueue
    simp only [length_numbered, List.length_cons] at hdrop hnear ⊢
    generalize hm : sent.length - (queue.length + 1) = m at hdrop hnear ⊢
    have he : e.1 = seqNo first m := by
      have := congrArg List.head? hdrop
      rw [List.head?_cons, List.head?_drop, getElem?_numbered] at this
      obtain ⟨x, -, hx⟩ := Option.map_eq_some_iff.mp this.symm
      exact hx ▸ rfl
    by_cases hle : seqLeq e.1 a = true
    · have hmk : m + 1 ≤ k := by
        by_contra hlt
        rw [seqLeq, decide_eq_true_iff, he, seqNo_eq_sub_one, eq_seqNo_of_succ_eq ha,
          serial_le_seqNo _ hnear (by omega)] at hle
        exact hlt hle
      have := ih ((List.suffix_cons e queue).trans hqueue) (by omega)
      rw [List.dropWhile_cons_of_pos (by simpa using hle)]
      omega
    · rw [List.dropWhile_cons_of_neg (by simpa using hle), List.length_cons]
      omega

end FluxCore.Utp
