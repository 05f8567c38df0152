import FluxCore.Utp.ConnectionLemmas
import FluxCore.Lib.Run
import Mathlib.Tactic.Push

/-!
# Reassembly of the received stream

A sender's stream is a list of payloads, numbered on the wire from `base`. `Reassembles` says where
a connection stands in it: which position it expects next, that the bytes read and the bytes ready
are the payloads before it, and that only packets ahead of it are buffered. `onData` keeps it
(`Reassembles.onData`) as long as the packets to drain stand at the front of the reorder buffer
(`DrainsFrom`): the buffer is ordered by the raw number and the loop looks at its first entry only.
-/

namespace FluxCore.Utp

/-! ## Wire numbers around the next position -/

section
variable {base a : UInt16} {n j : Nat}

theorem seqLeq_of_ahead (ha : a + 1 = seqNo base n) (h : n ≤ j) (hj : j + 1 < n + 2 ^ 15) :
    seqLeq (seqNo base j) a = false := by
  rw [seqLeq, eq_seqNo_of_succ_eq ha, seqNo_eq_sub_one base j, decide_eq_false_iff_not,
    serial_le_seqNo _ (by omega) (by omega)]
  omega

/-- An old number reads as old up to a distance of `2^15` modulo `2^16`. -/
theorem seqLeq_of_behind (ha : a + 1 = seqNo base n) (h : j < n)
    (hmod : (n - (j + 1)) % 2 ^ 16 ≤ 2 ^ 15) : seqLeq (seqNo base j) a = true := by
  rw [seqLeq, eq_seqNo_of_succ_eq ha, seqNo_eq_sub_one base j, decide_eq_true_iff,
    toInt16_sub_nonpos]
  rcases Nat.lt_or_ge (j + 1) n with hlt | hge
  · rw [toNat_seqNo_sub_of_lt _ hlt]
    omega
  · left
    rw [toNat_seqNo_sub _ hge]
    omega

theorem eq_next_iff (ha : a + 1 = seqNo base n) (h : n ≤ j) (hj : j < n + 2 ^ 16) :
    seqNo base j = a + 1 ↔ j = n := by
  rw [ha]
  exact ⟨seqNo_inj hj (by omega), fun h => h ▸ rfl⟩

end

/-! ## The stream and the reorder buffer -/

/-- Only packets at positions between `lo` and `hi` of the stream are buffered. -/
def Ahead (base : UInt16) (sent : List Bytes) (lo hi : Nat) (m : OrderedMap UInt16 InPacket) :
    Prop :=
  ∀ e ∈ m.entries, ∃ j, lo ≤ j ∧ j < hi ∧ e.1 = seqNo base j ∧ sent[j]? = some e.2.payload

/-- A connection that expects position `n` of the stream: with the bytes `taken` from it before, the
bytes ready are `start` and the payloads up to that position. -/
structure Reassembles (base : UInt16) (sent : List Bytes) (start taken : Bytes) (n : Nat)
    (c : UtpConnection) : Prop where
  next : c.ack + 1 = seqNo base n
  stream : taken ++ c.recvOut = start ++ (sent.take n).flatten
  ahead : Ahead base sent (n + 1) (n + 2 ^ 15) c.recvReorder

/-- If the packet numbered `s` is buffered, no buffered packet has a smaller raw number. -/
def DrainsFrom (c : UtpConnection) (s : UInt16) : Prop :=
  ∀ p, c.recvReorder.find? s = some p → ∀ e ∈ c.recvReorder.entries, s ≤ e.1

section
variable {base : UInt16} {sent : List Bytes} {start taken : Bytes} {n j lo lo' hi hi' : Nat}
  {m : OrderedMap UInt16 InPacket} {c : UtpConnection}

theorem Ahead.mono (h : Ahead base sent lo hi m) (hlo : lo' ≤ lo) (hhi : hi ≤ hi') :
    Ahead base sent lo' hi' m := by
  intro e he
  obtain ⟨j, h₁, h₂, h₃⟩ := h e he
  exact ⟨j, by omega, by omega, h₃⟩

theorem Ahead.tail (h : Ahead base sent n hi m) (hhi : hi ≤ n + 2 ^ 16) {e : UInt16 × InPacket}
    {es : List (UInt16 × InPacket)} (he : m.entries = e :: es) (hkey : e.1 = seqNo base n) :
    Ahead base sent (n + 1) hi m.tail := by
  intro e' he'
  obtain ⟨j, hlo, hlt, hs, hp⟩ := h e' (OrderedMap.mem_tail he')
  have hne : j ≠ n := by
    rintro rfl
    have hsorted := m.sorted
    rw [he] at hsorted
    rw [OrderedMap.entries_tail, he] at he'
    exact absurd (hkey.trans hs.symm) ((List.pairwise_cons.mp hsorted).1 e' he').ne
  exact ⟨j, by omega, hlt, hs, hp⟩

/-- With no packet at its lower end, the window of the buffer starts one position later. -/
theorem Ahead.of_find?_none (h : Ahead base sent n hi m) (hnone : m.find? (seqNo base n) = none) :
    Ahead base sent (n + 1) hi m := by
  intro e he
  obtain ⟨j, hlo, hlt, hs, hp⟩ := h e he
  have hne : j ≠ n := by
    rintro rfl
    exact OrderedMap.find?_eq_none.mp hnone e he hs
  exact ⟨j, by omega, hlt, hs, hp⟩

/-- The packets ahead do not include the one at the position expected. -/
theorem Ahead.find?_eq_none (h : Ahead base sent (n + 1) hi m) (hhi : hi ≤ n + 2 ^ 16) :
    m.find? (seqNo base n) = none := by
  refine OrderedMap.find?_eq_none.mpr fun e he hkey => ?_
  obtain ⟨j, hlo, hlt, hs, -⟩ := h e he
  have := seqNo_inj (by omega) (by omega) (hs.symm.trans hkey)
  omega

theorem Reassembles.congr (h : Reassembles base sent start taken n c) {c' : UtpConnection}
    (hin : c'.incoming = c.incoming) : Reassembles base sent start taken n c' := by
  simp only [UtpConnection.incoming, Incoming.mk.injEq] at hin
  obtain ⟨hack, hout, hreorder, -⟩ := hin
  exact ⟨hack ▸ h.next, hout ▸ h.stream, hreorder ▸ h.ahead⟩

/-- More packets at the end of the stream change nothing for a position in it. -/
theorem Reassembles.append (h : Reassembles base sent start taken n c) (hn : n ≤ sent.length)
    (more : List Bytes) : Reassembles base (sent ++ more) start taken n c := by
  refine ⟨h.next, ?_, fun e he => ?_⟩
  · rw [List.take_append_of_le_length hn]
    exact h.stream
  · obtain ⟨j, hlo, hlt, hs, hp⟩ := h.ahead e he
    refine ⟨j, hlo, hlt, hs, ?_⟩
    rw [List.getElem?_append_left (List.getElem?_eq_some_iff.mp hp).1]
    exact hp

theorem Reassembles.read (h : Reassembles base sent start taken n c) (cap : Nat) :
    Reassembles base sent start (taken ++ (c.read cap).1) n (c.read cap).2 := by
  refine ⟨?_, ?_, ?_⟩
  · rw [c.read_ack]
    exact h.next
  · rw [List.append_assoc, c.read_append]
    exact h.stream
  · rw [c.read_recvReorder]
    exact h.ahead

theorem Reassembles.find?_next (h : Reassembles base sent start taken n c) :
    c.recvReorder.find? (c.ack + 1) = none := by
  rw [h.next]
  exact h.ahead.find?_eq_none (by omega)

theorem flatten_take_succ {p : Bytes} (h : sent[n]? = some p) :
    (sent.take (n + 1)).flatten = (sent.take n).flatten ++ p := by
  rw [List.take_add_one, h]
  simp

/-! ## Draining -/

/-- After the first entry of the buffer has been drained its successor, if buffered, is first. -/
theorem drains_tail {e : UInt16 × InPacket} {es : List (UInt16 × InPacket)}
    (he : m.entries = e :: es) {p : InPacket} (hp : m.tail.find? (e.1 + 1) = some p) :
    ∀ e' ∈ m.tail.entries, e.1 + 1 ≤ e'.1 := by
  have hsorted := m.sorted
  rw [he] at hsorted
  have hlt : ∀ e' ∈ m.tail.entries, e.1 < e'.1 := fun e' he' =>
    (List.pairwise_cons.mp hsorted).1 e' (by rwa [OrderedMap.entries_tail, he] at he')
  have hsucc : e.1 < e.1 + 1 := hlt _ (OrderedMap.mem_of_find? hp)
  intro e' he'
  have h := hlt e' he'
  simp only [UInt16.lt_iff_toNat_lt, UInt16.le_iff_toNat_le, UInt16.toNat_add] at h hsucc ⊢
  have := e.1.toNat_lt
  simp only [UInt16.toNat_one] at hsucc ⊢
  omega

theorem drainReorder_reassembles {fuel : Nat} (hfuel : c.recvReorder.entries.length ≤ fuel)
    (hnext : c.ack + 1 = seqNo base n) (hstream : taken ++ c.recvOut = start ++ (sent.take n).flatten)
    (hn : n ≤ sent.length) (hahead : Ahead base sent n hi c.recvReorder) (hhi : hi ≤ n + 2 ^ 15)
    (hdrain : DrainsFrom c (c.ack + 1)) :
    ∃ n', n ≤ n' ∧ n' ≤ sent.length ∧ n' ≤ max n hi ∧
      Reassembles base sent start taken n' (c.drainReorder fuel) := by
  induction fuel generalizing c n with
  | zero =>
    have hnil : c.recvReorder.entries = [] := List.length_eq_zero_iff.mp (by omega)
    refine ⟨n, le_rfl, hn, by omega, hnext, hstream, ?_⟩
    intro e he
    rw [UtpConnection.drainReorder, hnil] at he
    cases he
  | succ fuel ih =>
    unfold UtpConnection.drainReorder
    split
    next hnil =>
      refine ⟨n, le_rfl, hn, by omega, hnext, hstream, fun e he => ?_⟩
      rw [hnil] at he
      cases he
    next key p es hes =>
      split
      next hkey =>
        -- nothing is due: a due packet would be the first entry
        have hnone : c.recvReorder.find? (c.ack + 1) = none := by
          cases hfind : c.recvReorder.find? (c.ack + 1) with
          | none => rfl
          | some q =>
            have hle := hdrain q hfind (key, p) (hes ▸ List.mem_cons_self)
            have hge := OrderedMap.head_key_le hes (OrderedMap.mem_of_find? hfind)
            exact absurd (le_antisymm hge hle) hkey
        rw [hnext] at hnone
        exact ⟨n, le_rfl, hn, by omega, hnext, hstream,
          (hahead.of_find?_none hnone).mono le_rfl hhi⟩
      next hkey =>
        have hkey : key = c.ack + 1 := by simpa using hkey
        obtain ⟨j, hlo, hlt, hs, hp⟩ := hahead (key, p) (hes ▸ List.mem_cons_self)
        obtain rfl : j = n := (eq_next_iff hnext hlo (by omega)).mp (hs.symm.trans hkey)
        have hj : j < sent.length := (List.getElem?_eq_some_iff.mp hp).1
        obtain ⟨n', h₁, h₂, h₃, h⟩ := ih (n := j + 1)
          (c := { c with
            recvOut := c.recvOut ++ p.payload
            recvBuffered := c.recvBuffered - UInt32.ofNat p.payload.length
            ack := key
            recvReorder := c.recvReorder.tail })
          (by simp only [OrderedMap.entries_tail, hes] at hfuel ⊢; simpa using hfuel)
          (by rw [hkey, hnext, seqNo_succ])
          (by rw [← List.append_assoc, hstream, flatten_take_succ hp, List.append_assoc])
          hj (hahead.tail (by omega) hes hs) (by omega)
          (fun q hq => drains_tail hes hq)
        exact ⟨n', by omega, h₂, by omega, h⟩

/-! ## A data packet -/

theorem Reassembles.bufferPacket (h : Reassembles base sent start taken n c) (hlo : n < j)
    (hhi : j + 1 < n + 2 ^ 15) {payload : Bytes} (hp : sent[j]? = some payload) (nowUs : UInt32) :
    Reassembles base sent start taken n (c.bufferPacket (seqNo base j) payload nowUs) := by
  unfold UtpConnection.bufferPacket
  split
  · refine ⟨?_, ?_, ?_⟩
    · dsimp only
      split <;> exact h.next
    · dsimp only
      split <;> exact h.stream
    · intro e he
      rcases OrderedMap.mem_insert.mp he with rfl | ⟨he, -⟩
      · exact ⟨j, hlo, by omega, rfl, hp⟩
      · have he' : e ∈ c.recvReorder.entries := by
          split at he
          · exact he
          · exact (OrderedMap.mem_erase.mp he).1
        exact h.ahead e he'
  · exact h

/-- The packet at position `j` of the stream arrives: the connection still stands in the stream, at
a position no smaller, provided that an old number reads as old and that a packet that becomes due
stands at the front of the buffer. -/
theorem Reassembles.onData (h : Reassembles base sent start taken n c) (hn : n ≤ sent.length)
    {hdr : PacketHeader} {payload : Bytes} (hseq : hdr.seqNr = seqNo base j)
    (hp : sent[j]? = some payload) (hne : payload ≠ []) (hhi : j + 1 < n + 2 ^ 15)
    (hold : j < n → (n - (j + 1)) % 2 ^ 16 ≤ 2 ^ 15)
    (hdrain : j = n → DrainsFrom c (seqNo base (n + 1))) (nowUs : UInt32) :
    ∃ n', n ≤ n' ∧ n' ≤ sent.length ∧ n' ≤ n + 2 ^ 15 ∧
      Reassembles base sent start taken n' (c.onData hdr payload nowUs) := by
  unfold UtpConnection.onData
  dsimp only
  rw [if_neg (by simpa using hne), hseq]
  rcases Nat.lt_or_ge j n with hjn | hjn
  · rw [if_pos (seqLeq_of_behind h.next hjn (hold hjn))]
    exact ⟨n, le_rfl, hn, by omega, h.next, h.stream, h.ahead⟩
  rw [if_neg (by simp [seqLeq_of_ahead h.next hjn hhi])]
  by_cases hj : j = n
  · subst hj
    rw [if_pos h.next.symm]
    have hlen : j < sent.length := (List.getElem?_eq_some_iff.mp hp).1
    have hahead : Ahead base sent (j + 1) (j + 2 ^ 15) c.recvReorder := h.ahead
    obtain ⟨n', h₁, h₂, h₃, hr⟩ := drainReorder_reassembles
      (c := { { c with ackPending := true } with
        recvOut := c.recvOut ++ payload, ack := seqNo base j }) le_rfl (by rw [seqNo_succ])
      (by rw [← List.append_assoc, h.stream, flatten_take_succ hp, List.append_assoc])
      hlen hahead (by omega) (by rw [← seqNo_succ]; exact hdrain rfl)
    exact ⟨n', by omega, h₂, by omega, hr.next, hr.stream, hr.ahead⟩
  · rw [if_neg (by rw [eq_next_iff h.next hjn (by omega)]; exact hj)]
    have hb := Reassembles.bufferPacket (c := { c with ackPending := true })
      ⟨h.next, h.stream, h.ahead⟩ (by omega) hhi hp nowUs
    exact ⟨n, le_rfl, hn, by omega, hb.next, hb.stream, hb.ahead⟩

/-- When the next packet arrives while its successor is buffered behind a smaller raw number, the
successor stays in the buffer although it is due. -/
theorem onData_leaves_due {hdr : PacketHeader} {payload : Bytes} (hseq : hdr.seqNr = c.ack + 1)
    (hne : payload ≠ []) (hbad : ¬DrainsFrom c (c.ack + 1 + 1)) (nowUs : UInt32) :
    (c.onData hdr payload nowUs).recvReorder.find? ((c.onData hdr payload nowUs).ack + 1) ≠ none := by
  have hnew : seqLeq (c.ack + 1) c.ack = false := by
    have hzero : seqLeq (seqNo (c.ack + 1) 0) c.ack = false :=
      seqLeq_of_ahead (n := 0) (j := 0) (seqNo_zero _).symm le_rfl (by omega)
    simpa using hzero
  unfold UtpConnection.onData
  dsimp only
  rw [if_neg (by simpa using hne), hseq, if_neg (by simp [hnew]), if_pos rfl]
  unfold DrainsFrom at hbad
  push Not at hbad
  obtain ⟨p, hp, e, he, hlt⟩ := hbad
  -- the loop stops at the first entry
  cases hes : c.recvReorder.entries with
  | nil => rw [hes] at he; cases he
  | cons hd tl =>
    have hkey : hd.1 ≠ c.ack + 1 + 1 :=
      ((OrderedMap.head_key_le hes he).trans_lt hlt).ne
    rw [List.length_cons, UtpConnection.drainReorder]
    simp [hes, hkey, hp]

end

end FluxCore.Utp
