import FluxCore.Utp.Calls
import FluxCore.Utp.Receive

/-!
# Selective acknowledgements

What a control packet says about the reorder buffer. The encoder takes the difference of two numbers
without wrap, the reader counts on modulo `2^16`: a bitmap is exact if and only if no packet is
buffered whose number has wrapped since `ack` (`sack_exact_iff`). It never names a packet that is
not there.
-/

namespace FluxCore.Utp

/-! ## Bits -/

def hasBit (bits : UInt32) (i : Nat) : Bool := bits.toNat.testBit i

@[simp] theorem hasBit_or (a b : UInt32) (i : Nat) :
    hasBit (a ||| b) i = (hasBit a i || hasBit b i) := by
  simp [hasBit]

theorem hasBit_shiftLeft {j : Nat} (hj : j < 32) (i : Nat) :
    hasBit (1 <<< UInt32.ofNat j) i = decide (j = i) := by
  have hpow : (1 <<< UInt32.ofNat j : UInt32).toNat = 2 ^ j := by
    rw [UInt32.toNat_shiftLeft, UInt32.toNat_ofNat', Nat.mod_eq_of_lt (a := j) (by omega),
      Nat.mod_eq_of_lt hj, Nat.shiftLeft_eq, UInt32.toNat_one, Nat.one_mul]
    exact Nat.mod_eq_of_lt (Nat.pow_lt_pow_right (by decide) hj)
  rw [hasBit, hpow, Nat.testBit_two_pow]

/-- How the code looks at a bit. -/
theorem and_ne_zero_iff {bits : UInt32} {i : Nat} (hi : i < 32) :
    bits &&& (1 <<< UInt32.ofNat i) ≠ 0 ↔ hasBit bits i = true := by
  have hand : ∀ j, (bits &&& (1 <<< UInt32.ofNat i)).toNat.testBit j =
      (hasBit bits j && decide (i = j)) := fun j => by
    rw [← hasBit_shiftLeft hi, UInt32.toNat_and, Nat.testBit_and]
    rfl
  constructor
  · intro hne
    by_contra hbit
    refine hne (UInt32.toNat_inj.mp (Nat.eq_of_testBit_eq fun j => ?_))
    rw [hand, UInt32.toNat_zero, Nat.zero_testBit]
    by_cases hij : i = j
    · rw [← hij, Bool.eq_false_iff.mpr hbit, Bool.false_and]
    · rw [decide_eq_false hij, Bool.and_false]
  · intro hbit hzero
    have hi' := hand i
    rw [hzero, hbit] at hi'
    simp at hi'

/-- The bytes of a bitmap are put together as they were taken apart. -/
theorem decodeSackBits_sackBitmap (bits : UInt32) : decodeSackBits (sackBitmap bits) = bits := by
  have hbytes : decodeSackBits (sackBitmap bits) =
      ((((0 : UInt32) ||| ((bits >>> 0) &&& 0xFF).toUInt8.toUInt32 <<< 0) |||
        ((bits >>> 8) &&& 0xFF).toUInt8.toUInt32 <<< 8) |||
        ((bits >>> 16) &&& 0xFF).toUInt8.toUInt32 <<< 16) |||
        ((bits >>> 24) &&& 0xFF).toUInt8.toUInt32 <<< 24 := rfl
  have hv := bits.toNat_lt
  have hand : ∀ n : Nat, n &&& 255 = n % 256 := fun n => Nat.and_two_pow_sub_one_eq_mod n 8
  apply UInt32.toNat_inj.mp
  rw [hbytes]
  simp [Nat.shiftRight_eq_div_pow, Nat.shiftLeft_eq, hand]
  simp (disch := omega) only [Nat.mod_eq_of_lt]
  generalize bits.toNat = n at *
  have h₁ : n % 256 ||| n / 256 % 256 * 256 = n % 65536 := by
    rw [Nat.or_comm, or_eq_add (a := n / 256 % 256 * 256) 8 (n / 256 % 256) rfl (by omega)]
    omega
  have h₂ : n % 65536 ||| n / 65536 % 256 * 65536 = n % 16777216 := by
    rw [Nat.or_comm, or_eq_add (a := n / 65536 % 256 * 65536) 16 (n / 65536 % 256) rfl
      (by omega)]
    omega
  have h₃ : n % 16777216 ||| n / 16777216 * 16777216 = n := by
    rw [Nat.or_comm, or_eq_add (a := n / 16777216 * 16777216) 24 (n / 16777216) rfl (by omega)]
    omega
  rw [h₁, h₂, h₃]

namespace UtpConnection

variable (c : UtpConnection)

/-- The bits of the bitmap, by distances without wrap. -/
theorem hasBit_sackBits {i : Nat} (hi : i < 32) :
    hasBit c.sackBits i = true ↔ ∃ e ∈ c.recvReorder.entries, e.1.toNat = c.ack.toNat + 2 + i := by
  have hfold : ∀ (es : List (UInt16 × InPacket)) (bits : UInt32),
      hasBit (es.foldl (fun bits kv =>
        let off : Int := kv.1.toNat - c.ack.toNat - 2
        if 0 ≤ off ∧ off < 32 then bits ||| (1 <<< UInt32.ofNat off.toNat) else bits) bits) i =
          true ↔ hasBit bits i = true ∨ ∃ e ∈ es, e.1.toNat = c.ack.toNat + 2 + i := by
    intro es
    induction es with
    | nil => simp
    | cons e es ih =>
      intro bits
      rw [List.foldl_cons, ih]
      have hhead : hasBit (if 0 ≤ (e.1.toNat : Int) - c.ack.toNat - 2 ∧
          (e.1.toNat : Int) - c.ack.toNat - 2 < 32 then
            bits ||| (1 <<< UInt32.ofNat ((e.1.toNat : Int) - c.ack.toNat - 2).toNat)
          else bits) i = true ↔ hasBit bits i = true ∨ e.1.toNat = c.ack.toNat + 2 + i := by
        split_ifs with hoff
        · rw [hasBit_or, Bool.or_eq_true, hasBit_shiftLeft (by omega), decide_eq_true_iff]
          refine or_congr_right ⟨fun h => ?_, fun h => ?_⟩ <;> omega
        · refine ⟨.inl, fun h => h.resolve_right fun heq => hoff ?_⟩
          omega
      simp only [hhead, List.exists_mem_cons_iff, or_assoc]
  rw [sackBits, hfold, or_iff_right]
  simp [hasBit]

/-- How the other side reads a control packet: the number it acknowledges and the bitmap. -/
def readControl (type : UInt8) (nowUs : UInt32) (seqForAck : UInt16) : Option (UInt16 × UInt32) :=
  ((c.queueControl type nowUs seqForAck).outbox.getLast?.bind parsePacket).map fun q =>
    (q.1.ackNr, sackOf q.2)

theorem readControl_eq {type : UInt8} (ht : type < 16) (nowUs : UInt32) {seqForAck : UInt16}
    (h : seqForAck = 0 ∨ seqForAck = c.ack) :
    c.readControl type nowUs seqForAck = some (c.ack, c.sackBits) := by
  have hh : (c.controlHeader type nowUs seqForAck).Encodable := ⟨ht, rfl⟩
  have hack := c.controlHeader_ackNr type nowUs h
  unfold readControl queueControl
  dsimp only
  rw [List.getLast?_append_cons, List.getLast?_singleton, Option.bind_some]
  split
  next he =>
    have hparse := parsePacket_encodeHeader hh (if_pos he) []
    have hbits : c.sackBits = 0 := by
      rw [sackBits, List.isEmpty_iff.mp he]
      rfl
    rw [List.append_nil] at hparse
    rw [hparse, Option.map_some, hack, hbits]
    rfl
  next he =>
    rw [parsePacket_appendSackExtension hh (if_neg he), Option.map_some, hack]
    exact congrArg (fun bits => some (c.ack, bits)) (decodeSackBits_sackBitmap c.sackBits)

/-- Bit `i` says whether the packet `i + 2` behind `ack` is buffered. -/
def Describes (bits : UInt32) : Prop :=
  ∀ i < 32, hasBit bits i = true ↔ c.recvReorder.find? (c.ack + 2 + UInt16.ofNat i) ≠ none

/-- The bitmap of every control packet is the reorder buffer. -/
def SackExact : Prop :=
  ∀ type nowUs seqForAck, type < 16 → seqForAck = 0 ∨ seqForAck = c.ack →
    ∃ bits, c.readControl type nowUs seqForAck = some (c.ack, bits) ∧ c.Describes bits

/-- What a sender counts as received behind its oldest packet is held here. -/
def CountsHeld : Prop :=
  ∀ type nowUs seqForAck, type < 16 → seqForAck = 0 ∨ seqForAck = c.ack →
    ∃ ackNr bits, c.readControl type nowUs seqForAck = some (ackNr, bits) ∧
      ∀ oldest, sacksAfter ackNr oldest bits ≤
        c.recvReorder.entries.countP fun e => seqAfter e.1 oldest

/-- No packet is buffered whose number has wrapped since `ack`. -/
def Unwrapped : Prop :=
  ∀ i < 32, 2 ^ 16 ≤ c.ack.toNat + 2 + i → c.recvReorder.find? (c.ack + 2 + UInt16.ofNat i) = none

variable {c}

theorem toNat_add_two_add {a : UInt16} {i : Nat} :
    (a + 2 + UInt16.ofNat i).toNat = (a.toNat + 2 + i) % 2 ^ 16 := by
  have htwo : (2 : UInt16).toNat = 2 := rfl
  rw [UInt16.toNat_add, UInt16.toNat_add, UInt16.toNat_ofNat', htwo]
  omega

theorem find?_ne_none_iff {s : UInt16} :
    c.recvReorder.find? s ≠ none ↔ ∃ e ∈ c.recvReorder.entries, e.1.toNat = s.toNat := by
  simp only [ne_eq, OrderedMap.find?_eq_none, not_forall, not_not, UInt16.toNat_inj, exists_prop]

theorem describes_sackBits_iff : c.Describes c.sackBits ↔ c.Unwrapped := by
  refine forall_congr' fun i => forall_congr' fun hi => ?_
  have ha := c.ack.toNat_lt
  rw [c.hasBit_sackBits hi, find?_ne_none_iff, toNat_add_two_add]
  by_cases hwrap : 2 ^ 16 ≤ c.ack.toNat + 2 + i
  · have hno : ¬∃ e ∈ c.recvReorder.entries, e.1.toNat = c.ack.toNat + 2 + i := by
      rintro ⟨e, -, he⟩
      have := e.1.toNat_lt
      omega
    rw [iff_false_left hno, ← toNat_add_two_add, ← find?_ne_none_iff, not_not]
    exact ⟨fun h _ => h, fun h => h hwrap⟩
  · rw [Nat.mod_eq_of_lt (by omega)]
    exact iff_of_true Iff.rfl fun h => absurd h hwrap

theorem sacksAfter_sackBits_le (oldest : UInt16) : sacksAfter c.ack oldest c.sackBits ≤
    c.recvReorder.entries.countP fun e => seqAfter e.1 oldest := by
  have hkeys : ∀ q : UInt16 × InPacket → Bool, (c.recvReorder.entries.filter q).length =
      ((c.recvReorder.entries.filter q).map fun e => e.1.toNat).length :=
    fun _ => (List.length_map _).symm
  unfold sacksAfter
  rw [List.countP_eq_length_filter, List.countP_eq_length_filter, hkeys,
    ← List.length_map (fun i => (c.ack.toNat + 2 + i))]
  refine (List.subperm_of_subset ?_ fun n hn => ?_).length_le
  · exact (List.nodup_range.filter _).map fun i j (h : _ + i = _ + j) => by omega
  · obtain ⟨i, hi, rfl⟩ := List.mem_map.mp hn
    simp only [List.mem_filter, List.mem_range, Bool.and_eq_true, decide_eq_true_eq] at hi
    obtain ⟨hi, hbit, hafter⟩ := hi
    obtain ⟨e, he, hnum⟩ := (c.hasBit_sackBits hi).mp ((and_ne_zero_iff hi).mp hbit)
    have hseq : e.1 = c.ack + 2 + UInt16.ofNat i := by
      have := e.1.toNat_lt
      rw [← UInt16.toNat_inj, toNat_add_two_add, Nat.mod_eq_of_lt (by omega), hnum]
    exact List.mem_map.mpr ⟨e, List.mem_filter.mpr ⟨he, hseq ▸ hafter⟩, hnum⟩

end UtpConnection

open UtpConnection

/-- In every state the control packets describe the reorder buffer exactly if and only if no packet
is buffered across the wrap, and they never make a sender count one that is not there. -/
theorem sack_exact_iff (c : UtpConnection) : (c.SackExact ↔ c.Unwrapped) ∧ c.CountsHeld := by
  refine ⟨?_, fun type nowUs seqForAck ht h =>
    ⟨_, _, c.readControl_eq ht nowUs h, sacksAfter_sackBits_le⟩⟩
  rw [← describes_sackBits_iff]
  constructor
  · intro h
    obtain ⟨bits, hread, hbits⟩ := h 0 0 0 (by decide) (.inl rfl)
    rw [c.readControl_eq (by decide) 0 (.inl rfl), Option.some.injEq, Prod.mk.injEq] at hread
    exact hread.2 ▸ hbits
  · exact fun h type nowUs seqForAck ht hseq => ⟨_, c.readControl_eq ht nowUs hseq, h⟩

/-- The packet behind the next one arrives, and its number has wrapped. -/
theorem sack_wrapped :
    ¬∀ c : UtpConnection, c.Fresh → ∀ xs, Visits UtpConnection.call SackExact c xs := by
  intro h
  have hexact := (h _ (.responder "" 0 0 65534 0) [.packet (dataDatagram 0 1) 0]).last
  obtain ⟨bits, hread, hbits⟩ := hexact ST_STATE 0 0 (by decide) (.inl rfl)
  have hzero : bits = 0 := by
    have hempty : (exec UtpConnection.call (.responder "" 0 0 65534 0)
      [.packet (dataDatagram 0 1) 0]).readControl ST_STATE 0 0 = some (65534, 0) := by
        decide +kernel
    exact (Prod.mk.inj (Option.some.inj (hread.symm.trans hempty))).2
  have hfound := (hbits 0 (by decide)).mpr (by decide +kernel)
  rw [hzero] at hfound
  exact absurd hfound (by decide)

end FluxCore.Utp
