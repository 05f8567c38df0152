import FluxCore.Bt.PeerConnection
import Mathlib.Data.List.Induction

/-!
# The framing of the peer wire

What a pass of the cursor does is said once, in terms of the bytes of the current message that have
arrived (`pass_eq`). From it: every read asks for bytes that fit in the buffer unless the length
prefix has trapped it (`Trap`), and a stream of messages that fit is received as it was sent,
however it is cut into reads.
-/

namespace FluxCore.Bt

open Utp (Bytes)

/-! ## The length prefix -/

/-- The length that the bytes of a prefix add up to. -/
def prefixValue (bs : Bytes) : UInt32 := bs.foldl (fun v b => (v <<< 8) + b.toUInt32) 0

theorem prefixValue_concat (bs : Bytes) (b : UInt8) :
    prefixValue (bs ++ [b]) = (prefixValue bs <<< 8) + b.toUInt32 := by
  simp [prefixValue]

theorem toNat_shift_add (v : UInt32) (b : UInt8) (hv : v.toNat < 2 ^ 24) :
    ((v <<< 8) + b.toUInt32).toNat = v.toNat * 256 + b.toNat := by
  have hb := b.toNat_lt
  rw [UInt32.toNat_add, UInt32.toNat_shiftLeft, UInt8.toNat_toUInt32]
  have h8 : (8 : UInt32).toNat % 32 = 8 := rfl
  rw [h8, Nat.shiftLeft_eq]
  omega

/-- Up to four bytes nothing is lost. -/
theorem prefixValue_lt {bs : Bytes} (h : bs.length ≤ 3) :
    (prefixValue bs).toNat < 256 ^ bs.length := by
  induction bs using List.reverseRecOn with
  | nil => decide
  | append_singleton bs b ih =>
    rw [List.length_append, List.length_singleton] at h ⊢
    have hlt := ih (by omega)
    have h24 : (256 : Nat) ^ bs.length ≤ 256 ^ 2 := Nat.pow_le_pow_right (by decide) (by omega)
    have hb := b.toNat_lt
    rw [prefixValue_concat, toNat_shift_add _ _ (by omega), Nat.pow_succ]
    omega

theorem prefixValue_four {bs : Bytes} (h : bs.length = 3) (b : UInt8) :
    (prefixValue (bs ++ [b])).toNat = (prefixValue bs).toNat * 256 + b.toNat := by
  have hlt := prefixValue_lt h.le
  rw [h] at hlt
  rw [prefixValue_concat, toNat_shift_add _ _ hlt]

namespace PeerConnection

variable {c : PeerConnection} {data : Bytes}

/-! ## The cursor -/

/-- Where the current message starts, or the next one when there is none. -/
def frameStart (c : PeerConnection) : Nat :=
  if c.msgState = .prevReadLength then c.resbufOffset else c.msgOffset

/-- The bytes that have arrived of the current message and of those behind it. -/
def pending (c : PeerConnection) : Bytes := c.resbuf.drop c.frameStart

/-- The length prefix of the bytes that have arrived. -/
def prefixLength (c : PeerConnection) : UInt32 := prefixValue (c.pending.take 4)

/-- The cursor, the message offset and the length agree with the bytes in the buffer. -/
structure Tracks (c : PeerConnection) : Prop where
  capacity : MAX_BUFFER_CAPACITY ≤ c.bufferCapacity
  capacity_lt : c.bufferCapacity < 2 ^ 64
  fits : c.currentPayloadLength.toNat + 4 ≤ c.bufferCapacity
  noWrap : c.currentPayloadLength.toNat + 4 < 2 ^ 32
  length : c.resbuf.length ≤ c.bufferCapacity
  offset : c.resbufOffset ≤ c.resbuf.length
  between : c.msgState = .prevReadLength → c.pending = [] →
    c.resbufOffset = c.msgOffset + 4 + c.currentPayloadLength.toNat ∨ c.resbuf = []
  inLength : c.msgState = .readLength → ∃ k, 1 ≤ k ∧ k ≤ 3 ∧ c.resbufOffset = c.msgOffset + k ∧
    c.currentPayloadLength = prefixValue (c.pending.take k)
  inPayload : c.msgState = .readPayload → c.msgOffset + 4 ≤ c.resbufOffset ∧
    c.resbufOffset < c.msgOffset + 4 + c.currentPayloadLength.toNat ∧
    c.currentPayloadLength = c.prefixLength

/-- What a pass makes of the bytes `p` of a message that starts at `m`. -/
def judged (c : PeerConnection) (m : Nat) (p : Bytes) : Scan :=
  if p.length < 4 then
    .more { c with
      msgState := .readLength
      msgOffset := m
      currentPayloadLength := prefixValue p
      resbufOffset := c.resbuf.length }
  else
    let length := prefixValue (p.take 4)
    if c.bufferCapacity < (length + 4).toNat then .abort (.tooLong length)
    else if length = 0 ∨ (4 + length).toNat ≤ p.length ∧ 4 < p.length then
      .done { c with
        msgState := .prevReadLength
        msgOffset := m
        currentPayloadLength := length
        resbufOffset := m + 4 + length.toNat }
    else
      .more { c with
        msgState := .readPayload
        msgOffset := m
        currentPayloadLength := length
        resbufOffset := c.resbuf.length }

/-- The cursor in a payload. -/
theorem scan_payload {bs : Bytes} {i : Nat} (h : c.msgState = .readPayload)
    (hi : i + bs.length = c.resbuf.length) :
    scan bs i c =
      if bs ≠ [] ∧ (4 + c.currentPayloadLength).toNat ≤ c.resbuf.length - c.msgOffset then
        .done { c with
          msgState := .prevReadLength
          resbufOffset := c.msgOffset + 4 + c.currentPayloadLength.toNat }
      else .more { c with resbufOffset := c.resbuf.length } := by
  cases bs with
  | nil =>
    rw [if_neg fun h => h.1 rfl, ← hi]
    rfl
  | cons b bs =>
    simp only [scan, h, ne_eq, reduceCtorEq, not_false_eq_true, true_and]

/-- The cursor in a length, behind the bytes `pre` of it. -/
theorem scan_length {bs : Bytes} (pre : Bytes) {i : Nat} (h : c.msgState = .readLength)
    (hi : i = c.msgOffset + pre.length) (hpre : pre.length ≤ 3)
    (hlen : c.currentPayloadLength = prefixValue pre)
    (hbs : c.resbuf.drop c.msgOffset = pre ++ bs) (hm : c.msgOffset ≤ c.resbuf.length) :
    scan bs i c = judged c c.msgOffset (pre ++ bs) := by
  have hsize : c.resbuf.length - c.msgOffset = pre.length + bs.length := by
    rw [← List.length_drop, hbs, List.length_append]
  induction bs generalizing c pre i with
  | nil =>
    rw [List.append_nil, judged, if_pos (by omega)]
    have hend : i = c.resbuf.length := by rw [List.length_nil] at hsize; omega
    simp only [scan, hend, ← hlen, ← h]
  | cons b bs ih =>
    have hsum : (c.addLength b).currentPayloadLength = prefixValue (pre ++ [b]) := by
      rw [prefixValue_concat, ← hlen]
      rfl
    have happ : pre ++ b :: bs = (pre ++ [b]) ++ bs := by simp
    have hstep : scan (b :: bs) i c =
        if pre.length = 3 then
          if c.bufferCapacity < (prefixValue (pre ++ [b]) + 4).toNat then
            .abort (.tooLong (prefixValue (pre ++ [b])))
          else if prefixValue (pre ++ [b]) = 0 then
            .done { c.addLength b with msgState := .prevReadLength, resbufOffset := i + 1 }
          else scan bs (i + 1) { c.addLength b with msgState := .readPayload }
        else scan bs (i + 1) (c.addLength b) := by
      have hk : i - c.msgOffset = pre.length := by rw [hi, Nat.add_sub_cancel_left]
      rw [scan, h]
      simp only [reduceCtorEq, if_false, hsum]
      simp only [addLength, hk]
      rfl
    rw [hstep]
    split
    next hthree =>
      have htake : (pre ++ b :: bs).take 4 = pre ++ [b] := by
        rw [happ, List.take_left' (by simp [hthree])]
      have hlong : ¬(pre ++ b :: bs).length < 4 := by
        rw [List.length_append, hthree, List.length_cons]
        omega
      rw [judged, if_neg hlong]
      simp only [htake]
      split
      · rfl
      have hoff : i + 1 = c.msgOffset + 4 := by omega
      split
      next hzero =>
        have hend : i + 1 = c.msgOffset + 4 + (prefixValue (pre ++ [b])).toNat := by
          rw [hzero]
          exact hoff
        rw [if_pos (.inl hzero), hend, ← hsum]
        rfl
      next hzero =>
        rw [scan_payload (c := { c.addLength b with msgState := .readPayload }) rfl
          (by simp only [addLength]; simp only [List.length_cons] at hsize; omega)]
        have hlonger : 4 < (pre ++ b :: bs).length ↔ bs ≠ [] := by
          simp only [List.length_append, hthree, List.length_cons]
          rw [← List.length_pos_iff]
          omega
        have hlength : c.resbuf.length - c.msgOffset = (pre ++ b :: bs).length := by
          rw [hsize, List.length_append]
        rw [← hsum] at hzero
        simp only [← hsum, hzero, false_or, hlonger]
        simp only [addLength, hlength, and_comm]
    next hthree =>
      rw [ih (c := c.addLength b) (pre ++ [b]) h (by simp [addLength, hi, Nat.add_assoc])
        (by simp; omega) hsum (by simpa [addLength] using hbs) hm
        (by simp only [addLength, List.length_append, List.length_singleton]
            simp only [List.length_cons] at hsize; omega), happ]
      rfl

theorem scan_prev {bs : Bytes} {i : Nat} {b : UInt8} (h : c.msgState = .prevReadLength) :
    scan (b :: bs) i c = scan (b :: bs) i (c.startMessage i) := by
  simp [scan, h, startMessage]

theorem drop_frameStart (h : c.Tracks) : c.frameStart ≤ c.resbufOffset := by
  unfold frameStart
  split
  · exact le_rfl
  next hs =>
    cases hstate : c.msgState with
    | prevReadLength => exact absurd hstate hs
    | readLength =>
      obtain ⟨k, -, -, hk, -⟩ := h.inLength hstate
      omega
    | readPayload => exact (by have := (h.inPayload hstate).1; omega)

/-- A pass depends only on the bytes of the current message. -/
theorem pass_eq (h : c.Tracks) :
    c.pass = if c.pending = [] then .more c else judged c c.frameStart c.pending := by
  unfold pass
  cases hstate : c.msgState with
  | prevReadLength =>
    have hstart : c.frameStart = c.resbufOffset := if_pos hstate
    rw [pending, hstart]
    cases hd : c.resbuf.drop c.resbufOffset with
    | nil => rfl
    | cons b bs =>
      rw [scan_prev hstate, if_neg (List.cons_ne_nil b bs)]
      exact scan_length (c := c.startMessage c.resbufOffset) [] rfl rfl (by decide) rfl hd
        h.offset
  | readLength =>
    have hstart : c.frameStart = c.msgOffset := if_neg (by rw [hstate]; decide)
    obtain ⟨k, hk1, hk3, hoff, hlen⟩ := h.inLength hstate
    have hle := h.offset
    have hpend : c.pending.length = c.resbuf.length - c.msgOffset := by
      rw [pending, hstart, List.length_drop]
    have hsplit : c.pending = c.pending.take k ++ c.resbuf.drop c.resbufOffset := by
      rw [hoff, ← List.drop_drop, pending, hstart, List.take_append_drop]
    have htake : (c.pending.take k).length = k := List.length_take_of_le (by omega)
    rw [if_neg (by intro hnil; rw [hnil] at hpend; simp at hpend; omega), hstart]
    conv_rhs => rw [hsplit]
    exact scan_length _ hstate (by omega) (by omega) hlen (by rw [← hsplit, pending, hstart])
      (by omega)
  | readPayload =>
    have hstart : c.frameStart = c.msgOffset := if_neg (by rw [hstate]; decide)
    obtain ⟨h1, h2, hlen⟩ := h.inPayload hstate
    have hle := h.offset
    have hfits := h.fits
    have hnw := h.noWrap
    have hpend : c.pending.length = c.resbuf.length - c.msgOffset := by
      rw [pending, hstart, List.length_drop]
    have hlong : ¬c.pending.length < 4 := by omega
    rw [if_neg (by intro hnil; rw [hnil] at hpend; simp at hpend; omega),
      scan_payload hstate (by rw [List.length_drop]; omega), judged, if_neg hlong]
    have hlen' : prefixValue (c.pending.take 4) = c.currentPayloadLength := hlen.symm
    have hadd : (c.currentPayloadLength + 4).toNat = c.currentPayloadLength.toNat + 4 := by
      rw [UInt32.toNat_add]
      exact Nat.mod_eq_of_lt hnw
    have hadd' : (4 + c.currentPayloadLength).toNat = c.currentPayloadLength.toNat + 4 := by
      rw [UInt32.add_comm, hadd]
    have hne : c.currentPayloadLength ≠ 0 := by
      rintro h0
      rw [h0] at h2
      simp at h2
      omega
    simp only [hlen', hadd, hadd', not_lt.mpr hfits, if_false, hne, false_or, hpend, hstart]
    have hiff : (List.drop c.resbufOffset c.resbuf ≠ [] ∧
        c.currentPayloadLength.toNat + 4 ≤ c.resbuf.length - c.msgOffset) ↔
        (c.currentPayloadLength.toNat + 4 ≤ c.resbuf.length - c.msgOffset ∧
          4 < c.resbuf.length - c.msgOffset) := by
      rw [ne_eq, List.drop_eq_nil_iff]
      omega
    simp only [hiff, ← hstate]

/-! ## A pass -/

/-- The prefix has trapped the connection: the three bytes of it that have arrived already ask for
more than the buffer holds, or the length is so large that its sum with the prefix overflows. -/
def Trap (c : PeerConnection) : Prop :=
  c.pending.length = 3 ∧ c.bufferCapacity < (prefixValue c.pending).toNat + 4 ∨
    4 ≤ c.pending.length ∧ 2 ^ 32 ≤ c.prefixLength.toNat + 4

/-- What a pass that is not trapped leads to. -/
inductive Passed (c : PeerConnection) : Scan → Prop
  | abort (h4 : 4 ≤ c.pending.length) (hlong : c.bufferCapacity < c.prefixLength.toNat + 4) :
    Passed c (.abort (.tooLong c.prefixLength))
  | done {c'} (hlen : 4 + c.prefixLength.toNat ≤ c.pending.length)
    (hfits : c.prefixLength.toNat + 4 ≤ c.bufferCapacity) (tracks : c'.Tracks)
    (capacity : c'.bufferCapacity = c.bufferCapacity)
    (length : c'.currentPayloadLength = c.prefixLength)
    (payload : c'.getMsgPayloadBuffer = (c.pending.drop 4).take c.prefixLength.toNat)
    (pending : c'.pending = c.pending.drop (4 + c.prefixLength.toNat)) : Passed c (.done c')
  | more {c'}
    (short : c.pending.length < 4 ∨ c.pending.length < 4 + c.prefixLength.toNat)
    (offset : c'.resbufOffset = c'.resbuf.length) (tracks : c'.settle.Tracks)
    (capacity : c'.settle.bufferCapacity = c.bufferCapacity)
    (pending : c'.settle.pending = c.pending)
    (nread : 0 < c'.settle.nread ∧
      c'.settle.nread ≤ c'.settle.bufferCapacity - c'.settle.resbuf.length) : Passed c (.more c')

theorem sizeSub_eq {a b : Nat} (h : b ≤ a) (ha : a < 2 ^ 64) : sizeSub a b = a - b := by
  unfold sizeSub
  omega

theorem toNat_add_four {v : UInt32} (h : v.toNat + 4 < 2 ^ 32) : (v + 4).toNat = v.toNat + 4 := by
  rw [UInt32.toNat_add]
  exact Nat.mod_eq_of_lt h

/-- A connection that tracks its message asks for as many bytes as fit, or less. -/
theorem nread_fits (h : c.Tracks) (hroom : c.resbuf.length < c.currentPayloadLength.toNat + 4 ∨
    c.resbuf.length ≤ 4096) :
    0 < c.nread ∧ c.nread ≤ c.bufferCapacity - c.resbuf.length := by
  have hcap := h.capacity
  have hlt := h.capacity_lt
  have hfits := h.fits
  have hlen := h.length
  have hmax : MAX_BUFFER_CAPACITY = 65664 := rfl
  unfold nread
  split
  · rw [toNat_add_four h.noWrap, sizeSub_eq (by omega) (by omega)]
    omega
  · rw [sizeSub_eq (by omega) hlt]
    omega

/-- Without a byte of a message in the buffer, it is empty or is forgotten. -/
theorem settle_empty (h : c.Tracks) (hnil : c.pending = []) :
    c.resbufOffset = c.resbuf.length ∧ c.settle.Tracks ∧ c.settle.resbuf = [] ∧
      c.settle.bufferCapacity = c.bufferCapacity ∧ c.settle.pending = [] := by
  have hstart := drop_frameStart h
  have hoff := h.offset
  have hle : c.resbuf.length ≤ c.frameStart := List.drop_eq_nil_iff.mp hnil
  have hprev : c.msgState = .prevReadLength := by
    by_contra hs
    have hm : c.frameStart = c.msgOffset := if_neg hs
    cases hstate : c.msgState with
    | prevReadLength => exact hs hstate
    | readLength =>
      obtain ⟨k, hk, -, hk', -⟩ := h.inLength hstate
      omega
    | readPayload =>
      have := (h.inPayload hstate).1
      omega
  have hend : c.resbufOffset = c.resbuf.length := by omega
  have hclear : c.settle.resbuf = [] ∧ c.settle.msgState = .prevReadLength ∧
      c.settle.bufferCapacity = c.bufferCapacity ∧ c.settle.resbufOffset = 0 ∧
      c.settle.currentPayloadLength = c.currentPayloadLength := by
    unfold settle
    split
    next hne =>
      have hlen : c.resbuf.length - c.msgOffset = (c.currentPayloadLength + 4).toNat := by
        rw [toNat_add_four h.noWrap]
        rcases h.between hprev hnil with hb | hb
        · omega
        · exact absurd (by rw [hb]; rfl) hne
      rw [if_pos hlen]
      exact ⟨rfl, hprev, rfl, rfl, rfl⟩
    next hne =>
      have hlen : c.resbuf.length = 0 := not_not.mp hne
      exact ⟨List.length_eq_zero_iff.mp hlen, hprev, rfl, hend.trans hlen, rfl⟩
  obtain ⟨h1, h2, h3, h4, h5⟩ := hclear
  refine ⟨hend, ⟨h3 ▸ h.capacity, h3 ▸ h.capacity_lt, by rw [h3, h5]; exact h.fits, h5 ▸ h.noWrap,
    by rw [h1]; exact Nat.zero_le _, by rw [h4]; exact Nat.zero_le _, fun _ _ => .inr h1,
    fun hs => ?_, fun hs => ?_⟩, h1, h3, by rw [pending, h1, List.drop_nil]⟩
  all_goals rw [h2] at hs; cases hs

/-- A message that is not complete is shifted to the front. -/
theorem settle_shift (hlen : c.resbuf.length ≠ 0)
    (hne : c.resbuf.length - c.msgOffset ≠ (c.currentPayloadLength + 4).toNat) :
    c.settle = { c with
      resbuf := c.resbuf.drop c.msgOffset
      resbufOffset := c.resbuf.length - c.msgOffset
      msgOffset := 0 } := by
  rw [settle, if_pos hlen, if_neg hne]

/-- Two bytes of a prefix never ask for too much, and three only when they trap. -/
theorem prefixValue_fits (h : c.Tracks) (htrap : ¬c.Trap) (hshort : c.pending.length < 4) :
    (prefixValue c.pending).toNat + 4 ≤ c.bufferCapacity ∧
      (prefixValue c.pending).toNat + 4 < 2 ^ 32 := by
  have hcap := h.capacity
  have hmax : MAX_BUFFER_CAPACITY = 65664 := rfl
  have hlt := prefixValue_lt (show c.pending.length ≤ 3 by omega)
  have h3 : (256 : Nat) ^ c.pending.length ≤ 256 ^ 3 :=
    Nat.pow_le_pow_right (by decide) (by omega)
  refine ⟨?_, by omega⟩
  by_cases hthree : c.pending.length = 3
  · by_contra hlong
    exact htrap (.inl ⟨hthree, not_le.mp hlong⟩)
  · have h2 : (256 : Nat) ^ c.pending.length ≤ 256 ^ 2 :=
      Nat.pow_le_pow_right (by decide) (by omega)
    omega

theorem passed (h : c.Tracks) (htrap : ¬c.Trap) : Passed c c.pass := by
  have hstart := (drop_frameStart h).trans h.offset
  have hpend : c.pending.length = c.resbuf.length - c.frameStart := List.length_drop
  rw [pass_eq h]
  by_cases hnil : c.pending = []
  · obtain ⟨h1, h2, h3, h4, h5⟩ := settle_empty h hnil
    rw [if_pos hnil]
    exact .more (.inl (by rw [hnil]; decide)) h1 h2 h4 (h5.trans hnil.symm)
      (nread_fits h2 (.inr (by rw [h3]; exact Nat.zero_le _)))
  have hpos := List.length_pos_iff.mpr hnil
  rw [if_neg hnil, judged]
  split
  next hshort =>
    obtain ⟨hfits, hnw⟩ := prefixValue_fits h htrap hshort
    have hsettle := settle_shift (c := { c with
        msgState := .readLength
        msgOffset := c.frameStart
        currentPayloadLength := prefixValue c.pending
        resbufOffset := c.resbuf.length }) (by dsimp only; omega) (by
      rw [toNat_add_four hnw]
      dsimp only
      omega)
    have htracks : Tracks { c with
        msgState := .readLength
        msgOffset := 0
        currentPayloadLength := prefixValue c.pending
        resbuf := c.pending
        resbufOffset := c.resbuf.length - c.frameStart } := by
      refine ⟨h.capacity, h.capacity_lt, hfits, hnw, ?_, hpend.ge, nofun,
        fun _ => ⟨c.pending.length, hpos, by omega, ?_, ?_⟩, nofun⟩
      · have := h.length
        dsimp only
        omega
      · dsimp only
        omega
      · show prefixValue c.pending = prefixValue (c.pending.take c.pending.length)
        rw [List.take_length]
    refine .more (.inl hshort) rfl (hsettle ▸ htracks) (hsettle ▸ rfl) ?_ ?_
    · rw [hsettle]
      rfl
    · rw [hsettle]
      refine nread_fits htracks (.inr ?_)
      change c.pending.length ≤ 4096
      omega
  next hlong =>
    have hlong' : 4 ≤ c.pending.length := not_lt.mp hlong
    have hnw : c.prefixLength.toNat + 4 < 2 ^ 32 := by
      by_contra hover
      exact htrap (.inr ⟨hlong', not_lt.mp hover⟩)
    have hadd' : (4 + c.prefixLength).toNat = c.prefixLength.toNat + 4 := by
      rw [UInt32.add_comm, toNat_add_four hnw]
    change Passed c (if c.bufferCapacity < (c.prefixLength + 4).toNat then _ else if
      c.prefixLength = 0 ∨ (4 + c.prefixLength).toNat ≤ c.pending.length ∧ 4 < c.pending.length
      then _ else _)
    rw [toNat_add_four hnw, hadd']
    split
    next hover => exact .abort hlong' hover
    next hover =>
      have hfits := not_lt.mp hover
      split
      next hdone =>
        have hlen : 4 + c.prefixLength.toNat ≤ c.pending.length := by
          rcases hdone with hzero | hdone
          · rw [hzero]
            exact hlong'
          · omega
        refine .done hlen hfits ⟨h.capacity, h.capacity_lt, hfits, hnw, h.length, ?_,
          fun _ _ => .inl rfl, nofun, nofun⟩ rfl rfl ?_ ?_
        · dsimp only
          rw [show prefixValue (c.pending.take 4) = c.prefixLength from rfl]
          omega
        · rw [pending, List.drop_drop]
          rfl
        · change c.resbuf.drop (c.frameStart + 4 + c.prefixLength.toNat) =
            (c.resbuf.drop c.frameStart).drop (4 + c.prefixLength.toNat)
          rw [List.drop_drop, Nat.add_assoc]
      next hdone =>
        have hzero : 0 < c.prefixLength.toNat := by
          refine Nat.pos_of_ne_zero fun h0 => hdone (.inl ?_)
          rw [← UInt32.toNat_inj, h0]
          rfl
        have hpart : c.pending.length < 4 + c.prefixLength.toNat := by
          by_contra hfull
          exact hdone (.inr (by omega))
        have hsettle := settle_shift (c := { c with
            msgState := .readPayload
            msgOffset := c.frameStart
            currentPayloadLength := c.prefixLength
            resbufOffset := c.resbuf.length }) (by dsimp only; omega) (by
          rw [toNat_add_four hnw]
          dsimp only
          omega)
        have htracks : Tracks { c with
            msgState := .readPayload
            msgOffset := 0
            currentPayloadLength := c.prefixLength
            resbuf := c.pending
            resbufOffset := c.resbuf.length - c.frameStart } := by
          refine ⟨h.capacity, h.capacity_lt, hfits, hnw, ?_, hpend.ge, nofun, nofun,
            fun _ => ⟨?_, ?_, rfl⟩⟩
          · have := h.length
            dsimp only
            omega
          all_goals dsimp only; omega
        refine .more (.inr hpart) rfl (hsettle ▸ htracks) (hsettle ▸ rfl) ?_ ?_
        · exact (congrArg pending hsettle).trans rfl
        · have := nread_fits htracks (.inl (by dsimp only; omega))
          exact hsettle ▸ this

/-! ## A read -/

theorem pending_append (h : c.Tracks) : (c.append data).pending = c.pending ++ data :=
  List.drop_append_of_le_length ((drop_frameStart h).trans h.offset)

theorem Tracks.append (h : c.Tracks) (hdata : data ≠ [])
    (hroom : c.resbuf.length + data.length ≤ c.bufferCapacity) : (c.append data).Tracks := by
  have hpend : (c.append data).pending = c.pending ++ data := pending_append h
  have hle := (drop_frameStart h).trans h.offset
  have hlen : c.pending.length = c.resbuf.length - c.frameStart := List.length_drop
  have hoff := h.offset
  refine ⟨h.capacity, h.capacity_lt, h.fits, h.noWrap, ?_, ?_, fun _ hnil => ?_, fun hs => ?_,
    fun hs => ?_⟩
  · exact List.length_append.trans_le hroom
  · exact hoff.trans (by simp [PeerConnection.append])
  · exact absurd (List.append_eq_nil_iff.mp (hpend.symm.trans hnil)).2 hdata
  · obtain ⟨k, hk1, hk3, hk, hval⟩ := h.inLength hs
    have hm : c.frameStart = c.msgOffset := if_neg (by rw [show c.msgState = _ from hs]; decide)
    refine ⟨k, hk1, hk3, hk, hval.trans ?_⟩
    rw [hpend, List.take_append_of_le_length (by omega)]
  · obtain ⟨h1, h2, hval⟩ := h.inPayload hs
    have hm : c.frameStart = c.msgOffset := if_neg (by rw [show c.msgState = _ from hs]; decide)
    refine ⟨h1, h2, hval.trans ?_⟩
    rw [prefixLength, prefixLength, hpend, List.take_append_of_le_length (by omega)]

theorem tracks_reserve (h : c.Tracks) (minSize : UInt64) :
    (c.reserveBuffer minSize).Tracks ∧ (c.reserveBuffer minSize).pending = c.pending ∧
      c.bufferCapacity ≤ (c.reserveBuffer minSize).bufferCapacity := by
  unfold reserveBuffer
  split
  next hlt =>
    exact ⟨⟨h.capacity.trans hlt.le, minSize.toNat_lt, h.fits.trans hlt.le, h.noWrap,
      h.length.trans hlt.le, h.offset, h.between, h.inLength, h.inPayload⟩, rfl, hlt.le⟩
  next => exact ⟨h, rfl, le_rfl⟩

theorem tracks_new : Tracks {} :=
  ⟨le_rfl, by decide, by decide, by decide, Nat.zero_le _, le_rfl, fun _ _ => .inr rfl, nofun,
    nofun⟩

end PeerConnection

/-! ## Hostile streams -/

namespace Link

open PeerConnection

variable {s : Link}

/-- No pass of the call starts trapped. -/
def Untrapped : List Read → Link → Prop
  | [], s => ¬s.conn.Trap
  | r :: reads, s =>
    ¬s.conn.Trap ∧
      ∀ c n, s.conn.pass = .more c → r = .bytes n → (s.ask c.settle).ready n ≠ [] →
        Untrapped reads ((s.ask c.settle).readData ((s.ask c.settle).ready n))

theorem Untrapped.head {reads : List Read} (h : Untrapped reads s) : ¬s.conn.Trap := by
  cases reads with
  | nil => exact h
  | cons r reads => exact h.1

/-- What the peer sends does not trap a call. -/
def KeepsOut (s : Link) : Event → Prop
  | .receiveMessage reads => s.aborted.isSome = false → Untrapped reads s
  | .reserveBuffer _ => True

/-- Every read asked for bytes that fit behind those in the buffer. -/
structure Safe (s : Link) : Prop where
  asks : ∀ a ∈ s.asks, a.resbufLength ≤ a.bufferCapacity ∧
    a.nread ≤ a.bufferCapacity - a.resbufLength
  length : s.conn.resbuf.length ≤ s.conn.bufferCapacity
  assertion : s.aborted ≠ some .assertion

/-- What the reads of a call are about: the connection tracks its message. -/
structure Guarded (s : Link) : Prop where
  tracks : s.conn.Tracks
  asks : ∀ a ∈ s.asks, a.resbufLength ≤ a.bufferCapacity ∧
    a.nread ≤ a.bufferCapacity - a.resbufLength
  assertion : s.aborted ≠ some .assertion

theorem Guarded.safe (h : s.Guarded) : s.Safe := ⟨h.asks, h.tracks.length, h.assertion⟩

/-- A connection that is not trapped asks for what fits. -/
theorem Guarded.ask (h : s.Guarded) {c : PeerConnection} (ht : c.Tracks)
    (hfits : c.nread ≤ c.bufferCapacity - c.resbuf.length) : (s.ask c).Guarded := by
  refine ⟨ht, fun a ha => ?_, h.assertion⟩
  rcases List.mem_append.mp ha with ha | ha
  · exact h.asks a ha
  · rw [List.mem_singleton.mp ha]
    exact ⟨ht.length, hfits⟩

theorem Guarded.readData (h : s.Guarded) {n : Nat} (hne : s.ready n ≠ [])
    (hfits : s.conn.nread ≤ s.conn.bufferCapacity - s.conn.resbuf.length) :
    (s.readData (s.ready n)).Guarded := by
  refine ⟨h.tracks.append hne ?_, h.asks, h.assertion⟩
  have hlen : (s.ready n).length ≤ s.conn.nread :=
    (List.length_take_le ..).trans (min_le_right ..)
  have := h.tracks.length
  omega

theorem Guarded.receiveMessage {reads : List Read} (h : s.Guarded) (hun : Untrapped reads s) :
    (receiveMessage reads s).Guarded := by
  induction reads generalizing s with
  | nil =>
    have hpass := passed h.tracks hun.head
    unfold Link.receiveMessage
    generalize s.conn.pass = q at hpass ⊢
    cases hpass with
    | abort h4 hlong => exact ⟨h.tracks, h.asks, nofun⟩
    | done hlen hfits tracks => exact ⟨tracks, h.asks, h.assertion⟩
    | more short offset tracks capacity pending nread =>
      dsimp only
      rw [if_neg (not_not.mpr offset)]
      have := h.ask tracks nread.2
      exact ⟨this.tracks, this.asks, this.assertion⟩
  | cons r reads ih =>
    have hpass := passed h.tracks hun.head
    obtain ⟨-, hrest⟩ := hun
    unfold Link.receiveMessage
    generalize s.conn.pass = q at hpass hrest ⊢
    cases hpass with
    | abort h4 hlong => exact ⟨h.tracks, h.asks, nofun⟩
    | done hlen hfits tracks => exact ⟨tracks, h.asks, h.assertion⟩
    | more short offset tracks capacity pending nread =>
      dsimp only
      rw [if_neg (not_not.mpr offset)]
      have hask := h.ask tracks nread.2
      cases r with
      | bytes n =>
        dsimp only
        split
        · exact ⟨hask.tracks, hask.asks, hask.assertion⟩
        next hne =>
          have hne' := fun hnil => hne (List.isEmpty_iff.mpr hnil)
          exact ih (hask.readData hne' nread.2) (hrest _ n rfl rfl hne')
      | wouldBlock => exact ⟨hask.tracks, hask.asks, hask.assertion⟩
      | eof => exact ⟨hask.tracks, hask.asks, nofun⟩

theorem Guarded.step (h : s.Guarded) {e : Event} (he : s.KeepsOut e) : (s.step e).Guarded := by
  unfold Link.step
  split
  · exact h
  next hab =>
    cases e with
    | receiveMessage reads => exact h.receiveMessage (he (Bool.eq_false_of_not_eq_true hab))
    | reserveBuffer minSize => exact ⟨(tracks_reserve h.tracks minSize).1, h.asks, h.assertion⟩

theorem guarded_start (minSize : UInt64) (wire : Bytes) : (start minSize wire).Guarded :=
  ⟨(tracks_reserve tracks_new minSize).1, nofun, nofun⟩

end Link

/-! ## Streams of messages that fit -/

/-- A message on the wire: its length and its payload. -/
def encodeMessage (payload : Bytes) : Bytes :=
  Utp.writeBe32 (UInt32.ofNat payload.length) ++ payload

/-- What the receiver makes of a payload. -/
def message (payload : Bytes) : Message := ⟨UInt32.ofNat payload.length, payload⟩

theorem prefixValue_writeBe32 (v : UInt32) : prefixValue (Utp.writeBe32 v) = v := by
  have hv := v.toNat_lt
  have hand : v.toNat % 256 &&& 255 = v.toNat % 256 := by
    simpa using Nat.and_two_pow_sub_one_eq_mod (v.toNat % 256) 8
  apply UInt32.toNat_inj.mp
  simp [prefixValue, Utp.writeBe32, Nat.shiftRight_eq_div_pow, Nat.shiftLeft_eq, hand]
  omega

theorem length_writeBe32 (v : UInt32) : (Utp.writeBe32 v).length = 4 := rfl

theorem toNat_ofNat_length {p : Bytes} (h : p.length + 4 < 2 ^ 32) :
    (UInt32.ofNat p.length).toNat = p.length :=
  UInt32.toNat_ofNat_of_lt' (by omega : p.length < 2 ^ 32)

namespace Link

open PeerConnection

variable {s : Link} {payloads : List Bytes}

/-- The payloads that are still to be received are on their way: what has arrived of them is in the
buffer, and the rest is on the wire. -/
structure Holds (s : Link) (rest : List Bytes) : Prop where
  tracks : s.conn.Tracks
  fits : ∀ p ∈ rest, p.length + 4 ≤ s.conn.bufferCapacity ∧ p.length + 4 < 2 ^ 32
  bytes : s.conn.pending ++ s.wire = rest.flatMap encodeMessage

/-- The prefix of the first message, and where the message ends. -/
theorem Holds.first {rest : List Bytes} (h : s.Holds rest) {p : Bytes} {ps : List Bytes}
    (hrest : rest = p :: ps) (hlong : 4 ≤ s.conn.pending.length) :
    s.conn.prefixLength.toNat = p.length ∧
      (4 + p.length ≤ s.conn.pending.length →
        (s.conn.pending.drop 4).take p.length = p ∧
          s.conn.pending.drop (4 + p.length) ++ s.wire = ps.flatMap encodeMessage) := by
  have hbytes := h.bytes
  rw [hrest, List.flatMap_cons, encodeMessage, List.append_assoc] at hbytes
  have hfit := (h.fits p (hrest ▸ .head _)).2
  have hfour : s.conn.pending.take 4 = Utp.writeBe32 (UInt32.ofNat p.length) := by
    have := congrArg (List.take 4) hbytes
    rwa [List.take_append_of_le_length hlong, List.take_left' (length_writeBe32 _)] at this
  have hdrop : s.conn.pending.drop 4 ++ s.wire = p ++ ps.flatMap encodeMessage := by
    have := congrArg (List.drop 4) hbytes
    rwa [List.drop_append_of_le_length hlong, List.drop_left' (length_writeBe32 _)] at this
  refine ⟨?_, fun hfull => ?_⟩
  · rw [prefixLength, hfour, prefixValue_writeBe32, toNat_ofNat_length hfit]
  have hroom : p.length ≤ (s.conn.pending.drop 4).length := by
    rw [List.length_drop]
    omega
  refine ⟨?_, ?_⟩
  · have := congrArg (List.take p.length) hdrop
    rwa [List.take_append_of_le_length hroom, List.take_left' rfl] at this
  · have := congrArg (List.drop p.length) hdrop
    rwa [List.drop_append_of_le_length hroom, List.drop_left' rfl, List.drop_drop] at this

/-- Without a message to come nothing is pending. -/
theorem Holds.nonempty {rest : List Bytes} (h : s.Holds rest) (hne : s.conn.pending ≠ []) :
    ∃ p ps, rest = p :: ps := by
  cases rest with
  | nil => exact absurd (List.append_eq_nil_iff.mp h.bytes).1 hne
  | cons p ps => exact ⟨p, ps, rfl⟩

/-- Messages that fit do not trap the connection. -/
theorem Holds.not_trap {rest : List Bytes} (h : s.Holds rest) : ¬s.conn.Trap := by
  rintro (⟨hthree, hbig⟩ | ⟨hlong, hover⟩)
  · obtain ⟨p, ps, hrest⟩ := h.nonempty (List.ne_nil_of_length_pos (by omega))
    have hbytes := h.bytes
    rw [hrest, List.flatMap_cons, encodeMessage, List.append_assoc] at hbytes
    have hpre : (Utp.writeBe32 (UInt32.ofNat p.length)).take 3 = s.conn.pending := by
      have := congrArg (List.take 3) hbytes
      rw [List.take_left' hthree, List.take_append_of_le_length (by simp [Utp.writeBe32])] at this
      exact this.symm
    have hfit := h.fits p (hrest ▸ .head _)
    have hsplit : Utp.writeBe32 (UInt32.ofNat p.length) =
        s.conn.pending ++ [(UInt32.ofNat p.length &&& 0xFF).toUInt8] := by
      rw [← hpre]
      rfl
    have hval := prefixValue_four hthree (UInt32.ofNat p.length &&& 0xFF).toUInt8
    rw [← hsplit, prefixValue_writeBe32, toNat_ofNat_length hfit.2] at hval
    omega
  · obtain ⟨p, ps, hrest⟩ := h.nonempty (List.ne_nil_of_length_pos (by omega))
    have hfit := h.fits p (hrest ▸ .head _)
    rw [(h.first hrest hlong).1] at hover
    omega

/-- A call either returns the first payload, or would block with less than a message, or comes to
the end of the stream. -/
inductive Outcome (s : Link) (rest : List Bytes) : Link → Prop
  | message {s' p ps} (hrest : rest = p :: ps) (holds : s'.Holds ps)
    (received : s'.received = s.received ++ [Bt.message p]) (waiting : s'.waiting = false)
    (aborted : s'.aborted = s.aborted) : Outcome s rest s'
  | again {s'} (holds : s'.Holds rest) (received : s'.received = s.received)
    (short : s'.conn.pending.length < 4 ∨ s'.conn.pending.length < 4 + s'.conn.prefixLength.toNat)
    (aborted : s'.aborted = s.aborted) : Outcome s rest s'
  | eof {s'} (received : s'.received = s.received) (tracks : s'.conn.Tracks)
    (aborted : s'.aborted = some .eof) : Outcome s rest s'

theorem Outcome.congr {s₁ s₂ s' : Link} {rest : List Bytes} (h : Outcome s₁ rest s')
    (hr : s₁.received = s₂.received) (ha : s₁.aborted = s₂.aborted) : Outcome s₂ rest s' := by
  cases h with
  | message hrest holds received waiting aborted =>
    exact .message hrest holds (hr ▸ received) waiting (ha ▸ aborted)
  | again holds received short aborted => exact .again holds (hr ▸ received) short (ha ▸ aborted)
  | eof received tracks aborted => exact .eof (hr ▸ received) tracks aborted

/-- A pass that ends a message returns its payload. -/
theorem Holds.done {rest : List Bytes} (h : s.Holds rest) {c : PeerConnection}
    (hpass : Passed s.conn (.done c)) :
    Outcome s rest { s with
      conn := c
      received := s.received ++ [⟨c.currentPayloadLength, c.getMsgPayloadBuffer⟩]
      waiting := false } := by
  cases hpass with
  | done hlen hfits tracks capacity length payload pending =>
    obtain ⟨p, ps, hrest⟩ := h.nonempty (List.ne_nil_of_length_pos (by omega))
    obtain ⟨hval, hbody⟩ := h.first hrest (by omega)
    rw [hval] at hlen payload pending
    obtain ⟨hpay, hnext⟩ := hbody hlen
    refine .message hrest ⟨tracks, fun q hq => ?_, ?_⟩ ?_ rfl rfl
    · rw [show c.bufferCapacity = s.conn.bufferCapacity from capacity]
      exact h.fits q (hrest ▸ .tail _ hq)
    · exact (congrArg (· ++ s.wire) pending).trans hnext
    · have hlength : c.currentPayloadLength = UInt32.ofNat p.length := by
        rw [length, ← UInt32.toNat_inj, hval,
          toNat_ofNat_length (h.fits p (hrest ▸ .head _)).2]
      rw [payload, hpay, hlength]
      rfl

theorem Holds.not_abort {rest : List Bytes} (h : s.Holds rest) {reason : Abort}
    (hpass : Passed s.conn (.abort reason)) : False := by
  cases hpass with
  | abort h4 hlong =>
    obtain ⟨p, ps, hrest⟩ := h.nonempty (List.ne_nil_of_length_pos (by omega))
    rw [(h.first hrest h4).1] at hlong
    exact absurd (h.fits p (hrest ▸ .head _)).1 (not_le.mpr hlong)

/-- A pass that needs another read keeps the stream. -/
theorem Holds.more {rest : List Bytes} (h : s.Holds rest) {c : PeerConnection}
    (hpass : Passed s.conn (.more c)) :
    c.resbufOffset = c.resbuf.length ∧ (s.ask c.settle).Holds rest ∧
      (c.settle.pending.length < 4 ∨
        c.settle.pending.length < 4 + c.settle.prefixLength.toNat) ∧
      c.settle.nread ≤ c.settle.bufferCapacity - c.settle.resbuf.length := by
  cases hpass with
  | more short offset tracks capacity pending nread =>
    refine ⟨offset, ⟨tracks, fun p hp => ?_, ?_⟩, ?_, nread.2⟩
    · rw [show (s.ask c.settle).conn.bufferCapacity = s.conn.bufferCapacity from capacity]
      exact h.fits p hp
    · exact (congrArg (· ++ s.wire) pending).trans h.bytes
    · rw [prefixLength, pending]
      exact short

theorem Holds.readData {rest : List Bytes} (h : s.Holds rest) {n : Nat} (hne : s.ready n ≠ [])
    (hroom : s.conn.nread ≤ s.conn.bufferCapacity - s.conn.resbuf.length) :
    (s.readData (s.ready n)).Holds rest := by
  have hlen : (s.ready n).length ≤ s.conn.nread :=
    (List.length_take_le ..).trans (min_le_right ..)
  refine ⟨h.tracks.append hne ?_, h.fits, ?_⟩
  · have := h.tracks.length
    omega
  · have hwire : s.ready n ++ s.wire.drop (s.ready n).length = s.wire :=
      List.prefix_iff_eq_append.mp (List.take_prefix ..)
    rw [← h.bytes]
    show (s.conn.append (s.ready n)).pending ++ s.wire.drop (s.ready n).length = _
    rw [pending_append h.tracks, List.append_assoc, hwire]

/-- A call on a stream of messages that fit. -/
theorem Holds.receiveMessage {rest : List Bytes} (reads : List Read) (h : s.Holds rest) :
    Untrapped reads s ∧ Outcome s rest (receiveMessage reads s) := by
  induction reads generalizing s with
  | nil =>
    refine ⟨h.not_trap, ?_⟩
    have hpass := passed h.tracks h.not_trap
    unfold Link.receiveMessage
    generalize s.conn.pass = q at hpass ⊢
    cases q with
    | abort reason => exact (h.not_abort hpass).elim
    | done c => exact h.done hpass
    | more c =>
      obtain ⟨hoff, hholds, hshort, -⟩ := h.more hpass
      dsimp only
      rw [if_neg (not_not.mpr hoff)]
      exact .again ⟨hholds.tracks, hholds.fits, hholds.bytes⟩ rfl hshort rfl
  | cons r reads ih =>
    have hpass := passed h.tracks h.not_trap
    refine ⟨⟨h.not_trap, fun c n hq _ hne => ?_⟩, ?_⟩
    · rw [hq] at hpass
      obtain ⟨-, hholds, -, hroom⟩ := h.more hpass
      exact (ih (hholds.readData hne hroom)).1
    · unfold Link.receiveMessage
      generalize s.conn.pass = q at hpass ⊢
      cases q with
      | abort reason => exact (h.not_abort hpass).elim
      | done c => exact h.done hpass
      | more c =>
        obtain ⟨hoff, hholds, hshort, hroom⟩ := h.more hpass
        dsimp only
        rw [if_neg (not_not.mpr hoff)]
        have hagain : ∀ w : Bool, Outcome s rest { s.ask c.settle with waiting := w } := fun w =>
          .again ⟨hholds.tracks, hholds.fits, hholds.bytes⟩ rfl hshort rfl
        cases r with
        | bytes n =>
          dsimp only
          split
          · exact hagain true
          next hne =>
            have hne' := fun hnil => hne (List.isEmpty_iff.mpr hnil)
            exact (ih (hholds.readData hne' hroom)).2.congr rfl rfl
        | wouldBlock => exact hagain true
        | eof => exact .eof rfl hholds.tracks rfl

/-- The payloads come out in their order, and all of them once nothing is left to read. -/
structure Faithful (payloads : List Bytes) (s : Link) : Prop where
  received : s.received <+: payloads.map message
  aborted : s.aborted = none ∨ s.aborted = some .eof
  complete : s.waiting = true → s.aborted = none → s.wire = [] →
    s.received = payloads.map message

/-- What is left of the stream after the messages that have been received. -/
structure Delivers (payloads : List Bytes) (s : Link) : Prop where
  received : s.received <+: payloads.map message
  aborted : s.aborted = none ∨ s.aborted = some .eof
  rest : s.aborted = none → ∃ done rest, payloads = done ++ rest ∧
    s.received = done.map message ∧ s.Holds rest
  waiting : s.waiting = true → s.aborted = none →
    s.conn.pending.length < 4 ∨ s.conn.pending.length < 4 + s.conn.prefixLength.toNat

theorem Delivers.faithful (h : s.Delivers payloads) : s.Faithful payloads := by
  refine ⟨h.received, h.aborted, fun hwait hab hwire => ?_⟩
  obtain ⟨done, rest, hsplit, hrec, hholds⟩ := h.rest hab
  have hbytes := hholds.bytes
  rw [hwire, List.append_nil] at hbytes
  cases rest with
  | nil => rw [hrec, hsplit, List.append_nil]
  | cons p ps =>
    have hlen : 4 + p.length ≤ s.conn.pending.length := by
      rw [hbytes, List.flatMap_cons, encodeMessage, List.append_assoc, List.length_append,
        List.length_append, length_writeBe32]
      omega
    have hval := (hholds.first rfl (by omega)).1
    rcases h.waiting hwait hab with hshort | hshort <;> omega

theorem Delivers.step (h : s.Delivers payloads) (e : Event) :
    s.KeepsOut e ∧ (s.step e).Delivers payloads := by
  unfold Link.step
  split
  next hab =>
    refine ⟨?_, h⟩
    cases e with
    | receiveMessage reads => exact fun hn => absurd (hn.symm.trans hab) Bool.false_ne_true
    | reserveBuffer minSize => trivial
  next hab =>
    have hnone : s.aborted = none := Option.not_isSome_iff_eq_none.mp hab
    obtain ⟨done, rest, hsplit, hrec, hholds⟩ := h.rest hnone
    cases e with
    | receiveMessage reads =>
      obtain ⟨hun, hout⟩ := hholds.receiveMessage reads
      refine ⟨fun _ => hun, ?_⟩
      dsimp only
      generalize Link.receiveMessage reads s = s' at hout ⊢
      cases hout with
      | @message p ps hrest holds received waiting aborted =>
        have hpay : payloads = (done ++ [p]) ++ ps := by rw [hsplit, hrest, List.append_assoc]; rfl
        have hall : s'.received = (done ++ [p]).map Bt.message := by
          rw [received, hrec, List.map_append]
          rfl
        refine ⟨?_, .inl (aborted.trans hnone), fun _ => ⟨done ++ [p], ps, hpay, hall, holds⟩,
          fun hw => by rw [waiting] at hw; cases hw⟩
        rw [hall, hpay, @List.map_append _ _ _ _ ps]
        exact List.prefix_append ..
      | again holds received short aborted =>
        exact ⟨received ▸ h.received, .inl (aborted.trans hnone),
          fun _ => ⟨done, rest, hsplit, received.trans hrec, holds⟩, fun _ _ => short⟩
      | eof received tracks aborted =>
        refine ⟨received ▸ h.received, .inr aborted, fun hn => ?_, fun _ hn => ?_⟩ <;>
          exact absurd (aborted.symm.trans hn) nofun
    | reserveBuffer minSize =>
      obtain ⟨htracks, hpend, hcap⟩ := tracks_reserve hholds.tracks minSize
      refine ⟨trivial, h.received, h.aborted, fun _ => ⟨done, rest, hsplit, hrec, htracks,
        fun p hp => ⟨(hholds.fits p hp).1.trans hcap, (hholds.fits p hp).2⟩, ?_⟩,
        fun hw hn => ?_⟩
      · exact (congrArg (· ++ s.wire) hpend).trans hholds.bytes
      · have := h.waiting hw hn
        simp only [prefixLength, hpend]
        exact this

theorem delivers_start (minSize : UInt64)
    (hfits : ∀ p ∈ payloads, p.length + 4 ≤ (PeerConnection.reserveBuffer {} minSize).bufferCapacity ∧
      p.length + 4 < 2 ^ 32) :
    (start minSize (payloads.flatMap encodeMessage)).Delivers payloads := by
  obtain ⟨htracks, hpend, -⟩ := tracks_reserve tracks_new minSize
  refine ⟨List.nil_prefix, .inl rfl, fun _ => ⟨[], payloads, rfl, rfl, htracks, hfits, ?_⟩, nofun⟩
  exact congrArg (· ++ payloads.flatMap encodeMessage) hpend

/-- A run along which every event keeps its condition because the stream does. -/
theorem Delivers.along (h : s.Delivers payloads) (es : List Event) :
    Along Link.step KeepsOut s es := by
  induction es generalizing s with
  | nil => trivial
  | cons e es ih => exact ⟨(h.step e).1, ih (h.step e).2⟩

end Link

/-- A connection that no prefix traps asks for no more than fits in its buffer, whatever its peer
sends. Messages that fit do not trap it, and they are received as they were sent, however they are
cut into reads. -/
theorem wire_framing (minSize : UInt64) (wire : Bytes) (es : List Link.Event) :
    (Along Link.step Link.KeepsOut (Link.start minSize wire) es →
      Visits Link.step Link.Safe (Link.start minSize wire) es) ∧
    ∀ payloads : List Bytes, wire = payloads.flatMap encodeMessage →
      (∀ p ∈ payloads, p.length + 4 ≤ (Link.start minSize wire).conn.bufferCapacity ∧
        p.length + 4 < 2 ^ 32) →
      Along Link.step Link.KeepsOut (Link.start minSize wire) es ∧
        Visits Link.step (Link.Faithful payloads) (Link.start minSize wire) es := by
  refine ⟨fun h => ?_, ?_⟩
  · exact visits_of_along (fun _ _ hinv he => hinv.step he) (fun _ hinv => hinv.safe)
      (Link.guarded_start minSize wire) h
  · rintro payloads rfl hfits
    have hstart := Link.delivers_start minSize hfits
    exact ⟨hstart.along es, visits_of_along (P := fun _ _ => True) (fun _ e hinv _ => (hinv.step e).2)
      (fun _ hinv => hinv.faithful) hstart (.of_forall fun _ _ => trivial)⟩

/-- A request and a keep-alive, read in two pieces. -/
theorem wire_framing_two :
    Visits Link.step Link.Safe (Link.start 0 [0, 0, 0, 2, 6, 7, 0, 0, 0, 0])
        [.receiveMessage [.bytes 3, .bytes 100], .receiveMessage [.wouldBlock]] ∧
      Visits Link.step (Link.Faithful [[6, 7], []]) (Link.start 0 [0, 0, 0, 2, 6, 7, 0, 0, 0, 0])
        [.receiveMessage [.bytes 3, .bytes 100], .receiveMessage [.wouldBlock]] := by
  obtain ⟨hsafe, hfaithful⟩ := wire_framing 0 [0, 0, 0, 2, 6, 7, 0, 0, 0, 0]
    [.receiveMessage [.bytes 3, .bytes 100], .receiveMessage [.wouldBlock]]
  obtain ⟨halong, hfaithful⟩ := hfaithful [[6, 7], []] (by decide) (by decide)
  exact ⟨hsafe halong, hfaithful⟩

/-- Three bytes of a prefix make the connection ask for 16 MiB. -/
theorem three_bytes_counterexample :
    ¬Visits Link.step Link.Safe (Link.start 0 [0xFF, 0xFF, 0xFF]) [.receiveMessage [.bytes 3]] :=
  fun h => absurd h.last.asks (by decide +kernel)

end FluxCore.Bt
