import FluxCore.Lib.Run
import Mathlib.Data.List.GetD
import Mathlib.Tactic.SplitIfs
import Mathlib.Algebra.Group.Nat.Defs

/-!
# ED2K framing

`queueMessage`, `flushSendBuffer` and `tryReceiveMessage` of `Ed2kDownloadCommand.cc`. A frame is
`[length, little-endian][protocol][opcode][payload]`, the length counting what stands behind it.
The receiver keeps a cursor into its buffer, drops the consumed prefix now and then, and reads at
most `READ_SIZE` bytes at a time. `framing_iff` says for which frames the outcome does not depend
on where the reads end.
-/

namespace FluxCore.Ed2k

abbrev Bytes := List UInt8

def ED2K_HEADER_LEN : Nat := 4
def ED2K_MAX_MSG_SIZE : Nat := 16 * 1024 * 1024
def ED2K_PROT_EDONKEY : UInt8 := 0xE3
def ED2K_PROT_EMULE : UInt8 := 0xC5

/-- The size of the buffer of one read. -/
def READ_SIZE : Nat := 16384

structure Frame where
  protocol : UInt8
  opcode : UInt8
  payload : Bytes := []
  deriving DecidableEq, Repr

namespace Frame

/-- The value of the length field. -/
def msgLen (f : Frame) : Nat := f.payload.length + 2

/-- Frames of the other protocols are dropped by the receiver. -/
def delivered (f : Frame) : Bool :=
  f.protocol = ED2K_PROT_EDONKEY || f.protocol = ED2K_PROT_EMULE

end Frame

def readLe32 (p : Bytes) : UInt32 :=
  (p.getD 0 0).toUInt32 ||| ((p.getD 1 0).toUInt32 <<< 8) ||| ((p.getD 2 0).toUInt32 <<< 16) |||
    ((p.getD 3 0).toUInt32 <<< 24)

def writeLe32 (v : UInt32) : Bytes :=
  [v.toUInt8, (v >>> 8).toUInt8, (v >>> 16).toUInt8, (v >>> 24).toUInt8]

/-! ## Sending -/

/-- The bytes `queueMessage` puts on the end of the send buffer. -/
def encodeFrame (f : Frame) : Bytes :=
  writeLe32 (UInt32.ofNat (f.payload.length + 2)) ++ [f.protocol, f.opcode] ++ f.payload

/-- The number of bytes `flushSendBuffer` hands to a socket that accepts `writes` bytes in turn, 0
meaning that it would block. -/
def flushLoop (size : Nat) : List Nat → Nat → Nat
  | [], totalWritten => totalWritten
  | n :: writes, totalWritten =>
    if totalWritten < size then
      let written := min n (size - totalWritten)
      if written = 0 then totalWritten else flushLoop size writes (totalWritten + written)
    else totalWritten

/-! ## Receiving -/

structure Receiver where
  recvBuffer : Bytes := []
  recvPos : Nat := 0
  deriving DecidableEq, Repr

inductive Outcome where
  | message (f : Frame)
  /-- The socket would block. -/
  | again
  /-- The connection is given up. -/
  | desync
  deriving DecidableEq, Repr

/-- What stands at the cursor. -/
inductive Parsed where
  | desync
  | incomplete
  | frame (f : Frame) (next : Receiver)

namespace Receiver

def avail (r : Receiver) : Nat := r.recvBuffer.length - r.recvPos

def unread (r : Receiver) : Bytes := r.recvBuffer.drop r.recvPos

def parse (r : Receiver) : Parsed :=
  if r.avail < ED2K_HEADER_LEN then .incomplete
  else
    let msgLen := (readLe32 r.unread).toNat
    if ED2K_MAX_MSG_SIZE < msgLen || msgLen < 2 then .desync
    else
      let totalNeeded := ED2K_HEADER_LEN + msgLen
      if r.avail < totalNeeded then .incomplete
      else
        .frame
          { protocol := r.unread.getD ED2K_HEADER_LEN 0
            opcode := r.unread.getD (ED2K_HEADER_LEN + 1) 0
            payload := (r.unread.drop (ED2K_HEADER_LEN + 2)).take (msgLen - 2) }
          { r with recvPos := r.recvPos + totalNeeded }

/-- The first buffered frame that is not dropped. Each turn consumes a frame, so the number of bytes
available is fuel enough. -/
def nextFrame : Nat → Receiver → Outcome × Receiver
  | 0, r => (.again, r)
  | fuel + 1, r =>
    match r.parse with
    | .desync => (.desync, r)
    | .incomplete => (.again, r)
    | .frame f next => if f.delivered then (.message f, next) else nextFrame fuel next

/-- Drop the consumed prefix when it is large or dominates the buffer. -/
def compact (r : Receiver) : Receiver :=
  if 0 < r.recvPos ∧ (64 * 1024 ≤ r.recvPos ∨ r.recvBuffer.length ≤ r.recvPos * 2) then
    { recvBuffer := r.recvBuffer.drop r.recvPos, recvPos := 0 }
  else r

def append (r : Receiver) (data : Bytes) : Receiver := { r with recvBuffer := r.recvBuffer ++ data }

/-- One call: it takes the bytes `wire` off the socket in reads of `cuts` bytes, and would block
where they run out. The outcome comes with the bytes left on the socket. -/
def tryReceiveMessage (cuts : List Nat) (wire : Bytes) (r : Receiver) :
    Outcome × Bytes × Receiver :=
  match r.nextFrame (r.avail + 1) with
  | (.again, r) =>
    if ED2K_MAX_MSG_SIZE < r.avail then (.desync, wire, r)
    else match cuts with
      | [] => (.again, wire, r.compact)
      | n :: cuts =>
        let data := wire.take (min n READ_SIZE)
        if data.isEmpty then (.again, wire, r.compact)
        else tryReceiveMessage cuts (wire.drop data.length) (r.compact.append data)
  | (outcome, r) => (outcome, wire, r)

end Receiver

/-! ## The two ends and the socket between them -/

structure Link where
  sendBuffer : Bytes := []
  /-- Bytes written and not read yet. -/
  wire : Bytes := []
  receiver : Receiver := {}
  /-- The frames given to `queueMessage`. -/
  queued : List Frame := []
  /-- The frames returned by `tryReceiveMessage`. -/
  received : List Frame := []
  /-- The last call of `tryReceiveMessage` would have blocked. -/
  waiting : Bool := false
  desync : Bool := false

namespace Link

inductive Event where
  | queue (f : Frame)
  | flush (writes : List Nat)
  | call (cuts : List Nat)

def step (s : Link) : Event → Link
  | .queue f => { s with sendBuffer := s.sendBuffer ++ encodeFrame f, queued := s.queued ++ [f] }
  | .flush writes =>
    let totalWritten := flushLoop s.sendBuffer.length writes 0
    { s with
      sendBuffer := s.sendBuffer.drop totalWritten
      wire := s.wire ++ s.sendBuffer.take totalWritten }
  | .call cuts =>
    let (outcome, wire, receiver) := s.receiver.tryReceiveMessage cuts s.wire
    { s with
      wire, receiver
      received := match outcome with
        | .message f => s.received ++ [f]
        | _ => s.received
      waiting := outcome = .again
      desync := s.desync || outcome = .desync }

/-- What has been received is what has been queued up to some point, without the frames of other
protocols, and it is all of it once everything is written and a call would block. -/
structure Faithful (s : Link) : Prop where
  desync : s.desync = false
  received : s.received <+: s.queued.filter Frame.delivered
  complete : s.waiting = true → s.wire = [] → s.sendBuffer = [] →
    s.received = s.queued.filter Frame.delivered

/-- The frames a run queues. -/
def queuedBy : List Event → List Frame
  | [] => []
  | .queue f :: es => f :: queuedBy es
  | _ :: es => queuedBy es

end Link

/-! ## Parsing what has been encoded -/

theorem or_mul_of_lt {a b m : Nat} (i : Nat) (hm : m = 2 ^ i) (ha : a < m) :
    a ||| b * m = a + b * m := by
  subst hm
  rw [Nat.or_comm, ← Nat.shiftLeft_eq, ← Nat.shiftLeft_add_eq_or_of_lt ha, Nat.add_comm]

theorem toNat_readLe32 (p : Bytes) :
    (readLe32 p).toNat = (p.getD 0 0).toNat + 256 * (p.getD 1 0).toNat +
      65536 * (p.getD 2 0).toNat + 16777216 * (p.getD 3 0).toNat := by
  have h0 := (p.getD 0 0).toNat_lt
  have h1 := (p.getD 1 0).toNat_lt
  have h2 := (p.getD 2 0).toNat_lt
  have h3 := (p.getD 3 0).toNat_lt
  unfold readLe32
  generalize p.getD 0 0 = b0 at *
  generalize p.getD 1 0 = b1 at *
  generalize p.getD 2 0 = b2 at *
  generalize p.getD 3 0 = b3 at *
  simp [Nat.shiftLeft_eq]
  simp (disch := omega) only [Nat.mod_eq_of_lt]
  rw [or_mul_of_lt (b := b1.toNat) 8 (by decide) (by omega),
    or_mul_of_lt (b := b2.toNat) 16 (by decide) (by omega),
    or_mul_of_lt (b := b3.toNat) 24 (by decide) (by omega)]
  omega

theorem readLe32_writeLe32 (v : UInt32) (rest : Bytes) : readLe32 (writeLe32 v ++ rest) = v := by
  have hv := v.toNat_lt
  apply UInt32.toNat_inj.mp
  simp [readLe32, writeLe32, Nat.shiftRight_eq_div_pow, Nat.shiftLeft_eq]
  simp (disch := omega) only [Nat.mod_eq_of_lt]
  generalize v.toNat = n at *
  rw [or_mul_of_lt (b := n / 256 % 256) 8 (by decide) (by omega),
    or_mul_of_lt (b := n / 65536 % 256) 16 (by decide) (by omega),
    or_mul_of_lt (b := n / 16777216) 24 (by decide) (by omega)]
  omega

theorem readLe32_append {p : Bytes} (h : ED2K_HEADER_LEN ≤ p.length) (q : Bytes) :
    readLe32 (p ++ q) = readLe32 p := by
  simp only [ED2K_HEADER_LEN] at h
  simp (disch := omega) only [readLe32, List.getD_append]

@[simp] theorem length_encodeFrame (f : Frame) :
    (encodeFrame f).length = ED2K_HEADER_LEN + f.msgLen := by
  simp [encodeFrame, writeLe32, ED2K_HEADER_LEN, Frame.msgLen]
  omega

namespace Receiver

variable {r : Receiver} {f : Frame} {rest tail : Bytes}

@[simp] theorem length_unread (r : Receiver) : r.unread.length = r.avail := List.length_drop ..

theorem avail_of_unread (h : r.unread = rest) : r.avail = rest.length := by
  rw [← h, length_unread]

/-- The length field of a frame that starts at the cursor. -/
theorem readLe32_unread (hf : f.msgLen ≤ ED2K_MAX_MSG_SIZE)
    (hu : r.unread ++ tail = encodeFrame f ++ rest) (ha : ED2K_HEADER_LEN ≤ r.avail) :
    (readLe32 r.unread).toNat = f.msgLen := by
  have hlen : ED2K_HEADER_LEN ≤ r.unread.length := by rwa [length_unread]
  rw [← readLe32_append hlen tail, hu, encodeFrame, List.append_assoc, List.append_assoc,
    readLe32_writeLe32]
  have hlt : f.payload.length + 2 < 2 ^ 32 := Nat.lt_of_le_of_lt hf (by decide)
  exact UInt32.toNat_ofNat_of_lt' hlt

/-- A complete frame at the cursor is read back. -/
theorem parse_frame (hf : f.msgLen ≤ ED2K_MAX_MSG_SIZE) (hu : r.unread = encodeFrame f ++ rest) :
    r.parse = .frame f { r with recvPos := r.recvPos + (ED2K_HEADER_LEN + f.msgLen) } := by
  have ha : r.avail = ED2K_HEADER_LEN + f.msgLen + rest.length := by
    rw [avail_of_unread hu, List.length_append, length_encodeFrame]
  have hlen := @readLe32_unread r f rest [] hf (by rw [List.append_nil]; exact hu) (by omega)
  have h2 : 2 ≤ f.msgLen := Nat.le_add_left ..
  rw [parse, if_neg (by omega)]
  dsimp only
  rw [hlen, if_neg (by simp; omega), if_neg (by omega), hu]
  simp [encodeFrame, writeLe32, ED2K_HEADER_LEN, Frame.msgLen]

/-- An incomplete frame at the cursor is waited for. -/
theorem parse_short (hf : f.msgLen ≤ ED2K_MAX_MSG_SIZE)
    (hu : r.unread ++ tail = encodeFrame f ++ rest) (ha : r.avail < ED2K_HEADER_LEN + f.msgLen) :
    r.parse = .incomplete := by
  rw [parse]
  split
  · rfl
  next h =>
    have hlen := readLe32_unread hf hu (Nat.not_lt.mp h)
    have h2 : 2 ≤ f.msgLen := Nat.le_add_left ..
    dsimp only
    rw [hlen, if_neg (by simp; omega), if_pos ha]

theorem parse_empty (hu : r.unread = []) : r.parse = .incomplete := by
  rw [parse, if_pos (by rw [avail_of_unread hu]; decide)]

/-! ## One call -/

@[simp] theorem unread_compact (r : Receiver) : r.compact.unread = r.unread := by
  unfold compact
  split <;> rfl

@[simp] theorem avail_compact (r : Receiver) : r.compact.avail = r.avail := by
  rw [← length_unread, unread_compact, length_unread]

/-- The frames `fs` are what the receiver holds and what follows on the socket. -/
structure Holds (tail : Bytes) (fs : List Frame) (r : Receiver) : Prop where
  cursor : r.recvPos ≤ r.recvBuffer.length
  bytes : r.unread ++ tail = fs.flatMap encodeFrame

/-- What a call makes of the frames `fs`. -/
inductive Reads (fs : List Frame) (tail : Bytes) : Outcome → Receiver → Prop where
  | message {f : Frame} {r : Receiver} (skipped fs' : List Frame) (split : fs = skipped ++ f :: fs')
    (dropped : skipped.filter Frame.delivered = []) (delivered : f.delivered = true)
    (holds : Holds tail fs' r) : Reads fs tail (.message f) r
  | again {r : Receiver} (skipped fs' : List Frame) (split : fs = skipped ++ fs')
    (dropped : skipped.filter Frame.delivered = []) (holds : Holds tail fs' r)
    (parse : r.parse = .incomplete) (avail : r.avail ≤ ED2K_MAX_MSG_SIZE) : Reads fs tail .again r

variable {fs : List Frame}

theorem Holds.compact (h : Holds tail fs r) : Holds tail fs r.compact := by
  refine ⟨?_, by rw [unread_compact]; exact h.bytes⟩
  unfold Receiver.compact
  split
  · exact Nat.zero_le _
  · exact h.cursor

/-- A read moves bytes from the socket to the buffer. -/
theorem Holds.append {data : Bytes} (h : Holds (data ++ tail) fs r) :
    Holds tail fs (r.append data) := by
  refine ⟨?_, ?_⟩
  · have := h.cursor
    simp only [Receiver.append, List.length_append]
    omega
  · rw [← h.bytes]
    simp [Receiver.append, unread, List.drop_append_of_le_length h.cursor]

theorem unread_next (hu : r.unread = encodeFrame f ++ rest) :
    Receiver.unread { r with recvPos := r.recvPos + (ED2K_HEADER_LEN + f.msgLen) } = rest := by
  have hdrop : (r.unread).drop (ED2K_HEADER_LEN + f.msgLen) = rest := by
    rw [hu, ← length_encodeFrame, List.drop_left]
  rw [← hdrop, unread, unread, List.drop_drop]

/-- Frames of other protocols in front do not change what is read. -/
theorem Reads.skip {outcome : Outcome} (h : Reads fs tail outcome r) (hf : f.delivered = false) :
    Reads (f :: fs) tail outcome r := by
  cases h with
  | message skipped fs' split dropped delivered holds =>
    exact .message (f :: skipped) fs' (by rw [split]; rfl) (by simp [hf, dropped]) delivered holds
  | again skipped fs' split dropped holds parse avail =>
    exact .again (f :: skipped) fs' (by rw [split]; rfl) (by simp [hf, dropped]) holds parse avail

/-- Frames at most this long fit the buffer while they are incomplete. -/
def Fits (f : Frame) : Prop := f.msgLen + 3 ≤ ED2K_MAX_MSG_SIZE

theorem Fits.le (h : Fits f) : f.msgLen ≤ ED2K_MAX_MSG_SIZE := Nat.le_of_add_right_le h

theorem nextFrame_reads (hfit : ∀ f ∈ fs, Fits f) (h : Holds tail fs r) {fuel : Nat}
    (hfuel : r.avail < fuel) : Reads fs tail (nextFrame fuel r).1 (nextFrame fuel r).2 := by
  induction fuel generalizing r fs with
  | zero => exact absurd hfuel (Nat.not_lt_zero _)
  | succ fuel ih =>
    have hbytes := h.bytes
    cases fs with
    | nil =>
      have hnil := (List.append_eq_nil_iff.mp hbytes).1
      have hparse := parse_empty hnil
      rw [nextFrame, hparse]
      dsimp only
      exact .again [] [] rfl rfl h hparse (by rw [avail_of_unread hnil]; exact Nat.zero_le _)
    | cons f fs =>
      have hf := hfit f List.mem_cons_self
      rw [List.flatMap_cons] at hbytes
      by_cases hlt : r.avail < ED2K_HEADER_LEN + f.msgLen
      · have hparse := parse_short hf.le hbytes hlt
        rw [nextFrame, hparse]
        dsimp only
        refine .again [] (f :: fs) rfl rfl h hparse ?_
        have : f.msgLen + 3 ≤ ED2K_MAX_MSG_SIZE := hf
        simp only [ED2K_HEADER_LEN] at hlt
        omega
      · obtain ⟨more, hu, hmore⟩ : ∃ more, r.unread = encodeFrame f ++ more ∧
            more ++ tail = fs.flatMap encodeFrame := by
          obtain ⟨more, hmore⟩ := List.prefix_of_prefix_length_le
            (List.prefix_append (encodeFrame f) _) (hbytes ▸ List.prefix_append r.unread tail)
            (by rw [length_encodeFrame, length_unread]; omega)
          refine ⟨more, hmore.symm, ?_⟩
          rw [← hmore, List.append_assoc] at hbytes
          exact List.append_cancel_left hbytes
        have hnext := unread_next hu
        have hholds : Holds tail fs
            { r with recvPos := r.recvPos + (ED2K_HEADER_LEN + f.msgLen) } := by
          refine ⟨?_, by rw [hnext]; exact hmore⟩
          have := h.cursor
          simp only [avail] at hlt ⊢
          omega
        rw [nextFrame, parse_frame hf.le hu]
        dsimp only
        split
        next hd => exact .message [] fs rfl rfl hd hholds
        next hd =>
          refine (ih (fun g hg => hfit g (List.mem_cons_of_mem _ hg)) hholds ?_).skip
            (Bool.eq_false_iff.mpr hd)
          rw [avail_of_unread hnext]
          rw [avail_of_unread hu, List.length_append, length_encodeFrame] at hfuel
          simp only [ED2K_HEADER_LEN] at hfuel
          omega

theorem Reads.trans {skipped fs' : List Frame} {outcome : Outcome} (h : Reads fs' tail outcome r)
    (hsplit : fs = skipped ++ fs') (hdropped : skipped.filter Frame.delivered = []) :
    Reads fs tail outcome r := by
  cases h with
  | message more fs'' split dropped delivered holds =>
    exact .message (skipped ++ more) fs'' (by rw [hsplit, split, List.append_assoc])
      (by rw [List.filter_append, hdropped, dropped]; rfl) delivered holds
  | again more fs'' split dropped holds parse avail =>
    exact .again (skipped ++ more) fs'' (by rw [hsplit, split, List.append_assoc])
      (by rw [List.filter_append, hdropped, dropped]; rfl) holds parse avail

theorem parse_compact (h : r.parse = .incomplete) : r.compact.parse = .incomplete := by
  simp only [parse, unread_compact, avail_compact] at h ⊢
  split_ifs at h ⊢ <;> rfl

/-- A call reads the frames however its reads are cut. -/
theorem tryReceiveMessage_reads (hfit : ∀ f ∈ fs, Fits f) (cuts : List Nat) (wire : Bytes)
    (h : Holds (wire ++ tail) fs r) :
    Reads fs ((r.tryReceiveMessage cuts wire).2.1 ++ tail) (r.tryReceiveMessage cuts wire).1
      (r.tryReceiveMessage cuts wire).2.2 := by
  induction cuts generalizing r wire fs with
  | nil =>
    have hnext := nextFrame_reads hfit h (Nat.lt_succ_self _)
    unfold tryReceiveMessage
    generalize r.nextFrame (r.avail + 1) = q at hnext
    obtain ⟨outcome, r'⟩ := q
    cases hnext with
    | message skipped fs' split dropped delivered holds =>
      exact .message skipped fs' split dropped delivered holds
    | again skipped fs' split dropped holds parse avail =>
      dsimp only
      rw [if_neg (Nat.not_lt.mpr avail)]
      exact .again skipped fs' split dropped holds.compact (parse_compact parse)
        (by rwa [avail_compact])
  | cons n cuts ih =>
    have hnext := nextFrame_reads hfit h (Nat.lt_succ_self _)
    unfold tryReceiveMessage
    generalize r.nextFrame (r.avail + 1) = q at hnext
    obtain ⟨outcome, r'⟩ := q
    cases hnext with
    | message skipped fs' split dropped delivered holds =>
      exact .message skipped fs' split dropped delivered holds
    | again skipped fs' split dropped holds parse avail =>
      dsimp only
      rw [if_neg (Nat.not_lt.mpr avail)]
      split
      · exact .again skipped fs' split dropped holds.compact (parse_compact parse)
          (by rwa [avail_compact])
      · refine (ih (fun f hf => hfit f (by rw [split]; exact List.mem_append_right _ hf)) _
          (Holds.append ?_)).trans split dropped
        have hdata : wire.drop (wire.take (min n READ_SIZE)).length = wire.drop (min n READ_SIZE) := by
          rw [List.length_take]
          rcases Nat.le_total (min n READ_SIZE) wire.length with hle | hle
          · rw [Nat.min_eq_left hle]
          · rw [Nat.min_eq_right hle, List.drop_length, List.drop_eq_nil_of_le hle]
        rw [hdata, ← List.append_assoc, List.take_append_drop]
        exact holds.compact

/-! ## Byte by byte -/

theorem unread_append {data : Bytes} (h : r.recvPos ≤ r.recvBuffer.length) :
    (r.append data).unread = r.unread ++ data := by
  simp [Receiver.append, unread, List.drop_append_of_le_length h]

theorem cursor_append {data : Bytes} (h : r.recvPos ≤ r.recvBuffer.length) :
    (r.append data).recvPos ≤ (r.append data).recvBuffer.length := by
  simp only [Receiver.append, List.length_append]
  omega

theorem cursor_compact (h : r.recvPos ≤ r.recvBuffer.length) :
    r.compact.recvPos ≤ r.compact.recvBuffer.length := by
  unfold Receiver.compact
  split
  · exact Nat.zero_le _
  · exact h

theorem nextFrame_empty (hu : r.unread = []) (fuel : Nat) : nextFrame fuel r = (.again, r) := by
  cases fuel with
  | zero => rfl
  | succ fuel => rw [nextFrame, parse_empty hu]

section
variable {r' : Receiver} {cuts : List Nat} {wire : Bytes}

theorem tryReceiveMessage_message (h : r.nextFrame (r.avail + 1) = (.message f, r')) :
    r.tryReceiveMessage cuts wire = (.message f, wire, r') := by
  unfold tryReceiveMessage
  rw [h]

theorem tryReceiveMessage_overflow (h : r.nextFrame (r.avail + 1) = (.again, r'))
    (ha : ED2K_MAX_MSG_SIZE < r'.avail) :
    r.tryReceiveMessage cuts wire = (.desync, wire, r') := by
  unfold tryReceiveMessage
  rw [h]
  exact if_pos ha

theorem tryReceiveMessage_nil (h : r.nextFrame (r.avail + 1) = (.again, r'))
    (ha : r'.avail ≤ ED2K_MAX_MSG_SIZE) :
    r.tryReceiveMessage [] wire = (.again, wire, r'.compact) := by
  unfold tryReceiveMessage
  rw [h]
  exact if_neg (Nat.not_lt.mpr ha)

theorem tryReceiveMessage_cons {n : Nat} (h : r.nextFrame (r.avail + 1) = (.again, r'))
    (ha : r'.avail ≤ ED2K_MAX_MSG_SIZE) (hdata : wire.take (min n READ_SIZE) ≠ []) :
    r.tryReceiveMessage (n :: cuts) wire =
      (r'.compact.append (wire.take (min n READ_SIZE))).tryReceiveMessage cuts
        (wire.drop (wire.take (min n READ_SIZE)).length) := by
  rw [tryReceiveMessage, h]
  dsimp only
  rw [if_neg (Nat.not_lt.mpr ha), if_neg (by simpa using hdata)]

end

/-- A call that finds the first `j` bytes of a frame, and the others on the socket one read each. -/
theorem tryReceiveMessage_bytes (hf : f.msgLen ≤ ED2K_MAX_MSG_SIZE) (k : Nat) {j : Nat}
    (hj : j + k = ED2K_HEADER_LEN + f.msgLen) (hr : r.recvPos ≤ r.recvBuffer.length)
    (hu : r.unread = (encodeFrame f).take j) {q : Outcome × Bytes × Receiver}
    (hq : r.tryReceiveMessage (List.replicate k 1) ((encodeFrame f).drop j) = q) :
    (Fits f → q.1 ≠ .desync ∧ q.2.1 = [] ∧ q.2.2.unread = [] ∧
      q.2.2.recvPos ≤ q.2.2.recvBuffer.length) ∧
    (¬Fits f → j ≤ ED2K_MAX_MSG_SIZE + 1 → q.1 = .desync) := by
  induction k generalizing j r with
  | zero =>
    have hall : r.unread = encodeFrame f ++ [] := by
      rw [hu, List.append_nil, List.take_of_length_le (by rw [length_encodeFrame]; omega)]
    have hnext := unread_next hall
    have hcursor : r.recvPos + (ED2K_HEADER_LEN + f.msgLen) ≤ r.recvBuffer.length := by
      have := avail_of_unread hall
      rw [List.append_nil, length_encodeFrame, avail] at this
      omega
    have hdone : (encodeFrame f).drop j = [] :=
      List.drop_eq_nil_of_le (by rw [length_encodeFrame]; omega)
    refine ⟨fun _ => ?_, fun hbig hle => absurd (show Fits f from ?_) hbig⟩
    · have hzero := avail_of_unread hnext
      have hfirst : nextFrame (r.avail + 1) r = if f.delivered then (.message f,
          { r with recvPos := r.recvPos + (ED2K_HEADER_LEN + f.msgLen) }) else (.again,
          { r with recvPos := r.recvPos + (ED2K_HEADER_LEN + f.msgLen) }) := by
        rw [nextFrame, parse_frame hf hall]
        dsimp only
        rw [nextFrame_empty hnext]
      rw [hdone] at hq
      split at hfirst
      · rw [tryReceiveMessage_message hfirst] at hq
        subst hq
        exact ⟨by simp, rfl, hnext, hcursor⟩
      · rw [List.replicate_zero, tryReceiveMessage_nil hfirst (hzero ▸ Nat.zero_le _)] at hq
        subst hq
        exact ⟨by simp, rfl, (unread_compact _).trans hnext, cursor_compact hcursor⟩
    · simp only [Fits, ED2K_HEADER_LEN] at hj ⊢
      omega
  | succ k ih =>
    have havail : r.avail = j := by
      rw [avail_of_unread hu, List.length_take, length_encodeFrame]
      omega
    have hparse : r.parse = .incomplete :=
      @parse_short r f [] ((encodeFrame f).drop j) hf
        (by rw [hu, List.take_append_drop, List.append_nil]) (by omega)
    have hfirst : nextFrame (r.avail + 1) r = (.again, r) := by rw [nextFrame, hparse]
    have hone : (((encodeFrame f).drop j).take 1).length = 1 := by
      rw [List.length_take, List.length_drop, length_encodeFrame]
      omega
    by_cases hover : ED2K_MAX_MSG_SIZE < r.avail
    · rw [tryReceiveMessage_overflow hfirst hover] at hq
      subst hq
      refine ⟨fun hfit => ?_, fun _ _ => rfl⟩
      simp only [Fits, ED2K_HEADER_LEN] at hfit hj
      omega
    · have hdata : ((encodeFrame f).drop j).take (min 1 READ_SIZE) ≠ [] := fun hnil => by
        rw [show min 1 READ_SIZE = 1 from rfl] at hnil
        rw [hnil] at hone
        cases hone
      rw [List.replicate_succ, tryReceiveMessage_cons hfirst (Nat.not_lt.mp hover) hdata,
        show min 1 READ_SIZE = 1 from rfl, hone, List.drop_drop] at hq
      have hcursor := cursor_compact hr
      obtain ⟨hsmall, hbig⟩ := ih (j := j + 1) (by omega) (cursor_append hcursor) (by
        rw [unread_append hcursor, unread_compact, hu, List.take_add]) hq
      exact ⟨hsmall, fun hfit _ => hbig hfit (by omega)⟩

end Receiver

/-! ## Whole runs -/

namespace Link

open Receiver

variable {s : Link} {f : Frame} {fs : List Frame}

/-- Frames that fit are, in their order, received, held by the receiver, on the socket or waiting to
be sent. -/
structure Inv (s : Link) : Prop where
  fits : ∀ f ∈ s.queued, Fits f
  desync : s.desync = false
  split : ∃ done rest, s.queued = done ++ rest ∧ s.received = done.filter Frame.delivered ∧
    Holds (s.wire ++ s.sendBuffer) rest s.receiver
  waiting : s.waiting = true → s.receiver.parse = .incomplete

theorem Inv.faithful (h : Inv s) : Faithful s := by
  obtain ⟨done, rest, hq, hr, hholds⟩ := h.split
  refine ⟨h.desync, ?_, fun hwait hwire hsend => ?_⟩
  · rw [hq, hr, List.filter_append]
    exact List.prefix_append ..
  · have hbytes := hholds.bytes
    rw [hwire, hsend, List.append_nil, List.append_nil] at hbytes
    cases rest with
    | nil => rw [hq, hr, List.append_nil]
    | cons f rest =>
      rw [List.flatMap_cons] at hbytes
      have hf := h.fits f (by rw [hq]; simp)
      have hparse := h.waiting hwait
      rw [parse_frame hf.le hbytes] at hparse
      cases hparse

/-- A frame that is queued fits. -/
def Queues (_ : Link) : Event → Prop
  | .queue f => Fits f
  | _ => True

theorem Inv.step (h : Inv s) {e : Event} (he : Queues s e) : Inv (s.step e) := by
  obtain ⟨done, rest, hq, hr, hholds⟩ := h.split
  cases e with
  | queue f =>
    refine ⟨fun g hg => ?_, h.desync, ⟨done, rest ++ [f], ?_, hr, hholds.cursor, ?_⟩, h.waiting⟩
    · rcases List.mem_append.mp hg with hg | hg
      · exact h.fits g hg
      · exact List.mem_singleton.mp hg ▸ he
    · rw [← List.append_assoc, ← hq]
      rfl
    · show s.receiver.unread ++ (s.wire ++ (s.sendBuffer ++ encodeFrame f)) = _
      rw [← List.append_assoc s.wire, ← List.append_assoc, hholds.bytes, List.flatMap_append,
        List.flatMap_singleton]
  | flush writes =>
    refine ⟨h.fits, h.desync, ⟨done, rest, hq, hr, hholds.cursor, ?_⟩, h.waiting⟩
    rw [← hholds.bytes]
    simp [Link.step]
  | call cuts =>
    have hreads := tryReceiveMessage_reads
      (fun f hf => h.fits f (by rw [hq]; exact List.mem_append_right _ hf)) cuts s.wire hholds
    simp only [Link.step]
    generalize s.receiver.tryReceiveMessage cuts s.wire = q at hreads
    obtain ⟨outcome, wire, r⟩ := q
    cases hreads with
    | @message f _ skipped fs' split dropped delivered holds =>
      refine ⟨h.fits, by simp [h.desync], ⟨done ++ skipped ++ [f], fs', ?_, ?_, holds⟩, by simp⟩
      · rw [hq, split]
        simp
      · simp [hr, dropped, delivered]
    | again skipped fs' split dropped holds parse avail =>
      refine ⟨h.fits, by simp [h.desync], ⟨done ++ skipped, fs', ?_, ?_, holds⟩, fun _ => parse⟩
      · rw [hq, split]
        simp
      · simp [hr, dropped]

theorem inv_start : Inv {} where
  fits f hf := nomatch hf
  desync := rfl
  split := ⟨[], [], rfl, rfl, Nat.le_refl _, rfl⟩
  waiting h := by cases h

theorem along_queues {es : List Event} (h : ∀ f ∈ queuedBy es, Fits f) (s : Link) :
    Along Link.step Queues s es := by
  induction es generalizing s with
  | nil => trivial
  | cons e es ih =>
    cases e with
    | queue f =>
      exact ⟨h f List.mem_cons_self, ih (fun g hg => h g (List.mem_cons_of_mem _ hg)) _⟩
    | flush writes => exact ⟨trivial, ih h _⟩
    | call cuts => exact ⟨trivial, ih h _⟩

/-! ### A run in which a frame that does not fit fails -/

/-- Nothing is on its way. -/
structure Clean (s : Link) : Prop where
  sendBuffer : s.sendBuffer = []
  wire : s.wire = []
  unread : s.receiver.unread = []
  cursor : s.receiver.recvPos ≤ s.receiver.recvBuffer.length

/-- The frame is queued, sent at once and read byte by byte. -/
def feed (f : Frame) : List Event :=
  [.queue f, .flush [ED2K_HEADER_LEN + f.msgLen],
    .call (List.replicate (ED2K_HEADER_LEN + f.msgLen) 1)]

theorem flushLoop_all (size : Nat) (h : 0 < size) : flushLoop size [size] 0 = size := by
  simp [flushLoop, h, Nat.ne_of_gt h]

theorem exec_feed (h : Clean s) (hf : f.msgLen ≤ ED2K_MAX_MSG_SIZE) :
    (Fits f → Clean (exec Link.step s (feed f))) ∧
      (¬Fits f → (exec Link.step s (feed f)).desync = true) := by
  have hwritten : flushLoop (encodeFrame f).length [ED2K_HEADER_LEN + f.msgLen] 0 =
      (encodeFrame f).length := by
    rw [← length_encodeFrame]
    exact flushLoop_all _ (by rw [length_encodeFrame, ED2K_HEADER_LEN]; omega)
  have hflushed : Link.step (Link.step s (.queue f)) (.flush [ED2K_HEADER_LEN + f.msgLen]) =
      { s with
        sendBuffer := []
        wire := encodeFrame f
        queued := s.queued ++ [f] } := by
    simp only [Link.step, h.sendBuffer, h.wire, List.nil_append, hwritten, List.drop_length,
      List.take_length]
  have hcall := tryReceiveMessage_bytes (j := 0) hf (ED2K_HEADER_LEN + f.msgLen) (by omega) h.cursor
    h.unread rfl
  rw [List.drop_zero] at hcall
  simp only [feed, exec, hflushed]
  simp only [Link.step]
  generalize s.receiver.tryReceiveMessage (List.replicate (ED2K_HEADER_LEN + f.msgLen) 1)
    (encodeFrame f) = q at hcall
  obtain ⟨outcome, wire, r⟩ := q
  obtain ⟨hsmall, hbig⟩ := hcall
  refine ⟨fun hfit => ?_, fun hfit => ?_⟩
  · obtain ⟨-, hwire, hunread, hcursor⟩ := hsmall hfit
    exact ⟨rfl, hwire, hunread, hcursor⟩
  · have hout : outcome = .desync := hbig hfit (Nat.zero_le _)
    simp [hout]

theorem not_faithful_of_big (hf : ∀ f ∈ fs, f.msgLen ≤ ED2K_MAX_MSG_SIZE) (h : Clean s)
    (hbig : ¬∀ f ∈ fs, Fits f) : ¬Visits Link.step Faithful s (fs.flatMap feed) := by
  induction fs generalizing s with
  | nil => exact absurd (fun f hf => nomatch hf) hbig
  | cons f fs ih =>
    intro hvisits
    rw [List.flatMap_cons] at hvisits
    have htail := hvisits.of_append
    obtain ⟨hsmall, hlarge⟩ := exec_feed h (hf f List.mem_cons_self)
    by_cases hfit : Fits f
    · refine ih (fun g hg => hf g (List.mem_cons_of_mem _ hg)) (hsmall hfit) (fun hall => ?_) htail
      exact hbig (List.forall_mem_cons.mpr ⟨hfit, hall⟩)
    · have := htail.head.desync
      rw [hlarge hfit] at this
      cases this

theorem queuedBy_feed (fs : List Frame) : queuedBy (fs.flatMap feed) = fs := by
  induction fs with
  | nil => rfl
  | cons f fs ih => simp [feed, queuedBy, ih]

theorem not_faithful_of_msgLen_eq (hf : f.msgLen = ED2K_MAX_MSG_SIZE) :
    ¬∀ es, queuedBy es = [f] → Visits Link.step Faithful {} es := by
  intro h
  have hle : ∀ g ∈ [f], g.msgLen ≤ ED2K_MAX_MSG_SIZE := fun g hg => by
    rw [List.mem_singleton.mp hg]
    exact Nat.le_of_eq hf
  refine not_faithful_of_big hle ⟨rfl, rfl, rfl, Nat.le_refl _⟩ (fun hfit => ?_)
    (h _ (queuedBy_feed _))
  have := hfit f List.mem_cons_self
  rw [Fits, hf] at this
  omega

end Link

/-- The frames come out as they went in, however they are written and read, exactly when none of
them is longer than `ED2K_MAX_MSG_SIZE - 3`. -/
theorem framing_iff (frames : List Frame) (h : ∀ f ∈ frames, f.msgLen ≤ ED2K_MAX_MSG_SIZE) :
    (∀ es, Link.queuedBy es = frames → Visits Link.step Link.Faithful {} es) ↔
      ∀ f ∈ frames, f.msgLen + 3 ≤ ED2K_MAX_MSG_SIZE := by
  constructor
  · intro hall
    by_contra hbig
    exact Link.not_faithful_of_big h ⟨rfl, rfl, rfl, Nat.le_refl _⟩ hbig
      (hall _ (Link.queuedBy_feed frames))
  · rintro hfit es rfl
    exact visits_of_along (fun _ _ hinv hq => hinv.step hq) (fun _ hinv => hinv.faithful)
      Link.inv_start (Link.along_queues hfit _)

/-- A server message, a frame of another protocol and a part request. -/
def three : List Frame := [⟨0xE3, 0x38, [5, 0, 104]⟩, ⟨0xD4, 0x40, [1, 2]⟩, ⟨0xC5, 0x81, []⟩]

theorem framing_three : (∀ f ∈ three, f.msgLen ≤ ED2K_MAX_MSG_SIZE) ∧
    ∀ es, Link.queuedBy es = three → Visits Link.step Link.Faithful {} es :=
  ⟨by decide, (framing_iff three (by decide)).mpr (by decide)⟩

/-- A frame of the greatest length the receiver allows. -/
def longest : Frame := ⟨0xE3, 0x46, List.replicate (ED2K_MAX_MSG_SIZE - 2) 0⟩

theorem msgLen_longest : longest.msgLen = ED2K_MAX_MSG_SIZE := by
  have h : longest.payload.length = ED2K_MAX_MSG_SIZE - 2 := List.length_replicate
  rw [Frame.msgLen, h]
  exact Nat.sub_add_cancel (by decide)

/-- It is not received when a read ends just before its end. -/
theorem framing_counterexample :
    ¬∀ es, Link.queuedBy es = [longest] → Visits Link.step Link.Faithful {} es :=
  Link.not_faithful_of_msgLen_eq msgLen_longest

end FluxCore.Ed2k
