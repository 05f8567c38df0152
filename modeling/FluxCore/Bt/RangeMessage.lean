import FluxCore.Lib.Interval
import FluxCore.Storage.BitfieldMan
import FluxCore.Utp.Packet

/-!
# Messages about a range of a piece

A request, cancel, reject or piece message names a piece, an offset in it and a length. On the wire
these are unsigned 32-bit numbers (`RangeBtMessage.h`, `BtPieceMessage.cc`); the checks of
`bittorrent_helper.cc` read the offset and the length as signed ones. `validated_iff` says which
payloads the validators let through only when the range lies in its piece.
-/

namespace FluxCore.Bt

open Utp (Bytes readBe32)
open Storage (BitfieldMan)

def MAX_BLOCK_LENGTH : Nat := 65536

inductive Kind where
  | request | piece | cancel | reject
  deriving DecidableEq, Repr

def Kind.ID : Kind → UInt8
  | .request => 6
  | .piece => 7
  | .cancel => 8
  | .reject => 16

def Kind.NAME : Kind → String
  | .request => "request"
  | .piece => "piece"
  | .cancel => "cancel"
  | .reject => "reject"

structure RangeBtMessage where
  index : Nat
  begin : Int32
  length : Int32
  deriving DecidableEq, Repr

/-! ## Reading a payload -/

def assertPayloadLengthEqual (expected actual : Nat) (msgName : String) : Except String Unit :=
  if expected ≠ actual then
    .error s!"Invalid payload size for {msgName}, size={actual}. It should be {expected}."
  else .ok ()

def assertPayloadLengthGreater (threshold actual : Nat) (msgName : String) : Except String Unit :=
  if actual ≤ threshold then .error s!"Too small payload size for {msgName}, size={actual}."
  else .ok ()

def assertID (expected : UInt8) (data : Bytes) (msgName : String) : Except String Unit :=
  let id := data.getD 0 0
  if expected ≠ id then .error s!"Invalid ID={id} for {msgName}. It should be {expected}."
  else .ok ()

def getIntParam (msg : Bytes) (pos : Nat) : UInt32 := readBe32 (msg.drop pos)

/-- The range message of a payload; the length of a piece message is that of its block. -/
def create (k : Kind) (data : Bytes) : Except String RangeBtMessage := do
  match k with
  | .piece =>
    assertPayloadLengthGreater 9 data.length k.NAME
    assertID k.ID data k.NAME
    return { index := (getIntParam data 1).toNat
             begin := (getIntParam data 5).toInt32
             length := Int32.ofNat (data.length - 9) }
  | _ =>
    assertPayloadLengthEqual 13 data.length k.NAME
    assertID k.ID data k.NAME
    return { index := (getIntParam data 1).toNat
             begin := (getIntParam data 5).toInt32
             length := (getIntParam data 9).toInt32 }

/-! ## Validation -/

def checkIndex (index pieces : Nat) : Except String Unit :=
  if ¬index < pieces then .error s!"Invalid index: {index}" else .ok ()

def checkBegin (start pieceLength : Int32) : Except String Unit :=
  if ¬start < pieceLength then .error s!"Invalid begin: {start}" else .ok ()

def checkLength (length : Int32) : Except String Unit :=
  if Int32.ofNat MAX_BLOCK_LENGTH < length then
    .error s!"Length too long: {length} > {MAX_BLOCK_LENGTH / 1024}KB"
  else if length = 0 then .error s!"Invalid length: {length}"
  else .ok ()

/-- The sum wraps around where the source overflows. -/
def checkRange (start length pieceLength : Int32) : Except String Unit :=
  if ¬0 < length then .error s!"Invalid range: begin={start}, length={length}"
  else if ¬start + length ≤ pieceLength then
    .error s!"Invalid range: begin={start}, length={length}"
  else .ok ()

/-- `RangeBtMessageValidator`, and `BtPieceMessageValidator` for a piece message. -/
def validate (k : Kind) (numPiece : Nat) (pieceLength : Int32) (m : RangeBtMessage) :
    Except String Unit := do
  match k with
  | .piece =>
    checkIndex m.index numPiece
    checkBegin m.begin pieceLength
  | _ =>
    checkIndex m.index numPiece
    checkBegin m.begin pieceLength
    checkLength m.length
    checkRange m.begin m.length pieceLength

/-- The pieces of a torrent, whose length is an `int32_t`. -/
structure Pieces where
  bitfieldMan : BitfieldMan
  fits : bitfieldMan.blockLength < 2 ^ 31

namespace Pieces

variable (p : Pieces)

def getNumPieces : Nat := p.bitfieldMan.countBlock

def getPieceLength (index : Nat) : Int32 := Int32.ofNat (p.bitfieldMan.getBlockLength index)

def hasPiece (index : Nat) : Bool := p.bitfieldMan.isBitSet index

/-- What the factory creates and the receiver validates. -/
def receive (metadataGetMode : Bool) (k : Kind) (data : Bytes) : Except String RangeBtMessage := do
  let m ← create k data
  if metadataGetMode then return m
  validate k p.getNumPieces (p.getPieceLength m.index) m
  return m

/-- What is known of the peer a request comes from. -/
structure Peer where
  amChoking : Bool
  isInAmAllowedIndexSet : Nat → Bool
  fastExtensionEnabled : Bool

inductive Answer where
  | piece (m : RangeBtMessage)
  | reject (m : RangeBtMessage)
  | nothing
  deriving DecidableEq

/-- `BtRequestMessage::doReceivedAction`. -/
def doReceivedAction (metadataGetMode : Bool) (peer : Peer) (m : RangeBtMessage) : Answer :=
  if metadataGetMode then .nothing
  else if p.hasPiece m.index && (!peer.amChoking || peer.isInAmAllowedIndexSet m.index) then .piece m
  else if peer.fastExtensionEnabled then .reject m
  else .nothing

/-- The bytes of the torrent that sending a piece message reads. -/
def readRange (m : RangeBtMessage) : Interval Int :=
  let offset : Int := m.index * p.bitfieldMan.blockLength + m.begin.toInt
  ⟨offset, offset + m.length.toInt⟩

/-- The bytes of a piece. -/
def pieceRange (index : Nat) : Interval Int :=
  ⟨index * p.bitfieldMan.blockLength,
    index * p.bitfieldMan.blockLength + p.bitfieldMan.getBlockLength index⟩

/-! ## The accepted ranges -/

/-- The message names a nonempty range of its piece. -/
structure InPiece (m : RangeBtMessage) : Prop where
  index : m.index < p.getNumPieces
  begin : 0 ≤ m.begin.toInt
  length : 0 < m.length.toInt
  short : m.length.toInt ≤ MAX_BLOCK_LENGTH
  fits : m.begin.toInt + m.length.toInt ≤ p.bitfieldMan.getBlockLength m.index

/-- Whatever is uploaded for a request belongs to its piece, which is there. -/
def UploadsInside (m : RangeBtMessage) : Prop :=
  ∀ peer m', p.doReceivedAction false peer m = .piece m' →
    p.hasPiece m.index ∧ ∀ x ∈ p.readRange m', x ∈ p.pieceRange m.index

/-- A payload is let through only when its range lies in its piece. -/
def Validated (k : Kind) (data : Bytes) : Prop :=
  ∀ m, p.receive false k data = .ok m → p.InPiece m ∧ (k = .request → p.UploadsInside m)

/-- The lengths are right but the offset is negative, or so large that the sum overflows. -/
def SlipsThrough (m : RangeBtMessage) : Prop :=
  m.index < p.getNumPieces ∧ 0 < m.length.toInt ∧ m.length.toInt ≤ MAX_BLOCK_LENGTH ∧
    m.begin.toInt < p.bitfieldMan.getBlockLength m.index ∧
    (m.begin.toInt < 0 ∧ m.begin.toInt + m.length.toInt ≤ p.bitfieldMan.getBlockLength m.index ∨
      2 ^ 31 ≤ m.begin.toInt + m.length.toInt)

/-- For a piece message only the index and the upper bound of the offset are looked at. -/
def PlacedBlock (m : RangeBtMessage) : Prop :=
  m.index < p.getNumPieces → m.begin.toInt < p.bitfieldMan.getBlockLength m.index →
    0 ≤ m.begin.toInt ∧ 0 < m.length.toInt ∧ m.length.toInt ≤ MAX_BLOCK_LENGTH ∧
      m.begin.toInt + m.length.toInt ≤ p.bitfieldMan.getBlockLength m.index

def WellPlaced (k : Kind) (data : Bytes) : Prop :=
  ∀ m, create k data = .ok m → if k = .piece then p.PlacedBlock m else ¬p.SlipsThrough m

end Pieces

/-! ### The checks -/

section
variable {index pieces : Nat} {start length pieceLength : Int32}

theorem checkIndex_ok : checkIndex index pieces = .ok () ↔ index < pieces := by
  unfold checkIndex
  split <;> simp_all

theorem checkBegin_ok :
    checkBegin start pieceLength = .ok () ↔ start.toInt < pieceLength.toInt := by
  unfold checkBegin
  rw [← Int32.lt_iff_toInt_lt]
  split <;> simp_all

theorem checkLength_ok :
    checkLength length = .ok () ↔ length.toInt ≤ MAX_BLOCK_LENGTH ∧ length.toInt ≠ 0 := by
  have hmax : (Int32.ofNat MAX_BLOCK_LENGTH).toInt = MAX_BLOCK_LENGTH := by decide
  have h0 : length = 0 ↔ length.toInt = 0 := by
    rw [← Int32.toInt_inj]
    rfl
  unfold checkLength
  split
  next hlong =>
    rw [Int32.lt_iff_toInt_lt, hmax] at hlong
    exact ⟨nofun, fun h => absurd h.1 (not_le.mpr hlong)⟩
  next hlong =>
    rw [Int32.lt_iff_toInt_lt, hmax, not_lt] at hlong
    split
    next hzero => exact ⟨nofun, fun h => absurd (h0.mp hzero) h.2⟩
    next hzero => exact iff_of_true rfl ⟨hlong, fun h => hzero (h0.mpr h)⟩

theorem checkRange_ok :
    checkRange start length pieceLength = .ok () ↔
      0 < length.toInt ∧ (start.toInt + length.toInt).bmod (2 ^ 32) ≤ pieceLength.toInt := by
  have h0 : (0 : Int32).toInt = 0 := rfl
  rw [← Int32.toInt_add, ← Int32.le_iff_toInt_le, ← h0, ← Int32.lt_iff_toInt_lt]
  unfold checkRange
  split
  next hpos => exact ⟨nofun, fun h => absurd h.1 hpos⟩
  next hpos =>
    split
    next hend => exact ⟨nofun, fun h => absurd h.2 hend⟩
    next hend => exact iff_of_true rfl ⟨not_not.mp hpos, not_not.mp hend⟩

theorem seq_ok {a b : Except String Unit} :
    (do a; b) = .ok () ↔ a = .ok () ∧ b = .ok () := by
  cases a with
  | error e => exact ⟨nofun, fun h => absurd h.1 nofun⟩
  | ok u => exact ⟨fun h => ⟨rfl, h⟩, fun h => h.2⟩

end

namespace Pieces

variable {p : Pieces} {k : Kind} {m : RangeBtMessage} {data : Bytes}

theorem getBlockLength_lt (p : Pieces) (index : Nat) :
    p.bitfieldMan.getBlockLength index < 2 ^ 31 :=
  p.bitfieldMan.getBlockLength_le.trans_lt p.fits

theorem toInt_getPieceLength (p : Pieces) (index : Nat) :
    (p.getPieceLength index).toInt = p.bitfieldMan.getBlockLength index :=
  Int32.toInt_ofNat_of_lt (p.getBlockLength_lt index)

theorem toInt_bounds (x : Int32) : -2 ^ 31 ≤ x.toInt ∧ x.toInt < 2 ^ 31 :=
  ⟨x.le_toInt, x.toInt_lt⟩

/-- What the four checks let through. -/
theorem validate_range_ok (hk : k ≠ .piece) :
    validate k p.getNumPieces (p.getPieceLength m.index) m = .ok () ↔
      p.InPiece m ∨ p.SlipsThrough m := by
  have hchecks : validate k p.getNumPieces (p.getPieceLength m.index) m = (do
      checkIndex m.index p.getNumPieces
      checkBegin m.begin (p.getPieceLength m.index)
      checkLength m.length
      checkRange m.begin m.length (p.getPieceLength m.index)) := by
    cases k
    case piece => exact absurd rfl hk
    all_goals rfl
  have hb := toInt_bounds m.begin
  have hl := toInt_bounds m.length
  have hp := p.getBlockLength_lt m.index
  have hmax : (MAX_BLOCK_LENGTH : Int) = 65536 := rfl
  rw [hchecks, seq_ok, seq_ok, seq_ok, checkIndex_ok, checkBegin_ok, checkLength_ok, checkRange_ok,
    toInt_getPieceLength]
  constructor
  · rintro ⟨h1, h2, ⟨h3, -⟩, h4, h5⟩
    by_cases hover : 2 ^ 31 ≤ m.begin.toInt + m.length.toInt
    · exact .inr ⟨h1, h4, h3, h2, .inr hover⟩
    rw [Int.bmod_eq_of_le (by omega) (by omega)] at h5
    by_cases hneg : m.begin.toInt < 0
    · exact .inr ⟨h1, h4, h3, h2, .inl ⟨hneg, h5⟩⟩
    · exact .inl ⟨h1, not_lt.mp hneg, h4, h3, h5⟩
  · rintro (⟨h1, h2, h3, h4, h5⟩ | ⟨h1, h2, h3, h4, ⟨h5, h6⟩ | h5⟩)
    · rw [Int.bmod_eq_of_le (by omega) (by omega)]
      exact ⟨h1, by omega, ⟨h4, h3.ne'⟩, h3, h5⟩
    · rw [Int.bmod_eq_of_le (by omega) (by omega)]
      exact ⟨h1, h4, ⟨h3, h2.ne'⟩, h2, h6⟩
    · refine ⟨h1, h4, ⟨h3, h2.ne'⟩, h2, ?_⟩
      rw [Int.bmod_def, Int.emod_eq_of_lt (by omega) (by omega), if_neg (by omega)]
      omega

/-- What slips through is outside its piece. -/
theorem SlipsThrough.not_inPiece (h : p.SlipsThrough m) : ¬p.InPiece m := by
  have hp := p.getBlockLength_lt m.index
  obtain ⟨-, -, -, -, ⟨h, -⟩ | h⟩ := h
  · exact fun hin => absurd hin.begin (not_le.mpr h)
  · intro hin
    have := hin.fits
    omega

theorem validate_piece_ok :
    validate .piece p.getNumPieces (p.getPieceLength m.index) m = .ok () ↔
      m.index < p.getNumPieces ∧ m.begin.toInt < p.bitfieldMan.getBlockLength m.index := by
  have hchecks : validate .piece p.getNumPieces (p.getPieceLength m.index) m = (do
      checkIndex m.index p.getNumPieces
      checkBegin m.begin (p.getPieceLength m.index)) := rfl
  rw [hchecks, seq_ok, checkIndex_ok, checkBegin_ok, toInt_getPieceLength]

/-! ### Uploads -/

theorem doReceivedAction_piece {peer : Peer} {m' : RangeBtMessage}
    (h : p.doReceivedAction false peer m = .piece m') : m' = m ∧ p.hasPiece m.index := by
  unfold doReceivedAction at h
  simp only [Bool.false_eq_true, if_false] at h
  split at h
  next hhas =>
    cases h
    exact ⟨rfl, (Bool.and_eq_true_iff.mp hhas).1⟩
  · split at h <;> cases h

theorem InPiece.uploadsInside (h : p.InPiece m) : p.UploadsInside m := by
  intro peer m' hm'
  obtain ⟨rfl, hhas⟩ := doReceivedAction_piece hm'
  refine ⟨hhas, fun x hx => ?_⟩
  obtain ⟨hlo, hhi⟩ := hx
  have h1 := h.begin
  have h2 := h.fits
  dsimp only [readRange] at hlo hhi
  constructor <;> dsimp only [pieceRange] <;> omega

theorem receive_ok : p.receive false k data = .ok m ↔
    create k data = .ok m ∧ validate k p.getNumPieces (p.getPieceLength m.index) m = .ok () := by
  unfold receive
  cases create k data with
  | error e => exact ⟨nofun, fun h => absurd h.1 nofun⟩
  | ok m' =>
    simp only [bind, Except.bind, Bool.false_eq_true, if_false]
    constructor
    · intro h
      cases hv : validate k p.getNumPieces (p.getPieceLength m'.index) m' with
      | error e => rw [hv] at h; cases h
      | ok u => rw [hv] at h; cases h; exact ⟨rfl, hv⟩
    · rintro ⟨hm, hv⟩
      cases hm
      rw [hv]
      rfl

/-- A range message is validated exactly when its offset does not slip through the checks, a piece
message exactly when its block happens to lie in the piece. -/
theorem validated_iff (p : Pieces) (k : Kind) (data : Bytes) :
    p.Validated k data ↔ p.WellPlaced k data := by
  unfold Validated WellPlaced
  refine forall_congr' fun m => ?_
  rw [receive_ok]
  by_cases hc : create k data = .ok m
  swap
  · exact ⟨fun _ h => absurd h hc, fun _ h => absurd h.1 hc⟩
  by_cases hk : k = .piece
  · subst hk
    rw [validate_piece_ok]
    simp only [hc, true_and, if_true, forall_const, PlacedBlock, reduceCtorEq, false_implies,
      and_true]
    constructor
    · intro h h1 h2
      obtain ⟨-, h3, h4, h5, h6⟩ := h ⟨h1, h2⟩
      exact ⟨h3, h4, h5, h6⟩
    · rintro h ⟨h1, h2⟩
      obtain ⟨h3, h4, h5, h6⟩ := h h1 h2
      exact ⟨h1, h3, h4, h5, h6⟩
  · rw [validate_range_ok hk]
    simp only [hc, true_and, hk, if_false, forall_const]
    constructor
    · exact fun h hs => hs.not_inPiece (h (.inr hs)).1
    · rintro h (hin | hs)
      · exact ⟨hin, fun _ => hin.uploadsInside⟩
      · exact absurd hs h

/-- A request for the byte in front of piece 1 is let through. -/
theorem negative_begin_counterexample :
    ¬Validated ⟨(BitfieldMan.new 16384 32768).setBit 1, by decide⟩ .request
      [6, 0, 0, 0, 1, 0xFF, 0xFF, 0xFF, 0xFF, 0, 0, 0, 1] := by
  intro h
  have hin := (h ⟨1, -1, 1⟩ (by decide +kernel)).1.begin
  revert hin
  decide

end Pieces

end FluxCore.Bt
