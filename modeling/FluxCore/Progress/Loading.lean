import FluxCore.Progress.ControlFile

/-!
# Loading the control file

`DefaultBtProgressInfoFile::load()`. Its reads are computations on what is left of the file; beside
their results they record what they ask memory for. The effects on the download come in the order of
the source: the upload length is set when the header has been read, the bit field of the pieces when
it has been read, and both stay where a later read throws.
-/

namespace FluxCore.Progress

open Bitfield (BitfieldMan)

/-- What memory is asked for: the bytes of a bit field with so many blocks, a bit field manager with
a block length, room for so many pieces in flight. -/
inductive Request
  | bitfield (bytes blocks : Nat)
  | bitfieldMan (blockLength : Int)
  | inFlightPieces (count : Nat)
  deriving DecidableEq

inductive LoadError
  | segmentFileRead
  | unsupportedVersion (version : List UInt8)
  | infoHashLength (actual : Nat)
  | infoHashMismatch (actual : List UInt8)
  | pieceLengthZero
  | totalLengthMismatch (actual : Nat)
  | bitfieldLengthMismatch (expected actual : Nat)
  | pieceIndexOutOfRange (index : Nat)
  | pieceLengthOutOfRange (length : Nat)
  | pieceBitfieldLengthMismatch (expected actual : Nat)
  | pieceLengthChanged
  deriving DecidableEq

/-- What is left of the file, and the requests so far. -/
structure Reader where
  rest : List UInt8
  requests : List Request := []
  deriving DecidableEq

/-- A computation that reads; the reader is there also where it throws. -/
def Read (α : Type) := Reader → Except LoadError α × Reader

namespace Read

variable {α β : Type}

instance : Monad Read where
  pure a r := (.ok a, r)
  bind x f r := match x r with
    | (.ok a, r) => f a r
    | (.error e, r) => (.error e, r)

theorem bind_eq (x : Read α) (f : α → Read β) (r : Reader) :
    (x >>= f) r = Except.casesOn (x r).1 (fun e => (.error e, (x r).2)) fun a => f a (x r).2 := by
  change (match x r with
    | (.ok a, r) => f a r
    | (.error e, r) => (.error e, r)) = _
  rcases x r with ⟨_ | a, r₁⟩ <;> rfl

def throw (e : LoadError) : Read α := fun r => (.error e, r)

def check (p : Prop) [Decidable p] (e : LoadError) : Read (PLift p) :=
  if h : p then pure ⟨h⟩ else throw e

def request (q : Request) : Read Unit := fun r => (.ok (), { r with requests := r.requests ++ [q] })

/-- `READ_CHECK`. -/
def read (count : Nat) : Read (List UInt8) := fun r =>
  if count ≤ r.rest.length then (.ok (r.rest.take count), { r with rest := r.rest.drop count })
  else (.error .segmentFileRead, r)

end Read

/-- An integer in host byte order (that of a little-endian host) in version 0, else in network byte
order. -/
def int (version width n : Nat) : List UInt8 :=
  if version = 0 then (octets width n).reverse else octets width n

def intValue (version : Nat) (bs : List UInt8) : Nat :=
  if version = 0 then octetsValue bs.reverse else octetsValue bs

def Read.int (version width : Nat) : Read Nat := do
  let bs ← read width
  pure (intValue version bs)

/-- What precedes the bit field. -/
structure Header where
  version : Nat
  extension : List UInt8
  savedInfoHash : List UInt8
  pieceLength : Nat
  uploadLength : Nat
  deriving DecidableEq

namespace Context

variable (ctx : Context)

def infoHashCheckEnabled (extension : List UInt8) : Bool :=
  extension.getD 3 0 &&& 1 ≠ 0 && ctx.isTorrentDownload

def readVersion : Read Nat := do
  let versionBuf ← Read.read 2
  if versionBuf = [0, 0] then pure 0
  else if versionBuf = [0, 1] then pure 1
  else Read.throw (.unsupportedVersion versionBuf)

def readInfoHash (version : Nat) (extension : List UInt8) : Read (List UInt8) := do
  let infoHashCheckEnabled := ctx.infoHashCheckEnabled extension
  let infoHashLength ← Read.int version 4
  let _ ← Read.check (infoHashLength ≤ INFO_HASH_LENGTH ∧
    (infoHashLength = INFO_HASH_LENGTH ∨ infoHashCheckEnabled = false))
    (.infoHashLength infoHashLength)
  let savedInfoHash ← Read.read infoHashLength
  let _ ← Read.check (infoHashCheckEnabled = true →
    ctx.torrent.map InfoHash.bytes = some savedInfoHash) (.infoHashMismatch savedInfoHash)
  pure savedInfoHash

def readHeader : Read Header := do
  let version ← readVersion
  let extension ← Read.read 4
  let savedInfoHash ← ctx.readInfoHash version extension
  let pieceLength ← Read.int version 4
  let _ ← Read.check (pieceLength ≠ 0) .pieceLengthZero
  let totalLength ← Read.int version 8
  let _ ← Read.check (totalLength = ctx.totalLength) (.totalLengthMismatch totalLength)
  let uploadLength ← Read.int version 8
  pure { version, extension, savedInfoHash, pieceLength, uploadLength }

/-- The number of pieces of the saved piece length. -/
def savedPieces (h : Header) : Nat := (ctx.totalLength + h.pieceLength - 1) / h.pieceLength

/-- As a `uint32_t`. -/
def expectedBitfieldLength (h : Header) : Nat := (ctx.savedPieces h + 7) / 8 % 2 ^ 32

def readBitfield (h : Header) : Read (List UInt8) := do
  let bitfieldLength ← Read.int h.version 4
  let _ ← Read.check (ctx.expectedBitfieldLength h = bitfieldLength)
    (.bitfieldLengthMismatch (ctx.expectedBitfieldLength h) bitfieldLength)
  Read.request (.bitfield bitfieldLength (ctx.savedPieces h))
  Read.read bitfieldLength

end Context

namespace Piece

def getBitfieldLength (p : Piece) : Nat := p.bitfield.bitfield.bytes.length

def setBitfield (p : Piece) (bytes : List UInt8) : Piece where
  bitfield := p.bitfield.setBitfield bytes
  blockLength_bitfield := (p.bitfield.blockLength_setBitfield bytes).trans p.blockLength_bitfield

theorem getLength_setBitfield (p : Piece) (bytes : List UInt8) :
    (p.setBitfield bytes).getLength = p.getLength := p.bitfield.totalLength_setBitfield bytes

end Piece

/-- A piece that may be in flight. -/
structure InFlightPiece (ctx : Context) where
  index : Nat
  piece : Piece
  index_lt : index < ctx.getNumPieces
  length_le : piece.getLength ≤ ctx.pieceLength

namespace Context

variable (ctx : Context)

def readPiece (version : Nat) : Read (InFlightPiece ctx) := do
  let index ← Read.int version 4
  let ⟨index_lt⟩ ← Read.check (index < ctx.getNumPieces) (.pieceIndexOutOfRange index)
  let length ← Read.int version 4
  let ⟨length_le⟩ ← Read.check (length ≤ ctx.pieceLength) (.pieceLengthOutOfRange length)
  Read.request (.bitfieldMan Storage.BLOCK_LENGTH)
  let piece := Piece.new length
  let bitfieldLength ← Read.int version 4
  let _ ← Read.check (piece.getBitfieldLength = bitfieldLength)
    (.pieceBitfieldLengthMismatch piece.getBitfieldLength bitfieldLength)
  Read.request (.bitfield bitfieldLength piece.bitfield.blocks)
  let pieceBitfield ← Read.read bitfieldLength
  pure {
    index
    piece := piece.setBitfield pieceBitfield
    index_lt
    length_le := (piece.getLength_setBitfield pieceBitfield).trans_le length_le }

/-- The loop over the pieces in flight. -/
def readPieces (version : Nat) : Nat → Read (List (InFlightPiece ctx))
  | 0 => pure []
  | n + 1 => do
    let p ← ctx.readPiece version
    let ps ← readPieces version n
    pure (p :: ps)

def readInFlightPieces (version : Nat) : Read (List (InFlightPiece ctx)) := do
  let numInFlightPiece ← Read.int version 4
  Read.request (.inFlightPieces numInFlightPiece)
  ctx.readPieces version numInFlightPiece

end Context

namespace PieceStorage

variable {ctx : Context} (s : PieceStorage ctx)

/-- `inc` of `PieceStatMan.cc`. -/
def inc (x : Nat) : Nat := if x < 2 ^ 31 - 1 then x + 1 else x

def setBitfield (bytes : List UInt8) : PieceStorage ctx where
  bitfieldMan := s.bitfieldMan.setBitfield bytes
  usedPieces := s.usedPieces
  counts := s.counts.mapIdx fun i x => if Bitfield.test bytes i then inc x else x
  blockLength_eq := (s.bitfieldMan.blockLength_setBitfield bytes).trans s.blockLength_eq
  totalLength_eq := (s.bitfieldMan.totalLength_setBitfield bytes).trans s.totalLength_eq
  usedPieces_fit := s.usedPieces_fit
  length_counts := List.length_mapIdx.trans s.length_counts

/-- A piece with the index of one that is there is not added. -/
def addUsedPiece (p : InFlightPiece ctx) : PieceStorage ctx :=
  match s.usedPieces.find? p.index with
  | some _ => s
  | none => { s with
      usedPieces := s.usedPieces.insert p.index p.piece
      usedPieces_fit := by
        intro e he
        rcases OrderedMap.mem_insert.mp he with rfl | ⟨he, -⟩
        exacts [⟨p.index_lt, p.length_le⟩, s.usedPieces_fit e he] }

/-- `usedPieces_.insert(pieces.begin(), pieces.end())`. -/
def addInFlightPiece (pieces : List (InFlightPiece ctx)) : PieceStorage ctx :=
  pieces.foldl addUsedPiece s

end PieceStorage

/-- The loop over the blocks: an index behind the last block is a failed assertion. -/
def allSet (m : BitfieldMan) : List Nat → Option Bool
  | [] => some true
  | i :: is => if i < m.blocks then if m.isBitSet i then allSet m is else some false else none

/-- Whether all blocks that `[offset, offset + length)` meets are set. -/
def isBitSetOffsetRange (m : BitfieldMan) (offset length : Nat) : Option Bool :=
  if length = 0 then some false
  else if m.totalLength ≤ offset then some false
  else
    let length := if m.totalLength < offset + length then m.totalLength - offset else length
    let startBlock := offset / m.blockLength
    let endBlock := (offset + length - 1) / m.blockLength
    allSet m (List.range' startBlock (endBlock + 1 - startBlock))

/-- `util::convertBitfield`. -/
def convertBitfield (dest src : BitfieldMan) : Option BitfieldMan :=
  (List.range dest.blocks).foldlM (fun d index => do
    let b ← isBitSetOffsetRange src (index * dest.blockLength) dest.blockLength
    pure (if b then (d.setBit index).2 else d)) dest

/-- A `uint32_t` as the block length of a manager, which is an `int32_t`. -/
def toBlockLength (pieceLength : Nat) : Int :=
  if pieceLength < 2 ^ 31 then pieceLength else pieceLength - 2 ^ 32

/-- A `uint64_t` as an `int64_t`. -/
def toInt64 (n : Nat) : Int := if n < 2 ^ 63 then n else n - 2 ^ 64

inductive LoadOutcome
  | returned
  | threw (e : LoadError)
  | aborted
  deriving DecidableEq

structure Loaded (ctx : Context) where
  outcome : LoadOutcome
  state : State ctx
  requests : List Request
  deriving DecidableEq

variable {ctx : Context}

namespace State

variable (s : State ctx)

def setUploadLengthAtStartup (h : Header) : State ctx :=
  if ctx.isTorrentDownload then { s with uploadLengthAtStartup := toInt64 h.uploadLength } else s

def setBitfield (bytes : List UInt8) : State ctx :=
  { s with storage := s.storage.setBitfield bytes }

/-- The piece length is the saved one: the bit field is that of the storage, and the pieces in
flight are read behind it. -/
def loadSame (h : Header) (savedBitfield : List UInt8) (r : Reader) : Loaded ctx :=
  let s := s.setBitfield savedBitfield
  match ctx.readInFlightPieces h.version r with
  | (.error e, r) => ⟨.threw e, s, r.requests⟩
  | (.ok inFlightPieces, r) =>
    ⟨.returned, { s with storage := s.storage.addInFlightPiece inFlightPieces }, r.requests⟩

/-- The piece length has changed. A manager whose block length is not positive has no blocks. -/
def loadConverted (h : Header) (savedBitfield : List UInt8) (r : Reader) : Loaded ctx :=
  match Read.int h.version 4 r with
  | (.error e, r) => ⟨.threw e, s, r.requests⟩
  | (.ok numInFlightPiece, r) =>
    let blockLength := toBlockLength h.pieceLength
    let requests := r.requests ++ [.bitfieldMan blockLength]
    let src := (BitfieldMan.new blockLength.toNat ctx.totalLength).setBitfield savedBitfield
    if (src.getCompletedLength ≠ 0 ∨ numInFlightPiece ≠ 0) ∧ !ctx.allowPieceLengthChange then
      ⟨.threw .pieceLengthChanged, s, requests⟩
    else
      let requests := requests ++ [.bitfieldMan ctx.pieceLength]
      match convertBitfield (.new ctx.pieceLength ctx.totalLength) src with
      | none => ⟨.aborted, s, requests⟩
      | some dest => ⟨.returned, s.setBitfield dest.bitfield.bytes, requests⟩

/-- What follows the header. -/
def loadBody (h : Header) (r : Reader) : Loaded ctx :=
  match ctx.readBitfield h r with
  | (.error e, r) => ⟨.threw e, s, r.requests⟩
  | (.ok savedBitfield, r) =>
    if h.pieceLength = ctx.pieceLength then s.loadSame h savedBitfield r
    else s.loadConverted h savedBitfield r

/-- `load()`, for a file that can be opened. -/
def load (file : List UInt8) : Loaded ctx :=
  match ctx.readHeader ⟨file, []⟩ with
  | (.error e, r) => ⟨.threw e, s, r.requests⟩
  | (.ok h, r) => (s.setUploadLengthAtStartup h).loadBody h r

end State

end FluxCore.Progress
