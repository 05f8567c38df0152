import FluxCore.Bitfield.BitfieldMan
import FluxCore.Lib.Octets
import FluxCore.Lib.OrderedMap
import FluxCore.Storage.Piece

/-!
# The control file

What `DefaultBtProgressInfoFile.cc` reads and writes of the download: the geometry of the
`DownloadContext`, the marks of the `PieceStorage` and the upload counters of the `BtRuntime`.
`State.writes` is `save(IOFile&)` as the list of its writes, one for each `WRITE_CHECK`.
-/

namespace FluxCore.Progress

open Bitfield (BitfieldMan)

def INFO_HASH_LENGTH : Nat := 20

structure InfoHash where
  bytes : List UInt8
  length_bytes : bytes.length = INFO_HASH_LENGTH
  deriving DecidableEq

/-- The geometry of a download and whether it is a torrent (that is, whether there is a
`BtRuntime`). The piece length is an `int32_t` and the total length an `int64_t`. -/
structure Context where
  pieceLength : Nat
  totalLength : Nat
  torrent : Option InfoHash := none
  allowPieceLengthChange : Bool := false
  pieceLength_pos : 0 < pieceLength
  pieceLength_lt : pieceLength < 2 ^ 31
  totalLength_lt : totalLength < 2 ^ 63
  deriving DecidableEq

namespace Context

variable (ctx : Context)

def isTorrentDownload : Bool := ctx.torrent.isSome

def getNumPieces : Nat := (ctx.totalLength + ctx.pieceLength - 1) / ctx.pieceLength

end Context

/-- The block bits of a piece in flight; the piece length is the total length of the field. -/
structure Piece where
  bitfield : BitfieldMan
  blockLength_bitfield : bitfield.blockLength = Storage.BLOCK_LENGTH
  deriving DecidableEq

def Piece.new (length : Nat) : Piece where
  bitfield := .new Storage.BLOCK_LENGTH length
  blockLength_bitfield := rfl

def Piece.getLength (p : Piece) : Nat := p.bitfield.totalLength

/-- A bit for each complete piece, the pieces in flight by their index, and `counts_` of the
`PieceStatMan`. -/
structure PieceStorage (ctx : Context) where
  bitfieldMan : BitfieldMan
  usedPieces : OrderedMap Nat Piece := .empty
  counts : List Nat
  blockLength_eq : bitfieldMan.blockLength = ctx.pieceLength
  totalLength_eq : bitfieldMan.totalLength = ctx.totalLength
  usedPieces_fit : ∀ e ∈ usedPieces.entries, e.1 < ctx.getNumPieces ∧ e.2.getLength ≤ ctx.pieceLength
  length_counts : counts.length = ctx.getNumPieces
  deriving DecidableEq

def PieceStorage.new (ctx : Context) : PieceStorage ctx where
  bitfieldMan := .new ctx.pieceLength ctx.totalLength
  counts := List.replicate ctx.getNumPieces 0
  blockLength_eq := rfl
  totalLength_eq := rfl
  usedPieces_fit _ he := absurd he List.not_mem_nil
  length_counts := List.length_replicate

/-- What a control file is about. -/
structure State (ctx : Context) where
  storage : PieceStorage ctx
  uploadLengthAtStartup : Int := 0
  sessionUploadLength : Int := 0
  deriving DecidableEq

namespace State

variable {ctx : Context} (s : State ctx)

/-- The part about one piece in flight. -/
def pieceWrites (index : Nat) (p : Piece) : List (List UInt8) :=
  [octets 4 index, octets 4 p.getLength, octets 4 p.bitfield.bitfield.bytes.length,
    p.bitfield.bitfield.bytes]

def uploadLength : Nat :=
  if ctx.isTorrentDownload then
    ((s.uploadLengthAtStartup + s.sessionUploadLength) % 2 ^ 64).toNat
  else 0

/-- `save(IOFile&)`: integers are in network byte order, cut to the width of their field. -/
def writes : List (List UInt8) :=
  [[0, 1], [0, 0, 0, if ctx.isTorrentDownload then 1 else 0]] ++
  (match ctx.torrent with
    | some infoHash => [octets 4 INFO_HASH_LENGTH, infoHash.bytes]
    | none => [octets 4 0]) ++
  [octets 4 ctx.pieceLength, octets 8 ctx.totalLength, octets 8 s.uploadLength,
    octets 4 s.storage.bitfieldMan.bitfield.bytes.length, s.storage.bitfieldMan.bitfield.bytes,
    octets 4 s.storage.usedPieces.entries.length] ++
  s.storage.usedPieces.entries.flatMap fun e => pieceWrites e.1 e.2

/-- The content of the file after all writes. -/
def content : List UInt8 := s.writes.flatten

end State

end FluxCore.Progress
