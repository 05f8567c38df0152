import FluxCore.Lib.OrderedMap
import FluxCore.Storage.Piece

/-!
# The piece storage

The marks of `DefaultPieceStorage.cc`: a bit per complete piece, and the pieces in flight with a bit
per complete block.
-/

namespace FluxCore.Storage

structure DefaultPieceStorage where
  bitfieldMan : BitfieldMan
  usedPieces : OrderedMap Nat Piece := .empty
  /-- Everything handed to the disk adaptor: an offset and the bytes from there on. -/
  disk : List (Nat × List UInt8) := []
  deriving DecidableEq

namespace DefaultPieceStorage

variable (s : DefaultPieceStorage)

def pieceLength : Nat := s.bitfieldMan.blockLength

def getTotalLength : Nat := s.bitfieldMan.totalLength

def writeData (offset : Nat) (data : List UInt8) : DefaultPieceStorage :=
  { s with disk := s.disk ++ [(offset, data)] }

def getInFlightPieceCompletedLength : Nat :=
  (s.usedPieces.entries.map fun e => e.2.getCompletedLength).sum

def getCompletedLength : Nat :=
  let completedLength := s.bitfieldMan.getCompletedLength + s.getInFlightPieceCompletedLength
  if s.getTotalLength < completedLength then s.getTotalLength else completedLength

/-- A piece that is in use already stays as it is. -/
def addUsedPiece (index : Nat) (p : Piece) : DefaultPieceStorage :=
  match s.usedPieces.find? index with
  | some _ => s
  | none => { s with usedPieces := s.usedPieces.insert index p }

def markAllPiecesDone : DefaultPieceStorage := { s with bitfieldMan := s.bitfieldMan.setAllBit }

def markPiecesDone (length : Nat) : DefaultPieceStorage :=
  if length = s.getTotalLength then s.markAllPiecesDone
  else if length = 0 then
    { s with bitfieldMan := s.bitfieldMan.clearAllBit, usedPieces := .empty }
  else
    let numPiece := length / s.pieceLength
    let s' : DefaultPieceStorage :=
      if 0 < numPiece then { s with bitfieldMan := s.bitfieldMan.setBitRange 0 (numPiece - 1) }
      else s
    let r := length % s.pieceLength / BLOCK_LENGTH
    if 0 < r then
      s'.addUsedPiece numPiece
        ((List.range r).foldl Piece.completeBlock (.new (s.bitfieldMan.getBlockLength numPiece)))
    else s'

variable {s}

@[simp] theorem disk_addUsedPiece {index : Nat} {p : Piece} :
    (s.addUsedPiece index p).disk = s.disk := by
  unfold addUsedPiece
  split <;> rfl

end DefaultPieceStorage

end FluxCore.Storage
