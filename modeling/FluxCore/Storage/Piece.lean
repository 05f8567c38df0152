import FluxCore.Storage.BitfieldMan

/-!
# Pieces

`Piece.cc`. A piece in flight has a bit per block.
-/

namespace FluxCore.Storage

def BLOCK_LENGTH : Nat := 16 * 1024

/-- A piece in flight; its index is its key in the table of used pieces. -/
structure Piece where
  bitfield : BitfieldMan
  blockLength_bitfield : bitfield.blockLength = BLOCK_LENGTH
  deriving DecidableEq

namespace Piece

def new (length : Nat) : Piece where
  bitfield := .new BLOCK_LENGTH length
  blockLength_bitfield := rfl

variable (p : Piece) (blockIndex : Nat)

def getCompletedLength : Nat := p.bitfield.getCompletedLength

def completeBlock : Piece where
  __ := p
  bitfield := (p.bitfield.setBit blockIndex).unsetUseBit blockIndex
  blockLength_bitfield := p.blockLength_bitfield

end Piece

end FluxCore.Storage
