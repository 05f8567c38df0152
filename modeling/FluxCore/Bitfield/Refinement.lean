import FluxCore.Bitfield.Answers

/-!
# The list of bits of a bit field

`Storage.BitfieldMan` is a list of bits without spare ones, without filter and without caches.
`view` reads it off the bytes; its blocks are in the same places.
-/

namespace FluxCore.Bitfield

open Finset

namespace Field

variable {nbits : Nat} (f : Field nbits)

def bits : List Bool := (List.range nbits).map f.test

@[simp] theorem length_bits : f.bits.length = nbits := by simp [bits]

end Field

namespace BitfieldMan

variable (m : BitfieldMan)

/-- The blocks as the piece storage sees them. -/
def view : Storage.BitfieldMan where
  blockLength := m.blockLength
  totalLength := m.totalLength
  bitfield := m.bitfield.bits
  useBitfield := m.useBitfield.bits
  length_bitfield := m.bitfield.length_bits.trans m.blocks_eq
  length_useBitfield := m.useBitfield.length_bits.trans m.blocks_eq

theorem countBlock_view : m.view.countBlock = m.blocks := m.bitfield.length_bits

variable {m}

theorem getLastBlockLength_view : m.view.getLastBlockLength = m.getLastBlockLength := by
  simp only [Storage.BitfieldMan.getLastBlockLength, countBlock_view]
  rfl

theorem getBlockLength_view (i : Nat) : m.view.getBlockLength i = m.getBlockLength i := by
  simp only [Storage.BitfieldMan.getBlockLength, getLastBlockLength_view, countBlock_view]
  rfl

end BitfieldMan

end FluxCore.Bitfield
