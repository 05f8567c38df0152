import Mathlib.Algebra.Order.Group.Nat
import Mathlib.Data.List.Count
import Mathlib.Tactic.Ring
import Mathlib.Tactic.Tauto

/-!
# Bit fields over the blocks of a length

`BitfieldMan.cc` without the filter, which no function modelled here enables. A length is cut into
blocks, the last of which may be shorter; there is a bit for the blocks that are complete and one
for those in use. The counters the source caches are recomputed at every change there and read off
the bits here.
-/

namespace FluxCore.Storage

def blockCount (blockLength totalLength : Nat) : Nat :=
  if 0 < blockLength ∧ 0 < totalLength then (totalLength + blockLength - 1) / blockLength else 0

/-- One bit of each kind per block. -/
structure BitfieldMan where
  blockLength : Nat
  totalLength : Nat
  bitfield : List Bool
  useBitfield : List Bool
  length_bitfield : bitfield.length = blockCount blockLength totalLength
  length_useBitfield : useBitfield.length = blockCount blockLength totalLength
  deriving DecidableEq

namespace BitfieldMan

def new (blockLength totalLength : Nat) : BitfieldMan where
  blockLength
  totalLength
  bitfield := List.replicate (blockCount blockLength totalLength) false
  useBitfield := List.replicate (blockCount blockLength totalLength) false
  length_bitfield := List.length_replicate
  length_useBitfield := List.length_replicate

variable (m : BitfieldMan) (index : Nat)

def countBlock : Nat := m.bitfield.length

def isBitSet : Bool := m.bitfield.getD index false

def setBit : BitfieldMan where
  __ := m
  bitfield := m.bitfield.set index true
  length_bitfield := List.length_set.trans m.length_bitfield

def unsetUseBit : BitfieldMan where
  __ := m
  useBitfield := m.useBitfield.set index false
  length_useBitfield := List.length_set.trans m.length_useBitfield

def setBitRange (startIndex endIndex : Nat) : BitfieldMan :=
  (List.range' startIndex (endIndex + 1 - startIndex)).foldl setBit m

def setAllBit : BitfieldMan where
  __ := m
  bitfield := List.replicate m.countBlock true
  length_bitfield := List.length_replicate.trans m.length_bitfield

def clearAllBit : BitfieldMan where
  __ := m
  bitfield := List.replicate m.countBlock false
  length_bitfield := List.length_replicate.trans m.length_bitfield

def isAllBitSet : Bool := m.bitfield.all id

def getLastBlockLength : Nat :=
  let lastLength : Int := m.totalLength - m.blockLength * ((m.countBlock : Int) - 1)
  if m.blockLength < lastLength ∨ lastLength < 0 then m.blockLength else lastLength.toNat

/-- The block count is unsigned in the source: without blocks every index is below the last. -/
def getBlockLength : Nat :=
  if index + 1 = m.countBlock then m.getLastBlockLength
  else if m.countBlock = 0 ∨ index + 1 < m.countBlock then m.blockLength
  else 0

def getCompletedLength : Nat :=
  let completedBlocks := m.bitfield.count true
  if completedBlocks = 0 then 0
  else if m.isBitSet (m.countBlock - 1) then
    (completedBlocks - 1) * m.blockLength + m.getLastBlockLength
  else completedBlocks * m.blockLength

/-- Where the block stops. -/
def blockEnd : Nat := min ((index + 1) * m.blockLength) m.totalLength

/-! ## Shape -/

variable {m} {index} {i j : Nat}

theorem blockCount_pos (h : 0 < m.countBlock) : 0 < m.blockLength ∧ 0 < m.totalLength := by
  rw [countBlock, m.length_bitfield, blockCount] at h
  split at h
  next h' => exact h'
  · cases h

/-- Behind the blocks before the last there is something left, and at most one block. -/
theorem last_bounds (h : 0 < m.countBlock) :
    (m.countBlock - 1) * m.blockLength < m.totalLength ∧
      m.totalLength ≤ m.countBlock * m.blockLength := by
  obtain ⟨hb, ht⟩ := blockCount_pos h
  have hn : m.countBlock = (m.totalLength + m.blockLength - 1) / m.blockLength := by
    rw [countBlock, m.length_bitfield, blockCount, if_pos ⟨hb, ht⟩]
  have h1 := Nat.div_mul_le_self (m.totalLength + m.blockLength - 1) m.blockLength
  have h2 := Nat.lt_div_mul_add (a := m.totalLength + m.blockLength - 1) hb
  rw [← hn] at h1 h2
  constructor
  · have : (m.countBlock - 1) * m.blockLength + m.blockLength = m.countBlock * m.blockLength := by
      rw [← Nat.succ_mul, Nat.succ_eq_add_one, Nat.sub_add_cancel h]
    omega
  · omega

theorem getLastBlockLength_add (h : 0 < m.countBlock) :
    (m.countBlock - 1) * m.blockLength + m.getLastBlockLength = m.totalLength := by
  obtain ⟨h1, h2⟩ := last_bounds h
  have hn : m.countBlock * m.blockLength =
      (m.countBlock - 1) * m.blockLength + m.blockLength := by
    rw [← Nat.succ_mul, Nat.succ_eq_add_one, Nat.sub_add_cancel h]
  have hlast : (m.totalLength : Int) - m.blockLength * ((m.countBlock : Int) - 1) =
      m.totalLength - ((m.countBlock - 1) * m.blockLength : Nat) := by
    push_cast [Nat.cast_sub h]
    ring
  unfold getLastBlockLength
  dsimp only
  rw [hlast, if_neg (by omega)]
  omega

@[simp] theorem blockEnd_last (h : 0 < m.countBlock) :
    m.blockEnd (m.countBlock - 1) = m.totalLength := by
  rw [blockEnd, Nat.sub_add_cancel h]
  exact Nat.min_eq_right (last_bounds h).2

theorem blockEnd_of_lt (h : i + 1 < m.countBlock) : m.blockEnd i = (i + 1) * m.blockLength := by
  refine Nat.min_eq_left ?_
  have hle : (i + 1) * m.blockLength ≤ (m.countBlock - 1) * m.blockLength :=
    Nat.mul_le_mul_right _ (by omega)
  exact hle.trans (last_bounds (by omega)).1.le

/-- A block runs up to `blockEnd`. -/
theorem mul_add_getBlockLength (h : i < m.countBlock) :
    i * m.blockLength + m.getBlockLength i = m.blockEnd i := by
  rcases Nat.lt_or_eq_of_le (Nat.succ_le_of_lt h) with hlt | heq
  · rw [getBlockLength, if_neg hlt.ne, if_pos (.inr hlt), blockEnd_of_lt hlt, Nat.succ_mul]
  · have hi : m.countBlock - 1 = i := by omega
    rw [getBlockLength, if_pos heq, ← hi, getLastBlockLength_add (by omega),
      blockEnd_last (by omega)]

theorem getLastBlockLength_le : m.getLastBlockLength ≤ m.blockLength := by
  unfold getLastBlockLength
  dsimp only
  split_ifs <;> omega

theorem getBlockLength_le : m.getBlockLength i ≤ m.blockLength := by
  unfold getBlockLength
  split_ifs
  exacts [getLastBlockLength_le, le_rfl, Nat.zero_le _]

/-! ## Bits -/

theorem isBitSet_eq_true : m.isBitSet i = true ↔ m.bitfield[i]? = some true := by
  simp [isBitSet, List.getD_eq_getElem?_getD]
  cases m.bitfield[i]? <;> simp

theorem lt_of_isBitSet (h : m.isBitSet i = true) : i < m.countBlock :=
  (List.getElem?_eq_some_iff.mp (isBitSet_eq_true.mp h)).1

@[simp] theorem countBlock_setBit : (m.setBit i).countBlock = m.countBlock := List.length_set

@[simp] theorem isBitSet_setBit :
    (m.setBit i).isBitSet j = true ↔ m.isBitSet j = true ∨ j = i ∧ j < m.countBlock := by
  rw [isBitSet_eq_true, isBitSet_eq_true, setBit, countBlock, List.getElem?_set]
  split_ifs with h h' <;> grind

theorem isAllBitSet_iff : m.isAllBitSet = true ↔ ∀ i < m.countBlock, m.isBitSet i = true := by
  simp only [isAllBitSet, List.all_eq_true, id, isBitSet_eq_true]
  constructor
  · intro h i hi
    rw [List.getElem?_eq_getElem hi, h _ (List.getElem_mem hi)]
  · intro h b hb
    obtain ⟨i, hi, rfl⟩ := List.getElem_of_mem hb
    exact Option.some.inj ((List.getElem?_eq_getElem hi).symm.trans (h i hi))

@[simp] theorem not_isBitSet_new {b t : Nat} : (new b t).isBitSet i = false := by
  rw [isBitSet, List.getD_eq_getElem?_getD]
  simp only [new, List.getElem?_replicate]
  split <;> rfl

end BitfieldMan

end FluxCore.Storage
