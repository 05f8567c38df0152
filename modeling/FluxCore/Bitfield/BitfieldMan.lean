import FluxCore.Bitfield.Bits
import FluxCore.Storage.BitfieldMan

/-!
# The bit field manager with its filter and its caches

`BitfieldMan.cc` on the bytes it keeps: the bits of the complete blocks, of those in use and of the
filter, and five answers that every mutator computes anew and the getters only read. The list of
bits that `Storage.BitfieldMan` works with is what the bytes stand for.
-/

namespace FluxCore.Bitfield

/-- The bytes of a field of `nbits` bits. -/
structure Field (nbits : Nat) where
  bytes : List UInt8
  length_bytes : bytes.length = (nbits + 7) / 8
  deriving DecidableEq

namespace Field

variable {nbits : Nat} (f : Field nbits)

def zero (nbits : Nat) : Field nbits where
  bytes := List.replicate ((nbits + 7) / 8) 0
  length_bytes := List.length_replicate

def test (index : Nat) : Bool := Bitfield.test f.bytes index

/-- `setBitInternal`, whose result says that there is such a bit. -/
def setBitInternal (index : Nat) (on : Bool) : Bool × Field nbits :=
  if nbits ≤ index then (false, f)
  else (true, {
    bytes := f.bytes.modify (index / 8) fun b => if on then b ||| mask index else b &&& ~~~mask index
    length_bytes := List.length_modify .. |>.trans f.length_bytes })

/-- The loops that set or unset the bits of some indexes. -/
def setBits (is : List Nat) (on : Bool) : Field nbits :=
  is.foldl (fun f i => (f.setBitInternal i on).2) f

end Field

structure BitfieldMan where
  totalLength : Nat
  blockLength : Nat
  blocks : Nat
  bitfield : Field blocks
  useBitfield : Field blocks
  filterBitfield : Option (Field blocks) := none
  filterEnabled : Bool := false
  cachedNumMissingBlock : Nat := 0
  cachedNumFilteredBlock : Nat := 0
  cachedFilteredTotalLength : Nat := 0
  cachedCompletedLength : Nat := 0
  cachedFilteredCompletedLength : Nat := 0
  blocks_eq : blocks = Storage.blockCount blockLength totalLength
  deriving DecidableEq

namespace BitfieldMan

variable (m : BitfieldMan)

/-! ## Computed answers -/

def getLastBlockLength : Nat :=
  let lastLength : Int := m.totalLength - m.blockLength * ((m.blocks : Int) - 1)
  if m.blockLength < lastLength ∨ lastLength < 0 then m.blockLength else lastLength.toNat

/-- The block count is unsigned in the source: without blocks every index is below the last. -/
def getBlockLength (index : Nat) : Nat :=
  if index + 1 = m.blocks then m.getLastBlockLength
  else if m.blocks = 0 ∨ index + 1 < m.blocks then m.blockLength
  else 0

/-- The bytes of `array(bitfield) & array(filterBitfield)`. -/
def filtered (bytes : List UInt8) : List UInt8 :=
  List.zipWith (· &&& ·) bytes ((m.filterBitfield.map Field.bytes).getD [])

def countMissingBlockNow : Nat :=
  if m.filterEnabled then
    countSetBit ((m.filterBitfield.map Field.bytes).getD []) m.blocks -
      countSetBitSlow (m.filtered m.bitfield.bytes) m.blocks
  else m.blocks - countSetBit m.bitfield.bytes m.blocks

def countFilteredBlockNow : Nat :=
  if m.filterEnabled then countSetBit ((m.filterBitfield.map Field.bytes).getD []) m.blocks else 0

def getFilteredTotalLengthNow : Nat :=
  match m.filterBitfield with
  | none => 0
  | some filter =>
    let filteredBlocks := countSetBit filter.bytes m.blocks
    if filteredBlocks = 0 then 0
    else if filter.test (m.blocks - 1) then
      (filteredBlocks - 1) * m.blockLength + m.getLastBlockLength
    else filteredBlocks * m.blockLength

def computeCompletedLength (bytes : List UInt8) (cntfun : List UInt8 → Nat → Nat) : Nat :=
  let completedBlocks := cntfun bytes m.blocks
  if completedBlocks = 0 then 0
  else if test bytes (m.blocks - 1) then
    (completedBlocks - 1) * m.blockLength + m.getLastBlockLength
  else completedBlocks * m.blockLength

/-- `getCompletedLength(useFilter)`. -/
def getCompletedLengthWith (useFilter : Bool) : Nat :=
  if useFilter && m.filterEnabled then
    m.computeCompletedLength (m.filtered m.bitfield.bytes) countSetBitSlow
  else m.computeCompletedLength m.bitfield.bytes countSetBit

def getCompletedLengthNow : Nat := m.getCompletedLengthWith false

def getFilteredCompletedLengthNow : Nat := m.getCompletedLengthWith true

def updateCache : BitfieldMan :=
  { m with
    cachedNumMissingBlock := m.countMissingBlockNow
    cachedNumFilteredBlock := m.countFilteredBlockNow
    cachedFilteredTotalLength := m.getFilteredTotalLengthNow
    cachedCompletedLength := m.getCompletedLengthNow
    cachedFilteredCompletedLength := m.getFilteredCompletedLengthNow }

/-! ## Queries -/

def countMissingBlock : Nat := m.cachedNumMissingBlock

def countFilteredBlock : Nat := m.cachedNumFilteredBlock

def getCompletedLength : Nat := m.cachedCompletedLength

def getFilteredCompletedLength : Nat := m.cachedFilteredCompletedLength

def getFilteredTotalLength : Nat := m.cachedFilteredTotalLength

def isBitSet (index : Nat) : Bool := m.bitfield.test index

def isUseBitSet (index : Nat) : Bool := m.useBitfield.test index

def testAllBitSet (bytes : List UInt8) (blocks : Nat) : Bool :=
  if bytes.length = 0 then true
  else bytes.dropLast.all (· = 0xFF) && bytes.getLastD 0 = lastByteMask blocks

def isAllBitSet : Bool := testAllBitSet m.bitfield.bytes m.blocks

def isFilteredAllBitSet : Bool :=
  if m.filterEnabled then
    (List.zipWith (fun b f => decide (b &&& f = f)) m.bitfield.bytes
      ((m.filterBitfield.map Field.bytes).getD [])).all id
  else m.isAllBitSet

/-! ## Mutators -/

/-- The constructor. -/
def new (blockLength totalLength : Nat) : BitfieldMan :=
  updateCache {
    blockLength, totalLength
    blocks := Storage.blockCount blockLength totalLength
    bitfield := .zero _
    useBitfield := .zero _
    blocks_eq := rfl }

/-- The copy constructor: a filter that is not enabled is not copied. -/
def copy : BitfieldMan :=
  updateCache { m with
    filterBitfield := if m.filterEnabled then m.filterBitfield else none }

/-- The assignment operator. -/
def assign (_m other : BitfieldMan) : BitfieldMan :=
  updateCache { other with
    filterBitfield := if other.filterEnabled then other.filterBitfield else none }

def setUseBit (index : Nat) : Bool × BitfieldMan :=
  let (b, useBitfield) := m.useBitfield.setBitInternal index true
  (b, { m with useBitfield })

def unsetUseBit (index : Nat) : Bool × BitfieldMan :=
  let (b, useBitfield) := m.useBitfield.setBitInternal index false
  (b, { m with useBitfield })

def setBit (index : Nat) : Bool × BitfieldMan :=
  let (b, bitfield) := m.bitfield.setBitInternal index true
  (b, { m with bitfield }.updateCache)

def unsetBit (index : Nat) : Bool × BitfieldMan :=
  let (b, bitfield) := m.bitfield.setBitInternal index false
  (b, { m with bitfield }.updateCache)

/-- A field of another length, or an empty one, is ignored. -/
def setBitfield (bytes : List UInt8) : BitfieldMan :=
  if h : bytes.length = (m.blocks + 7) / 8 ∧ bytes.length ≠ 0 then
    { m with bitfield := ⟨bytes, h.1⟩, useBitfield := .zero _ }.updateCache
  else m

@[simp] theorem blockLength_setBitfield (bytes : List UInt8) :
    (m.setBitfield bytes).blockLength = m.blockLength := by
  unfold setBitfield
  split <;> rfl

@[simp] theorem totalLength_setBitfield (bytes : List UInt8) :
    (m.setBitfield bytes).totalLength = m.totalLength := by
  unfold setBitfield
  split <;> rfl

@[simp] theorem blocks_setBitfield (bytes : List UInt8) :
    (m.setBitfield bytes).blocks = m.blocks := by
  unfold setBitfield
  split <;> rfl

/-- A field of the right length replaces the bytes. -/
theorem bytes_setBitfield {bytes : List UInt8} (h : bytes.length = (m.blocks + 7) / 8) :
    (m.setBitfield bytes).bitfield.bytes = bytes := by
  by_cases h0 : bytes.length = 0
  · have hsame : m.setBitfield bytes = m := dif_neg fun h' => h'.2 h0
    have hbytes : m.bitfield.bytes.length = 0 := by rw [m.bitfield.length_bytes, ← h, h0]
    rw [hsame, List.eq_nil_of_length_eq_zero h0, List.eq_nil_of_length_eq_zero hbytes]
  · exact congrArg (fun m : BitfieldMan => m.bitfield.bytes) (dif_pos ⟨h, h0⟩)

/-- A field of another length is ignored. -/
theorem setBitfield_of_ne {bytes : List UInt8} (h : bytes.length ≠ (m.blocks + 7) / 8) :
    m.setBitfield bytes = m := dif_neg fun h' => h h'.1

def clearAllBit : BitfieldMan := { m with bitfield := .zero _ }.updateCache

def setAllBit : BitfieldMan :=
  { m with bitfield := m.bitfield.setBits (List.range m.blocks) true }.updateCache

def clearAllUseBit : BitfieldMan := { m with useBitfield := .zero _ }.updateCache

def setAllUseBit : BitfieldMan :=
  { m with useBitfield := m.useBitfield.setBits (List.range m.blocks) true }

def setBitRange (startIndex endIndex : Nat) : BitfieldMan :=
  ((List.range' startIndex (endIndex + 1 - startIndex)).foldl (fun m i => (m.setBit i).2)
    m).updateCache

def unsetBitRange (startIndex endIndex : Nat) : BitfieldMan :=
  ((List.range' startIndex (endIndex + 1 - startIndex)).foldl (fun m i => (m.unsetBit i).2)
    m).updateCache

/-- An `int64_t` as a `size_t`. -/
def toSize (x : Int) : Nat := (x % 2 ^ 64).toNat

/-- The filter, with all bits clear when there was none. -/
def ensureFilterBitfield : Field m.blocks := m.filterBitfield.getD (.zero _)

/-- The blocks that `[offset, offset + length)` meets. -/
def blockRange (offset length : Int) : List Nat :=
  let startBlock := toSize (offset.tdiv m.blockLength)
  let endBlock := toSize ((offset + length - 1).tdiv m.blockLength)
  (List.range m.blocks).filter fun i => startBlock ≤ i ∧ i ≤ endBlock

def addFilter (offset length : Int) : BitfieldMan :=
  let filter := m.ensureFilterBitfield
  { m with
    filterBitfield := some
      (if 0 < length then filter.setBits (m.blockRange offset length) true else filter)
  }.updateCache

def removeFilter (offset length : Int) : BitfieldMan :=
  let filter := m.ensureFilterBitfield
  { m with
    filterBitfield := some
      (if 0 < length then filter.setBits (m.blockRange offset length) false else filter)
  }.updateCache

def addNotFilter (offset length : Int) : BitfieldMan :=
  let filter := m.ensureFilterBitfield
  let startBlock := min (toSize (offset.tdiv m.blockLength)) m.blocks
  let endBlock := toSize ((offset + length - 1).tdiv m.blockLength)
  let next := (endBlock + 1) % 2 ^ 64
  { m with
    filterBitfield := some
      (if 0 < length ∧ 0 < m.blocks then
        (filter.setBits (List.range startBlock) true).setBits
          (List.range' next (m.blocks - next)) true
      else filter)
  }.updateCache

def enableFilter : BitfieldMan :=
  { m with filterBitfield := some m.ensureFilterBitfield, filterEnabled := true }.updateCache

def disableFilter : BitfieldMan := { m with filterEnabled := false }.updateCache

def clearFilter : BitfieldMan :=
  { m with filterBitfield := none, filterEnabled := false }.updateCache

/-- The public mutators of one object. -/
inductive Mutator where
  | setBit (index : Nat) | unsetBit (index : Nat)
  | setUseBit (index : Nat) | unsetUseBit (index : Nat)
  | setBitfield (bytes : List UInt8)
  | setBitRange (startIndex endIndex : Nat) | unsetBitRange (startIndex endIndex : Nat)
  | clearAllBit | setAllBit | clearAllUseBit | setAllUseBit
  | addFilter (offset length : Int) | removeFilter (offset length : Int)
  | addNotFilter (offset length : Int)
  | enableFilter | disableFilter | clearFilter

def mutate : Mutator → BitfieldMan
  | .setBit index => (m.setBit index).2
  | .unsetBit index => (m.unsetBit index).2
  | .setUseBit index => (m.setUseBit index).2
  | .unsetUseBit index => (m.unsetUseBit index).2
  | .setBitfield bytes => m.setBitfield bytes
  | .setBitRange startIndex endIndex => m.setBitRange startIndex endIndex
  | .unsetBitRange startIndex endIndex => m.unsetBitRange startIndex endIndex
  | .clearAllBit => m.clearAllBit
  | .setAllBit => m.setAllBit
  | .clearAllUseBit => m.clearAllUseBit
  | .setAllUseBit => m.setAllUseBit
  | .addFilter offset length => m.addFilter offset length
  | .removeFilter offset length => m.removeFilter offset length
  | .addNotFilter offset length => m.addNotFilter offset length
  | .enableFilter => m.enableFilter
  | .disableFilter => m.disableFilter
  | .clearFilter => m.clearFilter

/-- What a sequence of mutators, copies and assignments makes of constructed objects. -/
inductive Reachable : BitfieldMan → Prop
  | new {blockLength totalLength : Nat} (hb : 0 < blockLength) (ht : 0 < totalLength) :
    Reachable (new blockLength totalLength)
  | mutate {m : BitfieldMan} (h : Reachable m) (u : Mutator) : Reachable (m.mutate u)
  | copy {m : BitfieldMan} (h : Reachable m) : Reachable m.copy
  | assign {m other : BitfieldMan} (h : Reachable m) (h' : Reachable other) :
    Reachable (m.assign other)

end BitfieldMan

end FluxCore.Bitfield
