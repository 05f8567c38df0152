import FluxCore.Bitfield.Refinement
import Mathlib.Order.Interval.Finset.Nat

/-!
# The completed length of a range of bytes

`getOffsetCompletedLength` counts the first block, the blocks between and the last one each in its
own way. Together they are the positions that lie in set blocks (`getOffsetCompletedLength_eq`).
-/

namespace FluxCore.Bitfield

open Finset

namespace BitfieldMan

/-- A length of zero, or an offset behind the end, comes before the division by the block length. -/
def getOffsetCompletedLength (m : BitfieldMan) (offset length : Nat) : Nat :=
  if length = 0 ∨ m.totalLength ≤ offset then 0
  else
    let length := if m.totalLength < offset + length then m.totalLength - offset else length
    let start := offset / m.blockLength
    let stop := (offset + length - 1) / m.blockLength
    if start = stop then if m.isBitSet start then length else 0
    else
      let res := if m.isBitSet start then (start + 1) * m.blockLength - offset else 0
      let res := (List.range' (start + 1) (stop - 1 - start)).foldl
        (fun res i => res + if m.isBitSet i then m.blockLength else 0) res
      res + if m.isBitSet stop then offset + length - stop * m.blockLength else 0

variable {m : BitfieldMan} {offset length a b i j : Nat}

/-- The number of positions from `a` to below `b` that lie in set blocks. -/
def setBytes (m : BitfieldMan) (a b : Nat) : Nat :=
  ((Ico a b).filter fun p => m.isBitSet (p / m.blockLength)).card

theorem setBytes_of_le (h : b ≤ a) : m.setBytes a b = 0 := by
  rw [setBytes, Ico_eq_empty_of_le h]
  rfl

theorem setBytes_add {c : Nat} (h : a ≤ b) (h' : b ≤ c) :
    m.setBytes a c = m.setBytes a b + m.setBytes b c := by
  rw [setBytes, setBytes, setBytes, card_filter, card_filter, card_filter,
    sum_Ico_consecutive _ h h']

/-- Positions of a single block. -/
theorem setBytes_block (h : ∀ p, a ≤ p → p < b → p / m.blockLength = i) :
    m.setBytes a b = if m.isBitSet i then b - a else 0 := by
  have hfilter : (Ico a b).filter (fun p => m.isBitSet (p / m.blockLength)) =
      (Ico a b).filter fun _ => m.isBitSet i := filter_congr fun p hp => by
    rw [mem_Ico] at hp
    rw [h p hp.1 hp.2]
  rw [setBytes, hfilter, filter_const]
  split
  · exact Nat.card_Ico ..
  · rfl

/-- The positions of a block. -/
theorem div_eq_of_mem {p : Nat} (h1 : i * m.blockLength ≤ p) (h2 : p < (i + 1) * m.blockLength) :
    p / m.blockLength = i := by
  rw [Nat.div_eq_iff (Nat.pos_of_ne_zero fun h0 => by simp [h0] at h2)]
  rw [Nat.succ_mul] at h2
  omega

/-- A whole block. -/
theorem setBytes_whole (m : BitfieldMan) (i : Nat) :
    m.setBytes (i * m.blockLength) ((i + 1) * m.blockLength) =
      if m.isBitSet i then m.blockLength else 0 := by
  rw [setBytes_block fun p => div_eq_of_mem, Nat.succ_mul, Nat.add_sub_cancel_left]

/-- Whole blocks, as the loop counts them. -/
theorem foldl_blocks (res n : Nat) :
    (List.range' i n).foldl (fun res i => res + if m.isBitSet i then m.blockLength else 0) res =
      res + m.setBytes (i * m.blockLength) ((i + n) * m.blockLength) := by
  induction n generalizing i res with
  | zero => simp [setBytes]
  | succ n ih =>
    have hstep : i + (n + 1) = i + 1 + n := by omega
    have hsplit := setBytes_add (m := m) (Nat.mul_le_mul_right m.blockLength (Nat.le_add_right i 1))
      (Nat.mul_le_mul_right m.blockLength (Nat.le_add_right (i + 1) n))
    rw [List.range'_succ, List.foldl_cons, ih, hstep, hsplit, setBytes_whole, Nat.add_assoc]

/-- The three counts of a range that is not empty and does not go past the end. -/
theorem counts_eq (hb : 0 < m.blockLength) (hlen : 0 < length) :
    let start := offset / m.blockLength
    let stop := (offset + length - 1) / m.blockLength
    (if start = stop then if m.isBitSet start then length else 0
      else
        (List.range' (start + 1) (stop - 1 - start)).foldl
          (fun res i => res + if m.isBitSet i then m.blockLength else 0)
          (if m.isBitSet start then (start + 1) * m.blockLength - offset else 0) +
        if m.isBitSet stop then offset + length - stop * m.blockLength else 0) =
      m.setBytes offset (offset + length) := by
  intro start stop
  have hlo : start * m.blockLength ≤ offset := Nat.div_mul_le_self ..
  have hhi : stop * m.blockLength ≤ offset + length - 1 := Nat.div_mul_le_self ..
  have hstart : offset < (start + 1) * m.blockLength := by
    rw [Nat.mul_comm]
    exact Nat.lt_mul_div_succ _ hb
  have hstop : offset + length - 1 < (stop + 1) * m.blockLength := by
    rw [Nat.mul_comm]
    exact Nat.lt_mul_div_succ _ hb
  have hle : start ≤ stop := Nat.div_le_div_right (by omega)
  split
  next heq =>
    rw [← heq] at hstop
    have hone : m.setBytes offset (offset + length) = _ :=
      setBytes_block (i := start) fun p h1 h2 => div_eq_of_mem (by omega) (by omega)
    rw [hone, Nat.add_sub_cancel_left]
  next hne =>
    have hlt : start + 1 ≤ stop := Nat.lt_of_le_of_ne hle hne
    have hmid : (start + 1) * m.blockLength ≤ stop * m.blockLength := Nat.mul_le_mul_right _ hlt
    have hfirst : m.setBytes offset ((start + 1) * m.blockLength) = _ :=
      setBytes_block (i := start) fun p h1 h2 => div_eq_of_mem (by omega) h2
    have hlast : m.setBytes (stop * m.blockLength) (offset + length) = _ :=
      setBytes_block (i := stop) fun p h1 h2 => div_eq_of_mem h1 (by omega)
    have hblocks : start + 1 + (stop - 1 - start) = stop := by omega
    rw [foldl_blocks, hblocks, ← hfirst, ← hlast, ← setBytes_add (by omega) hmid,
      ← setBytes_add (by omega) (by omega)]

/-- The completed length of a range is the number of its positions before the end that lie in set
blocks. -/
theorem getOffsetCompletedLength_setBytes (hb : 0 < m.blockLength) (offset length : Nat) :
    m.getOffsetCompletedLength offset length =
      m.setBytes offset (min (offset + length) m.totalLength) := by
  rw [getOffsetCompletedLength]
  split
  next h =>
    rw [setBytes_of_le (by omega)]
  next h =>
    rw [not_or, not_le] at h
    dsimp only
    split
    next hlt =>
      rw [counts_eq hb (by omega), Nat.min_eq_right hlt.le, Nat.add_sub_cancel' h.2.le]
    next hge =>
      rw [counts_eq hb (Nat.pos_of_ne_zero h.1), Nat.min_eq_left (not_lt.mp hge)]

/-- All positions before the end. -/
theorem setBytes_total (hb : 0 < m.blockLength) (ht : 0 < m.totalLength) :
    m.setBytes 0 m.totalLength = m.getCompletedLengthNow := by
  have hpos : 0 < m.blocks := by
    rw [m.blocks_eq, Storage.blockCount, if_pos ⟨hb, ht⟩]
    exact Nat.div_pos (by omega) hb
  have hlast := Storage.BitfieldMan.getLastBlockLength_add (m := m.view)
    (by rwa [countBlock_view])
  rw [countBlock_view, getLastBlockLength_view] at hlast
  change (m.blocks - 1) * m.blockLength + _ = m.totalLength at hlast
  obtain ⟨n, hn⟩ : ∃ n, m.blocks = n + 1 := ⟨m.blocks - 1, by omega⟩
  rw [hn, Nat.add_sub_cancel] at hlast
  have hle : m.totalLength ≤ (n + 1) * m.blockLength := by
    have hbounds := (Storage.BitfieldMan.last_bounds (m := m.view) (by rwa [countBlock_view])).2
    rw [countBlock_view, hn] at hbounds
    exact hbounds
  have hwhole : m.setBytes 0 (n * m.blockLength) = ∑ i ∈ range n,
      if m.isBitSet i then m.getBlockLength i else 0 := by
    have hfold := foldl_blocks (m := m) (i := 0) 0 n
    rw [Nat.zero_mul, Nat.zero_add, Nat.zero_add, ← List.range_eq_range', foldl_count,
      Nat.zero_add] at hfold
    rw [← hfold]
    refine sum_congr rfl fun i hi => ?_
    have hlen : m.getBlockLength i = m.blockLength := by
      have hi := mem_range.mp hi
      rw [getBlockLength, if_neg (by omega), if_pos (.inr (by omega))]
    rw [hlen]
  have hrest : m.setBytes (n * m.blockLength) m.totalLength =
      if m.isBitSet n then m.getBlockLength n else 0 := by
    rw [setBytes_block (i := n) fun p h1 h2 => div_eq_of_mem h1 (by omega), getBlockLength,
      if_pos hn.symm, ← hlast, Nat.add_sub_cancel_left]
  have hsum : ∑ i ∈ m.setBlocks, m.getBlockLength i =
      ∑ i ∈ range (n + 1), if m.isBitSet i then m.getBlockLength i else 0 := by
    rw [setBlocks, setBits, sum_filter, ← hn]
    rfl
  rw [setBytes_add (Nat.zero_le _) (by omega : n * m.blockLength ≤ m.totalLength), hwhole, hrest,
    getCompletedLengthNow_eq, hsum, sum_range_succ]

/-- The completed length of a range of bytes is the number of those before the end that lie in set
blocks; it adds up over adjacent ranges, and over all bytes it is the completed length. -/
structure RangesCounted (m : BitfieldMan) : Prop where
  counted : ∀ offset length, m.getOffsetCompletedLength offset length =
    ((Ico offset (offset + length)).filter fun p =>
      p < m.totalLength ∧ m.isBitSet (p / m.blockLength) = true).card
  adjacent : ∀ offset length length', m.getOffsetCompletedLength offset (length + length') =
    m.getOffsetCompletedLength offset length + m.getOffsetCompletedLength (offset + length) length'
  all : m.getOffsetCompletedLength 0 m.totalLength = m.getCompletedLengthNow

/-- **Completed lengths of ranges are counted right**, whatever the bits are. -/
theorem rangesCounted (m : BitfieldMan) (hb : 0 < m.blockLength) (ht : 0 < m.totalLength) :
    m.RangesCounted := by
  refine ⟨fun offset length => ?_, fun offset length length' => ?_, ?_⟩
  · rw [getOffsetCompletedLength_setBytes hb, setBytes]
    congr 1
    ext p
    simp only [mem_filter, mem_Ico, lt_min_iff]
    tauto
  · rw [getOffsetCompletedLength_setBytes hb, getOffsetCompletedLength_setBytes hb,
      getOffsetCompletedLength_setBytes hb, ← Nat.add_assoc]
    rcases Nat.le_total (offset + length) m.totalLength with hle | hle
    · rw [Nat.min_eq_left hle]
      exact setBytes_add (Nat.le_add_right ..) (by omega)
    · rw [Nat.min_eq_right hle, Nat.min_eq_right (by omega), setBytes_of_le hle]
      rfl
  · rw [getOffsetCompletedLength_setBytes hb, Nat.zero_add, Nat.min_self, setBytes_total hb ht]

/-- Ten bytes in blocks of four, of which the last is set. -/
theorem rangesCounted_ten : ((new 4 10).setBit 2).2.RangesCounted :=
  rangesCounted _ (by decide) (by decide)

end BitfieldMan

end FluxCore.Bitfield
