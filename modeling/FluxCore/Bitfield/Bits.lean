import Mathlib.Algebra.BigOperators.Intervals
import Mathlib.Algebra.Order.BigOperators.Group.Finset
import Mathlib.Data.Nat.Bitwise

/-!
# Bits in bytes

The functions of `bitfield.h`: bit `i` of a field is bit `i % 8` of byte `i / 8`, counted from the
most significant end, and the bits behind the last one are spare. `countSetBit_eq_card` and
`countSetBitSlow_eq_card` say that both counting loops count the bits of the field and no spare
ones.
-/

namespace FluxCore.Bitfield

open Finset

def lastByteMask (nbits : Nat) : UInt8 :=
  if nbits = 0 then 0
  else
    let s := nbits % 8
    if s = 0 then 0xFF else UInt8.ofInt ((-256 : Int) >>> s)

/-- The mask of a bit in its byte. -/
def mask (index : Nat) : UInt8 := 128 >>> UInt8.ofNat (index % 8)

/-- Bit `j` of a byte. -/
def byteBit (b : UInt8) (j : Nat) : Bool := b &&& mask j ≠ 0

def test (bitfield : List UInt8) (index : Nat) : Bool :=
  bitfield.getD (index / 8) 0 &&& mask index ≠ 0

def cntbits : List Nat := [
  0, 1, 1, 2, 1, 2, 2, 3, 1, 2, 2, 3, 2, 3, 3, 4, 1, 2, 2, 3, 2, 3, 3, 4,
  2, 3, 3, 4, 3, 4, 4, 5, 1, 2, 2, 3, 2, 3, 3, 4, 2, 3, 3, 4, 3, 4, 4, 5,
  2, 3, 3, 4, 3, 4, 4, 5, 3, 4, 4, 5, 4, 5, 5, 6, 1, 2, 2, 3, 2, 3, 3, 4,
  2, 3, 3, 4, 3, 4, 4, 5, 2, 3, 3, 4, 3, 4, 4, 5, 3, 4, 4, 5, 4, 5, 5, 6,
  2, 3, 3, 4, 3, 4, 4, 5, 3, 4, 4, 5, 4, 5, 5, 6, 3, 4, 4, 5, 4, 5, 5, 6,
  4, 5, 5, 6, 5, 6, 6, 7, 1, 2, 2, 3, 2, 3, 3, 4, 2, 3, 3, 4, 3, 4, 4, 5,
  2, 3, 3, 4, 3, 4, 4, 5, 3, 4, 4, 5, 4, 5, 5, 6, 2, 3, 3, 4, 3, 4, 4, 5,
  3, 4, 4, 5, 4, 5, 5, 6, 3, 4, 4, 5, 4, 5, 5, 6, 4, 5, 5, 6, 5, 6, 6, 7,
  2, 3, 3, 4, 3, 4, 4, 5, 3, 4, 4, 5, 4, 5, 5, 6, 3, 4, 4, 5, 4, 5, 5, 6,
  4, 5, 5, 6, 5, 6, 6, 7, 3, 4, 4, 5, 4, 5, 5, 6, 4, 5, 5, 6, 5, 6, 6, 7,
  4, 5, 5, 6, 5, 6, 6, 7, 5, 6, 6, 7, 6, 7, 7, 8]

def countByte (b : UInt8) : Nat := cntbits.getD b.toNat 0

def countBit32 (n : UInt32) : Nat :=
  cntbits.getD (n &&& 0xFF).toNat 0 + cntbits.getD ((n >>> 8) &&& 0xFF).toNat 0 +
    cntbits.getD ((n >>> 16) &&& 0xFF).toNat 0 + cntbits.getD ((n >>> 24) &&& 0xFF).toNat 0

/-- Four bytes as they lie in memory. -/
def word (bitfield : List UInt8) (i : Nat) : UInt32 :=
  UInt32.ofNat ((bitfield.getD i 0).toNat + (bitfield.getD (i + 1) 0).toNat * 256 +
    (bitfield.getD (i + 2) 0).toNat * 65536 + (bitfield.getD (i + 3) 0).toNat * 16777216)

/-- A last byte that does not fill a word is counted first, then the words, then the bytes behind
them. -/
def countSetBit (bitfield : List UInt8) (nbits : Nat) : Nat :=
  if nbits = 0 then 0
  else
    let bytes := (nbits + 7) / 8
    let len := if nbits % 32 ≠ 0 then bytes - 1 else bytes
    let count :=
      if nbits % 32 ≠ 0 then countBit32 (bitfield.getD len 0 &&& lastByteMask nbits).toUInt32 else 0
    let count := (List.range (len / 4)).foldl
      (fun count i => count + countBit32 (word bitfield (i * 4))) count
    (List.range (len % 4)).foldl
      (fun count i => count + countBit32 (bitfield.getD (len - len % 4 + i) 0).toUInt32) count

def countSetBitSlow (bitfield : List UInt8) (nbits : Nat) : Nat :=
  if nbits = 0 then 0
  else
    let bytes := (nbits + 7) / 8
    let count := if 1 < bytes then
      (List.range (bytes - 1)).foldl (fun count i => count + countByte (bitfield.getD i 0)) 0 else 0
    count + countByte (bitfield.getD (bytes - 1) 0 &&& lastByteMask nbits)

/-! ## One byte -/

theorem test_eq (bs : List UInt8) (i : Nat) : test bs i = byteBit (bs.getD (i / 8) 0) (i % 8) := by
  simp [test, byteBit, mask]

theorem toNat_mask {j : Nat} (hj : j < 8) : (mask j).toNat = 2 ^ (7 - j) := by
  revert j
  decide

/-- Bit `j` in the binary representation. -/
theorem byteBit_eq_testBit (b : UInt8) {j : Nat} (hj : j < 8) :
    byteBit b j = b.toNat.testBit (7 - j) := by
  have hand : (b &&& mask j).toNat = (b.toNat.testBit (7 - j)).toNat * 2 ^ (7 - j) := by
    rw [UInt8.toNat_and, toNat_mask hj, Nat.and_two_pow]
  have hzero : b &&& mask j = 0 ↔ (b &&& mask j).toNat = 0 := by
    rw [← UInt8.toNat_inj]
    rfl
  simp only [byteBit, ne_eq, hzero, hand]
  cases b.toNat.testBit (7 - j) <;> simp

theorem byteBit_and (b c : UInt8) {j : Nat} (hj : j < 8) :
    byteBit (b &&& c) j = (byteBit b j && byteBit c j) := by
  rw [byteBit_eq_testBit _ hj, byteBit_eq_testBit _ hj, byteBit_eq_testBit _ hj, UInt8.toNat_and,
    Nat.testBit_and]

theorem byteBit_or (b c : UInt8) {j : Nat} (hj : j < 8) :
    byteBit (b ||| c) j = (byteBit b j || byteBit c j) := by
  rw [byteBit_eq_testBit _ hj, byteBit_eq_testBit _ hj, byteBit_eq_testBit _ hj, UInt8.toNat_or,
    Nat.testBit_or]

theorem byteBit_not (b : UInt8) {j : Nat} (hj : j < 8) : byteBit (~~~b) j = !byteBit b j := by
  have hnot : (~~~b).toNat = 2 ^ 8 - (b.toNat + 1) := by
    rw [UInt8.toNat_not, UInt8.size]
    omega
  rw [byteBit_eq_testBit _ hj, byteBit_eq_testBit _ hj, hnot,
    Nat.testBit_two_pow_sub_succ b.toNat_lt, decide_eq_true (by omega : 7 - j < 8), Bool.true_and]

theorem byteBit_lastByteMask {nbits j : Nat} (hn : nbits ≠ 0) (hj : j < 8) :
    byteBit (lastByteMask nbits) j = decide (j ≤ (nbits - 1) % 8) := by
  have hmask : lastByteMask nbits = lastByteMask ((nbits - 1) % 8 + 1) := by
    have hs : nbits % 8 = ((nbits - 1) % 8 + 1) % 8 := by omega
    simp only [lastByteMask, hn, hs, Nat.succ_ne_zero, if_false]
  have hlt : (nbits - 1) % 8 < 8 := Nat.mod_lt _ (by decide)
  rw [hmask]
  generalize (nbits - 1) % 8 = s at hlt
  revert s j
  decide +kernel

/-- The number of bits of a byte that are set before position `s`. -/
def bitsBefore (b : UInt8) (s : Nat) : Nat := ∑ j ∈ range s, if byteBit b j then 1 else 0

/-- The binary digits of `n` below `2 ^ s` that are one. -/
def onesBelow (n : Nat) : Nat → Nat
  | 0 => 0
  | s + 1 => onesBelow n s + if n.testBit s then 1 else 0

theorem cntbits_eq : cntbits = (List.range 256).map fun n => onesBelow n 8 := by decide +kernel

theorem countByte_eq (b : UInt8) : countByte b = bitsBefore b 8 := by
  have hget : cntbits.getD b.toNat 0 = onesBelow b.toNat 8 := by
    rw [cntbits_eq, List.getD_eq_getElem?_getD, List.getElem?_map, List.getElem?_range b.toNat_lt]
    rfl
  have hones : ∀ n, onesBelow b.toNat n = ∑ j ∈ range n, if b.toNat.testBit j then 1 else 0 := by
    intro n
    induction n with
    | zero => rfl
    | succ n ih => rw [sum_range_succ, ← ih, onesBelow]
  rw [countByte, hget, hones, bitsBefore, ← sum_range_reflect]
  exact sum_congr rfl fun j hj => by rw [byteBit_eq_testBit _ (mem_range.mp hj)]

/-- The mask of the last byte leaves its bits that are not spare. -/
theorem countByte_and_lastByteMask (b : UInt8) {nbits : Nat} (h : nbits ≠ 0) :
    countByte (b &&& lastByteMask nbits) = bitsBefore b ((nbits - 1) % 8 + 1) := by
  have hlt : (nbits - 1) % 8 + 1 ≤ 8 := Nat.mod_lt _ (by decide)
  rw [countByte_eq, bitsBefore, bitsBefore, ← sum_subset (range_mono hlt) fun j hj hj' => ?_]
  · refine sum_congr rfl fun j hj => ?_
    have hle := mem_range.mp hj
    rw [byteBit_and _ _ (hle.trans_le hlt), byteBit_lastByteMask h (hle.trans_le hlt),
      decide_eq_true (Nat.lt_succ_iff.mp hle), Bool.and_true]
  · have hgt := mt mem_range.mpr hj'
    rw [byteBit_and _ _ (mem_range.mp hj), byteBit_lastByteMask h (mem_range.mp hj),
      decide_eq_false (fun hle => hgt (Nat.lt_succ_iff.mpr hle)), Bool.and_false]
    rfl

/-- The four bytes of a word, whichever end comes first. -/
theorem countBit32_ofNat {a b c d : Nat} (ha : a < 256) (hb : b < 256) (hc : c < 256)
    (hd : d < 256) :
    countBit32 (UInt32.ofNat (a + b * 256 + c * 65536 + d * 16777216)) =
      cntbits.getD a 0 + cntbits.getD b 0 + cntbits.getD c 0 + cntbits.getD d 0 := by
  have hand : ∀ n : UInt32, (n &&& 0xFF).toNat = n.toNat % 256 := fun n => by
    simpa using Nat.and_two_pow_sub_one_eq_mod n.toNat 8
  have hw : (UInt32.ofNat (a + b * 256 + c * 65536 + d * 16777216)).toNat =
      a + b * 256 + c * 65536 + d * 16777216 := UInt32.toNat_ofNat_of_lt' (by
    unfold UInt32.size
    omega)
  simp only [countBit32, hand, UInt32.toNat_shiftRight, hw, Nat.shiftRight_eq_div_pow,
    UInt32.reduceToNat, Nat.reduceMod, Nat.reducePow]
  have e0 : (a + b * 256 + c * 65536 + d * 16777216) % 256 = a := by omega
  have e1 : (a + b * 256 + c * 65536 + d * 16777216) / 256 % 256 = b := by omega
  have e2 : (a + b * 256 + c * 65536 + d * 16777216) / 65536 % 256 = c := by omega
  have e3 : (a + b * 256 + c * 65536 + d * 16777216) / 16777216 % 256 = d := by omega
  rw [e0, e1, e2, e3]

theorem countBit32_word (bs : List UInt8) (i : Nat) :
    countBit32 (word bs i) = countByte (bs.getD i 0) + countByte (bs.getD (i + 1) 0) +
      countByte (bs.getD (i + 2) 0) + countByte (bs.getD (i + 3) 0) :=
  countBit32_ofNat (UInt8.toNat_lt _) (UInt8.toNat_lt _) (UInt8.toNat_lt _) (UInt8.toNat_lt _)

theorem countBit32_byte (b : UInt8) : countBit32 b.toUInt32 = countByte b := by
  have hb : b.toUInt32 = UInt32.ofNat (b.toNat + 0 * 256 + 0 * 65536 + 0 * 16777216) := by
    simp
  rw [hb, countBit32_ofNat b.toNat_lt (by decide) (by decide) (by decide)]
  rfl

/-! ## The counting loops -/

/-- The bits before position `n`. -/
def setBits (bs : List UInt8) (n : Nat) : Finset Nat := (range n).filter fun i => test bs i

@[simp] theorem mem_setBits {bs : List UInt8} {n i : Nat} :
    i ∈ setBits bs n ↔ i < n ∧ test bs i = true := by simp [setBits]

theorem card_setBits (bs : List UInt8) (n : Nat) :
    (setBits bs n).card = ∑ i ∈ range n, if test bs i then 1 else 0 := card_filter ..

/-- A count that starts at `a`. -/
theorem foldl_count (f : Nat → Nat) (a n : Nat) :
    (List.range n).foldl (fun count i => count + f i) a = a + ∑ i ∈ range n, f i := by
  induction n with
  | zero => rfl
  | succ n ih => rw [List.range_succ, List.foldl_concat, ih, sum_range_succ, Nat.add_assoc]

/-- The bits of the first `k` bytes and `s` more. -/
theorem card_setBits_bytes (bs : List UInt8) (k s : Nat) (hs : s ≤ 8) :
    (setBits bs (8 * k + s)).card =
      ∑ i ∈ range k, countByte (bs.getD i 0) + bitsBefore (bs.getD k 0) s := by
  have hbyte : ∀ q j, j < 8 → test bs (8 * q + j) = byteBit (bs.getD q 0) j := fun q j hj => by
    rw [test_eq]
    congr 2 <;> omega
  rw [card_setBits, sum_range_add]
  congr 1
  · induction k with
    | zero => rfl
    | succ k ih =>
      rw [Nat.mul_succ, sum_range_add, ih, sum_range_succ (fun i => countByte (bs.getD i 0)),
        countByte_eq (bs.getD k 0)]
      congr 1
      exact sum_congr rfl fun j hj => by rw [hbyte k j (mem_range.mp hj)]
  · exact sum_congr rfl fun j hj => by rw [hbyte k j ((mem_range.mp hj).trans_le hs)]

theorem sum_four (f : Nat → Nat) (q : Nat) :
    ∑ i ∈ range q, (f (4 * i) + f (4 * i + 1) + f (4 * i + 2) + f (4 * i + 3)) =
      ∑ i ∈ range (4 * q), f i := by
  induction q with
  | zero => rfl
  | succ q ih =>
    have hfour : ∑ i ∈ range 4, f (4 * q + i) =
        f (4 * q) + f (4 * q + 1) + f (4 * q + 2) + f (4 * q + 3) := by
      simp only [sum_range_succ, sum_range_zero, Nat.zero_add, Nat.add_zero]
    rw [sum_range_succ, ih, Nat.mul_succ, sum_range_add, hfour]

/-- The words and the bytes behind them are the bytes. -/
theorem sum_words (bs : List UInt8) (len : Nat) :
    ∑ i ∈ range (len / 4), countBit32 (word bs (i * 4)) +
        ∑ i ∈ range (len % 4), countBit32 (bs.getD (len - len % 4 + i) 0).toUInt32 =
      ∑ i ∈ range len, countByte (bs.getD i 0) := by
  have hstart : len - len % 4 = 4 * (len / 4) := by omega
  have hsplit : ∑ i ∈ range len, countByte (bs.getD i 0) =
      ∑ i ∈ range (4 * (len / 4)), countByte (bs.getD i 0) +
        ∑ i ∈ range (len % 4), countByte (bs.getD (4 * (len / 4) + i) 0) := by
    rw [← sum_range_add, Nat.div_add_mod]
  rw [hsplit, hstart, ← sum_four fun i => countByte (bs.getD i 0)]
  congr 1
  · exact sum_congr rfl fun i _ => by rw [countBit32_word, Nat.mul_comm i 4]
  · exact sum_congr rfl fun i _ => by rw [countBit32_byte]

theorem countSetBit_eq_card (bs : List UInt8) (nbits : Nat) :
    countSetBit bs nbits = (setBits bs nbits).card := by
  unfold countSetBit
  split
  next h0 => rw [h0]; rfl
  next h0 =>
    dsimp only
    rw [foldl_count, foldl_count, Nat.add_assoc, sum_words]
    split
    next hpart =>
      have hbits : nbits = 8 * ((nbits + 7) / 8 - 1) + ((nbits - 1) % 8 + 1) := by omega
      conv_rhs => rw [hbits, card_setBits_bytes _ _ _ (by omega)]
      rw [countBit32_byte, countByte_and_lastByteMask _ h0, Nat.add_comm]
    next hfull =>
      have hbits : nbits = 8 * ((nbits + 7) / 8) + 0 := by omega
      conv_rhs => rw [hbits, card_setBits_bytes _ _ _ (by omega)]
      simp [bitsBefore]

theorem countSetBitSlow_eq_card (bs : List UInt8) (nbits : Nat) :
    countSetBitSlow bs nbits = (setBits bs nbits).card := by
  unfold countSetBitSlow
  split
  next h0 => rw [h0]; rfl
  next h0 =>
    have hbits : nbits = 8 * ((nbits + 7) / 8 - 1) + ((nbits - 1) % 8 + 1) := by omega
    conv_rhs => rw [hbits, card_setBits_bytes _ _ _ (by omega)]
    dsimp only
    rw [countByte_and_lastByteMask _ h0]
    congr 1
    split
    · rw [foldl_count, Nat.zero_add]
    next hone =>
      have hbytes : (nbits + 7) / 8 - 1 = 0 := by omega
      rw [hbytes]
      rfl

end FluxCore.Bitfield
