import FluxCore.Dht.Messaging

/-!
# Node ids and the XOR metric

An id is 20 bytes; as a number the first byte counts most. `std::lexicographical_compare` and
`XORCloser` go through the bytes from the front, which comes to comparing numbers
(`lexicographicalCompare_iff`, `XORCloser_iff`).
-/

namespace FluxCore.Dht

def DHT_ID_LENGTH : Nat := 20

abbrev ID := BitVec 160

namespace ID

/-- `id[i]`. -/
def byte (id : ID) (i : Nat) : BitVec 8 := id.extractLsb' (8 * (DHT_ID_LENGTH - 1 - i)) 8

/-- How far `id` is from `target`. -/
def distance (target id : ID) : Nat := (target ^^^ id).toNat

theorem distance_inj {target a b : ID} (h : distance target a = distance target b) : a = b := by
  have h' : target ^^^ a = target ^^^ b := BitVec.eq_of_toNat_eq h
  simpa [← BitVec.xor_assoc] using congrArg (target ^^^ ·) h'

theorem byte_xor (a b : ID) (i : Nat) : byte (a ^^^ b) i = byte a i ^^^ byte b i :=
  BitVec.extractLsb'_xor

theorem toNat_byte (id : ID) (n : Nat) (hn : n < DHT_ID_LENGTH) :
    (byte id (DHT_ID_LENGTH - (n + 1))).toNat = id.toNat / 256 ^ n % 256 := by
  have hi : DHT_ID_LENGTH - 1 - (DHT_ID_LENGTH - (n + 1)) = n := by omega
  rw [byte, hi, BitVec.extractLsb'_toNat, Nat.shiftRight_eq_div_pow, Nat.pow_mul]

end ID

/-- A node as the lookup and the routing table know it. -/
structure DHTNode extends Endpoint where
  id : ID
  deriving DecidableEq, Repr

namespace DHTBucket

def K : Nat := 8

end DHTBucket

/-- The loop of `std::lexicographical_compare` over the last `n` bytes of two ids. -/
def lexicographicalCompare.go (a b : ID) : Nat → Bool
  | 0 => false
  | n + 1 =>
    let i := DHT_ID_LENGTH - (n + 1)
    if a.byte i < b.byte i then true
    else if b.byte i < a.byte i then false
    else go a b n

/-- `std::lexicographical_compare` of two ids. -/
def lexicographicalCompare (a b : ID) : Bool := lexicographicalCompare.go a b DHT_ID_LENGTH

theorem lexicographicalCompare.go_iff (a b : ID) {n : Nat} (hn : n ≤ DHT_ID_LENGTH) :
    lexicographicalCompare.go a b n = true ↔ a.toNat % 256 ^ n < b.toNat % 256 ^ n := by
  induction n with
  | zero => simp [lexicographicalCompare.go, Nat.mod_one]
  | succ n ih =>
    have hlta : a.toNat % 256 ^ n < 256 ^ n := Nat.mod_lt _ (by positivity)
    have hltb : b.toNat % 256 ^ n < 256 ^ n := Nat.mod_lt _ (by positivity)
    rw [lexicographicalCompare.go, Nat.mod_pow_succ, Nat.mod_pow_succ]
    simp only [BitVec.lt_def, ID.toNat_byte _ n hn]
    generalize a.toNat / 256 ^ n % 256 = x
    generalize b.toNat / 256 ^ n % 256 = y
    rcases Nat.lt_trichotomy x y with hxy | rfl | hxy
    · have hmul : 256 ^ n * (x + 1) ≤ 256 ^ n * y := Nat.mul_le_mul_left _ hxy
      rw [if_pos hxy]
      simp only [true_iff]
      rw [Nat.mul_succ] at hmul
      omega
    · rw [if_neg (lt_irrefl x), if_neg (lt_irrefl x), ih (by omega)]
      omega
    · have hmul : 256 ^ n * (y + 1) ≤ 256 ^ n * x := Nat.mul_le_mul_left _ hxy
      rw [if_neg (by omega), if_pos hxy]
      rw [Nat.mul_succ] at hmul
      simp only [Bool.false_eq_true, false_iff]
      omega

theorem lexicographicalCompare_iff (a b : ID) :
    lexicographicalCompare a b = true ↔ a.toNat < b.toNat := by
  have hlt : ∀ id : ID, id.toNat < 256 ^ DHT_ID_LENGTH := fun id => id.isLt
  rw [lexicographicalCompare, lexicographicalCompare.go_iff _ _ (le_refl _),
    Nat.mod_eq_of_lt (hlt a), Nat.mod_eq_of_lt (hlt b)]

/-- The loop of `XORCloser` over the last `n` bytes. -/
def XORCloser.go (key key1 key2 : ID) : Nat → Bool
  | 0 => true
  | n + 1 =>
    let i := DHT_ID_LENGTH - (n + 1)
    let c1 := key.byte i ^^^ key1.byte i
    let c2 := key.byte i ^^^ key2.byte i
    if c1 < c2 then true
    else if c2 < c1 then false
    else go key key1 key2 n

/-- `XORCloser{key}(key1, key2)`. It also holds of two equal keys. -/
def XORCloser (key key1 key2 : ID) : Bool := XORCloser.go key key1 key2 DHT_ID_LENGTH

theorem XORCloser.go_eq (key key1 key2 : ID) (n : Nat) :
    XORCloser.go key key1 key2 n =
      !lexicographicalCompare.go (key ^^^ key2) (key ^^^ key1) n := by
  induction n with
  | zero => rfl
  | succ n ih =>
    simp only [XORCloser.go, lexicographicalCompare.go, ID.byte_xor, ih]
    split
    next h => rw [if_neg (by rw [BitVec.lt_def] at h ⊢; omega)]; rfl
    next h =>
      split
      · rfl
      · rfl

theorem XORCloser_iff (key key1 key2 : ID) :
    XORCloser key key1 key2 = true ↔ key.distance key1 ≤ key.distance key2 := by
  rw [XORCloser, XORCloser.go_eq, Bool.not_eq_true', ← Bool.not_eq_true, ← not_lt]
  exact not_congr (lexicographicalCompare_iff ..)

/-! ## Bits -/

/-- `bitfield::flipBit`: bit 0 is the highest of byte 0. -/
def flipBit (data : ID) (bitIndex : Nat) : ID :=
  data ^^^ (BitVec.ofNat 160 (128 >>> (bitIndex % 8)) <<<
    (8 * (DHT_ID_LENGTH - 1 - bitIndex / 8)))

theorem toNat_flipBit (data : ID) {q : Nat} (hq : q < 160) :
    (flipBit data (159 - q)).toNat = data.toNat ^^^ 2 ^ q := by
  have hmask : BitVec.ofNat 160 (128 >>> ((159 - q) % 8)) <<<
      (8 * (DHT_ID_LENGTH - 1 - (159 - q) / 8)) = BitVec.twoPow 160 q := by
    rw [DHT_ID_LENGTH]
    interval_cases q <;> rfl
  rw [flipBit, hmask, BitVec.toNat_xor, BitVec.toNat_twoPow, Nat.mod_eq_of_lt]
  exact Nat.pow_lt_pow_right (by decide) hq

/-- Flipping a bit that is not set adds it. -/
theorem xor_two_pow {q k c : Nat} (hc : c < 2 ^ q) :
    (2 ^ (q + 1) * k + c) ^^^ 2 ^ q = 2 ^ (q + 1) * k + (2 ^ q + c) := by
  have hc' : c < 2 ^ (q + 1) := hc.trans (Nat.pow_lt_pow_right (by decide) q.lt_succ_self)
  have hqc : 2 ^ q + c < 2 ^ (q + 1) := by
    rw [Nat.pow_succ]
    omega
  refine Nat.eq_of_testBit_eq fun j => ?_
  rw [Nat.testBit_xor, Nat.testBit_two_pow_mul_add _ hc', Nat.testBit_two_pow_mul_add _ hqc,
    Nat.testBit_two_pow]
  by_cases hj : j < q + 1
  · rw [if_pos hj, if_pos hj]
    by_cases hjq : j = q
    · subst hjq
      rw [Nat.testBit_two_pow_add_eq, Nat.testBit_lt_two_pow hc]
      simp
    · rw [Nat.testBit_two_pow_add_gt (by omega)]
      simp [Ne.symm hjq]
  · rw [if_neg hj, if_neg hj]
    simp [show q ≠ j by omega]

end FluxCore.Dht
