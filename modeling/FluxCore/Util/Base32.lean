import FluxCore.Lib.Octets
import FluxCore.Utp.Packet
import Mathlib.Tactic.IntervalCases

/-!
# Base32

The groups of five bytes and of eight characters are numbers of 40 bits; what is left over at the
end is shifted to a multiple of five bits, and back.
-/

namespace FluxCore.Util.Base32

open Utp (Bytes)

/-! ## The functions -/

/-- `"ABCDEFGHIJKLMNOPQRSTUVWXYZ234567"`. -/
def B32TABLE : Bytes := "ABCDEFGHIJKLMNOPQRSTUVWXYZ234567".toUTF8.toList

/-- The character `'='`. -/
def pad : UInt8 := 0x3d

/-- The characters of the last `r` groups of five bits of `buf`, which the loop fills in from the
end. -/
def chars : Nat → Nat → Bytes
  | 0, _ => []
  | r + 1, buf => chars r (buf >>> 5) ++ [B32TABLE.getD (buf &&& 0x1f) 0]

/-- The loop of `encode`. -/
def encodeLoop : Bytes → Nat → Nat → Bytes → Nat × Nat × Bytes
  | [], count, buf, ret => (count, buf, ret)
  | ch :: src, count, buf, ret =>
    let buf := (buf <<< 8) + ch.toNat
    let count := count + 1
    if count = 5 then encodeLoop src 0 0 (ret ++ chars 8 buf) else encodeLoop src count buf ret

/-- By how many bits the rest is shifted, and how many characters it has. -/
def tail : Nat → Nat × Nat
  | 1 => (2, 2)
  | 2 => (4, 4)
  | 3 => (1, 5)
  | 4 => (3, 7)
  | _ => (0, 0)

def encode (src : Bytes) : Bytes :=
  let (count, buf, ret) := encodeLoop src 0 0 []
  let (shift, r) := tail count
  ret ++ chars r (buf <<< shift) ++ if r ≠ 0 then List.replicate (8 - r) pad else []

/-- The value of a character. -/
def value (ch : UInt8) : Option Nat :=
  if 0x41 ≤ ch ∧ ch ≤ 0x5a then some (ch - 0x41).toNat
  else if 0x61 ≤ ch ∧ ch ≤ 0x7a then some (ch - 0x61).toNat
  else if 0x32 ≤ ch ∧ ch ≤ 0x37 then some (ch - 0x32 + 26).toNat
  else none

/-- The loop over the characters of a group: `buf`, `bits` and `done`. It is `none` where there is a
character of another kind. -/
def decodeGroup : Bytes → Nat → Nat → Option (Nat × Nat × Bool)
  | [], buf, bits => some (buf, bits, false)
  | ch :: group, buf, bits =>
    match value ch with
    | some v => decodeGroup group ((buf <<< 5) + v) (bits + 5)
    | none => if ch = pad then some (buf, bits, true) else none

/-- The loop over `n` groups. -/
def decodeLoop : Nat → Bytes → Bytes → Bytes
  | 0, _, ret => ret
  | n + 1, first, ret =>
    match decodeGroup (first.take 8) 0 0 with
    | none => []
    | some (buf, bits, done) =>
      let ret := ret ++ octets (bits / 8) (buf >>> (bits % 8))
      if done then ret else decodeLoop n (first.drop 8) ret

def decode (s : Bytes) : Bytes :=
  if s.length % 8 ≠ 0 then [] else decodeLoop (s.length / 8) s []

/-! ## The round trip -/

theorem value_table : ∀ i : Fin 32, value (B32TABLE.getD i 0) = some i.val := by decide +kernel

theorem length_chars (r buf : Nat) : (chars r buf).length = r := by
  induction r generalizing buf with
  | zero => rfl
  | succ r ih => rw [chars, List.length_append, ih, List.length_singleton]

/-- Characters are read as the number they stand for. -/
theorem decodeGroup_chars (r n : Nat) (rest : Bytes) (buf bits : Nat) :
    decodeGroup (chars r n ++ rest) buf bits =
      decodeGroup rest (buf * 32 ^ r + n % 32 ^ r) (bits + 5 * r) := by
  induction r generalizing n rest with
  | zero => rw [chars, List.nil_append, pow_zero, Nat.mod_one, Nat.mul_one, Nat.add_zero,
      Nat.mul_zero, Nat.add_zero]
  | succ r ih =>
    have hand : n &&& 0x1f = n % 32 := Nat.and_two_pow_sub_one_eq_mod n 5
    have hval := value_table ⟨n % 32, Nat.mod_lt n (by decide)⟩
    have hmod : n % 32 ^ (r + 1) = n % 32 + 32 * (n / 32 % 32 ^ r) := by rw [pow_succ', Nat.mod_mul]
    dsimp only at hval
    rw [chars, List.append_assoc, ih, List.singleton_append, decodeGroup, hand, hval, hmod,
      Nat.shiftRight_eq_div_pow, Nat.shiftLeft_eq]
    dsimp only
    congr 1
    rw [pow_succ' 32 r]
    ring

theorem encodeLoop_five (a b c d e : UInt8) (src ret : Bytes) :
    encodeLoop (a :: b :: c :: d :: e :: src) 0 0 ret =
      encodeLoop src 0 0 (ret ++ chars 8 (octetsValue [a, b, c, d, e])) := by
  change encodeLoop src 0 0 (ret ++ chars 8 _) = _
  congr 3
  simp only [Nat.shiftLeft_eq, octetsValue, List.length_cons, List.length_nil]
  ring

/-- What is left over, with the number it stands for. -/
theorem encodeLoop_rest (src ret : Bytes) (h : src.length < 5) :
    encodeLoop src 0 0 ret = (src.length, octetsValue src, ret) := by
  match src, h with
  | [], _ => rfl
  | [a], _ => simp [encodeLoop, octetsValue]
  | [a, b], _ => simp [encodeLoop, octetsValue, Nat.shiftLeft_eq]
  | [a, b, c], _ =>
    simp only [encodeLoop, octetsValue, Nat.shiftLeft_eq, List.length_cons, List.length_nil]
    norm_num
    ring
  | [a, b, c, d], _ =>
    simp only [encodeLoop, octetsValue, Nat.shiftLeft_eq, List.length_cons, List.length_nil]
    norm_num
    ring

theorem encodeLoop_append (src : Bytes) (count buf : Nat) (ret ret' : Bytes) :
    encodeLoop src count buf (ret ++ ret') =
      ((encodeLoop src count buf ret').1, (encodeLoop src count buf ret').2.1,
        ret ++ (encodeLoop src count buf ret').2.2) := by
  induction src generalizing count buf ret' with
  | nil => rfl
  | cons ch src ih =>
    simp only [encodeLoop]
    split
    · rw [List.append_assoc, ih]
    · exact ih ..

theorem encode_five (a b c d e : UInt8) (src : Bytes) :
    encode (a :: b :: c :: d :: e :: src) =
      chars 8 (octetsValue [a, b, c, d, e]) ++ encode src := by
  have happ := encodeLoop_append src 0 0 (chars 8 (octetsValue [a, b, c, d, e])) []
  rw [List.append_nil] at happ
  rw [encode, encodeLoop_five, List.nil_append, happ, encode]
  simp only [List.append_assoc]

theorem encode_rest {src : Bytes} (h : src.length < 5) (h0 : src ≠ []) :
    ∃ shift r, shift < 8 ∧ r < 8 ∧ 5 * r = 8 * src.length + shift ∧
      encode src = chars r (octetsValue src * 2 ^ shift) ++ pad :: List.replicate (7 - r) pad := by
  have hlen : 0 < src.length := List.length_pos_iff.mpr h0
  obtain ⟨shift, r, htail, hshift, hr, hbits⟩ : ∃ shift r, tail src.length = (shift, r) ∧
      shift < 8 ∧ (0 < r ∧ r < 8) ∧ 5 * r = 8 * src.length + shift := by
    generalize src.length = k at h hlen ⊢
    interval_cases k <;> exact ⟨_, _, rfl, by decide, by decide, rfl⟩
  refine ⟨shift, r, hshift, hr.2, hbits, ?_⟩
  rw [encode, encodeLoop_rest src [] h]
  simp only [htail]
  rw [if_pos (by omega), show 8 - r = 7 - r + 1 by omega, List.replicate_succ, List.nil_append,
    Nat.shiftLeft_eq]

theorem decodeLoop_append {g : Bytes} (hg : g.length = 8) (n : Nat) (rest ret : Bytes) :
    decodeLoop (n + 1) (g ++ rest) ret =
      match decodeGroup g 0 0 with
      | none => []
      | some (buf, bits, done) =>
        let ret := ret ++ octets (bits / 8) (buf >>> (bits % 8))
        if done then ret else decodeLoop n rest ret := by
  rw [decodeLoop, List.take_left' hg, List.drop_left' hg]

/-- The last group, which ends with padding. -/
theorem decodeLoop_rest {src : Bytes} (h : src.length < 5) (h0 : src ≠ []) :
    (encode src).length % 8 = 0 ∧
      ∀ ret, decodeLoop ((encode src).length / 8) (encode src) ret = ret ++ src := by
  obtain ⟨shift, r, hshift, hr, hbits, henc⟩ := encode_rest h h0
  have hlen : (encode src).length = 8 := by
    rw [henc, List.length_append, length_chars, List.length_cons, List.length_replicate]
    omega
  have hlt : octetsValue src * 2 ^ shift < 32 ^ r :=
    calc octetsValue src * 2 ^ shift
        < 256 ^ src.length * 2 ^ shift :=
          Nat.mul_lt_mul_of_pos_right (octetsValue_lt src) (Nat.pow_pos (by decide))
      _ = 32 ^ r := by
        rw [show 256 = 2 ^ 8 from rfl, show 32 = 2 ^ 5 from rfl, ← pow_mul, ← pow_mul, ← pow_add,
          hbits]
  have hgroup := decodeGroup_chars r (octetsValue src * 2 ^ shift)
    (pad :: List.replicate (7 - r) pad) 0 0
  have hpad : value pad = none := by decide
  rw [Nat.mod_eq_of_lt hlt, ← henc, Nat.zero_mul, Nat.zero_add, Nat.zero_add, decodeGroup, hpad]
    at hgroup
  refine ⟨by rw [hlen], fun ret => ?_⟩
  have hstep := decodeLoop_append hlen 0 [] ret
  rw [List.append_nil, hgroup] at hstep
  rw [hlen, show 8 / 8 = 0 + 1 from rfl, hstep]
  simp only [if_true]
  rw [hbits, show (8 * src.length + shift) / 8 = src.length by omega,
    show (8 * src.length + shift) % 8 = shift by omega, Nat.shiftRight_eq_div_pow,
    Nat.mul_div_cancel _ (Nat.pow_pos (by decide)), octets_octetsValue]

theorem decodeLoop_encode (src : Bytes) : (encode src).length % 8 = 0 ∧
    ∀ ret, decodeLoop ((encode src).length / 8) (encode src) ret = ret ++ src := by
  induction hn : src.length using Nat.strong_induction_on generalizing src with
  | _ n ih =>
    match src, hn with
    | a :: b :: c :: d :: e :: src, hn =>
      obtain ⟨hmod, hdec⟩ := ih src.length (by simp only [List.length_cons] at hn; omega) src rfl
      have hlt : octetsValue [a, b, c, d, e] < 32 ^ 8 :=
        calc octetsValue [a, b, c, d, e]
            < 256 ^ 5 := octetsValue_lt [a, b, c, d, e]
          _ = 32 ^ 8 := by norm_num
      have hgroup := decodeGroup_chars 8 (octetsValue [a, b, c, d, e]) [] 0 0
      have hoct : octets 5 (octetsValue [a, b, c, d, e]) = [a, b, c, d, e] :=
        octets_octetsValue [a, b, c, d, e]
      rw [Nat.mod_eq_of_lt hlt, List.append_nil, Nat.zero_mul, Nat.zero_add, Nat.zero_add] at hgroup
      have hlen : (encode (a :: b :: c :: d :: e :: src)).length = (encode src).length + 8 := by
        rw [encode_five, List.length_append, length_chars, Nat.add_comm]
      refine ⟨by omega, fun ret => ?_⟩
      rw [hlen, Nat.add_div_right _ (by decide), encode_five,
        decodeLoop_append (length_chars 8 _), hgroup]
      simp only [decodeGroup, Bool.false_eq_true, if_false]
      rw [hdec, show 5 * 8 / 8 = 5 from rfl, show 5 * 8 % 8 = 0 from rfl, Nat.shiftRight_zero, hoct,
        List.append_assoc]
      rfl
    | [], _ => exact ⟨rfl, fun ret => (List.append_nil ret).symm⟩
    | [a], _ => exact decodeLoop_rest (by simp) (by simp)
    | [a, b], _ => exact decodeLoop_rest (by simp) (by simp)
    | [a, b, c], _ => exact decodeLoop_rest (by simp) (by simp)
    | [a, b, c, d], _ => exact decodeLoop_rest (by simp) (by simp)

/-- What is encoded is read back. -/
theorem decode_encode (src : Bytes) : decode (encode src) = src := by
  obtain ⟨hmod, hdec⟩ := decodeLoop_encode src
  rw [decode, if_neg (not_not.mpr hmod), hdec, List.nil_append]

end FluxCore.Util.Base32
