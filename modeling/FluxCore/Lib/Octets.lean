import Mathlib.Algebra.Order.Group.Nat
import Mathlib.Tactic.Ring

/-!
# Integers of a fixed number of octets

`octets w n` are the last `w` base-256 digits of `n`, the most significant one first: an integer in
network byte order. `octetsValue` reads them back. The two are inverse to each other up to the
digits that do not fit (`octetsValue_octets`, `octets_octetsValue`).
-/

namespace FluxCore

def octets : Nat → Nat → List UInt8
  | 0, _ => []
  | w + 1, n => UInt8.ofNat (n / 256 ^ w) :: octets w n

def octetsValue : List UInt8 → Nat
  | [] => 0
  | b :: bs => b.toNat * 256 ^ bs.length + octetsValue bs

variable {w n : Nat} {bs : List UInt8}

@[simp] theorem length_octets (w n : Nat) : (octets w n).length = w := by
  induction w with
  | zero => rfl
  | succ w ih => rw [octets, List.length_cons, ih]

theorem octetsValue_lt (bs : List UInt8) : octetsValue bs < 256 ^ bs.length := by
  induction bs with
  | nil => exact Nat.one_pos
  | cons b bs ih =>
    have hb : b.toNat * 256 ^ bs.length ≤ 255 * 256 ^ bs.length :=
      Nat.mul_le_mul_right _ (Nat.le_of_lt_succ b.toNat_lt)
    rw [octetsValue, List.length_cons, pow_succ]
    omega

theorem octetsValue_octets (w n : Nat) : octetsValue (octets w n) = n % 256 ^ w := by
  induction w with
  | zero => simp [octets, octetsValue, Nat.mod_one]
  | succ w ih =>
    rw [octets, octetsValue, length_octets, ih, pow_succ, Nat.mod_mul]
    simp only [UInt8.toNat_ofNat']
    ring

theorem octetsValue_octets_of_lt (h : n < 256 ^ w) : octetsValue (octets w n) = n :=
  (octetsValue_octets w n).trans (Nat.mod_eq_of_lt h)

/-- The digits above the last `w` do not matter. -/
theorem octets_add_mul (w n k : Nat) : octets w (n + k * 256 ^ w) = octets w n := by
  induction w generalizing k with
  | zero => rfl
  | succ w ih =>
    have hpow : n + k * 256 ^ (w + 1) = n + k * 256 * 256 ^ w := by ring
    rw [octets, octets, hpow, ih (k * 256), Nat.add_mul_div_right _ _ (Nat.pow_pos (by decide))]
    congr 1
    apply UInt8.toNat_inj.mp
    simp [UInt8.toNat_ofNat']

theorem octets_mod (w n : Nat) : octets w (n % 256 ^ w) = octets w n := by
  conv_rhs => rw [← Nat.mod_add_div n (256 ^ w), Nat.mul_comm, octets_add_mul]

theorem octets_octetsValue (bs : List UInt8) : octets bs.length (octetsValue bs) = bs := by
  induction bs with
  | nil => rfl
  | cons b bs ih =>
    have hlt := octetsValue_lt bs
    rw [octetsValue, List.length_cons, octets, Nat.add_comm, octets_add_mul, ih,
      Nat.add_mul_div_right _ _ (Nat.pow_pos (by decide)), Nat.div_eq_of_lt hlt, Nat.zero_add]
    simp

theorem octetsValue_inj {bs bs' : List UInt8} (hlen : bs.length = bs'.length)
    (h : octetsValue bs = octetsValue bs') : bs = bs' := by
  rw [← octets_octetsValue bs, ← octets_octetsValue bs', hlen, h]

end FluxCore
