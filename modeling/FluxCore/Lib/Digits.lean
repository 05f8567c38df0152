import FluxCore.Lib.Octets

/-!
# Numbers as lists of base-256 digits

`leValue` is the number whose digits a list has, the least significant one first. Digits are taken
from a number and put into one by division and by what a change of one digit adds
(`leValue_set`).
-/

namespace FluxCore

def leValue : List UInt8 → Nat
  | [] => 0
  | b :: bs => b.toNat + 256 * leValue bs

variable {bs bs' : List UInt8} {i n : Nat} {b : UInt8}

@[simp] theorem leValue_nil : leValue [] = 0 := rfl

theorem leValue_lt (bs : List UInt8) : leValue bs < 256 ^ bs.length := by
  induction bs with
  | nil => exact Nat.one_pos
  | cons b bs ih =>
    have hb := b.toNat_lt
    rw [leValue, List.length_cons, pow_succ]
    omega

theorem leValue_append (bs bs' : List UInt8) :
    leValue (bs ++ bs') = leValue bs + 256 ^ bs.length * leValue bs' := by
  induction bs with
  | nil => simp
  | cons b bs ih =>
    rw [List.cons_append, leValue, leValue, ih, List.length_cons]
    ring

/-- The digits the other way round. -/
theorem octetsValue_reverse (bs : List UInt8) : octetsValue bs.reverse = leValue bs := by
  have happend : ∀ (cs : List UInt8) (b : UInt8),
      octetsValue (cs ++ [b]) = 256 * octetsValue cs + b.toNat := by
    intro cs b
    induction cs with
    | nil => simp [octetsValue]
    | cons c cs ih =>
      rw [List.cons_append, octetsValue, octetsValue, ih, List.length_append]
      simp only [List.length_singleton]
      ring
  induction bs with
  | nil => rfl
  | cons b bs ih =>
    rw [List.reverse_cons, happend, ih, leValue]
    omega

theorem leValue_inj (hlen : bs.length = bs'.length) (h : leValue bs = leValue bs') : bs = bs' := by
  rw [← octetsValue_reverse, ← octetsValue_reverse] at h
  exact List.reverse_inj.mp (octetsValue_inj (by simp [hlen]) h)

theorem leValue_replicate_zero (n : Nat) : leValue (List.replicate n 0) = 0 := by
  induction n with
  | zero => rfl
  | succ n ih => rw [List.replicate_succ, leValue, ih]; rfl

theorem leValue_take_add (bs : List UInt8) (i : Nat) :
    leValue (bs.take i) + 256 ^ (bs.take i).length * leValue (bs.drop i) = leValue bs := by
  rw [← leValue_append, List.take_append_drop]

theorem leValue_drop (bs : List UInt8) (i : Nat) : leValue (bs.drop i) = leValue bs / 256 ^ i := by
  rcases Nat.lt_or_ge bs.length i with hi | hi
  · rw [List.drop_eq_nil_of_le hi.le, Nat.div_eq_of_lt]
    · rfl
    · exact (leValue_lt bs).trans_le (Nat.pow_le_pow_right (by decide) hi.le)
  · have hlen : (bs.take i).length = i := List.length_take_of_le hi
    have hlt := leValue_lt (bs.take i)
    rw [hlen] at hlt
    rw [← leValue_take_add bs i, hlen, Nat.add_mul_div_left _ _ (Nat.pow_pos (by decide)),
      Nat.div_eq_of_lt hlt, Nat.zero_add]

theorem leValue_take (bs : List UInt8) (i : Nat) : leValue (bs.take i) = leValue bs % 256 ^ i := by
  rcases Nat.lt_or_ge bs.length i with hi | hi
  · rw [List.take_of_length_le hi.le, Nat.mod_eq_of_lt]
    exact (leValue_lt bs).trans_le (Nat.pow_le_pow_right (by decide) hi.le)
  · have hlen : (bs.take i).length = i := List.length_take_of_le hi
    have hlt := leValue_lt (bs.take i)
    rw [hlen] at hlt
    rw [← leValue_take_add bs i, hlen, Nat.add_mul_mod_self_left, Nat.mod_eq_of_lt hlt]

theorem toNat_getElem (bs : List UInt8) (h : i < bs.length) :
    bs[i].toNat = leValue bs / 256 ^ i % 256 := by
  have hb := bs[i].toNat_lt
  rw [← leValue_drop, List.drop_eq_getElem_cons h, leValue]
  omega

theorem toNat_getElem_of_take (h : i < bs.length) (hn : i < n) :
    bs[i].toNat = leValue (bs.take n) / 256 ^ i % 256 := by
  have h' : i < (bs.take n).length := by
    rw [List.length_take]
    omega
  rw [← toNat_getElem _ h', List.getElem_take]

theorem leValue_append_zeros (bs : List UInt8) (n : Nat) :
    leValue (bs ++ List.replicate n 0) = leValue bs := by
  rw [leValue_append, leValue_replicate_zero, Nat.mul_zero, Nat.add_zero]

theorem leValue_take_succ (h : i < bs.length) :
    leValue (bs.take (i + 1)) = leValue (bs.take i) + bs[i].toNat * 256 ^ i := by
  rw [List.take_succ_eq_append_getElem h, leValue_append, List.length_take_of_le h.le, leValue,
    leValue_nil]
  ring

/-- A digit is changed. -/
theorem leValue_set (h : i < bs.length) (b : UInt8) :
    leValue (bs.set i b) + bs[i].toNat * 256 ^ i = leValue bs + b.toNat * 256 ^ i := by
  have hlen : (bs.take i).length = i := List.length_take_of_le h.le
  have hset : bs.set i b = bs.take i ++ b :: bs.drop (i + 1) :=
    List.set_eq_take_append_cons_drop.trans (if_pos h)
  have hbs := leValue_take_add bs i
  rw [List.drop_eq_getElem_cons h, leValue, hlen] at hbs
  rw [hset, leValue_append, leValue, hlen, ← hbs]
  ring

theorem leValue_take_set (h : i < bs.length) (b : UInt8) :
    leValue ((bs.set i b).take (i + 1)) = leValue (bs.take i) + b.toNat * 256 ^ i := by
  have hi : i < (bs.set i b).length := by rwa [List.length_set]
  rw [leValue_take_succ hi, List.take_set_of_le (le_refl i), List.getElem_set_self]

/-- Nothing is left of a number that is less than the first digit that is dropped stands for. -/
theorem leValue_lt_of_drop (h : leValue (bs.drop i) = 0) : leValue bs < 256 ^ i := by
  rw [leValue_drop] at h
  exact (Nat.div_eq_zero_iff_lt (Nat.pow_pos (by decide))).mp h

end FluxCore
