import FluxCore.Bignum.Operators

/-!
# The operators of `ulong` are arithmetic

Sums, differences and shifts are those of numbers modulo `256 ^ dim`, and comparisons are those of
numbers. The loops of products and quotients take away something in each turn, so they end, and the
number that is left and what has been counted keep a sum.
-/

namespace FluxCore.Bignum

variable {dim : Nat} {xs ys : List UInt8}

/-! ## Nibbles -/

theorem nibble_zero (b : UInt8) : nibble b 0 = b.toNat % 16 := by
  rw [nibble, Nat.shiftLeft_eq, Nat.shiftRight_eq_div_pow]
  omega

theorem nibble_one (b : UInt8) : nibble b 1 = b.toNat / 16 := by
  have hb := b.toNat_lt
  rw [nibble, Nat.shiftLeft_eq, Nat.shiftRight_eq_div_pow]
  omega

/-! ## Sums, differences and comparisons -/

theorem nibble_lt (b : UInt8) (j : Nat) : nibble b j < 16 := by
  rw [nibble, Nat.shiftRight_eq_div_pow]
  omega

/-- A nibble that is put above those that are there. -/
theorem toNat_add_nibble {s : UInt8} {v j : Nat} (hj : j < 2) (hs : s.toNat < 16 ^ j)
    (hv : v < 16) :
    (s + .ofNat (v <<< (j * 4))).toNat = s.toNat + 16 ^ j * v ∧
      (s + .ofNat (v <<< (j * 4))).toNat < 16 ^ (j + 1) := by
  rw [UInt8.toNat_add, UInt8.toNat_ofNat', Nat.shiftLeft_eq]
  obtain rfl | rfl : j = 0 ∨ j = 1 := by omega
  all_goals omega

theorem addNibble_spec (x y : UInt8) {j : Nat} (hj : j < 2) {s : UInt8 × Bool}
    (hs : s.1.toNat < 16 ^ j) :
    (addNibble x y j s).1.toNat + 16 ^ (j + 1) * (addNibble x y j s).2.toNat =
        s.1.toNat + 16 ^ j * (nibble x j + nibble y j + s.2.toNat) ∧
      (addNibble x y j s).1.toNat < 16 ^ (j + 1) := by
  have hx := nibble_lt x j
  have hy := nibble_lt y j
  have hcarry : (if s.2 then 1 else 0) = s.2.toNat := by cases s.2 <;> rfl
  have hle := Bool.toNat_le s.2
  simp only [addNibble, hcarry]
  split
  · obtain ⟨heq, hlt⟩ := toNat_add_nibble hj hs
      (v := nibble x j + s.2.toNat + nibble y j - 16) (by omega)
    refine ⟨?_, hlt⟩
    rw [heq, Bool.toNat_true, pow_succ, Nat.add_assoc, Nat.mul_one, ← Nat.mul_add]
    congr 2
    omega
  · obtain ⟨heq, hlt⟩ := toNat_add_nibble hj hs (v := nibble x j + s.2.toNat + nibble y j)
      (by omega)
    refine ⟨?_, hlt⟩
    rw [heq, Bool.toNat_false, Nat.mul_zero, Nat.add_zero, Nat.add_right_comm (nibble x j)]

theorem addNibble_byte (x y : UInt8) (base : Bool) :
    let s := addNibble x y 1 (addNibble x y 0 (0, base))
    s.1.toNat + 256 * s.2.toNat = x.toNat + y.toNat + base.toNat := by
  obtain ⟨heq, hlt⟩ := addNibble_spec x y (j := 0) (s := (0, base)) (by decide)
    Nat.one_pos
  have heq' := (addNibble_spec x y (j := 1) (by decide) hlt).1
  simp only [nibble_zero, UInt8.toNat_zero] at heq
  rw [nibble_one, nibble_one] at heq'
  omega

theorem leValue_addBytes (base : Bool) (h : xs.length = ys.length) :
    ∃ c : Bool, leValue (addBytes xs ys base) + 256 ^ xs.length * c.toNat =
      leValue xs + leValue ys + base.toNat := by
  induction xs generalizing ys base with
  | nil =>
    obtain rfl := List.eq_nil_of_length_eq_zero h.symm
    exact ⟨base, by simp [addBytes]⟩
  | cons x xs ih =>
    obtain ⟨y, ys, rfl⟩ := List.exists_cons_of_length_eq_add_one h.symm
    obtain ⟨c, hc⟩ := ih (addNibble x y 1 (addNibble x y 0 (0, base))).2 (Nat.succ.inj h)
    have hbyte := addNibble_byte x y base
    refine ⟨c, ?_⟩
    simp only [addBytes, leValue, List.length_cons, pow_succ] at hbyte hc ⊢
    linarith

theorem subNibble_spec (x y : UInt8) {j : Nat} (hj : j < 2) {s : UInt8 × Bool}
    (hs : s.1.toNat < 16 ^ j) :
    (subNibble x y j s).1.toNat + 16 ^ j * (nibble y j + s.2.toNat) =
        s.1.toNat + 16 ^ j * nibble x j + 16 ^ (j + 1) * (subNibble x y j s).2.toNat ∧
      (subNibble x y j s).1.toNat < 16 ^ (j + 1) := by
  have hx := nibble_lt x j
  have hy := nibble_lt y j
  have hcarry : (if s.2 then 1 else 0 : Int) = s.2.toNat := by cases s.2 <;> rfl
  have hle := Bool.toNat_le s.2
  simp only [subNibble, hcarry]
  split
  · obtain ⟨heq, hlt⟩ := toNat_add_nibble hj hs
      (v := ((nibble x j - s.2.toNat - nibble y j : Int)).toNat) (by omega)
    refine ⟨?_, hlt⟩
    rw [heq, Bool.toNat_false, Nat.mul_zero, Nat.add_zero, Nat.add_assoc, ← Nat.mul_add]
    congr 2
    omega
  · obtain ⟨heq, hlt⟩ := toNat_add_nibble hj hs
      (v := ((nibble x j - s.2.toNat + 16 - nibble y j : Int)).toNat) (by omega)
    refine ⟨?_, hlt⟩
    rw [heq, Bool.toNat_true, Nat.mul_one, pow_succ, Nat.add_assoc, Nat.add_assoc, ← Nat.mul_add,
      ← Nat.mul_add]
    congr 2
    omega

theorem subNibble_byte (x y : UInt8) (base : Bool) :
    let s := subNibble x y 1 (subNibble x y 0 (0, base))
    s.1.toNat + y.toNat + base.toNat = x.toNat + 256 * s.2.toNat := by
  obtain ⟨heq, hlt⟩ := subNibble_spec x y (j := 0) (s := (0, base)) (by decide)
    Nat.one_pos
  have heq' := (subNibble_spec x y (j := 1) (by decide) hlt).1
  simp only [nibble_zero, UInt8.toNat_zero] at heq
  rw [nibble_one, nibble_one] at heq'
  omega

theorem leValue_subBytes (base : Bool) (h : xs.length = ys.length) :
    ∃ c : Bool, leValue (subBytes xs ys base) + leValue ys + base.toNat =
      leValue xs + 256 ^ xs.length * c.toNat := by
  induction xs generalizing ys base with
  | nil =>
    obtain rfl := List.eq_nil_of_length_eq_zero h.symm
    exact ⟨base, by simp [subBytes]⟩
  | cons x xs ih =>
    obtain ⟨y, ys, rfl⟩ := List.exists_cons_of_length_eq_add_one h.symm
    obtain ⟨c, hc⟩ := ih (subNibble x y 1 (subNibble x y 0 (0, base))).2 (Nat.succ.inj h)
    have hbyte := subNibble_byte x y base
    refine ⟨c, ?_⟩
    simp only [subBytes, leValue, List.length_cons, pow_succ] at hbyte hc ⊢
    linarith

/-- The first byte that differs decides. -/
theorem octetsValue_cons_lt {x y : UInt8} (h : xs.length = ys.length) (hlt : y < x) :
    octetsValue (y :: ys) < octetsValue (x :: xs) := by
  have hys := octetsValue_lt ys
  have hmul : (y.toNat + 1) * 256 ^ ys.length ≤ x.toNat * 256 ^ ys.length :=
    Nat.mul_le_mul_right _ (UInt8.lt_iff_toNat_lt.mp hlt)
  rw [octetsValue, octetsValue, h]
  linarith

theorem gtBytes_iff (h : xs.length = ys.length) :
    gtBytes xs ys = true ↔ octetsValue ys < octetsValue xs := by
  induction xs generalizing ys with
  | nil =>
    obtain rfl := List.eq_nil_of_length_eq_zero h.symm
    simp [gtBytes]
  | cons x xs ih =>
    obtain ⟨y, ys, rfl⟩ := List.exists_cons_of_length_eq_add_one h.symm
    have hlen := Nat.succ.inj h
    have hunfold : gtBytes (x :: xs) (y :: ys) = true ↔ y < x ∨ y = x ∧ gtBytes xs ys = true := by
      have heq : y = x ↔ y.toNat = x.toNat := UInt8.toNat_inj.symm
      simp only [gtBytes, nibble_zero, nibble_one, UInt8.lt_iff_toNat_lt, heq]
      split
      · simp only [decide_eq_true_eq]
        omega
      split
      · simp only [decide_eq_true_eq]
        omega
      · have : y.toNat = x.toNat := by omega
        simp [this]
    rw [hunfold, ih hlen]
    rcases Nat.lt_trichotomy y.toNat x.toNat with hlt | heq | hgt
    · exact iff_of_true (.inl hlt) (octetsValue_cons_lt hlen hlt)
    · obtain rfl := UInt8.toNat_inj.mp heq
      simp [octetsValue, hlen]
    · have hne : y ≠ x := fun h => Nat.ne_of_gt hgt (congrArg UInt8.toNat h)
      have hnot : ¬y < x := Nat.not_lt_of_gt hgt
      simp [hne, hnot, (octetsValue_cons_lt hlen.symm hgt).le]

/-! ## Shifts -/

theorem sixteen_pow_eq (k : Nat) : 16 ^ k = 256 ^ (k / 2) * 16 ^ (k % 2) := by
  rw [show (256 : Nat) = 16 ^ 2 from rfl, ← pow_mul, ← pow_add, Nat.div_add_mod]

/-- A nibble is put at the `k`th place, where there is none. -/
theorem leValue_modify (bs : List UInt8) {k c : Nat} (hc : c < 16) (hk : k / 2 < bs.length)
    (hzero : leValue bs / 16 ^ k % 16 = 0) :
    leValue (bs.modify (k / 2) (· + .ofNat (c <<< (k % 2 * 4)))) = leValue bs + c * 16 ^ k := by
  have hbyte := toNat_getElem bs hk
  have hlt := bs[k / 2].toNat_lt
  have hsum : (bs[k / 2] + .ofNat (c <<< (k % 2 * 4))).toNat =
      bs[k / 2].toNat + c * 16 ^ (k % 2) := by
    rw [sixteen_pow_eq, ← Nat.div_div_eq_div_mul] at hzero
    rw [UInt8.toNat_add, UInt8.toNat_ofNat', Nat.shiftLeft_eq]
    obtain hmod | hmod : k % 2 = 0 ∨ k % 2 = 1 := by omega
    all_goals
      rw [hmod] at hzero ⊢
      omega
  have hset := leValue_set hk (bs[k / 2] + .ofNat (c <<< (k % 2 * 4)))
  rw [hsum, Nat.add_mul, Nat.mul_assoc, Nat.mul_comm (16 ^ (k % 2)), ← sixteen_pow_eq] at hset
  rw [List.modify_eq_set, List.getElem?_eq_getElem hk, Option.getD_some]
  omega

theorem mulNibble_eq (bt : List UInt8) {digits i j : Nat} (hlt : i < dim)
    (hj : j < 2) {b : List UInt8} (hb : b.length = dim) :
    mulNibble bt dim (digits % 2) (digits / 2) i j b =
      b.modify ((2 * (dim - 1 - i) + digits + j) / 2) (· + .ofNat
        (nibble (bt.getD (dim - 1 - i) 0) j <<< ((2 * (dim - 1 - i) + digits + j) % 2 * 4))) := by
  have hshift : digits % 2 * (1 - j) * 4 + (1 - digits % 2) * j * 4 =
      (2 * (dim - 1 - i) + digits + j) % 2 * 4 := by
    obtain hmod | hmod : digits % 2 = 0 ∨ digits % 2 = 1 := by omega
    all_goals
      obtain rfl | rfl : j = 0 ∨ j = 1 := by omega
      all_goals
        rw [hmod]
        omega
  have hidx : ((i : Int) - (digits / 2 : Nat) - (digits % 2 : Nat) * j).toNat =
        i - digits / 2 - digits % 2 * j ∧
      (0 ≤ (i : Int) - (digits / 2 : Nat) - (digits % 2 : Nat) * j ↔
        digits / 2 + digits % 2 * j ≤ i) := by
    rw [← Nat.cast_mul]
    omega
  rw [mulNibble, hshift]
  simp only [hidx.1, hidx.2]
  have hplace : (2 * (dim - 1 - i) + digits + j) / 2 =
      dim - 1 - i + digits / 2 + digits % 2 * j := by
    obtain hmod | hmod : digits % 2 = 0 ∨ digits % 2 = 1 := by omega
    all_goals
      rw [hmod]
      omega
  rw [hplace]
  split
  · congr 1
    omega
  · rw [List.modify_eq_self]
    omega

/-- A byte at the end of a shifted number, of which `e` nibbles are left. -/
theorem shifted_byte (q : Nat) {x e : Nat} (hx : x < 256) (he : 0 < e) :
    (256 * q + x) % 16 ^ e = 256 * q % 16 ^ e + (if e = 1 then x % 16 else x) ∧
      256 * q % 16 ^ e % 256 = 0 := by
  split
  next h =>
    subst h
    omega
  next h =>
    obtain ⟨e, rfl⟩ := Nat.exists_eq_add_of_le' (show 2 ≤ e by omega)
    rw [show 16 ^ (e + 2) = 256 * 16 ^ e from by ring, Nat.mul_mod_mul_left, Nat.mul_mod_right]
    refine ⟨?_, rfl⟩
    rw [Nat.mod_mul, Nat.mul_add_mod, Nat.mod_eq_of_lt hx, Nat.mul_add_div (by decide),
      Nat.div_eq_of_lt hx, Nat.add_zero, Nat.add_comm]

theorem leValue_mulLoop {bt : List UInt8} (hbt : bt.length = dim) (digits n : Nat)
    (hn : n ≤ dim - digits / 2) :
    leValue (mulLoop bt dim (digits % 2) (digits / 2) n) =
      leValue bt / 256 ^ (dim - digits / 2 - n) * 256 ^ (dim - digits / 2 - n) * 16 ^ digits %
        256 ^ dim := by
  induction n with
  | zero =>
    have hdvd : 256 ^ dim ∣ 256 ^ (dim - digits / 2) * 16 ^ digits := by
      rw [sixteen_pow_eq, ← mul_assoc, ← pow_add]
      exact Dvd.dvd.mul_right (pow_dvd_pow 256 (by omega)) _
    rw [mulLoop, leValue_replicate_zero, Nat.sub_zero, mul_assoc]
    exact (Nat.mod_eq_zero_of_dvd (Dvd.dvd.mul_left hdvd _)).symm
  | succ n ih =>
    obtain ⟨p, hp⟩ : ∃ p, p = dim - 1 - (digits / 2 + n) := ⟨_, rfl⟩
    have hk : dim - digits / 2 - n = p + 1 := by omega
    have hk' : dim - digits / 2 - (n + 1) = p := by omega
    have hpbt : p < bt.length := by omega
    obtain ⟨k, hkp⟩ : ∃ k, k = 2 * p + digits := ⟨_, rfl⟩
    obtain ⟨e, he⟩ : ∃ e, 2 * dim = k + e := ⟨2 * dim - k, by omega⟩
    have hdim : 256 ^ dim = 16 ^ k * 16 ^ e := by
      rw [← pow_add, ← he, pow_mul]
      rfl
    obtain ⟨q, hq⟩ : ∃ q, q = leValue bt / 256 ^ (p + 1) := ⟨_, rfl⟩
    have hx := bt[p].toNat_lt
    have hsplit : leValue bt / 256 ^ p = 256 * q + bt[p].toNat := by
      rw [toNat_getElem bt hpbt, hq, pow_succ, ← Nat.div_div_eq_div_mul, Nat.div_add_mod]
    obtain ⟨hshift, hzero⟩ := shifted_byte q (x := bt[p].toNat) (e := e) hx (by omega)
    have hW := ih (by omega)
    rw [hk, ← hq, pow_succ, show q * (256 ^ p * 256) * 16 ^ digits = 16 ^ k * (256 * q) from by
      rw [hkp, pow_add, pow_mul]
      ring, hdim, Nat.mul_mod_mul_left] at hW
    have hlen := length_mulLoop bt dim (digits % 2) (digits / 2) n
    have hgetD : bt.getD p 0 = bt[p] := by
      rw [List.getD_eq_getElem?_getD, List.getElem?_eq_getElem hpbt, Option.getD_some]
    rw [hk', hsplit, show (256 * q + bt[p].toNat) * 256 ^ p * 16 ^ digits =
      16 ^ k * (256 * q + bt[p].toNat) from by
        rw [hkp, pow_add, pow_mul]
        ring, hdim, Nat.mul_mod_mul_left, hshift]
    rw [mulLoop, mulNibble_eq bt (by omega) (by decide) (by rw [length_mulNibble, hlen]),
      mulNibble_eq bt (by omega) (by decide) hlen, ← hp, ← hkp, hgetD, nibble_zero, nibble_one,
      Nat.add_zero]
    have hlow := leValue_modify (mulLoop bt dim (digits % 2) (digits / 2) n)
      (k := k) (c := bt[p].toNat % 16) (by omega) (by rw [hlen]; omega) (by
        rw [hW, Nat.mul_div_cancel_left _ (Nat.pow_pos (by decide))]
        omega)
    rw [hW] at hlow
    rcases Nat.lt_or_ge 1 e with he1 | he1
    · rw [leValue_modify _ (k := k + 1) (by omega) (by rw [List.length_modify, hlen]; omega) (by
        rw [hlow, pow_succ, ← Nat.div_div_eq_div_mul, Nat.mul_comm _ (16 ^ k), ← Nat.mul_add,
          Nat.mul_div_cancel_left _ (Nat.pow_pos (by decide))]
        omega), hlow, if_neg (by omega), pow_succ]
      have hdm : 16 ^ k * bt[p].toNat = 16 ^ k * (bt[p].toNat % 16 + 16 * (bt[p].toNat / 16)) := by
        rw [Nat.mod_add_div]
      rw [Nat.mul_add (16 ^ k) _ bt[p].toNat, hdm]
      ring
    · obtain rfl : e = 1 := by omega
      rw [List.modify_eq_self (by rw [List.length_modify, hlen]; omega), hlow, if_pos rfl]
      ring

/-- The number of nibbles that a number has. -/
theorem capacityLoop_spec (bs : List UInt8) :
    octetsValue bs < 16 ^ capacityLoop bs (bs.length * 2) ∧
      capacityLoop bs (bs.length * 2) ≤ bs.length * 2 ∧
      (0 < capacityLoop bs (bs.length * 2) →
        16 ^ (capacityLoop bs (bs.length * 2) - 1) ≤ octetsValue bs) := by
  induction bs with
  | nil => exact ⟨Nat.one_pos, le_refl _, fun h => absurd h (Nat.lt_irrefl 0)⟩
  | cons b bs ih =>
    have hb := b.toNat_lt
    have hlt := octetsValue_lt bs
    have hpow : 256 ^ bs.length = 16 ^ (bs.length * 2) := by
      rw [Nat.mul_comm, pow_mul]
      rfl
    have hlen : (b :: bs).length * 2 = bs.length * 2 + 2 := Nat.succ_mul ..
    have hpos : 0 < 256 ^ bs.length := Nat.pow_pos (by decide)
    rw [capacityLoop, octetsValue, hlen]
    simp only [Nat.shiftRight_eq_div_pow, Nat.shiftLeft_eq]
    split
    next h =>
      rw [show b.toNat = 0 by omega, Nat.zero_mul, Nat.zero_add, Nat.add_sub_cancel]
      exact ⟨ih.1, by omega, ih.2.2⟩
    split
    next h h0 =>
      have hb' : 1 ≤ b.toNat ∧ b.toNat < 16 := by omega
      rw [show bs.length * 2 + 2 - 1 = bs.length * 2 + 1 from rfl, Nat.add_sub_cancel, pow_succ,
        ← hpow]
      exact ⟨by nlinarith, by omega, fun _ => by nlinarith⟩
    next h h0 =>
      have hb' : 16 ≤ b.toNat := by omega
      rw [show bs.length * 2 + 2 - 1 = bs.length * 2 + 1 from rfl, pow_succ, pow_succ, ← hpow]
      exact ⟨by nlinarith, by omega, fun _ => by nlinarith⟩

/-! ## The operators on numbers -/

namespace Ulong

variable {a b d : Ulong dim}

def toNat (a : Ulong dim) : Nat := leValue a.buf

theorem toNat_lt (a : Ulong dim) : a.toNat < 256 ^ dim := by
  have h := leValue_lt a.buf
  rwa [a.length_buf] at h

theorem toNat_inj : a.toNat = b.toNat ↔ a = b := by
  refine ⟨fun h => ?_, congrArg toNat⟩
  exact Ulong.ext (leValue_inj (a.length_buf.trans b.length_buf.symm) h)

@[simp] theorem toNat_zero : (0 : Ulong dim).toNat = 0 := leValue_replicate_zero dim

theorem eq_zero_iff : a = 0 ↔ a.toNat = 0 := by rw [← toNat_inj, toNat_zero]

/-- A `size_t` fits into 8 bytes. -/
theorem ofSize_spec {t : Nat} (hdim : 8 ≤ dim) (ht : t < 2 ^ 64) :
    ∃ a, ofSize dim t = some a ∧ a.toNat = t := by
  refine ⟨_, dif_pos hdim, ?_⟩
  rw [toNat, leValue_append_zeros, ← octetsValue_reverse, List.reverse_reverse,
    octetsValue_octets_of_lt (by rwa [show 256 ^ 8 = 2 ^ 64 from rfl])]

theorem toNat_add (a b : Ulong dim) : (a + b).toNat = (a.toNat + b.toNat) % 256 ^ dim := by
  obtain ⟨c, hc⟩ := leValue_addBytes false (a.length_buf.trans b.length_buf.symm)
  rw [a.length_buf, Bool.toNat_false, Nat.add_zero] at hc
  have heq : (a + b).toNat + 256 ^ dim * c.toNat = a.toNat + b.toNat := hc
  rw [← heq, Nat.add_mul_mod_self_left, Nat.mod_eq_of_lt (toNat_lt _)]

theorem toNat_sub (a b : Ulong dim) :
    (a - b).toNat = (a.toNat + (256 ^ dim - b.toNat)) % 256 ^ dim := by
  obtain ⟨c, hc⟩ := leValue_subBytes false (a.length_buf.trans b.length_buf.symm)
  rw [a.length_buf, Bool.toNat_false, Nat.add_zero] at hc
  have heq : (a - b).toNat + b.toNat = a.toNat + 256 ^ dim * c.toNat := hc
  have hb := b.toNat_lt
  have hab : a.toNat + (256 ^ dim - b.toNat) + 256 ^ dim * c.toNat =
      (a - b).toNat + 256 ^ dim := by omega
  rw [← Nat.add_mul_mod_self_left _ _ c.toNat, hab, Nat.add_mod_right,
    Nat.mod_eq_of_lt (toNat_lt _)]

theorem toNat_sub_of_le (h : b.toNat ≤ a.toNat) : (a - b).toNat = a.toNat - b.toNat := by
  have ha := a.toNat_lt
  rw [toNat_sub, show a.toNat + (256 ^ dim - b.toNat) = a.toNat - b.toNat + 256 ^ dim by
    have := b.toNat_lt; omega, Nat.add_mod_right, Nat.mod_eq_of_lt (by omega)]

theorem gt_iff : a.gt b = true ↔ b.toNat < a.toNat := by
  rw [gt, gtBytes_iff (by rw [List.length_reverse, List.length_reverse, a.length_buf,
    b.length_buf]), octetsValue_reverse, octetsValue_reverse]
  rfl

theorem ge_iff : a.ge b = true ↔ b.toNat ≤ a.toNat := by
  rw [ge, Bool.or_eq_true, decide_eq_true_eq, gt_iff, ← toNat_inj]
  omega

theorem capacity_spec (a : Ulong dim) :
    a.toNat < 16 ^ a.capacity ∧ a.capacity ≤ dim * 2 ∧
      (0 < a.capacity → 16 ^ (a.capacity - 1) ≤ a.toNat) := by
  have h := capacityLoop_spec a.buf.reverse
  rwa [octetsValue_reverse, List.length_reverse, a.length_buf] at h

theorem capacity_pos (h : 0 < a.toNat) : 0 < a.capacity := by
  refine Nat.pos_of_ne_zero fun h0 => ?_
  have hlt := (capacity_spec a).1
  rw [h0, pow_zero] at hlt
  omega

theorem toNat_mul (a : Ulong dim) (digits : Nat) :
    (a.mul digits).toNat = a.toNat * 16 ^ digits % 256 ^ dim := by
  rw [mul, toNat, leValue_mulLoop a.length_buf digits _ (le_refl _), Nat.sub_self, pow_zero,
    Nat.div_one, Nat.mul_one]
  rfl

/-- A power of 16 that fits. -/
theorem ofSize_one_mul (hdim : 8 ≤ dim) :
    ∃ one, ofSize dim 1 = some one ∧ one.toNat = 1 ∧
      ∀ n, 16 ^ n < 256 ^ dim → (one.mul n).toNat = 16 ^ n := by
  obtain ⟨one, heq, hone⟩ := ofSize_spec (t := 1) hdim (by decide)
  refine ⟨one, heq, hone, fun n hn => ?_⟩
  rw [toNat_mul, hone, Nat.one_mul, Nat.mod_eq_of_lt hn]

/-! ### Products -/

theorem timesLoop_spec (hdim : 8 ≤ dim) (a rv : Ulong dim) {fuel : Nat} {c : Ulong dim}
    (hfuel : c.toNat < fuel) :
    ∃ v, timesLoop a fuel c rv = some v ∧
      v.toNat = (rv.toNat + a.toNat * c.toNat) % 256 ^ dim := by
  induction fuel generalizing c rv with
  | zero => exact absurd hfuel (Nat.not_lt_zero _)
  | succ fuel ih =>
    rw [timesLoop]
    split
    next h0 =>
      refine ⟨rv, rfl, ?_⟩
      rw [eq_zero_iff.mp h0, Nat.mul_zero, Nat.add_zero, Nat.mod_eq_of_lt rv.toNat_lt]
    next h0 =>
      obtain ⟨one, heq, -, hone⟩ := ofSize_one_mul hdim
      have hle := c.capacity_spec.2.2 (capacity_pos (Nat.pos_of_ne_zero fun h => h0 <|
        eq_zero_iff.mpr h))
      have hpow : 0 < 16 ^ (c.capacity - 1) := Nat.pow_pos (by decide)
      have hdiff := hone _ (hle.trans_lt c.toNat_lt)
      have hsub := toNat_sub_of_le (a := c) (b := one.mul (c.capacity - 1)) (by rwa [hdiff])
      obtain ⟨v, hv, hval⟩ := ih (c := c - one.mul (c.capacity - 1))
        (rv + a.mul (c.capacity - 1)) (by rw [hsub, hdiff]; omega)
      refine ⟨v, by simp only [heq, Option.bind_eq_bind, Option.bind_some]; exact hv, ?_⟩
      rw [hval, hsub, hdiff, toNat_add, toNat_mul, Nat.mod_add_mod, Nat.add_right_comm,
        Nat.add_mod_mod, Nat.add_assoc, ← Nat.mul_add, Nat.sub_add_cancel hle]

theorem times_spec (hdim : 8 ≤ dim) (a b : Ulong dim) {fuel : Nat} (hfuel : b.toNat < fuel) :
    ∃ v, times fuel a b = some v ∧ v.toNat = a.toNat * b.toNat % 256 ^ dim := by
  obtain ⟨v, hv, hval⟩ := timesLoop_spec hdim a 0 hfuel
  rw [toNat_zero, Nat.zero_add] at hval
  exact ⟨v, hv, hval⟩

/-! ### Quotients -/

theorem takeAway_spec {tmp : Ulong dim} (qt : Ulong dim) (htmp : 0 < tmp.toNat) {fuel : Nat}
    {q r : Ulong dim} (hfuel : r.toNat < fuel) :
    ∃ q' r', takeAway tmp qt fuel (q, r) = some (q', r') ∧
      q'.toNat = (q.toNat + qt.toNat * (r.toNat / tmp.toNat)) % 256 ^ dim ∧
      r'.toNat = r.toNat % tmp.toNat := by
  induction fuel generalizing q r with
  | zero => exact absurd hfuel (Nat.not_lt_zero _)
  | succ fuel ih =>
    rw [takeAway]
    rcases Nat.lt_or_ge r.toNat tmp.toNat with hlt | hge
    · rw [if_neg fun h => Nat.not_le_of_lt hlt (ge_iff.mp h)]
      refine ⟨q, r, rfl, ?_, (Nat.mod_eq_of_lt hlt).symm⟩
      rw [Nat.div_eq_of_lt hlt, Nat.mul_zero, Nat.add_zero, Nat.mod_eq_of_lt q.toNat_lt]
    · rw [if_pos (ge_iff.mpr hge)]
      have hsub := toNat_sub_of_le hge
      obtain ⟨q', r', heq, hq, hr⟩ := ih (q := q + qt) (r := r - tmp) (by omega)
      refine ⟨q', r', heq, ?_, ?_⟩
      · rw [hq, hsub, toNat_add, Nat.mod_add_mod, Nat.div_eq_sub_div htmp hge, Nat.mul_succ,
          Nat.add_assoc, Nat.add_comm qt.toNat]
      · rw [hr, hsub, ← Nat.mod_eq_sub_mod hge]

/-- What is taken away from `r` as often as possible is a multiple of `d`. -/
theorem takeAway_multiple {d tmp qt q r : Ulong dim} {fuel A x : Nat} (hd : 0 < d.toNat)
    (hx : 0 < x) (htmp : tmp.toNat = d.toNat * x) (hqt : qt.toNat = x) (hle : tmp.toNat ≤ r.toNat)
    (hA : q.toNat * d.toNat + r.toNat = A) (hlt : A < 256 ^ dim) (hfuel : r.toNat < fuel) :
    ∃ q' r', takeAway tmp qt fuel (q, r) = some (q', r') ∧
      q'.toNat * d.toNat + r'.toNat = A ∧ r'.toNat < r.toNat := by
  have hpos : 0 < tmp.toNat := by
    rw [htmp]
    exact Nat.mul_pos hd hx
  obtain ⟨q', r', heq, hq, hr⟩ := takeAway_spec qt hpos (q := q) hfuel
  have hdm := Nat.div_add_mod r.toNat tmp.toNat
  have hsum : (q.toNat + x * (r.toNat / tmp.toNat)) * d.toNat + r.toNat % tmp.toNat = A := by
    rw [← hA]
    nth_rewrite 3 [← hdm]
    rw [htmp]
    ring
  have hfits : q.toNat + x * (r.toNat / tmp.toNat) < 256 ^ dim := by
    refine lt_of_le_of_lt ?_ hlt
    calc q.toNat + x * (r.toNat / tmp.toNat)
      _ ≤ (q.toNat + x * (r.toNat / tmp.toNat)) * d.toNat := Nat.le_mul_of_pos_right _ hd
      _ ≤ A := by omega
  refine ⟨q', r', heq, ?_, ?_⟩
  · rw [hq, hr, hqt, Nat.mod_eq_of_lt hfits, hsum]
  · rw [hr]
    exact (Nat.mod_lt _ hpos).trans_le hle

theorem divTurn_spec (hdim : 8 ≤ dim) {d q r : Ulong dim} {fuel A : Nat} (hd : 0 < d.toNat)
    (hcap : d.capacity < r.capacity) (hA : q.toNat * d.toNat + r.toNat = A)
    (hlt : A < 256 ^ dim) (hfuel : r.toNat < fuel) :
    ∃ q' r', divTurn fuel d q r = some (q', r') ∧
      q'.toNat * d.toNat + r'.toNat = A ∧ r'.toNat < r.toNat := by
  obtain ⟨one, hone, -, hpow⟩ := ofSize_one_mul hdim
  obtain ⟨-, hrle, hr⟩ := r.capacity_spec
  have hdlt := d.capacity_spec.1
  have hdpos := capacity_pos hd
  have hr := hr (by omega)
  obtain ⟨m, hm⟩ : ∃ m, m = r.capacity - d.capacity - 1 := ⟨_, rfl⟩
  have hB : 256 ^ dim = 16 ^ (dim * 2) := by
    rw [Nat.mul_comm, pow_mul]
    rfl
  have hrB := r.toNat_lt
  have hx : 16 ^ (m + 1) < 256 ^ dim := by
    rw [hB]
    exact Nat.pow_lt_pow_right (by decide) (by omega)
  have htmp : d.toNat * 16 ^ m < 16 ^ (r.capacity - 1) := by
    rw [show r.capacity - 1 = d.capacity + m by omega, pow_add]
    exact Nat.mul_lt_mul_of_pos_right hdlt (Nat.pow_pos (by decide))
  have htmp' : d.toNat * 16 ^ (m + 1) < 256 ^ dim := by
    rw [hB, pow_succ, ← mul_assoc]
    calc d.toNat * 16 ^ m * 16
      _ < 16 ^ (r.capacity - 1) * 16 := by omega
      _ = 16 ^ r.capacity := by rw [← pow_succ, Nat.sub_add_cancel (by omega)]
      _ ≤ 16 ^ (dim * 2) := Nat.pow_le_pow_right (by decide) hrle
  have hvtmp : (d.mul m).toNat = d.toNat * 16 ^ m := by
    rw [toNat_mul, Nat.mod_eq_of_lt (by omega)]
  have hvt : ((d.mul m).mul 1).toNat = d.toNat * 16 ^ (m + 1) := by
    rw [toNat_mul, hvtmp, mul_assoc, ← pow_add, Nat.mod_eq_of_lt htmp']
  have hvqt : (one.mul m).toNat = 16 ^ m :=
    hpow m (lt_of_le_of_lt (Nat.pow_le_pow_right (by decide) (Nat.le_succ m)) hx)
  have hvqt' : ((one.mul m).mul 1).toNat = 16 ^ (m + 1) := by
    rw [toNat_mul, hvqt, ← pow_add, Nat.mod_eq_of_lt hx]
  simp only [divTurn, hone, Option.bind_eq_bind, Option.bind_some, ← hm]
  split
  next h =>
    exact takeAway_multiple hd (Nat.pow_pos (by decide)) hvt hvqt' (ge_iff.mp h) hA hlt hfuel
  next =>
    exact takeAway_multiple hd (Nat.pow_pos (by decide)) hvtmp hvqt (by omega) hA hlt hfuel

theorem divLoop_spec (hdim : 8 ≤ dim) {d q r : Ulong dim} {fuel n A : Nat} (hd : 0 < d.toNat)
    (hA : q.toNat * d.toNat + r.toNat = A) (hlt : A < 256 ^ dim) (hfuel : A < fuel)
    (hn : r.toNat < n) :
    ∃ q' r', divLoop fuel d n (q, r) = some (q', r') ∧
      q'.toNat * d.toNat + r'.toNat = A := by
  induction n generalizing q r with
  | zero => exact absurd hn (Nat.not_lt_zero _)
  | succ n ih =>
    rw [divLoop]
    split
    next => exact ⟨q, r, rfl, hA⟩
    next hcap =>
      have hr : r.toNat < fuel := by
        have := Nat.zero_le (q.toNat * d.toNat)
        omega
      obtain ⟨q', r', hturn, hA', hr'⟩ := divTurn_spec hdim hd (by omega) hA hlt hr
      rw [hturn, Option.bind_some]
      exact ih hA' (by omega)

theorem div_spec (hdim : 8 ≤ dim) (a : Ulong dim) {d : Ulong dim} {fuel : Nat}
    (hd : 0 < d.toNat) (hfuel : a.toNat < fuel) :
    ∃ q r, div fuel a d = some (q, r) ∧ q.toNat = a.toNat / d.toNat ∧
      r.toNat = a.toNat % d.toNat := by
  obtain ⟨zero, hzero, h0⟩ := ofSize_spec (t := 0) hdim (by decide)
  obtain ⟨one, hone, h1⟩ := ofSize_spec (t := 1) hdim (by decide)
  have ha := a.toNat_lt
  have hstart : zero.toNat * d.toNat + a.toNat = a.toNat := by
    rw [h0, Nat.zero_mul, Nat.zero_add]
  obtain ⟨q, r, hloop, hA⟩ := divLoop_spec hdim hd hstart ha hfuel hfuel
  obtain ⟨q', r', htake, hq, hr⟩ := takeAway_spec one hd (q := q)
    (show r.toNat < fuel by have := Nat.zero_le (q.toNat * d.toNat); omega)
  refine ⟨q', r', ?_, ?_, ?_⟩
  · rw [div, hzero, hone]
    simp only [Option.bind_eq_bind, Option.bind_some, hloop, htake]
  · have hdiv : a.toNat / d.toNat = q.toNat + r.toNat / d.toNat := by
      rw [← hA, Nat.mul_comm, Nat.mul_add_div hd]
    rw [hq, h1, Nat.one_mul, ← hdiv]
    exact Nat.mod_eq_of_lt ((Nat.div_le_self _ _).trans_lt ha)
  · rw [hr, ← hA, Nat.mul_comm, Nat.mul_add_mod]

theorem mod_spec (hdim : 8 ≤ dim) (a : Ulong dim) {d : Ulong dim} {fuel : Nat}
    (hd : 0 < d.toNat) (hfuel : a.toNat < fuel) :
    ∃ r, mod fuel a d = some r ∧ r.toNat = a.toNat % d.toNat := by
  obtain ⟨q, r, heq, -, hr⟩ := div_spec hdim a hd hfuel
  exact ⟨r, by rw [mod, heq]; rfl, hr⟩

@[simp] theorem toNat_extend (a : Ulong dim) : a.extend.toNat = a.toNat :=
  leValue_append_zeros a.buf dim

theorem toNat_lower (a : Ulong (dim * 2)) : a.lower.toNat = a.toNat % 256 ^ dim :=
  leValue_take a.buf dim

/-- `mul_mod` is the product modulo `m`, also where the product does not fit. -/
theorem mulMod_spec (hdim : 8 ≤ dim) (a b : Ulong dim) {m : Ulong dim} {fuel : Nat} (hm : m ≠ 0)
    (hfuel : 256 ^ (dim * 2) ≤ fuel) :
    ∃ v, mulMod fuel a b m = some v ∧ v.toNat = a.toNat * b.toNat % m.toNat := by
  have hm' : 0 < m.toNat := Nat.pos_of_ne_zero fun h => hm (eq_zero_iff.mpr h)
  have hle : 256 ^ dim ≤ 256 ^ (dim * 2) := Nat.pow_le_pow_right (by decide) (by omega)
  have ha := a.toNat_lt
  have hb := b.toNat_lt
  rw [mulMod]
  split
  next hcap =>
    have hfits : a.toNat * b.toNat < 256 ^ dim := by
      rw [show (256 : Nat) = 16 ^ 2 from rfl, ← pow_mul, Nat.mul_comm 2 dim]
      refine lt_of_lt_of_le ?_ (Nat.pow_le_pow_right (by decide) hcap)
      rw [pow_add]
      exact Nat.mul_lt_mul'' a.capacity_spec.1 b.capacity_spec.1
    obtain ⟨p, hp, hval⟩ := times_spec hdim a b (show b.toNat < fuel by omega)
    rw [Nat.mod_eq_of_lt hfits] at hval
    obtain ⟨r, hr, hrval⟩ := mod_spec hdim p hm' (show p.toNat < fuel by omega)
    refine ⟨r, ?_, by rw [hrval, hval]⟩
    rw [hp]
    exact hr
  next hcap =>
    have hfits : a.toNat * b.toNat < 256 ^ (dim * 2) := by
      rw [Nat.mul_two, pow_add]
      exact Nat.mul_lt_mul'' ha hb
    obtain ⟨p, hp, hval⟩ := times_spec (by omega) a.extend b.extend
      (show b.extend.toNat < fuel by rw [toNat_extend]; omega)
    rw [toNat_extend, toNat_extend, Nat.mod_eq_of_lt hfits] at hval
    obtain ⟨r, hr, hrval⟩ := mod_spec (by omega) p (d := m.extend)
      (by rwa [toNat_extend]) (show p.toNat < fuel by omega)
    rw [hval, toNat_extend] at hrval
    refine ⟨r.lower, ?_, ?_⟩
    · simp only [hp, Option.bind_eq_bind, Option.bind_some, hr]
      rfl
    · rw [toNat_lower, hrval, Nat.mod_eq_of_lt]
      exact (Nat.mod_lt _ hm').trans m.toNat_lt

theorem mulMod_spec_max :
    let a : Ulong 8 := ⟨List.replicate 8 255, rfl⟩
    let m : Ulong 8 := ⟨[7, 0, 0, 0, 0, 0, 0, 0], rfl⟩
    ∃ v, mulMod (256 ^ 16) a a m = some v ∧ v.toNat = a.toNat * a.toNat % m.toNat :=
  mulMod_spec (by decide) _ _ (by decide) (Nat.le_refl _)

end Ulong

end FluxCore.Bignum
