import FluxCore.Bignum.Bytes

/-!
# Long division

`modBytes` goes through the bytes of the quotient from the highest. It estimates one from three
bytes of the dividend and two of the divisor; since the highest bit of the divisor is set, the corrected
estimate is right or 1 too large (`estimate_le`), and in the second case the difference is negative
and the divisor is added back (`modTurn_spec`). What is left of the dividend is its remainder by the
divisor, shifted by the bytes still to come.
-/

namespace FluxCore.Bignum

/-! ## The estimate -/

/-- The loop that corrects the estimate: what comes out is not too small, and not too large for the
bytes it is made from. -/
theorem correct_spec {dh dh2 r3 num q : Nat} (hdh2 : dh2 ≤ 255)
    (hnum : num ≤ dh * 256 + 255) (hq : q ≤ 255)
    (hlow : q * (dh * 256 + dh2) ≤ num * 256 + r3) {fuel qhat rhat : Nat}
    (hfuel : 256 ≤ rhat + fuel * dh) (hrhat : rhat < 256) (hsum : qhat * dh + rhat = num)
    (hle : q ≤ qhat) :
    ∃ k, correct dh dh2 r3 fuel qhat rhat = some k ∧ q ≤ k ∧ k ≤ 255 ∧
      k * (dh * 256 + dh2) ≤ num * 256 + r3 := by
  induction fuel generalizing qhat rhat with
  | zero => omega
  | succ fuel ih =>
    rw [correct]
    split
    next hbig =>
      have hlt : q < qhat := by
        rcases hbig with hbig | hbig
        · omega
        · by_contra hge
          have heq : q = qhat := by omega
          rw [heq, Nat.mul_add, ← Nat.mul_assoc] at hlow
          omega
      obtain ⟨k, rfl⟩ : ∃ k, qhat = k + 1 := ⟨qhat - 1, by omega⟩
      rw [Nat.add_sub_cancel]
      rw [Nat.succ_mul] at hsum
      split
      next hbreak =>
        have hk : k ≤ 255 := by
          by_contra hge
          have := Nat.mul_le_mul_right dh (by omega : 256 ≤ k)
          omega
        have hmul : k * dh2 ≤ 255 * 255 := Nat.mul_le_mul hk hdh2
        refine ⟨k, rfl, by omega, hk, ?_⟩
        rw [Nat.mul_add, ← Nat.mul_assoc]
        omega
      next hgo =>
        refine ih ?_ (by omega) (by omega) (by omega)
        rw [Nat.succ_mul] at hfuel
        omega
    next hok =>
      rw [not_or, not_le, not_lt] at hok
      refine ⟨qhat, rfl, hle, by omega, ?_⟩
      rw [Nat.mul_add, ← Nat.mul_assoc]
      omega

/-- The estimate from the first two bytes `Y` of the divisor and the first three `X` of the
dividend. -/
theorem correct_of_digits {X Y dh num q : Nat} (hdh : dh = Y / 256) (hnum : num = X / 256)
    (hY : Y < 65536) (hnorm : 128 * 256 ≤ Y) (hXY : X < 256 * (Y + 1)) (hq : q ≤ 255)
    (hlow : q * Y ≤ X) :
    ∃ k, correct dh (Y % 256) (X % 256) 3 (num / dh) (num % dh) = some k ∧ q ≤ k ∧ k ≤ 255 ∧
      k * Y ≤ X := by
  have hYsum : dh * 256 + Y % 256 = Y := hdh ▸ Nat.div_add_mod' Y 256
  have hXsum : num * 256 + X % 256 = X := hnum ▸ Nat.div_add_mod' X 256
  have hlow' : q * (dh * 256 + Y % 256) ≤ num * 256 + X % 256 := by
    rw [hYsum, hXsum]
    exact hlow
  have hfirst : q ≤ num / dh := by
    rw [Nat.le_div_iff_mul_le (by omega)]
    rw [Nat.mul_add, ← Nat.mul_assoc] at hlow'
    omega
  have hmod : num % dh < dh := Nat.mod_lt _ (by omega)
  obtain ⟨k, hk, hqk, hk255, hkX⟩ := @correct_spec dh (Y % 256) (X % 256) num q (by omega)
    (by omega) hq hlow' 3 (num / dh) (num % dh) (by omega) (by omega) (Nat.div_add_mod' ..) hfirst
  rw [hYsum, hXsum] at hkX
  exact ⟨k, hk, hqk, hk255, hkX⟩

/-- The quotient `q` of `u` and `v` and the one of their first bytes `u'` and `v'`. -/
theorem quotient_mul_le {u v u' v' q P : Nat} (hq : q * v ≤ u) (hv : v' * P ≤ v)
    (hu : u < (u' + 1) * P) : q * v' ≤ u' := by
  have hmul : q * (v' * P) ≤ q * v := Nat.mul_le_mul_left q hv
  rw [← Nat.mul_assoc] at hmul
  exact Nat.le_of_lt_succ (Nat.lt_of_mul_lt_mul_right ((hmul.trans hq).trans_lt hu))

/-- Where the first bytes of the divisor are a number that is large enough, an estimate that is not
too large for the first bytes is at most 1 too large. -/
theorem estimate_le {u v u' v' q k P : Nat} (hq : u < (q + 1) * v) (hv : v < (v' + 1) * P)
    (hu : u' * P ≤ u) (hk : k * v' ≤ u') (hlarge : k ≤ v' + 1) : k ≤ q + 1 := by
  by_contra hlt
  obtain ⟨j, rfl⟩ : ∃ j, k = j + 1 := ⟨k - 1, by omega⟩
  have h1 : (q + 1) * v ≤ j * ((v' + 1) * P) := Nat.mul_le_mul (by omega) hv.le
  rw [← Nat.mul_assoc] at h1
  have h2 : u' < j * (v' + 1) := Nat.lt_of_mul_lt_mul_right ((hu.trans_lt hq).trans_le h1)
  rw [Nat.succ_mul] at hk
  rw [Nat.mul_succ] at h2
  omega

/-! ## The steps of a turn -/

variable {dim alen dlen n s qi qhat : Nat} {a b d dn dst src rem : List UInt8}

theorem subByte_spec {j carry borrow : Nat} (hdn : j < dn.length) (hrem : qi + j < rem.length)
    (hq : qhat ≤ 255) (hcarry : carry ≤ 255) (hborrow : borrow ≤ 1) :
    ∃ x : UInt8, ∃ carry' borrow', subByte dn qhat qi j (rem, carry, borrow) =
        some (rem.set (qi + j) x, carry', borrow') ∧ carry' ≤ 255 ∧ borrow' ≤ 1 ∧
      (x.toNat - 256 * (carry' + borrow') : Int) =
        rem[qi + j].toNat - (qhat * dn[j].toNat + carry + borrow) := by
  have hold := rem[qi + j].toNat_lt
  have hmul : qhat * dn[j].toNat ≤ 255 * 255 :=
    Nat.mul_le_mul hq (Nat.le_of_lt_succ dn[j].toNat_lt)
  obtain ⟨p, hp⟩ : ∃ p, p = qhat * dn[j].toNat + carry := ⟨_, rfl⟩
  obtain ⟨t, ht⟩ : ∃ t : Int, t = rem[qi + j].toNat - (p % 256 : Nat) - borrow := ⟨_, rfl⟩
  have hsub : subByte dn qhat qi j (rem, carry, borrow) =
      some (rem.set (qi + j) (.ofNat (t % 256).toNat), p >>> 8, if t < 0 then 1 else 0) := by
    rw [subByte]
    dsimp only
    rw [getElem?_of_lt hdn, getElem?_of_lt hrem, ht, hp]
    change (put rem (qi + j) _).bind _ = _
    rw [put_eq hrem]
    rfl
  refine ⟨_, _, _, hsub, ?_, ?_, ?_⟩
  · rw [Nat.shiftRight_eq_div_pow]
    omega
  · split <;> omega
  · rw [toNat_ofInt_byte (by omega) (by omega), Nat.shiftRight_eq_div_pow]
    have hp' := congrArg (Nat.cast (R := Int)) hp
    push_cast at hp' ⊢
    split <;> omega

/-- The subtraction, modulo what the bytes up to `qi + dlen` hold. -/
theorem subtract_spec (qi : Nat) (hdn : dlen ≤ dn.length) (hrem : qi + dlen < rem.length) (hq : qhat ≤ 255) :
    ∃ rem' borrow, subtract dn dlen qhat qi rem = some (rem', borrow) ∧
      rem'.length = rem.length ∧ rem'.drop (qi + dlen + 1) = rem.drop (qi + dlen + 1) ∧
      (leValue rem' : Int) = leValue rem - qhat * (leValue (dn.take dlen) * 256 ^ qi) +
        (if borrow then 1 else 0) * 256 ^ (qi + dlen + 1) := by
  obtain ⟨⟨rem', carry, borrow⟩, heq, hlen, hdrop, hcarry, hborrow, hval⟩ := forUp_spec
    (subByte dn qhat qi)
    (fun j t => t.1.length = rem.length ∧
      t.1.drop (qi + dlen + 1) = rem.drop (qi + dlen + 1) ∧ t.2.1 ≤ 255 ∧ t.2.2 ≤ 1 ∧
      (leValue t.1 - (t.2.1 + t.2.2) * 256 ^ (qi + j) : Int) =
        leValue rem - qhat * (leValue (dn.take j) * 256 ^ qi))
    (dlen) ((rem, 0, 0)) ⟨rfl, rfl, Nat.zero_le _, Nat.zero_le _, by simp⟩ (by
      rintro j ⟨rem', carry, borrow⟩ hj ⟨hlen, hdrop, hcarry, hborrow, hval⟩
      dsimp only at hlen hdrop hcarry hborrow hval
      have hj' : j < dn.length := by omega
      have hrem' : qi + j < rem'.length := by omega
      obtain ⟨x, carry', borrow', heq, hcarry', hborrow', hx⟩ :=
        subByte_spec hj' hrem' hq hcarry hborrow
      refine ⟨_, heq, (List.length_set ..).trans hlen, ?_, hcarry', hborrow', ?_⟩
      · rw [List.drop_set_of_lt (by omega)]
        exact hdrop
      · dsimp only
        rw [leValue_set_int hrem', leValue_take_succ_int hj']
        linear_combination hval + (256 : Int) ^ (qi + j) * hx)
  dsimp only at hlen hdrop hcarry hborrow hval
  have hrem' : qi + dlen < rem'.length := by omega
  have hold := rem'[qi + dlen].toNat_lt
  obtain ⟨t, ht⟩ : ∃ t : Int, t = rem'[qi + dlen].toNat - carry - borrow := ⟨_, rfl⟩
  refine ⟨rem'.set (qi + dlen) (.ofNat (t % 256).toNat), t < 0, ?_, (List.length_set ..).trans hlen,
    ?_, ?_⟩
  · rw [subtract, heq]
    change (rem'[qi + dlen]?).bind _ = _
    rw [getElem?_of_lt hrem', Option.bind_some]
    change (put rem' (qi + dlen) _).bind _ = _
    rw [put_eq hrem', ht]
    rfl
  · rw [List.drop_set_of_lt (by omega)]
    exact hdrop
  · have hx := toNat_ofInt_byte (t := t) (by omega) (by omega)
    rw [leValue_set_int hrem', hx]
    simp only [decide_eq_true_eq]
    linear_combination hval + (256 : Int) ^ (qi + dlen) * ht

/-- The divisor added back, modulo what the bytes up to `qi + dlen` hold. -/
theorem addBack_spec (qi : Nat) (hdn : dlen ≤ dn.length) (hrem : qi + dlen < rem.length) :
    ∃ rem' o, addBack dn dlen qi rem = some rem' ∧ rem'.length = rem.length ∧
      rem'.drop (qi + dlen + 1) = rem.drop (qi + dlen + 1) ∧
      leValue rem' + o * 256 ^ (qi + dlen + 1) =
        leValue rem + leValue (dn.take dlen) * 256 ^ qi := by
  obtain ⟨⟨rem', c⟩, heq, hlen, hdrop, hc, hval⟩ := forUp_spec (addByte dn qi)
    (fun j t => t.1.length = rem.length ∧
      t.1.drop (qi + dlen + 1) = rem.drop (qi + dlen + 1) ∧ t.2 ≤ 1 ∧
      (leValue t.1 + t.2 * 256 ^ (qi + j) : Int) = leValue rem + leValue (dn.take j) * 256 ^ qi)
    (dlen) ((rem, 0)) ⟨rfl, rfl, Nat.zero_le _, by simp⟩ (by
      rintro j ⟨rem', c⟩ hj ⟨hlen, hdrop, hc, hval⟩
      dsimp only at hlen hdrop hc hval
      have hj' : j < dn.length := by omega
      have hrem' : qi + j < rem'.length := by omega
      have hold := rem'[qi + j].toNat_lt
      have hdj := dn[j].toNat_lt
      obtain ⟨u, hu⟩ : ∃ u, u = rem'[qi + j].toNat + dn[j].toNat + c := ⟨_, rfl⟩
      refine ⟨(rem'.set (qi + j) (.ofNat u), u >>> 8), ?_, (List.length_set ..).trans hlen, ?_, ?_,
        ?_⟩
      · rw [addByte]
        dsimp only
        rw [getElem?_of_lt hj', getElem?_of_lt hrem', hu]
        change (put rem' (qi + j) _).bind _ = _
        rw [put_eq hrem']
        rfl
      · rw [List.drop_set_of_lt (by omega)]
        exact hdrop
      · rw [Nat.shiftRight_eq_div_pow]
        omega
      · have hmod := congrArg (Nat.cast (R := Int)) (Nat.div_add_mod u 256)
        have hu' := congrArg (Nat.cast (R := Int)) hu
        dsimp only
        rw [leValue_set_int hrem', leValue_take_succ_int hj', toNat_ofNat_byte,
          Nat.shiftRight_eq_div_pow]
        push_cast at hmod hu' ⊢
        linear_combination hval + (256 : Int) ^ (qi + j) * hmod + (256 : Int) ^ (qi + j) * hu')
  dsimp only at hlen hdrop hc hval
  have hrem' : qi + dlen < rem'.length := by omega
  obtain ⟨u, hu⟩ : ∃ u, u = rem'[qi + dlen].toNat + c := ⟨_, rfl⟩
  refine ⟨rem'.set (qi + dlen) (.ofNat u), u / 256, ?_, (List.length_set ..).trans hlen, ?_, ?_⟩
  · rw [addBack, heq]
    change (rem'[qi + dlen]?).bind _ = _
    rw [getElem?_of_lt hrem', Option.bind_some, hu]
    exact put_eq hrem' _
  · rw [List.drop_set_of_lt (by omega)]
    exact hdrop
  · have hmod := congrArg (Nat.cast (R := Int)) (Nat.div_add_mod u 256)
    have hu' := congrArg (Nat.cast (R := Int)) hu
    zify
    rw [leValue_set_int hrem', toNat_ofNat_byte]
    push_cast at hmod hu' ⊢
    linear_combination hval + (256 : Int) ^ (qi + dlen) * hmod + (256 : Int) ^ (qi + dlen) * hu'

/-- What a turn is given and finds in its arrays, as numbers: `v` is the divisor, `V` the dividend,
and `P` stands for the bytes below the first two of the divisor. -/
theorem digits_of_turn {v V : Nat} (hdlen : 2 ≤ dlen) (hv : v < 256 ^ dlen)
    (hV : V < v * 256 ^ (qi + 1)) :
    V / 256 ^ (qi + dlen) % 256 = V / 256 ^ (qi + dlen - 2) / 65536 ∧
      V / 256 ^ (qi + dlen - 1) % 256 = V / 256 ^ (qi + dlen - 2) / 256 % 256 ∧
      v / 256 ^ (dlen - 1) % 256 = v / 256 ^ (dlen - 2) / 256 ∧
      V / 256 ^ (qi + dlen - 2) < 256 * (v / 256 ^ (dlen - 2) + 1) := by
  obtain ⟨m, rfl⟩ : ∃ m, dlen = m + 2 := ⟨dlen - 2, by omega⟩
  have hqi : qi + (m + 2) - 2 = qi + m := by omega
  have hqi' : qi + (m + 2) - 1 = qi + m + 1 := by omega
  have hpos : 0 < 256 ^ m := Nat.pow_pos (by decide)
  have hposq : 0 < 256 ^ (qi + m) := Nat.pow_pos (by decide)
  have hv' : v / 256 ^ m < 65536 := by
    rw [Nat.div_lt_iff_lt_mul hpos]
    exact hv.trans_eq (by ring)
  have hvlt : v < (v / 256 ^ m + 1) * 256 ^ m := by
    rw [Nat.mul_comm]
    exact Nat.lt_mul_div_succ v hpos
  have hV' : V / 256 ^ (qi + m) < 256 * (v / 256 ^ m + 1) := by
    rw [Nat.div_lt_iff_lt_mul hposq]
    calc V < v * 256 ^ (qi + 1) := hV
      _ ≤ (v / 256 ^ m + 1) * 256 ^ m * 256 ^ (qi + 1) := Nat.mul_le_mul_right _ hvlt.le
      _ = 256 * (v / 256 ^ m + 1) * 256 ^ (qi + m) := by ring
  rw [hqi, hqi', Nat.add_sub_cancel, show m + 2 - 1 = m + 1 by omega, pow_succ, pow_succ,
    ← Nat.div_div_eq_div_mul, ← Nat.div_div_eq_div_mul, show qi + (m + 2) = qi + m + 1 + 1 by omega,
    pow_succ, pow_succ, ← Nat.div_div_eq_div_mul, ← Nat.div_div_eq_div_mul]
  generalize V / 256 ^ (qi + m) = X at hV' ⊢
  generalize v / 256 ^ m = Y at hv' hV' ⊢
  refine ⟨?_, rfl, ?_, hV'⟩ <;> omega

/-- The estimate of a turn is the byte of the quotient, or 1 more. -/
theorem correct_turn {v V : Nat} (hdlen : 2 ≤ dlen) (hv : v < 256 ^ dlen)
    (hnorm : 128 * 256 ^ (dlen - 1) ≤ v) (hV : V < v * 256 ^ (qi + 1)) :
    let dh := v / 256 ^ (dlen - 1) % 256
    let num := V / 256 ^ (qi + dlen) % 256 * 256 + V / 256 ^ (qi + dlen - 1) % 256
    ∃ k, correct dh (v / 256 ^ (dlen - 2) % 256) (V / 256 ^ (qi + dlen - 2) % 256) 3 (num / dh)
        (num % dh) = some k ∧ V / (v * 256 ^ qi) ≤ k ∧ k ≤ 255 ∧ k ≤ V / (v * 256 ^ qi) + 1 := by
  intro dh num
  obtain ⟨hr1, hr2, hdh, hXY⟩ := digits_of_turn hdlen hv hV
  have hP : 0 < 256 ^ (dlen - 2) := Nat.pow_pos (by decide)
  have hQ : 0 < 256 ^ qi := Nat.pow_pos (by decide)
  have hpow : 256 ^ (qi + dlen - 2) = 256 ^ (dlen - 2) * 256 ^ qi := by
    rw [← Nat.pow_add]
    congr 1
    omega
  have hvpos : 0 < v := by
    have := Nat.pow_pos (n := dlen - 1) (by decide : 0 < 256)
    omega
  have hnorm' : 128 * 256 ≤ v / 256 ^ (dlen - 2) := by
    rw [Nat.le_div_iff_mul_le hP]
    refine le_trans (le_of_eq ?_) hnorm
    rw [show dlen - 1 = dlen - 2 + 1 by omega, pow_succ]
    ring
  have hY : v / 256 ^ (dlen - 2) < 65536 := by
    rw [Nat.div_lt_iff_lt_mul hP]
    refine hv.trans_eq ?_
    rw [show (65536 : Nat) = 256 ^ 2 by decide, ← Nat.pow_add]
    congr 1
    omega
  -- the quotient
  have hq1 : V / (v * 256 ^ qi) * (v * 256 ^ qi) ≤ V := Nat.div_mul_le_self ..
  have hq2 : V < (V / (v * 256 ^ qi) + 1) * (v * 256 ^ qi) := by
    rw [Nat.mul_comm]
    exact Nat.lt_mul_div_succ V (Nat.mul_pos hvpos hQ)
  have hq255 : V / (v * 256 ^ qi) ≤ 255 := by
    refine Nat.le_of_lt_succ ((Nat.div_lt_iff_lt_mul (Nat.mul_pos hvpos hQ)).mpr ?_)
    exact hV.trans_eq (by ring)
  -- the first bytes of the divisor and the dividend
  have hv1 : v / 256 ^ (dlen - 2) * 256 ^ (qi + dlen - 2) ≤ v * 256 ^ qi := by
    rw [hpow, ← Nat.mul_assoc]
    exact Nat.mul_le_mul_right _ (Nat.div_mul_le_self ..)
  have hv2 : v * 256 ^ qi < (v / 256 ^ (dlen - 2) + 1) * 256 ^ (qi + dlen - 2) := by
    rw [hpow, ← Nat.mul_assoc]
    refine Nat.mul_lt_mul_of_pos_right ?_ hQ
    rw [Nat.mul_comm]
    exact Nat.lt_mul_div_succ v hP
  have hu1 : V / 256 ^ (qi + dlen - 2) * 256 ^ (qi + dlen - 2) ≤ V := Nat.div_mul_le_self ..
  have hu2 : V < (V / 256 ^ (qi + dlen - 2) + 1) * 256 ^ (qi + dlen - 2) := by
    rw [Nat.mul_comm]
    exact Nat.lt_mul_div_succ V (Nat.pow_pos (by decide))
  have hlow := quotient_mul_le hq1 hv1 hu2
  have hdh' : dh = v / 256 ^ (dlen - 2) / 256 := hdh
  have hnum : num = V / 256 ^ (qi + dlen - 2) / 256 := by
    change _ * 256 + _ = _
    rw [hr1, hr2]
    omega
  obtain ⟨k, hk, hqk, hk255, hkX⟩ := correct_of_digits hdh' hnum hY hnorm' hXY hq255 hlow
  exact ⟨k, hk, hqk, hk255, estimate_le hq2 hv2 hu1 hkX (by omega)⟩

/-- What the subtraction and the addition come to, where `R` is what is left by the divisor `D`, and
`E` is 1 more than what the bytes hold. -/
theorem remainder_of_borrow {V V₁ D E k : Nat} {borrow : Bool} (hD : 0 < D) (hDE : D < E)
    (hV₁ : V₁ < E) (hk : V / D ≤ k) (hk' : k ≤ V / D + 1)
    (hval : (V₁ : Int) = V - k * D + (if borrow then 1 else 0) * E) :
    (borrow = false → V₁ = V % D) ∧
      (borrow = true → ∀ V₂ o : Nat, V₂ < E → V₂ + o * E = V₁ + D → V₂ = V % D) := by
  have hdiv := Nat.div_add_mod V D
  have hmod := Nat.mod_lt V hD
  have hcases : k = V / D ∨ k = V / D + 1 := by omega
  generalize V / D = q at *
  generalize V % D = R at *
  have hdiv' := congrArg (Nat.cast (R := Int)) hdiv
  push_cast at hdiv'
  rcases hcases with rfl | rfl
  · have hR : (V₁ : Int) = R + (if borrow then 1 else 0) * E := by
      rw [hval]
      linear_combination -hdiv'
    refine ⟨?_, ?_⟩
    · rintro rfl
      simpa using hR
    · rintro rfl
      simp at hR
      omega
  · have hR : (V₁ : Int) = R - D + (if borrow then 1 else 0) * E := by
      rw [hval]
      push_cast
      linear_combination -hdiv'
    refine ⟨?_, ?_⟩
    · rintro rfl
      simp at hR
      omega
    · rintro rfl V₂ o hV₂ hsum
      simp at hR
      have ho : o = 1 := by
        rcases Nat.lt_or_ge o 1 with h | h
        · obtain rfl : o = 0 := by omega
          omega
        · by_contra hne
          have := Nat.mul_le_mul_right E (by omega : 2 ≤ o)
          omega
      subst ho
      omega

/-- **A turn**: the dividend becomes its remainder by the shifted divisor. -/
theorem modTurn_spec (qi : Nat) {v : Nat} (hv : leValue (dn.take dlen) = v) (hdn : dlen ≤ dn.length)
    (hdlen : 2 ≤ dlen) (hnorm : 128 * 256 ^ (dlen - 1) ≤ v) (hrem : qi + dlen < rem.length)
    (hV : leValue rem < v * 256 ^ (qi + 1)) :
    ∃ rem', modTurn dn dlen (v / 256 ^ (dlen - 1) % 256) (v / 256 ^ (dlen - 2) % 256) qi rem =
        some rem' ∧ rem'.length = rem.length ∧ leValue rem' = leValue rem % (v * 256 ^ qi) := by
  have hvlt : v < 256 ^ dlen := by
    have := leValue_lt (dn.take dlen)
    rwa [List.length_take_of_le hdn, hv] at this
  obtain ⟨k, hk, hqk, hk255, hkq⟩ := correct_turn hdlen hvlt hnorm hV
  have h1 : qi + dlen - 1 < rem.length := by omega
  have h2 : qi + dlen - 2 < rem.length := by omega
  obtain ⟨rem₁, borrow, hsub, hlen, hdrop, hval⟩ := subtract_spec qi hdn hrem hk255
  have hvQ : v * 256 ^ qi < 256 ^ (qi + dlen + 1) := by
    have hQ : 0 < 256 ^ qi := Nat.pow_pos (by decide)
    calc v * 256 ^ qi < 256 ^ dlen * 256 ^ qi := Nat.mul_lt_mul_of_pos_right hvlt hQ
      _ = 256 ^ (qi + dlen) := by rw [Nat.mul_comm, Nat.pow_add]
      _ ≤ 256 ^ (qi + dlen + 1) := Nat.pow_le_pow_right (by decide) (Nat.le_succ _)
  have hvpos : 0 < v := by
    have := Nat.pow_pos (n := dlen - 1) (by decide : 0 < 256)
    omega
  -- above `qi + dlen` there are zeros, which stay
  have hzero : leValue (rem.drop (qi + dlen + 1)) = 0 := by
    rw [leValue_drop]
    refine Nat.div_eq_of_lt (hV.trans ?_)
    calc v * 256 ^ (qi + 1) < 256 ^ dlen * 256 ^ (qi + 1) :=
          Nat.mul_lt_mul_of_pos_right hvlt (Nat.pow_pos (by decide))
      _ = 256 ^ (qi + dlen + 1) := by ring
  have hlt₁ : leValue rem₁ < 256 ^ (qi + dlen + 1) := leValue_lt_of_drop (hdrop ▸ hzero)
  obtain ⟨hfalse, htrue⟩ := remainder_of_borrow (Nat.mul_pos hvpos (Nat.pow_pos (by decide))) hvQ
    hlt₁ hqk hkq (by rw [hval, hv]; push_cast; rfl)
  have hturn : modTurn dn dlen (v / 256 ^ (dlen - 1) % 256) (v / 256 ^ (dlen - 2) % 256) qi rem =
      if borrow then addBack dn dlen qi rem₁ else some rem₁ := by
    rw [modTurn, getElem?_of_lt hrem, getElem?_of_lt h1, getElem?_of_lt h2]
    simp only [Option.bind_eq_bind, Option.bind_some]
    rw [toNat_getElem _ hrem, toNat_getElem _ h1, toNat_getElem _ h2, hk, Option.bind_some, hsub,
      Option.bind_some]
    rfl
  rw [hturn]
  cases borrow with
  | false => exact ⟨rem₁, rfl, hlen, hfalse rfl⟩
  | true =>
    obtain ⟨rem₂, o, hadd, hlen₂, hdrop₂, hval₂⟩ := addBack_spec qi hdn (hlen ▸ hrem)
    have hlt₂ : leValue rem₂ < 256 ^ (qi + dlen + 1) :=
      leValue_lt_of_drop (by rw [hdrop₂, hdrop, hzero])
    rw [hv] at hval₂
    exact ⟨rem₂, hadd, hlen₂.trans hlen, htrue rfl _ o hlt₂ hval₂⟩

/-! ## The parts of `modBytes` -/

theorem shiftDividend_spec (ha : alen ≤ a.length) (hrem : rem.length = alen + 2) (hs : s ≤ 7) :
    ∃ rem', shiftDividend rem a alen s = some rem' ∧ rem'.length = alen + 2 ∧
      leValue (rem'.take (alen + 1)) = leValue (a.take alen) * 2 ^ s := by
  rw [shiftDividend]
  split
  next =>
    obtain ⟨rem', heq, hlen, hval⟩ := shlBytes_spec ha (by omega : alen < rem.length) hs
    exact ⟨rem', heq, hlen.trans hrem, hval⟩
  next h0 =>
    obtain rfl : s = 0 := by omega
    have hlen : (a.take alen ++ rem.drop alen).length = alen + 2 := by
      rw [List.length_append, List.length_take_of_le ha, List.length_drop]
      omega
    refine ⟨(a.take alen ++ rem.drop alen).set alen 0, ?_, (List.length_set ..).trans hlen, ?_⟩
    · rw [memcpy_spec ha (by omega), Option.bind_some, put_eq (by omega)]
    · rw [leValue_take_set (by omega), List.take_left' (List.length_take_of_le ha)]
      simp

theorem shiftDivisor_spec (hd : dlen ≤ d.length) (hdn : dn.length = dlen + 1) (hs : s ≤ 7)
    (hlt : leValue (d.take dlen) * 2 ^ s < 256 ^ dlen) :
    ∃ dn', shiftDivisor dn d dlen s = some dn' ∧ dn'.length = dlen + 1 ∧
      leValue (dn'.take dlen) = leValue (d.take dlen) * 2 ^ s := by
  rw [shiftDivisor]
  split
  next =>
    obtain ⟨dn', heq, hlen, hval⟩ := shlBytes_spec hd (by omega : dlen < dn.length) hs
    refine ⟨dn', heq, hlen.trans hdn, ?_⟩
    have htake := leValue_take (dn'.take (dlen + 1)) dlen
    rwa [List.take_take, Nat.min_eq_left (Nat.le_succ dlen), hval, Nat.mod_eq_of_lt hlt] at htake
  next h0 =>
    obtain rfl : s = 0 := by omega
    refine ⟨_, memcpy_spec hd (by omega), ?_, ?_⟩
    · rw [List.length_append, List.length_take_of_le hd, List.length_drop]
      omega
    · rw [List.take_left' (List.length_take_of_le hd), Nat.pow_zero, Nat.mul_one]

theorem unshift_spec (hrem : dlen ≤ rem.length) (hs : s ≤ 7) :
    ∃ rem', unshift rem dlen s = some rem' ∧ rem'.length = rem.length ∧
      leValue (rem'.take dlen) = leValue (rem.take dlen) / 2 ^ s := by
  rw [unshift]
  split
  next => exact shrBytes_spec hrem hs
  next h0 =>
    obtain rfl : s = 0 := by omega
    exact ⟨rem, rfl, rfl, by rw [Nat.pow_zero, Nat.div_one]⟩

/-- The loop over the bytes of the quotient. -/
theorem modTurns_spec {v A : Nat} (hv : leValue (dn.take dlen) = v) (hdn : dlen ≤ dn.length)
    (hdlen : 2 ≤ dlen) (hnorm : 128 * 256 ^ (dlen - 1) ≤ v) (hrem : n + dlen ≤ rem.length)
    (hA : leValue rem = A) (hlt : A < v * 256 ^ n) :
    ∃ rem', forDown (modTurn dn dlen (v / 256 ^ (dlen - 1) % 256) (v / 256 ^ (dlen - 2) % 256)) n
        rem = some rem' ∧ rem'.length = rem.length ∧ leValue rem' = A % v := by
  obtain ⟨rem', heq, hlen, hval⟩ := forDown_spec
    (modTurn dn dlen (v / 256 ^ (dlen - 1) % 256) (v / 256 ^ (dlen - 2) % 256))
    (fun i rem' => rem'.length = rem.length ∧ leValue rem' = A % (v * 256 ^ i))
    n rem ⟨rfl, by rw [hA, Nat.mod_eq_of_lt hlt]⟩ (by
      rintro i rem' hi ⟨hlen, hval⟩
      have hpos : 0 < v * 256 ^ (i + 1) := by
        have := Nat.pow_pos (n := dlen - 1) (by decide : 0 < 256)
        exact Nat.mul_pos (by omega) (Nat.pow_pos (by decide))
      obtain ⟨rem'', heq, hlen', hval'⟩ := modTurn_spec i hv hdn hdlen hnorm
        (by omega : i + dlen < rem'.length) (hval ▸ Nat.mod_lt _ hpos)
      refine ⟨rem'', heq, hlen'.trans hlen, ?_⟩
      rw [hval', hval, Nat.mod_mod_of_dvd]
      exact Nat.mul_dvd_mul_left v (Nat.pow_dvd_pow 256 (Nat.le_succ i)))
  exact ⟨rem', heq, hlen, by rwa [Nat.pow_zero, Nat.mul_one] at hval⟩

/-- The shift makes the highest byte of the divisor 128 or more, and keeps its length. -/
theorem shift_divisor_bounds {D top P s : Nat} (hlo : 128 ≤ top * 2 ^ s)
    (hhi : (top + 1) * 2 ^ s ≤ 256) (htop : top * P ≤ D) (hD : D < (top + 1) * P) :
    128 * P ≤ D * 2 ^ s ∧ D * 2 ^ s < 256 * P := by
  have hpow : 0 < 2 ^ s := Nat.two_pow_pos s
  constructor
  · calc 128 * P ≤ top * 2 ^ s * P := Nat.mul_le_mul_right P hlo
      _ = top * P * 2 ^ s := by ring
      _ ≤ D * 2 ^ s := Nat.mul_le_mul_right _ htop
  · calc D * 2 ^ s < (top + 1) * P * 2 ^ s := Nat.mul_lt_mul_of_pos_right hD hpow
      _ = (top + 1) * 2 ^ s * P := by ring
      _ ≤ 256 * P := Nat.mul_le_mul_right P hhi

theorem modLong_spec (junk : Nat → UInt8) (ha : alen ≤ a.length) (hd : dlen ≤ d.length)
    (hdlen : 2 ≤ dlen) (hle : dlen ≤ alen) (hdim : dlen ≤ dim)
    (htop : leValue (d.take dlen) / 256 ^ (dlen - 1) ≠ 0) :
    ∃ r, modLong junk (List.replicate dim 0) a alen d dlen = some r ∧ r.length = dim ∧
      leValue r = leValue (a.take alen) % leValue (d.take dlen) := by
  have htop' : dlen - 1 < d.length := by omega
  have hpow : 256 ^ dlen = 256 * 256 ^ (dlen - 1) := by
    rw [← pow_succ']
    congr 1
    omega
  have hQ : 0 < 256 ^ (dlen - 1) := Nat.pow_pos (by decide)
  have hD := leValue_lt (d.take dlen)
  have hA := leValue_lt (a.take alen)
  rw [List.length_take_of_le hd] at hD
  rw [List.length_take_of_le ha] at hA
  have hbyte : d[dlen - 1].toNat = leValue (d.take dlen) / 256 ^ (dlen - 1) := by
    rw [toNat_getElem_of_take htop' (by omega : dlen - 1 < dlen), Nat.mod_eq_of_lt]
    rw [Nat.div_lt_iff_lt_mul hQ]
    exact hpow ▸ hD
  obtain ⟨hs, hlo, hhi⟩ := normShift_spec d[dlen - 1] fun h => htop (by rw [← hbyte, h]; rfl)
  rw [hbyte] at hs hlo hhi
  obtain ⟨hnorm, hlt⟩ := shift_divisor_bounds hlo hhi (Nat.div_mul_le_self ..)
    (by rw [Nat.mul_comm]; exact Nat.lt_mul_div_succ _ hQ)
  rw [← hpow] at hlt
  rw [modLong, getElem?_of_lt htop']
  simp only [Option.bind_eq_bind, Option.bind_some]
  rw [hbyte]
  generalize normShift 8 (leValue (d.take dlen) / 256 ^ (dlen - 1)) = s at *
  have hjunk : ((List.range (alen + 2)).map junk).length = alen + 2 := by simp
  have hjunk' : ((List.range' (alen + 2) (dlen + 1)).map junk).length = dlen + 1 := by simp
  obtain ⟨rem, hrem, hremlen, hremval⟩ := shiftDividend_spec ha hjunk hs
  obtain ⟨dn, hdn, hdnlen, hdnval⟩ := shiftDivisor_spec hd hjunk' hs hlt
  have hdn1 : dlen - 1 < dn.length := by omega
  have hdn2 : dlen - 2 < dn.length := by omega
  rw [hrem, Option.bind_some, hdn, Option.bind_some, put_eq (by omega), Option.bind_some,
    getElem?_of_lt hdn1, Option.bind_some, getElem?_of_lt hdn2, Option.bind_some,
    toNat_getElem_of_take hdn1 (by omega : dlen - 1 < dlen),
    toNat_getElem_of_take hdn2 (by omega : dlen - 2 < dlen), hdnval]
  have hval : leValue (rem.set (alen + 1) 0) = leValue (a.take alen) * 2 ^ s := by
    have htake := leValue_take_set (by omega : alen + 1 < rem.length) 0
    rw [List.take_of_length_le (by rw [List.length_set]; omega), hremval] at htake
    simpa using htake
  obtain ⟨rem', hturns, hlen', hval'⟩ := modTurns_spec (n := alen - dlen + 1) hdnval (by omega)
    hdlen hnorm (by rw [List.length_set]; omega) hval (by
      calc leValue (a.take alen) * 2 ^ s < 256 ^ alen * 128 := by
            refine Nat.mul_lt_mul_of_lt_of_le hA ?_ (by decide)
            exact Nat.pow_le_pow_right (by decide : 0 < 2) hs
        _ ≤ 256 ^ (dlen - 1 + (alen - dlen + 1)) * 128 :=
            Nat.mul_le_mul_right _ (Nat.pow_le_pow_right (by decide) (by omega))
        _ = 128 * 256 ^ (dlen - 1) * 256 ^ (alen - dlen + 1) := by ring
        _ ≤ _ := Nat.mul_le_mul_right _ hnorm)
  rw [hturns, Option.bind_some]
  rw [List.length_set] at hlen'
  obtain ⟨rem'', hunshift, hlen'', hval''⟩ := unshift_spec (by omega : dlen ≤ rem'.length) hs
  rw [hunshift, Option.bind_some,
    memcpy_spec (by omega) (by rw [List.length_replicate]; exact hdim), List.drop_replicate]
  refine ⟨_, rfl, ?_, ?_⟩
  · rw [List.length_append, List.length_replicate, List.length_take_of_le (by omega)]
    omega
  · have hmod : leValue rem' < 256 ^ dlen := by
      rw [hval']
      exact (Nat.mod_lt _ (by omega)).trans hlt
    rw [leValue_append_zeros, hval'', leValue_take, Nat.mod_eq_of_lt hmod, hval',
      Nat.mul_mod_mul_right, Nat.mul_div_cancel _ (Nat.two_pow_pos s)]

theorem modShort_spec (ha : alen ≤ a.length) (hd : d ≠ []) (h0 : 0 < dim)
    (hne : leValue (d.take 1) ≠ 0) :
    ∃ r, modShort (List.replicate dim 0) a alen d = some r ∧ r.length = dim ∧
      leValue r = leValue (a.take alen) % leValue (d.take 1) := by
  obtain ⟨x, d, rfl⟩ := List.exists_cons_of_ne_nil hd
  have hx : leValue ((x :: d).take 1) = x.toNat := by simp [leValue]
  rw [hx] at hne ⊢
  obtain ⟨acc, heq, hacc, hval⟩ := forDown_spec
    (fun i acc => do return (acc * 256 + (← a[i]?).toNat) % (← (x :: d)[0]?).toNat)
    (fun i acc => acc < 256 ∧ acc = leValue ((a.take alen).drop i) % x.toNat) alen 0
    ⟨by decide, by
      rw [List.drop_eq_nil_of_le (List.length_take_le ..)]
      exact (Nat.zero_mod _).symm⟩ (by
      rintro i acc hi ⟨hlt, rfl⟩
      have hi' : i < a.length := by omega
      have hi'' : i < (a.take alen).length := by
        rw [List.length_take_of_le ha]
        exact hi
      refine ⟨_, by rw [getElem?_of_lt hi']; rfl, ?_, ?_⟩
      · exact (Nat.mod_lt _ (Nat.pos_of_ne_zero hne)).trans x.toNat_lt
      · rw [List.drop_eq_getElem_cons hi'', leValue, List.getElem_take, Nat.add_comm, Nat.add_mod,
          Nat.mul_mod, Nat.mod_mod, ← Nat.mul_mod, ← Nat.add_mod, Nat.mul_comm])
  rw [List.drop_zero] at hval
  refine ⟨(List.replicate dim 0).set 0 (.ofNat acc), ?_, ?_, ?_⟩
  · rw [modShort, heq]
    exact put_eq (by rw [List.length_replicate]; exact h0) _
  · rw [List.length_set, List.length_replicate]
  · have hset := leValue_set (by rw [List.length_replicate]; exact h0 :
      0 < (List.replicate dim (0 : UInt8)).length) (.ofNat acc)
    rw [leValue_replicate_zero, toNat_ofNat_byte, Nat.mod_eq_of_lt hacc] at hset
    simpa [← hval] using hset

/-- **`modBytes`** computes the remainder, and stays in its arrays. -/
theorem modBytes_spec (junk : Nat → UInt8) (ha : alen ≤ a.length) (hd : dlen ≤ d.length)
    (hdlen : 1 ≤ dlen) (hdim : dlen ≤ dim)
    (htop : leValue (d.take dlen) / 256 ^ (dlen - 1) ≠ 0) :
    ∃ r, modBytes junk dim a alen d dlen = some r ∧ r.length = dim ∧
      leValue r = leValue (a.take alen) % leValue (d.take dlen) := by
  rw [modBytes]
  split
  next h0 =>
    refine ⟨_, rfl, List.length_replicate, ?_⟩
    rw [leValue_replicate_zero, h0]
    exact (Nat.zero_mod _).symm
  obtain ⟨less, hless, hlt, hge⟩ := isLess_spec ha hd hdlen htop
  rw [hless]
  simp only [Option.bind_eq_bind, Option.bind_some]
  cases less with
  | true =>
    obtain ⟨hle, hlt⟩ := hlt rfl
    rw [if_pos rfl, memcpy_spec ha (by rw [List.length_replicate]; omega), List.drop_replicate]
    refine ⟨_, rfl, ?_, ?_⟩
    · rw [List.length_append, List.length_replicate, List.length_take_of_le ha]
      omega
    · rw [leValue_append_zeros, Nat.mod_eq_of_lt hlt]
  | false =>
    rw [if_neg nofun]
    split
    next h1 =>
      subst h1
      refine modShort_spec ha (fun h => ?_) hdim fun h => htop (by rw [h]; rfl)
      rw [h] at hd
      exact absurd hd (by decide)
    next h1 => exact modLong_spec junk ha hd (by omega) (hge rfl) hdim htop

end FluxCore.Bignum
