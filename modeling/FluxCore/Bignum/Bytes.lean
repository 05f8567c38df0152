import FluxCore.Lib.Digits
import FluxCore.Lib.Loops
import Mathlib.Tactic.IntervalCases
import Mathlib.Tactic.Linarith
import Mathlib.Tactic.LinearCombination

/-!
# Products and remainders of byte arrays

The static functions of `ulong` that `pow_mod` is made of. They work on arrays of bytes, the least
significant one first; a read or a write that is out of range makes them `none`. What is of type
`unsigned` or `int` here stays below `2 ^ 18`.
-/

namespace FluxCore.Bignum

/-! ## The functions -/

/-- `i < n ? bs[i] : 0`. -/
def byteOrZero (bs : List UInt8) (n i : Nat) : Option UInt8 := if i < n then bs[i]? else some 0

/-- A byte of the inner loop of `mulBytes`, where `ai` is `a[i]`. -/
def mulByte (dim : Nat) (ai : UInt8) (b : List UInt8) (i j : Nat) (s : List UInt8 × Nat) :
    Option (List UInt8 × Nat) := do
  let (prod, carry) := s
  let bj ← byteOrZero b dim j
  let old ← prod[i + j]?
  let cur := old.toNat + ai.toNat * bj.toNat + carry
  let prod ← put prod (i + j) (.ofNat cur)
  return (prod, cur >>> 8)

/-- `mulBytes`, which fills `prod` with zeros first. -/
def mulBytes (dim : Nat) (a b : List UInt8) : Option (List UInt8) :=
  forUp (fun i prod => do
    let ai ← a[i]?
    if ai = 0 then return prod
    let (prod, _) ← forUp (mulByte dim ai b i) (dim + 1) (prod, 0)
    return prod) dim (List.replicate (2 * dim) 0)

/-- `memcpy(dst, src, n)`. -/
def memcpy (dst src : List UInt8) (n : Nat) : Option (List UInt8) :=
  forUp (fun i dst => do put dst i (← src[i]?)) n dst

def shlBytes (dst src : List UInt8) (n s : Nat) : Option (List UInt8) := do
  let (dst, carry) ← forUp (fun i (dst, carry) => do
    let b ← src[i]?
    let v := (b.toNat <<< s) ||| carry
    return (← put dst i (.ofNat v), v >>> 8)) n (dst, 0)
  put dst n (.ofNat carry)

def shrBytes (buf : List UInt8) (n s : Nat) : Option (List UInt8) :=
  if s = 0 then some buf
  else
    forUp (fun i buf => do
      let hi ← byteOrZero buf n (i + 1)
      let b ← buf[i]?
      put buf i (.ofNat ((b.toNat >>> s) ||| (hi.toNat <<< (8 - s))))) n buf

def cmpBytes (a b : List UInt8) : Nat → Option Int
  | 0 => some 0
  | n + 1 => do
    let x ← a[n]?
    let y ← b[n]?
    if x = y then cmpBytes a b n else return if x < y then -1 else 1

/-- The loop that counts by how many bits a byte is shifted until its highest bit is set. -/
def normShift : Nat → Nat → Nat
  | 0, _ => 0
  | fuel + 1, t => if t &&& 0x80 = 0 then normShift fuel (t <<< 1) + 1 else 0

/-- The loop that corrects the estimate `qhat` of a byte of the quotient, of which `rhat` is the
remainder; it goes on no more often than twice. -/
def correct (dh dh2 r3 : Nat) : Nat → Nat → Nat → Option Nat
  | 0, _, _ => none
  | fuel + 1, qhat, rhat =>
    if 256 ≤ qhat ∨ rhat * 256 + r3 < qhat * dh2 then
      if 256 ≤ rhat + dh then some (qhat - 1) else correct dh dh2 r3 fuel (qhat - 1) (rhat + dh)
    else some qhat

/-- `rem[qi + j]` in the loop that subtracts `qhat * dn`. -/
def subByte (dn : List UInt8) (qhat qi j : Nat) (s : List UInt8 × Nat × Nat) :
    Option (List UInt8 × Nat × Nat) := do
  let (rem, carry, borrow) := s
  let p := qhat * (← dn[j]?).toNat + carry
  let t : Int := (← rem[qi + j]?).toNat - (p % 256 : Nat) - borrow
  let rem ← put rem (qi + j) (.ofNat (t % 256).toNat)
  return (rem, p >>> 8, if t < 0 then 1 else 0)

/-- `rem[qi + j]` in the loop that adds `dn` back. -/
def addByte (dn : List UInt8) (qi j : Nat) (s : List UInt8 × Nat) : Option (List UInt8 × Nat) := do
  let (rem, c) := s
  let u := (← rem[qi + j]?).toNat + (← dn[j]?).toNat + c
  return (← put rem (qi + j) (.ofNat u), u >>> 8)

/-- `rem -= qhat * dn << (8 * qi)`, and whether something is borrowed. -/
def subtract (dn : List UInt8) (dlen qhat qi : Nat) (rem : List UInt8) :
    Option (List UInt8 × Bool) := do
  let (rem, carry, borrow) ← forUp (subByte dn qhat qi) dlen (rem, 0, 0)
  let t : Int := (← rem[qi + dlen]?).toNat - carry - borrow
  return (← put rem (qi + dlen) (.ofNat (t % 256).toNat), t < 0)

/-- `rem += dn << (8 * qi)`. -/
def addBack (dn : List UInt8) (dlen qi : Nat) (rem : List UInt8) : Option (List UInt8) := do
  let (rem, c) ← forUp (addByte dn qi) dlen (rem, 0)
  put rem (qi + dlen) (.ofNat ((← rem[qi + dlen]?).toNat + c))

/-- A turn of the loop of `modBytes` over the bytes of the quotient. -/
def modTurn (dn : List UInt8) (dlen dh dh2 qi : Nat) (rem : List UInt8) : Option (List UInt8) := do
  let num := (← rem[qi + dlen]?).toNat * 256 + (← rem[qi + dlen - 1]?).toNat
  let qhat ← correct dh dh2 (← rem[qi + dlen - 2]?).toNat 3 (num / dh) (num % dh)
  let (rem, borrow) ← subtract dn dlen qhat qi rem
  if borrow then addBack dn dlen qi rem else return rem

/-- The test of `modBytes` for a dividend that is less than the divisor. -/
def isLess (a : List UInt8) (alen : Nat) (d : List UInt8) (dlen : Nat) : Option Bool :=
  if alen < dlen then some true
  else if alen = dlen then (cmpBytes a d alen).map (· < 0)
  else some false

/-- The case of a divisor of one byte. -/
def modShort (r a : List UInt8) (alen : Nat) (d : List UInt8) : Option (List UInt8) := do
  let acc ← forDown (fun i acc => do
    return (acc * 256 + (← a[i]?).toNat) % (← d[0]?).toNat) alen 0
  put r 0 (.ofNat acc)

/-- The dividend, shifted so that the highest bit of the divisor is set. -/
def shiftDividend (rem a : List UInt8) (alen s : Nat) : Option (List UInt8) :=
  if 0 < s then shlBytes rem a alen s else (memcpy rem a alen).bind fun rem => put rem alen 0

/-- The divisor. -/
def shiftDivisor (dn d : List UInt8) (dlen s : Nat) : Option (List UInt8) :=
  if 0 < s then shlBytes dn d dlen s else memcpy dn d dlen

/-- The remainder, shifted back. -/
def unshift (rem : List UInt8) (dlen s : Nat) : Option (List UInt8) :=
  if 0 < s then shrBytes rem dlen s else some rem

/-- The other case; `junk` is what is in memory that is not yet written, by its position. -/
def modLong (junk : Nat → UInt8) (r a : List UInt8) (alen : Nat) (d : List UInt8) (dlen : Nat) :
    Option (List UInt8) := do
  let s := normShift 8 (← d[dlen - 1]?).toNat
  let rem := (List.range (alen + 2)).map junk
  let dn := (List.range' (alen + 2) (dlen + 1)).map junk
  let rem ← shiftDividend rem a alen s
  let dn ← shiftDivisor dn d dlen s
  let rem ← put rem (alen + 1) 0
  let dh := (← dn[dlen - 1]?).toNat
  let dh2 := (← dn[dlen - 2]?).toNat
  let rem ← forDown (modTurn dn dlen dh dh2) (alen - dlen + 1) rem
  let rem ← unshift rem dlen s
  memcpy r rem dlen

/-- `modBytes`, where `r` is of `dim` bytes. -/
def modBytes (junk : Nat → UInt8) (dim : Nat) (a : List UInt8) (alen : Nat) (d : List UInt8)
    (dlen : Nat) : Option (List UInt8) := do
  let r := List.replicate dim 0
  if alen = 0 then some r
  else if ← isLess a alen d dlen then memcpy r a alen
  else if dlen = 1 then modShort r a alen d
  else modLong junk r a alen d dlen

/-! ## Bytes of integers -/

theorem toNat_ofNat_byte (n : Nat) : (UInt8.ofNat n).toNat = n % 256 := UInt8.toNat_ofNat'

/-- A byte from which something is taken, with what is borrowed for it. -/
theorem toNat_ofInt_byte {t : Int} (hlo : -256 ≤ t) (hhi : t < 256) :
    ((UInt8.ofNat (t % 256).toNat).toNat : Int) = t + 256 * if t < 0 then 1 else 0 := by
  rw [toNat_ofNat_byte]
  split <;> omega

theorem getElem?_of_lt {bs : List UInt8} {i : Nat} (h : i < bs.length) : bs[i]? = some bs[i] :=
  List.getElem?_eq_getElem h

/-- A digit is changed. -/
theorem leValue_set_int {bs : List UInt8} {i : Nat} (h : i < bs.length) (b : UInt8) :
    (leValue (bs.set i b) : Int) = leValue bs + (b.toNat - bs[i].toNat) * 256 ^ i := by
  have hset := congrArg (Nat.cast (R := Int)) (leValue_set h b)
  push_cast at hset
  linear_combination hset

theorem leValue_take_succ_int {bs : List UInt8} {i : Nat} (h : i < bs.length) :
    (leValue (bs.take (i + 1)) : Int) = leValue (bs.take i) + bs[i].toNat * 256 ^ i := by
  rw [leValue_take_succ h]
  push_cast
  rfl

/-! ## The functions -/

variable {dim alen dlen n s : Nat} {a b d dn dst src rem : List UInt8}

theorem memcpy_spec (hsrc : n ≤ src.length) (hdst : n ≤ dst.length) :
    memcpy dst src n = some (src.take n ++ dst.drop n) := by
  obtain ⟨dst', heq, hdst'⟩ := forUp_spec (fun i dst => do put dst i (← src[i]?))
    (fun i dst' => dst' = src.take i ++ dst.drop i) n dst rfl (by
      rintro i _ hi rfl
      have hlen : (src.take i).length = i := List.length_take_of_le (by omega)
      refine ⟨src.take (i + 1) ++ dst.drop (i + 1), ?_, rfl⟩
      rw [getElem?_of_lt (by omega : i < src.length)]
      change put _ i src[i] = _
      rw [put_eq (by rw [List.length_append, List.length_drop]; omega),
        List.set_append_right _ _ (by omega), hlen, Nat.sub_self,
        List.drop_eq_getElem_cons (by omega : i < dst.length), List.set_cons_zero,
        List.take_succ_eq_append_getElem (by omega), List.append_assoc, List.singleton_append])
  rw [memcpy, heq, hdst']

/-- The product of two bytes and a carry leaves a carry. -/
theorem mul_byte_le (x y : UInt8) : x.toNat * y.toNat ≤ 255 * 255 :=
  Nat.mul_le_mul (Nat.le_of_lt_succ x.toNat_lt) (Nat.le_of_lt_succ y.toNat_lt)

theorem byteOrZero_spec (hb : b.length = dim) {j : Nat} (hj : j ≤ dim) :
    ∃ bj : UInt8, byteOrZero b dim j = some bj ∧
      leValue (b.take (j + 1)) = leValue (b.take j) + bj.toNat * 256 ^ j := by
  rcases Nat.lt_or_ge j dim with hlt | hge
  · exact ⟨b[j], (if_pos hlt).trans (getElem?_of_lt (by omega)), leValue_take_succ (by omega)⟩
  · refine ⟨0, if_neg (by omega), ?_⟩
    rw [List.take_of_length_le (by omega), List.take_of_length_le (by omega)]
    simp

theorem mulByte_spec (i : Nat) (ai : UInt8) {j : Nat} {prod : List UInt8} {carry : Nat}
    (hb : b.length = dim) (hj : j ≤ dim) (hi : i + j < prod.length) (hcarry : carry ≤ 255) :
    ∃ prod' carry', mulByte dim ai b i j (prod, carry) = some (prod', carry') ∧
      prod'.length = prod.length ∧ carry' ≤ 255 ∧
      (leValue prod' + carry' * 256 ^ (i + (j + 1)) : Int) = leValue prod + carry * 256 ^ (i + j) +
        ai.toNat * (leValue (b.take (j + 1)) - leValue (b.take j)) * 256 ^ i := by
  obtain ⟨bj, hbj, htake⟩ := byteOrZero_spec hb hj
  have hold := prod[i + j].toNat_lt
  have hmul := mul_byte_le ai bj
  have hmod := Nat.div_add_mod (prod[i + j].toNat + ai.toNat * bj.toNat + carry) 256
  rw [mulByte]
  dsimp only
  rw [hbj, getElem?_of_lt hi]
  refine ⟨prod.set (i + j) (.ofNat (prod[i + j].toNat + ai.toNat * bj.toNat + carry)),
    (prod[i + j].toNat + ai.toNat * bj.toNat + carry) >>> 8, ?_, List.length_set .., ?_, ?_⟩
  · change (put prod (i + j) _).bind _ = _
    rw [put_eq hi]
    rfl
  · rw [Nat.shiftRight_eq_div_pow]
    omega
  · rw [leValue_set_int hi, toNat_ofNat_byte, Nat.shiftRight_eq_div_pow, htake]
    generalize prod[i + j].toNat = old at *
    generalize hcur : old + ai.toNat * bj.toNat + carry = cur at *
    have hcur' := congrArg (Nat.cast (R := Int)) hcur
    have hmod' := congrArg (Nat.cast (R := Int)) hmod
    push_cast at hcur' hmod' ⊢
    linear_combination -(256 : Int) ^ (i + j) * hcur' + (256 : Int) ^ (i + j) * hmod'

/-- The loop of `mulBytes` for one byte of `a`. -/
theorem mulRow_spec {i : Nat} (ai : UInt8) {prod : List UInt8} (hb : b.length = dim)
    (hi : i + dim < prod.length) :
    ∃ prod' carry, forUp (mulByte dim ai b i) (dim + 1) (prod, 0) = some (prod', carry) ∧
      prod'.length = prod.length ∧
      (leValue prod' + carry * 256 ^ (i + (dim + 1)) : Int) =
        leValue prod + ai.toNat * leValue b * 256 ^ i := by
  obtain ⟨⟨prod', carry⟩, heq, hlen, -, hval⟩ := forUp_spec (mulByte dim ai b i)
    (fun j s => s.1.length = prod.length ∧ s.2 ≤ 255 ∧
      (leValue s.1 + s.2 * 256 ^ (i + j) : Int) =
        leValue prod + ai.toNat * leValue (b.take j) * 256 ^ i)
    (dim + 1) ((prod, 0)) ⟨rfl, Nat.zero_le _, by simp⟩ (by
      rintro j ⟨prod', carry⟩ hj ⟨hlen, hcarry, hval⟩
      obtain ⟨prod'', carry', heq, hlen', hcarry', hval'⟩ := mulByte_spec i ai
        hb (Nat.le_of_lt_succ hj) (by dsimp only at hlen; omega : i + j < prod'.length) hcarry
      refine ⟨_, heq, hlen'.trans hlen, hcarry', ?_⟩
      dsimp only at hval ⊢
      rw [hval', hval]
      ring)
  refine ⟨prod', carry, heq, hlen, ?_⟩
  rw [List.take_of_length_le (by omega)] at hval
  exact hval

/-- **`mulBytes` multiplies**, and stays in its arrays. -/
theorem mulBytes_spec (ha : a.length = dim) (hb : b.length = dim) :
    ∃ prod, mulBytes dim a b = some prod ∧ prod.length = 2 * dim ∧
      leValue prod = leValue a * leValue b := by
  obtain ⟨prod, heq, hlen, hval⟩ := forUp_spec (fun i prod => do
      let ai ← a[i]?
      if ai = 0 then return prod
      let (prod, _) ← forUp (mulByte dim ai b i) (dim + 1) (prod, 0)
      return prod)
    (fun i prod => prod.length = 2 * dim ∧ leValue prod = leValue (a.take i) * leValue b)
    dim (List.replicate (2 * dim) 0)
    ⟨List.length_replicate, by rw [leValue_replicate_zero]; simp⟩ (by
      rintro i prod hi ⟨hlen, hval⟩
      rw [getElem?_of_lt (by omega : i < a.length)]
      have htake := leValue_take_succ (by omega : i < a.length)
      change ∃ s', (if a[i] = 0 then _ else _) = some s' ∧ _
      split
      next h0 =>
        refine ⟨prod, rfl, hlen, ?_⟩
        rw [hval, htake, h0]
        simp
      next =>
        obtain ⟨prod', carry, heq, hlen', hval'⟩ :=
          mulRow_spec a[i] hb (by omega : i + dim < prod.length)
        refine ⟨prod', by rw [heq]; rfl, hlen'.trans hlen, ?_⟩
        have hsum : leValue prod' + carry * 256 ^ (i + (dim + 1)) =
            leValue (a.take (i + 1)) * leValue b := by
          rw [htake]
          zify
          rw [hval', hval]
          push_cast
          ring
        -- the product of `i + 1` bytes and `dim` bytes leaves no carry
        have hlt : leValue (a.take (i + 1)) * leValue b < 256 ^ (i + (dim + 1)) := by
          have h1 := leValue_lt (a.take (i + 1))
          have h2 := leValue_lt b
          rw [List.length_take_of_le (by omega)] at h1
          rw [hb] at h2
          calc leValue (a.take (i + 1)) * leValue b < 256 ^ (i + 1) * 256 ^ dim :=
                Nat.mul_lt_mul'' h1 h2
            _ = 256 ^ (i + (dim + 1)) := by ring
        have hcarry : carry = 0 := by
          by_contra hne
          have := Nat.le_mul_of_pos_left (256 ^ (i + (dim + 1))) (Nat.pos_of_ne_zero hne)
          omega
        rw [← hsum, hcarry, Nat.zero_mul, Nat.add_zero])
  refine ⟨prod, heq, hlen, ?_⟩
  rw [hval, List.take_of_length_le (by omega)]

/-! ## Shifts and comparison -/

theorem shiftLeft_or {x c s : Nat} (hc : c < 2 ^ s) : (x <<< s) ||| c = x * 2 ^ s + c := by
  rw [← Nat.shiftLeft_add_eq_or_of_lt hc, Nat.shiftLeft_eq]

/-- `shlBytes` shifts, into one byte more. -/
theorem shlBytes_spec (hsrc : n ≤ src.length) (hdst : n < dst.length) (hs : s ≤ 7) :
    ∃ dst', shlBytes dst src n s = some dst' ∧ dst'.length = dst.length ∧
      leValue (dst'.take (n + 1)) = leValue (src.take n) * 2 ^ s := by
  have hpow : 2 ^ s ≤ 2 ^ 7 := Nat.pow_le_pow_right (by decide) hs
  obtain ⟨⟨dst', carry⟩, heq, hlen, hcarry, hval⟩ := forUp_spec
    (fun i (dst, carry) => do
      let b ← src[i]?
      let v := (b.toNat <<< s) ||| carry
      return (← put dst i (.ofNat v), v >>> 8))
    (fun i t => t.1.length = dst.length ∧ t.2 < 2 ^ s ∧
      leValue (t.1.take i) + t.2 * 256 ^ i = leValue (src.take i) * 2 ^ s)
    n (dst, 0) ⟨rfl, Nat.two_pow_pos s, by simp⟩ (by
      rintro i ⟨dst', carry⟩ hi ⟨hlen, hcarry, hval⟩
      dsimp only at hlen hcarry hval
      have hi' : i < src.length := by omega
      have hb := src[i].toNat_lt
      have hmul : src[i].toNat * 2 ^ s ≤ 255 * 2 ^ s :=
        Nat.mul_le_mul_right _ (Nat.le_of_lt_succ hb)
      rw [getElem?_of_lt hi']
      refine ⟨(dst'.set i (.ofNat ((src[i].toNat <<< s) ||| carry)),
        ((src[i].toNat <<< s) ||| carry) >>> 8), ?_, (List.length_set ..).trans hlen, ?_, ?_⟩
      · change (put dst' i _).bind _ = _
        rw [put_eq (by omega)]
        rfl
      · rw [shiftLeft_or hcarry, Nat.shiftRight_eq_div_pow]
        exact Nat.div_lt_of_lt_mul (by omega)
      · rw [leValue_take_set (by omega), toNat_ofNat_byte, shiftLeft_or hcarry,
          Nat.shiftRight_eq_div_pow, leValue_take_succ hi', Nat.add_mul, ← hval]
        have hmod := Nat.div_add_mod (src[i].toNat * 2 ^ s + carry) 256
        generalize (src[i].toNat * 2 ^ s + carry) / 2 ^ 8 = q at *
        generalize (src[i].toNat * 2 ^ s + carry) % 256 = r at *
        calc leValue (dst'.take i) + r * 256 ^ i + q * 256 ^ (i + 1)
          _ = leValue (dst'.take i) + (256 * q + r) * 256 ^ i := by ring
          _ = _ := by
            rw [hmod]
            ring)
  dsimp only at hlen hcarry hval
  refine ⟨dst'.set n (.ofNat carry), ?_, (List.length_set ..).trans hlen, ?_⟩
  · rw [shlBytes, heq]
    exact put_eq (by omega) _
  · rw [leValue_take_set (by omega), toNat_ofNat_byte, Nat.mod_eq_of_lt (by omega), hval]

/-- A byte of a number that is shifted to the right, from that byte and the next. -/
theorem shiftRight_or {w s : Nat} (hs : s ≤ 7) :
    ((w % 256) >>> s ||| (w / 256 % 256) <<< (8 - s)) % 256 = w / 2 ^ s % 256 := by
  have hlt : (w % 256) >>> s < 2 ^ (8 - s) := by
    rw [Nat.shiftRight_eq_div_pow, Nat.div_lt_iff_lt_mul (Nat.two_pow_pos s), ← Nat.pow_add,
      Nat.sub_add_cancel (by omega)]
    exact Nat.mod_lt _ (by decide)
  rw [Nat.or_comm, shiftLeft_or hlt, Nat.shiftRight_eq_div_pow]
  interval_cases s <;> omega

/-- `shrBytes` shifts. -/
theorem shrBytes_spec (hn : n ≤ rem.length) (hs : s ≤ 7) :
    ∃ rem', shrBytes rem n s = some rem' ∧ rem'.length = rem.length ∧
      leValue (rem'.take n) = leValue (rem.take n) / 2 ^ s := by
  rw [shrBytes]
  split
  next h0 => exact ⟨rem, rfl, rfl, by rw [h0, Nat.pow_zero, Nat.div_one]⟩
  obtain ⟨rem', heq, hlen, -, hval⟩ := forUp_spec
    (fun i buf => do
      let hi ← byteOrZero buf n (i + 1)
      let b ← buf[i]?
      put buf i (.ofNat ((b.toNat >>> s) ||| (hi.toNat <<< (8 - s)))))
    (fun i buf => buf.length = rem.length ∧ buf.drop i = rem.drop i ∧
      leValue (buf.take i) = leValue (rem.take n) / 2 ^ s % 256 ^ i)
    n rem ⟨rfl, rfl, by simp [Nat.mod_one]⟩ (by
      rintro i buf hi ⟨hlen, hdrop, hval⟩
      have hi' : i < buf.length := by omega
      have hbyte : ∀ j, i ≤ j → (hj : j < buf.length) → j < n →
          buf[j].toNat = leValue (rem.take n) / 256 ^ j % 256 := by
        intro j hij hj hjn
        rw [← toNat_getElem_of_take (hlen ▸ hj : j < rem.length) hjn]
        have hget := congrArg (fun l => l[j - i]?) hdrop
        simp only [List.getElem?_drop, Nat.add_sub_cancel' hij] at hget
        rw [getElem?_of_lt hj, getElem?_of_lt (hlen ▸ hj)] at hget
        rw [Option.some.inj hget]
      obtain ⟨x, hx, hxval⟩ : ∃ x : UInt8, byteOrZero buf n (i + 1) = some x ∧
          x.toNat = leValue (rem.take n) / 256 ^ i / 256 % 256 := by
        rw [Nat.div_div_eq_div_mul, ← Nat.pow_succ, byteOrZero]
        split
        next hlt =>
          have hlt' : i + 1 < buf.length := by omega
          exact ⟨_, getElem?_of_lt hlt', hbyte (i + 1) (Nat.le_succ i) hlt' hlt⟩
        next hge =>
          have hlt := leValue_lt (rem.take n)
          rw [List.length_take_of_le hn, show n = i + 1 by omega] at hlt
          refine ⟨0, rfl, ?_⟩
          rw [show n = i + 1 by omega, Nat.div_eq_of_lt hlt]
          rfl
      have hb := hbyte i (le_refl i) hi' hi
      rw [hx, getElem?_of_lt hi']
      refine ⟨buf.set i (.ofNat ((buf[i].toNat >>> s) ||| (x.toNat <<< (8 - s)))), put_eq hi' _,
        (List.length_set ..).trans hlen, ?_, ?_⟩
      · have hdrop' := congrArg (List.drop 1) hdrop
        rw [List.drop_drop, List.drop_drop] at hdrop'
        rw [List.drop_set_of_lt (Nat.lt_succ_self i)]
        exact hdrop'
      · rw [leValue_take_set hi', toNat_ofNat_byte, hval, hb, hxval, shiftRight_or hs,
          Nat.mod_pow_succ, Nat.div_div_eq_div_mul, Nat.div_div_eq_div_mul,
          Nat.mul_comm (256 ^ i) (2 ^ s), Nat.mul_comm (256 ^ i)])
  refine ⟨rem', heq, hlen, ?_⟩
  rw [hval, Nat.mod_eq_of_lt]
  have hlt := leValue_lt (rem.take n)
  rw [List.length_take_of_le hn] at hlt
  exact (Nat.div_le_self ..).trans_lt hlt

theorem cmpBytes_spec (ha : n ≤ a.length) (hb : n ≤ b.length) :
    ∃ r, cmpBytes a b n = some r ∧ (r < 0 ↔ leValue (a.take n) < leValue (b.take n)) := by
  induction n with
  | zero => exact ⟨0, rfl, by simp⟩
  | succ n ih =>
    have ha' : n < a.length := by omega
    have hb' : n < b.length := by omega
    have hlta := leValue_lt (a.take n)
    have hltb := leValue_lt (b.take n)
    rw [List.length_take_of_le (by omega)] at hlta hltb
    rw [cmpBytes, getElem?_of_lt ha', getElem?_of_lt hb', leValue_take_succ ha',
      leValue_take_succ hb']
    change ∃ r, (if a[n] = b[n] then _ else _) = some r ∧ _
    split
    next heq =>
      obtain ⟨r, hr, hiff⟩ := ih (by omega) (by omega)
      exact ⟨r, hr, by rw [hiff, heq]; omega⟩
    next hne =>
      refine ⟨_, rfl, ?_⟩
      have hne' : a[n].toNat ≠ b[n].toNat := fun h => hne (UInt8.toNat_inj.mp h)
      rcases Nat.lt_or_gt_of_ne hne' with hlt | hlt
      · have hmul := Nat.mul_le_mul_right (256 ^ n) (Nat.succ_le_of_lt hlt)
        rw [Nat.succ_mul] at hmul
        rw [if_pos (UInt8.lt_iff_toNat_lt.mpr hlt)]
        exact iff_of_true (by decide) (by omega)
      · have hmul := Nat.mul_le_mul_right (256 ^ n) (Nat.succ_le_of_lt hlt)
        rw [Nat.succ_mul] at hmul
        rw [if_neg fun h => absurd (UInt8.lt_iff_toNat_lt.mp h) (by omega)]
        exact iff_of_false (by decide) (by omega)

theorem isLess_spec (ha : alen ≤ a.length) (hd : dlen ≤ d.length) (hdlen : 0 < dlen)
    (htop : leValue (d.take dlen) / 256 ^ (dlen - 1) ≠ 0) :
    ∃ r, isLess a alen d dlen = some r ∧ (r = true → alen ≤ dlen ∧
        leValue (a.take alen) < leValue (d.take dlen)) ∧ (r = false → dlen ≤ alen) := by
  rw [isLess]
  split
  next hlt =>
    refine ⟨true, rfl, fun _ => ⟨hlt.le, ?_⟩, nofun⟩
    have hlta := leValue_lt (a.take alen)
    rw [List.length_take_of_le ha] at hlta
    have hpow : 256 ^ alen ≤ 256 ^ (dlen - 1) := Nat.pow_le_pow_right (by decide) (by omega)
    have hle : 256 ^ (dlen - 1) ≤ leValue (d.take dlen) := by
      by_contra hlt'
      exact htop (Nat.div_eq_of_lt (not_le.mp hlt'))
    omega
  next hge =>
    split
    next heq =>
      obtain ⟨r, hr, hiff⟩ := cmpBytes_spec ha (by omega : alen ≤ d.length)
      rw [heq] at hr hiff ⊢
      exact ⟨decide (r < 0), by rw [hr]; rfl,
        fun h => ⟨le_refl _, hiff.mp (of_decide_eq_true h)⟩, fun _ => le_refl _⟩
    next hne => exact ⟨false, rfl, nofun, fun _ => by omega⟩

/-- The shift that sets the highest bit of a byte. -/
theorem normShift_spec (b : UInt8) (hb : b ≠ 0) :
    normShift 8 b.toNat ≤ 7 ∧ 128 ≤ b.toNat * 2 ^ normShift 8 b.toNat ∧
      (b.toNat + 1) * 2 ^ normShift 8 b.toNat ≤ 256 := by
  have hall : ∀ n : Fin 256, n ≠ 0 → normShift 8 n.val ≤ 7 ∧
      128 ≤ n.val * 2 ^ normShift 8 n.val ∧ (n.val + 1) * 2 ^ normShift 8 n.val ≤ 256 := by
    decide +kernel
  exact hall b.toFin fun h => hb (UInt8.toFin_inj.mp h)

end FluxCore.Bignum
