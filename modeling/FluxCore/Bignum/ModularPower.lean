import FluxCore.Bignum.Arithmetic
import FluxCore.Bignum.LongDivision

/-!
# Modular powers

`pow_mod` squares and multiplies over the bits of the exponent, with the functions on bytes. What
has been computed when the bits from the `m`th on are done is the power for the exponent shifted by
`m` bits.
-/

namespace FluxCore.Bignum

/-- `trimmedLength`: the bytes up to the highest that is not 0. -/
def trimmedLength (buf : List UInt8) : Nat → Nat
  | 0 => 0
  | rv + 1 => if buf[rv]? = some 0 then trimmedLength buf rv else rv + 1

/-- `modBytes` of a product. -/
def mulModBytes (junk : Nat → UInt8) (dim : Nat) (a b mb : List UInt8) (mlen : Nat) :
    Option (List UInt8) := do
  modBytes junk dim (← mulBytes dim a b) (2 * dim) mb mlen

/-- A turn of the inner loop of `pow_mod`, for the `j`th bit of a byte of the exponent. -/
def powBit (junk : Nat → UInt8) (dim : Nat) (base mb : List UInt8) (mlen : Nat) (byte : UInt8)
    (j : Nat) (res : List UInt8) : Option (List UInt8) := do
  let res ← mulModBytes junk dim res res mb mlen
  if (byte.toNat >>> j) &&& 1 ≠ 0 then mulModBytes junk dim res base mb mlen else return res

/-- The loops of `pow_mod` over the bytes of the exponent below `n` and over their bits. -/
def powLoop (junk : Nat → UInt8) (dim : Nat) (base mb : List UInt8) (mlen : Nat)
    (power : List UInt8) (n : Nat) (res : List UInt8) : Option (List UInt8) :=
  forDown (fun i res => do forDown (powBit junk dim base mb mlen (← power[i]?)) 8 res) n res

/-- `pow_mod`, which throws for a modulus of 0; `none` is also that a buffer of another length than
`dim` would become a number. -/
def powMod (junk : Nat → UInt8) (fuel : Nat) (a power mod : Ulong dim) :
    Option (Except String (Ulong dim)) := do
  if mod = 0 then return .error "pow_mod: modulus is zero"
  if power = 0 then return .ok (← (← Ulong.ofSize dim 1).mod fuel mod)
  let mb := mod.buf
  let mlen := trimmedLength mb dim
  let alen := trimmedLength a.buf dim
  let tmp := a.buf.take alen ++ List.replicate (2 * dim - alen) 0
  let base ← modBytes junk dim tmp alen mb mlen
  let one ← put (List.replicate dim 0) 0 1
  let res ← modBytes junk dim one 1 mb mlen
  let res ← powLoop junk dim base mb mlen power.buf (trimmedLength power.buf dim) res
  if h : res.length = dim then return .ok ⟨res, h⟩ else none

/-! ## Correctness -/

variable {dim n mlen : Nat} {buf a b mb base res power : List UInt8}

theorem trimmedLength_le (buf : List UInt8) (n : Nat) : trimmedLength buf n ≤ n := by
  induction n with
  | zero => exact le_refl 0
  | succ n ih =>
    rw [trimmedLength]
    split
    · exact ih.trans (Nat.le_succ n)
    · exact le_refl _

/-- Only bytes that are 0 are left out, and the highest that is left is not 0. -/
theorem trimmedLength_spec (hn : n ≤ buf.length) :
    leValue (buf.take (trimmedLength buf n)) = leValue (buf.take n) ∧
      (leValue (buf.take n) ≠ 0 → 1 ≤ trimmedLength buf n ∧
        leValue (buf.take (trimmedLength buf n)) / 256 ^ (trimmedLength buf n - 1) ≠ 0) := by
  induction n with
  | zero => exact ⟨rfl, fun h => absurd rfl h⟩
  | succ n ih =>
    have hlt : n < buf.length := hn
    have hsucc := leValue_take_succ hlt
    rw [trimmedLength, getElem?_of_lt hlt]
    split
    next h =>
      rw [Option.some.inj h, UInt8.toNat_zero, Nat.zero_mul, Nat.add_zero] at hsucc
      rw [hsucc]
      exact ih hlt.le
    next h =>
      refine ⟨rfl, fun _ => ⟨Nat.succ_pos n, ?_⟩⟩
      have hpos : 0 < buf[n].toNat :=
        Nat.pos_of_ne_zero fun h0 => h (congrArg some (UInt8.toNat_inj.mp h0))
      refine Nat.ne_of_gt (Nat.div_pos ?_ (Nat.pow_pos (by decide)))
      rw [hsucc, Nat.add_sub_cancel]
      exact (Nat.le_mul_of_pos_left _ hpos).trans (Nat.le_add_left _ _)

/-- The bytes of a number that is not 0, without those above the highest that is not 0. -/
structure Trimmed (dim : Nat) (mb : List UInt8) (mlen : Nat) : Prop where
  le : mlen ≤ mb.length
  pos : 1 ≤ mlen
  le_dim : mlen ≤ dim
  top : leValue (mb.take mlen) / 256 ^ (mlen - 1) ≠ 0

theorem Trimmed.modBytes (h : Trimmed dim mb mlen) (junk : Nat → UInt8) (alen : Nat)
    (ha : alen ≤ a.length) :
    ∃ r, modBytes junk dim a alen mb mlen = some r ∧ r.length = dim ∧
      leValue r = leValue (a.take alen) % leValue (mb.take mlen) :=
  modBytes_spec junk ha h.le h.pos h.le_dim h.top

/-- A product modulo the number. -/
theorem Trimmed.mulModBytes (h : Trimmed dim mb mlen) (junk : Nat → UInt8) (ha : a.length = dim)
    (hb : b.length = dim) :
    ∃ r, mulModBytes junk dim a b mb mlen = some r ∧ r.length = dim ∧
      leValue r = leValue a * leValue b % leValue (mb.take mlen) := by
  obtain ⟨prod, hprod, hlen, hval⟩ := mulBytes_spec ha hb
  obtain ⟨r, hr, hrlen, hrval⟩ := h.modBytes junk _ hlen.ge
  rw [List.take_of_length_le hlen.le, hval] at hrval
  refine ⟨r, ?_, hrlen, hrval⟩
  rw [Bignum.mulModBytes, hprod]
  exact hr

theorem powBit_spec (h : Trimmed dim mb mlen) (junk : Nat → UInt8) (byte : UInt8) (j : Nat)
    {x y : Nat} (hbase : base.length = dim) (hbaseVal : leValue base = x % leValue (mb.take mlen))
    (hres : res.length = dim) (hresVal : leValue res = x ^ y % leValue (mb.take mlen)) :
    ∃ r, powBit junk dim base mb mlen byte j res = some r ∧ r.length = dim ∧
      leValue r = x ^ (2 * y + byte.toNat / 2 ^ j % 2) % leValue (mb.take mlen) := by
  obtain ⟨sq, hsq, hsqLen, hsqVal⟩ := h.mulModBytes junk hres hres
  rw [hresVal, ← Nat.mul_mod, ← pow_add, ← Nat.two_mul] at hsqVal
  rw [powBit, hsq]
  simp only [Option.bind_eq_bind, Option.bind_some, Nat.and_one_is_mod,
    Nat.shiftRight_eq_div_pow]
  split
  next hbit =>
    obtain ⟨r, hr, hrLen, hrVal⟩ := h.mulModBytes junk hsqLen hbase
    refine ⟨r, hr, hrLen, ?_⟩
    rw [hrVal, hsqVal, hbaseVal, ← Nat.mul_mod, ← pow_succ,
      show byte.toNat / 2 ^ j % 2 = 1 by omega]
  next hbit =>
    refine ⟨sq, rfl, hsqLen, ?_⟩
    rw [hsqVal, not_not.mp hbit, Nat.add_zero]

/-- The bits of the exponent are taken from the highest on. -/
theorem powLoop_spec (h : Trimmed dim mb mlen) (junk : Nat → UInt8) {x : Nat}
    (hbase : base.length = dim) (hbaseVal : leValue base = x % leValue (mb.take mlen))
    (hn : n ≤ power.length) (hres : res.length = dim)
    (hresVal : leValue res = x ^ (leValue power / 256 ^ n) % leValue (mb.take mlen)) :
    ∃ r, powLoop junk dim base mb mlen power n res = some r ∧ r.length = dim ∧
      leValue r = x ^ leValue power % leValue (mb.take mlen) := by
  obtain ⟨r, hr, hrLen, hrVal⟩ := forDown_spec
    (fun i res => do forDown (powBit junk dim base mb mlen (← power[i]?)) 8 res)
    (fun i res => res.length = dim ∧
      leValue res = x ^ (leValue power / 256 ^ i) % leValue (mb.take mlen)) n res
    ⟨hres, hresVal⟩ fun i res hi hI => by
      have hlt : i < power.length := by omega
      have hbyte := toNat_getElem power hlt
      obtain ⟨r, hr, hI'⟩ := forDown_spec (powBit junk dim base mb mlen power[i])
        (fun j res => res.length = dim ∧
          leValue res = x ^ (leValue power / 256 ^ i / 2 ^ j) % leValue (mb.take mlen)) 8 res
        ⟨hI.1, by rw [hI.2, pow_succ, ← Nat.div_div_eq_div_mul]; rfl⟩ fun j res hj hI => by
          obtain ⟨r, hr, hlen, hval⟩ := powBit_spec h junk power[i] j hbase hbaseVal hI.1 hI.2
          have hbit : leValue power / 256 ^ i % 256 / 2 ^ j % 2 =
              leValue power / 256 ^ i / 2 ^ j % 2 := by
            interval_cases j <;> omega
          refine ⟨r, hr, hlen, ?_⟩
          rw [hval, hbyte, hbit, pow_succ, ← Nat.div_div_eq_div_mul, Nat.div_add_mod]
      rw [getElem?_of_lt hlt]
      exact ⟨r, hr, hI'.1, by rw [hI'.2, pow_zero, Nat.div_one]⟩
  exact ⟨r, hr, hrLen, by rw [hrVal, pow_zero, Nat.div_one]⟩

/-- The base, reduced. -/
theorem base_spec (h : Trimmed dim mb mlen) (junk : Nat → UInt8) (hbuf : buf.length = dim) :
    ∃ r, modBytes junk dim (buf.take (trimmedLength buf dim) ++
        List.replicate (2 * dim - trimmedLength buf dim) 0) (trimmedLength buf dim) mb mlen =
          some r ∧ r.length = dim ∧ leValue r = leValue buf % leValue (mb.take mlen) := by
  have hle := trimmedLength_le buf dim
  have hlen : (buf.take (trimmedLength buf dim)).length = trimmedLength buf dim :=
    List.length_take_of_le (by omega)
  obtain ⟨r, hr, hrLen, hrVal⟩ := h.modBytes junk (trimmedLength buf dim)
    (a := buf.take (trimmedLength buf dim) ++
        List.replicate (2 * dim - trimmedLength buf dim) 0) (by
      rw [List.length_append, hlen]
      exact Nat.le_add_right _ _)
  refine ⟨r, hr, hrLen, ?_⟩
  rw [hrVal, List.take_append_of_le_length hlen.ge, List.take_of_length_le hlen.le,
    (trimmedLength_spec hbuf.ge).1, List.take_of_length_le hbuf.le]

/-- The number 1, reduced. -/
theorem one_spec (h : Trimmed dim mb mlen) (junk : Nat → UInt8) :
    ∃ one r, put (List.replicate dim 0) 0 1 = some one ∧
      modBytes junk dim one 1 mb mlen = some r ∧ r.length = dim ∧
      leValue r = 1 % leValue (mb.take mlen) := by
  have hdim : 0 < (List.replicate dim (0 : UInt8)).length := by
    have := h.pos.trans h.le_dim
    rwa [List.length_replicate]
  obtain ⟨r, hr, hrLen, hrVal⟩ := h.modBytes junk 1 (a := (List.replicate dim 0).set 0 1)
    (by rwa [List.length_set])
  refine ⟨_, r, put_eq hdim 1, hr, hrLen, ?_⟩
  rw [hrVal, leValue_take_set hdim, List.take_zero]
  rfl

/-- **`pow_mod` is the modular power.** -/
theorem powMod_spec (junk : Nat → UInt8) (hdim : 8 ≤ dim) (a power : Ulong dim) {m : Ulong dim}
    {fuel : Nat} (hm : m ≠ 0) (hfuel : 1 < fuel) :
    ∃ v, powMod junk fuel a power m = some (.ok v) ∧
      v.toNat = a.toNat ^ power.toNat % m.toNat := by
  have hm' : m.toNat ≠ 0 := fun h => hm (Ulong.eq_zero_iff.mpr h)
  rw [powMod, if_neg hm]
  split
  next h0 =>
    obtain ⟨one, hone, h1⟩ := Ulong.ofSize_spec (t := 1) hdim (by decide)
    obtain ⟨r, hr, hval⟩ := Ulong.mod_spec hdim one (Nat.pos_of_ne_zero hm') (by rwa [h1])
    refine ⟨r, ?_, by rw [hval, h1, Ulong.eq_zero_iff.mp h0, pow_zero]⟩
    rw [hone]
    simp only [Option.bind_eq_bind, Option.bind_some, hr]
    rfl
  next h0 =>
    obtain ⟨hmval, hmtop⟩ := trimmedLength_spec m.length_buf.ge
    rw [List.take_of_length_le m.length_buf.le] at hmval hmtop
    obtain ⟨hpos, htop⟩ := hmtop hm'
    have h : Trimmed dim m.buf (trimmedLength m.buf dim) :=
      ⟨(trimmedLength_le _ _).trans m.length_buf.ge, hpos, trimmedLength_le _ _, htop⟩
    obtain ⟨base, hbase, hbaseLen, hbaseVal⟩ := base_spec h junk a.length_buf
    obtain ⟨one, res, hone, hres, hresLen, hresVal⟩ := one_spec h junk
    have hexp : leValue power.buf / 256 ^ trimmedLength power.buf dim = 0 := by
      have hle := (trimmedLength_le power.buf dim).trans power.length_buf.ge
      have hlt := leValue_lt (power.buf.take (trimmedLength power.buf dim))
      rw [(trimmedLength_spec power.length_buf.ge).1, List.length_take_of_le hle,
        List.take_of_length_le power.length_buf.le] at hlt
      exact Nat.div_eq_of_lt hlt
    obtain ⟨r, hr, hrLen, hrVal⟩ := powLoop_spec h junk hbaseLen hbaseVal
      ((trimmedLength_le power.buf dim).trans power.length_buf.ge) hresLen
      (by rw [hresVal, hexp, pow_zero])
    rw [hmval] at hrVal
    refine ⟨⟨r, hrLen⟩, ?_, hrVal⟩
    simp only [hbase, hone, hres, hr, Option.bind_eq_bind, Option.bind_some]
    exact dif_pos hrLen

end FluxCore.Bignum
