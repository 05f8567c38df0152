import FluxCore.Bignum.Bytes

/-!
# The operators of `ulong`

Sums, differences and comparisons go nibble by nibble; products and quotients are made of them and
of `mul`, which shifts by nibbles. A loop that has an amount of work that depends on its operands
gets fuel. The constant 1 is a `size_t` that is copied into the number, which needs 8 bytes.
-/

namespace FluxCore.Bignum

/-- The `j`th nibble of a byte. -/
def nibble (b : UInt8) (j : Nat) : Nat := (b.toNat <<< (4 * (1 - j)) % 256) >>> 4

/-- A turn of the inner loop of `operator+`: a byte of the result, and whether something is
carried. -/
def addNibble (x y : UInt8) (j : Nat) (s : UInt8 × Bool) : UInt8 × Bool :=
  let t := nibble x j + if s.2 then 1 else 0
  let r := nibble y j
  if 16 ≤ r + t then (s.1 + .ofNat ((t + r - 16) <<< (j * 4)), true)
  else (s.1 + .ofNat ((t + r) <<< (j * 4)), false)

/-- The loop of `operator+`. -/
def addBytes : List UInt8 → List UInt8 → Bool → List UInt8
  | x :: xs, y :: ys, base =>
    let s := addNibble x y 1 (addNibble x y 0 (0, base))
    s.1 :: addBytes xs ys s.2
  | _, _, _ => []

/-- A turn of the inner loop of `operator-`: a byte of the result, and whether something is
borrowed. -/
def subNibble (x y : UInt8) (j : Nat) (s : UInt8 × Bool) : UInt8 × Bool :=
  let t : Int := nibble x j - if s.2 then 1 else 0
  let r : Int := nibble y j
  if r ≤ t then (s.1 + .ofNat ((t - r).toNat <<< (j * 4)), false)
  else (s.1 + .ofNat ((t + 16 - r).toNat <<< (j * 4)), true)

/-- The loop of `operator-`. -/
def subBytes : List UInt8 → List UInt8 → Bool → List UInt8
  | x :: xs, y :: ys, base =>
    let s := subNibble x y 1 (subNibble x y 0 (0, base))
    s.1 :: subBytes xs ys s.2
  | _, _, _ => []

/-- The loop of `operator>`, with the most significant byte first. -/
def gtBytes : List UInt8 → List UInt8 → Bool
  | x :: xs, y :: ys =>
    if nibble x 1 ≠ nibble y 1 then nibble y 1 < nibble x 1
    else if nibble x 0 ≠ nibble y 0 then nibble y 0 < nibble x 0
    else gtBytes xs ys
  | _, _ => false

/-- The loop of `capacity`, with the most significant byte first. -/
def capacityLoop : List UInt8 → Nat → Nat
  | [], rv => rv
  | b :: bs, rv =>
    let f := b.toNat >>> 4
    let s := (b.toNat <<< 4) >>> 4
    if f = 0 ∧ s = 0 then capacityLoop bs (rv - 2) else if f = 0 then rv - 1 else rv

/-- A turn of the inner loop of `mul`: the `j`th nibble of a byte moves up. -/
def mulNibble (bt : List UInt8) (dim npar d2 i j : Nat) (b : List UInt8) : List UInt8 :=
  let c := nibble (bt.getD (dim - 1 - i) 0) j
  let r := c <<< (npar * (1 - j) * 4 + (1 - npar) * j * 4)
  let idx : Int := i - d2 - npar * j
  if 0 ≤ idx then b.modify (dim - 1 - idx.toNat) (· + .ofNat r) else b

/-- The loop of `mul`. -/
def mulLoop (bt : List UInt8) (dim npar d2 : Nat) : Nat → List UInt8
  | 0 => List.replicate dim 0
  | n + 1 =>
    mulNibble bt dim npar d2 (d2 + n) 1 (mulNibble bt dim npar d2 (d2 + n) 0
      (mulLoop bt dim npar d2 n))

/-- `ulong<dim>`: the bytes of a number, the least significant one first. -/
@[ext] structure Ulong (dim : Nat) where
  buf : List UInt8
  length_buf : buf.length = dim
  deriving DecidableEq, Repr

variable {dim : Nat} {xs ys : List UInt8} {base : Bool}

theorem length_addBytes (h : xs.length = ys.length) :
    (addBytes xs ys base).length = xs.length := by
  induction xs generalizing ys base with
  | nil => rfl
  | cons x xs ih =>
    obtain ⟨y, ys, rfl⟩ := List.exists_cons_of_length_eq_add_one h.symm
    exact congrArg (· + 1) (ih (Nat.succ.inj h))

theorem length_subBytes (h : xs.length = ys.length) :
    (subBytes xs ys base).length = xs.length := by
  induction xs generalizing ys base with
  | nil => rfl
  | cons x xs ih =>
    obtain ⟨y, ys, rfl⟩ := List.exists_cons_of_length_eq_add_one h.symm
    exact congrArg (· + 1) (ih (Nat.succ.inj h))

@[simp] theorem length_mulNibble (bt : List UInt8) (dim npar d2 i j : Nat) (b : List UInt8) :
    (mulNibble bt dim npar d2 i j b).length = b.length := by
  unfold mulNibble
  dsimp only
  split
  · exact List.length_modify ..
  · rfl

@[simp] theorem length_mulLoop (bt : List UInt8) (dim npar d2 n : Nat) :
    (mulLoop bt dim npar d2 n).length = dim := by
  induction n with
  | zero => exact List.length_replicate
  | succ n ih => rw [mulLoop, length_mulNibble, length_mulNibble, ih]

namespace Ulong

instance : Zero (Ulong dim) := ⟨⟨List.replicate dim 0, List.length_replicate⟩⟩

/-- `ulong(size_t t)`: a `size_t` is copied into the bytes, which has to fit. -/
def ofSize (dim t : Nat) : Option (Ulong dim) :=
  if h : 8 ≤ dim then
    some ⟨(octets 8 t).reverse ++ List.replicate (dim - 8) 0, by simp; omega⟩
  else none

def add (a b : Ulong dim) : Ulong dim :=
  ⟨addBytes a.buf b.buf false, by
    rw [length_addBytes (a.length_buf.trans b.length_buf.symm), a.length_buf]⟩

def sub (a b : Ulong dim) : Ulong dim :=
  ⟨subBytes a.buf b.buf false, by
    rw [length_subBytes (a.length_buf.trans b.length_buf.symm), a.length_buf]⟩

instance : Add (Ulong dim) := ⟨add⟩

instance : Sub (Ulong dim) := ⟨sub⟩

def gt (a b : Ulong dim) : Bool := gtBytes a.buf.reverse b.buf.reverse

/-- `operator>=`. -/
def ge (a b : Ulong dim) : Bool := a = b || a.gt b

/-- The number of nibbles up to the highest that is not 0. -/
def capacity (a : Ulong dim) : Nat := capacityLoop a.buf.reverse (dim * 2)

/-- `mul`: the number is shifted by `digits` nibbles. -/
def mul (a : Ulong dim) (digits : Nat) : Ulong dim :=
  ⟨mulLoop a.buf dim (digits % 2) (digits / 2) (dim - digits / 2), length_mulLoop ..⟩

/-- The loop of `operator*`. -/
def timesLoop (a : Ulong dim) : Nat → Ulong dim → Ulong dim → Option (Ulong dim)
  | 0, _, _ => none
  | fuel + 1, c, rv => do
    if c = 0 then return rv
    let tmp := a.mul (c.capacity - 1)
    let diff := (← ofSize dim 1).mul (c.capacity - 1)
    timesLoop a fuel (c - diff) (rv + tmp)

/-- `operator*`. -/
def times (fuel : Nat) (a rhs : Ulong dim) : Option (Ulong dim) := timesLoop a fuel rhs 0

/-- `while (r >= tmp) { r -= tmp; q += qt; }`, with the pair of `q` and `r`. -/
def takeAway (tmp qt : Ulong dim) : Nat → Ulong dim × Ulong dim → Option (Ulong dim × Ulong dim)
  | 0, _ => none
  | fuel + 1, (q, r) => if r.ge tmp then takeAway tmp qt fuel (q + qt, r - tmp) else some (q, r)

/-- A turn of the loop of `div` while `r` has more nibbles than `d`. -/
def divTurn (fuel : Nat) (d q r : Ulong dim) : Option (Ulong dim × Ulong dim) := do
  let tmp := d.mul (r.capacity - d.capacity - 1)
  let qt := (← ofSize dim 1).mul (r.capacity - d.capacity - 1)
  let t := tmp.mul 1
  if r.ge t then takeAway t (qt.mul 1) fuel (q, r) else takeAway tmp qt fuel (q, r)

/-- The loop of `div` while `r` has more nibbles than `d`. -/
def divLoop (fuel : Nat) (d : Ulong dim) :
    Nat → Ulong dim × Ulong dim → Option (Ulong dim × Ulong dim)
  | 0, _ => none
  | n + 1, (q, r) =>
    if r.capacity ≤ d.capacity then some (q, r) else (divTurn fuel d q r).bind (divLoop fuel d n)

/-- `div`: the quotient and the remainder. -/
def div (fuel : Nat) (a d : Ulong dim) : Option (Ulong dim × Ulong dim) := do
  let s ← divLoop fuel d fuel (← ofSize dim 0, a)
  takeAway d (← ofSize dim 1) fuel s

/-- `operator%`. -/
def mod (fuel : Nat) (a d : Ulong dim) : Option (Ulong dim) := (div fuel a d).map (·.2)

/-- The number in twice as many bytes. -/
def extend (a : Ulong dim) : Ulong (dim * 2) :=
  ⟨a.buf ++ List.replicate dim 0, by rw [List.length_append, a.length_buf, List.length_replicate]
                                     omega⟩

/-- The lower half of the bytes. -/
def lower (a : Ulong (dim * 2)) : Ulong dim :=
  ⟨a.buf.take dim, by rw [List.length_take_of_le (by rw [a.length_buf]; omega)]⟩

def mulMod (fuel : Nat) (a mul m : Ulong dim) : Option (Ulong dim) := do
  if a.capacity + mul.capacity ≤ dim * 2 then mod fuel (← times fuel a mul) m
  else
    let erv ← mod fuel (← times fuel a.extend mul.extend) m.extend
    return erv.lower

end Ulong

end FluxCore.Bignum
