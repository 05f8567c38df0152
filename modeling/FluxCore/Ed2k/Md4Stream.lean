import FluxCore.Ed2k.Md4

/-!
# Streaming MD4

`md4Digest` is the digest of a message as RFC 1320 gives it: in each of three rounds, every word of
a block is taken once, in the order and with the shifts of a table. `Md4Holds` says what a context
knows of the bytes that it has been given; it does not depend on how they were cut.
-/

namespace FluxCore.Ed2k

open BlockHash

/-! ## RFC 1320 -/

/-- The word of a block, the low-order byte given first. -/
def md4Word (block : Bytes) (k : Nat) : UInt32 :=
  .ofNat ((block.getD (k * 4) 0).toNat + 256 * (block.getD (k * 4 + 1) 0).toNat +
    65536 * (block.getD (k * 4 + 2) 0).toNat + 16777216 * (block.getD (k * 4 + 3) 0).toNat)

def rotateLeft (x : UInt32) (s : Nat) : UInt32 := ⟨x.toBitVec.rotateLeft s⟩

/-- The operation `[abcd k s]` of a round; the registers take turns. -/
def md4Step (f : UInt32 → UInt32 → UInt32 → UInt32) (t x : UInt32) (s : Nat) (r : MD4State) :
    MD4State where
  a := r.d
  b := rotateLeft (r.a + f r.b r.c r.d + x + t) s
  c := r.b
  d := r.c

/-- A round takes the words in the order `ks`; its four shifts come one after the other. -/
def md4Round (f : UInt32 → UInt32 → UInt32 → UInt32) (t : UInt32) (ks shifts : List Nat)
    (block : Bytes) (r : MD4State) : MD4State :=
  ks.zipIdx.foldl (fun r k => md4Step f t (md4Word block k.1) (shifts.getD (k.2 % 4) 0) r) r

def md4Compress (state : MD4State) (block : Bytes) : MD4State :=
  let r := md4Round (fun x y z => (x &&& y) ||| (~~~x &&& z)) 0
    [0, 1, 2, 3, 4, 5, 6, 7, 8, 9, 10, 11, 12, 13, 14, 15] [3, 7, 11, 19] block state
  let r := md4Round (fun x y z => (x &&& y) ||| (x &&& z) ||| (y &&& z)) 0x5A827999
    [0, 4, 8, 12, 1, 5, 9, 13, 2, 6, 10, 14, 3, 7, 11, 15] [3, 5, 9, 13] block r
  let r := md4Round (fun x y z => x ^^^ y ^^^ z) 0x6ED9EBA1
    [0, 8, 4, 12, 2, 10, 6, 14, 1, 9, 5, 13, 3, 11, 7, 15] [3, 9, 11, 15] block r
  { a := state.a + r.a, b := state.b + r.b, c := state.c + r.c, d := state.d + r.d }

/-- The bytes of the registers, the low-order byte of each first. -/
def registerBytes (r : MD4State) : Bytes :=
  [r.a, r.b, r.c, r.d].flatMap fun x => (List.range 4).map fun i => .ofNat (x.toNat / 256 ^ i)

/-- The digest of a message as a whole. -/
def md4Digest (m : Bytes) : Bytes :=
  registerBytes (absorb md4Compress 64 ((padded m).length / 64)
    ⟨0x67452301, 0xefcdab89, 0x98badcfe, 0x10325476⟩ (padded m))

/-! ## The compression -/

theorem md4Word_eq (block : Bytes) (k : Nat) : readLe32 (block.drop (k * 4)) = md4Word block k := by
  rw [← UInt32.ofNat_toNat (x := readLe32 _), toNat_readLe32]
  simp only [List.getD_eq_getElem?_getD, List.getElem?_drop, Nat.add_zero]
  rfl

theorem md4Rotl_eq : (∀ x, md4Rotl x 3 = rotateLeft x 3) ∧ (∀ x, md4Rotl x 5 = rotateLeft x 5) ∧
    (∀ x, md4Rotl x 7 = rotateLeft x 7) ∧ (∀ x, md4Rotl x 9 = rotateLeft x 9) ∧
    (∀ x, md4Rotl x 11 = rotateLeft x 11) ∧ (∀ x, md4Rotl x 13 = rotateLeft x 13) ∧
    (∀ x, md4Rotl x 15 = rotateLeft x 15) ∧ ∀ x, md4Rotl x 19 = rotateLeft x 19 :=
  ⟨fun _ => rfl, fun _ => rfl, fun _ => rfl, fun _ => rfl, fun _ => rfl, fun _ => rfl, fun _ => rfl,
    fun _ => rfl⟩

/-- Four operations of a round, after which the registers are in their places again. -/
def md4Quad (op : UInt32 → UInt32 → UInt32 → UInt32 → UInt32 → UInt32 → UInt32)
    (s₀ s₁ s₂ s₃ : UInt32) (w : Nat → UInt32) (k₀ k₁ k₂ k₃ : Nat) (r : MD4State) : MD4State :=
  let a := op r.a r.b r.c r.d (w k₀) s₀
  let d := op r.d a r.b r.c (w k₁) s₁
  let c := op r.c d a r.b (w k₂) s₂
  let b := op r.b c d a (w k₃) s₃
  ⟨a, b, c, d⟩

section Rounds

variable {f : UInt32 → UInt32 → UInt32 → UInt32} {t : UInt32}
  {op : UInt32 → UInt32 → UInt32 → UInt32 → UInt32 → UInt32 → UInt32}
  (hop : ∀ a b c d x s, op a b c d x s = md4Rotl (a + f b c d + x + t) s)
  {s₀ s₁ s₂ s₃ : UInt32} {n₀ n₁ n₂ n₃ : Nat}
  (h₀ : ∀ x, md4Rotl x s₀ = rotateLeft x n₀) (h₁ : ∀ x, md4Rotl x s₁ = rotateLeft x n₁)
  (h₂ : ∀ x, md4Rotl x s₂ = rotateLeft x n₂) (h₃ : ∀ x, md4Rotl x s₃ = rotateLeft x n₃)

include hop h₀ h₁ h₂ h₃

theorem md4Quad_eq (w : Nat → UInt32) (k₀ k₁ k₂ k₃ : Nat) (r : MD4State) :
    md4Quad op s₀ s₁ s₂ s₃ w k₀ k₁ k₂ k₃ r = md4Step f t (w k₃) n₃ (md4Step f t (w k₂) n₂
      (md4Step f t (w k₁) n₁ (md4Step f t (w k₀) n₀ r))) := by
  unfold md4Quad md4Step
  simp only [hop, h₀, h₁, h₂, h₃]

theorem md4Round_eq (block : Bytes) (k₀ k₁ k₂ k₃ l₀ l₁ l₂ l₃ m₀ m₁ m₂ m₃ p₀ p₁ p₂ p₃ : Nat)
    (r : MD4State) :
    md4Round f t [k₀, k₁, k₂, k₃, l₀, l₁, l₂, l₃, m₀, m₁, m₂, m₃, p₀, p₁, p₂, p₃]
      [n₀, n₁, n₂, n₃] block r =
      let q := md4Quad op s₀ s₁ s₂ s₃ (md4Word block)
      q p₀ p₁ p₂ p₃ (q m₀ m₁ m₂ m₃ (q l₀ l₁ l₂ l₃ (q k₀ k₁ k₂ k₃ r))) := by
  dsimp only
  simp only [md4Quad_eq hop h₀ h₁ h₂ h₃]
  unfold md4Round
  generalize md4Step f t = step
  simp [List.zipIdx_cons]

end Rounds

theorem md4Transform_eq : md4Transform = md4Compress := by
  funext state block
  have hword : (fun i => readLe32 (block.drop (i * 4))) = md4Word block :=
    funext (md4Word_eq block)
  have h₁ (a b c d x s) : md4Round1 a b c d x s =
      md4Rotl (a + (fun x y z => (x &&& y) ||| (~~~x &&& z)) b c d + x + 0) s := by
    rw [UInt32.add_zero]
    rfl
  have h₂ (a b c d x s) : md4Round2 a b c d x s =
      md4Rotl (a + (fun x y z => (x &&& y) ||| (x &&& z) ||| (y &&& z)) b c d + x + 0x5A827999) s :=
    rfl
  have h₃ (a b c d x s) : md4Round3 a b c d x s =
      md4Rotl (a + (fun x y z => x ^^^ y ^^^ z) b c d + x + 0x6ED9EBA1) s := rfl
  obtain ⟨rotl3, rotl5, rotl7, rotl9, rotl11, rotl13, rotl15, rotl19⟩ := md4Rotl_eq
  have hround₁ := md4Round_eq h₁ rotl3 rotl7 rotl11 rotl19 block
  have hround₂ := md4Round_eq h₂ rotl3 rotl5 rotl9 rotl13 block
  have hround₃ := md4Round_eq h₃ rotl3 rotl9 rotl11 rotl15 block
  unfold md4Compress
  simp only [hround₁, hround₂, hround₃, ← hword]
  unfold md4Transform
  generalize md4Round1 = f₁, md4Round2 = f₂, md4Round3 = f₃
  generalize (fun i => readLe32 (block.drop (i * 4))) = w
  rfl

/-! ## Any cutting -/

theorem toNat_ofNat_and_63 (n : Nat) : (UInt64.ofNat n &&& 0x3f).toNat = n % 64 := by
  rw [UInt64.toNat_and, UInt64.toNat_ofNat', show (0x3f : UInt64).toNat = 2 ^ 6 - 1 from rfl,
    Nat.and_two_pow_sub_one_eq_mod]
  exact Nat.mod_mod_of_dvd n (by decide)

/-- What a context knows of the bytes it has been given. -/
structure Md4Holds (ctx : MD4Context) (m : Bytes) : Prop where
  count : ctx.count = .ofNat m.length
  length : ctx.buffer.length = 64
  absorbs : Absorbs md4Transform 64 md4Init.state ctx.state (ctx.buffer.take (m.length % 64)) m

theorem Md4Holds.init : Md4Holds md4Init [] :=
  ⟨rfl, rfl, .nil _⟩

variable {ctx : MD4Context} {m : Bytes}

theorem Md4Holds.index (h : Md4Holds ctx m) : (ctx.count &&& 0x3f).toNat = m.length % 64 := by
  rw [h.count, toNat_ofNat_and_63]

theorem Md4Holds.update (h : Md4Holds ctx m) (data : Bytes) :
    Md4Holds (md4Update ctx data) (m ++ data) := by
  have hlt : m.length % 64 < 64 := Nat.mod_lt _ (by decide)
  have hlen := h.length
  have htail : (ctx.buffer.take (m.length % 64)).length = m.length % 64 := by
    rw [List.length_take]
    omega
  have hcount : ctx.count + .ofNat data.length = .ofNat (m ++ data).length := by
    rw [h.count, List.length_append, UInt64.ofNat_add]
  unfold md4Update
  rw [h.index]
  dsimp only
  split
  next hle =>
    have hfill := h.absorbs.fill (by decide) (by omega)
      (show 64 ≤ (ctx.buffer.take (m.length % 64)).length + data.length by omega)
    rw [htail] at hfill
    dsimp only at hfill
    have hblock : overwrite ctx.buffer (m.length % 64) (data.take (64 - m.length % 64)) =
        ctx.buffer.take (m.length % 64) ++ data.take (64 - m.length % 64) :=
      overwrite_full (by rw [List.length_take]; omega)
    rw [hblock, absorbLoop_eq (by decide) _ _ _ (by rw [List.length_drop]; omega)]
    have hrest := hfill.length_tail
    generalize (data.drop (64 - m.length % 64)).drop _ = rest at hfill hrest ⊢
    have hfull :
        (ctx.buffer.take (m.length % 64) ++ data.take (64 - m.length % 64)).length = 64 := by
      rw [List.length_append, htail, List.length_take]
      omega
    have hfits : 0 + rest.length ≤
        (ctx.buffer.take (m.length % 64) ++ data.take (64 - m.length % 64)).length := by
      have := Nat.mod_lt (m ++ data).length (by decide : 0 < 64)
      omega
    refine ⟨hcount, (length_overwrite hfits).trans hfull, ?_⟩
    have htake := take_overwrite hfits
    rw [Nat.zero_add, hrest, List.take_zero, List.nil_append] at htake
    dsimp only
    rw [htake]
    exact hfill
  next hgt =>
    have hfits : m.length % 64 + data.length ≤ ctx.buffer.length := by omega
    refine ⟨hcount, (length_overwrite hfits).trans hlen, ?_⟩
    have hkeep := h.absorbs.keep (by decide)
      (show (ctx.buffer.take (m.length % 64)).length + data.length < 64 by omega)
    have hmod : (m ++ data).length % 64 = m.length % 64 + data.length := by
      rw [List.length_append]
      omega
    rw [hmod, take_overwrite hfits]
    exact hkeep

theorem Md4Holds.updates (h : Md4Holds ctx m) (cuts : List Bytes) :
    Md4Holds (cuts.foldl md4Update ctx) (m ++ cuts.flatten) := by
  induction cuts generalizing ctx m with
  | nil => simpa using h
  | cons data cuts ih =>
    rw [List.foldl_cons, List.flatten_cons, ← List.append_assoc]
    exact ih (h.update data)

/-! ## The last blocks -/

theorem shiftRight_toUInt8 (n : Nat) {s : UInt64} (hs : s.toNat + 8 ≤ 64) :
    (UInt64.ofNat n >>> s).toUInt8 = .ofNat (n / 2 ^ s.toNat) := by
  generalize hk : s.toNat = k at hs
  have hpow : 2 ^ 64 = 2 ^ k * 2 ^ (64 - k) := by rw [← Nat.pow_add, Nat.add_sub_cancel' (by omega)]
  have hdvd : 2 ^ 8 ∣ 2 ^ (64 - k) := Nat.pow_dvd_pow 2 (by omega)
  apply UInt8.toNat_inj.mp
  rw [UInt64.toNat_toUInt8, UInt64.toNat_shiftRight, UInt64.toNat_ofNat', hk,
    Nat.mod_eq_of_lt (by omega : k < 64), Nat.shiftRight_eq_div_pow, hpow,
    Nat.mod_mul_right_div_self, Nat.mod_mod_of_dvd _ hdvd, UInt8.toNat_ofNat']

theorem countBits_eq (n : Nat) : countBits (.ofNat n) =
    (List.range 8).map fun k => UInt8.ofNat (n * 8 / 256 ^ k) := by
  have hfirst : (UInt64.ofNat n <<< 3).toUInt8 = .ofNat (n * 8) := by
    apply UInt8.toNat_inj.mp
    rw [UInt64.toNat_toUInt8, UInt64.toNat_shiftLeft, UInt64.toNat_ofNat', UInt8.toNat_ofNat',
      show (3 : UInt64).toNat % 64 = 3 from rfl, Nat.shiftLeft_eq,
      Nat.mod_mod_of_dvd _ (by decide : 2 ^ 8 ∣ 2 ^ 64)]
    omega
  have hbyte (k : Nat) : n * 8 / 256 ^ (k + 1) = n / 2 ^ (8 * k + 5) := by
    rw [Nat.pow_succ, show 256 = 2 ^ 8 from rfl, ← Nat.pow_mul, Nat.mul_comm (2 ^ (8 * k)),
      show (2 : Nat) ^ 8 * 2 ^ (8 * k) = 8 * 2 ^ (8 * k + 5) by rw [Nat.pow_add]; omega,
      Nat.mul_comm n, Nat.mul_div_mul_left _ _ (by decide)]
  unfold countBits
  have hshift (s : UInt64) := @shiftRight_toUInt8 n s
  rw [hfirst, show List.range 8 = [0, 1, 2, 3, 4, 5, 6, 7] from rfl]
  simp only [List.map_cons, List.map_nil, hbyte, Nat.pow_zero, Nat.div_one]
  rw [hshift 5 (by decide), hshift 13 (by decide), hshift 21 (by decide), hshift 29 (by decide),
    hshift 37 (by decide), hshift 45 (by decide), hshift 53 (by decide)]
  rfl

theorem take_PADDING {i : Nat} (hi : i < 64) :
    PADDING.take (if i < 56 then 56 - i else 120 - i) =
      0x80 :: List.replicate ((119 - i) % 64) 0 := by
  have hlen : (if i < 56 then 56 - i else 120 - i) = (119 - i) % 64 + 1 := by
    split <;> omega
  rw [hlen, PADDING, List.take_succ_cons, List.take_replicate, Nat.min_eq_left (by omega)]

theorem Md4Holds.final (h : Md4Holds ctx m) : md4Final ctx = md4 m := by
  have hindex := h.index
  have hlt : m.length % 64 < 64 := Nat.mod_lt _ (by decide)
  unfold md4Final md4
  dsimp only
  rw [hindex, take_PADDING hlt, h.count, countBits_eq]
  have hall := (h.update (0x80 :: List.replicate ((119 - m.length % 64) % 64) 0)).update
    ((List.range 8).map fun k => UInt8.ofNat (m.length * 8 / 256 ^ k))
  change Md4Holds _ (padded m) at hall
  rw [hall.absorbs.state]

theorem writeLe32_eq (v : UInt32) :
    writeLe32 v = (List.range 4).map fun i => UInt8.ofNat (v.toNat / 256 ^ i) := by
  have hshift (s : UInt32) (hs : s.toNat < 32) :
      (v >>> s).toUInt8 = .ofNat (v.toNat / 2 ^ s.toNat) := by
    apply UInt8.toNat_inj.mp
    rw [UInt32.toNat_toUInt8, UInt32.toNat_shiftRight, Nat.mod_eq_of_lt hs,
      Nat.shiftRight_eq_div_pow, UInt8.toNat_ofNat']
  unfold writeLe32
  rw [hshift 8 (by decide), hshift 16 (by decide), hshift 24 (by decide),
    show List.range 4 = [0, 1, 2, 3] from rfl]
  simp only [List.map_cons, List.map_nil, Nat.pow_zero, Nat.div_one]
  rfl

theorem digestBytes_eq (r : MD4State) : digestBytes r = registerBytes r := by
  simp [digestBytes, registerBytes, writeLe32_eq]

/-- However a message is cut, its digest is that of the message as a whole. -/
theorem md4Final_updates (cuts : List Bytes) :
    md4Final (cuts.foldl md4Update md4Init) = md4Digest cuts.flatten := by
  rw [(Md4Holds.init.updates cuts).final, List.nil_append, md4, md4Digest, md4Transform_eq,
    digestBytes_eq]
  rfl

end FluxCore.Ed2k
