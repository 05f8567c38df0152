import FluxCore.Bignum.ModularPower
import FluxCore.Http.ChunkedDecoding

/-!
# The key exchange of encrypted connections

`DHKeyExchange` keeps its numbers with the least significant byte first, and sends and hands out
numbers with the most significant byte first. `MSEHandshake` starts with it: either side sends its
public key, with some padding behind it, and computes the secret from the other one's.
-/

namespace FluxCore.Bignum

open Util (hexCharToUInt)

/-- `util::fromHex`, where text that is not well formed gives an empty string. -/
def fromHex : List UInt8 → List UInt8
  | [] => []
  | s => (pairs s).getD []
where
  pairs : List UInt8 → Option (List UInt8)
    | [] => some []
    | [_] => none
    | c :: c' :: s =>
      let high := hexCharToUInt c
      let low := hexCharToUInt c'
      if high = 255 ∨ low = 255 then none else (pairs s).map ((high * 16 + low) :: ·)

/-- `ulong(data, size)`. -/
def Ulong.ofBytes (dim : Nat) (data : List UInt8) : Except String (Ulong dim) :=
  if h : dim < data.length then .error "std::bad_alloc"
  else .ok ⟨data ++ List.replicate (dim - data.length) 0, by simp; omega⟩

/-- `binary` into a vector of `len` bytes. -/
def Ulong.binary {dim : Nat} (a : Ulong dim) (len : Nat) : List UInt8 :=
  a.buf.take (min dim len) ++ List.replicate (len - min dim len) 0

structure DHKeyExchange where
  keyLength : Nat := 0
  prime : Ulong 128 := 0
  generator : Ulong 128 := 0
  privateKey : Ulong 128 := 0
  publicKey : Ulong 128 := 0

/-- A number from hexadecimal digits. -/
def readNumber (text : List UInt8) (error : String) : Except String (Ulong 128) :=
  let s := fromHex (if text.length % 2 ≠ 0 then 0x30 :: text else text)
  if s = [] then .error error else Ulong.ofBytes 128 s.reverse

namespace DHKeyExchange

/-- `init`; `random` is what `generateRandomData` puts into a buffer. -/
def init (prime : List UInt8) (primeBits : Nat) (generator : List UInt8) (privateKeyBits : Nat)
    (random : Nat → UInt8) : Except String DHKeyExchange := do
  let prime ← readNumber prime "No valid prime supplied"
  let generator ← readNumber generator "No valid generator supplied"
  let privateKey ← Ulong.ofBytes 128 ((List.range ((privateKeyBits + 7) / 8)).map random)
  return { keyLength := (primeBits + 7) / 8, prime, generator, privateKey }

def generatePublicKey (junk : Nat → UInt8) (fuel : Nat) (dh : DHKeyExchange) :
    Option (Except String DHKeyExchange) :=
  (powMod junk fuel dh.generator dh.privateKey dh.prime).map fun r =>
    r.map fun publicKey => { dh with publicKey }

/-- `getPublicKey`: what is written to `out`. -/
def getPublicKey (dh : DHKeyExchange) (outLength : Nat) : Except String (List UInt8) :=
  if outLength < dh.keyLength then .error
    s!"Insufficient buffer for public key. expect:{dh.keyLength}, actual:{outLength}"
  else .ok (dh.publicKey.binary dh.keyLength).reverse

/-- `computeSecret`: what is written to `out`. -/
def computeSecret (junk : Nat → UInt8) (fuel : Nat) (dh : DHKeyExchange) (outLength : Nat)
    (peerPublicKeyData : List UInt8) : Option (Except String (List UInt8)) :=
  if outLength < dh.keyLength then some (.error
    s!"Insufficient buffer for secret. expect:{dh.keyLength}, actual:{outLength}")
  else if 128 < peerPublicKeyData.length then some (.error
    s!"peer public key overflows bignum. max:{128}, actual:{peerPublicKeyData.length}")
  else
    match Ulong.ofBytes 128 peerPublicKeyData.reverse with
    | .error e => some (.error e)
    | .ok peerKey => (powMod junk fuel peerKey dh.privateKey dh.prime).map fun r =>
        r.map fun secret => (secret.binary dh.keyLength).reverse

end DHKeyExchange

namespace MSEHandshake

def PRIME : List UInt8 :=
  ("FFFFFFFFFFFFFFFFC90FDAA22168C234C4C6628B80DC1CD129024E088A67CC74020BBEA63B" ++
    "139B22514A08798E3404DDEF9519B3CD3A431B302B0A6DF25F14374FE1356D6D51C245E485" ++
    "B576625E7EC6F44C42E9A63A36210000000000090563").toUTF8.toList

def PRIME_BITS : Nat := 768

def KEY_LENGTH : Nat := (PRIME_BITS + 7) / 8

def GENERATOR : List UInt8 := "2".toUTF8.toList

/-- `initEncryptionFacility`. -/
def initEncryptionFacility (junk : Nat → UInt8) (fuel : Nat) (random : Nat → UInt8) :
    Option (Except String DHKeyExchange) :=
  match DHKeyExchange.init PRIME PRIME_BITS GENERATOR 160 random with
  | .error e => some (.error e)
  | .ok dh => dh.generatePublicKey junk fuel

/-- `sendPublicKey`: what is pushed to the socket buffer. -/
def sendPublicKey (dh : DHKeyExchange) (pad : List UInt8) : Except String (List UInt8) :=
  (dh.getPublicKey KEY_LENGTH).map (· ++ pad)

/-- `receivePublicKey`: `secret_` and what is left in the buffer, or that more has to be read. -/
def receivePublicKey (junk : Nat → UInt8) (fuel : Nat) (dh : DHKeyExchange) (rbuf : List UInt8) :
    Option (Except String (Option (List UInt8 × List UInt8))) :=
  if rbuf.length < KEY_LENGTH then some (.ok none)
  else (dh.computeSecret junk fuel KEY_LENGTH (rbuf.take KEY_LENGTH)).map fun r =>
    r.map fun secret => some (secret, rbuf.drop KEY_LENGTH)

end MSEHandshake

/-! ## Both sides compute the same secret -/

theorem octets_eq_of_value {w : Nat} {bs : List UInt8} {n : Nat} (hlen : bs.length = w)
    (h : octetsValue bs = n) : octets w n = bs := by
  subst hlen h
  exact octets_octetsValue bs

theorem Ulong.toNat_ofBytes {d : Nat} {s : List UInt8} (h : s.length ≤ d) :
    ∃ a, Ulong.ofBytes d s = .ok a ∧ a.toNat = leValue s :=
  ⟨_, dif_neg (Nat.not_lt.mpr h), leValue_append_zeros s _⟩

/-- A number that fits is sent as its bytes. -/
theorem Ulong.reverse_binary {dim len : Nat} (a : Ulong dim) (hlen : len ≤ dim)
    (h : a.toNat < 256 ^ len) : (a.binary len).reverse = octets len a.toNat := by
  have hl : (a.buf.take len).length = len :=
    List.length_take_of_le (by rw [a.length_buf]; exact hlen)
  rw [binary, Nat.min_eq_right hlen, Nat.sub_self, List.replicate_zero, List.append_nil]
  refine (octets_eq_of_value (by rw [List.length_reverse, hl]) ?_).symm
  rw [octetsValue_reverse, leValue_take]
  exact Nat.mod_eq_of_lt h

namespace DHKeyExchange

variable {dh : DHKeyExchange} {fuel n : Nat}

/-- The number that the other side sends becomes a power of it. -/
theorem computeSecret_spec (junk : Nat → UInt8) (hp : dh.prime ≠ 0)
    (hfits : dh.prime.toNat ≤ 256 ^ dh.keyLength) (hkey : dh.keyLength ≤ 128)
    (hout : dh.keyLength ≤ n) (hfuel : 1 < fuel) {y : Nat}
    (hy : y < 256 ^ dh.keyLength) :
    dh.computeSecret junk fuel n (octets dh.keyLength y) =
      some (.ok (octets dh.keyLength (y ^ dh.privateKey.toNat % dh.prime.toNat))) := by
  have hpos : 0 < dh.prime.toNat := Nat.pos_of_ne_zero fun h => hp (Ulong.eq_zero_iff.mpr h)
  obtain ⟨peer, hpeer, hval⟩ := Ulong.toNat_ofBytes (d := 128)
    (s := (octets dh.keyLength y).reverse) (by
      rwa [List.length_reverse, length_octets])
  rw [← octetsValue_reverse, List.reverse_reverse, octetsValue_octets_of_lt hy] at hval
  obtain ⟨secret, hsecret, hsval⟩ := powMod_spec junk (by decide) peer dh.privateKey hp hfuel
  rw [hval] at hsval
  rw [computeSecret, if_neg (by omega), if_neg (by rw [length_octets]; omega), hpeer]
  simp only [hsecret, Option.map_some, Except.map]
  rw [secret.reverse_binary hkey (by
    rw [hsval]
    exact (Nat.mod_lt _ hpos).trans_le hfits), hsval]

theorem getPublicKey_spec (hkey : dh.keyLength ≤ 128) (hout : dh.keyLength ≤ n)
    (hfits : dh.publicKey.toNat < 256 ^ dh.keyLength) :
    dh.getPublicKey n = .ok (octets dh.keyLength dh.publicKey.toNat) := by
  rw [getPublicKey, if_neg (by omega), dh.publicKey.reverse_binary hkey hfits]

theorem generatePublicKey_spec (junk : Nat → UInt8) (dh : DHKeyExchange) (hp : dh.prime ≠ 0)
    (hfuel : 1 < fuel) :
    ∃ k, dh.generatePublicKey junk fuel = some (.ok { dh with publicKey := k }) ∧
      k.toNat = dh.generator.toNat ^ dh.privateKey.toNat % dh.prime.toNat := by
  obtain ⟨k, hk, hval⟩ := powMod_spec junk (by decide) dh.generator dh.privateKey hp hfuel
  exact ⟨k, by rw [generatePublicKey, hk]; rfl, hval⟩

end DHKeyExchange

namespace MSEHandshake

variable {fuel : Nat}

/-- What the constants stand for. -/
theorem constants_spec :
    (readNumber PRIME "No valid prime supplied").toOption.map (·.toNat) =
      some (octetsValue (fromHex PRIME)) ∧
    (readNumber GENERATOR "No valid generator supplied").toOption.map (·.toNat) = some 2 ∧
    0 < octetsValue (fromHex PRIME) ∧ octetsValue (fromHex PRIME) ≤ 256 ^ KEY_LENGTH := by
  decide +kernel

/-- The private key that the random bytes make. -/
def secretExponent (random : Nat → UInt8) : Nat := leValue ((List.range 20).map random)

theorem exists_of_readNumber {text : List UInt8} {error : String} {n : Nat}
    (h : (readNumber text error).toOption.map (·.toNat) = some n) :
    ∃ a, readNumber text error = .ok a ∧ a.toNat = n := by
  cases hread : readNumber text error with
  | error e =>
    rw [hread] at h
    exact absurd h (Option.some_ne_none n).symm
  | ok a =>
    rw [hread] at h
    exact ⟨a, rfl, Option.some.inj h⟩

/-- Either side is ready to send a power of 2. -/
theorem initEncryptionFacility_spec (junk : Nat → UInt8) (hfuel : 1 < fuel) (random : Nat → UInt8) :
    ∃ dh, initEncryptionFacility junk fuel random = some (.ok dh) ∧ dh.keyLength = KEY_LENGTH ∧
      dh.prime.toNat = octetsValue (fromHex PRIME) ∧
      dh.privateKey.toNat = secretExponent random ∧
      dh.publicKey.toNat = 2 ^ secretExponent random % octetsValue (fromHex PRIME) := by
  obtain ⟨hprime, hgenerator, hpos, -⟩ := constants_spec
  obtain ⟨p, hp, hpval⟩ := exists_of_readNumber hprime
  obtain ⟨g, hg, hgval⟩ := exists_of_readNumber hgenerator
  obtain ⟨x, hx, hxval⟩ := Ulong.toNat_ofBytes (d := 128) (s := (List.range 20).map random) (by
    rw [List.length_map, List.length_range]
    decide)
  have hinit : DHKeyExchange.init PRIME PRIME_BITS GENERATOR 160 random =
      .ok { keyLength := KEY_LENGTH, prime := p, generator := g, privateKey := x } := by
    rw [DHKeyExchange.init, hp, hg]
    simp only [bind, Except.bind, hx]
    rfl
  have hne : p ≠ 0 := fun h => hpos.ne' (hpval.symm.trans (Ulong.eq_zero_iff.mp h))
  obtain ⟨k, hk, hkval⟩ := DHKeyExchange.generatePublicKey_spec junk
    { keyLength := KEY_LENGTH, prime := p, generator := g, privateKey := x } hne hfuel
  exact ⟨_, by rw [initEncryptionFacility, hinit]; exact hk, rfl, hpval, hxval,
    by rw [hkval, hpval, hgval, hxval]; rfl⟩

/-- The secret is there as soon as the key of the other side is. -/
theorem receivePublicKey_spec (junk : Nat → UInt8) (hfuel : 1 < fuel) {dh : DHKeyExchange}
    (hlen : dh.keyLength = KEY_LENGTH) (hprime : dh.prime.toNat = octetsValue (fromHex PRIME))
    {y : Nat} (hy : y < octetsValue (fromHex PRIME)) (pad : List UInt8) (n : Nat) :
    receivePublicKey junk fuel dh ((octets KEY_LENGTH y ++ pad).take n) =
      some (.ok (if n < KEY_LENGTH then none else
        some (octets KEY_LENGTH (y ^ dh.privateKey.toNat % octetsValue (fromHex PRIME)),
          ((octets KEY_LENGTH y ++ pad).take n).drop KEY_LENGTH))) := by
  obtain ⟨-, -, hpos, hfits⟩ := constants_spec
  have hne : dh.prime ≠ 0 := fun h => hpos.ne' (hprime.symm.trans (Ulong.eq_zero_iff.mp h))
  have hkey : KEY_LENGTH ≤ 128 := by decide
  have hlength : (octets KEY_LENGTH y).length = KEY_LENGTH := length_octets _ _
  rw [receivePublicKey, List.length_take, List.length_append, hlength]
  rcases Nat.lt_or_ge n KEY_LENGTH with hn | hn
  · rw [if_pos (by omega), if_pos hn]
  · have hcompute := dh.computeSecret_spec junk hne (by rwa [hprime, hlen]) (by rwa [hlen])
      (n := KEY_LENGTH) (by rw [hlen]) hfuel (y := y) (by rw [hlen]; omega)
    rw [hlen, hprime] at hcompute
    rw [if_neg (by omega), if_neg (by omega), List.take_take, Nat.min_eq_left hn,
      List.take_append_of_le_length hlength.ge, List.take_of_length_le hlength.le, hcompute]
    rfl

/-- **Both sides of a handshake compute the same secret**: the bytes of a power of 2 modulo the
prime number, whatever the private keys, the padding and the amount of it that has been received,
and whatever the memory of either side holds before it is written. -/
theorem secrets_agree (junk junk' later later' : Nat → UInt8) (fuel : Nat)
    (random random' : Nat → UInt8) :
    ∃ a b, initEncryptionFacility junk (fuel + 2) random = some (.ok a) ∧
      initEncryptionFacility junk' (fuel + 2) random' = some (.ok b) ∧
      ∀ pad pad', ∃ sent sent', sendPublicKey a pad = .ok sent ∧ sendPublicKey b pad' = .ok sent' ∧
        let secret := octets KEY_LENGTH (2 ^ (secretExponent random * secretExponent random') %
          octetsValue (fromHex PRIME))
        ∀ n, receivePublicKey later (fuel + 2) a (sent'.take n) = some (.ok (
            if n < KEY_LENGTH then none else some (secret, (sent'.take n).drop KEY_LENGTH))) ∧
          receivePublicKey later' (fuel + 2) b (sent.take n) = some (.ok (
            if n < KEY_LENGTH then none else some (secret, (sent.take n).drop KEY_LENGTH))) := by
  obtain ⟨-, -, hpos, hfits⟩ := constants_spec
  have hfuel : 1 < fuel + 2 := by omega
  have hkey : KEY_LENGTH ≤ 128 := by decide
  obtain ⟨a, ha, halen, haprime, hakey, hapub⟩ := initEncryptionFacility_spec junk hfuel random
  obtain ⟨b, hb, hblen, hbprime, hbkey, hbpub⟩ := initEncryptionFacility_spec junk' hfuel random'
  have halt := Nat.mod_lt (2 ^ secretExponent random) hpos
  have hblt := Nat.mod_lt (2 ^ secretExponent random') hpos
  have hasend := a.getPublicKey_spec (n := KEY_LENGTH) (by rwa [halen]) (by rw [halen])
    (by rw [halen, hapub]; omega)
  have hbsend := b.getPublicKey_spec (n := KEY_LENGTH) (by rwa [hblen]) (by rw [hblen])
    (by rw [hblen, hbpub]; omega)
  rw [halen, hapub] at hasend
  rw [hblen, hbpub] at hbsend
  refine ⟨a, b, ha, hb, fun pad pad' => ⟨_, _, by rw [sendPublicKey, hasend]; rfl,
    by rw [sendPublicKey, hbsend]; rfl, ?_⟩⟩
  intro secret n
  constructor
  · rw [receivePublicKey_spec later hfuel halen haprime hblt pad' n, hakey, ← Nat.pow_mod,
      ← pow_mul, Nat.mul_comm]
  · rw [receivePublicKey_spec later' hfuel hblen hbprime halt pad n, hbkey, ← Nat.pow_mod,
      ← pow_mul]

end MSEHandshake

end FluxCore.Bignum
