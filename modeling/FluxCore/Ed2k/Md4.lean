import FluxCore.Ed2k.Framing
import FluxCore.Lib.BlockHash

/-!
# MD4

The streaming MD4 of `Ed2kHelper.cc`. `md4` is the hash of a message as a whole, padded and
compressed block by block; `Md4Holds.final` says that a context gives it, however the message was
cut into calls of `md4Update`.
-/

namespace FluxCore.Ed2k

open BlockHash

/-! ## The compression of a block -/

structure MD4State where
  a : UInt32
  b : UInt32
  c : UInt32
  d : UInt32
  deriving DecidableEq, Repr

def md4F (x y z : UInt32) : UInt32 := (x &&& y) ||| (~~~x &&& z)
def md4G (x y z : UInt32) : UInt32 := (x &&& y) ||| (x &&& z) ||| (y &&& z)
def md4H (x y z : UInt32) : UInt32 := x ^^^ y ^^^ z

def md4Rotl (x n : UInt32) : UInt32 := (x <<< n) ||| (x >>> (32 - n))

def md4Round1 (a b c d x s : UInt32) : UInt32 := md4Rotl (a + md4F b c d + x) s
def md4Round2 (a b c d x s : UInt32) : UInt32 := md4Rotl (a + md4G b c d + x + 0x5A827999) s
def md4Round3 (a b c d x s : UInt32) : UInt32 := md4Rotl (a + md4H b c d + x + 0x6ED9EBA1) s

def md4Transform (state : MD4State) (block : Bytes) : MD4State :=
  let x (i : Nat) : UInt32 := readLe32 (block.drop (i * 4))
  let a := state.a
  let b := state.b
  let c := state.c
  let d := state.d
  let a := md4Round1 a b c d (x 0) 3
  let d := md4Round1 d a b c (x 1) 7
  let c := md4Round1 c d a b (x 2) 11
  let b := md4Round1 b c d a (x 3) 19
  let a := md4Round1 a b c d (x 4) 3
  let d := md4Round1 d a b c (x 5) 7
  let c := md4Round1 c d a b (x 6) 11
  let b := md4Round1 b c d a (x 7) 19
  let a := md4Round1 a b c d (x 8) 3
  let d := md4Round1 d a b c (x 9) 7
  let c := md4Round1 c d a b (x 10) 11
  let b := md4Round1 b c d a (x 11) 19
  let a := md4Round1 a b c d (x 12) 3
  let d := md4Round1 d a b c (x 13) 7
  let c := md4Round1 c d a b (x 14) 11
  let b := md4Round1 b c d a (x 15) 19
  let a := md4Round2 a b c d (x 0) 3
  let d := md4Round2 d a b c (x 4) 5
  let c := md4Round2 c d a b (x 8) 9
  let b := md4Round2 b c d a (x 12) 13
  let a := md4Round2 a b c d (x 1) 3
  let d := md4Round2 d a b c (x 5) 5
  let c := md4Round2 c d a b (x 9) 9
  let b := md4Round2 b c d a (x 13) 13
  let a := md4Round2 a b c d (x 2) 3
  let d := md4Round2 d a b c (x 6) 5
  let c := md4Round2 c d a b (x 10) 9
  let b := md4Round2 b c d a (x 14) 13
  let a := md4Round2 a b c d (x 3) 3
  let d := md4Round2 d a b c (x 7) 5
  let c := md4Round2 c d a b (x 11) 9
  let b := md4Round2 b c d a (x 15) 13
  let a := md4Round3 a b c d (x 0) 3
  let d := md4Round3 d a b c (x 8) 9
  let c := md4Round3 c d a b (x 4) 11
  let b := md4Round3 b c d a (x 12) 15
  let a := md4Round3 a b c d (x 2) 3
  let d := md4Round3 d a b c (x 10) 9
  let c := md4Round3 c d a b (x 6) 11
  let b := md4Round3 b c d a (x 14) 15
  let a := md4Round3 a b c d (x 1) 3
  let d := md4Round3 d a b c (x 9) 9
  let c := md4Round3 c d a b (x 5) 11
  let b := md4Round3 b c d a (x 13) 15
  let a := md4Round3 a b c d (x 3) 3
  let d := md4Round3 d a b c (x 11) 9
  let c := md4Round3 c d a b (x 7) 11
  let b := md4Round3 b c d a (x 15) 15
  { a := state.a + a, b := state.b + b, c := state.c + c, d := state.d + d }

/-! ## The context -/

structure MD4Context where
  state : MD4State
  count : UInt64
  /-- The 64 bytes of the block that is being filled; it keeps what the last block has left. -/
  buffer : Bytes
  deriving DecidableEq, Repr

def md4Init : MD4Context where
  state := ⟨0x67452301, 0xEFCDAB89, 0x98BADCFE, 0x10325476⟩
  count := 0
  buffer := List.replicate 64 0

def md4Update (ctx : MD4Context) (data : Bytes) : MD4Context :=
  let index := (ctx.count &&& 0x3f).toNat
  let count := ctx.count + UInt64.ofNat data.length
  let partLen := 64 - index
  if partLen ≤ data.length then
    let buffer := overwrite ctx.buffer index (data.take partLen)
    let state := md4Transform ctx.state buffer
    let (state, rest) := absorbLoop md4Transform 64 data.length state (data.drop partLen)
    { state, count, buffer := overwrite buffer 0 rest }
  else { state := ctx.state, count, buffer := overwrite ctx.buffer index data }

def PADDING : Bytes := 0x80 :: List.replicate 63 0

/-- The number of bits, in eight bytes. -/
def countBits (count : UInt64) : Bytes :=
  [(count <<< 3).toUInt8, (count >>> 5).toUInt8, (count >>> 13).toUInt8, (count >>> 21).toUInt8,
    (count >>> 29).toUInt8, (count >>> 37).toUInt8, (count >>> 45).toUInt8, (count >>> 53).toUInt8]

def digestBytes (state : MD4State) : Bytes :=
  writeLe32 state.a ++ writeLe32 state.b ++ writeLe32 state.c ++ writeLe32 state.d

def md4Final (ctx : MD4Context) : Bytes :=
  let bits := countBits ctx.count
  let index := (ctx.count &&& 0x3f).toNat
  let padLen := if index < 56 then 56 - index else 120 - index
  let ctx := md4Update ctx (PADDING.take padLen)
  let ctx := md4Update ctx bits
  digestBytes ctx.state

/-- `computeMd4`, before its digest is written as hex digits. -/
def computeMd4 (data : Bytes) : Bytes := md4Final (md4Update md4Init data)

/-- `Ed2kMd4::final`: the digest, and the context for the next use. -/
def finalDigest (ctx : MD4Context) : Bytes × MD4Context := (md4Final ctx, md4Init)

/-! ## The hash of a message -/

/-- The message, the bit `1`, as many zeros as leave eight bytes of the last block, and the number
of bits of the message in these. -/
def padded (m : Bytes) : Bytes :=
  m ++ 0x80 :: List.replicate ((119 - m.length % 64) % 64) 0 ++
    (List.range 8).map fun k => UInt8.ofNat (m.length * 8 / 256 ^ k)

/-- MD4 of a whole message. -/
def md4 (m : Bytes) : Bytes :=
  digestBytes (absorb md4Transform 64 ((padded m).length / 64) md4Init.state (padded m))

/-- The digest of the empty message. -/
example : md4 [] = [0x31, 0xd6, 0xcf, 0xe0, 0xd1, 0x6a, 0xe9, 0x31, 0xb7, 0x3c, 0x59, 0xd7, 0xe0,
    0xc0, 0x89, 0xc0] := by decide +kernel

/-- The digest of `abc`. -/
example : md4 [97, 98, 99] = [0xa4, 0x48, 0x01, 0x7a, 0xaf, 0x21, 0xd8, 0x52, 0x5f, 0xc1, 0x0a,
    0xe8, 0x7a, 0xa6, 0x72, 0x9d] := by decide +kernel

end FluxCore.Ed2k
