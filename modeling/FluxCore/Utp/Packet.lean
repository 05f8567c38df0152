import Mathlib.Data.List.Basic
import Mathlib.Tactic.IntervalCases

/-!
# uTP packets

The header and extension codec of `UtpPacket.cc`. A datagram is its list of bytes: a fixed header
of 20 bytes, big-endian, a chain of `[next type][length][payload]` extensions, and the payload.
`parsePacket_encodeHeader` and `parsePacket_appendSackExtension` say how the two shapes the program
itself sends, no extension and one selective acknowledgement, are read back.
-/

namespace FluxCore.Utp

abbrev Bytes := List UInt8

def ST_DATA : UInt8 := 0
def ST_FIN : UInt8 := 1
def ST_STATE : UInt8 := 2
def ST_RESET : UInt8 := 3
def ST_SYN : UInt8 := 4

def PROTOCOL_VERSION : UInt8 := 1
def HEADER_LEN : Nat := 20

def EXT_NONE : UInt8 := 0
def EXT_SACK : UInt8 := 1

structure PacketHeader where
  type : UInt8 := 0
  version : UInt8 := PROTOCOL_VERSION
  extension : UInt8 := EXT_NONE
  connectionId : UInt16 := 0
  /-- Microseconds, sender clock. -/
  timestamp : UInt32 := 0
  /-- Microseconds, one-way delay echo. -/
  timestampDiff : UInt32 := 0
  /-- Bytes, advertised receive window. -/
  wndSize : UInt32 := 0
  seqNr : UInt16 := 0
  ackNr : UInt16 := 0
  deriving DecidableEq, Repr

/-! ## Big-endian fields -/

def readBe16 (p : Bytes) : UInt16 :=
  ((p.getD 0 0).toUInt16 <<< 8) ||| (p.getD 1 0).toUInt16

def readBe32 (p : Bytes) : UInt32 :=
  ((p.getD 0 0).toUInt32 <<< 24) ||| ((p.getD 1 0).toUInt32 <<< 16) |||
    ((p.getD 2 0).toUInt32 <<< 8) ||| (p.getD 3 0).toUInt32

def writeBe16 (v : UInt16) : Bytes := [(v >>> 8).toUInt8, (v &&& 0xFF).toUInt8]

def writeBe32 (v : UInt32) : Bytes :=
  [(v >>> 24).toUInt8, (v >>> 16).toUInt8, (v >>> 8).toUInt8, (v &&& 0xFF).toUInt8]

theorem or_eq_add {a b : Nat} (i k : Nat) (ha : a = k * 2 ^ i) (hb : b < 2 ^ i) :
    a ||| b = a + b := by
  rw [ha, ← Nat.shiftLeft_eq, ← Nat.shiftLeft_add_eq_or_of_lt hb]

theorem readBe16_writeBe16 (v : UInt16) (rest : Bytes) : readBe16 (writeBe16 v ++ rest) = v := by
  have hv := v.toNat_lt
  have hand : v.toNat % 256 &&& 255 = v.toNat % 256 := by
    simpa using Nat.and_two_pow_sub_one_eq_mod (v.toNat % 256) 8
  apply UInt16.toNat_inj.mp
  simp [readBe16, writeBe16, Nat.shiftRight_eq_div_pow, Nat.shiftLeft_eq, hand]
  rw [or_eq_add 8 (v.toNat / 256) (by omega) (by omega)]
  omega

theorem readBe32_writeBe32 (v : UInt32) (rest : Bytes) : readBe32 (writeBe32 v ++ rest) = v := by
  have hv := v.toNat_lt
  have hand : v.toNat % 256 &&& 255 = v.toNat % 256 := by
    simpa using Nat.and_two_pow_sub_one_eq_mod (v.toNat % 256) 8
  apply UInt32.toNat_inj.mp
  simp [readBe32, writeBe32, Nat.shiftRight_eq_div_pow, Nat.shiftLeft_eq, hand]
  simp (disch := omega) only [Nat.mod_eq_of_lt]
  generalize v.toNat = n at *
  rw [or_eq_add (a := n / 16777216 * 16777216) 24 (n / 16777216) rfl (by omega),
    or_eq_add (b := n / 256 % 256 * 256) 16 (n / 65536) (by omega) (by omega),
    or_eq_add (b := n % 256) 8 (n / 256) (by omega) (by omega)]
  omega

/-! ## Parsing -/

/-- The extension chain that starts with type `extType` at `rest`, in wire order; `none` if it does
not end inside the datagram. Each link takes at least two bytes, so `rest.length` is fuel enough. -/
def walkExtensions : Nat → UInt8 → Bytes → Option (List (UInt8 × Bytes))
  | 0, extType, _ => if extType = EXT_NONE then some [] else none
  | fuel + 1, extType, rest =>
    if extType = EXT_NONE then some []
    else match rest with
      | nextType :: extLen :: body =>
        if body.length < extLen.toNat then none
        else
          (walkExtensions fuel nextType (body.drop extLen.toNat)).map
            ((extType, body.take extLen.toNat) :: ·)
      | _ => none

def parsePacket (data : Bytes) : Option (PacketHeader × List (UInt8 × Bytes)) :=
  if data.length < HEADER_LEN then none
  else
    let header : PacketHeader :=
      { type := (data.getD 0 0 >>> 4) &&& 0x0F
        version := data.getD 0 0 &&& 0x0F
        extension := data.getD 1 0
        connectionId := readBe16 (data.drop 2)
        timestamp := readBe32 (data.drop 4)
        timestampDiff := readBe32 (data.drop 8)
        wndSize := readBe32 (data.drop 12)
        seqNr := readBe16 (data.drop 16)
        ackNr := readBe16 (data.drop 18) }
    if header.version ≠ PROTOCOL_VERSION then none
    else
      let rest := data.drop HEADER_LEN
      (walkExtensions rest.length header.extension rest).map (header, ·)

/-- Bytes the extension chain takes behind the header, as `handlePacket` adds them up. -/
def extTotal (exts : List (UInt8 × Bytes)) : Nat := (exts.map fun e => 2 + e.2.length).sum

/-- What stands behind the header and the extensions. -/
def payloadOf (data : Bytes) (exts : List (UInt8 × Bytes)) : Bytes :=
  data.drop (HEADER_LEN + extTotal exts)

/-! ## Encoding -/

def encodeHeader (h : PacketHeader) : Bytes :=
  [((h.type &&& 0x0F) <<< 4) ||| (h.version &&& 0x0F), h.extension] ++ writeBe16 h.connectionId ++
    writeBe32 h.timestamp ++ writeBe32 h.timestampDiff ++ writeBe32 h.wndSize ++
    writeBe16 h.seqNr ++ writeBe16 h.ackNr

/-- The bitmap is stored with its low byte first. -/
def sackBitmap (sackBits : UInt32) : Bytes :=
  (List.range 4).map fun i => ((sackBits >>> (8 * UInt32.ofNat i)) &&& 0xFF).toUInt8

def appendSackExtension (out : Bytes) (sackBits : UInt32) : Bytes :=
  out ++ [EXT_NONE, 4] ++ sackBitmap sackBits

def decodeSackBits (payload : Bytes) : UInt32 :=
  if payload.length < 4 then 0
  else
    (List.range 4).foldl (fun bits i => bits ||| (payload.getD i 0).toUInt32 <<< (8 * UInt32.ofNat i))
      0

@[simp] theorem length_encodeHeader (h : PacketHeader) : (encodeHeader h).length = HEADER_LEN := rfl

/-- A header the first byte of a packet can hold, of the version the parser accepts. -/
structure PacketHeader.Encodable (h : PacketHeader) : Prop where
  type : h.type < 16
  version : h.version = PROTOCOL_VERSION

/-- The first byte gives back the type and the version. -/
theorem firstByte {t : UInt8} (ht : t < 16) :
    ((((t &&& 0x0F) <<< 4) ||| (PROTOCOL_VERSION &&& 0x0F)) >>> 4) &&& 0x0F = t ∧
      (((t &&& 0x0F) <<< 4) ||| (PROTOCOL_VERSION &&& 0x0F)) &&& 0x0F = PROTOCOL_VERSION := by
  have ht' : t.toNat < 16 := by simpa [UInt8.lt_iff_toNat_lt] using ht
  obtain ⟨n, hn, rfl⟩ : ∃ n < 16, t = UInt8.ofNat n := ⟨t.toNat, ht', by simp⟩
  interval_cases n <;> exact ⟨rfl, rfl⟩

/-- What the program encodes is read back, up to the extension chain behind the header. -/
theorem parsePacket_encode {h : PacketHeader} (hh : h.Encodable) (rest : Bytes) :
    parsePacket (encodeHeader h ++ rest) =
      (walkExtensions rest.length h.extension rest).map (h, ·) := by
  obtain ⟨htype, hversion⟩ := firstByte hh.type
  rw [← hh.version] at htype hversion
  have hlen : ¬(encodeHeader h ++ rest).length < HEADER_LEN := by simp
  have h2 : readBe16 ((encodeHeader h ++ rest).drop 2) = h.connectionId := readBe16_writeBe16 _ _
  have h4 : readBe32 ((encodeHeader h ++ rest).drop 4) = h.timestamp := readBe32_writeBe32 _ _
  have h8 : readBe32 ((encodeHeader h ++ rest).drop 8) = h.timestampDiff := readBe32_writeBe32 _ _
  have h12 : readBe32 ((encodeHeader h ++ rest).drop 12) = h.wndSize := readBe32_writeBe32 _ _
  have h16 : readBe16 ((encodeHeader h ++ rest).drop 16) = h.seqNr := readBe16_writeBe16 _ _
  have h18 : readBe16 ((encodeHeader h ++ rest).drop 18) = h.ackNr := readBe16_writeBe16 _ _
  have hrest : (encodeHeader h ++ rest).drop HEADER_LEN = rest := rfl
  have hb0 : ((encodeHeader h ++ rest).getD 0 0 >>> 4) &&& 0x0F = h.type := htype
  have hb0' : (encodeHeader h ++ rest).getD 0 0 &&& 0x0F = h.version := hversion
  have hb1 : (encodeHeader h ++ rest).getD 1 0 = h.extension := rfl
  simp only [parsePacket, if_neg hlen, h2, h4, h8, h12, h16, h18, hrest, hb0, hb0', hb1,
    hh.version, ne_eq, not_true_eq_false, if_false]
  rw [← hh.version]

/-- A packet without extension. -/
theorem parsePacket_encodeHeader {h : PacketHeader} (hh : h.Encodable) (hext : h.extension = EXT_NONE)
    (payload : Bytes) : parsePacket (encodeHeader h ++ payload) = some (h, []) := by
  rw [parsePacket_encode hh, hext]
  cases payload <;> rfl

theorem payloadOf_encodeHeader (h : PacketHeader) (payload : Bytes) :
    payloadOf (encodeHeader h ++ payload) [] = payload := rfl

/-- A packet that ends in a selective acknowledgement. -/
theorem parsePacket_appendSackExtension {h : PacketHeader} (hh : h.Encodable)
    (hext : h.extension = EXT_SACK) (bits : UInt32) :
    parsePacket (appendSackExtension (encodeHeader h) bits) =
      some (h, [(EXT_SACK, sackBitmap bits)]) := by
  rw [appendSackExtension, List.append_assoc, parsePacket_encode hh, hext]
  rfl

end FluxCore.Utp
