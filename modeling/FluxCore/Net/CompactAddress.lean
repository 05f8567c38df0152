import FluxCore.Lib.Octets
import FluxCore.Utp.Packet

/-!
# Compact addresses

The address and the port of a peer in 6 or 18 bytes. The text of an address is converted by the
system, with `getaddrinfo` and `getnameinfo`, which are the two fields of a `Resolver`.
-/

namespace FluxCore.Net

open Utp (Bytes)

inductive Family where
  | AF_INET
  | AF_INET6
  deriving DecidableEq, Repr

def Family.addressLength : Family → Nat
  | .AF_INET => 4
  | .AF_INET6 => 16

def getCompactLength (family : Family) : Nat := family.addressLength + 2

/-- `net::getBinAddr` gives no bytes for a text that is not a numeric address, and `inetNtop` an
empty text for bytes that it does not convert. -/
structure Resolver where
  getBinAddr : Bytes → Bytes
  inetNtop : Family → Bytes → Bytes

namespace Resolver

/-- The text is the one that the system writes for an address of the family. -/
structure Writes (net : Resolver) (family : Family) (ipaddr : Bytes) : Prop where
  ne_nil : ipaddr ≠ []
  length : (net.getBinAddr ipaddr).length = family.addressLength
  inetNtop : net.inetNtop family (net.getBinAddr ipaddr) = ipaddr

def packcompact (net : Resolver) (addr : Bytes) (port : UInt16) : Bytes :=
  if net.getBinAddr addr = [] then [] else net.getBinAddr addr ++ octets 2 port.toNat

def unpackcompact (net : Resolver) (family : Family) (compact : Bytes) : Bytes × UInt16 :=
  let r := net.inetNtop family (compact.take family.addressLength)
  if r = [] then ([], 0)
  else (r, .ofNat (octetsValue ((compact.drop family.addressLength).take 2)))

/-- `extractPeer` of a string, over its entries. -/
def extractLoop (net : Resolver) (family : Family) : Nat → Bytes → List (Bytes × UInt16)
  | 0, _ => []
  | n + 1, s =>
    let p := net.unpackcompact family (s.take (getCompactLength family))
    let rest := extractLoop net family n (s.drop (getCompactLength family))
    if p.1 = [] then rest else p :: rest

def extractPeer (net : Resolver) (family : Family) (s : Bytes) : List (Bytes × UInt16) :=
  if s.length % getCompactLength family = 0 then
    extractLoop net family (s.length / getCompactLength family) s
  else []

variable {net : Resolver} {family : Family} {ipaddr : Bytes} {port : UInt16}

theorem Writes.packcompact_eq (h : net.Writes family ipaddr) :
    net.packcompact ipaddr port = net.getBinAddr ipaddr ++ octets 2 port.toNat :=
  if_neg fun h0 => by
    have := h.length
    rw [h0] at this
    cases family <;> exact absurd this (by decide)

theorem Writes.length_packcompact (h : net.Writes family ipaddr) :
    (net.packcompact ipaddr port).length = getCompactLength family := by
  rw [h.packcompact_eq, List.length_append, length_octets, h.length, getCompactLength]

/-- An address is in one family only. -/
theorem Writes.eq_family {family' : Family} (h : net.Writes family ipaddr)
    (h' : (net.packcompact ipaddr port).length = getCompactLength family') : family = family' := by
  rw [h.length_packcompact] at h'
  cases family <;> cases family' <;> first | rfl | exact absurd h' (by decide)

/-- What has been packed is unpacked. -/
theorem Writes.unpackcompact (h : net.Writes family ipaddr) :
    net.unpackcompact family (net.packcompact ipaddr port) = (ipaddr, port) := by
  have htake : (net.packcompact ipaddr port).take family.addressLength = net.getBinAddr ipaddr := by
    rw [h.packcompact_eq, List.take_append_of_le_length h.length.ge,
      List.take_of_length_le h.length.le]
  have hdrop : (net.packcompact ipaddr port).drop family.addressLength = octets 2 port.toNat := by
    rw [h.packcompact_eq, ← h.length, List.drop_left]
  have hport : (octets 2 port.toNat).take 2 = octets 2 port.toNat :=
    List.take_of_length_le (length_octets 2 _).le
  rw [Resolver.unpackcompact, htake, hdrop, h.inetNtop, hport,
    octetsValue_octets_of_lt (by exact port.toNat_lt), UInt16.ofNat_toNat]
  exact if_neg h.ne_nil

/-- The entries of a list are extracted one after the other. -/
theorem extractPeer_flatMap (net : Resolver) (family : Family) {l : List (Bytes × UInt16)}
    (h : ∀ p ∈ l, net.Writes family p.1) :
    net.extractPeer family (l.flatMap fun p => net.packcompact p.1 p.2) = l := by
  have hpos : 0 < getCompactLength family := by cases family <;> decide
  have hlen : (l.flatMap fun p => net.packcompact p.1 p.2).length =
      getCompactLength family * l.length := by
    induction l with
    | nil => rfl
    | cons p l ih =>
      rw [List.flatMap_cons, List.length_append, ih fun q hq => h q (List.mem_cons_of_mem _ hq),
        (h p (List.mem_cons_self ..)).length_packcompact, List.length_cons, Nat.mul_succ,
        Nat.add_comm]
  rw [extractPeer, if_pos (by rw [hlen, Nat.mul_mod_right]), hlen, Nat.mul_div_cancel_left _ hpos]
  clear hlen
  induction l with
  | nil => rfl
  | cons p l ih =>
    have hp := h p (List.mem_cons_self ..)
    have hl : (net.packcompact p.1 p.2).length = _ := hp.length_packcompact
    rw [List.length_cons, extractLoop, List.flatMap_cons, List.take_append_of_le_length hl.ge,
      List.take_of_length_le hl.le, ← hl, List.drop_left, hp.unpackcompact]
    dsimp only
    rw [if_neg hp.ne_nil, ih fun q hq => h q (List.mem_cons_of_mem _ hq)]

instance (net : Resolver) (family : Family) (ipaddr : Bytes) :
    Decidable (net.Writes family ipaddr) :=
  decidable_of_iff (ipaddr ≠ [] ∧ (net.getBinAddr ipaddr).length = family.addressLength ∧
      net.inetNtop family (net.getBinAddr ipaddr) = ipaddr)
    ⟨fun h => ⟨h.1, h.2.1, h.2.2⟩, fun h => ⟨h.ne_nil, h.length, h.inetNtop⟩⟩

/-- A system that knows these addresses, each with its family, its text and its bytes. -/
def knowing (known : List (Family × Bytes × Bytes)) : Resolver where
  getBinAddr s := ((known.find? fun k => k.2.1 = s).map (·.2.2)).getD []
  inetNtop family a := ((known.find? fun k => k.1 = family ∧ k.2.2 = a).map (·.2.1)).getD []

/-- Two addresses of IPv4 and one of IPv6. -/
def threeAddresses : Resolver := knowing
  [(.AF_INET, "10.0.0.7".toUTF8.toList, [10, 0, 0, 7]),
    (.AF_INET, "192.0.2.33".toUTF8.toList, [192, 0, 2, 33]),
    (.AF_INET6, "2001:db8::5".toUTF8.toList,
      [0x20, 0x01, 0x0d, 0xb8, 0, 0, 0, 0, 0, 0, 0, 0, 0, 0, 0, 5])]

end Resolver

end FluxCore.Net
