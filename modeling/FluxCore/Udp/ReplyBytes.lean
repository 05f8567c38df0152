import FluxCore.Udp.Queues

/-!
# The bytes of a reply

A datagram is received into a buffer that has been used before: `data` is the datagram and what
lies after it. An announce reply that is stored should be that of the datagram alone
(`replyOf`). It is if the entries of the peers fill the datagram; otherwise one more is read, which
ends behind it.
-/

namespace FluxCore.Udp.UDPTrackerClient

open Utp (Bytes readBe16 readBe32)
open Bt (getIntParam)

/-- The complete entries of a datagram, in order. -/
def entries (datagram : Bytes) : List (Bytes × UInt16) :=
  (List.range ((datagram.length - 20) / 6)).map fun k =>
    ((datagram.drop (20 + 6 * k)).take 4, readBe16 ((datagram.drop (24 + 6 * k)).take 2))

/-- What a datagram says in reply to an announce. -/
def replyOf (datagram : Bytes) : UDPTrackerReply where
  action := getIntParam datagram 0
  transactionId := getIntParam datagram 4
  interval := getIntParam datagram 8
  leechers := getIntParam datagram 12
  seeders := getIntParam datagram 16
  peers := entries datagram

/-- The reply that is stored for an announce is that of the datagram, whatever lies after it. -/
def FromDatagram (c : UDPTrackerClient) (datagram : Bytes) (host : Host) (now : Nat) : Prop :=
  ∀ after i, i < c.requests.length → getIntParam datagram 0 = 1 →
    (c.receiveReply (datagram ++ after) datagram.length host now).1 = some i →
    ((c.receiveReply (datagram ++ after) datagram.length host now).2.request i).reply =
      some (replyOf datagram)

/-- The datagram is taken for the reply to an announce in flight. -/
def Stores (c : UDPTrackerClient) (datagram : Bytes) (host : Host) : Prop :=
  getIntParam datagram 0 = 1 ∧ 20 ≤ datagram.length ∧
    ∃ i < c.requests.length, c.findInflightRequest host (getIntParam datagram 4) = some i

variable {c : UDPTrackerClient} {datagram : Bytes} {host : Host} {now i : Nat}

theorem getIntParam_append (after : Bytes) {pos : Nat} (h : pos + 4 ≤ datagram.length) :
    getIntParam (datagram ++ after) pos = getIntParam datagram pos := by
  have hget : ∀ k < 4, ((datagram ++ after).drop pos).getD k 0 = (datagram.drop pos).getD k 0 := by
    intro k hk
    rw [List.getD_eq_getElem?_getD, List.getD_eq_getElem?_getD, List.getElem?_drop,
      List.getElem?_drop, List.getElem?_append_left (by omega)]
  rw [getIntParam, getIntParam, readBe32, readBe32, hget 0 (by decide), hget 1 (by decide),
    hget 2 (by decide), hget 3 (by decide)]

theorem readBe16_drop (after : Bytes) {pos : Nat} (h : pos + 2 ≤ datagram.length) :
    readBe16 ((datagram ++ after).drop pos) = readBe16 ((datagram.drop pos).take 2) := by
  have hget : ∀ k < 2, ((datagram ++ after).drop pos).getD k 0 =
      ((datagram.drop pos).take 2).getD k 0 := by
    intro k hk
    rw [List.getD_eq_getElem?_getD, List.getD_eq_getElem?_getD, List.getElem?_drop,
      List.getElem?_take_of_lt hk, List.getElem?_drop, List.getElem?_append_left (by omega)]
  rw [readBe16, readBe16, hget 0 (by decide), hget 1 (by decide)]

/-- Where the entries fill the datagram, its bytes are all that is read. -/
theorem unpackPeers_append (after : Bytes) (h : (datagram.length - 20) % 6 = 0) :
    unpackPeers (datagram ++ after) datagram.length = entries datagram := by
  have hcount : (datagram.length - 20 + 5) / 6 = (datagram.length - 20) / 6 := by omega
  rw [unpackPeers, entries, hcount]
  refine List.map_congr_left fun k hk => ?_
  have hk : k < (datagram.length - 20) / 6 := List.mem_range.mp hk
  rw [readBe16_drop after (by omega), List.drop_append_of_le_length (by omega),
    List.take_append_of_le_length (by rw [List.length_drop]; omega)]

theorem announceReply_append (after : Bytes) (hlen : 20 ≤ datagram.length)
    (h : (datagram.length - 20) % 6 = 0) :
    announceReply (datagram ++ after) datagram.length = replyOf datagram := by
  rw [announceReply, replyOf, getIntParam_append _ (by omega), getIntParam_append _ (by omega),
    getIntParam_append _ (by omega), getIntParam_append _ (by omega),
    getIntParam_append _ (by omega), unpackPeers_append after h]

/-- An announce reply as it is received. -/
theorem receiveReply_announce (after : Bytes) (haction : getIntParam datagram 0 = 1)
    (hlen : 20 ≤ datagram.length) (host : Host) (now : Nat) :
    c.receiveReply (datagram ++ after) datagram.length host now =
      match c.findInflightRequest host (getIntParam datagram 4) with
      | none => (none, c)
      | some i =>
        let c' := c.modify i fun r => { r with
          state := .complete, reply := some (announceReply (datagram ++ after) datagram.length) }
        (some i, { c' with inflightRequests := c'.inflightRequests.erase i }) := by
  rw [receiveReply, getIntParam_append after (by omega), getIntParam_append after (by omega),
    haction]
  dsimp only
  rw [if_neg (by decide), if_pos rfl]
  exact if_neg (by omega)

/-- A datagram that is too short for an announce reply is taken for no answer; if it has not even
an action, that of the bytes behind it does not matter. -/
theorem receiveReply_short (after : Bytes) (haction : getIntParam datagram 0 = 1)
    (hlen : datagram.length < 20) (host : Host) (now : Nat) :
    (c.receiveReply (datagram ++ after) datagram.length host now).1 = none := by
  rw [receiveReply]
  by_cases h4 : 4 ≤ datagram.length
  · rw [getIntParam_append after (by omega), haction]
    dsimp only
    rw [if_neg (by decide), if_pos rfl, if_pos hlen]
  · have h16 : datagram.length ≠ 16 := by omega
    have h8 : datagram.length < 8 := by omega
    rw [if_pos h16, if_pos hlen, if_pos h8]
    split
    · rfl
    · split
      · rfl
      · split <;> rfl

/-- The reply that is stored. -/
theorem reply_stored (now : Nat) (after : Bytes) (haction : getIntParam datagram 0 = 1)
    (hlen : 20 ≤ datagram.length) (hi : i < c.requests.length)
    (hfind : c.findInflightRequest host (getIntParam datagram 4) = some i) :
    (c.receiveReply (datagram ++ after) datagram.length host now).1 = some i ∧
      ((c.receiveReply (datagram ++ after) datagram.length host now).2.request i).reply =
        some (announceReply (datagram ++ after) datagram.length) := by
  rw [receiveReply_announce after haction hlen, hfind]
  refine ⟨rfl, ?_⟩
  have hmod := request_modify c i (fun r => { r with
    state := .complete, reply := some (announceReply (datagram ++ after) datagram.length) }) i
  rw [if_pos ⟨rfl, hi⟩] at hmod
  exact congrArg UDPTrackerRequest.reply hmod

/-- **A stored announce reply is made of the datagram's own bytes if and only if the entries of the
peers fill the datagram.** -/
theorem fromDatagram_iff (c : UDPTrackerClient) (datagram : Bytes) (host : Host) (now : Nat) :
    FromDatagram c datagram host now ↔
      (Stores c datagram host → (datagram.length - 20) % 6 = 0) := by
  constructor
  · rintro h ⟨haction, hlen, i, hi, hfind⟩
    obtain ⟨hsome, hreply⟩ := reply_stored now [] haction hlen hi hfind
    have heq := Option.some.inj ((h [] i hi haction hsome).symm.trans hreply)
    have hpeers := congrArg (fun r : UDPTrackerReply => r.peers.length) heq
    simp only [replyOf, entries, announceReply, unpackPeers, List.length_map, List.length_range]
      at hpeers
    omega
  · intro h after i hi haction hsome
    by_cases hlen : 20 ≤ datagram.length
    · rw [receiveReply_announce after haction hlen] at hsome
      cases hfind : c.findInflightRequest host (getIntParam datagram 4) with
      | none =>
        rw [hfind] at hsome
        cases hsome
      | some j =>
        rw [hfind] at hsome
        obtain rfl := Option.some.inj hsome
        have hfill := h ⟨haction, hlen, j, hi, hfind⟩
        rw [(reply_stored now after haction hlen hi hfind).2, announceReply_append after hlen hfill]
    · rw [receiveReply_short after haction (Nat.lt_of_not_le hlen)] at hsome
      cases hsome

/-- An announce to a tracker has been sent. -/
def announced : UDPTrackerClient :=
  run {} [.addRequest { remoteAddr := "192.168.0.1", remotePort := 6991, action := .announce },
    .createRequest 0 7, .requestSent 0,
    .receiveReply [0, 0, 0, 0, 0, 0, 0, 7, 0, 0, 0, 0, 0, 0, 0, 1] 16 ("192.168.0.1", 6991) 0,
    .createRequest 0 8, .requestSent 0]

/-- The reply to it with one byte behind the header: a peer is read from what lies behind. -/
theorem fromDatagram_counterexample :
    ¬FromDatagram announced ([0, 0, 0, 1, 0, 0, 0, 8] ++ List.replicate 13 0)
      ("192.168.0.1", 6991) 0 := fun h =>
  absurd (h [1, 2, 3, 4, 5] 0 (by decide +kernel) (by decide) (by decide +kernel))
    (by decide +kernel)

end FluxCore.Udp.UDPTrackerClient
