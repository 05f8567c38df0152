import FluxCore.Bencode.Dict
import FluxCore.Metadata.Exchange
import FluxCore.Net.CompactAddress

/-!
# Peer exchange

`UTPexExtensionMessage`. Addresses and flags travel in separate strings, one pair of them for each
family, and are brought together again by position. Time is counted in nanoseconds.
-/

namespace FluxCore.Bt

open Utp (Bytes)
open Bencode (ValueBase Dict BencodeError name encode decode)
open Bencode.BencodeParser (INT64_MAX)
open Metadata (errorCode)
open Net (Resolver Family getCompactLength)

/-! ## The message -/

/-- The members of a peer that the message is about. -/
structure ExchangedPeer where
  ipaddr : Bytes
  port : UInt16
  active : Bool := false
  incoming : Bool := false
  seeder : Bool := false
  utpCapable : Bool := false
  fromPEX : Bool := false
  firstContactTime : Nat := 0
  dropStartTime : Nat := 0
  deriving DecidableEq, Repr

def DEFAULT_INTERVAL : Nat := 20 * 1000000000

def DEFAULT_MAX_FRESH_PEER : Nat := 120

def DEFAULT_MAX_DROPPED_PEER : Nat := 120

/-- The flags of a peer: that it has all pieces, and that it takes uTP connections. -/
def flags (p : ExchangedPeer) : UInt8 :=
  (if p.seeder then 0x02 else 0x00) ||| (if p.utpCapable then 0x04 else 0x00)

/-- A pair of strings, of addresses and of flags, for each family. -/
structure CompactPeerList where
  addr : Bytes := []
  flag : Bytes := []
  addr6 : Bytes := []
  flag6 : Bytes := []

def createCompactPeerListAndFlag (net : Resolver) (peers : List ExchangedPeer) :
    CompactPeerList :=
  peers.foldl (fun l p =>
    let compact := net.packcompact p.ipaddr p.port
    if compact.length = getCompactLength .AF_INET then
      { l with addr := l.addr ++ compact, flag := l.flag ++ [flags p] }
    else if compact.length = getCompactLength .AF_INET6 then
      { l with addr6 := l.addr6 ++ compact, flag6 := l.flag6 ++ [flags p] }
    else l) {}

structure UTPexExtensionMessage where
  extensionMessageID : UInt8
  freshPeers : List ExchangedPeer := []
  droppedPeers : List ExchangedPeer := []
  deriving DecidableEq

namespace UTPexExtensionMessage

/-- A member that is left out if it is empty. -/
def putString (dict : Dict) (key : String) (s : Bytes) : Dict :=
  if s = [] then dict else dict.put (name key) (.string s)

/-- A string of addresses with that of their flags, left out if there are none. -/
def putPair (dict : Dict) (key keyFlag : String) (addr flag : Bytes) : Dict :=
  if addr = [] then dict
  else (dict.put (name key) (.string addr)).put (name keyFlag) (.string flag)

def payloadDict (net : Resolver) (m : UTPexExtensionMessage) : Dict :=
  let fresh := createCompactPeerListAndFlag net m.freshPeers
  let dropped := createCompactPeerListAndFlag net m.droppedPeers
  let dict := putPair [] "added" "added.f" fresh.addr fresh.flag
  let dict := putString dict "dropped" dropped.addr
  let dict := putPair dict "added6" "added6.f" fresh.addr6 fresh.flag6
  putString dict "dropped6" dropped.addr6

def getPayload (net : Resolver) (m : UTPexExtensionMessage) : Bytes :=
  encode (.dict (m.payloadDict net))

/-- `addFreshPeer`. -/
def addFreshPeer (now : Nat) (m : UTPexExtensionMessage) (p : ExchangedPeer) :
    UTPexExtensionMessage :=
  if !p.incoming && now - p.firstContactTime < DEFAULT_INTERVAL then
    { m with freshPeers := m.freshPeers ++ [p] }
  else m

/-- `addDroppedPeer`. -/
def addDroppedPeer (now : Nat) (m : UTPexExtensionMessage) (p : ExchangedPeer) :
    UTPexExtensionMessage :=
  if !p.incoming && now - p.dropStartTime < DEFAULT_INTERVAL then
    { m with droppedPeers := m.droppedPeers ++ [p] }
  else m

/-- The peers of a string, which are new. -/
def newPeers (net : Resolver) (now : Nat) (family : Family) (s : Option Bytes) :
    List ExchangedPeer :=
  match s with
  | none => []
  | some s => (net.extractPeer family s).map fun p =>
    { ipaddr := p.1, port := p.2, firstContactTime := now }

/-- The peers with a flag are marked, as far as there are both. -/
def markUtpCapable : List ExchangedPeer → Bytes → List ExchangedPeer
  | p :: ps, f :: fs =>
    (if f &&& 0x04 ≠ 0 then { p with utpCapable := true } else p) :: markUtpCapable ps fs
  | ps, _ => ps

/-- `create` from a dictionary. -/
def ofDict (net : Resolver) (now : Nat) (id : UInt8) (dict : Dict) : UTPexExtensionMessage :=
  let added := newPeers net now .AF_INET (dict.getString (name "added"))
  let dropped := newPeers net now .AF_INET (dict.getString (name "dropped"))
  let added6 := newPeers net now .AF_INET6 (dict.getString (name "added6"))
  let dropped6 := newPeers net now .AF_INET6 (dict.getString (name "dropped6"))
  let added := markUtpCapable added ((dict.getString (name "added.f")).getD [])
  let added6 := markUtpCapable added6 ((dict.getString (name "added6.f")).getD [])
  { extensionMessageID := id
    freshPeers := (added ++ added6).map ({ · with fromPEX := true })
    droppedPeers := (dropped ++ dropped6).map ({ · with fromPEX := true }) }

/-- `create`, of all bytes of the extended message; `none` where the parser has no result. -/
def create (net : Resolver) (now : Nat) (data : Bytes) :
    Option (Except String UTPexExtensionMessage) :=
  match data with
  | [] => some (.error "Too small payload size for ut_pex, size=0.")
  | id :: data =>
    match decode data with
    | none => none
    | some (.error e) => some (.error s!"Bencode decoding failed: error={errorCode e}")
    | some (.ok (_, some (.dict dict))) => some (.ok (ofDict net now id dict))
    | some (.ok _) => some (.ok { extensionMessageID := id })

end UTPexExtensionMessage

/-- The loops of `addPeerExchangeMessage`: peers are added until the message is full, except the one
that the message is for. -/
def addPeers (usable : ExchangedPeer → Bool) (isFull : UTPexExtensionMessage → Bool)
    (add : UTPexExtensionMessage → ExchangedPeer → UTPexExtensionMessage) :
    List ExchangedPeer → UTPexExtensionMessage → UTPexExtensionMessage
  | [], m => m
  | p :: ps, m =>
    if isFull m then m else addPeers usable isFull add ps (if usable p then add m p else m)

/-- The message of `addPeerExchangeMessage`. -/
def addPeerExchangeMessage (now : Nat) (id : UInt8) (ipaddr : Bytes)
    (usedPeers droppedPeers : List ExchangedPeer) : UTPexExtensionMessage :=
  let m := addPeers (fun p => p.active && ipaddr ≠ p.ipaddr)
    (fun m => DEFAULT_MAX_FRESH_PEER ≤ m.freshPeers.length)
    (UTPexExtensionMessage.addFreshPeer now) usedPeers { extensionMessageID := id }
  addPeers (fun p => ipaddr ≠ p.ipaddr)
    (fun m => DEFAULT_MAX_DROPPED_PEER ≤ m.droppedPeers.length)
    (UTPexExtensionMessage.addDroppedPeer now) droppedPeers m

/-! ## The payload -/

section Payload

variable {net : Resolver} {now : Nat} {peers : List ExchangedPeer} {d : Dict}

/-- The peers with an address of the family. -/
def ofFamily (net : Resolver) (family : Family) (peers : List ExchangedPeer) :
    List ExchangedPeer :=
  peers.filter fun p => (net.packcompact p.ipaddr p.port).length = getCompactLength family

def packAll (net : Resolver) (peers : List ExchangedPeer) : Bytes :=
  peers.flatMap fun p => net.packcompact p.ipaddr p.port

theorem createCompactPeerListAndFlag_eq (net : Resolver) (peers : List ExchangedPeer) :
    createCompactPeerListAndFlag net peers = {
      addr := packAll net (ofFamily net .AF_INET peers)
      flag := (ofFamily net .AF_INET peers).map flags
      addr6 := packAll net (ofFamily net .AF_INET6 peers)
      flag6 := (ofFamily net .AF_INET6 peers).map flags } := by
  have hne : getCompactLength .AF_INET ≠ getCompactLength .AF_INET6 := by decide
  induction peers using List.reverseRecOn with
  | nil => rfl
  | append_singleton peers p ih =>
    rw [createCompactPeerListAndFlag, List.foldl_append, ← createCompactPeerListAndFlag, ih,
      List.foldl_cons, List.foldl_nil]
    simp only [ofFamily, packAll, List.filter_append, List.flatMap_append, List.map_append]
    by_cases h4 : (net.packcompact p.ipaddr p.port).length = getCompactLength .AF_INET
    · simp [h4, hne]
    · by_cases h6 : (net.packcompact p.ipaddr p.port).length = getCompactLength .AF_INET6
      · simp [h6, Ne.symm hne]
      · simp [h4, h6]

theorem getString_putString (d : Dict) (key k : String) (s : Bytes) :
    Dict.getString (UTPexExtensionMessage.putString d key s) (name k) =
      if k = key ∧ s ≠ [] then some s else d.getString (name k) := by
  rw [UTPexExtensionMessage.putString]
  by_cases hs : s = []
  · rw [if_pos hs, if_neg fun h => h.2 hs]
  · rw [if_neg hs, Dict.getString_put]
    simp only [Bencode.name_inj, hs, ne_eq, not_false_eq_true, and_true]

theorem getString_putPair (d : Dict) (key keyFlag k : String) (s f : Bytes) :
    Dict.getString (UTPexExtensionMessage.putPair d key keyFlag s f) (name k) =
      if k = keyFlag ∧ s ≠ [] then some f else if k = key ∧ s ≠ [] then some s
      else d.getString (name k) := by
  rw [UTPexExtensionMessage.putPair]
  by_cases hs : s = []
  · rw [if_pos hs, if_neg fun h => h.2 hs, if_neg fun h => h.2 hs]
  · rw [if_neg hs, Dict.getString_put, Dict.getString_put]
    simp only [Bencode.name_inj, hs, ne_eq, not_false_eq_true, and_true]

/-- The string, unless it is empty. -/
def present (s : Bytes) : Option Bytes := if s = [] then none else some s

theorem getString_payloadDict {m : UTPexExtensionMessage} {fresh dropped : CompactPeerList}
    (hfresh : createCompactPeerListAndFlag net m.freshPeers = fresh)
    (hdropped : createCompactPeerListAndFlag net m.droppedPeers = dropped) :
    (m.payloadDict net).getString (name "added") = present fresh.addr ∧
      (m.payloadDict net).getString (name "added.f") =
        (present fresh.addr).map (fun _ => fresh.flag) ∧
      (m.payloadDict net).getString (name "added6") = present fresh.addr6 ∧
      (m.payloadDict net).getString (name "added6.f") =
        (present fresh.addr6).map (fun _ => fresh.flag6) ∧
      (m.payloadDict net).getString (name "dropped") = present dropped.addr ∧
      (m.payloadDict net).getString (name "dropped6") = present dropped.addr6 := by
  have hnil : ∀ k : String, Dict.getString [] (name k) = none := fun _ => rfl
  simp only [UTPexExtensionMessage.payloadDict, getString_putString, getString_putPair, hnil,
    hfresh, hdropped, present, String.reduceEq, false_and, if_false, true_and]
  refine ⟨?_, ?_, ?_, ?_, ?_, ?_⟩ <;> split <;> simp_all

theorem length_packAll_le (net : Resolver) (family : Family) (peers : List ExchangedPeer) :
    (packAll net (ofFamily net family peers)).length ≤ 18 * peers.length := by
  have hcompact : getCompactLength family ≤ 18 := by cases family <;> decide
  induction peers with
  | nil => exact Nat.zero_le _
  | cons p peers ih =>
    rw [ofFamily, List.filter_cons]
    split
    next h =>
      have hp : (net.packcompact p.ipaddr p.port).length = getCompactLength family :=
        of_decide_eq_true h
      rw [packAll, List.flatMap_cons, List.length_append, hp, List.length_cons]
      change _ + (packAll net (ofFamily net family peers)).length ≤ _
      omega
    next => exact ih.trans (Nat.mul_le_mul_left _ (Nat.le_succ _))

theorem fits_putString (h : Dict.Fits 49 d) {key : String} {s : Bytes}
    (hkey : (name key).length ≤ INT64_MAX) (hs : s.length ≤ INT64_MAX) :
    Dict.Fits 49 (UTPexExtensionMessage.putString d key s) := by
  rw [UTPexExtensionMessage.putString]
  split
  · exact h
  · exact h.putString hkey hs

theorem fits_putPair (h : Dict.Fits 49 d) {key keyFlag : String} {s f : Bytes}
    (hkey : (name key).length ≤ INT64_MAX) (hkeyFlag : (name keyFlag).length ≤ INT64_MAX)
    (hs : s.length ≤ INT64_MAX) (hf : f.length ≤ INT64_MAX) :
    Dict.Fits 49 (UTPexExtensionMessage.putPair d key keyFlag s f) := by
  rw [UTPexExtensionMessage.putPair]
  split
  · exact h
  · exact (h.putString hkey hs).putString hkeyFlag hf

/-- What is put into the payload fits. -/
theorem fits_payloadDict {m : UTPexExtensionMessage}
    (hfresh : m.freshPeers.length ≤ DEFAULT_MAX_FRESH_PEER)
    (hdropped : m.droppedPeers.length ≤ DEFAULT_MAX_DROPPED_PEER) :
    Dict.Fits 49 (m.payloadDict net) := by
  have hmax : INT64_MAX = 9223372036854775807 := rfl
  have hkeys : (name "added").length ≤ INT64_MAX ∧ (name "added.f").length ≤ INT64_MAX ∧
      (name "added6").length ≤ INT64_MAX ∧ (name "added6.f").length ≤ INT64_MAX ∧
      (name "dropped").length ≤ INT64_MAX ∧ (name "dropped6").length ≤ INT64_MAX := by
    decide +kernel
  obtain ⟨hadded, haddedF, hadded6, hadded6F, hdrop, hdrop6⟩ := hkeys
  have haddr : ∀ family (ps : List ExchangedPeer), ps.length ≤ 120 →
      (packAll net (ofFamily net family ps)).length ≤ INT64_MAX := fun family ps hps => by
    have := length_packAll_le net family ps
    omega
  have hflag : ∀ family (ps : List ExchangedPeer), ps.length ≤ 120 →
      ((ofFamily net family ps).map flags).length ≤ INT64_MAX := fun family ps hps => by
    have : (ofFamily net family ps).length ≤ ps.length := List.length_filter_le ..
    rw [List.length_map]
    omega
  rw [UTPexExtensionMessage.payloadDict, createCompactPeerListAndFlag_eq,
    createCompactPeerListAndFlag_eq]
  exact fits_putString (fits_putPair (fits_putString (fits_putPair (.nil 49) hadded haddedF
    (haddr _ _ hfresh) (hflag _ _ hfresh)) hdrop (haddr _ _ hdropped)) hadded6 hadded6F
    (haddr _ _ hfresh) (hflag _ _ hfresh)) hdrop6 (haddr _ _ hdropped)

/-! ## The peers that are created -/

/-- The peer as it is at the other end. -/
def received (now : Nat) (utpCapable : Bool) (p : ExchangedPeer) : ExchangedPeer :=
  { ipaddr := p.ipaddr, port := p.port, utpCapable, fromPEX := true, firstContactTime := now }

theorem packAll_eq_nil {family : Family} :
    packAll net (ofFamily net family peers) = [] ↔ ofFamily net family peers = [] := by
  refine ⟨fun h => List.eq_nil_iff_forall_not_mem.mpr fun p hp => ?_, fun h => by rw [h]; rfl⟩
  have hlen := of_decide_eq_true (List.mem_filter.mp hp).2
  rw [List.flatMap_eq_nil_iff.mp h p hp] at hlen
  cases family <;> exact absurd hlen (by decide)

theorem newPeers_present {family : Family}
    (h : ∀ p ∈ ofFamily net family peers, net.Writes family p.ipaddr) :
    UTPexExtensionMessage.newPeers net now family
        (present (packAll net (ofFamily net family peers))) =
      (ofFamily net family peers).map fun p =>
        { ipaddr := p.ipaddr, port := p.port, firstContactTime := now } := by
  have hpack : packAll net (ofFamily net family peers) =
      ((ofFamily net family peers).map fun p => (p.ipaddr, p.port)).flatMap
        fun p => net.packcompact p.1 p.2 := by
    rw [packAll, List.flatMap_map]
  have hextract := Resolver.extractPeer_flatMap net family
    (l := (ofFamily net family peers).map fun p => (p.ipaddr, p.port)) fun q hq => by
      obtain ⟨p, hp, rfl⟩ := List.mem_map.mp hq
      exact h p hp
  rw [present]
  split
  next h0 => rw [packAll_eq_nil.mp h0]; rfl
  next =>
    rw [UTPexExtensionMessage.newPeers, hpack, hextract, List.map_map]
    rfl

/-- The flags are brought together with the peers that they are of. -/
theorem markUtpCapable_map (ps : List ExchangedPeer) (f : ExchangedPeer → ExchangedPeer)
    (hf : ∀ p, (f p).utpCapable = false) :
    UTPexExtensionMessage.markUtpCapable (ps.map f) (ps.map flags) =
      ps.map fun p => { f p with utpCapable := p.utpCapable } := by
  induction ps with
  | nil => rfl
  | cons p ps ih =>
    have hflag : flags p &&& 0x04 ≠ 0 ↔ p.utpCapable = true := by
      rw [flags]
      cases p.seeder <;> cases p.utpCapable <;> decide
    rw [List.map_cons, List.map_cons, List.map_cons, UTPexExtensionMessage.markUtpCapable, ih]
    congr 1
    cases hp : p.utpCapable with
    | true => rw [if_pos (hflag.mpr hp)]
    | false =>
      rw [if_neg fun h => Bool.false_ne_true (hp.symm.trans (hflag.mp h)), ← hf p]

/-- What is sent is created again. -/
theorem ofDict_payloadDict (m : UTPexExtensionMessage)
    (hfresh : ∀ family, ∀ p ∈ ofFamily net family m.freshPeers, net.Writes family p.ipaddr)
    (hdropped : ∀ family, ∀ p ∈ ofFamily net family m.droppedPeers, net.Writes family p.ipaddr) :
    UTPexExtensionMessage.ofDict net now m.extensionMessageID (m.payloadDict net) = {
      extensionMessageID := m.extensionMessageID
      freshPeers := (ofFamily net .AF_INET m.freshPeers ++ ofFamily net .AF_INET6 m.freshPeers).map
        fun p => received now p.utpCapable p
      droppedPeers :=
        (ofFamily net .AF_INET m.droppedPeers ++ ofFamily net .AF_INET6 m.droppedPeers).map
          (received now false) } := by
  obtain ⟨hadded, haddedF, hadded6, hadded6F, hdrop, hdrop6⟩ := getString_payloadDict
    (createCompactPeerListAndFlag_eq net m.freshPeers)
    (createCompactPeerListAndFlag_eq net m.droppedPeers)
  have hmark : ∀ family (ps : List ExchangedPeer),
      UTPexExtensionMessage.markUtpCapable
        ((ofFamily net family ps).map fun p =>
          { ipaddr := p.ipaddr, port := p.port, firstContactTime := now })
        (((present (packAll net (ofFamily net family ps))).map fun _ =>
          (ofFamily net family ps).map flags).getD []) =
      (ofFamily net family ps).map fun p =>
        { ipaddr := p.ipaddr, port := p.port, firstContactTime := now,
          utpCapable := p.utpCapable } := fun family ps => by
    rw [present]
    split
    next h0 => rw [packAll_eq_nil.mp h0]; rfl
    next => exact markUtpCapable_map _ _ fun _ => rfl
  rw [UTPexExtensionMessage.ofDict, hadded, haddedF, hadded6, hadded6F, hdrop, hdrop6,
    newPeers_present (hfresh _), newPeers_present (hfresh _), newPeers_present (hdropped _),
    newPeers_present (hdropped _)]
  dsimp only
  rw [hmark, hmark, ← List.map_append, ← List.map_append, List.map_map, List.map_map]
  rfl

end Payload

/-! ## A message from one end to the other -/

section Exchange

variable {net : Resolver} {now : Nat} {ps : List ExchangedPeer} {m : UTPexExtensionMessage}

/-- A peer that the other end is told of: it is usable, it has been connected to, and that is not
long ago. -/
def isTold (now : Nat) (usable : ExchangedPeer → Bool) (time : ExchangedPeer → Nat)
    (p : ExchangedPeer) : Bool :=
  usable p && (!p.incoming && decide (now - time p < DEFAULT_INTERVAL))

/-- The peers that the other end is told of, of which there are no more than `max`. -/
def told (now : Nat) (usable : ExchangedPeer → Bool) (time : ExchangedPeer → Nat) (max : Nat)
    (ps : List ExchangedPeer) : List ExchangedPeer :=
  (ps.filter (isTold now usable time)).take max

/-- The loop over the peers, for a message in which they are kept by `get` and `set`. -/
theorem addPeers_eq (get : UTPexExtensionMessage → List ExchangedPeer)
    (set : UTPexExtensionMessage → List ExchangedPeer → UTPexExtensionMessage)
    (add : UTPexExtensionMessage → ExchangedPeer → UTPexExtensionMessage)
    (time : ExchangedPeer → Nat) {max : Nat}
    (hadd : ∀ m p, add m p = if !p.incoming && decide (now - time p < DEFAULT_INTERVAL) then
      set m (get m ++ [p]) else m)
    (hget : ∀ m l, get (set m l) = l) (hset : ∀ m l l', set (set m l) l' = set m l')
    (hself : ∀ m, set m (get m) = m) (usable : ExchangedPeer → Bool)
    (hlen : (get m).length ≤ max) :
    addPeers usable (fun m => max ≤ (get m).length) add ps m =
      set m (get m ++ told now usable time (max - (get m).length) ps) := by
  induction ps generalizing m with
  | nil => rw [addPeers, told, List.filter_nil, List.take_nil, List.append_nil, hself]
  | cons p ps ih =>
    rw [addPeers]
    by_cases hfull : max ≤ (get m).length
    · rw [if_pos (decide_eq_true hfull), Nat.sub_eq_zero_of_le hfull, told, List.take_zero,
        List.append_nil, hself]
    · rw [if_neg (by simpa using hfull), told, List.filter_cons]
      by_cases htold : isTold now usable time p = true
      · obtain ⟨husable, hrest⟩ := Bool.and_eq_true_iff.mp htold
        obtain ⟨k, hk⟩ : ∃ k, max - (get m).length = k + 1 :=
          Nat.exists_eq_add_one.mpr (Nat.sub_pos_of_lt (Nat.lt_of_not_le hfull))
        rw [if_pos husable, hadd, if_pos hrest, if_pos htold, ih (by
          rw [hget, List.length_append]
          exact Nat.lt_of_not_le hfull), hget, hset, List.length_append, List.length_singleton,
          ← Nat.sub_sub, hk, Nat.add_sub_cancel, List.take_succ_cons, List.append_assoc,
          List.singleton_append, told]
      · have hskip : (if usable p = true then add m p else m) = m := by
          by_cases husable : usable p = true
          · rw [if_pos husable, hadd,
              if_neg fun h => htold (Bool.and_eq_true_iff.mpr ⟨husable, h⟩)]
          · rw [if_neg husable]
        rw [hskip, ih hlen, if_neg htold, told]

theorem addPeerExchangeMessage_eq (now : Nat) (id : UInt8) (ipaddr : Bytes)
    (usedPeers droppedPeers : List ExchangedPeer) :
    addPeerExchangeMessage now id ipaddr usedPeers droppedPeers = {
      extensionMessageID := id
      freshPeers := told now (fun p => p.active && ipaddr ≠ p.ipaddr) (·.firstContactTime)
        DEFAULT_MAX_FRESH_PEER usedPeers
      droppedPeers := told now (fun p => ipaddr ≠ p.ipaddr) (·.dropStartTime)
        DEFAULT_MAX_DROPPED_PEER droppedPeers } := by
  rw [addPeerExchangeMessage,
    addPeers_eq (·.freshPeers) (fun m l => { m with freshPeers := l })
      (UTPexExtensionMessage.addFreshPeer now) (·.firstContactTime) (fun _ _ => rfl)
      (fun _ _ => rfl) (fun _ _ _ => rfl) (fun _ => rfl) _ (Nat.zero_le _),
    addPeers_eq (·.droppedPeers) (fun m l => { m with droppedPeers := l })
      (UTPexExtensionMessage.addDroppedPeer now) (·.dropStartTime) (fun _ _ => rfl)
      (fun _ _ => rfl) (fun _ _ _ => rfl) (fun _ => rfl) _ (Nat.zero_le _)]
  rfl

/-- Every peer has an address of one of the families. -/
theorem ofFamily_perm (h : ∀ p ∈ ps, ∃ family, net.Writes family p.ipaddr) :
    (ofFamily net .AF_INET ps ++ ofFamily net .AF_INET6 ps).Perm ps := by
  have hnot : ofFamily net .AF_INET6 ps = ps.filter fun p =>
      !decide ((net.packcompact p.ipaddr p.port).length = getCompactLength .AF_INET) := by
    refine List.filter_congr fun p hp => ?_
    obtain ⟨family, hwrites⟩ := h p hp
    rw [hwrites.length_packcompact]
    cases family <;> rfl
  rw [hnot]
  exact List.filter_append_perm ..

theorem writes_of_mem_ofFamily {family : Family}
    (h : ∀ p ∈ ps, ∃ family, net.Writes family p.ipaddr) :
    ∀ p ∈ ofFamily net family ps, net.Writes family p.ipaddr := fun p hp => by
  obtain ⟨hmem, hlen⟩ := List.mem_filter.mp hp
  obtain ⟨family', hwrites⟩ := h p hmem
  exact hwrites.eq_family (of_decide_eq_true hlen) ▸ hwrites

theorem mem_of_mem_told {usable : ExchangedPeer → Bool} {time : ExchangedPeer → Nat} {max : Nat}
    {p : ExchangedPeer} (h : p ∈ told now usable time max ps) : p ∈ ps :=
  (List.mem_filter.mp (List.mem_of_mem_take h)).1

/-- **Peer exchange.** The message tells of the first 120 peers that are usable, new and connected
to, never of the one that it is for; and the other end creates the same peers from its bytes, each
with its own flag, those with an address of the first family before the others. -/
theorem exchanged (now' : Nat) (id : UInt8) (ipaddr : Bytes)
    (usedPeers droppedPeers : List ExchangedPeer)
    (h : ∀ p ∈ usedPeers ++ droppedPeers, ∃ family, net.Writes family p.ipaddr) :
    let m := addPeerExchangeMessage now id ipaddr usedPeers droppedPeers
    let fresh := ofFamily net .AF_INET m.freshPeers ++ ofFamily net .AF_INET6 m.freshPeers
    let dropped := ofFamily net .AF_INET m.droppedPeers ++ ofFamily net .AF_INET6 m.droppedPeers
    m.freshPeers = told now (fun p => p.active && ipaddr ≠ p.ipaddr) (·.firstContactTime) 120
        usedPeers ∧
      m.droppedPeers = told now (fun p => ipaddr ≠ p.ipaddr) (·.dropStartTime) 120
        droppedPeers ∧
      fresh.Perm m.freshPeers ∧ dropped.Perm m.droppedPeers ∧
      UTPexExtensionMessage.create net now' (id :: m.getPayload net) = some (.ok {
        extensionMessageID := id
        freshPeers := fresh.map fun p => received now' p.utpCapable p
        droppedPeers := dropped.map (received now' false) }) := by
  intro m fresh dropped
  have heq : m = _ := addPeerExchangeMessage_eq now id ipaddr usedPeers droppedPeers
  have hfresh : ∀ p ∈ m.freshPeers, ∃ family, net.Writes family p.ipaddr := fun p hp =>
    h p (List.mem_append_left _ (mem_of_mem_told (by rwa [heq] at hp)))
  have hdropped : ∀ p ∈ m.droppedPeers, ∃ family, net.Writes family p.ipaddr := fun p hp =>
    h p (List.mem_append_right _ (mem_of_mem_told (by rwa [heq] at hp)))
  have hid : m.extensionMessageID = id := congrArg (·.extensionMessageID) heq
  have hfits : Dict.Fits 49 (m.payloadDict net) := fits_payloadDict
    (by rw [heq]; exact List.length_take_le ..) (by rw [heq]; exact List.length_take_le ..)
  refine ⟨congrArg (·.freshPeers) heq, congrArg (·.droppedPeers) heq, ofFamily_perm hfresh,
    ofFamily_perm hdropped, ?_⟩
  rw [UTPexExtensionMessage.create, UTPexExtensionMessage.getPayload, hfits.decode]
  dsimp only
  rw [← hid, ofDict_payloadDict m (fun _ => writes_of_mem_ofFamily hfresh)
    fun _ => writes_of_mem_ofFamily hdropped]

/-- A peer that takes uTP connections, one of the other family that does too, and one that
connected to us. -/
def usedPeers : List ExchangedPeer :=
  [{ ipaddr := name "2001:db8::5", port := 6882, active := true, utpCapable := true },
    { ipaddr := name "10.0.0.7", port := 6881, active := true, seeder := true },
    { ipaddr := name "192.0.2.33", port := 6883, active := true, incoming := true },
    { ipaddr := name "10.0.0.7", port := 6885, active := true, utpCapable := true }]

def droppedPeers : List ExchangedPeer :=
  [{ ipaddr := name "192.0.2.33", port := 6884 }]

theorem exchanged_several :
    UTPexExtensionMessage.create Resolver.threeAddresses 5 (1 ::
        (addPeerExchangeMessage 0 1 [] usedPeers droppedPeers).getPayload
          Resolver.threeAddresses) =
      some (.ok {
        extensionMessageID := 1
        freshPeers :=
          [received 5 false { ipaddr := name "10.0.0.7", port := 6881 },
            received 5 true { ipaddr := name "10.0.0.7", port := 6885 },
            received 5 true { ipaddr := name "2001:db8::5", port := 6882 }]
        droppedPeers := [received 5 false { ipaddr := name "192.0.2.33", port := 6884 }] }) := by
  have hwrites : ∀ p ∈ usedPeers ++ droppedPeers,
      ∃ family, Resolver.threeAddresses.Writes family p.ipaddr := by
    have h : ∀ p ∈ usedPeers ++ droppedPeers,
        Resolver.threeAddresses.Writes .AF_INET p.ipaddr ∨
          Resolver.threeAddresses.Writes .AF_INET6 p.ipaddr := by decide +kernel
    exact fun p hp => (h p hp).elim (fun h => ⟨_, h⟩) fun h => ⟨_, h⟩
  obtain ⟨hfresh, hdropped, -, -, h⟩ :=
    exchanged 5 1 [] usedPeers droppedPeers hwrites
  rw [h, hfresh, hdropped, Option.some.injEq, Except.ok.injEq]
  decide +kernel

end Exchange

end FluxCore.Bt
