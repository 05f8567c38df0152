import FluxCore.Lib.Run
import Mathlib.Data.List.AList
import Mathlib.Data.Finset.Basic
import Mathlib.Data.Finset.Dedup
import Mathlib.Data.String.Defs
import Mathlib.Algebra.Group.Nat.Defs

/-!
# The peers of a download

`DefaultPeerStorage` keeps the peers that wait for a connection and those that have one, the keys
of both, the bans and the number of connections to each address. A `Peer` is what does not change
of the object, and two peers are the same object if they are equal; what changes is in `info`.

Times are nanoseconds of `wallclock`; a ban ends by the clock alone.
-/

namespace FluxCore.Peers

def seconds (n : Nat) : Nat := n * 1000000000

/-- `serial` tells objects with one address and port apart. -/
structure Peer where
  serial : Nat
  ipaddr : String
  origPort : UInt16
  incoming : Bool := false
  deriving DecidableEq, Repr

namespace Peer

def key (p : Peer) : String × UInt16 := (p.ipaddr, p.origPort)

end Peer

structure PeerInfo where
  port : UInt16 := 0
  cuid : Nat := 0
  firstContactTime : Nat := 0
  dropStartTime : Nat := 0
  fromDHT : Bool := false
  fromPEX : Bool := false
  localPeer : Bool := false

/-- What a peer's connection says of it. -/
structure Connection where
  active : Bool
  disconnectedGracefully : Bool
  utp : Bool
  deriving DecidableEq, Repr

structure BadPeerEntry where
  expireTime : Nat
  source : String
  reason : String
  deriving DecidableEq, Repr

/-- The ban policies that the options switch off. -/
structure PolicyOff where
  idle : Bool := false
  badData : Bool := false
  zeroProgress : Bool := false
  snubbing : Bool := false

structure DefaultPeerStorage where
  maxPeerListSize : Nat := 512
  option : Option PolicyOff := none
  uniqPeers : Finset (String × UInt16) := ∅
  unusedPeers : List Peer := []
  usedPeers : List Peer := []
  droppedPeers : List Peer := []
  badPeers : AList fun _ : String => BadPeerEntry := ∅
  lastBadPeerCleaned : Nat := 0
  attemptStats : AList fun _ : String => Nat := ∅
  failStats : AList fun _ : String => Nat := ∅
  tcpFailStats : AList fun _ : String => Nat := ∅
  utpFailStats : AList fun _ : String => Nat := ∅
  ipConnections : AList fun _ : String => Nat := ∅
  info : Peer → PeerInfo := fun _ => {}
  wallclock : Nat := 0

namespace DefaultPeerStorage

def MAX_CONNECTIONS_PER_IP : Nat := 3

def peerKey (ipaddr : String) (port : UInt16) : String := ipaddr ++ ":" ++ toString port.toNat

/-- `m[key] += 1`. -/
def increment (m : AList fun _ : String => Nat) (key : String) : AList fun _ : String => Nat :=
  m.insert key ((m.lookup key).getD 0 + 1)

def setInfo (peer : Peer) (i : PeerInfo) (s : DefaultPeerStorage) : DefaultPeerStorage :=
  { s with info := fun p => if p = peer then i else s.info p }

def erasePeerStats (ipaddr : String) (port : UInt16) (s : DefaultPeerStorage) :
    DefaultPeerStorage :=
  let key := peerKey ipaddr port
  { s with
    attemptStats := s.attemptStats.erase key
    failStats := s.failStats.erase key
    tcpFailStats := s.tcpFailStats.erase key
    utpFailStats := s.utpFailStats.erase key }

def recordPeerFailure (peer : Peer) (utp : Bool) (s : DefaultPeerStorage) : DefaultPeerStorage :=
  let key := peerKey peer.ipaddr peer.origPort
  let s := { s with failStats := increment s.failStats key }
  if utp then { s with utpFailStats := increment s.utpFailStats key }
  else { s with tcpFailStats := increment s.tcpFailStats key }

def isPeerAlreadyAdded (peer : Peer) (s : DefaultPeerStorage) : Bool := peer.key ∈ s.uniqPeers

def addUniqPeer (peer : Peer) (s : DefaultPeerStorage) : DefaultPeerStorage :=
  { s with uniqPeers := insert peer.key s.uniqPeers }

def onErasingPeer (peer : Peer) (s : DefaultPeerStorage) : DefaultPeerStorage :=
  { s with uniqPeers := s.uniqPeers.erase peer.key }

def getPeer (key : String × UInt16) (s : DefaultPeerStorage) : Option Peer :=
  (s.unusedPeers ++ s.usedPeers).find? (·.key = key)

def mergePeerDiscoveryFlags (target source : Peer) (s : DefaultPeerStorage) :
    DefaultPeerStorage :=
  let i := s.info target
  let j := s.info source
  s.setInfo target { i with
    fromDHT := i.fromDHT || j.fromDHT
    fromPEX := i.fromPEX || j.fromPEX
    localPeer := i.localPeer || j.localPeer }

/-- The peer that has the key already takes over the flags. -/
def mergeExisting (peer : Peer) (s : DefaultPeerStorage) : DefaultPeerStorage :=
  match s.getPeer peer.key with
  | some existing => s.mergePeerDiscoveryFlags existing peer
  | none => s

/-- The answer of `isBadPeer`. -/
def isBad (ipaddr : String) (s : DefaultPeerStorage) : Bool :=
  match s.badPeers.lookup ipaddr with
  | none => false
  | some entry => s.wallclock < entry.expireTime

/-- `isBadPeer`: a ban that is over is erased. -/
def isBadPeer (ipaddr : String) (s : DefaultPeerStorage) : Bool × DefaultPeerStorage :=
  match s.badPeers.lookup ipaddr with
  | none => (false, s)
  | some entry =>
    if entry.expireTime ≤ s.wallclock then
      (false, { s with badPeers := s.badPeers.erase ipaddr })
    else (true, s)

/-- `deleteUnusedPeer`: takes peers from the back. -/
def deleteUnusedPeer : Nat → DefaultPeerStorage → DefaultPeerStorage
  | 0, s => s
  | delSize + 1, s =>
    match s.unusedPeers.getLast? with
    | none => s
    | some peer =>
      let s := (s.onErasingPeer peer).erasePeerStats peer.ipaddr peer.origPort
      deleteUnusedPeer delSize { s with unusedPeers := s.unusedPeers.dropLast }

/-- `addPeer` of one peer. -/
def addPeer (peer : Peer) (s : DefaultPeerStorage) : DefaultPeerStorage × Bool :=
  if s.maxPeerListSize ≤ s.unusedPeers.length then (s, false)
  else if s.isPeerAlreadyAdded peer then (s.mergeExisting peer, false)
  else
    let (bad, s) := s.isBadPeer peer.ipaddr
    if bad then (s, false)
    else
      let peerListSize := s.unusedPeers.length
      let s :=
        if s.maxPeerListSize ≤ peerListSize then
          s.deleteUnusedPeer (peerListSize - s.maxPeerListSize + 1)
        else s
      (({ s with unusedPeers := s.unusedPeers ++ [peer] }).addUniqPeer peer, true)

/-- A turn of the loop of `addPeer` for several peers. -/
def addOne (s : DefaultPeerStorage) (peer : Peer) : DefaultPeerStorage :=
  if s.isPeerAlreadyAdded peer then s.mergeExisting peer
  else
    let (bad, s) := s.isBadPeer peer.ipaddr
    if bad then s else ({ s with unusedPeers := s.unusedPeers ++ [peer] }).addUniqPeer peer

/-- `addPeer` of several peers. -/
def addPeers (peers : List Peer) (s : DefaultPeerStorage) : DefaultPeerStorage :=
  let s := if s.unusedPeers.length < s.maxPeerListSize then peers.foldl addOne s else s
  let peerListSize := s.unusedPeers.length
  if s.maxPeerListSize < peerListSize then s.deleteUnusedPeer (peerListSize - s.maxPeerListSize)
  else s

def isIpConnectionFull (ip : String) (s : DefaultPeerStorage) : Bool :=
  match s.ipConnections.lookup ip with
  | none => false
  | some n => MAX_CONNECTIONS_PER_IP ≤ n

/-- What the loop of `checkoutPeer` does with the peer that it returns. -/
def checkOut (peer : Peer) (cuid : Nat) (s : DefaultPeerStorage) : DefaultPeerStorage :=
  let i := s.info peer
  let firstContactTime := if i.firstContactTime = 0 then s.wallclock else i.firstContactTime
  let s := s.setInfo peer { i with firstContactTime, cuid }
  { s with
    usedPeers := if peer ∈ s.usedPeers then s.usedPeers else peer :: s.usedPeers
    ipConnections := increment s.ipConnections peer.ipaddr
    attemptStats := increment s.attemptStats (peerKey peer.ipaddr peer.origPort) }

/-- The loop of `checkoutPeer`, which takes each peer from the front at most once. -/
def checkoutLoop (cuid : Nat) : Nat → DefaultPeerStorage → DefaultPeerStorage × Option Peer
  | 0, s => (s, none)
  | n + 1, s =>
    match s.unusedPeers with
    | [] => (s, none)
    | peer :: rest =>
      let (bad, s) := isBadPeer peer.ipaddr { s with unusedPeers := rest }
      if bad then checkoutLoop cuid n (s.onErasingPeer peer)
      else if s.isIpConnectionFull peer.ipaddr then
        checkoutLoop cuid n { s with unusedPeers := s.unusedPeers ++ [peer] }
      else (s.checkOut peer cuid, some peer)

def checkoutPeer (cuid : Nat) (s : DefaultPeerStorage) : DefaultPeerStorage × Option Peer :=
  checkoutLoop cuid s.unusedPeers.length s

def addAndCheckoutPeer (peer : Peer) (cuid : Nat) (s : DefaultPeerStorage) :
    DefaultPeerStorage × Option Peer :=
  let (bad, s) := s.isBadPeer peer.ipaddr
  if bad then (s, none)
  else if s.isPeerAlreadyAdded peer then
    match s.unusedPeers.find? (·.key = peer.key) with
    | none => (s, none)
    | some p =>
      let s := s.mergePeerDiscoveryFlags peer p
      checkoutPeer cuid
        { s with unusedPeers := peer :: s.unusedPeers.eraseP (·.key = peer.key) }
  else
    let s := s.addUniqPeer peer
    checkoutPeer cuid { s with unusedPeers := peer :: s.unusedPeers }

/-- `addDroppedPeer`. -/
def addDroppedPeer (peer : Peer) (s : DefaultPeerStorage) : DefaultPeerStorage :=
  let dropped := peer :: s.droppedPeers.eraseP fun p =>
    p.ipaddr = peer.ipaddr ∧ (s.info p).port = (s.info peer).port
  if 50 < dropped.length then
    match dropped.getLast? with
    | none => s
    | some evicted =>
      { s.erasePeerStats evicted.ipaddr evicted.origPort with droppedPeers := dropped.dropLast }
  else { s with droppedPeers := dropped }

/-- `--ipConnections_[ip]`, which goes when it comes to nothing. -/
def releaseConnection (ip : String) (s : DefaultPeerStorage) : DefaultPeerStorage :=
  match s.ipConnections.lookup ip with
  | none => s
  | some n =>
    if 1 < n then { s with ipConnections := s.ipConnections.insert ip (n - 1) }
    else { s with ipConnections := s.ipConnections.erase ip }

/-- `onReturningPeer`, without the choking it may call for. -/
def onReturningPeer (peer : Peer) (c : Connection) (s : DefaultPeerStorage) :
    DefaultPeerStorage :=
  let s := s.releaseConnection peer.ipaddr
  let s :=
    if c.active ∧ c.disconnectedGracefully ∧ peer.incoming = false then
      (s.setInfo peer { s.info peer with
        firstContactTime := 0, dropStartTime := s.wallclock }).addDroppedPeer peer
    else s
  s.setInfo peer { s.info peer with cuid := 0 }

def returnPeer (peer : Peer) (c : Connection) (s : DefaultPeerStorage) : DefaultPeerStorage :=
  if peer ∈ s.usedPeers then
    ({ s with usedPeers := s.usedPeers.erase peer }.onReturningPeer peer c).onErasingPeer peer
  else s

/-! ## Bans -/

/-- The options have switched off bans for the reason. -/
def policyOff (reason : String) (s : DefaultPeerStorage) : Bool :=
  match s.option with
  | none => false
  | some o =>
    let r := if reason = "" then "auto" else reason
    (r = "idle" && o.idle) || (r = "bad_data" && o.badData) ||
      (r = "zero_progress" && o.zeroProgress) || (r = "snubbing" && o.snubbing)

/-- Bans that are over are erased, once an hour. -/
def cleanBadPeers (s : DefaultPeerStorage) : DefaultPeerStorage :=
  if seconds 3600 ≤ s.wallclock - s.lastBadPeerCleaned then
    { s with
      badPeers := (s.badPeers.keys.filter fun ip => !s.isBad ip).foldl (fun m ip => m.erase ip)
        s.badPeers
      lastBadPeerCleaned := s.wallclock }
  else s

/-- `addBadPeer`, where `random` is a number below 601. -/
def addBadPeer (ipaddr reason : String) (random : Nat) (s : DefaultPeerStorage) :
    DefaultPeerStorage :=
  if s.policyOff reason then s
  else
    let s := s.cleanBadPeers
    let expireTime := s.wallclock + seconds (max random 120)
    let reason := if reason = "" then "auto" else reason
    { s with badPeers := s.badPeers.insert ipaddr { expireTime, source := "auto", reason } }

def addBadPeerManual (ipaddr : String) (expireTime : Nat) (reason : String)
    (s : DefaultPeerStorage) : DefaultPeerStorage :=
  let reason := if reason = "" then "manual" else reason
  { s with badPeers := s.badPeers.insert ipaddr { expireTime, source := "manual", reason } }

def removeBadPeer (ipaddr : String) (s : DefaultPeerStorage) : DefaultPeerStorage :=
  { s with badPeers := s.badPeers.erase ipaddr }

/-! ## Runs -/

inductive Event where
  | addPeer (peer : Peer)
  | addPeers (peers : List Peer)
  | addAndCheckoutPeer (peer : Peer) (cuid : Nat)
  | checkoutPeer (cuid : Nat)
  | returnPeer (peer : Peer) (c : Connection)
  | recordPeerFailure (peer : Peer) (utp : Bool)
  | addBadPeer (ipaddr reason : String) (random : Nat)
  | addBadPeerManual (ipaddr : String) (expireTime : Nat) (reason : String)
  | removeBadPeer (ipaddr : String)
  | isBadPeer (ipaddr : String)
  /-- The clock, the options and the peers themselves change. -/
  | outside (wallclock : Nat) (option : Option PolicyOff) (info : Peer → PeerInfo)

def step (s : DefaultPeerStorage) : Event → DefaultPeerStorage
  | .addPeer peer => (s.addPeer peer).1
  | .addPeers peers => s.addPeers peers
  | .addAndCheckoutPeer peer cuid => (s.addAndCheckoutPeer peer cuid).1
  | .checkoutPeer cuid => (s.checkoutPeer cuid).1
  | .returnPeer peer c => s.returnPeer peer c
  | .recordPeerFailure peer utp => s.recordPeerFailure peer utp
  | .addBadPeer ipaddr reason random => s.addBadPeer ipaddr reason random
  | .addBadPeerManual ipaddr expireTime reason => s.addBadPeerManual ipaddr expireTime reason
  | .removeBadPeer ipaddr => s.removeBadPeer ipaddr
  | .isBadPeer ipaddr => (s.isBadPeer ipaddr).2
  | .outside wallclock option info => { s with wallclock, option, info }

end DefaultPeerStorage

end FluxCore.Peers
