import FluxCore.Bt.RangeMessage
import FluxCore.Lib.Run
import Mathlib.Logic.Function.Basic

/-!
# The UDP tracker client

`UDPTrackerClient.cc`. A request is an object that the queues point to: `requests` holds the
objects and the queues their positions. Before an announce can be sent to a tracker, a CONNECT
request has to bring a connection ID; the announces that wait for one are in `connectRequests`.
Time is counted in nanoseconds.
-/

namespace FluxCore.Udp

open Utp (Bytes writeBe16 writeBe32)
open Bt (getIntParam)

def UDPT_INITIAL_CONNECTION_ID : UInt64 := 0x41727101980

def seconds (n : Nat) : Nat := n * 1000000000

inductive Action where
  | connect | announce
  deriving DecidableEq, Repr

def Action.code : Action → UInt32
  | .connect => 0
  | .announce => 1

inductive Error where
  | success | tracker | timeout | network | shutdown
  deriving DecidableEq, Repr

inductive State where
  | pending | complete
  deriving DecidableEq, Repr

inductive TrackerEvent where
  | none | completed | started | stopped
  deriving DecidableEq, Repr

def TrackerEvent.code : TrackerEvent → UInt32
  | .none => 0
  | .completed => 1
  | .started => 2
  | .stopped => 3

/-- The address of a peer is kept as its four bytes. -/
structure UDPTrackerReply where
  action : UInt32
  transactionId : UInt32
  interval : UInt32
  leechers : UInt32
  seeders : UInt32
  peers : List (Bytes × UInt16)
  deriving DecidableEq, Repr

structure UDPTrackerRequest where
  remoteAddr : String := ""
  remotePort : UInt16 := 0
  connectionId : UInt64 := 0
  action : Action := .connect
  transactionId : UInt32 := 0
  infohash : Bytes := []
  peerId : Bytes := []
  downloaded : UInt64 := 0
  left : UInt64 := 0
  uploaded : UInt64 := 0
  event : TrackerEvent := .none
  ip : Bytes := [0, 0, 0, 0]
  key : UInt32 := 0
  numWant : UInt32 := 0
  port : UInt16 := 0
  state : State := .pending
  error : Error := .success
  dispatched : Nat := 0
  failCount : Nat := 0
  reply : Option UDPTrackerReply := none
  deriving DecidableEq, Repr, Inhabited

/-- The tracker a request is for. -/
abbrev Host := String × UInt16

def UDPTrackerRequest.host (r : UDPTrackerRequest) : Host := (r.remoteAddr, r.remotePort)

inductive ConnectionState where
  | connecting | connected
  deriving DecidableEq, Repr

structure UDPTrackerConnection where
  state : ConnectionState := .connecting
  connectionId : UInt64 := UDPT_INITIAL_CONNECTION_ID
  lastUpdated : Nat := 0
  deriving DecidableEq, Repr

structure UDPTrackerClient where
  requests : List UDPTrackerRequest := []
  connectionIdCache : Host → Option UDPTrackerConnection := fun _ => none
  inflightRequests : List Nat := []
  pendingRequests : List Nat := []
  connectRequests : List Nat := []

/-! ## Frames -/

def writeBe64 (v : UInt64) : Bytes := writeBe32 (v >>> 32).toUInt32 ++ writeBe32 v.toUInt32

def readBe64 (p : Bytes) : UInt64 :=
  (Utp.readBe32 p).toUInt64 <<< 32 ||| (Utp.readBe32 (p.drop 4)).toUInt64

def getLLIntParam (msg : Bytes) (pos : Nat) : UInt64 := readBe64 (msg.drop pos)

def createUDPTrackerConnect (req : UDPTrackerRequest) : Bytes :=
  writeBe64 UDPT_INITIAL_CONNECTION_ID ++ writeBe32 req.action.code ++ writeBe32 req.transactionId

/-- Info hash and peer id are of 20 bytes each. -/
def createUDPTrackerAnnounce (req : UDPTrackerRequest) : Bytes :=
  writeBe64 req.connectionId ++ writeBe32 req.action.code ++ writeBe32 req.transactionId ++
    req.infohash ++ req.peerId ++ writeBe64 req.downloaded ++ writeBe64 req.left ++
    writeBe64 req.uploaded ++ writeBe32 req.event.code ++ req.ip ++ writeBe32 req.key ++
    writeBe32 req.numWant ++ writeBe16 req.port ++ writeBe16 0

namespace UDPTrackerClient

variable (c : UDPTrackerClient)

/-! ## The objects -/

def request (i : Nat) : UDPTrackerRequest := c.requests.getD i default

def modify (i : Nat) (f : UDPTrackerRequest → UDPTrackerRequest) : UDPTrackerClient :=
  { c with requests := c.requests.modify i f }

def complete (i : Nat) (error : Error) : UDPTrackerClient :=
  c.modify i fun r => { r with state := .complete, error }

/-- A new object behind the others. -/
def alloc (r : UDPTrackerRequest) : UDPTrackerClient := { c with requests := c.requests ++ [r] }

/-! ## Sending -/

/-- `difference`, which is not negative. -/
def difference (t now : Nat) : Nat := now - t

def getConnectionId (host : Host) (now : Nat) : Option UDPTrackerConnection × UDPTrackerClient :=
  match c.connectionIdCache host with
  | none => (none, c)
  | some con =>
    if con.state = .connected ∧ seconds 60 < difference con.lastUpdated now then
      (none, { c with connectionIdCache := Function.update c.connectionIdCache host none })
    else (some con, c)

/-- The loop of `createRequest`: `pending` is what is left of the queue. -/
def createNext (now : Nat) (transactionId : UInt32) :
    List Nat → UDPTrackerClient → Option (Bytes × Host) × UDPTrackerClient
  | [], c => (none, { c with pendingRequests := [] })
  | i :: pending, c =>
    let req := c.request i
    if req.action = .connect then
      (some (createUDPTrackerConnect req, req.host), { c with pendingRequests := i :: pending })
    else
      match c.getConnectionId req.host now with
      | (none, c) =>
        let creq := {
          remoteAddr := req.remoteAddr, remotePort := req.remotePort
          action := .connect, transactionId }
        (some (createUDPTrackerConnect creq, creq.host),
          { c.alloc creq with pendingRequests := c.requests.length :: i :: pending })
      | (some con, c) =>
        if con.state = .connecting then
          createNext now transactionId pending
            { c with connectRequests := c.connectRequests ++ [i] }
        else
          let c := c.modify i fun r => { r with connectionId := con.connectionId, transactionId }
          (some (createUDPTrackerAnnounce (c.request i), req.host),
            { c with pendingRequests := i :: pending })

/-- The frame for the first pending request and where it goes; `transactionId` is the random number
that is drawn. -/
def createRequest (now : Nat) (transactionId : UInt32) :
    Option (Bytes × Host) × UDPTrackerClient :=
  createNext now transactionId c.pendingRequests c

def requestSent (now : Nat) : UDPTrackerClient :=
  match c.pendingRequests with
  | [] => c
  | i :: pending =>
    let c := c.modify i fun r => { r with dispatched := now }
    let req := c.request i
    { c with
      connectionIdCache := if req.action = .connect then
        Function.update c.connectionIdCache req.host (some {}) else c.connectionIdCache
      inflightRequests := c.inflightRequests ++ [i]
      pendingRequests := pending }

/-- Fails all requests that wait for a connection ID of the host. -/
def failConnect (host : Host) (error : Error) : UDPTrackerClient :=
  let waits i := (c.request i).action = .announce ∧ (c.request i).host = host
  let failed := c.connectRequests.filter waits ++ c.pendingRequests.filter waits
  let c := failed.foldl (fun c i => c.complete i error) c
  { c with
    connectionIdCache := Function.update c.connectionIdCache host none
    connectRequests := c.connectRequests.filter fun i => ¬waits i
    pendingRequests := c.pendingRequests.filter fun i => ¬waits i }

def requestFail (error : Error) : UDPTrackerClient :=
  match c.pendingRequests with
  | [] => c
  | i :: _ =>
    let req := c.request i
    let c := if req.action = .connect then c.failConnect req.host error else c
    let c := c.complete i error
    { c with pendingRequests := c.pendingRequests.tail }

def addRequest (req : UDPTrackerRequest) : UDPTrackerClient :=
  { c.alloc { req with state := .pending, error := .success } with
    pendingRequests := c.pendingRequests ++ [c.requests.length] }

/-! ## Timeouts -/

/-- `TimeoutCheck` on one request in flight; `kept` stay in flight and `dest` are sent again. -/
def timeoutCheck (now : Nat) :
    UDPTrackerClient × List Nat × List Nat → Nat → UDPTrackerClient × List Nat × List Nat
  | (c, kept, dest), i =>
    let req := c.request i
    let t := difference req.dispatched now
    if req.failCount = 0 then
      if seconds 5 ≤ t then
        (c.modify i fun r => { r with failCount := r.failCount + 1 }, kept, dest ++ [i])
      else (c, kept ++ [i], dest)
    else if seconds 10 ≤ t then
      let c := if req.action = .connect then c.failConnect req.host .timeout else c
      (c.modify i fun r =>
        { r with failCount := r.failCount + 1, state := .complete, error := .timeout }, kept, dest)
    else (c, kept ++ [i], dest)

def handleTimeout (now : Nat) : UDPTrackerClient :=
  let (c, kept, dest) := c.inflightRequests.foldl (timeoutCheck now) (c, [], [])
  { c with inflightRequests := kept, pendingRequests := dest ++ c.pendingRequests }

/-! ## Replies -/

def findInflightRequest (host : Host) (transactionId : UInt32) : Option Nat :=
  c.inflightRequests.find? fun i =>
    (c.request i).host = host ∧ (c.request i).transactionId = transactionId

/-- The peers of an announce reply, six bytes each from position 20 on. -/
def unpackPeers (data : Bytes) (length : Nat) : List (Bytes × UInt16) :=
  (List.range ((length - 20 + 5) / 6)).map fun k =>
    ((data.drop (20 + 6 * k)).take 4, Utp.readBe16 (data.drop (24 + 6 * k)))

/-- The reply to an announce. -/
def announceReply (data : Bytes) (length : Nat) : UDPTrackerReply where
  action := getIntParam data 0
  transactionId := getIntParam data 4
  interval := getIntParam data 8
  leechers := getIntParam data 12
  seeders := getIntParam data 16
  peers := unpackPeers data length

/-- A datagram of `length` bytes in the buffer `data`. The result is the request it answers, if it
is taken for an answer at all. -/
def receiveReply (data : Bytes) (length : Nat) (host : Host) (now : Nat) :
    Option Nat × UDPTrackerClient :=
  let action := getIntParam data 0
  let transactionId := getIntParam data 4
  if action = 0 then
    if length ≠ 16 then (none, c)
    else match c.findInflightRequest host transactionId with
    | none => (none, c)
    | some i =>
      let waits j := (c.request j).host = host
      (some i, { c with
        inflightRequests := c.inflightRequests.erase i
        connectionIdCache := Function.update c.connectionIdCache host
          (some ⟨.connected, getLLIntParam data 8, now⟩)
        connectRequests := c.connectRequests.filter fun j => ¬waits j
        pendingRequests := (c.connectRequests.filter waits) ++ c.pendingRequests })
  else if action = 1 then
    if length < 20 then (none, c)
    else match c.findInflightRequest host transactionId with
    | none => (none, c)
    | some i =>
      let c := c.modify i fun r =>
        { r with state := .complete, reply := some (announceReply data length) }
      (some i, { c with inflightRequests := c.inflightRequests.erase i })
  else if action = 3 then
    if length < 8 then (none, c)
    else match c.findInflightRequest host transactionId with
    | none => (none, c)
    | some i =>
      let c := { c.complete i .tracker with inflightRequests := c.inflightRequests.erase i }
      let req := c.request i
      (some i, if req.action = .connect then c.failConnect req.host .tracker else c)
  else (none, c)

/-! ## Runs -/

inductive Event where
  | addRequest (req : UDPTrackerRequest)
  | createRequest (now : Nat) (transactionId : UInt32)
  | requestSent (now : Nat)
  | requestFail (error : Error)
  | handleTimeout (now : Nat)
  | receiveReply (data : Bytes) (length : Nat) (host : Host) (now : Nat)

def step : Event → UDPTrackerClient
  | .addRequest req => c.addRequest req
  | .createRequest now transactionId => (c.createRequest now transactionId).2
  | .requestSent now => c.requestSent now
  | .requestFail error => c.requestFail error
  | .handleTimeout now => c.handleTimeout now
  | .receiveReply data length host now => (c.receiveReply data length host now).2

def run (es : List Event) : UDPTrackerClient := exec step c es

end UDPTrackerClient

end FluxCore.Udp
