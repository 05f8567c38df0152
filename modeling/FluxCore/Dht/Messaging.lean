import FluxCore.Bencode.Value
import FluxCore.Lib.Run

/-!
# Sending and receiving DHT messages

`DHTMessageDispatcherImpl`, `DHTMessageTracker` and `DHTMessageReceiver`. A query goes from the
queue to the tracker when it is sent, and its callback is called once an answer or the timeout has
settled it. Decoding a datagram and building a message of it may fail: they are parameters. What a
callback queues is queued by events of its own, and what nodes and routing table learn is left out:
neither the queue nor the tracker depends on it.

`callbacks` and `settled` are kept for the sake of the proofs: the message each callback was added
with, and the calls of callbacks so far.
-/

namespace FluxCore.Dht

open Utp (Bytes)
open Bencode (ValueBase Dict name)

def seconds (n : Nat) : Nat := n * 1000000000

/-- Where a node is. -/
structure Endpoint where
  ipaddr : String
  port : UInt16
  deriving DecidableEq, Repr

structure DHTMessage where
  isReply : Bool
  messageType : String
  transactionID : Bytes
  remoteNode : Endpoint
  deriving DecidableEq, Repr

structure DHTMessageEntry where
  message : DHTMessage
  timeout : Nat
  callback : Option Nat
  deriving DecidableEq, Repr

structure DHTMessageTrackerEntry where
  targetNode : Endpoint
  transactionID : Bytes
  messageType : String
  dispatchedTime : Nat
  timeout : Nat
  callback : Option Nat
  deriving DecidableEq, Repr

/-- How a callback is called. -/
inductive Settlement where
  | received | timeout
  deriving DecidableEq, Repr

structure DHTFirewallState where
  contactedIps : List String := []
  isOpen : Bool := false
  deriving DecidableEq, Repr

structure Messaging where
  messageQueue : List DHTMessageEntry := []
  entries : List DHTMessageTrackerEntry := []
  firewallState : Option DHTFirewallState := none
  callbacks : List DHTMessage := []
  settled : List (Nat × Settlement) := []
  deriving DecidableEq, Repr

/-! ## The firewall check -/

namespace DHTFirewallState

def MAX_CONTACTED_IPS : Nat := 512

def noteOutbound (f : DHTFirewallState) (ip : String) : DHTFirewallState :=
  if f.contactedIps.length < MAX_CONTACTED_IPS ∧ ip ∉ f.contactedIps then
    { f with contactedIps := ip :: f.contactedIps }
  else f

def noteInboundQuery (f : DHTFirewallState) (ip : String) : DHTFirewallState :=
  if f.isOpen then f else { f with isOpen := ip ∉ f.contactedIps }

end DHTFirewallState

/-! ## Tracker entries -/

namespace DHTMessageTrackerEntry

variable (e : DHTMessageTrackerEntry)

def isTimeout (now : Nat) : Bool := seconds e.timeout ≤ now - e.dispatchedTime

def endsWith (a b : String) : Bool := b.toList.isSuffixOf a.toList

/-- The entry's node may be known by the IPv4-mapped form of the address, or the other way round. -/
def «match» (transactionID : Bytes) (ipaddr : String) (port : UInt16) : Bool :=
  if e.transactionID ≠ transactionID ∨ e.targetNode.port ≠ port then false
  else if e.targetNode.ipaddr = ipaddr then true
  else if endsWith e.targetNode.ipaddr ipaddr then e.targetNode.ipaddr = "::ffff:" ++ ipaddr
  else if endsWith ipaddr e.targetNode.ipaddr then ipaddr = "::ffff:" ++ e.targetNode.ipaddr
  else false

end DHTMessageTrackerEntry

/-! ## The dispatcher -/

/-- What becomes of an attempt to send a message. -/
inductive SendResult where
  | sent | wouldBlock | thrown
  deriving DecidableEq, Repr

namespace Messaging

variable (c : Messaging)

def addMessageToQueue (message : DHTMessage) (timeout : Nat) (withCallback : Bool) : Messaging :=
  if withCallback then
    { c with
      messageQueue := c.messageQueue ++ [⟨message, timeout, some c.callbacks.length⟩]
      callbacks := c.callbacks ++ [message] }
  else { c with messageQueue := c.messageQueue ++ [⟨message, timeout, none⟩] }

/-- `DHTMessageTracker::addMessage`. -/
def addMessage (message : DHTMessage) (now timeout : Nat) (callback : Option Nat) : Messaging :=
  { c with
    entries := c.entries ++
      [⟨message.remoteNode, message.transactionID, message.messageType, now, timeout, callback⟩] }

/-- A query that could not be sent is tracked with timeout 0, so that it times out. -/
def sendMessage (entry : DHTMessageEntry) (now : Nat) : SendResult → Bool × Messaging
  | .sent =>
    let c := if entry.message.isReply then c
      else c.addMessage entry.message now entry.timeout entry.callback
    (true, { c with
      firewallState := c.firewallState.map (·.noteOutbound entry.message.remoteNode.ipaddr) })
  | .wouldBlock => (false, c)
  | .thrown =>
    (true, if entry.message.isReply then c else c.addMessage entry.message now 0 entry.callback)

/-- The loop of `sendMessages` over what is left of the queue; `results` say how sending goes. -/
def sendLoop (now : Nat) (results : Nat → SendResult) :
    Nat → List DHTMessageEntry → Messaging → Messaging
  | _, [], c => { c with messageQueue := [] }
  | n, entry :: entries, c =>
    match c.sendMessage entry now (results n) with
    | (true, c) => sendLoop now results (n + 1) entries c
    | (false, c) => { c with messageQueue := entry :: entries }

def sendMessages (now : Nat) (results : Nat → SendResult) : Messaging :=
  sendLoop now results 0 c.messageQueue c

/-! ## The tracker -/

/-- The callback of an entry, if it has one, is called. -/
def settle (callback : Option Nat) (how : Settlement) : Messaging :=
  { c with settled := c.settled ++ callback.toList.map fun k => (k, how) }

def handleTimeoutEntry (entry : DHTMessageTrackerEntry) : Messaging := c.settle entry.callback .timeout

/-- `DHTMessageTracker::handleTimeout`. -/
def handleTimeout (now : Nat) : Messaging :=
  let c' := (c.entries.filter (·.isTimeout now)).foldl handleTimeoutEntry c
  { c' with entries := c.entries.filter fun e => ¬e.isTimeout now }

end Messaging

/-- Decoding and message building, which throw what they cannot make sense of. -/
structure Factory (R Q : Type) where
  decode : Bytes → Except String (Option ValueBase)
  createResponseMessage : String → Dict → String → UInt16 → Except String R
  createQueryMessage : Dict → String → UInt16 → Except String Q
  fromLocalNode : Q → Bool

/-- What has been received. -/
inductive Received (R Q : Type) where
  | response (message : R)
  | query (message : Q)
  | unknown (data : Bytes) (remoteAddr : String) (remotePort : UInt16)

namespace Messaging

variable {R Q : Type} (F : Factory R Q) (c : Messaging)

/-- `DHTMessageTracker::messageArrived`: the message with the entry's callback, nothing when no
entry matches, or an exception, after which the entry is gone just the same. -/
def messageArrived (dict : Dict) (ipaddr : String) (port : UInt16) :
    Except String (Option (R × Option Nat)) × Messaging :=
  match Dict.getString dict (name "t") with
  | none => (.error s!"Malformed DHT message. From:{ipaddr}:{port}", c)
  | some tid =>
    match c.entries.find? (·.match tid ipaddr port) with
    | none => (.ok none, c)
    | some entry =>
      let c := { c with entries := c.entries.erase entry }
      match F.createResponseMessage entry.messageType dict entry.targetNode.ipaddr
        entry.targetNode.port with
      | .ok message => (.ok (some (message, entry.callback)), c)
      | .error e => (.error e, c.handleTimeoutEntry entry)

/-! ## The receiver -/

def receiveMessage (data : Bytes) (remoteAddr : String) (remotePort : UInt16) :
    Received R Q × Messaging :=
  let handleUnknownMessage := Received.unknown data remoteAddr remotePort
  match F.decode data with
  | .ok (some (.dict dict)) =>
    match Dict.getString dict (name "y") with
    | none => (handleUnknownMessage, c)
    | some y =>
      if y = name "r" ∨ y = name "e" then
        match c.messageArrived F dict remoteAddr remotePort with
        | (.ok (some (message, callback)), c) => (.response message, c.settle callback .received)
        | (.ok none, c) => (handleUnknownMessage, c)
        | (.error _, c) => (handleUnknownMessage, c)
      else
        let c := { c with firewallState := c.firewallState.map fun f => f.noteInboundQuery remoteAddr }
        match F.createQueryMessage dict remoteAddr remotePort with
        | .ok message =>
          if F.fromLocalNode message then (handleUnknownMessage, c) else (.query message, c)
        | .error _ => (handleUnknownMessage, c)
  | _ => (handleUnknownMessage, c)

/-! ## Runs -/

inductive Event where
  | addMessageToQueue (message : DHTMessage) (timeout : Nat) (withCallback : Bool)
  | sendMessages (now : Nat) (results : Nat → SendResult)
  | handleTimeout (now : Nat)
  | receiveMessage (data : Bytes) (remoteAddr : String) (remotePort : UInt16)

def step : Event → Messaging
  | .addMessageToQueue message timeout withCallback =>
    c.addMessageToQueue message timeout withCallback
  | .sendMessages now results => c.sendMessages now results
  | .handleTimeout now => c.handleTimeout now
  | .receiveMessage data remoteAddr remotePort =>
    (c.receiveMessage F data remoteAddr remotePort).2

end Messaging

end FluxCore.Dht
