import FluxCore.Lib.OrderedMap
import FluxCore.Lib.Serial
import FluxCore.Lib.Binary64
import FluxCore.Utp.Packet

/-!
# The uTP connection

`UtpConnection.cc` as a state and functions on it. A connection owns no socket: it appends encoded
datagrams to `outbox` and is given incoming ones by `handlePacket`; the clock is an argument of the
calls that read it. Buffers of bytes are lists, `std::map` is `OrderedMap`, `size_t` is `Nat`; the
fixed-width fields keep their widths.
-/

namespace FluxCore.Utp

/-! ## Constants -/

/-- Payload cap of an ST_DATA packet. -/
def DEFAULT_PACKET_SIZE : UInt32 := 1400
def MIN_PACKET_SIZE : UInt32 := 150
/-- Receive buffer cap, advertised as the flow-control window. -/
def RECV_WINDOW : UInt32 := 8 * 1024 * 1024
/-- Cap of the reorder buffer, independent of the advertised window. -/
def REORDER_WINDOW : UInt32 := 1024 * 1024
/-- LEDBAT target one-way delay. -/
def CC_TARGET_US : UInt32 := 100 * 1000
def BASE_DELAY_WINDOW_US : UInt32 := 120 * 1000 * 1000
def RTO_MIN_US : UInt32 := 500 * 1000
def RTO_MAX_US : UInt32 := 60 * 1000 * 1000
/-- Bound of the user-side send buffer. -/
def MAX_PENDING : Nat := 1024 * 1024

/-- `a` is after `b`, wrap-safe. -/
def seqAfter (a b : UInt16) : Bool := 0 < (a - b).toInt16

/-- `a` is before or equal to `b`, wrap-safe. -/
def seqLeq (a b : UInt16) : Bool := (a - b).toInt16 ≤ 0

def rand32 (seed : UInt32) : UInt32 :=
  let seed := seed ^^^ (seed <<< 13)
  let seed := seed ^^^ (seed >>> 17)
  seed ^^^ (seed <<< 5)

/-! ## State -/

inductive State where
  | synSent | synRecv | connected | finSent | closed
  deriving DecidableEq, Repr

structure OutPacket where
  /-- Data only, no header. -/
  payload : Bytes
  seq : UInt16
  sendTimeUs : UInt32
  size : UInt32
  retransmits : UInt32 := 0
  deriving DecidableEq, Repr

def OutPacket.resent (p : OutPacket) (nowUs : UInt32) : OutPacket :=
  { p with sendTimeUs := nowUs, retransmits := p.retransmits + 1 }

structure InPacket where
  payload : Bytes
  receivedAtUs : UInt32
  deriving DecidableEq, Repr

structure UtpConnection where
  remoteAddr : String
  remotePort : UInt16
  /-- Matches incoming packets. -/
  recvId : UInt16 := 0
  /-- Put in outgoing packets after the SYN. -/
  sendId : UInt16 := 0
  state : State := .synSent
  error : Bool := false
  /-- Next packet number; SYN and DATA consume it, STATE and FIN only carry it. -/
  seq : UInt16 := 0
  synSeq : UInt16 := 0
  /-- Last contiguous number received. -/
  ack : UInt16 := 0
  synAcked : Bool := false
  /-- User data waiting for the congestion and flow windows. -/
  pendingSend : Bytes := []
  /-- Unacknowledged packets in sequence order. -/
  sendQueue : List OutPacket := []
  curWindow : UInt32 := 0
  maxWindow : UInt32 := DEFAULT_PACKET_SIZE * 10
  packetSize : UInt32 := DEFAULT_PACKET_SIZE
  peerWnd : UInt32 := 0
  wantWrite : Bool := false
  ackPending : Bool := false
  finSent : Bool := false
  finPending : Bool := false
  finAcked : Bool := false
  finSeq : UInt16 := 0
  synAttempts : UInt32 := 0
  synDeadlineUs : UInt32 := 0
  synDeadlineValid : Bool := false
  /-- Ordered bytes ready to read. -/
  recvOut : Bytes := []
  /-- Out-of-order packets by number. -/
  recvReorder : OrderedMap UInt16 InPacket := .empty
  recvBuffered : UInt32 := 0
  eof : Bool := false
  eofPkt : UInt16 := 0
  wantRead : Bool := false
  rtt : UInt32 := 0
  rttVar : UInt32 := 0
  timeout : UInt32 := 1000 * 1000
  lastRecvUs : UInt32 := 0
  lastSendUs : UInt32 := 0
  consecutiveTimeouts : UInt32 := 0
  baseDelay : UInt32 := 0
  baseDelaySetUs : UInt32 := 0
  lastDelaySampleUs : UInt32 := 0
  lastAckNr : UInt16 := 0
  dupAckCount : UInt32 := 0
  lastFastRecoverySeq : UInt16 := 0
  fastRecoveryValid : Bool := false
  lastPeerTs : UInt32 := 0
  replyMicro : UInt32 := 0
  tsDiffEcho : UInt32 := 0
  outbox : List Bytes := []
  deriving DecidableEq

namespace UtpConnection

/-! ## Queries -/

/-- The peer closed and all its data was delivered. -/
def eofReceived (c : UtpConnection) : Bool := c.eof && c.recvOut.isEmpty && c.recvReorder.isEmpty

def isClosed (c : UtpConnection) : Bool := c.state = .closed

def hasError (c : UtpConnection) : Bool := c.error

/-- `cur_window + packet_size <= min(max_window, wnd_size)`. -/
def canSendData (c : UtpConnection) : Bool :=
  c.curWindow + c.packetSize ≤ min c.maxWindow c.peerWnd

def advertsiedWnd (c : UtpConnection) : UInt32 :=
  let used := c.recvBuffered + UInt32.ofNat c.recvOut.length
  if RECV_WINDOW ≤ used then 0 else RECV_WINDOW - used

/-! ## Packets out -/

/-- The selective-acknowledgement bitmap: the buffered packets relative to `ack`. -/
def sackBits (c : UtpConnection) : UInt32 :=
  c.recvReorder.entries.foldl (fun bits kv =>
    let off : Int := kv.1.toNat - c.ack.toNat - 2
    if 0 ≤ off ∧ off < 32 then bits ||| (1 <<< UInt32.ofNat off.toNat) else bits) 0

/-- The header of a control packet. A SYN carries `recvId`, its own number and no window, a FIN the
number frozen in `finSeq`, every other packet the next number without consuming it. -/
def controlHeader (c : UtpConnection) (type : UInt8) (nowUs : UInt32) (seqForAck : UInt16) :
    PacketHeader where
  type := type
  connectionId := if type = ST_SYN then c.recvId else c.sendId
  timestamp := nowUs
  timestampDiff := c.tsDiffEcho
  wndSize := if type = ST_SYN then 0 else c.advertsiedWnd
  seqNr := if type = ST_SYN then c.synSeq else if type = ST_FIN then c.finSeq else c.seq
  ackNr := if seqForAck = 0 then c.ack else seqForAck
  extension := if c.recvReorder.isEmpty then EXT_NONE else EXT_SACK

def queueControl (c : UtpConnection) (type : UInt8) (nowUs : UInt32) (seqForAck : UInt16) :
    UtpConnection :=
  let head := encodeHeader (c.controlHeader type nowUs seqForAck)
  let pkt := if c.recvReorder.isEmpty then head else appendSackExtension head c.sackBits
  { c with outbox := c.outbox ++ [pkt], replyMicro := nowUs, lastSendUs := nowUs }

def sendAck (c : UtpConnection) (nowUs : UInt32) : UtpConnection :=
  { c.queueControl ST_STATE nowUs c.ack with ackPending := false }

def flushAck (c : UtpConnection) (nowUs : UInt32) : UtpConnection :=
  if c.ackPending then c.sendAck nowUs else c

def dataHeader (c : UtpConnection) (seq : UInt16) (nowUs : UInt32) : PacketHeader where
  type := ST_DATA
  connectionId := c.sendId
  timestamp := nowUs
  timestampDiff := c.tsDiffEcho
  wndSize := c.advertsiedWnd
  seqNr := seq
  ackNr := c.ack

/-- The datagram built alike by `queueDataPacket`, `retransmitPacket` and `retransmitUnacked`. -/
def encodeData (c : UtpConnection) (p : OutPacket) (nowUs : UInt32) : Bytes :=
  encodeHeader (c.dataHeader p.seq nowUs) ++ p.payload

def queueDataPacket (c : UtpConnection) (op : OutPacket) (nowUs : UInt32) : UtpConnection :=
  { c with
    curWindow := c.curWindow + op.size
    outbox := c.outbox ++ [c.encodeData op nowUs]
    replyMicro := nowUs
    lastSendUs := nowUs
    sendQueue := c.sendQueue ++ [op] }

/-- Retransmit the `i`-th packet of the send queue. -/
def retransmitPacket (c : UtpConnection) (i : Nat) (nowUs : UInt32) : UtpConnection :=
  match c.sendQueue[i]? with
  | none => c
  | some p =>
    { c with
      sendQueue := c.sendQueue.set i (p.resent nowUs)
      outbox := c.outbox ++ [c.encodeData p nowUs]
      replyMicro := nowUs
      lastSendUs := nowUs }

def retransmitUnacked (c : UtpConnection) (nowUs : UInt32) : UtpConnection :=
  { c with
    sendQueue := c.sendQueue.map (·.resent nowUs)
    outbox := c.outbox ++ c.sendQueue.map (c.encodeData · nowUs) }

/-! ## Construction -/

/-- An outbound connection: the SYN is queued and consumes a number. -/
def initiator (remoteAddr : String) (remotePort : UInt16) (nowUs synTimeoutUs : UInt32) :
    UtpConnection :=
  let sendId := (rand32 nowUs).toUInt16
  let c : UtpConnection :=
    { remoteAddr, remotePort, sendId
      recvId := sendId - 1
      seq := 1
      synSeq := 1
      peerWnd := 0x7FFFFFFF
      state := .synSent
      lastRecvUs := 0
      lastSendUs := nowUs
      synDeadlineUs := if 0 < synTimeoutUs then nowUs + synTimeoutUs else 0
      synDeadlineValid := 0 < synTimeoutUs }
  let c := c.queueControl ST_SYN nowUs 0
  { c with seq := c.seq + 1 }

/-- An inbound connection: the reply to the SYN is queued and consumes no number. -/
def responder (remoteAddr : String) (remotePort peerRecvId ackNr : UInt16) (nowUs : UInt32) :
    UtpConnection :=
  let c : UtpConnection :=
    { remoteAddr, remotePort
      sendId := peerRecvId
      recvId := peerRecvId + 1
      seq := (rand32 nowUs).toUInt16
      ack := ackNr
      peerWnd := 0x7FFFFFFF
      state := .synRecv
      lastRecvUs := nowUs
      lastSendUs := nowUs }
  c.queueControl ST_STATE nowUs c.ack

/-! ## Stream interface -/

/-- Accepts a prefix of `data`; the number of bytes accepted comes with the new state. -/
def write (c : UtpConnection) (data : Bytes) : Nat × UtpConnection :=
  if c.state = .closed || c.error then (0, { c with wantWrite := false })
  else
    let accepted := min data.length (MAX_PENDING - c.pendingSend.length)
    (accepted,
      { c with
        pendingSend := c.pendingSend ++ data.take accepted
        wantWrite := accepted < data.length })

/-- Up to `cap` in-order bytes. -/
def read (c : UtpConnection) (cap : Nat) : Bytes × UtpConnection :=
  let bytes := c.recvOut.take cap
  let c := { c with recvOut := c.recvOut.drop cap, wantRead := false }
  (bytes,
    if bytes.isEmpty && c.recvOut.isEmpty && !c.eofReceived && !c.isClosed && !c.hasError then
      { c with wantRead := true }
    else c)

/-- Graceful close; the FIN is put out by the next tick. -/
def close (c : UtpConnection) : UtpConnection :=
  if c.finPending || c.finSent || c.state = .closed then c
  else if c.state = .synSent then { c with state := .closed }
  else { c with finPending := true }

/-- The datagrams produced since the last drain. -/
def drainOutbox (c : UtpConnection) : List Bytes × UtpConnection :=
  (c.outbox, { c with outbox := [] })

/-! ## Round-trip time, delay and window -/

def updateRtt (c : UtpConnection) (packetRttUs : UInt32) : UtpConnection :=
  if packetRttUs = 0 || RTO_MAX_US < packetRttUs then c
  else
    let c :=
      if c.rtt = 0 then { c with rtt := packetRttUs, rttVar := packetRttUs / 2 }
      else
        let absDelta : Int := |(c.rtt.toNat : Int) - packetRttUs.toNat|
        { c with
          rttVar := .ofInt (c.rttVar.toNat + (absDelta - c.rttVar.toNat).tdiv 4)
          rtt := .ofInt (c.rtt.toNat + ((packetRttUs.toNat : Int) - c.rtt.toNat).tdiv 8) }
    { c with timeout := min (max (c.rtt + 4 * c.rttVar) RTO_MIN_US) RTO_MAX_US }

def updateDelay (c : UtpConnection) (sampleUs nowUs : UInt32) : UtpConnection :=
  let c := { c with lastDelaySampleUs := sampleUs }
  if c.baseDelay = 0 || sampleUs < c.baseDelay || BASE_DELAY_WINDOW_US < nowUs - c.baseDelaySetUs then
    { c with baseDelay := sampleUs, baseDelaySetUs := nowUs }
  else c

/-- The LEDBAT factor, a `double` between 0 and 1. -/
def delayFactor (c : UtpConnection) : ℚ :=
  let ourDelay := if c.baseDelay = 0 || c.lastDelaySampleUs ≤ c.baseDelay then 0
    else c.lastDelaySampleUs - c.baseDelay
  let offTarget : Int := CC_TARGET_US.toNat - ourDelay.toNat
  let factor := Binary64.round ((offTarget : ℚ) / CC_TARGET_US.toNat)
  if factor < 0 then 0 else factor

def updateWindow (c : UtpConnection) (newlyAcked : UInt32) : UtpConnection :=
  let delta := Binary64.trunc (Binary64.round (c.delayFactor * newlyAcked.toNat))
  let delta := if c.baseDelay = 0 then delta + c.packetSize.toNat else delta
  { c with maxWindow := .ofInt (max (c.maxWindow.toNat + delta) c.packetSize.toNat) }

/-! ## Acknowledgements -/

def finishCloseIfIdle (c : UtpConnection) : UtpConnection :=
  if c.finSent && c.finAcked && c.eofReceived then { c with state := .closed } else c

/-- What the removal of acknowledged packets from the front of the send queue has found so far. -/
structure AckScan where
  rttSampleUs : UInt32 := 0
  haveRtt : Bool := false
  freed : UInt32 := 0
  finAcked : Bool

/-- Remove the packets `ackNr` covers from the front of the queue. -/
def removeAcked (finSent : Bool) (finSeq ackNr : UInt16) (nowUs : UInt32) :
    List OutPacket → AckScan → List OutPacket × AckScan
  | [], s => ([], s)
  | front :: queue, s =>
    if !seqLeq front.seq ackNr then (front :: queue, s)
    else
      removeAcked finSent finSeq ackNr nowUs queue
        { rttSampleUs :=
            if !s.haveRtt && front.retransmits = 0 then nowUs - front.sendTimeUs else s.rttSampleUs
          haveRtt := s.haveRtt || front.retransmits = 0
          freed := s.freed + front.size
          finAcked := s.finAcked || (front.seq = finSeq && finSent) }

/-- Count acknowledgements of one number. -/
def countAck (c : UtpConnection) (ackNr : UInt16) : UtpConnection :=
  if ackNr = c.lastAckNr then { c with dupAckCount := c.dupAckCount + 1 }
  else { c with lastAckNr := ackNr, dupAckCount := 0 }

/-- Acknowledged bytes leave the window; a packet size collapsed by a timeout is restored. -/
def shrinkWindow (c : UtpConnection) (freed : UInt32) : UtpConnection :=
  { c with
    curWindow := c.curWindow - freed
    packetSize := if c.packetSize < DEFAULT_PACKET_SIZE then DEFAULT_PACKET_SIZE else c.packetSize }

def wakeWriter (c : UtpConnection) : UtpConnection := { c with wantWrite := true }

/-- The windows after acknowledged packets have left the send queue. -/
def freeWindow (c : UtpConnection) (s : AckScan) : UtpConnection :=
  if 0 < s.freed then
    let c := c.shrinkWindow s.freed
    let c := if s.haveRtt then c.updateRtt s.rttSampleUs else c
    (c.updateWindow s.freed).wakeWriter
  else c

/-- The FIN is not in the send queue: its acknowledgement is read off the cumulative number. -/
def noteFinAck (c : UtpConnection) (ackNr : UInt16) : UtpConnection :=
  if c.finSent && !c.finAcked && seqLeq c.finSeq ackNr then { c with finAcked := true } else c

/-- The first half of `onAck`. -/
def ackPackets (c : UtpConnection) (ackNr : UInt16) (nowUs : UInt32) : UtpConnection :=
  let c := c.countAck ackNr
  let (queue, s) := removeAcked c.finSent c.finSeq ackNr nowUs c.sendQueue { finAcked := c.finAcked }
  let c := { c with sendQueue := queue, finAcked := s.finAcked }
  (c.freeWindow s).noteFinAck ackNr

/-- Retransmit the packet numbered `target` at index `i` and halve the window, once per packet. -/
def fastRetransmit (c : UtpConnection) (i : Nat) (target : UInt16) (nowUs : UInt32) :
    UtpConnection :=
  if c.fastRecoveryValid && c.lastFastRecoverySeq = target then c
  else
    let c := c.retransmitPacket i nowUs
    { c with
      maxWindow := max (c.maxWindow / 2) c.packetSize
      lastFastRecoverySeq := target
      fastRecoveryValid := true }

/-- The number of selectively acknowledged packets behind `oldest`. -/
def sacksAfter (ackNr oldest : UInt16) (sackBits : UInt32) : Nat :=
  (List.range 32).countP fun bit =>
    sackBits &&& (1 <<< UInt32.ofNat bit) ≠ 0 && seqAfter (ackNr + 2 + UInt16.ofNat bit) oldest

def sackRetransmit (c : UtpConnection) (ackNr : UInt16) (sackBits nowUs : UInt32) : UtpConnection :=
  match c.sendQueue with
  | [] => c
  | front :: _ =>
    if seqAfter front.seq ackNr && 3 ≤ sacksAfter ackNr front.seq sackBits then
      c.fastRetransmit 0 front.seq nowUs
    else c

/-- Retransmit the packet numbered `target`, if it is still unacknowledged. -/
def retransmitNumbered (c : UtpConnection) (target : UInt16) (nowUs : UInt32) : UtpConnection :=
  match c.sendQueue.findIdx? (fun p => p.seq = target) with
  | none => c
  | some i => c.fastRetransmit i target nowUs

def dupAckRetransmit (c : UtpConnection) (ackNr : UInt16) (nowUs : UInt32) : UtpConnection :=
  if 3 ≤ c.dupAckCount then { c.retransmitNumbered (ackNr + 1) nowUs with dupAckCount := 0 } else c

def onAck (c : UtpConnection) (ackNr : UInt16) (sackBits nowUs : UInt32) : UtpConnection :=
  if c.state = .synSent && !c.synAcked then c
  else
    let c := c.ackPackets ackNr nowUs
    let c := c.sackRetransmit ackNr sackBits nowUs
    let c := c.dupAckRetransmit ackNr nowUs
    if c.finSent && c.finAcked then c.finishCloseIfIdle else c

/-! ## Data in -/

/-- Deliver buffered packets from the front of the map while the first is the next number. Each
turn removes an entry, so the number of entries is fuel enough. -/
def drainReorder : Nat → UtpConnection → UtpConnection
  | 0, c => c
  | fuel + 1, c =>
    match c.recvReorder.entries with
    | [] => c
    | (key, p) :: _ =>
      if key ≠ c.ack + 1 then c
      else
        drainReorder fuel
          { c with
            recvOut := c.recvOut ++ p.payload
            recvBuffered := c.recvBuffered - UInt32.ofNat p.payload.length
            ack := key
            recvReorder := c.recvReorder.tail }

/-- Buffer an out-of-order packet, in place of an earlier one with its number. -/
def bufferPacket (c : UtpConnection) (s : UInt16) (payload : Bytes) (nowUs : UInt32) :
    UtpConnection :=
  if c.recvBuffered.toNat + payload.length ≤ REORDER_WINDOW.toNat then
    let c := match c.recvReorder.find? s with
      | none => c
      | some dup =>
        { c with
          recvBuffered := c.recvBuffered - UInt32.ofNat dup.payload.length
          recvReorder := c.recvReorder.erase s }
    { c with
      recvReorder := c.recvReorder.insert s { payload, receivedAtUs := nowUs }
      recvBuffered := c.recvBuffered + UInt32.ofNat payload.length }
  else c

def onData (c : UtpConnection) (hdr : PacketHeader) (payload : Bytes) (nowUs : UInt32) :
    UtpConnection :=
  let c := { c with ackPending := true }
  let s := hdr.seqNr
  if payload.isEmpty then c
  else if seqLeq s c.ack then c
  else
    let c :=
      if s = c.ack + 1 then
        let c := { c with recvOut := c.recvOut ++ payload, ack := s }
        c.drainReorder c.recvReorder.entries.length
      else c.bufferPacket s payload nowUs
    { c with wantRead := true }

/-! ## Packet reception -/

/-- ST_FIN: it takes a number, so in order it advances `ack`. -/
def onFin (c : UtpConnection) (hdr : PacketHeader) : UtpConnection :=
  let c := if hdr.seqNr = c.ack + 1 && !c.eof then
      { c with ack := hdr.seqNr, eof := true, eofPkt := hdr.seqNr }
    else c
  { c with ackPending := true }

/-- The state change an ST_DATA or ST_FIN makes before its number is looked at. -/
def enterConnected (c : UtpConnection) (hdr : PacketHeader) : UtpConnection :=
  match c.state with
  | .synRecv => { c with state := .connected }
  | .synSent => { c with ack := hdr.seqNr, synAcked := true, state := .connected }
  | _ => c

/-- The state change of an ST_STATE: the SYN was accepted, and the packet carries the peer's next
number, which is not consumed yet. -/
def adoptState (c : UtpConnection) (hdr : PacketHeader) : UtpConnection :=
  if c.state = .synSent then
    { c with ack := hdr.seqNr - 1, synAcked := true, state := .connected }
  else c

/-- Bookkeeping common to every packet. -/
def notePacket (c : UtpConnection) (hdr : PacketHeader) (nowUs : UInt32) : UtpConnection :=
  let c := { c with
    lastRecvUs := nowUs
    consecutiveTimeouts := 0
    lastPeerTs := hdr.timestamp
    tsDiffEcho := nowUs - hdr.timestamp
    peerWnd := hdr.wndSize }
  if hdr.type ≠ ST_SYN then c.updateDelay c.tsDiffEcho nowUs else c

/-- The bitmap of the last selective acknowledgement among the extensions. -/
def sackOf (exts : List (UInt8 × Bytes)) : UInt32 :=
  exts.foldl (fun bits e => if e.1 = EXT_SACK then decodeSackBits e.2 else bits) 0

/-- The type switch of `handlePacket`; a reset returns before the acknowledgement is scheduled. -/
def dispatchPacket (c : UtpConnection) (hdr : PacketHeader) (sack : UInt32) (payload : Bytes)
    (nowUs : UInt32) : UtpConnection :=
  if hdr.type = ST_SYN then
    if c.state = .synRecv || c.state = .connected then c.queueControl ST_STATE nowUs c.ack else c
  else if hdr.type = ST_STATE then
    (c.adoptState hdr).onAck hdr.ackNr sack nowUs
  else if hdr.type = ST_DATA then
    ((c.enterConnected hdr).onData hdr payload nowUs).onAck hdr.ackNr sack nowUs
  else if hdr.type = ST_FIN then
    ((c.enterConnected hdr).onFin hdr).onAck hdr.ackNr sack nowUs
  else c

/-- `handlePacket` behind the parser. -/
def handleParsed (c : UtpConnection) (hdr : PacketHeader) (sack : UInt32) (payload : Bytes)
    (nowUs : UInt32) : UtpConnection :=
  let c := c.notePacket hdr nowUs
  if hdr.type = ST_RESET then { c with error := true, state := .closed }
  else (c.dispatchPacket hdr sack payload nowUs).flushAck nowUs

def handlePacket (c : UtpConnection) (data : Bytes) (nowUs : UInt32) : UtpConnection :=
  match parsePacket data with
  | none => c
  | some (hdr, exts) => c.handleParsed hdr (sackOf exts) (payloadOf data exts) nowUs

/-! ## Timers -/

/-- Retransmit the SYN a few times before giving up. -/
def synTimeout (c : UtpConnection) (nowUs : UInt32) : UtpConnection :=
  if c.synDeadlineValid && 0 ≤ (nowUs - c.synDeadlineUs).toInt32 then
    { c with error := true, state := .closed }
  else
    let c := { c with
      synAttempts := c.synAttempts + 1
      timeout := min (c.timeout * 2) RTO_MAX_US }
    if 4 ≤ c.synAttempts then { c with error := true, state := .closed }
    else { c.queueControl ST_SYN nowUs 0 with lastSendUs := nowUs }

def countTimeout (c : UtpConnection) : UtpConnection :=
  { c with
    consecutiveTimeouts := c.consecutiveTimeouts + 1
    timeout := min (c.timeout * 2) RTO_MAX_US }

/-- Collapse to a single minimum packet and start the next timeout period. -/
def collapseWindow (c : UtpConnection) (nowUs : UInt32) : UtpConnection :=
  { c with
    packetSize := MIN_PACKET_SIZE
    maxWindow := MIN_PACKET_SIZE
    lastRecvUs := nowUs }

/-- The FIN is not in the send queue and is retransmitted on its own. -/
def retransmitFin (c : UtpConnection) (nowUs : UInt32) : UtpConnection :=
  if c.finSent && !c.finAcked && c.state = .finSent then c.queueControl ST_FIN nowUs 0 else c

def handleTimeout (c : UtpConnection) (nowUs : UInt32) : UtpConnection :=
  if c.state = .synSent then c.synTimeout nowUs
  else
    let c := c.countTimeout
    if 2 ≤ c.consecutiveTimeouts then { c with error := true, state := .closed }
    else ((c.collapseWindow nowUs).retransmitUnacked nowUs).retransmitFin nowUs

/-- Put out a requested FIN, numbered with the next number, which it does not consume. -/
def flushFin (c : UtpConnection) (nowUs : UInt32) : UtpConnection :=
  if c.finPending then
    let c := { c with
      finPending := false
      finSent := true
      finSeq := c.seq
      state := if c.state = State.synSent then .closed else .finSent }
    c.queueControl ST_FIN nowUs 0
  else c

def finInFlight (c : UtpConnection) : Bool := c.finSent && !c.finAcked && c.state = .finSent

def needRto (c : UtpConnection) : Bool :=
  c.state = State.synSent || (c.lastRecvUs ≠ 0 && (!c.sendQueue.isEmpty || c.finInFlight))

def sinceLast (c : UtpConnection) (nowUs : UInt32) : UInt32 :=
  if c.state = .synSent then nowUs - c.lastSendUs else nowUs - c.lastRecvUs

/-- The timer the tick checks has run out. -/
def rtoDue (c : UtpConnection) (nowUs : UInt32) : Bool := c.needRto && c.timeout < c.sinceLast nowUs

/-- The number of bytes the next ST_DATA packet takes. -/
def chunkLen (c : UtpConnection) : Nat := min c.pendingSend.length c.packetSize.toNat

/-- Move user data into an ST_DATA packet, consuming a number. -/
def sendChunk (c : UtpConnection) (nowUs : UInt32) : UtpConnection :=
  let op : OutPacket :=
    { payload := c.pendingSend.take c.chunkLen
      seq := c.seq
      sendTimeUs := nowUs
      size := UInt32.ofNat c.chunkLen }
  queueDataPacket { c with seq := c.seq + 1, pendingSend := c.pendingSend.drop c.chunkLen } op nowUs

/-- Send user data while the windows allow it. Each turn takes at least a byte, so the number of
waiting bytes is fuel enough. -/
def flushPending (nowUs : UInt32) : Nat → UtpConnection → UtpConnection
  | 0, c => c
  | fuel + 1, c =>
    if c.pendingSend.isEmpty then c
    else if !c.canSendData then { c with wantWrite := true }
    else flushPending nowUs fuel (c.sendChunk nowUs)

/-- User data is only sent on an established connection. -/
def flushData (c : UtpConnection) (nowUs : UInt32) : UtpConnection :=
  if c.state = .connected || c.state = .finSent then flushPending nowUs c.pendingSend.length c
  else c

def noteReadable (c : UtpConnection) : UtpConnection :=
  { c with wantRead := c.wantRead || !c.recvOut.isEmpty || c.eofReceived }

def processTick (c : UtpConnection) (nowUs : UInt32) : UtpConnection :=
  if c.state = .closed then c
  else
    let c := c.flushFin nowUs
    if c.state = .closed then c
    else if c.rtoDue nowUs then c.handleTimeout nowUs
    else ((c.flushData nowUs).flushAck nowUs).noteReadable

end UtpConnection

end FluxCore.Utp
