import FluxCore.Bt.RangeMessage
import FluxCore.Lib.Run

/-!
# The receiving side of a peer connection

`PeerConnection::receiveMessage` takes the messages of a peer out of the stream: a cursor runs over
one buffer, the length of a message adds up byte by byte, and when the buffer is used up it is
shifted and refilled with as many bytes as that length asks for. Integers are those of the source:
the length is a `uint32_t` and its sums with `int` wrap at `2^32`, the sizes of the buffer are
`size_t`.
-/

namespace FluxCore.Bt

open Utp (Bytes)

def MAX_BUFFER_CAPACITY : Nat := MAX_BLOCK_LENGTH + 128

/-- The difference of two `size_t`. -/
def sizeSub (a b : Nat) : Nat := (a + (2 ^ 64 - b)) % 2 ^ 64

inductive MsgState where
  | prevReadLength | readLength | readPayload
  deriving DecidableEq, Repr

/-- The connection once the handshake is over. -/
structure PeerConnection where
  msgState : MsgState := .prevReadLength
  bufferCapacity : Nat := MAX_BUFFER_CAPACITY
  /-- The bytes received into the buffer; their number is `resbufLength_`. -/
  resbuf : Bytes := []
  currentPayloadLength : UInt32 := 0
  resbufOffset : Nat := 0
  msgOffset : Nat := 0
  deriving DecidableEq, Repr

/-- What ends a connection. -/
inductive Abort where
  | tooLong (length : UInt32)
  | eof
  | assertion
  deriving DecidableEq, Repr

/-- One pass of the cursor: it stops at the end of a message or of the buffer. -/
inductive Scan where
  | abort (reason : Abort)
  | done (c : PeerConnection)
  | more (c : PeerConnection)
  deriving DecidableEq, Repr

namespace PeerConnection

variable (c : PeerConnection)

/-- A message starts at `i`. -/
def startMessage (i : Nat) : PeerConnection :=
  { c with msgOffset := i, currentPayloadLength := 0, msgState := .readLength }

/-- The next byte of the length. -/
def addLength (b : UInt8) : PeerConnection :=
  { c with currentPayloadLength := (c.currentPayloadLength <<< 8) + b.toUInt32 }

/-- `i` is the position of the first of the bytes that are left. -/
def scan : Bytes → Nat → PeerConnection → Scan
  | [], i, c => .more { c with resbufOffset := i }
  | b :: bs, i, c =>
    match c.msgState with
    | .readPayload =>
      if (4 + c.currentPayloadLength).toNat ≤ c.resbuf.length - c.msgOffset then
        .done { c with
          msgState := .prevReadLength
          resbufOffset := c.msgOffset + 4 + c.currentPayloadLength.toNat }
      -- The cursor moves to the end of the buffer: another read is needed.
      else .more { c with resbufOffset := c.resbuf.length }
    | state =>
      let c := if state = .prevReadLength then c.startMessage i else c
      let c := c.addLength b
      if i - c.msgOffset = 3 then
        if c.bufferCapacity < (c.currentPayloadLength + 4).toNat then
          .abort (.tooLong c.currentPayloadLength)
        else if c.currentPayloadLength = 0 then
          .done { c with msgState := .prevReadLength, resbufOffset := i + 1 }
        else scan bs (i + 1) { c with msgState := .readPayload }
      else scan bs (i + 1) c

def pass : Scan := scan (c.resbuf.drop c.resbufOffset) c.resbufOffset c

/-- Make room for a read: forget the buffer when it ends with the message, else shift the message to
its front. -/
def settle : PeerConnection :=
  if c.resbuf.length ≠ 0 then
    if c.resbuf.length - c.msgOffset = (c.currentPayloadLength + 4).toNat then
      { c with resbuf := [], resbufOffset := 0, msgOffset := 0 }
    else
      { c with
        resbuf := c.resbuf.drop c.msgOffset
        resbufOffset := c.resbuf.length - c.msgOffset
        msgOffset := 0 }
  else c

/-- The number of bytes the next read asks for: a large payload is read exactly. -/
def nread : Nat :=
  if 4096 < c.currentPayloadLength.toNat then
    sizeSub (c.currentPayloadLength + 4).toNat c.resbuf.length
  else sizeSub c.bufferCapacity c.resbuf.length

/-- The payload of the message that has been returned. -/
def getMsgPayloadBuffer : Bytes :=
  (c.resbuf.drop (c.msgOffset + 4)).take c.currentPayloadLength.toNat

def append (data : Bytes) : PeerConnection := { c with resbuf := c.resbuf ++ data }

def reserveBuffer (minSize : UInt64) : PeerConnection :=
  if c.bufferCapacity < minSize.toNat then { c with bufferCapacity := minSize.toNat } else c

end PeerConnection

/-! ## The connection and its stream -/

/-- What the transport has ready when it is read: it returns at least one byte, nothing yet, or the
end of the stream. -/
inductive Read where
  | bytes (n : Nat)
  | wouldBlock
  | eof
  deriving DecidableEq, Repr

/-- A call of `readData`. -/
structure Ask where
  nread : Nat
  resbufLength : Nat
  bufferCapacity : Nat
  deriving DecidableEq, Repr

structure Message where
  dataLength : UInt32
  payload : Bytes
  deriving DecidableEq, Repr

structure Link where
  conn : PeerConnection := {}
  /-- The bytes of the peer that have not been read. -/
  wire : Bytes
  asks : List Ask := []
  received : List Message := []
  /-- The last call returned `false`. -/
  waiting : Bool := false
  aborted : Option Abort := none
  deriving DecidableEq, Repr

namespace Link

/-- `conn` asks for bytes. -/
def ask (s : Link) (conn : PeerConnection) : Link :=
  { s with conn, asks := s.asks ++ [⟨conn.nread, conn.resbuf.length, conn.bufferCapacity⟩] }

/-- The transport hands out at most `n` bytes, and no more than are asked for. -/
def ready (s : Link) (n : Nat) : Bytes := s.wire.take (min n s.conn.nread)

def readData (s : Link) (data : Bytes) : Link :=
  { s with conn := s.conn.append data, wire := s.wire.drop data.length }

/-- One call, with what the transport has ready at each of its reads. -/
def receiveMessage : List Read → Link → Link
  | reads, s =>
    match s.conn.pass with
    | .abort reason => { s with aborted := some reason }
    | .done c =>
      { s with
        conn := c
        received := s.received ++ [⟨c.currentPayloadLength, c.getMsgPayloadBuffer⟩]
        waiting := false }
    | .more c =>
      if c.resbufOffset ≠ c.resbuf.length then { s with conn := c, aborted := some .assertion }
      else
        let s := s.ask c.settle
        match reads with
        | .bytes n :: reads =>
          let data := s.ready n
          if data.isEmpty then { s with waiting := true }
          else receiveMessage reads (s.readData data)
        | .eof :: _ => { s with aborted := some .eof }
        | _ => { s with waiting := true }

/-- A connection with room for a large bitfield, and the stream of its peer. -/
def start (minSize : UInt64) (wire : Bytes) : Link :=
  { conn := PeerConnection.reserveBuffer {} minSize, wire }

inductive Event where
  | receiveMessage (reads : List Read)
  | reserveBuffer (minSize : UInt64)
  deriving DecidableEq, Repr

/-- An exception closes the connection. -/
def step (s : Link) (e : Event) : Link :=
  if s.aborted.isSome then s
  else match e with
    | .receiveMessage reads => s.receiveMessage reads
    | .reserveBuffer minSize => { s with conn := s.conn.reserveBuffer minSize }

end Link

end FluxCore.Bt
