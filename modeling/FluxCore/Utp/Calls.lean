import FluxCore.Utp.System

/-!
# One connection and what happens to it

A connection from its construction on, against an arbitrary peer: the calls of its owner, the
datagrams it is given, whatever they are, and the drains of its outbox.
-/

namespace FluxCore.Utp

inductive Call where
  | act (a : Act)
  /-- A datagram arrives. -/
  | packet (data : Bytes) (nowUs : UInt32)
  | drain

namespace UtpConnection

def call (c : UtpConnection) : Call → UtpConnection
  | .act a => a.run c
  | .packet data nowUs => c.handlePacket data nowUs
  | .drain => c.drainOutbox.2

/-- As one of the two constructors leaves it. -/
inductive Fresh : UtpConnection → Prop where
  | initiator (remoteAddr : String) (remotePort : UInt16) (nowUs synTimeoutUs : UInt32) :
    Fresh (.initiator remoteAddr remotePort nowUs synTimeoutUs)
  | responder (remoteAddr : String) (remotePort peerRecvId ackNr : UInt16) (nowUs : UInt32) :
    Fresh (.responder remoteAddr remotePort peerRecvId ackNr nowUs)

end UtpConnection

end FluxCore.Utp
