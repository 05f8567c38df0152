import FluxCore.Utp.Gate

/-!
# Dispatch of datagrams to connections

`UtpContext.cc`: the registry of connections behind one UDP socket. A datagram is handed to the
connection registered under its connection id; a SYN that finds none is looked up once more among
the ids the connections send under, and otherwise accepted as a new connection. The sender's address
is not compared. `isolated_iff` says what follows: a datagram leaves the connections of other
endpoints alone exactly when the connection it is handed to, if any, is one of its sender's.
-/

namespace FluxCore.Utp

def MAX_DATAGRAM : Nat := 2048

/-- The registry by receive id, the datagrams sent with their destinations, and the connections
handed to the accept handler. -/
structure UtpContext where
  connections : OrderedMap UInt16 UtpConnection := .empty
  sent : List (Bytes × String × UInt16) := []
  accepted : List UInt16 := []

namespace UtpContext

/-- A connection and the id it is registered under. -/
def find (ctx : UtpContext) (recvId : UInt16) : Option (UInt16 × UtpConnection) :=
  (ctx.connections.find? recvId).map (recvId, ·)

/-- The first connection that sends under the id. -/
def findBySendId (ctx : UtpContext) (sendId : UInt16) : Option (UInt16 × UtpConnection) :=
  ctx.connections.entries.find? fun kv => kv.2.sendId = sendId

/-- The connection a datagram with the header is handed to. -/
def route (ctx : UtpContext) (hdr : PacketHeader) : Option (UInt16 × UtpConnection) :=
  match ctx.find hdr.connectionId with
  | some kv => some kv
  | none => if hdr.type = ST_SYN then ctx.findBySendId hdr.connectionId else none

/-- Send what the connection registered under `id`, in its state `c`, has put out. -/
def flushOutbox (ctx : UtpContext) (id : UInt16) (c : UtpConnection) : UtpContext :=
  { ctx with
    connections := ctx.connections.insert id c.drainOutbox.2
    sent := ctx.sent ++ c.drainOutbox.1.map (·, c.remoteAddr, c.remotePort) }

/-- A SYN for which no connection is found. -/
def acceptSyn (ctx : UtpContext) (hdr : PacketHeader) (addr : String) (port : UInt16)
    (nowUs : UInt32) : UtpContext :=
  let incoming := UtpConnection.responder addr port hdr.connectionId hdr.seqNr nowUs
  match ctx.connections.find? incoming.recvId with
  | some _ => ctx
  | none =>
    let ctx := ctx.flushOutbox incoming.recvId incoming
    { ctx with accepted := ctx.accepted ++ [incoming.recvId] }

/-- One turn of `receiveLoop`: a datagram from `addr`, `port`, cut to the size of the buffer. -/
def dispatch (ctx : UtpContext) (datagram : Bytes) (addr : String) (port : UInt16)
    (nowUs : UInt32) : UtpContext :=
  let buf := datagram.take MAX_DATAGRAM
  match parsePacket buf with
  | none => ctx
  | some (hdr, _) =>
    match ctx.route hdr with
    | some (id, c) => ctx.flushOutbox id (c.handlePacket buf nowUs)
    | none => if hdr.type = ST_SYN then ctx.acceptSyn hdr addr port nowUs else ctx

/-- The connections of other endpoints are left as they are, whatever the clock reads. -/
def Isolated (ctx : UtpContext) (datagram : Bytes) (addr : String) (port : UInt16) : Prop :=
  ∀ nowUs id c, ctx.connections.find? id = some c → (c.remoteAddr, c.remotePort) ≠ (addr, port) →
    (ctx.dispatch datagram addr port nowUs).connections.find? id = some c

/-- The connection the datagram is handed to, if any, is one of its sender's. -/
def RoutedToSender (ctx : UtpContext) (datagram : Bytes) (addr : String) (port : UInt16) : Prop :=
  ∀ hdr exts, parsePacket (datagram.take MAX_DATAGRAM) = some (hdr, exts) →
    ∀ id c, ctx.route hdr = some (id, c) → (c.remoteAddr, c.remotePort) = (addr, port)

variable {ctx : UtpContext} {hdr : PacketHeader} {id : UInt16} {c : UtpConnection}
  {datagram : Bytes} {exts : List (UInt8 × Bytes)} {addr : String} {port : UInt16}

theorem find?_of_route (h : ctx.route hdr = some (id, c)) : ctx.connections.find? id = some c := by
  unfold route at h
  split at h
  next kv hfind =>
    cases h
    obtain ⟨c', hc', heq⟩ := Option.map_eq_some_iff.mp hfind
    cases heq
    exact hc'
  · split at h
    · exact OrderedMap.find?_eq_some.mpr (List.mem_of_find?_eq_some h)
    · cases h

theorem dispatch_eq (hp : parsePacket (datagram.take MAX_DATAGRAM) = some (hdr, exts)) (nowUs) :
    ctx.dispatch datagram addr port nowUs =
      match ctx.route hdr with
      | some (id, c) => ctx.flushOutbox id (c.handlePacket (datagram.take MAX_DATAGRAM) nowUs)
      | none => if hdr.type = ST_SYN then ctx.acceptSyn hdr addr port nowUs else ctx := by
  rw [dispatch, hp]

/-- A new connection leaves every registered one as it is. -/
theorem find?_acceptSyn (h : ctx.connections.find? id = some c) (hdr addr port nowUs) :
    (ctx.acceptSyn hdr addr port nowUs).connections.find? id = some c := by
  unfold acceptSyn
  dsimp only
  split
  · exact h
  next hnone =>
    refine (OrderedMap.find?_insert_of_ne (fun heq => ?_) _).trans h
    rw [← heq, h] at hnone
    cases hnone

/-- The connection a packet is handed to is never left as it was, at every reading of the clock. -/
theorem exists_changed (c : UtpConnection) (hp : parsePacket datagram = some (hdr, exts)) :
    ∃ nowUs, (c.handlePacket datagram nowUs).drainOutbox.2 ≠ c := by
  refine ⟨c.lastRecvUs + 1, fun heq => ?_⟩
  have hrecv := (c.received_handleParsed hdr (UtpConnection.sackOf exts) (payloadOf datagram exts)
    (c.lastRecvUs + 1)).lastRecvUs
  rw [← UtpConnection.handlePacket_eq hp] at hrecv
  have hsame : (c.handlePacket datagram (c.lastRecvUs + 1)).drainOutbox.2.lastRecvUs =
      c.lastRecvUs := by rw [heq]
  exact absurd (hrecv.symm.trans hsame) (by simp)

theorem Isolated.routedToSender (h : ctx.Isolated datagram addr port) :
    ctx.RoutedToSender datagram addr port := by
  intro hdr exts hp id c hroute
  by_contra hne
  obtain ⟨nowUs, hchanged⟩ := exists_changed c hp
  have hsame := h nowUs id c (find?_of_route hroute) hne
  rw [dispatch_eq hp, hroute] at hsame
  exact hchanged (Option.some.inj ((OrderedMap.find?_insert_self ..).symm.trans hsame))

end UtpContext

open UtpContext

/-- A datagram leaves the connections of other endpoints alone exactly when the connection it is
handed to is its sender's. -/
theorem isolated_iff (ctx : UtpContext) (datagram : Bytes) (addr : String) (port : UInt16) :
    ctx.Isolated datagram addr port ↔ ctx.RoutedToSender datagram addr port := by
  constructor
  · exact Isolated.routedToSender
  · intro h nowUs id c hc hne
    cases hp : parsePacket (datagram.take MAX_DATAGRAM) with
    | none =>
      rw [dispatch, hp]
      exact hc
    | some q =>
      obtain ⟨hdr, exts⟩ := q
      rw [dispatch_eq hp]
      cases hroute : ctx.route hdr with
      | none =>
        dsimp only
        split
        · exact find?_acceptSyn hc ..
        · exact hc
      | some kv =>
        obtain ⟨id', c'⟩ := kv
        refine (OrderedMap.find?_insert_of_ne (fun heq => hne ?_) _).trans hc
        subst heq
        have hc' := find?_of_route hroute
        rw [hc, Option.some.injEq] at hc'
        rw [hc']
        exact h hdr exts hp id c' hroute

/-- A SYN with connection id 5. -/
def synOf : Bytes := encodeHeader { type := ST_SYN, connectionId := 5, timestamp := 7, seqNr := 1 }

/-- One endpoint's connection is accepted; then a SYN with the same id comes from another endpoint.
-/
theorem isolated_counterexample :
    ¬(dispatch {} synOf "10.0.0.1" 6881 1).Isolated synOf "10.0.0.2" 6881 := by
  intro h
  have hroute : ∀ q ∈ parsePacket (synOf.take MAX_DATAGRAM),
      ∀ kv ∈ (dispatch {} synOf "10.0.0.1" 6881 1).route q.1,
        (kv.2.remoteAddr, kv.2.remotePort) = ("10.0.0.2", 6881) := fun q hq kv hkv =>
    h.routedToSender q.1 q.2 hq kv.1 kv.2 hkv
  exact absurd hroute (by decide +kernel)

end FluxCore.Utp
