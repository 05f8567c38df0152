import FluxCore.Ed2k.SourceExchange

/-!
# The state machine of an ED2K download

`execute` of `Ed2kDownloadCommand.cc`: one `case` of its `switch` at a time, with the handlers of
the server phase and of the peer phase. A step is given what it meets: the readings of the clocks,
whether the timer that its state looks at has run out, what the socket says and the next message.
The messages that are only sent are left out, and so is what is only logged.
-/

namespace FluxCore.Ed2k

def SERVER_MESSAGE : UInt8 := 0x38
def ID_CHANGE : UInt8 := 0x40
def SERVER_IDENT : UInt8 := 0x41
def FOUND_SOURCES : UInt8 := 0x42
def HELLO_ANSWER : UInt8 := 0x4C
def REQ_FILENAME_ANSWER : UInt8 := 0x59
def FILE_REQ_ANS_NO_FIL : UInt8 := 0x48
def FILE_STATUS : UInt8 := 0x50
def ACCEPT_UPLOAD_REQ : UInt8 := 0x55
def CANCEL_TRANSFER : UInt8 := 0x56
def QUEUE_RANK : UInt8 := 0x5C
def SENDING_PART : UInt8 := 0x46
def SENDING_PART_I64 : UInt8 := 0xA2
def QUEUE_RANKING : UInt8 := 0x60
def ANSWER_SOURCES : UInt8 := 0x82
def ANSWER_SOURCES2 : UInt8 := 0x84

/-- The options, and the server that came with the link. -/
structure Config where
  serverSourceEnabled : Bool := true
  sourceExchangeEnabled : Bool := true
  serverAddr : String := ""
  serverPort : Nat := 0
  /-- `getDefaultServers`, which falls back to a list of its own. -/
  defaultServers : List (String × Nat)
  defaultServers_ne : defaultServers ≠ []

/-- A connection that was attempted. -/
inductive Attempt where
  | server (index : Nat)
  | peer (addr : String) (port : Nat)
  deriving DecidableEq, Repr

structure Execution extends DownloadCommand where
  /-- The command starts with the socket of `Ed2kInitiateConnectionCommand`. -/
  socketOpen : Bool := true
  setReqFileIdSent : Bool := false
  /-- `execute` has returned true. -/
  returned : Bool := false
  /-- A ghost: the connections that were attempted, in order. -/
  attempts : List Attempt := []

/-- What a socket that is open says of its connection. -/
inductive SocketStatus where
  | connecting | refused | established
  deriving DecidableEq, Repr

inductive Incoming where
  /-- The socket would block. -/
  | nothing
  /-- The connection is closed, or its stream is not understood. -/
  | lost
  | frame (f : Frame)

/-- What one pass through the `switch` meets. -/
structure Tick where
  turn : DownloadCommand.Turn
  now : Nat := 0
  /-- The download is finished or halted, or nothing has happened for too long. -/
  ends : Bool := false
  /-- The bytes that wait to be sent meet a dead socket. -/
  dead : Bool := false
  /-- The timer that the state looks at has run out. -/
  timedOut : Bool := false
  socket : SocketStatus := .connecting
  /-- `establishConnection` does not throw. -/
  initiated : Bool := true
  incoming : Incoming := .nothing
  /-- It is time to ask the server again. -/
  refreshDue : Bool := false
  /-- The sources that KAD delivers. -/
  kadSources : List (String × Nat) := []
  writeOk : Bool := true
  /-- Whether the hash is right, once the file has been read. -/
  verified : Option Bool := none

namespace Execution

variable (cfg : Config) (s : Execution) (t : Tick)

/-- Nothing happens any more. -/
def isOver : Bool := s.returned || s.aborted.isSome

def abort (message : String) : Execution := { s with aborted := some message }

def resetPeerState : Execution :=
  { s with
    toDownloadCommand := s.toDownloadCommand.resetPeerState
    socketOpen := false
    setReqFileIdSent := false }

/-- `tryNextPeer`, which resets the peer state. -/
def tryNextPeer : Execution :=
  { s.resetPeerState with
    toDownloadCommand := s.toDownloadCommand.tryNextPeer t.turn.wallclock t.now }

def parseSourcesAnswer (payload : Bytes) : Execution :=
  { s with
    toDownloadCommand := s.toDownloadCommand.parseSourcesAnswer payload t.turn.wallclock t.now }

/-- Change the entry of the current source. -/
def setCurrent (f : PeerSource → PeerSource) : Execution :=
  { s with sources := s.sources.modify s.currentSourceIndex f }

/-- The current peer is marked as failed for good and left. -/
def dropPeer : Execution :=
  match s.sources[s.currentSourceIndex]? with
  | some cur =>
    let c := s.toDownloadCommand.markPeerFailed cur.addr cur.port true t.turn.wallclock t.now
    tryNextPeer { s with toDownloadCommand := c } t
  | none => s.tryNextPeer t

/-! ## The server phase -/

/-- The next server of the list, if there is one, is up to `serverConnect`. -/
def nextServer : Execution :=
  { s.resetPeerState with
    currentServerIndex := s.currentServerIndex + 1, state := .serverConnect }

def buildServerList : Execution :=
  if s.serverList.isEmpty then
    { s with
      serverList := if !cfg.serverAddr.isEmpty && 0 < cfg.serverPort then
          [(cfg.serverAddr, cfg.serverPort)]
        else cfg.defaultServers }
  else s

def initiateServer : Execution :=
  let s := s.resetPeerState
  let s := { s with attempts := s.attempts ++ [Attempt.server s.currentServerIndex] }
  if t.initiated then { s with socketOpen := true }
  else { s with currentServerIndex := s.currentServerIndex + 1 }

/-- Pick the next server, with the number of rounds limited. -/
def pickServer : Execution :=
  let s := s.buildServerList cfg
  if s.serverList.length ≤ s.currentServerIndex then
    let s := { s with currentServerIndex := 0, serverRound := s.serverRound + 1 }
    if MAX_SERVER_ROUNDS < s.serverRound then { s with state := .failure }
    else s.initiateServer t
  else s.initiateServer t

def serverConnect : Execution :=
  if s.socketOpen then
    match t.socket with
    | .connecting =>
      if t.timedOut then
        { s.resetPeerState with currentServerIndex := s.currentServerIndex + 1 }.pickServer cfg t
      else s
    | .established => { s with state := .serverLogin }
    | .refused =>
      { s.resetPeerState with currentServerIndex := s.currentServerIndex + 1 }.pickServer cfg t
  else s.pickServer cfg t

/-- Messages of a server that are skipped. -/
def chatter (f : Frame) : Bool :=
  f.protocol = ED2K_PROT_EDONKEY && (f.opcode = SERVER_MESSAGE || f.opcode = SERVER_IDENT)

def serverLogin : Execution :=
  match t.incoming with
  | .nothing => s
  | .lost => s.nextServer
  | .frame f =>
    if chatter f then s
    else if f.protocol = ED2K_PROT_EDONKEY && f.opcode = ID_CHANGE then
      { s with state := .serverGetSources }
    else s.nextServer

/-- The sources a server has found, of which the answer holds as many as it counts at most. -/
def foundSources (payload : Bytes) : List (String × Nat) :=
  let sourceCount := min (payload.getD 16 0).toNat ((payload.length - 17) / 6)
  (List.range sourceCount).filterMap fun i => entrySource (payload.drop (17 + i * 6))

def serverGetSources : Execution :=
  if s.rawFileHash.length ≠ 16 then s.abort "Invalid ED2K file hash for source request"
  else match t.incoming with
  | .nothing => s
  | .lost => s.nextServer
  | .frame f =>
    if chatter f then s
    else if !(f.protocol = ED2K_PROT_EDONKEY && f.opcode = FOUND_SOURCES) ||
        f.payload.length < 17 then
      { s with state := .serverWaitSources }
    else if f.payload.take 16 ≠ s.rawFileHash then s
    else
      let c := (foundSources f.payload).foldl
        (fun c src => c.addSource src.1 src.2 t.turn.wallclock t.now) s.toDownloadCommand
      let s := { s with toDownloadCommand := c }
      if s.sources.isEmpty then { s with state := .serverWaitSources }
      else { s with socketOpen := false, currentSourceIndex := 0, state := .peerConnect }

/-- The outcome of `reconnectServer` is not looked at here. -/
def serverWaitSources : Execution :=
  if t.timedOut then
    { s.resetPeerState with toDownloadCommand := s.toDownloadCommand.reconnectServer.2 }
  else s

/-! ## The peer phase -/

def peerConnect : Execution :=
  match s.sources[s.currentSourceIndex]? with
  | none => s.tryNextPeer t
  | some src =>
    if src.state = .expired ||
        src.state = .failed && s.isPeerInCooldown src.addr src.port t.turn.wallclock then
      { s with currentSourceIndex := s.currentSourceIndex + 1 }
    else
      let s := s.setCurrent fun p => { p with state := .connecting, lastActive := t.now }
      let s := s.resetPeerState
      let s := { s with attempts := s.attempts ++ [Attempt.peer src.addr src.port] }
      if t.initiated then { s with socketOpen := true, state := .peerWaitConnect }
      else s.tryNextPeer t

def peerWaitConnect : Execution :=
  match t.socket with
  | .connecting => if t.timedOut then s.tryNextPeer t else s
  | .refused => s.tryNextPeer t
  | .established => { s with state := .peerHandshake }

def peerHandshake : Execution :=
  match t.incoming with
  | .nothing => s
  | .lost => s.tryNextPeer t
  | .frame f =>
    if f.protocol = ED2K_PROT_EMULE || f.opcode = QUEUE_RANK then s
    else if f.opcode ≠ HELLO_ANSWER then s.tryNextPeer t
    else
      { s.setCurrent fun p => { p with state := .connected, lastActive := t.now } with
        state := .peerFileInfo, setReqFileIdSent := false }

/-- A message of the eMule extension in a state that only takes sources from them. -/
def emuleMessage (f : Frame) : Execution :=
  if f.opcode = ANSWER_SOURCES || f.opcode = ANSWER_SOURCES2 then s.parseSourcesAnswer t f.payload
  else s

def fileInfoDone : Execution :=
  { s with state := if cfg.sourceExchangeEnabled then .peerSourceExchange else .peerStartUpload }

/-- The bitmap of a `FILE_STATUS`, if all of it is there. -/
def statusBitmap (payload : Bytes) : Option (List Bool) :=
  if payload.length < 18 then none
  else
    let partCount := (readLe16 (payload.drop 16)).toNat
    if payload.length < 18 + (partCount + 7) / 8 then none
    else some ((List.range partCount).map fun i =>
      (payload.getD (18 + i / 8) 0) &&& (1 <<< UInt8.ofNat (i % 8)) ≠ 0)

def fileStatus (payload : Bytes) : Execution :=
  match statusBitmap payload with
  | some bitmap =>
    if s.currentSourceIndex < s.sources.length then
      let c := s.toDownloadCommand.updatePartAvailability s.currentSourceIndex bitmap
      { s with toDownloadCommand := c }
    else s
  | none => s

def peerFileInfo : Execution :=
  if s.rawFileHash.length ≠ 16 then s.abort "Invalid ED2K file hash"
  else match t.incoming with
  | .nothing =>
    if !t.timedOut then s else if s.setReqFileIdSent then s.fileInfoDone cfg else s.tryNextPeer t
  | .lost => s.tryNextPeer t
  | .frame f =>
    if f.protocol = ED2K_PROT_EMULE then s.emuleMessage t f
    else if f.opcode = FILE_REQ_ANS_NO_FIL then s.dropPeer t
    else if f.opcode = QUEUE_RANK then s
    else if !s.setReqFileIdSent then
      if f.opcode = REQ_FILENAME_ANSWER then { s with setReqFileIdSent := true } else s
    else if f.opcode = FILE_STATUS then (s.fileStatus f.payload).fileInfoDone cfg
    else s.fileInfoDone cfg

def peerSourceExchange : Execution :=
  match t.incoming with
  | .nothing => if t.timedOut then { s with state := .peerStartUpload } else s
  | .lost => { s with state := .peerStartUpload }
  | .frame f =>
    if f.protocol = ED2K_PROT_EMULE then
      { s.emuleMessage t f with state := .peerStartUpload }
    else if f.opcode = FILE_REQ_ANS_NO_FIL then s.dropPeer t
    else { s with state := .peerStartUpload }

/-- How long is waited depends on whether the peer has queued us, which its timer tells. -/
def peerStartUpload : Execution :=
  if s.rawFileHash.length ≠ 16 then s.abort "Invalid ED2K file hash for upload request"
  else match t.incoming with
  | .nothing => if t.timedOut then s.tryNextPeer t else s
  | .lost => s.tryNextPeer t
  | .frame f =>
    if f.protocol = ED2K_PROT_EMULE then
      if f.opcode = QUEUE_RANKING then s.setCurrent fun p => { p with state := .queued }
      else s.emuleMessage t f
    else if f.opcode = ACCEPT_UPLOAD_REQ then
      { s.setCurrent fun p => { p with state := .downloading, lastActive := t.now } with
        state := .peerDownload }
    else if f.opcode = QUEUE_RANK then s.setCurrent fun p => { p with state := .queued }
    else if f.opcode = FILE_REQ_ANS_NO_FIL then s.dropPeer t
    else if f.opcode = CANCEL_TRANSFER then s.tryNextPeer t
    else s

def countActiveSources : Nat :=
  s.sources.countP fun p => p.state = .connected || p.state = .downloading || p.state = .queued

/-- The peer is left for a server. -/
def checkServerSourceRefresh : Execution :=
  if cfg.serverSourceEnabled && s.sources.length < s.maxSources && s.countActiveSources < 5 &&
      t.refreshDue then
    { s.resetPeerState with state := .serverConnect }
  else s

def sendingPart (payload : Bytes) (is64 : Bool) : Execution :=
  match s.toDownloadCommand.handleSendingPart payload is64 t.writeOk t.turn.wallclock t.now with
  | (true, c) => { s with toDownloadCommand := c }
  | (false, c) => { s.resetPeerState with toDownloadCommand := c }

/-- Receive one message, with blocks in flight. -/
def receivePart : Execution :=
  match t.incoming with
  | .nothing =>
    if s.currentSourceIndex < s.sources.length && t.timedOut then s.tryNextPeer t else s
  | .lost => s.tryNextPeer t
  | .frame f =>
    if f.protocol = ED2K_PROT_EMULE then s.emuleMessage t f
    else if f.opcode = SENDING_PART then s.sendingPart t f.payload false
    else if f.opcode = SENDING_PART_I64 then s.sendingPart t f.payload true
    else if f.opcode = QUEUE_RANK then s
    else if f.opcode = FILE_REQ_ANS_NO_FIL then s.dropPeer t
    else if f.opcode = CANCEL_TRANSFER then s.tryNextPeer t
    else s

def addKadSources : Execution :=
  let c := t.kadSources.foldl
    (fun c src => c.addSource src.1 src.2 t.turn.wallclock t.now) s.toDownloadCommand
  { s with toDownloadCommand := c }

/-- One turn of the loop. -/
def transferTurn : Execution :=
  if s.downloadComplete then
    { s with inflightBlocks := [], socketOpen := false, state := .verifyHash }
  else
    match DownloadCommand.fillBlockPipeline t.turn MAX_INFLIGHT_BLOCKS s.toDownloadCommand with
    | (false, c) =>
      let s := { s with toDownloadCommand := c }
      if s.aborted.isSome then s else if t.dead then s.tryNextPeer t else s
    | (true, c) =>
      let s := { s with toDownloadCommand := c }
      if s.inflightBlocks.isEmpty then s.tryNextPeer t else s.receivePart t

def peerDownload : Execution :=
  let s := (s.addKadSources t).checkServerSourceRefresh cfg t
  if s.state ≠ .peerDownload then s else s.transferTurn t

def verifyHash : Execution :=
  match t.verified with
  | none => s
  | some true => { s with pieceStorage := s.pieceStorage.markAllPiecesDone, state := .finished }
  | some false => s.abort "ED2K file hash verification failed — downloaded data is corrupt"

/-! ## `execute` -/

/-- The states in which the socket is one of a protocol exchange. In the last two states nothing is
left to be sent on it. -/
def exchanges (state : Ed2kState) : Bool :=
  state ≠ .serverConnect && state ≠ .peerConnect && state ≠ .peerWaitConnect &&
    state ≠ .verifyHash && state ≠ .finished && state ≠ .failure

/-- The socket is dead. -/
def socketDead : Execution :=
  if s.state = .serverLogin || s.state = .serverGetSources || s.state = .serverWaitSources then
    s.nextServer
  else s.tryNextPeer t

/-- Without servers the sources have to come from elsewhere. -/
def connectPhase : Execution :=
  if !cfg.serverSourceEnabled then
    if s.sources.isEmpty then s.addKadSources t else { s with state := .peerConnect }
  else s.serverConnect cfg t

/-- One `case` of the `switch`. -/
def switch : Execution :=
  match s.state with
  | .serverConnect => s.connectPhase cfg t
  | .serverLogin => s.serverLogin t
  | .serverGetSources => s.serverGetSources t
  | .serverWaitSources => s.serverWaitSources t
  | .peerConnect => s.peerConnect t
  | .peerWaitConnect => s.peerWaitConnect t
  | .peerHandshake => s.peerHandshake t
  | .peerFileInfo => s.peerFileInfo cfg t
  | .peerSourceExchange => s.peerSourceExchange t
  | .peerStartUpload => s.peerStartUpload t
  | .peerDownload => s.peerDownload cfg t
  | .verifyHash => s.verifyHash t
  | .finished => { s with returned := true }
  | .failure => s.abort "ED2K download failed"

/-- A command that is over is not executed any more. -/
def execute : Execution :=
  if s.isOver then s
  else if t.ends || s.fileSize = 0 && s.state ≠ .finished then { s with returned := true }
  else if exchanges s.state && t.dead then s.socketDead t
  else s.switch cfg t

/-- The command as `Ed2kInitiateConnectionCommand` creates it. -/
def start (fileSize : Int) (rawFileHash : Bytes) (serverList : List (String × Nat))
    (maxSources : Nat) (pieceStorage : Storage.DefaultPieceStorage) (created : Nat) : Execution where
  toDownloadCommand :=
    { DownloadCommand.start fileSize rawFileHash serverList pieceStorage created with maxSources }

end Execution

/-! ## Sample passes -/

/-- A pass at time 0. -/
def pass (incoming : Incoming) : Tick where
  turn := ⟨0, fun _ => 0, fun _ => false⟩
  socket := .established
  incoming

def received (opcode : UInt8) (payload : Bytes) : Tick :=
  pass (.frame ⟨ED2K_PROT_EDONKEY, opcode, payload⟩)

end FluxCore.Ed2k
