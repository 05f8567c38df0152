import FluxCore.Ed2k.Framing
import FluxCore.Lib.Interval
import FluxCore.Storage.PieceStorage

/-!
# The ED2K download command

The scheduling of blocks in `Ed2kDownloadCommand.cc`: which blocks are asked of the current peer
(`fillBlockPipeline`), what an answer does to the blocks in flight and to the written ranges
(`handleSendingPart`), and how peers are left. Offsets are `int64_t` in the source and integers
here: they are bounded by the file size, which is itself read as an `int64_t`, so that a size from
`2^63` on is negative and nothing is asked for. The sockets, the server phases and the source
exchange are left out; a step chooses what they would deliver.
-/

namespace FluxCore.Ed2k

open Storage (DefaultPieceStorage)

def ED2K_BLOCK_SIZE : Int := 184320
def PART_SIZE : Int := 9728000
def BLOCKS_PER_MESSAGE : Nat := 3
def MAX_INFLIGHT_BLOCKS : Nat := 12
def PEER_COOLDOWN_SECONDS : Nat := 300
def MAX_SERVER_ROUNDS : Nat := 5

def REQUEST_PARTS : UInt8 := 0x47
def REQUEST_PARTS_I64 : UInt8 := 0xA3

/-- Clock readings are in nanoseconds. -/
def seconds (n : Nat) : Nat := n * 1000000000

inductive Ed2kState where
  | serverConnect | serverLogin | serverGetSources | serverWaitSources | peerConnect
  | peerWaitConnect | peerHandshake | peerFileInfo | peerSourceExchange | peerStartUpload
  | peerDownload | verifyHash | finished | failure
  deriving DecidableEq, Repr

inductive SourceState where
  | new | connecting | connected | downloading | queued | failed | expired
  deriving DecidableEq, Repr

structure PeerSource where
  addr : String
  port : Nat
  state : SourceState := .new
  lastActive : Nat := 0
  /-- Empty where it is unknown which parts the source has. -/
  availableParts : List Bool := []
  deriving DecidableEq, Repr

structure FailedPeer where
  addr : String
  port : Nat
  failTime : Nat
  permanent : Bool
  deriving DecidableEq, Repr

structure PartInfo where
  offset : Int
  length : Int
  completed : Bool := false
  downloading : Bool := false
  lastRequested : Nat
  sources : List Nat := []
  deriving DecidableEq, Repr

def PartInfo.limit (p : PartInfo) : Int := p.offset + p.length

/-- A half-open range of the file that has been asked for. -/
abbrev BlockRequest := Interval Int

structure DownloadCommand where
  fileSize : Int
  rawFileHash : Bytes
  useI64Requests : Bool
  state : Ed2kState := .serverConnect
  serverList : List (String × Nat) := []
  currentServerIndex : Nat := 0
  serverRound : Nat := 0
  maxSources : Nat := 100
  sources : List PeerSource := []
  currentSourceIndex : Nat := 0
  failedPeers : List FailedPeer := []
  parts : List PartInfo := []
  writtenRanges : IntervalSet Int := .empty
  downloadOffset : Int := 0
  downloadedLength : Int := 0
  lastMarkedLength : Int := 0
  inflightBlocks : List BlockRequest := []
  /-- What has been queued to the current peer. -/
  queued : List Frame := []
  pieceStorage : DefaultPieceStorage
  /-- The message of the exception that ended the command. -/
  aborted : Option String := none

namespace DownloadCommand

/-! ## Construction -/

/-- The parts from `offset` on, with `remaining` bytes left. -/
def partsFrom (created : Nat) : Nat → Int → Int → List PartInfo
  | 0, _, _ => []
  | fuel + 1, offset, remaining =>
    if 0 < remaining then
      { offset, length := min PART_SIZE remaining, lastRequested := created } ::
        partsFrom created fuel (offset + PART_SIZE) (remaining - PART_SIZE)
    else []

/-- The loop takes off a part at a time, so that the number of bytes is fuel enough. -/
def initParts (fileSize completed : Int) (created : Nat) : List PartInfo :=
  if fileSize = 0 then []
  else (partsFrom created fileSize.toNat 0 fileSize).map fun p : PartInfo =>
    ({ p with completed := p.limit ≤ completed } : PartInfo)

/-- The constructor, which takes the completed length as the written prefix, and `setFileSize`. -/
def start (fileSize : Int) (rawFileHash : Bytes) (serverList : List (String × Nat))
    (pieceStorage : DefaultPieceStorage) (created : Nat) : DownloadCommand :=
  let completed : Int := pieceStorage.getCompletedLength
  { fileSize, rawFileHash, serverList, pieceStorage
    useI64Requests := fileSize < 0 || 0xFFFFFFFF < fileSize
    parts := initParts fileSize completed created
    writtenRanges := if h : 0 < completed then .ofInterval ⟨0, completed⟩ h else .empty
    downloadOffset := completed
    downloadedLength := completed
    lastMarkedLength := completed }

variable (c : DownloadCommand)

/-! ## Peers -/

def resetPeerState : DownloadCommand := { c with queued := [], inflightBlocks := [] }

/-- Temporary entries whose cooldown is over are dropped when a peer is entered. -/
def markPeerFailed (addr : String) (port : Nat) (permanent : Bool) (wallclock now : Nat) :
    DownloadCommand :=
  let mark (s : PeerSource) : PeerSource :=
    { s with state := if permanent then .expired else .failed, lastActive := now }
  let isPeer (s : PeerSource) : Bool := s.addr = addr && s.port = port
  let sources := match c.sources.findIdx? isPeer with
    | some i => c.sources.modify i mark
    | none => c.sources
  let entry : FailedPeer := { addr, port, failTime := now, permanent }
  let failedPeers := match c.failedPeers.findIdx? fun fp => fp.addr = addr && fp.port = port with
    | some i => c.failedPeers.set i entry
    | none => (c.failedPeers ++ [entry]).filter fun fp =>
        fp.permanent || wallclock - fp.failTime ≤ seconds PEER_COOLDOWN_SECONDS
  { c with sources, failedPeers }

def isPeerInCooldown (addr : String) (port : Nat) (wallclock : Nat) : Bool :=
  match c.failedPeers.find? fun fp => fp.addr = addr && fp.port = port with
  | some fp => fp.permanent || wallclock - fp.failTime < seconds PEER_COOLDOWN_SECONDS
  | none => false

/-- The first source from `i` on that is neither expired nor in its cooldown. -/
def nextUsableSource (wallclock i : Nat) : Nat :=
  i + (c.sources.drop i).findIdx fun s =>
    !(s.state = .expired || s.state = .failed && c.isPeerInCooldown s.addr s.port wallclock)

def reconnectServer : Bool × DownloadCommand :=
  let c := c.resetPeerState
  let index := c.currentServerIndex + 1
  if c.serverList.length ≤ index then
    let c := { c with currentServerIndex := 0, serverRound := c.serverRound + 1 }
    if MAX_SERVER_ROUNDS < c.serverRound then (false, c)
    else (true, { c with state := .serverConnect })
  else (true, { c with currentServerIndex := index, state := .serverConnect })

/-- A peer the command was engaged with is marked as failed. -/
def leavePeer (wallclock now : Nat) : DownloadCommand :=
  match c.sources[c.currentSourceIndex]? with
  | some cur =>
    if cur.state = .connecting || cur.state = .connected || cur.state = .downloading ||
        cur.state = .queued then
      c.markPeerFailed cur.addr cur.port false wallclock now
    else c
  | none => c

def tryNextPeer (wallclock now : Nat) : DownloadCommand :=
  let c := (c.leavePeer wallclock now).resetPeerState
  let index := c.nextUsableSource wallclock (c.currentSourceIndex + 1)
  if c.sources.length ≤ index then
    match { c with currentSourceIndex := 0 : DownloadCommand }.reconnectServer with
    | (true, c) => c
    | (false, c) => { c with state := .failure }
  else { c with currentSourceIndex := index, state := .peerConnect }

def addSource (addr : String) (port : Nat) (wallclock now : Nat) : DownloadCommand :=
  if addr.isEmpty || port = 0 || c.maxSources ≤ c.sources.length ||
      c.sources.any (fun s => s.addr = addr && s.port = port) ||
      c.isPeerInCooldown addr port wallclock then c
  else { c with sources := c.sources ++ [{ addr, port, lastActive := now }] }

/-! ## Parts -/

def partIndexForOffset (offset : Int) : Nat := (offset / PART_SIZE).toNat

def addPartSource (sourceIndex : Nat) (p : PartInfo) : PartInfo :=
  if sourceIndex ∈ p.sources then p else { p with sources := p.sources ++ [sourceIndex] }

def updatePartAvailability (sourceIndex : Nat) (partBitmap : List Bool) : DownloadCommand :=
  if c.sources.length ≤ sourceIndex || c.parts.isEmpty then c
  else
    let bitmap := partBitmap.take c.parts.length
    { c with
      sources := c.sources.modify sourceIndex fun s => { s with availableParts := bitmap }
      parts := c.parts.mapIdx fun i p => if bitmap.getD i false then addPartSource sourceIndex p else p }

/-- The loop goes on while `next` moves; every move is forward. -/
def advance (limit : Int) (inflight : List BlockRequest) :
    Nat → Int → List (Interval Int) → Int
  | 0, next, _ => next
  | fuel + 1, next, rit =>
    if next < limit then
      let rit := rit.dropWhile fun r => r.stop ≤ next
      let written := match rit with
        | r :: _ => if r.start ≤ next then r.stop else next
        | [] => next
      let moved := inflight.foldl (fun n b => if b.start ≤ n ∧ n < b.stop then b.stop else n) written
      if moved = next then next else advance limit inflight fuel moved rit
    else next

/-- The lowest offset from `lo` on that is neither written nor in flight. A turn of the loop leaves
a range or a block behind for good, so their number is fuel enough. -/
def nextFreeOffset (lo limit : Int) : Int :=
  advance limit c.inflightBlocks (c.writtenRanges.runs.length + c.inflightBlocks.length + 1) lo
    (c.writtenRanges.runs.dropWhile fun r => r.stop ≤ lo)

/-- The part is worth asking the source for. -/
def wants (src : PeerSource) (i : Nat) (p : PartInfo) : Bool :=
  !p.completed && src.availableParts.getD i true && c.nextFreeOffset p.offset p.limit < p.limit

/-- Enter part `i` into the bucket of its source count: the first part, and the first one that has
not been asked for lately. -/
def addToBucket (wallclock : Nat) (buckets : OrderedMap Nat (Nat × Option Nat)) (i : Nat)
    (p : PartInfo) : OrderedMap Nat (Nat × Option Nat) :=
  let stale := seconds 60 < wallclock - p.lastRequested
  match buckets.find? p.sources.length with
  | none => buckets.insert p.sources.length (i, if stale then some i else none)
  | some (first, some j) => buckets.insert p.sources.length (first, some j)
  | some (first, none) => buckets.insert p.sources.length (first, if stale then some i else none)

def fillBuckets (wallclock : Nat) (src : PeerSource) :
    Nat → List PartInfo → OrderedMap Nat (Nat × Option Nat) → OrderedMap Nat (Nat × Option Nat)
  | _, [], buckets => buckets
  | i, p :: ps, buckets => fillBuckets wallclock src (i + 1) ps
      (if c.wants src i p then addToBucket wallclock buckets i p else buckets)

/-- Rarest first, and among these a part that has not been asked for lately. -/
def findBestPartToDownload (sourceIndex wallclock : Nat) : Option Nat :=
  match c.sources[sourceIndex]? with
  | none => none
  | some src =>
    let buckets := c.fillBuckets wallclock src 0 c.parts .empty
    match buckets.entries.findSome? fun kv => kv.2.2 with
    | some i => some i
    | none => buckets.entries.head?.map fun kv => kv.2.1

/-! ## Asking for blocks -/

def requestPart (i now : Nat) : DownloadCommand :=
  { c with parts := c.parts.modify i fun p => { p with downloading := true, lastRequested := now } }

/-- The block at the first free offset of `[base, limit)`. -/
def takeBlock (base limit : Int) : Option BlockRequest × DownloadCommand :=
  let next := c.nextFreeOffset base limit
  if limit ≤ next then (none, c)
  else
    let stop := min (next + ED2K_BLOCK_SIZE) limit
    (some ⟨next, stop⟩, { c with downloadOffset := stop })

def pickNextBlock (wallclock now : Nat) : Option BlockRequest × DownloadCommand :=
  if c.fileSize = 0 then (none, c)
  else if c.parts.isEmpty then c.takeBlock 0 c.fileSize
  else
    match c.findBestPartToDownload c.currentSourceIndex wallclock with
    | none => (none, c)
    | some i =>
      match c.parts[i]? with
      | none => (none, c)
      | some part => (c.requestPart i now).takeBlock part.offset part.limit

/-- What the clocks and the socket do during one call; the readings and the flushes are numbered by
the blocks in flight and in the message at that moment. -/
structure Turn where
  wallclock : Nat
  now : Nat → Nat
  flushes : Nat → Bool

/-- The blocks of one message. -/
def gatherBatch (t : Turn) : Nat → DownloadCommand → List BlockRequest →
    List BlockRequest × DownloadCommand
  | 0, c, batch => (batch, c)
  | fuel + 1, c, batch =>
    if batch.length < BLOCKS_PER_MESSAGE ∧
        c.inflightBlocks.length + batch.length < MAX_INFLIGHT_BLOCKS then
      match c.pickNextBlock t.wallclock (t.now (c.inflightBlocks.length + batch.length)) with
      | (none, c) => (batch, c)
      | (some b, c) => gatherBatch t fuel c (batch ++ [b])
    else (batch, c)

def appendLe64 (v : UInt64) : Bytes :=
  (List.range 8).map fun i => (v >>> (UInt64.ofNat (i * 8))).toUInt8

def offsetField (i64 : Bool) (v : Int) : Bytes :=
  if i64 then appendLe64 (UInt64.ofInt v) else writeLe32 (UInt32.ofInt v)

/-- The hash, three starts and three ends; unused slots are zero. -/
def requestPartsPayload (batch : List BlockRequest) : Bytes :=
  c.rawFileHash ++
    (List.range BLOCKS_PER_MESSAGE).flatMap (fun i =>
      offsetField c.useI64Requests ((batch[i]?.map Interval.start).getD 0)) ++
    (List.range BLOCKS_PER_MESSAGE).flatMap (fun i =>
      offsetField c.useI64Requests ((batch[i]?.map Interval.stop).getD 0))

def requestPartsFrame (batch : List BlockRequest) : Frame where
  protocol := ED2K_PROT_EDONKEY
  opcode := if c.useI64Requests then REQUEST_PARTS_I64 else REQUEST_PARTS
  payload := c.requestPartsPayload batch

/-- Queue the message and record its blocks as in flight. -/
def sendBatch (batch : List BlockRequest) : DownloadCommand :=
  { c with
    queued := c.queued ++ [c.requestPartsFrame batch]
    inflightBlocks := c.inflightBlocks ++ batch }

/-- Every message puts a block in flight, so `MAX_INFLIGHT_BLOCKS` turns are enough. -/
def fillBlockPipeline (t : Turn) : Nat → DownloadCommand → Bool × DownloadCommand
  | 0, c => (true, c)
  | fuel + 1, c =>
    if c.inflightBlocks.length < MAX_INFLIGHT_BLOCKS then
      match gatherBatch t BLOCKS_PER_MESSAGE c [] with
      | ([], c) => (true, c)
      | (batch, c) =>
        if c.rawFileHash.length ≠ 16 then
          (false, { c with aborted := some "Invalid ED2K file hash for parts request" })
        else if t.flushes c.inflightBlocks.length then
          fillBlockPipeline t fuel (c.sendBatch batch)
        else (false, c.sendBatch batch)
    else (true, c)

/-! ## Answers -/

def prefixLength : Int :=
  match c.writtenRanges.runs with
  | r :: _ => if r.start ≠ 0 then 0 else r.stop
  | [] => 0

def isRangeCovered (lo hi : Int) : Bool :=
  (c.writtenRanges.runs.takeWhile fun r => r.start ≤ lo).any fun r => r.start ≤ lo && hi ≤ r.stop

def downloadComplete : Bool := 0 < c.fileSize && c.fileSize ≤ c.prefixLength

/-- The length up to which the pieces are to be marked: the final piece is never marked. -/
def markLength : Int := if c.fileSize ≤ c.prefixLength then c.fileSize - 1 else c.prefixLength

/-- The written prefix has reached a piece that is not marked yet. -/
def reachesPiece : Bool :=
  c.lastMarkedLength < c.prefixLength && 0 < c.markLength &&
    0 < c.pieceStorage.pieceLength &&
    c.lastMarkedLength / c.pieceStorage.pieceLength < c.markLength / c.pieceStorage.pieceLength

/-- Push the prefix to the piece storage. -/
def markPrefix : DownloadCommand :=
  if c.reachesPiece then
    { c with
      pieceStorage := c.pieceStorage.markPiecesDone c.markLength.toNat
      lastMarkedLength := c.markLength }
  else c

/-- The written range is merged with those it meets; the first component is its index. -/
def recordWrittenRange (r : Interval Int) (h : r.start < r.stop) : Nat × DownloadCommand :=
  ((c.writtenRanges.runs.takeWhile fun s => s.stop < r.start).length,
    { c with writtenRanges := c.writtenRanges.insert r h : DownloadCommand }.markPrefix)

def updatePartCompletion (rangeIndex : Nat) : DownloadCommand :=
  match c.writtenRanges.runs[rangeIndex]? with
  | none => c
  | some last =>
    let firstPart := partIndexForOffset last.start
    let lastPart := partIndexForOffset (max (last.stop - 1) 0)
    { c with parts := c.parts.mapIdx fun i p =>
        if firstPart ≤ i ∧ i ≤ lastPart ∧ !p.completed ∧ c.isRangeCovered p.offset p.limit then
          { p with completed := true, downloading := false }
        else p }

/-- The source that delivered a part has it. -/
def creditSource (dataStart : Int) : DownloadCommand :=
  let pidx := partIndexForOffset dataStart
  { c with
    sources := c.sources.modify c.currentSourceIndex fun s =>
      let known := if s.availableParts.isEmpty then List.replicate c.parts.length false
        else s.availableParts
      { s with availableParts := known.set pidx true }
    parts := c.parts.modify pidx (addPartSource c.currentSourceIndex) }

def readLe64 (p : Bytes) : UInt64 :=
  (List.range 8).foldl (fun v i => v ||| ((p.getD i 0).toUInt64 <<< UInt64.ofNat (i * 8))) 0

/-- The range an answer carries, read as `int64_t`. -/
def sentRange (payload : Bytes) (is64 : Bool) : Interval Int :=
  if is64 then ⟨(readLe64 (payload.drop 16)).toInt64.toInt, (readLe64 (payload.drop 24)).toInt64.toInt⟩
  else ⟨(readLe32 (payload.drop 16)).toNat, (readLe32 (payload.drop 20)).toNat⟩

def headerLen (is64 : Bool) : Nat := if is64 then 32 else 24

/-- What is left of the blocks when `r`, a part of block number `i`, has arrived. -/
def splitBlocks (blocks : List BlockRequest) (i : Nat) (b r : Interval Int) : List BlockRequest :=
  blocks.take i ++
    ((if b.start < r.start then [⟨b.start, r.start⟩] else []) ++
      ((if r.stop < b.stop then [⟨r.stop, b.stop⟩] else []) ++ blocks.drop (i + 1)))

/-- Write the bytes of a range that is not covered yet. -/
def acceptData (r : Interval Int) (h : r.start < r.stop) (data : Bytes) (writeOk : Bool) :
    DownloadCommand :=
  if c.isRangeCovered r.start r.stop then c
  else if !writeOk then { c with aborted := some "ED2K failed to write block to disk" }
  else
    let c := { c with pieceStorage := c.pieceStorage.writeData r.start.toNat data : DownloadCommand }
    let (merged, c) := c.recordWrittenRange r h
    let c := { c with downloadedLength := c.downloadedLength + data.length }
    if c.parts.isEmpty ∨ c.sources.length ≤ c.currentSourceIndex then c
    else (c.creditSource r.start).updatePartCompletion merged

def touchSource (now : Nat) : DownloadCommand :=
  { c with sources := c.sources.modify c.currentSourceIndex fun s => { s with lastActive := now } }

def handleSendingPart (payload : Bytes) (is64 writeOk : Bool) (wallclock now : Nat) :
    Bool × DownloadCommand :=
  if payload.length < headerLen is64 then (false, c.tryNextPeer wallclock now)
  else if c.rawFileHash.length = 16 ∧ payload.take 16 ≠ c.rawFileHash then
    let c := match c.sources[c.currentSourceIndex]? with
      | some cur => c.markPeerFailed cur.addr cur.port true wallclock now
      | none => c
    (false, c.tryNextPeer wallclock now)
  else
    let r := sentRange payload is64
    if h : r.stop ≤ r.start ∨ ED2K_BLOCK_SIZE < r.stop - r.start ∨ c.fileSize < r.stop ∨
        payload.length < headerLen is64 + (r.stop - r.start).toNat then
      (false, c.tryNextPeer wallclock now)
    else
      match c.inflightBlocks.findIdx? fun b => b.start ≤ r.start ∧ r.stop ≤ b.stop with
      -- An unsolicited or duplicate block is tolerated and not written.
      | none => (true, c)
      | some i =>
        let b := c.inflightBlocks.getD i r
        let c := { c with inflightBlocks := splitBlocks c.inflightBlocks i b r : DownloadCommand }
        let data := (payload.drop (headerLen is64)).take (r.stop - r.start).toNat
        let c := c.acceptData r (not_le.mp (not_or.mp h).1) data writeOk
        if c.aborted.isSome then (false, c) else (true, c.touchSource now)

/-! ## Runs -/

inductive Event where
  | fill (t : Turn)
  | sendingPart (payload : Bytes) (is64 writeOk : Bool) (wallclock now : Nat)
  | partAvailability (sourceIndex : Nat) (partBitmap : List Bool)
  | nextPeer (wallclock now : Nat)
  | addSource (addr : String) (port : Nat) (wallclock now : Nat)
  /-- `peerDownload` finds that everything has arrived. -/
  | finish
  /-- The hash of the file is right. -/
  | verified

/-- An exception ends the command. -/
def step (c : DownloadCommand) (e : Event) : DownloadCommand :=
  if c.aborted.isSome then c
  else match e with
    | .fill t => (fillBlockPipeline t MAX_INFLIGHT_BLOCKS c).2
    | .sendingPart payload is64 writeOk wallclock now =>
      (c.handleSendingPart payload is64 writeOk wallclock now).2
    | .partAvailability sourceIndex partBitmap => c.updatePartAvailability sourceIndex partBitmap
    | .nextPeer wallclock now => c.tryNextPeer wallclock now
    | .addSource addr port wallclock now => c.addSource addr port wallclock now
    | .finish =>
      if c.downloadComplete then { c with inflightBlocks := [], state := .verifyHash } else c
    | .verified =>
      if c.state = .verifyHash then
        { c with pieceStorage := c.pieceStorage.markAllPiecesDone, state := .finished }
      else c

end DownloadCommand

end FluxCore.Ed2k
