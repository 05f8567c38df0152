import FluxCore.Bitfield.Answers
import FluxCore.Bt.RangeMessage

/-!
# What the swarm has

The counts of `PieceStatMan.cc` and everything that moves them: the four messages in which a peer
says which pieces it has, the end of its connection, and the storage's own pieces. Connections are
in a list, in the order in which they were made; one whose handler has thrown takes no further
message until it ends. All this is about a torrent whose metadata are known.
-/

namespace FluxCore.Swarm

open Bitfield (BitfieldMan lastByteMask)
open Bt (checkIndex)

abbrev Bytes := List UInt8

/-! ## Counts -/

def INT_MAX : Nat := 2 ^ 31 - 1

def inc (x : Nat) : Nat := if x < INT_MAX then x + 1 else x

def sub (x : Nat) : Nat := if 0 < x then x - 1 else x

namespace PieceStatMan

def addPieceStats (counts : List Nat) (bitfield : Bytes) : List Nat :=
  counts.mapIdx fun i x => if Bitfield.test bitfield i then inc x else x

def subtractPieceStats (counts : List Nat) (bitfield : Bytes) : List Nat :=
  counts.mapIdx fun i x => if Bitfield.test bitfield i then sub x else x

def updatePieceStats (counts : List Nat) (newBitfield oldBitfield : Bytes) : List Nat :=
  counts.mapIdx fun i x =>
    let inNew := Bitfield.test newBitfield i
    let inOld := Bitfield.test oldBitfield i
    if inNew then if !inOld then inc x else x
    else if inOld then sub x
    else x

/-- `addPieceStats(index)`. -/
def addPiece (counts : List Nat) (index : Nat) : List Nat := counts.modify index inc

end PieceStatMan

/-! ## Peers -/

/-- What a peer has, with the answer `updateSeeder` keeps. -/
structure Peer where
  bitfieldMan : BitfieldMan
  fastExtensionEnabled : Bool
  seeder : Bool

namespace Peer

variable (p : Peer)

def updateSeeder : Peer := { p with seeder := p.bitfieldMan.isAllBitSet }

/-- `allocateSessionResource`. -/
def allocate (pieceLength totalLength : Nat) (fastExtensionEnabled : Bool) : Peer :=
  updateSeeder
    { bitfieldMan := .new pieceLength totalLength, fastExtensionEnabled, seeder := false }

def getBitfield : Bytes := p.bitfieldMan.bitfield.bytes

def hasPiece (index : Nat) : Bool := p.bitfieldMan.isBitSet index

/-- `updateBitfield(index, 1)`. -/
def updateBitfield (index : Nat) : Peer :=
  updateSeeder { p with bitfieldMan := (p.bitfieldMan.setBit index).2 }

def setBitfield (bitfield : Bytes) : Peer :=
  updateSeeder { p with bitfieldMan := p.bitfieldMan.setBitfield bitfield }

def setAllBitfield : Peer := updateSeeder { p with bitfieldMan := p.bitfieldMan.setAllBit }

end Peer

/-- A connection, and what its handler has thrown. -/
structure PeerInteractionCommand where
  peer : Peer
  thrown : Option String := none

/-! ## Messages -/

inductive BtMessage where
  | btHave (index : Nat)
  | btBitfield (bitfield : Bytes)
  | btHaveAll
  | btHaveNone

def checkBitfield (bitfield : Bytes) (pieces : Nat) : Except String Unit :=
  if ¬bitfield.length = (pieces + 7) / 8 then
    .error s!"Invalid bitfield length: {bitfield.length}"
  else if bitfield.getLastD 0 &&& ~~~lastByteMask pieces ≠ 0 then .error "Invalid bitfield"
  else .ok ()

def BtMessage.validate (pieces : Nat) : BtMessage → Except String Unit
  | .btHave index => checkIndex index pieces
  | .btBitfield bitfield => checkBitfield bitfield pieces
  | .btHaveAll | .btHaveNone => .ok ()

/-- The text of `MSG_GOOD_BYE_SEEDER`. -/
def MSG_GOOD_BYE_SEEDER : String := "Client is in seed state: Good Bye Seeder;)"

structure Torrent where
  pieceLength : Nat
  totalLength : Nat
  /-- The pieces of the storage. -/
  bitfieldMan : BitfieldMan
  /-- `counts_` of the `PieceStatMan`. -/
  counts : List Nat
  commands : List PeerInteractionCommand := []

namespace Torrent

variable (t : Torrent)

def new (pieceLength totalLength : Nat) : Torrent where
  pieceLength
  totalLength
  bitfieldMan := .new pieceLength totalLength
  counts := List.replicate (Storage.blockCount pieceLength totalLength) 0

def getNumPieces : Nat := Storage.blockCount t.pieceLength t.totalLength

def downloadFinished : Bool := t.bitfieldMan.isFilteredAllBitSet

def allDownloadFinished : Bool := t.bitfieldMan.isAllBitSet

/-- What a handler leaves: the counts, the peer and what it throws. -/
abbrev Handled := List Nat × Peer × Option String

/-- The end of three handlers. -/
def goodBye (p : Peer) : Option String :=
  if p.seeder && t.downloadFinished then some MSG_GOOD_BYE_SEEDER else none

/-- `BtHaveMessage::doReceivedAction`. -/
def receiveHave (p : Peer) (index : Nat) : Handled :=
  if !p.hasPiece index then
    let p := p.updateBitfield index
    (PieceStatMan.addPiece t.counts index, p, t.goodBye p)
  else (t.counts, p, none)

/-- `BtBitfieldMessage::doReceivedAction`. -/
def receiveBitfield (p : Peer) (bitfield : Bytes) : Handled :=
  let counts := PieceStatMan.updatePieceStats t.counts bitfield p.getBitfield
  let p := p.setBitfield bitfield
  (counts, p, t.goodBye p)

/-- `BtHaveAllMessage::doReceivedAction`. -/
def receiveHaveAll (p : Peer) : Handled :=
  if !p.fastExtensionEnabled then
    (t.counts, p, some "have all received while fast extension is disabled")
  else
    let counts := PieceStatMan.subtractPieceStats t.counts p.getBitfield
    let p := p.setAllBitfield
    (PieceStatMan.addPieceStats counts p.getBitfield, p, t.goodBye p)

/-- `BtHaveNoneMessage::doReceivedAction`. -/
def receiveHaveNone (p : Peer) : Handled :=
  if !p.fastExtensionEnabled then
    (t.counts, p, some "have none received while fast extension is disabled")
  else (t.counts, p, none)

def doReceivedAction (p : Peer) : BtMessage → Handled
  | .btHave index => t.receiveHave p index
  | .btBitfield bitfield => t.receiveBitfield p bitfield
  | .btHaveAll => t.receiveHaveAll p
  | .btHaveNone => t.receiveHaveNone p

/-! ## Events -/

/-- A message arrives on connection `i` and is validated and handled. -/
def receive (i : Nat) (m : BtMessage) : Torrent :=
  match t.commands[i]? with
  | none => t
  | some c =>
    if c.thrown.isSome then t
    else
      match m.validate t.getNumPieces with
      | .error e => { t with commands := t.commands.set i { c with thrown := some e } }
      | .ok () =>
        let (counts, peer, thrown) := t.doReceivedAction c.peer m
        { t with counts, commands := t.commands.set i { peer, thrown } }

def connect (fastExtensionEnabled : Bool) : Torrent :=
  { t with
    commands := t.commands ++
      [{ peer := .allocate t.pieceLength t.totalLength fastExtensionEnabled }] }

/-- `~PeerInteractionCommand`. -/
def finish (i : Nat) : Torrent :=
  match t.commands[i]? with
  | none => t
  | some c =>
    { t with
      counts := if 0 < c.peer.bitfieldMan.getCompletedLength then
          PieceStatMan.subtractPieceStats t.counts c.peer.getBitfield
        else t.counts
      commands := t.commands.eraseIdx i }

/-- `completePiece(getPiece(index))`; there is no piece behind the last one. -/
def completePiece (index : Nat) : Torrent :=
  if ¬index < t.bitfieldMan.blocks then t
  else if t.allDownloadFinished then t
  else
    { t with
      bitfieldMan := ((t.bitfieldMan.setBit index).2.unsetUseBit index).2
      counts := PieceStatMan.addPiece t.counts index }

/-- `DefaultPieceStorage::setBitfield`. -/
def setBitfield (bitfield : Bytes) : Torrent :=
  { t with
    bitfieldMan := t.bitfieldMan.setBitfield bitfield
    counts := PieceStatMan.addPieceStats t.counts bitfield }

inductive Event where
  | connect (fastExtensionEnabled : Bool)
  | receive (i : Nat) (m : BtMessage)
  | finish (i : Nat)
  | completePiece (index : Nat)
  | setBitfield (bitfield : Bytes)

def step : Event → Torrent
  | .connect fastExtensionEnabled => t.connect fastExtensionEnabled
  | .receive i m => t.receive i m
  | .finish i => t.finish i
  | .completePiece index => t.completePiece index
  | .setBitfield bitfield => t.setBitfield bitfield

end Torrent

end FluxCore.Swarm
