import FluxCore.Disk.DiskWriterEntry
import FluxCore.Lib.Run
import FluxCore.Storage.BitfieldMan

/-!
# The download of metadata

A magnet download fetches the info dictionary of its torrent from its peers, in pieces of 16 KiB
that go into a buffer in memory. The size is known from a handshake, the hash from the magnet link;
a message of a peer is not checked before all pieces are there.
-/

namespace FluxCore.Metadata

open Disk (File)
open Storage (BitfieldMan)

abbrev Bytes := List UInt8

def METADATA_PIECE_SIZE : Nat := 16 * 1024

/-- The largest size that a handshake may name. -/
def MAX_METADATA_SIZE : Nat := 8 * 1024 * 1024

/-! ## The buffer -/

/-- `maxLength_` of a `ByteArrayDiskWriter`. -/
def maxLength : Nat := 15 * 1024 * 1024

/-- `ByteArrayDiskWriter::writeData`: a gap before the offset is filled with zeros, also when
nothing is written. -/
def writeData (buf : File) (data : Bytes) (offset : Nat) : Except String File :=
  if maxLength < offset + data.length then .error s!"Maximum length({maxLength}) exceeded."
  else .ok (File.write (buf ++ List.replicate (offset - buf.length) 0) offset data)

/-- The loop of `util::toString`; each turn reads a byte at least. -/
def readAll (buf : File) : Nat → Bytes → Bytes
  | 0, strm => strm
  | fuel + 1, strm =>
    let data := buf.read strm.length 2048
    if data.length = 0 then strm else readAll buf fuel (strm ++ data)

def toString (buf : File) : Bytes := readAll buf (buf.length + 1) []

/-! ## Messages -/

/-- The storage of the metadata, and for each peer the pieces it has been asked for. -/
structure Download where
  buf : File := []
  bitfieldMan : BitfieldMan
  trackers : List (List Nat) := []

/-- What a data message comes to. -/
inductive Outcome where
  | untracked
  /-- The buffer does not take it. -/
  | failed (what : String)
  /-- A piece is marked complete, or there is no such piece, and some are missing. -/
  | written
  /-- All pieces are there; where the hash is wrong, they are all missing again. -/
  | hashed (metadata : Bytes) (accepted : Bool)

namespace Download

variable (d : Download)

def tracked (peer : Nat) : List Nat := d.trackers.getD peer []

def setTracked (peer : Nat) (indexes : List Nat) : Download :=
  { d with trackers := d.trackers.set peer indexes }

def getNumPieces : Nat := d.bitfieldMan.countBlock

/-- `completePiece(getPiece(index))`; there is no piece behind the last one. -/
def completePiece (index : Nat) : Download :=
  if ¬index < d.getNumPieces then d
  else if d.bitfieldMan.isAllBitSet then d
  else { d with bitfieldMan := (d.bitfieldMan.setBit index).unsetUseBit index }

def markPieceMissing (index : Nat) : Download :=
  { d with bitfieldMan := {
      d.bitfieldMan with
      bitfield := d.bitfieldMan.bitfield.set index false
      length_bitfield := List.length_set.trans d.bitfieldMan.length_bitfield } }

/-- The loop that marks every piece missing. -/
def markPiecesMissing : Download := (List.range d.getNumPieces).foldl markPieceMissing d

/-- `UTMetadataDataExtensionMessage::doReceivedAction` of a message with the piece `index`. -/
def doReceivedAction (sha1 : Bytes → Bytes) (infoHash : Bytes) (peer index : Nat) (data : Bytes) :
    Outcome × Download :=
  if index ∈ d.tracked peer then
    let d := d.setTracked peer ((d.tracked peer).erase index)
    match writeData d.buf data (index * METADATA_PIECE_SIZE) with
    | .error what => (.failed what, d)
    | .ok buf =>
      let d := { d with buf }.completePiece index
      if d.bitfieldMan.isAllBitSet then
        let metadata := toString d.buf
        if sha1 metadata = infoHash then (.hashed metadata true, d)
        else (.hashed metadata false, d.markPiecesMissing)
      else (.written, d)
  else (.untracked, d)

end Download

inductive Event where
  | connect
  | disconnect (peer : Nat)
  /-- A peer without an outstanding request is asked for a missing piece. -/
  | request (peer index : Nat)
  /-- Requests time out. -/
  | expire (peer : Nat) (kept : Nat → Bool)
  | data (peer index : Nat) (data : Bytes)

namespace Download

/-- Metadata of `size` bytes is expected. -/
def new (size : Nat) : Download where
  bitfieldMan := BitfieldMan.new METADATA_PIECE_SIZE size

/-- A message that throws ends the connection of its peer. -/
def step (sha1 : Bytes → Bytes) (infoHash : Bytes) (d : Download) : Event → Download
  | .connect => { d with trackers := d.trackers ++ [[]] }
  | .disconnect peer => d.setTracked peer []
  | .request peer index =>
    if index < d.getNumPieces ∧ ¬d.bitfieldMan.isBitSet index ∧ d.tracked peer = [] then
      d.setTracked peer [index]
    else d
  | .expire peer kept => d.setTracked peer ((d.tracked peer).filter kept)
  | .data peer index data =>
    match d.doReceivedAction sha1 infoHash peer index data with
    | (.failed _, d) | (.hashed _ false, d) => d.setTracked peer []
    | (_, d) => d

end Download

/-! ## What the buffer holds -/

theorem writeData_eq {buf f : File} {data : Bytes} {offset : Nat}
    (h : writeData buf data offset = .ok f) :
    offset + data.length ≤ maxLength ∧
      f = File.write (buf ++ List.replicate (offset - buf.length) 0) offset data := by
  unfold writeData at h
  split at h
  · cases h
  next hle => exact ⟨Nat.le_of_not_lt hle, (Except.ok.inj h).symm⟩

/-- The buffer never shrinks. -/
theorem length_writeData {buf f : File} {data : Bytes} {offset : Nat}
    (h : writeData buf data offset = .ok f) :
    f.length = max buf.length (offset + data.length) := by
  obtain ⟨-, rfl⟩ := writeData_eq h
  unfold File.write
  split
  next hnil =>
    subst hnil
    simp only [List.length_append, List.length_replicate, List.length_nil]
    omega
  · simp only [List.length_append, List.length_take, List.length_drop, List.length_replicate]
    omega

/-- A byte of the buffer is the one written last, or the one it was before. -/
theorem getElem?_writeData {buf f : File} {data : Bytes} {offset p : Nat}
    (h : writeData buf data offset = .ok f) (hp : p < buf.length ∨ offset ≤ p) :
    f[p]? = if offset ≤ p ∧ p < offset + data.length then data[p - offset]? else buf[p]? := by
  obtain ⟨-, rfl⟩ := writeData_eq h
  rw [File.getElem?_write]
  split
  · rfl
  next hout =>
    have hpad : p < buf.length ∨ buf.length + (offset - buf.length) ≤ p := by omega
    simp only [List.length_append, List.length_replicate]
    rcases hpad with hlt | hge
    · rw [if_pos (by omega), List.getElem?_append_left hlt]
    · rw [if_neg (by omega), if_neg (by omega), List.getElem?_eq_none (by omega)]

theorem readAll_eq {buf : File} {fuel : Nat} {strm rest : Bytes} (h : buf = strm ++ rest)
    (hfuel : rest.length < fuel) : readAll buf fuel strm = buf := by
  induction fuel generalizing strm rest with
  | zero => cases hfuel
  | succ fuel ih =>
    have hread : buf.read strm.length 2048 = rest.take 2048 := by
      rw [File.read, h, List.drop_left]
    simp only [readAll, hread]
    split
    next hnil =>
      have : rest = [] := List.length_eq_zero_iff.mp (by simpa using hnil)
      rw [h, this, List.append_nil]
    next hne =>
      have hnext : buf = strm ++ rest.take 2048 ++ rest.drop 2048 := by
        rw [List.append_assoc, List.take_append_drop, h]
      rw [List.length_take] at hne
      exact ih hnext (by rw [List.length_drop]; omega)

@[simp] theorem toString_eq (buf : File) : toString buf = buf :=
  readAll_eq (List.nil_append buf).symm (Nat.lt_succ_self _)

/-! ## What an action does -/

namespace Download

variable {d : Download} {index : Nat}

@[simp] theorem buf_completePiece : (d.completePiece index).buf = d.buf := by
  unfold completePiece
  split_ifs <;> rfl

@[simp] theorem blockLength_completePiece :
    (d.completePiece index).bitfieldMan.blockLength = d.bitfieldMan.blockLength := by
  unfold completePiece
  split_ifs <;> rfl

@[simp] theorem totalLength_completePiece :
    (d.completePiece index).bitfieldMan.totalLength = d.bitfieldMan.totalLength := by
  unfold completePiece
  split_ifs <;> rfl

@[simp] theorem getNumPieces_completePiece :
    (d.completePiece index).getNumPieces = d.getNumPieces := by
  unfold completePiece
  split_ifs
  exacts [rfl, BitfieldMan.countBlock_setBit, rfl]

theorem completePiece_congr (c : Download) (h : c.bitfieldMan = d.bitfieldMan) :
    (c.completePiece index).bitfieldMan = (d.completePiece index).bitfieldMan := by
  unfold completePiece getNumPieces
  rw [h]
  split_ifs
  exacts [h, rfl, h]

/-- A bit is set of the pieces there are, also where all are set already. -/
theorem isBitSet_completePiece {i : Nat} :
    (d.completePiece index).bitfieldMan.isBitSet i = true ↔
      d.bitfieldMan.isBitSet i = true ∨ i = index ∧ i < d.getNumPieces := by
  unfold completePiece
  split_ifs with hlt hall
  · constructor
    · exact .inl
    · rintro (h | ⟨rfl, h⟩)
      exacts [h, BitfieldMan.isAllBitSet_iff.mp hall i h]
  · exact BitfieldMan.isBitSet_setBit
  · constructor
    · exact .inl
    · rintro (h | ⟨rfl, h⟩)
      exacts [h, absurd h hlt]

/-- What marking pieces missing leaves unchanged. -/
theorem foldl_markPieceMissing (is : List Nat) :
    (is.foldl markPieceMissing d).buf = d.buf ∧
      (is.foldl markPieceMissing d).bitfieldMan.blockLength = d.bitfieldMan.blockLength ∧
      (is.foldl markPieceMissing d).bitfieldMan.totalLength = d.bitfieldMan.totalLength ∧
      ∀ i, (is.foldl markPieceMissing d).bitfieldMan.isBitSet i = true →
        d.bitfieldMan.isBitSet i = true ∧ i ∉ is := by
  induction is generalizing d with
  | nil => exact ⟨rfl, rfl, rfl, fun i hi => ⟨hi, List.not_mem_nil⟩⟩
  | cons j is ih =>
    obtain ⟨h1, h2, h3, h4⟩ := ih (d := d.markPieceMissing j)
    refine ⟨h1, h2, h3, fun i hi => ?_⟩
    obtain ⟨hset, hmem⟩ := h4 i hi
    rw [BitfieldMan.isBitSet_eq_true] at hset
    change (d.bitfieldMan.bitfield.set j false)[i]? = some true at hset
    rw [List.getElem?_set] at hset
    have hij : ¬j = i := by
      intro hij
      rw [if_pos hij] at hset
      split at hset <;> simp at hset
    rw [if_neg hij] at hset
    exact ⟨BitfieldMan.isBitSet_eq_true.mpr hset, by
      rw [List.mem_cons, not_or]
      exact ⟨fun h => hij h.symm, hmem⟩⟩

theorem not_isBitSet_markPiecesMissing (i : Nat) :
    ¬d.markPiecesMissing.bitfieldMan.isBitSet i = true := by
  intro hi
  obtain ⟨hset, hmem⟩ := (foldl_markPieceMissing _).2.2.2 i hi
  exact hmem (List.mem_range.mpr (BitfieldMan.lt_of_isBitSet hset))

variable {sha1 : Bytes → Bytes} {infoHash data : Bytes} {peer : Nat} {d' : Download} {o : Outcome}

variable (d sha1 infoHash peer index data) in
/-- What a data message does to the buffer and the bits. -/
inductive Action : Outcome → Download → Prop
  | untracked (h : index ∉ d.tracked peer) : Action .untracked d
  | failed {what : String} {d' : Download} (h : index ∈ d.tracked peer)
      (hlong : maxLength < index * METADATA_PIECE_SIZE + data.length) (hbuf : d'.buf = d.buf)
      (hman : d'.bitfieldMan = d.bitfieldMan) : Action (.failed what) d'
  | written {d' : Download} (h : index ∈ d.tracked peer)
      (hbuf : writeData d.buf data (index * METADATA_PIECE_SIZE) = .ok d'.buf)
      (hman : d'.bitfieldMan = (d.completePiece index).bitfieldMan)
      (hall : ¬d'.bitfieldMan.isAllBitSet = true) : Action .written d'
  | accepted {d' : Download} (h : index ∈ d.tracked peer)
      (hbuf : writeData d.buf data (index * METADATA_PIECE_SIZE) = .ok d'.buf)
      (hman : d'.bitfieldMan = (d.completePiece index).bitfieldMan)
      (hall : d'.bitfieldMan.isAllBitSet = true) (hhash : sha1 d'.buf = infoHash) :
      Action (.hashed d'.buf true) d'
  | rejected {d' : Download} (h : index ∈ d.tracked peer)
      (hbuf : writeData d.buf data (index * METADATA_PIECE_SIZE) = .ok d'.buf)
      (hman : d'.bitfieldMan = (d.completePiece index).bitfieldMan)
      (hall : d'.bitfieldMan.isAllBitSet = true) (hhash : sha1 d'.buf ≠ infoHash) :
      Action (.hashed d'.buf false) d'.markPiecesMissing

theorem doReceivedAction_action (d : Download) (sha1 : Bytes → Bytes) (infoHash : Bytes)
    (peer index : Nat) (data : Bytes) :
    Action d index sha1 infoHash data peer
      (d.doReceivedAction sha1 infoHash peer index data).1
      (d.doReceivedAction sha1 infoHash peer index data).2 := by
  unfold doReceivedAction
  split
  next htracks =>
    dsimp only
    split
    next what herr =>
      refine .failed htracks ?_ rfl rfl
      unfold writeData at herr
      split at herr
      · assumption
      · cases herr
    next f hok =>
      have hbuf : (completePiece
          { d.setTracked peer ((d.tracked peer).erase index) with buf := f } index).buf = f :=
        buf_completePiece
      have hman : (completePiece
          { d.setTracked peer ((d.tracked peer).erase index) with buf := f } index).bitfieldMan =
            (d.completePiece index).bitfieldMan :=
        completePiece_congr _ rfl
      rw [toString_eq]
      split
      next hall =>
        split
        next hhash => exact .accepted htracks (by rw [hbuf]; exact hok) hman hall hhash
        next hhash => exact .rejected htracks (by rw [hbuf]; exact hok) hman hall hhash
      next hall => exact .written htracks (by rw [hbuf]; exact hok) hman hall
  next htracks => exact .untracked htracks

/-- A message that throws loses nothing but its peer. -/
theorem step_data (d : Download) (sha1 : Bytes → Bytes) (infoHash : Bytes) (peer index : Nat)
    (data : Bytes) :
    (d.step sha1 infoHash (.data peer index data)).buf =
        (d.doReceivedAction sha1 infoHash peer index data).2.buf ∧
      (d.step sha1 infoHash (.data peer index data)).bitfieldMan =
        (d.doReceivedAction sha1 infoHash peer index data).2.bitfieldMan := by
  unfold step
  dsimp only
  split
  all_goals
    next heq => rw [heq]; exact ⟨rfl, rfl⟩

end Download

end FluxCore.Metadata
