import FluxCore.Disk.OpenedFileCounter

/-!
# The adaptor of a download of several files

`MultiDiskAdaptor` reads and writes the bytes of a download by their offset in the whole and splits
each access at the ends of the files. It opens a file when an access first reaches it. A file that
is not wanted gets a `DiskWriter` only where a piece of a wanted file reaches into it, or where it
is there already.
-/

namespace FluxCore.Disk

variable {n : Nat}

section Reset

/-- The start of the piece behind the one that has the byte before `lastOffset`. -/
def pieceEnd (pieceLength lastOffset : Nat) : Nat :=
  (lastOffset - 1) / pieceLength * pieceLength + pieceLength

/-- "Check shared piece forward". -/
def checkForward (pieceLength : Nat) : Nat → List DiskWriterEntry → List DiskWriterEntry
  | _, [] => []
  | lastOffset, e :: es =>
    if e.fileEntry.requested then
      -- zero length file does not affect lastOffset
      let lastOffset :=
        if 0 < e.fileEntry.length then pieceEnd pieceLength e.fileEntry.getLastOffset
        else lastOffset
      e :: checkForward pieceLength lastOffset es
    else if e.fileEntry.offset < lastOffset then
      { e with needsDiskWriter := true } :: checkForward pieceLength lastOffset es
    else e :: checkForward pieceLength lastOffset es

/-- "Check shared piece backward", over the entries from the last to the first. -/
def checkBackward (pieceLength : Nat) : Nat → List DiskWriterEntry → List DiskWriterEntry
  | _, [] => []
  | lastOffset, e :: es =>
    if e.fileEntry.requested then
      e :: checkBackward pieceLength (e.fileEntry.offset / pieceLength * pieceLength) es
    else if lastOffset ≤ e.fileEntry.offset ∨ lastOffset < e.fileEntry.getLastOffset then
      { e with needsFileAllocation := true } :: checkBackward pieceLength lastOffset es
    else e :: checkBackward pieceLength lastOffset es

/-- `std::numeric_limits<int64_t>::max()`. -/
def INT64_MAX : Nat := 2 ^ 63 - 1

/-- The entries before they get their `DiskWriter`s. -/
def markEntries (pieceLength : Nat) (fileEntries : List FileEntry) : List DiskWriterEntry :=
  let entries := fileEntries.map .create
  if 0 < pieceLength then
    (checkBackward pieceLength INT64_MAX (checkForward pieceLength 0 entries).reverse).reverse
  else entries

namespace Adaptor

/-- The `DiskWriter` of the entry at position `i`, if it gets one. -/
def equip (ad : Adaptor) (i : Nat) (e : DiskWriterEntry) : DiskWriterEntry :=
  if e.needsFileAllocation ∨ e.needsDiskWriter ∨ (ad.disk i).isSome then
    { e with diskWriter := some ⟨ad.readOnly, none⟩ }
  else e

/-- The entries that `resetDiskWriterEntries` makes. -/
def freshEntries (ad : Adaptor) : List DiskWriterEntry :=
  (markEntries ad.pieceLength ad.fileEntries).mapIdx ad.equip

def reset (ad : Adaptor) : Adaptor := { ad with diskWriterEntries := ad.freshEntries }

end Adaptor

/-- `MultiDiskAdaptor::resetDiskWriterEntries`. -/
def resetDiskWriterEntries (a : Fin n) : DiskM n PUnit := do
  let ad ← adaptor a
  Program.assert (ad.openedDiskWriterEntries = [])
  modifyAdaptor a (·.reset)

end Reset

section Open

/-- `DefaultDiskWriter::initAndOpenFile`: the file is created, or emptied where there is one. -/
def initAndOpenWriter (a : Fin n) (i : Nat) : DiskM n PUnit := do
  let w ← get
  if w.outside.opens a i then
    modifyAdaptor a fun ad =>
      { ad.modifyEntry i (·.opened fun _ => .rdwr) with
        disk := Function.update ad.disk i (some []) }
  else throw (.fileOpen ((w.adaptors a).entry i).fileEntry.path)

/-- `AbstractDiskWriter::openExistingFile` where there is a file. -/
def openExistingWriter (a : Fin n) (i : Nat) : DiskM n PUnit := do
  let w ← get
  if w.outside.opens a i then
    modifyAdaptor a fun ad =>
      ad.modifyEntry i (·.opened fun d => if d.readOnly then .rdonly else .rdwr)
  else throw (.fileOpen ((w.adaptors a).entry i).fileEntry.path)

/-- `AbstractDiskWriter::openFile`: `ENOENT` makes it create the file. -/
def openWriter (a : Fin n) (i : Nat) : DiskM n PUnit := do
  let ad ← adaptor a
  if (ad.disk i).isSome then openExistingWriter a i else initAndOpenWriter a i

/-- The member of `DiskWriterEntry` that `openIfNot` is given: `initAndOpenFile` or `openFile`. -/
inductive Opening where
  | initAndOpenFile
  | openFile
deriving DecidableEq, Repr

/-- `(entry->*open)()`: without a `DiskWriter` nothing happens. -/
def openEntry (a : Fin n) (i : Nat) (how : Opening) : DiskM n PUnit := do
  let ad ← adaptor a
  if (ad.entry i).diskWriter.isSome then
    match how with
    | .initAndOpenFile => initAndOpenWriter a i
    | .openFile => openWriter a i
  else pure ⟨⟩

/-- `MultiDiskAdaptor::openIfNot`. -/
def openIfNot (a : Fin n) (i : Nat) (how : Opening) : DiskM n PUnit := do
  let ad ← adaptor a
  if (ad.entry i).isOpen then pure ⟨⟩
  else do
    ensureMaxOpenFileLimit 1
    openEntry a i how
    modifyAdaptor a fun ad =>
      { ad with openedDiskWriterEntries := ad.openedDiskWriterEntries ++ [i] }

def openAll (a : Fin n) (how : Opening) : List Nat → DiskM n PUnit
  | [] => pure ⟨⟩
  | i :: is => do
    openIfNot a i how
    openAll a how is

/-- `MultiDiskAdaptor::openFile` and `MultiDiskAdaptor::initAndOpenFile`. -/
def openFiles (a : Fin n) (how : Opening) : DiskM n PUnit := do
  resetDiskWriterEntries a
  let ad ← adaptor a
  openAll a how (List.range ad.diskWriterEntries.length)

/-- `MultiDiskAdaptor::openExistingFile`. -/
def openExistingFile (a : Fin n) : DiskM n PUnit := resetDiskWriterEntries a

/-- The adaptor with the files of its opened entries closed: `DiskWriter::closeFile` is called
directly, so the entries stay marked as open. -/
def Adaptor.closeOpened (ad : Adaptor) : Adaptor :=
  { ad with diskWriterEntries := ad.diskWriterEntries.mapIdx fun i e =>
      if i ∈ ad.openedDiskWriterEntries then e.closeWriter else e }

def Adaptor.clearOpened (ad : Adaptor) : Adaptor := { ad with openedDiskWriterEntries := [] }

/-- `MultiDiskAdaptor::closeFile`. -/
def closeFile (a : Fin n) : DiskM n PUnit := do
  let ad ← adaptor a
  modifyAdaptor a (·.closeOpened)
  reduceNumOfOpenedFile ad.openedDiskWriterEntries.length
  modifyAdaptor a (·.clearOpened)

end Open

section Access

def isInRange (e : DiskWriterEntry) (offset : Nat) : Bool :=
  e.fileEntry.offset ≤ offset && offset < e.fileEntry.getLastOffset

def calculateLength (e : DiskWriterEntry) (fileOffset rem : Nat) : Nat :=
  if e.fileEntry.length < fileOffset + rem then e.fileEntry.length - fileOffset else rem

/-- The position that `findFirstDiskWriterEntry` finds: the one before `std::upper_bound`. -/
def firstPosition (entries : List DiskWriterEntry) (offset : Nat) : Nat :=
  (entries.takeWhile (·.fileEntry.offset ≤ offset)).length - 1

def findFirstDiskWriterEntry (a : Fin n) (offset : Nat) : DiskM n Nat := do
  let ad ← adaptor a
  let first := firstPosition ad.diskWriterEntries offset
  if isInRange (ad.entry first) offset then pure first
  else throw (.fileOffsetOutOfRange offset)

open Program in
theorem WF.findFirst_bind {w : World n} {a : Fin n} {offset : Nat} {α : Type} {f : Nat → DiskM n α}
    {Q : Except Thrown α → World n → Prop}
    (hin : isInRange ((w.adaptors a).entry (firstPosition (w.adaptors a).diskWriterEntries offset))
      offset = true → WF w (f (firstPosition (w.adaptors a).diskWriterEntries offset)) Q)
    (hout : isInRange ((w.adaptors a).entry
        (firstPosition (w.adaptors a).diskWriterEntries offset)) offset = false →
      Q (.error (.fileOffsetOutOfRange offset)) w) :
    WF w (findFirstDiskWriterEntry a offset >>= f) Q := by
  unfold findFirstDiskWriterEntry
  rw [bind_assoc]
  refine WF.adaptor_bind ?_
  dsimp only
  split
  next h => exact hin h
  next h => exact .throw_bind (hout (Bool.eq_false_iff.mpr h))

/-- `openIfNot` with the check that follows it in `writeData` and `readData`. -/
def openOrThrow (a : Fin n) (i offset : Nat) : DiskM n PUnit := do
  openIfNot a i .openFile
  let ad ← adaptor a
  if (ad.entry i).isOpen then pure ⟨⟩
  else throw (.notOpened offset (ad.entry i).fileEntry.path)

/-- The adaptor with the bytes of a file changed. -/
def Adaptor.setFile (ad : Adaptor) (i : Nat) (f : File) : Adaptor :=
  { ad with disk := Function.update ad.disk i (some f) }

/-- `DiskWriter::writeData`: nothing is asked of the system where there is nothing to write. -/
def writeWriter (a : Fin n) (i : Nat) (data : List UInt8) (fileOffset : Nat) : DiskM n PUnit := do
  let ad ← adaptor a
  if data = [] then pure ⟨⟩
  else if (ad.entry i).diskWriter.bind (·.fd) = some .rdwr then
    modifyAdaptor a fun ad => ad.setFile i (((ad.disk i).getD []).write fileOffset data)
  else throw (.fileWrite (ad.entry i).fileEntry.path)

/-- The loop of `writeData` over `count` entries from position `i` on; `data` is what is left to
write, to the bytes of the download from `offset` on. -/
def writeFrom (a : Fin n) : Nat → Nat → Nat → List UInt8 → Nat → DiskM n PUnit
  | 0, _, _, _, _ => pure ⟨⟩
  | count + 1, i, offset, data, fileOffset => do
    let ad ← adaptor a
    let writeLength := calculateLength (ad.entry i) fileOffset data.length
    openOrThrow a i offset
    writeWriter a i (data.take writeLength) fileOffset
    if data.drop writeLength = [] then pure ⟨⟩
    else writeFrom a count (i + 1) (offset + writeLength) (data.drop writeLength) 0

/-- `MultiDiskAdaptor::writeData`. -/
def writeData (a : Fin n) (data : List UInt8) (offset : Nat) : DiskM n PUnit := do
  let first ← findFirstDiskWriterEntry a offset
  let ad ← adaptor a
  writeFrom a (ad.diskWriterEntries.length - first) first offset data
    (offset - (ad.entry first).fileEntry.offset)

/-- `DiskWriter::readData`: at least one byte unless the file ends there. -/
def readWriter (a : Fin n) (i length fileOffset : Nat) : DiskM n (List UInt8) := do
  let ad ← adaptor a
  if ((ad.entry i).diskWriter.bind (·.fd)).isNone then
    throw (.fileRead (ad.entry i).fileEntry.path)
  else do
    let bytes := ((ad.disk i).getD []).read fileOffset length
    if bytes = [] then pure []
    else do
      let short ← getRandomNumber bytes.length
      pure (bytes.take (short + 1))

/-- The inner loop of `readData`, with the bytes read and whether the end of the file stopped it. At
most `fuel` reads are made; `readLength` is enough. -/
def readFully (a : Fin n) (i : Nat) : Nat → Nat → Nat → DiskM n (List UInt8 × Bool)
  | 0, _, _ => pure ([], false)
  | fuel + 1, readLength, fileOffset =>
    if readLength = 0 then pure ([], false)
    else do
      let bytes ← readWriter a i readLength fileOffset
      if bytes = [] then pure ([], true)
      else do
        let rest ← readFully a i fuel (readLength - bytes.length) (fileOffset + bytes.length)
        pure (bytes ++ rest.1, rest.2)

/-- The loop of `readData`. -/
def readFrom (a : Fin n) : Nat → Nat → Nat → Nat → Nat → DiskM n (List UInt8)
  | 0, _, _, _, _ => pure []
  | count + 1, i, offset, rem, fileOffset => do
    let ad ← adaptor a
    let readLength := calculateLength (ad.entry i) fileOffset rem
    openOrThrow a i offset
    let bytes ← readFully a i readLength readLength fileOffset
    if bytes.2 || rem - readLength == 0 then pure bytes.1
    else do
      let rest ← readFrom a count (i + 1) (offset + readLength) (rem - readLength) 0
      pure (bytes.1 ++ rest)

/-- `MultiDiskAdaptor::readData`: the bytes it puts into the buffer. -/
def readData (a : Fin n) (length offset : Nat) : DiskM n (List UInt8) := do
  let first ← findFirstDiskWriterEntry a offset
  let ad ← adaptor a
  readFrom a (ad.diskWriterEntries.length - first) first offset length
    (offset - (ad.entry first).fileEntry.offset)

end Access

section Cache

/-- A cell of the write cache: the bytes from `data + offset` on go to `goff`. -/
structure DataCell where
  goff : Nat
  data : List UInt8
  offset : Nat
  len : Nat
  /-- "data must be len+offset bytes" -/
  le : offset + len ≤ data.length

def DataCell.bytes (c : DataCell) : List UInt8 := (c.data.drop c.offset).take c.len

/-- `DataCellSet`: the set is ordered by `goff`. -/
structure DataCellSet where
  cells : List DataCell
  sorted : cells.Pairwise (·.goff < ·.goff)

/-- The cells that extend a run ending at `stop`, and the others. -/
def contiguous (stop : Nat) : List DataCell → List DataCell × List DataCell
  | [] => ([], [])
  | c :: cs =>
    if c.goff = stop then
      (c :: (contiguous (stop + c.len) cs).1, (contiguous (stop + c.len) cs).2)
    else ([], c :: cs)

theorem length_contiguous_le (stop : Nat) (cs : List DataCell) :
    (contiguous stop cs).2.length ≤ cs.length := by
  induction cs generalizing stop with
  | nil => exact le_rfl
  | cons c cs ih =>
    unfold contiguous
    split
    · exact Nat.le_succ_of_le (ih _)
    · exact le_rfl

/-- The runs that `writeCache` writes: each is the first cell with those that continue it. -/
def runs : List DataCell → List (Nat × List UInt8)
  | [] => []
  | c :: cs =>
    (c.goff, c.bytes ++ (contiguous (c.goff + c.len) cs).1.flatMap DataCell.bytes) ::
      runs (contiguous (c.goff + c.len) cs).2
termination_by cs => cs.length
decreasing_by exact Nat.lt_succ_of_le (length_contiguous_le ..)

def writeRuns (a : Fin n) : List (Nat × List UInt8) → DiskM n PUnit
  | [] => pure ⟨⟩
  | r :: rs => do
    writeData a r.2 r.1
    writeRuns a rs

/-- `MultiDiskAdaptor::writeCache`. -/
def writeCache (a : Fin n) (set : DataCellSet) : DiskM n PUnit := writeRuns a (runs set.cells)

end Cache

section Calls

/-- The calls of the adaptors. -/
inductive Call (n : Nat) where
  | readData (a : Fin n) (length offset : Nat)
  | writeData (a : Fin n) (data : List UInt8) (offset : Nat)
  | writeCache (a : Fin n) (set : DataCellSet)
  | openFile (a : Fin n)
  | initAndOpenFile (a : Fin n)
  | openExistingFile (a : Fin n)
  | closeFile (a : Fin n)
  | tryCloseFile (a : Fin n) (numClose : Nat)

/-- A call, with the bytes that it reads. -/
def Call.run : Call n → DiskM n (List UInt8)
  | .readData a length offset => Disk.readData a length offset
  | .writeData a data offset => do
    Disk.writeData a data offset
    pure []
  | .writeCache a set => do
    Disk.writeCache a set
    pure []
  | .openFile a => do
    openFiles a .openFile
    pure []
  | .initAndOpenFile a => do
    openFiles a .initAndOpenFile
    pure []
  | .openExistingFile a => do
    Disk.openExistingFile a
    pure []
  | .closeFile a => do
    Disk.closeFile a
    pure []
  | .tryCloseFile a numClose => do
    let _ ← Disk.tryCloseFile a numClose
    pure []

/-- A call from `w`, with what comes from outside while it runs. -/
def Call.outcome (w : World n) (e : Outside n × Call n) :
    Option (Except Thrown (List UInt8) × World n) :=
  e.2.run.exec { w with outside := e.1 }

/-- A call ends in a new state, whether it returns or throws; a failed assertion ends the run. -/
def step (s : Option (World n)) (e : Outside n × Call n) : Option (World n) := do
  let w ← s
  let r ← Call.outcome w e
  pure r.2

end Calls

end FluxCore.Disk
