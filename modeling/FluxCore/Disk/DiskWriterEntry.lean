import Mathlib.Algebra.Order.BigOperators.Group.Finset
import FluxCore.Lib.Program

/-!
# Disk writers and their entries

The files of a download lie one after the other in its byte range. A `DiskWriterEntry` pairs a
`FileEntry`, the place of a file in that range, with the `DiskWriter` that has it open. The bytes
themselves, and whether a file is there at all, belong to the adaptor's disk.
-/

namespace FluxCore.Disk

/-- The bytes of a file. -/
abbrev File := List UInt8

namespace File

/-- `pwrite`: the gap between the end of the file and the offset reads as zeros. Writing nothing
changes nothing. -/
def write (f : File) (offset : Nat) (data : List UInt8) : File :=
  if data = [] then f
  else (f ++ List.replicate (offset - f.length) 0).take offset ++ data ++
    f.drop (offset + data.length)

/-- `pread`, short at the end of the file. -/
def read (f : File) (offset length : Nat) : List UInt8 := (f.drop offset).take length

theorem getElem?_write (f : File) (offset : Nat) (data : List UInt8) (p : Nat) :
    (f.write offset data)[p]? =
      if offset ≤ p ∧ p < offset + data.length then data[p - offset]?
      else if p < f.length then f[p]?
      else if p < offset ∧ data ≠ [] then some 0 else none := by
  unfold write
  split
  next hnil =>
    subst hnil
    simp only [List.length_nil, Nat.add_zero, ne_eq, not_true_eq_false, and_false, if_false]
    rw [if_neg (by omega)]
    split
    · rfl
    · exact List.getElem?_eq_none (by omega)
  next hne =>
    have hlen : ((f ++ List.replicate (offset - f.length) 0).take offset).length = offset := by
      rw [List.length_take, List.length_append, List.length_replicate]
      omega
    rw [List.append_assoc, List.getElem?_append, hlen]
    split
    next hlt =>
      rw [if_neg (by omega), List.getElem?_take, if_pos hlt, List.getElem?_append]
      split
      · rfl
      · rw [List.getElem?_replicate, if_pos (by omega), if_pos ⟨hlt, hne⟩]
    next hge =>
      rw [List.getElem?_append]
      split
      next hin => rw [if_pos (by omega)]
      next hout =>
        rw [if_neg (by omega), List.getElem?_drop,
          show offset + data.length + (p - offset - data.length) = p by omega]
        split
        · rfl
        · rw [if_neg (by omega), List.getElem?_eq_none (by omega)]

theorem length_read_le (f : File) (offset length : Nat) :
    (f.read offset length).length ≤ length :=
  List.length_take_le ..

theorem getElem?_read {f : File} {offset length p : Nat} (hp : p < length) :
    (f.read offset length)[p]? = f[offset + p]? := by
  rw [read, List.getElem?_take, if_pos hp, List.getElem?_drop]

theorem read_append_read (f : File) (offset length length' : Nat) :
    f.read offset length ++ f.read (offset + length) length' =
      f.read offset (length + length') := by
  rw [read, read, read, List.take_add, List.drop_drop]

theorem read_eq_nil_iff {f : File} {offset length : Nat} (h : 0 < length) :
    f.read offset length = [] ↔ f.length ≤ offset := by
  rw [read, List.take_eq_nil_iff, List.drop_eq_nil_iff]
  omega

end File

/-- A file of a download: its place in the download's bytes, and whether it is wanted. -/
structure FileEntry where
  path : String
  length : Nat
  offset : Nat
  requested : Bool
deriving DecidableEq, Repr

/-- The end of the file in the download's bytes. -/
def FileEntry.getLastOffset (e : FileEntry) : Nat := e.offset + e.length

/-- How a file is open. -/
inductive Fd where
  | rdonly
  | rdwr
deriving DecidableEq, Repr

/-- An `AbstractDiskWriter`: `fd` is `none` where the source has `A2_BAD_FD`. -/
structure DiskWriter where
  readOnly : Bool
  fd : Option Fd
deriving DecidableEq, Repr

structure DiskWriterEntry where
  fileEntry : FileEntry
  diskWriter : Option DiskWriter
  isOpen : Bool
  needsFileAllocation : Bool
  needsDiskWriter : Bool
deriving DecidableEq, Repr

namespace DiskWriterEntry

/-- `createDiskWriterEntry`. -/
def create (fileEntry : FileEntry) : DiskWriterEntry where
  fileEntry
  diskWriter := none
  isOpen := false
  needsFileAllocation := fileEntry.requested
  needsDiskWriter := false

/-- The entry's file is open, whatever `isOpen` says. -/
def FileOpen (e : DiskWriterEntry) : Prop := ∃ d ∈ e.diskWriter, d.fd ≠ none

instance (e : DiskWriterEntry) : Decidable e.FileOpen :=
  decidable_of_iff (e.diskWriter.any (·.fd.isSome) = true) (by
    simp [FileOpen, Option.any_eq_true, Option.isSome_iff_ne_none])

/-- The entry with its `DiskWriter`'s file closed. -/
def closeWriter (e : DiskWriterEntry) : DiskWriterEntry :=
  { e with diskWriter := e.diskWriter.map ({ · with fd := none }) }

/-- `DiskWriterEntry::closeFile`. -/
def closeFile (e : DiskWriterEntry) : DiskWriterEntry :=
  if e.isOpen then { e.closeWriter with isOpen := false } else e

/-- The entry with its file open and marked so. -/
def opened (e : DiskWriterEntry) (fd : DiskWriter → Fd) : DiskWriterEntry :=
  { e with diskWriter := e.diskWriter.map fun d => { d with fd := some (fd d) }, isOpen := true }

theorem not_fileOpen_closeWriter (e : DiskWriterEntry) : ¬e.closeWriter.FileOpen := by
  rintro ⟨d, hd, hfd⟩
  obtain ⟨d', -, rfl⟩ := Option.mem_map.mp hd
  exact hfd rfl

theorem not_fileOpen_closeFile {e : DiskWriterEntry} (h : e.FileOpen → e.isOpen = true) :
    ¬e.closeFile.FileOpen := by
  unfold closeFile
  split
  next => exact e.not_fileOpen_closeWriter
  next hnot => exact fun hopen => hnot (h hopen)

theorem fileOpen_opened {e : DiskWriterEntry} {fd : DiskWriter → Fd}
    (h : e.diskWriter.isSome = true) : (e.opened fd).FileOpen := by
  obtain ⟨d, hd⟩ := Option.isSome_iff_exists.mp h
  exact ⟨_, Option.mem_map_of_mem _ hd, nofun⟩

@[simp] theorem fileEntry_closeFile (e : DiskWriterEntry) :
    e.closeFile.fileEntry = e.fileEntry := by
  unfold closeFile
  split <;> rfl

@[simp] theorem isSome_diskWriter_closeFile (e : DiskWriterEntry) :
    e.closeFile.diskWriter.isSome = e.diskWriter.isSome := by
  unfold closeFile
  split
  · exact Option.isSome_map
  · rfl

theorem isOpen_closeFile (e : DiskWriterEntry) : e.closeFile.isOpen = false := by
  unfold closeFile
  split
  · rfl
  next h => exact Bool.eq_false_iff.mpr h

theorem mem_diskWriter_closeFile {e : DiskWriterEntry} {d : DiskWriter}
    (h : d ∈ e.closeFile.diskWriter) : ∃ d' ∈ e.diskWriter, d.readOnly = d'.readOnly := by
  unfold closeFile at h
  split at h
  · obtain ⟨d', hd', rfl⟩ := Option.mem_map.mp h
    exact ⟨d', hd', rfl⟩
  · exact ⟨d, h, rfl⟩

end DiskWriterEntry

end FluxCore.Disk
