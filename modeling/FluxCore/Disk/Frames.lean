import Mathlib.Data.List.GetD
import FluxCore.Disk.MultiDiskAdaptor

/-!
# What accesses leave unchanged

Whatever an access opens or closes, the files keep their places and their `DiskWriter`s. Closing
files at random changes no byte, and opening a file for reading or writing only creates it.
-/

namespace FluxCore.Disk

open Program

variable {n : Nat}

namespace Adaptor

variable {ad : Adaptor} {i index : Nat} {how : Opening}

theorem entry_modifyEntry (ad : Adaptor) (i : Nat) (f : DiskWriterEntry → DiskWriterEntry)
    (j : Nat) : (ad.modifyEntry i f).entry j =
      if i = j ∧ j < ad.diskWriterEntries.length then f (ad.entry j) else ad.entry j := by
  simp only [entry, modifyEntry, List.getD_eq_getElem?_getD, List.getElem?_modify]
  by_cases hj : j < ad.diskWriterEntries.length
  · rw [List.getElem?_eq_getElem hj]
    by_cases hi : i = j <;> simp [hi, hj]
  · rw [List.getElem?_eq_none (Nat.le_of_not_lt hj)]
    simp [hj]

theorem entry_eq_create (hi : ad.diskWriterEntries.length ≤ i) :
    ad.entry i = .create ⟨"", 0, 0, false⟩ := by
  rw [entry, List.getD_eq_getElem?_getD, List.getElem?_eq_none hi]
  rfl

/-- A `DiskWriter` is that of an entry of the list. -/
theorem lt_of_isSome {i : Nat} (h : (ad.entry i).diskWriter.isSome = true) :
    i < ad.diskWriterEntries.length := by
  by_contra hge
  rw [entry_eq_create (Nat.le_of_not_lt hge)] at h
  exact nomatch h

/-- What accesses do not change: the files and their places, and which of them have a
`DiskWriter`. -/
structure Steady (ad ad' : Adaptor) : Prop where
  fileEntries : ad'.fileEntries = ad.fileEntries
  pieceLength : ad'.pieceLength = ad.pieceLength
  readOnly : ad'.readOnly = ad.readOnly
  length : ad'.diskWriterEntries.length = ad.diskWriterEntries.length
  fileEntry : ∀ i, (ad'.entry i).fileEntry = (ad.entry i).fileEntry
  isSome : ∀ i, (ad'.entry i).diskWriter.isSome = (ad.entry i).diskWriter.isSome

theorem Steady.refl (ad : Adaptor) : Steady ad ad :=
  ⟨rfl, rfl, rfl, rfl, fun _ => rfl, fun _ => rfl⟩

theorem Steady.trans {ad' ad'' : Adaptor} (h : Steady ad ad') (h' : Steady ad' ad'') :
    Steady ad ad'' :=
  ⟨h'.fileEntries.trans h.fileEntries, h'.pieceLength.trans h.pieceLength,
    h'.readOnly.trans h.readOnly, h'.length.trans h.length,
    fun i => (h'.fileEntry i).trans (h.fileEntry i), fun i => (h'.isSome i).trans (h.isSome i)⟩

theorem Steady.modifyEntry (ad : Adaptor) (i : Nat) {f : DiskWriterEntry → DiskWriterEntry}
    (hfile : ∀ e, (f e).fileEntry = e.fileEntry)
    (hsome : ∀ e, (f e).diskWriter.isSome = e.diskWriter.isSome) :
    Steady ad (ad.modifyEntry i f) := by
  refine ⟨rfl, rfl, rfl, List.length_modify .., fun j => ?_, fun j => ?_⟩ <;>
    rw [entry_modifyEntry] <;> split
  · exact hfile _
  · rfl
  · exact hsome _
  · rfl

theorem Steady.closeAt (ad : Adaptor) (index : Nat) : Steady ad (ad.closeAt index) :=
  have h := Steady.modifyEntry ad (ad.openedDiskWriterEntries.getD index 0)
    DiskWriterEntry.fileEntry_closeFile DiskWriterEntry.isSome_diskWriter_closeFile
  ⟨h.fileEntries, h.pieceLength, h.readOnly, h.length, h.fileEntry, h.isSome⟩

theorem isOpen_of_closeAt {i : Nat} (h : ((ad.closeAt index).entry i).isOpen = true) :
    (ad.entry i).isOpen = true := by
  change ((ad.modifyEntry _ .closeFile).entry i).isOpen = true at h
  rw [entry_modifyEntry] at h
  split at h
  · unfold DiskWriterEntry.closeFile at h
    split at h
    · exact nomatch h
    · exact h
  · exact h

/-- Opening the file of an entry creates or empties it. -/
def Truncates (ad : Adaptor) (i : Nat) (how : Opening) : Prop :=
  how = .initAndOpenFile ∨ ad.disk i = none

instance : Decidable (ad.Truncates i how) := inferInstanceAs (Decidable (_ ∨ _))

/-- The adaptor with the file of an entry opened. -/
def openedAt (ad : Adaptor) (i : Nat) (how : Opening) : Adaptor :=
  { ad.modifyEntry i (·.opened fun d =>
      if ad.Truncates i how then .rdwr else if d.readOnly then .rdonly else .rdwr) with
    disk := if ad.Truncates i how then Function.update ad.disk i (some []) else ad.disk }

/-- The adaptor with an entry put at the end of the list. -/
def list (ad : Adaptor) (i : Nat) : Adaptor :=
  { ad with openedDiskWriterEntries := ad.openedDiskWriterEntries ++ [i] }

theorem Steady.openedAt (ad : Adaptor) (i : Nat) (how : Opening) : Steady ad (ad.openedAt i how) :=
  have h := Steady.modifyEntry ad i (f := (·.opened fun d =>
      if ad.Truncates i how then .rdwr else if d.readOnly then .rdonly else .rdwr))
    (fun _ => rfl) (fun _ => Option.isSome_map)
  ⟨h.fileEntries, h.pieceLength, h.readOnly, h.length, h.fileEntry, h.isSome⟩

theorem Steady.list (ad : Adaptor) (i : Nat) : Steady ad (ad.list i) :=
  ⟨rfl, rfl, rfl, rfl, fun _ => rfl, fun _ => rfl⟩

theorem entry_openedAt (ad : Adaptor) (i : Nat) (how : Opening) (j : Nat) (hj : i ≠ j) :
    (ad.openedAt i how).entry j = ad.entry j := by
  refine (ad.entry_modifyEntry i _ j).trans ?_
  rw [if_neg fun h => hj h.1]

theorem entry_openedAt_self (how : Opening) (hi : i < ad.diskWriterEntries.length) :
    (ad.openedAt i how).entry i = (ad.entry i).opened fun d =>
      if ad.Truncates i how then .rdwr else if d.readOnly then .rdonly else .rdwr := by
  refine (ad.entry_modifyEntry i _ i).trans ?_
  rw [if_pos ⟨rfl, hi⟩]

/-- A file that `openFile` creates is empty, as a missing one reads. -/
theorem bytes_openedAt (hhow : how = .openFile) (j : Nat) :
    ((ad.openedAt i how).disk j).getD [] = (ad.disk j).getD [] := by
  change ((if ad.Truncates i how then Function.update ad.disk i (some []) else ad.disk) j).getD [] =
    _
  split
  next ht =>
    by_cases hj : j = i
    · subst hj
      rw [Function.update_self, ht.resolve_left (by rw [hhow]; nofun)]
      rfl
    · rw [Function.update_of_ne hj]
  next => rfl

end Adaptor

namespace World

variable {w w' : World n}

/-- Accesses change neither the files nor what is still to be drawn of the outcomes of opening. -/
structure Steady (w w' : World n) : Prop where
  adaptors : ∀ a, (w.adaptors a).Steady (w'.adaptors a)
  opens : w'.outside.opens = w.outside.opens

theorem Steady.refl (w : World n) : Steady w w := ⟨fun _ => .refl _, rfl⟩

theorem Steady.trans {w'' : World n} (h : Steady w w') (h' : Steady w' w'') : Steady w w'' :=
  ⟨fun a => (h.adaptors a).trans (h'.adaptors a), h'.opens.trans h.opens⟩

theorem Steady.setAdaptor {a : Fin n} {ad : Adaptor} (h : (w.adaptors a).Steady ad) :
    Steady w (w.setAdaptor a ad) := by
  refine ⟨fun b => ?_, rfl⟩
  by_cases hb : b = a
  · subst hb
    rwa [adaptors_setAdaptor_self]
  · rw [w.adaptors_setAdaptor_of_ne ad hb]
    exact .refl _

/-- The files have the same bytes, though some may have been created. -/
def SameBytes (w w' : World n) : Prop :=
  ∀ a i, ((w'.adaptors a).disk i).getD [] = ((w.adaptors a).disk i).getD []

theorem SameBytes.refl (w : World n) : w.SameBytes w := fun _ _ => rfl

theorem SameBytes.trans {w'' : World n} (h : w.SameBytes w') (h' : w'.SameBytes w'') :
    w.SameBytes w'' := fun a i => (h' a i).trans (h a i)

theorem SameBytes.setAdaptor {a : Fin n} {ad : Adaptor}
    (h : ∀ i, (ad.disk i).getD [] = ((w.adaptors a).disk i).getD []) :
    w.SameBytes (w.setAdaptor a ad) := fun b i => by
  by_cases hb : b = a
  · subst hb
    rw [adaptors_setAdaptor_self, h]
  · rw [w.adaptors_setAdaptor_of_ne ad hb]

/-- Files have been closed, and nothing else. -/
structure Closes (w w' : World n) : Prop where
  steady : w.Steady w'
  bytes : w.SameBytes w'
  isOpen : ∀ a i, ((w'.adaptors a).entry i).isOpen = true → ((w.adaptors a).entry i).isOpen = true

theorem Closes.refl (w : World n) : w.Closes w := ⟨.refl w, .refl w, fun _ _ => id⟩

theorem Closes.closeAt {w₀ : World n} (h : w₀.Closes w) (a : Fin n) (index : Nat) :
    w₀.Closes (w.setAdaptor a ((w.adaptors a).closeAt index)) := by
  refine ⟨h.steady.trans (.setAdaptor (.closeAt _ index)), h.bytes.trans (.setAdaptor fun _ => rfl),
    fun b i hi => h.isOpen b i ?_⟩
  by_cases hb : b = a
  · subst hb
    rw [adaptors_setAdaptor_self] at hi
    refine Adaptor.isOpen_of_closeAt hi
  · rwa [w.adaptors_setAdaptor_of_ne _ hb] at hi

end World

section Opening

variable {w : World n} {a : Fin n} {i : Nat} {how : Opening}

/-- What opening an entry does: nothing without a `DiskWriter`. -/
theorem exec_openEntry : (openEntry a i how).exec w =
    if ((w.adaptors a).entry i).diskWriter.isSome then
      if w.outside.opens a i then
        some (.ok ⟨⟩, w.setAdaptor a ((w.adaptors a).openedAt i how))
      else some (.error (.fileOpen ((w.adaptors a).entry i).fileEntry.path), w)
    else some (.ok ⟨⟩, w) := by
  have hinit : (w.adaptors a).Truncates i how → (initAndOpenWriter a i).exec w =
      if w.outside.opens a i then
        some (.ok ⟨⟩, w.setAdaptor a ((w.adaptors a).openedAt i how))
      else some (.error (.fileOpen ((w.adaptors a).entry i).fileEntry.path), w) := fun ht => by
    change Program.exec (if w.outside.opens a i then _ else _) w = _
    unfold Adaptor.openedAt
    simp only [if_pos ht]
    split <;> rfl
  change Program.exec (if ((w.adaptors a).entry i).diskWriter.isSome then _ else _) w = _
  split
  next =>
    cases how with
    | initAndOpenFile => exact hinit (.inl rfl)
    | openFile =>
      change Program.exec (if ((w.adaptors a).disk i).isSome then _ else _) w = _
      split
      next hsome =>
        have hno : ¬(w.adaptors a).Truncates i .openFile := by
          rintro (h | h)
          · exact nomatch h
          · rw [h] at hsome
            exact nomatch hsome
        change Program.exec (if w.outside.opens a i then _ else _) w = _
        unfold Adaptor.openedAt
        simp only [if_neg hno]
        split <;> rfl
      next hnone => exact hinit (.inr (Option.not_isSome_iff_eq_none.mp hnone))
  next => rfl

end Opening

section Parts

namespace Adaptor

variable {ad ad' : Adaptor}

/-- The part of an access that falls into one file. -/
structure Part where
  entry : Nat
  fileOffset : Nat
  length : Nat
deriving DecidableEq, Repr

/-- The parts of an access to `rem` bytes, over `count` entries from position `i` on. -/
def span (ad : Adaptor) : Nat → Nat → Nat → Nat → List Part
  | 0, _, _, _ => []
  | count + 1, i, rem, fileOffset =>
    let length := calculateLength (ad.entry i) fileOffset rem
    ⟨i, fileOffset, length⟩ ::
      if rem - length = 0 then [] else span ad count (i + 1) (rem - length) 0

/-- The parts of an access to the bytes of the download from `offset` on. -/
def parts (ad : Adaptor) (offset length : Nat) : List Part :=
  let first := firstPosition ad.diskWriterEntries offset
  if isInRange (ad.entry first) offset then
    ad.span (ad.diskWriterEntries.length - first) first length
      (offset - (ad.entry first).fileEntry.offset)
  else []

/-- The entries that reading the parts reaches: it ends at the first file that is too short. -/
def reached (ad : Adaptor) : List Part → List Nat
  | [] => []
  | p :: ps =>
    p.entry ::
      if ((ad.disk p.entry).getD []).length < p.fileOffset + p.length ∧ 0 < p.length then []
      else reached ad ps

theorem reached_congr (h : ∀ i, (ad'.disk i).getD [] = (ad.disk i).getD []) (ps : List Part) :
    ad'.reached ps = ad.reached ps := by
  induction ps with
  | nil => rfl
  | cons p ps ih => rw [reached, reached, h, ih]

theorem Steady.span (h : Steady ad ad') (count i rem fileOffset : Nat) :
    ad'.span count i rem fileOffset = ad.span count i rem fileOffset := by
  induction count generalizing i rem fileOffset with
  | zero => rfl
  | succ count ih =>
    have hlen : calculateLength (ad'.entry i) fileOffset rem =
        calculateLength (ad.entry i) fileOffset rem := by
      rw [calculateLength, calculateLength, h.fileEntry]
    rw [Adaptor.span, Adaptor.span, hlen, ih]

theorem firstPosition_eq (ad : Adaptor) (offset : Nat) :
    firstPosition ad.diskWriterEntries offset =
      ((List.range ad.diskWriterEntries.length).takeWhile
        fun i => decide ((ad.entry i).fileEntry.offset ≤ offset)).length - 1 := by
  have hmap : ad.diskWriterEntries = (List.range ad.diskWriterEntries.length).map ad.entry := by
    refine List.ext_getElem (by simp) fun i hi _ => ?_
    rw [List.getElem_map, List.getElem_range, entry, List.getD_eq_getElem _ _ hi]
  unfold firstPosition
  conv_lhs => rw [hmap]
  rw [List.takeWhile_map, List.length_map]
  rfl

theorem Steady.firstPosition (h : Steady ad ad') (offset : Nat) :
    firstPosition ad'.diskWriterEntries offset = firstPosition ad.diskWriterEntries offset := by
  rw [firstPosition_eq, firstPosition_eq, h.length]
  simp only [h.fileEntry]

theorem Steady.isInRange (h : Steady ad ad') (i offset : Nat) :
    isInRange (ad'.entry i) offset = isInRange (ad.entry i) offset := by
  rw [Disk.isInRange, Disk.isInRange, h.fileEntry]

theorem Steady.parts (h : Steady ad ad') (offset length : Nat) :
    ad'.parts offset length = ad.parts offset length := by
  unfold Adaptor.parts
  dsimp only
  rw [h.firstPosition, h.isInRange, h.length, h.fileEntry, h.span]

end Adaptor

end Parts

section Reading

variable {w w' : World n} {a : Fin n} {i : Nat}

/-- Only random draws have been made. -/
def World.Draws (w w' : World n) : Prop :=
  w'.counter = w.counter ∧ w'.adaptors = w.adaptors ∧ w'.outside.opens = w.outside.opens

theorem World.Draws.refl (w : World n) : w.Draws w := ⟨rfl, rfl, rfl⟩

theorem World.Draws.trans {w'' : World n} (h : w.Draws w') (h' : w'.Draws w'') : w.Draws w'' :=
  ⟨h'.1.trans h.1, h'.2.1.trans h.2.1, h'.2.2.trans h.2.2⟩

theorem World.Draws.steady (h : w.Draws w') : w.Steady w' :=
  ⟨fun a => by rw [h.2.1]; exact .refl _, h.2.2⟩

theorem World.Draws.sameBytes (h : w.Draws w') : w.SameBytes w' := fun a i => by rw [h.2.1]

/-- The bytes of the file of an entry, none where there is no file. -/
def World.file (w : World n) (a : Fin n) (i : Nat) : File := ((w.adaptors a).disk i).getD []

theorem World.SameBytes.file (h : w.SameBytes w') (a : Fin n) (i : Nat) :
    w'.file a i = w.file a i := h a i

/-- A read of an open file gives a beginning of what is asked for, nothing only at the end. -/
theorem WF_readWriter (w : World n) (a : Fin n) (i length fileOffset : Nat) :
    WF w (readWriter a i length fileOffset) fun r w' => w.Draws w' ∧
      ((r = .error (.fileRead ((w.adaptors a).entry i).fileEntry.path) ∧
          ((w.adaptors a).entry i).diskWriter.bind (·.fd) = none) ∨
        ∃ k, r = .ok ((w.file a i).read fileOffset k) ∧ k ≤ length ∧
          (0 < length → (w.file a i).read fileOffset k = [] →
            (w.file a i).length ≤ fileOffset)) := by
  refine WF.adaptor_bind ?_
  split
  next hnone => exact .throw ⟨.refl w, .inl ⟨rfl, Option.isNone_iff_eq_none.mp hnone⟩⟩
  next =>
    dsimp only
    split
    next hnil =>
      refine .pure ⟨.refl w, .inr ⟨length, congrArg _ hnil.symm, le_rfl, fun hpos _ => ?_⟩⟩
      exact (File.read_eq_nil_iff hpos).mp hnil
    next hne =>
      refine WF.getRandomNumber_bind fun short hshort => ?_
      have hle := (w.file a i).length_read_le fileOffset length
      have hlt : short + 1 ≤ length := Nat.le_trans hshort hle
      refine .pure ⟨⟨rfl, rfl, rfl⟩, .inr ⟨short + 1, ?_, hlt, fun _ hnil => ?_⟩⟩
      · change Except.ok (((w.file a i).read fileOffset length).take (short + 1)) = _
        rw [File.read, File.read, List.take_take, Nat.min_eq_left hlt]
      · exact (File.read_eq_nil_iff (Nat.succ_pos short)).mp hnil

/-- `readFully` gives what is asked for, cut at the end of the file. -/
theorem WF_readFully {fuel readLength : Nat} (w : World n) (a : Fin n) (i fileOffset : Nat)
    (hfuel : readLength ≤ fuel) :
    WF w (readFully a i fuel readLength fileOffset) fun r w' => w.Draws w' ∧
      ((r = .error (.fileRead ((w.adaptors a).entry i).fileEntry.path) ∧
          ((w.adaptors a).entry i).diskWriter.bind (·.fd) = none) ∨
        ∃ eof, r = .ok ((w.file a i).read fileOffset readLength, eof) ∧
          (eof = true ↔ (w.file a i).length < fileOffset + readLength ∧ 0 < readLength)) := by
  induction fuel generalizing w readLength fileOffset with
  | zero =>
    obtain rfl : readLength = 0 := Nat.le_zero.mp hfuel
    refine .pure ⟨.refl w, .inr ⟨false, ?_, by simp⟩⟩
    rw [File.read, List.take_zero]
  | succ fuel ih =>
    rw [readFully]
    split
    next hzero =>
      subst hzero
      refine .pure ⟨.refl w, .inr ⟨false, ?_, by simp⟩⟩
      rw [File.read, List.take_zero]
    next hne =>
      have hpos : 0 < readLength := Nat.pos_of_ne_zero hne
      refine (WF_readWriter w a i readLength fileOffset).bind ?_ ?_
      · rintro _ w₁ ⟨hd, ⟨hr, -⟩ | ⟨k, hr, hk, hempty⟩⟩
        · cases hr
        cases hr
        split
        next hnil =>
          have hend := hempty hpos hnil
          refine .pure ⟨hd, .inr ⟨true, ?_, iff_of_true rfl ⟨by omega, hpos⟩⟩⟩
          rw [File.read, List.drop_eq_nil_of_le hend, List.take_nil]
        next hbytes =>
          have hlen : ((w.file a i).read fileOffset k).length = min k
              ((w.file a i).length - fileOffset) := by
            rw [File.read, List.length_take, List.length_drop]
          have hlenpos := List.length_pos_iff.mpr hbytes
          generalize hm : ((w.file a i).read fileOffset k).length = m at hlen hlenpos
          have hread : (w.file a i).read fileOffset k = (w.file a i).read fileOffset m := by
            rw [← hm, File.read, File.read, List.take_eq_take_iff, List.length_take]
            simp
          have hfile : w₁.file a i = w.file a i := hd.sameBytes.file a i
          refine (ih w₁ (fileOffset + m) (show readLength - m ≤ fuel by omega)).bind ?_ ?_
          · rintro _ w₂ ⟨hd', ⟨hr, -⟩ | ⟨eof, hr, heof⟩⟩
            · cases hr
            cases hr
            refine .pure ⟨hd.trans hd', .inr ⟨eof, ?_, ?_⟩⟩
            · rw [hfile, hread, File.read_append_read, Nat.add_sub_cancel' (by omega)]
            · rw [heof, hfile]
              omega
          · rintro e w₂ ⟨hd', ⟨hr, hfd⟩ | ⟨eof, hr, -⟩⟩
            · refine ⟨hd.trans hd', .inl ⟨?_, ?_⟩⟩
              · rw [hr, hd.2.1]
              · rwa [hd.2.1] at hfd
            · cases hr
      · rintro e w₁ ⟨hd, ⟨hr, hfd⟩ | ⟨k, hr, -⟩⟩
        · exact ⟨hd, .inl ⟨congrArg Except.error (Except.error.inj hr), hfd⟩⟩
        · cases hr

end Reading

end FluxCore.Disk
