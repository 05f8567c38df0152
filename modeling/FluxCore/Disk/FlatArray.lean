import FluxCore.Disk.Layout

/-!
# A download as a flat array

Reads and writes of a `MultiDiskAdaptor` behave as those of one array of bytes, whatever files the
counter closes in between. A call that throws has done a beginning of its work.
-/

namespace FluxCore.Disk

open Program

variable {n : Nat}

section Sound

variable {ad ad' : Adaptor} {i index : Nat}

/-- An entry that is marked as open has its file open, for writing unless the adaptor is
read-only. -/
structure Adaptor.Sound (ad : Adaptor) : Prop where
  readOnly : ∀ i, ∀ d ∈ (ad.entry i).diskWriter, d.readOnly = ad.readOnly
  fd : ∀ i, (ad.entry i).isOpen = true → ∃ d ∈ (ad.entry i).diskWriter,
    d.fd = some .rdwr ∨ ad.readOnly = true ∧ d.fd = some .rdonly

/-- What happens to an adaptor while files are opened and closed. -/
structure Adaptor.Goes (ad ad' : Adaptor) : Prop where
  steady : ad.Steady ad'
  bytes : ∀ i, (ad'.disk i).getD [] = (ad.disk i).getD []
  sound : ad.Sound → ad'.Sound

theorem Adaptor.Goes.refl (ad : Adaptor) : ad.Goes ad := ⟨.refl ad, fun _ => rfl, id⟩

theorem Adaptor.Goes.trans {ad'' : Adaptor} (h : ad.Goes ad') (h' : ad'.Goes ad'') : ad.Goes ad'' :=
  ⟨h.steady.trans h'.steady, fun i => (h'.bytes i).trans (h.bytes i), h'.sound ∘ h.sound⟩

theorem Adaptor.Goes.closeAt (ad : Adaptor) (index : Nat) : ad.Goes (ad.closeAt index) := by
  have hentry : ∀ i, (ad.closeAt index).entry i = (ad.entry i).closeFile ∨
      (ad.closeAt index).entry i = ad.entry i := fun i => by
    change (ad.modifyEntry _ .closeFile).entry i = _ ∨ (ad.modifyEntry _ .closeFile).entry i = _
    rw [entry_modifyEntry]
    split
    · exact .inl rfl
    · exact .inr rfl
  refine ⟨.closeAt ad index, fun _ => rfl, fun h => ⟨fun i d hd => ?_, fun i hi => ?_⟩⟩ <;>
    rcases hentry i with heq | heq
  · rw [heq] at hd
    obtain ⟨d', hd', hro⟩ := DiskWriterEntry.mem_diskWriter_closeFile hd
    exact hro.trans (h.readOnly i d' hd')
  · rw [heq] at hd
    exact h.readOnly i d hd
  · rw [heq, DiskWriterEntry.isOpen_closeFile] at hi
    exact nomatch hi
  · rw [heq] at hi ⊢
    exact h.fd i hi

theorem Adaptor.Sound.openedAt (h : ad.Sound) (hsome : (ad.entry i).diskWriter.isSome = true)
    (how : Opening) : (ad.openedAt i how).Sound := by
  have hself := Adaptor.entry_openedAt_self how (lt_of_isSome hsome)
  refine ⟨fun j d hd => ?_, fun j hj => ?_⟩ <;> by_cases hij : i = j
  · subst hij
    rw [hself] at hd
    obtain ⟨d', hd', rfl⟩ := Option.mem_map.mp hd
    exact h.readOnly i d' hd'
  · rw [entry_openedAt ad i _ j hij] at hd
    exact h.readOnly j d hd
  · subst hij
    obtain ⟨d, hd⟩ := Option.isSome_iff_exists.mp hsome
    rw [hself]
    refine ⟨_, Option.mem_map_of_mem _ hd, ?_⟩
    change some (if ad.Truncates i how then Fd.rdwr else
      if d.readOnly then .rdonly else .rdwr) = _ ∨ ad.readOnly = true ∧
        some (if ad.Truncates i how then Fd.rdwr else
          if d.readOnly then .rdonly else .rdwr) = _
    rw [h.readOnly i d hd]
    cases ad.readOnly with
    | true => split <;> simp
    | false => simp
  · rw [entry_openedAt ad i _ j hij] at hj ⊢
    exact h.fd j hj

theorem Adaptor.Goes.openedAt (hsome : (ad.entry i).diskWriter.isSome = true) :
    ad.Goes (ad.openedAt i .openFile) :=
  ⟨.openedAt ad i _, Adaptor.bytes_openedAt rfl, fun h => h.openedAt hsome _⟩

/-- What happens to the adaptors while one of them opens files. -/
structure World.Goes (w w' : World n) : Prop where
  adaptors : ∀ a, (w.adaptors a).Goes (w'.adaptors a)
  opens : w'.outside.opens = w.outside.opens

theorem World.Goes.refl (w : World n) : w.Goes w := ⟨fun _ => .refl _, rfl⟩

theorem World.Goes.trans {w w' w'' : World n} (h : w.Goes w') (h' : w'.Goes w'') : w.Goes w'' :=
  ⟨fun a => (h.adaptors a).trans (h'.adaptors a), h'.opens.trans h.opens⟩

theorem World.Goes.setAdaptor {w : World n} {a : Fin n} (h : (w.adaptors a).Goes ad) :
    w.Goes (w.setAdaptor a ad) := by
  refine ⟨fun b => ?_, rfl⟩
  by_cases hb : b = a
  · subst hb
    rwa [adaptors_setAdaptor_self]
  · rw [w.adaptors_setAdaptor_of_ne ad hb]
    exact .refl _

theorem World.Draws.goes {w w' : World n} (h : w.Draws w') : w.Goes w' :=
  ⟨fun a => by rw [h.2.1]; exact .refl _, h.2.2⟩

theorem closing_goes (w₀ : World n) : Closing fun _ w => w₀.Goes w where
  drawn h := ⟨h.adaptors, h.opens⟩
  closeAt h _ := h.trans (.setAdaptor (.closeAt ..))

theorem WF_ensureMaxOpenFileLimit (w : World n) (numNewFiles : Nat) :
    WF w (ensureMaxOpenFileLimit numNewFiles) fun r w' => r = .ok ⟨⟩ ∧ w.Goes w' :=
  (closing_goes w).ensureMaxOpenFileLimit (fun _ => .refl w)
    (fun _ => ⟨(World.Goes.refl w).adaptors, rfl⟩)
    fun _ _ _ _ => ⟨.refl w, fun _ h => ⟨h.adaptors, h.opens⟩⟩

end Sound

section Failures

variable {w w' : World n} {a : Fin n} {i j stop stop' : Nat} {e : Thrown}

/-- Why an access to the files from position `i` on, up to the byte `stop`, may throw: opening a
file fails, the adaptor is read-only, or an entry it reaches has no `DiskWriter`. -/
inductive World.Fails (w : World n) (a : Fin n) (i stop : Nat) : Thrown → Prop
  | fileOpen (path : String) (j : Nat) (h : w.outside.opens a j = false) :
    w.Fails a i stop (.fileOpen path)
  | fileWrite (path : String) (h : (w.adaptors a).readOnly = true) :
    w.Fails a i stop (.fileWrite path)
  | notOpened (offset : Nat) (path : String) (j : Nat) (hle : i ≤ j)
    (hlt : j < (w.adaptors a).diskWriterEntries.length)
    (hnone : ((w.adaptors a).entry j).diskWriter.isSome = false)
    (hstop : j = i ∨ ((w.adaptors a).entry j).fileEntry.offset < stop) :
    w.Fails a i stop (.notOpened offset path)

/-- An access that goes on to the next file. -/
theorem World.Fails.next (h : w.Fails a (i + 1) stop e)
    (hstop : i + 1 < (w.adaptors a).diskWriterEntries.length →
      ((w.adaptors a).entry (i + 1)).fileEntry.offset < stop) : w.Fails a i stop e := by
  cases h with
  | fileOpen path j h => exact .fileOpen path j h
  | fileWrite path h => exact .fileWrite path h
  | notOpened offset path j hle hlt hnone hj =>
    refine .notOpened offset path j (Nat.le_of_succ_le hle) hlt hnone (.inr ?_)
    rcases hj with rfl | hj
    · exact hstop hlt
    · exact hj

end Failures

section Laid

variable {ad ad' : Adaptor} {i k : Nat}

/-- The entries are those of the files, which lie one after the other. -/
structure Adaptor.Laid (ad : Adaptor) : Prop where
  length : ad.diskWriterEntries.length = ad.fileEntries.length
  fileEntry : ∀ i < ad.fileEntries.length, ad.fileEntries[i]? = some (ad.entry i).fileEntry
  consecutive : Consecutive 0 ad.fileEntries

/-- Where the file at a position begins; behind the last file, where the download ends. -/
def Adaptor.startOf (ad : Adaptor) (i : Nat) : Nat := totalLength (ad.fileEntries.take i)

def Adaptor.total (ad : Adaptor) : Nat := totalLength ad.fileEntries

theorem Adaptor.Steady.laid (hs : ad.Steady ad') (h : ad.Laid) : ad'.Laid :=
  ⟨by rw [hs.length, hs.fileEntries, h.length], fun i hi => by
    rw [hs.fileEntries] at hi ⊢
    rw [hs.fileEntry, h.fileEntry i hi], hs.fileEntries ▸ h.consecutive⟩

theorem Adaptor.Steady.startOf (hs : ad.Steady ad') (i : Nat) : ad'.startOf i = ad.startOf i := by
  rw [Adaptor.startOf, Adaptor.startOf, hs.fileEntries]

theorem Adaptor.Steady.total (hs : ad.Steady ad') : ad'.total = ad.total := by
  rw [Adaptor.total, Adaptor.total, hs.fileEntries]

namespace Adaptor.Laid

theorem offset (h : ad.Laid) (hi : i < ad.diskWriterEntries.length) :
    (ad.entry i).fileEntry.offset = ad.startOf i := by
  rw [h.consecutive.getElem? (h.fileEntry i (h.length ▸ hi)), Nat.zero_add, startOf]

theorem startOf_succ (h : ad.Laid) (hi : i < ad.diskWriterEntries.length) :
    ad.startOf (i + 1) = ad.startOf i + (ad.entry i).fileEntry.length := by
  rw [startOf, List.take_add_one, h.fileEntry i (h.length ▸ hi), totalLength, List.map_append,
    List.sum_append]
  rfl

theorem getLastOffset (h : ad.Laid) (hi : i < ad.diskWriterEntries.length) :
    (ad.entry i).fileEntry.getLastOffset = ad.startOf (i + 1) := by
  rw [FileEntry.getLastOffset, h.offset hi, h.startOf_succ hi]

/-- `findFirstDiskWriterEntry` finds the position of the file. -/
theorem firstPosition (h : ad.Laid) (p : Nat) :
    firstPosition ad.diskWriterEntries p = position ad.fileEntries p := by
  have hmap : ad.fileEntries = ad.diskWriterEntries.map DiskWriterEntry.fileEntry := by
    refine List.ext_getElem? fun i => ?_
    rw [List.getElem?_map]
    by_cases hi : i < ad.fileEntries.length
    · have hi' : i < ad.diskWriterEntries.length := h.length ▸ hi
      rw [h.fileEntry i hi, List.getElem?_eq_getElem hi', entry, List.getD_eq_getElem _ _ hi']
      rfl
    · rw [List.getElem?_eq_none (Nat.le_of_not_lt hi),
        List.getElem?_eq_none (h.length ▸ Nat.le_of_not_lt hi)]
      rfl
  rw [position, hmap, List.takeWhile_map, List.length_map]
  rfl

/-- A byte of the download lies in the file found. -/
theorem position_spec (h : ad.Laid) {p : Nat} (hp : p < ad.total) :
    position ad.fileEntries p < ad.diskWriterEntries.length ∧
      ad.startOf (position ad.fileEntries p) ≤ p ∧
      p < ad.startOf (position ad.fileEntries p + 1) := by
  obtain ⟨f, hf, hle, hlt⟩ := Disk.position_spec h.consecutive (Nat.zero_le p) (by
    rw [Nat.zero_add]
    exact hp)
  obtain ⟨hi, -⟩ := List.getElem?_eq_some_iff.mp hf
  have hi' := h.length ▸ hi
  rw [h.fileEntry _ hi] at hf
  cases hf
  rw [h.offset hi'] at hle
  rw [h.getLastOffset hi'] at hlt
  exact ⟨hi', hle, hlt⟩

end Adaptor.Laid

/-- The byte of the download at `p`, where its file reaches so far. -/
def World.byteAt (w : World n) (a : Fin n) (p : Nat) : Option UInt8 :=
  (w.file a (position (w.adaptors a).fileEntries p))[
    p - (w.adaptors a).startOf (position (w.adaptors a).fileEntries p)]?

theorem Adaptor.Goes.byteAt {w w' : World n} {a : Fin n}
    (h : (w.adaptors a).Goes (w'.adaptors a)) (p : Nat) : w'.byteAt a p = w.byteAt a p := by
  have hs := h.steady
  have hfile : ∀ i, w'.file a i = w.file a i := h.bytes
  rw [World.byteAt, World.byteAt, hfile, hs.startOf, hs.fileEntries]

end Laid

section Writing

variable {w w' : World n} {a : Fin n} {i : Nat}

/-- What a write does to the files of an adaptor. -/
def World.Patched (w w' : World n) (a : Fin n) (offset : Nat) (data : List UInt8) : Prop :=
  ∀ i < (w.adaptors a).diskWriterEntries.length, w'.file a i =
    ((w.adaptors a).entry i).fileEntry.patch (w.file a i) offset data

/-- What a write changes besides the bytes of its adaptor. -/
structure World.Writes (w w' : World n) (a : Fin n) : Prop where
  steady : (w.adaptors a).Steady (w'.adaptors a)
  sound : (w.adaptors a).Sound → (w'.adaptors a).Sound
  others : ∀ b ≠ a, (w.adaptors b).Goes (w'.adaptors b)
  opens : w'.outside.opens = w.outside.opens

theorem World.Goes.writes (h : w.Goes w') (a : Fin n) : w.Writes w' a :=
  ⟨(h.adaptors a).steady, (h.adaptors a).sound, fun b _ => h.adaptors b, h.opens⟩

theorem World.Writes.trans {w'' : World n} (h : w.Writes w' a) (h' : w'.Writes w'' a) :
    w.Writes w'' a :=
  ⟨h.steady.trans h'.steady, h'.sound ∘ h.sound, fun b hb => (h.others b hb).trans (h'.others b hb),
    h'.opens.trans h.opens⟩

theorem World.Writes.fails {j stop : Nat} {e : Thrown} (hw : w.Writes w' a)
    (h : w'.Fails a j stop e) : w.Fails a j stop e := by
  have hs := hw.steady
  cases h with
  | fileOpen path j h => exact .fileOpen path j (hw.opens ▸ h)
  | fileWrite path h => exact .fileWrite path (hs.readOnly ▸ h)
  | notOpened offset path j hle hlt hnone hstop =>
    refine .notOpened offset path j hle (hs.length ▸ hlt) ?_ ?_
    · rw [← hs.isSome, hnone]
    · rwa [hs.fileEntry] at hstop

theorem World.Patched.trans {w₀ : World n} {offset : Nat} {xs ys : List UInt8}
    (h : w₀.Patched w a offset xs) (hs : (w₀.adaptors a).Steady (w.adaptors a))
    (h' : w.Patched w' a (offset + xs.length) ys) : w₀.Patched w' a offset (xs ++ ys) := by
  intro i hi
  rw [h' i (hs.length ▸ hi), h i hi, hs.fileEntry, FileEntry.patch_append]

end Writing

section Reading

variable {w w' : World n} {a : Fin n} {i : Nat}

/-- The bytes of the download from `offset` on, as far as they are there. -/
structure World.ReadFrom (w : World n) (a : Fin n) (offset length : Nat) (bytes : List UInt8) :
    Prop where
  length_le : bytes.length ≤ length
  getElem? : ∀ k < bytes.length, bytes[k]? = w.byteAt a (offset + k)
  short : bytes.length < length → w.byteAt a (offset + bytes.length) = none

theorem World.ReadFrom.append {offset length length' : Nat} {xs ys : List UInt8}
    (h : w.ReadFrom a offset length xs) (hfull : xs.length = length)
    (h' : w.ReadFrom a (offset + length) length' ys) :
    w.ReadFrom a offset (length + length') (xs ++ ys) := by
  have hle := h'.length_le
  refine ⟨?_, fun k hk => ?_, fun hlt => ?_⟩
  · rw [List.length_append]
    omega
  · rw [List.length_append] at hk
    by_cases hin : k < xs.length
    · rw [List.getElem?_append_left hin, h.getElem? k hin]
    · rw [List.getElem?_append_right (by omega), h'.getElem? _ (by omega)]
      congr 1
      omega
  · rw [List.length_append] at hlt ⊢
    rw [← Nat.add_assoc, hfull]
    exact h'.short (by omega)

end Reading

end FluxCore.Disk
