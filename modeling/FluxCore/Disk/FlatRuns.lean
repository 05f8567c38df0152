import FluxCore.Disk.FlatArray

/-!
# Accesses of an adaptor that is ready

Opening makes an adaptor ready: its entries lie one behind the other, and every file that reaches
into a piece of a wanted file has a `DiskWriter`. Reads, writes and the runs of the write cache keep
it so, and so do the calls of the other adaptors that share its counter.
-/

namespace FluxCore.Disk

open Program

variable {n : Nat}

section Ready

variable {ad ad' : Adaptor} {i : Nat}

/-- Every file that reaches into a selected piece has a `DiskWriter`. -/
def Adaptor.Equipped (ad : Adaptor) : Prop :=
  ∀ piece i, Selected ad.pieceLength ad.fileEntries piece → i < ad.diskWriterEntries.length →
    ad.startOf i < (piece + 1) * ad.pieceLength →
    (piece * ad.pieceLength ≤ ad.startOf i ∨ piece * ad.pieceLength < ad.startOf (i + 1)) →
    (ad.entry i).diskWriter.isSome = true

/-- What an adaptor is after its entries have been made. -/
structure Adaptor.Ready (ad : Adaptor) : Prop where
  laid : ad.Laid
  sound : ad.Sound
  equipped : ad.Equipped

theorem Adaptor.Steady.ready (hs : ad.Steady ad') (hsound : ad.Sound → ad'.Sound)
    (h : ad.Ready) : ad'.Ready := by
  refine ⟨hs.laid h.laid, hsound h.sound, fun piece i hsel hi hlt hle => ?_⟩
  rw [hs.pieceLength, hs.fileEntries] at hsel
  rw [hs.length] at hi
  rw [hs.startOf, hs.pieceLength] at hlt
  rw [hs.startOf, hs.startOf, hs.pieceLength] at hle
  rw [hs.isSome]
  exact h.equipped piece i hsel hi hlt hle

/-- A reset makes an adaptor ready. -/
theorem Adaptor.ready_reset (hfs : Consecutive 0 ad.fileEntries) : ad.reset.Ready := by
  have hlen := ad.length_reset
  have hlaid : ad.reset.Laid := by
    refine ⟨hlen, fun i hi => ?_, hfs⟩
    have hf : ad.fileEntries[i]? = some _ := List.getElem?_eq_getElem hi
    rw [fileEntry_reset hf]
    exact hf
  refine ⟨hlaid, ⟨fun i d hd => ?_, fun i hi => ?_⟩, fun piece i hsel hi hlt hle => ?_⟩
  · have hi := lt_of_isSome (Option.isSome_of_mem hd)
    have hmark : i < (markEntries ad.pieceLength ad.fileEntries).length := by
      have := congrArg List.length (map_fileEntry_markEntries ad.pieceLength ad.fileEntries)
      rw [List.length_map] at this
      omega
    have he := List.getElem?_eq_getElem hmark
    rw [entry_reset_eq he, equip] at hd
    split at hd
    · cases hd
      rfl
    · rw [(fresh_markEntries _ _ _ (List.mem_of_getElem? he)).1] at hd
      cases hd
  · rw [(ad.entry_reset i).2] at hi
    cases hi
  · have hf := hlaid.fileEntry i (hlen ▸ hi)
    refine isSome_reset hfs hsel hf ?_ ?_
    · rwa [hlaid.offset hi]
    · rw [Behind, hlaid.offset hi, hlaid.getLastOffset hi]
      exact hle

end Ready

section Covered

variable {w : World n} {a : Fin n}

/-- The exceptions that are not the adaptor's own: a file cannot be opened, or not be written. -/
inductive World.Denied (w : World n) (a : Fin n) : Thrown → Prop
  | fileOpen (path : String) (j : Nat) (h : w.outside.opens a j = false) :
    w.Denied a (.fileOpen path)
  | fileWrite (path : String) (h : (w.adaptors a).readOnly = true) : w.Denied a (.fileWrite path)

end Covered

section Cells

variable {cs : List DataCell}

theorem DataCell.length_bytes (c : DataCell) : c.bytes.length = c.len := by
  have := c.le
  rw [bytes, List.length_take, List.length_drop]
  omega

/-- The lists of bytes that the cells stand for. -/
def writes (cs : List DataCell) : List (Nat × List UInt8) := cs.map fun c => (c.goff, c.bytes)

theorem contiguous_append (stop : Nat) (cs : List DataCell) :
    (contiguous stop cs).1 ++ (contiguous stop cs).2 = cs := by
  induction cs generalizing stop with
  | nil => rfl
  | cons c cs ih =>
    unfold contiguous
    split
    · exact congrArg (c :: ·) (ih _)
    · rfl

/-- An operation for which two lists one behind the other are one list does the same with the runs
as with the cells. -/
theorem foldl_runs {β : Type} (f : β → Nat → List UInt8 → β)
    (happend : ∀ b offset xs ys, f (f b offset xs) (offset + xs.length) ys = f b offset (xs ++ ys))
    (hnil : ∀ b offset, f b offset [] = b) (b : β) (cs : List DataCell) :
    (runs cs).foldl (fun b r => f b r.1 r.2) b = (writes cs).foldl (fun b r => f b r.1 r.2) b := by
  have hrun : ∀ (b : β) stop cs, f b stop ((contiguous stop cs).1.flatMap DataCell.bytes) =
      (writes (contiguous stop cs).1).foldl (fun b r => f b r.1 r.2) b := by
    intro b stop cs
    induction cs generalizing b stop with
    | nil => exact hnil b stop
    | cons c cs ih =>
      unfold contiguous
      split
      next hgoff =>
        change f b stop (c.bytes ++ (contiguous (stop + c.len) cs).1.flatMap DataCell.bytes) =
          (writes (contiguous _ cs).1).foldl _ (f b c.goff c.bytes)
        rw [← happend, c.length_bytes, ih, hgoff]
      next => exact hnil b stop
  induction cs using runs.induct generalizing b with
  | case1 => rw [runs]; rfl
  | case2 c cs ih =>
    rw [runs, List.foldl_cons, ih, ← happend, c.length_bytes, hrun, ← List.foldl_append]
    conv_rhs => rw [← contiguous_append (c.goff + c.len) cs]
    rw [writes, writes, writes, List.map_cons, List.foldl_cons, List.map_append]

end Cells

section Accesses

variable {w w' : World n} {a : Fin n}

/-- What is known of the bytes is so. -/
def World.Agrees (w : World n) (a : Fin n) (m : Memory UInt8) : Prop :=
  ∀ p < (w.adaptors a).total, ∀ b, m p = some b → w.byteAt a p = some b

/-- `findFirstDiskWriterEntry` finds the file of a byte of the download. -/
theorem Adaptor.Laid.isInRange {ad : Adaptor} (h : ad.Laid) {offset : Nat}
    (hoffset : offset < ad.total) :
    Disk.isInRange (ad.entry (Disk.firstPosition ad.diskWriterEntries offset)) offset = true := by
  obtain ⟨hi, hfirst, hbehind⟩ := h.position_spec hoffset
  rw [h.firstPosition, Disk.isInRange, h.offset hi, h.getLastOffset hi]
  simp [hfirst, hbehind]

theorem World.Patched.agrees {m : Memory UInt8} {offset : Nat} {data : List UInt8}
    (hlaid : (w.adaptors a).Laid) (hs : (w.adaptors a).Steady (w'.adaptors a))
    (hp : w.Patched w' a offset data) (h : w.Agrees a m) :
    w'.Agrees a (m.overwrite offset data) := by
  intro p hlt b hb
  rw [hs.total] at hlt
  obtain ⟨hi, hle, hbehind⟩ := hlaid.position_spec hlt
  have hsucc := hlaid.startOf_succ hi
  have hbyte := h p hlt
  rw [World.byteAt, hs.startOf, hs.fileEntries, hp _ hi]
  rw [World.byteAt] at hbyte
  generalize position (w.adaptors a).fileEntries p = i at *
  obtain ⟨k, rfl⟩ := Nat.exists_eq_add_of_le hle
  rw [Nat.add_sub_cancel_left] at hbyte ⊢
  rw [FileEntry.getElem?_patch (by omega), hlaid.offset hi]
  by_cases hin : offset ≤ (w.adaptors a).startOf i + k ∧
      (w.adaptors a).startOf i + k < offset + data.length
  · rw [if_pos hin]
    rwa [Memory.overwrite_of_mem hin] at hb
  · rw [if_neg hin]
    rw [Memory.overwrite_of_not_mem hin] at hb
    have hfile := hbyte b hb
    rwa [if_pos (List.getElem?_eq_some_iff.mp hfile).1]

theorem World.Agrees.mono {m m' : Memory UInt8} (h : w.Agrees a m) (hle : m'.Le m) :
    w.Agrees a m' := fun p hp b hb => h p hp b (hle p b hb)

end Accesses

section Others

variable {α β : Type} {a b : Fin n} {w : World n}

/-- To the other adaptors a program of adaptor `b` does nothing but open and close their files. -/
def Minds (b : Fin n) (x : DiskM n α) : Prop :=
  ∀ w, WF w x fun _ w' => ∀ a ≠ b, (w.adaptors a).Goes (w'.adaptors a)

namespace Minds

variable {x : DiskM n α} {f : α → DiskM n β}

theorem pure (c : α) : Minds b (Pure.pure c) := fun _ => .pure fun _ _ => .refl _

theorem throw (e : Thrown) : Minds b (MonadExcept.throw e : DiskM n α) :=
  fun _ => .throw fun _ _ => .refl _

theorem bind (hx : Minds b x) (hf : ∀ c, Minds b (f c)) : Minds b (x >>= f) := fun w =>
  (hx w).bind (fun c w' h => (hf c w').mono fun _ _ h' a ha => (h a ha).trans (h' a ha))
    fun _ _ h => h

theorem ite {p : Prop} [Decidable p] {y : DiskM n α} (hx : Minds b x) (hy : Minds b y) :
    Minds b (if p then x else y) := by
  split
  · exact hx
  · exact hy

theorem get : Minds b (MonadState.get : DiskM n (World n)) := by
  rintro w r w' ⟨⟩
  exact fun _ _ => .refl _

theorem adaptor (c : Fin n) : Minds b (adaptor c : DiskM n Adaptor) :=
  get.bind fun _ => .pure _

theorem assert (p : Prop) [Decidable p] : Minds b (Program.assert p : DiskM n PUnit) := by
  unfold Program.assert
  split
  · exact .pure _
  · exact fun _ => .stop

theorem modifyAdaptor (f : Adaptor → Adaptor) : Minds b (modifyAdaptor b f) := fun w =>
  .modify fun a ha => by
    rw [w.adaptors_setAdaptor_of_ne _ ha]
    exact .refl _

theorem modifyCounter (f : OpenedFileCounter n → OpenedFileCounter n) :
    Minds b (modifyCounter f) := fun _ => .modify fun _ _ => .refl _

theorem ensureMaxOpenFileLimit (numNewFiles : Nat) :
    Minds b (ensureMaxOpenFileLimit numNewFiles : DiskM n PUnit) := fun w =>
  (WF_ensureMaxOpenFileLimit w numNewFiles).mono fun _ _ h a _ => h.2.adaptors a

theorem reduceNumOfOpenedFile (k : Nat) : Minds b (reduceNumOfOpenedFile k : DiskM n PUnit) :=
  get.bind fun _ => ite (.pure _) ((assert _).bind fun _ => .modifyCounter _)

theorem initAndOpenWriter (i : Nat) : Minds b (initAndOpenWriter b i) :=
  get.bind fun _ => ite (.modifyAdaptor _) (.throw _)

theorem openEntry (i : Nat) (how : Opening) : Minds b (openEntry b i how) := by
  refine (adaptor b).bind fun _ => ite ?_ (.pure _)
  cases how with
  | initAndOpenFile => exact .initAndOpenWriter i
  | openFile =>
    exact (adaptor b).bind fun _ => ite
      (get.bind fun _ => ite (.modifyAdaptor _) (.throw _)) (.initAndOpenWriter i)

theorem openIfNot (i : Nat) (how : Opening) : Minds b (openIfNot b i how) :=
  (adaptor b).bind fun _ => ite (.pure _) <|
    (ensureMaxOpenFileLimit 1).bind fun _ => (openEntry i how).bind fun _ => .modifyAdaptor _

theorem openAll (how : Opening) (is : List Nat) : Minds b (openAll b how is) := by
  induction is with
  | nil => exact .pure _
  | cons i is ih => exact (openIfNot i how).bind fun _ => ih

theorem resetDiskWriterEntries : Minds b (resetDiskWriterEntries b) :=
  (adaptor b).bind fun _ => (assert _).bind fun _ => .modifyAdaptor _

theorem openFiles (how : Opening) : Minds b (openFiles b how) :=
  resetDiskWriterEntries.bind fun _ => (adaptor b).bind fun _ => .openAll how _

theorem closeFile : Minds b (closeFile b) :=
  (adaptor b).bind fun _ => (modifyAdaptor _).bind fun _ => (reduceNumOfOpenedFile _).bind fun _ =>
    .modifyAdaptor _

theorem openOrThrow (i offset : Nat) : Minds b (openOrThrow b i offset) :=
  (openIfNot i .openFile).bind fun _ => (adaptor b).bind fun _ => ite (.pure _) (.throw _)

theorem findFirst (offset : Nat) : Minds b (findFirstDiskWriterEntry b offset) :=
  (adaptor b).bind fun _ => ite (.pure _) (.throw _)

theorem writeWriter (i : Nat) (data : List UInt8) (fileOffset : Nat) :
    Minds b (writeWriter b i data fileOffset) :=
  (adaptor b).bind fun _ => ite (.pure _) (ite (.modifyAdaptor _) (.throw _))

theorem writeFrom (count i offset : Nat) (data : List UInt8) (fileOffset : Nat) :
    Minds b (writeFrom b count i offset data fileOffset) := by
  induction count generalizing i offset data fileOffset with
  | zero => exact .pure _
  | succ count ih =>
    exact (adaptor b).bind fun _ => (openOrThrow _ _).bind fun _ =>
      (writeWriter _ _ _).bind fun _ => ite (.pure _) (ih _ _ _ _)

theorem writeData (data : List UInt8) (offset : Nat) : Minds b (writeData b data offset) :=
  (findFirst offset).bind fun _ => (adaptor b).bind fun _ => .writeFrom _ _ _ _ _

theorem writeRuns (ws : List (Nat × List UInt8)) : Minds b (writeRuns b ws) := by
  induction ws with
  | nil => exact .pure _
  | cons r ws ih => exact (writeData _ _).bind fun _ => ih

theorem readFully (i fuel readLength fileOffset : Nat) (h : readLength ≤ fuel) :
    Minds b (readFully b i fuel readLength fileOffset) := fun w =>
  (WF_readFully w b i fileOffset h).mono fun _ _ h a _ => h.1.goes.adaptors a

theorem readFrom (count i offset rem fileOffset : Nat) :
    Minds b (readFrom b count i offset rem fileOffset) := by
  induction count generalizing i offset rem fileOffset with
  | zero => exact .pure _
  | succ count ih =>
    exact (adaptor b).bind fun _ => (openOrThrow _ _).bind fun _ =>
      (readFully _ _ _ _ le_rfl).bind fun _ => ite (.pure _) ((ih _ _ _ _).bind fun _ => .pure _)

theorem readData (length offset : Nat) : Minds b (readData b length offset) :=
  (findFirst offset).bind fun _ => (adaptor b).bind fun _ => .readFrom _ _ _ _ _

end Minds

end Others

section Opening

variable {w : World n} {a : Fin n}

/-- The adaptor is ready, with files of its own. -/
def World.ReadyAs (w : World n) (a : Fin n) (fs : List FileEntry) (pieceLength : Nat) : Prop :=
  (w.adaptors a).Ready ∧ (w.adaptors a).fileEntries = fs ∧ (w.adaptors a).pieceLength = pieceLength

theorem World.ReadyAs.steady {w' : World n} {fs : List FileEntry} {pieceLength : Nat}
    (h : w.ReadyAs a fs pieceLength) (hs : (w.adaptors a).Steady (w'.adaptors a))
    (hsound : (w.adaptors a).Sound → (w'.adaptors a).Sound) : w'.ReadyAs a fs pieceLength :=
  ⟨hs.ready hsound h.1, hs.fileEntries.trans h.2.1, hs.pieceLength.trans h.2.2⟩

theorem World.ReadyAs.openAll {fs : List FileEntry} {pieceLength : Nat}
    (h : w.ReadyAs a fs pieceLength) (how : Opening) (is : List Nat) :
    WF w (openAll a how is) fun _ w' => w'.ReadyAs a fs pieceLength := by
  have hopen : ∀ {w : World n} i, w.ReadyAs a fs pieceLength →
      WF w (openIfNot a i how) fun _ w' => w'.ReadyAs a fs pieceLength := by
    intro w i h
    refine WF.adaptor_bind ?_
    split
    next => exact .pure h
    next =>
      refine (WF_ensureMaxOpenFileLimit w 1).bind ?_ fun e w' h => nomatch h.1
      rintro _ w₁ ⟨-, hg⟩
      have h₁ := h.steady (hg.adaptors a).steady (hg.adaptors a).sound
      have hentry : WF w₁ (openEntry a i how) fun _ w' => w'.ReadyAs a fs pieceLength := by
        intro r w₂ hr
        rw [exec_openEntry] at hr
        split at hr
        next hsome =>
          split at hr
          next =>
            cases hr
            refine h₁.steady ?_ ?_ <;> rw [World.adaptors_setAdaptor_self]
            · exact .openedAt _ i how
            · exact fun hs => hs.openedAt hsome how
          next => cases hr; exact h₁
        next => cases hr; exact h₁
      refine hentry.bind (fun _ w₂ h₂ => .modify ?_) fun _ _ h => h
      refine h₂.steady ?_ ?_ <;> rw [World.adaptors_setAdaptor_self]
      · exact .list _ i
      · exact fun hs => ⟨hs.readOnly, hs.fd⟩
  induction is generalizing w with
  | nil => exact .pure h
  | cons i is ih => exact (hopen i h).bind (fun _ _ h => ih h) fun _ _ h => h

theorem WF_resetDiskWriterEntries (hfs : Consecutive 0 (w.adaptors a).fileEntries) :
    WF w (resetDiskWriterEntries a) fun _ w' =>
      w'.ReadyAs a (w.adaptors a).fileEntries (w.adaptors a).pieceLength := by
  refine WF.adaptor_bind (.assert_bind fun _ => .modify ?_)
  rw [World.ReadyAs, World.adaptors_setAdaptor_self]
  exact ⟨Adaptor.ready_reset hfs, rfl, rfl⟩

/-- The calls that make the entries of an adaptor. -/
def Call.IsOpening (a : Fin n) (c : Call n) : Prop :=
  c = .openFile a ∨ c = .initAndOpenFile a ∨ c = .openExistingFile a

theorem Call.IsOpening.ready {c : Call n} (hc : c.IsOpening a)
    (hfs : Consecutive 0 (w.adaptors a).fileEntries) : WF w c.run fun _ w' =>
      w'.ReadyAs a (w.adaptors a).fileEntries (w.adaptors a).pieceLength := by
  have hreset := WF_resetDiskWriterEntries (w := w) hfs
  have hfiles : ∀ how, WF w (openFiles a how) fun _ w' =>
      w'.ReadyAs a (w.adaptors a).fileEntries (w.adaptors a).pieceLength := fun how =>
    hreset.bind (fun _ _ h => WF.adaptor_bind (h.openAll how _)) fun _ _ h => h
  rcases hc with rfl | rfl | rfl
  · exact (hfiles _).bind (fun _ _ h => .pure h) fun _ _ h => h
  · exact (hfiles _).bind (fun _ _ h => .pure h) fun _ _ h => h
  · exact hreset.bind (fun _ _ h => .pure h) fun _ _ h => h

end Opening

end FluxCore.Disk
