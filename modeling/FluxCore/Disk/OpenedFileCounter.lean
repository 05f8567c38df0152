import FluxCore.Disk.DiskWriterEntry

/-!
# The counter of open files

`OpenedFileCounter` bounds the number of files that the downloads of one `RequestGroupMan` have open
together: the adaptor that opens a file announces it, and where the limit is reached files of other
downloads, picked at random, are closed first. The random draws and the outcomes of opening files
come from outside.
-/

namespace FluxCore.Disk

/-- The state of a `MultiDiskAdaptor`. `disk` has the files by the position of their entries, `none`
where there is no file; `openedDiskWriterEntries` has positions for the pointers of the source. -/
structure Adaptor where
  fileEntries : List FileEntry
  pieceLength : Nat
  readOnly : Bool
  disk : Nat → Option File
  diskWriterEntries : List DiskWriterEntry
  openedDiskWriterEntries : List Nat

/-- `rgman` has the groups that `getRequestGroups` lists, each with its adaptor where it has a
`MultiDiskAdaptor`, and is `none` for a null pointer. -/
structure OpenedFileCounter (n : Nat) where
  rgman : Option (List (Option (Fin n)))
  maxOpenFiles : Nat
  numOpenFiles : Nat

/-- What the run does not decide: the random draws still to come, and whether opening a file of an
adaptor succeeds. -/
structure Outside (n : Nat) where
  random : Nat → Nat
  opens : Fin n → Nat → Bool

/-- The adaptors that share a counter. -/
structure World (n : Nat) where
  counter : OpenedFileCounter n
  adaptors : Fin n → Adaptor
  outside : Outside n

/-- The exceptions of the adaptors, with what their texts name. -/
inductive Thrown where
  | fileOpen (path : String)
  | fileWrite (path : String)
  | fileRead (path : String)
  | fileOffsetOutOfRange (offset : Nat)
  | notOpened (offset : Nat) (path : String)
deriving DecidableEq, Repr

abbrev DiskM (n : Nat) := Program (World n) Thrown

variable {n : Nat}

namespace World

def setAdaptor (w : World n) (a : Fin n) (ad : Adaptor) : World n :=
  { w with adaptors := Function.update w.adaptors a ad }

@[simp] theorem counter_setAdaptor (w : World n) (a : Fin n) (ad : Adaptor) :
    (w.setAdaptor a ad).counter = w.counter := rfl

@[simp] theorem adaptors_setAdaptor_self (w : World n) (a : Fin n) (ad : Adaptor) :
    (w.setAdaptor a ad).adaptors a = ad := Function.update_self ..

theorem adaptors_setAdaptor_of_ne (w : World n) {a b : Fin n} (ad : Adaptor) (h : b ≠ a) :
    (w.setAdaptor a ad).adaptors b = w.adaptors b := Function.update_of_ne h ..

@[simp] theorem setAdaptor_setAdaptor (w : World n) (a : Fin n) (ad ad' : Adaptor) :
    (w.setAdaptor a ad).setAdaptor a ad' = w.setAdaptor a ad' := by
  unfold setAdaptor
  rw [Function.update_idem]

/-- The number of entries in the lists of opened entries. -/
def opened (w : World n) : Nat := ∑ a, (w.adaptors a).openedDiskWriterEntries.length

theorem opened_setAdaptor (w : World n) (a : Fin n) (ad : Adaptor) :
    (w.setAdaptor a ad).opened + (w.adaptors a).openedDiskWriterEntries.length =
      w.opened + ad.openedDiskWriterEntries.length := by
  have hrest : ∑ b ∈ Finset.univ.erase a,
      ((w.setAdaptor a ad).adaptors b).openedDiskWriterEntries.length =
        ∑ b ∈ Finset.univ.erase a, (w.adaptors b).openedDiskWriterEntries.length :=
    Finset.sum_congr rfl fun b hb => by
      rw [w.adaptors_setAdaptor_of_ne ad (Finset.ne_of_mem_erase hb)]
  have hsplit := Finset.add_sum_erase Finset.univ
    (fun b => (w.adaptors b).openedDiskWriterEntries.length) (Finset.mem_univ a)
  have hsplit' := Finset.add_sum_erase Finset.univ
    (fun b => ((w.setAdaptor a ad).adaptors b).openedDiskWriterEntries.length) (Finset.mem_univ a)
  rw [hrest, adaptors_setAdaptor_self] at hsplit'
  unfold opened
  omega

/-- The world after a random draw. -/
def drawn (w : World n) : World n :=
  { w with outside.random := fun i => w.outside.random (i + 1) }

end World

def adaptor (a : Fin n) : DiskM n Adaptor := do
  let w ← get
  pure (w.adaptors a)

def modifyAdaptor (a : Fin n) (f : Adaptor → Adaptor) : DiskM n PUnit :=
  modify fun w => w.setAdaptor a (f (w.adaptors a))

def modifyCounter (f : OpenedFileCounter n → OpenedFileCounter n) : DiskM n PUnit :=
  modify fun w => { w with counter := f w.counter }

/-- `SimpleRandomizer::getRandomNumber`. -/
def getRandomNumber (bound : Nat) : DiskM n Nat := do
  Program.assert (0 < bound)
  let w ← get
  modify (·.drawn)
  pure (w.outside.random 0 % bound)

namespace Adaptor

/-- The entry at a position. -/
def entry (ad : Adaptor) (i : Nat) : DiskWriterEntry :=
  ad.diskWriterEntries.getD i (.create ⟨"", 0, 0, false⟩)

def modifyEntry (ad : Adaptor) (i : Nat) (f : DiskWriterEntry → DiskWriterEntry) : Adaptor :=
  { ad with diskWriterEntries := ad.diskWriterEntries.modify i f }

/-- One turn of `tryCloseFile`: the entry picked is closed, and the last of the list takes its
place. -/
def closeAt (ad : Adaptor) (index : Nat) : Adaptor :=
  { ad.modifyEntry (ad.openedDiskWriterEntries.getD index 0) .closeFile with
    openedDiskWriterEntries := (ad.openedDiskWriterEntries.set index
      (ad.openedDiskWriterEntries.getLastD 0)).dropLast }

end Adaptor

/-- The loop of `MultiDiskAdaptor::tryCloseFile`; it gives what is left to close. -/
def closeSome (a : Fin n) : Nat → DiskM n Nat
  | 0 => pure 0
  | left + 1 => do
    let ad ← adaptor a
    if ad.openedDiskWriterEntries = [] then pure (left + 1)
    else do
      let index ← getRandomNumber ad.openedDiskWriterEntries.length
      modifyAdaptor a (·.closeAt index)
      closeSome a left

/-- `MultiDiskAdaptor::tryCloseFile`. -/
def tryCloseFile (a : Fin n) (numClose : Nat) : DiskM n Nat := do
  let left ← closeSome a numClose
  pure (numClose - left)

/-- A loop of `ensureMaxOpenFileLimit` over groups. -/
def closeGroups : List (Option (Fin n)) → Nat → DiskM n Nat
  | [], left => pure left
  | group :: groups, left =>
    if left = 0 then pure left
    else match group with
      | none => closeGroups groups left
      | some a => do
        let closed ← tryCloseFile a left
        closeGroups groups (left - closed)

/-- `OpenedFileCounter::ensureMaxOpenFileLimit`. -/
def ensureMaxOpenFileLimit (numNewFiles : Nat) : DiskM n PUnit := do
  let w ← get
  match w.counter.rgman with
  | none => pure ⟨⟩
  | some groups =>
    if w.counter.numOpenFiles + numNewFiles ≤ w.counter.maxOpenFiles then
      modifyCounter fun c => { c with numOpenFiles := c.numOpenFiles + numNewFiles }
    else do
      Program.assert (numNewFiles ≤ w.counter.maxOpenFiles)
      let numClose := w.counter.numOpenFiles + numNewFiles - w.counter.maxOpenFiles
      let mark ← getRandomNumber groups.length
      let left ← closeGroups (groups.drop mark) numClose
      let left ← closeGroups (groups.take mark) left
      Program.assert (left = 0)
      modifyCounter fun c => { c with numOpenFiles := c.numOpenFiles + numNewFiles - numClose }

/-- `OpenedFileCounter::reduceNumOfOpenedFile`. -/
def reduceNumOfOpenedFile (numCloseFiles : Nat) : DiskM n PUnit := do
  let w ← get
  if w.counter.rgman.isNone then pure ⟨⟩
  else do
    Program.assert (numCloseFiles ≤ w.counter.numOpenFiles)
    modifyCounter fun c => { c with numOpenFiles := c.numOpenFiles - numCloseFiles }

section Rules

open Program

variable {w : World n} {a : Fin n} {α : Type} {Q : Except Thrown α → World n → Prop}

theorem WF.adaptor_bind {f : Adaptor → DiskM n α} (h : WF w (f (w.adaptors a)) Q) :
    WF w (adaptor a >>= f) Q := h

theorem WF.modifyAdaptor_bind {g : Adaptor → Adaptor} {f : PUnit → DiskM n α}
    (h : WF (w.setAdaptor a (g (w.adaptors a))) (f ⟨⟩) Q) : WF w (modifyAdaptor a g >>= f) Q := h

theorem WF.getRandomNumber_bind {bound : Nat} {f : Nat → DiskM n α}
    (h : ∀ i < bound, WF w.drawn (f i) Q) : WF w (getRandomNumber bound >>= f) Q := by
  unfold getRandomNumber
  rw [bind_assoc]
  refine .assert_bind fun hpos => ?_
  exact h (w.outside.random 0 % bound) (Nat.mod_lt _ hpos)

/-- What closing files at random keeps: `I left` holds while `left` files are still to be closed. -/
structure Closing (I : Nat → World n → Prop) : Prop where
  drawn : ∀ {left w}, I left w → I left w.drawn
  closeAt : ∀ {left w a index}, I (left + 1) w →
    index < (w.adaptors a).openedDiskWriterEntries.length →
    I left (w.setAdaptor a ((w.adaptors a).closeAt index))

variable {I : Nat → World n → Prop} {left : Nat}

theorem Closing.closeSome (hI : Closing I) (a : Fin n) (h : I left w) :
    WF w (closeSome a left) fun r w' => ∃ k ≤ left, r = .ok k ∧ I k w' := by
  induction left generalizing w with
  | zero => exact .pure ⟨0, le_rfl, rfl, h⟩
  | succ left ih =>
    refine WF.adaptor_bind ?_
    split
    next => exact .pure ⟨left + 1, le_rfl, rfl, h⟩
    next hne =>
      refine WF.getRandomNumber_bind fun index hindex => WF.modifyAdaptor_bind ?_
      refine (ih (hI.closeAt (hI.drawn h) hindex)).mono ?_
      rintro r w' ⟨k, hk, hr, hw⟩
      exact ⟨k, Nat.le_succ_of_le hk, hr, hw⟩

/-- `tryCloseFile` says how many files it has closed. -/
theorem Closing.tryCloseFile (hI : Closing I) (a : Fin n) (h : I left w) :
    WF w (tryCloseFile a left) fun r w' => ∃ k ≤ left, r = .ok (left - k) ∧ I k w' := by
  refine (hI.closeSome a h).bind ?_ ?_
  · rintro k w' ⟨k', hk, hr, hw⟩
    cases hr
    exact .pure ⟨k, hk, rfl, hw⟩
  · rintro e w' ⟨k, -, hr, -⟩
    exact nomatch hr

theorem Closing.closeGroups (hI : Closing I) (groups : List (Option (Fin n))) (h : I left w) :
    WF w (closeGroups groups left) fun r w' => ∃ k ≤ left, r = .ok k ∧ I k w' := by
  induction groups generalizing w left with
  | nil => exact .pure ⟨left, le_rfl, rfl, h⟩
  | cons group groups ih =>
    unfold Disk.closeGroups
    split
    next => exact .pure ⟨left, le_rfl, rfl, h⟩
    next =>
      cases group with
      | none => exact ih h
      | some a =>
        refine (hI.tryCloseFile a h).bind ?_ ?_
        · rintro c w' ⟨k, hk, hr, hw⟩
          cases hr
          rw [Nat.sub_sub_self hk]
          refine (ih hw).mono ?_
          rintro r w'' ⟨k', hk', hr, hw'⟩
          exact ⟨k', hk'.trans hk, hr, hw'⟩
        · rintro e w' ⟨k, -, hr, -⟩
          exact nomatch hr

/-- Where the limit leaves no room, as many files are closed as are missing before the new ones are
counted. -/
theorem Closing.ensureMaxOpenFileLimit (hI : Closing I) {numNewFiles : Nat}
    {R : World n → Prop} (hrgman : w.counter.rgman = none → R w)
    (hroom : w.counter.numOpenFiles + numNewFiles ≤ w.counter.maxOpenFiles →
      R { w with counter.numOpenFiles := w.counter.numOpenFiles + numNewFiles })
    (hclose : ∀ numClose, 0 < numClose → w.counter.numOpenFiles + numNewFiles =
        w.counter.maxOpenFiles + numClose → numNewFiles ≤ w.counter.maxOpenFiles →
      I numClose w ∧ ∀ w', I 0 w' → R { w' with
        counter.numOpenFiles := w'.counter.numOpenFiles + numNewFiles - numClose }) :
    WF w (ensureMaxOpenFileLimit numNewFiles) fun r w' => r = .ok ⟨⟩ ∧ R w' := by
  refine .get_bind ?_
  split
  next h => exact .pure ⟨rfl, hrgman h⟩
  next groups h =>
    split
    next hle => exact .modify ⟨rfl, hroom hle⟩
    next hlt =>
      refine .assert_bind fun hmax => ?_
      obtain ⟨hw, hR⟩ := hclose (w.counter.numOpenFiles + numNewFiles - w.counter.maxOpenFiles)
        (by omega) (by omega) hmax
      refine WF.getRandomNumber_bind fun mark _ => ?_
      refine (hI.closeGroups (groups.drop mark) (hI.drawn hw)).bind ?_ ?_
      · rintro left w₁ ⟨k, -, hr, hw₁⟩
        cases hr
        refine (hI.closeGroups (groups.take mark) hw₁).bind ?_ ?_
        · rintro left' w₂ ⟨k', -, hr, hw₂⟩
          cases hr
          refine .assert_bind fun hzero => .modify ⟨rfl, hR _ ?_⟩
          exact hzero ▸ hw₂
        · rintro e w' ⟨k, -, hr, -⟩
          exact nomatch hr
      · rintro e w' ⟨k, -, hr, -⟩
        exact nomatch hr

end Rules

end FluxCore.Disk
