import FluxCore.Disk.Frames
import FluxCore.Lib.Run
import Mathlib.Algebra.GroupWithZero.Nat

/-!
# The budget of open files

The counter and the lists of opened entries agree as long as every file that is opened has a
`DiskWriter` and opening it succeeds: the counter is raised before a file is opened, and an entry is
listed whether or not its file has been opened.
-/

namespace FluxCore.Disk

open Program

variable {n : Nat} {strict : Prop}

namespace Adaptor

variable {ad : Adaptor}

/-- The list of opened entries is exactly that of the entries with an open file, which are marked as
open; where `strict` holds the entries marked as open are no others. -/
structure Listed (strict : Prop) (ad : Adaptor) : Prop where
  nodup : ad.openedDiskWriterEntries.Nodup
  mem_iff : ∀ i, i ∈ ad.openedDiskWriterEntries ↔ (ad.entry i).FileOpen
  isOpen : ∀ i, (ad.entry i).FileOpen → (ad.entry i).isOpen = true
  fileOpen : strict → ∀ i, (ad.entry i).isOpen = true → (ad.entry i).FileOpen

end Adaptor

/-- Taking an element out by putting the last one in its place. -/
theorem perm_set_getLastD {l : List Nat} {i : Nat} (hi : i < l.length) :
    (l.getD i 0 :: (l.set i (l.getLastD 0)).dropLast).Perm l := by
  obtain ⟨front, last, rfl⟩ :=
    l.eq_nil_or_concat.resolve_left (List.ne_nil_of_length_pos (by omega))
  rw [List.concat_eq_append, List.getLastD_concat]
  rw [List.concat_eq_append, List.length_append, List.length_singleton] at hi
  by_cases hlt : i < front.length
  · rw [List.set_append_left _ _ hlt, List.dropLast_concat, List.getD_append _ _ _ _ hlt]
    have hsplit := List.set_eq_take_append_cons_drop (l := front) (i := i) (a := last)
    rw [if_pos hlt] at hsplit
    have hfront : front = front.take i ++ front.getD i 0 :: front.drop (i + 1) := by
      rw [List.getD_eq_getElem _ _ hlt, List.cons_getElem_drop_succ, List.take_append_drop]
    rw [hsplit]
    conv_rhs => rw [hfront]
    refine (List.Perm.cons _ List.perm_middle).trans ?_
    refine ((List.Perm.swap ..).trans ?_)
    refine (List.Perm.cons _ List.perm_middle.symm).trans ?_
    exact (List.perm_append_singleton ..).symm
  · obtain rfl : i = front.length := by omega
    rw [List.set_append_right _ _ le_rfl, Nat.sub_self]
    simp only [List.set_cons_zero, List.dropLast_concat]
    rw [List.getD_append_right _ _ _ _ le_rfl, Nat.sub_self]
    exact (List.perm_append_singleton ..).symm

namespace Adaptor

variable {ad : Adaptor} {index : Nat}

theorem perm_closeAt (h : index < ad.openedDiskWriterEntries.length) :
    (ad.openedDiskWriterEntries.getD index 0 :: (ad.closeAt index).openedDiskWriterEntries).Perm
      ad.openedDiskWriterEntries :=
  perm_set_getLastD h

theorem length_closeAt (h : index < ad.openedDiskWriterEntries.length) :
    (ad.closeAt index).openedDiskWriterEntries.length + 1 = ad.openedDiskWriterEntries.length :=
  (perm_closeAt h).length_eq

theorem Listed.closeAt (h : ad.Listed strict) (hindex : index < ad.openedDiskWriterEntries.length) :
    (ad.closeAt index).Listed strict := by
  have hperm := perm_closeAt hindex
  have hnodup := hperm.nodup_iff.mpr h.nodup
  obtain ⟨hnot, hnodup⟩ := List.nodup_cons.mp hnodup
  generalize hx : ad.openedDiskWriterEntries.getD index 0 = x at hperm hnot
  have hmem : ∀ i, i = x ∨ i ∈ (ad.closeAt index).openedDiskWriterEntries ↔
      (ad.entry i).FileOpen := fun i => by
    rw [← h.mem_iff, ← List.mem_cons]
    exact hperm.mem_iff
  have hself : (ad.entry x).FileOpen := (hmem x).mp (.inl rfl)
  have hlt : x < ad.diskWriterEntries.length := by
    obtain ⟨d, hd, -⟩ := hself
    exact lt_of_isSome (Option.isSome_of_mem hd)
  have hentry : ∀ i, (ad.closeAt index).entry i =
      if x = i then (ad.entry i).closeFile else ad.entry i := fun i => by
    have := ad.entry_modifyEntry (ad.openedDiskWriterEntries.getD index 0) .closeFile i
    rw [hx] at this
    refine Eq.trans (b := (ad.modifyEntry x .closeFile).entry i) ?_ (this.trans ?_)
    · rw [← hx]
      rfl
    · by_cases hi : x = i
      · rw [if_pos ⟨hi, hi ▸ hlt⟩, if_pos hi]
      · rw [if_neg (fun h => hi h.1), if_neg hi]
  refine ⟨hnodup, fun i => ?_, fun i => ?_, fun hs i => ?_⟩ <;> rw [hentry] <;> split
  next hi =>
    subst hi
    exact iff_of_false hnot (DiskWriterEntry.not_fileOpen_closeFile (h.isOpen _))
  next hi => exact ⟨fun hm => (hmem i).mp (.inr hm), fun ho => ((hmem i).mpr ho).resolve_left
    (Ne.symm hi)⟩
  next hi => exact fun ho => absurd ho (DiskWriterEntry.not_fileOpen_closeFile (h.isOpen _))
  next hi => exact h.isOpen i
  next hi =>
    unfold DiskWriterEntry.closeFile
    split
    · nofun
    next hnot => exact fun ho => absurd ho hnot
  next hi => exact h.fileOpen hs i

end Adaptor

namespace World

variable {w w' : World n}

/-- The counter and the lists agree. -/
structure Managed (strict : Prop) (w : World n) : Prop where
  rgman : w.counter.rgman ≠ none
  numOpenFiles : w.counter.numOpenFiles = w.opened
  limit : w.counter.numOpenFiles ≤ w.counter.maxOpenFiles
  listed : ∀ a, (w.adaptors a).Listed strict

theorem listed_setAdaptor (h : ∀ a, (w.adaptors a).Listed strict) {a : Fin n} {ad : Adaptor}
    (had : ad.Listed strict) (b : Fin n) : ((w.setAdaptor a ad).adaptors b).Listed strict := by
  by_cases hb : b = a
  · subst hb
    rwa [adaptors_setAdaptor_self]
  · rw [w.adaptors_setAdaptor_of_ne ad hb]
    exact h b

/-- While files are closed the counter waits, and the lists shrink. -/
theorem closing (strict : Prop) (w₀ : World n) (total : Nat) : Closing fun left w =>
    (∀ a, (w.adaptors a).Listed strict) ∧ w.counter = w₀.counter ∧ w₀.Closes w ∧
      w.opened = total + left where
  drawn := fun ⟨hl, hc, hs, ht⟩ =>
    ⟨hl, hc, ⟨⟨hs.steady.adaptors, hs.steady.opens⟩, hs.bytes, hs.isOpen⟩, ht⟩
  closeAt {left w a index} := fun ⟨hl, hc, hs, ht⟩ hindex => by
    refine ⟨listed_setAdaptor hl ((hl a).closeAt hindex), hc, hs.closeAt a index, ?_⟩
    have hsum := w.opened_setAdaptor a ((w.adaptors a).closeAt index)
    have hlen := Adaptor.length_closeAt hindex
    omega

/-- Room is made for one file, which is counted but not listed yet. -/
theorem Managed.ensureMaxOpenFileLimit (h : w.Managed strict) :
    WF w (ensureMaxOpenFileLimit 1) fun r w' => r = .ok ⟨⟩ ∧ w'.counter.rgman ≠ none ∧
      w'.counter.numOpenFiles = w'.opened + 1 ∧ w'.counter.numOpenFiles ≤ w'.counter.maxOpenFiles ∧
      (∀ a, (w'.adaptors a).Listed strict) ∧ w.Closes w' := by
  have hnum := h.numOpenFiles
  have hlimit := h.limit
  refine (closing strict w (w.opened - 1)).ensureMaxOpenFileLimit
    (fun hnone => absurd hnone h.rgman)
    (fun hroom => ⟨h.rgman, congrArg (· + 1) hnum, hroom, h.listed, ⟨⟨fun _ => .refl _, rfl⟩,
      fun _ _ => rfl, fun _ _ => id⟩⟩) ?_
  intro numClose hpos hclose hmax
  obtain rfl : numClose = 1 := by omega
  refine ⟨⟨h.listed, rfl, .refl w, by omega⟩, ?_⟩
  rintro w' ⟨hl, hc, hs, ht⟩
  refine ⟨?_, ?_, ?_, hl, ⟨⟨hs.steady.adaptors, hs.steady.opens⟩, hs.bytes, hs.isOpen⟩⟩
  · rw [hc]
    exact h.rgman
  · change w'.counter.numOpenFiles + 1 - 1 = w'.opened + 1
    rw [hc, ht]
    omega
  · change w'.counter.numOpenFiles + 1 - 1 ≤ w'.counter.maxOpenFiles
    rw [hc]
    omega

end World

namespace Adaptor

variable {ad : Adaptor} {i : Nat} {how : Opening}

theorem Listed.opened (h : ad.Listed strict) (hsome : (ad.entry i).diskWriter.isSome = true)
    (hopen : (ad.entry i).isOpen = false) (how : Opening) :
    ((ad.openedAt i how).list i).Listed strict := by
  have hnot : i ∉ ad.openedDiskWriterEntries := fun hm => by
    rw [h.isOpen i ((h.mem_iff i).mp hm)] at hopen
    exact nomatch hopen
  have hself := entry_openedAt_self how (lt_of_isSome hsome)
  have hfile : ((ad.openedAt i how).entry i).FileOpen := by
    rw [hself]
    exact DiskWriterEntry.fileOpen_opened hsome
  refine ⟨?_, fun j => ?_, fun j hj => ?_, fun hs j hj => ?_⟩
  · exact List.nodup_append.mpr ⟨h.nodup, List.nodup_singleton i, fun x hx y hy => by
      rw [List.mem_singleton.mp hy]
      exact fun heq => hnot (heq ▸ hx)⟩
  · change j ∈ ad.openedDiskWriterEntries ++ [i] ↔ ((ad.openedAt i how).entry j).FileOpen
    rw [List.mem_append, List.mem_singleton]
    by_cases hj : i = j
    · exact iff_of_true (.inr hj.symm) (hj ▸ hfile)
    · rw [entry_openedAt ad i how j hj, ← h.mem_iff, or_iff_left (Ne.symm hj)]
  · change ((ad.openedAt i how).entry j).FileOpen at hj
    change ((ad.openedAt i how).entry j).isOpen = true
    by_cases hij : i = j
    · subst hij
      rw [hself]
      rfl
    · rw [entry_openedAt ad i how j hij] at hj ⊢
      exact h.isOpen j hj
  · change ((ad.openedAt i how).entry j).isOpen = true at hj
    change ((ad.openedAt i how).entry j).FileOpen
    by_cases hij : i = j
    · exact hij ▸ hfile
    · rw [entry_openedAt ad i how j hij] at hj ⊢
      exact h.fileOpen hs j hj

end Adaptor

section Opening

variable {w : World n} {a : Fin n} {i : Nat} {how : Opening}

/-- The entry has a `DiskWriter`, and its file can be opened. -/
def World.Accessible (w : World n) (a : Fin n) (i : Nat) : Prop :=
  ((w.adaptors a).entry i).diskWriter.isSome = true ∧ w.outside.opens a i = true

theorem World.Steady.accessible {w' : World n} (h : w.Steady w') :
    w'.Accessible a i ↔ w.Accessible a i := by
  rw [World.Accessible, World.Accessible, (h.adaptors a).isSome i, h.opens]

/-- A file that can be opened is counted and listed, once. -/
theorem World.Managed.openIfNot (h : w.Managed strict) (hacc : w.Accessible a i) :
    WF w (openIfNot a i how) fun r w' => r = .ok ⟨⟩ ∧ w'.Managed strict ∧ w.Steady w' ∧
      (how = .openFile → w.SameBytes w') := by
  refine WF.adaptor_bind ?_
  split
  next => exact .pure ⟨rfl, h, .refl w, fun _ => .refl w⟩
  next hopen =>
    refine (h.ensureMaxOpenFileLimit).bind ?_ fun e w' h => nomatch h.1
    rintro _ w₁ ⟨-, hrgman, hnum, hlimit, hlisted, hcloses⟩
    obtain ⟨hsome, ho⟩ := hcloses.steady.accessible.mpr hacc
    have hclosed : ((w₁.adaptors a).entry i).isOpen = false :=
      Bool.eq_false_iff.mpr fun h => hopen (hcloses.isOpen a i h)
    refine WF.bind (Q := fun r w₂ => r = .ok ⟨⟩ ∧
      w₂ = w₁.setAdaptor a ((w₁.adaptors a).openedAt i how)) ?_ ?_ fun e w' h => nomatch h.1
    · intro r w₂ hr
      rw [exec_openEntry, if_pos hsome, if_pos ho] at hr
      cases hr
      exact ⟨rfl, rfl⟩
    · rintro _ w₂ ⟨-, rfl⟩
      refine .modify ?_
      rw [World.adaptors_setAdaptor_self, World.setAdaptor_setAdaptor]
      have hsum := w₁.opened_setAdaptor a (((w₁.adaptors a).openedAt i how).list i)
      have hlen : (((w₁.adaptors a).openedAt i how).list i).openedDiskWriterEntries.length =
          (w₁.adaptors a).openedDiskWriterEntries.length + 1 := List.length_append
      refine ⟨rfl, ⟨hrgman, ?_, hlimit, World.listed_setAdaptor hlisted
        ((hlisted a).opened hsome hclosed how)⟩, hcloses.steady.trans (.setAdaptor
          ((Adaptor.Steady.openedAt _ i how).trans (.list _ i))), fun hhow => ?_⟩
      · change w₁.counter.numOpenFiles =
          (w₁.setAdaptor a (((w₁.adaptors a).openedAt i how).list i)).opened
        omega
      · exact hcloses.bytes.trans (.setAdaptor (Adaptor.bytes_openedAt hhow))

end Opening

theorem World.Draws.managed {w w' : World n} (h : w.Draws w') (hm : w.Managed strict) :
    w'.Managed strict := by
  obtain ⟨hc, ha, -⟩ := h
  refine ⟨hc ▸ hm.rgman, ?_, hc ▸ hm.limit, ha ▸ hm.listed⟩
  rw [hc, hm.numOpenFiles, World.opened, World.opened, ha]

section Accesses

variable {w w' : World n} {a : Fin n} {i : Nat}

theorem World.Managed.openOrThrow (h : w.Managed strict) (hacc : w.Accessible a i) (offset : Nat) :
    WF w (openOrThrow a i offset) fun _ w' =>
      w'.Managed strict ∧ w.Steady w' ∧ w.SameBytes w' := by
  refine (h.openIfNot hacc).bind ?_ fun e w' h => nomatch h.1
  rintro _ w₁ ⟨-, hm, hs, hb⟩
  refine WF.adaptor_bind ?_
  split
  next => exact .pure ⟨hm, hs, hb rfl⟩
  next => exact .throw ⟨hm, hs, hb rfl⟩

theorem World.Managed.setFile (h : w.Managed strict) (a : Fin n) (i : Nat) (f : File) :
    (w.setAdaptor a ((w.adaptors a).setFile i f)).Managed strict ∧
      w.Steady (w.setAdaptor a ((w.adaptors a).setFile i f)) := by
  have hsum := w.opened_setAdaptor a ((w.adaptors a).setFile i f)
  have hl := h.listed a
  refine ⟨⟨h.rgman, ?_, h.limit, World.listed_setAdaptor h.listed
    ⟨hl.nodup, hl.mem_iff, hl.isOpen, hl.fileOpen⟩⟩,
    .setAdaptor ⟨rfl, rfl, rfl, rfl, fun _ => rfl, fun _ => rfl⟩⟩
  exact h.numOpenFiles.trans (Nat.add_right_cancel hsum).symm

theorem World.Managed.writeWriter (h : w.Managed strict) (data : List UInt8) (fileOffset : Nat) :
    WF w (writeWriter a i data fileOffset) fun _ w' => w'.Managed strict ∧ w.Steady w' := by
  refine WF.adaptor_bind ?_
  split
  next => exact .pure ⟨h, .refl w⟩
  next =>
    split
    next =>
      exact .modify (h.setFile ..)
    next => exact .throw ⟨h, .refl w⟩

theorem World.Managed.writeFrom (h : w.Managed strict) {count offset fileOffset : Nat}
    {data : List UInt8}
    (hacc : ∀ p ∈ (w.adaptors a).span count i data.length fileOffset, w.Accessible a p.entry) :
    WF w (writeFrom a count i offset data fileOffset) fun _ w' =>
      w'.Managed strict ∧ w.Steady w' := by
  induction count generalizing w i offset data fileOffset with
  | zero => exact .pure ⟨h, .refl w⟩
  | succ count ih =>
    rw [Adaptor.span] at hacc
    refine WF.adaptor_bind ?_
    dsimp only at hacc ⊢
    generalize calculateLength ((w.adaptors a).entry i) fileOffset data.length = len at hacc ⊢
    refine (h.openOrThrow (hacc _ (List.mem_cons_self ..)) offset).bind ?_
      fun e w' h => ⟨h.1, h.2.1⟩
    rintro _ w₁ ⟨hm₁, hs₁, -⟩
    refine (hm₁.writeWriter (data.take len) fileOffset).bind ?_ fun e w' h => ⟨h.1, hs₁.trans h.2⟩
    rintro _ w₂ ⟨hm₂, hs₂⟩
    have hs := hs₁.trans hs₂
    split
    next => exact .pure ⟨hm₂, hs⟩
    next hne =>
      have hrem : data.length - len ≠ 0 := by
        rw [← List.length_drop]
        exact mt List.eq_nil_of_length_eq_zero hne
      rw [if_neg hrem] at hacc
      refine (ih hm₂ fun p hp => ?_).mono fun r w' h => ⟨h.1, hs.trans h.2⟩
      rw [(hs.adaptors a).span, List.length_drop] at hp
      exact hs.accessible.mpr (hacc p (List.mem_cons_of_mem _ hp))

theorem World.Managed.readFrom (h : w.Managed strict) {count offset rem fileOffset : Nat}
    (hacc : ∀ j ∈ (w.adaptors a).reached ((w.adaptors a).span count i rem fileOffset),
      w.Accessible a j) :
    WF w (readFrom a count i offset rem fileOffset) fun _ w' =>
      w'.Managed strict ∧ w.Steady w' := by
  induction count generalizing w i offset rem fileOffset with
  | zero => exact .pure ⟨h, .refl w⟩
  | succ count ih =>
    rw [Adaptor.span] at hacc
    refine WF.adaptor_bind ?_
    dsimp only at hacc ⊢
    generalize calculateLength ((w.adaptors a).entry i) fileOffset rem = len at hacc ⊢
    rw [Adaptor.reached] at hacc
    refine (h.openOrThrow (hacc _ (List.mem_cons_self ..)) offset).bind ?_
      fun e w' h => ⟨h.1, h.2.1⟩
    rintro _ w₁ ⟨hm₁, hs₁, hb₁⟩
    refine (WF_readFully w₁ a i fileOffset le_rfl).bind ?_
      fun e w' h => ⟨h.1.managed hm₁, hs₁.trans h.1.steady⟩
    rintro bytes w₂ ⟨hd, ⟨hr, -⟩ | ⟨eof, hr, heof⟩⟩
    · cases hr
    cases hr
    have hm₂ := hd.managed hm₁
    have hs := hs₁.trans hd.steady
    split
    next => exact .pure ⟨hm₂, hs⟩
    next hmore =>
      obtain ⟨hgo, hrem⟩ := not_or.mp (Bool.or_eq_true .. ▸ hmore)
      have hfull := mt heof.mpr hgo
      rw [hb₁.file] at hfull
      dsimp only at hacc
      rw [if_neg (show ¬((((w.adaptors a).disk i).getD []).length < _ ∧ _) from hfull),
        if_neg (by simpa using hrem)] at hacc
      have hdisk := hb₁.trans hd.sameBytes
      refine (ih hm₂ fun j hj => ?_).bind (fun rest w' h => .pure ⟨h.1, hs.trans h.2⟩)
        fun e w' h => ⟨h.1, hs.trans h.2⟩
      rw [(hs.adaptors a).span, Adaptor.reached_congr (hdisk a)] at hj
      exact hs.accessible.mpr (hacc j (List.mem_cons_of_mem _ hj))

theorem World.Managed.writeData (h : w.Managed strict) {data : List UInt8} {offset : Nat}
    (hacc : ∀ p ∈ (w.adaptors a).parts offset data.length, w.Accessible a p.entry) :
    WF w (writeData a data offset) fun _ w' => w'.Managed strict ∧ w.Steady w' := by
  refine WF.findFirst_bind (fun hin => WF.adaptor_bind ?_) fun _ => ⟨h, .refl w⟩
  unfold Adaptor.parts at hacc
  dsimp only at hacc
  rw [if_pos hin] at hacc
  exact h.writeFrom hacc

theorem World.Managed.readData (h : w.Managed strict) {length offset : Nat}
    (hacc : ∀ j ∈ (w.adaptors a).reached ((w.adaptors a).parts offset length),
      w.Accessible a j) :
    WF w (readData a length offset) fun _ w' => w'.Managed strict ∧ w.Steady w' := by
  refine WF.findFirst_bind (fun hin => WF.adaptor_bind ?_) fun _ => ⟨h, .refl w⟩
  unfold Adaptor.parts at hacc
  dsimp only at hacc
  rw [if_pos hin] at hacc
  exact h.readFrom hacc

theorem World.Managed.writeRuns (h : w.Managed strict) {rs : List (Nat × List UInt8)}
    (hacc : ∀ r ∈ rs, ∀ p ∈ (w.adaptors a).parts r.1 r.2.length, w.Accessible a p.entry) :
    WF w (writeRuns a rs) fun _ w' => w'.Managed strict ∧ w.Steady w' := by
  induction rs generalizing w with
  | nil => exact .pure ⟨h, .refl w⟩
  | cons r rs ih =>
    refine (h.writeData (hacc r (List.mem_cons_self ..))).bind ?_ fun _ _ h => h
    rintro _ w₁ ⟨hm, hs⟩
    refine (ih hm fun r' hr' p hp => ?_).mono fun _ w' h => ⟨h.1, hs.trans h.2⟩
    rw [(hs.adaptors a).parts] at hp
    exact hs.accessible.mpr (hacc r' (List.mem_cons_of_mem _ hr') p hp)

theorem World.Managed.openAll (h : w.Managed strict) {how : Opening} {is : List Nat}
    (hacc : ∀ i ∈ is, w.Accessible a i) :
    WF w (openAll a how is) fun _ w' => w'.Managed strict := by
  induction is generalizing w with
  | nil => exact .pure h
  | cons i is ih =>
    refine (h.openIfNot (hacc i (List.mem_cons_self ..))).bind ?_ fun _ _ h => h.2.1
    rintro _ w₁ ⟨-, hm, hs, -⟩
    exact ih hm fun j hj => hs.accessible.mpr (hacc j (List.mem_cons_of_mem _ hj))

end Accesses

section Resetting

theorem fresh_checkForward {pieceLength lastOffset : Nat} {es : List DiskWriterEntry}
    (h : ∀ e ∈ es, e.diskWriter = none ∧ e.isOpen = false) :
    ∀ e ∈ checkForward pieceLength lastOffset es, e.diskWriter = none ∧ e.isOpen = false := by
  induction es generalizing lastOffset with
  | nil => exact h
  | cons e es ih =>
    obtain ⟨he, hes⟩ := List.forall_mem_cons.mp h
    unfold checkForward
    split
    · exact List.forall_mem_cons.mpr ⟨he, ih hes⟩
    · split <;> exact List.forall_mem_cons.mpr ⟨he, ih hes⟩

theorem fresh_checkBackward {pieceLength lastOffset : Nat} {es : List DiskWriterEntry}
    (h : ∀ e ∈ es, e.diskWriter = none ∧ e.isOpen = false) :
    ∀ e ∈ checkBackward pieceLength lastOffset es, e.diskWriter = none ∧ e.isOpen = false := by
  induction es generalizing lastOffset with
  | nil => exact h
  | cons e es ih =>
    obtain ⟨he, hes⟩ := List.forall_mem_cons.mp h
    unfold checkBackward
    split
    · exact List.forall_mem_cons.mpr ⟨he, ih hes⟩
    · split <;> exact List.forall_mem_cons.mpr ⟨he, ih hes⟩

theorem fresh_markEntries (pieceLength : Nat) (fileEntries : List FileEntry) :
    ∀ e ∈ markEntries pieceLength fileEntries, e.diskWriter = none ∧ e.isOpen = false := by
  have hcreate : ∀ e ∈ fileEntries.map DiskWriterEntry.create,
      e.diskWriter = none ∧ e.isOpen = false := fun e he => by
    obtain ⟨f, -, rfl⟩ := List.mem_map.mp he
    exact ⟨rfl, rfl⟩
  unfold markEntries
  dsimp only
  split
  · intro e he
    refine fresh_checkBackward (fun e he => ?_) e (List.mem_reverse.mp he)
    exact fresh_checkForward hcreate e (List.mem_reverse.mp he)
  · exact hcreate

/-- No entry is open after a reset. -/
theorem Adaptor.entry_reset (ad : Adaptor) (i : Nat) :
    ¬(ad.reset.entry i).FileOpen ∧ (ad.reset.entry i).isOpen = false := by
  by_cases hi : i < ad.reset.diskWriterEntries.length
  · have hentry : ad.reset.entry i = ad.reset.diskWriterEntries[i] := by
      rw [Adaptor.entry, List.getD_eq_getElem _ _ hi]
    obtain ⟨hnone, hopen⟩ := fresh_markEntries ad.pieceLength ad.fileEntries
      _ (List.getElem_mem (by simpa [reset, freshEntries] using hi : i < _))
    rw [hentry]
    simp only [reset, freshEntries, List.getElem_mapIdx]
    unfold equip
    split
    · refine ⟨?_, hopen⟩
      rintro ⟨d, hd, hfd⟩
      cases hd
      exact hfd rfl
    · refine ⟨?_, hopen⟩
      rintro ⟨d, hd, -⟩
      rw [hnone] at hd
      cases hd
  · rw [Adaptor.entry_eq_create (Nat.le_of_not_lt hi)]
    refine ⟨?_, rfl⟩
    rintro ⟨d, hd, -⟩
    cases hd

variable {w : World n} {a : Fin n}

/-- A reset keeps the agreement: nothing is open before it or after it. -/
theorem World.Managed.reset (h : w.Managed strict)
    (hnil : (w.adaptors a).openedDiskWriterEntries = []) :
    (w.setAdaptor a (w.adaptors a).reset).Managed strict := by
  have hsum := w.opened_setAdaptor a (w.adaptors a).reset
  refine ⟨h.rgman, h.numOpenFiles.trans (Nat.add_right_cancel hsum).symm, h.limit,
    World.listed_setAdaptor h.listed ⟨(h.listed a).nodup, fun i => ?_, fun i hi => ?_,
      fun _ i hi => ?_⟩⟩
  · refine iff_of_false ?_ ((w.adaptors a).entry_reset i).1
    change i ∉ (w.adaptors a).openedDiskWriterEntries
    rw [hnil]
    exact List.not_mem_nil
  · exact absurd hi ((w.adaptors a).entry_reset i).1
  · rw [((w.adaptors a).entry_reset i).2] at hi
    exact nomatch hi

/-- Where every entry gets a `DiskWriter` and every file can be opened, all are opened. -/
theorem World.Managed.openFiles (h : w.Managed strict) {how : Opening}
    (hacc : ∀ i < (w.adaptors a).reset.diskWriterEntries.length,
      (w.setAdaptor a (w.adaptors a).reset).Accessible a i) :
    WF w (openFiles a how) fun _ w' => w'.Managed strict := by
  unfold Disk.openFiles resetDiskWriterEntries
  rw [bind_assoc]
  refine WF.adaptor_bind ?_
  rw [bind_assoc]
  refine .assert_bind fun hnil => WF.modifyAdaptor_bind (WF.adaptor_bind ?_)
  rw [adaptors_setAdaptor_self]
  exact (h.reset hnil).openAll fun i hi => hacc i (List.mem_range.mp hi)

theorem World.Managed.openExistingFile (h : w.Managed strict) :
    WF w (openExistingFile a) fun _ w' => w'.Managed strict :=
  WF.adaptor_bind (.assert_bind fun hnil => .modify (h.reset hnil))

theorem Adaptor.entry_closeOpened (ad : Adaptor) (i : Nat) : ad.closeOpened.entry i =
    if i ∈ ad.openedDiskWriterEntries then (ad.entry i).closeWriter else ad.entry i := by
  by_cases hi : i < ad.diskWriterEntries.length
  · rw [entry, entry, List.getD_eq_getElem _ _ hi,
      List.getD_eq_getElem _ _ (by simpa [closeOpened] using hi)]
    simp only [closeOpened, List.getElem_mapIdx]
  · rw [entry_eq_create (Nat.le_of_not_lt hi),
      entry_eq_create (by simpa [closeOpened] using hi)]
    split <;> rfl

/-- Closing an adaptor's files leaves their entries marked as open. -/
theorem World.Managed.closeFile (h : w.Managed strict)
    (hmarks : strict → (w.adaptors a).openedDiskWriterEntries = []) :
    WF w (closeFile a) fun _ w' => w'.Managed strict := by
  refine WF.adaptor_bind (WF.modifyAdaptor_bind ?_)
  unfold reduceNumOfOpenedFile
  rw [bind_assoc]
  refine .get_bind ?_
  rw [counter_setAdaptor, if_neg (by simpa using h.rgman), bind_assoc]
  refine .assert_bind fun hle => .modify_bind (.modify ?_)
  have hl := h.listed a
  have hnot : ∀ i, ¬((w.adaptors a).closeOpened.entry i).FileOpen := fun i => by
    rw [Adaptor.entry_closeOpened]
    split
    next => exact DiskWriterEntry.not_fileOpen_closeWriter _
    next hi => exact fun ho => hi ((hl.mem_iff i).mpr ho)
  have hlisted : (w.adaptors a).closeOpened.clearOpened.Listed strict := by
    refine ⟨List.nodup_nil, fun i => iff_of_false List.not_mem_nil (hnot i),
      fun i ho => absurd ho (hnot i), fun hs i hi => ?_⟩
    change ((w.adaptors a).closeOpened.entry i).isOpen = true at hi
    rw [Adaptor.entry_closeOpened, hmarks hs, if_neg List.not_mem_nil] at hi
    refine absurd (hl.fileOpen hs i hi) fun ho => ?_
    rw [← hl.mem_iff, hmarks hs] at ho
    exact List.not_mem_nil ho
  let w₁ : World n := { w with
    counter.numOpenFiles := w.counter.numOpenFiles - (w.adaptors a).openedDiskWriterEntries.length }
  have hsum : (w₁.setAdaptor a (w.adaptors a).closeOpened.clearOpened).opened +
      (w.adaptors a).openedDiskWriterEntries.length = w.opened + 0 :=
    w₁.opened_setAdaptor a (w.adaptors a).closeOpened.clearOpened
  change ((w₁.setAdaptor a (w.adaptors a).closeOpened).setAdaptor a
    ((w₁.setAdaptor a (w.adaptors a).closeOpened).adaptors a).clearOpened).Managed strict
  rw [adaptors_setAdaptor_self, setAdaptor_setAdaptor]
  have hnum := h.numOpenFiles
  refine ⟨h.rgman, ?_, ?_, listed_setAdaptor (w := w₁) h.listed hlisted⟩
  · change w.counter.numOpenFiles - (w.adaptors a).openedDiskWriterEntries.length =
      (w₁.setAdaptor a (w.adaptors a).closeOpened.clearOpened).opened
    omega
  · exact (Nat.sub_le ..).trans h.limit

/-- Nothing is closed where nothing is to be closed, or nothing is open. -/
theorem World.Managed.tryCloseFile (h : w.Managed strict) {numClose : Nat}
    (hnone : numClose = 0 ∨ (w.adaptors a).openedDiskWriterEntries = []) :
    WF w (tryCloseFile a numClose) fun _ w' => w'.Managed strict := by
  have hsome : WF w (closeSome a numClose) fun _ w' => w'.Managed strict := by
    cases numClose with
    | zero => exact .pure h
    | succ numClose =>
      refine WF.adaptor_bind ?_
      rw [if_pos (hnone.resolve_left (Nat.succ_ne_zero _))]
      exact .pure h
  exact hsome.bind (fun _ _ h => .pure h) fun _ _ h => h

end Resetting

section Budget

/-- Every file that the call opens has a `DiskWriter` and can be opened, and the call does not close
files behind the counter's back. -/
def Call.Opens (w : World n) : Call n → Prop
  | .readData a length offset =>
    ∀ i ∈ (w.adaptors a).reached ((w.adaptors a).parts offset length), w.Accessible a i
  | .writeData a data offset =>
    ∀ p ∈ (w.adaptors a).parts offset data.length, w.Accessible a p.entry
  | .writeCache a set =>
    ∀ r ∈ runs set.cells, ∀ p ∈ (w.adaptors a).parts r.1 r.2.length, w.Accessible a p.entry
  | .openFile a | .initAndOpenFile a =>
    ∀ i < (w.adaptors a).reset.diskWriterEntries.length,
      (w.setAdaptor a (w.adaptors a).reset).Accessible a i
  | .openExistingFile _ | .closeFile _ => True
  | .tryCloseFile a numClose => numClose = 0 ∨ (w.adaptors a).openedDiskWriterEntries = []

/-- The call does not close files whose entries stay marked as open. -/
def Call.KeepsMarks (w : World n) : Call n → Prop
  | .closeFile a => (w.adaptors a).openedDiskWriterEntries = []
  | _ => True

instance (w : World n) (a : Fin n) (i : Nat) : Decidable (w.Accessible a i) :=
  inferInstanceAs (Decidable (_ ∧ _))

instance (w : World n) : DecidablePred (Call.Opens w)
  | .readData .. | .writeData .. | .writeCache .. | .openFile _ | .initAndOpenFile _
  | .openExistingFile _ | .closeFile _ | .tryCloseFile .. => by
    unfold Call.Opens
    infer_instance

instance (w : World n) : DecidablePred (Call.KeepsMarks w)
  | .closeFile _ | .readData .. | .writeData .. | .writeCache .. | .openFile _ | .initAndOpenFile _
  | .openExistingFile _ | .tryCloseFile .. => by
    unfold Call.KeepsMarks
    infer_instance

/-- A condition on the calls of a run, each with the state it starts in. -/
def AtCall (P : World n → Call n → Prop) (s : Option (World n)) (e : Outside n × Call n) : Prop :=
  ∀ w ∈ s, P { w with outside := e.1 } e.2

/-- The counter before any file is opened. -/
structure World.Initial (w : World n) : Prop where
  rgman : w.counter.rgman ≠ none
  numOpenFiles : w.counter.numOpenFiles = 0
  entries : ∀ a, (w.adaptors a).diskWriterEntries = []
  opened : ∀ a, (w.adaptors a).openedDiskWriterEntries = []

/-- The budget is kept: the counter is the number of opened entries, the lists of them are those of
the open entries without duplicates, and the limit holds. -/
structure World.Budget (IsOpen : DiskWriterEntry → Prop) (w : World n) : Prop where
  sum : w.counter.numOpenFiles = ∑ a, (w.adaptors a).openedDiskWriterEntries.length
  nodup : ∀ a, (w.adaptors a).openedDiskWriterEntries.Nodup
  mem_iff : ∀ a i, i ∈ (w.adaptors a).openedDiskWriterEntries ↔
    i < (w.adaptors a).diskWriterEntries.length ∧ IsOpen ((w.adaptors a).entry i)
  limit : w.counter.numOpenFiles ≤ w.counter.maxOpenFiles

variable {w : World n}

theorem World.Initial.managed (h : w.Initial) : w.Managed strict := by
  have hentry : ∀ a i, (w.adaptors a).entry i = .create ⟨"", 0, 0, false⟩ := fun a i => by
    refine Adaptor.entry_eq_create ?_
    rw [h.entries]
    exact Nat.zero_le _
  refine ⟨h.rgman, ?_, ?_, fun a => ⟨?_, fun i => ?_, fun i => ?_, fun _ i => ?_⟩⟩
  · rw [h.numOpenFiles, World.opened]
    simp [h.opened]
  · rw [h.numOpenFiles]
    exact Nat.zero_le _
  · rw [h.opened]
    exact List.nodup_nil
  all_goals rw [hentry]
  · rw [h.opened]
    refine iff_of_false List.not_mem_nil ?_
    rintro ⟨d, hd, -⟩
    exact nomatch hd
  · rintro ⟨d, hd, -⟩
    exact nomatch hd
  · exact nofun

theorem World.lt_of_fileOpen {a : Fin n} {i : Nat} (h : ((w.adaptors a).entry i).FileOpen) :
    i < (w.adaptors a).diskWriterEntries.length := by
  obtain ⟨d, hd, -⟩ := h
  exact Adaptor.lt_of_isSome (Option.isSome_of_mem hd)

theorem World.Managed.keepsBudget (h : w.Managed strict) : w.Budget DiskWriterEntry.FileOpen :=
  ⟨h.numOpenFiles, fun a => (h.listed a).nodup, fun a i => ((h.listed a).mem_iff i).trans
    ⟨fun ho => ⟨lt_of_fileOpen ho, ho⟩, And.right⟩, h.limit⟩

theorem World.Managed.keepsBudget_isOpen (h : w.Managed True) : w.Budget (·.isOpen = true) :=
  ⟨h.numOpenFiles, fun a => (h.listed a).nodup, fun a i => ((h.listed a).mem_iff i).trans
    ⟨fun ho => ⟨lt_of_fileOpen ho, (h.listed a).isOpen i ho⟩,
      fun hi => (h.listed a).fileOpen trivial i hi.2⟩, h.limit⟩

theorem World.Managed.call (h : w.Managed strict) {c : Call n} (hopens : c.Opens w)
    (hmarks : strict → c.KeepsMarks w) : WF w c.run fun _ w' => w'.Managed strict := by
  cases c with
  | readData a length offset => exact (h.readData hopens).mono fun _ _ h => h.1
  | writeData a data offset =>
    exact (h.writeData hopens).bind (fun _ _ h => .pure h.1) fun _ _ h => h.1
  | writeCache a set => exact (h.writeRuns hopens).bind (fun _ _ h => .pure h.1) fun _ _ h => h.1
  | openFile a | initAndOpenFile a =>
    exact (h.openFiles hopens).bind (fun _ _ h => .pure h) fun _ _ h => h
  | openExistingFile a => exact h.openExistingFile.bind (fun _ _ h => .pure h) fun _ _ h => h
  | closeFile a => exact (h.closeFile hmarks).bind (fun _ _ h => .pure h) fun _ _ h => h
  | tryCloseFile a numClose =>
    exact (h.tryCloseFile hopens).bind (fun _ _ h => .pure h) fun _ _ h => h

theorem Managed.step {s : Option (World n)} {e : Outside n × Call n}
    (h : ∀ w ∈ s, w.Managed strict) (hopens : AtCall Call.Opens s e)
    (hmarks : strict → AtCall Call.KeepsMarks s e) : ∀ w ∈ step s e, w.Managed strict := by
  intro w' hw'
  obtain ⟨w, hw, hcall⟩ := Option.bind_eq_some_iff.mp hw'
  obtain ⟨r, hr, heq⟩ := Option.bind_eq_some_iff.mp hcall
  cases heq
  have hm := h w hw
  have hm' : ({ w with outside := e.1 } : World n).Managed strict :=
    ⟨hm.rgman, hm.numOpenFiles, hm.limit, hm.listed⟩
  exact hm'.call (hopens w hw) (fun hs => hmarks hs w hw) r.1 r.2 hr

/-- The budget is kept in every run whose calls open only files that have a `DiskWriter` and can be
opened. That the entries marked as open are exactly the listed ones takes, in addition, that no
adaptor is closed while it has files open. -/
theorem budget (w : World n) (h : w.Initial) (es : List (Outside n × Call n)) :
    (Along step (AtCall Call.Opens) (some w) es →
      Visits step (fun s => ∀ w ∈ s, w.Budget DiskWriterEntry.FileOpen) (some w) es) ∧
    (Along step (fun s e => AtCall Call.Opens s e ∧ AtCall Call.KeepsMarks s e) (some w) es →
      Visits step (fun s => ∀ w ∈ s, w.Budget (·.isOpen = true)) (some w) es) := by
  have hinit : ∀ {strict}, ∀ w' ∈ some w, w'.Managed strict := by
    rintro strict _ ⟨⟩
    exact h.managed
  constructor
  · have hstep : ∀ s (e : Outside n × Call n), (∀ w ∈ s, w.Managed False) →
        AtCall Call.Opens s e → ∀ w ∈ step s e, w.Managed False :=
      fun s e hs he => Managed.step hs he nofun
    exact visits_of_along hstep (fun s hs w hw => (hs w hw).keepsBudget) hinit
  · have hstep : ∀ s (e : Outside n × Call n), (∀ w ∈ s, w.Managed True) →
        AtCall Call.Opens s e ∧ AtCall Call.KeepsMarks s e → ∀ w ∈ step s e, w.Managed True :=
      fun s e hs he => Managed.step hs he.1 fun _ => he.2
    exact visits_of_along hstep (fun s hs w hw => (hs w hw).keepsBudget_isOpen) hinit

/-- An adaptor with files of the given lengths before it is opened; only the first is wanted. -/
def Adaptor.sample (pieceLength : Nat) (lengths : List Nat) : Adaptor where
  fileEntries := lengths.mapIdx fun i l => ⟨"f", l, (lengths.take i).sum, i == 0⟩
  pieceLength
  readOnly := false
  disk _ := none
  diskWriterEntries := []
  openedDiskWriterEntries := []

/-- Two adaptors that may have one file open between them. -/
def World.sample : World 2 where
  counter := ⟨some [none, some 0, some 1], 1, 0⟩
  adaptors _ := .sample 4 [3]
  outside := ⟨fun _ => 0, fun _ _ => true⟩

theorem World.initial_sample : World.sample.Initial := ⟨nofun, rfl, fun _ => rfl, fun _ => rfl⟩

instance {P : World n → Call n → Prop} [∀ w, DecidablePred (P w)] :
    ∀ (s : Option (World n)) (e : Outside n × Call n), Decidable (AtCall P s e)
  | none, _ => .isTrue nofun
  | some w, e => decidable_of_iff (P { w with outside := e.1 } e.2) (by simp [AtCall])

/-- Each adaptor closes the file of the other. -/
theorem budget_sample :
    Visits step (fun s => ∀ w ∈ s, w.Budget (·.isOpen = true)) (some World.sample)
      [(World.sample.outside, .openFile 0), (World.sample.outside, .openFile 1),
        (World.sample.outside, .writeData 0 [1, 2] 0), (World.sample.outside, .readData 0 2 0)] ∧
    Visits step (fun s => ∀ w ∈ s, w.Budget DiskWriterEntry.FileOpen) (some World.sample)
      [(World.sample.outside, .openFile 0), (World.sample.outside, .closeFile 0)] :=
  ⟨(budget World.sample World.initial_sample _).2 (by decide),
    (budget World.sample World.initial_sample _).1 (by decide)⟩

/-- One adaptor with a wanted file of one piece and an unwanted one behind it. -/
def World.pair : World 1 where
  counter := ⟨some [some 0], 100, 0⟩
  adaptors _ := .sample 4 [4, 4]
  outside := ⟨fun _ => 0, fun _ _ => true⟩

/-- Opening a file that cannot be opened leaves it counted; an entry without a `DiskWriter` is
listed. -/
theorem failed_open_counterexample :
    World.pair.Initial ∧
    (∀ IsOpen, ¬Visits step (fun s => ∀ w ∈ s, w.Budget IsOpen) (some World.pair)
      [(⟨fun _ => 0, fun _ _ => false⟩, .openFile 0)]) ∧
    ¬Visits step (fun s => ∀ w ∈ s, w.Budget DiskWriterEntry.FileOpen) (some World.pair)
      [(World.pair.outside, .openFile 0)] ∧
    ¬Visits step (fun s => ∀ w ∈ s, w.Budget (·.isOpen = true)) (some World.pair)
      [(World.pair.outside, .openFile 0)] := by
  refine ⟨⟨nofun, rfl, fun _ => rfl, fun _ => rfl⟩, fun IsOpen h => ?_, fun h => ?_, fun h => ?_⟩
  · have hsum := (h.last _ (Option.get_mem (by decide))).sum
    revert hsum
    decide
  · have hmem := (h.last _ (Option.get_mem (by decide))).mem_iff 0 1
    revert hmem
    decide
  · have hmem := (h.last _ (Option.get_mem (by decide))).mem_iff 0 1
    revert hmem
    decide

end Budget

end FluxCore.Disk
