import FluxCore.Disk.OpenFiles
import FluxCore.Bitfield.Answers

/-!
# Files that share a piece

`resetDiskWriterEntries` looks for the files that share a piece with a wanted file in two passes.
The first marks the files behind a wanted one, the second those in front of it. Every file that
reaches into a piece which the file filter selects ends up with a `DiskWriter`, a file of length
zero inside such a piece included.
-/

namespace FluxCore.Disk

/-- Files laid out one after the other from `start` on. -/
def Consecutive : Nat → List FileEntry → Prop
  | _, [] => True
  | start, f :: fs => f.offset = start ∧ Consecutive (start + f.length) fs

/-- The length of the whole download. -/
def totalLength (fs : List FileEntry) : Nat := (fs.map FileEntry.length).sum

/-- The piece has bytes of a wanted file. -/
def Selected (pieceLength : Nat) (fs : List FileEntry) (piece : Nat) : Prop :=
  ∃ f ∈ fs, f.requested = true ∧ 0 < f.length ∧ f.offset < (piece + 1) * pieceLength ∧
    piece * pieceLength < f.getLastOffset

section Layout

variable {start : Nat} {fs : List FileEntry}

theorem Consecutive.le (h : Consecutive start fs) : ∀ f ∈ fs, start ≤ f.offset := by
  induction fs generalizing start with
  | nil => nofun
  | cons f fs ih =>
    obtain ⟨rfl, h⟩ := h
    exact List.forall_mem_cons.mpr ⟨le_rfl, fun f' hf' => Nat.le_of_add_right_le (ih h f' hf')⟩

/-- A file ends before the files behind it begin. -/
theorem Consecutive.pairwise (h : Consecutive start fs) :
    fs.Pairwise fun f f' => f.getLastOffset ≤ f'.offset := by
  induction fs generalizing start with
  | nil => exact .nil
  | cons f fs ih =>
    obtain ⟨rfl, h⟩ := h
    exact .cons h.le (ih h)

theorem Consecutive.getElem? (h : Consecutive start fs) {i : Nat} {f : FileEntry}
    (hf : fs[i]? = some f) : f.offset = start + totalLength (fs.take i) := by
  induction fs generalizing start i with
  | nil => exact nomatch hf
  | cons f' fs ih =>
    obtain ⟨rfl, h⟩ := h
    cases i with
    | zero =>
      cases hf
      rfl
    | succ i =>
      rw [ih h hf, List.take_succ_cons, totalLength, totalLength, List.map_cons, List.sum_cons]
      omega

end Layout

section Marks

variable {pieceLength lastOffset k : Nat} {es : List DiskWriterEntry} {e : DiskWriterEntry}

/-- What a pass changes: it sets marks. -/
structure Marks (e e' : DiskWriterEntry) : Prop where
  fileEntry : e'.fileEntry = e.fileEntry
  needsFileAllocation : e.needsFileAllocation = true → e'.needsFileAllocation = true
  needsDiskWriter : e.needsDiskWriter = true → e'.needsDiskWriter = true

theorem Marks.refl (e : DiskWriterEntry) : Marks e e := ⟨rfl, id, id⟩

theorem marks_checkForward (pieceLength lastOffset : Nat) (es : List DiskWriterEntry) :
    List.Forall₂ Marks es (checkForward pieceLength lastOffset es) := by
  induction es generalizing lastOffset with
  | nil => exact .nil
  | cons e es ih =>
    unfold checkForward
    split
    · exact .cons (.refl e) (ih _)
    · split
      · exact .cons ⟨rfl, id, fun _ => rfl⟩ (ih _)
      · exact .cons (.refl e) (ih _)

theorem marks_checkBackward (pieceLength lastOffset : Nat) (es : List DiskWriterEntry) :
    List.Forall₂ Marks es (checkBackward pieceLength lastOffset es) := by
  induction es generalizing lastOffset with
  | nil => exact .nil
  | cons e es ih =>
    unfold checkBackward
    split
    · exact .cons (.refl e) (ih _)
    · split
      · exact .cons ⟨rfl, fun _ => rfl, id⟩ (ih _)
      · exact .cons (.refl e) (ih _)

/-- A file is marked by the first pass when it begins before the end of a piece that a wanted file
before it reaches into. -/
theorem needsDiskWriter_checkForward (pieceLength lastOffset : Nat)
    (hsorted : es.Pairwise fun e e' => e.fileEntry.getLastOffset ≤ e'.fileEntry.getLastOffset)
    (hlast : ∀ e ∈ es, 0 < e.fileEntry.length →
      lastOffset ≤ pieceEnd pieceLength e.fileEntry.getLastOffset)
    (he : es[k]? = some e) (hreq : e.fileEntry.requested = false)
    (h : e.fileEntry.offset < lastOffset ∨ ∃ j < k, ∃ f, es[j]? = some f ∧
      f.fileEntry.requested = true ∧ 0 < f.fileEntry.length ∧
      e.fileEntry.offset < pieceEnd pieceLength f.fileEntry.getLastOffset) :
    ∃ e', (checkForward pieceLength lastOffset es)[k]? = some e' ∧ e'.needsDiskWriter = true := by
  induction es generalizing lastOffset k with
  | nil => exact nomatch he
  | cons e₀ es ih =>
    obtain ⟨hle, hsorted⟩ := List.pairwise_cons.mp hsorted
    obtain ⟨hlast₀, hlast⟩ := List.forall_mem_cons.mp hlast
    have hmono : ∀ e ∈ es, pieceEnd pieceLength e₀.fileEntry.getLastOffset ≤
        pieceEnd pieceLength e.fileEntry.getLastOffset := fun e he => by
      have := Nat.div_le_div_right (c := pieceLength) (Nat.sub_le_sub_right (hle e he) 1)
      exact Nat.add_le_add_right (Nat.mul_le_mul_right _ this) _
    cases k with
    | zero =>
      cases he
      have hlt : e.fileEntry.offset < lastOffset := h.resolve_right fun ⟨j, hj, _⟩ => nomatch hj
      unfold checkForward
      rw [if_neg (by simp [hreq]), if_pos hlt]
      exact ⟨_, rfl, rfl⟩
    | succ k =>
      rw [List.getElem?_cons_succ] at he
      unfold checkForward
      by_cases hreq₀ : e₀.fileEntry.requested = true
      · rw [if_pos hreq₀]
        dsimp only
        rw [List.getElem?_cons_succ]
        split
        next hlen =>
          refine ih _ hsorted (fun e he hpos => hmono e he) he ?_
          rcases h with h | ⟨j, hj, f, hf, hf'⟩
          · exact .inl (Nat.lt_of_lt_of_le h (hlast₀ hlen))
          · cases j with
            | zero =>
              cases hf
              exact .inl hf'.2.2
            | succ j => exact .inr ⟨j, Nat.lt_of_succ_lt_succ hj, f, hf, hf'⟩
        next hlen =>
          refine ih _ hsorted hlast he ?_
          rcases h with h | ⟨j, hj, f, hf, hf'⟩
          · exact .inl h
          · cases j with
            | zero =>
              cases hf
              exact absurd hf'.2.1 hlen
            | succ j => exact .inr ⟨j, Nat.lt_of_succ_lt_succ hj, f, hf, hf'⟩
      · rw [if_neg hreq₀]
        have hrest : ∃ e', (checkForward pieceLength lastOffset es)[k]? = some e' ∧
            e'.needsDiskWriter = true := by
          refine ih _ hsorted hlast he ?_
          rcases h with h | ⟨j, hj, f, hf, hf'⟩
          · exact .inl h
          · cases j with
            | zero =>
              cases hf
              exact absurd hf'.1 hreq₀
            | succ j => exact .inr ⟨j, Nat.lt_of_succ_lt_succ hj, f, hf, hf'⟩
        split <;> rw [List.getElem?_cons_succ] <;> exact hrest

/-- A file that does not lie in front of the byte `lastOffset`. -/
def Behind (lastOffset : Nat) (f : FileEntry) : Prop :=
  lastOffset ≤ f.offset ∨ lastOffset < f.getLastOffset

theorem Behind.mono {lastOffset' : Nat} {f : FileEntry} (h : Behind lastOffset f)
    (hle : lastOffset' ≤ lastOffset) : Behind lastOffset' f :=
  h.imp hle.trans hle.trans_lt

/-- A file is marked by the second pass, which meets the last file first, when it does not lie in
front of the piece in which a wanted file behind it begins. -/
theorem needsFileAllocation_checkBackward (pieceLength lastOffset : Nat)
    (hsorted : es.Pairwise fun e e' => e'.fileEntry.offset ≤ e.fileEntry.offset)
    (he : es[k]? = some e) (hreq : e.fileEntry.requested = false)
    (h : (Behind lastOffset e.fileEntry ∧ ∀ e ∈ es,
        e.fileEntry.offset / pieceLength * pieceLength ≤ lastOffset) ∨
      ∃ j < k, ∃ f, es[j]? = some f ∧ f.fileEntry.requested = true ∧
        Behind (f.fileEntry.offset / pieceLength * pieceLength) e.fileEntry) :
    ∃ e', (checkBackward pieceLength lastOffset es)[k]? = some e' ∧
      e'.needsFileAllocation = true := by
  induction es generalizing lastOffset k with
  | nil => exact nomatch he
  | cons e₀ es ih =>
    obtain ⟨hle, hsorted⟩ := List.pairwise_cons.mp hsorted
    have hmono : ∀ e ∈ es, e.fileEntry.offset / pieceLength * pieceLength ≤
        e₀.fileEntry.offset / pieceLength * pieceLength := fun e he =>
      Nat.mul_le_mul_right _ (Nat.div_le_div_right (hle e he))
    cases k with
    | zero =>
      cases he
      have hlt : lastOffset ≤ e.fileEntry.offset ∨ lastOffset < e.fileEntry.getLastOffset :=
        (h.resolve_right fun ⟨j, hj, _⟩ => nomatch hj).1
      unfold checkBackward
      rw [if_neg (by simp [hreq]), if_pos hlt]
      exact ⟨_, rfl, rfl⟩
    | succ k =>
      rw [List.getElem?_cons_succ] at he
      unfold checkBackward
      by_cases hreq₀ : e₀.fileEntry.requested = true
      · rw [if_pos hreq₀, List.getElem?_cons_succ]
        refine ih _ hsorted he ?_
        rcases h with ⟨h, hall⟩ | ⟨j, hj, f, hf, hf'⟩
        · exact .inl ⟨h.mono (hall e₀ (List.mem_cons_self ..)), hmono⟩
        · cases j with
          | zero =>
            cases hf
            exact .inl ⟨hf'.2, hmono⟩
          | succ j => exact .inr ⟨j, Nat.lt_of_succ_lt_succ hj, f, hf, hf'⟩
      · rw [if_neg hreq₀]
        have hrest : ∃ e', (checkBackward pieceLength lastOffset es)[k]? = some e' ∧
            e'.needsFileAllocation = true := by
          refine ih _ hsorted he ?_
          rcases h with ⟨h, hall⟩ | ⟨j, hj, f, hf, hf'⟩
          · exact .inl ⟨h, fun e he => hall e (List.mem_cons_of_mem _ he)⟩
          · cases j with
            | zero =>
              cases hf
              exact absurd hf'.1 hreq₀
            | succ j => exact .inr ⟨j, Nat.lt_of_succ_lt_succ hj, f, hf, hf'⟩
        split <;> rw [List.getElem?_cons_succ] <;> exact hrest

theorem getElem?_of_forall₂ {α β : Type} {R : α → β → Prop} {l : List α} {l' : List β}
    (h : List.Forall₂ R l l') {k : Nat} {x : α} (hx : l[k]? = some x) :
    ∃ y, l'[k]? = some y ∧ R x y := by
  obtain ⟨hlen, hget⟩ := List.forall₂_iff_get.mp h
  obtain ⟨hk, rfl⟩ := List.getElem?_eq_some_iff.mp hx
  exact ⟨l'.get ⟨k, hlen ▸ hk⟩, List.getElem?_eq_getElem _, hget k hk (hlen ▸ hk)⟩

theorem getElem?_reverse_of_eq_some {α : Type} {l : List α} {k : Nat} {x : α}
    (hx : l[k]? = some x) : l.reverse[l.length - 1 - k]? = some x := by
  have hk := (List.getElem?_eq_some_iff.mp hx).1
  rw [List.getElem?_reverse (by omega), show l.length - 1 - (l.length - 1 - k) = k by omega, hx]

theorem map_fileEntry_checkForward (fs : List FileEntry) :
    (checkForward pieceLength lastOffset (fs.map .create)).map DiskWriterEntry.fileEntry = fs := by
  have h : List.Forall₂ (fun e e' : DiskWriterEntry => e.fileEntry = e'.fileEntry)
      (fs.map .create) (checkForward pieceLength lastOffset (fs.map .create)) :=
    (marks_checkForward ..).imp fun _ _ h => h.fileEntry.symm
  have hmap := List.forall₂_eq_eq_eq ▸ (List.forall₂_map_right_iff.mpr
    (List.forall₂_map_left_iff.mpr h))
  rw [← hmap, List.map_map]
  exact List.map_id fs

/-- The entries that the second pass gives for those of the first, in their own order. -/
theorem getElem?_markEntries (hpos : 0 < pieceLength) {fs : List FileEntry} {i : Nat}
    {P : DiskWriterEntry → Prop}
    (h : ∃ e, (checkBackward pieceLength INT64_MAX
      (checkForward pieceLength 0 (fs.map .create)).reverse)[fs.length - 1 - i]? = some e ∧ P e)
    (hi : i < fs.length) : ∃ e, (markEntries pieceLength fs)[i]? = some e ∧ P e := by
  obtain ⟨e, he, hP⟩ := h
  refine ⟨e, ?_, hP⟩
  have hlen : (checkBackward pieceLength INT64_MAX
      (checkForward pieceLength 0 (fs.map .create)).reverse).length = fs.length := by
    rw [← (marks_checkBackward ..).length_eq, List.length_reverse,
      ← (marks_checkForward ..).length_eq, List.length_map]
  have := getElem?_reverse_of_eq_some he
  rw [hlen, show fs.length - 1 - (fs.length - 1 - i) = i by omega] at this
  unfold markEntries
  rw [if_pos hpos]
  exact this

/-- The marks of an entry are those of its file, of the first pass and of the second. -/
theorem exists_getElem?_markEntries (hpos : 0 < pieceLength) {fs : List FileEntry} {i : Nat}
    {f : FileEntry} (hf : fs[i]? = some f) :
    ∃ e₁, (checkForward pieceLength 0 (fs.map .create))[i]? = some e₁ ∧ Marks (.create f) e₁ ∧
      ∃ e, (markEntries pieceLength fs)[i]? = some e ∧ Marks e₁ e := by
  have hi := (List.getElem?_eq_some_iff.mp hf).1
  have hcreate : (fs.map DiskWriterEntry.create)[i]? = some (.create f) := by
    rw [List.getElem?_map, hf]
    rfl
  obtain ⟨e₁, he₁, hm₁⟩ := getElem?_of_forall₂ (marks_checkForward pieceLength 0 _) hcreate
  have hlen : (checkForward pieceLength 0 (fs.map .create)).length = fs.length := by
    rw [← (marks_checkForward ..).length_eq, List.length_map]
  have hrev := getElem?_reverse_of_eq_some he₁
  rw [hlen] at hrev
  exact ⟨e₁, he₁, hm₁, getElem?_markEntries hpos (getElem?_of_forall₂ (marks_checkBackward ..) hrev)
    hi⟩

/-- A file that reaches into a selected piece is marked by one of the passes, or is wanted. -/
theorem marked_of_selected (hpos : 0 < pieceLength) {fs : List FileEntry}
    (hfs : Consecutive 0 fs) {piece i : Nat} {f : FileEntry} (hf : fs[i]? = some f)
    (hsel : Selected pieceLength fs piece) (hoffset : f.offset < (piece + 1) * pieceLength)
    (hlast : Behind (piece * pieceLength) f) :
    ∃ e, (markEntries pieceLength fs)[i]? = some e ∧ e.fileEntry = f ∧
      (e.needsFileAllocation = true ∨ e.needsDiskWriter = true) := by
  have hi := (List.getElem?_eq_some_iff.mp hf).1
  obtain ⟨e₁, he₁, hm₁, e, he, hm⟩ := exists_getElem?_markEntries hpos hf
  refine ⟨e, he, hm.fileEntry.trans hm₁.fileEntry, ?_⟩
  by_cases hreq : f.requested = true
  · exact .inl (hm.needsFileAllocation (hm₁.needsFileAllocation hreq))
  obtain ⟨g, hg, hgreq, hglen, hgoffset, hglast⟩ := hsel
  obtain ⟨r, hr⟩ := List.mem_iff_getElem?.mp hg
  have hreq' : f.requested = false := Bool.eq_false_iff.mpr hreq
  have hpair := List.pairwise_iff_getElem.mp hfs.pairwise
  rcases Nat.lt_trichotomy r i with hlt | rfl | hgt
  · -- The wanted file lies in front, and its last piece reaches behind the start of this one.
    have hsorted : (fs.map DiskWriterEntry.create).Pairwise fun e e' =>
        e.fileEntry.getLastOffset ≤ e'.fileEntry.getLastOffset :=
      List.pairwise_map.mpr (hfs.pairwise.imp fun h => h.trans (Nat.le_add_right ..))
    have hend : (piece + 1) * pieceLength ≤ pieceEnd pieceLength g.getLastOffset := by
      have : piece ≤ (g.getLastOffset - 1) / pieceLength :=
        (Nat.le_div_iff_mul_le hpos).mpr (by omega)
      rw [pieceEnd, Nat.succ_mul]
      exact Nat.add_le_add_right (Nat.mul_le_mul_right _ this) _
    obtain ⟨e', he', hneeds⟩ := needsDiskWriter_checkForward pieceLength 0 (k := i)
      (e := .create f) hsorted (fun _ _ _ => Nat.zero_le _) (by rw [List.getElem?_map, hf]; rfl)
      hreq'
      (.inr ⟨r, hlt, .create g, by rw [List.getElem?_map, hr]; rfl, hgreq, hglen,
        Nat.lt_of_lt_of_le hoffset hend⟩)
    rw [he₁] at he'
    cases he'
    exact .inr (hm.needsDiskWriter hneeds)
  · rw [hf] at hr
    cases hr
    exact absurd hgreq hreq
  · -- The wanted file lies behind, and its first piece begins before the end of this one.
    have hlen : (checkForward pieceLength 0 (fs.map .create)).length = fs.length := by
      rw [← (marks_checkForward ..).length_eq, List.length_map]
    have hsorted : (checkForward pieceLength 0 (fs.map .create)).reverse.Pairwise
        fun e e' => e'.fileEntry.offset ≤ e.fileEntry.offset := by
      rw [List.pairwise_reverse]
      refine (List.pairwise_map (f := DiskWriterEntry.fileEntry)
        (R := fun a b => a.offset ≤ b.offset)).mp ?_
      rw [map_fileEntry_checkForward]
      exact hfs.pairwise.imp fun h => (Nat.le_add_right ..).trans h
    obtain ⟨g₁, hg₁, hmg, -⟩ := exists_getElem?_markEntries hpos hr
    have hrlt := (List.getElem?_eq_some_iff.mp hr).1
    have hrev := getElem?_reverse_of_eq_some he₁
    have hrevg := getElem?_reverse_of_eq_some hg₁
    rw [hlen] at hrev hrevg
    have hstart : Behind (g.offset / pieceLength * pieceLength) f := by
      have : g.offset / pieceLength ≤ piece := Nat.lt_succ_iff.mp
        ((Nat.div_lt_iff_lt_mul hpos).mpr hgoffset)
      exact hlast.mono (Nat.mul_le_mul_right _ this)
    have hback := needsFileAllocation_checkBackward pieceLength INT64_MAX hsorted hrev
      (by rw [hm₁.fileEntry]; exact hreq')
      (.inr ⟨fs.length - 1 - r, by omega, g₁, hrevg, by rw [hmg.fileEntry]; exact hgreq,
        by rw [hmg.fileEntry, hm₁.fileEntry]; exact hstart⟩)
    obtain ⟨e', he', hneeds⟩ := getElem?_markEntries hpos hback hi
    rw [he] at he'
    cases he'
    exact .inl hneeds

end Marks

section Fresh

variable {ad : Adaptor} {i : Nat} {f : FileEntry}

/-- The entries that a reset makes are those of the files, with the marks of the two passes. -/
theorem Adaptor.entry_reset_eq {e : DiskWriterEntry}
    (he : (markEntries ad.pieceLength ad.fileEntries)[i]? = some e) :
    ad.reset.entry i = ad.equip i e := by
  rw [entry, List.getD_eq_getElem?_getD]
  change (((markEntries ad.pieceLength ad.fileEntries).mapIdx ad.equip)[i]?).getD _ = _
  rw [List.getElem?_mapIdx, he]
  rfl

theorem Adaptor.equip_fileEntry (i : Nat) (e : DiskWriterEntry) :
    (ad.equip i e).fileEntry = e.fileEntry := by
  unfold Adaptor.equip
  split <;> rfl

theorem map_fileEntry_markEntries (pieceLength : Nat) (fs : List FileEntry) :
    (markEntries pieceLength fs).map DiskWriterEntry.fileEntry = fs := by
  refine List.ext_getElem? fun i => ?_
  rw [List.getElem?_map]
  by_cases hpos : 0 < pieceLength
  · cases hf : fs[i]? with
    | none =>
      have hlen : (markEntries pieceLength fs).length = fs.length := by
        unfold markEntries
        rw [if_pos hpos, List.length_reverse, ← (marks_checkBackward ..).length_eq,
          List.length_reverse, ← (marks_checkForward ..).length_eq, List.length_map]
      rw [List.getElem?_eq_none (hlen ▸ List.getElem?_eq_none_iff.mp hf)]
      rfl
    | some f =>
      obtain ⟨e₁, -, hm₁, e, he, hm⟩ := exists_getElem?_markEntries hpos hf
      rw [he]
      exact congrArg some (hm.fileEntry.trans hm₁.fileEntry)
  · unfold markEntries
    rw [if_neg hpos, List.getElem?_map, Option.map_map]
    cases fs[i]? <;> rfl

theorem Adaptor.length_reset (ad : Adaptor) :
    ad.reset.diskWriterEntries.length = ad.fileEntries.length := by
  have := congrArg List.length (map_fileEntry_markEntries ad.pieceLength ad.fileEntries)
  rw [List.length_map] at this
  exact (List.length_mapIdx ..).trans this

theorem Adaptor.fileEntry_reset (hf : ad.fileEntries[i]? = some f) :
    (ad.reset.entry i).fileEntry = f := by
  rw [← map_fileEntry_markEntries ad.pieceLength ad.fileEntries, List.getElem?_map,
    Option.map_eq_some_iff] at hf
  obtain ⟨e, he, rfl⟩ := hf
  rw [entry_reset_eq he, equip_fileEntry]

/-- A file that reaches into a selected piece gets a `DiskWriter`. -/
theorem Adaptor.isSome_reset (hfs : Consecutive 0 ad.fileEntries)
    {piece : Nat} (hsel : Selected ad.pieceLength ad.fileEntries piece)
    (hf : ad.fileEntries[i]? = some f) (hoffset : f.offset < (piece + 1) * ad.pieceLength)
    (hlast : Behind (piece * ad.pieceLength) f) :
    (ad.reset.entry i).diskWriter.isSome = true := by
  have hpos : 0 < ad.pieceLength := Nat.pos_of_ne_zero fun hzero => by
    rw [hzero, Nat.mul_zero] at hoffset
    exact Nat.not_lt_zero _ hoffset
  obtain ⟨e, he, -, hmark⟩ := marked_of_selected hpos hfs hf hsel hoffset hlast
  rw [entry_reset_eq he, equip, if_pos (hmark.imp_right .inl)]
  rfl

end Fresh

end FluxCore.Disk
