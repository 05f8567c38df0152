import FluxCore.Disk.FlatRuns

/-!
# The digest of a cached piece

`Piece::getDigestWithWrCache` goes through the cells of the piece's cache in the order of their
places and reads what lies between them from the disk. The disk of an `AbstractSingleDiskAdaptor`
is one file.
-/

namespace FluxCore.Disk

/-! ## The functions -/

/-- `mdctx` with the bytes it was given, and the places in the download they were taken from, those
of a read that failed included. -/
structure Digesting where
  update : List UInt8 := []
  taken : List (Nat × Nat) := []

/-- The size of the buffer. -/
def bufSize : Nat := 4096

/-- One read; it is `false` where the exception is thrown. -/
def hashRead (disk : File) (offset length : Nat) (s : Digesting) : Bool × Digesting :=
  let bytes := disk.read offset length
  let taken := s.taken ++ [(offset, length)]
  if bytes.length = length then (true, ⟨s.update ++ bytes, taken⟩) else (false, ⟨s.update, taken⟩)

/-- The loop over full buffers. -/
def hashBuffers (disk : File) : Nat → Nat → Digesting → Bool × Digesting
  | 0, _, s => (true, s)
  | quot + 1, offset, s =>
    match hashRead disk offset bufSize s with
    | (true, s) => hashBuffers disk quot (offset + bufSize) s
    | (false, s) => (false, s)

def updateHashWithRead (disk : File) (offset len : Nat) (s : Digesting) : Bool × Digesting :=
  match hashBuffers disk (len / bufSize) offset s with
  | (true, s) =>
    if len % bufSize ≠ 0 then hashRead disk (offset + len / bufSize * bufSize) (len % bufSize) s
    else (true, s)
  | (false, s) => (false, s)

/-- The loop over the cells, with what follows it. -/
def hashCells (disk : File) (stop : Nat) : List DataCell → Nat → Digesting → Bool × Digesting
  | [], goff, s => updateHashWithRead disk goff (stop - goff) s
  | d :: cells, goff, s =>
    match if goff < d.goff then updateHashWithRead disk goff (d.goff - goff) s else (true, s) with
    | (true, s) =>
      hashCells disk stop cells (d.goff + d.len)
        ⟨s.update ++ d.bytes, s.taken ++ [(d.goff, d.len)]⟩
    | (false, s) => (false, s)

/-- `EX_FILE_READ` with its arguments. -/
def dataIsTooShort : String := "Failed to read from the file n/a, cause: data is too short"

/-- The cells of a piece, none of which overlaps another. -/
structure PieceCells (start length : Nat) extends DataCellSet where
  inside : ∀ c ∈ cells, start ≤ c.goff ∧ c.goff + c.len ≤ start + length
  disjoint : cells.Pairwise fun c d => c.goff + c.len ≤ d.goff

/-- `Piece::getDigestWithWrCache`, with the places whose bytes went into the digest. -/
def getDigestWithWrCache (hash : List UInt8 → List UInt8) (disk : File)
    (index pieceLength length : Nat) (wrCache : Option (PieceCells (index * pieceLength) length)) :
    Except String (List UInt8) × List (Nat × Nat) :=
  let start := index * pieceLength
  let (ok, s) := match wrCache with
    | some set => hashCells disk (start + length) set.cells start {}
    | none => updateHashWithRead disk start length {}
  (if ok then .ok (hash s.update) else .error dataIsTooShort, s.taken)

/-- `WrDiskCacheEntry::writeToDisk` with `AbstractSingleDiskAdaptor::writeCache`. -/
def writeToDisk (disk : File) (cells : List DataCell) : File :=
  (runs cells).foldl (fun f r => f.write r.1 r.2) disk

/-! ## The disk after `writeToDisk` -/

section AfterWrite

variable {disk : File} {cells : List DataCell} {p : Nat}

theorem writeToDisk_eq (disk : File) (cells : List DataCell) :
    writeToDisk disk cells = (writes cells).foldl (fun f r => f.write r.1 r.2) disk :=
  foldl_runs File.write File.write_append (fun _ _ => if_pos rfl) disk cells

/-- The byte of a position is in a cell. -/
def Cached (cells : List DataCell) (p : Nat) : Prop := ∃ c ∈ cells, c.goff ≤ p ∧ p < c.goff + c.len

theorem foldl_write_of_not_cached (hp : ¬Cached cells p) (hlt : p < disk.length) :
    ((writes cells).foldl (fun f r => f.write r.1 r.2) disk)[p]? = disk[p]? := by
  induction cells generalizing disk with
  | nil => rfl
  | cons c cells ih =>
    have hc : ¬(c.goff ≤ p ∧ p < c.goff + c.bytes.length) := fun h =>
      hp ⟨c, List.mem_cons_self, c.length_bytes ▸ h⟩
    have hget : (disk.write c.goff c.bytes)[p]? = disk[p]? := by
      rw [File.getElem?_write, if_neg hc, if_pos hlt]
    have hlt' : p < (disk.write c.goff c.bytes).length := by
      by_contra hge
      rw [List.getElem?_eq_none (Nat.le_of_not_lt hge), List.getElem?_eq_getElem hlt] at hget
      exact nomatch hget
    refine (ih (fun ⟨d, hd, h⟩ => hp ⟨d, List.mem_cons_of_mem c hd, h⟩) hlt').trans hget

theorem writeToDisk_of_not_cached (hp : ¬Cached cells p) (hlt : p < disk.length) :
    (writeToDisk disk cells)[p]? = disk[p]? := by
  rw [writeToDisk_eq]
  exact foldl_write_of_not_cached hp hlt

theorem writeToDisk_of_mem (hcells : cells.Pairwise fun c d => c.goff + c.len ≤ d.goff)
    {c : DataCell} (hc : c ∈ cells) (hp : c.goff ≤ p ∧ p < c.goff + c.len) :
    (writeToDisk disk cells)[p]? = c.bytes[p - c.goff]? := by
  rw [writeToDisk_eq]
  induction cells generalizing disk with
  | nil => exact nomatch hc
  | cons d cells ih =>
    obtain ⟨hd, hcells⟩ := List.pairwise_cons.mp hcells
    rcases List.mem_cons.mp hc with rfl | hc
    · have hget : (disk.write c.goff c.bytes)[p]? = c.bytes[p - c.goff]? := by
        rw [File.getElem?_write, if_pos (c.length_bytes.symm ▸ hp)]
      have hlt : p < (disk.write c.goff c.bytes).length := by
        by_contra hge
        have hin : p - c.goff < c.bytes.length := by
          rw [c.length_bytes]
          omega
        rw [List.getElem?_eq_none (Nat.le_of_not_lt hge), List.getElem?_eq_getElem hin] at hget
        exact nomatch hget
      refine (foldl_write_of_not_cached ?_ hlt).trans hget
      rintro ⟨e, he, h⟩
      have := hd e he
      omega
    · exact ih hcells hc

/-- What is read where no cell is. -/
theorem read_gap {lo hi : Nat} (hfree : ∀ p, lo ≤ p → p < hi → ¬Cached cells p)
    (hhi : hi ≤ disk.length) :
    (writeToDisk disk cells).read lo (hi - lo) = disk.read lo (hi - lo) := by
  refine List.ext_getElem? fun k => ?_
  by_cases hk : k < hi - lo
  · rw [File.getElem?_read hk, File.getElem?_read hk,
      writeToDisk_of_not_cached (hfree _ (Nat.le_add_right ..) (by omega)) (by omega)]
  · rw [File.read, File.read, List.getElem?_take, List.getElem?_take, if_neg hk, if_neg hk]

/-- What is read where a cell is. -/
theorem read_cell (hcells : cells.Pairwise fun c d => c.goff + c.len ≤ d.goff) {c : DataCell}
    (hc : c ∈ cells) : (writeToDisk disk cells).read c.goff c.len = c.bytes := by
  refine List.ext_getElem? fun k => ?_
  by_cases hk : k < c.len
  · rw [File.getElem?_read hk, writeToDisk_of_mem hcells hc (by omega), Nat.add_sub_cancel_left]
  · have hlen := c.length_bytes
    rw [File.read, List.getElem?_take, if_neg hk, List.getElem?_eq_none (by omega)]

end AfterWrite

/-! ## The reads -/

/-- The ranges follow each other, between two positions. -/
def Ascending (hi : Nat) : Nat → List (Nat × Nat) → Prop
  | lo, [] => lo ≤ hi
  | lo, r :: rs => lo ≤ r.1 ∧ Ascending hi (r.1 + r.2) rs

namespace Ascending

variable {lo lo' mid hi : Nat} {rs rs' : List (Nat × Nat)}

theorem le (h : Ascending hi lo rs) : lo ≤ hi := by
  induction rs generalizing lo with
  | nil => exact h
  | cons r rs ih => exact h.1.trans ((Nat.le_add_right ..).trans (ih h.2))

theorem mono (h : Ascending hi lo rs) (hle : lo' ≤ lo) : Ascending hi lo' rs := by
  cases rs with
  | nil => exact hle.trans h
  | cons r rs => exact ⟨hle.trans h.1, h.2⟩

theorem append (h : Ascending mid lo rs) (h' : Ascending hi mid rs') :
    Ascending hi lo (rs ++ rs') := by
  induction rs generalizing lo with
  | nil => exact h'.mono h
  | cons r rs ih => exact ⟨h.1, ih h.2⟩

theorem one (lo length : Nat) : Ascending (lo + length) lo [(lo, length)] := ⟨le_rfl, le_rfl⟩

theorem within (h : Ascending hi lo rs) : ∀ r ∈ rs, lo ≤ r.1 ∧ r.1 + r.2 ≤ hi := by
  induction rs generalizing lo with
  | nil => exact fun r hr => nomatch hr
  | cons r rs ih =>
    rintro r' (_ | ⟨_, hr'⟩)
    · exact ⟨h.1, h.2.le⟩
    · obtain ⟨h1, h2⟩ := ih h.2 r' hr'
      exact ⟨h.1.trans ((Nat.le_add_right ..).trans h1), h2⟩

theorem pairwise (h : Ascending hi lo rs) : rs.Pairwise fun r r' => r.1 + r.2 ≤ r'.1 := by
  induction rs generalizing lo with
  | nil => exact .nil
  | cons r rs ih => exact .cons (fun r' hr' => (h.2.within r' hr').1) (ih h.2)

end Ascending

section Reads

variable {disk : File} {offset length : Nat} {s : Digesting} {r r' : Bool × Digesting}

/-- A read of a range, `true` where the disk has it. -/
structure HashRead (disk : File) (offset length : Nat) (s : Digesting) (r : Bool × Digesting) :
    Prop where
  ok_iff : r.1 = true ↔ length = 0 ∨ offset + length ≤ disk.length
  update : r.1 = true → r.2.update = s.update ++ disk.read offset length
  taken : ∃ rs, r.2.taken = s.taken ++ rs ∧ Ascending (offset + length) offset rs

theorem HashRead.none (disk : File) (offset : Nat) (s : Digesting) :
    HashRead disk offset 0 s (true, s) where
  ok_iff := by simp
  update _ := by rw [File.read, List.take_zero, List.append_nil]
  taken := ⟨[], (List.append_nil _).symm, le_rfl⟩

/-- A range is read in two parts. -/
theorem HashRead.append {length' : Nat} (h : HashRead disk offset length s r) (hok : r.1 = true)
    (h' : HashRead disk (offset + length) length' r.2 r') :
    HashRead disk offset (length + length') s r' := by
  have hle := h.ok_iff.mp hok
  refine ⟨?_, fun hok' => ?_, ?_⟩
  · rw [h'.ok_iff]
    omega
  · rw [h'.update hok', h.update hok, List.append_assoc, File.read_append_read]
  · obtain ⟨rs, hrs, hasc⟩ := h.taken
    obtain ⟨rs', hrs', hasc'⟩ := h'.taken
    refine ⟨rs ++ rs', by rw [hrs', hrs, List.append_assoc], hasc.append ?_⟩
    rwa [← Nat.add_assoc]

/-- The first part of a range is not there. -/
theorem HashRead.fail (h : HashRead disk offset length s r) (hok : r.1 = false) (length' : Nat) :
    HashRead disk offset (length + length') s r := by
  have hle := h.ok_iff.not.mp (by rw [hok]; exact Bool.false_ne_true)
  refine ⟨?_, fun hok' => ?_, ?_⟩
  · rw [hok]
    exact iff_of_false Bool.false_ne_true (by omega)
  · rw [hok] at hok'
    exact nomatch hok'
  · obtain ⟨rs, hrs, hasc⟩ := h.taken
    refine ⟨rs, hrs, ?_⟩
    have htail : Ascending (offset + (length + length')) (offset + length) [] := by
      rw [← Nat.add_assoc]
      exact Nat.le_add_right ..
    have happ := hasc.append htail
    rwa [List.append_nil] at happ

theorem hashRead_spec (disk : File) (offset length : Nat) (s : Digesting) :
    HashRead disk offset length s (hashRead disk offset length s) := by
  have hlen : (disk.read offset length).length = min length (disk.length - offset) := by
    rw [File.read, List.length_take, List.length_drop]
  have hasc := Ascending.one offset length
  unfold hashRead
  dsimp only
  split
  next h => exact ⟨iff_of_true rfl (by omega), fun _ => rfl, _, rfl, hasc⟩
  next h =>
    exact ⟨iff_of_false Bool.false_ne_true (by omega), fun hok => absurd hok Bool.false_ne_true, _,
      rfl, hasc⟩

theorem hashBuffers_spec (disk : File) (quot offset : Nat) (s : Digesting) :
    HashRead disk offset (quot * bufSize) s (hashBuffers disk quot offset s) := by
  induction quot generalizing offset s with
  | zero =>
    rw [Nat.zero_mul]
    exact .none disk offset s
  | succ quot ih =>
    have h := hashRead_spec disk offset bufSize s
    rw [Nat.succ_mul, Nat.add_comm, hashBuffers]
    split
    next s' heq => exact (heq ▸ h).append rfl (ih (offset + bufSize) s')
    next s' heq => exact (heq ▸ h).fail rfl _

theorem updateHashWithRead_spec (disk : File) (offset len : Nat) (s : Digesting) :
    HashRead disk offset len s (updateHashWithRead disk offset len s) := by
  have h := hashBuffers_spec disk (len / bufSize) offset s
  have hlen := Nat.div_add_mod' len bufSize
  rw [updateHashWithRead]
  split
  next s' heq =>
    rw [heq] at h
    split
    next =>
      have h' := h.append rfl (hashRead_spec disk _ (len % bufSize) s')
      rwa [hlen] at h'
    next h0 =>
      rw [ne_eq, not_not] at h0
      rw [h0, Nat.add_zero] at hlen
      rwa [hlen] at h
  next s' heq =>
    have h' := (heq ▸ h).fail rfl (len % bufSize)
    rwa [hlen] at h'

end Reads

/-! ## The cells -/

section Cells

variable {disk after : File} {goff stop : Nat} {cells : List DataCell} {s : Digesting}

/-- Every byte of the range that is in no cell is on the disk. -/
def GapsOnDisk (disk : File) (lo hi : Nat) (cells : List DataCell) : Prop :=
  ∀ p, lo ≤ p → p < hi → ¬Cached cells p → p < disk.length

/-- What `after` has in a range: the bytes of the cells, and those of the disk. -/
structure Merged (disk after : File) (lo hi : Nat) (cells : List DataCell) : Prop where
  cell : ∀ c ∈ cells, after.read c.goff c.len = c.bytes
  gap : ∀ a b, lo ≤ a → b ≤ hi → (∀ p, a ≤ p → p < b → ¬Cached cells p) → b ≤ disk.length →
    after.read a (b - a) = disk.read a (b - a)

theorem Merged.tail {c : DataCell} {lo : Nat} (h : Merged disk after lo stop (c :: cells))
    (hlo : lo ≤ c.goff + c.len) : Merged disk after (c.goff + c.len) stop cells where
  cell d hd := h.cell d (List.mem_cons_of_mem c hd)
  gap a b ha hb hfree hdisk := by
    refine h.gap a b (hlo.trans ha) hb ?_ hdisk
    rintro p hap hpb ⟨d, _ | ⟨_, hd⟩, hd'⟩
    · omega
    · exact hfree p hap hpb ⟨d, hd, hd'⟩

/-- Nothing is cached in front of the first cell. -/
theorem not_cached_of_lt {c : DataCell} {p : Nat}
    (hdisjoint : (c :: cells).Pairwise fun c d => c.goff + c.len ≤ d.goff) (hp : p < c.goff) :
    ¬Cached (c :: cells) p := by
  rintro ⟨d, _ | ⟨_, hd⟩, hd'⟩
  · omega
  · have := (List.pairwise_cons.mp hdisjoint).1 d hd
    omega

theorem gapsOnDisk_cons {c : DataCell} (hgoff : goff ≤ c.goff)
    (hgap : c.goff - goff = 0 ∨ goff + (c.goff - goff) ≤ disk.length) :
    GapsOnDisk disk goff stop (c :: cells) ↔ GapsOnDisk disk (c.goff + c.len) stop cells := by
  constructor
  · intro h p hlo hhi hp
    refine h p (by omega) hhi ?_
    rintro ⟨d, _ | ⟨_, hd⟩, hd'⟩
    · omega
    · exact hp ⟨d, hd, hd'⟩
  · intro h p hlo hhi hp
    rcases Nat.lt_or_ge p c.goff with hlt | hge
    · omega
    · have hout : c.goff + c.len ≤ p := by
        by_contra hin
        exact hp ⟨c, List.mem_cons_self, hge, by omega⟩
      exact h p hout hhi fun ⟨d, hd, hd'⟩ => hp ⟨d, List.mem_cons_of_mem c hd, hd'⟩

/-- The read in front of a cell, where there is one. -/
theorem hashGap_spec (disk : File) {goff' : Nat} (hgoff : goff ≤ goff') (s : Digesting) :
    HashRead disk goff (goff' - goff) s
      (if goff < goff' then updateHashWithRead disk goff (goff' - goff) s else (true, s)) := by
  split
  · exact updateHashWithRead_spec ..
  next hge =>
    obtain rfl : goff = goff' := by omega
    rw [Nat.sub_self]
    exact .none disk goff s

theorem hashCells_spec (hgoff : goff ≤ stop)
    (hin : ∀ c ∈ cells, goff ≤ c.goff ∧ c.goff + c.len ≤ stop)
    (hdisjoint : cells.Pairwise fun c d => c.goff + c.len ≤ d.goff)
    (hmerged : Merged disk after goff stop cells) :
    let r := hashCells disk stop cells goff s
    (r.1 = true ↔ GapsOnDisk disk goff stop cells) ∧
      (r.1 = true → r.2.update = s.update ++ after.read goff (stop - goff)) ∧
      ∃ rs, r.2.taken = s.taken ++ rs ∧ Ascending stop goff rs := by
  intro r
  induction cells generalizing goff s with
  | nil =>
    have h : HashRead disk goff (stop - goff) s r := updateHashWithRead_spec ..
    have hfree : ∀ p, ¬Cached [] p := by
      rintro p ⟨c, hc, -⟩
      exact List.not_mem_nil hc
    refine ⟨?_, fun hok => ?_, ?_⟩
    · rw [h.ok_iff]
      constructor
      · intro hle p hlo hhi _
        omega
      · intro hgaps
        by_contra hne
        have := hgaps (stop - 1) (by omega) (by omega) (hfree _)
        omega
    · rw [h.update hok]
      congr 1
      rcases h.ok_iff.mp hok with h0 | hle
      · rw [h0, File.read, File.read, List.take_zero, List.take_zero]
      · exact (hmerged.gap goff stop le_rfl le_rfl (fun p _ _ => hfree p) (by omega)).symm
    · have htaken := h.taken
      rwa [Nat.add_sub_cancel' hgoff] at htaken
  | cons c cells ih =>
    obtain ⟨hc, hcstop⟩ := hin c List.mem_cons_self
    have hgap := hashGap_spec disk hc s
    have hfree : ∀ p, p < c.goff → ¬Cached (c :: cells) p := fun p => not_cached_of_lt hdisjoint
    obtain ⟨rs, hrs, hasc⟩ := hgap.taken
    rw [Nat.add_sub_cancel' hc] at hasc
    cases hread : (if goff < c.goff then updateHashWithRead disk goff (c.goff - goff) s
      else (true, s)) with
    | mk ok s' =>
    rw [hread] at hgap hrs
    cases ok with
    | false =>
      have hr : r = (false, s') := by
        change hashCells _ _ _ _ _ = _
        rw [hashCells, hread]
      rw [hr]
      have hend : Ascending stop c.goff [] := (Nat.le_add_right ..).trans hcstop
      have hasc' := hasc.append hend
      rw [List.append_nil] at hasc'
      refine ⟨iff_of_false Bool.false_ne_true fun hgaps => ?_,
        fun hok => absurd hok Bool.false_ne_true, rs, hrs, hasc'⟩
      have hne := hgap.ok_iff.not.mp Bool.false_ne_true
      have := hgaps (c.goff - 1) (by omega) (by omega) (hfree _ (by omega))
      omega
    | true =>
      have hr : r = hashCells disk stop cells (c.goff + c.len)
          ⟨s'.update ++ c.bytes, s'.taken ++ [(c.goff, c.len)]⟩ := by
        change hashCells _ _ _ _ _ = _
        rw [hashCells, hread]
      obtain ⟨hd, hdisjoint'⟩ := List.pairwise_cons.mp hdisjoint
      obtain ⟨hok, hupdate, rs', hrs', hasc'⟩ := ih (s := ⟨s'.update ++ c.bytes, _⟩) hcstop
        (fun d hd' => ⟨hd d hd', (hin d (List.mem_cons_of_mem c hd')).2⟩) hdisjoint'
        (hmerged.tail (by omega))
      rw [← hr] at hok hupdate hrs'
      have hgap' := hgap.ok_iff.mp rfl
      refine ⟨hok.trans (gapsOnDisk_cons hc hgap').symm, fun h => ?_, ?_⟩
      · have hbefore : disk.read goff (c.goff - goff) = after.read goff (c.goff - goff) := by
          rcases hgap' with h0 | hle
          · rw [h0, File.read, File.read, List.take_zero, List.take_zero]
          · exact (hmerged.gap goff c.goff le_rfl (by omega) (fun p _ => hfree p) (by omega)).symm
        have hbytes := hmerged.cell c List.mem_cons_self
        have h1 := after.read_append_read goff (c.goff - goff) c.len
        have h2 := after.read_append_read goff (c.goff - goff + c.len) (stop - (c.goff + c.len))
        rw [Nat.add_sub_cancel' hc] at h1
        rw [← Nat.add_assoc, Nat.add_sub_cancel' hc, ← h1,
          show c.goff - goff + c.len + (stop - (c.goff + c.len)) = stop - goff by omega] at h2
        rw [hupdate h, hgap.update rfl, hbefore, ← hbytes, ← h2]
        simp only [List.append_assoc]
      · refine ⟨rs ++ (c.goff, c.len) :: rs', ?_, hasc.append ⟨le_rfl, hasc'⟩⟩
        rw [hrs', hrs]
        simp only [List.append_assoc, List.cons_append, List.nil_append]

end Cells

/-- **The digest** is that of the bytes after `writeToDisk` where every byte of the piece that is in
no cell is on the disk; else the exception is thrown. No byte is taken twice, and none outside the
piece. -/
theorem getDigestWithWrCache_spec (hash : List UInt8 → List UInt8) (disk : File)
    (index pieceLength length : Nat)
    (wrCache : Option (PieceCells (index * pieceLength) length)) :
    let start := index * pieceLength
    let cells := (wrCache.map fun set => set.cells).getD []
    let r := getDigestWithWrCache hash disk index pieceLength length wrCache
    (GapsOnDisk disk start (start + length) cells →
        r.1 = .ok (hash ((writeToDisk disk cells).read start length))) ∧
      (¬GapsOnDisk disk start (start + length) cells → r.1 = .error dataIsTooShort) ∧
      (r.2.Pairwise fun a b => a.1 + a.2 ≤ b.1) ∧
      ∀ a ∈ r.2, start ≤ a.1 ∧ a.1 + a.2 ≤ start + length := by
  intro start cells r
  obtain ⟨set, hcells, hr⟩ : ∃ set : PieceCells start length, set.cells = cells ∧
      r = (let s := hashCells disk (start + length) cells start {}
        (if s.1 then .ok (hash s.2.update) else .error dataIsTooShort, s.2.taken)) := by
    cases wrCache with
    | some set => exact ⟨set, rfl, rfl⟩
    | none =>
      have hnil : hashCells disk (start + length) cells start {} =
          updateHashWithRead disk start length {} := by
        change hashCells disk (start + length) [] start {} = _
        rw [hashCells, Nat.add_sub_cancel_left]
      refine ⟨⟨⟨[], .nil⟩, (fun c hc => nomatch hc), .nil⟩, rfl, ?_⟩
      dsimp only
      rw [hnil]
      rfl
  have hinside := set.inside
  have hdisjoint := set.disjoint
  rw [hcells] at hinside hdisjoint
  have hmerged : Merged disk (writeToDisk disk cells) start (start + length) cells :=
    ⟨fun c hc => read_cell hdisjoint hc, fun a b _ _ hfree hb => read_gap hfree hb⟩
  obtain ⟨hok, hupdate, rs, htaken, hasc⟩ :=
    hashCells_spec (s := {}) (Nat.le_add_right ..) hinside hdisjoint hmerged
  rw [hr]
  dsimp only
  rw [Nat.add_sub_cancel_left] at hupdate
  refine ⟨fun h => ?_, fun h => ?_, ?_, ?_⟩
  · rw [if_pos (hok.mpr h), hupdate (hok.mpr h)]
    rfl
  · rw [if_neg (hok.not.mpr h)]
  · rw [htaken]
    exact hasc.pairwise
  · rw [htaken]
    exact hasc.within

/-- A cell of one byte at offset 1. -/
def lateCell : PieceCells (0 * 2) 2 where
  cells := [⟨1, [7], 0, 1, by decide⟩]
  sorted := List.pairwise_singleton ..
  inside := by decide
  disjoint := List.pairwise_singleton ..

/-- Where the disk is empty, the byte in front of the cell is not there; `writeToDisk` would make it
a zero. -/
theorem too_short_counterexample :
    (getDigestWithWrCache id [] 0 2 2 (some lateCell)).1 = .error dataIsTooShort ∧
      (writeToDisk [] lateCell.cells).read 0 2 = [0, 7] := by
  rw [writeToDisk_eq]
  decide

end FluxCore.Disk
