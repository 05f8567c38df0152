import FluxCore.Metadata.Download

/-!
# Bad pieces of metadata

What is hashed depends on every message written since the buffer was made: a wrong hash marks the
pieces missing and leaves the buffer as long as it is. The runs are watched by records of the
messages written since the last wrong hash, of the furthest end of all that were ever written, of
those that marked a piece complete and of every hash taken.
-/

namespace FluxCore.Metadata

open Storage (BitfieldMan)

/-- A data message that was tracked. -/
structure Message where
  index : Nat
  data : Bytes
  deriving DecidableEq

/-- Where the data of a message ends in the metadata. -/
def Message.stop (m : Message) : Nat := m.index * METADATA_PIECE_SIZE + m.data.length

/-- A hash that was taken, with the messages of its round and how far messages had been written. -/
structure Hash where
  round : List Message
  reach : Nat
  metadata : Bytes
  accepted : Bool
  deriving DecidableEq

structure Watched where
  download : Download
  /-- The messages written since the last wrong hash. -/
  round : List Message := []
  reach : Nat := 0
  /-- The messages that marked a piece complete. -/
  marked : List Message := []
  /-- The messages the buffer did not take. -/
  refused : List Message := []
  hashes : List Hash := []

/-- Completing the piece sets its bit, which was clear. -/
def Download.Marks (d : Download) (index : Nat) : Prop :=
  d.bitfieldMan.isBitSet index = false ∧ (d.completePiece index).bitfieldMan.isBitSet index = true

instance (d : Download) (index : Nat) : Decidable (d.Marks index) :=
  inferInstanceAs (Decidable (_ ∧ _))

namespace Watched

variable (sha1 : Bytes → Bytes) (infoHash : Bytes)

/-- A message is written. -/
def write (s : Watched) (m : Message) : Watched where
  download := s.download
  round := m :: s.round
  reach := max s.reach m.stop
  marked := if s.download.Marks m.index then m :: s.marked else s.marked
  refused := s.refused
  hashes := s.hashes

/-- The records of a message with the outcome of its action. -/
def record (s : Watched) (m : Message) : Outcome → Watched
  | .untracked => s
  | .failed _ => { s with refused := m :: s.refused }
  | .written => s.write m
  | .hashed metadata accepted =>
    let s := s.write m
    { s with
      round := if accepted then s.round else []
      hashes := ⟨s.round, s.reach, metadata, accepted⟩ :: s.hashes }

def step (s : Watched) (e : Event) : Watched :=
  let download := s.download.step sha1 infoHash e
  match e with
  | .data peer index data =>
    let o := (s.download.doReceivedAction sha1 infoHash peer index data).1
    { s.record ⟨index, data⟩ o with download }
  | _ => { s with download }

end Watched

/-- What a magnet link stands for. -/
structure Target where
  bytes : Bytes
  pos : 0 < bytes.length
  le : bytes.length ≤ MAX_METADATA_SIZE

namespace Target

variable (t : Target)

def piece (index : Nat) : Bytes :=
  (t.bytes.drop (index * METADATA_PIECE_SIZE)).take METADATA_PIECE_SIZE

def getNumPieces : Nat := Storage.blockCount METADATA_PIECE_SIZE t.bytes.length

/-- The length of the piece `index`. -/
def getBlockLength (index : Nat) : Nat :=
  (BitfieldMan.new METADATA_PIECE_SIZE t.bytes.length).getBlockLength index

/-- Each message carries exactly the bytes of its piece. -/
def Truthful (round : List Message) : Prop := ∀ m ∈ round, m.data = t.piece m.index

/-- Every piece has been received. -/
def Covers (round : List Message) : Prop := ∀ i < t.getNumPieces, ∃ m ∈ round, m.index = i

instance (round : List Message) : Decidable (t.Truthful round) :=
  inferInstanceAs (Decidable (∀ m ∈ round, _))

instance (round : List Message) : Decidable (t.Covers round) :=
  inferInstanceAs (Decidable (∀ i < t.getNumPieces, ∃ m ∈ round, _))

/-- One bad piece does not spoil the download: a round in which every piece is received is hashed,
and if each carries its true bytes, then the hash is taken of the metadata and the download is
accepted. -/
structure Unspoilt (s : Watched) : Prop where
  hashed : t.Covers s.round → ∃ h ∈ s.hashes, h.round = s.round
  exact : ∀ h ∈ s.hashes, t.Truthful h.round → h.metadata = t.bytes ∧ h.accepted = true
  taken : ∀ m ∈ s.refused, m.index < t.getNumPieces → m.data ≠ t.piece m.index

/-- No message had been written past the end before the pieces came that a hash was taken of. -/
def Within (s : Watched) : Prop :=
  ∀ h ∈ s.hashes, t.Truthful h.round → h.reach ≤ t.bytes.length

/-- Only messages as long as their piece mark one complete. -/
def MarkedExactly (s : Watched) : Prop :=
  ∀ m ∈ s.marked, m.data.length = t.getBlockLength m.index

/-- A message for a missing piece, as long as the buffer can take it, has the piece's length. -/
def Exact (s : Watched) : Event → Prop
  | .data peer index data =>
    index ∈ s.download.tracked peer → index * METADATA_PIECE_SIZE + data.length ≤ maxLength →
      index < t.getNumPieces → s.download.bitfieldMan.isBitSet index = false →
        data.length = t.getBlockLength index
  | _ => True

def start : Watched where
  download := .new t.bytes.length

end Target

/-! ## The buffer of a round -/

variable {t : Target} {sha1 : Bytes → Bytes}

theorem METADATA_PIECE_SIZE_pos : 0 < METADATA_PIECE_SIZE := by decide

theorem Target.lt_getNumPieces {index : Nat} :
    index < t.getNumPieces ↔ index * METADATA_PIECE_SIZE < t.bytes.length := by
  have hpos := METADATA_PIECE_SIZE_pos
  rw [getNumPieces, Storage.blockCount, if_pos ⟨hpos, t.pos⟩, ← Nat.succ_le_iff,
    Nat.le_div_iff_mul_le hpos, Nat.succ_mul]
  omega

theorem Target.not_covers_nil (t : Target) : ¬t.Covers [] := by
  intro h
  obtain ⟨m, hm, -⟩ := h 0 (lt_getNumPieces.mpr (by rw [Nat.zero_mul]; exact t.pos))
  cases hm

/-- The buffer and the bits agree with the messages of the round; earlier rounds show in its length
only. -/
structure Buffered (t : Target) (d : Download) (round : List Message) (reach : Nat) : Prop where
  blockLength : d.bitfieldMan.blockLength = METADATA_PIECE_SIZE
  totalLength : d.bitfieldMan.totalLength = t.bytes.length
  length_buf : d.buf.length = reach
  stop_le : ∀ m ∈ round, m.stop ≤ reach
  bits : ∀ i, d.bitfieldMan.isBitSet i = true ↔ i < d.getNumPieces ∧ ∃ m ∈ round, m.index = i
  agrees : t.Truthful round → ∀ m ∈ round, ∀ p, m.index * METADATA_PIECE_SIZE ≤ p → p < m.stop →
    d.buf[p]? = t.bytes[p]?

namespace Buffered

variable {d d' : Download} {round : List Message} {reach : Nat}

theorem start : Buffered t (.new t.bytes.length) [] 0 where
  blockLength := rfl
  totalLength := rfl
  length_buf := rfl
  stop_le := by simp
  bits := by simp [Download.new]
  agrees := by simp

theorem getNumPieces (h : Buffered t d round reach) : d.getNumPieces = t.getNumPieces := by
  rw [Download.getNumPieces, BitfieldMan.countBlock, d.bitfieldMan.length_bitfield, h.blockLength,
    h.totalLength]
  rfl

theorem isAllBitSet_iff (h : Buffered t d round reach) :
    d.bitfieldMan.isAllBitSet = true ↔ t.Covers round := by
  rw [BitfieldMan.isAllBitSet_iff, ← Download.getNumPieces, h.getNumPieces]
  refine forall₂_congr fun i hi => ?_
  rw [h.bits, h.getNumPieces]
  exact and_iff_right hi

/-- Only the buffer and the bits matter. -/
theorem congr (h : Buffered t d round reach) (hbuf : d'.buf = d.buf)
    (hman : d'.bitfieldMan = d.bitfieldMan) : Buffered t d' round reach where
  blockLength := by rw [hman, h.blockLength]
  totalLength := by rw [hman, h.totalLength]
  length_buf := by rw [hbuf, h.length_buf]
  stop_le := h.stop_le
  bits := by
    rw [Download.getNumPieces, hman]
    exact h.bits
  agrees := by
    rw [hbuf]
    exact h.agrees

theorem getElem?_piece {index p : Nat} (hp : index * METADATA_PIECE_SIZE ≤ p)
    (hlt : p < index * METADATA_PIECE_SIZE + (t.piece index).length) :
    (t.piece index)[p - index * METADATA_PIECE_SIZE]? = t.bytes[p]? := by
  unfold Target.piece at hlt ⊢
  rw [List.length_take] at hlt
  rw [List.getElem?_take, if_pos (by omega), List.getElem?_drop, Nat.add_sub_of_le hp]

/-- A message is written. -/
theorem write {m : Message} (h : Buffered t d round reach)
    (hbuf : writeData d.buf m.data (m.index * METADATA_PIECE_SIZE) = .ok d'.buf)
    (hman : d'.bitfieldMan = (d.completePiece m.index).bitfieldMan) :
    Buffered t d' (m :: round) (max reach m.stop) where
  blockLength := by rw [hman, Download.blockLength_completePiece, h.blockLength]
  totalLength := by rw [hman, Download.totalLength_completePiece, h.totalLength]
  length_buf := by rw [length_writeData hbuf, h.length_buf, Message.stop]
  stop_le := by
    intro m' hm'
    rcases List.mem_cons.mp hm' with rfl | hm'
    · exact Nat.le_max_right ..
    · exact (h.stop_le m' hm').trans (Nat.le_max_left ..)
  bits := by
    intro i
    rw [Download.getNumPieces, hman, Download.isBitSet_completePiece, h.bits,
      ← Download.getNumPieces, Download.getNumPieces_completePiece]
    simp only [List.mem_cons, exists_eq_or_imp]
    constructor
    · rintro (⟨hi, hm⟩ | ⟨rfl, hi⟩)
      exacts [⟨hi, .inr hm⟩, ⟨hi, .inl rfl⟩]
    · rintro ⟨hi, rfl | hm⟩
      exacts [.inr ⟨rfl, hi⟩, .inl ⟨hi, hm⟩]
  agrees := by
    intro htrue m' hm' p hp hlt
    have hin : p < d.buf.length ∨ m.index * METADATA_PIECE_SIZE ≤ p := by
      rcases List.mem_cons.mp hm' with rfl | hm'
      · exact .inr hp
      · exact .inl (h.length_buf ▸ hlt.trans_le (h.stop_le m' hm'))
    rw [getElem?_writeData hbuf hin]
    split
    next hwritten =>
      rw [htrue m (List.mem_cons_self ..)] at hwritten ⊢
      exact getElem?_piece hwritten.1 hwritten.2
    next hold =>
      rcases List.mem_cons.mp hm' with rfl | hm'
      · exact absurd ⟨hp, hlt⟩ hold
      · exact h.agrees (fun m'' hm'' => htrue m'' (.tail _ hm'')) m' hm' p hp hlt

/-- After a wrong hash. -/
theorem reset (h : Buffered t d round reach) : Buffered t d.markPiecesMissing [] reach where
  blockLength := (Download.foldl_markPieceMissing _).2.1.trans h.blockLength
  totalLength := (Download.foldl_markPieceMissing _).2.2.1.trans h.totalLength
  length_buf := (congrArg List.length (Download.foldl_markPieceMissing _).1).trans h.length_buf
  stop_le := by simp
  bits := by
    intro i
    simp [Download.not_isBitSet_markPiecesMissing i]
  agrees := by simp

/-- Where a truthful round covers the metadata, the buffer starts with it. -/
theorem getElem?_of_covers (h : Buffered t d round reach) (htrue : t.Truthful round)
    (hcovers : t.Covers round) {p : Nat} (hp : p < t.bytes.length) :
    d.buf[p]? = t.bytes[p]? := by
  have hle := Nat.div_mul_le_self p METADATA_PIECE_SIZE
  have hlt := Nat.lt_div_mul_add (a := p) METADATA_PIECE_SIZE_pos
  obtain ⟨m, hm, hindex⟩ := hcovers _ (Target.lt_getNumPieces.mpr (hle.trans_lt hp))
  refine h.agrees htrue m hm p (by rw [hindex]; exact hle) ?_
  rw [Message.stop, htrue m hm, hindex, Target.piece, List.length_take, List.length_drop]
  omega

end Buffered

/-! ## Runs -/

variable {s : Watched}

/-- The invariant of a run. -/
structure Inv (t : Target) (sha1 : Bytes → Bytes) (s : Watched) : Prop where
  buffered : Buffered t s.download s.round s.reach
  hashed : t.Covers s.round → ∃ h ∈ s.hashes, h.round = s.round
  length_metadata : ∀ h ∈ s.hashes, h.metadata.length = h.reach
  getElem?_metadata : ∀ h ∈ s.hashes, t.Truthful h.round → ∀ p < t.bytes.length,
    h.metadata[p]? = t.bytes[p]?
  accepted : ∀ h ∈ s.hashes, h.accepted = true ↔ sha1 h.metadata = sha1 t.bytes
  taken : ∀ m ∈ s.refused, m.index < t.getNumPieces → m.data ≠ t.piece m.index

/-- The bytes of a piece are never refused. -/
theorem stop_le_of_true {m : Message} (h : m.data = t.piece m.index)
    (hi : m.index < t.getNumPieces) : m.stop ≤ maxLength := by
  have hlt := Target.lt_getNumPieces.mp hi
  have hmax : MAX_METADATA_SIZE ≤ maxLength := by decide
  have hle := t.le
  rw [Message.stop, h, Target.piece, List.length_take, List.length_drop]
  omega

namespace Inv

theorem start : Inv t sha1 t.start where
  buffered := .start
  hashed := fun h => absurd h t.not_covers_nil
  length_metadata := by simp [Target.start]
  getElem?_metadata := by simp [Target.start]
  accepted := by simp [Target.start]
  taken := by simp [Target.start]

/-- What stays is the buffer and the bits. -/
theorem congr (h : Inv t sha1 s) {d : Download} (hbuf : d.buf = s.download.buf)
    (hman : d.bitfieldMan = s.download.bitfieldMan) : Inv t sha1 { s with download := d } :=
  { h with buffered := h.buffered.congr hbuf hman }

/-- A message does not fit. -/
theorem refuse (h : Inv t sha1 s) {m : Message} (hm : maxLength < m.stop) :
    Inv t sha1 { s with refused := m :: s.refused } :=
  { h with
    taken := fun m' hm' hi htrue => by
      rcases List.mem_cons.mp hm' with rfl | hm'
      · exact absurd (stop_le_of_true htrue hi) (Nat.not_le_of_lt hm)
      · exact h.taken m' hm' hi htrue }

/-- A message is written, and pieces are missing. -/
theorem write (h : Inv t sha1 s) {m : Message} {d : Download}
    (hd : Buffered t d (m :: s.round) (max s.reach m.stop))
    (hall : ¬d.bitfieldMan.isAllBitSet = true) :
    Inv t sha1 { s.write m with download := d } where
  buffered := hd
  hashed := fun hc => absurd (hd.isAllBitSet_iff.mpr hc) hall
  length_metadata := h.length_metadata
  getElem?_metadata := h.getElem?_metadata
  accepted := h.accepted
  taken := h.taken

/-- A hash is taken of the buffer; `d'` and `round` are what it leaves. -/
theorem hash (h : Inv t sha1 s) {m : Message} {d d' : Download} {accepted : Bool}
    {round : List Message} (hd : Buffered t d (m :: s.round) (max s.reach m.stop))
    (hall : d.bitfieldMan.isAllBitSet = true)
    (hacc : accepted = true ↔ sha1 d.buf = sha1 t.bytes)
    (hd' : Buffered t d' round (max s.reach m.stop))
    (hround : t.Covers round → round = m :: s.round) :
    Inv t sha1 { s.write m with
      download := d', round,
      hashes := ⟨m :: s.round, max s.reach m.stop, d.buf, accepted⟩ :: s.hashes } where
  buffered := hd'
  hashed := fun hc => ⟨_, List.mem_cons_self .., (hround hc).symm⟩
  length_metadata := by
    intro r hr
    rcases List.mem_cons.mp hr with rfl | hr
    exacts [hd.length_buf, h.length_metadata r hr]
  getElem?_metadata := by
    intro r hr htrue p hp
    rcases List.mem_cons.mp hr with rfl | hr
    exacts [hd.getElem?_of_covers htrue (hd.isAllBitSet_iff.mp hall) hp,
      h.getElem?_metadata r hr htrue p hp]
  accepted := by
    intro r hr
    rcases List.mem_cons.mp hr with rfl | hr
    exacts [hacc, h.accepted r hr]
  taken := h.taken

/-- What the action of a message leaves. -/
theorem record (h : Inv t sha1 s) {peer index : Nat} {data : Bytes} {o : Outcome} {d : Download}
    (hact : s.download.Action index sha1 (sha1 t.bytes) data peer o d) :
    Inv t sha1 { s.record ⟨index, data⟩ o with download := d } := by
  cases hact with
  | untracked => exact h
  | failed _ hlong hbuf hman => exact (h.refuse (m := ⟨index, data⟩) hlong).congr hbuf hman
  | written _ hbuf hman hall => exact h.write (h.buffered.write hbuf hman) hall
  | accepted _ hbuf hman hall hhash =>
    have hd := h.buffered.write (m := ⟨index, data⟩) hbuf hman
    exact h.hash hd hall (iff_of_true rfl hhash) hd fun _ => rfl
  | rejected _ hbuf hman hall hhash =>
    have hd := h.buffered.write (m := ⟨index, data⟩) hbuf hman
    exact h.hash hd hall (iff_of_false Bool.false_ne_true hhash) hd.reset fun hc =>
      absurd hc t.not_covers_nil

theorem step (h : Inv t sha1 s) (e : Event) : Inv t sha1 (s.step sha1 (sha1 t.bytes) e) := by
  cases e with
  | connect => exact h.congr rfl rfl
  | disconnect peer => exact h.congr rfl rfl
  | request peer index =>
    refine h.congr ?_ ?_
    all_goals
      unfold Download.step
      dsimp only
      split <;> rfl
  | expire peer kept => exact h.congr rfl rfl
  | data peer index data =>
    obtain ⟨hbuf, hman⟩ := s.download.step_data sha1 (sha1 t.bytes) peer index data
    exact congr (h.record (Download.doReceivedAction_action ..)) hbuf hman

theorem unspoilt_iff (h : Inv t sha1 s) : t.Unspoilt s ↔ t.Within s := by
  have hexact : ∀ r ∈ s.hashes, t.Truthful r.round →
      (r.metadata = t.bytes ↔ r.reach ≤ t.bytes.length) := by
    intro r hr htrue
    have hbytes := h.getElem?_metadata r hr htrue
    rw [← h.length_metadata r hr]
    constructor
    · exact fun heq => heq ▸ le_rfl
    · intro hle
      refine List.ext_getElem? fun p => ?_
      rcases lt_or_ge p t.bytes.length with hp | hp
      · exact hbytes p hp
      · rw [List.getElem?_eq_none hp, List.getElem?_eq_none (hle.trans hp)]
  constructor
  · exact fun hu r hr htrue => (hexact r hr htrue).mp (hu.exact r hr htrue).1
  · intro hw
    refine ⟨h.hashed, fun r hr htrue => ?_, h.taken⟩
    have heq := (hexact r hr htrue).mpr (hw r hr htrue)
    exact ⟨heq, (h.accepted r hr).mpr (by rw [heq])⟩

end Inv

/-- Which messages mark a piece. -/
theorem Watched.marked_record (s : Watched) {peer index : Nat} {data infoHash : Bytes} {o : Outcome}
    {d : Download} (hact : s.download.Action index sha1 infoHash data peer o d) :
    (s.record ⟨index, data⟩ o).marked =
      if index ∈ s.download.tracked peer ∧
          index * METADATA_PIECE_SIZE + data.length ≤ maxLength ∧ s.download.Marks index
        then ⟨index, data⟩ :: s.marked else s.marked := by
  cases hact with
  | untracked h => rw [if_neg fun hc => h hc.1]; rfl
  | failed h hlong => rw [if_neg fun hc => absurd hc.2.1 (Nat.not_le_of_lt hlong)]; rfl
  | written h hbuf => simp only [h, (writeData_eq hbuf).1, true_and]; rfl
  | accepted h hbuf => simp only [h, (writeData_eq hbuf).1, true_and]; rfl
  | rejected h hbuf => simp only [h, (writeData_eq hbuf).1, true_and]; rfl

theorem marks_iff {d : Download} {index : Nat} :
    d.Marks index ↔ index < d.getNumPieces ∧ d.bitfieldMan.isBitSet index = false := by
  rw [Download.Marks, Download.isBitSet_completePiece]
  constructor
  · rintro ⟨hclear, hset | ⟨-, hlt⟩⟩
    · exact absurd hset (by simp [hclear])
    · exact ⟨hlt, hclear⟩
  · exact fun ⟨hlt, hclear⟩ => ⟨hclear, .inr ⟨rfl, hlt⟩⟩

/-- A step keeps the messages that marked a piece exact just when its message is. -/
theorem markedExactly_step (h : Inv t sha1 s) (e : Event) :
    t.MarkedExactly (s.step sha1 (sha1 t.bytes) e) ↔ t.MarkedExactly s ∧ t.Exact s e := by
  cases e with
  | data peer index data =>
    have hmarked := s.marked_record
      (s.download.doReceivedAction_action sha1 (sha1 t.bytes) peer index data)
    change (∀ m ∈ (s.record _ _).marked, _) ↔ _
    have hiff : s.download.Marks index ↔ _ := marks_iff
    rw [h.buffered.getNumPieces] at hiff
    rw [hmarked]
    split
    next hmarks =>
      obtain ⟨ht, hstop, hi⟩ := hmarks
      obtain ⟨hi, hclear⟩ := hiff.mp hi
      simp only [List.mem_cons, forall_eq_or_imp, Target.Exact, ht, hstop, hi, hclear, true_imp_iff]
      exact and_comm
    next hmarks =>
      refine (and_iff_left fun ht hstop hi hclear => ?_).symm
      exact absurd ⟨ht, hstop, hiff.mpr ⟨hi, hclear⟩⟩ hmarks
  | _ => exact (and_iff_left trivial).symm

variable (t sha1) in
/-- One bad piece does not spoil the download exactly when no message had been written past the end
of the metadata; and pieces are marked by messages of their length exactly when every message for a
missing piece has it. -/
theorem spoiled_by_length (es : List Event) :
    (Visits (Watched.step sha1 (sha1 t.bytes)) t.Unspoilt t.start es ↔
        Visits (Watched.step sha1 (sha1 t.bytes)) t.Within t.start es) ∧
      (Visits (Watched.step sha1 (sha1 t.bytes)) t.MarkedExactly t.start es ↔
        Along (Watched.step sha1 (sha1 t.bytes)) t.Exact t.start es) := by
  constructor
  · exact visits_congr (fun _ e => Inv.step (e := e)) (fun _ => Inv.unspoilt_iff) Inv.start
  · refine visits_iff_along (P := fun _ _ => True)
      (fun s e (h : Inv t sha1 s ∧ t.MarkedExactly s) _ hexact =>
        ⟨h.1.step e, (markedExactly_step h.1 e).mpr ⟨h.2, hexact⟩⟩)
      (fun _ h => h.2) (fun s e h _ hexact hm => hexact ((markedExactly_step h.1 e).mp hm).2)
      ⟨Inv.start, by simp [Target.MarkedExactly, Target.start]⟩ (.of_forall fun _ _ => trivial)

/-! A link stands for three bytes. The first peer sends four, and the hash is wrong; the second
sends the three, and the fourth byte is still there. The digests are those of SHA-1. -/

def threeBytes : Target := ⟨[1, 2, 3], by decide, by decide⟩

def threeDigest (metadata : Bytes) : Bytes :=
  if metadata = [1, 2, 3] then
    [112, 55, 128, 113, 152, 194, 42, 125, 43, 8, 7, 55, 29, 118, 55, 121, 168, 79, 223, 207]
  else if metadata = [1, 2, 3, 4] then
    [18, 218, 218, 31, 255, 77, 71, 135, 173, 227, 51, 49, 71, 32, 44, 59, 68, 62, 55, 111]
  else []

def fourthByte : List Event :=
  [.connect, .connect, .request 0 0, .data 0 0 [1, 2, 3, 4], .request 1 0, .data 1 0 [1, 2, 3]]

theorem spoiled_by_fourth_byte :
    ¬Visits (Watched.step threeDigest (threeDigest [1, 2, 3])) threeBytes.Unspoilt threeBytes.start
      fourthByte ∧
    ¬Visits (Watched.step threeDigest (threeDigest [1, 2, 3])) threeBytes.MarkedExactly
      threeBytes.start fourthByte := by
  constructor
  · intro h
    have hexact := h.last.exact ⟨[⟨0, [1, 2, 3]⟩], 4, [1, 2, 3, 4], false⟩ (by decide +kernel)
      (by decide +kernel)
    exact absurd hexact.2 (by decide)
  · intro h
    exact absurd (h.last ⟨0, [1, 2, 3, 4]⟩ (by decide +kernel)) (by decide +kernel)

end FluxCore.Metadata
