import FluxCore.Bitfield.Answers
import FluxCore.Progress.Format

/-!
# Loading what was saved

The content that `save` writes is a header, a bit field and pieces in flight in the format that
`load` reads. In a storage of the same geometry it restores the marks (`load_content_same`); in one
of another piece length a piece is marked where the pieces of the file that it meets all are
(`isBitSet_convertBitfield`), so that no byte is marked that was not complete.
-/

namespace FluxCore.Progress

open Bitfield (BitfieldMan)

variable {ctx : Context}

namespace State

variable (s : State ctx)

/-- The header that `save` writes. -/
def header : Header where
  version := 1
  extension := [0, 0, 0, if ctx.isTorrentDownload then 1 else 0]
  savedInfoHash := (ctx.torrent.map InfoHash.bytes).getD []
  pieceLength := ctx.pieceLength
  uploadLength := s.uploadLength

def bits : List UInt8 := s.storage.bitfieldMan.bitfield.bytes

/-- What follows the bit field. -/
def inFlight : List UInt8 :=
  octets 4 s.storage.usedPieces.entries.length ++
    s.storage.usedPieces.entries.flatMap fun e => e.2.bytes 1 e.1

theorem flatten_pieceWrites (index : Nat) (p : Piece) :
    (pieceWrites index p).flatten = p.bytes 1 index := by
  simp [pieceWrites, Piece.bytes, int_one, Piece.getBitfieldLength]

theorem content_eq : s.content =
    s.header.bytes ctx ++ (octets 4 s.bits.length ++ (s.bits ++ s.inFlight)) := by
  have hpieces : (s.storage.usedPieces.entries.flatMap fun e => pieceWrites e.1 e.2).flatten =
      s.storage.usedPieces.entries.flatMap fun e => e.2.bytes 1 e.1 := by
    rw [List.flatMap_def, List.flatten_flatten, List.map_map, ← List.flatMap_def]
    exact congrArg (List.flatMap · _) (funext fun e => flatten_pieceWrites e.1 e.2)
  unfold content writes
  rw [List.flatten_append, hpieces]
  cases hctx : ctx.torrent with
  | none => simp [Header.bytes, header, hctx, int_one, bits, inFlight, Context.isTorrentDownload]
  | some infoHash =>
    simp [Header.bytes, header, hctx, int_one, bits, inFlight, Context.isTorrentDownload,
      infoHash.length_bytes]

theorem uploadLength_lt : s.uploadLength < 256 ^ 8 := by
  unfold uploadLength
  split <;> omega

/-- It is one for every download of the same torrent or file, whatever the piece length. -/
theorem header_valid {ctx' : Context} (htorrent : ctx'.torrent = ctx.torrent) :
    s.header.Valid ctx' where
  version_le := le_rfl
  length_extension := rfl
  length_infoHash := by
    cases hctx : ctx.torrent with
    | none => simp [header, hctx]
    | some infoHash => simp [header, hctx, infoHash.length_bytes]
  infoHash hcheck := by
    rw [htorrent]
    cases hctx : ctx.torrent with
    | none => simp [Context.infoHashCheckEnabled, Context.isTorrentDownload, htorrent, hctx] at hcheck
    | some infoHash => simp [header, hctx]
  pieceLength_pos := ctx.pieceLength_pos
  pieceLength_lt := ctx.pieceLength_lt.trans (by decide)
  uploadLength_lt := s.uploadLength_lt

theorem header_bytes {ctx' : Context} (htotal : ctx'.totalLength = ctx.totalLength) :
    s.header.bytes ctx' = s.header.bytes ctx := by
  rw [Header.bytes, Header.bytes, htotal]

end State

theorem blockCount_eq {b t : Nat} (hb : 0 < b) : Storage.blockCount b t = (t + b - 1) / b := by
  unfold Storage.blockCount
  split
  · rfl
  · rw [Nat.div_eq_of_lt (by omega)]

theorem PieceStorage.blocks_eq (s : PieceStorage ctx) :
    s.bitfieldMan.blocks = ctx.getNumPieces := by
  rw [s.bitfieldMan.blocks_eq, s.blockLength_eq, s.totalLength_eq, blockCount_eq ctx.pieceLength_pos]
  rfl

theorem PieceStorage.length_bits (s : PieceStorage ctx) :
    s.bitfieldMan.bitfield.bytes.length = (ctx.getNumPieces + 7) / 8 := by
  rw [s.bitfieldMan.bitfield.length_bytes, s.blocks_eq]

/-! ## The same geometry -/

namespace PieceStorage

variable (s : PieceStorage ctx)

/-- The piece as it is read back. -/
def saved (e : Nat × Piece) (he : e ∈ s.usedPieces.entries) : InFlightPiece ctx where
  index := e.1
  piece := (Piece.new e.2.getLength).setBitfield e.2.bitfield.bitfield.bytes
  index_lt := (s.usedPieces_fit e he).1
  length_le := (Piece.getLength_setBitfield _ _).trans_le (s.usedPieces_fit e he).2

variable {s} {e : Nat × Piece} {he : e ∈ s.usedPieces.entries}

theorem getLength_saved : (s.saved e he).piece.getLength = e.2.getLength :=
  Piece.getLength_setBitfield ..

theorem bytes_saved :
    (s.saved e he).piece.bitfield.bitfield.bytes = e.2.bitfield.bitfield.bytes :=
  Piece.bytes_setBitfield _ (e.2.getBitfieldLength_new).symm

theorem valid_saved (h : e.1 < 2 ^ 32) : (s.saved e he).Valid where
  index_lt := h
  plain := by
    rw [Piece.Plain, getLength_saved, bytes_saved]
    rfl

theorem saved_bytes : (s.saved e he).bytes 1 = e.2.bytes 1 e.1 := by
  rw [InFlightPiece.bytes, Piece.bytes, Piece.bytes, getLength_saved, Piece.getBitfieldLength,
    bytes_saved]
  rfl

/-- The pieces that are added to a storage. -/
theorem find?_addInFlightPiece (s : PieceStorage ctx) (ps : List (InFlightPiece ctx)) (i : Nat) :
    (s.addInFlightPiece ps).usedPieces.find? i =
      (s.usedPieces.find? i).or ((ps.find? fun p => p.index = i).map InFlightPiece.piece) := by
  induction ps generalizing s with
  | nil => simp [addInFlightPiece]
  | cons p ps ih =>
    have hcons : s.addInFlightPiece (p :: ps) = (s.addUsedPiece p).addInFlightPiece ps := rfl
    rw [hcons, ih, addUsedPiece]
    split
    · next q hq =>
      by_cases hi : p.index = i
      · subst hi
        simp [hq]
      · rw [List.find?_cons_of_neg (by simpa using hi)]
    · next hq =>
      by_cases hi : p.index = i
      · subst hi
        simp [hq]
      · rw [List.find?_cons_of_neg (by simpa using hi), OrderedMap.find?_insert_of_ne (Ne.symm hi)]

/-- The pieces that `save` writes, as they are read back. -/
def savedPieces (s : PieceStorage ctx) : List (InFlightPiece ctx) :=
  s.usedPieces.entries.attach.map fun e => s.saved e.1 e.2

theorem mem_savedPieces {p : InFlightPiece ctx} :
    p ∈ s.savedPieces ↔ ∃ e, ∃ he : e ∈ s.usedPieces.entries, s.saved e he = p := by
  simp [savedPieces]

theorem flatMap_savedPieces : (s.savedPieces.flatMap fun p => p.bytes 1) =
    s.usedPieces.entries.flatMap fun e => e.2.bytes 1 e.1 := by
  rw [savedPieces, List.flatMap_map]
  simp only [saved_bytes]
  rw [List.flatMap_def, List.flatMap_def]
  exact congrArg List.flatten
    (List.attach_map_val (f := fun e : Nat × Piece => e.2.bytes 1 e.1))

/-- A piece in flight is read back with its length and its blocks. -/
theorem find?_savedPieces (s : PieceStorage ctx) (i : Nat) :
    (((s.savedPieces.find? fun p => p.index = i).map InFlightPiece.piece).map fun p =>
      (p.getLength, p.bitfield.bitfield.bytes)) =
      (s.usedPieces.find? i).map fun p => (p.getLength, p.bitfield.bitfield.bytes) := by
  cases hused : s.usedPieces.find? i with
  | none =>
    have hnone : (s.savedPieces.find? fun p => p.index = i) = none := by
      refine List.find?_eq_none.mpr fun p hp => ?_
      obtain ⟨e, he, rfl⟩ := mem_savedPieces.mp hp
      exact fun heq => OrderedMap.find?_eq_none.mp hused e he (of_decide_eq_true heq)
    rw [hnone]
    rfl
  | some p =>
    have he := OrderedMap.find?_eq_some.mp hused
    cases hfind : s.savedPieces.find? fun p => p.index = i with
    | none =>
      exact absurd (decide_eq_true rfl)
        (List.find?_eq_none.mp hfind _ (mem_savedPieces.mpr ⟨_, he, rfl⟩))
    | some q =>
      obtain ⟨e', he', rfl⟩ := mem_savedPieces.mp (List.mem_of_find?_eq_some hfind)
      have hkey : e'.1 = i := of_decide_eq_true (List.find?_some hfind :)
      obtain rfl := s.usedPieces.eq_of_key_eq he' he hkey
      rw [Option.map_some, Option.map_some, Option.map_some, getLength_saved, bytes_saved]

end PieceStorage

theorem PieceStorage.bitfieldMan_addInFlightPiece (s : PieceStorage ctx)
    (ps : List (InFlightPiece ctx)) : (s.addInFlightPiece ps).bitfieldMan = s.bitfieldMan := by
  induction ps generalizing s with
  | nil => rfl
  | cons p ps ih =>
    refine (ih (s.addUsedPiece p)).trans ?_
    unfold addUsedPiece
    split <;> rfl

theorem load_of_header {s₀ : State ctx} {file rest : List UInt8} {h : Header} (hvalid : h.Valid ctx)
    (hfile : file = h.bytes ctx ++ rest) :
    s₀.load file = (s₀.setUploadLengthAtStartup h).loadBody h ⟨rest, []⟩ := by
  simp only [State.load, readHeader_eq_ok.mpr ⟨hvalid, rest, hfile, rfl⟩]

theorem loadBody_of_bitfield {s₀ : State ctx} {h : Header} {rest bits : List UInt8}
    {qs : List Request} (hlen : bits.length = ctx.expectedBitfieldLength h) :
    s₀.loadBody h ⟨int h.version 4 bits.length ++ (bits ++ rest), qs⟩ =
      if h.pieceLength = ctx.pieceLength then
        s₀.loadSame h bits ⟨rest, qs ++ [.bitfield bits.length (ctx.savedPieces h)]⟩
      else s₀.loadConverted h bits ⟨rest, qs ++ [.bitfield bits.length (ctx.savedPieces h)]⟩ := by
  simp only [State.loadBody, readBitfield_eq_ok.mpr ⟨hlen, rest, rfl, rfl⟩]

theorem storage_setUploadLengthAtStartup (s : State ctx) (h : Header) :
    (s.setUploadLengthAtStartup h).storage = s.storage := by
  unfold State.setUploadLengthAtStartup
  split <;> rfl

/-- In a storage of the same geometry, the marks are restored. -/
theorem load_content_same (s s₀ : State ctx) (hs₀ : s₀.storage = .new ctx)
    (hbits : s.bits.length < 2 ^ 32) (hcount : s.storage.usedPieces.entries.length < 2 ^ 32)
    (hindex : ∀ e ∈ s.storage.usedPieces.entries, e.1 < 2 ^ 32) :
    (s₀.load s.content).outcome = .returned ∧
      (s₀.load s.content).state.bits = s.bits ∧
      ∀ i, ((s₀.load s.content).state.storage.usedPieces.find? i).map
          (fun p => (p.getLength, p.bitfield.bitfield.bytes)) =
        (s.storage.usedPieces.find? i).map fun p => (p.getLength, p.bitfield.bitfield.bytes) := by
  have hread : s.bits.length = ctx.expectedBitfieldLength s.header := by
    have hlen : s.bits.length = (ctx.savedPieces s.header + 7) / 8 := s.storage.length_bits
    rw [Context.expectedBitfieldLength, ← hlen, Nat.mod_eq_of_lt hbits]
  obtain ⟨r', hpieces⟩ : ∃ r', ctx.readInFlightPieces 1
      ⟨s.inFlight, [] ++ [.bitfield s.bits.length (ctx.savedPieces s.header)]⟩ =
        (.ok s.storage.savedPieces, r') := by
    refine ⟨_, readInFlightPieces_eq_ok.mpr ⟨⟨?_, fun p hp => ?_⟩, [], ?_, rfl⟩⟩
    · simpa [PieceStorage.savedPieces] using hcount
    · obtain ⟨e, he, rfl⟩ := PieceStorage.mem_savedPieces.mp hp
      exact PieceStorage.valid_saved (hindex e he)
    · rw [PieceStorage.flatMap_savedPieces, State.inFlight, int_one, List.append_nil,
        PieceStorage.savedPieces, List.length_map, List.length_attach]
  have hstorage := storage_setUploadLengthAtStartup s₀ s.header
  have hlen : s.bits.length = ((PieceStorage.new ctx).bitfieldMan.blocks + 7) / 8 := by
    rw [PieceStorage.blocks_eq]
    exact s.storage.length_bits
  rw [load_of_header (s.header_valid rfl) s.content_eq, ← int_one,
    show (1 : Nat) = s.header.version from rfl, loadBody_of_bitfield hread,
    if_pos (show s.header.pieceLength = ctx.pieceLength from rfl), State.loadSame]
  simp only [show s.header.version = 1 from rfl, hpieces]
  refine ⟨trivial, ?_, fun i => ?_⟩
  · rw [State.bits, PieceStorage.bitfieldMan_addInFlightPiece, State.setBitfield, hstorage, hs₀]
    exact BitfieldMan.bytes_setBitfield _ hlen
  · rw [PieceStorage.find?_addInFlightPiece, State.setBitfield, hstorage, hs₀]
    exact s.storage.find?_savedPieces i

/-! ## Another piece length -/

section Convert

variable {m dest src : BitfieldMan} {is : List Nat} {offset length j : Nat}

theorem allSet_eq_true : allSet m is = some true ↔
    ∀ i ∈ is, i < m.blocks ∧ m.isBitSet i = true := by
  induction is with
  | nil => simp [allSet]
  | cons i is ih =>
    rw [allSet, List.forall_mem_cons, ← ih]
    split_ifs with hlt hbit
    · simp [hlt, hbit]
    · simp [hbit]
    · simp [hlt]

theorem allSet_ne_none (h : ∀ i ∈ is, i < m.blocks) : allSet m is ≠ none := by
  induction is with
  | nil => simp [allSet]
  | cons i is ih =>
    obtain ⟨hi, his⟩ := List.forall_mem_cons.mp h
    rw [allSet, if_pos hi]
    split_ifs
    exacts [ih his, nofun]

/-- The blocks that a range meets are set. -/
theorem isBitSet_of_offsetRange (h : isBitSetOffsetRange m offset length = some true) {b : Nat}
    (hb : offset ≤ b) (hb' : b < offset + length) (ht : b < m.totalLength) :
    m.isBitSet (b / m.blockLength) = true := by
  unfold isBitSetOffsetRange at h
  rw [if_neg (by omega), if_neg (by omega)] at h
  refine (allSet_eq_true.mp h _ (List.mem_range'_1.mpr ?_)).2
  have h1 : offset / m.blockLength ≤ b / m.blockLength := Nat.div_le_div_right hb
  have h2 : b / m.blockLength ≤ (offset + (if m.totalLength < offset + length then
      m.totalLength - offset else length) - 1) / m.blockLength :=
    Nat.div_le_div_right (by split <;> omega)
  omega

theorem offsetRange_ne_none (hb : 0 < m.blockLength) (offset length : Nat) :
    isBitSetOffsetRange m offset length ≠ none := by
  unfold isBitSetOffsetRange
  by_cases h0 : length = 0
  · rw [if_pos h0]
    nofun
  by_cases ht : m.totalLength ≤ offset
  · rw [if_neg h0, if_pos ht]
    nofun
  · rw [if_neg h0, if_neg ht]
    refine allSet_ne_none fun i hi => ?_
    obtain ⟨hlo, hi⟩ := List.mem_range'_1.mp hi
    have hblocks := m.blocks_eq
    rw [Storage.blockCount, if_pos ⟨hb, by omega⟩] at hblocks
    have hle : (offset + (if m.totalLength < offset + length then m.totalLength - offset
        else length) - 1) / m.blockLength ≤ (m.totalLength - 1) / m.blockLength :=
      Nat.div_le_div_right (by split <;> omega)
    have hlast : (m.totalLength - 1) / m.blockLength + 1 = m.blocks := by
      rw [hblocks, ← Nat.add_div_right _ hb]
      congr 1
      omega
    omega

theorem isBitSet_setBit_of_ne (m : BitfieldMan) {i j : Nat} (h : j ≠ i) :
    (m.setBit i).2.isBitSet j = m.isBitSet j := by
  change (m.bitfield.setBitInternal i true).2.test j = m.bitfield.test j
  by_cases hi : i < m.blocks
  · rw [Bitfield.Field.test_setBitInternal hi, if_neg h]
  · rw [Bitfield.Field.setBitInternal_of_le (Nat.not_lt.mp hi)]

/-- A block is marked where the range of its bytes is. -/
theorem isBitSet_convertBitfield {d : BitfieldMan} (h : convertBitfield dest src = some d)
    (hj : d.isBitSet j = true) : dest.isBitSet j = true ∨
      isBitSetOffsetRange src (j * dest.blockLength) dest.blockLength = some true := by
  unfold convertBitfield at h
  generalize List.range dest.blocks = is at h
  suffices hsuff : ∀ d₀ : BitfieldMan, (is.foldlM (fun d index => do
      let b ← isBitSetOffsetRange src (index * dest.blockLength) dest.blockLength
      pure (if b then (d.setBit index).2 else d)) d₀) = some d → d₀.isBitSet j = true ∨
        isBitSetOffsetRange src (j * dest.blockLength) dest.blockLength = some true from hsuff dest h
  clear h
  intro d₀ h
  induction is generalizing d₀ with
  | nil =>
    cases h
    exact .inl hj
  | cons i is ih =>
    simp only [List.foldlM_cons, Option.bind_eq_bind, Option.bind_eq_some_iff] at h
    obtain ⟨d₁, ⟨b, hb, hd₁⟩, hrest⟩ := h
    rcases ih d₁ hrest with hset | hset
    · cases hd₁
      cases b with
      | false => exact .inl hset
      | true =>
        by_cases hij : j = i
        · exact .inr (hij ▸ hb)
        · exact .inl ((isBitSet_setBit_of_ne d₀ hij).symm.trans hset)
    · exact .inr hset

theorem convertBitfield_ne_none (hb : 0 < src.blockLength) : convertBitfield dest src ≠ none := by
  unfold convertBitfield
  generalize List.range dest.blocks = is
  suffices hsuff : ∀ d₀ : BitfieldMan, (is.foldlM (fun d index => do
      let b ← isBitSetOffsetRange src (index * dest.blockLength) dest.blockLength
      pure (if b then (d.setBit index).2 else d)) d₀) ≠ none from hsuff dest
  intro d₀
  induction is generalizing d₀ with
  | nil => nofun
  | cons i is ih =>
    obtain ⟨b, hrange⟩ := Option.ne_none_iff_exists'.mp
      (offsetRange_ne_none hb (i * dest.blockLength) dest.blockLength)
    simp only [List.foldlM_cons, Option.bind_eq_bind, hrange, Option.bind_some]
    exact ih _

end Convert

/-- A byte that is complete by the bits of the pieces. -/
def PieceStorage.Complete (s : PieceStorage ctx) (b : Nat) : Prop :=
  b < ctx.totalLength ∧ s.bitfieldMan.isBitSet (b / ctx.pieceLength) = true

theorem isBitSet_setBitfield {m : BitfieldMan} {bytes : List UInt8} (i : Nat)
    (h : bytes.length = (m.blocks + 7) / 8) :
    (m.setBitfield bytes).isBitSet i = Bitfield.test bytes i := by
  change Bitfield.test (m.setBitfield bytes).bitfield.bytes i = _
  rw [m.bytes_setBitfield h]

theorem isBitSet_new (b t i : Nat) : (BitfieldMan.new b t).isBitSet i = false :=
  Bitfield.Field.test_zero i

theorem not_complete_new (b : Nat) : ¬(PieceStorage.new ctx).Complete b := fun h => by
  rw [PieceStorage.Complete, PieceStorage.new, isBitSet_new] at h
  exact nomatch h.2

theorem blocks_convertBitfield {dest src d : BitfieldMan}
    (h : convertBitfield dest src = some d) : d.blocks = dest.blocks := by
  unfold convertBitfield at h
  generalize List.range dest.blocks = is at h
  suffices hsuff : ∀ d₀ : BitfieldMan, (is.foldlM (fun d index => do
      let b ← isBitSetOffsetRange src (index * dest.blockLength) dest.blockLength
      pure (if b then (d.setBit index).2 else d)) d₀) = some d → d.blocks = d₀.blocks from
    hsuff dest h
  clear h
  intro d₀ h
  induction is generalizing d₀ with
  | nil =>
    cases h
    rfl
  | cons i is ih =>
    simp only [List.foldlM_cons, Option.bind_eq_bind, Option.bind_eq_some_iff] at h
    obtain ⟨d₁, ⟨b, -, hd₁⟩, hrest⟩ := h
    cases hd₁
    refine (ih _ hrest).trans ?_
    split <;> rfl

/-- The storage after a conversion marks only what the saved bit field does. -/
theorem complete_loadConverted {s₀ : State ctx} (hs₀ : s₀.storage = .new ctx) {h : Header}
    (hpos : 0 < h.pieceLength) (hlt : h.pieceLength < 2 ^ 31) {bits : List UInt8} {r : Reader}
    {b : Nat} (hb : (s₀.loadConverted h bits r).state.storage.Complete b) :
    bits.length = (ctx.savedPieces h + 7) / 8 ∧ Bitfield.test bits (b / h.pieceLength) = true := by
  have hnew : ¬s₀.storage.Complete b := hs₀ ▸ not_complete_new b
  unfold State.loadConverted at hb
  split at hb
  · exact absurd hb hnew
  · dsimp only at hb
    split_ifs at hb with hchanged
    · exact absurd hb hnew
    · split at hb
      · exact absurd hb hnew
      · next d hd =>
        obtain ⟨hbt, hbit⟩ := hb
        have hblocks := blocks_convertBitfield hd
        have hlen : d.bitfield.bytes.length = (s₀.storage.bitfieldMan.blocks + 7) / 8 := by
          rw [d.bitfield.length_bytes, hblocks, hs₀]
          rfl
        have hset : d.isBitSet (b / ctx.pieceLength) = true :=
          (isBitSet_setBitfield _ hlen).symm.trans hbit
        have hrange := (isBitSet_convertBitfield hd hset).resolve_left (by simp [isBitSet_new])
        have hbl : toBlockLength h.pieceLength = h.pieceLength := if_pos hlt
        have hdiv : b / ctx.pieceLength * ctx.pieceLength ≤ b := Nat.div_mul_le_self ..
        have hmod := Nat.lt_div_mul_add (a := b) ctx.pieceLength_pos
        have hsrc := isBitSet_of_offsetRange hrange hdiv hmod
          (by rw [BitfieldMan.totalLength_setBitfield]; exact hbt)
        rw [BitfieldMan.blockLength_setBitfield] at hsrc
        have hcount : (BitfieldMan.new (toBlockLength h.pieceLength).toNat ctx.totalLength).blocks =
            ctx.savedPieces h := by
          rw [hbl]
          exact blockCount_eq hpos
        by_cases hlen' : bits.length = (ctx.savedPieces h + 7) / 8
        · rw [isBitSet_setBitfield _ (hcount ▸ hlen')] at hsrc
          refine ⟨hlen', ?_⟩
          rw [hbl] at hsrc
          exact hsrc
        · rw [BitfieldMan.setBitfield_of_ne _ (hcount ▸ hlen'), isBitSet_new] at hsrc
          exact nomatch hsrc

theorem outcome_loadConverted {s₀ : State ctx} {h : Header} (hpos : 0 < h.pieceLength)
    (hlt : h.pieceLength < 2 ^ 31) (bits : List UInt8) (r : Reader) :
    (s₀.loadConverted h bits r).outcome ≠ .aborted := by
  unfold State.loadConverted
  split
  · nofun
  · dsimp only
    split_ifs
    · nofun
    · split
      · next hnone =>
        refine absurd hnone (convertBitfield_ne_none ?_)
        have hbl : toBlockLength h.pieceLength = h.pieceLength := if_pos hlt
        rw [BitfieldMan.blockLength_setBitfield, hbl]
        exact hpos
      · nofun

theorem usedPieces_loadConverted (s₀ : State ctx) (h : Header) (bits : List UInt8) (r : Reader) :
    (s₀.loadConverted h bits r).state.storage.usedPieces = s₀.storage.usedPieces := by
  unfold State.loadConverted
  split
  · rfl
  · dsimp only
    split_ifs
    · rfl
    · split <;> rfl

/-- In a storage of another piece length, nothing is marked that was not. -/
theorem load_content_other {ctx' : Context} (htotal : ctx'.totalLength = ctx.totalLength)
    (htorrent : ctx'.torrent = ctx.torrent) (hne : ctx'.pieceLength ≠ ctx.pieceLength)
    (s : State ctx) (s₀ : State ctx') (hs₀ : s₀.storage = .new ctx') :
    (s₀.load s.content).outcome ≠ .aborted ∧
      (s₀.load s.content).state.storage.usedPieces = .empty ∧
      ∀ b, (s₀.load s.content).state.storage.Complete b → s.storage.Complete b := by
  have hcontent : s.content =
      s.header.bytes ctx' ++ (octets 4 s.bits.length ++ (s.bits ++ s.inFlight)) :=
    s.content_eq.trans (by rw [s.header_bytes htotal])
  have hsaved : ctx'.savedPieces s.header = ctx.getNumPieces := by
    rw [Context.savedPieces, htotal]
    rfl
  have hlen : s.bits.length = (ctx.getNumPieces + 7) / 8 := s.storage.length_bits
  -- a bit field of `2 ^ 32` bytes or more is cut off, and ignored where it is put to use
  have hle : s.bits.length % 256 ^ 4 ≤ s.bits.length := Nat.mod_le ..
  have htake : (s.bits.take (s.bits.length % 256 ^ 4)).length = s.bits.length % 256 ^ 4 :=
    List.length_take_of_le hle
  have hread : (s.bits.take (s.bits.length % 256 ^ 4)).length =
      ctx'.expectedBitfieldLength s.header := by
    rw [htake, Context.expectedBitfieldLength, hsaved, ← hlen]
    rfl
  have hrest : octets 4 s.bits.length ++ (s.bits ++ s.inFlight) =
      int s.header.version 4 (s.bits.take (s.bits.length % 256 ^ 4)).length ++
        (s.bits.take (s.bits.length % 256 ^ 4) ++
          (s.bits.drop (s.bits.length % 256 ^ 4) ++ s.inFlight)) := by
    rw [htake, show s.header.version = 1 from rfl, int_one, octets_mod, ← List.append_assoc
      (s.bits.take _), List.take_append_drop]
  have hstorage := storage_setUploadLengthAtStartup s₀ s.header
  rw [load_of_header (s.header_valid htorrent) hcontent, hrest, loadBody_of_bitfield hread,
    if_neg (show s.header.pieceLength ≠ ctx'.pieceLength from hne.symm)]
  refine ⟨outcome_loadConverted ctx.pieceLength_pos ctx.pieceLength_lt _ _, ?_, fun b hb => ?_⟩
  · rw [usedPieces_loadConverted, hstorage, hs₀]
    rfl
  · have hlt := hb.1
    obtain ⟨hl, htest⟩ := complete_loadConverted (hstorage.trans hs₀) ctx.pieceLength_pos
      ctx.pieceLength_lt hb
    rw [htake, hsaved, ← hlen] at hl
    rw [hl, List.take_length] at htest
    exact ⟨htotal ▸ hlt, htest⟩

/-- The in-flight pieces and the bit field fit the 32 bits of their fields. -/
structure State.Writable (s : State ctx) : Prop where
  bits : s.bits.length < 2 ^ 32
  count : s.storage.usedPieces.entries.length < 2 ^ 32
  index : ∀ e ∈ s.storage.usedPieces.entries, e.1 < 2 ^ 32

/-- What a new storage has after the file of `s` was loaded into it: the marks of `s`. -/
def Restores (s s₀ : State ctx) : Prop :=
  (s₀.load s.content).outcome = .returned ∧
    (s₀.load s.content).state.bits = s.bits ∧
    ∀ i, ((s₀.load s.content).state.storage.usedPieces.find? i).map
        (fun p => (p.getLength, p.bitfield.bitfield.bytes)) =
      (s.storage.usedPieces.find? i).map fun p => (p.getLength, p.bitfield.bitfield.bytes)

/-- A control file restores the marks in a storage of the same geometry, and overclaims in none of
another piece length. -/
theorem progress_round_trip (ctx : Context) (s : State ctx) :
    (s.Writable → ∀ s₀ : State ctx, s₀.storage = .new ctx → Restores s s₀) ∧
    ∀ (ctx' : Context) (s₀ : State ctx'), ctx'.totalLength = ctx.totalLength →
      ctx'.torrent = ctx.torrent → ctx'.pieceLength ≠ ctx.pieceLength → s₀.storage = .new ctx' →
      (s₀.load s.content).outcome ≠ .aborted ∧
        (s₀.load s.content).state.storage.usedPieces = .empty ∧
        ∀ b, (s₀.load s.content).state.storage.Complete b → s.storage.Complete b :=
  ⟨fun h s₀ hs₀ => load_content_same s s₀ hs₀ h.bits h.count h.index,
    fun _ s₀ htotal htorrent hne hs₀ => load_content_other htotal htorrent hne s s₀ hs₀⟩

/-- Three pieces of 24 KiB, the last one short: the first is complete, the last in flight; the other
storage has pieces of 16 KiB. -/
def threePieces (pieceLength : Nat) (hpos : 0 < pieceLength) (hlt : pieceLength < 2 ^ 31) :
    Context where
  pieceLength
  totalLength := 60000
  allowPieceLengthChange := true
  pieceLength_pos := hpos
  pieceLength_lt := hlt
  totalLength_lt := by decide

theorem pieceLength_pos : 0 < 24576 := by decide

theorem pieceLength_lt : 24576 < 2 ^ 31 := by decide

def firstComplete : State (threePieces 24576 pieceLength_pos pieceLength_lt) where
  storage := { (PieceStorage.new _).setBitfield [0x80] with
    usedPieces := .insert .empty 2 ((Piece.new 10848).setBitfield [0x80])
    usedPieces_fit := by decide +kernel }

theorem progress_round_trip_three :
    Restores firstComplete { storage := .new _ } ∧
      let s₀ : State (threePieces 16384 (by decide) (by decide)) := { storage := .new _ }
      (s₀.load firstComplete.content).outcome ≠ .aborted ∧
        (s₀.load firstComplete.content).state.storage.usedPieces = .empty ∧
        ∀ b, (s₀.load firstComplete.content).state.storage.Complete b →
          firstComplete.storage.Complete b :=
  ⟨(progress_round_trip _ firstComplete).1
      ⟨by decide +kernel, by decide +kernel, by decide +kernel⟩ _ rfl,
    (progress_round_trip _ firstComplete).2 _ _ rfl rfl (by decide) rfl⟩

/-- An index that is read has 32 bits. -/
theorem index_lt_of_load {s₀ : State ctx} (hs₀ : s₀.storage.usedPieces = .empty)
    (file : List UInt8) {i : Nat} {p : Piece}
    (h : (s₀.load file).state.storage.usedPieces.find? i = some p) : i < 2 ^ 32 := by
  have hnone : ∀ {i p}, s₀.storage.usedPieces.find? i ≠ some p := fun h => by
    rw [hs₀] at h
    exact nomatch h
  unfold State.load at h
  split at h
  · exact absurd h hnone
  · next hd _ _ =>
    rw [← storage_setUploadLengthAtStartup s₀ hd] at hnone
    unfold State.loadBody at h
    split at h
    · exact absurd h hnone
    · split_ifs at h
      · unfold State.loadSame at h
        dsimp only at h
        split at h
        · exact absurd h hnone
        · next ps _ hps =>
          rw [PieceStorage.find?_addInFlightPiece] at h
          rcases Option.or_eq_some_iff.mp h with h | ⟨-, h⟩
          · exact absurd h hnone
          · obtain ⟨q, hq, rfl⟩ := Option.map_eq_some_iff.mp h
            obtain ⟨⟨-, hvalid⟩, -⟩ := readInFlightPieces_eq_ok.mp hps
            have hi : q.index = i := of_decide_eq_true (List.find?_some hq :)
            exact hi ▸ (hvalid q (List.mem_of_find?_eq_some hq)).index_lt
      · rw [usedPieces_loadConverted] at h
        exact absurd h hnone

/-- `2 ^ 32 + 1` pieces of one byte, the last of which is in flight. -/
def manyPieces : Context where
  pieceLength := 1
  totalLength := 2 ^ 32 + 1
  pieceLength_pos := by decide
  pieceLength_lt := by decide
  totalLength_lt := by decide

def lastInFlight : State manyPieces where
  storage := { PieceStorage.new manyPieces with
    usedPieces := .insert .empty (2 ^ 32) (.new 1), usedPieces_fit := by decide }

/-- Where a piece in flight has an index of more than 32 bits, another piece is restored. -/
theorem progress_round_trip_index :
    ¬∀ (ctx : Context) (s s₀ : State ctx), s₀.storage = .new ctx → Restores s s₀ := by
  intro h
  have hrestores := (h manyPieces lastInFlight { storage := .new _ } rfl).2.2 (2 ^ 32)
  have hsaved : lastInFlight.storage.usedPieces.find? (2 ^ 32) = some (.new 1) :=
    OrderedMap.find?_insert_self ..
  rw [hsaved, Option.map_some] at hrestores
  obtain ⟨p, hp, -⟩ := Option.map_eq_some_iff.mp hrestores
  exact absurd (index_lt_of_load rfl _ hp) (lt_irrefl _)

end FluxCore.Progress
