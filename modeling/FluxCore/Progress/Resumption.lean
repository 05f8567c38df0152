import FluxCore.Progress.FailedLoad

/-!
# Resuming a download

A piece that a control file has in flight is checked out again, and a `PiecedSegment` goes on behind
its first missing block. What `load()` does not check is whether the fields of the file fit together.
-/

namespace FluxCore.Progress

open Bitfield (BitfieldMan)

/-! ## Segments -/

/-- For a manager without a filter. -/
def getFirstMissingIndex (m : BitfieldMan) : Option Nat :=
  (List.range m.blocks).find? fun i => !m.isBitSet i

namespace Piece

variable (p : Piece)

def countBlock : Nat := p.bitfield.blocks

def pieceComplete : Bool := p.bitfield.isAllBitSet

def completeBlock (blockIndex : Nat) : Piece where
  bitfield := (p.bitfield.setBit blockIndex).2
  blockLength_bitfield := p.blockLength_bitfield

/-- A byte in a block that is complete. -/
def Has (b : Nat) : Prop :=
  b < p.getLength ∧ p.bitfield.isBitSet (b / Storage.BLOCK_LENGTH) = true

end Piece

structure PiecedSegment where
  piece : Piece
  writtenLength : Nat

namespace PiecedSegment

/-- It is `none` where the assertion fails. -/
def new (piece : Piece) : Option PiecedSegment :=
  (getFirstMissingIndex piece.bitfield).map fun index =>
    { piece, writtenLength := index * Storage.BLOCK_LENGTH }

def complete (s : PiecedSegment) : Bool := s.piece.pieceComplete

/-- It is `none` where the assertion fails. -/
def updateWrittenLength (s : PiecedSegment) (bytes : Nat) : Option PiecedSegment :=
  let newWrittenLength := s.writtenLength + bytes
  if newWrittenLength ≤ s.piece.getLength then
    let i := s.writtenLength / Storage.BLOCK_LENGTH
    let piece := (List.range' i (newWrittenLength / Storage.BLOCK_LENGTH - i)).foldl
      Piece.completeBlock s.piece
    some {
      piece :=
        if newWrittenLength = piece.getLength then piece.completeBlock (piece.countBlock - 1)
        else piece
      writtenLength := newWrittenLength }
  else none

/-- Bytes come in. -/
def receive (s : PiecedSegment) (bytes : List Nat) : Option PiecedSegment :=
  bytes.foldlM updateWrittenLength s

end PiecedSegment

variable {p q : Piece} {i b n : Nat}

theorem getFirstMissingIndex_eq_some {m : BitfieldMan} (h : getFirstMissingIndex m = some i) :
    i < m.blocks ∧ m.isBitSet i = false := by
  have hmem := List.mem_of_find?_eq_some h
  have hfalse := List.find?_some h
  rw [Bool.not_eq_true'] at hfalse
  exact ⟨List.mem_range.mp hmem, hfalse⟩

theorem isSome_getFirstMissingIndex {m : BitfieldMan} :
    (getFirstMissingIndex m).isSome = true ↔ ∃ i < m.blocks, m.isBitSet i = false := by
  rw [getFirstMissingIndex, List.find?_isSome]
  simp only [List.mem_range, Bool.not_eq_true']

/-- The blocks start in front of the end of the piece. -/
theorem lt_countBlock_iff : n < p.countBlock ↔ n * Storage.BLOCK_LENGTH < p.getLength := by
  have hBL : Storage.BLOCK_LENGTH = 16384 := rfl
  rw [Piece.countBlock, p.blocks_eq, blockCount_eq (by decide), hBL]
  omega

/-- Completing blocks completes no others. -/
theorem isBitSet_foldl_completeBlock (is : List Nat)
    (h : (is.foldl Piece.completeBlock p).bitfield.isBitSet n = true) :
    n ∈ is ∨ p.bitfield.isBitSet n = true := by
  induction is generalizing p with
  | nil => exact .inr h
  | cons j is ih =>
    rcases ih h with hmem | hset
    · exact .inl (.tail j hmem)
    · by_cases hne : n = j
      · exact .inl (hne ▸ .head is)
      · exact .inr ((isBitSet_setBit_of_ne p.bitfield hne).symm.trans hset)

theorem getLength_foldl_completeBlock (is : List Nat) :
    (is.foldl Piece.completeBlock p).getLength = p.getLength ∧
      (is.foldl Piece.completeBlock p).countBlock = p.countBlock := by
  induction is generalizing p with
  | nil => exact ⟨rfl, rfl⟩
  | cons j is ih => exact ih (p := p.completeBlock j)

/-- What a segment has received since it was built: whole blocks from its first missing one on. -/
structure Receiving (p : Piece) (start : Nat) (s : PiecedSegment) : Prop where
  start_le : start * Storage.BLOCK_LENGTH ≤ s.writtenLength
  getLength : s.piece.getLength = p.getLength
  countBlock : s.piece.countBlock = p.countBlock
  writtenLength_le : s.writtenLength ≤ p.getLength
  isBitSet : ∀ n, s.piece.bitfield.isBitSet n = true → p.bitfield.isBitSet n = true ∨
    start ≤ n ∧ (n < s.writtenLength / Storage.BLOCK_LENGTH ∨
      s.writtenLength = p.getLength ∧ n = p.countBlock - 1)

variable {s s' : PiecedSegment} {start bytes : Nat}

theorem Receiving.updateWrittenLength (hstart : start < p.countBlock) (h : Receiving p start s)
    (hs' : s.updateWrittenLength bytes = some s') : Receiving p start s' := by
  unfold PiecedSegment.updateWrittenLength at hs'
  dsimp only at hs'
  split at hs'
  next hle =>
    obtain rfl := Option.some.inj hs'
    have hsame := getLength_foldl_completeBlock (p := s.piece)
      (List.range' (s.writtenLength / Storage.BLOCK_LENGTH)
        ((s.writtenLength + bytes) / Storage.BLOCK_LENGTH - s.writtenLength / Storage.BLOCK_LENGTH))
    have hfirst : start ≤ s.writtenLength / Storage.BLOCK_LENGTH :=
      (Nat.le_div_iff_mul_le (by decide)).mpr h.start_le
    have hmono : s.writtenLength / Storage.BLOCK_LENGTH ≤
      (s.writtenLength + bytes) / Storage.BLOCK_LENGTH := Nat.div_le_div_right (Nat.le_add_right ..)
    rw [h.getLength] at hle
    refine ⟨h.start_le.trans (Nat.le_add_right ..), ?_, ?_, hle, fun n hn => ?_⟩
    · dsimp only
      split
      · exact hsame.1.trans h.getLength
      · exact hsame.1.trans h.getLength
    · dsimp only
      split
      · exact hsame.2.trans h.countBlock
      · exact hsame.2.trans h.countBlock
    · dsimp only at hn ⊢
      have hblocks : ∀ m, ((List.range' (s.writtenLength / Storage.BLOCK_LENGTH)
          ((s.writtenLength + bytes) / Storage.BLOCK_LENGTH -
            s.writtenLength / Storage.BLOCK_LENGTH)).foldl Piece.completeBlock
              s.piece).bitfield.isBitSet m = true → p.bitfield.isBitSet m = true ∨
          start ≤ m ∧ (m < (s.writtenLength + bytes) / Storage.BLOCK_LENGTH ∨
            s.writtenLength + bytes = p.getLength ∧ m = p.countBlock - 1) := by
        intro m hm
        rcases isBitSet_foldl_completeBlock _ hm with hmem | hset
        · rw [List.mem_range'_1] at hmem
          exact .inr ⟨hfirst.trans hmem.1, .inl (by omega)⟩
        · rcases h.isBitSet m hset with hset | ⟨hge, hlt | ⟨heq, hlast⟩⟩
          · exact .inl hset
          · exact .inr ⟨hge, .inl (hlt.trans_le hmono)⟩
          · exact .inr ⟨hge, .inr ⟨by omega, hlast⟩⟩
      split at hn
      next hfull =>
        by_cases hlast : n = p.countBlock - 1
        · exact .inr ⟨by omega, .inr ⟨hfull.trans (hsame.1.trans h.getLength), hlast⟩⟩
        · refine hblocks n ?_
          rwa [Piece.completeBlock, hsame.2, h.countBlock, isBitSet_setBit_of_ne _ hlast] at hn
      · exact hblocks n hn
  · exact nomatch hs'

theorem Receiving.receive (hstart : start < p.countBlock) (h : Receiving p start s) {ns : List Nat}
    (hs' : s.receive ns = some s') : Receiving p start s' := by
  induction ns generalizing s with
  | nil => exact Option.some.inj hs' ▸ h
  | cons n ns ih =>
    obtain ⟨s₁, hs₁, hs'⟩ := Option.bind_eq_some_iff.mp hs'
    exact ih (h.updateWrittenLength hstart hs₁) hs'

/-- What a complete segment has not received, the piece had before. -/
theorem has_or_received (hs : PiecedSegment.new p = some s) {ns : List Nat}
    (hs' : s.receive ns = some s') (hcomplete : s'.complete = true) {b : Nat}
    (hb : b < p.getLength) : p.Has b ∨ s.writtenLength ≤ b ∧ b < s'.writtenLength := by
  obtain ⟨start, hfirst, rfl⟩ := Option.map_eq_some_iff.mp hs
  obtain ⟨hlt, -⟩ := getFirstMissingIndex_eq_some hfirst
  have hlen : start * Storage.BLOCK_LENGTH ≤ p.getLength := (lt_countBlock_iff.mp hlt).le
  have hstart : Receiving p start { piece := p, writtenLength := start * Storage.BLOCK_LENGTH } :=
    ⟨le_rfl, rfl, rfl, hlen, fun n hn => .inl hn⟩
  obtain ⟨-, hlength, hcount, -, hbits⟩ := hstart.receive hlt hs'
  have hset : s'.piece.bitfield.isBitSet (b / Storage.BLOCK_LENGTH) = true := by
    have hblock : b / Storage.BLOCK_LENGTH < s'.piece.countBlock := by
      rw [hcount, lt_countBlock_iff]
      exact (Nat.div_mul_le_self _ _).trans_lt hb
    exact ((Bitfield.BitfieldMan.testAllBitSet_iff (by exact Nat.zero_lt_of_lt hblock)
      s'.piece.bitfield.bitfield.length_bytes).mp hcomplete).1 _ hblock
  rcases hbits _ hset with hset | ⟨hge, hlt | ⟨heq, -⟩⟩
  · exact .inl ⟨hb, hset⟩
  · exact .inr ⟨(Nat.le_div_iff_mul_le (by decide)).mp hge, Nat.lt_of_div_lt_div hlt⟩
  · exact .inr ⟨(Nat.le_div_iff_mul_le (by decide)).mp hge, heq ▸ hb⟩

/-! ## What is restored -/

namespace Context

variable (ctx : Context)

/-- The length of a piece of the download. -/
def lengthOfPiece (index : Nat) : Nat :=
  min ctx.pieceLength (ctx.totalLength - index * ctx.pieceLength)

end Context

variable {ctx : Context}

namespace PieceStorage

/-- `checkOutPiece`, without the marks of use. -/
def checkOutPiece (s : PieceStorage ctx) (index : Nat) : Piece :=
  (s.usedPieces.find? index).getD (.new (s.bitfieldMan.getBlockLength index))

theorem getBlockLength_eq (s : PieceStorage ctx) {index : Nat} (h : index < ctx.getNumPieces) :
    s.bitfieldMan.getBlockLength index = ctx.lengthOfPiece index := by
  have hpos := ctx.pieceLength_pos
  have hblocks := s.blocks_eq
  obtain ⟨k, hk⟩ : ∃ k, ctx.getNumPieces = k + 1 := ⟨_, (Nat.succ_pred (by omega)).symm⟩
  have hle : k * ctx.pieceLength < ctx.totalLength := by
    have hdiv : k + 1 ≤ (ctx.totalLength + ctx.pieceLength - 1) / ctx.pieceLength := hk.ge
    rw [Nat.le_div_iff_mul_le hpos, Nat.succ_mul] at hdiv
    omega
  have hlt : ctx.totalLength ≤ (k + 1) * ctx.pieceLength := by
    have hdiv : (ctx.totalLength + ctx.pieceLength - 1) / ctx.pieceLength < k + 2 := by
      change ctx.getNumPieces < k + 2
      omega
    rw [Nat.div_lt_iff_lt_mul hpos] at hdiv
    have : (k + 2) * ctx.pieceLength = (k + 1) * ctx.pieceLength + ctx.pieceLength := by ring
    omega
  unfold BitfieldMan.getBlockLength Context.lengthOfPiece
  rw [hblocks, hk, s.blockLength_eq]
  by_cases hlast : index + 1 = k + 1
  · obtain rfl : index = k := Nat.succ.inj hlast
    have hlastLength : s.bitfieldMan.getLastBlockLength =
        ctx.totalLength - index * ctx.pieceLength := by
      unfold BitfieldMan.getLastBlockLength
      dsimp only
      rw [hblocks, hk, s.blockLength_eq, s.totalLength_eq]
      have hcast : (ctx.totalLength : Int) - ctx.pieceLength * (((index + 1 : Nat) : Int) - 1) =
          ((ctx.totalLength - index * ctx.pieceLength : Nat) : Int) := by
        rw [Nat.cast_sub hle.le]
        push_cast
        ring
      rw [hcast, if_neg, Int.toNat_natCast]
      rw [Nat.succ_mul] at hlt
      omega
    rw [if_pos rfl, hlastLength, min_eq_right]
    rw [Nat.succ_mul] at hlt
    omega
  · have hnext : (index + 1) * ctx.pieceLength ≤ k * ctx.pieceLength :=
      Nat.mul_le_mul_right _ (by omega)
    rw [if_neg hlast, if_pos (.inr (by omega))]
    rw [Nat.succ_mul] at hnext
    omega

/-- A piece in flight can be checked out and completed. -/
structure Resumable (s : PieceStorage ctx) (index : Nat) : Prop where
  missing : s.bitfieldMan.isBitSet index = false
  length : (s.checkOutPiece index).getLength = s.bitfieldMan.getBlockLength index
  /-- The first missing block is there, and of a complete segment everything has come in. -/
  segment : ∃ seg, PiecedSegment.new (s.checkOutPiece index) = some seg ∧
    ∀ ns seg', seg.receive ns = some seg' → seg'.complete = true →
      ∀ b < s.bitfieldMan.getBlockLength index, (s.checkOutPiece index).Has b ∨
        seg.writtenLength ≤ b ∧ b < seg'.writtenLength

/-- All pieces in flight can be resumed, and none is there twice. -/
def Resumes (s : PieceStorage ctx) : Prop :=
  (s.usedPieces.entries.map Prod.fst).Nodup ∧ ∀ e ∈ s.usedPieces.entries, s.Resumable e.1

end PieceStorage

/-- The fields of a piece in flight fit together and to the bit field of the pieces, which is ignored
where its length, a `uint32_t`, is not that of the storage. -/
structure InFlightPiece.Fits (bits : List UInt8) (p : InFlightPiece ctx) : Prop where
  missing : bits.length = (ctx.getNumPieces + 7) / 8 → Bitfield.test bits p.index = false
  length : p.piece.getLength = ctx.lengthOfPiece p.index
  block : ∃ i < p.piece.countBlock, p.piece.bitfield.isBitSet i = false

/-- Of the pieces in flight in a file of the piece length of the download, the first one of every
index fits. -/
def Consistent (ctx : Context) (file : List UInt8) : Prop :=
  ∀ (h : Header) (bits : List UInt8) (ps : List (InFlightPiece ctx)) (rest : List UInt8),
    h.Valid ctx → h.pieceLength = ctx.pieceLength → bits.length = ctx.expectedBitfieldLength h →
    ps.length < 256 ^ 4 → (∀ p ∈ ps, p.Valid) →
    file = h.bytes ctx ++ (int h.version 4 bits.length ++ (bits ++
      (int h.version 4 ps.length ++ ((ps.flatMap fun p => p.bytes h.version) ++ rest)))) →
    ∀ index p, ps.find? (fun p => p.index = index) = some p → p.Fits bits

/-- A piece in flight can be resumed if it fits. -/
theorem PieceStorage.resumable_iff {s : PieceStorage ctx} {bits : List UInt8} {p : InFlightPiece ctx}
    (hbits : s.bitfieldMan.isBitSet p.index = false ↔
      (bits.length = (ctx.getNumPieces + 7) / 8 → Bitfield.test bits p.index = false))
    (hp : s.usedPieces.find? p.index = some p.piece) : s.Resumable p.index ↔ p.Fits bits := by
  have hout : s.checkOutPiece p.index = p.piece := by
    rw [checkOutPiece, hp, Option.getD_some]
  have hlength := s.getBlockLength_eq p.index_lt
  constructor
  · rintro ⟨hmissing, hlen, seg, hseg, -⟩
    rw [hout] at hlen hseg
    refine ⟨hbits.mp hmissing, hlen.trans hlength, ?_⟩
    refine isSome_getFirstMissingIndex.mp ?_
    rw [PiecedSegment.new, Option.map_eq_some_iff] at hseg
    obtain ⟨start, hstart, -⟩ := hseg
    rw [hstart, Option.isSome_some]
  · rintro ⟨hmissing, hlen, hblock⟩
    obtain ⟨start, hstart⟩ := Option.isSome_iff_exists.mp (isSome_getFirstMissingIndex.mpr hblock)
    have hseg : PiecedSegment.new p.piece =
        some { piece := p.piece, writtenLength := start * Storage.BLOCK_LENGTH } := by
      rw [PiecedSegment.new, hstart, Option.map_some]
    refine ⟨hbits.mpr hmissing, by rw [hout, hlen, hlength], _, by rw [hout]; exact hseg,
      fun ns seg' hreceive hcomplete b hb => ?_⟩
    rw [hout]
    refine has_or_received hseg hreceive hcomplete ?_
    rwa [hlen, ← hlength]

theorem isBitSet_loaded (bits : List UInt8) (i : Nat) :
    ((PieceStorage.new ctx).setBitfield bits).bitfieldMan.isBitSet i = false ↔
      (bits.length = (ctx.getNumPieces + 7) / 8 → Bitfield.test bits i = false) := by
  have hblocks : (PieceStorage.new ctx).bitfieldMan.blocks = ctx.getNumPieces :=
    PieceStorage.blocks_eq _
  change ((PieceStorage.new ctx).bitfieldMan.setBitfield bits).isBitSet i = false ↔ _
  rw [← hblocks]
  by_cases hlen : bits.length = ((PieceStorage.new ctx).bitfieldMan.blocks + 7) / 8
  · rw [isBitSet_setBitfield i hlen]
    exact ⟨fun h _ => h, fun h => h hlen⟩
  · rw [BitfieldMan.setBitfield_of_ne _ hlen]
    exact iff_of_true (isBitSet_new ..) fun h => absurd h hlen

theorem PieceStorage.nodup_keys (s : PieceStorage ctx) :
    (s.usedPieces.entries.map Prod.fst).Nodup :=
  List.pairwise_map.mpr (s.usedPieces.sorted.imp ne_of_lt)

/-- The parts of a file are determined by the file. -/
theorem parts_unique {file rest rest' : List UInt8} {h h' : Header} {bits bits' : List UInt8}
    {tail tail' : List UInt8} (hvalid : h.Valid ctx) (hvalid' : h'.Valid ctx)
    (hlen : bits.length = ctx.expectedBitfieldLength h)
    (hlen' : bits'.length = ctx.expectedBitfieldLength h') (hfile : file = h.bytes ctx ++ rest)
    (hrest : rest = int h.version 4 bits.length ++ (bits ++ tail))
    (hfile' : file = h'.bytes ctx ++ rest')
    (hrest' : rest' = int h'.version 4 bits'.length ++ (bits' ++ tail')) :
    h = h' ∧ bits = bits' ∧ tail = tail' := by
  have hread : ctx.readHeader ⟨file, []⟩ = (.ok h, ⟨rest, []⟩) :=
    readHeader_eq_ok.mpr ⟨hvalid, rest, hfile, rfl⟩
  have hread' : ctx.readHeader ⟨file, []⟩ = (.ok h', ⟨rest', []⟩) :=
    readHeader_eq_ok.mpr ⟨hvalid', rest', hfile', rfl⟩
  obtain ⟨hok, hr⟩ := Prod.mk.inj (hread.symm.trans hread')
  obtain rfl := Except.ok.inj hok
  obtain rfl := (Reader.mk.inj hr).1
  rw [hrest'] at hrest
  obtain ⟨-, hrest⟩ := List.append_inj hrest (by simp)
  obtain ⟨rfl, rfl⟩ := List.append_inj hrest (hlen'.trans hlen.symm)
  exact ⟨rfl, rfl, rfl⟩

/-- All pieces in flight of an accepted control file can be resumed exactly where they fit. -/
theorem resumes_iff {s₀ : State ctx} {file : List UInt8} (hs₀ : s₀.storage = .new ctx)
    (hload : (s₀.load file).outcome = .returned) :
    (s₀.load file).state.storage.Resumes ↔ Consistent ctx file := by
  rw [PieceStorage.Resumes, and_iff_right (PieceStorage.nodup_keys _)]
  unfold State.load at hload
  rcases hheader : ctx.readHeader ⟨file, []⟩ with ⟨e | h, r⟩
  · rw [hheader] at hload
    cases hload
  rw [hheader] at hload
  obtain ⟨hvalid, rest, hfile, rfl⟩ := readHeader_eq_ok.mp hheader
  rw [load_of_header hvalid hfile]
  dsimp only at hload
  unfold State.loadBody at hload
  rcases hbits : ctx.readBitfield h ⟨rest, []⟩ with ⟨e | bits, r⟩
  · rw [hbits] at hload
    cases hload
  rw [hbits] at hload
  dsimp only at hload
  obtain ⟨hlen, tail, hrest, rfl⟩ := readBitfield_eq_ok.mp hbits
  rw [hrest, loadBody_of_bitfield hlen]
  split at hload
  next hsame =>
    unfold State.loadSame at hload
    rcases hpieces : ctx.readInFlightPieces h.version
      ⟨tail, [] ++ [.bitfield bits.length (ctx.savedPieces h)]⟩ with ⟨e | ps, r⟩
    · dsimp only at hload
      rw [hpieces] at hload
      cases hload
    obtain ⟨⟨hcount, hps⟩, rest', htail, -⟩ := readInFlightPieces_eq_ok.mp hpieces
    rw [if_pos hsame, State.loadSame, hpieces]
    dsimp only
    rw [State.setBitfield, storage_setUploadLengthAtStartup, hs₀]
    have hfind : ∀ index, (((PieceStorage.new ctx).setBitfield bits).addInFlightPiece
        ps).usedPieces.find? index =
          (ps.find? fun p => p.index = index).map InFlightPiece.piece := by
      intro index
      rw [PieceStorage.find?_addInFlightPiece]
      exact Option.none_or
    have hone : ∀ index p, ps.find? (fun p => p.index = index) = some p →
        ((((PieceStorage.new ctx).setBitfield bits).addInFlightPiece ps).Resumable index ↔
          p.Fits bits) := by
      intro index p hp
      obtain rfl : p.index = index := of_decide_eq_true (List.find?_some hp :)
      refine PieceStorage.resumable_iff ?_ (by rw [hfind, hp, Option.map_some])
      rw [PieceStorage.bitfieldMan_addInFlightPiece]
      exact isBitSet_loaded bits p.index
    constructor
    · intro hall h' bits' ps' rest'' hvalid' hsame' hlen' hcount' hps' hfile' index p hp
      obtain ⟨rfl, rfl, rfl⟩ := parts_unique hvalid hvalid' hlen hlen' hfile hrest hfile' rfl
      obtain rfl : ps = ps' := by
        have hread : ∃ r', ctx.readInFlightPieces h.version
            ⟨int h.version 4 ps'.length ++ ((ps'.flatMap fun p => p.bytes h.version) ++ rest''),
              [] ++ [.bitfield bits.length (ctx.savedPieces h)]⟩ = (.ok ps', r') :=
          ⟨_, readInFlightPieces_eq_ok.mpr ⟨⟨hcount', hps'⟩, rest'', rfl, rfl⟩⟩
        obtain ⟨r', hread⟩ := hread
        exact Except.ok.inj (Prod.mk.inj (hpieces.symm.trans hread)).1
      refine (hone index p hp).mp (hall (index, p.piece) ?_)
      exact OrderedMap.find?_eq_some.mp (by rw [hfind, hp, Option.map_some])
    · intro hconsistent e he
      have he' := OrderedMap.find?_eq_some.mpr he
      rw [hfind] at he'
      obtain ⟨p, hp, -⟩ := Option.map_eq_some_iff.mp he'
      exact (hone e.1 p hp).mpr (hconsistent h bits ps rest' hvalid hsame hlen hcount hps
        (by rw [hfile, hrest, htail]) e.1 p hp)
  next hother =>
    rw [if_neg hother, usedPieces_loadConverted, storage_setUploadLengthAtStartup, hs₀]
    refine iff_of_true (fun e he => absurd he List.not_mem_nil) fun h' bits' ps rest' hvalid' hsame' hlen' _ _ hfile' => ?_
    obtain ⟨rfl, -⟩ := parts_unique hvalid hvalid' hlen hlen' hfile hrest hfile' rfl
    exact absurd hsame' hother

/-- The first piece is complete, and of the second one the first block is. -/
def secondInFlight : State (threePieces 24576 pieceLength_pos pieceLength_lt) where
  storage := { firstComplete.storage with
    usedPieces := .insert .empty 1 ((Piece.new 24576).setBitfield [0x80])
    usedPieces_fit := by decide +kernel }

theorem resumes_iff_second :
    (noneComplete.load secondInFlight.content).state.storage.Resumes ∧
      Consistent (threePieces 24576 (by decide) (by decide)) secondInFlight.content := by
  have hload : (noneComplete.load secondInFlight.content).outcome = .returned := by decide +kernel
  have hresumes : (noneComplete.load secondInFlight.content).state.storage.Resumes := by
    have hkeys : (noneComplete.load secondInFlight.content).state.storage.usedPieces.entries.map
        Prod.fst = [1] := by decide +kernel
    refine ⟨PieceStorage.nodup_keys _, fun e he => ?_⟩
    have hkey : e.1 = 1 := by simpa [hkeys] using List.mem_map_of_mem (f := Prod.fst) he
    rw [hkey]
    let p : InFlightPiece (threePieces 24576 pieceLength_pos pieceLength_lt) :=
      ⟨1, (noneComplete.load secondInFlight.content).state.storage.checkOutPiece 1,
        by decide +kernel, by decide +kernel⟩
    have hfits : p.Fits [0x80] :=
      ⟨fun _ => by decide +kernel, by decide +kernel, 1, by decide +kernel, by decide +kernel⟩
    refine (PieceStorage.resumable_iff ?_ ?_).mpr hfits
    · exact iff_of_true (by decide +kernel) fun _ => by decide +kernel
    · decide +kernel
  exact ⟨hresumes, (resumes_iff rfl hload).mp hresumes⟩

/-- The first piece is complete and in flight. -/
def completeInFlight : State (threePieces 24576 pieceLength_pos pieceLength_lt) where
  storage := { firstComplete.storage with
    usedPieces := .insert .empty 0 (Piece.new 24576)
    usedPieces_fit := by decide +kernel }

/-- A file with a piece in flight that is complete is accepted, and so is one with a piece in flight
without missing blocks. -/
theorem complete_piece_counterexample :
    ((noneComplete.load completeInFlight.content).outcome = .returned ∧
      ¬(noneComplete.load completeInFlight.content).state.storage.Resumes) ∧
    (noneComplete.load firstComplete.content).outcome = .returned ∧
      ¬(noneComplete.load firstComplete.content).state.storage.Resumes := by
  refine ⟨⟨by decide +kernel, fun h => ?_⟩, by decide +kernel, fun h => ?_⟩
  · have hmem : (noneComplete.load completeInFlight.content).state.storage.usedPieces.entries.map
        Prod.fst = [0] := by decide +kernel
    obtain ⟨e, he, hkey⟩ := List.mem_map.mp (hmem ▸ List.mem_singleton_self 0)
    have hmissing := (h.2 e he).missing
    rw [hkey] at hmissing
    exact absurd hmissing (by decide +kernel)
  · have hmem : (noneComplete.load firstComplete.content).state.storage.usedPieces.entries.map
        Prod.fst = [2] := by decide +kernel
    obtain ⟨e, he, hkey⟩ := List.mem_map.mp (hmem ▸ List.mem_singleton_self 2)
    obtain ⟨seg, hseg, -⟩ := (h.2 e he).segment
    have hnone : PiecedSegment.new ((noneComplete.load
      firstComplete.content).state.storage.checkOutPiece e.1) = none := by
      rw [hkey]
      exact Option.isNone_iff_eq_none.mp (by decide +kernel)
    exact nomatch hnone.symm.trans hseg

end FluxCore.Progress
