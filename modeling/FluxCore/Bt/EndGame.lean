import FluxCore.Bitfield.Answers
import FluxCore.Bt.RangeMessage

/-!
# When the end game starts

`DefaultBtInteractive::addRequests` puts the piece storage into end game when few pieces are left,
or when those left are all being downloaded. It scales its threshold from pieces to blocks of
`MAX_BLOCK_LENGTH` and compares it with `countMissingPiece`. But the blocks of the `BitfieldMan` of
a piece storage are its pieces, so that the count is one of pieces, and with long pieces the end
game starts early.
-/

namespace FluxCore.Bitfield

open Finset

theorem test_map_not (bs : List UInt8) {i : Nat} (h : i / 8 < bs.length) :
    test (bs.map (~~~ ·)) i = !test bs i := by
  rw [test_eq, test_eq, List.getD_eq_getElem _ _ (by simpa using h), List.getElem_map,
    List.getD_eq_getElem _ _ h, byteBit_not _ (Nat.mod_lt _ (by decide))]

theorem Field.div_lt_length {n : Nat} (f : Field n) {i : Nat} (h : i < n) :
    i / 8 < f.bytes.length := by
  rw [f.length_bytes]
  omega

namespace BitfieldMan

variable (m : BitfieldMan)

/-- The bytes of `~array(bitfield_) & ~array(useBitfield_)`, and of the filter if it is enabled. -/
def missingUnused : List UInt8 :=
  let free := List.zipWith (· &&& ·) (m.bitfield.bytes.map (~~~ ·))
    (m.useBitfield.bytes.map (~~~ ·))
  if m.filterEnabled then
    List.zipWith (· &&& ·) free ((m.filterBitfield.map Field.bytes).getD [])
  else free

def getFirstMissingUnusedIndex : Option Nat :=
  (List.range m.blocks).find? fun i => test m.missingUnused i

/-- The blocks that count and are not complete. -/
def missing : Finset Nat := m.selected \ m.setBlocks

theorem test_missingUnused {i : Nat} (h : i < m.blocks) :
    test m.missingUnused i = true ↔ i ∈ m.missing ∧ m.isUseBitSet i = false := by
  have hlen : (m.bitfield.bytes.map (~~~ ·)).length = (m.useBitfield.bytes.map (~~~ ·)).length := by
    simp [Field.length_bytes]
  have hfree : test (List.zipWith (· &&& ·) (m.bitfield.bytes.map (~~~ ·))
      (m.useBitfield.bytes.map (~~~ ·))) i = (!m.isBitSet i && !m.isUseBitSet i) := by
    rw [test_zipWith hlen, test_map_not _ (m.bitfield.div_lt_length h),
      test_map_not _ (m.useBitfield.div_lt_length h)]
    rfl
  have hset : i ∈ m.setBlocks ↔ m.isBitSet i = true := by
    rw [setBlocks, mem_setBits, and_iff_right h]
    rfl
  rw [missing, mem_sdiff, hset, Bool.not_eq_true]
  unfold missingUnused selected
  cases he : m.filterEnabled with
  | false =>
    simp only [Bool.false_eq_true, if_false, hfree, mem_range, h, true_and, Bool.and_eq_true,
      Bool.not_eq_true']
  | true =>
    simp only [if_true, filterBlocks, mem_setBits, h, true_and]
    change test (List.zipWith (· &&& ·) _ m.filterBytes) i = true ↔ _
    cases hf : m.filterBitfield with
    | none =>
      have hnil : m.filterBytes = [] := by rw [filterBytes, hf]; rfl
      simp [hnil, test_out]
    | some f =>
      have hbytes : m.filterBytes = f.bytes := by rw [filterBytes, hf]; rfl
      rw [hbytes, test_zipWith (by simp [Field.length_bytes]), hfree]
      simp only [Bool.and_eq_true, Bool.not_eq_true']
      tauto

theorem getFirstMissingUnusedIndex_isSome :
    m.getFirstMissingUnusedIndex.isSome = true ↔ ∃ i ∈ m.missing, m.isUseBitSet i = false := by
  have hlt : ∀ i ∈ m.missing, i < m.blocks := fun i hi => by
    have hsel := (mem_sdiff.mp hi).1
    unfold selected at hsel
    split at hsel
    · exact (mem_setBits.mp hsel).1
    · exact mem_range.mp hsel
  rw [getFirstMissingUnusedIndex, List.find?_isSome]
  constructor
  · rintro ⟨i, hi, ht⟩
    exact ⟨i, (m.test_missingUnused (List.mem_range.mp hi)).mp ht⟩
  · rintro ⟨i, hi, hu⟩
    exact ⟨i, List.mem_range.mpr (hlt i hi), (m.test_missingUnused (hlt i hi)).mpr ⟨hi, hu⟩⟩

variable {m}

theorem Fresh.mutate (h : m.Fresh) (u : Mutator) : (m.mutate u).Fresh := by
  cases u with
  | setUseBit | unsetUseBit | setAllUseBit => exact h.withUse _
  | setBitfield bytes =>
    dsimp only [BitfieldMan.mutate, setBitfield]
    split
    · exact fresh_updateCache _
    · exact h
  | _ => exact fresh_updateCache _

/-- The caches are up to date after any changes, also for a length without blocks. -/
theorem fresh_foldl (us : List Mutator) (h : m.Fresh) : (us.foldl BitfieldMan.mutate m).Fresh := by
  induction us generalizing m with
  | nil => exact h
  | cons u us ih => exact ih (h.mutate u)

end BitfieldMan

end FluxCore.Bitfield

namespace FluxCore.Bt

open Bitfield (BitfieldMan)

def END_GAME_PIECE_NUM : UInt64 := 20

/-- The part of `DefaultPieceStorage` that decides about the end game. -/
structure EndGameStorage where
  bitfieldMan : BitfieldMan
  endGame : Bool := false
  endGamePieceNum : UInt64 := END_GAME_PIECE_NUM

namespace EndGameStorage

/-- The constructor: the blocks of `bitfieldMan_` are the pieces. -/
def new (pieceLength totalLength : Nat) : EndGameStorage where
  bitfieldMan := .new pieceLength totalLength

variable (s : EndGameStorage)

def countMissingPiece : Nat := s.bitfieldMan.countMissingBlock

def hasMissingUnusedPiece : Bool := s.bitfieldMan.getFirstMissingUnusedIndex.isSome

def enterEndGame : EndGameStorage := { s with endGame := true }

/-- The threshold in pieces. -/
def threshold : UInt64 := if s.endGamePieceNum = 0 then 20 else s.endGamePieceNum

def blocksPerPiece (pieceLength : Nat) : UInt64 :=
  let n := UInt64.ofNat (pieceLength / MAX_BLOCK_LENGTH)
  if n = 0 then 1 else n

/-- What `addRequests` does before it fills the requests, for a download with these pieces. -/
def checkEndGame (pieceLength : Nat) : EndGameStorage :=
  if !s.endGame then
    if s.countMissingPiece ≤ (s.threshold * blocksPerPiece pieceLength).toNat ||
        !s.hasMissingUnusedPiece then
      s.enterEndGame
    else s
  else s

/-- The storage of a download after any changes of its bits, its filter and its threshold. -/
def After (pieceLength totalLength : Nat) (us : List BitfieldMan.Mutator) (endGamePieceNum : UInt64) :
    EndGameStorage :=
  { new pieceLength totalLength with
    bitfieldMan := us.foldl BitfieldMan.mutate (.new pieceLength totalLength)
    endGamePieceNum }

/-- The call enters the end game only near the end. -/
def EntersNearEnd (s : EndGameStorage) (pieceLength : Nat) : Prop :=
  (s.checkEndGame pieceLength).endGame = true →
    s.bitfieldMan.missing.card ≤ s.threshold.toNat ∨
      ¬∃ i ∈ s.bitfieldMan.missing, s.bitfieldMan.isUseBitSet i = false

/-- More pieces are missing than the threshold says, but not more than the scaled threshold, and one
of them is free. -/
def Early (s : EndGameStorage) (pieceLength : Nat) : Prop :=
  s.threshold.toNat < s.bitfieldMan.missing.card ∧
    s.bitfieldMan.missing.card ≤ (s.threshold * blocksPerPiece pieceLength).toNat ∧
    ∃ i ∈ s.bitfieldMan.missing, s.bitfieldMan.isUseBitSet i = false

theorem countMissingPiece_eq (pieceLength totalLength : Nat) (us : List BitfieldMan.Mutator)
    (n : UInt64) : (After pieceLength totalLength us n).countMissingPiece =
      (After pieceLength totalLength us n).bitfieldMan.missing.card :=
  (BitfieldMan.fresh_foldl us (BitfieldMan.fresh_updateCache _)).counted.countMissingBlock

theorem checkEndGame_iff (hs : s.endGame = false) (pieceLength : Nat) :
    (s.checkEndGame pieceLength).endGame = true ↔
      s.countMissingPiece ≤ (s.threshold * blocksPerPiece pieceLength).toNat ∨
        ¬∃ i ∈ s.bitfieldMan.missing, s.bitfieldMan.isUseBitSet i = false := by
  rw [← BitfieldMan.getFirstMissingUnusedIndex_isSome, ← hasMissingUnusedPiece, checkEndGame, hs,
    Bool.not_false, if_pos rfl]
  split
  next h =>
    refine iff_of_true rfl ?_
    simpa only [Bool.or_eq_true, decide_eq_true_eq, Bool.not_eq_true', Bool.not_eq_true] using h
  next h =>
    refine iff_of_false (by simp [hs]) ?_
    simpa only [Bool.or_eq_true, decide_eq_true_eq, Bool.not_eq_true', Bool.not_eq_true] using h

/-- The end game starts near the end unless the scaled threshold is met by more pieces. -/
theorem entersNearEnd_iff (pieceLength totalLength : Nat) (us : List BitfieldMan.Mutator)
    (endGamePieceNum : UInt64) :
    (After pieceLength totalLength us endGamePieceNum).EntersNearEnd pieceLength ↔
      ¬(After pieceLength totalLength us endGamePieceNum).Early pieceLength := by
  have hcount := countMissingPiece_eq pieceLength totalLength us endGamePieceNum
  rw [EntersNearEnd, Early, checkEndGame_iff _ rfl, hcount]
  generalize (After pieceLength totalLength us endGamePieceNum).bitfieldMan.missing.card = n
  constructor
  · rintro h ⟨hlt, hle, hfree⟩
    rcases h (.inl hle) with h | h
    · exact absurd hlt (not_lt.mpr h)
    · exact h hfree
  · rintro h (hle | hnone)
    · by_cases hlt : n ≤ (After pieceLength totalLength us endGamePieceNum).threshold.toNat
      · exact .inl hlt
      · exact .inr fun hfree => h ⟨not_le.mp hlt, hle, hfree⟩
    · exact .inr hnone

/-- A new download of thirty pieces of two megabytes: nothing has been received, and the end game
starts. -/
theorem new_download_counterexample :
    ¬(After 2097152 62914560 [] END_GAME_PIECE_NUM).EntersNearEnd 2097152 := by
  rw [EntersNearEnd, checkEndGame_iff _ rfl]
  decide +kernel

end EndGameStorage

end FluxCore.Bt
