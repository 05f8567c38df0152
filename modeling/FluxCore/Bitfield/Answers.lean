import FluxCore.Bitfield.BitfieldMan

/-!
# The answers of a bit field manager

The sets behind the bytes are the blocks that are set and those the filter selects. `counted` says
that the five cached answers of every object that can come about are those of the sets;
`answers_iff` says when the test for completeness agrees with them: it compares whole bytes, so that
a spare bit that `setBitfield` has brought in makes it fail.
-/

namespace FluxCore.Bitfield

open Finset

/-! ## Bytes and their bits -/

theorem byte_ext {b c : UInt8} (h : ∀ j < 8, byteBit b j = byteBit c j) : b = c := by
  apply UInt8.toNat_inj.mp
  apply Nat.eq_of_testBit_eq
  intro i
  by_cases hi : i < 8
  · have := h (7 - i) (by omega)
    rwa [byteBit_eq_testBit _ (by omega), byteBit_eq_testBit _ (by omega),
      Nat.sub_sub_self (by omega)] at this
  · have hpow : (2 : Nat) ^ 8 ≤ 2 ^ i := Nat.pow_le_pow_right (by decide) (not_lt.mp hi)
    rw [Nat.testBit_lt_two_pow (b.toNat_lt.trans_le hpow),
      Nat.testBit_lt_two_pow (c.toNat_lt.trans_le hpow)]

theorem byteBit_or_mask (b : UInt8) {i j : Nat} (hj : j < 8) :
    byteBit (b ||| mask i) j = (byteBit b j || decide (j = i % 8)) := by
  have hmask : mask i = mask (i % 8) := by simp [mask]
  have hi : i % 8 < 8 := Nat.mod_lt _ (by decide)
  have hbit : (mask (i % 8)).toNat.testBit (7 - j) = decide (j = i % 8) := by
    rw [toNat_mask hi, Nat.testBit_two_pow]
    exact decide_eq_decide.mpr (by omega)
  rw [byteBit_eq_testBit _ hj, byteBit_eq_testBit _ hj, UInt8.toNat_or, Nat.testBit_or, hmask, hbit]

theorem byteBit_and_not_mask (b : UInt8) {i j : Nat} (hj : j < 8) :
    byteBit (b &&& ~~~mask i) j = (byteBit b j && decide (j ≠ i % 8)) := by
  have hmask : mask i = mask (i % 8) := by simp [mask]
  have hi : i % 8 < 8 := Nat.mod_lt _ (by decide)
  rw [byteBit_and _ _ hj, hmask]
  congr 1
  generalize i % 8 = k at hi
  revert k j
  decide +kernel

theorem test_out (bs : List UInt8) {i : Nat} (h : 8 * bs.length ≤ i) : test bs i = false := by
  rw [test_eq, List.getD_eq_default _ _ (by omega)]
  have : i % 8 < 8 := Nat.mod_lt _ (by decide)
  generalize i % 8 = j at this
  revert j
  decide

theorem test_zipWith {as bs : List UInt8} (h : as.length = bs.length) (i : Nat) :
    test (List.zipWith (· &&& ·) as bs) i = (test as i && test bs i) := by
  have hj : i % 8 < 8 := Nat.mod_lt _ (by decide)
  by_cases hi : i / 8 < as.length
  · have hget : (List.zipWith (· &&& ·) as bs).getD (i / 8) 0 =
        as.getD (i / 8) 0 &&& bs.getD (i / 8) 0 := by
      rw [List.getD_eq_getElem _ _ (by simp; omega), List.getElem_zipWith,
        List.getD_eq_getElem _ _ hi, List.getD_eq_getElem _ _ (h ▸ hi)]
    rw [test_eq, test_eq, test_eq, hget, byteBit_and _ _ hj]
  · rw [test_out _ (by simp; omega), test_out as (by omega)]
    rfl

theorem test_byte (bs : List UInt8) (q : Nat) {j : Nat} (hj : j < 8) :
    test bs (8 * q + j) = byteBit (bs.getD q 0) j := by
  rw [test_eq]
  congr 2 <;> omega

/-! ## Fields -/

namespace Field

variable {nbits : Nat} {f : Field nbits} {index : Nat}

theorem test_setBitInternal (h : index < nbits) (on : Bool) (i : Nat) :
    (f.setBitInternal index on).2.test i = if i = index then on else f.test i := by
  have hlen := f.length_bytes
  have hj : i % 8 < 8 := Nat.mod_lt _ (by decide)
  rw [setBitInternal, if_neg (not_le.mpr h)]
  simp only [test, test_eq, List.getD_eq_getElem?_getD, List.getElem?_modify]
  by_cases hq : index / 8 = i / 8
  · have hlt : i / 8 < f.bytes.length := by omega
    simp only [hq, if_true, List.getElem?_eq_getElem hlt, Option.map_eq_map, Option.map_some,
      Option.getD_some]
    have hsame : i = index ↔ i % 8 = index % 8 := by omega
    cases on
    · simp only [Bool.false_eq_true, if_false, byteBit_and_not_mask _ hj]
      by_cases hi : i % 8 = index % 8 <;> simp [hsame, hi]
    · simp only [if_true, byteBit_or_mask _ hj]
      by_cases hi : i % 8 = index % 8 <;> simp [hsame, hi]
  · have hne : i ≠ index := fun h => hq (by rw [h])
    simp [hq, hne]

theorem setBitInternal_of_le (h : nbits ≤ index) (on : Bool) :
    (f.setBitInternal index on).2 = f := by
  rw [setBitInternal, if_pos h]

/-- No spare bit is set. -/
def Clean (f : Field nbits) : Prop := ∀ i, nbits ≤ i → f.test i = false

theorem test_zero (i : Nat) : (zero nbits).test i = false := by
  have hj : i % 8 < 8 := Nat.mod_lt _ (by decide)
  have hget : (zero nbits).bytes.getD (i / 8) 0 = 0 := by
    simp [zero, List.getD_eq_getElem?_getD, List.getElem?_replicate]
    split <;> rfl
  rw [test, test_eq, hget]
  generalize i % 8 = j at hj
  revert j
  decide

theorem clean_zero : (zero nbits).Clean := fun i _ => test_zero i

theorem Clean.setBitInternal (h : f.Clean) (index : Nat) (on : Bool) :
    (f.setBitInternal index on).2.Clean := by
  by_cases hi : index < nbits
  · intro i hle
    rw [test_setBitInternal hi, if_neg (by omega)]
    exact h i hle
  · rw [setBitInternal_of_le (not_lt.mp hi)]
    exact h

theorem Clean.setBits (h : f.Clean) (is : List Nat) (on : Bool) : (f.setBits is on).Clean := by
  unfold Field.setBits
  induction is generalizing f with
  | nil => exact h
  | cons i is ih => exact ih (h.setBitInternal i on)

end Field

/-! ## The sets -/

namespace BitfieldMan

variable {m : BitfieldMan}

def setBlocks (m : BitfieldMan) : Finset Nat := setBits m.bitfield.bytes m.blocks

/-- The bytes of the filter, if there are any. -/
def filterBytes (m : BitfieldMan) : List UInt8 := (m.filterBitfield.map Field.bytes).getD []

def filterBlocks (m : BitfieldMan) : Finset Nat := setBits m.filterBytes m.blocks

/-- The blocks that count: those of the filter when it is enabled, else all. -/
def selected (m : BitfieldMan) : Finset Nat :=
  if m.filterEnabled then m.filterBlocks else range m.blocks

theorem setBits_subset (bs : List UInt8) (n : Nat) : setBits bs n ⊆ range n := filter_subset ..

theorem setBits_nil (n : Nat) : setBits [] n = ∅ := by
  ext i
  simp [test_out]

theorem setBits_filtered (m : BitfieldMan) :
    setBits (m.filtered m.bitfield.bytes) m.blocks = m.setBlocks ∩ m.filterBlocks := by
  cases hf : m.filterBitfield with
  | none => simp [filtered, filterBlocks, filterBytes, hf, setBits_nil]
  | some f =>
    ext i
    have hlen := m.bitfield.length_bytes.trans f.length_bytes.symm
    simp only [filtered, setBlocks, filterBlocks, filterBytes, hf, Option.map_some,
      Option.getD_some, mem_setBits, mem_inter, test_zipWith hlen, Bool.and_eq_true]
    tauto

/-! ## Lengths -/

/-- The length of some blocks, of which only the last may be shorter. -/
theorem sum_getBlockLength {A : Finset Nat} (hA : A ⊆ range m.blocks) :
    ∑ i ∈ A, m.getBlockLength i =
      if A.card = 0 then 0
      else if m.blocks - 1 ∈ A then (A.card - 1) * m.blockLength + m.getLastBlockLength
      else A.card * m.blockLength := by
  have hfull : ∀ i ∈ A, i ≠ m.blocks - 1 → m.getBlockLength i = m.blockLength := by
    intro i hi hne
    have hlt := mem_range.mp (hA hi)
    rw [getBlockLength, if_neg (by omega), if_pos (.inr (by omega))]
  split
  next h0 => rw [card_eq_zero.mp h0, sum_empty]
  next h0 =>
    split
    next hlast =>
      have hpos := mem_range.mp (hA hlast)
      have hlen : m.getBlockLength (m.blocks - 1) = m.getLastBlockLength := by
        rw [getBlockLength, if_pos (by omega)]
      rw [← sum_erase_add _ _ hlast, hlen, sum_const_nat fun i hi =>
        hfull i (mem_of_mem_erase hi) (ne_of_mem_erase hi), card_erase_of_mem hlast]
    next hlast =>
      exact sum_const_nat fun i hi => hfull i hi fun h => hlast (h ▸ hi)

theorem last_mem_iff {bs : List UInt8} {n : Nat} (h : (setBits bs n).card ≠ 0) :
    n - 1 ∈ setBits bs n ↔ test bs (n - 1) = true := by
  obtain ⟨i, hi⟩ := card_pos.mp (Nat.pos_of_ne_zero h)
  have := (mem_setBits.mp hi).1
  rw [mem_setBits, and_iff_right (by omega)]

theorem computeCompletedLength_eq {bs : List UInt8} (cntfun : List UInt8 → Nat → Nat)
    (hcnt : cntfun bs m.blocks = (setBits bs m.blocks).card) :
    m.computeCompletedLength bs cntfun = ∑ i ∈ setBits bs m.blocks, m.getBlockLength i := by
  rw [sum_getBlockLength (setBits_subset ..), computeCompletedLength, hcnt]
  split
  · rfl
  next h0 => simp only [last_mem_iff h0]

/-! ## The caches -/

theorem countMissingBlockNow_eq (m : BitfieldMan) :
    m.countMissingBlockNow = (m.selected \ m.setBlocks).card := by
  unfold countMissingBlockNow selected
  split
  · rw [countSetBit_eq_card, countSetBitSlow_eq_card, setBits_filtered, card_sdiff]
    rfl
  · have hsub : m.setBlocks ⊆ range m.blocks := setBits_subset ..
    rw [countSetBit_eq_card, card_sdiff_of_subset hsub, card_range]
    rfl

theorem countFilteredBlockNow_eq (m : BitfieldMan) :
    m.countFilteredBlockNow = if m.filterEnabled then m.filterBlocks.card else 0 := by
  unfold countFilteredBlockNow
  rw [countSetBit_eq_card]
  rfl

theorem getFilteredTotalLengthNow_eq (m : BitfieldMan) :
    m.getFilteredTotalLengthNow = ∑ i ∈ m.filterBlocks, m.getBlockLength i := by
  unfold getFilteredTotalLengthNow filterBlocks filterBytes
  cases hf : m.filterBitfield with
  | none => simp [setBits_nil]
  | some f =>
    dsimp only [Option.map_some, Option.getD_some]
    exact computeCompletedLength_eq countSetBit (countSetBit_eq_card ..)

theorem getCompletedLengthNow_eq (m : BitfieldMan) :
    m.getCompletedLengthNow = ∑ i ∈ m.setBlocks, m.getBlockLength i :=
  computeCompletedLength_eq _ (countSetBit_eq_card ..)

theorem getFilteredCompletedLengthNow_eq (m : BitfieldMan) :
    m.getFilteredCompletedLengthNow = ∑ i ∈ m.setBlocks ∩ m.selected, m.getBlockLength i := by
  unfold getFilteredCompletedLengthNow getCompletedLengthWith selected
  cases m.filterEnabled with
  | false =>
    rw [if_neg (by decide), if_neg (by decide),
      computeCompletedLength_eq _ (countSetBit_eq_card ..),
      inter_eq_left.mpr (show m.setBlocks ⊆ _ from setBits_subset ..)]
    rfl
  | true =>
    rw [if_pos (by decide), if_pos (by decide),
      computeCompletedLength_eq _ (countSetBitSlow_eq_card ..), setBits_filtered]

/-- The getters give the answers of the sets. -/
structure Counted (m : BitfieldMan) : Prop where
  countMissingBlock : m.countMissingBlock = (m.selected \ m.setBlocks).card
  countFilteredBlock : m.countFilteredBlock = if m.filterEnabled then m.filterBlocks.card else 0
  getCompletedLength : m.getCompletedLength = ∑ i ∈ m.setBlocks, m.getBlockLength i
  getFilteredCompletedLength :
    m.getFilteredCompletedLength = ∑ i ∈ m.setBlocks ∩ m.selected, m.getBlockLength i
  getFilteredTotalLength :
    m.getFilteredTotalLength = ∑ i ∈ m.filterBlocks, m.getBlockLength i

/-- The caches are up to date. -/
structure Fresh (m : BitfieldMan) : Prop where
  numMissingBlock : m.cachedNumMissingBlock = m.countMissingBlockNow
  numFilteredBlock : m.cachedNumFilteredBlock = m.countFilteredBlockNow
  filteredTotalLength : m.cachedFilteredTotalLength = m.getFilteredTotalLengthNow
  completedLength : m.cachedCompletedLength = m.getCompletedLengthNow
  filteredCompletedLength : m.cachedFilteredCompletedLength = m.getFilteredCompletedLengthNow

theorem Fresh.counted (h : m.Fresh) : m.Counted where
  countMissingBlock := h.numMissingBlock.trans m.countMissingBlockNow_eq
  countFilteredBlock := h.numFilteredBlock.trans m.countFilteredBlockNow_eq
  getCompletedLength := h.completedLength.trans m.getCompletedLengthNow_eq
  getFilteredCompletedLength := h.filteredCompletedLength.trans m.getFilteredCompletedLengthNow_eq
  getFilteredTotalLength := h.filteredTotalLength.trans m.getFilteredTotalLengthNow_eq

theorem fresh_updateCache (m : BitfieldMan) : m.updateCache.Fresh where
  numMissingBlock := rfl
  numFilteredBlock := rfl
  filteredTotalLength :=
    m.getFilteredTotalLengthNow_eq.trans (getFilteredTotalLengthNow_eq m.updateCache).symm
  completedLength := rfl
  filteredCompletedLength := rfl

/-- The bits in use do not matter. -/
theorem Fresh.withUse (h : m.Fresh) (u : Field m.blocks) : Fresh { m with useBitfield := u } where
  numMissingBlock := h.numMissingBlock
  numFilteredBlock := h.numFilteredBlock
  filteredTotalLength := (h.filteredTotalLength.trans m.getFilteredTotalLengthNow_eq).trans
    (getFilteredTotalLengthNow_eq { m with useBitfield := u }).symm
  completedLength := h.completedLength
  filteredCompletedLength := h.filteredCompletedLength

/-- What every object that can come about keeps: it has blocks, its caches are up to date, and its
filter has no spare bits. -/
structure Sound (m : BitfieldMan) : Prop where
  pos : 0 < m.blocks
  fresh : m.Fresh
  clean : ∀ f ∈ m.filterBitfield, f.Clean

theorem sound_updateCache (hpos : 0 < m.blocks) (h : ∀ f ∈ m.filterBitfield, f.Clean) :
    m.updateCache.Sound :=
  ⟨hpos, fresh_updateCache m, h⟩

theorem Sound.clean_ensure (h : m.Sound) : m.ensureFilterBitfield.Clean := by
  unfold ensureFilterBitfield
  cases hf : m.filterBitfield with
  | none => exact Field.clean_zero
  | some f => exact h.clean f hf

theorem Sound.foldl {g : BitfieldMan → Nat → BitfieldMan} (hg : ∀ m i, Sound m → Sound (g m i))
    (h : m.Sound) (is : List Nat) : (is.foldl g m).Sound := by
  induction is generalizing m with
  | nil => exact h
  | cons i is ih => exact ih (hg m i h)

theorem Sound.mutate (h : m.Sound) (u : Mutator) : (m.mutate u).Sound := by
  have hsome : ∀ f : Field m.blocks, f.Clean → ∀ g ∈ some f, g.Clean := by
    intro f hf g hg
    rwa [← Option.some.inj hg]
  cases u with
  | setBit i => exact sound_updateCache h.pos h.clean
  | unsetBit i => exact sound_updateCache h.pos h.clean
  | setUseBit i => exact ⟨h.pos, h.fresh.withUse _, h.clean⟩
  | unsetUseBit i => exact ⟨h.pos, h.fresh.withUse _, h.clean⟩
  | setBitfield bytes =>
    dsimp only [BitfieldMan.mutate, setBitfield]
    split
    · exact sound_updateCache h.pos h.clean
    · exact h
  | setBitRange i j =>
    have hall := h.foldl fun m i (hm : m.Sound) =>
      (sound_updateCache hm.pos hm.clean : Sound (m.setBit i).2)
    exact sound_updateCache (hall _).pos (hall _).clean
  | unsetBitRange i j =>
    have hall := h.foldl fun m i (hm : m.Sound) =>
      (sound_updateCache hm.pos hm.clean : Sound (m.unsetBit i).2)
    exact sound_updateCache (hall _).pos (hall _).clean
  | clearAllBit => exact sound_updateCache h.pos h.clean
  | setAllBit => exact sound_updateCache h.pos h.clean
  | clearAllUseBit => exact sound_updateCache h.pos h.clean
  | setAllUseBit => exact ⟨h.pos, h.fresh.withUse _, h.clean⟩
  | addFilter offset length =>
    refine sound_updateCache h.pos (hsome _ ?_)
    split
    exacts [h.clean_ensure.setBits _ _, h.clean_ensure]
  | removeFilter offset length =>
    refine sound_updateCache h.pos (hsome _ ?_)
    split
    exacts [h.clean_ensure.setBits _ _, h.clean_ensure]
  | addNotFilter offset length =>
    refine sound_updateCache h.pos (hsome _ ?_)
    split
    exacts [(h.clean_ensure.setBits _ _).setBits _ _, h.clean_ensure]
  | enableFilter => exact sound_updateCache h.pos (hsome _ h.clean_ensure)
  | disableFilter => exact sound_updateCache h.pos h.clean
  | clearFilter => exact sound_updateCache h.pos fun f hf => by cases hf

theorem Sound.copy (h : m.Sound) : m.copy.Sound := by
  refine sound_updateCache h.pos fun f hf => ?_
  dsimp only at hf
  split at hf
  · exact h.clean f hf
  · cases hf

theorem Reachable.sound (h : Reachable m) : m.Sound := by
  induction h with
  | @new blockLength totalLength hb ht =>
    have hpos : 0 < Storage.blockCount blockLength totalLength := by
      rw [Storage.blockCount, if_pos ⟨hb, ht⟩]
      exact Nat.div_pos (by omega) hb
    exact sound_updateCache hpos fun f hf => by cases hf
  | mutate h u ih => exact ih.mutate u
  | copy h ih => exact ih.copy
  | assign h h' ih ih' => exact ih'.copy

/-! ## Completeness -/

/-- A byte of ones, and the mask of the last byte. -/
theorem testAllBitSet_iff {bs : List UInt8} {n : Nat} (hn : 0 < n)
    (hlen : bs.length = (n + 7) / 8) :
    testAllBitSet bs n = true ↔ (∀ i < n, test bs i = true) ∧ ∀ i, n ≤ i → test bs i = false := by
  have hpos : bs ≠ [] := List.ne_nil_of_length_pos (by omega)
  have hones : ∀ b : UInt8, b = 0xFF ↔ ∀ j < 8, byteBit b j = true := by
    have hff : ∀ j < 8, byteBit 0xFF j = true := by decide
    exact fun b => ⟨fun h => h ▸ hff, fun h => byte_ext fun j hj => (h j hj).trans (hff j hj).symm⟩
  have hlast : ∀ b : UInt8, b = lastByteMask n ↔
      ∀ j < 8, byteBit b j = decide (j ≤ (n - 1) % 8) := by
    have hmask : ∀ j < 8, byteBit (lastByteMask n) j = decide (j ≤ (n - 1) % 8) := fun j hj =>
      byteBit_lastByteMask hn.ne' hj
    exact fun b => ⟨fun h => h ▸ hmask, fun h => byte_ext fun j hj =>
      (h j hj).trans (hmask j hj).symm⟩
  have hinit : (bs.dropLast.all fun b => decide (b = 0xFF)) = true ↔
      ∀ q < bs.length - 1, bs.getD q 0 = 0xFF := by
    simp only [List.all_eq_true, decide_eq_true_eq, List.mem_iff_getElem, forall_exists_index,
      List.length_dropLast, List.getElem_dropLast]
    constructor
    · intro h q hq
      rw [List.getD_eq_getElem _ _ (by omega)]
      exact h _ q hq rfl
    · rintro h _ q hq rfl
      have := h q hq
      rwa [List.getD_eq_getElem _ _ (by omega)] at this
  have hend : bs.getLastD 0 = bs.getD (bs.length - 1) 0 := by
    rw [List.getLastD_eq_getLast?, List.getLast?_eq_getElem?, List.getD_eq_getElem?_getD]
  rw [testAllBitSet, if_neg (by omega), Bool.and_eq_true, hinit, decide_eq_true_eq, hend, hlast]
  simp only [hones]
  constructor
  · rintro ⟨hfull, hrest⟩
    have hend : ∀ i, i / 8 = bs.length - 1 → test bs i = decide (i < n) := by
      intro i hi
      rw [test_eq, hi, hrest _ (Nat.mod_lt _ (by decide))]
      exact decide_eq_decide.mpr (by omega)
    refine ⟨fun i hi => ?_, fun i hi => ?_⟩
    · rcases Nat.lt_or_ge (i / 8) (bs.length - 1) with hq | hq
      · rw [test_eq]
        exact hfull _ hq _ (Nat.mod_lt _ (by decide))
      · rw [hend i (by omega), decide_eq_true hi]
    · rcases Nat.lt_or_ge i (8 * bs.length) with hq | hq
      · rw [hend i (by omega), decide_eq_false (not_lt.mpr hi)]
      · exact test_out bs hq
  · rintro ⟨hset, hclear⟩
    refine ⟨fun q hq j hj => ?_, fun j hj => ?_⟩
    · rw [← test_byte bs q hj]
      exact hset _ (by omega)
    · rw [← test_byte bs _ hj]
      by_cases hi : 8 * (bs.length - 1) + j < n
      · rw [hset _ hi, decide_eq_true (by omega)]
      · rw [hclear _ (not_lt.mp hi), decide_eq_false (by omega)]

/-- The loop over the bytes of the filter. -/
theorem covers_iff {as bs : List UInt8} (hlen : as.length = bs.length) :
    (List.zipWith (fun b f => decide (b &&& f = f)) as bs).all id = true ↔
      ∀ i, test bs i = true → test as i = true := by
  have hbyte : ∀ b f : UInt8, b &&& f = f ↔ ∀ j < 8, byteBit f j = true → byteBit b j = true := by
    intro b f
    constructor
    · intro h j hj hf
      rw [← h, byteBit_and _ _ hj, Bool.and_eq_true] at hf
      exact hf.1
    · intro h
      refine byte_ext fun j hj => ?_
      rw [byteBit_and _ _ hj]
      have := h j hj
      revert this
      cases byteBit f j <;> simp
  have hall : (List.zipWith (fun b f => decide (b &&& f = f)) as bs).all id = true ↔
      ∀ q < bs.length, as.getD q 0 &&& bs.getD q 0 = bs.getD q 0 := by
    simp only [List.all_eq_true, List.mem_iff_getElem, forall_exists_index, List.length_zipWith,
      hlen, min_self, List.getElem_zipWith, id]
    constructor
    · intro h q hq
      rw [List.getD_eq_getElem _ _ hq, List.getD_eq_getElem _ _ (hlen ▸ hq)]
      exact of_decide_eq_true (h _ q hq rfl)
    · rintro h _ q hq rfl
      have := h q hq
      rw [List.getD_eq_getElem _ _ hq, List.getD_eq_getElem _ _ (hlen ▸ hq)] at this
      exact decide_eq_true this
  rw [hall]
  simp only [hbyte]
  constructor
  · intro h i hi
    by_cases hq : i / 8 < bs.length
    · rw [test_eq] at hi ⊢
      exact h _ hq _ (Nat.mod_lt _ (by decide)) hi
    · rw [test_out bs (by omega)] at hi
      exact absurd hi (by decide)
  · intro h q _ j hj
    rw [← test_byte as q hj, ← test_byte bs q hj]
    exact h _

theorem isFilteredAllBitSet_iff (h : m.Sound) (he : m.filterEnabled = true) :
    m.isFilteredAllBitSet = true ↔ m.filterBlocks ⊆ m.setBlocks := by
  rw [isFilteredAllBitSet, if_pos he]
  cases hf : m.filterBitfield with
  | none => simp [filterBlocks, filterBytes, hf, setBits_nil]
  | some f =>
    have hlen := m.bitfield.length_bytes.trans f.length_bytes.symm
    dsimp only [Option.map_some, Option.getD_some]
    rw [covers_iff hlen]
    simp only [subset_iff, filterBlocks, filterBytes, setBlocks, hf, Option.map_some,
      Option.getD_some, mem_setBits]
    refine ⟨fun hsub i hi => ⟨hi.1, hsub i hi.2⟩, fun hsub i hi => ?_⟩
    by_cases hlt : i < m.blocks
    · exact (hsub ⟨hlt, hi⟩).2
    · have := h.clean f hf i (not_lt.mp hlt)
      exact absurd (hi.symm.trans this) (by decide)

theorem isAllBitSet_iff (h : m.Sound) :
    m.isAllBitSet = true ↔
      range m.blocks ⊆ m.setBlocks ∧ ∀ i, m.blocks ≤ i → m.isBitSet i = false := by
  rw [isAllBitSet, testAllBitSet_iff h.pos m.bitfield.length_bytes]
  simp only [subset_iff, setBlocks, mem_setBits, mem_range]
  exact and_congr_left' ⟨fun hall i hi => ⟨hi, hall i hi⟩, fun hall i hi => (hall hi).2⟩

/-- No block is missing, and a spare bit behind them is set. -/
def Garbled (m : BitfieldMan) : Prop :=
  m.filterEnabled = false ∧ (∀ i < m.blocks, m.isBitSet i = true) ∧
    ∃ i, m.blocks ≤ i ∧ m.isBitSet i = true

/-- The test for completeness: `isFilteredAllBitSet` is `isAllBitSet` unless the filter is enabled.
-/
def complete (m : BitfieldMan) : Bool :=
  if m.filterEnabled then m.isFilteredAllBitSet else m.isAllBitSet

/-- All answers are those of the sets. -/
structure Answers (m : BitfieldMan) : Prop extends Counted m where
  complete_iff : m.complete = true ↔ m.countMissingBlock = 0

theorem complete_iff (h : m.Sound) :
    (m.complete = true ↔ m.countMissingBlock = 0) ↔ ¬m.Garbled := by
  rw [h.fresh.counted.countMissingBlock, card_eq_zero, sdiff_eq_empty_iff_subset]
  unfold complete selected Garbled
  cases he : m.filterEnabled with
  | true =>
    rw [if_pos rfl, if_pos rfl, isFilteredAllBitSet_iff h he]
    simp
  | false =>
    rw [if_neg (by decide), if_neg (by decide), isAllBitSet_iff h]
    have hset : range m.blocks ⊆ m.setBlocks ↔ ∀ i < m.blocks, m.isBitSet i = true := by
      simp only [subset_iff, setBlocks, mem_setBits, mem_range]
      exact ⟨fun hall i hi => (hall hi).2, fun hall i hi => ⟨hi, hall i hi⟩⟩
    have hspare : (∀ i, m.blocks ≤ i → m.isBitSet i = false) ↔
        ¬∃ i, m.blocks ≤ i ∧ m.isBitSet i = true := by
      simp
    rw [hset, hspare, and_iff_right rfl]
    exact ⟨fun hc hg => (hc.mpr hg.1).2 hg.2,
      fun hg => ⟨And.left, fun ha => ⟨ha, fun hx => hg ⟨ha, hx⟩⟩⟩⟩

/-- The answers of every object that can come about are those of its sets, unless a spare bit of
`setBitfield` spoils the test for completeness. -/
theorem answers_iff (h : Reachable m) : m.Answers ↔ ¬m.Garbled := by
  rw [← complete_iff h.sound]
  exact ⟨fun ha => ha.complete_iff, fun hc => ⟨h.sound.fresh.counted, hc⟩⟩

theorem answers_three_of_four :
    ((new 1 4).mutate (.setBitfield [0xE0])).Answers ↔
      ¬((new 1 4).mutate (.setBitfield [0xE0])).Garbled :=
  answers_iff (.mutate (.new (by decide) (by decide)) _)

/-- Four blocks that are all there, in a byte of ones: none is missing, and the field does not count
as complete. -/
theorem spare_bits_counterexample :
    Reachable ((new 1 4).mutate (.setBitfield [0xFF])) ∧
      ¬((new 1 4).mutate (.setBitfield [0xFF])).Answers :=
  ⟨.mutate (.new (by decide) (by decide)) _,
    fun h => absurd (h.complete_iff.mpr (by decide +kernel)) (by decide +kernel)⟩

end BitfieldMan

end FluxCore.Bitfield
