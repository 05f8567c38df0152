import FluxCore.Ed2k.Moves
import FluxCore.Ed2k.ScheduleRuns

/-!
# The written ranges and the parts

`recordWrittenRange` keeps the set of the written bytes, and the parts are told complete from the
range that it names. `written_parts` says that the set is exact, that the range is the one of the
bytes that came in, and that in every state of a download a part is complete when all of it is
written, and only then.
-/

namespace FluxCore.Ed2k

open Storage (DefaultPieceStorage)

namespace DownloadCommand

variable {c c' : DownloadCommand} {r : Interval Int} {lo hi : Int}

/-! ## Ranges -/

/-- The ranges are in order, so that those behind the first one that starts too late do too. -/
theorem any_takeWhile_iff {rs : List (Interval Int)} (hs : Separated rs) :
    ((rs.takeWhile fun r => r.start ≤ lo).any fun r => r.start ≤ lo && hi ≤ r.stop) = true ↔
      ∃ r ∈ rs, r.start ≤ lo ∧ hi ≤ r.stop := by
  induction rs with
  | nil => simp
  | cons r rs ih =>
    by_cases hr : r.start ≤ lo
    · rw [List.takeWhile_cons_of_pos (by simpa using hr), List.any_cons, Bool.or_eq_true, ih hs.tail]
      simp [hr]
    · rw [List.takeWhile_cons_of_neg (by simpa using hr)]
      simp only [List.any_nil, Bool.false_eq_true, List.mem_cons, exists_eq_or_imp, false_iff,
        not_or, not_exists, not_and]
      refine ⟨fun h => absurd h hr, fun s hs' h => ?_⟩
      have := hs.head_lt hs'
      have := hs.nonempty r (.head _)
      omega

theorem isRangeCovered_iff : c.isRangeCovered lo hi = true ↔ c.writtenRanges.Covers lo hi :=
  any_takeWhile_iff c.writtenRanges.separated

/-- Recording a range is about the ranges and the marked prefix only. -/
theorem recordWrittenRange_spec (c : DownloadCommand) (r : Interval Int) (h : r.start < r.stop) :
    ∃ pieceStorage lastMarkedLength, (c.recordWrittenRange r h).2 =
      { c with writtenRanges := c.writtenRanges.insert r h, pieceStorage, lastMarkedLength } := by
  unfold recordWrittenRange markPrefix
  dsimp only
  split <;> exact ⟨_, _, rfl⟩

theorem recordWrittenRange_index (c : DownloadCommand) (r : Interval Int) (h : r.start < r.stop) :
    (c.recordWrittenRange r h).1 = IntervalSet.insertionIndex r c.writtenRanges.runs := rfl

/-- A sequence of ranges is recorded. -/
def recordAll (c : DownloadCommand) (rs : List {r : Interval Int // r.start < r.stop}) :
    DownloadCommand :=
  rs.foldl (fun c r => (c.recordWrittenRange r.1 r.2).2) c

theorem mem_recordAll (c : DownloadCommand) (rs : List {r : Interval Int // r.start < r.stop})
    (x : Int) : x ∈ (recordAll c rs).writtenRanges ↔ x ∈ c.writtenRanges ∨ ∃ r ∈ rs, x ∈ r.1 := by
  induction rs generalizing c with
  | nil => simp [recordAll]
  | cons r rs ih =>
    obtain ⟨ps, marked, hrec⟩ := c.recordWrittenRange_spec r.1 r.2
    have hmem : x ∈ (c.recordWrittenRange r.1 r.2).2.writtenRanges ↔
        x ∈ r.1 ∨ x ∈ c.writtenRanges := by
      rw [hrec]
      exact @IntervalSet.mem_insert _ _ r.1 x c.writtenRanges r.2
    refine (ih _).trans ?_
    rw [hmem]
    simp only [List.mem_cons, exists_eq_or_imp]
    tauto

/-! ## Parts -/

/-- Where a part lies, and whether it is complete. -/
def span (p : PartInfo) : Int × Int × Bool := (p.offset, p.length, p.completed)

/-- A part is complete when all of it is written, and only then. -/
def PartsComplete (c : DownloadCommand) : Prop :=
  ∀ p ∈ c.parts, p.completed = true ↔ c.isRangeCovered p.offset p.limit = true

/-- The parts follow each other at multiples of the part size. -/
def OnGrid (c : DownloadCommand) : Prop :=
  ∀ (i : Nat) (e : Int × Int), c.layout[i]? = some e →
    e.1 = i * PART_SIZE ∧ 0 < e.2 ∧ e.2 ≤ PART_SIZE

theorem layout_of_span (h : c'.parts.map span = c.parts.map span) : c'.layout = c.layout := by
  have hproj : ∀ c : DownloadCommand, c.layout = (c.parts.map span).map fun k => (k.1, k.2.1) := by
    intro c
    rw [List.map_map]
    rfl
  rw [hproj, h, ← hproj]

theorem PartsComplete.congr (hc : c.PartsComplete) (h : c'.parts.map span = c.parts.map span)
    (hw : c'.writtenRanges = c.writtenRanges) : c'.PartsComplete := by
  intro p hp
  obtain ⟨q, hq, heq⟩ := List.mem_map.mp (h ▸ List.mem_map_of_mem hp : span p ∈ c.parts.map span)
  obtain ⟨h1, h2, h3⟩ : q.offset = p.offset ∧ q.length = p.length ∧ q.completed = p.completed := by
    simpa [span] using heq
  have := hc q hq
  simp only [isRangeCovered, PartInfo.limit, h1, h2, h3] at this ⊢
  rwa [hw]

/-- The parts under the merged range are all that a range can complete. -/
theorem partsComplete_update {old : IntervalSet Int} (hr : r.start < r.stop) (hgrid : c.OnGrid)
    (hold : ∀ p ∈ c.parts, p.completed = true ↔ old.Covers p.offset p.limit)
    (hw : c.writtenRanges = old.insert r hr) :
    (c.updatePartCompletion (IntervalSet.insertionIndex r old.runs)).PartsComplete := by
  obtain ⟨m, hm, -, -, hruns⟩ := IntervalSet.insertRuns_at r old.runs
  have hcovered : ∀ lo hi, c.isRangeCovered lo hi = true ↔ (old.insert r hr).Covers lo hi :=
    fun lo hi => isRangeCovered_iff.trans (by rw [hw])
  unfold updatePartCompletion
  rw [show c.writtenRanges.runs[IntervalSet.insertionIndex r old.runs]? = some m by rw [hw]; exact hm]
  intro p' hp'
  obtain ⟨i, hi, hp⟩ := List.mem_mapIdx.mp hp'
  have hget := List.getElem?_eq_getElem hi
  have hmem := List.getElem_mem hi
  generalize c.parts[i] = p at hp hget hmem
  obtain ⟨hoff, hpos, hle⟩ := hgrid i (p.offset, p.length) (by rw [layout, List.getElem?_map, hget]; rfl)
  dsimp only at hoff hpos hle
  have hlt : p.offset < p.limit := by unfold PartInfo.limit; omega
  split at hp <;> subst hp
  next hcond => exact iff_of_true rfl hcond.2.2.2
  next hcond =>
    change p.completed = true ↔ c.isRangeCovered p.offset p.limit = true
    rw [hold p hmem, hcovered]
    refine ⟨fun h => h.insert hlt hr, fun h => ?_⟩
    by_contra hnot
    obtain ⟨s, hs, h1, h2⟩ := h
    rcases hruns s hs with rfl | hs
    · refine hcond ⟨?_, ?_, ?_, (hcovered ..).mpr ⟨s, hs, h1, h2⟩⟩
      · unfold partIndexForOffset
        unfold PART_SIZE at *
        omega
      · unfold partIndexForOffset
        unfold PART_SIZE PartInfo.limit at *
        omega
      · simpa using fun hcomp => hnot ((hold p hmem).mp hcomp)
    · exact hnot ⟨s, hs, h1, h2⟩

/-! ## The invariant -/

/-- What every pass keeps. -/
structure Sound (c : DownloadCommand) : Prop where
  laid : c.Laid
  grid : c.OnGrid
  complete : c.PartsComplete
  /-- Every block in flight is in one part. -/
  inPart : ∀ b ∈ c.inflightBlocks,
    ∃ e ∈ c.layout, e.1 ≤ b.start ∧ b.start < b.stop ∧ b.stop ≤ e.1 + e.2
  /-- Blocks are only in flight from a current source. -/
  engaged : c.inflightBlocks ≠ [] →
    c.state = .peerDownload ∧ c.currentSourceIndex < c.sources.length

/-- What a change of the blocks in flight has to keep. -/
theorem Sound.congr (h : c.Sound) (hf : c'.fileSize = c.fileSize)
    (hs : c'.parts.map span = c.parts.map span) (hw : c'.writtenRanges = c.writtenRanges)
    (hin : ∀ b ∈ c'.inflightBlocks, b ∈ c.inflightBlocks ∨
      ∃ e ∈ c.layout, e.1 ≤ b.start ∧ b.start < b.stop ∧ b.stop ≤ e.1 + e.2)
    (hengaged : c'.inflightBlocks ≠ [] →
      c'.state = .peerDownload ∧ c'.currentSourceIndex < c'.sources.length) : c'.Sound := by
  have hl := layout_of_span hs
  refine ⟨h.laid.congr hl hf, ?_, h.complete.congr hs hw, fun b hb => ?_, hengaged⟩
  · unfold OnGrid
    rw [hl]
    exact h.grid
  · rw [hl]
    exact (hin b hb).elim (h.inPart b) id

/-- A change that leaves the blocks alone. -/
theorem Sound.aside (h : c.Sound) (hf : c'.fileSize = c.fileSize)
    (hs : c'.parts.map span = c.parts.map span) (hw : c'.writtenRanges = c.writtenRanges)
    (hi : c'.inflightBlocks = c.inflightBlocks) (hstate : c'.state = c.state)
    (hindex : c'.currentSourceIndex = c.currentSourceIndex)
    (hlen : c.sources.length ≤ c'.sources.length) : c'.Sound :=
  h.congr hf hs hw (fun b hb => .inl (hi ▸ hb)) fun hne => by
    obtain ⟨h1, h2⟩ := h.engaged (hi ▸ hne)
    exact ⟨hstate.trans h1, by omega⟩

/-- A change that drops the blocks. -/
theorem Sound.dropped (h : c.Sound) (hf : c'.fileSize = c.fileSize) (hp : c'.parts = c.parts)
    (hw : c'.writtenRanges = c.writtenRanges) (hi : c'.inflightBlocks = []) : c'.Sound :=
  h.congr hf (by rw [hp]) hw (by rw [hi]; exact nofun) fun hne => absurd hi hne

/-- A change that leaves the blocks alone and keeps the parts complete that are written. -/
theorem Sound.of_complete (h : c.Sound) (hf : c'.fileSize = c.fileSize) (hl : c'.layout = c.layout)
    (hi : c'.inflightBlocks = c.inflightBlocks) (hstate : c'.state = c.state)
    (hindex : c'.currentSourceIndex = c.currentSourceIndex)
    (hlen : c'.sources.length = c.sources.length) (hc : c'.PartsComplete) : c'.Sound := by
  refine ⟨h.laid.congr hl hf, ?_, hc, ?_, ?_⟩
  · unfold OnGrid
    rw [hl]
    exact h.grid
  · rw [hl, hi]
    exact h.inPart
  · rw [hi, hstate, hindex, hlen]
    exact h.engaged

theorem Sound.noBlocks (h : c.Sound) (hstate : c.state ≠ .peerDownload) :
    c.inflightBlocks = [] := by
  by_contra hne
  exact hstate (h.engaged hne).1

theorem Sound.tryNextPeer (h : c.Sound) (wallclock now : Nat) :
    (c.tryNextPeer wallclock now).Sound := by
  obtain ⟨_, _, _, _, -, hnext⟩ := Execution.tryNextPeer_spec c wallclock now
  obtain ⟨_, _, hleave, -⟩ := Execution.leavePeer_keeps c wallclock now
  rw [hnext, hleave]
  exact h.dropped rfl rfl rfl rfl

theorem markPeerFailed_keeps (c : DownloadCommand) (addr : String) (port : Nat) (permanent : Bool)
    (wallclock now : Nat) : ∃ sources failedPeers,
      c.markPeerFailed addr port permanent wallclock now = { c with sources, failedPeers } ∧
        sources.length = c.sources.length := by
  refine ⟨_, _, rfl, ?_⟩
  split <;> simp

theorem Sound.markPeerFailed (h : c.Sound) (addr : String) (port : Nat) (permanent : Bool)
    (wallclock now : Nat) : (c.markPeerFailed addr port permanent wallclock now).Sound := by
  obtain ⟨_, _, hmark, hlen⟩ := c.markPeerFailed_keeps addr port permanent wallclock now
  rw [hmark]
  exact h.aside rfl rfl rfl rfl rfl rfl hlen.ge

theorem span_addPartSource (k : Nat) (p : PartInfo) : span (addPartSource k p) = span p := by
  unfold addPartSource
  split <;> rfl

theorem Sound.addSource (h : c.Sound) (addr : String) (port wallclock now : Nat) :
    (c.addSource addr port wallclock now).Sound := by
  unfold DownloadCommand.addSource
  split
  · exact h
  · exact h.aside rfl rfl rfl rfl rfl rfl (by simp)

theorem Sound.updatePartAvailability (h : c.Sound) (sourceIndex : Nat) (partBitmap : List Bool) :
    (c.updatePartAvailability sourceIndex partBitmap).Sound := by
  unfold DownloadCommand.updatePartAvailability
  split
  · exact h
  · refine h.aside rfl (List.ext_getElem (by simp) fun i h1 h2 => ?_) rfl rfl rfl rfl (by simp)
    simp only [List.getElem_map, List.getElem_mapIdx]
    split
    exacts [span_addPartSource .., rfl]

/-! ## Asking for blocks -/

theorem findBestPartToDownload_source {sourceIndex wallclock i : Nat}
    (h : c.findBestPartToDownload sourceIndex wallclock = some i) :
    sourceIndex < c.sources.length := by
  unfold findBestPartToDownload at h
  split at h
  · cases h
  next hsrc => exact (List.getElem?_eq_some_iff.mp hsrc).1

theorem partsFor_source {t : Turn} {slots pos i : Nat} (h : i ∈ partsFor t slots pos c) :
    c.currentSourceIndex < c.sources.length := by
  cases slots with
  | zero => cases h
  | succ slots =>
    unfold partsFor at h
    split at h
    · cases h
    next hbest => exact findBestPartToDownload_source hbest

/-- The blocks of a call are new blocks of parts, asked from a current source. -/
theorem fill_inPart (t : Turn) (fuel : Nat) (hl : c.Laid) :
    ∀ b ∈ (fillBlockPipeline t fuel c).2.inflightBlocks, b ∈ c.inflightBlocks ∨
      (∃ e ∈ c.layout, e.1 ≤ b.start ∧ b.start < b.stop ∧ b.stop ≤ e.1 + e.2) ∧
        c.currentSourceIndex < c.sources.length := by
  induction fuel generalizing c with
  | zero => exact fun b hb => .inl hb
  | succ fuel ih =>
    unfold fillBlockPipeline
    split
    · obtain ⟨hbatch, hsame⟩ := gather_message t hl
      obtain ⟨_, _, _, _, _, hasks, -⟩ := Execution.asks_gatherBatch t BLOCKS_PER_MESSAGE c []
      have hnew : ∀ b ∈ (gatherBatch t BLOCKS_PER_MESSAGE c []).1,
          (∃ e ∈ c.layout, e.1 ≤ b.start ∧ b.start < b.stop ∧ b.stop ≤ e.1 + e.2) ∧
            c.currentSourceIndex < c.sources.length := by
        intro b hb
        rw [hbatch] at hb
        obtain ⟨i, hi, rfl⟩ := List.mem_map.mp hb
        obtain ⟨e, he, h1, h2, h3, -⟩ := blockAt_of_wanted hl (partsFor_wanted hi)
        exact ⟨⟨e, List.mem_of_getElem? he, h1, h2, h3⟩, partsFor_source hi⟩
      generalize gatherBatch t BLOCKS_PER_MESSAGE c [] = m at hsame hasks hnew
      obtain ⟨batch, c'⟩ := m
      dsimp only at hsame hasks hnew
      have hl' : c'.Laid := hl.congr hsame.layout hsame.fileSize
      have hsent : ∀ b ∈ (c'.sendBatch batch).inflightBlocks, b ∈ c.inflightBlocks ∨
          (∃ e ∈ c.layout, e.1 ≤ b.start ∧ b.start < b.stop ∧ b.stop ≤ e.1 + e.2) ∧
            c.currentSourceIndex < c.sources.length := by
        intro b hb
        rcases List.mem_append.mp hb with hb | hb
        · exact .inl (hsame.inflightBlocks ▸ hb)
        · exact .inr (hnew b hb)
      have hkeep : ∀ b ∈ c'.inflightBlocks, b ∈ c.inflightBlocks := fun b hb =>
        hsame.inflightBlocks ▸ hb
      cases batch with
      | nil => exact fun b hb => .inl (hkeep b hb)
      | cons b bs =>
        dsimp only
        split
        · exact fun b hb => .inl (hkeep b hb)
        split
        · intro b' hb'
          rcases ih (c := c'.sendBatch (b :: bs)) (hl'.congr rfl rfl) b' hb' with hb' | ⟨he, hi⟩
          · exact hsent b' hb'
          · have hlayout : (c'.sendBatch (b :: bs)).layout = c.layout := hsame.layout
            rw [hlayout] at he
            rw [hasks] at hi
            exact .inr ⟨he, hi⟩
        · exact hsent
    · exact fun b hb => .inl hb

theorem Sound.fill (h : c.Sound) (t : Turn) (hstate : c.state = .peerDownload) :
    (fillBlockPipeline t MAX_INFLIGHT_BLOCKS c).2.Sound := by
  have hblocks := fill_inPart t MAX_INFLIGHT_BLOCKS h.laid
  obtain ⟨parts, _, blocks, _, _, hasks, hkeys⟩ := Execution.asks_fill t MAX_INFLIGHT_BLOCKS c
  rw [hasks] at hblocks ⊢
  have hspan : parts.map span = c.parts.map span := by
    have := congrArg (List.map fun k : Int × Int × Bool × List Nat => (k.1, k.2.1, k.2.2.1)) hkeys
    rwa [List.map_map, List.map_map] at this
  refine h.congr rfl hspan rfl (fun b hb => (hblocks b hb).imp_right And.left) fun hne => ?_
  obtain ⟨b, hb⟩ := List.exists_mem_of_ne_nil _ hne
  refine ⟨hstate, ?_⟩
  rcases hblocks b hb with hb | ⟨-, hi⟩
  · exact (h.engaged (List.ne_nil_of_mem hb)).2
  · exact hi

/-! ## Answers -/

theorem mem_splitBlocks {blocks : List BlockRequest} {i : Nat} {b m : BlockRequest}
    (hr : r.start < r.stop) (h1 : b.start ≤ r.start) (h2 : r.stop ≤ b.stop)
    (hm : m ∈ splitBlocks blocks i b r) :
    m ∈ blocks ∨ b.start ≤ m.start ∧ m.start < m.stop ∧ m.stop ≤ b.stop := by
  unfold splitBlocks at hm
  rw [← List.append_assoc (if b.start < r.start then _ else _)] at hm
  rcases List.mem_append.mp hm with hm | hm
  · exact .inl (List.mem_of_mem_take hm)
  rcases List.mem_append.mp hm with hm | hm
  · exact .inr ((piecesOf_split h1 hr h2).within m hm)
  · exact .inl (List.mem_of_mem_drop hm)

theorem Sound.split (h : c.Sound) {i : Nat} {b : BlockRequest}
    (hi : c.inflightBlocks[i]? = some b) (hr : r.start < r.stop) (h1 : b.start ≤ r.start)
    (h2 : r.stop ≤ b.stop) :
    Sound { c with inflightBlocks := splitBlocks c.inflightBlocks i b r } := by
  have hb := List.mem_of_getElem? hi
  refine h.congr rfl rfl rfl (fun m hm => ?_) fun _ => h.engaged (List.ne_nil_of_mem hb)
  refine (mem_splitBlocks hr h1 h2 hm).imp_right fun ⟨h3, h4, h5⟩ => ?_
  obtain ⟨e, he, h6, -, h7⟩ := h.inPart b hb
  exact ⟨e, he, h6.trans h3, h4, h5.trans h7⟩

theorem acceptData_covered (hr : r.start < r.stop) (data : Bytes) (writeOk : Bool)
    (hcov : c.isRangeCovered r.start r.stop = true) : c.acceptData r hr data writeOk = c := by
  unfold acceptData
  exact if_pos hcov

theorem acceptData_failed (hr : r.start < r.stop) (data : Bytes)
    (hnew : ¬c.isRangeCovered r.start r.stop = true) : c.acceptData r hr data false =
      { c with aborted := some "ED2K failed to write block to disk" } := by
  unfold acceptData
  exact if_neg hnew

/-- What writing new bytes does. -/
theorem acceptData_new (c : DownloadCommand) (hr : r.start < r.stop) (data : Bytes)
    (hnew : ¬c.isRangeCovered r.start r.stop = true) :
    ∃ pieceStorage lastMarkedLength downloadedLength,
      let c' := { c with
        writtenRanges := c.writtenRanges.insert r hr
        pieceStorage, lastMarkedLength, downloadedLength }
      c.acceptData r hr data true =
        if c.parts.isEmpty ∨ c.sources.length ≤ c.currentSourceIndex then c'
        else (c'.creditSource r.start).updatePartCompletion
          (IntervalSet.insertionIndex r c.writtenRanges.runs) := by
  obtain ⟨ps, marked, hrec⟩ := recordWrittenRange_spec
    { c with pieceStorage := c.pieceStorage.writeData r.start.toNat data } r hr
  refine ⟨ps, marked, c.downloadedLength + data.length, ?_⟩
  unfold acceptData
  rw [if_neg hnew, if_neg (by decide)]
  dsimp only [recordWrittenRange] at hrec ⊢
  rw [hrec]
  rfl

theorem layout_creditSource (c : DownloadCommand) (dataStart : Int) :
    (c.creditSource dataStart).parts.map span = c.parts.map span := by
  refine List.ext_getElem (by simp [creditSource]) fun i h1 h2 => ?_
  simp only [creditSource, List.getElem_map, List.getElem_modify]
  split
  exacts [span_addPartSource .., rfl]

theorem updatePartCompletion_keeps (c : DownloadCommand) (rangeIndex : Nat) :
    ∃ parts, c.updatePartCompletion rangeIndex = { c with parts } ∧
      parts.map (fun p : PartInfo => (p.offset, p.length)) = c.layout := by
  unfold updatePartCompletion
  split
  · exact ⟨_, rfl, rfl⟩
  · refine ⟨_, rfl, layout_mapIdx _ fun i p => ?_⟩
    split <;> exact ⟨rfl, rfl⟩

/-- New bytes of an engaged command complete the parts they fill. -/
theorem Sound.acceptData (h : c.Sound) (hr : r.start < r.stop) (data : Bytes) (writeOk : Bool)
    (hindex : c.currentSourceIndex < c.sources.length) :
    (c.acceptData r hr data writeOk).Sound := by
  by_cases hnew : c.isRangeCovered r.start r.stop = true
  · rwa [acceptData_covered hr data writeOk hnew]
  cases writeOk with
  | false =>
    rw [acceptData_failed hr data hnew]
    exact h.aside rfl rfl rfl rfl rfl rfl le_rfl
  | true =>
    obtain ⟨ps, marked, len, haccept⟩ := c.acceptData_new hr data hnew
    rw [haccept]
    split
    next hnone =>
      have hnil : c.parts = [] := by simpa using hnone.resolve_right (not_le.mpr hindex)
      refine h.of_complete rfl rfl rfl rfl rfl rfl fun p hp => ?_
      exact absurd (hnil ▸ hp : p ∈ []) List.not_mem_nil
    · have hspan := layout_creditSource
        { c with
          writtenRanges := c.writtenRanges.insert r hr
          pieceStorage := ps, lastMarkedLength := marked, downloadedLength := len } r.start
      have hsize : ∀ c : DownloadCommand, (c.creditSource r.start).sources.length =
          c.sources.length := fun c => by simp [creditSource]
      have hupdate := @partsComplete_update (creditSource
        { c with
          writtenRanges := c.writtenRanges.insert r hr
          pieceStorage := ps, lastMarkedLength := marked, downloadedLength := len } r.start)
        r c.writtenRanges hr
      obtain ⟨parts, hkeep, hlayout⟩ := updatePartCompletion_keeps (creditSource
        { c with
          writtenRanges := c.writtenRanges.insert r hr
          pieceStorage := ps, lastMarkedLength := marked, downloadedLength := len } r.start)
        (IntervalSet.insertionIndex r c.writtenRanges.runs)
      rw [hkeep] at hupdate ⊢
      have hl := layout_of_span (c := c) hspan
      refine h.of_complete rfl (hlayout.trans hl) rfl rfl rfl (hsize _) (hupdate ?_ ?_ rfl)
      · unfold OnGrid
        rw [hl]
        exact h.grid
      · intro p hp
        have hcomplete : PartsComplete { c with parts := (creditSource _ r.start).parts } :=
          h.complete.congr hspan rfl
        exact (hcomplete p hp).trans isRangeCovered_iff

theorem Sound.handleSendingPart (h : c.Sound) (payload : Bytes) (is64 writeOk : Bool)
    (wallclock now : Nat) :
    (c.handleSendingPart payload is64 writeOk wallclock now).2.Sound := by
  have hanswer := c.handleSendingPart_answered payload is64 writeOk wallclock now
  generalize c.handleSendingPart payload is64 writeOk wallclock now = m at hanswer
  cases hanswer with
  | refused hc =>
    rcases hc with rfl | ⟨cur, -, rfl⟩
    · exact h.tryNextPeer ..
    · exact (h.markPeerFailed ..).tryNextPeer ..
  | ignored _ => exact h
  | accepted hi h1 h2 hr _ _ =>
    have hindex := (h.engaged (List.ne_nil_of_mem (List.mem_of_getElem? hi))).2
    have hdone := (h.split hi hr h1 h2).acceptData hr (sentData payload is64) writeOk hindex
    unfold settled
    split
    exacts [hdone, hdone.aside rfl rfl rfl rfl rfl rfl (by simp [touchSource])]

end DownloadCommand

namespace Execution

variable {cfg : Config} {t : Tick} {st : Ed2kState} {s s' : Execution}

open DownloadCommand (Sound)

theorem sound_dropPeer (h : s.Sound) (t : Tick) : (s.dropPeer t).Sound := by
  unfold dropPeer
  split
  · exact (h.markPeerFailed ..).tryNextPeer ..
  · exact h.tryNextPeer ..

theorem Follows.ne_download {st st' : Ed2kState} (h : Follows st st') : st ≠ .peerDownload := by
  cases h <;> decide

/-- Every move keeps the invariant. -/
theorem sound_move (hm : Move cfg t st s s') (h : s.Sound) : s'.Sound := by
  have hquiet : ∀ {st : Ed2kState}, s.state = st → st ≠ .peerDownload → s.inflightBlocks = [] :=
    fun hst hne => h.noBlocks (hst ▸ hne)
  cases hm with
  | learn addr port => exact h.addSource ..
  | status _ bitmap => exact h.updatePartAvailability ..
  | mark _ f hf => exact h.aside rfl rfl rfl rfl rfl rfl (by simp [setCurrent])
  | phase hf => exact h.dropped rfl rfl rfl (hquiet rfl hf.ne_download)
  | named b => exact h
  | leave _ => exact h.tryNextPeer ..
  | drop _ => exact sound_dropPeer h t
  | nextServer _ => exact h.dropped rfl rfl rfl rfl
  | skipServer _ => exact h.dropped rfl rfl rfl rfl
  | serverList _ =>
    unfold buildServerList
    split
    exacts [h.aside rfl rfl rfl rfl rfl rfl le_rfl, h]
  | round hs _ _ => exact h.dropped rfl rfl rfl (hquiet hs (by decide))
  | exhausted hs _ _ => exact h.dropped rfl rfl rfl (hquiet hs (by decide))
  | tryServer _ _ =>
    unfold initiateServer
    dsimp only
    split <;> exact h.dropped rfl rfl rfl rfl
  | waited _ _ =>
    dsimp only [DownloadCommand.reconnectServer]
    split
    · split <;> exact h.dropped rfl rfl rfl rfl
    · exact h.dropped rfl rfl rfl rfl
  | passOver hs _ _ _ => exact h.dropped rfl rfl rfl (hquiet hs (by decide))
  | connect _ _ _ _ => exact h.dropped rfl rfl rfl rfl
  | connecting hs _ _ _ => exact h.dropped rfl rfl rfl (hquiet hs (by decide))
  | found _ hs _ => exact h.dropped rfl rfl rfl (hquiet hs (by decide))
  | refresh _ => exact h.dropped rfl rfl rfl rfl
  | fill hs => exact h.fill t.turn hs
  | part _ payload is64 =>
    rw [sendingPart_command]
    exact h.handleSendingPart payload is64 t.writeOk t.turn.wallclock t.now
  | complete _ _ => exact h.dropped rfl rfl rfl rfl
  | verified hs => exact h.dropped rfl rfl rfl (hquiet hs (by decide))
  | abort message => exact h.aside rfl rfl rfl rfl rfl rfl le_rfl
  | done => exact h

theorem sound_execute (cfg : Config) (h : s.Sound) (t : Tick) : (s.execute cfg t).Sound :=
  of_moves (P := fun s => s.Sound) sound_move (execute_moves cfg t s) h

end Execution

/-! ## The start -/

namespace DownloadCommand

theorem partsFrom_grid (created fuel : Nat) (offset remaining : Int) :
    ∀ (i : Nat) (p : PartInfo), (partsFrom created fuel offset remaining)[i]? = some p →
      p.offset = offset + i * PART_SIZE ∧ 0 < p.length ∧ p.length ≤ PART_SIZE ∧
        p.completed = false := by
  induction fuel generalizing offset remaining with
  | zero =>
    rintro i p ⟨⟩
  | succ fuel ih =>
    unfold partsFrom
    split
    next hpos =>
      rintro (_ | i) p hp
      · cases hp
        exact ⟨by simp, lt_min (by decide) hpos, min_le_left .., rfl⟩
      · obtain ⟨h1, h2⟩ := ih _ _ i p hp
        exact ⟨by rw [h1]; push_cast; ring, h2⟩
    · rintro i p ⟨⟩

/-- A part of the start is complete when it lies in the completed prefix. -/
theorem start_parts {fileSize : Int} {rawFileHash : Bytes} {serverList : List (String × Nat)}
    {ps : Storage.DefaultPieceStorage} {created i : Nat} {p : PartInfo}
    (hp : (start fileSize rawFileHash serverList ps created).parts[i]? = some p) :
    p.offset = i * PART_SIZE ∧ 0 < p.length ∧ p.length ≤ PART_SIZE ∧
      (p.completed = true ↔ p.limit ≤ ps.getCompletedLength) := by
  simp only [start, initParts] at hp
  split at hp
  · cases hp
  · rw [List.getElem?_map, Option.map_eq_some_iff] at hp
    obtain ⟨q, hq, rfl⟩ := hp
    obtain ⟨h1, h2, h3, -⟩ := partsFrom_grid _ _ _ _ i q hq
    exact ⟨by rw [h1, Int.zero_add], h2, h3, decide_eq_true_iff⟩

theorem sound_start (fileSize : Int) (rawFileHash : Bytes) (serverList : List (String × Nat))
    (ps : Storage.DefaultPieceStorage) (created : Nat) :
    (start fileSize rawFileHash serverList ps created).Sound where
  laid := laid_start ..
  grid i e he := by
    rw [layout, List.getElem?_map, Option.map_eq_some_iff] at he
    obtain ⟨p, hp, rfl⟩ := he
    obtain ⟨h1, h2, h3, -⟩ := start_parts hp
    exact ⟨h1, h2, h3⟩
  complete p hp := by
    obtain ⟨i, hp⟩ := List.getElem?_of_mem hp
    obtain ⟨h1, h2, -, h3⟩ := start_parts hp
    have hoff : 0 ≤ p.offset := by
      rw [h1]
      exact Int.mul_nonneg (Int.natCast_nonneg i) (by decide)
    have hpos : 0 < p.limit := by unfold PartInfo.limit; omega
    rw [h3, isRangeCovered_iff]
    unfold start
    dsimp only
    split
    · exact ⟨fun h => ⟨_, .head _, hoff, h⟩, by rintro ⟨r, hr, -, h⟩; simp_all [IntervalSet.ofInterval]⟩
    next hnone =>
      refine iff_of_false (by omega) ?_
      rintro ⟨r, hr, -⟩
      cases hr
  inPart := nofun
  engaged h := absurd rfl h

end DownloadCommand

open DownloadCommand

/-- Recording ranges gives the set of their bytes, in ranges that neither meet nor touch, and
names the range that holds the bytes recorded; and in every state of a download a part is complete
when all of its bytes are written, and only then. -/
theorem written_parts :
    (∀ (c : DownloadCommand) (rs : List {r : Interval Int // r.start < r.stop}),
      Separated (recordAll c rs).writtenRanges.runs ∧
      (∀ x, x ∈ (recordAll c rs).writtenRanges ↔ x ∈ c.writtenRanges ∨ ∃ r ∈ rs, x ∈ r.1) ∧
      ∀ (r : Interval Int) (h : r.start < r.stop),
        ∃ m, ((recordAll c rs).recordWrittenRange r h).2.writtenRanges.runs[
            ((recordAll c rs).recordWrittenRange r h).1]? = some m ∧
          m.start ≤ r.start ∧ r.stop ≤ m.stop) ∧
    ∀ (cfg : Config) (fileSize : Int) (rawFileHash : Bytes) (serverList : List (String × Nat))
      (maxSources : Nat) (ps : DefaultPieceStorage) (created : Nat) (ts : List Tick),
      Visits (fun s t => Execution.execute cfg s t)
        (fun s => ∀ p ∈ s.parts,
          (p.completed = true ↔ s.isRangeCovered p.offset p.limit = true) ∧
          (p.completed = true ↔ ∀ x, p.offset ≤ x → x < p.limit → x ∈ s.writtenRanges))
        (Execution.start fileSize rawFileHash serverList maxSources ps created) ts := by
  refine ⟨fun c rs => ⟨(recordAll c rs).writtenRanges.separated, mem_recordAll c rs,
    fun r h => ?_⟩, fun cfg fileSize rawFileHash serverList maxSources ps created ts => ?_⟩
  · obtain ⟨_, _, hrec⟩ := (recordAll c rs).recordWrittenRange_spec r h
    obtain ⟨m, hm, h1, h2, -⟩ := IntervalSet.insertRuns_at r (recordAll c rs).writtenRanges.runs
    rw [recordWrittenRange_index, hrec]
    exact ⟨m, hm, h1, h2⟩
  · have hstart : (Execution.start fileSize rawFileHash serverList maxSources ps created).Sound :=
      (sound_start fileSize rawFileHash serverList ps created).aside rfl rfl rfl rfl rfl rfl le_rfl
    have hparts : ∀ s : Execution, s.Sound → ∀ p ∈ s.parts,
        (p.completed = true ↔ s.isRangeCovered p.offset p.limit = true) ∧
        (p.completed = true ↔ ∀ x, p.offset ≤ x → x < p.limit → x ∈ s.writtenRanges) := by
      intro s hs p hp
      obtain ⟨i, hi⟩ := List.getElem?_of_mem hp
      obtain ⟨-, hpos, -⟩ := hs.grid i (p.offset, p.length) (by rw [layout, List.getElem?_map, hi]; rfl)
      have hlt : p.offset < p.limit := by unfold PartInfo.limit; omega
      have hcomplete := hs.complete p hp
      refine ⟨hcomplete, hcomplete.trans ?_⟩
      exact isRangeCovered_iff.trans (IntervalSet.covers_iff hlt)
    have hall : Along (fun s t => Execution.execute cfg s t) (fun _ _ => True)
        (Execution.start fileSize rawFileHash serverList maxSources ps created) ts :=
      .of_forall fun _ _ => trivial
    exact visits_of_along (fun s t hs _ => Execution.sound_execute cfg hs t) hparts hstart hall

end FluxCore.Ed2k
