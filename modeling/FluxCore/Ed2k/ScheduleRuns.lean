import FluxCore.Ed2k.Answers
import FluxCore.Ed2k.Scheduling

/-!
# The blocks in flight over a whole download

Answers split the blocks in flight and every other event drops them or leaves them alone, so that
only `fillBlockPipeline` can break the schedule: `scheduled_iff`.
-/

namespace FluxCore.Ed2k.DownloadCommand

variable {c : DownloadCommand} {t : Turn} {b r : Interval Int}

/-! ## What is left of a block -/

/-- Pieces of a block that leave out `r`. -/
structure PiecesOf (b r : Interval Int) (ms : List (Interval Int)) : Prop where
  disjoint : ms.Pairwise Interval.Disjoint
  within : ∀ m ∈ ms, b.start ≤ m.start ∧ m.start < m.stop ∧ m.stop ≤ b.stop
  apart : ∀ m ∈ ms, m.Disjoint r

theorem piecesOf_split (h1 : b.start ≤ r.start) (hr : r.start < r.stop) (h2 : r.stop ≤ b.stop) :
    PiecesOf b r ((if b.start < r.start then [⟨b.start, r.start⟩] else []) ++
      (if r.stop < b.stop then [⟨r.stop, b.stop⟩] else [])) := by
  refine ⟨?_, fun m hm => ?_, fun m hm => ?_⟩
  · refine List.pairwise_append.mpr ⟨by split <;> simp, by split <;> simp, fun m hm m' hm' => ?_⟩
    split at hm <;> split at hm' <;> simp only [List.mem_singleton, List.not_mem_nil] at hm hm'
    subst hm hm'
    exact .inl hr.le
  · rcases List.mem_append.mp hm with hm | hm <;> split at hm <;>
      simp only [List.mem_singleton, List.not_mem_nil] at hm <;> subst hm
    · exact ⟨le_rfl, ‹_›, hr.le.trans h2⟩
    · exact ⟨h1.trans hr.le, ‹_›, le_rfl⟩
  · rcases List.mem_append.mp hm with hm | hm <;> split at hm <;>
      simp only [List.mem_singleton, List.not_mem_nil] at hm <;> subst hm
    · exact .inl le_rfl
    · exact .inr le_rfl

/-- The blocks of which one has been replaced by its pieces. -/
theorem disjoint_pieces {as ds ms : List (Interval Int)} (h : PiecesOf b r ms)
    (hd : (as ++ b :: ds).Pairwise Interval.Disjoint) :
    (as ++ (ms ++ ds)).Pairwise Interval.Disjoint := by
  obtain ⟨has, hbds, hcross⟩ := List.pairwise_append.mp hd
  obtain ⟨hb, hds⟩ := List.pairwise_cons.mp hbds
  refine List.pairwise_append.mpr ⟨has, List.pairwise_append.mpr ⟨h.disjoint, hds, ?_⟩, ?_⟩
  · exact fun m hm d hd => (hb d hd).mono (h.within m hm).1 (h.within m hm).2.2
  · intro a ha m hm
    rcases List.mem_append.mp hm with hm | hm
    · exact ((hcross a ha b (.head _)).symm.mono (h.within m hm).1 (h.within m hm).2.2).symm
    · exact hcross a ha m (.tail _ hm)

/-- An answer that lies in block number `i` takes its bytes out of the schedule. -/
theorem Scheduled.split (hs : c.Scheduled) {i : Nat} (hi : c.inflightBlocks[i]? = some b)
    (h1 : b.start ≤ r.start) (hr : r.start < r.stop) (h2 : r.stop ≤ b.stop) :
    Scheduled { c with inflightBlocks := splitBlocks c.inflightBlocks i b r } ∧
      ∀ m ∈ splitBlocks c.inflightBlocks i b r, m.Disjoint r := by
  obtain ⟨hlt, hget⟩ := List.getElem?_eq_some_iff.mp hi
  have hblocks : c.inflightBlocks =
      c.inflightBlocks.take i ++ b :: c.inflightBlocks.drop (i + 1) := by
    rw [← hget, List.getElem_cons_drop, List.take_append_drop]
  have hp := piecesOf_split h1 hr h2
  have hd := hs.disjoint
  rw [hblocks] at hd
  have hb : b ∈ c.inflightBlocks := List.mem_of_getElem? hi
  have hmem : ∀ m ∈ splitBlocks c.inflightBlocks i b r,
      m.Disjoint r ∧ m.start < m.stop ∧
        ∃ b' ∈ c.inflightBlocks, b'.start ≤ m.start ∧ m.stop ≤ b'.stop := by
    intro m hm
    unfold splitBlocks at hm
    rw [← List.append_assoc (if b.start < r.start then _ else _)] at hm
    obtain ⟨-, hbds, hcross⟩ := List.pairwise_append.mp hd
    have hother : ∀ o, o ∈ c.inflightBlocks → o.Disjoint b → o.Disjoint r := fun o _ ho =>
      (ho.symm.mono h1 h2).symm
    rcases List.mem_append.mp hm with hm | hm
    · have hm' := List.mem_of_mem_take hm
      exact ⟨hother m hm' (hcross m hm b (.head _)), (hs.inside m hm').2.1, m, hm', le_rfl, le_rfl⟩
    rcases List.mem_append.mp hm with hm | hm
    · obtain ⟨w1, w2, w3⟩ := hp.within m hm
      exact ⟨hp.apart m hm, w2, b, hb, w1, w3⟩
    · have hm' := List.mem_of_mem_drop hm
      exact ⟨hother m hm' ((List.pairwise_cons.mp hbds).1 m hm).symm, (hs.inside m hm').2.1, m, hm',
        le_rfl, le_rfl⟩
  refine ⟨⟨?_, fun m hm => ?_, fun m hm x hx => ?_⟩, fun m hm => (hmem m hm).1⟩
  · have := disjoint_pieces hp hd
    rwa [List.append_assoc] at this
  · obtain ⟨-, hpos, b', hb', h1, h2⟩ := hmem m hm
    obtain ⟨h0, -, hsize⟩ := hs.inside b' hb'
    exact ⟨h0.trans h1, hpos, h2.trans hsize⟩
  · obtain ⟨-, -, b', hb', h1, h2⟩ := hmem m hm
    exact hs.unwritten b' hb' x ⟨h1.trans hx.1, hx.2.trans_le h2⟩

/-! ## The events -/

/-- What every step keeps. -/
structure Orderly (c : DownloadCommand) : Prop where
  laid : c.Laid
  scheduled : c.Scheduled

theorem Orderly.congr {c' : DownloadCommand} (h : c.Orderly) (hf : c'.fileSize = c.fileSize)
    (hl : c'.layout = c.layout) (hw : c'.writtenRanges = c.writtenRanges)
    (hi : c'.inflightBlocks = c.inflightBlocks) : c'.Orderly :=
  ⟨h.laid.congr hl hf, h.scheduled.congr hf hw hi⟩

theorem Orderly.of_empty {c' : DownloadCommand} (h : c.Laid) (hf : c'.fileSize = c.fileSize)
    (hl : c'.layout = c.layout) (hi : c'.inflightBlocks = []) : c'.Orderly := by
  refine ⟨h.congr hl hf, ?_, ?_, ?_⟩ <;> rw [hi]
  exacts [.nil, nofun, nofun]

theorem layout_mapIdx (ps : List PartInfo) {f : Nat → PartInfo → PartInfo}
    (hf : ∀ i p, (f i p).offset = p.offset ∧ (f i p).length = p.length) :
    (ps.mapIdx f).map (fun p => (p.offset, p.length)) = ps.map fun p => (p.offset, p.length) := by
  refine List.ext_getElem (by simp) fun i h1 h2 => ?_
  simp only [List.getElem_map, List.getElem_mapIdx, hf]

theorem addPartSource_layout (k : Nat) (p : PartInfo) :
    (addPartSource k p).offset = p.offset ∧ (addPartSource k p).length = p.length := by
  unfold addPartSource
  split <;> exact ⟨rfl, rfl⟩

theorem Orderly.tryNextPeer (h : c.Orderly) (wallclock now : Nat) :
    (c.tryNextPeer wallclock now).Orderly := by
  have hleave : ∀ c' : DownloadCommand, c' = (c.leavePeer wallclock now).resetPeerState →
      c'.fileSize = c.fileSize ∧ c'.layout = c.layout ∧ c'.inflightBlocks = [] := by
    rintro _ rfl
    unfold leavePeer resetPeerState
    split
    · split <;> exact ⟨rfl, rfl, rfl⟩
    · exact ⟨rfl, rfl, rfl⟩
  unfold DownloadCommand.tryNextPeer
  obtain ⟨hf, hl, hi⟩ := hleave _ rfl
  generalize (c.leavePeer wallclock now).resetPeerState = c' at hf hl hi ⊢
  dsimp only
  split
  · unfold reconnectServer
    dsimp only
    split
    next heq =>
      split at heq
      · split at heq <;> cases heq
        exact .of_empty h.laid hf hl rfl
      · cases heq
        exact .of_empty h.laid hf hl rfl
    next heq =>
      split at heq
      · split at heq <;> cases heq
        exact .of_empty h.laid hf hl rfl
      · cases heq
  · exact .of_empty h.laid hf hl hi

theorem Orderly.markPeerFailed (h : c.Orderly) (addr : String) (port : Nat) (permanent : Bool)
    (wallclock now : Nat) : (c.markPeerFailed addr port permanent wallclock now).Orderly :=
  h.congr rfl rfl rfl rfl

theorem markPrefix_blocks (c : DownloadCommand) :
    c.markPrefix.fileSize = c.fileSize ∧ c.markPrefix.layout = c.layout ∧
      c.markPrefix.writtenRanges = c.writtenRanges ∧
      c.markPrefix.inflightBlocks = c.inflightBlocks := by
  unfold markPrefix
  split <;> exact ⟨rfl, rfl, rfl, rfl⟩

theorem Orderly.credit (h : c.Orderly) (offset : Int) (rangeIndex : Nat) :
    ((c.creditSource offset).updatePartCompletion rangeIndex).Orderly := by
  have hcredit : (c.creditSource offset).Orderly :=
    h.congr rfl (layout_modify _ _ fun p => addPartSource_layout _ p) rfl rfl
  unfold updatePartCompletion
  split
  · exact hcredit
  · refine hcredit.congr rfl (layout_mapIdx _ fun i p => ?_) rfl rfl
    split <;> exact ⟨rfl, rfl⟩

/-- Bytes that no block in flight covers are written. -/
theorem Orderly.acceptData (h : c.Orderly) (hr : r.start < r.stop) (data : Bytes) (writeOk : Bool)
    (hapart : ∀ b ∈ c.inflightBlocks, b.Disjoint r) :
    (c.acceptData r hr data writeOk).Orderly := by
  unfold DownloadCommand.acceptData
  split
  · exact h
  split
  · exact h.congr rfl rfl rfl rfl
  have hrec : ∀ c' : DownloadCommand, c'.fileSize = c.fileSize → c'.layout = c.layout →
      c'.writtenRanges = c.writtenRanges.insert r hr → c'.inflightBlocks = c.inflightBlocks →
      c'.Orderly := by
    intro c' hf hl hw hi
    refine ⟨h.laid.congr hl hf, ?_, ?_, ?_⟩ <;> simp only [hf, hw, hi]
    · exact h.scheduled.disjoint
    · exact h.scheduled.inside
    · intro b hb x hx hmem
      rcases IntervalSet.mem_insert.mp hmem with hmem | hmem
      · exact (hapart b hb).not_mem hx hmem
      · exact h.scheduled.unwritten b hb x hx hmem
  obtain ⟨hf, hl, hw, hi⟩ := markPrefix_blocks
    { c with
      pieceStorage := c.pieceStorage.writeData r.start.toNat data
      writtenRanges := c.writtenRanges.insert r hr }
  dsimp only [recordWrittenRange]
  split
  · exact hrec _ hf hl hw hi
  · refine Orderly.credit ?_ _ _
    exact hrec _ hf hl hw hi

theorem Orderly.handleSendingPart (h : c.Orderly) (payload : Bytes) (is64 writeOk : Bool)
    (wallclock now : Nat) :
    (c.handleSendingPart payload is64 writeOk wallclock now).2.Orderly := by
  have hanswer := c.handleSendingPart_answered payload is64 writeOk wallclock now
  generalize c.handleSendingPart payload is64 writeOk wallclock now = m at hanswer
  cases hanswer with
  | refused hc =>
    rcases hc with rfl | ⟨cur, -, rfl⟩
    · exact h.tryNextPeer ..
    · exact (h.markPeerFailed ..).tryNextPeer ..
  | ignored _ => exact h
  | @accepted i b hi h1 h2 hr _ _ =>
    obtain ⟨hs, hapart⟩ := h.scheduled.split hi h1 hr h2
    have hsplit : Orderly { c with
        inflightBlocks := splitBlocks c.inflightBlocks i b (sentRange payload is64) } :=
      ⟨h.laid.congr rfl rfl, hs⟩
    have hdone := hsplit.acceptData hr (sentData payload is64) writeOk hapart
    unfold settled
    split
    exacts [hdone, hdone.congr rfl rfl rfl rfl]

theorem Orderly.updatePartAvailability (h : c.Orderly) (sourceIndex : Nat)
    (partBitmap : List Bool) : (c.updatePartAvailability sourceIndex partBitmap).Orderly := by
  unfold DownloadCommand.updatePartAvailability
  split
  · exact h
  · refine h.congr rfl (layout_mapIdx _ fun i p => ?_) rfl rfl
    split
    exacts [addPartSource_layout _ p, ⟨rfl, rfl⟩]

theorem Orderly.addSource (h : c.Orderly) (addr : String) (port wallclock now : Nat) :
    (c.addSource addr port wallclock now).Orderly := by
  unfold DownloadCommand.addSource
  split
  exacts [h, h.congr rfl rfl rfl rfl]

/-! ## Runs -/

/-- A call of `fillBlockPipeline` sends only messages whose parts are distinct and have room. -/
def KeepsSchedule (c : DownloadCommand) : Event → Prop
  | .fill t => c.aborted.isSome = false → PicksWell t MAX_INFLIGHT_BLOCKS c
  | _ => True

/-- Only a message that is not well breaks the schedule. -/
theorem Orderly.step (h : c.Orderly) (e : Event) :
    (c.step e).Laid ∧ ((c.step e).Scheduled ↔ c.KeepsSchedule e) := by
  have other : ∀ {c' : DownloadCommand}, c'.Orderly → (c'.Laid ∧ (c'.Scheduled ↔ True)) :=
    fun h' => ⟨h'.laid, iff_true_intro h'.scheduled⟩
  unfold DownloadCommand.step
  split
  next hab =>
    refine ⟨h.laid, iff_of_true h.scheduled ?_⟩
    cases e with
    | fill t => exact fun hab' => absurd (hab'.symm.trans hab) Bool.false_ne_true
    | _ => trivial
  next hab =>
    cases e with
    | fill t =>
      refine ⟨(fill_grows t _ h.laid).1, (scheduled_fill_iff t _ h.laid h.scheduled).trans ?_⟩
      exact ⟨fun hp _ => hp, fun hp => hp (Bool.eq_false_of_not_eq_true hab)⟩
    | sendingPart payload is64 writeOk wallclock now => exact other (h.handleSendingPart ..)
    | partAvailability sourceIndex partBitmap => exact other (h.updatePartAvailability ..)
    | nextPeer wallclock now => exact other (h.tryNextPeer ..)
    | addSource addr port wallclock now => exact other (h.addSource ..)
    | finish =>
      dsimp only
      split
      · exact other (.of_empty h.laid rfl rfl rfl)
      · exact other h
    | verified =>
      dsimp only
      split
      · exact other (h.congr rfl rfl rfl rfl)
      · exact other h

theorem orderly_start (fileSize : Int) (rawFileHash : Bytes) (serverList : List (String × Nat))
    (ps : Storage.DefaultPieceStorage) (created : Nat) :
    (start fileSize rawFileHash serverList ps created).Orderly :=
  ⟨laid_start .., .nil, nofun, nofun⟩

/-- A download keeps its schedule in every state when it sends only messages whose parts are
distinct and have room for their blocks, and only then. -/
theorem scheduled_iff (fileSize : Int) (rawFileHash : Bytes) (serverList : List (String × Nat))
    (ps : Storage.DefaultPieceStorage) (created : Nat) (es : List Event) :
    Visits DownloadCommand.step Scheduled (start fileSize rawFileHash serverList ps created) es ↔
      Along DownloadCommand.step KeepsSchedule (start fileSize rawFileHash serverList ps created)
        es := by
  have hstep : ∀ c e, Orderly c → True → KeepsSchedule c e → Orderly (DownloadCommand.step c e) :=
    fun _ e h _ hP => ⟨(h.step e).1, (h.step e).2.mpr hP⟩
  exact visits_iff_along hstep (fun _ h => h.scheduled) (fun _ e h _ hP hs => hP ((h.step e).2.mp hs))
    (orderly_start ..) (.of_forall fun _ _ => trivial)

/-- A file of one part from one source: the first message asks for the same block three times. -/
theorem one_part_counterexample :
    ¬Visits DownloadCommand.step Scheduled
      (start 1000000 (List.replicate 16 0) []
        { bitfieldMan := .new 1048576 1000000 } 0)
      [.addSource "10.0.0.1" 4662 0 0, .fill ⟨0, fun _ => 0, fun _ => false⟩] :=
  fun h => absurd h.2.2.disjoint (by decide +kernel)

end FluxCore.Ed2k.DownloadCommand
