import FluxCore.Ed2k.WrittenRanges

/-!
# What the network can write

The bytes of an answer are written only where they were asked for, whatever offsets the peer
chooses. The test of the offsets itself subtracts them before it compares them with the file size:
`sending_part_safe_iff` says for which offsets the difference is not an `int64_t`.
-/

namespace FluxCore.Ed2k

open Storage (DefaultPieceStorage)

namespace DownloadCommand

variable {c : DownloadCommand} {r b : Interval Int} {payload : Bytes} {is64 : Bool}

/-! ## The arithmetic of the test -/

/-- `x - y` as an `int64_t`. -/
def checkedSub (x y : Int) : Option Int :=
  if -2 ^ 63 ≤ x - y ∧ x - y < 2 ^ 63 then some (x - y) else none

/-- `x + y` as a `size_t`. -/
def checkedAdd (x y : Nat) : Option Nat := if x + y < 2 ^ 64 then some (x + y) else none

/-- The test of the range of an answer, one operation at a time. -/
def malformedRange (fileSize : Int) (payload : Bytes) (is64 : Bool) : Option Bool :=
  let r := sentRange payload is64
  if r.stop ≤ r.start then some true
  else
    (checkedSub r.stop r.start).bind fun size =>
      if ED2K_BLOCK_SIZE < size then some true
      else if fileSize < r.stop then some true
      else (checkedAdd (headerLen is64) size.toNat).map fun needed => payload.length < needed

/-- The length and the hash are in order, so that the offsets are looked at. -/
def ReadsRange (c : DownloadCommand) (payload : Bytes) (is64 : Bool) : Prop :=
  headerLen is64 ≤ payload.length ∧
    ¬(c.rawFileHash.length = 16 ∧ payload.take 16 ≠ c.rawFileHash)

instance : Decidable (c.ReadsRange payload is64) := inferInstanceAs (Decidable (_ ∧ ¬_))

/-- An operation of the test has no result. -/
def Overflows (c : DownloadCommand) (payload : Bytes) (is64 : Bool) : Prop :=
  c.ReadsRange payload is64 ∧ malformedRange c.fileSize payload is64 = none

theorem headerLen_le (is64 : Bool) : headerLen is64 ≤ 32 := by cases is64 <;> decide

/-- Where every operation has a result, the test is the one that is made. -/
theorem malformedRange_eq_some (h : (sentRange payload is64).stop - (sentRange payload is64).start <
      2 ^ 63) (fileSize : Int) :
    malformedRange fileSize payload is64 = some (decide
      ((sentRange payload is64).stop ≤ (sentRange payload is64).start ∨
        ED2K_BLOCK_SIZE < (sentRange payload is64).stop - (sentRange payload is64).start ∨
        fileSize < (sentRange payload is64).stop ∨
        payload.length < headerLen is64 +
          ((sentRange payload is64).stop - (sentRange payload is64).start).toNat)) := by
  have hheader := headerLen_le is64
  unfold malformedRange
  dsimp only
  generalize sentRange payload is64 = r at h ⊢
  by_cases h1 : r.stop ≤ r.start
  · simp [h1]
  have hsub : checkedSub r.stop r.start = some (r.stop - r.start) := if_pos ⟨by omega, h⟩
  rw [if_neg h1, hsub, Option.bind_some]
  by_cases h2 : ED2K_BLOCK_SIZE < r.stop - r.start
  · simp [h2]
  by_cases h3 : fileSize < r.stop
  · simp [h3]
  have hadd : checkedAdd (headerLen is64) (r.stop - r.start).toNat =
      some (headerLen is64 + (r.stop - r.start).toNat) :=
    if_pos (by unfold ED2K_BLOCK_SIZE at h2; omega)
  rw [if_neg h2, if_neg h3, hadd, Option.map_some]
  simp [h1, h2, h3]

/-- Only the subtraction can fail, of a start that is far enough below zero. -/
theorem overflows_iff : c.Overflows payload is64 ↔ c.ReadsRange payload is64 ∧
    2 ^ 63 ≤ (sentRange payload is64).stop - (sentRange payload is64).start := by
  refine and_congr_right fun _ => ?_
  by_cases h : (sentRange payload is64).stop - (sentRange payload is64).start < 2 ^ 63
  · exact iff_of_false (by rw [malformedRange_eq_some h]; exact nofun) (not_le.mpr h)
  · refine iff_of_true ?_ (not_lt.mp h)
    have hsub : checkedSub (sentRange payload is64).stop (sentRange payload is64).start = none :=
      if_neg fun hfits => h hfits.2
    unfold malformedRange
    rw [if_neg (by omega), hsub]
    rfl

/-! ## What is written -/

/-- Intervals that are what `r` leaves of `b`. -/
structure Remainder (b r : Interval Int) (ms : List (Interval Int)) : Prop where
  nonempty : ∀ m ∈ ms, m.start < m.stop
  disjoint : ms.Pairwise Interval.Disjoint
  mem : ∀ x, (∃ m ∈ ms, x ∈ m) ↔ x ∈ b ∧ x ∉ r

theorem remainder_split (h1 : b.start ≤ r.start) (hr : r.start < r.stop) (h2 : r.stop ≤ b.stop) :
    Remainder b r ((if b.start < r.start then [⟨b.start, r.start⟩] else []) ++
      (if r.stop < b.stop then [⟨r.stop, b.stop⟩] else [])) := by
  have hpieces := piecesOf_split h1 hr h2
  refine ⟨fun m hm => (hpieces.within m hm).2.1, hpieces.disjoint, fun x => ⟨?_, ?_⟩⟩
  · rintro ⟨m, hm, hx⟩
    obtain ⟨h3, -, h4⟩ := hpieces.within m hm
    exact ⟨⟨h3.trans hx.1, hx.2.trans_le h4⟩, (hpieces.apart m hm).not_mem hx⟩
  · rintro ⟨hx, hout⟩
    rcases lt_or_ge x r.start with hlt | hge
    · exact ⟨⟨b.start, r.start⟩, by simp [hx.1.trans_lt hlt], hx.1, hlt⟩
    · have hge' : r.stop ≤ x := not_lt.mp fun hlt => hout ⟨hge, hlt⟩
      exact ⟨⟨r.stop, b.stop⟩, by simp [hge'.trans_lt hx.2], hge', hx.2⟩

/-- The bytes of `payload` that are written are those of a range that was asked for, and no more
than they is taken out of the blocks in flight. -/
structure WrittenAsAsked (c c' : DownloadCommand) (payload : Bytes) (r : Interval Int)
    (data : Bytes) : Prop where
  written : c'.pieceStorage.disk = c.pieceStorage.disk ++ [(r.start.toNat, data)]
  length : (data.length : Int) = r.stop - r.start
  received : data <:+: payload
  nonempty : r.start < r.stop
  inside : 0 ≤ r.start ∧ r.stop ≤ c.fileSize
  asked : ∃ i b ms, c.inflightBlocks[i]? = some b ∧ b.start ≤ r.start ∧ r.stop ≤ b.stop ∧
    Remainder b r ms ∧
    c'.inflightBlocks = c.inflightBlocks.take i ++ ms ++ c.inflightBlocks.drop (i + 1)

/-- A call writes nothing, or what was asked for. -/
def WritesAsAsked (c c' : DownloadCommand) (payload : Bytes) : Prop :=
  c'.pieceStorage.disk = c.pieceStorage.disk ∨ ∃ r data, WrittenAsAsked c c' payload r data

theorem disk_markPiecesDone (ps : DefaultPieceStorage) (length : Nat) :
    (ps.markPiecesDone length).disk = ps.disk := by
  unfold DefaultPieceStorage.markPiecesDone
  split
  · rfl
  split
  · rfl
  dsimp only
  split
  · rw [DefaultPieceStorage.disk_addUsedPiece]
    split <;> rfl
  · split <;> rfl

theorem disk_markPrefix (c : DownloadCommand) : c.markPrefix.pieceStorage.disk =
    c.pieceStorage.disk := by
  unfold markPrefix
  split
  exacts [disk_markPiecesDone .., rfl]

/-- What is written is handed to the disk adaptor at its start, and the blocks are left alone. -/
theorem acceptData_disk (c : DownloadCommand) (hr : r.start < r.stop) (data : Bytes)
    (writeOk : Bool) :
    ((c.acceptData r hr data writeOk).pieceStorage.disk = c.pieceStorage.disk ∨
      (c.acceptData r hr data writeOk).pieceStorage.disk =
        c.pieceStorage.disk ++ [(r.start.toNat, data)]) ∧
      (c.acceptData r hr data writeOk).inflightBlocks = c.inflightBlocks := by
  unfold acceptData
  split
  · exact ⟨.inl rfl, rfl⟩
  split
  · exact ⟨.inl rfl, rfl⟩
  have hdisk := disk_markPrefix
    { c with
      pieceStorage := c.pieceStorage.writeData r.start.toNat data
      writtenRanges := c.writtenRanges.insert r hr }
  obtain ⟨-, -, -, hblocks⟩ := markPrefix_blocks
    { c with
      pieceStorage := c.pieceStorage.writeData r.start.toNat data
      writtenRanges := c.writtenRanges.insert r hr }
  dsimp only [recordWrittenRange]
  split
  · exact ⟨.inr hdisk, hblocks⟩
  · obtain ⟨_, hparts, -⟩ := updatePartCompletion_keeps
      (creditSource _ r.start) (c.writtenRanges.runs.takeWhile fun s => s.stop < r.start).length
    rw [hparts]
    exact ⟨.inr hdisk, hblocks⟩

theorem disk_tryNextPeer (c : DownloadCommand) (wallclock now : Nat) :
    (c.tryNextPeer wallclock now).pieceStorage = c.pieceStorage := by
  obtain ⟨_, _, _, _, -, hnext⟩ := Execution.tryNextPeer_spec c wallclock now
  obtain ⟨_, _, hleave, -⟩ := Execution.leavePeer_keeps c wallclock now
  rw [hnext, hleave]
  rfl

theorem settled_keeps (now : Nat) (c : DownloadCommand) :
    (settled now c).2.pieceStorage = c.pieceStorage ∧
      (settled now c).2.inflightBlocks = c.inflightBlocks := by
  unfold settled
  split <;> exact ⟨rfl, rfl⟩

theorem Sound.writesAsAsked (h : c.Sound) (payload : Bytes) (is64 writeOk : Bool)
    (wallclock now : Nat) :
    WritesAsAsked c (c.handleSendingPart payload is64 writeOk wallclock now).2 payload := by
  have hanswer := c.handleSendingPart_answered payload is64 writeOk wallclock now
  generalize c.handleSendingPart payload is64 writeOk wallclock now = m at hanswer
  cases hanswer with
  | refused hc =>
    refine .inl ?_
    rw [disk_tryNextPeer]
    rcases hc with rfl | ⟨cur, -, rfl⟩ <;> rfl
  | ignored _ => exact .inl rfl
  | @accepted i b hi h1 h2 hr hstop hlen =>
    obtain ⟨hdisk, hblocks⟩ := acceptData_disk
      { c with inflightBlocks := splitBlocks c.inflightBlocks i b (sentRange payload is64) }
      hr (sentData payload is64) writeOk
    refine hdisk.imp (fun hsame => by rw [(settled_keeps ..).1]; exact hsame) fun hwritten => ?_
    obtain ⟨e, he, h3, -⟩ := h.inPart b (List.mem_of_getElem? hi)
    refine ⟨sentRange payload is64, sentData payload is64, ?_, ?_, ?_, hr, ⟨?_, hstop⟩,
      i, b, _, hi, h1, h2, remainder_split h1 hr h2, ?_⟩
    · rw [(settled_keeps ..).1]
      exact hwritten
    · rw [hlen]
      omega
    · exact (List.take_prefix _ _).isInfix.trans (List.drop_suffix _ _).isInfix
    · exact (h.laid.inside e he).1.trans (h3.trans h1)
    · rw [(settled_keeps ..).2, hblocks]
      simp only [splitBlocks, List.append_assoc]

end DownloadCommand

open DownloadCommand Execution

/-- In every state that a download reaches, an answer writes nothing but what was asked for, and
every operation on its offsets has a result unless they are `2 ^ 63` or more apart. -/
theorem sending_part_safe_iff (cfg : Config) (fileSize : Int) (rawFileHash : Bytes)
    (serverList : List (String × Nat)) (maxSources : Nat) (ps : DefaultPieceStorage)
    (created : Nat) (ts : List Tick) :
    Throughout cfg
      (fun s => ∀ (payload : Bytes) (is64 writeOk : Bool) (wallclock now : Nat),
        ¬s.Overflows payload is64 ∧ WritesAsAsked s.toDownloadCommand
            (s.handleSendingPart payload is64 writeOk wallclock now).2 payload ↔
          ¬(s.ReadsRange payload is64 ∧
            2 ^ 63 ≤ (sentRange payload is64).stop - (sentRange payload is64).start))
      (Execution.start fileSize rawFileHash serverList maxSources ps created) ts := by
  have hstart : (Execution.start fileSize rawFileHash serverList maxSources ps created).Sound :=
    (sound_start fileSize rawFileHash serverList ps created).aside rfl rfl rfl rfl rfl rfl le_rfl
  refine throughout_of_moves (P := fun s => s.Sound) hstart (fun t st s s' => sound_move) ?_ ts
  intro s hs payload is64 writeOk wallclock now
  rw [overflows_iff]
  exact and_iff_left (hs.writesAsAsked ..)

/-- The options of a download whose sources come from KAD only. -/
def withoutServers : Config where
  serverSourceEnabled := false
  sourceExchangeEnabled := false
  defaultServers := [("", 0)]
  defaultServers_ne := nofun

/-- The passes up to the download from one source, which says that it has the whole file. -/
def toDownload : List Tick :=
  [{ pass .nothing with kadSources := [("10.0.0.1", 4662)] }, pass .nothing, pass .nothing,
    pass .nothing, received HELLO_ANSWER [], received REQ_FILENAME_ANSWER [],
    received FILE_STATUS (List.replicate 18 0), received ACCEPT_UPLOAD_REQ [], pass .nothing]

/-- The download of a file of two parts. -/
def twoParts : Execution :=
  Execution.start 19456000 (List.replicate 16 0) [] 100
    { bitfieldMan := .new 1048576 19456000 } 0

/-- The lowest start of all, and an end behind it: the difference is not an `int64_t`. -/
theorem sending_part_overflow :
    ¬Throughout withoutServers
      (fun s => ∀ (payload : Bytes) (is64 writeOk : Bool) (wallclock now : Nat),
        ¬s.Overflows payload is64 ∧ WritesAsAsked s.toDownloadCommand
          (s.handleSendingPart payload is64 writeOk wallclock now).2 payload)
      twoParts toDownload := by
  intro h
  have hlast := h.last (pass .nothing) _ .refl
    (List.replicate 16 0 ++ appendLe64 0x8000000000000000 ++ appendLe64 1) true true 0 0
  exact hlast.1 (overflows_iff.mpr ⟨by decide +kernel, by decide +kernel⟩)

end FluxCore.Ed2k
