import FluxCore.Ed2k.DownloadCommand

/-!
# What an answer does

`handleSendingPart` said once: the peer is left, or nothing happens, or the bytes of a range that
lies in a block in flight are accepted and the block is replaced by what is left of it.
-/

namespace FluxCore.Ed2k.DownloadCommand

/-- The bytes that follow the header. -/
def sentData (payload : Bytes) (is64 : Bool) : Bytes :=
  let r := sentRange payload is64
  (payload.drop (headerLen is64)).take (r.stop - r.start).toNat

/-- What is left to do when the answer has been accepted. -/
def settled (now : Nat) (c : DownloadCommand) : Bool × DownloadCommand :=
  if c.aborted.isSome then (false, c) else (true, c.touchSource now)

inductive Answered (c : DownloadCommand) (payload : Bytes) (is64 writeOk : Bool)
    (wallclock now : Nat) : Bool × DownloadCommand → Prop
  | refused {c' : DownloadCommand}
      (h : c' = c ∨ ∃ cur, c.sources[c.currentSourceIndex]? = some cur ∧
        c' = c.markPeerFailed cur.addr cur.port true wallclock now) :
      Answered c payload is64 writeOk wallclock now (false, c'.tryNextPeer wallclock now)
  | ignored (h : ∀ b ∈ c.inflightBlocks,
        ¬(b.start ≤ (sentRange payload is64).start ∧ (sentRange payload is64).stop ≤ b.stop)) :
      Answered c payload is64 writeOk wallclock now (true, c)
  | accepted {i : Nat} {b : BlockRequest} (hi : c.inflightBlocks[i]? = some b)
      (h1 : b.start ≤ (sentRange payload is64).start)
      (h2 : (sentRange payload is64).stop ≤ b.stop)
      (hr : (sentRange payload is64).start < (sentRange payload is64).stop)
      (hstop : (sentRange payload is64).stop ≤ c.fileSize)
      (hlen : (sentData payload is64).length =
        ((sentRange payload is64).stop - (sentRange payload is64).start).toNat) :
      Answered c payload is64 writeOk wallclock now
        (settled now
          (acceptData
            { c with
              inflightBlocks := splitBlocks c.inflightBlocks i b (sentRange payload is64) }
            (sentRange payload is64) hr (sentData payload is64) writeOk))

theorem handleSendingPart_answered (c : DownloadCommand) (payload : Bytes) (is64 writeOk : Bool)
    (wallclock now : Nat) :
    Answered c payload is64 writeOk wallclock now
      (c.handleSendingPart payload is64 writeOk wallclock now) := by
  unfold handleSendingPart
  split
  · exact .refused (.inl rfl)
  split
  · dsimp only
    split
    next cur hcur => exact .refused (.inr ⟨cur, hcur, rfl⟩)
    · exact .refused (.inl rfl)
  dsimp only
  split
  · exact .refused (.inl rfl)
  next hbad =>
    simp only [not_or, not_le, not_lt] at hbad
    obtain ⟨hr, -, hstop, hlen⟩ := hbad
    split
    next hnone => exact .ignored (by simpa using hnone)
    next i hfind =>
      obtain ⟨hi, hin, -⟩ := List.findIdx?_eq_some_iff_getElem.mp hfind
      simp only [decide_eq_true_eq] at hin
      have hget : c.inflightBlocks.getD i (sentRange payload is64) = c.inflightBlocks[i] := by
        rw [List.getD_eq_getElem?_getD, List.getElem?_eq_getElem hi, Option.getD_some]
      rw [hget]
      refine .accepted (List.getElem?_eq_getElem hi) hin.1 hin.2 hr hstop ?_
      unfold sentData
      rw [List.length_take, List.length_drop]
      omega

/-- What identifies a source, and what has become of it. -/
def sourceKey (p : PeerSource) : String × Nat × SourceState := (p.addr, p.port, p.state)

/-- The bytes of an answer are about the file and about what the sources have. -/
def Delivers (c c' : DownloadCommand) : Prop :=
  ∃ pieceStorage writtenRanges lastMarkedLength downloadedLength sources parts aborted,
    c' = { c with
      pieceStorage, writtenRanges, lastMarkedLength, downloadedLength, sources, parts, aborted } ∧
      sources.map sourceKey = c.sources.map sourceKey

theorem Delivers.refl (c : DownloadCommand) : Delivers c c := ⟨_, _, _, _, _, _, _, rfl, rfl⟩

theorem Delivers.trans {c c' c'' : DownloadCommand} (h : Delivers c c') (h' : Delivers c' c'') :
    Delivers c c'' := by
  obtain ⟨_, _, _, _, _, _, _, rfl, h1⟩ := h
  obtain ⟨_, _, _, _, _, _, _, rfl, h2⟩ := h'
  exact ⟨_, _, _, _, _, _, _, rfl, h2.trans h1⟩

theorem map_modify_sourceKey (sources : List PeerSource) (i : Nat) {f : PeerSource → PeerSource}
    (hf : ∀ p, sourceKey (f p) = sourceKey p) :
    (sources.modify i f).map sourceKey = sources.map sourceKey := by
  refine List.ext_getElem (by simp) fun j h1 h2 => ?_
  simp only [List.getElem_map, List.getElem_modify]
  split
  exacts [hf _, rfl]

theorem delivers_acceptData (c : DownloadCommand) {r : Interval Int} (hr : r.start < r.stop)
    (data : Bytes) (writeOk : Bool) : Delivers c (c.acceptData r hr data writeOk) := by
  have hmark : ∀ c : DownloadCommand, Delivers c c.markPrefix := by
    intro c
    unfold markPrefix
    split
    exacts [⟨_, _, _, _, _, _, _, rfl, rfl⟩, .refl c]
  have hcredit : ∀ (c : DownloadCommand) lo, Delivers c (c.creditSource lo) := fun c lo =>
    ⟨_, _, _, _, _, _, _, rfl, map_modify_sourceKey _ _ fun _ => rfl⟩
  have hupdate : ∀ (c : DownloadCommand) i, Delivers c (c.updatePartCompletion i) := by
    intro c i
    unfold updatePartCompletion
    split
    exacts [.refl c, ⟨_, _, _, _, _, _, _, rfl, rfl⟩]
  unfold acceptData
  split
  · exact .refl c
  split
  · exact ⟨_, _, _, _, _, _, _, rfl, rfl⟩
  have hrecord : Delivers c { (recordWrittenRange
      { c with pieceStorage := c.pieceStorage.writeData r.start.toNat data } r hr).2 with
        downloadedLength := (recordWrittenRange
          { c with pieceStorage := c.pieceStorage.writeData r.start.toNat data } r hr).2.downloadedLength
            + data.length } :=
    (Delivers.trans ⟨_, _, _, _, _, _, _, rfl, rfl⟩ (hmark _)).trans
      ⟨_, _, _, _, _, _, _, rfl, rfl⟩
  dsimp only
  split
  · exact hrecord
  · exact (hrecord.trans (hcredit ..)).trans (hupdate ..)

theorem delivers_settled (now : Nat) (c : DownloadCommand) : Delivers c (settled now c).2 := by
  unfold settled
  split
  exacts [.refl c, ⟨_, _, _, _, _, _, _, rfl, map_modify_sourceKey _ _ fun _ => rfl⟩]

end FluxCore.Ed2k.DownloadCommand
