import FluxCore.Ed2k.PartChoice
import FluxCore.Ed2k.WriteSafety

/-!
# What is known of a source after a block

A source that delivers a block has the part it is from. Where nothing was known of the source, so
that every part could be asked of it, that becomes all that is known: `stays_eligible_iff`.
-/

namespace FluxCore.Ed2k

open Storage (DefaultPieceStorage)

namespace DownloadCommand

variable {c c' : DownloadCommand} {r : Interval Int} {src : PeerSource}

/-- Every part that is incomplete afterwards and could be asked of the current source before can
still be asked of it. -/
def StaysEligible (c c' : DownloadCommand) : Prop :=
  ∀ src src' i p, c.sources[c.currentSourceIndex]? = some src →
    c'.sources[c.currentSourceIndex]? = some src' → c'.parts[i]? = some p →
    p.completed = false → MayHave src i → MayHave src' i

/-- Nothing new is written, or a bitmap is there already, or no other part is missing. -/
def KeepsAvailability (c : DownloadCommand) (r : Interval Int) : Prop :=
  (∀ b ∈ c.inflightBlocks, ¬(b.start ≤ r.start ∧ r.stop ≤ b.stop)) ∨
  c.isRangeCovered r.start r.stop = true ∨
  (∀ src, c.sources[c.currentSourceIndex]? = some src → src.availableParts ≠ []) ∨
  ∀ i p, c.parts[i]? = some p → i ≠ partIndexForOffset r.start → p.completed = true

/-! ## The part of a block -/

/-- A range that lies in a block in flight lies in the part of its start. -/
theorem Sound.part_of_range (h : c.Sound) {b : BlockRequest} (hb : b ∈ c.inflightBlocks)
    (h1 : b.start ≤ r.start) (hr : r.start < r.stop) (h2 : r.stop ≤ b.stop) :
    ∃ p, c.parts[partIndexForOffset r.start]? = some p ∧ p.offset ≤ r.start ∧ r.stop ≤ p.limit := by
  obtain ⟨e, he, h3, -, h4⟩ := h.inPart b hb
  obtain ⟨k, hk⟩ := List.getElem?_of_mem he
  obtain ⟨hoff, -, hle⟩ := h.grid k e hk
  rw [layout, List.getElem?_map, Option.map_eq_some_iff] at hk
  obtain ⟨p, hp, rfl⟩ := hk
  have hindex : partIndexForOffset r.start = k := by
    unfold partIndexForOffset
    unfold PART_SIZE at *
    omega
  exact ⟨p, hindex ▸ hp, h3.trans h1, h2.trans h4⟩

/-- Parts do not overlap. -/
theorem Sound.parts_apart (h : c.Sound) {i j : Nat} {p q : PartInfo} (hp : c.parts[i]? = some p)
    (hq : c.parts[j]? = some q) (hne : i ≠ j) : p.limit ≤ q.offset ∨ q.limit ≤ p.offset := by
  have hat : ∀ {i : Nat} {p : PartInfo}, c.parts[i]? = some p →
      p.offset = i * PART_SIZE ∧ p.limit ≤ (i + 1) * PART_SIZE := by
    intro i p hp
    obtain ⟨h1, -, h2⟩ := h.grid i (p.offset, p.length) (by rw [layout, List.getElem?_map, hp]; rfl)
    dsimp only at h1 h2
    refine ⟨h1, ?_⟩
    unfold PartInfo.limit
    unfold PART_SIZE at *
    omega
  obtain ⟨h1, h2⟩ := hat hp
  obtain ⟨h3, h4⟩ := hat hq
  unfold PART_SIZE at *
  omega

/-- New bytes of one part complete no other part. -/
theorem Sound.completed_eq (h : c.Sound) (h' : c'.Sound) (hl : c'.layout = c.layout)
    (hr : r.start < r.stop) (hw : c'.writtenRanges = c.writtenRanges.insert r hr) {i k : Nat}
    {p p' q : PartInfo} (hp : c.parts[i]? = some p) (hp' : c'.parts[i]? = some p')
    (hq : c.parts[k]? = some q) (h1 : q.offset ≤ r.start) (h2 : r.stop ≤ q.limit) (hne : i ≠ k) :
    p'.completed = p.completed := by
  obtain ⟨-, hpos, -⟩ := h.grid i (p.offset, p.length) (by rw [layout, List.getElem?_map, hp]; rfl)
  have hlt : p.offset < p.limit := by unfold PartInfo.limit; omega
  obtain ⟨hoff, hlen⟩ : p'.offset = p.offset ∧ p'.length = p.length := by
    have := congrArg (·[i]?) hl
    simpa [layout, hp, hp'] using this
  have hlimit : p'.limit = p.limit := by unfold PartInfo.limit; rw [hoff, hlen]
  rw [Bool.eq_iff_iff, h.complete p (List.mem_of_getElem? hp),
    h'.complete p' (List.mem_of_getElem? hp'), isRangeCovered_iff, isRangeCovered_iff, hoff, hlimit,
    hw]
  refine ⟨fun hcov => ?_, fun hcov => hcov.insert hlt hr⟩
  rw [IntervalSet.covers_iff hlt] at hcov ⊢
  intro x hx hx'
  refine (IntervalSet.mem_insert.mp (hcov x hx hx')).resolve_left fun hmem => ?_
  have hmem1 := hmem.1
  have hmem2 := hmem.2
  rcases h.parts_apart hp hq hne with hapart | hapart <;> omega

/-! ## The bitmap -/

theorem mayHave_set {src' : PeerSource} {i k : Nat}
    (hbits : src'.availableParts = src.availableParts.set k true) (h : MayHave src i) :
    MayHave src' i := by
  rw [mayHave_iff, List.getD_eq_getElem?_getD] at h ⊢
  rw [hbits, List.getElem?_set]
  split
  · split <;> rfl
  · exact h

theorem mayHave_replicate {src' : PeerSource} {n i k : Nat}
    (hbits : src'.availableParts = (List.replicate n false).set k true) (hi : i < n) :
    MayHave src' i ↔ i = k := by
  rw [mayHave_iff, List.getD_eq_getElem?_getD, hbits, List.getElem?_set]
  by_cases h : k = i
  · subst h
    simp [hi]
  · simp [h, hi, Ne.symm h]

/-- What is known of the current source after a block of part `k`. -/
theorem creditSource_current (dataStart : Int) (hsrc : c.sources[c.currentSourceIndex]? = some src) :
    (c.creditSource dataStart).sources[c.currentSourceIndex]? = some
      { src with
        availableParts := (if src.availableParts.isEmpty then List.replicate c.parts.length false
          else src.availableParts).set (partIndexForOffset dataStart) true } := by
  simp [creditSource, hsrc]

/-! ## An answer -/

/-- Only the sources and the parts matter, and of the sources only what they have. -/
theorem staysEligible_touch (now : Nat) : StaysEligible c (c'.touchSource now) ↔
    StaysEligible c c' := by
  have hget : ∀ i, (c'.touchSource now).sources[i]? = c'.sources[i]?.map fun s =>
      if c'.currentSourceIndex = i then { s with lastActive := now } else s := by
    intro i
    simp only [touchSource, List.getElem?_modify]
    split <;> simp
  have hmay : ∀ (s : PeerSource) i (b : Bool),
      MayHave (if b then { s with lastActive := now } else s) i ↔ MayHave s i := by
    intro s i b
    cases b <;> rfl
  unfold StaysEligible
  rw [hget]
  constructor
  · intro h src src' i p hsrc hsrc' hp hincomplete hm
    have := h src _ i p hsrc (by rw [hsrc']; rfl) hp hincomplete hm
    exact (hmay src' i (c'.currentSourceIndex = c.currentSourceIndex)).mp (by simpa using this)
  · intro h src src' i p hsrc hsrc' hp hincomplete hm
    obtain ⟨s, hs, rfl⟩ := Option.map_eq_some_iff.mp hsrc'
    have := (hmay s i (c'.currentSourceIndex = c.currentSourceIndex)).mpr
      (h src s i p hsrc hs hp hincomplete hm)
    simpa using this

theorem staysEligible_same (hs : c'.sources = c.sources) : StaysEligible c c' := by
  intro src src' i p hsrc hsrc' _ _ hm
  rw [hs, hsrc] at hsrc'
  cases hsrc'
  exact hm

/-- After new bytes of part `k`, which complete that part at most. -/
theorem staysEligible_new {k : Nat} (hsrc : c.sources[c.currentSourceIndex]? = some src)
    (hsrc' : c'.sources[c.currentSourceIndex]? = some
      { src with
        availableParts := (if src.availableParts.isEmpty then List.replicate c.parts.length false
          else src.availableParts).set k true })
    (hlen : c'.parts.length = c.parts.length)
    (hother : ∀ (i : Nat) (p p' : PartInfo), c.parts[i]? = some p → c'.parts[i]? = some p' → i ≠ k →
      p'.completed = p.completed) :
    StaysEligible c c' ↔ src.availableParts ≠ [] ∨
      ∀ (i : Nat) (p : PartInfo), c.parts[i]? = some p → i ≠ k → p.completed = true := by
  have hpart : ∀ {i : Nat} {p' : PartInfo}, c'.parts[i]? = some p' →
      ∃ p, c.parts[i]? = some p := by
    intro i p' hp'
    have hi := (List.getElem?_eq_some_iff.mp hp').1
    exact ⟨_, List.getElem?_eq_getElem (hlen ▸ hi)⟩
  by_cases hknown : src.availableParts = []
  · rw [if_pos (by simp [hknown])] at hsrc'
    have hall : ∀ i, MayHave src i := fun i => .inl hknown
    simp only [hknown, ne_eq, not_true_eq_false, false_or]
    constructor
    · intro h i p hp hne
      by_contra hincomplete
      have hi := (List.getElem?_eq_some_iff.mp hp).1
      have hp' := List.getElem?_eq_getElem (hlen.symm ▸ hi : i < c'.parts.length)
      have hmay := h src _ i _ hsrc hsrc' hp'
        (by simpa [hother i p _ hp hp' hne] using hincomplete) (hall i)
      exact hne ((mayHave_replicate rfl hi).mp hmay)
    · intro h s s' i p' hs hs' hp' hincomplete _
      cases hsrc'.symm.trans hs'
      obtain ⟨p, hp⟩ := hpart hp'
      refine (mayHave_replicate rfl (List.getElem?_eq_some_iff.mp hp).1).mpr ?_
      by_contra hne
      rw [hother i p p' hp hp' hne, h i p hp hne] at hincomplete
      cases hincomplete
  · rw [if_neg (by simpa using hknown)] at hsrc'
    refine iff_of_true ?_ (.inl hknown)
    intro s s' i p' hs hs' _ _ hmay
    cases hsrc.symm.trans hs
    cases hsrc'.symm.trans hs'
    exact mayHave_set rfl hmay

/-- New bytes of part `k` keep what could be asked for when something was known of the source, or
nothing else is missing. -/
theorem Sound.acceptData_stays (h : c.Sound) (hr : r.start < r.stop) (data : Bytes)
    (hindex : c.currentSourceIndex < c.sources.length)
    (hnew : ¬c.isRangeCovered r.start r.stop = true) {q : PartInfo}
    (hq : c.parts[partIndexForOffset r.start]? = some q) (hq1 : q.offset ≤ r.start)
    (hq2 : r.stop ≤ q.limit) :
    StaysEligible c (c.acceptData r hr data true) ↔
      (∀ src, c.sources[c.currentSourceIndex]? = some src → src.availableParts ≠ []) ∨
      ∀ i p, c.parts[i]? = some p → i ≠ partIndexForOffset r.start → p.completed = true := by
  have hsound := h.acceptData hr data true hindex
  obtain ⟨ps, marked, len, haccept⟩ := c.acceptData_new hr data hnew
  have hparts : c.parts ≠ [] := List.ne_nil_of_length_pos
    (Nat.zero_lt_of_lt (List.getElem?_eq_some_iff.mp hq).1)
  rw [haccept, if_neg (by simp [hparts, hindex])] at hsound ⊢
  obtain ⟨parts, hupdate, hlayout⟩ := updatePartCompletion_keeps
    (creditSource
      { c with
        writtenRanges := c.writtenRanges.insert r hr
        pieceStorage := ps, lastMarkedLength := marked, downloadedLength := len } r.start)
    (IntervalSet.insertionIndex r c.writtenRanges.runs)
  rw [hupdate] at hsound ⊢
  have hl := hlayout.trans (layout_of_span (c := c) (layout_creditSource _ _))
  have hsrc := List.getElem?_eq_getElem hindex
  have hcurrent := @creditSource_current
    { c with
      writtenRanges := c.writtenRanges.insert r hr
      pieceStorage := ps, lastMarkedLength := marked, downloadedLength := len } _ r.start hsrc
  refine (staysEligible_new hsrc ?_ (by simpa [layout] using congrArg List.length hl)
    fun i p p' hp hp' hne => h.completed_eq hsound hl hr rfl hp hp' hq hq1 hq2 hne).trans ?_
  · exact hcurrent
  refine or_congr_left ⟨fun hne s hs => ?_, fun hne => hne _ hsrc⟩
  cases hsrc.symm.trans hs
  exact hne

/-- An answer that is accepted keeps what could be asked for when it says nothing new, or something
was known of the source, or nothing else is missing. -/
theorem Sound.staysEligible_iff (h : c.Sound) (payload : Bytes) (is64 writeOk : Bool)
    (wallclock now : Nat)
    (hacc : (c.handleSendingPart payload is64 writeOk wallclock now).1 = true) :
    StaysEligible c (c.handleSendingPart payload is64 writeOk wallclock now).2 ↔
      c.KeepsAvailability (sentRange payload is64) := by
  have hanswer := c.handleSendingPart_answered payload is64 writeOk wallclock now
  generalize c.handleSendingPart payload is64 writeOk wallclock now = m at hanswer hacc
  cases hanswer with
  | refused _ => cases hacc
  | ignored hnone => exact iff_of_true (staysEligible_same rfl) (.inl hnone)
  | @accepted i b hi h1 h2 hr hstop hlen =>
    have hb := List.mem_of_getElem? hi
    have hmatch : ¬∀ b ∈ c.inflightBlocks, ¬(b.start ≤ (sentRange payload is64).start ∧
        (sentRange payload is64).stop ≤ b.stop) := fun hnone => hnone b hb ⟨h1, h2⟩
    obtain ⟨q, hq, hq1, hq2⟩ := h.part_of_range hb h1 hr h2
    have hsplit := h.split hi hr h1 h2
    have hindex := (h.engaged (List.ne_nil_of_mem hb)).2
    unfold KeepsAvailability
    rw [or_iff_right hmatch]
    unfold settled at hacc ⊢
    split at hacc
    · cases hacc
    next habort =>
    rw [if_neg habort, staysEligible_touch]
    by_cases hcov : c.isRangeCovered (sentRange payload is64).start
        (sentRange payload is64).stop = true
    · refine iff_of_true (staysEligible_same ?_) (.inl hcov)
      rw [acceptData_covered
        (c := { c with inflightBlocks := splitBlocks c.inflightBlocks i b (sentRange payload is64) })
        hr _ _ hcov]
    rw [or_iff_right hcov]
    cases writeOk with
    | false =>
      rw [acceptData_failed
        (c := { c with inflightBlocks := splitBlocks c.inflightBlocks i b (sentRange payload is64) })
        hr _ hcov] at habort
      exact absurd rfl habort
    | true => exact hsplit.acceptData_stays hr (sentData payload is64) hindex hcov hq hq1 hq2

end DownloadCommand

open DownloadCommand Execution

/-- In every state that a download reaches, an answer that is accepted leaves every incomplete part
that could be asked of its source one that can be, unless it is the first that is written of a
source of which nothing is known while other parts are missing. -/
theorem stays_eligible_iff (cfg : Config) (fileSize : Int) (rawFileHash : Bytes)
    (serverList : List (String × Nat)) (maxSources : Nat) (ps : DefaultPieceStorage)
    (created : Nat) (ts : List Tick) :
    Throughout cfg
      (fun s => ∀ (payload : Bytes) (is64 writeOk : Bool) (wallclock now : Nat),
        (s.handleSendingPart payload is64 writeOk wallclock now).1 = true →
          (StaysEligible s.toDownloadCommand
              (s.handleSendingPart payload is64 writeOk wallclock now).2 ↔
            s.KeepsAvailability (sentRange payload is64)))
      (Execution.start fileSize rawFileHash serverList maxSources ps created) ts := by
  have hstart : (Execution.start fileSize rawFileHash serverList maxSources ps created).Sound :=
    (sound_start fileSize rawFileHash serverList ps created).aside rfl rfl rfl rfl rfl rfl le_rfl
  exact throughout_of_moves (P := fun s => s.Sound) hstart (fun t st s s' => sound_move)
    (fun s hs payload is64 writeOk wallclock now => hs.staysEligible_iff payload is64 writeOk
      wallclock now) ts

/-- The first byte of a source that says it has the whole file makes its second part one that the
source does not have. -/
theorem eligible_lost :
    ¬Throughout withoutServers
      (fun s => ∀ (payload : Bytes) (is64 writeOk : Bool) (wallclock now : Nat),
        (s.handleSendingPart payload is64 writeOk wallclock now).1 = true →
          StaysEligible s.toDownloadCommand
            (s.handleSendingPart payload is64 writeOk wallclock now).2)
      twoParts toDownload := by
  intro h
  have hlast := h.last (pass .nothing) _ .refl
    (List.replicate 16 0 ++ writeLe32 0 ++ writeLe32 1 ++ [7]) false true 0 0 (by decide +kernel)
    ⟨"10.0.0.1", 4662, .downloading, 0, []⟩ ⟨"10.0.0.1", 4662, .downloading, 0, [true, false]⟩ 1
    ⟨9728000, 9728000, false, false, 0, []⟩
  exact absurd (hlast (by decide +kernel) (by decide +kernel) (by decide +kernel) rfl (.inl rfl))
    (by decide +kernel)

end FluxCore.Ed2k
