import FluxCore.Ed2k.DownloadCommand
import FluxCore.Lib.Run

/-!
# The blocks in flight

No byte is asked for twice: the blocks in flight are pairwise disjoint, inside the file and free of
written bytes. `nextFreeOffset` does find the first free byte of a part (`nextFreeOffset_spec`), but
the blocks of one message are picked before any of them is recorded, and a block is cut at the end
of its part only. `scheduled_fill_iff` says which calls of `fillBlockPipeline` keep the schedule.
-/

namespace FluxCore.Ed2k.DownloadCommand

/-- Neither written nor in flight. -/
def Free (c : DownloadCommand) (x : Int) : Prop :=
  x ∉ c.writtenRanges ∧ ∀ b ∈ c.inflightBlocks, x ∉ b

structure Scheduled (c : DownloadCommand) : Prop where
  disjoint : c.inflightBlocks.Pairwise Interval.Disjoint
  inside : ∀ b ∈ c.inflightBlocks, 0 ≤ b.start ∧ b.start < b.stop ∧ b.stop ≤ c.fileSize
  unwritten : ∀ b ∈ c.inflightBlocks, ∀ x ∈ b, x ∉ c.writtenRanges

/-! ## The first free offset -/

section
variable {inflight : List BlockRequest} {n next limit : Int}

/-- One pass over the blocks in flight moves through covered offsets only. -/
theorem foldl_block_spec (inflight : List BlockRequest) (n : Int) :
    let m := inflight.foldl (fun n b => if b.start ≤ n ∧ n < b.stop then b.stop else n) n
    n ≤ m ∧ (∀ x, n ≤ x → x < m → ∃ b ∈ inflight, x ∈ b) ∧
      (m = n → ∀ b ∈ inflight, n ∉ b) ∧ (m ≠ n → ∃ b ∈ inflight, n < b.stop ∧ b.stop ≤ m) := by
  induction inflight generalizing n with
  | nil => exact ⟨le_rfl, fun x h1 h2 => absurd h2 (not_lt.mpr h1), fun _ => nofun, fun h => (h rfl).elim⟩
  | cons b bs ih =>
    simp only [List.foldl_cons]
    split
    next hb =>
      obtain ⟨h1, h2, -, h4⟩ := ih b.stop
      refine ⟨hb.2.le.trans h1, fun x hx hx' => ?_, fun heq => ?_, fun _ => ⟨b, .head _, hb.2, h1⟩⟩
      · by_cases hlt : x < b.stop
        · exact ⟨b, .head _, hb.1.trans hx, hlt⟩
        · obtain ⟨b', hb', hx''⟩ := h2 x (not_lt.mp hlt) hx'
          exact ⟨b', .tail _ hb', hx''⟩
      · exact absurd heq (hb.2.trans_le h1).ne'
    next hb =>
      obtain ⟨h1, h2, h3, h4⟩ := ih n
      refine ⟨h1, fun x hx hx' => ?_, fun heq => ?_, fun hne => ?_⟩
      · obtain ⟨b', hb', hx''⟩ := h2 x hx hx'
        exact ⟨b', .tail _ hb', hx''⟩
      · rintro b' (_ | ⟨_, hb'⟩)
        · exact hb
        · exact h3 heq b' hb'
      · obtain ⟨b', hb', hlt⟩ := h4 hne
        exact ⟨b', .tail _ hb', hlt⟩

/-- The intervals that reach behind `next`. -/
def ahead (next : Int) (rs : List (Interval Int)) : List (Interval Int) :=
  rs.filter fun r => next < r.stop

theorem length_ahead_le {next next' : Int} (h : next ≤ next') (rs : List (Interval Int)) :
    (ahead next' rs).length ≤ (ahead next rs).length := by
  refine (List.monotone_filter_right rs fun r hr => ?_).length_le
  simp only [decide_eq_true_eq] at hr ⊢
  omega

/-- An interval that is left behind is not counted any more. -/
theorem length_ahead_lt {next next' : Int} {rs : List (Interval Int)} {r : Interval Int}
    (hr : r ∈ rs) (h1 : next < r.stop) (h2 : r.stop ≤ next') :
    (ahead next' rs).length < (ahead next rs).length := by
  induction rs with
  | nil => cases hr
  | cons s rs ih =>
    unfold ahead at ih ⊢
    rw [List.filter_cons, List.filter_cons]
    rcases List.mem_cons.mp hr with rfl | hr
    · have := length_ahead_le (h1.le.trans h2) rs
      unfold ahead at this
      simp only [h1, decide_true, if_true, not_lt.mpr h2, decide_false, List.length_cons]
      simp only [Bool.false_eq_true, if_false]
      omega
    · have hlt := ih hr
      split <;> split <;> simp_all <;> omega

/-- Where the loop gets to on the written runs, all of which reach behind `next`. -/
def pastRun (next : Int) (rit : List (Interval Int)) : Int :=
  match rit with
  | r :: _ => if r.start ≤ next then r.stop else next
  | [] => next

theorem pastRun_spec {rit : List (Interval Int)} (hs : rit.Pairwise fun r s => r.stop ≤ s.start)
    (hhead : ∀ r ∈ rit.head?, next < r.stop) :
    next ≤ pastRun next rit ∧ (∀ x, next ≤ x → x < pastRun next rit → ∃ r ∈ rit, x ∈ r) ∧
      (pastRun next rit = next → ∀ r ∈ rit, next ∉ r) ∧
      (pastRun next rit ≠ next → ∃ r ∈ rit, next < r.stop ∧ r.stop ≤ pastRun next rit) := by
  cases rit with
  | nil => exact ⟨le_rfl, fun x h1 h2 => absurd h2 (not_lt.mpr h1), fun _ => nofun, fun h => (h rfl).elim⟩
  | cons r rs =>
    have hr : next < r.stop := hhead r rfl
    simp only [pastRun]
    split_ifs with hle
    · exact ⟨hr.le, fun x h1 h2 => ⟨r, .head _, hle.trans h1, h2⟩, fun h => absurd h hr.ne',
        fun _ => ⟨r, .head _, hr, le_rfl⟩⟩
    · refine ⟨le_rfl, fun x h1 h2 => absurd h2 (not_lt.mpr h1), fun _ => ?_, fun h => (h rfl).elim⟩
      rintro s (_ | ⟨_, hs'⟩) hmem
      · exact hle hmem.1
      · have := (List.pairwise_cons.mp hs).1 s hs'
        have := hmem.1
        omega

/-- What passing over the runs that stop at or before `next` leaves. -/
theorem dropWhile_spec (next : Int) (rit : List (Interval Int)) :
    (∀ r ∈ rit, r ∈ rit.dropWhile (fun r => decide (r.stop ≤ next)) ∨ r.stop ≤ next) ∧
      ∀ r ∈ (rit.dropWhile fun r => decide (r.stop ≤ next)).head?, next < r.stop := by
  constructor
  · intro r hr
    rw [← List.takeWhile_append_dropWhile (p := fun r => decide (r.stop ≤ next)) (l := rit),
      List.mem_append] at hr
    rcases hr with hr | hr
    · exact .inr (by simpa using List.all_eq_true.mp List.all_takeWhile r hr)
    · exact .inl hr
  · intro r hr
    have hhead := List.head?_dropWhile_not (fun r : Interval Int => decide (r.stop ≤ next)) rit
    rw [Option.mem_def.mp hr] at hhead
    simpa using hhead

theorem advance_succ (limit : Int) (inflight : List BlockRequest) (fuel : Nat) (next : Int)
    (rit : List (Interval Int)) :
    advance limit inflight (fuel + 1) next rit =
      if next < limit then
        let rit' := rit.dropWhile fun r => r.stop ≤ next
        let m := inflight.foldl (fun n b => if b.start ≤ n ∧ n < b.stop then b.stop else n)
          (pastRun next rit')
        if m = next then next else advance limit inflight fuel m rit'
      else next := rfl

/-- One turn of the loop on written runs in order, from `next` to `m` with the runs `rit'` left. -/
structure Moves (inflight : List BlockRequest) (next : Int) (rit rit' : List (Interval Int))
    (m : Int) : Prop where
  rest : rit'.Sublist rit
  le : next ≤ m
  taken : ∀ x, next ≤ x → x < m → (∃ r ∈ rit, x ∈ r) ∨ ∃ b ∈ inflight, x ∈ b
  passed : ∀ r ∈ rit, r ∈ rit' ∨ r.stop ≤ next
  free : m = next → (∀ r ∈ rit, next ∉ r) ∧ ∀ b ∈ inflight, next ∉ b
  less : m ≠ next → (ahead m rit').length + (ahead m inflight).length <
    (ahead next rit).length + (ahead next inflight).length

theorem moves_turn (inflight : List BlockRequest) (next : Int) {rit : List (Interval Int)}
    (hs : rit.Pairwise fun r s => r.stop ≤ s.start) :
    let rit' := rit.dropWhile fun r => r.stop ≤ next
    Moves inflight next rit rit' (inflight.foldl
      (fun n b => if b.start ≤ n ∧ n < b.stop then b.stop else n) (pastRun next rit')) := by
  intro rit'
  have hsub : rit'.Sublist rit := List.dropWhile_sublist _
  obtain ⟨hpassed, hhead⟩ := dropWhile_spec next rit
  obtain ⟨w1, w2, w3, w4⟩ := pastRun_spec (hs.sublist hsub) hhead
  obtain ⟨m1, m2, m3, m4⟩ := foldl_block_spec inflight (pastRun next rit')
  generalize inflight.foldl (fun n b => if b.start ≤ n ∧ n < b.stop then b.stop else n)
    (pastRun next rit') = m at m1 m2 m3 m4
  refine ⟨hsub, w1.trans m1, fun x h1 h2 => ?_, hpassed, fun heq => ?_, fun hne => ?_⟩
  · by_cases hx : x < pastRun next rit'
    · obtain ⟨r, hr, hmem⟩ := w2 x h1 hx
      exact .inl ⟨r, hsub.subset hr, hmem⟩
    · exact .inr (m2 x (not_lt.mp hx) h2)
  · have hw : pastRun next rit' = next := le_antisymm (heq ▸ m1) w1
    refine ⟨fun r hr hmem => ?_, ?_⟩
    · rcases hpassed r hr with hr' | hr'
      · exact w3 hw r hr' hmem
      · exact absurd hmem.2 (not_lt.mpr hr')
    · rw [hw] at m3
      exact m3 heq
  · have hle : (ahead m rit').length ≤ (ahead next rit).length :=
      (length_ahead_le (w1.trans m1) rit').trans (hsub.filter _).length_le
    have hle' := length_ahead_le (w1.trans m1) inflight
    by_cases hw : pastRun next rit' = next
    · obtain ⟨b, hb, hb1, hb2⟩ := m4 (fun heq => hne (heq.trans hw))
      have := length_ahead_lt hb (w1.trans_lt hb1) hb2
      omega
    · obtain ⟨r, hr, hr1, hr2⟩ := w4 hw
      have := (length_ahead_lt hr hr1 (hr2.trans m1)).trans_le (hsub.filter _).length_le
      unfold ahead at this hle' ⊢
      omega

/-- What the loop finds on written runs in order. -/
theorem advance_spec (limit : Int) (inflight : List BlockRequest) (fuel : Nat) (next : Int)
    (rit : List (Interval Int)) (hs : rit.Pairwise fun r s => r.stop ≤ s.start) :
    next ≤ advance limit inflight fuel next rit ∧
      (∀ x, next ≤ x → x < advance limit inflight fuel next rit →
        (∃ r ∈ rit, x ∈ r) ∨ ∃ b ∈ inflight, x ∈ b) ∧
      ((ahead next rit).length + (ahead next inflight).length < fuel →
        advance limit inflight fuel next rit < limit →
        (∀ r ∈ rit, advance limit inflight fuel next rit ∉ r) ∧
          ∀ b ∈ inflight, advance limit inflight fuel next rit ∉ b) := by
  induction fuel generalizing next rit with
  | zero =>
    exact ⟨le_rfl, fun x h1 h2 => absurd h2 (not_lt.mpr h1), fun h => absurd h (Nat.not_lt_zero _)⟩
  | succ fuel ih =>
    rw [advance_succ]
    split
    · dsimp only
      have hturn := moves_turn inflight next hs
      generalize rit.dropWhile (fun r => decide (r.stop ≤ next)) = rit' at hturn ⊢
      dsimp only at hturn
      generalize inflight.foldl _ _ = m at hturn ⊢
      split
      next heq =>
        exact ⟨le_rfl, fun x h1 h2 => absurd h2 (not_lt.mpr h1), fun _ _ => hturn.free heq⟩
      next hne =>
        obtain ⟨r1, r2, r3⟩ := ih m rit' (hs.sublist hturn.rest)
        refine ⟨hturn.le.trans r1, fun x h1 h2 => ?_, fun hfuel hlt => ?_⟩
        · by_cases hx : x < m
          · exact hturn.taken x h1 hx
          · rcases r2 x (not_lt.mp hx) h2 with ⟨r, hr, hmem⟩ | hmem
            · exact .inl ⟨r, hturn.rest.subset hr, hmem⟩
            · exact .inr hmem
        · obtain ⟨hrun, hblock⟩ := r3 (by have := hturn.less hne; omega) hlt
          refine ⟨fun r hr hmem => ?_, hblock⟩
          rcases hturn.passed r hr with hr' | hr'
          · exact hrun r hr' hmem
          · exact absurd hmem.2 (not_lt.mpr (hr'.trans (hturn.le.trans r1)))
    · exact ⟨le_rfl, fun x h1 h2 => absurd h2 (not_lt.mpr h1), fun _ h => absurd h ‹_›⟩

/-- More fuel than there are intervals ahead makes no difference. -/
theorem advance_fuel (limit : Int) (inflight : List BlockRequest) {fuel fuel' : Nat} (next : Int)
    (rit : List (Interval Int)) (hs : rit.Pairwise fun r s => r.stop ≤ s.start)
    (h : (ahead next rit).length + (ahead next inflight).length < fuel) (hle : fuel ≤ fuel') :
    advance limit inflight fuel' next rit = advance limit inflight fuel next rit := by
  induction fuel generalizing next rit fuel' with
  | zero => exact absurd h (Nat.not_lt_zero _)
  | succ fuel ih =>
    obtain ⟨fuel', rfl⟩ := Nat.exists_eq_add_of_le' hle
    rw [← Nat.add_assoc, advance_succ, advance_succ]
    dsimp only
    have hturn := moves_turn inflight next hs
    generalize rit.dropWhile (fun r => decide (r.stop ≤ next)) = rit' at hturn ⊢
    dsimp only at hturn
    generalize inflight.foldl _ _ = m at hturn ⊢
    split
    · split
      · rfl
      next hne =>
        have := hturn.less hne
        exact ih m rit' (hs.sublist hturn.rest) (by omega) (by omega)
    · rfl

/-- Sorted and disjoint; ranges may be empty and may touch. -/
structure InOrder (written : List (Interval Int)) : Prop where
  le : ∀ r ∈ written, r.start ≤ r.stop
  sorted : written.Pairwise fun r s => r.stop ≤ s.start

theorem InOrder.of_separated {rs : List (Interval Int)} (h : Separated rs) : InOrder rs :=
  ⟨fun r hr => (h.nonempty r hr).le, h.sorted.imp le_of_lt⟩

/-- Covered by none of the ranges and none of the blocks. -/
def Uncovered (written : List (Interval Int)) (inflight : List BlockRequest) (x : Int) : Prop :=
  (∀ r ∈ written, x ∉ r) ∧ ∀ b ∈ inflight, x ∉ b

/-- `nextFreeOffset` on any ranges and blocks; `rit` is where `upper_bound` finds the first range
that ends behind `lo`. -/
def nextFreeOffsetOf (written : List (Interval Int)) (inflight : List BlockRequest) (fuel : Nat)
    (lo limit : Int) : Int :=
  advance limit inflight fuel lo (written.dropWhile fun r => r.stop ≤ lo)

theorem length_ahead_dropWhile (written : List (Interval Int)) (inflight : List BlockRequest)
    (lo : Int) : (ahead lo (written.dropWhile fun r => r.stop ≤ lo)).length +
      (ahead lo inflight).length < written.length + inflight.length + 1 := by
  have hrit : (ahead lo (written.dropWhile fun r => r.stop ≤ lo)).length ≤ written.length :=
    (List.length_filter_le ..).trans (List.dropWhile_sublist _).length_le
  have hblocks : (ahead lo inflight).length ≤ inflight.length := List.length_filter_le ..
  omega

theorem nextFreeOffsetOf_spec {written : List (Interval Int)} (hw : InOrder written)
    (inflight : List BlockRequest) (lo limit : Int) {fuel : Nat}
    (hfuel : written.length + inflight.length < fuel) :
    let n := nextFreeOffsetOf written inflight fuel lo limit
    lo ≤ n ∧ (∀ x, lo ≤ x → x < n → ¬Uncovered written inflight x) ∧
      (n < limit → Uncovered written inflight n) := by
  intro n
  obtain ⟨hpassed, -⟩ := dropWhile_spec lo written
  have hsub := List.dropWhile_sublist (fun r : Interval Int => decide (r.stop ≤ lo)) (l := written)
  have hahead := length_ahead_dropWhile written inflight lo
  obtain ⟨h1, h2, h3⟩ := advance_spec limit inflight fuel lo
    (written.dropWhile fun r => r.stop ≤ lo) (hw.sorted.sublist hsub)
  refine ⟨h1, fun x hx hx' hfree => ?_, fun hlt => ?_⟩
  · rcases h2 x hx hx' with ⟨r, hr, hmem⟩ | ⟨b, hb, hmem⟩
    · exact hfree.1 r (hsub.subset hr) hmem
    · exact hfree.2 b hb hmem
  · obtain ⟨hrun, hblock⟩ := h3 (by omega) hlt
    refine ⟨fun r hr hmem => ?_, hblock⟩
    rcases hpassed r hr with hr' | hr'
    · exact hrun r hr' hmem
    · exact absurd hmem.2 (not_lt.mpr (hr'.trans h1))

/-- The loop comes to an end, at the least uncovered offset if there is one below the limit. -/
theorem nextFreeOffsetOf_exact {written : List (Interval Int)} (hw : InOrder written)
    (inflight : List BlockRequest) (lo limit : Int) :
    ∃ n, (∀ fuel, written.length + inflight.length < fuel →
        nextFreeOffsetOf written inflight fuel lo limit = n) ∧
      (n < limit → IsLeast {x | lo ≤ x ∧ Uncovered written inflight x} n) ∧
      (limit ≤ n ↔ ∀ x, lo ≤ x → x < limit → ¬Uncovered written inflight x) := by
  have hsorted := hw.sorted.sublist
    (List.dropWhile_sublist (fun r : Interval Int => decide (r.stop ≤ lo)) (l := written))
  obtain ⟨hle, htaken, hfree⟩ := nextFreeOffsetOf_spec hw inflight lo limit (Nat.lt_succ_self _)
  refine ⟨_, fun fuel hfuel => advance_fuel limit inflight lo _ hsorted
    (length_ahead_dropWhile written inflight lo) hfuel, fun hlt => ⟨⟨hle, hfree hlt⟩, fun x hx => ?_⟩,
    fun hlimit x hx hx' => htaken x hx (hx'.trans_le hlimit), fun hnone => ?_⟩
  · exact not_lt.mp fun hxn => htaken x hx.1 hxn hx.2
  · exact not_lt.mp fun hlt => hnone _ hle hlt (hfree hlt)

/-- Two ranges that touch and a block across the end of the second, given out of order. -/
theorem nextFreeOffsetOf_exact_touching :
    InOrder [⟨0, 4⟩, ⟨4, 6⟩] ∧ nextFreeOffsetOf [⟨0, 4⟩, ⟨4, 6⟩] [⟨8, 9⟩, ⟨5, 8⟩] 5 1 20 = 9 ∧
      ∃ n, (∀ fuel, 4 < fuel →
          nextFreeOffsetOf [⟨0, 4⟩, ⟨4, 6⟩] [⟨8, 9⟩, ⟨5, 8⟩] fuel 1 20 = n) ∧
        (n < 20 → IsLeast {x | 1 ≤ x ∧ Uncovered [⟨0, 4⟩, ⟨4, 6⟩] [⟨8, 9⟩, ⟨5, 8⟩] x} n) ∧
        (20 ≤ n ↔ ∀ x, 1 ≤ x → x < 20 → ¬Uncovered [⟨0, 4⟩, ⟨4, 6⟩] [⟨8, 9⟩, ⟨5, 8⟩] x) :=
  have hw : InOrder [⟨0, 4⟩, ⟨4, 6⟩] := ⟨by decide, by decide⟩
  ⟨hw, by decide, nextFreeOffsetOf_exact hw [⟨8, 9⟩, ⟨5, 8⟩] 1 20⟩

end

variable {c : DownloadCommand} {t : Turn}

/-- `n` is where the first free byte from `lo` on is looked for: up to it everything is taken, and
it is free itself if it lies before the limit. -/
structure FirstFree (c : DownloadCommand) (lo limit n : Int) : Prop where
  le : lo ≤ n
  taken : ∀ x, lo ≤ x → x < n → ¬c.Free x
  free : n < limit → c.Free n

theorem free_iff (c : DownloadCommand) (x : Int) :
    c.Free x ↔ Uncovered c.writtenRanges.runs c.inflightBlocks x := by
  refine and_congr_left' ⟨fun h r hr hmem => h ⟨r, hr, hmem⟩, ?_⟩
  rintro h ⟨r, hr, hmem⟩
  exact h r hr hmem

theorem nextFreeOffset_spec (c : DownloadCommand) (lo limit : Int) :
    FirstFree c lo limit (c.nextFreeOffset lo limit) := by
  obtain ⟨hle, htaken, hfree⟩ := nextFreeOffsetOf_spec (.of_separated c.writtenRanges.separated)
    c.inflightBlocks lo limit (Nat.lt_succ_self _)
  exact ⟨hle, fun x hx hx' hx'' => htaken x hx hx' ((c.free_iff x).mp hx''),
    fun hlt => (c.free_iff _).mpr (hfree hlt)⟩

/-! ## The parts -/

/-- Where the parts lie: offset and length. Nothing changes it after the construction. -/
def layout (c : DownloadCommand) : List (Int × Int) := c.parts.map fun p => (p.offset, p.length)

structure Laid (c : DownloadCommand) : Prop where
  inside : ∀ e ∈ c.layout, 0 ≤ e.1 ∧ e.1 + e.2 ≤ c.fileSize
  apart : c.layout.Pairwise fun e e' => e.1 + e.2 ≤ e'.1
  cover : c.layout = [] → c.fileSize ≤ 0

theorem partsFrom_spec (created fuel : Nat) (offset remaining : Int) :
    (∀ p ∈ partsFrom created fuel offset remaining,
      offset ≤ p.offset ∧ p.offset + p.length ≤ offset + remaining) ∧
      (partsFrom created fuel offset remaining).Pairwise
        fun p q => p.offset + p.length ≤ q.offset := by
  induction fuel generalizing offset remaining with
  | zero => exact ⟨nofun, .nil⟩
  | succ fuel ih =>
    unfold partsFrom
    split
    next hpos =>
      obtain ⟨h1, h2⟩ := ih (offset + PART_SIZE) (remaining - PART_SIZE)
      have hsize : 0 < PART_SIZE := by decide
      have hmin := min_le_left PART_SIZE remaining
      have hmin' := min_le_right PART_SIZE remaining
      refine ⟨?_, .cons (fun q hq => ?_) h2⟩
      · rintro p (_ | ⟨_, hp⟩)
        · exact ⟨le_rfl, Int.add_le_add_left hmin' offset⟩
        · have := h1 p hp
          omega
      · exact (Int.add_le_add_left hmin offset).trans (h1 q hq).1
    next => exact ⟨nofun, .nil⟩

theorem laid_start (fileSize : Int) (rawFileHash : Bytes) (serverList : List (String × Nat))
    (ps : Storage.DefaultPieceStorage) (created : Nat) :
    (start fileSize rawFileHash serverList ps created).Laid := by
  have hlayout : (start fileSize rawFileHash serverList ps created).layout =
      if fileSize = 0 then [] else
        (partsFrom created fileSize.toNat 0 fileSize).map fun p => (p.offset, p.length) := by
    simp only [layout, start, initParts]
    split
    · rfl
    · rw [List.map_map]
      rfl
  obtain ⟨h1, h2⟩ := partsFrom_spec created fileSize.toNat 0 fileSize
  refine ⟨?_, ?_, ?_⟩ <;> rw [hlayout] <;> split
  · exact nofun
  · rintro e he
    obtain ⟨p, hp, rfl⟩ := List.mem_map.mp he
    have := h1 p hp
    exact ⟨this.1, by simpa [start] using this.2⟩
  · exact .nil
  · exact List.pairwise_map.mpr h2
  next h0 => exact fun _ => h0.le
  next =>
    intro hnil
    by_contra hpos
    obtain ⟨n, hn⟩ : ∃ n, fileSize.toNat = n + 1 :=
      Nat.exists_eq_succ_of_ne_zero (by simp only [start] at hpos; omega)
    rw [hn, partsFrom, if_pos (by simp only [start] at hpos; omega)] at hnil
    cases hnil

/-- What asking for a block leaves unchanged. -/
structure SameBlocks (c c' : DownloadCommand) : Prop where
  fileSize : c'.fileSize = c.fileSize
  rawFileHash : c'.rawFileHash = c.rawFileHash
  layout : c'.layout = c.layout
  writtenRanges : c'.writtenRanges = c.writtenRanges
  inflightBlocks : c'.inflightBlocks = c.inflightBlocks

theorem SameBlocks.refl (c : DownloadCommand) : SameBlocks c c := ⟨rfl, rfl, rfl, rfl, rfl⟩

theorem SameBlocks.trans {c c' c'' : DownloadCommand} (h : SameBlocks c c')
    (h' : SameBlocks c' c'') : SameBlocks c c'' :=
  ⟨h'.1.trans h.1, h'.2.trans h.2, h'.3.trans h.3, h'.4.trans h.4, h'.5.trans h.5⟩

theorem SameBlocks.nextFreeOffset {c' : DownloadCommand} (h : SameBlocks c c') (lo limit : Int) :
    c'.nextFreeOffset lo limit = c.nextFreeOffset lo limit := by
  unfold DownloadCommand.nextFreeOffset
  rw [h.writtenRanges, h.inflightBlocks]

theorem Laid.congr {c' : DownloadCommand} (h : Laid c) (hl : c'.layout = c.layout)
    (hs : c'.fileSize = c.fileSize) : Laid c' := by
  refine ⟨?_, ?_, ?_⟩ <;> simp only [hl, hs]
  exacts [h.inside, h.apart, h.cover]

theorem layout_modify (ps : List PartInfo) (i : Nat) {f : PartInfo → PartInfo}
    (hf : ∀ p, (f p).offset = p.offset ∧ (f p).length = p.length) :
    (ps.modify i f).map (fun p => (p.offset, p.length)) = ps.map fun p => (p.offset, p.length) := by
  induction ps generalizing i with
  | nil => simp
  | cons p ps ih =>
    cases i with
    | zero => simp [hf]
    | succ i => simp [ih]

theorem sameBlocks_requestPart (c : DownloadCommand) (i now : Nat) :
    SameBlocks c (c.requestPart i now) :=
  ⟨rfl, rfl, layout_modify _ _ fun _ => ⟨rfl, rfl⟩, rfl, rfl⟩

/-! ## The part that is chosen -/

/-- Part `i` has a free byte. -/
def Wanted (c : DownloadCommand) (i : Nat) : Prop :=
  ∃ e, c.layout[i]? = some e ∧ c.nextFreeOffset e.1 (e.1 + e.2) < e.1 + e.2

theorem fillBuckets_wanted (wallclock : Nat) (src : PeerSource) (ps : List PartInfo) (k : Nat)
    (buckets : OrderedMap Nat (Nat × Option Nat)) (hps : ∀ j, ps[j]? = c.parts[k + j]?)
    (hb : ∀ kv ∈ buckets.entries, c.Wanted kv.2.1 ∧ ∀ j ∈ kv.2.2, c.Wanted j) :
    ∀ kv ∈ (c.fillBuckets wallclock src k ps buckets).entries,
      c.Wanted kv.2.1 ∧ ∀ j ∈ kv.2.2, c.Wanted j := by
  induction ps generalizing k buckets with
  | nil => exact hb
  | cons p ps ih =>
    refine ih (k + 1) _ (fun j => ?_) ?_
    · rw [Nat.add_right_comm, Nat.add_assoc, ← hps (j + 1), List.getElem?_cons_succ]
    · split
      next hw =>
        have hp : c.layout[k]? = some (p.offset, p.length) := by
          have := hps 0
          simp only [layout, List.getElem?_map]
          rw [← Nat.add_zero k, ← this]
          rfl
        have hk : c.Wanted k := by
          simp only [wants, Bool.and_eq_true, decide_eq_true_eq] at hw
          exact ⟨_, hp, hw.2⟩
        intro kv hkv
        unfold addToBucket at hkv
        split at hkv <;> rcases OrderedMap.mem_insert.mp hkv with rfl | ⟨hkv, -⟩
        · refine ⟨hk, fun j hj => ?_⟩
          dsimp only at hj
          split at hj <;> cases hj
          exact hk
        · exact hb kv hkv
        next first j hfind =>
          exact hb _ (OrderedMap.mem_of_find? hfind)
        · exact hb kv hkv
        next first hfind =>
          refine ⟨(hb _ (OrderedMap.mem_of_find? hfind)).1, fun j hj => ?_⟩
          dsimp only at hj
          split at hj <;> cases hj
          exact hk
        · exact hb kv hkv
      next => exact hb

/-- A chosen part has a free byte. -/
theorem findBestPartToDownload_wanted {sourceIndex wallclock i : Nat}
    (h : c.findBestPartToDownload sourceIndex wallclock = some i) : c.Wanted i := by
  unfold findBestPartToDownload at h
  split at h
  · cases h
  next src _ =>
    have hb := @fillBuckets_wanted c wallclock src c.parts 0 .empty (by simp) nofun
    dsimp only at h
    split at h
    next j hj =>
      cases h
      obtain ⟨kv, hkv, hstale⟩ := List.exists_of_findSome?_eq_some hj
      exact (hb kv hkv).2 _ hstale
    · obtain ⟨kv, hkv, rfl⟩ := Option.map_eq_some_iff.mp h
      exact (hb kv (List.mem_of_mem_head? hkv)).1

/-! ## One message -/

/-- The block that is asked for in a part: from its first free byte on. -/
def blockOf (c : DownloadCommand) (e : Int × Int) : BlockRequest :=
  ⟨c.nextFreeOffset e.1 (e.1 + e.2),
    min (c.nextFreeOffset e.1 (e.1 + e.2) + ED2K_BLOCK_SIZE) (e.1 + e.2)⟩

def blockAt (c : DownloadCommand) (i : Nat) : BlockRequest :=
  (c.layout[i]?.map c.blockOf).getD ⟨0, 0⟩

/-- The parts that `findBestPartToDownload` names one after the other for a message with so many
slots left; `pos` numbers the block that is picked. -/
def partsFor (t : Turn) : Nat → Nat → DownloadCommand → List Nat
  | 0, _, _ => []
  | slots + 1, pos, c =>
    match c.findBestPartToDownload c.currentSourceIndex t.wallclock with
    | none => []
    | some i => i :: partsFor t slots (pos + 1) (c.requestPart i (t.now pos))

theorem SameBlocks.blockAt {c' : DownloadCommand} (h : SameBlocks c c') (i : Nat) :
    c'.blockAt i = c.blockAt i := by
  have hof : c'.blockOf = c.blockOf := by
    funext e
    simp only [DownloadCommand.blockOf, h.nextFreeOffset]
  simp only [DownloadCommand.blockAt, hof, h.layout]

theorem SameBlocks.wanted {c' : DownloadCommand} (h : SameBlocks c c') {i : Nat}
    (hw : c'.Wanted i) : c.Wanted i := by
  obtain ⟨e, he, hlt⟩ := hw
  rw [h.nextFreeOffset] at hlt
  exact ⟨e, h.layout ▸ he, hlt⟩

theorem partsFor_wanted {slots pos i : Nat} (h : i ∈ partsFor t slots pos c) : c.Wanted i := by
  induction slots generalizing pos c with
  | zero => cases h
  | succ slots ih =>
    unfold partsFor at h
    split at h
    · cases h
    next j hj =>
      rcases List.mem_cons.mp h with rfl | h
      · exact findBestPartToDownload_wanted hj
      · exact (sameBlocks_requestPart c j _).wanted (ih h)

theorem fillBuckets_downloadOffset (wallclock : Nat) (src : PeerSource) (d : Int) (i : Nat)
    (ps : List PartInfo) (buckets : OrderedMap Nat (Nat × Option Nat)) :
    fillBuckets { c with downloadOffset := d } wallclock src i ps buckets =
      c.fillBuckets wallclock src i ps buckets := by
  induction ps generalizing i buckets with
  | nil => rfl
  | cons p ps ih => exact ih _ _

/-- The cursor that is only informational does not matter for the choice. -/
theorem partsFor_downloadOffset (slots pos : Nat) (c : DownloadCommand) (d : Int) :
    partsFor t slots pos { c with downloadOffset := d } = partsFor t slots pos c := by
  induction slots generalizing pos c with
  | zero => rfl
  | succ slots ih =>
    have hbest : findBestPartToDownload { c with downloadOffset := d } c.currentSourceIndex
        t.wallclock = c.findBestPartToDownload c.currentSourceIndex t.wallclock := by
      simp only [findBestPartToDownload, fillBuckets_downloadOffset]
    simp only [partsFor, hbest]
    split
    · rfl
    next i _ => exact congrArg (i :: ·) (ih (pos + 1) (c.requestPart i (t.now pos)))

theorem pickNextBlock_none (hl : c.Laid) {wallclock : Nat} (now : Nat)
    (h : c.findBestPartToDownload c.currentSourceIndex wallclock = none) :
    c.pickNextBlock wallclock now = (none, c) := by
  unfold pickNextBlock
  split
  · rfl
  split
  next hnil =>
    have hsize : c.fileSize ≤ 0 := hl.cover (by simpa [layout] using hnil)
    unfold takeBlock
    exact if_pos (hsize.trans (c.nextFreeOffset_spec 0 c.fileSize).le)
  · rw [h]

theorem pickNextBlock_some (hl : c.Laid) {wallclock i : Nat} (now : Nat)
    (h : c.findBestPartToDownload c.currentSourceIndex wallclock = some i) :
    c.pickNextBlock wallclock now =
      (some (c.blockAt i), { c.requestPart i now with downloadOffset := (c.blockAt i).stop }) := by
  obtain ⟨e, he, hlt⟩ := findBestPartToDownload_wanted h
  obtain ⟨h0, hin⟩ := hl.inside e (List.mem_of_getElem? he)
  have hge := (c.nextFreeOffset_spec e.1 (e.1 + e.2)).le
  have hat : c.blockAt i = c.blockOf e := by rw [blockAt, he]; rfl
  obtain ⟨part, hpart, rfl⟩ := Option.map_eq_some_iff.mp
    (show Option.map (fun p : PartInfo => (p.offset, p.length)) c.parts[i]? = some e by
      rwa [layout, List.getElem?_map] at he)
  unfold pickNextBlock
  rw [if_neg (by omega), if_neg (by rintro hnil; simp_all), h]
  dsimp only
  rw [hpart]
  dsimp only [takeBlock, PartInfo.limit]
  rw [(sameBlocks_requestPart c i now).nextFreeOffset, if_neg (not_le.mpr hlt), hat]
  rfl

theorem sameBlocks_pick (c : DownloadCommand) (i now : Nat) (d : Int) :
    SameBlocks c { c.requestPart i now with downloadOffset := d } :=
  (sameBlocks_requestPart c i now).trans ⟨rfl, rfl, rfl, rfl, rfl⟩

/-- The number of slots of the next message. -/
def slots (c : DownloadCommand) : Nat :=
  min BLOCKS_PER_MESSAGE (MAX_INFLIGHT_BLOCKS - c.inflightBlocks.length)

/-- The blocks of a message are those of the parts that are named for it. -/
theorem gatherBatch_spec (hl : c.Laid) (fuel : Nat) (batch : List BlockRequest)
    (hfuel : fuel + batch.length = BLOCKS_PER_MESSAGE) :
    (gatherBatch t fuel c batch).1 = batch ++
      (partsFor t (min fuel (MAX_INFLIGHT_BLOCKS - (c.inflightBlocks.length + batch.length)))
        (c.inflightBlocks.length + batch.length) c).map c.blockAt ∧
      SameBlocks c (gatherBatch t fuel c batch).2 := by
  induction fuel generalizing c batch with
  | zero => simp [gatherBatch, partsFor, SameBlocks.refl]
  | succ fuel ih =>
    unfold gatherBatch
    by_cases hroom : c.inflightBlocks.length + batch.length < MAX_INFLIGHT_BLOCKS
    · rw [if_pos ⟨by omega, hroom⟩]
      have hslots : min (fuel + 1) (MAX_INFLIGHT_BLOCKS - (c.inflightBlocks.length + batch.length)) =
          min fuel (MAX_INFLIGHT_BLOCKS - (c.inflightBlocks.length + (batch.length + 1))) + 1 := by
        omega
      rw [hslots, partsFor]
      cases hbest : c.findBestPartToDownload c.currentSourceIndex t.wallclock with
      | none =>
        rw [pickNextBlock_none hl _ hbest]
        exact ⟨by simp, .refl c⟩
      | some i =>
        rw [pickNextBlock_some hl _ hbest]
        dsimp only
        have hsame := sameBlocks_pick c i (t.now (c.inflightBlocks.length + batch.length))
          (c.blockAt i).stop
        obtain ⟨h1, h2⟩ := ih (hl.congr hsame.layout hsame.fileSize) (batch ++ [c.blockAt i])
          (by simp only [List.length_append, List.length_singleton]; omega)
        refine ⟨?_, hsame.trans h2⟩
        rw [h1, partsFor_downloadOffset]
        simp only [List.length_append, List.length_singleton, List.map_cons, List.append_assoc,
          List.singleton_append]
        congr 2
        exact List.map_congr_left fun j _ => hsame.blockAt j
    · rw [if_neg (fun h => hroom h.2)]
      have hslots : MAX_INFLIGHT_BLOCKS - (c.inflightBlocks.length + batch.length) = 0 := by omega
      simp [hslots, partsFor, SameBlocks.refl]

/-- From its first free byte on the range has room for a block: no taken byte comes before the end
of the block or of the range. -/
def HasRoom (c : DownloadCommand) (lo limit : Int) : Prop :=
  ∀ a, lo ≤ a → c.Free a → (∀ x, lo ≤ x → x < a → ¬c.Free x) →
    ∀ x, a ≤ x → x < a + ED2K_BLOCK_SIZE → x < limit → c.Free x

/-- The parts that are named for the next message are distinct, and each has room for its block. -/
def MessageWell (t : Turn) (c : DownloadCommand) : Prop :=
  (partsFor t c.slots c.inflightBlocks.length c).Nodup ∧
    ∀ i ∈ partsFor t c.slots c.inflightBlocks.length c, ∀ e, c.layout[i]? = some e →
      c.HasRoom e.1 (e.1 + e.2)

theorem blockAt_of_wanted (hl : c.Laid) {i : Nat} (hw : c.Wanted i) :
    ∃ e, c.layout[i]? = some e ∧ e.1 ≤ (c.blockAt i).start ∧
      (c.blockAt i).start < (c.blockAt i).stop ∧ (c.blockAt i).stop ≤ e.1 + e.2 ∧
      0 ≤ (c.blockAt i).start ∧ (c.blockAt i).stop ≤ c.fileSize ∧
      (c.HasRoom e.1 (e.1 + e.2) ↔ ∀ x ∈ c.blockAt i, c.Free x) := by
  obtain ⟨e, he, hlt⟩ := hw
  obtain ⟨h0, hin⟩ := hl.inside e (List.mem_of_getElem? he)
  have hat : c.blockAt i = c.blockOf e := by rw [blockAt, he]; rfl
  have hsize : 0 < ED2K_BLOCK_SIZE := by decide
  obtain ⟨hle, htaken, hfree⟩ := c.nextFreeOffset_spec e.1 (e.1 + e.2)
  rw [hat]
  dsimp only [blockOf]
  refine ⟨e, he, hle, lt_min (by omega) hlt, min_le_right .., h0.trans hle,
    (min_le_right ..).trans hin, fun h x hx => ?_, fun h a ha hfa hta x hx hx' hlim => ?_⟩
  · have hx2 := lt_min_iff.mp hx.2
    exact h _ hle (hfree hlt) htaken x hx.1 hx2.1 hx2.2
  · have heq : a = c.nextFreeOffset e.1 (e.1 + e.2) := by
      rcases lt_trichotomy a (c.nextFreeOffset e.1 (e.1 + e.2)) with h' | h' | h'
      · exact absurd hfa (htaken a ha h')
      · exact h'
      · exact absurd (hfree hlt) (hta _ hle h')
    subst heq
    exact h x ⟨hx, lt_min hx' hlim⟩

/-- Blocks of different parts are disjoint. -/
theorem disjoint_blockAt (hl : c.Laid) {i j : Nat} (hi : c.Wanted i) (hj : c.Wanted j)
    (hne : i ≠ j) : (c.blockAt i).Disjoint (c.blockAt j) := by
  obtain ⟨e, he, h1, -, h2, -⟩ := blockAt_of_wanted hl hi
  obtain ⟨e', he', h1', -, h2', -⟩ := blockAt_of_wanted hl hj
  obtain ⟨hi', rfl⟩ := List.getElem?_eq_some_iff.mp he
  obtain ⟨hj', rfl⟩ := List.getElem?_eq_some_iff.mp he'
  rcases Nat.lt_or_gt_of_ne hne with hlt | hlt
  · have := List.pairwise_iff_getElem.mp hl.apart i j hi' hj' hlt
    exact .inl (by omega)
  · have := List.pairwise_iff_getElem.mp hl.apart j i hj' hi' hlt
    exact .inr (by omega)

/-- Blocks that are added to those in flight keep the schedule when they are the blocks of distinct
parts with room, and only then. -/
theorem scheduled_append (hl : c.Laid) (hs : c.Scheduled) {is : List Nat}
    (hw : ∀ i ∈ is, c.Wanted i) :
    Scheduled { c with inflightBlocks := c.inflightBlocks ++ is.map c.blockAt } ↔
      is.Nodup ∧ ∀ i ∈ is, ∀ e, c.layout[i]? = some e → c.HasRoom e.1 (e.1 + e.2) := by
  constructor
  · rintro ⟨hd, -, hu⟩
    obtain ⟨-, hnew, hcross⟩ := List.pairwise_append.mp hd
    refine ⟨?_, fun i hi e he => ?_⟩
    · refine (List.pairwise_map.mp hnew).imp_of_mem fun {i j} hi _ hij heq => ?_
      obtain ⟨-, -, -, hpos, -⟩ := blockAt_of_wanted hl (hw i hi)
      exact Interval.not_disjoint_self hpos (heq ▸ hij)
    · obtain ⟨e', he', -, -, -, -, -, hroom⟩ := blockAt_of_wanted hl (hw i hi)
      obtain rfl : e' = e := Option.some.inj (he'.symm.trans he)
      have hmem : c.blockAt i ∈ is.map c.blockAt := List.mem_map_of_mem hi
      exact hroom.mpr fun x hx => ⟨hu _ (List.mem_append_right _ hmem) x hx,
        fun b hb => (hcross b hb _ hmem).symm.not_mem hx⟩
  · rintro ⟨hnd, hroom⟩
    have hfree : ∀ i ∈ is, ∀ x ∈ c.blockAt i, c.Free x := by
      intro i hi
      obtain ⟨e, he, -, -, -, -, -, h⟩ := blockAt_of_wanted hl (hw i hi)
      exact h.mp (hroom i hi e he)
    refine ⟨List.pairwise_append.mpr ⟨hs.disjoint, ?_, ?_⟩, ?_, ?_⟩
    · exact List.pairwise_map.mpr (List.Pairwise.imp_of_mem
        (fun {i j} hi hj hne => disjoint_blockAt hl (hw i hi) (hw j hj) hne) hnd)
    · intro b hb m hm
      obtain ⟨i, hi, rfl⟩ := List.mem_map.mp hm
      obtain ⟨-, -, -, hpos, -⟩ := blockAt_of_wanted hl (hw i hi)
      exact ((Interval.disjoint_iff hpos (hs.inside b hb).2.1).mpr
        fun x hx => (hfree i hi x hx).2 b hb).symm
    · intro b hb
      rcases List.mem_append.mp hb with hb | hb
      · exact hs.inside b hb
      · obtain ⟨i, hi, rfl⟩ := List.mem_map.mp hb
        obtain ⟨-, -, -, hpos, -, h0, hsize, -⟩ := blockAt_of_wanted hl (hw i hi)
        exact ⟨h0, hpos, hsize⟩
    · intro b hb x hx
      rcases List.mem_append.mp hb with hb | hb
      · exact hs.unwritten b hb x hx
      · obtain ⟨i, hi, rfl⟩ := List.mem_map.mp hb
        exact (hfree i hi x hx).1

/-! ## One call of `fillBlockPipeline` -/

theorem Scheduled.congr {c' : DownloadCommand} (h : c.Scheduled) (hf : c'.fileSize = c.fileSize)
    (hw : c'.writtenRanges = c.writtenRanges) (hi : c'.inflightBlocks = c.inflightBlocks) :
    c'.Scheduled := by
  refine ⟨?_, ?_, ?_⟩ <;> simp only [hf, hw, hi]
  exacts [h.disjoint, h.inside, h.unwritten]

/-- The first message of a call. -/
theorem gather_message (t : Turn) (hl : c.Laid) :
    (gatherBatch t BLOCKS_PER_MESSAGE c []).1 =
        (partsFor t c.slots c.inflightBlocks.length c).map c.blockAt ∧
      SameBlocks c (gatherBatch t BLOCKS_PER_MESSAGE c []).2 := by
  simpa [slots] using gatherBatch_spec (t := t) hl BLOCKS_PER_MESSAGE [] rfl

/-- Every message of the call is well. -/
def PicksWell (t : Turn) : Nat → DownloadCommand → Prop
  | 0, _ => True
  | fuel + 1, c =>
    c.inflightBlocks.length < MAX_INFLIGHT_BLOCKS → c.rawFileHash.length = 16 →
      MessageWell t c ∧
        let m := gatherBatch t BLOCKS_PER_MESSAGE c []
        m.1 ≠ [] → t.flushes m.2.inflightBlocks.length → PicksWell t fuel (m.2.sendBatch m.1)

/-- A call only adds blocks. -/
theorem fill_grows (t : Turn) (fuel : Nat) (hl : c.Laid) :
    (fillBlockPipeline t fuel c).2.Laid ∧
      (fillBlockPipeline t fuel c).2.fileSize = c.fileSize ∧
      (fillBlockPipeline t fuel c).2.writtenRanges = c.writtenRanges ∧
      c.inflightBlocks <+: (fillBlockPipeline t fuel c).2.inflightBlocks := by
  induction fuel generalizing c with
  | zero => exact ⟨hl, rfl, rfl, List.prefix_rfl⟩
  | succ fuel ih =>
    unfold fillBlockPipeline
    split
    · obtain ⟨-, hsame⟩ := gather_message t hl
      generalize gatherBatch t BLOCKS_PER_MESSAGE c [] = m at hsame
      obtain ⟨batch, c'⟩ := m
      have hl' : c'.Laid := hl.congr hsame.layout hsame.fileSize
      cases batch with
      | nil => exact ⟨hl', hsame.fileSize, hsame.writtenRanges, hsame.inflightBlocks ▸ List.prefix_rfl⟩
      | cons b bs =>
        have hsend : c.inflightBlocks <+: (c'.sendBatch (b :: bs)).inflightBlocks :=
          hsame.inflightBlocks ▸ List.prefix_append ..
        dsimp only
        split
        · exact ⟨hl'.congr rfl rfl, hsame.fileSize, hsame.writtenRanges,
            hsame.inflightBlocks ▸ List.prefix_rfl⟩
        split
        · obtain ⟨h1, h2, h3, h4⟩ := ih (c := c'.sendBatch (b :: bs)) (hl'.congr rfl rfl)
          exact ⟨h1, h2.trans hsame.fileSize, h3.trans hsame.writtenRanges, hsend.trans h4⟩
        · exact ⟨hl'.congr rfl rfl, hsame.fileSize, hsame.writtenRanges, hsend⟩
    · exact ⟨hl, rfl, rfl, List.prefix_rfl⟩

theorem Scheduled.of_fill {fuel : Nat} (hl : c.Laid)
    (h : (fillBlockPipeline t fuel c).2.Scheduled) : c.Scheduled := by
  obtain ⟨-, hf, hw, hi⟩ := fill_grows t fuel hl
  refine ⟨h.disjoint.sublist hi.sublist, fun b hb => ?_, fun b hb => ?_⟩
  · exact hf ▸ h.inside b (hi.subset hb)
  · exact hw ▸ h.unwritten b (hi.subset hb)

/-- A call keeps the schedule when its messages are well, and only then. -/
theorem scheduled_fill_iff (t : Turn) (fuel : Nat) (hl : c.Laid) (hs : c.Scheduled) :
    (fillBlockPipeline t fuel c).2.Scheduled ↔ PicksWell t fuel c := by
  induction fuel generalizing c with
  | zero => exact ⟨fun _ => trivial, fun _ => hs⟩
  | succ fuel ih =>
    unfold fillBlockPipeline PicksWell
    split
    next hroom =>
      obtain ⟨hbatch, hsame⟩ := gather_message t hl
      have hsent : ∀ c' batch, SameBlocks c c' →
          batch = (partsFor t c.slots c.inflightBlocks.length c).map c.blockAt →
          ((c'.sendBatch batch).Scheduled ↔ MessageWell t c) := by
        rintro c' batch hc' rfl
        refine Iff.trans ⟨fun h => ?_, fun h => ?_⟩
          (scheduled_append hl hs (fun i hi => partsFor_wanted hi))
        · exact h.congr hc'.fileSize.symm hc'.writtenRanges.symm
            (congrArg (· ++ _) hc'.inflightBlocks.symm)
        · exact h.congr hc'.fileSize hc'.writtenRanges (congrArg (· ++ _) hc'.inflightBlocks)
      generalize gatherBatch t BLOCKS_PER_MESSAGE c [] = m at hbatch hsame ⊢
      obtain ⟨batch, c'⟩ := m
      dsimp only at hbatch hsame
      have hs' : c'.Scheduled := hs.congr hsame.fileSize hsame.writtenRanges hsame.inflightBlocks
      have hl' : c'.Laid := hl.congr hsame.layout hsame.fileSize
      cases batch with
      | nil =>
        have hnil : partsFor t c.slots c.inflightBlocks.length c = [] := by simpa using hbatch.symm
        refine ⟨fun _ _ _ => ⟨?_, fun h => absurd rfl h⟩, fun _ => hs'⟩
        unfold MessageWell
        rw [hnil]
        exact ⟨.nil, nofun⟩
      | cons b bs =>
        have hsent' := hsent c' _ hsame hbatch
        dsimp only
        split
        next hhash => exact ⟨fun _ _ h => absurd (hsame.rawFileHash ▸ h) hhash,
            fun _ => hs'.congr rfl rfl rfl⟩
        next hhash =>
          have hhash' : c.rawFileHash.length = 16 := hsame.rawFileHash ▸ not_not.mp hhash
          split
          next hflush =>
            have hnext : (c'.sendBatch (b :: bs)).Laid := hl'.congr rfl rfl
            constructor
            · intro h _ _
              have hmsg := h.of_fill hnext
              exact ⟨hsent'.mp hmsg, fun _ _ => (ih hnext hmsg).mp h⟩
            · intro h
              obtain ⟨hmsg, hrest⟩ := h hroom hhash'
              exact (ih hnext (hsent'.mpr hmsg)).mpr (hrest nofun hflush)
          next hflush =>
            exact ⟨fun h _ _ => ⟨hsent'.mp h, fun _ hf => absurd hf hflush⟩,
              fun h => hsent'.mpr (h hroom hhash').1⟩
    next hfull => exact ⟨fun _ h => absurd h hfull, fun _ => hs⟩

end FluxCore.Ed2k.DownloadCommand
