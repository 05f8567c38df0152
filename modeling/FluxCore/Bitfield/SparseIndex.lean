import FluxCore.Bitfield.Answers

/-!
# The selection of a sparse block

`getSparseMissingUnusedIndex` looks for the largest range of blocks that are to be had, and takes
half of a range that follows a block in use. It scans from a hint to the end and then from the
front to the hint, so that a range which the hint lies in is seen cut in the first pass: a cut range
may be larger than its half, hide a range behind it that would be selected, and be too small itself.
-/

namespace FluxCore.Bitfield

namespace Sparse

structure Range where
  startIndex : Nat
  endIndex : Nat
  deriving DecidableEq, Repr

namespace Range

def getSize (r : Range) : Nat := r.endIndex - r.startIndex

def getMidIndex (r : Range) : Nat := (r.endIndex - r.startIndex) / 2 + r.startIndex

end Range

/-- `while (index < blocks && p(index)) ++index`, with `blocks - index` as fuel. -/
def advance (p : Nat → Bool) : Nat → Nat → Nat
  | 0, index => index
  | n + 1, index => if p index then advance p n (index + 1) else index

section

variable (bitfield useBitfield : Nat → Bool) (blocks blockLength : Nat) (minSplitSize : Int)

def getStartIndex (index : Nat) : Nat :=
  let index := advance bitfield (blocks - index) index
  if blocks ≤ index then blocks else index

def getEndIndex (index : Nat) : Nat := advance (fun i => !bitfield i) (blocks - index) index

/-- The range from `a` to below `e`, or its second half if a block in use comes before it. -/
def trim (a e : Nat) : Range :=
  let r : Range := ⟨a, e⟩
  if 0 < a && useBitfield (a - 1) then { r with startIndex := r.getMidIndex } else r

/-- A larger range takes the place of the largest one so far; so does one of the same size if it
follows a finished block and the other does not. -/
def choose (maxRange currentRange : Range) : Range :=
  if maxRange.getSize < currentRange.getSize ||
      (maxRange.getSize = currentRange.getSize && 0 < maxRange.startIndex &&
        0 < currentRange.startIndex &&
        (!bitfield (maxRange.startIndex - 1) || useBitfield (maxRange.startIndex - 1)) &&
        bitfield (currentRange.startIndex - 1) && !useBitfield (currentRange.startIndex - 1))
  then currentRange else maxRange

/-- The loop of a pass. -/
def scan (limit : Nat) : Nat → Nat → Range → Range
  | 0, _, maxRange => maxRange
  | fuel + 1, nextIndex, maxRange =>
    if nextIndex < limit then
      let start := getStartIndex bitfield blocks nextIndex
      if start = blocks then maxRange
      else
        let stop := getEndIndex bitfield blocks start
        scan limit fuel stop (choose bitfield useBitfield maxRange (trim useBitfield start stop))
    else maxRange

/-- What a pass returns for the largest range. -/
def taken (maxRange : Range) : Option Nat :=
  if maxRange.getSize = 0 then none
  else if maxRange.startIndex = 0 then some 0
  else if (!useBitfield (maxRange.startIndex - 1) && bitfield (maxRange.startIndex - 1)) ||
      minSplitSize ≤ (maxRange.endIndex - maxRange.startIndex : Nat) * blockLength then
    some maxRange.startIndex
  else none

/-- A pass from `start` up to `limit`; every turn of its loop goes past a block. -/
def pass (start limit : Nat) : Option Nat :=
  taken bitfield useBitfield blockLength minSplitSize
    (scan bitfield useBitfield blocks limit blocks start ⟨0, 0⟩)

/-- `getSparseMissingUnusedIndex` of the anonymous namespace. -/
def select (startIndex : Nat) : Option Nat :=
  match pass bitfield useBitfield blocks blockLength minSplitSize startIndex blocks with
  | some index => some index
  | none => pass bitfield useBitfield blocks blockLength minSplitSize 0 startIndex

end

variable {bitfield useBitfield : Nat → Bool} {blocks blockLength : Nat} {minSplitSize : Int}
  {a e a' e' i limit start fuel n : Nat} {r : Range}

/-! ## Runs of free blocks -/

theorem le_advance (p : Nat → Bool) (n i : Nat) : i ≤ advance p n i ∧ advance p n i ≤ i + n := by
  induction n generalizing i with
  | zero => exact ⟨Nat.le_refl _, Nat.le_refl _⟩
  | succ n ih =>
    rw [advance]
    split
    · obtain ⟨h1, h2⟩ := ih (i := i + 1)
      exact ⟨by omega, by omega⟩
    · exact ⟨Nat.le_refl _, by omega⟩

theorem advance_holds (p : Nat → Bool) (n i : Nat) {k : Nat} (hik : i ≤ k)
    (hk : k < advance p n i) : p k = true := by
  induction n generalizing i with
  | zero =>
    rw [advance] at hk
    omega
  | succ n ih =>
    rw [advance] at hk
    split at hk
    next hp =>
      rcases Nat.eq_or_lt_of_le hik with rfl | hlt
      · exact hp
      · exact ih _ hlt hk
    next => omega

theorem advance_stops (p : Nat → Bool) (n i : Nat) (h : advance p n i < i + n) :
    p (advance p n i) = false := by
  induction n generalizing i with
  | zero =>
    rw [advance] at h
    omega
  | succ n ih =>
    rw [advance] at h ⊢
    split at h
    next hp =>
      rw [if_pos hp]
      exact ih _ (by omega)
    next hp =>
      rw [if_neg hp]
      exact Bool.eq_false_iff.mpr hp

/-- The blocks from `a` to below `e` are free, and there are no more of them on either side, but
that the scan begins at `start`. -/
structure RunFrom (bitfield : Nat → Bool) (blocks start a e : Nat) : Prop where
  le : start ≤ a
  lt : a < e
  le_blocks : e ≤ blocks
  free : ∀ k, a ≤ k → k < e → bitfield k = false
  starts : a = start ∨ bitfield (a - 1) = true
  stops : e = blocks ∨ bitfield e = true

/-- No run of free blocks goes past the end of another. -/
theorem RunFrom.end_le {start' : Nat} (h : RunFrom bitfield blocks start a e)
    (h' : RunFrom bitfield blocks start' a' e') (hle : a ≤ e') : e' ≤ a ∨ e ≤ e' := by
  by_contra hno
  rw [not_or, not_le, not_le] at hno
  have hlt : e' < blocks := hno.2.trans_le h.le_blocks
  rcases h'.stops with hs | hs
  · omega
  · rw [h.free _ hle hno.2] at hs
    cases hs

theorem RunFrom.end_unique {start' : Nat} (h : RunFrom bitfield blocks start a e)
    (h' : RunFrom bitfield blocks start' a e') : e = e' := by
  have h1 := h.end_le h' h'.lt.le
  have h2 := h'.end_le h h.lt.le
  have := h.lt
  have := h'.lt
  omega

/-- The scan finds the next run. -/
theorem runFrom_next (hne : getStartIndex bitfield blocks start ≠ blocks) :
    RunFrom bitfield blocks start (getStartIndex bitfield blocks start)
      (getEndIndex bitfield blocks (getStartIndex bitfield blocks start)) := by
  obtain ⟨h1, h2⟩ := le_advance bitfield (blocks - start) start
  have hlt : advance bitfield (blocks - start) start < blocks := by
    rw [getStartIndex] at hne
    split at hne
    next => exact absurd rfl hne
    next hlt => exact Nat.lt_of_not_le hlt
  have hstart : getStartIndex bitfield blocks start = advance bitfield (blocks - start) start := by
    rw [getStartIndex, if_neg (Nat.not_le_of_lt hlt)]
  rw [hstart]
  have hstop := advance_stops bitfield (blocks - start) start (by omega)
  have hholds := fun k => advance_holds bitfield (blocks - start) start (k := k)
  generalize advance bitfield (blocks - start) start = s at *
  obtain ⟨h3, h4⟩ := le_advance (fun i => !bitfield i) (blocks - s) s
  have hends := advance_stops (fun i => !bitfield i) (blocks - s) s
  have hfree := fun k => advance_holds (fun i => !bitfield i) (blocks - s) s (k := k)
  rw [getEndIndex]
  have hpos : s < advance (fun i => !bitfield i) (blocks - s) s := by
    obtain ⟨n, hn⟩ : ∃ n, blocks - s = n + 1 := ⟨blocks - s - 1, by omega⟩
    have := (le_advance (fun i => !bitfield i) n (s + 1)).1
    rw [hn, advance, hstop]
    exact this
  generalize advance (fun i => !bitfield i) (blocks - s) s = t at *
  refine ⟨h1, hpos, by omega, fun k hk hkt => by simpa using hfree k hk hkt, ?_, ?_⟩
  · rcases Nat.eq_or_lt_of_le h1 with rfl | hlt
    · exact .inl rfl
    · exact .inr (hholds _ (by omega) (by omega))
  · rcases Nat.eq_or_lt_of_le h4 with heq | hlt
    · exact .inl (by omega)
    · exact .inr (by simpa using hends hlt)

/-- What lies before the next run is taken. -/
theorem getStartIndex_le (blocks : Nat) {k : Nat} (hk : start ≤ k) (hfree : bitfield k = false) :
    getStartIndex bitfield blocks start ≤ k ∨ blocks ≤ k := by
  rw [getStartIndex]
  by_contra hno
  rw [not_or, not_le, not_le] at hno
  have hlt : k < advance bitfield (blocks - start) start := by
    split at hno
    next h => omega
    next => exact hno.1
  have := advance_holds bitfield (blocks - start) start hk hlt
  rw [hfree] at this
  cases this

/-! ## The ranges of a pass -/

@[simp] theorem trim_endIndex : (trim useBitfield a e).endIndex = e := by
  rw [trim]
  split <;> rfl

theorem trim_startIndex (useBitfield : Nat → Bool) (h : a < e) :
    a ≤ (trim useBitfield a e).startIndex ∧ (trim useBitfield a e).startIndex < e := by
  rw [trim]
  split
  · change a ≤ (e - a) / 2 + a ∧ (e - a) / 2 + a < e
    omega
  · exact ⟨Nat.le_refl _, h⟩

theorem trim_getSize_pos (h : a < e) : 0 < (trim useBitfield a e).getSize := by
  have := (trim_startIndex useBitfield h).2
  rw [Range.getSize, trim_endIndex]
  omega

/-- The ranges that a pass compares, in order. -/
def candidates (bitfield useBitfield : Nat → Bool) (blocks limit : Nat) : Nat → Nat → List Range
  | 0, _ => []
  | fuel + 1, nextIndex =>
    if nextIndex < limit then
      let start := getStartIndex bitfield blocks nextIndex
      if start = blocks then []
      else
        let stop := getEndIndex bitfield blocks start
        trim useBitfield start stop :: candidates bitfield useBitfield blocks limit fuel stop
    else []

theorem scan_eq (fuel nextIndex : Nat) (maxRange : Range) :
    scan bitfield useBitfield blocks limit fuel nextIndex maxRange =
      (candidates bitfield useBitfield blocks limit fuel nextIndex).foldl
        (choose bitfield useBitfield) maxRange := by
  induction fuel generalizing nextIndex maxRange with
  | zero => rfl
  | succ fuel ih =>
    rw [scan, candidates]
    split
    · dsimp only
      split
      · rfl
      · exact ih ..
    · rfl

/-- A range of a pass is that of a run; if the block before the limit is free, the run begins before
the limit. -/
theorem mem_candidates (h : r ∈ candidates bitfield useBitfield blocks limit fuel start) :
    ∃ a e, RunFrom bitfield blocks start a e ∧ r = trim useBitfield a e ∧
      (limit ≤ blocks → bitfield (limit - 1) = false → a < limit) := by
  induction fuel generalizing start with
  | zero => cases h
  | succ fuel ih =>
    rw [candidates] at h
    split at h
    next hlt =>
      dsimp only at h
      split at h
      next => cases h
      next hne =>
        have hrun := runFrom_next hne
        rcases List.mem_cons.mp h with rfl | h
        · refine ⟨_, _, hrun, rfl, fun hle hfree => ?_⟩
          rcases getStartIndex_le blocks (Nat.le_sub_one_of_lt hlt) hfree with hs | hs
          · omega
          · omega
        · obtain ⟨a, e, hr, rfl, hlim⟩ := ih h
          refine ⟨a, e, ?_, rfl, hlim⟩
          have := hrun.le
          have := hrun.lt
          have := hr.le
          refine ⟨by omega, hr.lt, hr.le_blocks, hr.free, .inr ?_, hr.stops⟩
          rcases hr.starts with heq | hs
          · rcases hrun.stops with hb | hb
            · have := hr.lt
              have := hr.le_blocks
              omega
            · rw [← heq, hr.free a (Nat.le_refl _) hr.lt] at hb
              cases hb
          · exact hs
    next => cases h

/-- Every run that begins before the limit is in the pass. -/
theorem candidates_of_run (h : RunFrom bitfield blocks start a e) (ha : a < limit)
    (hfuel : blocks - start ≤ fuel) :
    trim useBitfield a e ∈ candidates bitfield useBitfield blocks limit fuel start := by
  induction fuel generalizing start with
  | zero =>
    have := h.le
    have := h.lt
    have := h.le_blocks
    omega
  | succ fuel ih =>
    have hle := h.le
    have hlt := h.lt
    have hblocks := h.le_blocks
    have hfirst := h.free a (Nat.le_refl _) hlt
    have hne : getStartIndex bitfield blocks start ≠ blocks := by
      rcases getStartIndex_le blocks hle hfirst with hs | hs
      · omega
      · omega
    have hrun := runFrom_next hne
    have hstart : getStartIndex bitfield blocks start ≤ a :=
      (getStartIndex_le blocks hle hfirst).resolve_right (by omega)
    rw [candidates, if_pos (by omega)]
    dsimp only
    rw [if_neg hne]
    generalize getStartIndex bitfield blocks start = s at *
    rcases Nat.eq_or_lt_of_le hstart with rfl | hsa
    · rw [h.end_unique hrun]
      exact List.mem_cons_self ..
    · refine List.mem_cons_of_mem _ (ih ?_ ?_)
      · have hprev : bitfield (a - 1) = true := h.starts.resolve_left (by have := hrun.le; omega)
        have hend : getEndIndex bitfield blocks s ≤ a := by
          by_contra hno
          rw [hrun.free (a - 1) (by omega) (by omega)] at hprev
          cases hprev
        exact ⟨hend, hlt, hblocks, h.free, .inr hprev, h.stops⟩
      · have := hrun.le
        have := hrun.lt
        omega

/-- Only the first range can begin in front. -/
theorem candidates_tail {rs : List Range}
    (h : candidates bitfield useBitfield blocks limit fuel start = r :: rs) :
    0 < r.getSize ∧ ∀ r' ∈ rs, 0 < r'.startIndex := by
  cases fuel with
  | zero => cases h
  | succ fuel =>
    rw [candidates] at h
    split at h
    next =>
      dsimp only at h
      split at h
      next => cases h
      next hne =>
        have hrun := runFrom_next hne
        obtain ⟨rfl, rfl⟩ := List.cons.inj h
        refine ⟨trim_getSize_pos hrun.lt, fun r' hr' => ?_⟩
        obtain ⟨a, e, hr, rfl, -⟩ := mem_candidates hr'
        have := (trim_startIndex useBitfield hr.lt).1
        have := hr.le
        have := hrun.lt
        omega
    next => cases h

/-! ## The largest range -/

/-- The range begins in front or behind a finished block. -/
def AtEdge (bitfield useBitfield : Nat → Bool) (r : Range) : Prop :=
  r.startIndex = 0 ∨
    bitfield (r.startIndex - 1) = true ∧ useBitfield (r.startIndex - 1) = false

/-- The range is large enough to be split off. -/
def Large (blockLength : Nat) (minSplitSize : Int) (r : Range) : Prop :=
  minSplitSize ≤ r.getSize * blockLength

/-- The range is one that a pass may return. -/
def Eligible (bitfield useBitfield : Nat → Bool) (blockLength : Nat) (minSplitSize : Int)
    (r : Range) : Prop :=
  AtEdge bitfield useBitfield r ∨ Large blockLength minSplitSize r

/-- `best` is what the fold keeps of the ranges: one of the largest, and if any of these begins at
an edge, it does. -/
structure Best (bitfield useBitfield : Nat → Bool) (rs : List Range) (best : Range) : Prop where
  mem : best ∈ rs
  largest : ∀ r ∈ rs, r.getSize ≤ best.getSize
  atEdge : ∀ r ∈ rs, r.getSize = best.getSize → AtEdge bitfield useBitfield r →
    AtEdge bitfield useBitfield best

theorem Best.choose {rs : List Range} {best : Range} (h : Best bitfield useBitfield rs best)
    (hpos : 0 < r.startIndex) :
    Best bitfield useBitfield (rs ++ [r]) (choose bitfield useBitfield best r) := by
  rw [Sparse.choose]
  split
  next hc =>
    rw [Bool.or_eq_true, decide_eq_true_iff] at hc
    simp only [Bool.and_eq_true, decide_eq_true_iff, Bool.not_eq_true'] at hc
    have hle : best.getSize ≤ r.getSize := by omega
    refine ⟨by simp, fun r' hr' => ?_, fun r' hr' heq hedge => ?_⟩
    · rcases List.mem_append.mp hr' with hr' | hr'
      · exact (h.largest r' hr').trans hle
      · rw [List.mem_singleton.mp hr']
    · rcases hc with hlt | ⟨⟨⟨⟨⟨hsize, -⟩, -⟩, -⟩, h1⟩, h2⟩
      · rcases List.mem_append.mp hr' with hr' | hr'
        · have := h.largest r' hr'
          omega
        · rwa [List.mem_singleton.mp hr'] at hedge
      · exact .inr ⟨h1, h2⟩
  next hc =>
    simp only [Bool.or_eq_true, Bool.and_eq_true, decide_eq_true_iff, Bool.not_eq_true', not_or,
      not_and, not_lt] at hc
    obtain ⟨hle, hno⟩ := hc
    refine ⟨List.mem_append_left _ h.mem, fun r' hr' => ?_, fun r' hr' heq hedge => ?_⟩
    · rcases List.mem_append.mp hr' with hr' | hr'
      · exact h.largest r' hr'
      · rwa [List.mem_singleton.mp hr']
    · rcases List.mem_append.mp hr' with hr' | hr'
      · exact h.atEdge r' hr' heq hedge
      · obtain rfl := List.mem_singleton.mp hr'
        rcases hedge with h0 | ⟨h1, h2⟩
        · omega
        · by_contra hnot
          rw [AtEdge, not_or, not_and_or] at hnot
          refine absurd h2 (hno ⟨⟨⟨⟨heq.symm, Nat.pos_of_ne_zero hnot.1⟩, hpos⟩, ?_⟩, h1⟩)
          rcases hnot.2 with hb | hu
          · exact .inl (Bool.eq_false_iff.mpr hb)
          · exact .inr (by simpa using hu)

theorem Best.foldl {rs : List Range} {best : Range} (h : Best bitfield useBitfield rs best)
    (rs' : List Range) (hpos : ∀ r ∈ rs', 0 < r.startIndex) :
    Best bitfield useBitfield (rs ++ rs') (rs'.foldl (Sparse.choose bitfield useBitfield) best) := by
  induction rs' generalizing rs best with
  | nil => simpa using h
  | cons r rs' ih =>
    have hnext := ih (h.choose (hpos r (List.mem_cons_self ..))) fun r' hr' => hpos r' (.tail _ hr')
    rwa [List.append_assoc] at hnext

/-- What the scan of a pass keeps. -/
theorem best_scan {rs : List Range} (hne : rs ≠ [])
    (h : candidates bitfield useBitfield blocks limit fuel start = rs) :
    Best bitfield useBitfield rs
      (scan bitfield useBitfield blocks limit fuel start ⟨0, 0⟩) := by
  rw [scan_eq, h]
  cases rs with
  | nil => exact absurd rfl hne
  | cons r rs =>
    obtain ⟨hsize, hpos⟩ := candidates_tail h
    have hfirst : choose bitfield useBitfield ⟨0, 0⟩ r = r := by
      rw [Sparse.choose, if_pos]
      rw [Bool.or_eq_true, decide_eq_true_iff]
      exact .inl hsize
    rw [List.foldl_cons, hfirst]
    have hone : Best bitfield useBitfield [r] r :=
      ⟨List.mem_singleton_self r, fun r' hr' => by rw [List.mem_singleton.mp hr'],
        fun r' hr' _ hedge => List.mem_singleton.mp hr' ▸ hedge⟩
    exact hone.foldl rs hpos

/-- One of the largest ranges of a set is eligible. -/
def Yields (bitfield useBitfield : Nat → Bool) (blockLength : Nat) (minSplitSize : Int)
    (S : Range → Prop) : Prop :=
  ∃ r, S r ∧ (∀ r', S r' → r'.getSize ≤ r.getSize) ∧
    Eligible bitfield useBitfield blockLength minSplitSize r

theorem taken_eq (bitfield useBitfield : Nat → Bool) (blockLength : Nat) (minSplitSize : Int)
    (hsize : 0 < r.getSize) :
    (Eligible bitfield useBitfield blockLength minSplitSize r →
      taken bitfield useBitfield blockLength minSplitSize r = some r.startIndex) ∧
    (¬Eligible bitfield useBitfield blockLength minSplitSize r →
      taken bitfield useBitfield blockLength minSplitSize r = none) := by
  rw [taken, if_neg hsize.ne', Eligible, AtEdge, Large]
  by_cases h0 : r.startIndex = 0
  · rw [if_pos h0, h0]
    exact ⟨fun _ => rfl, fun h => absurd (.inl (.inl rfl)) h⟩
  · rw [if_neg h0]
    simp only [Bool.or_eq_true, Bool.and_eq_true, Bool.not_eq_true', decide_eq_true_iff, h0,
      false_or, Range.getSize]
    constructor
    · intro h
      rw [if_pos (h.imp_left And.symm)]
    · intro h
      rw [if_neg fun h' => h (h'.imp_left And.symm)]

/-- A pass returns the beginning of one of its ranges, if one of its largest is eligible. -/
theorem pass_cases (bitfield useBitfield : Nat → Bool) (blocks blockLength : Nat)
    (minSplitSize : Int) (start limit : Nat) :
    (∃ r ∈ candidates bitfield useBitfield blocks limit blocks start,
      pass bitfield useBitfield blocks blockLength minSplitSize start limit = some r.startIndex ∧
      Yields bitfield useBitfield blockLength minSplitSize
        (· ∈ candidates bitfield useBitfield blocks limit blocks start)) ∨
    (pass bitfield useBitfield blocks blockLength minSplitSize start limit = none ∧
      ¬Yields bitfield useBitfield blockLength minSplitSize
        (· ∈ candidates bitfield useBitfield blocks limit blocks start)) := by
  rw [pass]
  cases hrs : candidates bitfield useBitfield blocks limit blocks start with
  | nil =>
    refine .inr ⟨?_, fun ⟨r, hr, _⟩ => absurd hr List.not_mem_nil⟩
    rw [scan_eq, hrs]
    rfl
  | cons r rs =>
    have hbest := best_scan (List.cons_ne_nil _ _) hrs
    generalize scan bitfield useBitfield blocks limit blocks start ⟨0, 0⟩ = best at hbest ⊢
    have hsize : 0 < best.getSize :=
      (candidates_tail hrs).1.trans_le (hbest.largest r (List.mem_cons_self ..))
    obtain ⟨hyes, hno⟩ := taken_eq bitfield useBitfield blockLength minSplitSize hsize
    by_cases helig : Eligible bitfield useBitfield blockLength minSplitSize best
    · exact .inl ⟨best, hbest.mem, hyes helig, best, hbest.mem, hbest.largest, helig⟩
    · refine .inr ⟨hno helig, fun ⟨r', hr', hlargest, he⟩ => helig ?_⟩
      have heq : r'.getSize = best.getSize :=
        Nat.le_antisymm (hbest.largest r' hr') (hlargest best hbest.mem)
      rcases he with he | he
      · exact .inl (hbest.atEdge r' hr' heq he)
      · rw [Large, heq] at he
        exact .inr he

/-! ## The hint -/

/-- The ranges of all runs, as a scan from the front sees them. -/
def Candidate (bitfield useBitfield : Nat → Bool) (blocks : Nat) (r : Range) : Prop :=
  ∃ a e, RunFrom bitfield blocks 0 a e ∧ r = trim useBitfield a e

/-- The hint hides what would be selected: it lies in a run `[a, e)`, and what it leaves of it is
larger than all ranges, yet too small to be split off; one of the largest ranges is eligible, and
none of the largest up to the end of the run. -/
def Hides (bitfield useBitfield : Nat → Bool) (blocks blockLength : Nat) (minSplitSize : Int)
    (hint : Nat) : Prop :=
  ∃ a e, RunFrom bitfield blocks 0 a e ∧ a < hint ∧ hint < e ∧
    (∀ r, Candidate bitfield useBitfield blocks r → r.getSize < e - hint) ∧
    ¬Large blockLength minSplitSize ⟨hint, e⟩ ∧
    Yields bitfield useBitfield blockLength minSplitSize (Candidate bitfield useBitfield blocks) ∧
    ¬Yields bitfield useBitfield blockLength minSplitSize fun r =>
      Candidate bitfield useBitfield blocks r ∧ r.endIndex ≤ e

variable {hint : Nat}

theorem Yields.congr {S S' : Range → Prop} (h : ∀ r, S r ↔ S' r) :
    Yields bitfield useBitfield blockLength minSplitSize S ↔
      Yields bitfield useBitfield blockLength minSplitSize S' := by
  obtain rfl : S = S' := funext fun r => propext (h r)
  rfl

/-- The scan from the front sees all ranges. -/
theorem mem_candidates_front_iff :
    r ∈ candidates bitfield useBitfield blocks blocks blocks 0 ↔
      Candidate bitfield useBitfield blocks r := by
  constructor
  · intro h
    obtain ⟨a, e, hr, heq, -⟩ := mem_candidates h
    exact ⟨a, e, hr, heq⟩
  · rintro ⟨a, e, hr, rfl⟩
    exact candidates_of_run hr (hr.lt.trans_le hr.le_blocks) (Nat.sub_le ..)

theorem candidate_of_mem (h : r ∈ candidates bitfield useBitfield blocks limit blocks 0) :
    Candidate bitfield useBitfield blocks r := by
  obtain ⟨a, e, hr, heq, -⟩ := mem_candidates h
  exact ⟨a, e, hr, heq⟩

/-- A run that the pass from the hint sees is a run of the whole, or is cut by the hint. -/
theorem RunFrom.whole_or_cut (h : RunFrom bitfield blocks hint a e) :
    RunFrom bitfield blocks 0 a e ∨ a = hint ∧ 0 < hint ∧ bitfield (hint - 1) = false := by
  have hle := h.le
  rcases h.starts with rfl | hs
  · rcases Nat.eq_zero_or_pos a with rfl | hpos
    · exact .inl h
    · cases hb : bitfield (a - 1) with
      | false => exact .inr ⟨rfl, hpos, rfl⟩
      | true => exact .inl ⟨Nat.zero_le _, h.lt, h.le_blocks, h.free, .inr hb, h.stops⟩
  · exact .inl ⟨Nat.zero_le _, h.lt, h.le_blocks, h.free, .inr hs, h.stops⟩

/-- A free block lies in a run. -/
theorem exists_run (hstop : RunFrom bitfield blocks hint hint e) (hpos : 0 < hint)
    (hprev : bitfield (hint - 1) = false) :
    ∃ a, a < hint ∧ RunFrom bitfield blocks 0 a e := by
  have hmain : ∀ n < hint, (∀ k, n ≤ k → k < e → bitfield k = false) →
      ∃ a, a < hint ∧ RunFrom bitfield blocks 0 a e := by
    intro n
    induction n with
    | zero =>
      intro hn hfree
      exact ⟨0, hpos, Nat.le_refl _, hpos.trans hstop.lt, hstop.le_blocks, hfree, .inl rfl,
        hstop.stops⟩
    | succ n ih =>
      intro hn hfree
      cases hb : bitfield n with
      | true =>
        exact ⟨n + 1, hn, Nat.zero_le _, hn.trans hstop.lt, hstop.le_blocks, hfree, .inr hb,
          hstop.stops⟩
      | false =>
        refine ih (by omega) fun k hk hke => ?_
        rcases Nat.eq_or_lt_of_le hk with rfl | hlt
        · exact hb
        · exact hfree k hlt hke
  refine hmain (hint - 1) (by omega) fun k hk hke => ?_
  rcases Nat.eq_or_lt_of_le hk with rfl | hlt
  · exact hprev
  · exact hstop.free k (by omega) hke

/-- What the two passes see of a run that the hint lies in, and of the others. -/
theorem straddled (huse : ∀ i, useBitfield i = true → bitfield i = true)
    (h : RunFrom bitfield blocks 0 a e) (ha : a < hint) (he : hint < e) :
    (∀ r, r ∈ candidates bitfield useBitfield blocks hint blocks 0 ↔
      Candidate bitfield useBitfield blocks r ∧ r.endIndex ≤ e) ∧
    (⟨hint, e⟩ ∈ candidates bitfield useBitfield blocks blocks blocks hint) ∧
    ∀ r ∈ candidates bitfield useBitfield blocks blocks blocks hint,
      r = ⟨hint, e⟩ ∨ Candidate bitfield useBitfield blocks r := by
  have hblocks := h.le_blocks
  have hprev : bitfield (hint - 1) = false := h.free _ (by omega) (by omega)
  have hcut : RunFrom bitfield blocks hint hint e :=
    ⟨Nat.le_refl _, he, hblocks, fun k hk hke => h.free k (by omega) hke, .inl rfl, h.stops⟩
  have htrim : trim useBitfield hint e = ⟨hint, e⟩ := by
    rw [trim, if_neg]
    rw [Bool.and_eq_true, not_and]
    intro _ hu
    rw [huse _ hu] at hprev
    cases hprev
  refine ⟨fun r => ⟨fun hr => ?_, ?_⟩, ?_, fun r hr => ?_⟩
  · obtain ⟨a', e', hr', rfl, hlim⟩ := mem_candidates hr
    refine ⟨⟨a', e', hr', rfl⟩, ?_⟩
    have ha' := hlim (by omega) hprev
    rw [trim_endIndex]
    exact (hr'.end_le h (by omega)).resolve_left (by omega)
  · rintro ⟨⟨a', e', hr', rfl⟩, hle⟩
    rw [trim_endIndex] at hle
    refine candidates_of_run hr' ?_ (Nat.sub_le ..)
    by_contra hno
    have hlt := hr'.lt
    rcases hr'.starts with h0 | hs
    · omega
    · rw [h.free (a' - 1) (by omega) (by omega)] at hs
      cases hs
  · rw [← htrim]
    exact candidates_of_run hcut (by omega) (Nat.sub_le ..)
  · obtain ⟨a', e', hr', rfl, -⟩ := mem_candidates hr
    rcases hr'.whole_or_cut with hw | ⟨rfl, -⟩
    · exact .inr ⟨a', e', hw, rfl⟩
    · rw [← hcut.end_unique hr', htrim]
      exact .inl rfl

/-- A hint that does not hide anything: then one of the passes yields a range. -/
theorem yields_of_not_hides (huse : ∀ i, useBitfield i = true → bitfield i = true)
    (hfull : Yields bitfield useBitfield blockLength minSplitSize
      (Candidate bitfield useBitfield blocks))
    (h0 : ¬Yields bitfield useBitfield blockLength minSplitSize
      (· ∈ candidates bitfield useBitfield blocks blocks blocks hint))
    (h1 : ¬Yields bitfield useBitfield blockLength minSplitSize
      (· ∈ candidates bitfield useBitfield blocks hint blocks 0)) :
    Hides bitfield useBitfield blocks blockLength minSplitSize hint := by
  obtain ⟨r, ⟨a', e', hr', rfl⟩, hlargest, helig⟩ := hfull
  have hfuel : ∀ start, blocks - start ≤ blocks := fun start => Nat.sub_le ..
  -- the range is not of the second pass, since it would be one of the largest there
  have hle : hint ≤ a' := by
    by_contra hno
    exact h1 ⟨_, candidates_of_run hr' (by omega) (hfuel 0),
      fun r' hr => hlargest r' (candidate_of_mem hr), helig⟩
  have hrun : RunFrom bitfield blocks hint a' e' := by
    refine ⟨hle, hr'.lt, hr'.le_blocks, hr'.free, ?_, hr'.stops⟩
    rcases hr'.starts with h0' | hs
    · exact .inl (by omega)
    · exact .inr hs
  have hmem : trim useBitfield a' e' ∈
      candidates bitfield useBitfield blocks blocks blocks hint :=
    candidates_of_run hrun (hr'.lt.trans_le hr'.le_blocks) (hfuel hint)
  -- so that there is a larger one in the first pass, which can only be the cut one
  obtain ⟨c, hc, hlt⟩ : ∃ c ∈ candidates bitfield useBitfield blocks blocks blocks hint,
      (trim useBitfield a' e').getSize < c.getSize := by
    by_contra hno
    refine h0 ⟨_, hmem, fun r' hr => ?_, helig⟩
    exact Nat.le_of_not_lt fun hlt => hno ⟨r', hr, hlt⟩
  obtain ⟨x, e, hx, rfl, -⟩ := mem_candidates hc
  rcases hx.whole_or_cut with hw | ⟨rfl, hpos, hprev⟩
  · exact absurd (hlargest _ ⟨x, e, hw, rfl⟩) (Nat.not_le_of_lt hlt)
  · obtain ⟨a, ha, hrun⟩ := exists_run hx hpos hprev
    obtain ⟨hp1, hcut, hp0⟩ := straddled huse hrun ha hx.lt
    have hsmall : ∀ r, Candidate bitfield useBitfield blocks r → r.getSize < e - x := by
      intro r hr
      have hle := hlargest r hr
      rcases hp0 _ hc with heq | hcand
      · rw [heq] at hlt
        exact hle.trans_lt hlt
      · exact absurd (hlargest _ hcand) (Nat.not_le_of_lt hlt)
    refine ⟨a, e, hrun, ha, hx.lt, hsmall, fun hlarge => h0 ⟨⟨x, e⟩, hcut, fun r hr => ?_,
      .inr hlarge⟩, ⟨_, ⟨a', e', hr', rfl⟩, hlargest, helig⟩, fun hy => h1 ?_⟩
    · rcases hp0 r hr with rfl | hcand
      · exact Nat.le_refl _
      · exact (hsmall r hcand).le
    · exact (Yields.congr hp1).mpr hy

/-- What a hint that hides something makes of the passes. -/
theorem Hides.not_yields (huse : ∀ i, useBitfield i = true → bitfield i = true)
    (h : Hides bitfield useBitfield blocks blockLength minSplitSize hint) :
    (¬Yields bitfield useBitfield blockLength minSplitSize
      (· ∈ candidates bitfield useBitfield blocks blocks blocks hint)) ∧
    ¬Yields bitfield useBitfield blockLength minSplitSize
      (· ∈ candidates bitfield useBitfield blocks hint blocks 0) := by
  obtain ⟨a, e, hrun, ha, he, hsmall, hlarge, -, hno⟩ := h
  obtain ⟨hp1, hcut, hp0⟩ := straddled huse hrun ha he
  refine ⟨?_, fun hy => hno ((Yields.congr hp1).mp hy)⟩
  rintro ⟨r, hr, hlargest, helig⟩
  have hprev : bitfield (hint - 1) = false := hrun.free _ (by omega) (by omega)
  rcases hp0 r hr with rfl | hcand
  · rcases helig with (h0 | ⟨hb, -⟩) | hl
    · change hint = 0 at h0
      omega
    · change bitfield (hint - 1) = true at hb
      rw [hprev] at hb
      cases hb
    · exact hlarge hl
  · exact absurd (hlargest _ hcut) (Nat.not_le_of_lt (hsmall r hcand))

/-- The selection from the front. -/
theorem select_zero_isSome_iff :
    (select bitfield useBitfield blocks blockLength minSplitSize 0).isSome ↔
      Yields bitfield useBitfield blockLength minSplitSize
        (Candidate bitfield useBitfield blocks) := by
  have hempty : candidates bitfield useBitfield blocks 0 blocks 0 = [] := by
    cases blocks <;> rfl
  have hcongr : Yields bitfield useBitfield blockLength minSplitSize
      (· ∈ candidates bitfield useBitfield blocks blocks blocks 0) ↔
      Yields bitfield useBitfield blockLength minSplitSize
        (Candidate bitfield useBitfield blocks) := Yields.congr fun r => mem_candidates_front_iff
  rw [select, ← hcongr]
  rcases pass_cases bitfield useBitfield blocks blockLength minSplitSize 0 blocks with
    ⟨r, -, hp, hy⟩ | ⟨hp, hy⟩
  · rw [hp]
    exact iff_of_true rfl hy
  · rw [hp]
    refine iff_of_false ?_ hy
    rcases pass_cases bitfield useBitfield blocks blockLength minSplitSize 0 0 with
      ⟨r, hr, -⟩ | ⟨hp, -⟩
    · rw [hempty] at hr
      cases hr
    · dsimp only
      rw [hp]
      exact Bool.false_ne_true

/-- The selection from a hint. -/
theorem select_isSome_iff (hint : Nat) :
    (select bitfield useBitfield blocks blockLength minSplitSize hint).isSome ↔
      Yields bitfield useBitfield blockLength minSplitSize
        (· ∈ candidates bitfield useBitfield blocks blocks blocks hint) ∨
      Yields bitfield useBitfield blockLength minSplitSize
        (· ∈ candidates bitfield useBitfield blocks hint blocks 0) := by
  rw [select]
  rcases pass_cases bitfield useBitfield blocks blockLength minSplitSize hint blocks with
    ⟨r, -, hp, hy⟩ | ⟨hp, hy⟩
  · rw [hp]
    exact iff_of_true rfl (.inl hy)
  · rw [hp, or_iff_right hy]
    rcases pass_cases bitfield useBitfield blocks blockLength minSplitSize 0 hint with
      ⟨r, -, hp, hy⟩ | ⟨hp, hy⟩
    · dsimp only
      rw [hp]
      exact iff_of_true rfl hy
    · dsimp only
      rw [hp]
      exact iff_of_false Bool.false_ne_true hy

/-- The hinted selection finds something whenever the one from the front does, if and only if the
hint does not hide it. -/
theorem complete_iff (huse : ∀ i, useBitfield i = true → bitfield i = true) (hint : Nat) :
    ((select bitfield useBitfield blocks blockLength minSplitSize 0).isSome →
      (select bitfield useBitfield blocks blockLength minSplitSize hint).isSome) ↔
      ¬Hides bitfield useBitfield blocks blockLength minSplitSize hint := by
  rw [select_zero_isSome_iff, select_isSome_iff]
  constructor
  · intro h hh
    obtain ⟨h0, h1⟩ := hh.not_yields huse
    obtain ⟨-, -, -, -, -, -, -, hfull, -⟩ := hh
    exact (h hfull).elim h0 h1
  · intro h hfull
    by_contra hno
    rw [not_or] at hno
    exact h (yields_of_not_hides huse hfull hno.1 hno.2)

/-- A block that is selected is free. -/
theorem free_of_select {index : Nat}
    (h : select bitfield useBitfield blocks blockLength minSplitSize hint = some index) :
    index < blocks ∧ bitfield index = false := by
  have hpass : ∀ start limit, pass bitfield useBitfield blocks blockLength minSplitSize start limit =
      some index → index < blocks ∧ bitfield index = false := by
    intro start limit hp
    rcases pass_cases bitfield useBitfield blocks blockLength minSplitSize start limit with
      ⟨r, hr, hp', -⟩ | ⟨hp', -⟩
    · rw [hp] at hp'
      obtain rfl := Option.some.inj hp'
      obtain ⟨a, e, hrun, rfl, -⟩ := mem_candidates hr
      obtain ⟨h1, h2⟩ := trim_startIndex useBitfield hrun.lt
      exact ⟨h2.trans_le hrun.le_blocks, hrun.free _ h1 h2⟩
    · rw [hp] at hp'
      cases hp'
  rw [select] at h
  split at h
  next i hp =>
    obtain rfl := Option.some.inj h
    exact hpass _ _ hp
  next => exact hpass _ _ h

end Sparse

/-! ## The bit field manager -/

namespace BitfieldMan

/-- Byte `k` of `array(ignoreBitfield) | ~array(filterBitfield_) | array(bitfield_) |
array(useBitfield_)`, where the filter is left out if it is not enabled. -/
def takenByte (m : BitfieldMan) (ignoreBitfield : Field m.blocks) (k : Nat) : UInt8 :=
  let ignore := ignoreBitfield.bytes.getD k 0
  let base := if m.filterEnabled then ignore ||| ~~~m.filterBytes.getD k 0 else ignore
  base ||| m.bitfield.bytes.getD k 0 ||| m.useBitfield.bytes.getD k 0

/-- `bitfield::test` of that. -/
def takenBit (m : BitfieldMan) (ignoreBitfield : Field m.blocks) (index : Nat) : Bool :=
  m.takenByte ignoreBitfield (index / 8) &&& mask index ≠ 0

/-- `getSparseMissingUnusedIndex`: the index, and the next hint. -/
def getSparseMissingUnusedIndex (m : BitfieldMan) (minSplitSize : Int)
    (ignoreBitfield : Field m.blocks) (sparseHint : Nat) : Option Nat × Nat :=
  let rv := Sparse.select (m.takenBit ignoreBitfield) m.isUseBitSet m.blocks m.blockLength
    minSplitSize sparseHint
  (rv, rv.getD sparseHint)

variable {m : BitfieldMan} {ignore : Field m.blocks} {index : Nat}

theorem takenBit_eq : m.takenBit ignore index =
    (ignore.test index || (m.filterEnabled && !test m.filterBytes index) ||
      m.isBitSet index || m.isUseBitSet index) := by
  have hj : index % 8 < 8 := Nat.mod_lt _ (by decide)
  have hbit : m.takenBit ignore index = byteBit (m.takenByte ignore (index / 8)) (index % 8) := by
    simp only [takenBit, byteBit, mask, Nat.mod_mod]
    rfl
  rw [hbit, takenByte, byteBit_or _ _ hj, byteBit_or _ _ hj, isBitSet, isUseBitSet, Field.test,
    Field.test, Field.test, test_eq, test_eq, test_eq, test_eq]
  cases m.filterEnabled with
  | false => simp
  | true => simp [byteBit_or _ _ hj, byteBit_not _ hj]

/-- The hinted selection is as complete as the one from the front, and returns a block that is
missing, not in use, not ignored and, where the filter is enabled, selected by it. -/
structure HintSound (m : BitfieldMan) (minSplitSize : Int) (ignore : Field m.blocks)
    (sparseHint : Nat) : Prop where
  complete : (m.getSparseMissingUnusedIndex minSplitSize ignore 0).1.isSome →
    (m.getSparseMissingUnusedIndex minSplitSize ignore sparseHint).1.isSome
  sound : ∀ index, (m.getSparseMissingUnusedIndex minSplitSize ignore sparseHint).1 = some index →
    index < m.blocks ∧ m.isBitSet index = false ∧ m.isUseBitSet index = false ∧
      ignore.test index = false ∧ (m.filterEnabled = true → test m.filterBytes index = true)

/-- **The hinted selection is sound if and only if the hint hides nothing.** -/
theorem hintSound_iff (m : BitfieldMan) (minSplitSize : Int) (ignore : Field m.blocks)
    (sparseHint : Nat) :
    m.HintSound minSplitSize ignore sparseHint ↔
      ¬Sparse.Hides (m.takenBit ignore) m.isUseBitSet m.blocks m.blockLength minSplitSize
        sparseHint := by
  have huse : ∀ i, m.isUseBitSet i = true → m.takenBit ignore i = true := fun i hi => by
    rw [takenBit_eq, hi, Bool.or_true]
  rw [← Sparse.complete_iff huse]
  refine ⟨fun h => h.complete, fun h => ⟨h, fun index hindex => ?_⟩⟩
  obtain ⟨hlt, hfree⟩ := Sparse.free_of_select hindex
  rw [takenBit_eq] at hfree
  simp only [Bool.or_eq_false_iff, Bool.and_eq_false_iff, Bool.not_eq_false'] at hfree
  obtain ⟨⟨⟨h1, h2⟩, h3⟩, h4⟩ := hfree
  refine ⟨hlt, h3, h4, h1, fun he => ?_⟩
  rw [he] at h2
  exact h2.resolve_left Bool.noConfusion

/-- Fifteen blocks, of which the first is in use and the tenth is finished. -/
def hinted : BitfieldMan := (((new 1 15).setUseBit 0).2.setBit 9).2

/-- A first selection that ignores the second block leaves the hint in the range of the next ones;
the second, which ignores none, misses the range behind the finished block. -/
theorem hintSound_counterexample :
    let ignored : Field hinted.blocks := ((Field.zero _).setBitInternal 1 true).2
    let sparseHint := (hinted.getSparseMissingUnusedIndex 100 ignored 0).2
    ¬hinted.HintSound 100 (.zero _) sparseHint := fun h =>
  absurd (h.complete (by decide +kernel)) (by decide +kernel)

end BitfieldMan

end FluxCore.Bitfield
