import Mathlib.Order.Lattice
import Mathlib.Order.MinMax
import Mathlib.Data.List.Pairwise
import Mathlib.Tactic.SplitIfs
import Mathlib.Tactic.ByContra
import Mathlib.Tactic.Tauto

/-!
# Sets of half-open intervals

An interval `[start, stop)` of a linear order, and a set of points kept as the list of its maximal
runs: nonempty intervals in increasing order with a gap between any two, which is a field, so that
an overlapping or unsorted list cannot be built. `mem_insert` says that inserting an interval, which
merges whatever it meets or touches, adds its points and no others.
-/

namespace FluxCore

universe u

/-- The points from `start` up to `stop`, `stop` excluded. -/
structure Interval (α : Type u) where
  start : α
  stop : α
  deriving DecidableEq, Repr

namespace Interval

variable {α : Type u} [LinearOrder α] {r s t : Interval α} {x : α}

instance : Membership α (Interval α) := ⟨fun r x => r.start ≤ x ∧ x < r.stop⟩

instance (r : Interval α) (x : α) : Decidable (x ∈ r) :=
  inferInstanceAs (Decidable (r.start ≤ x ∧ x < r.stop))

theorem mem_def : x ∈ r ↔ r.start ≤ x ∧ x < r.stop := Iff.rfl

theorem start_mem (hr : r.start < r.stop) : r.start ∈ r := ⟨le_rfl, hr⟩

/-- One stops before the other starts. -/
def Disjoint (r s : Interval α) : Prop := r.stop ≤ s.start ∨ s.stop ≤ r.start

instance (r s : Interval α) : Decidable (r.Disjoint s) :=
  inferInstanceAs (Decidable (_ ∨ _))

theorem Disjoint.symm (h : r.Disjoint s) : s.Disjoint r := Or.symm h

theorem Disjoint.not_mem (h : r.Disjoint s) (hx : x ∈ r) : x ∉ s := by
  rintro ⟨hs, hs'⟩
  rcases h with h | h
  · exact absurd (hx.2.trans_le h) (not_lt.mpr hs)
  · exact absurd (hs'.trans_le h) (not_lt.mpr hx.1)

theorem not_disjoint_self (hr : r.start < r.stop) : ¬r.Disjoint r := by
  rintro (h | h) <;> exact absurd hr (not_lt.mpr h)

/-- Nonempty intervals are disjoint when they have no point in common. -/
theorem disjoint_iff (hr : r.start < r.stop) (hs : s.start < s.stop) :
    r.Disjoint s ↔ ∀ x ∈ r, x ∉ s := by
  refine ⟨fun h x hx => h.not_mem hx, fun h => ?_⟩
  by_contra hn
  obtain ⟨h1, h2⟩ := not_or.mp hn
  refine h (max r.start s.start) ⟨le_max_left .., max_lt hr (not_le.mp h1)⟩
    ⟨le_max_right .., max_lt (not_le.mp h2) hs⟩

/-- A part of an interval meets nothing that the interval does not meet. -/
theorem Disjoint.mono (h : r.Disjoint s) (h1 : r.start ≤ t.start) (h2 : t.stop ≤ r.stop) :
    t.Disjoint s := h.imp h2.trans fun h => h.trans h1

end Interval

/-- Nonempty intervals in increasing order, no two of which meet or touch. -/
structure Separated {α : Type u} [LinearOrder α] (rs : List (Interval α)) : Prop where
  nonempty : ∀ r ∈ rs, r.start < r.stop
  sorted : rs.Pairwise fun r s => r.stop < s.start

namespace Separated

variable {α : Type u} [LinearOrder α] {r s : Interval α} {rs ss : List (Interval α)}

theorem nil : Separated ([] : List (Interval α)) := ⟨nofun, .nil⟩

theorem singleton (hr : r.start < r.stop) : Separated [r] :=
  ⟨fun _ h => List.mem_singleton.mp h ▸ hr, List.pairwise_singleton ..⟩

theorem tail (h : Separated (r :: rs)) : Separated rs :=
  ⟨fun s hs => h.nonempty s (.tail _ hs), h.sorted.tail⟩

theorem head_lt (h : Separated (r :: rs)) (hs : s ∈ rs) : r.stop < s.start :=
  List.rel_of_pairwise_cons h.sorted hs

theorem cons (hr : r.start < r.stop) (h : Separated rs) (hlt : ∀ s ∈ rs, r.stop < s.start) :
    Separated (r :: rs) :=
  ⟨by rintro s (_ | ⟨_, hs⟩); exacts [hr, h.nonempty s hs], .cons hlt h.sorted⟩

end Separated

/-- A set of points as the list of its runs. -/
structure IntervalSet (α : Type u) [LinearOrder α] where
  runs : List (Interval α)
  separated : Separated runs

namespace IntervalSet

variable {α : Type u} [LinearOrder α] {r s : Interval α} {rs : List (Interval α)} {x : α}

@[ext] theorem ext {m m' : IntervalSet α} (h : m.runs = m'.runs) : m = m' := by
  cases m; cases m'; cases h; rfl

instance : DecidableEq (IntervalSet α) := fun _ _ => decidable_of_iff _ ⟨ext, congrArg runs⟩

instance : Membership α (IntervalSet α) := ⟨fun m x => ∃ r ∈ m.runs, x ∈ r⟩

theorem mem_def {m : IntervalSet α} : x ∈ m ↔ ∃ r ∈ m.runs, x ∈ r := Iff.rfl

def empty : IntervalSet α := ⟨[], .nil⟩

instance : Inhabited (IntervalSet α) := ⟨empty⟩

/-- A single run. -/
def ofInterval (r : Interval α) (hr : r.start < r.stop) : IntervalSet α := ⟨[r], .singleton hr⟩

/-! ## Insertion -/

/-- `r` widened by the runs at the front that it meets or touches, and the runs behind them. -/
def absorb (r : Interval α) : List (Interval α) → Interval α × List (Interval α)
  | [] => (r, [])
  | s :: rs =>
    if s.start ≤ r.stop then absorb ⟨min r.start s.start, max r.stop s.stop⟩ rs else (r, s :: rs)

/-- What `absorb` leaves: the merged interval, and runs that start behind it. -/
structure Absorbed (r : Interval α) (rs : List (Interval α)) (m : Interval α)
    (after : List (Interval α)) : Prop where
  nonempty : m.start < m.stop
  behind : ∀ s ∈ after, m.stop < s.start
  sub : ∀ s ∈ after, s ∈ rs
  separated : Separated after
  mem : ∀ x, (x ∈ m ∨ ∃ s ∈ after, x ∈ s) ↔ x ∈ r ∨ ∃ s ∈ rs, x ∈ s
  lt_start : ∀ a, a < r.start → (∀ s ∈ rs, a < s.start) → a < m.start

/-- The hull of two runs that meet or touch has no further points. -/
theorem mem_hull (h1 : s.start ≤ r.stop) (h2 : r.start ≤ s.stop) :
    x ∈ (⟨min r.start s.start, max r.stop s.stop⟩ : Interval α) ↔ x ∈ r ∨ x ∈ s := by
  simp only [Interval.mem_def]
  constructor
  · rintro ⟨hlo, hhi⟩
    by_cases hx : x < r.stop
    · by_cases hx' : r.start ≤ x
      · exact .inl ⟨hx', hx⟩
      · exact .inr ⟨(min_le_iff.mp hlo).resolve_left hx', (not_le.mp hx').trans_le h2⟩
    · exact .inr ⟨h1.trans (not_lt.mp hx), (lt_max_iff.mp hhi).resolve_left hx⟩
  · rintro (⟨hlo, hhi⟩ | ⟨hlo, hhi⟩)
    · exact ⟨(min_le_left ..).trans hlo, hhi.trans_le (le_max_left ..)⟩
    · exact ⟨(min_le_right ..).trans hlo, hhi.trans_le (le_max_right ..)⟩

theorem absorbed (hr : r.start < r.stop) (h : Separated rs) (hlo : ∀ s ∈ rs, r.start ≤ s.stop) :
    Absorbed r rs (absorb r rs).1 (absorb r rs).2 := by
  induction rs generalizing r with
  | nil => exact ⟨hr, nofun, nofun, .nil, fun _ => Iff.rfl, fun _ ha _ => ha⟩
  | cons s rs ih =>
    unfold absorb
    split_ifs with hle
    · have hlo' : ∀ t ∈ rs, min r.start s.start ≤ t.stop := fun t ht =>
        (min_le_left ..).trans (hlo t (.tail _ ht))
      obtain ⟨h1, h2, h3, h4, h5, h6⟩ := ih (r := ⟨min r.start s.start, max r.stop s.stop⟩)
        (lt_max_of_lt_left ((min_le_left ..).trans_lt hr)) h.tail hlo'
      refine ⟨h1, h2, fun t ht => .tail _ (h3 t ht), h4, fun x => ?_,
        fun a ha hs' => h6 a (lt_min ha (hs' s (.head _))) fun t ht => hs' t (.tail _ ht)⟩
      rw [h5 x, mem_hull hle (hlo s (.head _)), or_assoc]
      simp only [List.mem_cons, exists_eq_or_imp]
    · refine ⟨hr, ?_, fun _ ht => ht, h, fun x => Iff.rfl, fun _ ha _ => ha⟩
      rintro t (_ | ⟨_, ht⟩)
      · exact not_le.mp hle
      · exact (not_le.mp hle).trans ((h.nonempty s (.head _)).trans (h.head_lt ht))

/-- `r` among the runs, merged with those it meets or touches. -/
def insertRuns (r : Interval α) (rs : List (Interval α)) : List (Interval α) :=
  let before := rs.takeWhile fun s => s.stop < r.start
  let after := rs.dropWhile fun s => s.stop < r.start
  before ++ (absorb r after).1 :: (absorb r after).2

theorem insertRuns_cons_of_lt (h : s.stop < r.start) :
    insertRuns r (s :: rs) = s :: insertRuns r rs := by simp [insertRuns, h]

theorem insertRuns_cons_of_le (h : r.start ≤ s.stop) :
    insertRuns r (s :: rs) = (absorb r (s :: rs)).1 :: (absorb r (s :: rs)).2 := by
  simp [insertRuns, not_lt.mpr h]

/-- The invariant of an insertion, by induction along the runs in front of `r`. -/
theorem insertRuns_spec (hr : r.start < r.stop) (h : Separated rs) :
    Separated (insertRuns r rs) ∧
      (∀ x, (∃ s ∈ insertRuns r rs, x ∈ s) ↔ x ∈ r ∨ ∃ s ∈ rs, x ∈ s) ∧
      ∀ a, a < r.start → (∀ s ∈ rs, a < s.start) → ∀ s ∈ insertRuns r rs, a < s.start := by
  induction rs with
  | nil =>
    refine ⟨.singleton hr, fun x => ?_, fun a ha _ => ?_⟩
    · simp [insertRuns, absorb]
    · simpa [insertRuns, absorb] using ha
  | cons s rs ih =>
    by_cases hlt : s.stop < r.start
    · obtain ⟨h1, h2, h3⟩ := ih h.tail
      rw [insertRuns_cons_of_lt hlt]
      refine ⟨.cons (h.nonempty s (.head _)) h1 (h3 _ hlt fun t ht => h.head_lt ht), fun x => ?_,
        fun a ha hs => ?_⟩
      · simp only [List.mem_cons, exists_eq_or_imp, h2 x]
        tauto
      · rintro t (_ | ⟨_, ht⟩)
        · exact hs s (.head _)
        · exact h3 a ha (fun t ht => hs t (.tail _ ht)) t ht
    · have hle := not_lt.mp hlt
      have hab := absorbed hr h (by
        rintro t (_ | ⟨_, ht⟩)
        · exact hle
        · exact hle.trans ((h.head_lt ht).trans (h.nonempty t (.tail _ ht))).le)
      rw [insertRuns_cons_of_le hle]
      refine ⟨.cons hab.nonempty hab.separated hab.behind, fun x => ?_, fun a ha hs => ?_⟩
      · simpa only [List.mem_cons, exists_eq_or_imp] using hab.mem x
      · rintro t (_ | ⟨_, ht⟩)
        · exact hab.lt_start a ha hs
        · exact hs t (hab.sub t ht)

/-- The points of `m` and those of `r`. -/
def insert (m : IntervalSet α) (r : Interval α) (hr : r.start < r.stop) : IntervalSet α :=
  ⟨insertRuns r m.runs, (insertRuns_spec hr m.separated).1⟩

@[simp] theorem mem_insert {m : IntervalSet α} {hr : r.start < r.stop} :
    x ∈ m.insert r hr ↔ x ∈ r ∨ x ∈ m := (insertRuns_spec hr m.separated).2.1 x

/-! ## The run that an insertion makes -/

/-- The interval only grows. -/
theorem absorb_hull (r : Interval α) (rs : List (Interval α)) :
    (absorb r rs).1.start ≤ r.start ∧ r.stop ≤ (absorb r rs).1.stop := by
  induction rs generalizing r with
  | nil => exact ⟨le_rfl, le_rfl⟩
  | cons s rs ih =>
    unfold absorb
    split_ifs
    · obtain ⟨h1, h2⟩ := ih ⟨min r.start s.start, max r.stop s.stop⟩
      exact ⟨h1.trans (min_le_left ..), (le_max_left ..).trans h2⟩
    · exact ⟨le_rfl, le_rfl⟩

theorem absorb_sub (r : Interval α) (rs : List (Interval α)) : ∀ s ∈ (absorb r rs).2, s ∈ rs := by
  induction rs generalizing r with
  | nil => exact nofun
  | cons s rs ih =>
    unfold absorb
    split_ifs
    · exact fun t ht => .tail _ (ih _ t ht)
    · exact fun t ht => ht

/-- The number of runs that stop before `r`: where an insertion puts the run it makes. -/
def insertionIndex (r : Interval α) (rs : List (Interval α)) : Nat :=
  (rs.takeWhile fun s => s.stop < r.start).length

/-- The run at the insertion index contains what was inserted; every other run was there before. -/
theorem insertRuns_at (r : Interval α) (rs : List (Interval α)) :
    ∃ m, (insertRuns r rs)[insertionIndex r rs]? = some m ∧ m.start ≤ r.start ∧ r.stop ≤ m.stop ∧
      ∀ s ∈ insertRuns r rs, s = m ∨ s ∈ rs := by
  obtain ⟨h1, h2⟩ := absorb_hull r (rs.dropWhile fun s => s.stop < r.start)
  refine ⟨_, ?_, h1, h2, fun s hs => ?_⟩
  · unfold insertRuns insertionIndex
    rw [List.getElem?_append_right le_rfl, Nat.sub_self, List.getElem?_cons_zero]
  · rcases List.mem_append.mp hs with hs | hs
    · exact .inr (List.takeWhile_sublist _ |>.subset hs)
    rcases List.mem_cons.mp hs with rfl | hs
    · exact .inl rfl
    · exact .inr ((List.dropWhile_sublist _).subset (absorb_sub _ _ s hs))

/-! ## Ranges that are covered -/

/-- One run contains `[lo, hi)`. -/
def Covers (m : IntervalSet α) (lo hi : α) : Prop := ∃ r ∈ m.runs, r.start ≤ lo ∧ hi ≤ r.stop

/-- Between two runs there is a gap, so that a range whose points are all there is in one run. -/
theorem covers_iff {m : IntervalSet α} {lo hi : α} (h : lo < hi) :
    m.Covers lo hi ↔ ∀ x, lo ≤ x → x < hi → x ∈ m := by
  constructor
  · rintro ⟨r, hr, h1, h2⟩ x hx hx'
    exact ⟨r, hr, h1.trans hx, hx'.trans_le h2⟩
  · intro hall
    obtain ⟨r, hr, h1, h2⟩ := hall lo le_rfl h
    refine ⟨r, hr, h1, ?_⟩
    by_contra hlt
    obtain ⟨s, hs, h3, h4⟩ := hall r.stop h2.le (not_le.mp hlt)
    have hne : r ≠ s := fun heq => absurd (heq ▸ h4) (lt_irrefl _)
    have hapart : ∀ r ∈ m.runs, ∀ s ∈ m.runs, r ≠ s → r.stop < s.start ∨ s.stop < r.start :=
      fun _ hr _ hs => List.Pairwise.forall_of_forall_of_flip
        (R := fun r s : Interval α => r ≠ s → r.stop < s.start ∨ s.stop < r.start)
        (fun _ _ h => (h rfl).elim) (m.separated.sorted.imp fun hlt _ => .inl hlt)
        (m.separated.sorted.imp fun hlt _ => .inr hlt) hr hs
    rcases hapart r hr s hs hne with hlt' | hlt'
    · exact absurd h3 (not_le.mpr hlt')
    · exact absurd (hlt'.trans_le h1) (not_lt.mpr (h2.trans h4).le)

/-- What is covered stays so. -/
theorem Covers.insert {m : IntervalSet α} {lo hi : α} (hlt : lo < hi) (h : m.Covers lo hi)
    (hr : r.start < r.stop) : (m.insert r hr).Covers lo hi :=
  (covers_iff hlt).mpr fun x hx hx' => mem_insert.mpr (.inr ((covers_iff hlt).mp h x hx hx'))

end IntervalSet

end FluxCore
