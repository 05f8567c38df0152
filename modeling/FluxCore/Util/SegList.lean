import FluxCore.Lib.Interval
import Mathlib.Data.List.Induction
import Mathlib.Algebra.Group.Int.Defs

/-!
# Lists of segments

The segments of a `SegList` are kept in the order in which they were added until `normalize` sorts
and merges them. The iterator is an index and the next value, which is that of the segment there.
-/

namespace FluxCore.Util

/-! ## The operations -/

structure SegList where
  /-- `[first, second)`. -/
  segs : List (Interval Int)
  index : Nat
  val : Int
  deriving DecidableEq, Repr

namespace SegList

/-- `std::numeric_limits<int>::min()`. -/
def minimum : Int := -2 ^ 31

def empty : SegList := ⟨[], 0, minimum⟩

/-- `operator<=` of pairs. -/
def ordered (x y : Interval Int) : Bool :=
  x.start < y.start || (x.start == y.start && decide (x.stop ≤ y.stop))

/-- A turn of the loop of `normalize`. The segments `s` stand in reverse. -/
def merge (s : List (Interval Int)) (x : Interval Int) : List (Interval Int) :=
  match s with
  | [] => [x]
  | back :: s =>
    if x.start ≤ back.stop then
      if back.stop < x.stop then ⟨back.start, x.stop⟩ :: s else back :: s
    else x :: back :: s

def normalize (sgl : SegList) : SegList :=
  match ((sgl.segs.mergeSort ordered).foldl merge []).reverse with
  | [] => sgl
  | front :: s => ⟨front :: s, 0, front.start⟩

def add (sgl : SegList) (a b : Int) : SegList :=
  if a < b then
    { sgl with
      val := if sgl.segs = [] then max sgl.val a else sgl.val
      segs := sgl.segs ++ [⟨a, b⟩] }
  else sgl

def hasNext (sgl : SegList) : Bool :=
  match sgl.segs[sgl.index]? with
  | none => false
  | some seg => sgl.val < seg.stop

/-- The next value, and the list behind it. -/
def next (sgl : SegList) : Int × SegList :=
  match sgl.segs[sgl.index]? with
  | none => (0, sgl)
  | some seg =>
    let val := sgl.val + 1
    if val = seg.stop then
      (sgl.val, { sgl with
        index := sgl.index + 1
        val := match sgl.segs[sgl.index + 1]? with
          | none => val
          | some seg => seg.start })
    else (sgl.val, { sgl with val })

def peek (sgl : SegList) : Int :=
  match sgl.segs[sgl.index]? with
  | none => 0
  | some _ => sgl.val

/-! ## The iterator -/

/-- `n` values from `v` on. -/
def count : Nat → Int → List Int
  | 0, _ => []
  | n + 1, v => v :: count n (v + 1)

/-- The values of segments, one after the other. -/
def values (rs : List (Interval Int)) : List Int :=
  rs.flatMap fun r => count (r.stop - r.start).toNat r.start

/-- The segments from the index on are `rs`, but that the first is left from the next value on. -/
def Left (sgl : SegList) : List (Interval Int) → Prop
  | [] => sgl.segs.length ≤ sgl.index
  | r :: rs => r.start = sgl.val ∧ ∃ start, sgl.segs.drop sgl.index = ⟨start, r.stop⟩ :: rs

structure At (sgl : SegList) (rs : List (Interval Int)) : Prop where
  nonempty : ∀ r ∈ rs, r.start < r.stop
  left : sgl.Left rs

variable {sgl : SegList} {r : Interval Int} {rs : List (Interval Int)}

theorem At.nil (h : sgl.At []) : sgl.segs[sgl.index]? = none := List.getElem?_eq_none h.left

theorem At.cons (h : sgl.At (r :: rs)) :
    ∃ start, sgl.segs[sgl.index]? = some ⟨start, r.stop⟩ ∧ sgl.segs.drop (sgl.index + 1) = rs := by
  obtain ⟨-, start, hdrop⟩ := h.left
  refine ⟨start, ?_, ?_⟩
  · rw [← Nat.add_zero sgl.index, ← List.getElem?_drop, hdrop, List.getElem?_cons_zero]
  · rw [← List.drop_drop, hdrop, List.drop_one, List.tail_cons]

theorem At.hasNext_nil (h : sgl.At []) : sgl.hasNext = false := by rw [hasNext, h.nil]

theorem At.hasNext_cons (h : sgl.At (r :: rs)) : sgl.hasNext = true := by
  obtain ⟨start, hget, -⟩ := h.cons
  rw [hasNext, hget]
  exact decide_eq_true (h.left.1 ▸ h.nonempty r (.head _))

theorem At.peek_cons (h : sgl.At (r :: rs)) : sgl.peek = r.start := by
  obtain ⟨start, hget, -⟩ := h.cons
  rw [peek, hget, h.left.1]

/-- `next` gives the first value that is left, and moves behind it. -/
theorem At.next_cons (h : sgl.At (r :: rs)) : sgl.next.1 = r.start ∧
    sgl.next.2.At (if r.start + 1 = r.stop then rs else ⟨r.start + 1, r.stop⟩ :: rs) := by
  obtain ⟨start, hget, hdrop⟩ := h.cons
  have hval := h.left.1
  have hlt := h.nonempty r (.head _)
  have hrs : ∀ s ∈ rs, s.start < s.stop := fun s hs => h.nonempty s (.tail _ hs)
  rw [next, hget]
  dsimp only
  rw [← hval]
  split
  · refine ⟨rfl, hrs, ?_⟩
    match rs, hdrop with
    | [], hdrop => exact List.drop_eq_nil_iff.mp hdrop
    | s :: rs, hdrop =>
      have hs : sgl.segs[sgl.index + 1]? = some s := by
        rw [← Nat.add_zero (sgl.index + 1), ← List.getElem?_drop, hdrop, List.getElem?_cons_zero]
      rw [hs]
      exact ⟨rfl, s.start, hdrop⟩
  · rename_i hne
    refine ⟨rfl, ?_, rfl, start, ?_⟩
    · rintro s (_ | ⟨_, hs⟩)
      · dsimp only
        omega
      · exact hrs s hs
    · obtain ⟨-, start', hdrop'⟩ := h.left
      rw [hdrop', ← hdrop]
      rw [← Nat.add_zero sgl.index, ← List.getElem?_drop, hdrop', List.getElem?_cons_zero] at hget
      rw [Option.some.inj hget, hdrop]

/-- The calls of `next` as long as there is a value give `vs`. -/
def Yields : SegList → List Int → Prop
  | sgl, [] => sgl.hasNext = false
  | sgl, v :: vs => sgl.hasNext = true ∧ sgl.next.1 = v ∧ Yields sgl.next.2 vs

theorem values_cons (h : r.start < r.stop) : values (r :: rs) =
    r.start :: values (if r.start + 1 = r.stop then rs else ⟨r.start + 1, r.stop⟩ :: rs) := by
  obtain ⟨n, hn⟩ : ∃ n, (r.stop - r.start).toNat = n + 1 := ⟨(r.stop - r.start).toNat - 1, by omega⟩
  rw [values, List.flatMap_cons, hn, count, List.cons_append]
  congr 1
  split
  · rw [show n = 0 by omega]
    rfl
  · rw [values, List.flatMap_cons, show (r.stop - (r.start + 1)).toNat = n by omega]

/-- What is yielded are the values of the segments that are left. -/
theorem At.yields_iff (h : sgl.At rs) (vs : List Int) : sgl.Yields vs ↔ vs = values rs := by
  induction vs generalizing sgl rs with
  | nil =>
    obtain _ | ⟨r, rs⟩ := rs
    · exact iff_of_true h.hasNext_nil rfl
    · rw [values_cons (h.nonempty r (.head _)), Yields, h.hasNext_cons]
      exact iff_of_false (by decide) nofun
  | cons v vs ih =>
    obtain _ | ⟨r, rs⟩ := rs
    · rw [Yields, h.hasNext_nil]
      exact iff_of_false (fun h => Bool.false_ne_true h.1) nofun
    · obtain ⟨hnext, hat⟩ := h.next_cons
      rw [Yields, h.hasNext_cons, hnext, ih hat, values_cons (h.nonempty r (.head _)),
        List.cons.injEq, and_iff_right rfl, eq_comm]

/-! ## Normalisation -/

theorem ordered_iff {x y : Interval Int} :
    ordered x y = true ↔ x.start < y.start ∨ x.start = y.start ∧ x.stop ≤ y.stop := by
  simp [ordered]

theorem sorted_start (segs : List (Interval Int)) :
    (segs.mergeSort ordered).Pairwise (·.start ≤ ·.start) := by
  refine (List.pairwise_mergeSort ?_ ?_ segs).imp fun {x y} h => ?_
  · intro x y z hxy hyz
    rw [ordered_iff] at *
    omega
  · intro x y
    rw [Bool.or_eq_true, ordered_iff, ordered_iff]
    omega
  · rw [ordered_iff] at h
    omega

/-- The segments merged so far, in reverse, of which none starts after `x`. -/
structure Merged (s : List (Interval Int)) (P : Int → Prop) : Prop where
  separated : Separated s.reverse
  points : ∀ v, (∃ r ∈ s, v ∈ r) ↔ P v

theorem separated_append {rs : List (Interval Int)} (h : Separated rs) (hr : r.start < r.stop)
    (hlt : ∀ s ∈ rs, s.stop < r.start) : Separated (rs ++ [r]) := by
  refine ⟨?_, List.pairwise_append.mpr ⟨h.sorted, List.pairwise_singleton .., ?_⟩⟩
  · exact List.forall_mem_append.mpr ⟨h.nonempty, List.forall_mem_singleton.mpr hr⟩
  · exact fun s hs x hx => List.mem_singleton.mp hx ▸ hlt s hs

/-- One turn adds the points of `x`, where it starts behind the starts of all segments before. -/
theorem Merged.merge {s : List (Interval Int)} {P : Int → Prop} (h : Merged s P) {x : Interval Int}
    (hx : x.start < x.stop) (hle : ∀ r ∈ s, r.start ≤ x.start) :
    Merged (SegList.merge s x) (fun v => P v ∨ v ∈ x) ∧
      ∀ r ∈ SegList.merge s x, r.start ≤ x.start := by
  match s with
  | [] =>
    refine ⟨⟨.singleton hx, fun v => ?_⟩, by simp [SegList.merge]⟩
    rw [← h.points]
    simp [SegList.merge]
  | back :: s =>
    have hsep := h.separated
    rw [List.reverse_cons] at hsep
    obtain ⟨hs, -, hback⟩ := List.pairwise_append.mp hsep.sorted
    have hlt : ∀ r ∈ s.reverse, r.stop < back.start := fun r hr => hback r hr back (.head _)
    have hone := hsep.nonempty back (List.mem_append_right _ (.head _))
    have hbs := hle back (.head _)
    have hinit : Separated s.reverse :=
      ⟨fun r hr => hsep.nonempty r (List.mem_append_left _ hr), hs⟩
    rw [SegList.merge]
    split
    · rename_i htouch
      split
      · rename_i hstop
        refine ⟨⟨?_, fun v => ?_⟩, ?_⟩
        · rw [List.reverse_cons]
          exact separated_append hinit (hone.trans hstop) hlt
        · rw [← h.points]
          simp only [List.mem_cons, exists_eq_or_imp, Interval.mem_def]
          constructor
          · rintro (⟨h1, h2⟩ | hr)
            · by_cases hv : v < back.stop
              · exact .inl (.inl ⟨h1, hv⟩)
              · exact .inr ⟨by omega, h2⟩
            · exact .inl (.inr hr)
          · rintro ((⟨h1, h2⟩ | hr) | ⟨h1, h2⟩)
            · exact .inl ⟨h1, by omega⟩
            · exact .inr hr
            · exact .inl ⟨by omega, h2⟩
        · exact List.forall_mem_cons.mpr ⟨hbs, fun r hr => hle r (.tail _ hr)⟩
      · rename_i hstop
        refine ⟨⟨h.separated, fun v => ?_⟩, hle⟩
        rw [h.points, or_iff_left_of_imp]
        rintro ⟨h1, h2⟩
        exact (h.points v).mp ⟨back, .head _, by omega, by omega⟩
    · rename_i hgap
      refine ⟨⟨?_, fun v => ?_⟩, List.forall_mem_cons.mpr ⟨le_rfl, hle⟩⟩
      · rw [List.reverse_cons]
        refine separated_append h.separated hx fun r hr => ?_
        rcases List.mem_cons.mp (List.mem_reverse.mp hr) with rfl | hr
        · omega
        · exact (hlt r (List.mem_reverse.mpr hr)).trans (hone.trans (by omega))
      · rw [← h.points]
        simp only [List.mem_cons, exists_eq_or_imp]
        exact or_comm

theorem Merged.foldl {s segs : List (Interval Int)} {P : Int → Prop} (h : Merged s P)
    (hsegs : ∀ x ∈ segs, x.start < x.stop) (hsort : segs.Pairwise (·.start ≤ ·.start))
    (hle : ∀ r ∈ s, ∀ x ∈ segs, r.start ≤ x.start) :
    Merged (segs.foldl SegList.merge s) fun v => P v ∨ ∃ x ∈ segs, v ∈ x := by
  induction segs generalizing s P with
  | nil => simpa using h
  | cons x segs ih =>
    obtain ⟨hx, hsegs⟩ := List.forall_mem_cons.mp hsegs
    obtain ⟨hfirst, hsort⟩ := List.pairwise_cons.mp hsort
    obtain ⟨hm, hm'⟩ := h.merge hx fun r hr => hle r hr x (.head _)
    have hall := ih hm hsegs hsort fun r hr y hy => (hm' r hr).trans (hfirst y hy)
    refine ⟨hall.separated, fun v => ?_⟩
    rw [List.foldl_cons, hall.points]
    simp only [List.mem_cons, exists_eq_or_imp, or_assoc]

/-- The iterator is at the first of nonempty segments. -/
structure Fresh (sgl : SegList) : Prop where
  nonempty : ∀ r ∈ sgl.segs, r.start < r.stop
  index_zero : sgl.index = 0
  val_head : ∀ r ∈ sgl.segs.head?, r.start = sgl.val
  val_empty : sgl.segs = [] → sgl.val = minimum

theorem Fresh.at_start (h : sgl.Fresh) : sgl.At sgl.segs := by
  refine ⟨h.nonempty, ?_⟩
  rcases hsegs : sgl.segs with _ | ⟨r, rs⟩
  · rw [Left, hsegs]
    exact Nat.zero_le _
  · refine ⟨h.val_head r ?_, r.start, by rw [h.index_zero, hsegs]; rfl⟩
    rw [hsegs]
    rfl

theorem fresh_empty : Fresh empty := ⟨nofun, rfl, nofun, fun _ => rfl⟩

/-- `normalize` keeps the values, in segments with a gap between any two. -/
theorem Fresh.normalize (h : sgl.Fresh) : sgl.normalize.Fresh ∧ Separated sgl.normalize.segs ∧
    ∀ v, (∃ r ∈ sgl.normalize.segs, v ∈ r) ↔ ∃ r ∈ sgl.segs, v ∈ r := by
  have hperm := List.mergeSort_perm sgl.segs ordered
  have hmerged := Merged.foldl (s := []) (P := fun _ => False) ⟨.nil, by simp⟩
    (fun x hx => h.nonempty x (hperm.mem_iff.mp hx)) (sorted_start sgl.segs) (by simp)
  have hpoints : ∀ v, (∃ r ∈ ((sgl.segs.mergeSort ordered).foldl SegList.merge []).reverse, v ∈ r) ↔
      ∃ r ∈ sgl.segs, v ∈ r := by
    intro v
    simp only [List.mem_reverse, hmerged.points, false_or, hperm.mem_iff]
  have hsep := hmerged.separated
  rw [SegList.normalize]
  generalize ((sgl.segs.mergeSort ordered).foldl SegList.merge []).reverse = s at hsep hpoints ⊢
  match s with
  | [] =>
    have hnil : sgl.segs = [] := by
      rcases hsegs : sgl.segs with _ | ⟨r, rs⟩
      · rfl
      · have hr := h.nonempty r (hsegs ▸ .head _)
        obtain ⟨_, hmem, _⟩ := (hpoints r.start).mpr ⟨r, hsegs ▸ .head _, le_rfl, hr⟩
        exact absurd hmem (List.not_mem_nil)
    refine ⟨h, ?_, fun v => Iff.rfl⟩
    dsimp only
    rw [hnil]
    exact .nil
  | front :: s =>
    exact ⟨⟨hsep.nonempty, rfl, fun r hr => Option.mem_some.mp hr ▸ rfl, nofun⟩, hsep, hpoints⟩

/-! ## Sequences of additions -/

theorem Fresh.add (h : sgl.Fresh) (a : Int) (ha : minimum ≤ a) (b : Int) :
    (sgl.add a b).Fresh ∧
      (sgl.add a b).segs = if a < b then sgl.segs ++ [⟨a, b⟩] else sgl.segs := by
  rw [SegList.add]
  split
  · rename_i hlt
    refine ⟨⟨?_, h.index_zero, ?_, fun hnil => absurd hnil (by simp)⟩, rfl⟩
    · exact List.forall_mem_append.mpr ⟨h.nonempty, List.forall_mem_singleton.mpr hlt⟩
    · dsimp only
      rcases hsegs : sgl.segs with _ | ⟨r, rs⟩
      · rw [if_pos rfl, h.val_empty hsegs, max_eq_right ha]
        exact fun r hr => Option.mem_some.mp hr ▸ rfl
      · have hhead := h.val_head
        rw [hsegs] at hhead
        rw [if_neg (List.cons_ne_nil r rs)]
        exact fun s hs => hhead s hs
  · exact ⟨h, rfl⟩

inductive Op where
  | add (a b : Int32)
  | normalize

def step (sgl : SegList) : Op → SegList
  | .add a b => sgl.add a.toInt b.toInt
  | .normalize => sgl.normalize

def run (ops : List Op) : SegList := ops.foldl step empty

/-- `v` is in a segment that was added. -/
def Added (ops : List Op) (v : Int) : Prop := ∃ a b, .add a b ∈ ops ∧ a.toInt ≤ v ∧ v < b.toInt

/-- Every segment that is added after the last normalisation lies above all values before. -/
def Rising (ops : List Op) : Prop := ∀ pre a b post, ops = pre ++ .add a b :: post →
  .normalize ∉ post → a.toInt < b.toInt → ∀ v, Added pre v → v < a.toInt

theorem rising_normalize (ops : List Op) : Rising (ops ++ [.normalize]) := by
  intro pre a b post heq hpost
  rcases List.eq_nil_or_concat post with rfl | ⟨post', op, rfl⟩
  · obtain ⟨-, hop⟩ := List.append_inj' heq rfl
    simp at hop
  · rw [List.concat_eq_append, ← List.cons_append, ← List.append_assoc] at heq
    obtain ⟨-, hop⟩ := List.append_inj' heq rfl
    refine absurd ?_ hpost
    rw [List.concat_eq_append, ← List.singleton_inj.mp hop]
    exact List.mem_append_right _ (.head _)

theorem rising_add (ops : List Op) (a b : Int32) : Rising (ops ++ [.add a b]) ↔
    Rising ops ∧ (a.toInt < b.toInt → ∀ v, Added ops v → v < a.toInt) := by
  constructor
  · intro h
    refine ⟨fun pre c d post heq hpost => ?_, h ops a b [] rfl (List.not_mem_nil)⟩
    refine h pre c d (post ++ [.add a b]) (by rw [heq, List.append_assoc]; rfl) ?_
    rw [List.mem_append, not_or]
    exact ⟨hpost, by simp⟩
  · rintro ⟨h, hlast⟩ pre c d post heq hpost
    rcases List.eq_nil_or_concat post with rfl | ⟨post', op, rfl⟩
    · obtain ⟨rfl, hop⟩ := List.append_inj' heq rfl
      obtain ⟨rfl, rfl⟩ := Op.add.inj (List.singleton_inj.mp hop)
      exact hlast
    · rw [List.concat_eq_append, ← List.cons_append, ← List.append_assoc] at heq
      obtain ⟨hops, -⟩ := List.append_inj' heq rfl
      rw [List.concat_eq_append, List.mem_append, not_or] at hpost
      exact h pre c d post' hops hpost.1

theorem added_append (ops : List Op) (op : Op) (v : Int) : Added (ops ++ [op]) v ↔
    Added ops v ∨ ∃ a b, op = .add a b ∧ a.toInt ≤ v ∧ v < b.toInt := by
  simp only [Added, List.mem_append, List.mem_singleton, or_and_right, exists_or]
  exact or_congr Iff.rfl ⟨fun ⟨a, b, h, h'⟩ => ⟨a, b, h.symm, h'⟩, fun ⟨a, b, h, h'⟩ =>
    ⟨a, b, h.symm, h'⟩⟩

/-- What a sequence of operations leaves. -/
structure Ran (ops : List Op) : Prop where
  fresh : (run ops).Fresh
  points : ∀ v, (∃ r ∈ (run ops).segs, v ∈ r) ↔ Added ops v
  ascending : (run ops).segs.Pairwise (fun r s => r.stop ≤ s.start) ↔ Rising ops

theorem ran (ops : List Op) : Ran ops := by
  induction ops using List.reverseRec with
  | nil =>
    refine ⟨fresh_empty, fun v => ?_, iff_of_true .nil ?_⟩
    · simp [run, empty, Added]
    · intro pre a b post heq
      simp at heq
  | append_singleton ops op ih =>
    have hrun : run (ops ++ [op]) = step (run ops) op := List.foldl_append ..
    match op with
    | .normalize =>
      obtain ⟨hfresh, hsep, hpoints⟩ := ih.fresh.normalize
      refine ⟨hrun ▸ hfresh, fun v => ?_, iff_of_true ?_ (rising_normalize ops)⟩
      · rw [hrun, added_append]
        refine (hpoints v).trans ((ih.points v).trans ?_)
        simp
      · rw [hrun]
        exact hsep.sorted.imp fun h => h.le
    | .add a b =>
      obtain ⟨hfresh, hsegs⟩ := ih.fresh.add a.toInt a.le_toInt b.toInt
      refine ⟨hrun ▸ hfresh, fun v => ?_, ?_⟩
      · rw [hrun, added_append, ← ih.points]
        change (∃ r ∈ ((run ops).add a.toInt b.toInt).segs, v ∈ r) ↔ _
        rw [hsegs]
        split
        · simp only [List.mem_append, List.mem_singleton, or_and_right, exists_or, exists_eq_left]
          refine or_congr Iff.rfl ⟨fun h => ⟨a, b, rfl, h⟩, ?_⟩
          rintro ⟨_, _, hop, h⟩
          obtain ⟨rfl, rfl⟩ := Op.add.inj hop
          exact h
        · refine (or_iff_left ?_).symm
          rintro ⟨_, _, hop, h⟩
          obtain ⟨rfl, rfl⟩ := Op.add.inj hop
          omega
      · rw [hrun, rising_add, ← ih.ascending]
        change ((run ops).add a.toInt b.toInt).segs.Pairwise _ ↔ _
        rw [hsegs]
        split
        · rename_i hlt
          rw [List.pairwise_append, and_iff_right (List.pairwise_singleton ..)]
          refine and_congr Iff.rfl ⟨fun h _ v hv => ?_, fun h r hr s hs => ?_⟩
          · obtain ⟨r, hr, hv⟩ := (ih.points v).mpr hv
            exact hv.2.trans_le (h r hr _ (.head _))
          · obtain rfl := List.mem_singleton.mp hs
            have hne := ih.fresh.nonempty r hr
            have hlast := h hlt (r.stop - 1) ((ih.points _).mp ⟨r, hr, by omega, by omega⟩)
            dsimp only
            omega
        · rename_i hge
          exact (and_iff_left fun h => absurd h hge).symm

theorem mem_count (n : Nat) (a v : Int) : v ∈ count n a ↔ a ≤ v ∧ v < a + n := by
  induction n generalizing a with
  | zero =>
    rw [count]
    simp
  | succ n ih =>
    rw [count, List.mem_cons, ih]
    omega

theorem pairwise_count (n : Nat) (a : Int) : (count n a).Pairwise (· < ·) := by
  induction n generalizing a with
  | zero => exact .nil
  | succ n ih =>
    refine .cons (fun v hv => ?_) (ih (a + 1))
    have := (mem_count n (a + 1) v).mp hv
    omega

theorem mem_segment {r : Interval Int} (v : Int) :
    v ∈ count (r.stop - r.start).toNat r.start ↔ v ∈ r := by
  rw [mem_count, Interval.mem_def]
  omega

theorem mem_values {rs : List (Interval Int)} (v : Int) : v ∈ values rs ↔ ∃ r ∈ rs, v ∈ r := by
  simp only [values, List.mem_flatMap, mem_segment]

/-- The values of nonempty segments ascend where the segments do. -/
theorem pairwise_values {rs : List (Interval Int)} (h : ∀ r ∈ rs, r.start < r.stop) :
    (values rs).Pairwise (· < ·) ↔ rs.Pairwise fun r s => r.stop ≤ s.start := by
  rw [values, List.pairwise_flatMap, and_iff_right fun r _ => pairwise_count ..]
  refine List.Pairwise.iff_of_mem fun {r s} hr hs => ?_
  simp only [mem_segment]
  constructor
  · intro hlt
    have := h r hr
    have := hlt (r.stop - 1) ⟨by omega, by omega⟩ s.start (Interval.start_mem (h s hs))
    omega
  · exact fun hle x hx y hy => hx.2.trans_le (hle.trans hy.1)

/-- What was added is yielded in ascending order and without repetition, and nothing else, exactly
where every segment added after the last normalisation lies above all values before. -/
theorem yields_added_iff (ops : List Op) :
    (∃ vs, (run ops).Yields vs ∧ vs.Pairwise (· < ·) ∧ ∀ v, v ∈ vs ↔ Added ops v) ↔ Rising ops := by
  obtain ⟨hfresh, hpoints, hascending⟩ := ran ops
  rw [← hascending, ← pairwise_values hfresh.nonempty]
  constructor
  · rintro ⟨vs, hyields, hsort, -⟩
    exact (hfresh.at_start.yields_iff vs).mp hyields ▸ hsort
  · exact fun hsort => ⟨_, (hfresh.at_start.yields_iff _).mpr rfl, hsort, fun v =>
      (mem_values v).trans (hpoints v)⟩

end SegList

end FluxCore.Util
