import FluxCore.Lib.Components
import FluxCore.Util.Numbers
import FluxCore.Util.SegList
import Mathlib.Data.List.TakeWhile

/-!
# The selection of files

`parseIntSegments` adds the ranges `[a, b + 1)` to a `SegList`; `setFileFilter` walks over the files
and over the list at once.
-/

namespace FluxCore.Request

open Utp (Bytes)
open Util (SegList parseIntNoThrow parseIntNoThrow_range)

/-! ## The functions -/

inductive Failure where
  /-- An exception with this message. -/
  | abort (what : String) (range : Bytes)
  /-- `b + 1` is not an `int`. -/
  | overflow
  deriving DecidableEq

/-- A number plus one. -/
def succ (n : Int) : Except Failure Int := if n = 2 ^ 31 - 1 then .error .overflow else .ok (n + 1)

/-- The arguments of `add` for what stands between two commas. -/
def segment (range : Bytes) : Except Failure (Int × Int) :=
  let first := range.takeWhile (· ≠ 0x2d)
  match range.dropWhile (· ≠ 0x2d) with
  | [] =>
    match parseIntNoThrow range with
    | some a => (succ a).map fun b => (a, b)
    | none => .error (.abort "Bad range %s" range)
  | _ :: last =>
    if first = [] ∨ last = [] then .error (.abort "Incomplete range specified. %s" range)
    else
      match parseIntNoThrow first, parseIntNoThrow last with
      | some a, some b => (succ b).map fun b => (a, b)
      | _, _ => .error (.abort "Bad range %s" range)

/-- The loop of `parseIntSegments`. -/
def segmentsLoop : Nat → Bytes → SegList → Except Failure SegList
  | 0, _, sgl => .ok sgl
  | _ + 1, [], sgl => .ok sgl
  | fuel + 1, i, sgl =>
    match i.takeWhile (· ≠ 0x2c) with
    | [] => segmentsLoop fuel i.tail sgl
    | range =>
      match segment range with
      | .error e => .error e
      | .ok (a, b) => segmentsLoop fuel (i.dropWhile (· ≠ 0x2c)).tail (sgl.add a b)

def parseIntSegments (src : Bytes) : Except Failure SegList :=
  segmentsLoop (src.length + 1) src .empty

/-- An `int` as a `size_t`. -/
def toSize (n : Int) : Nat := if 0 ≤ n then n.toNat else (2 ^ 64 + n).toNat

/-- The loops over the files from the `i`-th on. Of a file there is what `requested_` says. -/
def filterLoop : Nat → List Bool → SegList → List Bool
  | _, [], _ => []
  | i, requested :: files, sgl =>
    if sgl.hasNext then
      let idx := toSize (sgl.peek - 1)
      if i = idx then true :: filterLoop (i + 1) files sgl.next.2
      else (if i < idx then false else requested) :: filterLoop (i + 1) files sgl
    else false :: filterLoop (i + 1) files sgl

/-- It is `none` where the assertion fails. -/
def setFileFilter (files : List Bool) (sgl : SegList) : Option (List Bool) :=
  if ¬sgl.hasNext ∨ files.length = 1 then some (files.map fun _ => true)
  else if 1 ≤ sgl.peek then some (filterLoop 0 files sgl)
  else none

/-- What the creation of a download does with the option. -/
def selectFiles (src : Bytes) (files : List Bool) : Except Failure (Option (List Bool)) :=
  (parseIntSegments src).map fun sgl => setFileFilter files sgl.normalize

/-! ## What is written -/

/-- A number, or a first and a last number. -/
def writtenRange (range : Bytes) : Option (Int × Int) :=
  match range.dropWhile (· ≠ 0x2d) with
  | [] => (parseIntNoThrow range).map fun a => (a, a)
  | _ :: last =>
    let first := range.takeWhile (· ≠ 0x2d)
    if first = [] ∨ last = [] then none
    else (parseIntNoThrow first).bind fun a => (parseIntNoThrow last).map fun b => (a, b)

/-- The numbers and ranges between the commas. Where there is another thing it is `none`. -/
def written (src : Bytes) : Option (List (Int × Int)) :=
  ((src.splitOn 0x2c).filter (· ≠ [])).mapM writtenRange

/-- `v` is in the union of numbers and ranges. -/
def Selected (ranges : List (Int × Int)) (v : Int) : Prop := ∃ p ∈ ranges, p.1 ≤ v ∧ v ≤ p.2

theorem segment_eq (range : Bytes) : match writtenRange range with
    | none => ∃ what, segment range = .error (.abort what range)
    | some p => segment range = (succ p.2).map fun b => (p.1, b) := by
  rw [writtenRange, segment]
  generalize range.dropWhile (· ≠ 0x2d) = minus
  match minus with
  | [] =>
    rcases parseIntNoThrow range with _ | a
    · exact ⟨_, rfl⟩
    · rfl
  | _ :: last =>
    dsimp only
    by_cases hempty : range.takeWhile (· ≠ 0x2d) = [] ∨ last = []
    · rw [if_pos hempty, if_pos hempty]
      exact ⟨_, rfl⟩
    · rw [if_neg hempty, if_neg hempty]
      rcases parseIntNoThrow (range.takeWhile (· ≠ 0x2d)) with _ | a <;>
        rcases parseIntNoThrow last with _ | b
      · exact ⟨_, rfl⟩
      · exact ⟨_, rfl⟩
      · exact ⟨_, rfl⟩
      · rfl

theorem writtenRange_range {range : Bytes} {p : Int × Int} (h : writtenRange range = some p) :
    -2 ^ 31 ≤ p.1 ∧ p.2 ≤ 2 ^ 31 - 1 := by
  rw [writtenRange] at h
  split at h
  · obtain ⟨a, ha, rfl⟩ := Option.map_eq_some_iff.mp h
    exact parseIntNoThrow_range ha
  · dsimp only at h
    split at h
    · exact nomatch h
    · obtain ⟨a, ha, h⟩ := Option.bind_eq_some_iff.mp h
      obtain ⟨b, hb, rfl⟩ := Option.map_eq_some_iff.mp h
      exact ⟨(parseIntNoThrow_range ha).1, (parseIntNoThrow_range hb).2⟩

theorem written_comma (i : Bytes) : written (0x2c :: i) = written i := by
  have hsplit : (0x2c :: i).splitOn 0x2c = [] :: i.splitOn 0x2c :=
    List.splitOn_append_cons_self_of_not_mem (List.not_mem_nil) i
  rw [written, hsplit, List.filter_cons_of_neg (by simp), written]

theorem written_cons {i range : Bytes} (h : i.takeWhile (· ≠ 0x2c) = range) (hne : range ≠ []) :
    written i = (writtenRange range).bind fun p =>
      (written (i.dropWhile (· ≠ 0x2c)).tail).map (p :: ·) := by
  have hnot : (0x2c : UInt8) ∉ range := fun hmem => by
    rw [← h] at hmem
    have hne := List.mem_takeWhile_imp hmem
    exact of_decide_eq_true hne rfl
  have happ := List.takeWhile_append_dropWhile (p := fun c : UInt8 => c ≠ 0x2c) (l := i)
  rw [h] at happ
  rcases hdrop : i.dropWhile (· ≠ 0x2c) with _ | ⟨c, rest⟩
  · rw [hdrop, List.append_nil] at happ
    have hw : written i = [range].mapM writtenRange := by
      rw [← happ, written, List.splitOn_eq_singleton hnot, List.filter_cons_of_pos (by simpa),
        List.filter_nil]
    rw [hdrop, hw, List.mapM_cons, List.mapM_nil]
    rcases writtenRange range with _ | p <;> rfl
  · have hc : c = 0x2c := by
      have := List.head?_dropWhile_not (fun c : UInt8 => c ≠ 0x2c) i
      rw [hdrop] at this
      simpa using this
    rw [hdrop, hc] at happ
    have hw : written i = (range :: (rest.splitOn 0x2c).filter (· ≠ [])).mapM writtenRange := by
      rw [← happ, written, List.splitOn_append_cons_self_of_not_mem hnot,
        List.filter_cons_of_pos (by simpa)]
    rw [hdrop, hw, List.mapM_cons, List.tail_cons, written]
    rcases writtenRange range with _ | p
    · rfl
    · rcases ((rest.splitOn 0x2c).filter (· ≠ [])).mapM writtenRange with _ | ps <;> rfl

/-- The loop adds what is written, unless a last number plus one is not an `int`. -/
theorem segmentsLoop_spec (fuel : Nat) (i : Bytes) (sgl : SegList) (h : i.length < fuel) :
    match written i with
    | none => ∃ e, segmentsLoop fuel i sgl = .error e
    | some ranges => segmentsLoop fuel i sgl =
      if ∃ p ∈ ranges, p.2 = 2 ^ 31 - 1 then .error .overflow
      else .ok (ranges.foldl (fun sgl p => sgl.add p.1 (p.2 + 1)) sgl) := by
  induction fuel generalizing i sgl with
  | zero => exact absurd h (Nat.not_lt_zero _)
  | succ fuel ih =>
    obtain _ | ⟨c, t⟩ := i
    · rw [show written [] = some [] from rfl]
      simp [segmentsLoop]
    · rw [segmentsLoop.eq_def]
      dsimp only
      rcases hrange : (c :: t).takeWhile (· ≠ 0x2c) with _ | ⟨b, range⟩
      · have hc : c = 0x2c := by
          by_contra hne
          rw [List.takeWhile_cons_of_pos (by simpa)] at hrange
          exact nomatch hrange
        rw [hc, written_comma, List.tail_cons]
        exact ih t sgl (by simpa using h)
      · have hlen : ((c :: t).dropWhile (· ≠ 0x2c)).tail.length < fuel := by
          have := (List.dropWhile_sublist (fun c : UInt8 => c ≠ 0x2c) (l := c :: t)).length_le
          rw [List.length_tail]
          rw [List.length_cons] at h this
          omega
        rw [written_cons hrange (List.cons_ne_nil b range), hrange]
        dsimp only
        generalize ((c :: t).dropWhile (· ≠ 0x2c)).tail = rest at hlen ⊢
        have hseg := segment_eq (b :: range)
        rcases hw : writtenRange (b :: range) with _ | p <;> rw [hw] at hseg <;> dsimp only at hseg
        · obtain ⟨what, hseg⟩ := hseg
          rw [hseg]
          exact ⟨_, rfl⟩
        · have hrec := ih rest (sgl.add p.1 (p.2 + 1)) hlen
          rw [hseg, succ]
          by_cases hmax : p.2 = 2 ^ 31 - 1
          · rw [if_pos hmax]
            rcases written rest with _ | ranges
            · exact ⟨_, rfl⟩
            · exact (if_pos ⟨p, .head _, hmax⟩).symm
          · rw [if_neg hmax]
            rcases hrest : written rest with _ | ranges <;> rw [hrest] at hrec
            · exact hrec
            · refine Eq.trans hrec ?_
              simp only [List.mem_cons, exists_eq_or_imp, hmax, false_or, List.foldl_cons]

/-! ## The walk over the files -/

/-- What is left behind the first value. -/
theorem mem_behind {r : Interval Int} {rs : List (Interval Int)} {v : Int} (hv : r.start < v) :
    (∃ s ∈ (if r.start + 1 = r.stop then rs else ⟨r.start + 1, r.stop⟩ :: rs), v ∈ s) ↔
      ∃ s ∈ r :: rs, v ∈ s := by
  simp only [List.mem_cons, exists_eq_or_imp]
  split
  · refine (or_iff_right ?_).symm
    rintro ⟨-, hlt⟩
    omega
  · simp only [List.mem_cons, exists_eq_or_imp]
    refine or_congr ?_ Iff.rfl
    simp only [Interval.mem_def]
    omega

/-- Where the values that are left are those of files still to come, the files are marked that they
select, and no others. -/
theorem filterLoop_spec (i : Nat) (files : List Bool) {sgl : SegList} {rs : List (Interval Int)}
    (hat : sgl.At rs) (hsort : rs.Pairwise fun r s => r.stop < s.start)
    (hlow : ∀ r ∈ rs, (i + 1 : Int) ≤ r.start) : filterLoop i files sgl =
      (List.range files.length).map fun k => decide (∃ r ∈ rs, ((i + k + 1 : Nat) : Int) ∈ r) := by
  induction files generalizing i sgl rs with
  | nil => rfl
  | cons requested files ih =>
    rw [filterLoop, List.length_cons, List.range_succ_eq_map, List.map_cons, List.map_map]
    obtain _ | ⟨r, rs⟩ := rs
    · rw [hat.hasNext_nil, ih (i + 1) hat hsort (by simp)]
      simp
    · obtain ⟨hnext, hat'⟩ := hat.next_cons
      obtain ⟨hfirst, hsort'⟩ := List.pairwise_cons.mp hsort
      have hlt := hat.nonempty r (.head _)
      have hr := hlow r (.head _)
      have hidx : toSize (r.start - 1) = (r.start - 1).toNat := if_pos (by omega)
      rw [hat.hasNext_cons, if_pos rfl, hat.peek_cons, hidx]
      dsimp only
      split
      · -- the file is the next value
        rename_i hi
        have hsort'' : (if r.start + 1 = r.stop then rs else ⟨r.start + 1, r.stop⟩ :: rs).Pairwise
            fun r s => r.stop < s.start := by
          split
          · exact hsort'
          · exact .cons hfirst hsort'
        have hlow' : ∀ s ∈ (if r.start + 1 = r.stop then rs else ⟨r.start + 1, r.stop⟩ :: rs),
            ((i + 1 : Nat) + 1 : Int) ≤ s.start := by
          have hrs : ∀ s ∈ rs, ((i + 1 : Nat) + 1 : Int) ≤ s.start := fun s hs => by
            have := hfirst s hs
            omega
          split
          · exact hrs
          · exact List.forall_mem_cons.mpr ⟨by dsimp only; omega, hrs⟩
        have hhead : ∃ s ∈ r :: rs, ((i + 0 + 1 : Nat) : Int) ∈ s :=
          ⟨r, .head _, by omega, by omega⟩
        rw [ih (i + 1) hat' hsort'' hlow', decide_eq_true hhead]
        refine congrArg _ (List.map_congr_left fun k _ => decide_eq_decide.mpr ?_)
        rw [mem_behind (by omega), Nat.succ_eq_add_one, show i + 1 + k = i + (k + 1) by omega]
      · -- the next value is that of a file behind
        rename_i hi
        have hlow' : ∀ s ∈ r :: rs, ((i + 1 : Nat) + 1 : Int) ≤ s.start :=
          List.forall_mem_cons.mpr ⟨by omega, fun s hs => by have := hfirst s hs; omega⟩
        have hhead : ¬∃ s ∈ r :: rs, ((i + 0 + 1 : Nat) : Int) ∈ s := by
          rintro ⟨s, hs, hmem, -⟩
          have := hlow' s hs
          omega
        rw [if_pos (by omega), ih (i + 1) hat hsort hlow', decide_eq_false hhead]
        refine congrArg _ (List.map_congr_left fun k _ => decide_eq_decide.mpr ?_)
        rw [Nat.succ_eq_add_one, show i + 1 + k = i + (k + 1) by omega]

/-! ## The claim of the option -/

/-- The additions of a sequence of ranges to an iterator at its start. -/
theorem foldl_add (ranges : List (Int × Int)) {sgl : SegList} (h : sgl.Fresh)
    (hmin : ∀ p ∈ ranges, SegList.minimum ≤ p.1) :
    (ranges.foldl (fun sgl p => sgl.add p.1 (p.2 + 1)) sgl).Fresh ∧
      ∀ v, (∃ r ∈ (ranges.foldl (fun sgl p => sgl.add p.1 (p.2 + 1)) sgl).segs, v ∈ r) ↔
        (∃ r ∈ sgl.segs, v ∈ r) ∨ Selected ranges v := by
  induction ranges generalizing sgl with
  | nil => exact ⟨h, fun v => by simp [Selected]⟩
  | cons p ranges ih =>
    obtain ⟨hp, hmin⟩ := List.forall_mem_cons.mp hmin
    obtain ⟨hfresh, hsegs⟩ := h.add p.1 hp (p.2 + 1)
    obtain ⟨hall, hpoints⟩ := ih hfresh hmin
    refine ⟨hall, fun v => ?_⟩
    rw [List.foldl_cons, hpoints, hsegs]
    simp only [Selected, List.mem_cons, exists_eq_or_imp]
    rw [← or_assoc]
    refine or_congr ?_ Iff.rfl
    split
    · simp only [List.mem_append, List.mem_singleton, or_and_right, exists_or, exists_eq_left]
      refine or_congr Iff.rfl ?_
      rw [Interval.mem_def]
      dsimp only
      omega
    · rw [or_iff_left]
      omega

/-- A string of numbers from 1 on selects, of two files or more, those whose number is written. -/
def SelectsWritten (src : Bytes) : Prop :=
  ∀ ranges, written src = some ranges → (∀ p ∈ ranges, 1 ≤ p.1 ∧ 1 ≤ p.2) →
    (∃ v, Selected ranges v) → ∀ files : List Bool, 2 ≤ files.length →
      ∃ files', selectFiles src files = .ok (some files') ∧ files'.length = files.length ∧
        ∀ i < files.length, files'[i]? = some true ↔ Selected ranges (i + 1)

/-- No number and no last number of a range is the greatest `int`. -/
def SuccessorsFit (src : Bytes) : Prop :=
  ∀ ranges, written src = some ranges → (∀ p ∈ ranges, 1 ≤ p.1 ∧ 1 ≤ p.2) →
    (∃ v, Selected ranges v) → ∀ p ∈ ranges, p.2 ≠ 2 ^ 31 - 1

theorem parseIntSegments_spec {src : Bytes} {ranges : List (Int × Int)}
    (h : written src = some ranges) : parseIntSegments src =
      if ∃ p ∈ ranges, p.2 = 2 ^ 31 - 1 then .error .overflow
      else .ok (ranges.foldl (fun sgl p => sgl.add p.1 (p.2 + 1)) .empty) := by
  have hspec := segmentsLoop_spec (src.length + 1) src .empty (Nat.lt_succ_self _)
  rwa [h] at hspec

theorem mem_mapM_some {α β : Type} {f : α → Option β} {l : List α} {ys : List β}
    (h : l.mapM f = some ys) : ∀ y ∈ ys, ∃ x, f x = some y := by
  induction l generalizing ys with
  | nil =>
    rw [← Option.some.inj h]
    exact nofun
  | cons x l ih =>
    rw [List.mapM_cons] at h
    obtain ⟨y, hy, h⟩ := Option.bind_eq_some_iff.mp h
    obtain ⟨ys', hys, h⟩ := Option.bind_eq_some_iff.mp h
    rw [← Option.some.inj h]
    exact List.forall_mem_cons.mpr ⟨⟨x, hy⟩, ih hys⟩

theorem written_min {src : Bytes} {ranges : List (Int × Int)} (h : written src = some ranges) :
    ∀ p ∈ ranges, SegList.minimum ≤ p.1 := by
  intro p hp
  obtain ⟨range, hrange⟩ := mem_mapM_some h p hp
  exact (writtenRange_range hrange).1

theorem selectsWritten_iff (src : Bytes) : SelectsWritten src ↔ SuccessorsFit src := by
  constructor
  · intro h ranges hw hone hv p hp hmax
    obtain ⟨files', hsel, -⟩ := h ranges hw hone hv [false, false] le_rfl
    rw [selectFiles, parseIntSegments_spec hw, if_pos ⟨p, hp, hmax⟩] at hsel
    exact nomatch hsel
  · intro h ranges hw hone hv files hfiles
    have hfit : ¬∃ p ∈ ranges, p.2 = 2 ^ 31 - 1 := fun ⟨p, hp, hmax⟩ =>
      h ranges hw hone hv p hp hmax
    obtain ⟨hadd, hadded⟩ := foldl_add ranges SegList.fresh_empty (written_min hw)
    obtain ⟨hfresh, hsep, hpoints⟩ := hadd.normalize
    rw [selectFiles, parseIntSegments_spec hw, if_neg hfit, Except.map]
    generalize (ranges.foldl (fun sgl p => sgl.add p.1 (p.2 + 1)) SegList.empty).normalize = sgl
      at hfresh hsep hpoints
    have hall : ∀ v, (∃ r ∈ sgl.segs, v ∈ r) ↔ Selected ranges v := fun v => by
      rw [hpoints, hadded]
      simp [SegList.empty]
    have hat := hfresh.at_start
    obtain ⟨v, hv⟩ := hv
    -- the union is not empty, so that there is a first value
    obtain ⟨r, rs, hsegs⟩ : ∃ r rs, sgl.segs = r :: rs := by
      obtain ⟨r, hr, -⟩ := (hall v).mpr hv
      exact List.exists_cons_of_ne_nil (List.ne_nil_of_mem hr)
    have hlow : ∀ r ∈ sgl.segs, (1 : Int) ≤ r.start := fun r hr => by
      obtain ⟨p, hp, hle, -⟩ := (hall r.start).mp ⟨r, hr, le_rfl, hfresh.nonempty r hr⟩
      exact (hone p hp).1.trans hle
    have hwalk := filterLoop_spec 0 files hat hsep.sorted (by simpa using hlow)
    have hcall : setFileFilter files sgl = some (filterLoop 0 files sgl) := by
      have hat' := hat
      rw [hsegs] at hat'
      rw [setFileFilter, hat'.hasNext_cons, hat'.peek_cons, if_neg (by simp; omega),
        if_pos (hlow r (hsegs ▸ .head _))]
    refine ⟨filterLoop 0 files sgl, by rw [← hcall], by rw [hwalk]; simp, fun i hi => ?_⟩
    rw [hwalk, List.getElem?_map, List.getElem?_range hi, Option.map_some, Option.some_inj,
      decide_eq_true_iff, hall, Nat.zero_add]
    push_cast
    rfl

/-- The option selects the files whose numbers are written, and a list of segments yields what was
added in ascending order: exactly where the successors of the last numbers are `int`s, and where
what is added after the last normalisation is added in ascending order. -/
theorem selection_iff (src : Bytes) (ops : List SegList.Op) :
    (SelectsWritten src ∧
      ∃ vs, (SegList.run ops).Yields vs ∧ vs.Pairwise (· < ·) ∧
        ∀ v, v ∈ vs ↔ SegList.Added ops v) ↔
      SuccessorsFit src ∧ SegList.Rising ops :=
  and_congr (selectsWritten_iff src) (SegList.yields_added_iff ops)

/-- `"2147483647"`, for two files. -/
theorem selection_counterexample : ¬∀ (src : Bytes) (ops : List SegList.Op), SelectsWritten src ∧
    ∃ vs, (SegList.run ops).Yields vs ∧ vs.Pairwise (· < ·) ∧
      ∀ v, v ∈ vs ↔ SegList.Added ops v := by
  intro h
  have hw : written "2147483647".toUTF8.toList = some [(2 ^ 31 - 1, 2 ^ 31 - 1)] := by
    decide +kernel
  refine (selectsWritten_iff _).mp (h "2147483647".toUTF8.toList []).1 _ hw ?_
    ⟨2 ^ 31 - 1, _, .head _, le_rfl, le_rfl⟩ (2 ^ 31 - 1, 2 ^ 31 - 1) (.head _) rfl
  simp

end FluxCore.Request
