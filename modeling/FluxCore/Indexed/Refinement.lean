import FluxCore.Indexed.IndexedList

/-!
# Refinement of a list of distinct keys

Each operation of `IndexedList` keeps both members coherent and does to the sequence what it does to
a plain list, and so does a run of operations, as long as the sum in `move` does not overflow.
-/

namespace FluxCore.Indexed

variable {κ α : Type} [DecidableEq κ] [Hashable κ]

/-! ## The operations -/

variable {l : IndexedList κ α} {s : List (κ × α)} {k : κ} {v : α} {op : Op κ α}

omit [DecidableEq κ] [Hashable κ] in
/-- Where the only pair of a key is. -/
theorem split_of_mem (hs : (keys s).Nodup) (hk : k ∈ keys s) :
    ∃ front v back, s = front ++ (k, v) :: back ∧ ∀ e ∈ front ++ back, e.1 ≠ k := by
  obtain ⟨⟨k', v⟩, he, rfl⟩ := List.mem_map.mp hk
  obtain ⟨front, back, rfl⟩ := List.append_of_mem he
  refine ⟨front, v, back, rfl, fun e he heq => ?_⟩
  have hperm : (front ++ (k', v) :: back).Perm ((k', v) :: (front ++ back)) := List.perm_middle
  exact (List.nodup_cons.mp (((hperm.map Prod.fst).nodup_iff).mp hs)).1
    (List.mem_map.mpr ⟨e, he, heq⟩)

omit [Hashable κ] in
theorem filter_ne_of_split {front back : List (κ × α)} (h : ∀ e ∈ front ++ back, e.1 ≠ k) :
    (front ++ (k, v) :: back).filter (fun e => e.1 ≠ k) = front ++ back := by
  obtain ⟨hfront, hback⟩ := List.forall_mem_append.mp h
  rw [List.filter_append, List.filter_cons_of_neg (by simp),
    List.filter_eq_self.mpr fun e he => by simpa using hfront e he,
    List.filter_eq_self.mpr fun e he => by simpa using hback e he]

omit [Hashable κ] in
theorem filter_ne_of_notMem (hk : k ∉ keys s) : s.filter (fun e => e.1 ≠ k) = s :=
  List.filter_eq_self.mpr fun e he => by
    simpa using fun h : e.1 = k => hk (h ▸ List.mem_map_of_mem he)

omit [Hashable κ] in
/-- The first pair of a key is the only one. -/
theorem eraseP_eq_filter (hs : (keys s).Nodup) :
    s.eraseP (fun e => e.1 = k) = s.filter fun e => e.1 ≠ k := by
  by_cases hk : k ∈ keys s
  · obtain ⟨front, v, back, rfl, hne⟩ := split_of_mem hs hk
    rw [filter_ne_of_split hne, List.eraseP_append_right _ fun e he => by
      simpa using hne e (List.mem_append_left _ he), List.eraseP_cons_of_pos (by simp)]
  · rw [filter_ne_of_notMem hk, List.eraseP_of_forall_not fun e he => by
      simpa using fun h : e.1 = k => hk (h ▸ List.mem_map_of_mem he)]

omit [Hashable κ] in
theorem filter_eq_of_split {front back : List (κ × α)} (h : ∀ e ∈ front ++ back, e.1 ≠ k) :
    (front ++ (k, v) :: back).filter (fun e => e.1 = k) = [(k, v)] := by
  obtain ⟨hfront, hback⟩ := List.forall_mem_append.mp h
  rw [List.filter_append, List.filter_cons_of_pos (by simp),
    List.filter_eq_nil_iff.mpr fun e he => by simpa using hfront e he,
    List.filter_eq_nil_iff.mpr fun e he => by simpa using hback e he, List.nil_append]

omit [Hashable κ] in
theorem findIdx_of_split {front back : List (κ × α)} (h : ∀ e ∈ front ++ back, e.1 ≠ k) :
    (front ++ (k, v) :: back).findIdx (fun e => e.1 = k) = front.length := by
  have hfront : front.findIdx (fun e => decide (e.1 = k)) = front.length :=
    List.findIdx_eq_length.mpr fun e he => by
      simpa using h e (List.mem_append_left _ he)
  rw [List.findIdx_append, if_neg (by rw [hfront]; exact Nat.lt_irrefl _), List.findIdx_cons]
  simp

/-- An operation that ends does what it does to the reference list. -/
def Refines (l : IndexedList κ α) (op : Op κ α) : Prop :=
  ∃ p, l.apply op = some p ∧ Coherent p.1 ∧ (p.1.seq, p.2) = op.reference l.seq

theorem refines_push_back (hl : Coherent l) (k : κ) (v : α) : Refines l (.push_back k v) := by
  refine ⟨_, rfl, ?_⟩
  rw [Op.reference, IndexedList.push_back]
  by_cases hk : k ∈ keys l.seq
  · rw [if_pos (hl.contains_iff.mpr hk), if_pos hk]
    exact ⟨hl, rfl⟩
  · rw [if_neg fun h => hk (hl.contains_iff.mp h), if_neg hk]
    exact ⟨hl.insert hk List.perm_append_comm, rfl⟩

theorem refines_push_front (hl : Coherent l) (k : κ) (v : α) : Refines l (.push_front k v) := by
  refine ⟨_, rfl, ?_⟩
  rw [Op.reference, IndexedList.push_front]
  by_cases hk : k ∈ keys l.seq
  · rw [if_pos (hl.contains_iff.mpr hk), if_pos hk]
    exact ⟨hl, rfl⟩
  · rw [if_neg fun h => hk (hl.contains_iff.mp h), if_neg hk]
    exact ⟨hl.insert hk (.refl _), rfl⟩

theorem insertBefore_spec (hl : Coherent l) {dest : Nat} (hdest : dest ≤ l.seq.length) (k : κ)
    (v : α) : Coherent (l.insertBefore dest k v).1 ∧
      ((l.insertBefore dest k v).1.seq, Result.iterator (l.insertBefore dest k v).2) =
        (Op.insertBefore dest k v).reference l.seq := by
  rw [Op.reference, IndexedList.insertBefore]
  by_cases hk : k ∈ keys l.seq
  · rw [if_pos (hl.contains_iff.mpr hk), if_pos hk]
    exact ⟨hl, rfl⟩
  · rw [if_neg fun h => hk (hl.contains_iff.mp h), if_neg hk]
    exact ⟨hl.insert hk (List.perm_insertIdx _ _ hdest), rfl⟩

theorem refines_insertBefore (hl : Coherent l) {dest : Nat} (hdest : dest ≤ l.seq.length) (k : κ)
    (v : α) : Refines l (.insertBefore dest k v) :=
  ⟨_, if_neg (Nat.not_lt.mpr hdest), insertBefore_spec hl hdest k v⟩

theorem refines_insertAt (hl : Coherent l) (dest : Nat) (k : κ) (v : α) :
    Refines l (.insertAt dest k v) := by
  refine ⟨_, rfl, ?_⟩
  rw [IndexedList.insertAt, Op.reference, IndexedList.size, hl.size]
  by_cases hdest : l.seq.length < dest
  · rw [if_pos hdest, if_pos (.inl hdest)]
    exact ⟨hl, rfl⟩
  · have h := insertBefore_spec hl (Nat.not_lt.mp hdest) k v
    rw [if_neg hdest]
    simp only [hdest, false_or]
    exact h

/-- What a range adds to both members. -/
theorem collect_spec (hl : Coherent l) (vs : List (κ × α)) :
    (collect l.index vs).2 = fresh (keys l.seq) vs ∧
      Coherent ⟨(collect l.index vs).2 ++ l.seq, (collect l.index vs).1⟩ := by
  induction vs generalizing l with
  | nil => exact ⟨rfl, hl⟩
  | cons e vs ih =>
    rw [collect, fresh]
    by_cases hk : e.1 ∈ keys l.seq
    · rw [if_pos (hl.contains_iff.mpr hk), if_pos hk]
      exact ih hl
    · rw [if_neg fun h => hk (hl.contains_iff.mp h), if_neg hk]
      obtain ⟨hfresh, hcoherent⟩ := ih (hl.insert (v := e.2) hk (.refl _))
      exact ⟨congrArg (e :: ·) hfresh, hcoherent.perm List.perm_middle.symm⟩

theorem insertRangeBefore_spec (hl : Coherent l) (dest : Nat) (vs : List (κ × α)) :
    Coherent (l.insertRangeBefore dest vs) ∧ (l.insertRangeBefore dest vs).seq =
      l.seq.take dest ++ (fresh (keys l.seq) vs ++ l.seq.drop dest) := by
  obtain ⟨hfresh, hcoherent⟩ := collect_spec hl vs
  rw [IndexedList.insertRangeBefore]
  refine ⟨hcoherent.perm ?_, by rw [hfresh]⟩
  refine (List.perm_append_comm_assoc ..).trans (.append_left _ ?_)
  rw [List.take_append_drop]

theorem refines_insertRangeBefore (hl : Coherent l) {dest : Nat} (hdest : dest ≤ l.seq.length)
    (vs : List (κ × α)) : Refines l (.insertRangeBefore dest vs) := by
  obtain ⟨hcoherent, hseq⟩ := insertRangeBefore_spec hl dest vs
  exact ⟨_, if_neg (Nat.not_lt.mpr hdest), hcoherent, by rw [Op.reference, hseq]⟩

theorem refines_insertRangeAt (hl : Coherent l) (pos : Nat) (vs : List (κ × α)) :
    Refines l (.insertRangeAt pos vs) := by
  refine ⟨_, rfl, ?_⟩
  rw [IndexedList.insertRangeAt, Op.reference, IndexedList.size, hl.size]
  by_cases hpos : l.seq.length < pos
  · rw [if_pos hpos, if_pos hpos]
    exact ⟨hl, rfl⟩
  · obtain ⟨hcoherent, hseq⟩ := insertRangeBefore_spec hl pos vs
    rw [if_neg hpos, if_neg hpos, hseq]
    exact ⟨hcoherent, rfl⟩

theorem refines_remove (hl : Coherent l) (k : κ) : Refines l (.remove k) := by
  refine ⟨_, rfl, ?_⟩
  rw [Op.reference, IndexedList.remove]
  by_cases hk : k ∈ keys l.seq
  · obtain ⟨front, v, back, hseq, hne⟩ := split_of_mem hl.nodup hk
    rw [if_pos (hl.contains_iff.mpr hk), eraseP_eq_filter hl.nodup, decide_eq_true hk]
    refine ⟨hl.erase (v := v) ?_, rfl⟩
    rw [hseq, filter_ne_of_split hne]
    exact List.perm_middle
  · rw [if_neg fun h => hk (hl.contains_iff.mp h), filter_ne_of_notMem hk, decide_eq_false hk]
    exact ⟨hl, rfl⟩

theorem refines_erase (hl : Coherent l) {pos : Nat} (hpos : pos < l.seq.length) :
    Refines l (.erase pos) := by
  have hget : l.seq[pos]? = some l.seq[pos] := List.getElem?_eq_getElem hpos
  refine ⟨_, by rw [IndexedList.apply, IndexedList.erase, hget]; rfl, ?_, rfl⟩
  exact hl.erase (v := l.seq[pos].2) (List.getElem_cons_eraseIdx_perm hpos).symm

theorem removeLoop_spec (pred : α → Bool) (front : List (κ × α)) {index : Std.HashMap κ α}
    (h : Coherent ⟨front ++ s, index⟩) :
    (removeLoop pred index s).2 = s.filter (fun e => !pred e.2) ∧
      Coherent ⟨front ++ (removeLoop pred index s).2, (removeLoop pred index s).1⟩ := by
  induction s generalizing front index with
  | nil => exact ⟨rfl, h⟩
  | cons e s ih =>
    rw [removeLoop]
    by_cases he : pred e.2 = true
    · rw [if_pos he, List.filter_cons_of_neg (by simpa using he)]
      exact ih front (h.erase (v := e.2) List.perm_middle)
    · rw [if_neg he, List.filter_cons_of_pos (by simpa using he)]
      rw [← List.singleton_append, ← List.append_assoc] at h
      obtain ⟨hkept, hcoherent⟩ := ih (front ++ [e]) h
      rw [List.append_assoc, List.singleton_append] at hcoherent
      exact ⟨congrArg (e :: ·) hkept, hcoherent⟩

theorem refines_remove_if (hl : Coherent l) (pred : α → Bool) : Refines l (.remove_if pred) := by
  obtain ⟨hkept, hcoherent⟩ := removeLoop_spec pred [] (s := l.seq) hl
  exact ⟨_, rfl, hcoherent, by rw [Op.reference, IndexedList.remove_if, hkept]⟩

theorem refines_pop_front (hl : Coherent l) : Refines l .pop_front := by
  refine ⟨_, rfl, ?_⟩
  rw [Op.reference, IndexedList.pop_front]
  rcases hseq : l.seq with - | ⟨e, s⟩
  · exact ⟨hl, congrArg (·, Result.bool false) hseq⟩
  · exact ⟨hl.erase (v := e.2) (hseq ▸ .refl _), rfl⟩

/-! ## Moving -/

omit [DecidableEq κ] [Hashable κ] in
theorem rotate_right (front back : List (κ × α)) (e : κ × α) {d : Nat} (h : front.length < d) :
    rotate (front ++ e :: back) front.length (front.length + 1) (d + 1) =
      (front ++ back).take d ++ ([e] ++ (front ++ back).drop d) := by
  obtain ⟨n, rfl⟩ := Nat.exists_eq_add_of_lt h
  have hlast : front.length + n + 1 + 1 - (front.length + 1) = n + 1 := by omega
  have hone : front.length + 1 - front.length = 1 := by omega
  rw [rotate, hlast, hone, List.take_left, List.drop_left, List.take_succ_cons, List.take_zero,
    Nat.add_assoc front.length n 1, Nat.add_assoc front.length (n + 1) 1,
    List.drop_length_add_append, List.drop_length_add_append, List.drop_length_add_append,
    List.take_length_add_append]
  simp only [List.drop_succ_cons, List.drop_zero, List.append_assoc]

omit [DecidableEq κ] [Hashable κ] in
theorem rotate_left (front back : List (κ × α)) (e : κ × α) {d : Nat} (h : d ≤ front.length) :
    rotate (front ++ e :: back) d front.length (front.length + 1) =
      (front ++ back).take d ++ ([e] ++ (front ++ back).drop d) := by
  have hone : front.length + 1 - front.length = 1 := by omega
  have hlen : front.length - d = (front.drop d).length := List.length_drop.symm
  rw [rotate, hone, List.take_append_of_le_length h, List.drop_left,
    List.drop_append_of_le_length h, List.take_append_of_le_length h,
    List.drop_append_of_le_length h, hlen, List.take_left, List.drop_length_add_append]
  simp only [List.take_succ_cons, List.take_zero, List.drop_succ_cons, List.drop_zero,
    List.append_assoc]

omit [Hashable κ] in
theorem moved_eq {front back : List (κ × α)} (h : ∀ e ∈ front ++ back, e.1 ≠ k) (d : Nat) :
    moved (front ++ (k, v) :: back) k d =
      (front ++ back).take d ++ ([(k, v)] ++ (front ++ back).drop d) := by
  rw [moved, filter_ne_of_split h, filter_eq_of_split h]

omit [Hashable κ] in
theorem moved_perm (hs : (keys s).Nodup) (hk : k ∈ keys s) (d : Nat) : (moved s k d).Perm s := by
  obtain ⟨front, v, back, rfl, hne⟩ := split_of_mem hs hk
  rw [moved_eq hne]
  refine (List.perm_append_comm_assoc ..).trans (.trans ?_ List.perm_middle.symm)
  rw [List.take_append_drop]
  exact .refl _

omit [Hashable κ] in
/-- The element goes to its place, to the right or to the left. -/
theorem rotate_eq_moved (hs : (keys s).Nodup) (hk : k ∈ keys s) (d : Nat) :
    (if (s.findIdx fun e => e.1 = k) < d then
      rotate s (s.findIdx fun e => e.1 = k) ((s.findIdx fun e => e.1 = k) + 1) (d + 1)
    else rotate s d (s.findIdx fun e => e.1 = k) ((s.findIdx fun e => e.1 = k) + 1)) =
      moved s k d := by
  obtain ⟨front, v, back, rfl, hne⟩ := split_of_mem hs hk
  rw [findIdx_of_split hne, moved_eq hne]
  split
  next hlt => exact rotate_right front back (k, v) hlt
  next hge => exact rotate_left front back (k, v) (Nat.not_lt.mp hge)

omit [Hashable κ] in
/-- Where `move` goes is inside the list, if the sum does not overflow. -/
theorem moveDest_eq (hk : k ∈ keys s) (offset : Int64) {how : OffsetMode} (hhow : how ≠ .invalid)
    (hfits : (Op.move k offset how : Op κ α).Fits s) :
    IndexedList.moveDest (s.findIdx fun e => e.1 = k) s.length offset.toInt how =
      some (target s k offset.toInt how : Int) := by
  have hidx : s.findIdx (fun e => e.1 = k) < s.length := by
    obtain ⟨e, he, hek⟩ := List.mem_map.mp hk
    exact List.findIdx_lt_length_of_exists ⟨e, he, by simpa using hek⟩
  have hlow := offset.le_toInt
  cases how with
  | OFFSET_MODE_SET =>
    rw [IndexedList.moveDest, target, Option.some.injEq]
    omega
  | OFFSET_MODE_CUR =>
    have hfits := hfits hk
    have hsum : ssize ((s.findIdx fun e => e.1 = k) + offset.toInt) =
        some ((s.findIdx fun e => e.1 = k) + offset.toInt) := if_pos (by omega)
    rw [IndexedList.moveDest, target, hsum, Option.map_some, Option.map_some]
    split
    · rw [Option.some.injEq]
      omega
    · rw [Option.some.injEq]
      omega
  | OFFSET_MODE_END =>
    have hfits := hfits hk
    have hsum : ssize (s.length - 1 + offset.toInt) = some (s.length - 1 + offset.toInt) :=
      if_pos (by omega)
    rw [IndexedList.moveDest, target, hsum, Option.map_some, Option.some.injEq]
    omega
  | invalid => exact absurd rfl hhow

omit [Hashable κ] in
theorem fits_of_moveDest {offset : Int64} {how : OffsetMode} (hhow : how ≠ .invalid)
    (h : IndexedList.moveDest (s.findIdx fun e => e.1 = k) s.length offset.toInt how ≠ none) :
    (Op.move k offset how : Op κ α).Fits s := by
  cases how with
  | OFFSET_MODE_SET => trivial
  | OFFSET_MODE_CUR =>
    intro _
    by_contra hbad
    have hsum : ssize ((s.findIdx fun e => e.1 = k) + offset.toInt) = none := if_neg (by omega)
    rw [IndexedList.moveDest, hsum, Option.map_none, Option.map_none, ite_self] at h
    exact h rfl
  | OFFSET_MODE_END =>
    intro _
    by_contra hbad
    have hsum : ssize (s.length - 1 + offset.toInt) = none := if_neg (by omega)
    rw [IndexedList.moveDest, hsum, Option.map_none] at h
    exact h rfl
  | invalid => exact absurd rfl hhow

/-- A `move` that ends did not overflow. -/
theorem fits_of_move (hl : Coherent l) {offset : Int64} {how : OffsetMode}
    (h : l.apply (.move k offset how) ≠ none) : (Op.move k offset how : Op κ α).Fits l.seq := by
  by_cases hk : k ∈ keys l.seq
  · by_cases hhow : how = .invalid
    · subst hhow
      trivial
    · refine fits_of_moveDest hhow fun hnone => h ?_
      have hcontains : ¬l.index.contains k = false := by simpa using hl.contains_iff.mpr hk
      rw [IndexedList.apply, IndexedList.move, if_neg hcontains, if_neg hhow, IndexedList.size,
        hl.size]
      dsimp only
      rw [hnone]
      rfl
  · cases how with
    | OFFSET_MODE_SET | invalid => trivial
    | OFFSET_MODE_CUR | OFFSET_MODE_END => exact fun h => absurd h hk

theorem refines_move (hl : Coherent l) {offset : Int64} {how : OffsetMode}
    (hfits : (Op.move k offset how : Op κ α).Fits l.seq) : Refines l (.move k offset how) := by
  by_cases hk : k ∈ keys l.seq
  · have hcontains : ¬l.index.contains k = false := by simpa using hl.contains_iff.mpr hk
    by_cases hhow : how = .invalid
    · have happly : l.apply (.move k offset how) = some (l, .ssize (-1)) := by
        rw [IndexedList.apply, IndexedList.move, if_neg hcontains, if_pos hhow]
        rfl
      refine ⟨_, happly, hl, ?_⟩
      rw [Op.reference, if_neg fun h => h.2 hhow]
    · have happly : l.apply (.move k offset how) =
          some ({ l with seq := moved l.seq k (target l.seq k offset.toInt how) },
            .ssize (target l.seq k offset.toInt how)) := by
        rw [IndexedList.apply, IndexedList.move, if_neg hcontains, if_neg hhow, IndexedList.size,
          hl.size]
        dsimp only
        rw [moveDest_eq hk offset hhow hfits, Option.map_some, Option.map_some, Int.toNat_natCast,
          ← rotate_eq_moved hl.nodup hk]
        split
        next hlt => rw [if_pos (Int.ofNat_lt.mp hlt)]; rfl
        next hlt => rw [if_neg fun h => hlt (Int.ofNat_lt.mpr h)]; rfl
      refine ⟨_, happly, hl.perm (moved_perm hl.nodup hk _), ?_⟩
      rw [Op.reference, if_pos ⟨hk, hhow⟩]
  · have happly : l.apply (.move k offset how) = some (l, .ssize (-1)) := by
      have hcontains : l.index.contains k = false :=
        Bool.eq_false_iff.mpr fun h => hk (hl.contains_iff.mp h)
      rw [IndexedList.apply, IndexedList.move, if_pos hcontains]
      rfl
    refine ⟨_, happly, hl, ?_⟩
    rw [Op.reference, if_neg fun h => hk h.1]

/-- An operation that ends did not overflow. -/
theorem fits_of_apply (hl : Coherent l) (h : l.apply op ≠ none) : op.Fits l.seq := by
  cases op with
  | move key offset how => exact fits_of_move hl h
  | _ => trivial

/-- A step: an operation with valid iterators does what it does to the reference list, if its sum
does not overflow. -/
theorem refines_of_fits (hl : Coherent l) (hv : op.Valid l.seq) (hfits : op.Fits l.seq) :
    Refines l op := by
  cases op with
  | push_back key value => exact refines_push_back hl key value
  | push_front key value => exact refines_push_front hl key value
  | insertAt dest key value => exact refines_insertAt hl dest key value
  | insertBefore dest key value => exact refines_insertBefore hl hv key value
  | insertRangeBefore dest vs => exact refines_insertRangeBefore hl hv vs
  | insertRangeAt pos vs => exact refines_insertRangeAt hl pos vs
  | remove key => exact refines_remove hl key
  | erase k => exact refines_erase hl hv
  | remove_if pred => exact refines_remove_if hl pred
  | pop_front => exact refines_pop_front hl
  | move key offset how => exact refines_move hl hfits
  | clear => exact ⟨_, rfl, .empty, rfl⟩

/-! ## Runs -/

/-- Some operations, one after the other, and what they return. -/
def run (l : IndexedList κ α) : List (Op κ α) → Option (IndexedList κ α × List Result)
  | [] => some (l, [])
  | op :: ops =>
    (l.apply op).bind fun p => (run p.1 ops).map fun q => (q.1, p.2 :: q.2)

def referenceRun (s : List (κ × α)) : List (Op κ α) → List (κ × α) × List Result
  | [] => (s, [])
  | op :: ops =>
    let q := referenceRun (op.reference s).1 ops
    (q.1, (op.reference s).2 :: q.2)

/-- The iterators of all operations are valid. -/
def RunValid (s : List (κ × α)) : List (Op κ α) → Prop
  | [] => True
  | op :: ops => op.Valid s ∧ RunValid (op.reference s).1 ops

def RunFits (s : List (κ × α)) : List (Op κ α) → Prop
  | [] => True
  | op :: ops => op.Fits s ∧ RunFits (op.reference s).1 ops

/-- The list after a run holds what the reference list does, and each operation returned the same. -/
def RunRefines (l : IndexedList κ α) (ops : List (Op κ α)) : Prop :=
  ∃ p, run l ops = some p ∧ Coherent p.1 ∧ (p.1.seq, p.2) = referenceRun l.seq ops

/-- A run whose iterators are valid refines the reference list if and only if no sum overflows. -/
theorem runRefines_of_coherent (hl : Coherent l) {ops : List (Op κ α)} (hv : RunValid l.seq ops) :
    RunRefines l ops ↔ RunFits l.seq ops := by
  induction ops generalizing l with
  | nil => exact iff_of_true ⟨_, rfl, hl, rfl⟩ trivial
  | cons op ops ih =>
    obtain ⟨hop, hv⟩ := hv
    constructor
    · rintro ⟨q, hq, hcoherent, href⟩
      rw [run, Option.bind_eq_some_iff] at hq
      obtain ⟨p, hp, hq⟩ := hq
      rw [Option.map_eq_some_iff] at hq
      obtain ⟨q', hq', rfl⟩ := hq
      have hfits : op.Fits l.seq :=
        fits_of_apply hl (Option.ne_none_iff_exists'.mpr ⟨p, hp⟩)
      obtain ⟨p', hp', hc, hr⟩ := refines_of_fits hl hop hfits
      obtain rfl := Option.some.inj (hp.symm.trans hp')
      rw [← hr] at hv
      rw [referenceRun, ← hr] at href
      refine ⟨hfits, ?_⟩
      rw [← hr]
      exact (ih hc hv).mp ⟨q', hq', hcoherent, Prod.ext_iff.mpr (by simpa using href)⟩
    · rintro ⟨hfits, hrest⟩
      obtain ⟨p, hp, hc, hr⟩ := refines_of_fits hl hop hfits
      rw [← hr] at hv hrest
      obtain ⟨q, hq, hcoherent, href⟩ := (ih hc hv).mpr hrest
      refine ⟨(q.1, p.2 :: q.2), by rw [run, hp, Option.bind_some, hq]; rfl, hcoherent, ?_⟩
      rw [referenceRun, ← hr, ← href]

/-! ## Runs from the empty list -/

theorem run_refines_iff {ops : List (Op κ α)} (hv : RunValid [] ops) :
    RunRefines ({} : IndexedList κ α) ops ↔ RunFits [] ops :=
  runRefines_of_coherent .empty hv

theorem run_refines_iff_move : RunRefines ({} : IndexedList Nat Nat)
    [.push_back 1 10, .insertBefore 0 2 20, .move 2 1 .OFFSET_MODE_CUR, .erase 0] := by
  refine (run_refines_iff ?_).mpr ?_
  · exact ⟨trivial, Nat.zero_le _, trivial, by decide +kernel, trivial⟩
  · exact ⟨trivial, trivial, fun _ => by decide +kernel, trivial, trivial⟩

/-- The largest offset, from an element that is not the first one. -/
theorem run_refines_counterexample : ¬RunRefines ({} : IndexedList Nat Nat)
    [.push_back 1 10, .push_back 2 20, .move 2 Int64.maxValue .OFFSET_MODE_CUR] := by
  intro h
  have hv : RunValid ([] : List (Nat × Nat))
      [.push_back 1 10, .push_back 2 20, .move 2 Int64.maxValue .OFFSET_MODE_CUR] :=
    ⟨trivial, trivial, trivial, trivial⟩
  have hfits := (runRefines_of_coherent .empty hv).mp h
  exact absurd (hfits.2.2.1 (by decide +kernel)) (by decide +kernel)

end FluxCore.Indexed
