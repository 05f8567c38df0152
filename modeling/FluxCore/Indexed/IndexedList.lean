import Std.Data.HashMap.Lemmas
import Mathlib.Algebra.Ring.Int.Defs
import Mathlib.Data.List.Perm.Basic

/-!
# `IndexedList`

A deque of keys and values beside a hash map of the same pairs. Each operation changes both, and the
map answers whether a key is there. Signed arithmetic that overflows, and an iterator that is not
valid, are undefined behaviour, `none`.
-/

namespace FluxCore.Indexed

inductive OffsetMode where
  | OFFSET_MODE_SET
  | OFFSET_MODE_CUR
  | OFFSET_MODE_END
  | invalid
  deriving DecidableEq, Repr

/-- What an operation returns: an iterator is a position, `none` for `end()`. -/
inductive Result where
  | bool (b : Bool)
  | iterator (pos : Option Nat)
  | ssize (n : Int)
  | unit
  deriving DecidableEq, Repr

structure IndexedList (κ α : Type) [BEq κ] [Hashable κ] where
  seq : List (κ × α) := []
  index : Std.HashMap κ α := {}

variable {κ α : Type} [DecidableEq κ] [Hashable κ]

/-! ## Operations -/

/-- The pairs of a range whose keys are not there, and the index with them. -/
def collect (index : Std.HashMap κ α) : List (κ × α) → Std.HashMap κ α × List (κ × α)
  | [] => (index, [])
  | e :: es =>
    if index.contains e.1 then collect index es
    else
      let p := collect (index.insert e.1 e.2) es
      (p.1, e :: p.2)

/-- The loop of `remove_if`: what is kept moves up. -/
def removeLoop (pred : α → Bool) (index : Std.HashMap κ α) :
    List (κ × α) → Std.HashMap κ α × List (κ × α)
  | [] => (index, [])
  | e :: es =>
    if pred e.2 then removeLoop pred (index.erase e.1) es
    else
      let p := removeLoop pred index es
      (p.1, e :: p.2)

/-- `std::rotate` of the elements from `first` to `last`. -/
def rotate (s : List (κ × α)) (first middle last : Nat) : List (κ × α) :=
  s.take first ++ (s.drop middle).take (last - middle) ++ (s.drop first).take (middle - first) ++
    s.drop last

/-- A sum that overflows `ssize_t` is undefined. -/
def ssize (n : Int) : Option Int := if -2 ^ 63 ≤ n ∧ n < 2 ^ 63 then some n else none

namespace IndexedList

variable (l : IndexedList κ α)

def size : Nat := l.index.size

def push_back (key : κ) (value : α) : IndexedList κ α × Bool :=
  if l.index.contains key then (l, false)
  else (⟨l.seq ++ [(key, value)], l.index.insert key value⟩, true)

def push_front (key : κ) (value : α) : IndexedList κ α × Bool :=
  if l.index.contains key then (l, false)
  else (⟨(key, value) :: l.seq, l.index.insert key value⟩, true)

/-- `insert` before an iterator. -/
def insertBefore (dest : Nat) (key : κ) (value : α) : IndexedList κ α × Option Nat :=
  if l.index.contains key then (l, none)
  else (⟨l.seq.insertIdx dest (key, value), l.index.insert key value⟩, some dest)

/-- `insert` at a position. -/
def insertAt (dest : Nat) (key : κ) (value : α) : IndexedList κ α × Option Nat :=
  if l.size < dest then (l, none)
  else l.insertBefore dest key value

/-- `insert` of a range before an iterator. -/
def insertRangeBefore (dest : Nat) (vs : List (κ × α)) : IndexedList κ α :=
  let p := collect l.index vs
  ⟨l.seq.take dest ++ (p.2 ++ l.seq.drop dest), p.1⟩

/-- `insert` of a range at a position. -/
def insertRangeAt (pos : Nat) (vs : List (κ × α)) : IndexedList κ α :=
  if l.size < pos then l else l.insertRangeBefore pos vs

def remove (key : κ) : IndexedList κ α × Bool :=
  if l.index.contains key then
    (⟨l.seq.eraseP fun e => e.1 = key, l.index.erase key⟩, true)
  else (l, false)

/-- `erase`, where the iterator is valid. -/
def erase (k : Nat) : Option (IndexedList κ α × Option Nat) :=
  l.seq[k]?.map fun e => (⟨l.seq.eraseIdx k, l.index.erase e.1⟩, some k)

def remove_if (pred : α → Bool) : IndexedList κ α :=
  let p := removeLoop pred l.index l.seq
  ⟨p.2, p.1⟩

def pop_front : IndexedList κ α × Bool :=
  match l.seq with
  | [] => (l, false)
  | e :: es => (⟨es, l.index.erase e.1⟩, true)

/-- `dest` of `move`, for an element at `xp`. -/
def moveDest (xp size offset : Int) : OffsetMode → Option Int
  | .OFFSET_MODE_CUR =>
    if 0 < offset then (ssize (xp + offset)).map (min · (size - 1))
    else (ssize (xp + offset)).map (max · 0)
  | .OFFSET_MODE_END => (ssize (size - 1 + offset)).map fun dest => max (min dest (size - 1)) 0
  | .OFFSET_MODE_SET => some (max (min offset (size - 1)) 0)
  | .invalid => none

def move (key : κ) (offset : Int64) (how : OffsetMode) : Option (IndexedList κ α × Int) :=
  if l.index.contains key = false then some (l, -1)
  else if how = .invalid then some (l, -1)
  else
    let xp := l.seq.findIdx fun e => e.1 = key
    (moveDest xp l.size offset.toInt how).map fun (dest : Int) =>
      if (xp : Int) < dest then ({ l with seq := rotate l.seq xp (xp + 1) (dest.toNat + 1) }, dest)
      else ({ l with seq := rotate l.seq dest.toNat xp (xp + 1) }, dest)

def clear : IndexedList κ α := {}

end IndexedList

inductive Op (κ α : Type) where
  | push_back (key : κ) (value : α)
  | push_front (key : κ) (value : α)
  | insertAt (dest : Nat) (key : κ) (value : α)
  | insertBefore (dest : Nat) (key : κ) (value : α)
  | insertRangeBefore (dest : Nat) (vs : List (κ × α))
  | insertRangeAt (pos : Nat) (vs : List (κ × α))
  | remove (key : κ)
  | erase (k : Nat)
  | remove_if (pred : α → Bool)
  | pop_front
  | move (key : κ) (offset : Int64) (how : OffsetMode)
  | clear

/-- An operation and what it returns. -/
def IndexedList.apply (l : IndexedList κ α) : Op κ α → Option (IndexedList κ α × Result)
  | .push_back key value => some ((l.push_back key value).map id .bool)
  | .push_front key value => some ((l.push_front key value).map id .bool)
  | .insertAt dest key value => some ((l.insertAt dest key value).map id .iterator)
  | .insertBefore dest key value =>
    if l.seq.length < dest then none
    else some ((l.insertBefore dest key value).map id .iterator)
  | .insertRangeBefore dest vs =>
    if l.seq.length < dest then none else some (l.insertRangeBefore dest vs, .unit)
  | .insertRangeAt pos vs => some (l.insertRangeAt pos vs, .unit)
  | .remove key => some ((l.remove key).map id .bool)
  | .erase k => (l.erase k).map fun p => p.map id .iterator
  | .remove_if pred => some (l.remove_if pred, .unit)
  | .pop_front => some (l.pop_front.map id .bool)
  | .move key offset how => (l.move key offset how).map fun p => p.map id .ssize
  | .clear => some (IndexedList.clear, .unit)

/-! ## The reference list -/

def keys (s : List (κ × α)) : List κ := s.map Prod.fst

/-- What a range has of new keys, each at its first place. -/
def fresh (ks : List κ) : List (κ × α) → List (κ × α)
  | [] => []
  | e :: es => if e.1 ∈ ks then fresh ks es else e :: fresh (e.1 :: ks) es

/-- Where `move` goes: the offset from the element, from the last one or from the first one, inside
the list. -/
def target (s : List (κ × α)) (key : κ) (offset : Int) (how : OffsetMode) : Nat :=
  let start : Int := match how with
    | .OFFSET_MODE_CUR => s.findIdx fun e => e.1 = key
    | .OFFSET_MODE_END => s.length - 1
    | .OFFSET_MODE_SET | .invalid => 0
  (max 0 (min (start + offset) (s.length - 1))).toNat

/-- The list with an element put at a place among the others. -/
def moved (s : List (κ × α)) (key : κ) (dest : Nat) : List (κ × α) :=
  let others := s.filter fun e => e.1 ≠ key
  others.take dest ++ ((s.filter fun e => e.1 = key) ++ others.drop dest)

/-- What an operation does to a list of distinct keys, and what it returns. -/
def Op.reference (s : List (κ × α)) : Op κ α → List (κ × α) × Result
  | .push_back key value =>
    if key ∈ keys s then (s, .bool false) else (s ++ [(key, value)], .bool true)
  | .push_front key value =>
    if key ∈ keys s then (s, .bool false) else ((key, value) :: s, .bool true)
  | .insertAt dest key value =>
    if s.length < dest ∨ key ∈ keys s then (s, .iterator none)
    else (s.insertIdx dest (key, value), .iterator (some dest))
  | .insertBefore dest key value =>
    if key ∈ keys s then (s, .iterator none)
    else (s.insertIdx dest (key, value), .iterator (some dest))
  | .insertRangeBefore dest vs => (s.take dest ++ (fresh (keys s) vs ++ s.drop dest), .unit)
  | .insertRangeAt pos vs =>
    if s.length < pos then (s, .unit) else (s.take pos ++ (fresh (keys s) vs ++ s.drop pos), .unit)
  | .remove key => (s.filter fun e => e.1 ≠ key, .bool (key ∈ keys s))
  | .erase k => (s.eraseIdx k, .iterator (some k))
  | .remove_if pred => (s.filter fun e => !pred e.2, .unit)
  | .pop_front => (s.tail, .bool (s ≠ []))
  | .move key offset how =>
    if key ∈ keys s ∧ how ≠ .invalid then
      (moved s key (target s key offset.toInt how), .ssize (target s key offset.toInt how))
    else (s, .ssize (-1))
  | .clear => ([], .unit)

/-- The iterators of an operation are valid. -/
def Op.Valid (s : List (κ × α)) : Op κ α → Prop
  | .insertBefore dest _ _ => dest ≤ s.length
  | .insertRangeBefore dest _ => dest ≤ s.length
  | .erase k => k < s.length
  | _ => True

instance decidableValid (s : List (κ × α)) : (op : Op κ α) → Decidable (op.Valid s)
  | .insertBefore dest _ _ => inferInstanceAs (Decidable (dest ≤ s.length))
  | .insertRangeBefore dest _ => inferInstanceAs (Decidable (dest ≤ s.length))
  | .erase k => inferInstanceAs (Decidable (k < s.length))
  | .push_back .. | .push_front .. | .insertAt .. | .insertRangeAt .. | .remove _ | .remove_if _
  | .pop_front | .move .. | .clear => inferInstanceAs (Decidable True)

/-- The sum of the offset and of where it counts from does not overflow. -/
def Op.Fits (s : List (κ × α)) : Op κ α → Prop
  | .move key offset .OFFSET_MODE_CUR =>
    key ∈ keys s → (s.findIdx fun e => e.1 = key) + offset.toInt < 2 ^ 63
  | .move key offset .OFFSET_MODE_END => key ∈ keys s → s.length - 1 + offset.toInt < 2 ^ 63
  | _ => True

/-- Both members hold the same pairs, and each key once. -/
structure Coherent (l : IndexedList κ α) : Prop where
  index : ∀ k v, l.index[k]? = some v ↔ (k, v) ∈ l.seq
  nodup : (keys l.seq).Nodup
  size : l.index.size = l.seq.length

namespace Coherent

variable {l : IndexedList κ α} {k : κ} {v : α}

theorem empty : Coherent ({} : IndexedList κ α) where
  index k v := by simp
  nodup := List.nodup_nil
  size := rfl

theorem contains_iff (hl : Coherent l) : l.index.contains k = true ↔ k ∈ keys l.seq := by
  rw [keys, List.mem_map, Std.HashMap.contains_eq_isSome_getElem?, Option.isSome_iff_exists]
  constructor
  · rintro ⟨v, hv⟩
    exact ⟨(k, v), (hl.index k v).mp hv, rfl⟩
  · rintro ⟨⟨k', v⟩, he, rfl⟩
    exact ⟨v, (hl.index k' v).mpr he⟩

/-- A pair with a new key goes anywhere in the sequence. -/
theorem insert (hl : Coherent l) (hk : k ∉ keys l.seq) {s : List (κ × α)}
    (hs : s.Perm ((k, v) :: l.seq)) : Coherent ⟨s, l.index.insert k v⟩ where
  index k' v' := by
    rw [Std.HashMap.getElem?_insert, hs.mem_iff, List.mem_cons, Prod.mk.injEq]
    by_cases h : k = k'
    · subst h
      have hnot : (k, v') ∉ l.seq := fun hmem => hk (List.mem_map_of_mem hmem)
      rw [if_pos (beq_self_eq_true k), Option.some.injEq]
      simp only [hnot, or_false, true_and, eq_comm]
    · rw [if_neg (by simpa using h), hl.index]
      simp only [Ne.symm h, false_and, false_or]
  nodup := by
    refine ((hs.map Prod.fst).nodup_iff).mpr ?_
    exact List.nodup_cons.mpr ⟨hk, hl.nodup⟩
  size := by
    have hnot : ¬l.index.contains k = true := fun h => hk (hl.contains_iff.mp h)
    dsimp only
    rw [Std.HashMap.size_insert, if_neg fun h => hnot (Std.HashMap.mem_iff_contains.mp h),
      hl.size, hs.length_eq, List.length_cons]

/-- The only pair of a key is taken out. -/
theorem erase (hl : Coherent l) {s : List (κ × α)} (hs : l.seq.Perm ((k, v) :: s)) :
    Coherent ⟨s, l.index.erase k⟩ := by
  have hnodup : (k :: keys s).Nodup := ((hs.map Prod.fst).nodup_iff).mp hl.nodup
  obtain ⟨hk, hnodup⟩ := List.nodup_cons.mp hnodup
  refine ⟨fun k' v' => ?_, hnodup, ?_⟩
  · rw [Std.HashMap.getElem?_erase]
    dsimp only
    by_cases h : k = k'
    · subst h
      rw [if_pos (beq_self_eq_true k)]
      exact iff_of_false (by simp) fun hmem => hk (List.mem_map_of_mem hmem)
    · rw [if_neg (by simpa using h), hl.index, hs.mem_iff, List.mem_cons, Prod.mk.injEq]
      simp only [Ne.symm h, false_and, false_or]
  · have hmem : l.index.contains k = true :=
      hl.contains_iff.mpr (List.mem_map_of_mem (hs.mem_iff.mpr (.head _)))
    dsimp only
    rw [Std.HashMap.size_erase, if_pos (Std.HashMap.mem_iff_contains.mpr hmem),
      hl.size, hs.length_eq, List.length_cons, Nat.add_sub_cancel]

theorem perm (hl : Coherent l) {s : List (κ × α)} (hs : s.Perm l.seq) :
    Coherent { l with seq := s } where
  index k v := (hl.index k v).trans hs.mem_iff.symm
  nodup := ((hs.map Prod.fst).nodup_iff).mpr hl.nodup
  size := hl.size.trans hs.length_eq.symm

end Coherent

end FluxCore.Indexed
