import Mathlib.Data.List.Nodup
import Mathlib.Data.List.Perm.Basic
import Mathlib.Data.List.Perm.Lattice

/-!
# Sequences with an index

`IndexedList` keeps its elements in the order in which they were put in and finds each by its key.
A key that is there already is refused, so that no two elements share one. The key of an element is
a function of it here, as it is for every caller of the class.
-/

namespace FluxCore.Request

variable {α κ : Type*} {key : α → κ}

/-- `seq_`; `index_` holds the keys of its elements. -/
@[ext] structure IndexedList (key : α → κ) where
  seq : List α := []
  nodup : (seq.map key).Nodup := by exact List.nodup_nil
deriving DecidableEq

namespace IndexedList

variable (l : IndexedList key)

/-- The keys in `index_`, in the order of `seq_`. -/
def keys : List κ := l.seq.map key

def size : Nat := l.seq.length

/-- The values are shared pointers: one that is changed keeps its place. -/
def map (f : α → α) (hf : ∀ a, key (f a) = key a) : IndexedList key where
  seq := l.seq.map f
  nodup := by
    rw [List.map_map, show key ∘ f = key from funext hf]
    exact l.nodup

def pop_front : IndexedList key where
  seq := l.seq.tail
  nodup := by
    rw [List.map_tail]
    exact l.nodup.tail

/-- `remove_if`, for a predicate whose side effects the caller has accounted for. -/
def remove_if (p : α → Bool) : IndexedList key where
  seq := l.seq.filter fun a => !p a
  nodup := l.nodup.sublist (List.filter_sublist.map key)

variable [DecidableEq κ]

def push_back (a : α) : IndexedList key :=
  if h : key a ∈ l.keys then l
  else
    { seq := l.seq ++ [a]
      nodup := by
        rw [List.map_append, List.nodup_append]
        refine ⟨l.nodup, List.nodup_singleton _, fun k hk k' hk' => ?_⟩
        rw [List.map_singleton, List.mem_singleton] at hk'
        rintro rfl
        exact h (hk' ▸ hk) }

def push_front (a : α) : IndexedList key :=
  if h : key a ∈ l.keys then l
  else
    { seq := a :: l.seq
      nodup := List.nodup_cons.mpr ⟨h, l.nodup⟩ }

def remove (k : κ) : IndexedList key where
  seq := l.seq.eraseP fun a => key a = k
  nodup := l.nodup.sublist (List.eraseP_sublist.map key)

/-- What a range insertion takes of `vs`: the elements whose key is neither in `index_` nor that of
an earlier one. -/
def taken (key : α → κ) : List κ → List α → List α
  | _, [] => []
  | ks, a :: vs => if key a ∈ ks then taken key ks vs else a :: taken key (key a :: ks) vs

theorem taken_nodup (key : α → κ) (ks : List κ) (vs : List α) :
    ((taken key ks vs).map key).Nodup ∧ ∀ a ∈ taken key ks vs, key a ∉ ks := by
  induction vs generalizing ks with
  | nil => exact ⟨List.nodup_nil, nofun⟩
  | cons a vs ih =>
    rw [taken]
    split
    · exact ih ks
    next ha =>
      obtain ⟨hnodup, hnew⟩ := ih (key a :: ks)
      refine ⟨List.nodup_cons.mpr ⟨fun hm => ?_, hnodup⟩, fun b hb => ?_⟩
      · obtain ⟨b, hb, hba⟩ := List.mem_map.mp hm
        exact hnew b hb (hba ▸ List.mem_cons_self ..)
      · rcases List.mem_cons.mp hb with rfl | hb
        · exact ha
        · exact fun hk => hnew b hb (.tail _ hk)

/-- `insert` of a range at a position. -/
def insert (pos : Nat) (vs : List α) : IndexedList key :=
  if l.size < pos then l
  else
    { seq := l.seq.take pos ++ (taken key l.keys vs ++ l.seq.drop pos)
      nodup := by
        obtain ⟨hnodup, hnew⟩ := taken_nodup key l.keys vs
        have hperm : (l.seq.take pos ++ (taken key l.keys vs ++ l.seq.drop pos)).Perm
            (taken key l.keys vs ++ l.seq) := by
          refine List.perm_append_comm_assoc _ _ _ |>.trans (.append_left _ ?_)
          rw [List.take_append_drop]
        rw [(hperm.map key).nodup_iff, List.map_append, List.nodup_append]
        refine ⟨hnodup, l.nodup, fun k hk k' hk' => ?_⟩
        obtain ⟨a, ha, rfl⟩ := List.mem_map.mp hk
        rintro rfl
        exact hnew a ha hk' }

/-! ## What the operations do to the sequence -/

variable {l} {a : α} {vs : List α}

omit [DecidableEq κ] in
@[simp] theorem keys_map (f : α → α) (hf : ∀ a, key (f a) = key a) : (l.map f hf).keys = l.keys := by
  rw [keys, map, List.map_map, show key ∘ f = key from funext hf, keys]

omit [DecidableEq κ] in
theorem map_of_fixed {f : α → α} (hf : ∀ a, key (f a) = key a) (h : ∀ a ∈ l.seq, f a = a) :
    l.map f hf = l :=
  IndexedList.ext ((List.map_congr_left h).trans (List.map_id' _))

theorem seq_push_back (h : key a ∉ l.keys) : (l.push_back a).seq = l.seq ++ [a] := by
  rw [push_back, dif_neg h]

theorem seq_push_front (h : key a ∉ l.keys) : (l.push_front a).seq = a :: l.seq := by
  rw [push_front, dif_neg h]

theorem taken_of_new {ks : List κ} (h : (vs.map key).Nodup) (hks : ∀ a ∈ vs, key a ∉ ks) :
    taken key ks vs = vs := by
  induction vs generalizing ks with
  | nil => rfl
  | cons a vs ih =>
    obtain ⟨ha, hvs⟩ := List.nodup_cons.mp h
    rw [taken, if_neg (hks a (List.mem_cons_self ..)), ih hvs fun b hb hk => ?_]
    rcases List.mem_cons.mp hk with hk | hk
    · exact ha (hk ▸ List.mem_map_of_mem hb)
    · exact hks b (.tail _ hb) hk

theorem seq_insert_zero (h : (vs.map key).Nodup) (hl : ∀ a ∈ vs, key a ∉ l.keys) :
    (l.insert 0 vs).seq = vs ++ l.seq := by
  rw [insert, if_neg (Nat.not_lt_zero _)]
  exact congrArg (· ++ l.seq) (taken_of_new h hl)

theorem seq_insert_perm {pos : Nat} (hpos : pos ≤ l.size) (h : (vs.map key).Nodup)
    (hl : ∀ a ∈ vs, key a ∉ l.keys) : (l.insert pos vs).seq.Perm (vs ++ l.seq) := by
  rw [insert, if_neg (Nat.not_lt.mpr hpos)]
  dsimp only
  rw [taken_of_new h hl]
  refine (List.perm_append_comm_assoc ..).trans (.append_left _ ?_)
  rw [List.take_append_drop]

/-- Elements appended one by one go to the end in their order. -/
theorem seq_foldl_push_back (h : (vs.map key).Nodup) (hl : ∀ a ∈ vs, key a ∉ l.keys) :
    (vs.foldl (fun l a => l.push_back a) l).seq = l.seq ++ vs := by
  induction vs generalizing l with
  | nil => exact (List.append_nil _).symm
  | cons a vs ih =>
    obtain ⟨ha, hvs⟩ := List.nodup_cons.mp h
    have hpush := seq_push_back (hl a (List.mem_cons_self ..))
    rw [List.foldl_cons, ih hvs fun b hb hk => ?_, hpush, List.append_assoc, List.singleton_append]
    rw [keys, hpush, List.map_append, List.mem_append, List.map_singleton, List.mem_singleton] at hk
    rcases hk with hk | hk
    · exact hl b (.tail _ hb) hk
    · exact ha (hk ▸ List.mem_map_of_mem hb)

end IndexedList

end FluxCore.Request
