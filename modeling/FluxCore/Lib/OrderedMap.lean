import Mathlib.Order.Basic
import Mathlib.Data.List.Basic
import Mathlib.Tactic.Basic
import Mathlib.Order.Lattice

/-!
# Ordered maps

A finite map kept as the list of its entries in strictly increasing key order, with the order as a
field: the value of a `std::map`. `entries` is what an iteration from `begin()` sees, so the head of
the list is the entry with the smallest key. Every operation is described by the entries it leaves
(`mem_insert`, `mem_erase`, `mem_tail`), and `find?` decides membership (`find?_eq_some`).
-/

namespace FluxCore

universe u v

/-- Entries in strictly increasing key order. -/
structure OrderedMap (κ : Type u) (α : Type v) [LinearOrder κ] where
  entries : List (κ × α)
  sorted : entries.Pairwise fun a b => a.1 < b.1

namespace OrderedMap

variable {κ : Type u} {α : Type v} [LinearOrder κ]

@[ext] theorem ext {m m' : OrderedMap κ α} (h : m.entries = m'.entries) : m = m' := by
  cases m; cases m'; cases h; rfl

instance [DecidableEq α] : DecidableEq (OrderedMap κ α) := fun _ _ =>
  decidable_of_iff _ ⟨ext, congrArg entries⟩

/-- The map without entries. -/
def empty : OrderedMap κ α := ⟨[], .nil⟩

instance : Inhabited (OrderedMap κ α) := ⟨empty⟩

@[simp] theorem entries_empty : (empty : OrderedMap κ α).entries = [] := rfl

def isEmpty (m : OrderedMap κ α) : Bool := m.entries.isEmpty

/-- Two entries with one key are the same entry. -/
theorem eq_of_key_eq (m : OrderedMap κ α) {e e' : κ × α} (he : e ∈ m.entries)
    (he' : e' ∈ m.entries) (h : e.1 = e'.1) : e = e' :=
  List.Pairwise.forall_of_forall_of_flip (R := fun a b : κ × α => a.1 = b.1 → a = b)
    (fun _ _ _ => rfl) (m.sorted.imp fun hlt heq => absurd heq hlt.ne)
    (m.sorted.imp fun hlt heq => absurd heq hlt.ne') he he' h

/-! ## Lookup -/

/-- The value stored under `k`. -/
def find? (m : OrderedMap κ α) (k : κ) : Option α :=
  (m.entries.find? fun e => e.1 = k).map Prod.snd

theorem find?_eq_some {m : OrderedMap κ α} {k : κ} {a : α} :
    m.find? k = some a ↔ (k, a) ∈ m.entries := by
  unfold find?
  constructor
  · intro h
    obtain ⟨⟨k', a'⟩, hfind, rfl⟩ := Option.map_eq_some_iff.mp h
    have hk : k' = k := by simpa using List.find?_some hfind
    exact hk ▸ List.mem_of_find?_eq_some hfind
  · intro h
    cases hfind : m.entries.find? fun e => e.1 = k with
    | none => simpa using List.find?_eq_none.mp hfind _ h
    | some e =>
      have hk : e.1 = k := by simpa using List.find?_some hfind
      rw [m.eq_of_key_eq (List.mem_of_find?_eq_some hfind) h hk]
      rfl

theorem find?_eq_none {m : OrderedMap κ α} {k : κ} :
    m.find? k = none ↔ ∀ e ∈ m.entries, e.1 ≠ k := by
  simp [find?]

theorem mem_of_find? {m : OrderedMap κ α} {k : κ} {a : α} (h : m.find? k = some a) :
    (k, a) ∈ m.entries := find?_eq_some.mp h

@[simp] theorem find?_empty (k : κ) : (empty : OrderedMap κ α).find? k = none := rfl

/-! ## Insertion and removal -/

/-- Insert into a sorted entry list, replacing an entry with the same key. -/
def insertEntry (k : κ) (a : α) : List (κ × α) → List (κ × α)
  | [] => [(k, a)]
  | e :: es =>
    if k < e.1 then (k, a) :: e :: es
    else if k = e.1 then (k, a) :: es
    else e :: insertEntry k a es

theorem mem_insertEntry {k : κ} {a : α} {es : List (κ × α)}
    (hs : es.Pairwise fun a b => a.1 < b.1) {e : κ × α} :
    e ∈ insertEntry k a es ↔ e = (k, a) ∨ e ∈ es ∧ e.1 ≠ k := by
  induction es with
  | nil => simp [insertEntry]
  | cons hd tl ih =>
    obtain ⟨hhd, htl⟩ := List.pairwise_cons.mp hs
    unfold insertEntry
    split_ifs with hlt heq
    · have : ∀ e' ∈ hd :: tl, e'.1 ≠ k := by
        rintro e' (_ | ⟨_, he'⟩)
        · exact hlt.ne'
        · exact (hlt.trans (hhd _ he')).ne'
      grind
    · subst heq
      have : ∀ e' ∈ tl, e'.1 ≠ hd.1 := fun e' he' => (hhd _ he').ne'
      grind
    · rw [List.mem_cons, ih htl]
      grind

theorem sorted_insertEntry (k : κ) (a : α) {es : List (κ × α)}
    (hs : es.Pairwise fun a b => a.1 < b.1) :
    (insertEntry k a es).Pairwise fun a b => a.1 < b.1 := by
  induction es with
  | nil => simp [insertEntry]
  | cons hd tl ih =>
    obtain ⟨hhd, htl⟩ := List.pairwise_cons.mp hs
    unfold insertEntry
    split_ifs with hlt heq
    · refine .cons ?_ hs
      rintro e' (_ | ⟨_, he'⟩)
      · exact hlt
      · exact hlt.trans (hhd _ he')
    · exact .cons (fun e' he' => heq ▸ hhd _ he') htl
    · refine .cons (fun e' he' => ?_) (ih htl)
      rcases (mem_insertEntry htl).mp he' with rfl | ⟨he', -⟩
      · exact lt_of_le_of_ne (not_lt.mp hlt) (Ne.symm heq)
      · exact hhd _ he'

/-- `m[k] = a`: the entry under `k` is created or replaced. -/
def insert (m : OrderedMap κ α) (k : κ) (a : α) : OrderedMap κ α :=
  ⟨insertEntry k a m.entries, sorted_insertEntry k a m.sorted⟩

theorem mem_insert {m : OrderedMap κ α} {k : κ} {a : α} {e : κ × α} :
    e ∈ (m.insert k a).entries ↔ e = (k, a) ∨ e ∈ m.entries ∧ e.1 ≠ k :=
  mem_insertEntry m.sorted

@[simp] theorem find?_insert_self (m : OrderedMap κ α) (k : κ) (a : α) :
    (m.insert k a).find? k = some a := find?_eq_some.mpr (mem_insert.mpr (.inl rfl))

/-- The other keys keep their values. -/
theorem find?_insert_of_ne {m : OrderedMap κ α} {k k' : κ} (h : k' ≠ k) (a : α) :
    (m.insert k a).find? k' = m.find? k' := by
  ext b
  rw [find?_eq_some, find?_eq_some, mem_insert]
  simp [h]

theorem find?_insert_eq_some {m : OrderedMap κ α} {k k' : κ} {a b : α} :
    (m.insert k a).find? k' = some b ↔ k' = k ∧ a = b ∨ k' ≠ k ∧ m.find? k' = some b := by
  by_cases h : k' = k
  · subst h
    simp
  · simp [find?_insert_of_ne h, h]

/-- `m.erase(k)`. -/
def erase (m : OrderedMap κ α) (k : κ) : OrderedMap κ α :=
  ⟨m.entries.filter fun e => e.1 ≠ k, m.sorted.filter _⟩

theorem mem_erase {m : OrderedMap κ α} {k : κ} {e : κ × α} :
    e ∈ (m.erase k).entries ↔ e ∈ m.entries ∧ e.1 ≠ k := by
  simp [erase]

@[simp] theorem find?_erase_self (m : OrderedMap κ α) (k : κ) : (m.erase k).find? k = none :=
  find?_eq_none.mpr fun _ he => (mem_erase.mp he).2

theorem find?_erase_of_ne {m : OrderedMap κ α} {k k' : κ} (h : k' ≠ k) :
    (m.erase k).find? k' = m.find? k' := by
  ext b
  rw [find?_eq_some, find?_eq_some, mem_erase]
  simp [h]

/-- No entry twice. -/
theorem nodup (m : OrderedMap κ α) : m.entries.Nodup :=
  m.sorted.imp fun hlt heq => (heq ▸ hlt).ne rfl

theorem perm_insert (m : OrderedMap κ α) (k : κ) (a : α) :
    (m.insert k a).entries.Perm ((k, a) :: (m.erase k).entries) := by
  rw [List.perm_ext_iff_of_nodup (m.insert k a).nodup
    (List.nodup_cons.mpr ⟨fun h => (mem_erase.mp h).2 rfl, (m.erase k).nodup⟩)]
  intro e
  rw [mem_insert, List.mem_cons, mem_erase]

theorem perm_erase {m : OrderedMap κ α} {k : κ} {a : α} (h : m.find? k = some a) :
    m.entries.Perm ((k, a) :: (m.erase k).entries) := by
  rw [List.perm_ext_iff_of_nodup m.nodup
    (List.nodup_cons.mpr ⟨fun h => (mem_erase.mp h).2 rfl, (m.erase k).nodup⟩)]
  intro e
  rw [List.mem_cons, mem_erase]
  constructor
  · intro he
    by_cases hk : e.1 = k
    · exact .inl (m.eq_of_key_eq he (find?_eq_some.mp h) hk)
    · exact .inr ⟨he, hk⟩
  · rintro (rfl | ⟨he, -⟩)
    exacts [find?_eq_some.mp h, he]

theorem erase_of_find?_none {m : OrderedMap κ α} {k : κ} (h : m.find? k = none) :
    m.erase k = m :=
  ext (List.filter_eq_self.mpr fun e he => by simpa using find?_eq_none.mp h e he)

/-- `m.erase(m.begin())`. -/
def tail (m : OrderedMap κ α) : OrderedMap κ α := ⟨m.entries.tail, m.sorted.tail⟩

@[simp] theorem entries_tail (m : OrderedMap κ α) : m.tail.entries = m.entries.tail := rfl

theorem mem_tail {m : OrderedMap κ α} {e : κ × α} (h : e ∈ m.tail.entries) : e ∈ m.entries :=
  List.mem_of_mem_tail h

theorem tail_eq_erase {m : OrderedMap κ α} {e : κ × α} {es : List (κ × α)}
    (h : m.entries = e :: es) : m.tail = m.erase e.1 := by
  have hs := m.sorted
  rw [h] at hs
  refine ext ?_
  change m.entries.tail = m.entries.filter fun e' => e'.1 ≠ e.1
  rw [h, List.filter_cons, if_neg (by simp)]
  refine (List.filter_eq_self.mpr fun e' he' => ?_).symm
  simpa using (List.rel_of_pairwise_cons hs he').ne'

/-- The first entry has the smallest key. -/
theorem head_key_le {m : OrderedMap κ α} {e e' : κ × α} {es : List (κ × α)}
    (h : m.entries = e :: es) (he' : e' ∈ m.entries) : e.1 ≤ e'.1 := by
  rw [h] at he'
  rcases List.mem_cons.mp he' with rfl | he'
  · exact le_rfl
  · have hs := m.sorted
    rw [h] at hs
    exact ((List.pairwise_cons.mp hs).1 _ he').le

/-- What is found first is found under the smallest key. -/
theorem findSome?_key_le {β : Type v} {m : OrderedMap κ α} {f : κ × α → Option β} {b : β}
    (h : m.entries.findSome? f = some b) :
    ∃ e ∈ m.entries, f e = some b ∧ ∀ e' ∈ m.entries, f e' ≠ none → e.1 ≤ e'.1 := by
  obtain ⟨before, e, after, hsplit, he, hnone⟩ := List.findSome?_eq_some_iff.mp h
  have hs := m.sorted
  rw [hsplit] at hs ⊢
  refine ⟨e, by simp, he, fun e' he' hne => ?_⟩
  rcases List.mem_append.mp he' with he' | he'
  · exact absurd (hnone e' he') hne
  rcases List.mem_cons.mp he' with rfl | he'
  · exact le_rfl
  · exact (List.rel_of_pairwise_cons (List.pairwise_append.mp hs).2.1 he').le

end OrderedMap

end FluxCore
