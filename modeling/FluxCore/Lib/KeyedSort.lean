import Mathlib.Data.List.Sort
import Mathlib.Data.List.Destutter

/-!
# Sorting by a key and removing duplicates

`stableSort comp` moves an element in front of those before it for as long as `comp` holds, and
`unique eq` keeps the first of elements in a row that are equal. For a comparison that also holds of
elements with the same key, sorting turns their order around: of the elements with a key, the one
that is left in the end is the last (`mem_unique_stableSort`).
-/

namespace FluxCore

universe u v

variable {α : Type u} {κ : Type v}

def stableSort (comp : α → α → Bool) (l : List α) : List α :=
  l.insertionSort fun a b => comp b a = false

def unique (eq : α → α → Bool) (l : List α) : List α := l.destutter fun a b => eq a b = false

theorem perm_stableSort (comp : α → α → Bool) (l : List α) : (stableSort comp l).Perm l :=
  List.perm_insertionSort _ l

theorem unique_sublist (eq : α → α → Bool) (l : List α) : (unique eq l).Sublist l :=
  List.destutter_sublist _ l

variable [LinearOrder κ] {key : α → κ} {comp eq : α → α → Bool} {l : List α}

section
variable (hcomp : ∀ a b, comp a b = true ↔ key a ≤ key b)
include hcomp

/-- An element is put behind those whose key is not greater. -/
theorem orderedInsert_spec (a : α) (hl : l.Pairwise (key · ≤ key ·)) :
    (l.orderedInsert (fun a b => comp b a = false) a).Pairwise (key · ≤ key ·) ∧
      ∀ x, (l.orderedInsert (fun a b => comp b a = false) a).filter (key · = x) =
        l.filter (key · = x) ++ [a].filter (key · = x) := by
  induction l with
  | nil => exact ⟨List.pairwise_singleton .., fun x => rfl⟩
  | cons b l ih =>
    obtain ⟨hb, hl⟩ := List.pairwise_cons.mp hl
    obtain ⟨hp, hf⟩ := ih hl
    rw [List.orderedInsert_cons]
    by_cases hab : key b ≤ key a
    · rw [if_neg (by rw [(hcomp b a).mpr hab]; decide)]
      refine ⟨List.pairwise_cons.mpr ⟨fun c hc => ?_, hp⟩, fun x => ?_⟩
      · rcases (List.mem_orderedInsert ..).mp hc with rfl | hc
        exacts [hab, hb c hc]
      · by_cases hx : key b = x
        · simp [hx, hf]
        · simp [hx, hf]
    · have hlt := not_le.mp hab
      have hall : ∀ c ∈ b :: l, key a < key c := fun c hc => by
        rcases List.mem_cons.mp hc with rfl | hc
        exacts [hlt, hlt.trans_le (hb c hc)]
      rw [if_pos (by rw [Bool.eq_false_iff, Ne, hcomp]; exact hab)]
      refine ⟨List.pairwise_cons.mpr ⟨fun c hc => (hall c hc).le, List.pairwise_cons.mpr ⟨hb, hl⟩⟩,
        fun x => ?_⟩
      by_cases hx : key a = x
      · have hnone : (b :: l).filter (key · = x) = [] :=
          List.filter_eq_nil_iff.mpr fun c hc => by simpa [← hx] using (hall c hc).ne'
        rw [List.filter_cons, hnone]
        simp [hx]
      · simp [List.filter_cons, hx]

theorem pairwise_stableSort (l : List α) : (stableSort comp l).Pairwise (key · ≤ key ·) := by
  induction l with
  | nil => exact .nil
  | cons a l ih => exact (orderedInsert_spec hcomp a ih).1

/-- Elements with the same key come in the reverse order. -/
theorem filter_stableSort (l : List α) (x : κ) :
    (stableSort comp l).filter (key · = x) = (l.filter (key · = x)).reverse := by
  induction l with
  | nil => rfl
  | cons a l ih =>
    refine ((orderedInsert_spec hcomp a (pairwise_stableSort hcomp l)).2 x).trans ?_
    rw [ih]
    by_cases hx : key a = x
    · simp [hx]
    · simp [hx]

end

section
variable (heq : ∀ a b, eq a b = true ↔ key a = key b)
include heq

theorem unique_spec (hl : l.Pairwise (key · ≤ key ·)) :
    (unique eq l).Pairwise (key · < key ·) ∧
      ∀ x, (unique eq l).filter (key · = x) = (l.filter (key · = x)).take 1 := by
  have hmain : ∀ (l : List α) (a : α), (a :: l).Pairwise (key · ≤ key ·) →
      (List.destutter' (fun a b => eq a b = false) a l).Pairwise (key · < key ·) ∧
        ∀ x, (List.destutter' (fun a b => eq a b = false) a l).filter (key · = x) =
          ((a :: l).filter (key · = x)).take 1 := by
    intro l
    induction l with
    | nil =>
      refine fun a _ => ⟨List.pairwise_singleton .., fun x => ?_⟩
      rw [List.destutter'_nil, List.filter_cons]
      split <;> rfl
    | cons b l ih =>
      intro a hl
      obtain ⟨ha, hbl⟩ := List.pairwise_cons.mp hl
      rw [List.destutter'_cons]
      by_cases hab : key a = key b
      · rw [if_neg (by rw [(heq a b).mpr hab]; decide)]
        obtain ⟨h1, h2⟩ := ih a (List.pairwise_cons.mpr
          ⟨fun c hc => ha c (.tail _ hc), (List.pairwise_cons.mp hbl).2⟩)
        refine ⟨h1, fun x => (h2 x).trans ?_⟩
        by_cases hx : key a = x
        · simp [List.filter_cons, hx]
        · simp [hx, ← hab]
      · rw [if_pos (by rw [Bool.eq_false_iff, Ne, heq]; exact hab)]
        obtain ⟨h1, h2⟩ := ih b hbl
        have hlt : ∀ c ∈ b :: l, key a < key c := fun c hc => by
          refine (lt_of_le_of_ne (ha b (.head _)) hab).trans_le ?_
          rcases List.mem_cons.mp hc with rfl | hc
          exacts [le_rfl, (List.pairwise_cons.mp hbl).1 c hc]
        have hsub : (List.destutter' (fun a b => eq a b = false) b l).Sublist (b :: l) :=
          List.destutter'_sublist ..
        refine ⟨List.pairwise_cons.mpr ⟨fun c hc => hlt c (hsub.subset hc), h1⟩, fun x => ?_⟩
        by_cases hx : key a = x
        · have hnone : (b :: l).filter (key · = x) = [] :=
            List.filter_eq_nil_iff.mpr fun c hc => by simpa [← hx] using (hlt c hc).ne'
          rw [List.filter_cons_of_pos (by simpa), h2, hnone, List.filter_cons_of_pos (by simpa),
            hnone]
          rfl
        · rw [List.filter_cons_of_neg (a := a) (by simpa),
            List.filter_cons_of_neg (a := a) (by simpa), h2]
  cases l with
  | nil => exact ⟨.nil, fun x => rfl⟩
  | cons a l => exact hmain l a hl

end

/-- Of the elements with a key, the last is left. -/
theorem mem_unique_stableSort (hcomp : ∀ a b, comp a b = true ↔ key a ≤ key b)
    (heq : ∀ a b, eq a b = true ↔ key a = key b) (l : List α) (a : α) :
    a ∈ unique eq (stableSort comp l) ↔ (l.filter (key · = key a)).getLast? = some a := by
  have hmem : a ∈ unique eq (stableSort comp l) ↔
      a ∈ (unique eq (stableSort comp l)).filter (key · = key a) := by simp
  rw [hmem, (unique_spec heq (pairwise_stableSort hcomp l)).2, filter_stableSort hcomp,
    ← List.head?_reverse]
  cases (l.filter (key · = key a)).reverse with
  | nil => simp
  | cons b l => simp [eq_comm]

theorem pairwise_unique_stableSort (hcomp : ∀ a b, comp a b = true ↔ key a ≤ key b)
    (heq : ∀ a b, eq a b = true ↔ key a = key b) (l : List α) :
    (unique eq (stableSort comp l)).Pairwise (key · < key ·) :=
  (unique_spec heq (pairwise_stableSort hcomp l)).1

theorem mem_of_mem_unique_stableSort {a : α} (h : a ∈ unique eq (stableSort comp l)) : a ∈ l :=
  (perm_stableSort comp l).subset ((unique_sublist eq _).subset h)

/-- No key is lost. -/
theorem exists_mem_unique_stableSort (hcomp : ∀ a b, comp a b = true ↔ key a ≤ key b)
    (heq : ∀ a b, eq a b = true ↔ key a = key b) {b : α} (hb : b ∈ l) :
    ∃ a ∈ unique eq (stableSort comp l), key a = key b := by
  have hmem : b ∈ l.filter (key · = key b) := by simpa using hb
  obtain ⟨a, ha⟩ := Option.ne_none_iff_exists'.mp
    (mt List.getLast?_eq_none_iff.mp (List.ne_nil_of_mem hmem))
  have hab : key a = key b := by simpa using (List.mem_filter.mp (List.mem_of_getLast? ha)).2
  exact ⟨a, (mem_unique_stableSort hcomp heq l a).mpr (by rw [hab]; exact ha), hab⟩

/-- An element is among the first `k` if fewer than `k` come before it. -/
theorem mem_take_iff (hl : l.Pairwise (key · < key ·)) {a : α} {k : Nat} :
    a ∈ l.take k ↔ a ∈ l ∧ (l.filter (key · < key a)).length < k := by
  induction l generalizing k with
  | nil => simp
  | cons b l ih =>
    obtain ⟨hb, hl⟩ := List.pairwise_cons.mp hl
    cases k with
    | zero => simp
    | succ k =>
      rw [List.take_succ_cons, List.mem_cons, List.mem_cons, ih hl]
      by_cases hab : a = b
      · subst hab
        have hnone : (a :: l).filter (key · < key a) = [] :=
          List.filter_eq_nil_iff.mpr fun c hc => by
            rcases List.mem_cons.mp hc with rfl | hc
            · simp
            · simpa using (hb c hc).le
        simp [hnone]
      · simp only [hab, false_or]
        refine and_congr_right fun ha => ?_
        rw [List.filter_cons_of_pos (by simpa using hb a ha), List.length_cons]
        omega

end FluxCore
