import Mathlib.Data.List.Infix

/-!
# Components

The components of a list are its parts between separators, `List.splitOn`. A component is a part
without separators that starts at the start or behind a separator and ends at the end or before one.
Joining lists by separators joins their components.
-/

namespace FluxCore.Components

variable {α : Type*} [BEq α] [LawfulBEq α] {a : α} {c s : List α}

theorem notMem_of_mem_splitOn (hc : c ∈ s.splitOn a) : a ∉ c := by
  classical
  induction hn : s.length using Nat.strong_induction_on generalizing s with
  | _ n ih =>
    by_cases ha : a ∈ s
    · obtain ⟨x, y, rfl, hx⟩ := List.eq_append_cons_of_mem ha
      rw [List.splitOn_append_cons_self_of_not_mem hx, List.mem_cons] at hc
      rcases hc with rfl | hc
      · exact hx
      · exact ih y.length (by simp at hn; omega) hc rfl
    · rw [List.splitOn_eq_singleton ha, List.mem_singleton] at hc
      exact hc ▸ ha

/-- Where a component stands. -/
theorem mem_splitOn_iff :
    c ∈ s.splitOn a ↔
      a ∉ c ∧ ∃ l r, s = l ++ c ++ r ∧ (l = [] ∨ [a] <:+ l) ∧ (r = [] ∨ [a] <+: r) := by
  constructor
  · intro hc
    refine ⟨notMem_of_mem_splitOn hc, ?_⟩
    induction hn : s.length using Nat.strong_induction_on generalizing s with
    | _ n ih =>
      by_cases ha : a ∈ s
      · obtain ⟨x, y, rfl, hx⟩ := List.eq_append_cons_of_mem ha
        rw [List.splitOn_append_cons_self_of_not_mem hx, List.mem_cons] at hc
        rcases hc with rfl | hc
        · exact ⟨[], a :: y, rfl, .inl rfl, .inr ⟨y, rfl⟩⟩
        · obtain ⟨l, r, rfl, hl, hr⟩ := ih y.length (by simp at hn; omega) hc rfl
          refine ⟨x ++ a :: l, r, by simp, .inr ?_, hr⟩
          rcases hl with rfl | ⟨l, rfl⟩
          exacts [⟨x, rfl⟩, ⟨x ++ a :: l, by simp⟩]
      · rw [List.splitOn_eq_singleton ha, List.mem_singleton] at hc
        exact ⟨[], [], by simp [hc], .inl rfl, .inl rfl⟩
  · rintro ⟨hc, l, r, rfl, hl, hr⟩
    have hright : c ∈ (c ++ r).splitOn a := by
      rcases hr with rfl | ⟨r, rfl⟩
      · rw [List.append_nil, List.splitOn_eq_singleton hc]
        exact List.mem_singleton_self _
      · rw [List.singleton_append, List.splitOn_append_cons_self_of_not_mem hc]
        exact List.mem_cons_self ..
    rcases hl with rfl | ⟨l, rfl⟩
    · exact hright
    · rw [List.append_assoc, List.append_assoc, List.singleton_append,
        List.splitOn_append_cons_self]
      exact List.mem_append_right _ hright

/-- A list is a component of its own, or one at the start, at the end or in the middle. -/
theorem mem_splitOn_iff_infix (hc : a ∉ c) :
    c ∈ s.splitOn a ↔
      s = c ∨ c ++ [a] <+: s ∨ [a] ++ c <:+ s ∨ [a] ++ c ++ [a] <:+: s := by
  rw [mem_splitOn_iff, and_iff_right hc]
  constructor
  · rintro ⟨l, r, rfl, rfl | ⟨l, rfl⟩, rfl | ⟨r, rfl⟩⟩
    · exact .inl (by simp)
    · exact .inr (.inl ⟨r, by simp⟩)
    · exact .inr (.inr (.inl ⟨l, by simp⟩))
    · exact .inr (.inr (.inr ⟨l, r, by simp⟩))
  · rintro (rfl | ⟨r, rfl⟩ | ⟨l, rfl⟩ | ⟨l, r, rfl⟩)
    · exact ⟨[], [], by simp, .inl rfl, .inl rfl⟩
    · exact ⟨[], [a] ++ r, by simp, .inl rfl, .inr ⟨r, rfl⟩⟩
    · exact ⟨l ++ [a], [], by simp, .inr ⟨l, rfl⟩, .inl rfl⟩
    · exact ⟨l ++ [a], [a] ++ r, by simp, .inr ⟨l, rfl⟩, .inr ⟨r, rfl⟩⟩

/-- The components of lists that are joined are theirs. -/
theorem splitOn_intercalate (e : List α) (es : List (List α)) :
    ([a].intercalate (e :: es)).splitOn a = (e :: es).flatMap (List.splitOn a) := by
  induction es generalizing e with
  | nil => simp
  | cons e' es ih =>
    rw [List.intercalate_cons_cons, List.append_assoc, List.singleton_append,
      List.splitOn_append_cons_self, ih, ← List.flatMap_cons]

end FluxCore.Components
