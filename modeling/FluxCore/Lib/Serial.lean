import Mathlib.Order.Basic
import Mathlib.Tactic.Basic
import Mathlib.Algebra.Group.Nat.Defs

/-!
# Sixteen-bit serial numbers

A stream is numbered by the naturals and its wire numbers are the positions modulo `2^16`, counted
from a base (`seqNo`). Wire numbers are compared by the sign of their difference: the comparison of
two positions at most `2^15` apart on the one side and less on the other agrees with the stream
(`serial_le_seqNo`), and a wire number names at most one position of a window of `2^16`
(`seqNo_inj`). `numbered` puts the wire numbers on the items of a stream.
-/

namespace FluxCore

instance UInt16.linearOrder : LinearOrder UInt16 where
  le_refl := UInt16.le_refl
  le_trans _ _ _ := UInt16.le_trans
  le_antisymm _ _ := UInt16.le_antisymm
  le_total := UInt16.le_total
  lt_iff_le_not_ge a b := by
    simp only [UInt16.lt_iff_toNat_lt, UInt16.le_iff_toNat_le]; omega
  toDecidableLE := inferInstance

/-- The difference `a - b` read as a signed number is not positive. -/
theorem toInt16_sub_nonpos {a b : UInt16} :
    (a - b).toInt16 ≤ 0 ↔ (a - b).toNat = 0 ∨ 2 ^ 15 ≤ (a - b).toNat := by
  have hlt := (a - b).toNat_lt
  have hint : (a - b).toInt16.toInt =
      if 2 * (a - b).toNat < 2 ^ 16 then ((a - b).toNat : Int) else (a - b).toNat - 2 ^ 16 :=
    BitVec.toInt_eq_toNat_cond _
  rw [Int16.le_iff_toInt_le, hint]
  simp only [Int16.toInt_zero]
  split <;> omega

/-- The wire number of position `i` of a stream that starts at `base`. -/
def seqNo (base : UInt16) (i : Nat) : UInt16 := base + UInt16.ofNat i

@[simp] theorem seqNo_zero (base : UInt16) : seqNo base 0 = base := by simp [seqNo]

theorem seqNo_succ (base : UInt16) (i : Nat) : seqNo base (i + 1) = seqNo base i + 1 := by
  simp [seqNo, UInt16.add_assoc]

theorem seqNo_add (base : UInt16) (i d : Nat) : seqNo base (i + d) = seqNo (seqNo base i) d := by
  simp [seqNo, UInt16.add_assoc]

/-- Counting from one number earlier. -/
theorem seqNo_eq_sub_one (base : UInt16) (i : Nat) : seqNo base i = seqNo (base - 1) (i + 1) := by
  rw [Nat.add_comm, seqNo_add, seqNo_succ, seqNo_zero, UInt16.sub_add_cancel]

/-- The number before position `n`, counted from one number earlier. -/
theorem eq_seqNo_of_succ_eq {base a : UInt16} {n : Nat} (h : a + 1 = seqNo base n) :
    a = seqNo (base - 1) n := by
  rw [seqNo_eq_sub_one, seqNo_succ] at h
  exact (UInt16.add_left_inj _).mp h

theorem toNat_seqNo_sub (base : UInt16) {i j : Nat} (h : j ≤ i) :
    (seqNo base i - seqNo base j).toNat = (i - j) % 2 ^ 16 := by
  obtain ⟨d, rfl⟩ := Nat.exists_eq_add_of_le h
  have hsub : seqNo base (j + d) - seqNo base j = UInt16.ofNat d := by
    simp only [seqNo, UInt16.ofNat_add]; grind
  simp [hsub]

theorem toNat_seqNo_sub_of_lt (base : UInt16) {i j : Nat} (h : i < j) :
    (seqNo base i - seqNo base j).toNat = (2 ^ 16 - (j - i) % 2 ^ 16) % 2 ^ 16 := by
  change _ = (UInt16.size - (j - i) % 2 ^ 16) % UInt16.size
  rw [← UInt16.neg_sub, UInt16.toNat_neg, toNat_seqNo_sub base (Nat.le_of_lt h)]

/-- Positions compare on the wire as they do in the stream. -/
theorem serial_le_seqNo (base : UInt16) {i j : Nat} (hij : i < j + 2 ^ 15)
    (hji : j ≤ i + 2 ^ 15) :
    (seqNo base i - seqNo base j).toInt16 ≤ 0 ↔ i ≤ j := by
  rw [toInt16_sub_nonpos]
  rcases Nat.lt_or_ge i j with h | h
  · rw [toNat_seqNo_sub_of_lt base h]; omega
  · rw [toNat_seqNo_sub base h]; omega

theorem seqNo_inj {base : UInt16} {i j : Nat} (hij : i < j + 2 ^ 16) (hji : j < i + 2 ^ 16)
    (h : seqNo base i = seqNo base j) : i = j := by
  rcases Nat.le_total i j with hle | hle
  · have := toNat_seqNo_sub base hle
    rw [h] at this; simp at this; omega
  · have := toNat_seqNo_sub base hle
    rw [h] at this; simp at this; omega

/-! ## Numbered lists -/

universe u

variable {α : Type u}

/-- The items of a stream with their wire numbers. -/
def numbered (base : UInt16) (xs : List α) : List (UInt16 × α) :=
  xs.mapIdx fun i x => (seqNo base i, x)

@[simp] theorem numbered_nil (base : UInt16) : numbered base ([] : List α) = [] := rfl

@[simp] theorem length_numbered (base : UInt16) (xs : List α) :
    (numbered base xs).length = xs.length := by simp [numbered]

theorem numbered_cons (base : UInt16) (x : α) (xs : List α) :
    numbered base (x :: xs) = (base, x) :: numbered (base + 1) xs := by
  have h : ∀ i, seqNo base (i + 1) = seqNo (base + 1) i := fun i => by
    rw [Nat.add_comm, seqNo_add, seqNo_succ, seqNo_zero]
  simp [numbered, List.mapIdx_cons, h]

theorem numbered_append (base : UInt16) (xs ys : List α) :
    numbered base (xs ++ ys) = numbered base xs ++ numbered (seqNo base xs.length) ys := by
  simp [numbered, List.mapIdx_append, seqNo_add, Nat.add_comm _ xs.length]

@[simp] theorem map_snd_numbered (base : UInt16) (xs : List α) :
    (numbered base xs).map Prod.snd = xs := by
  induction xs generalizing base with
  | nil => rfl
  | cons x xs ih => rw [numbered_cons, List.map_cons, ih]

theorem getElem?_numbered (base : UInt16) (xs : List α) (i : Nat) :
    (numbered base xs)[i]? = xs[i]?.map (seqNo base i, ·) := by
  simp [numbered]

theorem mem_numbered {base : UInt16} {xs : List α} {e : UInt16 × α} :
    e ∈ numbered base xs ↔ ∃ i, xs[i]? = some e.2 ∧ e.1 = seqNo base i := by
  simp only [List.mem_iff_getElem?, getElem?_numbered, Option.map_eq_some_iff]
  constructor
  · rintro ⟨i, x, hx, rfl⟩
    exact ⟨i, hx, rfl⟩
  · rintro ⟨i, hx, hs⟩
    exact ⟨i, e.2, hx, by rw [← hs]⟩

theorem mem_numbered_append {base : UInt16} {xs ys : List α} {e : UInt16 × α}
    (h : e ∈ numbered base xs) : e ∈ numbered base (xs ++ ys) := by
  rw [numbered_append]
  exact List.mem_append_left _ h

end FluxCore
