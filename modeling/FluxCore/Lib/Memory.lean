import Mathlib.Tactic.SplitIfs

/-!
# What is known of a flat array

A memory gives the cells of an array that are known, by their position. Writing a list makes its
cells known, and cells whose contents have become uncertain are forgotten. `m.Le m'` says that `m`
knows nothing that `m'` does not.
-/

namespace FluxCore

universe u

/-- The known cells of an array. -/
def Memory (α : Type u) := Nat → Option α

namespace Memory

variable {α : Type u} {m m' : Memory α} {offset p : Nat} {data : List α}

def overwrite (m : Memory α) (offset : Nat) (data : List α) : Memory α := fun p =>
  if offset ≤ p ∧ p < offset + data.length then data[p - offset]? else m p

/-- The lists are written in turn. -/
def overwriteAll (m : Memory α) (ws : List (Nat × List α)) : Memory α :=
  ws.foldl (fun m w => m.overwrite w.1 w.2) m

/-- The cells of all the lists are forgotten. -/
def forgetAll (m : Memory α) (ws : List (Nat × List α)) : Memory α := fun p =>
  if ∃ w ∈ ws, w.1 ≤ p ∧ p < w.1 + w.2.length then none else m p

def Le (m m' : Memory α) : Prop := ∀ p b, m p = some b → m' p = some b

theorem overwrite_of_mem (h : offset ≤ p ∧ p < offset + data.length) :
    m.overwrite offset data p = data[p - offset]? := if_pos h

theorem overwrite_of_not_mem (h : ¬(offset ≤ p ∧ p < offset + data.length)) :
    m.overwrite offset data p = m p := if_neg h

end Memory

end FluxCore
