import Mathlib.Init

/-!
# Counting loops over arrays

`forUp n body` and `forDown n body` are the loops over the numbers below `n`, up from 0 or down to
it, with a body that can fail (`none`), as a read or a write does that is out of the range of its
array. An invariant that goes from one number to the next goes through the loop, and then the loop
does not fail.
-/

namespace FluxCore

universe u

variable {σ α : Type u}

/-- `for (i = 0; i < n; ++i)`. -/
def forUp (body : Nat → σ → Option σ) : Nat → σ → Option σ
  | 0, s => some s
  | n + 1, s => (forUp body n s).bind (body n)

/-- `for (i = n; i-- > 0;)`. -/
def forDown (body : Nat → σ → Option σ) : Nat → σ → Option σ
  | 0, s => some s
  | n + 1, s => (body n s).bind (forDown body n)

/-- `xs[i] = x`. -/
def put (xs : List α) (i : Nat) (x : α) : Option (List α) :=
  if i < xs.length then some (xs.set i x) else none

variable (body : Nat → σ → Option σ) (I : Nat → σ → Prop) (n : Nat) (s : σ)

theorem forUp_spec (h0 : I 0 s)
    (hstep : ∀ i s, i < n → I i s → ∃ s', body i s = some s' ∧ I (i + 1) s') :
    ∃ s', forUp body n s = some s' ∧ I n s' := by
  induction n with
  | zero => exact ⟨s, rfl, h0⟩
  | succ n ih =>
    obtain ⟨s', hs', hI⟩ := ih fun i s hi => hstep i s (Nat.lt_succ_of_lt hi)
    obtain ⟨s'', hs'', hI'⟩ := hstep n s' (Nat.lt_succ_self n) hI
    exact ⟨s'', by rw [forUp, hs', Option.bind_some, hs''], hI'⟩

theorem forDown_spec (hn : I n s)
    (hstep : ∀ i s, i < n → I (i + 1) s → ∃ s', body i s = some s' ∧ I i s') :
    ∃ s', forDown body n s = some s' ∧ I 0 s' := by
  induction n generalizing s with
  | zero => exact ⟨s, rfl, hn⟩
  | succ n ih =>
    obtain ⟨s', hs', hI⟩ := hstep n s (Nat.lt_succ_self n) hn
    obtain ⟨s'', hs'', hI'⟩ := ih s' hI fun i s hi => hstep i s (Nat.lt_succ_of_lt hi)
    exact ⟨s'', by rw [forDown, hs', Option.bind_some, hs''], hI'⟩

theorem put_eq {xs : List α} {i : Nat} (h : i < xs.length) (x : α) :
    put xs i x = some (xs.set i x) := if_pos h

end FluxCore
