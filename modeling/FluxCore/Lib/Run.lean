import Mathlib.Data.Nat.Find
import Mathlib.Order.WellFounded
import Mathlib.Tactic.ByContra

/-!
# Runs of a deterministic machine

A machine is a step function `σ → ε → σ`; a run is the list of the events it takes. `Along step P s
es` says that every step of the run from `s` meets `P` (a condition on the state before the step and
its event), `Visits step Q s es` that every state the run goes through, the first and the last
included, meets `Q`. `visits_of_along` is the induction rule: an invariant that the steps meeting
`P` keep holds at every state of a run whose steps all meet `P`. `visits_iff_along` is its converse
form for a condition that is exact: where a step that breaks the condition leads to a state that
breaks the property, the two statements about a run agree.
-/

namespace FluxCore

universe u v

variable {σ : Type u} {ε : Type v} (step : σ → ε → σ)

/-- The state at the end of a run. -/
def exec : σ → List ε → σ
  | s, [] => s
  | s, e :: es => exec (step s e) es

/-- Every step of the run meets `P`. -/
def Along (P : σ → ε → Prop) : σ → List ε → Prop
  | _, [] => True
  | s, e :: es => P s e ∧ Along P (step s e) es

/-- Every state of the run meets `Q`. -/
def Visits (Q : σ → Prop) : σ → List ε → Prop
  | s, [] => Q s
  | s, e :: es => Q s ∧ Visits Q (step s e) es

variable {step} {P P' : σ → ε → Prop} {Q Q' Inv : σ → Prop}

instance Along.decidable [∀ s e, Decidable (P s e)] : ∀ s es, Decidable (Along step P s es)
  | _, [] => inferInstanceAs (Decidable True)
  | s, e :: es =>
    have := Along.decidable (step s e) es
    inferInstanceAs (Decidable (P s e ∧ Along step P (step s e) es))

instance Visits.decidable [∀ s, Decidable (Q s)] : ∀ s es, Decidable (Visits step Q s es)
  | s, [] => inferInstanceAs (Decidable (Q s))
  | s, e :: es =>
    have := Visits.decidable (step s e) es
    inferInstanceAs (Decidable (Q s ∧ Visits step Q (step s e) es))

theorem exec_append (s : σ) (es es' : List ε) :
    exec step s (es ++ es') = exec step (exec step s es) es' := by
  induction es generalizing s with
  | nil => rfl
  | cons e es ih => exact ih _

theorem Along.mono (hPP : ∀ s e, P s e → P' s e) {s : σ} {es : List ε} (h : Along step P s es) :
    Along step P' s es := by
  induction es generalizing s with
  | nil => trivial
  | cons e es ih => exact ⟨hPP s e h.1, ih h.2⟩

theorem Along.of_forall (hP : ∀ s e, P s e) {s : σ} {es : List ε} : Along step P s es := by
  induction es generalizing s with
  | nil => trivial
  | cons e es ih => exact ⟨hP s e, ih⟩

theorem Along.and {s : σ} {es : List ε} (h : Along step P s es) (h' : Along step P' s es) :
    Along step (fun s e => P s e ∧ P' s e) s es := by
  induction es generalizing s with
  | nil => trivial
  | cons e es ih => exact ⟨⟨h.1, h'.1⟩, ih h.2 h'.2⟩

theorem Visits.head {s : σ} {es : List ε} (h : Visits step Q s es) : Q s := by
  cases es with
  | nil => exact h
  | cons e es => exact h.1

theorem Visits.last {s : σ} {es : List ε} (h : Visits step Q s es) : Q (exec step s es) := by
  induction es generalizing s with
  | nil => exact h
  | cons e es ih => exact ih h.2

/-- The part of a run behind its first events is a run of its own. -/
theorem Visits.of_append {s : σ} {es es' : List ε} (h : Visits step Q s (es ++ es')) :
    Visits step Q (exec step s es) es' := by
  induction es generalizing s with
  | nil => exact h
  | cons e es ih => exact ih h.2

theorem Along.of_append {s : σ} {es es' : List ε} (h : Along step P s (es ++ es')) :
    Along step P (exec step s es) es' := by
  induction es generalizing s with
  | nil => exact h
  | cons e es ih => exact ih h.2

/-- The invariant rule. -/
theorem visits_of_along (hstep : ∀ s e, Inv s → P s e → Inv (step s e))
    (hQ : ∀ s, Inv s → Q s) {s : σ} {es : List ε} (h0 : Inv s) (h : Along step P s es) :
    Visits step Q s es := by
  induction es generalizing s with
  | nil => exact hQ s h0
  | cons e es ih => exact ⟨hQ s h0, ih (hstep s e h0 h.1) h.2⟩

/-- The invariant rule for the steps of a run. -/
theorem along_of_along (hstep : ∀ s e, Inv s → P s e → Inv (step s e))
    (hP : ∀ s e, Inv s → P s e → P' s e) {s : σ} {es : List ε} (h0 : Inv s)
    (h : Along step P s es) : Along step P' s es := by
  induction es generalizing s with
  | nil => trivial
  | cons e es ih => exact ⟨hP s e h0 h.1, ih (hstep s e h0 h.1) h.2⟩

/-- What an invariant makes equivalent holds along the same runs. -/
theorem visits_congr (hstep : ∀ s e, Inv s → Inv (step s e)) (hQ : ∀ s, Inv s → (Q s ↔ Q' s))
    {s : σ} {es : List ε} (h0 : Inv s) : Visits step Q s es ↔ Visits step Q' s es := by
  induction es generalizing s with
  | nil => exact hQ s h0
  | cons e es ih => exact and_congr (hQ s h0) (ih (hstep s e h0))

/-- The invariant rule for the end of a run. -/
theorem exec_of_along (hstep : ∀ s e, Inv s → P s e → Inv (step s e)) {s : σ} {es : List ε}
    (h0 : Inv s) (h : Along step P s es) : Inv (exec step s es) :=
  (visits_of_along (Q := Inv) hstep (fun _ hs => hs) h0 h).last

/-- Among the runs whose steps meet `P`, those that stay inside `Q` are those whose steps meet `P'`,
when a step that meets `P'` keeps the invariant and one that does not leads outside `Q`. -/
theorem visits_iff_along (hstep : ∀ s e, Inv s → P s e → P' s e → Inv (step s e))
    (hQ : ∀ s, Inv s → Q s) (hbad : ∀ s e, Inv s → P s e → ¬P' s e → ¬Q (step s e))
    {s : σ} {es : List ε} (h0 : Inv s) (h : Along step P s es) :
    Visits step Q s es ↔ Along step P' s es := by
  induction es generalizing s with
  | nil => exact ⟨fun _ => trivial, fun _ => hQ s h0⟩
  | cons e es ih =>
    constructor
    · rintro ⟨-, htl⟩
      have hP' : P' s e := by
        by_contra hn
        exact hbad s e h0 h.1 hn htl.head
      exact ⟨hP', (ih (hstep s e h0 h.1 hP') h.2).mp htl⟩
    · rintro ⟨hP', htl⟩
      exact ⟨hQ s h0, (ih (hstep s e h0 h.1 hP') h.2).mpr htl⟩

/-! ## Runs without an end -/

/-- The state after `n` of the events. -/
def stateAt (step : σ → ε → σ) (s : σ) (e : Nat → ε) : Nat → σ
  | 0 => s
  | n + 1 => step (stateAt step s e n) (e n)

theorem stateAt_eq_of_unchanged {s : σ} {e : Nat → ε} {n m : Nat} (hnm : n ≤ m)
    (h : ∀ k, n ≤ k → k < m → stateAt step s e (k + 1) = stateAt step s e k) :
    stateAt step s e m = stateAt step s e n := by
  induction m, hnm using Nat.le_induction with
  | base => rfl
  | succ m hnm ih =>
    exact (h m hnm m.lt_succ_self).trans (ih fun k hk hlt => h k hk (hlt.trans m.lt_succ_self))

/-- A run that never stops changing leaves a region in which every change lowers a rank. -/
theorem exists_not_of_rank {α : Type u} {r : α → α → Prop} (hwf : WellFounded r) (rank : σ → α)
    {s : σ} {e : Nat → ε}
    (hrank : ∀ n, Q (stateAt step s e n) → stateAt step s e (n + 1) ≠ stateAt step s e n →
      r (rank (stateAt step s e (n + 1))) (rank (stateAt step s e n)))
    (hchange : ∀ n, ∃ m, n ≤ m ∧ stateAt step s e (m + 1) ≠ stateAt step s e m) :
    ∃ n, ¬Q (stateAt step s e n) := by
  classical
  by_contra hall
  push Not at hall
  have hdescent : ∀ a n, rank (stateAt step s e n) = a → False := by
    intro a
    induction a using hwf.induction with
    | _ a ih =>
      rintro n rfl
      obtain ⟨hm, hne⟩ := Nat.find_spec (hchange n)
      have hsame := stateAt_eq_of_unchanged hm fun k hk hlt => by
        by_contra hck
        exact Nat.find_min (hchange n) hlt ⟨hk, hck⟩
      have hlower := hrank _ (hall _) hne
      rw [hsame] at hlower
      exact ih _ hlower _ rfl
  exact hdescent _ 0 rfl

end FluxCore
