import Mathlib.Tactic.Basic
import Mathlib.Data.List.Basic

/-!
# Scanners

A scanner is a loop over a list with a state: each turn looks at the list from the current place on,
goes on behind what it has read, or fails. A turn may read nothing, but then the state takes a lower
`rank`, so that the loop comes to an end. `Steps` is what the loop does between two of its states,
and `run_of_steps` says that the loop may be followed step by step.
-/

namespace FluxCore

variable {σ α ε : Type}

/-- Where a turn leads: to a state with what is left to read, or to an error. -/
inductive Turn (σ α ε : Type) where
  | go (s : σ) (rest : List α)
  | fail (s : σ) (e : ε)

theorem Turn.not_fail_eq_go {s s' : σ} {e : ε} {rest : List α} :
    some (Turn.fail s e) ≠ some (Turn.go s' rest) := nofun

/-- A loop over a list; a turn is `none` where an assertion of it fails. -/
structure Scanner (σ α ε : Type) where
  finished : σ → Bool
  turn : σ → α → List α → Option (Turn σ α ε)
  rank : σ → Nat
  decreases : ∀ {s c cs s' rest}, turn s c cs = some (.go s' rest) →
    2 * rest.length + rank s' < 2 * (cs.length + 1) + rank s

namespace Scanner

variable (m : Scanner σ α ε) {s s' s'' : σ} {c : α} {cs data rest rest' : List α}

/-- The loop, with at most `fuel` turns. -/
def loop : Nat → σ → List α → Option (Turn σ α ε)
  | 0, s, data => some (.go s data)
  | _ + 1, s, [] => some (.go s [])
  | fuel + 1, s, c :: cs =>
    if m.finished s then some (.go s (c :: cs))
    else
      match m.turn s c cs with
      | none => none
      | some (.fail s' e) => some (.fail s' e)
      | some (.go s' rest) => loop fuel s' rest

/-- The loop; it never takes more turns than these. -/
def run (s : σ) (data : List α) : Option (Turn σ α ε) :=
  m.loop (2 * data.length + m.rank s) s data

theorem loop_of_le {fuel : Nat} (h : 2 * data.length + m.rank s ≤ fuel) :
    m.loop fuel s data = m.run s data := by
  have hloop : ∀ fuel fuel' s data, 2 * data.length + m.rank s ≤ fuel →
      2 * data.length + m.rank s ≤ fuel' → m.loop fuel s data = m.loop fuel' s data := by
    intro fuel
    induction fuel with
    | zero =>
      intro fuel' s data h _
      obtain rfl := List.length_eq_zero_iff.mp (by omega : data.length = 0)
      cases fuel' <;> rfl
    | succ fuel ih =>
      intro fuel' s data h h'
      cases data with
      | nil => cases fuel' <;> rfl
      | cons c cs =>
        rw [List.length_cons] at h h'
        obtain ⟨fuel', rfl⟩ := Nat.exists_eq_succ_of_ne_zero (by omega : fuel' ≠ 0)
        unfold loop
        split
        · rfl
        · split
          · rfl
          · rfl
          next hturn =>
            have := m.decreases hturn
            exact ih fuel' _ _ (by omega) (by omega)
  exact hloop _ _ _ _ h (Nat.le_refl _)

@[simp] theorem run_nil : m.run s [] = some (.go s []) := by
  unfold run
  cases 2 * ([] : List α).length + m.rank s <;> rfl

theorem run_of_finished (h : m.finished s = true) : m.run s data = some (.go s data) := by
  unfold run
  cases data with
  | nil => exact m.run_nil
  | cons c cs =>
    obtain ⟨fuel, hfuel⟩ := Nat.exists_eq_succ_of_ne_zero
      (by rw [List.length_cons]; omega : 2 * (c :: cs).length + m.rank s ≠ 0)
    rw [hfuel, loop, if_pos h]

/-- One turn of the loop. -/
theorem run_cons (h : m.finished s = false) : m.run s (c :: cs) =
    match m.turn s c cs with
    | none => none
    | some (.fail s' e) => some (.fail s' e)
    | some (.go s' rest) => m.run s' rest := by
  obtain ⟨fuel, hfuel⟩ := Nat.exists_eq_succ_of_ne_zero
    (by rw [List.length_cons]; omega : 2 * (c :: cs).length + m.rank s ≠ 0)
  rw [run, hfuel, loop, if_neg (Bool.eq_false_iff.mp h)]
  split
  · rfl
  · rfl
  next hturn =>
    have := m.decreases hturn
    rw [List.length_cons] at hfuel
    exact m.loop_of_le (by omega)

/-- The loop leads from one state and place to another. -/
inductive Steps : σ → List α → σ → List α → Prop
  | refl (t : σ) (bs : List α) : Steps t bs t bs
  | head {t t' t'' : σ} {b : α} {bs bs' bs'' : List α} (hgoing : m.finished t = false)
    (hturn : m.turn t b bs = some (.go t' bs')) (h : Steps t' bs' t'' bs'') :
    Steps t (b :: bs) t'' bs''

variable {m}

theorem Steps.one (hgoing : m.finished s = false) (hturn : m.turn s c cs = some (.go s' rest)) :
    m.Steps s (c :: cs) s' rest := .head hgoing hturn (.refl ..)

theorem Steps.trans (h : m.Steps s data s' rest) (h' : m.Steps s' rest s'' rest') :
    m.Steps s data s'' rest' := by
  induction h with
  | refl => exact h'
  | head hgoing hturn _ ih => exact .head hgoing hturn (ih h')

/-- The loop goes on from wherever it has been led. -/
theorem run_of_steps (h : m.Steps s data s' rest) : m.run s data = m.run s' rest := by
  induction h with
  | refl => rfl
  | head hgoing hturn _ ih => rw [m.run_cons hgoing, hturn, ← ih]

/-- What every turn keeps holds wherever the loop leads. -/
theorem Steps.inv {I : σ → Prop} (h : m.Steps s data s' rest) (hs : I s)
    (hturn : ∀ {t t' : σ} {b bs bs'}, I t → m.turn t b bs = some (.go t' bs') → I t') : I s' := by
  induction h with
  | refl => exact hs
  | head _ hgo _ ih => exact ih (hturn hs hgo)

theorem Steps.length_le (h : m.Steps s data s' rest) :
    2 * rest.length + m.rank s' ≤ 2 * data.length + m.rank s := by
  induction h with
  | refl => exact Nat.le_refl _
  | head _ hgo _ ih =>
    have := m.decreases hgo
    rw [List.length_cons]
    omega

variable (m) in
/-- The loop comes to the end of the list or finishes, or to a turn that does not go on. -/
theorem run_cases (s : σ) (data : List α) :
    (∃ s' rest, m.Steps s data s' rest ∧ (rest = [] ∨ m.finished s' = true) ∧
      m.run s data = some (.go s' rest)) ∨
    ∃ s' c cs, m.Steps s data s' (c :: cs) ∧ m.finished s' = false ∧
      m.run s data = m.turn s' c cs ∧ ∀ t rest, m.turn s' c cs ≠ some (.go t rest) := by
  generalize hn : 2 * data.length + m.rank s = n
  induction n using Nat.strongRecOn generalizing s data with
  | ind n ih =>
    subst hn
    cases data with
    | nil => exact .inl ⟨s, [], .refl _ _, .inl rfl, m.run_nil⟩
    | cons c cs =>
      cases hgoing : m.finished s with
      | true => exact .inl ⟨s, c :: cs, .refl _ _, .inr hgoing, m.run_of_finished hgoing⟩
      | false =>
        by_cases hgo : ∃ t rest, m.turn s c cs = some (.go t rest)
        · obtain ⟨t, rest, hgo⟩ := hgo
          have hlt := m.decreases hgo
          have hrun : m.run s (c :: cs) = m.run t rest := by rw [m.run_cons hgoing, hgo]
          rw [hrun]
          rcases ih _ (by rw [List.length_cons]; exact hlt) t rest rfl with
            ⟨s', rest', hsteps, hend⟩ | ⟨s', c', cs', hsteps, hend⟩
          · exact .inl ⟨s', rest', .head hgoing hgo hsteps, hend⟩
          · exact .inr ⟨s', c', cs', .head hgoing hgo hsteps, hend⟩
        · refine .inr ⟨s, c, cs, .refl _ _, hgoing, ?_, fun t rest h => hgo ⟨t, rest, h⟩⟩
          rw [m.run_cons hgoing]
          split
          next h => exact h.symm
          next h => exact h.symm
          next h => exact absurd ⟨_, _, h⟩ hgo

/-! ## Turns -/

/-- The turn reads the item it looks at. -/
def Reads (x : Option (Turn σ α ε)) (rest : List α) : Prop :=
  ∀ s' rest', x = some (.go s' rest') → rest'.length ≤ rest.length

/-- A turn that looks at no more than one item. -/
def Uniform (f : List α → Option (Turn σ α ε)) : Prop :=
  (∀ rest, f rest = none) ∨ (∃ s e, ∀ rest, f rest = some (.fail s e)) ∨
    ∃ s, ∀ rest, f rest = some (.go s rest)

namespace Uniform

variable {f g : List α → Option (Turn σ α ε)}

theorem go (s : σ) : Uniform fun rest : List α => (some (.go s rest) : Option (Turn σ α ε)) :=
  .inr (.inr ⟨s, fun _ => rfl⟩)

theorem fail (s : σ) (e : ε) : Uniform fun _ : List α => (some (.fail s e) : Option (Turn σ α ε)) :=
  .inr (.inl ⟨s, e, fun _ => rfl⟩)

theorem bind {β : Type} (x : Option β) {f : β → List α → Option (Turn σ α ε)}
    (h : ∀ b, Uniform (f b)) : Uniform fun rest => x >>= fun b => f b rest := by
  cases x with
  | none => exact .inl fun _ => rfl
  | some b => exact h b

theorem ite {b : Prop} [Decidable b] (hf : Uniform f) (hg : ¬b → Uniform g) :
    Uniform fun rest => if b then f rest else g rest := by
  by_cases hb : b
  · simpa only [if_pos hb] using hf
  · simpa only [if_neg hb] using hg hb

theorem reads (h : Uniform f) (rest : List α) : Reads (f rest) rest := by
  intro s' rest' hgo
  obtain h | ⟨s, e, h⟩ | ⟨s, h⟩ := h
  · rw [h] at hgo
    exact nomatch hgo
  · rw [h] at hgo
    exact absurd hgo Turn.not_fail_eq_go
  · rw [h] at hgo
    cases hgo
    exact Nat.le_refl _

end Uniform

/-! ## Continuing where the list ended -/

/-- Outcomes that are the same, or the same failure up to what `R` allows in the state. -/
def Alike (R : σ → σ → Prop) (x y : Option (Turn σ α ε)) : Prop :=
  x = y ∨ ∃ s s' e, x = some (.fail s e) ∧ y = some (.fail s' e) ∧ R s s'

variable {R : σ → σ → Prop}

theorem Alike.refl (x : Option (Turn σ α ε)) : Alike R x x := .inl rfl

theorem Alike.trans (hR : ∀ s s' s'', R s s' → R s' s'' → R s s'') {x y z : Option (Turn σ α ε)}
    (h : Alike R x y) (h' : Alike R y z) : Alike R x z := by
  obtain rfl | ⟨s₁, s₂, e, rfl, rfl, hR₁⟩ := h
  · exact h'
  · obtain rfl | ⟨_, s₃, e', heq, rfl, hR₂⟩ := h'
    · exact .inr ⟨s₁, s₂, e, rfl, rfl, hR₁⟩
    · cases heq
      exact .inr ⟨s₁, s₃, e, rfl, rfl, hR _ _ _ hR₁ hR₂⟩

/-- The loop behind an outcome of a turn. -/
def after (m : Scanner σ α ε) (ys : List α) : Option (Turn σ α ε) → Option (Turn σ α ε)
  | none => none
  | some (.fail s e) => some (.fail s e)
  | some (.go s rest) => m.run s (rest ++ ys)

theorem Alike.after {x y : Option (Turn σ α ε)} (h : Alike R x y) (ys : List α) :
    Alike R (m.after ys x) (m.after ys y) := by
  obtain rfl | ⟨s, s', e, rfl, rfl, hR⟩ := h
  · exact .refl _
  · exact .inr ⟨s, s', e, rfl, rfl, hR⟩

theorem run_cons_after (h : m.finished s = false) :
    m.run s (c :: cs) = m.after [] (m.turn s c cs) := by
  rw [m.run_cons h]
  unfold after
  split
  · rfl
  · rfl
  · rw [List.append_nil]

variable (m R) in
/-- What a turn does when the list goes on behind its end: the same, or it goes on reading, as the
next turn would. -/
inductive Continues (s : σ) (c : α) (cs : List α) : Prop
  | none (h : ∀ ys, m.turn s c (cs ++ ys) = none)
  | fail (s' : σ) (e : ε) (h : ∀ ys, m.turn s c (cs ++ ys) = some (.fail s' e))
  | go (s' : σ) (rest : List α) (h : ∀ ys, m.turn s c (cs ++ ys) = some (.go s' (rest ++ ys)))
  | more (s' : σ) (hturn : m.turn s c cs = some (.go s' [])) (hgoing : m.finished s' = false)
    (h : ∀ y ys, Alike R (m.turn s c (cs ++ y :: ys)) (m.turn s' y ys) ∨
      m.turn s c (cs ++ y :: ys) = some (.go s' (y :: ys)))

theorem Uniform.continues (h : Uniform (m.turn s c)) (cs : List α) : m.Continues R s c cs := by
  obtain h | ⟨s', e, h⟩ | ⟨s', h⟩ := h
  · exact .none fun ys => h _
  · exact .fail s' e fun ys => h _
  · exact .go s' cs fun ys => h _

/-- A turn on a list that goes on, and the loop behind it. -/
theorem Continues.after (h : m.Continues R s c cs) (hgoing : m.finished s = false) (ys : List α) :
    Alike R (m.run s (c :: (cs ++ ys))) (m.after ys (m.turn s c cs)) := by
  rw [run_cons_after hgoing]
  cases h with
  | none h =>
    have hnil := h []
    rw [List.append_nil] at hnil
    rw [h, hnil]
    exact .refl _
  | fail s' e h =>
    have hnil := h []
    rw [List.append_nil] at hnil
    rw [h, hnil]
    exact .refl _
  | go s' rest h =>
    have hnil := h []
    rw [List.append_nil, List.append_nil] at hnil
    rw [h, hnil, Scanner.after, Scanner.after, List.append_nil]
    exact .refl _
  | more s' hturn hgoing' h =>
    rw [hturn]
    cases ys with
    | nil =>
      rw [List.append_nil, hturn]
      exact .refl _
    | cons y ys =>
      rcases h y ys with h | h
      · have hrun : m.run s' (y :: ys) = _ := run_cons_after hgoing'
        change Alike R _ (m.run s' (y :: ys))
        rw [hrun]
        exact h.after []
      · rw [h, Scanner.after, List.append_nil]
        exact .refl _

/-- Reading a list in two parts is reading it at once. -/
theorem run_append (hR : ∀ s s' s'', R s s' → R s' s'' → R s s'')
    (hm : ∀ s c cs, m.finished s = false → m.Continues R s c cs) (s : σ) (xs ys : List α) :
    Alike R (m.run s (xs ++ ys)) (m.after ys (m.run s xs)) := by
  generalize hn : 2 * xs.length + m.rank s = n
  induction n using Nat.strongRecOn generalizing s xs with
  | ind n ih =>
    subst hn
    cases xs with
    | nil =>
      rw [m.run_nil]
      exact .refl _
    | cons c cs =>
      cases hgoing : m.finished s with
      | true =>
        rw [m.run_of_finished hgoing, m.run_of_finished hgoing, Scanner.after,
          m.run_of_finished hgoing]
        exact .refl _
      | false =>
        refine .trans hR ((hm s c cs hgoing).after hgoing ys) ?_
        rw [m.run_cons hgoing]
        split
        next h => rw [h]; exact .refl _
        next h => rw [h]; exact .refl _
        next s' rest h =>
          have := m.decreases h
          rw [h]
          exact ih _ (by rw [List.length_cons]; omega) s' rest rfl

end Scanner

end FluxCore
