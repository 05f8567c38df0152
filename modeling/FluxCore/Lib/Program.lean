import Mathlib.Init

/-!
# Programs that throw and can be stopped

A program over a state returns a value or throws an exception, and keeps the state it has reached in
both cases; a failed assertion stops it, and then there is no state. `WF s x Q` is partial
correctness: whenever `x`, started in `s`, comes to an end, the outcome and the state it leaves meet
`Q`. The rules follow the way a program is put together.
-/

namespace FluxCore

universe u

/-- A program over the states `σ` that may throw an `ε`. -/
abbrev Program (σ ε : Type u) := ExceptT ε (StateT σ Option)

namespace Program

variable {σ ε α β : Type u} {s : σ} {x : Program σ ε α} {f : α → Program σ ε β}
  {Q Q' : Except ε α → σ → Prop} {R : Except ε β → σ → Prop}

/-- The outcome of a program and the state it leaves; `none` where an assertion stopped it. -/
def exec (x : Program σ ε α) (s : σ) : Option (Except ε α × σ) := x.run.run s

/-- What a failed assertion does. -/
def stop : Program σ ε α := ExceptT.mk fun _ => none

/-- `assert(p)`. -/
def assert (p : Prop) [Decidable p] : Program σ ε PUnit := if p then pure ⟨⟩ else stop

/-- Where the program comes to an end, `Q` holds of its outcome and of the state it leaves. -/
def WF (s : σ) (x : Program σ ε α) (Q : Except ε α → σ → Prop) : Prop :=
  ∀ r s', x.exec s = some (r, s') → Q r s'

theorem exec_bind (x : Program σ ε α) (f : α → Program σ ε β) :
    exec (x >>= f) s = (x.exec s).bind fun
      | (.ok a, s') => (f a).exec s'
      | (.error e, s') => some (.error e, s') := by
  change (x.run.run s).bind _ = _
  unfold exec
  congr 1
  funext r
  rcases r with ⟨_ | _, _⟩ <;> rfl

theorem WF.mono (h : WF s x Q) (hQ : ∀ r s', Q r s' → Q' r s') : WF s x Q' :=
  fun r s' hr => hQ r s' (h r s' hr)

theorem WF.pure {a : α} (h : Q (.ok a) s) : WF s (Pure.pure a) Q := by
  rintro r s' ⟨⟩
  exact h

theorem WF.throw {e : ε} (h : Q (.error e) s) : WF s (MonadExcept.throw e) Q := by
  rintro r s' ⟨⟩
  exact h

theorem WF.stop : WF s (stop : Program σ ε α) Q := nofun

/-- The rule of sequencing: an exception of the first program is the outcome of the whole. -/
theorem WF.bind (h : WF s x Q) (hok : ∀ a s', Q (.ok a) s' → WF s' (f a) R)
    (herror : ∀ e s', Q (.error e) s' → R (.error e) s') : WF s (x >>= f) R := by
  intro r s' hr
  rw [exec_bind, Option.bind_eq_some_iff] at hr
  obtain ⟨⟨_ | a, s''⟩, hx, hr⟩ := hr
  · cases hr
    exact herror _ _ (h _ _ hx)
  · exact hok a s'' (h _ _ hx) r s' hr

theorem WF.get_bind {f : σ → Program σ ε β} (h : WF s (f s) R) : WF s (get >>= f) R := h

theorem WF.modify_bind {g : σ → σ} {f : PUnit → Program σ ε β} (h : WF (g s) (f ⟨⟩) R) :
    WF s (modify g >>= f) R := h

theorem WF.modify {g : σ → σ} {Q : Except ε PUnit → σ → Prop} (h : Q (.ok ⟨⟩) (g s)) :
    WF s (MonadState.modifyGet fun s => (⟨⟩, g s)) Q := by
  rintro r s' ⟨⟩
  exact h

theorem WF.throw_bind {e : ε} (h : R (.error e) s) :
    WF s ((MonadExcept.throw e : Program σ ε α) >>= f) R := by
  rintro r s' ⟨⟩
  exact h

theorem WF.assert_bind {p : Prop} [Decidable p] {f : PUnit → Program σ ε β}
    (h : p → WF s (f ⟨⟩) R) : WF s (assert p >>= f) R := by
  unfold assert
  split
  next hp => exact h hp
  next => exact nofun

end Program

end FluxCore
