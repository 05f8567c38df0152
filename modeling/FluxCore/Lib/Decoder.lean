import Mathlib.Data.List.Infix

/-!
# Decoders

A decoder takes what it reads off the front of a list, or it fails. `Reads` says that a decoder
reads exactly one list: it leaves whatever follows, and it refuses the list where it has been cut
short. `Steady` says this of every list that a decoder reads. There is a rule for each way in which
decoders are put together.
-/

namespace FluxCore

abbrev Decoder (σ ε : Type) := StateT (List σ) (Except ε)

namespace Decoder

variable {σ ε α β : Type}

/-- The next `n` items. -/
def next (e : ε) (n : Nat) : Decoder σ ε (List σ) := fun s =>
  if n ≤ s.length then .ok (s.take n, s.drop n) else .error e

def times (r : Decoder σ ε α) : Nat → Decoder σ ε (List α)
  | 0 => pure []
  | n + 1 => do
    let a ← r
    let as ← times r n
    return a :: as

structure Reads (e : ε) (r : Decoder σ ε α) (s : List σ) (a : α) : Prop where
  whole (rest : List σ) : r (s ++ rest) = .ok (a, rest)
  short {p : List σ} (hp : p <+: s) (hne : p ≠ s) : r p = .error e

namespace Reads

variable {e : ε} {r : Decoder σ ε α} {f : α → Decoder σ ε β} {s t : List σ} {a : α} {b : β}

theorem pure (a : α) : Reads e (Pure.pure a : Decoder σ ε α) [] a where
  whole _ := rfl
  short hp hne := absurd (List.prefix_nil.mp hp) hne

theorem next {n : Nat} (hn : s.length = n) : Reads e (next e n) s s where
  whole rest := by
    rw [Decoder.next, ← hn, if_pos (by simp), List.take_left, List.drop_left]
  short {p} hp hne := by
    have hlt : p.length < s.length := hp.length_le.lt_of_ne fun h => hne (hp.eq_of_length h)
    rw [Decoder.next, ← hn, if_neg (Nat.not_le.mpr hlt)]

theorem bind (h : Reads e r s a) (h' : Reads e (f a) t b) : Reads e (r >>= f) (s ++ t) b where
  whole rest := by
    change (r (s ++ t ++ rest) >>= fun x => f x.1 x.2) = _
    rw [List.append_assoc, h.whole]
    exact h'.whole rest
  short {p} hp hne := by
    change (r p >>= fun x => f x.1 x.2) = _
    rcases List.prefix_or_prefix_of_prefix hp (List.prefix_append s t) with hps | hsp
    · by_cases hpe : p = s
      · have hnil : ([] : List σ) ≠ t := fun h0 => hne (by rw [hpe, ← h0, List.append_nil])
        rw [hpe, ← List.append_nil s, h.whole]
        exact h'.short List.nil_prefix hnil
      · rw [h.short hps hpe]
        rfl
    · -- The first part is whole, and the cut is in the second one.
      obtain ⟨q, rfl⟩ := hsp
      rw [h.whole]
      exact h'.short ((List.prefix_append_right_inj s).mp hp) fun hq =>
        hne (congrArg (s ++ ·) hq)

/-- The last step of a decoder. -/
theorem bind_pure (h : Reads e r s a) (g : α → β) :
    Reads e (r >>= fun a => Pure.pure (g a)) s (g a) := by
  have := h.bind (f := fun a => Pure.pure (g a)) (pure (g a))
  rwa [List.append_nil] at this

/-- What is encoded item by item is read item by item. -/
theorem times {γ : Type} {encode : γ → List σ} {g : γ → α} {l : List γ}
    (h : ∀ x ∈ l, Reads e r (encode x) (g x)) :
    Reads e (times r l.length) (l.flatMap encode) (l.map g) := by
  induction l with
  | nil => exact pure []
  | cons x l ih =>
    exact (h x (List.mem_cons_self ..)).bind
      ((ih fun y hy => h y (List.mem_cons_of_mem _ hy)).bind_pure (g x :: ·))

end Reads

/-- Whatever is read, is read wherever it stands, and refused where it has been cut short. -/
def Steady (e : ε) (r : Decoder σ ε α) : Prop :=
  ∀ ⦃s a rest⦄, r s = .ok (a, rest) → ∃ used, s = used ++ rest ∧ Reads e r used a

namespace Steady

variable {e : ε} {r : Decoder σ ε α} {f : α → Decoder σ ε β}

theorem pure (a : α) : Steady e (Pure.pure a : Decoder σ ε α) := by
  intro s a' rest h
  obtain ⟨rfl, rfl⟩ := Prod.mk.inj (Except.ok.inj h)
  exact ⟨[], rfl, .pure a⟩

theorem throw (e' : ε) : Steady e (MonadExceptOf.throw e' : Decoder σ ε α) := by
  intro s a rest h
  cases h

theorem next (n : Nat) : Steady e (Decoder.next e n : Decoder σ ε (List σ)) := by
  intro s a rest h
  rw [Decoder.next] at h
  split at h
  next hle =>
    obtain ⟨rfl, rfl⟩ := Prod.mk.inj (Except.ok.inj h)
    exact ⟨s.take n, (List.take_append_drop n s).symm,
      .next (List.length_take_of_le hle)⟩
  · cases h

theorem bind (h : Steady e r) (hf : ∀ a, Steady e (f a)) : Steady e (r >>= f) := by
  intro s b rest hok
  change (r s >>= fun x => f x.1 x.2) = _ at hok
  rcases hr : r s with e' | ⟨a, s'⟩
  · rw [hr] at hok
    cases hok
  · rw [hr] at hok
    obtain ⟨used, rfl, hreads⟩ := h hr
    obtain ⟨used', rfl, hreads'⟩ := hf a hok
    exact ⟨used ++ used', (List.append_assoc ..).symm, hreads.bind hreads'⟩

theorem times (h : Steady e r) (n : Nat) : Steady e (times r n) := by
  induction n with
  | zero => exact pure []
  | succ n ih => exact h.bind fun a => ih.bind fun as => pure (a :: as)

end Steady

end Decoder

end FluxCore
