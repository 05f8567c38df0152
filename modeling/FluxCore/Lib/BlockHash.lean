import Mathlib.Data.List.Basic
import Mathlib.Order.Basic
import Mathlib.Tactic.Basic

/-!
# Hashes of blocks

A hash function that compresses its input block by block, as it is computed on a stream: the state
after the full blocks that have arrived, and the bytes of the block that is not full yet.
`Absorbs.append` is the rule of a stream: however the input is cut, the state is the one of the
input as a whole.
-/

namespace FluxCore.BlockHash

universe u v

variable {α : Type u} {σ : Type v} (compress : σ → List α → σ) (B : Nat)

/-- The state after the first `n` blocks. -/
def absorb : Nat → σ → List α → σ
  | 0, s, _ => s
  | n + 1, s, m => absorb n (compress s (m.take B)) (m.drop B)

/-- All full blocks, in a loop that is given fuel. -/
def absorbLoop : Nat → σ → List α → σ × List α
  | 0, s, m => (s, m)
  | fuel + 1, s, m =>
    if B ≤ m.length then absorbLoop fuel (compress s (m.take B)) (m.drop B) else (s, m)

/-- `s` and `tail` are what the stream `m` leaves: the state after its full blocks, and the rest. -/
structure Absorbs (init s : σ) (tail m : List α) : Prop where
  state : s = absorb compress B (m.length / B) init m
  tail : tail = m.drop (m.length / B * B)

/-- `data` written into the buffer from `index` on. -/
def overwrite (buffer : List α) (index : Nat) (data : List α) : List α :=
  buffer.take index ++ data ++ buffer.drop (index + data.length)

variable {compress B} {init s : σ} {tail m : List α}

/-! ## Blocks -/

theorem absorb_add (n k : Nat) (s : σ) (m : List α) : absorb compress B (n + k) s m =
    absorb compress B k (absorb compress B n s m) (m.drop (n * B)) := by
  induction n generalizing s m with
  | zero => simp [absorb]
  | succ n ih =>
    rw [Nat.succ_add, absorb, ih, absorb, List.drop_drop, Nat.succ_mul, Nat.add_comm B]

/-- Full blocks are not changed by what follows them. -/
theorem absorb_append (n : Nat) (s : σ) {m : List α} (x : List α) (h : n * B ≤ m.length) :
    absorb compress B n s (m ++ x) = absorb compress B n s m := by
  induction n generalizing s m with
  | zero => rfl
  | succ n ih =>
    rw [Nat.succ_mul] at h
    rw [absorb, absorb, List.take_append_of_le_length (by omega),
      List.drop_append_of_le_length (by omega)]
    exact ih _ (by rw [List.length_drop]; omega)

theorem absorbLoop_eq (hB : 0 < B) (fuel : Nat) (s : σ) (m : List α) (h : m.length ≤ fuel) :
    absorbLoop compress B fuel s m =
      (absorb compress B (m.length / B) s m, m.drop (m.length / B * B)) := by
  induction fuel generalizing s m with
  | zero =>
    have hm : m = [] := List.length_eq_zero_iff.mp (Nat.le_zero.mp h)
    simp [hm, absorbLoop, absorb]
  | succ fuel ih =>
    unfold absorbLoop
    split
    next hle =>
      rw [ih _ _ (by rw [List.length_drop]; omega), List.length_drop]
      have hdiv : m.length / B = (m.length - B) / B + 1 := Nat.div_eq_sub_div hB hle
      rw [hdiv, absorb, List.drop_drop, Nat.succ_mul, Nat.add_comm B]
    next hlt =>
      rw [Nat.div_eq_of_lt (Nat.lt_of_not_le hlt), Nat.zero_mul]
      rfl

/-! ## Streams -/

theorem Absorbs.nil (init : σ) : Absorbs compress B init init [] ([] : List α) := by
  constructor <;> simp [absorb]

theorem Absorbs.length_tail (h : Absorbs compress B init s tail m) :
    tail.length = m.length % B := by
  rw [h.tail, List.length_drop]
  have := Nat.div_add_mod m.length B
  rw [Nat.mul_comm] at this
  omega

/-- What arrives is absorbed behind the rest. -/
theorem Absorbs.append (hB : 0 < B) (h : Absorbs compress B init s tail m) (data : List α) :
    Absorbs compress B init
      (absorb compress B ((tail ++ data).length / B) s (tail ++ data))
      ((tail ++ data).drop ((tail ++ data).length / B * B)) (m ++ data) := by
  have hfull : m.length / B * B ≤ m.length := Nat.div_mul_le_self ..
  have htail : (m ++ data).drop (m.length / B * B) = tail ++ data := by
    rw [List.drop_append_of_le_length hfull, h.tail]
  have hcount : (m ++ data).length / B = m.length / B + (tail ++ data).length / B := by
    have hsplit : (m ++ data).length = (tail ++ data).length + m.length / B * B := by
      rw [List.length_append, List.length_append, h.tail, List.length_drop]
      omega
    rw [hsplit, Nat.add_mul_div_right _ _ hB, Nat.add_comm]
  constructor
  · rw [hcount, absorb_add, absorb_append _ _ _ hfull, ← h.state, htail]
  · rw [hcount, Nat.add_mul, ← List.drop_drop, htail]

/-- Too little for a block is kept. -/
theorem Absorbs.keep (hB : 0 < B) (h : Absorbs compress B init s tail m) {data : List α}
    (hlt : tail.length + data.length < B) :
    Absorbs compress B init s (tail ++ data) (m ++ data) := by
  have hall := h.append hB data
  rwa [List.length_append, Nat.div_eq_of_lt hlt, Nat.zero_mul] at hall

/-- The block that becomes full is compressed, and then those that follow it. -/
theorem Absorbs.fill (hB : 0 < B) (h : Absorbs compress B init s tail m) {data : List α}
    (htail : tail.length ≤ B) (hle : B ≤ tail.length + data.length) :
    let rest := data.drop (B - tail.length)
    Absorbs compress B init
      (absorb compress B (rest.length / B)
        (compress s (tail ++ data.take (B - tail.length))) rest)
      (rest.drop (rest.length / B * B)) (m ++ data) := by
  intro rest
  have hall := h.append hB data
  have hrest : (tail ++ data).drop B = rest := by
    rw [List.drop_append, List.drop_of_length_le htail, List.nil_append]
  have hfirst : (tail ++ data).take B = tail ++ data.take (B - tail.length) := by
    rw [List.take_append, List.take_of_length_le htail]
  have hcount : (tail ++ data).length / B = rest.length / B + 1 := by
    rw [← hrest, List.length_drop]
    exact Nat.div_eq_sub_div hB (by simpa using hle)
  rw [hcount, absorb, hrest, hfirst, Nat.succ_mul, Nat.add_comm _ B, ← List.drop_drop, hrest] at hall
  exact hall

/-! ## Buffers -/

theorem length_overwrite {buffer data : List α} {index : Nat}
    (h : index + data.length ≤ buffer.length) :
    (overwrite buffer index data).length = buffer.length := by
  simp [overwrite]
  omega

theorem take_overwrite {buffer data : List α} {index : Nat}
    (h : index + data.length ≤ buffer.length) :
    (overwrite buffer index data).take (index + data.length) = buffer.take index ++ data := by
  have hlen : (buffer.take index ++ data).length = index + data.length := by
    simp
    omega
  unfold overwrite
  rw [← hlen, List.take_left]

/-- A buffer that becomes full. -/
theorem overwrite_full {buffer data : List α} {index : Nat}
    (h : index + data.length = buffer.length) :
    overwrite buffer index data = buffer.take index ++ data := by
  unfold overwrite
  rw [List.drop_of_length_le (Nat.le_of_eq h.symm), List.append_nil]

end FluxCore.BlockHash
