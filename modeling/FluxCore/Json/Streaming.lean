import FluxCore.Json.JsonParser
import Mathlib.Data.List.TakeWhile

/-!
# Texts that come in pieces

A text may be given to `parseUpdate` in any pieces: where a piece ends inside a string, an escape
or a number, the parser goes on with the next one as if there had been no cut.
-/

namespace FluxCore.Json

open Utp (Bytes)
open Struct
open Util (isDigit)

variable {μ : Type}

namespace JsonParser

/-- Two parsers that have stopped at an error, alike in what is still to be seen of them. -/
structure Frozen (p q : JsonParser μ) : Prop where
  left : p.currentState = .error
  right : q.currentState = .error
  psm : p.psm = q.psm
  stateStack : p.stateStack = q.stateStack
  lastError : p.lastError = q.lastError

theorem Frozen.trans {p q r : JsonParser μ} (h : p.Frozen q) (h' : q.Frozen r) : p.Frozen r :=
  ⟨h.left, h'.right, h.psm.trans h'.psm, h.stateStack.trans h'.stateStack,
    h.lastError.trans h'.lastError⟩

section Continues

open Scanner (Continues Alike)

variable {p p' : JsonParser μ} {c : UInt8} {cs xs ys rest : Bytes}

theorem takeWhile_append_of_drop {f : UInt8 → Bool} (ys : Bytes) (h : xs.dropWhile f = c :: rest) :
    (xs ++ ys).takeWhile f = xs.takeWhile f ∧ (xs ++ ys).dropWhile f = c :: (rest ++ ys) := by
  induction xs with
  | nil => exact nomatch h
  | cons x xs ih =>
    rw [List.cons_append]
    cases hx : f x with
    | true =>
      rw [List.dropWhile_cons_of_pos hx] at h
      rw [List.takeWhile_cons_of_pos hx, List.takeWhile_cons_of_pos hx,
        List.dropWhile_cons_of_pos hx]
      exact ⟨congrArg (x :: ·) (ih h).1, (ih h).2⟩
    | false =>
      have hx' : ¬f x = true := Bool.eq_false_iff.mp hx
      rw [List.dropWhile_cons_of_neg hx'] at h
      cases h
      rw [List.takeWhile_cons_of_neg hx', List.takeWhile_cons_of_neg hx',
        List.dropWhile_cons_of_neg hx']
      exact ⟨rfl, rfl⟩

theorem addNumber_append (p : JsonParser μ) (xs ys : Bytes) :
    p.addNumber (xs ++ ys) = (p.addNumber xs).bind fun p => p.addNumber ys := by
  induction xs generalizing p with
  | nil => rfl
  | cons c xs ih =>
    rw [List.cons_append, addNumber, addNumber]
    split
    · rfl
    · exact ih _

theorem addFrac_append (p : JsonParser μ) (xs ys : Bytes) :
    p.addFrac (xs ++ ys) = (p.addFrac xs).bind fun p => p.addFrac ys := by
  induction xs generalizing p with
  | nil => rfl
  | cons c xs ih => exact ih _

theorem addExp_append (p : JsonParser μ) (xs ys : Bytes) :
    p.addExp (xs ++ ys) = (p.addExp xs).bind fun p => p.addExp ys := by
  induction xs generalizing p with
  | nil => rfl
  | cons c xs ih =>
    rw [List.cons_append, addExp, addExp]
    split
    · rfl
    · exact ih _

/-- What taking digits leaves as it is. -/
def Counts (p p' : JsonParser μ) : Prop :=
  p'.currentState = p.currentState ∧ p'.psm = p.psm ∧ p'.stateStack = p.stateStack

theorem counts_addNumber (h : p.addNumber xs = some p') : p.Counts p' := by
  induction xs generalizing p with
  | nil => cases h; exact ⟨rfl, rfl, rfl⟩
  | cons c xs ih =>
    unfold addNumber at h
    split at h
    · exact nomatch h
    · exact (ih h :)

theorem counts_addFrac (h : p.addFrac xs = some p') : p.Counts p' := by
  induction xs generalizing p with
  | nil => cases h; exact ⟨rfl, rfl, rfl⟩
  | cons c xs ih => exact (ih h :)

theorem counts_addExp (h : p.addExp xs = some p') : p.Counts p' := by
  induction xs generalizing p with
  | nil => cases h; exact ⟨rfl, rfl, rfl⟩
  | cons c xs ih =>
    unfold addExp at h
    split at h
    · exact nomatch h
    · exact (ih h :)

variable [StructParserStateMachine μ]

/-- A loop over digits, entered from its own state or from another. -/
theorem continues_turnDigits {add : JsonParser μ → Bytes → Option (JsonParser μ)}
    {next : JsonParser μ → UInt8 → Bytes → Option (Step μ)} {p₀ : JsonParser μ}
    (happend : ∀ (p : JsonParser μ) xs ys, add p (xs ++ ys) = (add p xs).bind fun p => add p ys)
    (hcounts : ∀ {p p' : JsonParser μ} {xs}, add p xs = some p' → p.Counts p')
    (hnext : ∀ p c, Scanner.Uniform (next p c) ∨
      ∃ x : Option (JsonParser μ), ∀ rest, next p c rest = x >>= fun p => p.go (c :: rest))
    (hgoing : p.currentState ≠ .finish)
    (hturn : ∀ q : JsonParser μ, q.currentState = p.currentState → ∀ c rest,
      q.turn c rest = turnDigits add next q (c :: rest))
    (hp₀ : ∀ rest, p₀.turn c rest = turnDigits add next p (c :: rest)) :
    Continues scanner Frozen p₀ c cs := by
  have hp : ∀ ys, scanner.turn p₀ c (cs ++ ys) = turnDigits add next p (c :: cs ++ ys) := fun ys =>
    hp₀ (cs ++ ys)
  cases hdrop : (c :: cs).dropWhile isDigit with
  | nil =>
    -- there are only digits, and the next piece goes on behind them
    have hall : ∀ x ∈ c :: cs, isDigit x = true := List.dropWhile_eq_nil_iff.mp hdrop
    have htake : (c :: cs).takeWhile isDigit = c :: cs := List.takeWhile_eq_self_iff.mpr hall
    cases hadd : add p (c :: cs) with
    | none =>
      refine .fail { p with currentState := .error, lastError := some .numberOutOfRange }
        .numberOutOfRange fun ys => ?_
      rw [hp, turnDigits, List.takeWhile_append_of_pos hall, happend, hadd]
      rfl
    | some q =>
      refine .more q ?_ ?_ fun y ys => .inl ?_
      · have := hp []
        rw [List.append_nil, List.append_nil, turnDigits, htake, hadd, hdrop] at this
        exact this
      · simpa [scanner, (hcounts hadd).1] using hgoing
      · rw [hp, turnDigits, List.takeWhile_append_of_pos hall, List.dropWhile_append_of_pos hall,
          happend, hadd]
        change Alike Frozen _ (q.turn y ys)
        rw [hturn q (hcounts hadd).1, turnDigits, Option.bind_some]
        cases add q ((y :: ys).takeWhile isDigit) with
        | none =>
          obtain ⟨-, hpsm, hstack⟩ := hcounts hadd
          exact .inr ⟨_, _, _, rfl, rfl, rfl, rfl, hpsm.symm, hstack.symm, rfl⟩
        | some q => exact .refl _
  | cons d rest =>
    have hcut := fun ys => takeWhile_append_of_drop ys hdrop
    cases hadd : add p ((c :: cs).takeWhile isDigit) with
    | none =>
      refine .fail { p with currentState := .error, lastError := some .numberOutOfRange }
        .numberOutOfRange fun ys => ?_
      rw [hp, turnDigits, (hcut ys).1, hadd]
      rfl
    | some q =>
      have heq : ∀ ys, scanner.turn p₀ c (cs ++ ys) =
          if q.numConsumed = 0 then q.fail .invalidNumber else next q d (rest ++ ys) := fun ys => by
        rw [hp, turnDigits, (hcut ys).1, (hcut ys).2, hadd]
      by_cases hzero : q.numConsumed = 0
      · exact .fail _ _ fun ys => (heq ys).trans (if_pos hzero)
      · have heq' := fun ys => (heq ys).trans (if_neg hzero)
        obtain (h | ⟨s', e, h⟩ | ⟨s', h⟩) | ⟨x, h⟩ := hnext q d
        · exact .none fun ys => (heq' ys).trans (h _)
        · exact .fail s' e fun ys => (heq' ys).trans (h _)
        · exact .go s' rest fun ys => (heq' ys).trans (h _)
        · cases x with
          | none => exact .none fun ys => (heq' ys).trans (h _)
          | some q => exact .go q (d :: rest) fun ys => (heq' ys).trans (h _)

theorem continues_turnString [LawfulStateMachine μ] (hs : p.currentState = .string) :
    Continues scanner Frozen p c cs := by
  have hp : ∀ q : JsonParser μ, q.currentState = .string → ∀ c rest,
      scanner.turn q c rest = q.turnString c rest := fun q hq c rest => by
    simp only [scanner, turn, hq]
  by_cases hquote : c = ch '\"'
  · refine Scanner.Uniform.continues ?_ cs
    have : scanner.turn p c = fun rest => p.onStringEnd >>= fun p => p.go rest :=
      funext fun rest => by rw [hp p hs, turnString, if_pos hquote]
    rw [this]
    exact uniform_ends _
  · by_cases hslash : c = ch '\\'
    · refine .go (p.at_ .stringEscape) cs fun ys => ?_
      rw [hp p hs, turnString, if_neg hquote, if_pos hslash]
    · have hturn : ∀ q : JsonParser μ, q.currentState = .string → ∀ c rest, c ≠ ch '\"' →
          c ≠ ch '\\' → scanner.turn q c rest =
            (q.runCharactersCallback ((c :: rest).takeWhile plain)).go
              ((c :: rest).dropWhile plain) := fun q hq c rest hquote hslash => by
        rw [hp q hq, turnString, if_neg hquote, if_neg hslash]
      cases hdrop : (c :: cs).dropWhile plain with
      | nil =>
        have hall : ∀ x ∈ c :: cs, plain x = true := List.dropWhile_eq_nil_iff.mp hdrop
        have htake : (c :: cs).takeWhile plain = c :: cs := List.takeWhile_eq_self_iff.mpr hall
        refine .more (p.runCharactersCallback (c :: cs)) ?_ ?_ fun y ys => ?_
        · rw [hturn p hs c cs hquote hslash, htake, hdrop]
        · simpa [scanner, runCharactersCallback] using (hs ▸ by decide : p.currentState ≠ .finish)
        · rw [hturn p hs c _ hquote hslash, ← List.cons_append, List.takeWhile_append_of_pos hall,
            List.dropWhile_append_of_pos hall]
          cases hy : plain y with
          | true =>
            left
            obtain ⟨hslash', hquote'⟩ : y ≠ ch '\\' ∧ y ≠ ch '\"' := by simpa [plain] using hy
            rw [hturn (p.runCharactersCallback (c :: cs)) hs y ys hquote' hslash']
            unfold runCharactersCallback
            rw [LawfulStateMachine.characters_append]
            exact .refl _
          | false =>
            right
            rw [List.takeWhile_cons_of_neg (by simp [hy]), List.dropWhile_cons_of_neg (by simp [hy]),
              List.append_nil]
      | cons d rest =>
        refine .go (p.runCharactersCallback ((c :: cs).takeWhile plain)) (d :: rest) fun ys => ?_
        rw [hturn p hs c _ hquote hslash, ← List.cons_append, (takeWhile_append_of_drop _ hdrop).1,
          (takeWhile_append_of_drop _ hdrop).2]
        rfl

theorem turnUnicode_append (p : JsonParser μ) (xs ys : Bytes) : p.turnUnicode (xs ++ ys) =
    match p.turnUnicode xs with
    | some (.go q []) => q.turnUnicode ys
    | some (.go q rest) => q.go (rest ++ ys)
    | x => x := by
  induction xs generalizing p with
  | nil => rfl
  | cons c xs ih =>
    rw [List.cons_append, turnUnicode, turnUnicode]
    split
    · rfl
    · split
      · exact ih _
      · rfl

theorem turnLowSurrogate_append (p : JsonParser μ) (xs ys : Bytes) :
    p.turnLowSurrogate (xs ++ ys) =
      match p.turnLowSurrogate xs with
      | some (.go q []) => q.turnLowSurrogate ys
      | some (.go q rest) => q.go (rest ++ ys)
      | x => x := by
  induction xs generalizing p with
  | nil => rfl
  | cons c xs ih =>
    rw [List.cons_append, turnLowSurrogate, turnLowSurrogate]
    split
    · rfl
    · split
      · split
        · exact ih _
        · rfl
      · rfl

/-- A loop that reads bytes while the parser is in its state, and whose turn is the loop. -/
theorem continues_loop {s : State} {f : JsonParser μ → Bytes → Option (Step μ)} (hs : s ≠ .finish)
    (happend : ∀ (p : JsonParser μ) xs ys, f p (xs ++ ys) = match f p xs with
      | some (.go q []) => f q ys
      | some (.go q rest) => q.go (rest ++ ys)
      | x => x)
    (hout : ∀ (p : JsonParser μ) xs, p.currentState ≠ s → f p xs = p.go xs)
    (hturn : ∀ (p : JsonParser μ) c rest, p.currentState = s → p.turn c rest = f p (c :: rest))
    (hp : p.currentState = s) : Continues scanner Frozen p c cs := by
  have heq : ∀ ys, scanner.turn p c (cs ++ ys) = match f p (c :: cs) with
      | some (.go q []) => f q ys
      | some (.go q rest) => q.go (rest ++ ys)
      | x => x := fun ys => (hturn p c (cs ++ ys) hp).trans (happend p (c :: cs) ys)
  cases hf : f p (c :: cs) with
  | none => exact .none fun ys => by rw [heq, hf]
  | some t =>
    cases t with
    | fail q e => exact .fail q e fun ys => by rw [heq, hf]
    | go q rest =>
      cases rest with
      | cons d rest => exact .go q (d :: rest) fun ys => by rw [heq, hf]
      | nil =>
        by_cases hq : q.currentState = s
        · refine .more q ((hturn p c cs hp).trans hf) ?_ fun y ys => .inl ?_
          · simpa [scanner, hq] using hs
          · rw [heq, hf]
            change Alike Frozen (f q (y :: ys)) (q.turn y ys)
            rw [hturn q y ys hq]
            exact .refl _
        · exact .go q [] fun ys => by rw [heq, hf]; exact hout q ys hq

/-- Every turn goes on where the text does. -/
theorem continues_turn [LawfulStateMachine μ] (p : JsonParser μ) (c : UInt8) (cs : Bytes)
    (hgoing : scanner.finished p = false) : Continues scanner Frozen p c cs := by
  have hne : p.currentState ≠ .finish := by simpa [scanner] using hgoing
  by_cases hone : p.OneByte
  · exact (uniform_turn hone c).continues cs
  · unfold OneByte at hone
    split at hone
    next hs => exact continues_turnString hs
    next hs =>
      refine continues_loop (by decide) turnUnicode_append (fun p xs hp => ?_)
        (fun p c rest hp => by simp only [turn, hp]) hs
      cases xs with
      | nil => rfl
      | cons => rw [turnUnicode, if_pos hp]
    next hs =>
      refine continues_loop (by decide) turnLowSurrogate_append (fun p xs hp => ?_)
        (fun p c rest hp => by simp only [turn, hp]) hs
      cases xs with
      | nil => rfl
      | cons => rw [turnLowSurrogate, if_pos hp]
    next hs =>
      refine continues_turnDigits addNumber_append counts_addNumber ?_ hne
        (fun q hq c rest => by simp only [turn, hq, hs]; rfl)
        fun rest => by simp only [turn, hs]; rfl
      intro p c
      by_cases hdot : c = ch '.'
      · exact .inl (by simpa only [if_pos hdot] using .go _)
      · by_cases he : c = ch 'e' ∨ c = ch 'E'
        · exact .inl (by simpa only [if_neg hdot, if_pos he] using .go _)
        · exact .inr ⟨p.onNumberEnd, fun rest => by rw [if_neg hdot, if_neg he]; rfl⟩
    next hs =>
      refine continues_turnDigits addFrac_append counts_addFrac ?_ hne
        (fun q hq c rest => by simp only [turn, hq, hs]; rfl)
        fun rest => by simp only [turn, hs]; rfl
      intro p c
      by_cases he : c = ch 'e' ∨ c = ch 'E'
      · exact .inl (by simpa only [if_pos he] using .go _)
      · exact .inr ⟨p.onNumberEnd, fun rest => by rw [if_neg he]; rfl⟩
    next hs =>
      by_cases hplus : c = ch '+'
      · exact .go (p.at_ .numberExp) cs fun ys => by
          simp only [scanner, turn, hs, if_pos hplus]
      · by_cases hminus : c = ch '-'
        · exact .go { p with expSign := -1, currentState := .numberExp } cs fun ys => by
            simp only [scanner, turn, hs, if_neg hplus, if_pos hminus]
        · exact continues_turnDigits (p := p.at_ .numberExp) addExp_append counts_addExp
            (fun p c => .inr ⟨p.onNumberEnd, fun _ => rfl⟩) (by decide : State.numberExp ≠ .finish)
            (fun q hq c rest => by simp only [turn, hq, at_]; rfl)
            fun rest => by simp only [turn, hs, if_neg hplus, if_neg hminus]; rfl
    next hs =>
      exact continues_turnDigits addExp_append counts_addExp
        (fun p c => .inr ⟨p.onNumberEnd, fun _ => rfl⟩) hne
        (fun q hq c rest => by simp only [turn, hq, hs]; rfl)
        fun rest => by simp only [turn, hs]; rfl
    next => exact absurd trivial hone

end Continues

end JsonParser

end FluxCore.Json
