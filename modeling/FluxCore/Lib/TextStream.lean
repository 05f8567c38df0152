import Mathlib.Data.List.Basic
import Mathlib.Data.List.DropRight
import Mathlib.Algebra.Group.Nat.Defs
import Mathlib.Algebra.Group.Int.Defs

/-!
# Reading text

Lines, words and numbers as an input stream of the C++ library reads them in the classic locale:
blanks before a word or a number are skipped, and what follows it is left.
-/

namespace FluxCore.TextStream

/-- A blank, a tabulator, a line end, a vertical tabulator, a form feed or a carriage return. -/
def isSpace (c : Char) : Bool := c = ' ' || ('\t' ≤ c && c ≤ '\r')

def skipSpace (cs : List Char) : List Char := cs.dropWhile isSpace

/-- `>>` into a string. -/
def word (cs : List Char) : Option (List Char × List Char) :=
  let cs := skipSpace cs
  if cs = [] then none else some (cs.takeWhile (!isSpace ·), cs.dropWhile (!isSpace ·))

/-- The sign of a number, and what follows it. -/
def signed : List Char → Int × List Char
  | '-' :: cs => (-1, cs)
  | '+' :: cs => (1, cs)
  | cs => (1, cs)

/-- `>>` into an `int64_t`. -/
def int64 (cs : List Char) : Option (Int × List Char) :=
  let (sign, cs) := signed (skipSpace cs)
  let digits := cs.takeWhile Char.isDigit
  let n := sign * Nat.ofDigitChars 10 digits 0
  if digits = [] ∨ n < -2 ^ 63 ∨ 2 ^ 63 ≤ n then none else some (n, cs.dropWhile Char.isDigit)

/-- `getline` until it fails. -/
def lines : List Char → List (List Char)
  | [] => []
  | c :: cs =>
    if c = '\n' then [] :: lines cs
    else
      match lines cs with
      | [] => [[c]]
      | l :: ls => (c :: l) :: ls

/-- A carriage return at the end of a line is taken away. -/
def stripCr (l : List Char) : List Char := if l.getLast? = some '\r' then l.dropLast else l

/-- A word: not empty and without blanks. -/
structure Word (w : List Char) : Prop where
  ne_nil : w ≠ []
  noSpace : ∀ c ∈ w, isSpace c = false

/-- Nothing, or something that begins with a blank. -/
def Ends (rest : List Char) : Prop := ∀ c ∈ rest.head?, isSpace c = true

variable {w rest cs : List Char}

/-! ## Words -/

@[simp] theorem word_space (cs : List Char) : word (' ' :: cs) = word cs := rfl

@[simp] theorem int64_space (cs : List Char) : int64 (' ' :: cs) = int64 cs := rfl

theorem ends_nil : Ends [] := fun _ hc => by cases hc

theorem ends_space (cs : List Char) : Ends (' ' :: cs) := fun c hc => by
  cases hc
  decide

theorem skipSpace_append (hw : Word w) (rest : List Char) : skipSpace (w ++ rest) = w ++ rest := by
  cases w with
  | nil => exact absurd rfl hw.ne_nil
  | cons c w =>
    have hc := hw.noSpace c (List.mem_cons_self ..)
    exact List.dropWhile_cons_of_neg (by rw [hc]; exact Bool.false_ne_true)

/-- What a word is cut off from. -/
theorem span_word (hw : ∀ c ∈ w, isSpace c = false) (hrest : Ends rest) :
    (w ++ rest).takeWhile (!isSpace ·) = w ∧ (w ++ rest).dropWhile (!isSpace ·) = rest := by
  induction w with
  | nil =>
    cases rest with
    | nil => exact ⟨rfl, rfl⟩
    | cons c rest =>
      have hc := hrest c rfl
      simp [hc]
  | cons c w ih =>
    obtain ⟨h1, h2⟩ := ih fun d hd => hw d (.tail _ hd)
    have hc := hw c (List.mem_cons_self ..)
    simp only [List.cons_append, List.takeWhile_cons, List.dropWhile_cons, hc, Bool.not_false,
      if_true, h1, h2, and_self]

theorem word_append (hw : Word w) (hrest : Ends rest) : word (w ++ rest) = some (w, rest) := by
  obtain ⟨h1, h2⟩ := span_word hw.noSpace hrest
  have hne : w ++ rest ≠ [] := fun h => hw.ne_nil (List.append_eq_nil_iff.mp h).1
  rw [word, skipSpace_append hw, if_neg hne, h1, h2]

/-- What is read is a word. -/
theorem word_noSpace (h : word cs = some (w, rest)) : ∀ c ∈ w, isSpace c = false := by
  rw [word] at h
  split at h
  next => cases h
  next =>
    obtain ⟨rfl, -⟩ := Prod.mk.inj (Option.some.inj h)
    intro c hc
    simpa using List.mem_takeWhile_imp hc

theorem word_ne_nil {r : List Char × List Char} (h : word cs = some r) : r.1 ≠ [] := by
  rw [word] at h
  split at h
  next => cases h
  next hne =>
    obtain rfl := Option.some.inj h
    cases hcs : skipSpace cs with
    | nil => exact absurd hcs hne
    | cons c rest =>
      have hhead := List.head?_dropWhile_not isSpace cs
      rw [← skipSpace, hcs] at hhead
      have hc : isSpace c = false := hhead
      simp [hc]

/-! ## Numbers -/

theorem isSpace_of_isDigit {c : Char} (h : c.isDigit = true) : isSpace c = false := by
  rw [Char.isDigit, Bool.and_eq_true, decide_eq_true_iff, decide_eq_true_iff] at h
  have hlo : 48 ≤ c.toNat := h.1
  rw [isSpace, Bool.or_eq_false_iff, decide_eq_false_iff_not, Bool.and_eq_false_iff]
  refine ⟨?_, .inr (decide_eq_false fun hr => ?_)⟩
  · rintro rfl
    exact absurd hlo (by decide)
  · have hr : c.toNat ≤ 13 := hr
    omega

theorem signed_of_isDigit {c : Char} (h : c.isDigit = true) (cs : List Char) :
    signed (c :: cs) = (1, c :: cs) := by
  unfold signed
  split
  next heq =>
    obtain ⟨rfl, -⟩ := List.cons.inj heq
    cases h
  next heq =>
    obtain ⟨rfl, -⟩ := List.cons.inj heq
    cases h
  next => rfl

theorem span_digits {ds : List Char} (hds : ∀ c ∈ ds, c.isDigit = true)
    (hrest : ∀ c ∈ rest.head?, c.isDigit = false) :
    (ds ++ rest).takeWhile Char.isDigit = ds ∧ (ds ++ rest).dropWhile Char.isDigit = rest := by
  induction ds with
  | nil =>
    cases rest with
    | nil => exact ⟨rfl, rfl⟩
    | cons c rest =>
      have hc := hrest c rfl
      simp [hc]
  | cons c ds ih =>
    obtain ⟨h1, h2⟩ := ih fun d hd => hds d (.tail _ hd)
    have hc := hds c (List.mem_cons_self ..)
    simp only [List.cons_append, List.takeWhile_cons, List.dropWhile_cons, hc, if_true, h1, h2,
      and_self]

/-- A number is read back. -/
theorem int64_toDigits {n : Nat} (hn : n < 2 ^ 63) (hrest : ∀ c ∈ rest.head?, c.isDigit = false) :
    int64 (Nat.toDigits 10 n ++ rest) = some ((n : Int), rest) := by
  have hdigit : ∀ c ∈ Nat.toDigits 10 n, c.isDigit = true := fun c hc =>
    Nat.isDigit_of_mem_toDigits (by decide) (by decide) hc
  have hword : Word (Nat.toDigits 10 n) :=
    ⟨Nat.toDigits_ne_nil, fun c hc => isSpace_of_isDigit (hdigit c hc)⟩
  have hvalue : Nat.ofDigitChars 10 (Nat.toDigits 10 n) 0 = n :=
    Nat.ofDigitChars_toDigits (by decide) (by decide)
  obtain ⟨h1, h2⟩ := span_digits hdigit hrest
  have hsigned : signed (Nat.toDigits 10 n ++ rest) = (1, Nat.toDigits 10 n ++ rest) := by
    cases hd : Nat.toDigits 10 n with
    | nil => exact absurd hd Nat.toDigits_ne_nil
    | cons c ds => exact signed_of_isDigit (hdigit c (hd ▸ List.mem_cons_self ..)) _
  rw [int64, skipSpace_append hword, hsigned]
  dsimp only
  rw [h1, h2, hvalue, if_neg, Int.one_mul]
  rintro (h | h | h)
  · exact hword.ne_nil h
  · omega
  · omega

/-! ## Lines -/

theorem lines_append {l : List Char} (hl : '\n' ∉ l) (rest : List Char) :
    lines (l ++ '\n' :: rest) = l :: lines rest := by
  induction l with
  | nil => rfl
  | cons c l ih =>
    rw [List.mem_cons, not_or] at hl
    rw [List.cons_append, lines, if_neg (Ne.symm hl.1), ih hl.2]

theorem stripCr_append (l : List Char) {m : List Char} (hm : m ≠ []) :
    stripCr (l ++ m) = l ++ stripCr m := by
  rw [stripCr, stripCr, List.getLast?_append_of_ne_nil _ hm]
  split
  · exact List.dropLast_append_of_ne_nil hm
  · rfl

theorem stripCr_of_noSpace {l : List Char} (hl : ∀ c ∈ l, isSpace c = false) : stripCr l = l := by
  rw [stripCr, if_neg fun h => ?_]
  exact absurd (hl _ (List.mem_of_getLast? h)) (by decide)

end FluxCore.TextStream
