import FluxCore.Torrent.Names
import Mathlib.Data.List.TakeWhile

/-!
# Decimal numbers

`parseIntNoThrow` and its relatives read a number with `strtol`, and allow blanks behind it. Where
the string goes on with a NUL, what is behind the number is not looked at.
-/

namespace FluxCore.Util

open Utp (Bytes)

def isspace (c : UInt8) : Bool := c == 0x20 || (0x09 ≤ c && c ≤ 0x0d)

/-- The value of decimal digits. -/
def decimal (ds : Bytes) : Nat := ds.foldl (fun n d => n * 10 + (d.toNat - 0x30)) 0

/-- `strtol` with base 10: the number and what follows it. It is `none` where `errno` is set. -/
def strtol (s : Bytes) : Option (Int × Bytes) :=
  let t := s.dropWhile isspace
  let (negative, t) := match t with
    | [] => (false, t)
    | c :: t' => if c = 0x2d then (true, t') else if c = 0x2b then (false, t') else (false, t)
  let ds := t.takeWhile isDigit
  if ds = [] then some (0, s)
  else
    let n : Int := if negative then -(decimal ds : Int) else decimal ds
    if n < -2 ^ 63 ∨ 2 ^ 63 ≤ n then none else some (n, t.dropWhile isDigit)

def parseLong (s : Bytes) : Option Int :=
  if s = [] then none
  else match strtol s with
    | none => none
    | some (res, endptr) =>
      if endptr.head?.getD 0 ≠ 0 ∧ ¬endptr.all isspace then none else some res

def parseIntNoThrow (s : Bytes) : Option Int :=
  match parseLong s with
  | none => none
  | some t => if -2 ^ 31 ≤ t ∧ t ≤ 2 ^ 31 - 1 then some t else none

def parseLLIntNoThrow (s : Bytes) : Option Int := parseLong s

theorem parseIntNoThrow_range {s : Bytes} {a : Int} (h : parseIntNoThrow s = some a) :
    -2 ^ 31 ≤ a ∧ a ≤ 2 ^ 31 - 1 := by
  rw [parseIntNoThrow] at h
  split at h
  · exact nomatch h
  · split at h
    · exact Option.some.inj h ▸ ‹_›
    · exact nomatch h

/-! ## Numerals -/

/-- A decimal numeral with blanks on both sides, and its value. -/
def Numeral (f : Bytes) (n : Int) : Prop :=
  ∃ lead sign ds trail : Bytes, f = lead ++ (sign ++ (ds ++ trail)) ∧
    (∀ c ∈ lead, isspace c = true) ∧ (sign = [] ∨ sign = [0x2b] ∨ sign = [0x2d]) ∧
    (ds ≠ [] ∧ ∀ c ∈ ds, isDigit c = true) ∧ (∀ c ∈ trail, isspace c = true) ∧
    n = if sign = [0x2d] then -(decimal ds : Int) else decimal ds

variable {f s ds lead sign trail : Bytes} {n : Int} {c : UInt8}

theorem isDigit_iff : isDigit c = true ↔ 0x30 ≤ c.toNat ∧ c.toNat ≤ 0x39 := by
  simp [isDigit, UInt8.le_iff_toNat_le]

theorem isspace_iff : isspace c = true ↔ c.toNat = 0x20 ∨ 0x09 ≤ c.toNat ∧ c.toNat ≤ 0x0d := by
  simp [isspace, UInt8.le_iff_toNat_le, ← UInt8.toNat_inj]

theorem isspace_of_isDigit (h : isDigit c = true) : isspace c = false := by
  rw [isDigit_iff] at h
  rw [Bool.eq_false_iff, Ne, isspace_iff]
  omega

theorem dropWhile_append_of_head {p : UInt8 → Bool} (hlead : ∀ c ∈ lead, p c = true)
    (hs : ∀ c ∈ s.head?, p c = false) : (lead ++ s).dropWhile p = s := by
  rw [List.dropWhile_append_of_pos hlead]
  cases s with
  | nil => rfl
  | cons c s => rw [List.dropWhile_cons_of_neg (by simp [hs c rfl])]

theorem takeWhile_append_of_head {p : UInt8 → Bool} (hlead : ∀ c ∈ lead, p c = true)
    (hs : ∀ c ∈ s.head?, p c = false) : (lead ++ s).takeWhile p = lead := by
  rw [List.takeWhile_append_of_pos hlead]
  cases s with
  | nil => exact List.append_nil _
  | cons c s => rw [List.takeWhile_cons_of_neg (by simp [hs c rfl]), List.append_nil]

/-- What `strtol` makes of what is behind the blanks. -/
def signedDigits (t : Bytes) : Bool × Bytes :=
  match t with
  | [] => (false, t)
  | c :: t' => if c = 0x2d then (true, t') else if c = 0x2b then (false, t') else (false, t)

theorem signedDigits_append (hsign : sign = [] ∨ sign = [0x2b] ∨ sign = [0x2d])
    (hs : ∀ c ∈ s.head?, isDigit c = true) :
    signedDigits (sign ++ s) = (decide (sign = [0x2d]), s) := by
  rcases hsign with rfl | rfl | rfl
  · cases s with
    | nil => rfl
    | cons c s =>
      have hc := isDigit_iff.mp (hs c rfl)
      have h1 : c ≠ 0x2d := by rintro rfl; simp at hc
      have h2 : c ≠ 0x2b := by rintro rfl; simp at hc
      rw [List.nil_append, signedDigits, if_neg h1, if_neg h2]
      rfl
  · rfl
  · rfl

/-- A sign is put in front of what it was taken from. -/
theorem exists_sign (t : Bytes) : ∃ sign, (sign = [] ∨ sign = [0x2b] ∨ sign = [0x2d]) ∧
    t = sign ++ (signedDigits t).2 ∧ (signedDigits t).1 = decide (sign = [0x2d]) := by
  cases t with
  | nil => exact ⟨[], .inl rfl, rfl, rfl⟩
  | cons c t =>
    rw [signedDigits]
    split
    next h => exact ⟨[0x2d], .inr (.inr rfl), by rw [h]; rfl, rfl⟩
    split
    next h => exact ⟨[0x2b], .inr (.inl rfl), by rw [h]; rfl, rfl⟩
    · exact ⟨[], .inl rfl, rfl, rfl⟩

theorem strtol_eq (s : Bytes) : strtol s =
    let p := signedDigits (s.dropWhile isspace)
    let ds := p.2.takeWhile isDigit
    let n : Int := if p.1 then -(decimal ds : Int) else decimal ds
    if ds = [] then some (0, s)
    else if n < -2 ^ 63 ∨ 2 ^ 63 ≤ n then none else some (n, p.2.dropWhile isDigit) := by
  unfold strtol signedDigits
  rcases s.dropWhile isspace with - | ⟨c, t⟩
  · rfl
  · rfl

theorem parseLong_range (h : parseLong f = some n) : -2 ^ 63 ≤ n ∧ n < 2 ^ 63 := by
  rw [parseLong] at h
  split at h
  · exact nomatch h
  split at h
  next => exact nomatch h
  next res endptr hres =>
  split at h
  · exact nomatch h
  obtain rfl := Option.some.inj h
  rw [strtol_eq] at hres
  dsimp only at hres
  generalize signedDigits (f.dropWhile isspace) = p at hres
  generalize (if p.1 = true then -(decimal (p.2.takeWhile isDigit) : Int)
    else decimal (p.2.takeWhile isDigit)) = m at hres
  split at hres
  · obtain ⟨rfl, -⟩ := Prod.mk.inj (Option.some.inj hres)
    decide
  split at hres
  · exact nomatch hres
  · obtain ⟨rfl, -⟩ := Prod.mk.inj (Option.some.inj hres)
    omega

theorem isspace_of_sign (h : c = 0x2b ∨ c = 0x2d) : isspace c = false := by
  rcases h with rfl | rfl
  · rfl
  · rfl

/-- The first byte behind the blanks of a numeral. -/
theorem head_signed (hsign : sign = [] ∨ sign = [0x2b] ∨ sign = [0x2d])
    (hs : ∀ c ∈ s.head?, isDigit c = true) : ∀ c ∈ (sign ++ s).head?, isspace c = false := by
  rcases hsign with rfl | rfl | rfl
  · exact fun c hc => isspace_of_isDigit (hs c hc)
  · exact fun c hc => Option.some.inj hc ▸ isspace_of_sign (.inl rfl)
  · exact fun c hc => Option.some.inj hc ▸ isspace_of_sign (.inr rfl)

theorem head_digits (hds : ds ≠ [] ∧ ∀ c ∈ ds, isDigit c = true) :
    ∀ c ∈ (ds ++ trail).head?, isDigit c = true := by
  obtain - | ⟨d, ds⟩ := ds
  · exact absurd rfl hds.1
  · exact fun c hc => Option.some.inj hc ▸ hds.2 d (.head ds)

theorem isDigit_of_isspace (h : isspace c = true) : isDigit c = false :=
  Bool.eq_false_iff.mpr fun hd => Bool.eq_false_iff.mp (isspace_of_isDigit hd) h

/-- A numeral is read, if it is a 64-bit number. -/
theorem parseLong_of_numeral (h : Numeral f n) :
    parseLong f = if -2 ^ 63 ≤ n ∧ n < 2 ^ 63 then some n else none := by
  obtain ⟨lead, sign, ds, trail, rfl, hlead, hsign, hds, htrail, rfl⟩ := h
  generalize hn : (if sign = [0x2d] then -(decimal ds : Int) else decimal ds) = n
  have hhead : ∀ c ∈ trail.head?, isDigit c = false := fun c hc =>
    isDigit_of_isspace (htrail c (List.mem_of_mem_head? hc))
  have hne : lead ++ (sign ++ (ds ++ trail)) ≠ [] := by simp [hds.1]
  have hstrtol : strtol (lead ++ (sign ++ (ds ++ trail))) =
      if n < -2 ^ 63 ∨ 2 ^ 63 ≤ n then none else some (n, trail) := by
    rw [strtol_eq, dropWhile_append_of_head hlead (head_signed hsign (head_digits hds)),
      signedDigits_append hsign (head_digits hds)]
    dsimp only
    rw [takeWhile_append_of_head hds.2 hhead, dropWhile_append_of_head hds.2 hhead,
      if_neg hds.1]
    simp only [decide_eq_true_eq]
    rw [hn]
  rw [parseLong, if_neg hne, hstrtol]
  by_cases hrange : -2 ^ 63 ≤ n ∧ n < 2 ^ 63
  · rw [if_pos hrange, if_neg (by omega)]
    exact if_neg fun hbad => hbad.2 (List.all_eq_true.mpr htrail)
  · rw [if_neg hrange, if_pos (by omega)]

theorem parseLong_numeral (h : Numeral f n) (hrange : -2 ^ 63 ≤ n ∧ n < 2 ^ 63) :
    parseLong f = some n := (parseLong_of_numeral h).trans (if_pos hrange)

theorem parseLong_digits (hds : ds ≠ [] ∧ ∀ c ∈ ds, isDigit c = true) :
    parseLong ds = if decimal ds < 2 ^ 63 then some (decimal ds : Int) else none := by
  have h : Numeral ds (decimal ds) :=
    ⟨[], [], ds, [], by simp, by simp, .inl rfl, hds, by simp, rfl⟩
  rw [parseLong_of_numeral h]
  by_cases hlt : decimal ds < 2 ^ 63
  · rw [if_pos hlt, if_pos (by omega)]
  · rw [if_neg hlt, if_neg (by omega)]

/-- What is read is a numeral, or nothing but blanks, which are taken for zero. -/
theorem of_parseLong (hnul : (0 : UInt8) ∉ f) (h : parseLong f = some n) :
    (Numeral f n ∧ -2 ^ 63 ≤ n ∧ n < 2 ^ 63) ∨ (f ≠ [] ∧ (∀ c ∈ f, isspace c = true) ∧ n = 0) := by
  have hblank {s : Bytes} (hs : (0 : UInt8) ∉ s) (hall : ¬(s.head?.getD 0 ≠ 0 ∧ ¬s.all isspace)) :
      ∀ c ∈ s, isspace c = true := by
    cases s with
    | nil => exact nofun
    | cons c s =>
      have hc : (c :: s).head?.getD 0 ≠ 0 := fun hc => hs (hc ▸ .head s)
      exact List.all_eq_true.mp (not_not.mp fun hn => hall ⟨hc, hn⟩)
  rw [parseLong] at h
  split at h
  · exact nomatch h
  next hne =>
  rw [strtol_eq] at h
  dsimp only at h
  obtain ⟨sign, hsign, hsigned, hneg⟩ := exists_sign (f.dropWhile isspace)
  generalize signedDigits (f.dropWhile isspace) = p at *
  by_cases hds : p.2.takeWhile isDigit = []
  · rw [if_pos hds] at h
    dsimp only at h
    split at h
    · exact nomatch h
    next hall => exact .inr ⟨hne, hblank hnul hall, (Option.some.inj h).symm⟩
  · rw [if_neg hds] at h
    generalize hm : (if p.1 = true then -(decimal (p.2.takeWhile isDigit) : Int)
      else decimal (p.2.takeWhile isDigit)) = m at h
    split at h
    next => exact nomatch h
    next res endptr hres =>
    split at hres
    · exact nomatch hres
    next hrange =>
    obtain ⟨rfl, rfl⟩ := Prod.mk.inj (Option.some.inj hres)
    split at h
    · exact nomatch h
    next hall =>
    obtain rfl := Option.some.inj h
    have hf : f = f.takeWhile isspace ++
        (sign ++ (p.2.takeWhile isDigit ++ p.2.dropWhile isDigit)) := by
      rw [List.takeWhile_append_dropWhile, ← hsigned, List.takeWhile_append_dropWhile]
    refine .inl ⟨⟨f.takeWhile isspace, sign, _, _, hf, fun c hc => List.mem_takeWhile_imp hc, hsign,
      ⟨hds, fun c hc => List.mem_takeWhile_imp hc⟩, hblank (fun h0 => hnul ?_) hall, ?_⟩, by omega⟩
    · rw [hf]
      have hmem : 0 ∈ p.2 := (List.dropWhile_sublist _).subset h0
      simp [hmem]
    · rw [← hm, hneg]
      simp only [decide_eq_true_eq]

theorem Numeral.not_mem (h : Numeral f n) : (0 : UInt8) ∉ f := by
  obtain ⟨lead, sign, ds, trail, rfl, hlead, hsign, hds, htrail, -⟩ := h
  simp only [List.mem_append, not_or]
  refine ⟨fun h => (nomatch hlead 0 h), fun h => ?_, fun h => (nomatch hds.2 0 h),
    fun h => (nomatch htrail 0 h)⟩
  rcases hsign with rfl | rfl | rfl
  · exact nomatch h
  · simp at h
  · simp at h

theorem Numeral.not_blank (h : Numeral f n) : ¬ ∀ c ∈ f, isspace c = true := by
  obtain ⟨lead, sign, ds, trail, rfl, -, -, ⟨hne, hds⟩, -, -⟩ := h
  obtain ⟨d, hd⟩ := List.exists_mem_of_ne_nil ds hne
  intro hall
  have := hall d (by simp [hd])
  rw [isspace_of_isDigit (hds d hd)] at this
  exact nomatch this

end FluxCore.Util
