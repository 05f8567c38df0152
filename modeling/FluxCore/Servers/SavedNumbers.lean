import FluxCore.Servers.SavedLine

/-!
# Numbers that are cut off

A number is read as it was written only where all of its digits are there, and a status that is cut
off is read as the status of a server that works.
-/

namespace FluxCore.Servers

open Utp (Bytes)
open Uri (cstr decimalBytes addDigit isDigit_decimalBytes foldl_decimalBytes)
open ParamedString (isStripped parseUIntNoThrow isNumber_iff parseUIntNoThrow_digits)
open Util (isDigit parseIntNoThrow parseLong decimal Numeral parseLong_of_numeral)

variable {c : UInt8} {s : Bytes} {n k : Nat}

/-! ## Digits -/

theorem le_foldl_decimal (s : Bytes) (n : Nat) :
    n ≤ s.foldl (fun n d => n * 10 + (d.toNat - 0x30)) n := by
  induction s generalizing n with
  | nil => exact Nat.le_refl n
  | cons c s ih => exact Nat.le_trans (by dsimp only; omega) (ih _)

/-- A digit that is missing at the end is a factor of ten at least. -/
theorem decimal_take_le (hk : k < s.length) : 10 * decimal (s.take k) ≤ decimal s := by
  obtain ⟨d, t, ht⟩ := List.exists_cons_of_ne_nil
    (List.ne_nil_of_length_pos (by rw [List.length_drop]; omega : 0 < (s.drop k).length))
  have hs : decimal s = (s.drop k).foldl (fun n d => n * 10 + (d.toNat - 0x30))
      (decimal (s.take k)) := by
    rw [decimal, decimal, ← List.foldl_append, List.take_append_drop]
  rw [hs, ht, List.foldl_cons]
  exact Nat.le_trans (by omega) (le_foldl_decimal t _)

theorem decimal_decimalBytes (n : Nat) : decimal (decimalBytes n) = n := by
  have h : ∀ (s : Bytes) (n : Nat), (∀ c ∈ s, isDigit c = true) →
      s.foldl addDigit (n : Int) = (s.foldl (fun n d => n * 10 + (d.toNat - 0x30)) n : Nat) := by
    intro s
    induction s with
    | nil => exact fun _ _ => rfl
    | cons c s ih =>
      intro n hs
      obtain ⟨hc, hs⟩ := List.forall_mem_cons.mp hs
      have hlow := (Util.isDigit_iff.mp hc).1
      rw [List.foldl_cons, List.foldl_cons, ← ih _ hs, addDigit]
      congr 1
      omega
  have hn := h (decimalBytes n) 0 fun c hc => isDigit_decimalBytes hc
  rw [Int.natCast_zero, foldl_decimalBytes] at hn
  exact (Int.ofNat.inj hn).symm

theorem decimalBytes_ne_nil (n : Nat) : decimalBytes n ≠ [] := by
  rw [decimalBytes, Ne, List.map_eq_nil_iff]
  exact Nat.toDigits_ne_nil

theorem decimalBytes_zero : decimalBytes 0 = [0x30] := rfl

/-- What is left of a number is not that number. -/
theorem decimal_take_ne (hk : k < (decimalBytes n).length) (hne : (decimalBytes n).take k ≠ []) :
    decimal ((decimalBytes n).take k) ≠ n := by
  intro h
  have hle := decimal_take_le hk
  rw [decimal_decimalBytes, h] at hle
  obtain rfl : n = 0 := by omega
  rw [decimalBytes_zero, List.length_singleton] at hk
  obtain rfl : k = 0 := by omega
  exact hne rfl

theorem plain_decimalBytes (n : Nat) : Plain (decimalBytes n) := by
  intro c hc
  obtain ⟨hlow, hhigh⟩ := Util.isDigit_iff.mp (isDigit_decimalBytes hc)
  have hne : ∀ d : UInt8, d.toNat < 0x30 → c ≠ d := by
    rintro d hd rfl
    omega
  refine ⟨?_, hne _ (by decide)⟩
  simp only [isStripped, decide_eq_false_iff_not, not_or]
  exact ⟨hne _ (by decide), hne _ (by decide), hne _ (by decide), hne _ (by decide),
    hne _ (by decide)⟩

/-! ## Fields -/

theorem decimalInt_natCast (n : Nat) : decimalInt n = decimalBytes n := by
  rw [decimalInt, if_neg (by omega), Int.natAbs_natCast]

theorem decimalInt_ne_nil (n : Int) : decimalInt n ≠ [] := by
  rw [decimalInt]
  split
  · exact List.cons_ne_nil _ _
  · exact decimalBytes_ne_nil _

theorem plain_decimalInt (n : Int) : Plain (decimalInt n) := by
  rw [decimalInt]
  split
  · exact List.forall_mem_cons.mpr ⟨by decide, plain_decimalBytes _⟩
  · exact plain_decimalBytes _

theorem parseUIntNoThrow_take (hne : (decimalBytes n).take k ≠ []) :
    parseUIntNoThrow ((decimalBytes n).take k) =
      if decimal ((decimalBytes n).take k) < 2 ^ 31 then some (decimal ((decimalBytes n).take k))
      else none :=
  parseUIntNoThrow_digits
    (isNumber_iff.mpr ⟨hne, fun _ hc => isDigit_decimalBytes (List.mem_of_mem_take hc)⟩)

theorem parseUIntNoThrow_decimalInt (hn : n < 2 ^ 31) :
    parseUIntNoThrow (decimalInt n) = some n := by
  have h := parseUIntNoThrow_take (n := n) (k := (decimalBytes n).length)
  rw [List.take_length, decimal_decimalBytes, if_pos hn] at h
  rw [decimalInt_natCast, h (decimalBytes_ne_nil n)]

theorem laterField_decimalInt (hn : n < 2 ^ 31) : laterField (decimalInt n) = some n := by
  rw [laterField, if_neg (decimalInt_ne_nil _), parseUIntNoThrow_decimalInt hn]

theorem laterField_take (hn : n < 2 ^ 31) :
    laterField ((decimalInt n).take k) = some n ↔ n = 0 ∨ (decimalInt n).length ≤ k := by
  rcases Nat.lt_or_ge k (decimalInt n).length with hk | hk
  · rw [decimalInt_natCast] at hk ⊢
    rw [laterField]
    split
    next => simp only [Option.some.injEq, eq_comm (a := 0), Nat.not_le.mpr hk, or_false]
    next hne =>
      have hbad := decimal_take_ne hk hne
      rw [parseUIntNoThrow_take hne]
      constructor
      · intro h
        split at h
        next => exact absurd (Option.some.inj h) hbad
        next => cases h
      · rintro (rfl | hle)
        · rw [decimalBytes_zero, List.length_singleton] at hk
          obtain rfl : k = 0 := by omega
          exact absurd rfl hne
        · exact absurd hle (Nat.not_le.mpr hk)
  · rw [List.take_of_length_le hk, laterField_decimalInt hn]
    simp only [hk, or_true]

/-- The sign of a number. -/
def sign (n : Int) : Bytes := if n < 0 then [0x2d] else []

theorem decimalInt_eq (n : Int) : decimalInt n = sign n ++ decimalBytes n.natAbs := by
  rw [decimalInt, sign]
  split <;> rfl

theorem parseIntNoThrow_eq_some {s : Bytes} {n : Int} :
    parseIntNoThrow s = some n ↔ parseLong s = some n ∧ -2 ^ 31 ≤ n ∧ n < 2 ^ 31 := by
  rw [parseIntNoThrow]
  split
  next h => simp [h]
  next t h =>
    rw [h, Option.some.injEq]
    split
    next ht =>
      rw [Option.some.injEq]
      exact ⟨fun h => ⟨h, by omega⟩, fun h => h.1⟩
    next ht =>
      refine iff_of_false (by simp) ?_
      rintro ⟨rfl, h⟩
      omega

theorem numeral_sign (t : Int) {ds : Bytes} (hds : ds ≠ [] ∧ ∀ c ∈ ds, isDigit c = true) :
    Numeral (sign t ++ ds) (if t < 0 then -(decimal ds : Int) else decimal ds) := by
  refine ⟨[], sign t, ds, [], by simp, by simp, ?_, hds, by simp, ?_⟩
  · rw [sign]
    split
    · exact .inr (.inr rfl)
    · exact .inl rfl
  · rw [sign]
    split
    · rw [if_pos rfl]
    · rw [if_neg (by decide)]

/-- A number that is not there as a whole is not read as that number. -/
theorem parseLong_take_ne {t : Int} (hk : k < (decimalInt t).length) :
    parseLong ((decimalInt t).take k) ≠ some t := by
  rw [decimalInt_eq] at hk ⊢
  rw [List.take_append]
  by_cases hds : (decimalBytes t.natAbs).take (k - (sign t).length) = []
  · rw [hds, List.append_nil]
    have hnone : parseLong ((sign t).take k) = none := by
      rw [sign]
      split
      · rcases k with - | k
        · rfl
        · rw [List.take_succ_cons, List.take_nil]
          rfl
      · rw [List.take_nil]
        rfl
    rw [hnone]
    exact Option.some_ne_none t |>.symm
  · have hlen : (sign t).length ≤ k := by
      by_contra hlt
      rw [Nat.sub_eq_zero_of_le (by omega), List.take_zero] at hds
      exact hds rfl
    rw [List.length_append] at hk
    have hbad := decimal_take_ne (n := t.natAbs) (k := k - (sign t).length) (by omega) hds
    rw [List.take_of_length_le hlen, parseLong_of_numeral
      (numeral_sign t ⟨hds, fun _ hc => isDigit_decimalBytes (List.mem_of_mem_take hc)⟩)]
    generalize hn : (if t < 0 then
        -(decimal ((decimalBytes t.natAbs).take (k - (sign t).length)) : Int)
      else decimal ((decimalBytes t.natAbs).take (k - (sign t).length))) = n
    have hne : n ≠ t := by
      rintro rfl
      split at hn
      · omega
      · omega
    intro h
    split at h
    · exact hne (Option.some.inj h)
    · cases h

theorem parseIntNoThrow_take {t : Int} :
    parseIntNoThrow ((decimalInt t).take k) = some t ↔
      (-2 ^ 31 ≤ t ∧ t < 2 ^ 31) ∧ (decimalInt t).length ≤ k := by
  rw [parseIntNoThrow_eq_some]
  rcases Nat.lt_or_ge k (decimalInt t).length with hk | hk
  · exact iff_of_false (fun h => parseLong_take_ne hk h.1) fun h => Nat.not_le.mpr hk h.2
  · rw [List.take_of_length_le hk]
    refine ⟨fun h => ⟨h.2, hk⟩, fun h => ⟨?_, h.1⟩⟩
    rw [decimalInt_eq, parseLong_of_numeral
      (numeral_sign t ⟨decimalBytes_ne_nil _, fun _ hc => isDigit_decimalBytes hc⟩),
      decimal_decimalBytes]
    obtain ⟨⟨hlow, hhigh⟩, -⟩ := h
    have hvalue : (if t < 0 then -(t.natAbs : Int) else t.natAbs) = t := by
      split <;> omega
    rw [hvalue, if_pos (by omega)]

/-- The names of the states, and what the reader makes of their starts. -/
theorem STATUS_STRING_spec : (STATUS_STRING .ok).length = 2 ∧ (STATUS_STRING .error).length = 5 ∧
    (∀ k < 3, setStatus ((STATUS_STRING .ok).take k) = .ok) ∧
    (∀ k < 5, setStatus ((STATUS_STRING .error).take k) = .ok) ∧
    setStatus (STATUS_STRING .error) = .error ∧
    ∀ status ∈ [Status.ok, .error], STATUS_STRING status ≠ [] ∧
      ∀ c ∈ STATUS_STRING status, isStripped c = false ∧ c ≠ 0x2c := by decide +kernel

theorem setStatus_take {status : Status} :
    setStatus ((STATUS_STRING status).take k) = status ↔
      status = .ok ∨ (STATUS_STRING status).length ≤ k := by
  obtain ⟨hlenOk, hlenError, hok, herror, hfull, -⟩ := STATUS_STRING_spec
  cases status with
  | ok =>
    refine iff_of_true ?_ (.inl rfl)
    rcases Nat.lt_or_ge k 3 with hk | hk
    · exact hok k hk
    · have h := hok 2 (by decide)
      rw [List.take_of_length_le (by omega)] at h ⊢
      exact h
  | error =>
    rcases Nat.lt_or_ge k 5 with hk | hk
    · rw [herror k hk, hlenError]
      exact iff_of_false (by decide) (by simp; omega)
    · rw [List.take_of_length_le (by omega), hfull, hlenError]
      exact iff_of_true rfl (.inr hk)

theorem mem_statuses (status : Status) : status ∈ [Status.ok, .error] := by
  cases status <;> decide

theorem STATUS_STRING_ne_nil (status : Status) : STATUS_STRING status ≠ [] :=
  (STATUS_STRING_spec.2.2.2.2.2 status (mem_statuses status)).1

theorem plain_STATUS_STRING (status : Status) : Plain (STATUS_STRING status) :=
  (STATUS_STRING_spec.2.2.2.2.2 status (mem_statuses status)).2

end FluxCore.Servers
