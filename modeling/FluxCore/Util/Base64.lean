import FluxCore.Util.Base32

/-!
# Base64

The decoder skips the bytes outside the alphabet with a table of 256 entries. It converts the
character to `size_t` to index the table, and `char` is signed: a byte from `0x80` on indexes
outside the table, which the model shows as `none`.
-/

namespace FluxCore.Util.Base64

open Utp (Bytes)

/-! ## The functions -/

def CHAR_TABLE : Bytes :=
  "ABCDEFGHIJKLMNOPQRSTUVWXYZabcdefghijklmnopqrstuvwxyz0123456789+/".toUTF8.toList

def INDEX_TABLE : List Int := [
  -1, -1, -1, -1, -1, -1, -1, -1, -1, -1, -1, -1, -1, -1, -1, -1, -1, -1,
  -1, -1, -1, -1, -1, -1, -1, -1, -1, -1, -1, -1, -1, -1, -1, -1, -1, -1,
  -1, -1, -1, -1, -1, -1, -1, 62, -1, -1, -1, 63, 52, 53, 54, 55, 56, 57,
  58, 59, 60, 61, -1, -1, -1, -1, -1, -1, -1, 0,  1,  2,  3,  4,  5,  6,
  7,  8,  9,  10, 11, 12, 13, 14, 15, 16, 17, 18, 19, 20, 21, 22, 23, 24,
  25, -1, -1, -1, -1, -1, -1, 26, 27, 28, 29, 30, 31, 32, 33, 34, 35, 36,
  37, 38, 39, 40, 41, 42, 43, 44, 45, 46, 47, 48, 49, 50, 51, -1, -1, -1,
  -1, -1, -1, -1, -1, -1, -1, -1, -1, -1, -1, -1, -1, -1, -1, -1, -1, -1,
  -1, -1, -1, -1, -1, -1, -1, -1, -1, -1, -1, -1, -1, -1, -1, -1, -1, -1,
  -1, -1, -1, -1, -1, -1, -1, -1, -1, -1, -1, -1, -1, -1, -1, -1, -1, -1,
  -1, -1, -1, -1, -1, -1, -1, -1, -1, -1, -1, -1, -1, -1, -1, -1, -1, -1,
  -1, -1, -1, -1, -1, -1, -1, -1, -1, -1, -1, -1, -1, -1, -1, -1, -1, -1,
  -1, -1, -1, -1, -1, -1, -1, -1, -1, -1, -1, -1, -1, -1, -1, -1, -1, -1,
  -1, -1, -1, -1, -1, -1, -1, -1, -1, -1, -1, -1, -1, -1, -1, -1, -1, -1,
  -1, -1, -1, -1]

/-- The character `'='`. -/
def pad : UInt8 := 0x3d

/-- `CHAR_TABLE[n]`. -/
def char (n : Nat) : UInt8 := CHAR_TABLE.getD n 0

def encode : Bytes → Bytes
  | a :: b :: c :: first =>
    let n := (a.toNat <<< 16) + (b.toNat <<< 8) + c.toNat
    [char (n >>> 18), char ((n >>> 12) &&& 0x3f), char ((n >>> 6) &&& 0x3f), char (n &&& 0x3f)]
      ++ encode first
  | [a, b] =>
    let n := (a.toNat <<< 16) + (b.toNat <<< 8)
    [char (n >>> 18), char ((n >>> 12) &&& 0x3f), char ((n >>> 6) &&& 0x3f), pad]
  | [a] =>
    let n := a.toNat <<< 16
    [char (n >>> 18), char ((n >>> 12) &&& 0x3f), pad, pad]
  | [] => []

/-- `static_cast<size_t>` of a signed character. -/
def toSize (b : UInt8) : Nat := if b < 0x80 then b.toNat else 2 ^ 64 - 256 + b.toNat

def getNext : Bytes → Option Bytes
  | [] => some []
  | b :: first =>
    match INDEX_TABLE[toSize b]? with
    | none => none
    | some v => if v ≠ -1 ∨ b = pad then some (b :: first) else getNext first

/-- How the loop over the four characters of a group ends. -/
inductive Group where
  /-- There is no `i`-th character. -/
  | atEnd (i : Nat)
  | full (k : List UInt8) (eq : Nat) (first : Bytes)

/-- The last `n` turns of the loop over the four characters. -/
def fill : Nat → List UInt8 → Nat → Bytes → Option Group
  | 0, k, eq, first => some (.full k eq first)
  | n + 1, k, eq, first =>
    let i := 4 - n
    match getNext first with
    | none => none
    | some [] => some (.atEnd i)
    | some (b :: first) => fill n (k ++ [b]) (if b = pad ∧ eq = 0 then i else eq) first

/-- `INDEX_TABLE[static_cast<unsigned char>(*k[i])]`. -/
def entry (k : List UInt8) (i : Nat) : Int := INDEX_TABLE.getD (k.getD i 0).toNat (-1)

/-- The group with padding. -/
def finish (k : List UInt8) (eq : Nat) (res : Bytes) : Bytes :=
  if eq ≤ 2 then []
  else if (k.drop (eq - 1)).any (· ≠ pad) then []
  else if eq = 3 then
    let n := entry k 0 * 2 ^ 18 + entry k 1 * 2 ^ 12
    res ++ [UInt8.ofInt (n / 2 ^ 16)]
  else if eq = 4 then
    let n := entry k 0 * 2 ^ 18 + entry k 1 * 2 ^ 12 + entry k 2 * 2 ^ 6
    res ++ [UInt8.ofInt (n / 2 ^ 16), UInt8.ofInt (n / 2 ^ 8)]
  else res

/-- The loop of `decode`. Every turn takes four bytes. -/
def decodeLoop : Nat → Bytes → Bytes → Option Bytes
  | 0, res, _ => some res
  | _ + 1, res, [] => some res
  | fuel + 1, res, first =>
    match fill 4 [] 0 first with
    | none => none
    | some (.atEnd i) => some (if i ≠ 1 then [] else res)
    | some (.full k eq first) =>
      if eq ≠ 0 then some (finish k eq res)
      else
        let n := entry k 0 * 2 ^ 18 + entry k 1 * 2 ^ 12 + entry k 2 * 2 ^ 6 + entry k 3
        decodeLoop fuel (res ++ [UInt8.ofInt (n / 2 ^ 16), UInt8.ofInt (n / 2 ^ 8), UInt8.ofInt n])
          first

/-- It is `none` where the table is read outside its 256 entries. -/
def decode (s : Bytes) : Option Bytes := decodeLoop s.length [] s

/-! ## The significant characters -/

/-- The alphabet and the padding. -/
def Significant (b : UInt8) : Prop := b ∈ CHAR_TABLE ∨ b = pad

instance (b : UInt8) : Decidable (Significant b) := inferInstanceAs (Decidable (_ ∨ _))

/-- `s` is `t` with bytes inserted that are neither in the alphabet nor the padding. -/
inductive Inserted : Bytes → Bytes → Prop
  | nil : Inserted [] []
  | keep (b : UInt8) {t s : Bytes} : Inserted t s → Inserted (b :: t) (b :: s)
  | garbage {b : UInt8} {t s : Bytes} : ¬Significant b → Inserted t s → Inserted t (b :: s)

/-- The bytes up to the end of the first group of four significant characters that has padding:
`i` characters of the group are read, `eq` tells whether there was padding. -/
def examined (i : Nat) (eq : Bool) : Bytes → Bytes
  | [] => []
  | b :: s =>
    if Significant b then
      if i = 3 then b :: if eq || b = pad then [] else examined 0 false s
      else b :: examined (i + 1) (eq || b = pad) s
    else b :: examined i eq s

/-- Where a byte is below `0x80`, its entry tells whether it is in the alphabet. -/
theorem table_spec : ∀ i : Fin 128, ∃ v, INDEX_TABLE[i.val]? = some v ∧
    (v ≠ -1 ↔ UInt8.ofNat i.val ∈ CHAR_TABLE) := by
  intro i
  have hall : (List.range 128).all fun i => (INDEX_TABLE[i]?.any (· ≠ -1)) =
      (CHAR_TABLE.contains (UInt8.ofNat i)) := by decide +kernel
  have hlen : i.val < INDEX_TABLE.length := i.isLt.trans (by decide +kernel)
  have hi := List.all_eq_true.mp hall i.val (List.mem_range.mpr i.isLt)
  rw [List.getElem?_eq_getElem hlen] at hi ⊢
  refine ⟨_, rfl, ?_⟩
  rw [← List.contains_iff_mem, ← of_decide_eq_true hi]
  simp

theorem getNext_cons (b : UInt8) (s : Bytes) : getNext (b :: s) =
    if 0x80 ≤ b then none else if Significant b then some (b :: s) else getNext s := by
  rw [getNext, toSize]
  by_cases hb : b < 0x80
  · obtain ⟨v, hv, hmem⟩ := table_spec ⟨b.toNat, UInt8.lt_iff_toNat_lt.mp hb⟩
    dsimp only at hv hmem
    rw [UInt8.ofNat_toNat] at hmem
    rw [if_pos hb, hv, if_neg (UInt8.not_le.mpr hb)]
    exact if_congr (or_congr_left hmem) rfl rfl
  · have hout : INDEX_TABLE[2 ^ 64 - 256 + b.toNat]? = none := by
      have hlen : INDEX_TABLE.length = 256 := by decide +kernel
      exact List.getElem?_eq_none (by omega)
    rw [if_neg hb, hout, if_pos (UInt8.not_lt.mp hb)]

theorem not_significant {b : UInt8} (h : 0x80 ≤ b) : ¬Significant b := by
  have hall : (CHAR_TABLE ++ [pad]).all (· < 0x80) := by decide +kernel
  intro hs
  have hmem : b ∈ CHAR_TABLE ++ [pad] := by
    rw [List.mem_append, List.mem_singleton]
    exact hs
  exact UInt8.not_le.mpr (of_decide_eq_true (List.all_eq_true.mp hall b hmem)) h

theorem examined_garbage {b : UInt8} (h : ¬Significant b) (i : Nat) (eq : Bool) (s : Bytes) :
    examined i eq (b :: s) = b :: examined i eq s := by
  rw [examined, if_neg h]

/-- A table index is out of bounds exactly where an examined byte is not below `0x80`. -/
theorem getNext_spec (i : Nat) (eq : Bool) (s : Bytes) :
    match getNext s with
    | none => ∃ b ∈ examined i eq s, 0x80 ≤ b
    | some [] => ∀ b ∈ examined i eq s, b < 0x80
    | some (b :: s') => Significant b ∧ s'.length < s.length ∧
      ∃ pre : Bytes, (∀ c ∈ pre, c < 0x80) ∧ examined i eq s = pre ++ examined i eq (b :: s') := by
  induction s with
  | nil => exact fun b hb => absurd hb (List.not_mem_nil)
  | cons b s ih =>
    rw [getNext_cons]
    by_cases hb : 0x80 ≤ b
    · rw [if_pos hb, examined_garbage (not_significant hb)]
      exact ⟨b, List.mem_cons_self, hb⟩
    · rw [if_neg hb]
      by_cases hs : Significant b
      · rw [if_pos hs]
        exact ⟨hs, Nat.lt_succ_self _, [], by simp, rfl⟩
      · rw [if_neg hs, examined_garbage hs]
        rcases hget : getNext s with _ | _ | ⟨c, s'⟩ <;> rw [hget] at ih <;> dsimp only at ih ⊢
        · obtain ⟨c, hc, hge⟩ := ih
          exact ⟨c, List.mem_cons_of_mem _ hc, hge⟩
        · exact List.forall_mem_cons.mpr ⟨UInt8.not_le.mp hb, ih⟩
        · obtain ⟨hsig, hlen, pre, hpre, hex⟩ := ih
          refine ⟨hsig, by rw [List.length_cons]; omega, b :: pre,
            List.forall_mem_cons.mpr ⟨UInt8.not_le.mp hb, hpre⟩, by rw [hex]; rfl⟩

theorem fill_spec (n : Nat) (hn : n < 4) (k : List UInt8) (eq : Nat) (s : Bytes) :
    match fill (n + 1) k eq s with
    | none => ∃ b ∈ examined (3 - n) (eq ≠ 0) s, 0x80 ≤ b
    | some (.atEnd _) => ∀ b ∈ examined (3 - n) (eq ≠ 0) s, b < 0x80
    | some (.full _ eq' s') => s'.length < s.length ∧ ∃ pre : Bytes, (∀ c ∈ pre, c < 0x80) ∧
      examined (3 - n) (eq ≠ 0) s = pre ++ if eq' ≠ 0 then [] else examined 0 false s' := by
  induction n generalizing k eq s with
  | zero =>
    have hspec := getNext_spec 3 (eq ≠ 0) s
    rw [fill]
    rcases hget : getNext s with _ | _ | ⟨b, s'⟩ <;> rw [hget] at hspec <;> dsimp only at hspec ⊢
    · exact hspec
    · exact hspec
    · obtain ⟨hsig, hlen, pre, hpre, hex⟩ := hspec
      have hb : b < 0x80 := UInt8.not_le.mp fun hge => not_significant hge hsig
      refine ⟨hlen, pre ++ [b], ?_, ?_⟩
      · exact List.forall_mem_append.mpr ⟨hpre, List.forall_mem_singleton.mpr hb⟩
      · rw [hex, examined, if_pos hsig, if_pos rfl, List.append_assoc]
        by_cases hp : b = pad <;> by_cases he : eq = 0 <;> simp [hp, he]
  | succ n ih =>
    have hspec := getNext_spec (3 - (n + 1)) (eq ≠ 0) s
    rw [fill]
    rcases hget : getNext s with _ | _ | ⟨b, s'⟩ <;> rw [hget] at hspec <;> dsimp only at hspec ⊢
    · exact hspec
    · exact hspec
    · obtain ⟨hsig, hlen, pre, hpre, hex⟩ := hspec
      have hb : b < 0x80 := UInt8.not_le.mp fun hge => not_significant hge hsig
      have hrec := ih (by omega) (k ++ [b])
        (if b = pad ∧ eq = 0 then 4 - (n + 1) else eq) s'
      have hmark : (decide (eq ≠ 0) || decide (b = pad)) =
          decide ((if b = pad ∧ eq = 0 then 4 - (n + 1) else eq) ≠ 0) := by
        have h4 : 3 - n ≠ 0 := by omega
        by_cases hp : b = pad <;> by_cases he : eq = 0 <;> simp [hp, he, h4]
      have hstep : examined (3 - (n + 1)) (eq ≠ 0) (b :: s') =
          b :: examined (3 - n) ((if b = pad ∧ eq = 0 then 4 - (n + 1) else eq) ≠ 0) s' := by
        rw [examined, if_pos hsig, if_neg (by omega), hmark, show 3 - (n + 1) + 1 = 3 - n by omega]
      rw [hstep] at hex
      rw [hex]
      generalize fill (n + 1) (k ++ [b]) (if b = pad ∧ eq = 0 then 4 - (n + 1) else eq) s' = r
        at hrec ⊢
      rcases r with _ | _ | ⟨k', eq', s''⟩ <;> dsimp only at hrec ⊢
      · obtain ⟨c, hc, hge⟩ := hrec
        exact ⟨c, List.mem_append_right _ (List.mem_cons_of_mem _ hc), hge⟩
      · exact List.forall_mem_append.mpr ⟨hpre, List.forall_mem_cons.mpr ⟨hb, hrec⟩⟩
      · obtain ⟨hlen', pre', hpre', hex'⟩ := hrec
        refine ⟨by omega, pre ++ b :: pre', ?_, ?_⟩
        · exact List.forall_mem_append.mpr ⟨hpre, List.forall_mem_cons.mpr ⟨hb, hpre'⟩⟩
        · rw [hex', List.append_assoc]
          rfl

theorem decodeLoop_fill (fuel : Nat) (res s : Bytes) : decodeLoop (fuel + 1) res s =
    match fill 4 [] 0 s with
    | none => none
    | some (.atEnd i) => some (if i ≠ 1 then [] else res)
    | some (.full k eq first) =>
      if eq ≠ 0 then some (finish k eq res)
      else
        let n := entry k 0 * 2 ^ 18 + entry k 1 * 2 ^ 12 + entry k 2 * 2 ^ 6 + entry k 3
        decodeLoop fuel (res ++ [UInt8.ofInt (n / 2 ^ 16), UInt8.ofInt (n / 2 ^ 8), UInt8.ofInt n])
          first := by
  cases s with
  | nil => rfl
  | cons b s => rfl

/-- The table is read inside its bounds exactly where the examined bytes are below `0x80`. -/
theorem decodeLoop_isSome (fuel : Nat) (res s : Bytes) (h : s.length ≤ fuel) :
    (decodeLoop fuel res s).isSome ↔ ∀ b ∈ examined 0 false s, b < 0x80 := by
  induction fuel generalizing res s with
  | zero =>
    rw [List.length_eq_zero_iff.mp (Nat.le_zero.mp h)]
    exact iff_of_true rfl fun b hb => absurd hb (List.not_mem_nil)
  | succ fuel ih =>
    have hspec := fill_spec 3 (by decide) [] 0 s
    rw [show (decide ((0 : Nat) ≠ 0)) = false from rfl, Nat.sub_self] at hspec
    rw [decodeLoop_fill]
    rcases hfill : fill 4 [] 0 s with _ | _ | ⟨k, eq, s'⟩ <;> rw [hfill] at hspec <;>
      dsimp only at hspec ⊢
    · obtain ⟨b, hb, hge⟩ := hspec
      exact iff_of_false (by simp) fun hall => UInt8.not_le.mpr (hall b hb) hge
    · exact iff_of_true rfl hspec
    · obtain ⟨hlen, pre, hpre, hex⟩ := hspec
      rw [hex]
      split
      · exact iff_of_true rfl (by rwa [List.append_nil])
      · rw [ih _ s' (by omega), List.forall_mem_append]
        exact (and_iff_right hpre).symm

/-! ## The round trip -/

theorem entry_char : ∀ i : Fin 64,
    INDEX_TABLE.getD (char i.val).toNat (-1) = i.val ∧ char i.val ∈ CHAR_TABLE ∧
      char i.val ≠ pad := by
  decide +kernel

theorem char_mem {n : Nat} (h : n < 64) : char n ∈ CHAR_TABLE := (entry_char ⟨n, h⟩).2.1

theorem char_ne {n : Nat} (h : n < 64) : char n ≠ pad := (entry_char ⟨n, h⟩).2.2

theorem inserted_nil {s : Bytes} (h : Inserted [] s) : getNext s = none ∨ getNext s = some [] := by
  generalize ht : ([] : Bytes) = t at h
  induction h with
  | nil => exact .inr rfl
  | keep => exact absurd ht (by simp)
  | garbage hb _ ih =>
    rw [getNext_cons, if_neg hb]
    split
    · exact .inl rfl
    · exact ih ht

theorem inserted_cons {b : UInt8} {t s : Bytes} (hb : Significant b) (h : Inserted (b :: t) s) :
    getNext s = none ∨
      ∃ s', getNext s = some (b :: s') ∧ Inserted t s' ∧ s'.length < s.length := by
  generalize hu : b :: t = u at h
  induction h with
  | nil => exact absurd hu (by simp)
  | @keep c u s h _ =>
    obtain ⟨rfl, rfl⟩ := List.cons.inj hu
    rw [getNext_cons, if_pos hb]
    split
    · exact .inl rfl
    · exact .inr ⟨s, rfl, h, Nat.lt_succ_self _⟩
  | garbage hc _ ih =>
    rw [getNext_cons, if_neg hc]
    split
    · exact .inl rfl
    · obtain hnone | ⟨s', hget, hins, hlen⟩ := ih hu
      · exact .inl hnone
      · exact .inr ⟨s', hget, hins, by rw [List.length_cons]; omega⟩

/-- Where the padding of a group begins, of which the characters `l` are still to be read. -/
def mark : List UInt8 → Nat → Nat
  | [], eq => eq
  | b :: l, eq => mark l (if b = pad ∧ eq = 0 then 4 - l.length else eq)

theorem fill_inserted {l t s : Bytes} (hl : ∀ b ∈ l, Significant b) (h : Inserted (l ++ t) s)
    (k : List UInt8) (eq : Nat) : fill l.length k eq s = none ∨
      ∃ s', fill l.length k eq s = some (.full (k ++ l) (mark l eq) s') ∧ Inserted t s' ∧
        s'.length + l.length ≤ s.length := by
  induction l generalizing k eq s with
  | nil => exact .inr ⟨s, by rw [List.append_nil]; rfl, h, le_rfl⟩
  | cons b l ih =>
    obtain ⟨hb, hl⟩ := List.forall_mem_cons.mp hl
    rw [List.length_cons, fill]
    obtain hnone | ⟨s', hget, hins, hlen⟩ := inserted_cons hb h
    · rw [hnone]
      exact .inl rfl
    · rw [hget]
      dsimp only
      obtain hnone | ⟨s'', hfill, hins', hlen'⟩ := ih hl hins (k ++ [b])
        (if b = pad ∧ eq = 0 then 4 - l.length else eq)
      · exact .inl hnone
      · exact .inr ⟨s'', by rw [hfill, List.append_assoc]; rfl, hins', by omega⟩

theorem shift_and (n k : Nat) : (n >>> k) &&& 0x3f = n / 2 ^ k % 64 := by
  rw [Nat.shiftRight_eq_div_pow]
  exact Nat.and_two_pow_sub_one_eq_mod _ 6

/-- The four characters that the number `n` of 24 bits is written with. -/
def digits (n : Nat) : Fin 4 → Nat
  | 0 => n >>> 18
  | 1 => (n >>> 12) &&& 0x3f
  | 2 => (n >>> 6) &&& 0x3f
  | 3 => n &&& 0x3f

theorem digits_lt {n : Nat} (h : n < 2 ^ 24) (i : Fin 4) : digits n i < 64 := by
  match i with
  | 0 => rw [digits, Nat.shiftRight_eq_div_pow]; omega
  | 1 => rw [digits, shift_and]; omega
  | 2 => rw [digits, shift_and]; omega
  | 3 => rw [digits, ← Nat.shiftRight_zero (n := n), shift_and]; omega

theorem digits_sum (n : Nat) :
    digits n 0 * 2 ^ 18 + digits n 1 * 2 ^ 12 + digits n 2 * 2 ^ 6 + digits n 3 = n := by
  have h3 : digits n 3 = n % 64 := Nat.and_two_pow_sub_one_eq_mod n 6
  rw [digits, digits, digits, h3, shift_and, shift_and, Nat.shiftRight_eq_div_pow]
  omega

theorem entry_digits {n : Nat} (h : n < 2 ^ 24) (i : Fin 4) :
    INDEX_TABLE.getD (char (digits n i)).toNat (-1) = digits n i :=
  (entry_char ⟨digits n i, digits_lt h i⟩).1

theorem significant_digits {n : Nat} (h : n < 2 ^ 24) (i : Fin 4) :
    Significant (char (digits n i)) :=
  .inl (char_mem (digits_lt h i))

theorem ofInt_natCast (n : Nat) : UInt8.ofInt n = UInt8.ofNat n := by
  apply UInt8.toNat_inj.mp
  rw [UInt8.toNat_ofNat', UInt8.ofInt, UInt8.toNat_ofNat']
  omega

theorem ofInt_div (n k : Nat) : UInt8.ofInt ((n : Int) / 2 ^ k) = UInt8.ofNat (n / 2 ^ k) := by
  rw [← ofInt_natCast]
  push_cast
  rfl

theorem ofNat_eq {n : Nat} {b : UInt8} (h : n % 256 = b.toNat) : UInt8.ofNat n = b := by
  apply UInt8.toNat_inj.mp
  rw [UInt8.toNat_ofNat', ← h]

/-- The number that two or three bytes of a group begin, with its bytes. -/
theorem bytes_of_group (a b c : UInt8) {n : Nat}
    (h : n = (a.toNat <<< 16) + (b.toNat <<< 8) + c.toNat) : n < 2 ^ 24 ∧
      UInt8.ofInt ((n : Int) / 2 ^ 16) = a ∧ UInt8.ofInt ((n : Int) / 2 ^ 8) = b ∧
      UInt8.ofInt n = c := by
  have ha := a.toNat_lt
  have hb := b.toNat_lt
  have hc := c.toNat_lt
  rw [Nat.shiftLeft_eq, Nat.shiftLeft_eq] at h
  rw [ofInt_div, ofInt_div, ofInt_natCast]
  exact ⟨by omega, ofNat_eq (by omega), ofNat_eq (by omega), ofNat_eq (by omega)⟩

theorem forall_mem_four {P : UInt8 → Prop} {a b c d : UInt8} (ha : P a) (hb : P b) (hc : P c)
    (hd : P d) : ∀ x ∈ [a, b, c, d], P x := by
  simp only [List.mem_cons, List.not_mem_nil, or_false, forall_eq_or_imp, forall_eq]
  exact ⟨ha, hb, hc, hd⟩

/-- What a group is read as, where it is read at all. -/
theorem decodeLoop_group {l t s : Bytes} (hl : ∀ b ∈ l, Significant b) (hlen : l.length = 4)
    (h : Inserted (l ++ t) s) {fuel : Nat} (hfuel : s.length ≤ fuel) (res : Bytes)
    (hsome : (decodeLoop fuel res s).isSome) : ∃ s' fuel', Inserted t s' ∧ s'.length ≤ fuel' ∧
      decodeLoop fuel res s =
        if mark l 0 ≠ 0 then some (finish l (mark l 0) res)
        else
          let n := entry l 0 * 2 ^ 18 + entry l 1 * 2 ^ 12 + entry l 2 * 2 ^ 6 + entry l 3
          decodeLoop fuel'
            (res ++ [UInt8.ofInt (n / 2 ^ 16), UInt8.ofInt (n / 2 ^ 8), UInt8.ofInt n]) s' := by
  have hfill := fill_inserted hl h [] 0
  rw [hlen] at hfill
  obtain _ | fuel := fuel
  · obtain hnone | ⟨s', -, -, hle⟩ := hfill
    · rw [List.length_eq_zero_iff.mp (Nat.le_zero.mp hfuel)] at hnone
      exact absurd hnone (by decide)
    · omega
  · rw [decodeLoop_fill] at hsome ⊢
    obtain hnone | ⟨s', hget, hins, hle⟩ := hfill
    · rw [hnone] at hsome
      exact absurd hsome Bool.false_ne_true
    · rw [hget, List.nil_append]
      exact ⟨s', fuel, hins, by omega, rfl⟩

theorem decodeLoop_inserted (fuel : Nat) (x s res : Bytes) (h : Inserted (encode x) s)
    (hlen : s.length ≤ fuel) (hsome : (decodeLoop fuel res s).isSome) :
    decodeLoop fuel res s = some (res ++ x) := by
  induction x using encode.induct generalizing fuel s res with
  | case1 a b c first ih =>
    rw [encode] at h
    obtain ⟨hn, ha, hb, hc⟩ := bytes_of_group a b c rfl
    generalize (a.toNat <<< 16) + (b.toNat <<< 8) + c.toNat = n at h hn ha hb hc
    change Inserted ([char (digits n 0), char (digits n 1), char (digits n 2),
      char (digits n 3)] ++ encode first) s at h
    have hsum : (digits n 0 * 2 ^ 18 + digits n 1 * 2 ^ 12 + digits n 2 * 2 ^ 6 +
        digits n 3 : Int) = n := mod_cast digits_sum n
    obtain ⟨s', fuel', hins, hlen', hdec⟩ := decodeLoop_group
      (forall_mem_four (significant_digits hn 0) (significant_digits hn 1)
        (significant_digits hn 2) (significant_digits hn 3)) rfl h hlen res hsome
    have hmark : mark [char (digits n 0), char (digits n 1), char (digits n 2),
        char (digits n 3)] 0 = 0 := by
      simp [mark, char_ne (digits_lt hn _)]
    rw [hdec, hmark, if_neg (not_not.mpr rfl)] at hsome ⊢
    simp only [entry, List.getD_cons_zero, List.getD_cons_succ, entry_digits hn] at hsome ⊢
    rw [hsum, ha, hb, hc] at hsome ⊢
    rw [ih fuel' s' _ hins hlen' hsome, List.append_assoc]
    rfl
  | case2 a b =>
    rw [encode] at h
    obtain ⟨hn, ha, hb, -⟩ := bytes_of_group a b 0 rfl
    have hmod : ((a.toNat <<< 16) + (b.toNat <<< 8)) % 64 = 0 := by
      rw [Nat.shiftLeft_eq, Nat.shiftLeft_eq]
      omega
    rw [UInt8.toNat_zero, Nat.add_zero] at hn ha hb
    generalize (a.toNat <<< 16) + (b.toNat <<< 8) = n at h hn ha hb hmod
    change Inserted ([char (digits n 0), char (digits n 1), char (digits n 2), pad] ++ []) s at h
    have hthree : digits n 3 = 0 := (Nat.and_two_pow_sub_one_eq_mod n 6).trans hmod
    have hsum : (digits n 0 * 2 ^ 18 + digits n 1 * 2 ^ 12 + digits n 2 * 2 ^ 6 : Int) = n := by
      have hall := digits_sum n
      omega
    obtain ⟨s', fuel', -, -, hdec⟩ := decodeLoop_group
      (forall_mem_four (significant_digits hn 0) (significant_digits hn 1)
        (significant_digits hn 2) (.inr rfl)) rfl h hlen res hsome
    have hmark : mark [char (digits n 0), char (digits n 1), char (digits n 2), pad] 0 = 4 := by
      simp [mark, char_ne (digits_lt hn _)]
    rw [hdec, hmark, if_pos (by decide)]
    simp only [finish, entry, List.getD_cons_zero, List.getD_cons_succ, entry_digits hn]
    rw [hsum, ha, hb]
    simp
  | case3 a =>
    rw [encode] at h
    obtain ⟨hn, ha, -, -⟩ := bytes_of_group a 0 0 rfl
    have hmod : (a.toNat <<< 16) % 2 ^ 12 = 0 := by
      rw [Nat.shiftLeft_eq]
      omega
    rw [UInt8.toNat_zero, Nat.add_zero, Nat.zero_shiftLeft, Nat.add_zero] at hn ha
    generalize a.toNat <<< 16 = n at h hn ha hmod
    change Inserted ([char (digits n 0), char (digits n 1), pad, pad] ++ []) s at h
    have hsum : (digits n 0 * 2 ^ 18 + digits n 1 * 2 ^ 12 : Int) = n := by
      have htwo : digits n 2 = 0 := by rw [digits, shift_and]; omega
      have hthree : digits n 3 = 0 := (Nat.and_two_pow_sub_one_eq_mod n 6).trans (by omega)
      have hall := digits_sum n
      omega
    obtain ⟨s', fuel', -, -, hdec⟩ := decodeLoop_group
      (forall_mem_four (significant_digits hn 0) (significant_digits hn 1) (.inr rfl) (.inr rfl))
      rfl h hlen res hsome
    have hmark : mark [char (digits n 0), char (digits n 1), pad, pad] 0 = 3 := by
      simp [mark, char_ne (digits_lt hn _)]
    rw [hdec, hmark, if_pos (by decide)]
    simp only [finish, entry, List.getD_cons_zero, List.getD_cons_succ, entry_digits hn]
    rw [hsum, ha]
    simp
  | case4 =>
    rw [encode] at h
    obtain _ | fuel := fuel
    · rw [decodeLoop, List.append_nil]
    · rw [decodeLoop_fill, fill] at hsome ⊢
      obtain hnone | hnil := inserted_nil h
      · rw [hnone] at hsome
        exact absurd hsome Bool.false_ne_true
      · rw [hnil, List.append_nil]
        rfl

/-- Where no table index is out of bounds, what was encoded is read back, whatever was inserted. -/
theorem decode_inserted {x s : Bytes} (h : Inserted (encode x) s) (hsome : (decode s).isSome) :
    decode s = some x :=
  decodeLoop_inserted s.length x s [] h le_rfl hsome

theorem decode_isSome (s : Bytes) : (decode s).isSome ↔ ∀ b ∈ examined 0 false s, b < 0x80 :=
  decodeLoop_isSome s.length [] s le_rfl

/-- Base32 reads back what it wrote. Base64 does, with anything inserted, and reads its table inside
the bounds, exactly where the bytes up to the end of the first group with padding are below
`0x80`. -/
theorem roundTrip_iff (s : Bytes) :
    ((∀ x, Base32.decode (Base32.encode x) = x) ∧
      (∀ x, Inserted (encode x) s → decode s = some x) ∧ decode s ≠ none) ↔
      ∀ b ∈ examined 0 false s, b < 0x80 := by
  rw [← decode_isSome]
  constructor
  · rintro ⟨-, -, hne⟩
    exact Option.isSome_iff_ne_none.mpr hne
  · intro hsome
    exact ⟨Base32.decode_encode, fun x h => decode_inserted h hsome,
      Option.isSome_iff_ne_none.mp hsome⟩

/-- The encoding of the empty string, with the byte `0x80` inserted. -/
theorem roundTrip_counterexample :
    ¬∀ s, (∀ x, Base32.decode (Base32.encode x) = x) ∧
      (∀ x, Inserted (encode x) s → decode s = some x) ∧ decode s ≠ none :=
  fun h => (h [0x80]).2.2 (by decide)

end FluxCore.Util.Base64
