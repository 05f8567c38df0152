import Mathlib.Data.List.Induction
import Mathlib.Tactic.Linarith

/-!
# UTF-8

The encoding of a code point, and the octets that encode one, by their ranges (`sequence_iff`): the
ranges leave out the overlong forms, the surrogates and what is above U+10FFFF.
-/

namespace FluxCore.Utf8

/-- A code point that is not a surrogate. -/
def Scalar (cp : Nat) : Prop := cp < 0xd800 ∨ (0xe000 ≤ cp ∧ cp < 0x110000)

/-- The octet of the six lowest bits. -/
def tail (n : Nat) : UInt8 := .ofNat (0x80 + n % 64)

def encode (cp : Nat) : List UInt8 :=
  if cp < 0x80 then [.ofNat cp]
  else if cp < 0x800 then [.ofNat (0xc0 + cp / 64), tail cp]
  else if cp < 0x10000 then [.ofNat (0xe0 + cp / 4096), tail (cp / 64), tail cp]
  else [.ofNat (0xf0 + cp / 262144), tail (cp / 4096), tail (cp / 64), tail cp]

def Tail (b : UInt8) : Prop := 0x80 ≤ b.toNat ∧ b.toNat ≤ 0xbf

/-- The octets of one character. -/
inductive Sequence : List UInt8 → Prop
  | one {a : UInt8} (ha : a.toNat ≤ 0x7f) : Sequence [a]
  | two {a b : UInt8} (ha : 0xc2 ≤ a.toNat ∧ a.toNat ≤ 0xdf) (hb : Tail b) : Sequence [a, b]
  | three {a b c : UInt8} (ha : 0xe0 ≤ a.toNat ∧ a.toNat ≤ 0xef)
      (hlong : a.toNat = 0xe0 → 0xa0 ≤ b.toNat) (hsurrogate : a.toNat = 0xed → b.toNat ≤ 0x9f)
      (hb : Tail b) (hc : Tail c) : Sequence [a, b, c]
  | four {a b c d : UInt8} (ha : 0xf0 ≤ a.toNat ∧ a.toNat ≤ 0xf4)
      (hlong : a.toNat = 0xf0 → 0x90 ≤ b.toNat) (habove : a.toNat = 0xf4 → b.toNat ≤ 0x8f)
      (hb : Tail b) (hc : Tail c) (hd : Tail d) : Sequence [a, b, c, d]

theorem toNat_ofNat_of_lt {n : Nat} (h : n < 256) : (UInt8.ofNat n).toNat = n := by
  rw [UInt8.toNat_ofNat', Nat.mod_eq_of_lt h]

theorem toNat_tail (n : Nat) : (tail n).toNat = 0x80 + n % 64 := toNat_ofNat_of_lt (by omega)

theorem tail_tail (n : Nat) : Tail (tail n) := by
  rw [Tail, toNat_tail]
  omega

theorem eq_tail {b : UInt8} (hb : Tail b) {n : Nat} (h : n % 64 = b.toNat - 0x80) : b = tail n := by
  obtain ⟨hlo, -⟩ := hb
  rw [← UInt8.toNat_inj, toNat_tail]
  omega

theorem eq_ofNat {b : UInt8} {n : Nat} (h : n = b.toNat) : b = .ofNat n := by
  rw [h, UInt8.ofNat_toNat]

theorem exists_of_sequence {s : List UInt8} (h : Sequence s) : ∃ cp, Scalar cp ∧ s = encode cp := by
  cases h with
  | @one a ha =>
    exact ⟨a.toNat, .inl (by omega), by rw [encode, if_pos (by omega), UInt8.ofNat_toNat]⟩
  | @two a b ha hb =>
    have hb' := hb
    obtain ⟨hlo, hhi⟩ := hb'
    refine ⟨(a.toNat - 0xc0) * 64 + (b.toNat - 0x80), .inl (by omega), ?_⟩
    rw [encode, if_neg (by omega), if_pos (by omega), ← eq_ofNat (b := a) (by omega),
      ← eq_tail hb (by omega)]
  | @three a b c ha hlong hsurrogate hb hc =>
    have hb' := hb
    have hc' := hc
    obtain ⟨hlo, hhi⟩ := hb'
    obtain ⟨hlo', hhi'⟩ := hc'
    refine ⟨(a.toNat - 0xe0) * 4096 + (b.toNat - 0x80) * 64 + (c.toNat - 0x80), ?_, ?_⟩
    · rw [Scalar]
      omega
    · rw [encode, if_neg (by omega), if_neg (by omega), if_pos (by omega),
        ← eq_ofNat (b := a) (by omega), ← eq_tail hb (by omega), ← eq_tail hc (by omega)]
  | @four a b c d ha hlong habove hb hc hd =>
    have hb' := hb
    have hc' := hc
    have hd' := hd
    obtain ⟨hlo, hhi⟩ := hb'
    obtain ⟨hlo', hhi'⟩ := hc'
    obtain ⟨hlo'', hhi''⟩ := hd'
    refine ⟨(a.toNat - 0xf0) * 262144 + (b.toNat - 0x80) * 4096 + (c.toNat - 0x80) * 64 +
      (d.toNat - 0x80), .inr (by omega), ?_⟩
    rw [encode, if_neg (by omega), if_neg (by omega), if_neg (by omega),
      ← eq_ofNat (b := a) (by omega), ← eq_tail hb (by omega), ← eq_tail hc (by omega),
      ← eq_tail hd (by omega)]

theorem sequence_encode {cp : Nat} (h : Scalar cp) : Sequence (encode cp) := by
  rw [Scalar] at h
  rw [encode]
  split_ifs with h1 h2 h3
  · exact .one (by rw [toNat_ofNat_of_lt (by omega)]; omega)
  · exact .two (by rw [toNat_ofNat_of_lt (by omega)]; omega) (tail_tail _)
  · refine .three ?_ ?_ ?_ (tail_tail _) (tail_tail _) <;>
      rw [toNat_ofNat_of_lt (by omega)] <;> try rw [toNat_tail]
    all_goals omega
  · refine .four ?_ ?_ ?_ (tail_tail _) (tail_tail _) (tail_tail _) <;>
      rw [toNat_ofNat_of_lt (by omega)] <;> try rw [toNat_tail]
    all_goals omega

/-- The ranges are those of the encodings of code points. -/
theorem sequence_iff {s : List UInt8} : Sequence s ↔ ∃ cp, Scalar cp ∧ s = encode cp :=
  ⟨exists_of_sequence, fun ⟨_, hcp, hs⟩ => hs ▸ sequence_encode hcp⟩

/-- A concatenation of characters, each of which `A` holds of. -/
def Characters (A : List UInt8 → Prop) (s : List UInt8) : Prop :=
  ∃ qs : List (List UInt8), (∀ q ∈ qs, Sequence q ∧ A q) ∧ s = qs.flatten

theorem Sequence.ne_nil {q : List UInt8} (h : Sequence q) : q ≠ [] := by
  cases h <;> exact List.cons_ne_nil _ _

/-- A recogniser that takes one character after the other. -/
theorem characters_iff {A P : List UInt8 → Prop} (hnil : P [])
    (hstep : ∀ q s, Sequence q → A q → (P (q ++ s) ↔ P s))
    (hcons : ∀ b s, P (b :: s) → ∃ q t, b :: s = q ++ t ∧ Sequence q ∧ A q) (s : List UInt8) :
    P s ↔ Characters A s := by
  constructor
  · intro h
    induction hn : s.length using Nat.strong_induction_on generalizing s with
    | _ n ih =>
      cases s with
      | nil => exact ⟨[], nofun, rfl⟩
      | cons b s =>
        obtain ⟨q, t, heq, hq, hA⟩ := hcons b s h
        rw [heq] at h hn ⊢
        have hlen : t.length < n := by
          have := List.length_pos_iff.mpr hq.ne_nil
          rw [List.length_append] at hn
          omega
        obtain ⟨qs, hqs, rfl⟩ := ih _ hlen t ((hstep q t hq hA).mp h) rfl
        refine ⟨q :: qs, ?_, rfl⟩
        rintro q' (_ | ⟨_, hq'⟩)
        · exact ⟨hq, hA⟩
        · exact hqs q' hq'
  · rintro ⟨qs, hqs, rfl⟩
    induction qs with
    | nil => exact hnil
    | cons q qs ih =>
      obtain ⟨hq, hA⟩ := hqs q List.mem_cons_self
      rw [List.flatten_cons, hstep q _ hq hA]
      exact ih fun q' hq' => hqs q' (List.mem_cons_of_mem q hq')

/-- The same, with code points. -/
theorem characters_iff_encode {A : Nat → Prop} {s : List UInt8} :
    Characters (fun q => ∃ cp, Scalar cp ∧ A cp ∧ q = encode cp) s ↔
      ∃ cps : List Nat, (∀ cp ∈ cps, Scalar cp ∧ A cp) ∧ s = cps.flatMap encode := by
  constructor
  · rintro ⟨qs, hqs, rfl⟩
    induction qs with
    | nil => exact ⟨[], nofun, rfl⟩
    | cons q qs ih =>
      obtain ⟨cps, hcps, heq⟩ := ih fun q' hq' => hqs q' (List.mem_cons_of_mem q hq')
      obtain ⟨cp, hcp, hA, rfl⟩ := (hqs q List.mem_cons_self).2
      refine ⟨cp :: cps, ?_, by rw [List.flatten_cons, heq, List.flatMap_cons]⟩
      rintro cp' (_ | ⟨_, h⟩)
      · exact ⟨hcp, hA⟩
      · exact hcps cp' h
  · rintro ⟨cps, hcps, rfl⟩
    refine ⟨cps.map encode, ?_, List.flatMap_def⟩
    intro q hq
    obtain ⟨cp, hcp, rfl⟩ := List.mem_map.mp hq
    obtain ⟨h, hA⟩ := hcps cp hcp
    exact ⟨sequence_encode h, cp, h, hA, rfl⟩

end FluxCore.Utf8
