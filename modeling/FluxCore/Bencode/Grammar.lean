import FluxCore.Bencode.BencodeParser

/-!
# What bencode denotes

The texts that denote a value, as the parser takes them on purpose: an integer may have a sign of
either kind, and one in scientific notation is read as zero.
-/

namespace FluxCore.Bencode

open Utp (Bytes)
open Json (ch decimal encodeInteger)
open Util (isDigit)
open BencodeParser (digit floatChar INT64_MAX)

/-- The number that digits make behind those of `n`. -/
def digitsValue (n : Nat) (digits : Bytes) : Nat := digits.foldl (fun n c => n * 10 + digit c) n

/-- At least one digit, and nothing else. -/
def Digits (digits : Bytes) : Prop := digits ≠ [] ∧ ∀ c ∈ digits, isDigit c = true

/-- The sign of an integer. -/
inductive Sign : Bytes → Int → Prop
  | none : Sign [] 1
  | plus : Sign [ch '+'] 1
  | minus : Sign [ch '-'] (-1)

/-- The rest of a number in scientific notation, behind its first digits. -/
def FloatTail (tail : Bytes) : Prop :=
  ∃ c cs, tail = c :: cs ∧ isDigit c = false ∧ ∀ c ∈ tail, floatChar c = true

/-- A length and as many bytes. -/
inductive DenotesString : Bytes → Bytes → Prop
  | mk {digits s : Bytes} (hdigits : Digits digits) (hlen : digitsValue 0 digits = s.length)
    (hmax : s.length ≤ INT64_MAX) : DenotesString (digits ++ ch ':' :: s) s

mutual

/-- The text is that of a value, no integer of it below `least`, which needs no more than `room`
places on the stack. -/
inductive Denotes (least : Int) : Nat → Bytes → ValueBase → Prop
  | integer {room : Nat} {sign digits : Bytes} {s : Int} (hsign : Sign sign s)
    (hdigits : Digits digits) (hleast : least ≤ s * digitsValue 0 digits)
    (hmax : s * digitsValue 0 digits ≤ INT64_MAX) :
    Denotes least room (ch 'i' :: (sign ++ (digits ++ [ch 'e'])))
      (.integer (s * digitsValue 0 digits))
  | float {room : Nat} {sign digits tail : Bytes} {s : Int} (hsign : Sign sign s)
    (hdigits : Digits digits) (hmax : digitsValue 0 digits ≤ INT64_MAX) (htail : FloatTail tail) :
    Denotes least room (ch 'i' :: (sign ++ (digits ++ (tail ++ [ch 'e'])))) (.integer 0)
  | string {room : Nat} {b s : Bytes} (h : DenotesString b s) : Denotes least room b (.string s)
  | list {room : Nat} {b : Bytes} {l : List ValueBase} (h : DenotesElements least room b l) :
    Denotes least room (ch 'l' :: (b ++ [ch 'e'])) (.list l)
  | dict {room : Nat} {b : Bytes} {d : List (Bytes × ValueBase)}
    (h : DenotesMembers least room b d) :
    Denotes least room (ch 'd' :: (b ++ [ch 'e']))
      (.dict (d.foldl (fun d a => Dict.put d a.1 a.2) []))

/-- The elements of a list, one after another. -/
inductive DenotesElements (least : Int) : Nat → Bytes → List ValueBase → Prop
  | nil {room : Nat} : DenotesElements least room [] []
  | cons {room : Nat} {b bs : Bytes} {v : ValueBase} {l : List ValueBase}
    (h : Denotes least room b v) (hs : DenotesElements least (room + 1) bs l) :
    DenotesElements least (room + 1) (b ++ bs) (v :: l)

/-- The members of a dictionary in the order of the text, in which a key may come twice. -/
inductive DenotesMembers (least : Int) : Nat → Bytes → List (Bytes × ValueBase) → Prop
  | nil {room : Nat} : DenotesMembers least room [] []
  | cons {room : Nat} {k b bs : Bytes} {key : Bytes} {v : ValueBase} {d : List (Bytes × ValueBase)}
    (hkey : DenotesString k key) (h : Denotes least room b v)
    (hs : DenotesMembers least (room + 1) bs d) :
    DenotesMembers least (room + 1) (k ++ (b ++ bs)) ((key, v) :: d)

end

section Digits

variable {n m : Nat} {digits xs ys : Bytes} {c : UInt8}

theorem digit_le (h : isDigit c = true) : digit c ≤ 9 := by
  simp only [isDigit, Bool.and_eq_true, decide_eq_true_eq] at h
  have h9 : c.toNat ≤ (ch '9').toNat := UInt8.le_iff_toNat_le.mp h.2
  have : (ch '9').toNat = 57 := rfl
  have : (ch '0').toNat = 48 := rfl
  unfold digit
  omega

theorem digitsValue_append : digitsValue n (xs ++ ys) = digitsValue (digitsValue n xs) ys :=
  List.foldl_append ..

theorem le_digitsValue : n ≤ digitsValue n digits := by
  induction digits generalizing n with
  | nil => exact Nat.le_refl _
  | cons c digits ih =>
    have hle : n ≤ n * 10 + digit c := by omega
    exact Nat.le_trans hle ih

/-- The loop over the digits stops exactly where their number gets out of range. -/
theorem readDigits_eq (h : ∀ c ∈ digits, isDigit c = true) (hn : n ≤ INT64_MAX) :
    BencodeParser.readDigits n digits =
      if digitsValue n digits ≤ INT64_MAX then some (digitsValue n digits) else none := by
  induction digits generalizing n with
  | nil => exact (if_pos hn).symm
  | cons c digits ih =>
    obtain ⟨hc, hdigits⟩ := List.forall_mem_cons.mp h
    have hle := digit_le hc
    have hmax : INT64_MAX = 9223372036854775807 := rfl
    unfold BencodeParser.readDigits
    by_cases hrange : (INT64_MAX - digit c) / 10 < n
    · have hbig : INT64_MAX < n * 10 + digit c := by omega
      have : n * 10 + digit c ≤ digitsValue (n * 10 + digit c) digits := le_digitsValue
      rw [if_pos hrange, if_neg]
      change ¬digitsValue (n * 10 + digit c) digits ≤ INT64_MAX
      omega
    · rw [if_neg hrange]
      exact ih hdigits (by omega)

end Digits

section Encode

theorem isDigit_ofNat {n : Nat} (h : n < 10) :
    isDigit (ch '0' + n.toUInt8) = true ∧ digit (ch '0' + n.toUInt8) = n := by
  have : ∀ n < 10, isDigit (ch '0' + n.toUInt8) = true ∧ digit (ch '0' + n.toUInt8) = n := by
    decide
  exact this n h

theorem digits_decimal (n : Nat) : Digits (decimal n) ∧ digitsValue 0 (decimal n) = n := by
  induction n using Nat.strongRecOn with
  | ind n ih =>
    unfold decimal
    split
    next h =>
      obtain ⟨hdigit, hvalue⟩ := isDigit_ofNat h
      refine ⟨⟨List.cons_ne_nil _ _, fun c hc => ?_⟩, ?_⟩
      · rwa [List.mem_singleton.mp hc]
      · change 0 * 10 + digit _ = n
        omega
    next h =>
      obtain ⟨⟨hne, hdigits⟩, hvalue⟩ := ih (n / 10) (by omega)
      obtain ⟨hdigit, hvalue'⟩ := isDigit_ofNat (Nat.mod_lt n (by omega : 0 < 10))
      refine ⟨⟨List.append_ne_nil_of_left_ne_nil hne _, fun c hc => ?_⟩, ?_⟩
      · rcases List.mem_append.mp hc with hc | hc
        · exact hdigits c hc
        · rwa [List.mem_singleton.mp hc]
      · rw [digitsValue_append, hvalue]
        change n / 10 * 10 + digit _ = n
        omega

theorem denotesString_encode {s : Bytes} (h : s.length ≤ INT64_MAX) :
    DenotesString (encodeString s) s :=
  .mk (digits_decimal s.length).1 (digits_decimal s.length).2 h

/-- An integer as the stream writes it, as a sign and digits. -/
theorem encodeInteger_eq (i : Int) :
    ∃ sign s, Sign sign s ∧ encodeInteger i = sign ++ decimal i.natAbs ∧ s * i.natAbs = i := by
  unfold encodeInteger
  split
  next h => exact ⟨_, _, .minus, rfl, by omega⟩
  next h => exact ⟨_, _, .none, rfl, by omega⟩

/-- What a value may have in it for its text to denote it. -/
def Representable (least : Int) : ValueBase → Prop
  | .integer i => least ≤ i ∧ i ≤ INT64_MAX
  | .string s => s.length ≤ INT64_MAX
  | .bool _ | .null => False
  | .list _ => True
  | .dict d => Dict.Sorted d ∧ ∀ a ∈ d, a.1.length ≤ INT64_MAX

mutual

/-- What `encode` writes denotes the value. -/
theorem denotes_encode {least : Int} : ∀ {v : ValueBase} {room : Nat},
    v.Everywhere (Representable least) → v.nesting ≤ room → Denotes least room (encode v) v
  | .string s, room, h, _ => .string (denotesString_encode h)
  | .integer i, room, h, _ => by
    obtain ⟨sign, s, hsign, hencode, hi⟩ := encodeInteger_eq i
    obtain ⟨hdigits, hvalue⟩ := digits_decimal i.natAbs
    have hs : s * (digitsValue 0 (decimal i.natAbs) : Nat) = i := by rw [hvalue, hi]
    have : Denotes least room _ _ := .integer hsign hdigits (hs.symm ▸ h.1) (hs.symm ▸ h.2)
    rw [hs] at this
    rw [encode, hencode, List.cons_append, List.append_assoc]
    exact this
  | .bool _, _, h, _ => h.elim
  | .null, _, h, _ => h.elim
  | .list l, room, h, hroom => .list (denotesElements_encode h.2 hroom)
  | .dict d, room, h, hroom => by
    have hdict := Denotes.dict (denotesMembers_encode h.2 h.1.2 hroom)
    have hsorted : Dict.Sorted ([] ++ d) := h.1.1
    rwa [hsorted.foldl_put] at hdict

theorem denotesElements_encode {least : Int} : ∀ {l : List ValueBase} {room : Nat},
    EverywhereElements (Representable least) l → nestingElements l ≤ room →
    DenotesElements least room (encodeElements l) l
  | [], _, _, _ => .nil
  | v :: l, room, h, hroom => by
    rw [nestingElements] at hroom
    obtain ⟨room, rfl⟩ : ∃ r, room = r + 1 := ⟨room - 1, by omega⟩
    exact .cons (denotes_encode h.1 (by omega)) (denotesElements_encode h.2 (by omega))

theorem denotesMembers_encode {least : Int} : ∀ {d : List (Bytes × ValueBase)} {room : Nat},
    EverywhereMembers (Representable least) d → (∀ a ∈ d, a.1.length ≤ INT64_MAX) →
    nestingMembers d ≤ room → DenotesMembers least room (encodeMembers d) d
  | [], _, _, _, _ => .nil
  | (key, v) :: d, room, h, hkeys, hroom => by
    rw [nestingMembers] at hroom
    obtain ⟨room, rfl⟩ : ∃ r, room = r + 1 := ⟨room - 1, by omega⟩
    obtain ⟨hkey, hkeys⟩ := List.forall_mem_cons.mp hkeys
    rw [encodeMembers, List.append_assoc]
    exact .cons (denotesString_encode hkey) (denotes_encode h.1 (by omega))
      (denotesMembers_encode h.2 hkeys (by omega))

end

end Encode

section Heads

variable {least : Int} {room : Nat} {b : Bytes} {v : ValueBase}

theorem DenotesString.head {s : Bytes} (h : DenotesString b s) :
    ∃ c cs, b = c :: cs ∧ isDigit c = true := by
  obtain ⟨⟨hne, hdigits⟩, -, -⟩ := h
  next digits =>
    obtain ⟨c, cs, rfl⟩ := List.exists_cons_of_ne_nil hne
    exact ⟨c, _, rfl, hdigits c (List.mem_cons_self ..)⟩

/-- No text of a value starts as the end of a container. -/
theorem Denotes.head (h : Denotes least room b v) : ∃ c cs, b = c :: cs ∧ c ≠ ch 'e' := by
  cases h with
  | integer | float | list | dict => exact ⟨_, _, rfl, by decide⟩
  | string h =>
    obtain ⟨c, cs, rfl, hc⟩ := h.head
    exact ⟨c, cs, rfl, fun he => absurd hc (he ▸ by decide)⟩

end Heads

end FluxCore.Bencode
