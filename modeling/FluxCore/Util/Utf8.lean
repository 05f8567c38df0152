import FluxCore.Lib.Utf8
import FluxCore.Torrent.Names

/-!
# The validators of UTF-8

`isUtf8` and the automaton `utf8dfa` that `parse_content_disposition` runs. Both go through the
characters one after the other; they differ in the control characters.
-/

namespace FluxCore.Util

open Torrent (isUtf8 isUtf8One isUtf8Tail)
open Utf8 (Sequence Tail Characters Scalar encode)
open Utp (Bytes)

/-! ## The automaton -/

def UTF8_ACCEPT : UInt32 := 0

def UTF8_REJECT : UInt32 := 12

/-- The classes of the bytes, then the states that follow a state, by class. -/
def utf8d : List UInt8 :=
  List.replicate 128 0 ++ List.replicate 16 1 ++ List.replicate 16 9 ++ List.replicate 32 7 ++
  List.replicate 2 8 ++ List.replicate 30 2 ++ [10] ++ List.replicate 12 3 ++ [4, 3, 3] ++
  [11, 6, 6, 6, 5] ++ List.replicate 11 8 ++
  [0, 12, 24, 36, 60, 96, 84, 12, 12, 12, 48, 72,
    12, 12, 12, 12, 12, 12, 12, 12, 12, 12, 12, 12,
    12, 0, 12, 12, 12, 12, 12, 0, 12, 0, 12, 12,
    12, 24, 12, 12, 12, 12, 12, 24, 12, 24, 12, 12,
    12, 12, 12, 12, 12, 12, 12, 24, 12, 12, 12, 12,
    12, 24, 12, 12, 12, 12, 12, 12, 12, 24, 12, 12,
    12, 12, 12, 12, 12, 12, 12, 36, 12, 36, 12, 12,
    12, 36, 12, 12, 12, 12, 12, 36, 12, 36, 12, 12,
    12, 36, 12, 12, 12, 12, 12, 12, 12, 12, 12, 12]

/-- `utf8d[i]`; the table has 364 entries. -/
def utf8d_at (i : UInt32) : UInt32 := (utf8d.getD i.toNat 0).toUInt32

/-- The state and the code point after a byte. -/
def utf8dfa (state codep : UInt32) (byte : UInt8) : UInt32 × UInt32 :=
  let type := utf8d_at byte.toUInt32
  let codep : UInt32 :=
    if state ≠ UTF8_ACCEPT then (byte.toUInt32 &&& (0x3f : UInt32)) ||| (codep <<< 6)
    else ((0xff : UInt32) >>> type) &&& byte.toUInt32
  (utf8d_at (256 + state + type), codep)

/-- The state after some bytes; `none` where one of them is rejected. -/
def utf8dfaRun : UInt32 → UInt32 → Bytes → Option (UInt32 × UInt32)
  | state, codep, [] => some (state, codep)
  | state, codep, b :: s =>
    let (state, codep) := utf8dfa state codep b
    if state = UTF8_REJECT then none else utf8dfaRun state codep s

/-- No byte is rejected, and the automaton ends in `UTF8_ACCEPT`. -/
def utf8dfaAccepts (s : Bytes) : Prop :=
  ∃ codep, utf8dfaRun UTF8_ACCEPT 0 s = some (UTF8_ACCEPT, codep)

/-! ## The grammar -/

/-- The one-byte characters of a text. -/
def Printable (cp : Nat) : Prop :=
  (0x20 ≤ cp ∧ cp ≤ 0x7e) ∨ cp = 0x08 ∨ cp = 0x09 ∨ cp = 0x0a ∨ cp = 0x0c ∨ cp = 0x0d

/-- The encoding of a text. -/
def Text (s : Bytes) : Prop :=
  ∃ cps : List Nat, (∀ cp ∈ cps, Scalar cp ∧ (cp < 0x80 → Printable cp)) ∧ s = cps.flatMap encode

/-! ## `isUtf8` -/

variable {q s : Bytes} {b : UInt8}

theorem isUtf8One_iff (b : UInt8) : isUtf8One b = true ↔ Printable b.toNat := by
  simp [isUtf8One, Printable, UInt8.le_iff_toNat_le, ← UInt8.toNat_inj, or_assoc]

theorem isUtf8Tail_iff (b : UInt8) : isUtf8Tail b = true ↔ Tail b := by
  simp [isUtf8Tail, Tail, UInt8.le_iff_toNat_le]

theorem isUtf8_append (hq : Sequence q) (hone : ∀ b, q = [b] → Printable b.toNat) (s : Bytes) :
    isUtf8 (q ++ s) = true ↔ isUtf8 s = true := by
  rw [FluxCore.Torrent.isUtf8.eq_def]
  cases hq with
  | @one a ha => simp [(isUtf8One_iff a).mpr (hone a rfl)]
  | @two a b ha hb =>
    have h := (isUtf8One_iff a).not.mpr (by unfold Printable; omega)
    simp [h, (isUtf8Tail_iff b).mpr hb, UInt8.le_iff_toNat_le, ha]
  | @three a b c ha hlong hsurrogate hb hc =>
    have h := (isUtf8One_iff a).not.mpr (by unfold Printable; omega)
    have hb' := (isUtf8Tail_iff b).mpr hb
    have hc' := (isUtf8Tail_iff c).mpr hc
    unfold Tail at hb
    simp only [List.cons_append, List.nil_append, h, hb', hc', UInt8.le_iff_toNat_le,
      ← UInt8.toNat_inj, beq_iff_eq, UInt8.toNat_ofNat]
    grind
  | @four a b c d ha hlong habove hb hc hd =>
    have h := (isUtf8One_iff a).not.mpr (by unfold Printable; omega)
    have hb' := (isUtf8Tail_iff b).mpr hb
    have hc' := (isUtf8Tail_iff c).mpr hc
    have hd' := (isUtf8Tail_iff d).mpr hd
    unfold Tail at hb
    simp only [List.cons_append, List.nil_append, h, hb', hc', hd', UInt8.le_iff_toNat_le,
      ← UInt8.toNat_inj, beq_iff_eq, UInt8.toNat_ofNat]
    grind

theorem exists_of_isUtf8 (h : isUtf8 (b :: s) = true) :
    ∃ q t, b :: s = q ++ t ∧ Sequence q ∧ ∀ a, q = [a] → Printable a.toNat := by
  rw [FluxCore.Torrent.isUtf8.eq_def] at h
  dsimp only at h
  split at h
  next hone =>
    have hb := (isUtf8One_iff b).mp hone
    refine ⟨[b], s, rfl, .one (by unfold Printable at hb; omega), ?_⟩
    rintro a ⟨⟩
    exact hb
  simp only [UInt8.le_iff_toNat_le, ← UInt8.toNat_inj, beq_iff_eq, UInt8.toNat_ofNat,
    Bool.and_eq_true, Bool.or_eq_true, decide_eq_true_eq] at h
  split at h
  next htwo =>
    obtain _ | ⟨c, s⟩ := s
    · cases h
    · rw [Bool.and_eq_true, isUtf8Tail_iff] at h
      exact ⟨[b, c], s, rfl, .two (by omega) h.1, fun a ha => by cases ha⟩
  split at h
  next hthree =>
    obtain _ | ⟨c, _ | ⟨d, s⟩⟩ := s
    · cases h
    · cases h
    · simp only [Bool.and_eq_true, decide_eq_true_eq, isUtf8Tail_iff] at h
      obtain ⟨⟨hc, hd⟩, -⟩ := h
      refine ⟨[b, c, d], s, rfl, .three (by omega) (by omega) (by omega) ?_ hd, fun a ha => by cases ha⟩
      unfold Tail
      omega
  split at h
  next hthree =>
    obtain _ | ⟨c, _ | ⟨d, s⟩⟩ := s
    · cases h
    · cases h
    · simp only [Bool.and_eq_true, isUtf8Tail_iff] at h
      exact ⟨[b, c, d], s, rfl, .three (by omega) (by omega) (by omega) h.1.1 h.1.2, fun a ha => by cases ha⟩
  split at h
  next hthree =>
    obtain _ | ⟨c, _ | ⟨d, s⟩⟩ := s
    · cases h
    · cases h
    · simp only [Bool.and_eq_true, decide_eq_true_eq, isUtf8Tail_iff] at h
      obtain ⟨⟨hc, hd⟩, -⟩ := h
      refine ⟨[b, c, d], s, rfl, .three (by omega) (by omega) (by omega) ?_ hd, fun a ha => by cases ha⟩
      unfold Tail
      omega
  split at h
  next hfour =>
    obtain _ | ⟨c, _ | ⟨d, _ | ⟨e, s⟩⟩⟩ := s
    · cases h
    · cases h
    · cases h
    · simp only [Bool.and_eq_true, decide_eq_true_eq, isUtf8Tail_iff] at h
      obtain ⟨⟨⟨hc, hd⟩, he⟩, -⟩ := h
      refine ⟨[b, c, d, e], s, rfl, .four (by omega) (by omega) (by omega) ?_ hd he, fun a ha => by cases ha⟩
      unfold Tail
      omega
  split at h
  next hfour =>
    obtain _ | ⟨c, _ | ⟨d, _ | ⟨e, s⟩⟩⟩ := s
    · cases h
    · cases h
    · cases h
    · simp only [Bool.and_eq_true, isUtf8Tail_iff] at h
      obtain ⟨⟨⟨hc, hd⟩, he⟩, -⟩ := h
      exact ⟨[b, c, d, e], s, rfl, .four (by omega) (by omega) (by omega) hc hd he, fun a ha => by cases ha⟩
  split at h
  next hfour =>
    obtain _ | ⟨c, _ | ⟨d, _ | ⟨e, s⟩⟩⟩ := s
    · cases h
    · cases h
    · cases h
    · simp only [Bool.and_eq_true, decide_eq_true_eq, isUtf8Tail_iff] at h
      obtain ⟨⟨⟨hc, hd⟩, he⟩, -⟩ := h
      refine ⟨[b, c, d, e], s, rfl, .four (by omega) (by omega) (by omega) ?_ hd he, fun a ha => by cases ha⟩
      unfold Tail
      omega
  cases h

/-! ## The automaton's states -/

/-- The state after a byte; it does not depend on the code point. -/
def next (state : UInt32) (b : UInt8) : UInt32 := utf8d_at (256 + state + utf8d_at b.toUInt32)

def endState : UInt32 → Bytes → Option UInt32
  | state, [] => some state
  | state, b :: s => if next state b = UTF8_REJECT then none else endState (next state b) s

theorem utf8dfaRun_fst (state codep : UInt32) (s : Bytes) :
    (utf8dfaRun state codep s).map Prod.fst = endState state s := by
  induction s generalizing state codep with
  | nil => rfl
  | cons b s ih =>
    rw [utf8dfaRun, endState]
    change Option.map _ (if next state b = UTF8_REJECT then none else _) = _
    split
    · rfl
    · exact ih ..

theorem utf8dfaAccepts_iff : utf8dfaAccepts s ↔ endState UTF8_ACCEPT s = some UTF8_ACCEPT := by
  rw [utf8dfaAccepts, ← utf8dfaRun_fst UTF8_ACCEPT 0 s, Option.map_eq_some_iff]
  simp

/-- The class of a byte. -/
def byteClass (b : Nat) : Fin 12 :=
  if b ≤ 0x7f then 0 else if b ≤ 0x8f then 1 else if b ≤ 0x9f then 9 else if b ≤ 0xbf then 7
  else if b < 0xc2 then 8 else if b ≤ 0xdf then 2 else if b = 0xe0 then 10
  else if b = 0xed then 4 else if b ≤ 0xef then 3 else if b = 0xf0 then 11
  else if b ≤ 0xf3 then 6 else if b = 0xf4 then 5 else 8

theorem utf8d_take : utf8d.take 256 = (List.range 256).map fun b => .ofNat (byteClass b) := by
  decide +kernel

/-- What follows a state depends on the class of the byte. -/
theorem next_eq (state : UInt32) (b : UInt8) :
    next state b = utf8d_at (256 + state + .ofNat (byteClass b.toNat)) := by
  have hb := b.toNat_lt
  have hget : utf8d.getD b.toNat 0 = .ofNat (byteClass b.toNat) := by
    have htake := congrArg (·[b.toNat]?) utf8d_take
    simp only [List.getElem?_take, if_pos hb, List.getElem?_map, List.getElem?_range hb] at htake
    rw [List.getD_eq_getElem?_getD, htake]
    rfl
  rw [next, utf8d_at.eq_def b.toUInt32, UInt8.toNat_toUInt32, hget]
  congr 2
  exact (by decide : ∀ k : Fin 12, (UInt8.ofNat k).toUInt32 = .ofNat k) _

/-- The state after the first byte of a character, by its class. -/
def first (k : Fin 12) : UInt32 := [0, 12, 24, 36, 60, 96, 84, 12, 12, 12, 48, 72].get k

theorem next_accept (b : UInt8) : next UTF8_ACCEPT b = first (byteClass b.toNat) := by
  have hall : ∀ k : Fin 12, utf8d_at (256 + UTF8_ACCEPT + .ofNat k) = first k := by decide +kernel
  rw [next_eq, hall]

/-- The bytes of some classes are those of a range. -/
def IsRange (ks : List (Fin 12)) (lo hi : Nat) : Prop :=
  ∀ n : Fin 256, byteClass n ∈ ks ↔ lo ≤ n ∧ n ≤ hi

instance (ks : List (Fin 12)) (lo hi : Nat) : Decidable (IsRange ks lo hi) :=
  inferInstanceAs (Decidable (∀ _ : Fin 256, _))

/-- Another state waits for a byte of a range. -/
theorem next_of_classes {state state' : UInt32} {lo hi : Nat} (ks : List (Fin 12))
    (hks : IsRange ks lo hi)
    (h : ∀ k : Fin 12, (k ∈ ks → utf8d_at (256 + state + .ofNat k) = state') ∧
      (k ∉ ks → utf8d_at (256 + state + .ofNat k) = UTF8_REJECT))
    (b : UInt8) : next state b = if lo ≤ b.toNat ∧ b.toNat ≤ hi then state' else UTF8_REJECT := by
  have hb : byteClass b.toNat ∈ ks ↔ lo ≤ b.toNat ∧ b.toNat ≤ hi := hks b.toFin
  rw [next_eq]
  split
  next hin => exact (h _).1 (hb.mpr hin)
  next hout => exact (h _).2 (mt hb.mp hout)

def Waits (state : UInt32) (lo hi : Nat) (state' : UInt32) : Prop :=
  ∀ b : UInt8, next state b = if lo ≤ b.toNat ∧ b.toNat ≤ hi then state' else UTF8_REJECT

/-- The ranges of the classes. -/
def ranges : List (List (Fin 12) × Nat × Nat) :=
  [([1, 9, 7], 0x80, 0xbf), ([7], 0xa0, 0xbf), ([1, 9], 0x80, 0x9f), ([9, 7], 0x90, 0xbf),
    ([1], 0x80, 0x8f), ([0], 0, 0x7f), ([2], 0xc2, 0xdf), ([10], 0xe0, 0xe0), ([4], 0xed, 0xed),
    ([11], 0xf0, 0xf0), ([6], 0xf1, 0xf3), ([5], 0xf4, 0xf4)]

theorem isRange_of_mem : ∀ r ∈ ranges, IsRange r.1 r.2.1 r.2.2 := by decide +kernel

/-- The states that wait, the classes they wait for and the states behind those. -/
def waiting : List (UInt32 × List (Fin 12) × UInt32) :=
  [(24, [1, 9, 7], 0), (36, [1, 9, 7], 24), (48, [7], 24), (60, [1, 9], 24), (72, [9, 7], 36),
    (84, [1, 9, 7], 36), (96, [1], 36)]

theorem row_of_mem : ∀ w ∈ waiting, ∀ k : Fin 12,
    (k ∈ w.2.1 → utf8d_at (256 + w.1 + .ofNat k) = w.2.2) ∧
      (k ∉ w.2.1 → utf8d_at (256 + w.1 + .ofNat k) = UTF8_REJECT) := by
  decide +kernel

theorem waits_of_mem {state state' : UInt32} {lo hi : Nat} (ks : List (Fin 12))
    (hw : (state, ks, state') ∈ waiting) (hr : (ks, lo, hi) ∈ ranges) :
    Waits state lo hi state' := by
  have hrow := row_of_mem (state, ks, state') hw
  have hrange := isRange_of_mem (ks, lo, hi) hr
  dsimp only at hrow hrange
  exact next_of_classes ks hrange hrow

theorem waits_24 : Waits 24 0x80 0xbf 0 := waits_of_mem [1, 9, 7] (by decide) (by decide)

theorem waits_36 : Waits 36 0x80 0xbf 24 := waits_of_mem [1, 9, 7] (by decide) (by decide)

theorem waits_48 : Waits 48 0xa0 0xbf 24 := waits_of_mem [7] (by decide) (by decide)

theorem waits_60 : Waits 60 0x80 0x9f 24 := waits_of_mem [1, 9] (by decide) (by decide)

theorem waits_72 : Waits 72 0x90 0xbf 36 := waits_of_mem [9, 7] (by decide) (by decide)

theorem waits_84 : Waits 84 0x80 0xbf 36 := waits_of_mem [1, 9, 7] (by decide) (by decide)

theorem waits_96 : Waits 96 0x80 0x8f 36 := waits_of_mem [1] (by decide) (by decide)

/-! ## What the automaton accepts -/

theorem class_of_range {k : Fin 12} {lo hi : Nat} (h : IsRange [k] lo hi)
    (hb : lo ≤ b.toNat ∧ b.toNat ≤ hi) : byteClass b.toNat = k :=
  List.mem_singleton.mp ((h b.toFin).mpr hb)

theorem range_of_class {k : Fin 12} {lo hi : Nat} (h : IsRange [k] lo hi)
    (hb : byteClass b.toNat = k) : lo ≤ b.toNat ∧ b.toNat ≤ hi :=
  (h b.toFin).mp (List.mem_singleton.mpr hb)

theorem endState_accept {k : Fin 12} (hb : byteClass b.toNat = k) (s : Bytes) :
    endState UTF8_ACCEPT (b :: s) =
      if first k = UTF8_REJECT then none else endState (first k) s := by
  rw [endState, next_accept, hb]

theorem Waits.endState_eq {state state' : UInt32} {lo hi : Nat} (h : Waits state lo hi state')
    (hne : state' ≠ UTF8_REJECT) (hb : lo ≤ b.toNat ∧ b.toNat ≤ hi) (s : Bytes) :
    endState state (b :: s) = endState state' s := by
  rw [endState, h b, if_pos hb, if_neg hne]

theorem Waits.exists_cons {state state' : UInt32} {lo hi : Nat} (h : Waits state lo hi state')
    (hne : state ≠ UTF8_ACCEPT) (hs : endState state s = some UTF8_ACCEPT) :
    ∃ b t, s = b :: t ∧ (lo ≤ b.toNat ∧ b.toNat ≤ hi) ∧ endState state' t = some UTF8_ACCEPT := by
  cases s with
  | nil => exact absurd (Option.some.inj hs) hne
  | cons b t =>
    rw [endState, h b] at hs
    by_cases hb : lo ≤ b.toNat ∧ b.toNat ≤ hi
    · rw [if_pos hb] at hs
      split at hs
      · exact nomatch hs
      · exact ⟨b, t, rfl, hb, hs⟩
    · rw [if_neg hb, if_pos rfl] at hs
      exact nomatch hs

theorem class_3 : ∀ n : Fin 256,
    byteClass n = 3 ↔ (0xe1 ≤ n.val ∧ n.val ≤ 0xef) ∧ n.val ≠ 0xed := by
  decide +kernel

theorem class_0 : IsRange [0] 0 0x7f := isRange_of_mem ([0], 0, 0x7f) (by decide)

theorem class_2 : IsRange [2] 0xc2 0xdf := isRange_of_mem ([2], 0xc2, 0xdf) (by decide)

theorem class_10 : IsRange [10] 0xe0 0xe0 := isRange_of_mem ([10], 0xe0, 0xe0) (by decide)

theorem class_4 : IsRange [4] 0xed 0xed := isRange_of_mem ([4], 0xed, 0xed) (by decide)

theorem class_11 : IsRange [11] 0xf0 0xf0 := isRange_of_mem ([11], 0xf0, 0xf0) (by decide)

theorem class_6 : IsRange [6] 0xf1 0xf3 := isRange_of_mem ([6], 0xf1, 0xf3) (by decide)

theorem class_5 : IsRange [5] 0xf4 0xf4 := isRange_of_mem ([5], 0xf4, 0xf4) (by decide)

theorem endState_append (hq : Sequence q) (s : Bytes) :
    endState UTF8_ACCEPT (q ++ s) = endState UTF8_ACCEPT s := by
  cases hq with
  | @one a ha => exact endState_accept (class_of_range class_0 ⟨Nat.zero_le _, ha⟩) s
  | @two a b ha hb =>
    rw [List.cons_append, endState_accept (class_of_range class_2 ha)]
    exact waits_24.endState_eq (by decide) hb s
  | @three a b c ha hlong hsurrogate hb hc =>
    have htail : endState 24 (c :: s) = endState UTF8_ACCEPT s :=
      waits_24.endState_eq (by decide) hc s
    rcases eq_or_ne a.toNat 0xe0 with h | h
    · rw [List.cons_append, endState_accept (class_of_range class_10 (by omega))]
      exact (waits_48.endState_eq (by decide) ⟨hlong h, hb.2⟩ _).trans htail
    rcases eq_or_ne a.toNat 0xed with h' | h'
    · rw [List.cons_append, endState_accept (class_of_range class_4 (by omega))]
      exact (waits_60.endState_eq (by decide) ⟨hb.1, hsurrogate h'⟩ _).trans htail
    · have hclass : byteClass a.toNat = 3 := (class_3 a.toFin).mpr (by
        change (0xe1 ≤ a.toNat ∧ a.toNat ≤ 0xef) ∧ a.toNat ≠ 0xed
        omega)
      rw [List.cons_append, endState_accept hclass]
      exact (waits_36.endState_eq (by decide) hb _).trans htail
  | @four a b c d ha hlong habove hb hc hd =>
    have htail : endState 36 (c :: d :: s) = endState UTF8_ACCEPT s :=
      (waits_36.endState_eq (by decide) hc _).trans (waits_24.endState_eq (by decide) hd s)
    rcases eq_or_ne a.toNat 0xf0 with h | h
    · rw [List.cons_append, endState_accept (class_of_range class_11 (by omega))]
      exact (waits_72.endState_eq (by decide) ⟨hlong h, hb.2⟩ _).trans htail
    rcases eq_or_ne a.toNat 0xf4 with h' | h'
    · rw [List.cons_append, endState_accept (class_of_range class_5 (by omega))]
      exact (waits_96.endState_eq (by decide) ⟨hb.1, habove h'⟩ _).trans htail
    · rw [List.cons_append, endState_accept (class_of_range class_6 (by omega))]
      exact (waits_84.endState_eq (by decide) hb _).trans htail

/-- After the first byte, the automaton has come to a state that waits. -/
theorem exists_of_endState (h : endState UTF8_ACCEPT (b :: s) = some UTF8_ACCEPT) :
    ∃ q t, b :: s = q ++ t ∧ Sequence q := by
  have hcases : ∀ {k : Fin 12}, byteClass b.toNat = k →
      (if first k = UTF8_REJECT then none else endState (first k) s) = some UTF8_ACCEPT :=
    fun hk => endState_accept hk s ▸ h
  match hk : byteClass b.toNat with
  | 0 => exact ⟨[b], s, rfl, .one (range_of_class class_0 hk).2⟩
  | 2 =>
    obtain ⟨c, t, rfl, hc, -⟩ := waits_24.exists_cons (by decide) (hcases hk)
    exact ⟨[b, c], t, rfl, .two (range_of_class class_2 hk) hc⟩
  | 10 =>
    have hb := range_of_class class_10 hk
    obtain ⟨c, t, rfl, hc, ht⟩ := waits_48.exists_cons (by decide) (hcases hk)
    obtain ⟨d, t, rfl, hd, -⟩ := waits_24.exists_cons (by decide) ht
    exact ⟨[b, c, d], t, rfl, .three (by omega) (by omega) (by omega) ⟨by omega, hc.2⟩ hd⟩
  | 3 =>
    have hb : (0xe1 ≤ b.toNat ∧ b.toNat ≤ 0xef) ∧ b.toNat ≠ 0xed := (class_3 b.toFin).mp hk
    obtain ⟨c, t, rfl, hc, ht⟩ := waits_36.exists_cons (by decide) (hcases hk)
    obtain ⟨d, t, rfl, hd, -⟩ := waits_24.exists_cons (by decide) ht
    exact ⟨[b, c, d], t, rfl, .three (by omega) (by omega) (by omega) hc hd⟩
  | 4 =>
    have hb := range_of_class class_4 hk
    obtain ⟨c, t, rfl, hc, ht⟩ := waits_60.exists_cons (by decide) (hcases hk)
    obtain ⟨d, t, rfl, hd, -⟩ := waits_24.exists_cons (by decide) ht
    exact ⟨[b, c, d], t, rfl, .three (by omega) (by omega) (by omega) ⟨hc.1, by omega⟩ hd⟩
  | 11 =>
    have hb := range_of_class class_11 hk
    obtain ⟨c, t, rfl, hc, ht⟩ := waits_72.exists_cons (by decide) (hcases hk)
    obtain ⟨d, t, rfl, hd, ht⟩ := waits_36.exists_cons (by decide) ht
    obtain ⟨e, t, rfl, he, -⟩ := waits_24.exists_cons (by decide) ht
    exact ⟨[b, c, d, e], t, rfl, .four (by omega) (by omega) (by omega) ⟨by omega, hc.2⟩ hd he⟩
  | 6 =>
    have hb := range_of_class class_6 hk
    obtain ⟨c, t, rfl, hc, ht⟩ := waits_84.exists_cons (by decide) (hcases hk)
    obtain ⟨d, t, rfl, hd, ht⟩ := waits_36.exists_cons (by decide) ht
    obtain ⟨e, t, rfl, he, -⟩ := waits_24.exists_cons (by decide) ht
    exact ⟨[b, c, d, e], t, rfl, .four (by omega) (by omega) (by omega) hc hd he⟩
  | 5 =>
    have hb := range_of_class class_5 hk
    obtain ⟨c, t, rfl, hc, ht⟩ := waits_96.exists_cons (by decide) (hcases hk)
    obtain ⟨d, t, rfl, hd, ht⟩ := waits_36.exists_cons (by decide) ht
    obtain ⟨e, t, rfl, he, -⟩ := waits_24.exists_cons (by decide) ht
    exact ⟨[b, c, d, e], t, rfl, .four (by omega) (by omega) (by omega) ⟨hc.1, by omega⟩ hd he⟩
  | 1 | 7 | 8 | 9 => exact nomatch hcases hk

/-- The automaton accepts the concatenations of characters. -/
theorem accepts_iff : utf8dfaAccepts s ↔ Characters (fun _ => True) s := by
  rw [utf8dfaAccepts_iff]
  refine Utf8.characters_iff (P := fun s => endState UTF8_ACCEPT s = some UTF8_ACCEPT) rfl ?_ ?_ s
  · intro q s hq _
    rw [endState_append hq]
  · intro b s h
    obtain ⟨q, t, heq, hq⟩ := exists_of_endState h
    exact ⟨q, t, heq, hq, trivial⟩

/-- `isUtf8` accepts those whose one-byte characters are printable. -/
theorem isUtf8_iff_characters :
    isUtf8 s = true ↔ Characters (fun q => ∀ a, q = [a] → Printable a.toNat) s :=
  Utf8.characters_iff (P := fun s => isUtf8 s = true) rfl (fun _ s hq hA => isUtf8_append hq hA s)
    (fun _ _ => exists_of_isUtf8) s

theorem printable_iff (hq : Sequence q) : (∀ a, q = [a] → Printable a.toNat) ↔
    ∃ cp, Scalar cp ∧ (cp < 0x80 → Printable cp) ∧ q = encode cp := by
  constructor
  · intro h
    obtain ⟨cp, hcp, rfl⟩ := Utf8.sequence_iff.mp hq
    refine ⟨cp, hcp, fun hlt => ?_, rfl⟩
    have hone := h (.ofNat cp) (by rw [encode, if_pos hlt])
    rwa [Utf8.toNat_ofNat_of_lt (by omega)] at hone
  · rintro ⟨cp, -, hcp, rfl⟩ a ha
    rw [encode] at ha
    split_ifs at ha with h1 <;> cases ha
    rw [Utf8.toNat_ofNat_of_lt (by omega)]
    exact hcp h1

theorem isUtf8_iff : isUtf8 s = true ↔ Text s := by
  rw [isUtf8_iff_characters, Text, ← Utf8.characters_iff_encode]
  constructor
  · rintro ⟨qs, hqs, rfl⟩
    exact ⟨qs, fun q hq => ⟨(hqs q hq).1, (printable_iff (hqs q hq).1).mp (hqs q hq).2⟩, rfl⟩
  · rintro ⟨qs, hqs, rfl⟩
    exact ⟨qs, fun q hq => ⟨(hqs q hq).1, (printable_iff (hqs q hq).1).mpr (hqs q hq).2⟩, rfl⟩

theorem accepts_of_isUtf8 (h : isUtf8 s = true) : utf8dfaAccepts s := by
  obtain ⟨qs, hqs, hs⟩ := isUtf8_iff_characters.mp h
  exact accepts_iff.mpr ⟨qs, fun q hq => ⟨(hqs q hq).1, trivial⟩, hs⟩

/-- On strings without other control characters the two validators are the same. -/
theorem isUtf8_of_accepts (h : utf8dfaAccepts s)
    (hs : ∀ b ∈ s, b.toNat < 0x80 → Printable b.toNat) : isUtf8 s = true := by
  obtain ⟨qs, hqs, rfl⟩ := accepts_iff.mp h
  refine isUtf8_iff_characters.mpr ⟨qs, fun q hq => ⟨(hqs q hq).1, ?_⟩, rfl⟩
  rintro a rfl
  refine hs a (List.mem_flatten_of_mem hq List.mem_cons_self) ?_
  cases (hqs _ hq).1 with
  | one ha => omega

/-- **The validators**: `isUtf8` accepts the encodings of texts, the automaton accepts these too,
and where the one-byte characters are printable, nothing else. -/
theorem validators (s : Bytes) : (isUtf8 s = true ↔ Text s) ∧ (Text s → utf8dfaAccepts s) ∧
    ((∀ b ∈ s, b.toNat < 0x80 → Printable b.toNat) → (utf8dfaAccepts s ↔ isUtf8 s = true)) :=
  ⟨isUtf8_iff, fun h => accepts_of_isUtf8 (isUtf8_iff.mpr h),
    fun hs => ⟨fun h => isUtf8_of_accepts h hs, accepts_of_isUtf8⟩⟩

end FluxCore.Util
