import FluxCore.Bencode.Value
import FluxCore.Lib.Components
import FluxCore.Util.Characters

/-!
# Names

The helpers of `util.cc` for the names of files: what is not UTF-8 is percent-encoded, control
characters are escaped, and a path that leads out of its directory is detected.
-/

namespace FluxCore.Torrent

open Utp (Bytes)
open Util (isDigit)

/-! ## Encoding -/

def isAlpha (c : UInt8) : Bool := (0x41 ≤ c && c ≤ 0x5a) || (0x61 ≤ c && c ≤ 0x7a)

/-- A letter, a digit or one of `-._~`. -/
def inRFC3986UnreservedChars (c : UInt8) : Bool :=
  isAlpha c || isDigit c || [0x2d, 0x2e, 0x5f, 0x7e].contains c

def isUtf8Tail (ch : UInt8) : Bool := 0x80 ≤ ch && ch ≤ 0xbf

/-- A character without the control characters that have no escape of their own. -/
def isUtf8One (c : UInt8) : Bool :=
  (0x20 ≤ c && c ≤ 0x7e) || c == 0x08 || c == 0x09 || c == 0x0a || c == 0x0c || c == 0x0d

def isUtf8 : Bytes → Bool
  | [] => true
  | c :: s =>
    if isUtf8One c then isUtf8 s
    else if 0xc2 ≤ c && c ≤ 0xdf then
      match s with
      | t :: s => isUtf8Tail t && isUtf8 s
      | [] => false
    else if c == 0xe0 then
      match s with
      | t :: u :: s => (0xa0 ≤ t && t ≤ 0xbf) && isUtf8Tail u && isUtf8 s
      | _ => false
    else if (0xe1 ≤ c && c ≤ 0xec) || (0xee ≤ c && c ≤ 0xef) then
      match s with
      | t :: u :: s => isUtf8Tail t && isUtf8Tail u && isUtf8 s
      | _ => false
    else if c == 0xed then
      match s with
      | t :: u :: s => (0x80 ≤ t && t ≤ 0x9f) && isUtf8Tail u && isUtf8 s
      | _ => false
    else if c == 0xf0 then
      match s with
      | t :: u :: v :: s => (0x90 ≤ t && t ≤ 0xbf) && isUtf8Tail u && isUtf8Tail v && isUtf8 s
      | _ => false
    else if 0xf1 ≤ c && c ≤ 0xf3 then
      match s with
      | t :: u :: v :: s => isUtf8Tail t && isUtf8Tail u && isUtf8Tail v && isUtf8 s
      | _ => false
    else if c == 0xf4 then
      match s with
      | t :: u :: v :: s => (0x80 ≤ t && t ≤ 0x8f) && isUtf8Tail u && isUtf8Tail v && isUtf8 s
      | _ => false
    else false

def hexDigit (n : UInt8) : UInt8 := if n < 10 then 0x30 + n else 0x37 + n

/-- `fmt("%%%02X", c)`. -/
def percent (c : UInt8) : Bytes := [0x25, hexDigit (c / 16), hexDigit (c % 16)]

def percentEncode (target : Bytes) : Bytes :=
  if target.all inRFC3986UnreservedChars then target
  else target.flatMap fun c => if inRFC3986UnreservedChars c then [c] else percent c

def encodeNonUtf8 (s : Bytes) : Bytes := if isUtf8 s then s else percentEncode s

/-! ## Paths -/

/-- The separator `'/'`. -/
def slash : UInt8 := 0x2f

def dot : Bytes := [0x2e]

def dotDot : Bytes := [0x2e, 0x2e]

/-- NUL, another control character or DEL. -/
def isControl (c : UInt8) : Bool := c ≤ 0x1f || c == 0x7f

def detectDirTraversal (s : Bytes) : Bool :=
  if s = [] then false
  else if s.any isControl then true
  else s = dot || s = dotDot || s.head? = some slash || (dot ++ [slash]).isPrefixOf s ||
    (dotDot ++ [slash]).isPrefixOf s || decide ([slash] ++ dotDot ++ [slash] <:+: s) ||
    decide ([slash] ++ dot ++ [slash] <:+: s) || s.getLast? = some slash ||
    ([slash] ++ dot).isSuffixOf s || ([slash] ++ dotDot).isSuffixOf s

def escapePath (s : Bytes) : Bytes := s.flatMap fun c => if isControl c then percent c else [c]

def applyDir (dir relPath : Bytes) : Bytes :=
  if dir = [] then dot ++ [slash] ++ relPath
  else if dir = [slash] then dir ++ relPath
  else dir ++ [slash] ++ relPath

/-- `File::getBasename`: what follows the last separator. -/
def getBasename (name : Bytes) : Bytes := (name.reverse.takeWhile (· ≠ slash)).reverse

/-- `strjoin` with the separator `"/"`. -/
def strjoin (elements : List Bytes) : Bytes := [slash].intercalate elements

/-! ## What encoding leaves -/

section Encoding

variable {s : Bytes} {c : UInt8}

/-- What a percent-encoded name is made of. -/
def isEncoded (c : UInt8) : Bool := inRFC3986UnreservedChars c || c == 0x25

theorem isEncoded_percent (c : UInt8) : (percent c).all isEncoded = true := by
  have h : ∀ n < 256, (percent (UInt8.ofNat n)).all isEncoded = true := by decide +kernel
  rw [← UInt8.ofNat_toNat (x := c)]
  exact h _ c.toNat_lt

theorem isUtf8One_of_isEncoded (h : isEncoded c = true) : isUtf8One c = true ∧ c ≠ slash := by
  have h' : ∀ n < 256, isEncoded (UInt8.ofNat n) = true →
      isUtf8One (UInt8.ofNat n) = true ∧ UInt8.ofNat n ≠ slash := by decide +kernel
  rw [← UInt8.ofNat_toNat (x := c)] at h ⊢
  exact h' _ c.toNat_lt h

theorem not_isControl_of_isEncoded (h : isEncoded c = true) : isControl c = false := by
  have h' : ∀ n < 256, isEncoded (UInt8.ofNat n) = true → isControl (UInt8.ofNat n) = false := by
    decide +kernel
  rw [← UInt8.ofNat_toNat (x := c)] at h ⊢
  exact h' _ c.toNat_lt h

theorem isEncoded_percentEncode (hc : c ∈ percentEncode s) : isEncoded c = true := by
  unfold percentEncode at hc
  split at hc
  next hall => exact Bool.or_eq_true_iff.mpr (.inl (List.all_eq_true.mp hall c hc))
  · obtain ⟨b, -, hb⟩ := List.mem_flatMap.mp hc
    split at hb
    next hplain => exact Bool.or_eq_true_iff.mpr (.inl (List.mem_singleton.mp hb ▸ hplain))
    · exact List.all_eq_true.mp (isEncoded_percent b) c hb

theorem percentEncode_eq_nil : percentEncode s = [] ↔ s = [] := by
  unfold percentEncode
  split
  · rfl
  · rw [List.flatMap_eq_nil_iff]
    constructor
    · intro h
      refine List.eq_nil_iff_forall_not_mem.mpr fun c hc => ?_
      have := h c hc
      split at this <;> cases this
    · rintro rfl
      exact fun _ h => absurd h List.not_mem_nil

theorem isUtf8_of_isUtf8One (h : ∀ c ∈ s, isUtf8One c = true) : isUtf8 s = true := by
  induction s with
  | nil => rfl
  | cons c s ih =>
    rw [isUtf8.eq_def]
    dsimp only
    rw [if_pos (h c (List.mem_cons_self ..))]
    exact ih fun b hb => h b (List.mem_cons_of_mem _ hb)

/-- What is encoded is UTF-8. -/
theorem isUtf8_encodeNonUtf8 (s : Bytes) : isUtf8 (encodeNonUtf8 s) = true := by
  unfold encodeNonUtf8
  split
  · assumption
  · exact isUtf8_of_isUtf8One fun c hc => (isUtf8One_of_isEncoded (isEncoded_percentEncode hc)).1

@[simp] theorem encodeNonUtf8_idem (s : Bytes) :
    encodeNonUtf8 (encodeNonUtf8 s) = encodeNonUtf8 s :=
  if_pos (isUtf8_encodeNonUtf8 s)

/-- Encoding makes no empty component. -/
theorem nil_mem_splitOn_encodeNonUtf8 :
    [] ∈ (encodeNonUtf8 s).splitOn slash ↔ isUtf8 s = true ∧ [] ∈ s.splitOn slash := by
  unfold encodeNonUtf8
  split
  next h => rw [and_iff_right h]
  next h =>
    rw [List.splitOn_eq_singleton fun hmem =>
      (isUtf8One_of_isEncoded (isEncoded_percentEncode hmem)).2 rfl]
    refine iff_of_false (fun hmem => h ?_) (fun hutf8 => h hutf8.1)
    rw [percentEncode_eq_nil.mp (List.mem_singleton.mp hmem).symm]
    rfl

theorem escapePath_eq (h : ∀ c ∈ s, isControl c = false) : escapePath s = s := by
  induction s with
  | nil => rfl
  | cons c s ih =>
    rw [escapePath, List.flatMap_cons, h c (List.mem_cons_self ..), ← escapePath,
      ih fun b hb => h b (List.mem_cons_of_mem _ hb)]
    rfl

end Encoding

/-! ## What detection leaves -/

/-- Whatever is not detected has no control characters, no component `.` or `..`, and no separator
at its ends; the empty name passes. -/
theorem detectDirTraversal_eq_false_iff {s : Bytes} (hs : s ≠ []) :
    detectDirTraversal s = false ↔
      (∀ c ∈ s, isControl c = false) ∧ dot ∉ s.splitOn slash ∧ dotDot ∉ s.splitOn slash ∧
        s.head? ≠ some slash ∧ s.getLast? ≠ some slash := by
  have hdot : slash ∉ dot := by decide
  have hdotDot : slash ∉ dotDot := by decide
  rw [Components.mem_splitOn_iff_infix hdot, Components.mem_splitOn_iff_infix hdotDot]
  unfold detectDirTraversal
  rw [if_neg hs]
  split
  next hctl =>
    obtain ⟨c, hc, hctl⟩ := List.any_eq_true.mp hctl
    refine iff_of_false Bool.true_eq_false.mp fun h => ?_
    exact absurd hctl (by rw [h.1 c hc]; exact Bool.false_ne_true)
  next hctl =>
    have hctl' : ∀ c ∈ s, isControl c = false := by
      intro c hc
      exact Bool.eq_false_iff.mpr fun h => hctl (List.any_eq_true.mpr ⟨c, hc, h⟩)
    rw [and_iff_right hctl', Bool.eq_false_iff, Ne]
    simp only [Bool.or_eq_true, decide_eq_true_eq, List.isPrefixOf_iff_prefix,
      List.isSuffixOf_iff_suffix]
    tauto

/-- A path that stays inside its directory. -/
structure Inside (s : Bytes) : Prop where
  ne_nil : s ≠ []
  components : ∀ c ∈ s.splitOn slash, c ≠ [] ∧ c ≠ dot ∧ c ≠ dotDot
  printable : ∀ c ∈ s, isControl c = false

/-- What detection misses is the empty component. -/
theorem inside_iff {s : Bytes} (h : detectDirTraversal s = false) :
    Inside s ↔ [] ∉ s.splitOn slash := by
  constructor
  · exact fun hin hnil => (hin.components _ hnil).1 rfl
  · intro hnil
    have hs : s ≠ [] := by
      rintro rfl
      exact hnil (List.mem_singleton_self _)
    obtain ⟨hctl, hdot, hdotDot, -⟩ := (detectDirTraversal_eq_false_iff hs).mp h
    refine ⟨hs, fun c hc => ⟨?_, ?_, ?_⟩, hctl⟩
    · rintro rfl; exact hnil hc
    · rintro rfl; exact hdot hc
    · rintro rfl; exact hdotDot hc

end FluxCore.Torrent
