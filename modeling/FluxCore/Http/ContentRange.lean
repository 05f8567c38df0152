import FluxCore.Util.Numbers

/-!
# The range of a response

`HttpHeader::getRange` looks for the three numbers of a `Content-Range` with iterators. An iterator
is an index here, and `none` stands for one that is moved beyond the end or read there.
-/

namespace FluxCore.Http

open Util (parseLLIntNoThrow Numeral isspace)
open Utp (Bytes)

/-! ## Ranges -/

structure Range where
  startByte : Int := 0
  endByte : Int := 0
  entityLength : Int := 0
  deriving DecidableEq, Repr

/-- A sum or a difference of `int64_t`, unless it overflows. -/
def int64 (n : Int) : Option Int := if -2 ^ 63 ≤ n ∧ n < 2 ^ 63 then some n else none

namespace Range

def getContentLength (r : Range) : Option Int :=
  if r.startByte ≤ r.endByte then (int64 (r.endByte - r.startByte)).bind fun n => int64 (n + 1)
  else some 0

end Range

/-- What a request has asked for: the bytes of its segment and the length of the file. Without a
segment it takes any range. -/
structure RangeRequest where
  startByte : Int
  endByte : Int
  fileLength : Int
  deriving DecidableEq, Repr

def isRangeSatisfied (request : Option RangeRequest) (range : Range) : Bool :=
  match request with
  | none => true
  | some r =>
    r.startByte = range.startByte && (r.endByte = 0 || r.endByte = range.endByte) &&
      (r.fileLength = 0 || r.fileLength = range.entityLength)

/-! ## The header -/

inductive HdKey where
  | contentLength
  | contentRange
  | other (n : Nat)
  deriving DecidableEq, Repr

/-- The headers in the order in which they were put. -/
abbrev HeaderTable := List (HdKey × Bytes)

def HeaderTable.find (t : HeaderTable) (hdKey : HdKey) : Bytes :=
  match List.find? (fun kv => kv.1 = hdKey) t with
  | some kv => kv.2
  | none => []

/-- The first place of a byte in a range, or the end of the range. -/
def findByte (v : Bytes) (first last : Nat) (c : UInt8) : Nat :=
  first + (((v.take last).drop first).takeWhile (· ≠ c)).length

/-- The loop that skips blanks. -/
def skipBlanks (v : Bytes) (i : Nat) : Nat :=
  i + ((v.drop i).takeWhile fun c => c = 0x20 ∨ c = 0x09).length

/-- `i + k` as an iterator. -/
def forward (v : Bytes) (i k : Nat) : Option Nat := if i + k ≤ v.length then some (i + k) else none

/-- The bytes between two iterators. -/
def between (v : Bytes) (first last : Nat) : Bytes := (v.take last).drop first

/-- `j == stop && *i == '*'`, which reads nothing unless the iterators are the same. -/
def isStar (v : Bytes) (i j stop : Nat) : Option Bool :=
  if j = stop then (v[i]?).map fun c => c == 0x2a else some false

def byteRangeSpec (v : Bytes) : Option Nat :=
  let blank := findByte v 0 v.length 0x20
  if blank = v.length then
    let equals := findByte v 0 v.length 0x3d
    if equals = v.length then some 0 else forward v equals 1
  else some (skipBlanks v blank)

/-- The numbers are read from left to right; none that is negative is taken. -/
def readRange (first last total : Bytes) : Except String Range :=
  match parseLLIntNoThrow first, parseLLIntNoThrow last, parseLLIntNoThrow total with
  | some startByte, some endByte, some entityLength =>
    if startByte < 0 ∨ endByte < 0 ∨ entityLength < 0 then
      .error "byte-range-spec must be positive"
    else .ok ⟨startByte, endByte, entityLength⟩
  | _, _, _ => .error "byte-range-spec must be positive"

/-- The range of the value of a `Content-Range`. -/
def contentRange (v : Bytes) : Option (Except String Range) := do
  let spec ← byteRangeSpec v
  let slash := findByte v spec v.length 0x2f
  if slash = v.length then some (.ok {})
  else
    let next ← forward v slash 1
    if next = v.length then some (.ok {})
    else
      let specNext ← forward v spec 1
      let star ← isStar v spec specNext slash
      if star then some (.ok {})
      else
        let next2 ← forward v slash 2
        let star ← isStar v next next2 v.length
        if star then some (.ok {})
        else
          let minus := findByte v spec slash 0x2d
          if minus = slash then some (.ok {})
          else
            let last ← forward v minus 1
            some (readRange (between v spec minus) (between v last slash)
              (between v next v.length))

/-- The range of a response with nothing but a `Content-Length`. -/
def lengthRange (clenStr : Bytes) : Except String Range :=
  if clenStr = [] then .ok {}
  else match parseLLIntNoThrow clenStr with
    | none => .error "Content-Length must be positive integer"
    | some contentLength =>
      if contentLength < 0 then .error "Content-Length must be positive integer"
      else if contentLength = 0 then .ok {}
      else .ok ⟨0, contentLength - 1, contentLength⟩

def getRange (t : HeaderTable) : Option (Except String Range) :=
  if t.find .contentRange = [] then some (lengthRange (t.find .contentLength))
  else contentRange (t.find .contentRange)

/-! ## The parts of a value -/

def isBlank (c : UInt8) : Bool := c = 0x20 ∨ c = 0x09

/-- What is behind the unit: behind the first blanks, or else behind the first equals sign, or else
the value. -/
def unitRest (v : Bytes) : Bytes :=
  if 0x20 ∈ v then (v.dropWhile (· ≠ 0x20)).dropWhile isBlank
  else if 0x3d ∈ v then (v.dropWhile (· ≠ 0x3d)).tail
  else v

/-- The three numbers, where a minus sign and a slash stand between them and the last of them is
neither missing nor a star. -/
def partsOf (spec total : Bytes) : Option (Bytes × Bytes × Bytes) :=
  if total = [] ∨ total = [0x2a] ∨ 0x2d ∉ spec then none
  else some (spec.takeWhile (· ≠ 0x2d), (spec.dropWhile (· ≠ 0x2d)).tail, total)

/-- The part behind the unit, taken apart at its first slash. -/
def fieldsOf (rest : Bytes) : Option (Bytes × Bytes × Bytes) :=
  partsOf (rest.takeWhile (· ≠ 0x2f)) (rest.dropWhile (· ≠ 0x2f)).tail

/-- What is made of the part behind the unit. -/
def outcome (rest : Bytes) : Except String Range :=
  match fieldsOf rest with
  | none => .ok {}
  | some (first, last, total) => readRange first last total

/-! ## Iterators stay inside the value -/

variable {v pre rest spec total first last s : Bytes} {c : UInt8} {n : Int}

theorem exists_first (c : UInt8) (s : Bytes) :
    c ∉ s ∨ ∃ a b, s = a ++ c :: b ∧ c ∉ a := by
  by_cases h : c ∈ s
  · exact .inr (List.eq_append_cons_of_mem h)
  · exact .inl h

theorem takeWhile_ne_of_not_mem (h : c ∉ s) : s.takeWhile (· ≠ c) = s :=
  List.takeWhile_eq_self_iff.mpr fun _ hx => decide_eq_true fun heq => h (heq ▸ hx)

theorem takeWhile_ne_append (h : c ∉ s) (rest : Bytes) :
    (s ++ c :: rest).takeWhile (· ≠ c) = s := by
  refine Util.takeWhile_append_of_head (fun x hx => decide_eq_true fun heq => h (heq ▸ hx)) ?_
  exact fun x hx => Option.some.inj hx ▸ by simp

theorem findByte_append (pre s post : Bytes) (c : UInt8) :
    findByte (pre ++ (s ++ post)) pre.length (pre.length + s.length) c =
      pre.length + (s.takeWhile (· ≠ c)).length := by
  have htake : (pre ++ (s ++ post)).take (pre.length + s.length) = pre ++ s := by
    rw [← List.append_assoc, ← List.length_append, List.take_left]
  rw [findByte, htake, List.drop_left]

theorem findByte_to_end (pre s : Bytes) (c : UInt8) :
    findByte (pre ++ s) pre.length (pre ++ s).length c =
      pre.length + (s.takeWhile (· ≠ c)).length := by
  have h := findByte_append pre s [] c
  rwa [List.append_nil, ← List.length_append] at h

theorem byteRangeSpec_eq (v : Bytes) :
    ∃ pre, v = pre ++ unitRest v ∧ byteRangeSpec v = some pre.length := by
  have hfind (c : UInt8) : findByte v 0 v.length c = (v.takeWhile (· ≠ c)).length := by
    have := findByte_to_end [] v c
    rwa [List.nil_append, List.length_nil, Nat.zero_add] at this
  rw [byteRangeSpec, hfind, hfind, unitRest]
  dsimp only
  obtain hno | ⟨a, b, rfl, ha⟩ := exists_first 0x20 v
  · rw [takeWhile_ne_of_not_mem hno, if_pos rfl, if_neg hno]
    obtain hno | ⟨a, b, rfl, ha⟩ := exists_first 0x3d v
    · rw [takeWhile_ne_of_not_mem hno, if_pos rfl, if_neg hno]
      exact ⟨[], rfl, rfl⟩
    · have hne : ¬ a.length = (a ++ 0x3d :: b).length := by simp
      have hle : a.length + 1 ≤ (a ++ 0x3d :: b).length := by simp
      have hdrop : (a ++ 0x3d :: b).dropWhile (· ≠ 0x3d) = 0x3d :: b :=
        Util.dropWhile_append_of_head (fun x hx => decide_eq_true fun heq => ha (heq ▸ hx))
          fun x hx => Option.some.inj hx ▸ by simp
      rw [takeWhile_ne_append ha, if_neg hne, if_pos (by simp), hdrop, forward, if_pos hle]
      exact ⟨a ++ [0x3d], by simp, by simp⟩
  · have hne : ¬ a.length = (a ++ 0x20 :: b).length := by simp
    have hdrop : (a ++ 0x20 :: b).dropWhile (· ≠ 0x20) = 0x20 :: b :=
      Util.dropWhile_append_of_head (fun x hx => decide_eq_true fun heq => ha (heq ▸ hx))
        fun x hx => Option.some.inj hx ▸ by simp
    rw [takeWhile_ne_append ha, if_neg hne, if_pos (by simp), hdrop, skipBlanks, List.drop_left]
    refine ⟨a ++ (0x20 :: b).takeWhile isBlank, ?_, ?_⟩
    · rw [List.append_assoc, List.takeWhile_append_dropWhile]
    · rw [List.length_append]
      rfl

theorem dropWhile_ne_append (h : c ∉ s) (rest : Bytes) :
    (s ++ c :: rest).dropWhile (· ≠ c) = c :: rest := by
  refine Util.dropWhile_append_of_head (fun _ hx => decide_eq_true fun heq => h (heq ▸ hx)) ?_
  exact fun x hx => Option.some.inj hx ▸ by simp

theorem fieldsOf_append (hspec : 0x2f ∉ spec) :
    fieldsOf (spec ++ 0x2f :: total) = partsOf spec total := by
  rw [fieldsOf, takeWhile_ne_append hspec, dropWhile_ne_append hspec, List.tail_cons]

/-- The test for a star looks at one byte of the value. -/
theorem star_eq (pre s post : Bytes) :
    isStar (pre ++ (s ++ post)) pre.length (pre.length + 1) (pre.length + s.length) =
      some (decide (s = [0x2a])) := by
  rw [isStar]
  obtain - | ⟨x, - | ⟨y, s⟩⟩ := s
  · rw [if_neg (by simp)]
    rfl
  · rw [if_pos (by simp), List.getElem?_append_right (Nat.le_refl _), Nat.sub_self]
    simp [beq_eq_decide]
  · rw [if_neg (by simp)]
    simp

/-- The whole of the scan behind the unit. -/
theorem contentRange_eq (v : Bytes) : contentRange v = some (outcome (unitRest v)) := by
  obtain ⟨pre, hv, hbrs⟩ := byteRangeSpec_eq v
  generalize unitRest v = rest at hv ⊢
  subst hv
  rw [contentRange, hbrs, Option.bind_eq_bind, Option.bind_some, findByte_to_end]
  dsimp only
  obtain hno | ⟨spec, total, rfl, hspec⟩ := exists_first 0x2f rest
  · have hdrop : rest.dropWhile (· ≠ 0x2f) = [] :=
      List.dropWhile_eq_nil_iff.mpr fun _ hx => decide_eq_true fun heq => hno (heq ▸ hx)
    have hfields : fieldsOf rest = none := by
      rw [fieldsOf, hdrop, List.tail_nil, partsOf, if_pos (.inl rfl)]
    rw [takeWhile_ne_of_not_mem hno, if_pos (List.length_append).symm, outcome, hfields]
  have hlen : (pre ++ (spec ++ 0x2f :: total)).length =
      pre.length + spec.length + 1 + total.length := by
    simp only [List.length_append, List.length_cons]
    omega
  rw [takeWhile_ne_append hspec, if_neg (by omega), forward, if_pos (by omega), Option.bind_some,
    outcome, fieldsOf_append hspec, partsOf]
  by_cases htotal : total = []
  · rw [if_pos (by rw [hlen, htotal, List.length_nil]), if_pos (.inl htotal)]
  have hpos := List.length_pos_of_ne_nil htotal
  rw [if_neg (by omega), forward, if_pos (by omega), Option.bind_some, star_eq,
    Option.bind_eq_bind, Option.bind_some]
  by_cases hstar : spec = [0x2a]
  · rw [if_pos (decide_eq_true hstar), if_pos (.inr (.inr (by simp [hstar])))]
  rw [if_neg (by simpa using hstar), forward, if_pos (by omega), Option.bind_some]
  have hnext : isStar (pre ++ (spec ++ 0x2f :: total)) (pre.length + spec.length + 1)
      (pre.length + spec.length + 2) (pre ++ (spec ++ 0x2f :: total)).length =
      some (decide (total = [0x2a])) := by
    have h := star_eq (pre ++ (spec ++ [0x2f])) total []
    have hp : (pre ++ (spec ++ [0x2f])).length = pre.length + spec.length + 1 := by
      simp only [List.length_append, List.length_cons, List.length_nil]
      omega
    have hcat : pre ++ (spec ++ [0x2f]) ++ (total ++ []) = pre ++ (spec ++ 0x2f :: total) := by simp
    rwa [hp, hcat, ← hlen] at h
  rw [hnext, Option.bind_some]
  by_cases hstar' : total = [0x2a]
  · rw [if_pos (decide_eq_true hstar'), if_pos (.inr (.inl hstar'))]
  rw [if_neg (by simpa using hstar'), findByte_append]
  obtain hno | ⟨first, last, rfl, hfirst⟩ := exists_first 0x2d spec
  · rw [takeWhile_ne_of_not_mem hno, if_pos rfl, if_pos (.inr (.inr hno))]
  have hmem : 0x2d ∈ first ++ 0x2d :: last := by simp
  rw [takeWhile_ne_append hfirst, dropWhile_ne_append hfirst, List.tail_cons,
    if_neg (by simp), if_neg (by simp [htotal, hstar'])]
  have hfirst' : between (pre ++ (first ++ 0x2d :: last ++ 0x2f :: total)) pre.length
      (pre.length + first.length) = first := by
    have htake : (pre ++ (first ++ 0x2d :: last ++ 0x2f :: total)).take
        (pre.length + first.length) = pre ++ first := by
      rw [List.append_assoc, ← List.append_assoc, ← List.length_append, List.take_left]
    rw [between, htake, List.drop_left]
  have hlast' : between (pre ++ (first ++ 0x2d :: last ++ 0x2f :: total))
      (pre.length + first.length + 1) (pre.length + (first ++ 0x2d :: last).length) = last := by
    have htake : (pre ++ (first ++ 0x2d :: last ++ 0x2f :: total)).take
        (pre.length + (first ++ 0x2d :: last).length) = (pre ++ (first ++ [0x2d])) ++ last := by
      rw [← List.append_assoc, ← List.length_append, List.take_left]
      simp
    rw [between, htake]
    exact List.drop_left' (by simp [Nat.add_assoc])
  have htotal' : between (pre ++ (first ++ 0x2d :: last ++ 0x2f :: total))
      (pre.length + (first ++ 0x2d :: last).length + 1)
      (pre ++ (first ++ 0x2d :: last ++ 0x2f :: total)).length = total := by
    rw [between, List.take_length]
    have hcat : pre ++ (first ++ 0x2d :: last ++ 0x2f :: total) =
        (pre ++ (first ++ 0x2d :: last ++ [0x2f])) ++ total := by simp
    rw [hcat]
    exact List.drop_left' (by simp [Nat.add_assoc])
  rw [forward, if_pos (by rw [hlen]; simp; omega), Option.bind_some, hfirst', hlast', htotal']

/-! ## What is returned -/

theorem int64_of_range (h : -2 ^ 63 ≤ n ∧ n < 2 ^ 63) : int64 n = some n := if_pos h

/-- A range of numbers that are not negative has a length, unless it is that of all of them. -/
theorem getContentLength_isSome {r : Range} (hstart : 0 ≤ r.startByte) (hend : r.endByte < 2 ^ 63) :
    r.getContentLength.isSome = true ↔ ¬(r.startByte = 0 ∧ r.endByte = 2 ^ 63 - 1) := by
  rw [Range.getContentLength]
  split
  next hle =>
    rw [int64_of_range (by omega), Option.bind_some, int64]
    split
    next h => exact iff_of_true rfl (by omega)
    next h => exact iff_of_false Bool.false_ne_true (by omega)
  next hlt => exact iff_of_true rfl (by omega)

/-- A text that is no number, though it may be taken for one. -/
def NoNumber (f : Bytes) : Prop := 0 ∈ f ∨ ∀ c ∈ f, isspace c = true

theorem numeral_iff {f : Bytes} (h : parseLLIntNoThrow f = some n) :
    Numeral f n ↔ ¬ NoNumber f := by
  constructor
  · rintro hnum (h0 | hblank)
    · exact hnum.not_mem h0
    · exact hnum.not_blank hblank
  · intro hno
    obtain hnum | ⟨-, hblank, -⟩ := Util.of_parseLong (fun h0 => hno (.inl h0)) h
    · exact hnum.1
    · exact absurd (.inr hblank) hno

/-- The numbers that are read, none of them negative. -/
structure Reads (first last total : Bytes) (r : Range) : Prop where
  startByte : parseLLIntNoThrow first = some r.startByte
  endByte : parseLLIntNoThrow last = some r.endByte
  entityLength : parseLLIntNoThrow total = some r.entityLength
  nonneg : 0 ≤ r.startByte ∧ 0 ≤ r.endByte ∧ 0 ≤ r.entityLength

theorem readRange_eq_ok {r : Range} : readRange first last total = .ok r ↔
    Reads first last total r := by
  constructor
  · intro h
    rw [readRange] at h
    split at h
    next s e n hs he hn =>
      split at h
      · exact nomatch h
      next hneg =>
        obtain rfl := Except.ok.inj h
        exact ⟨hs, he, hn, by dsimp only; omega⟩
    · exact nomatch h
  · rintro ⟨hs, he, hn, hnonneg⟩
    rw [readRange, hs, he, hn]
    exact if_neg (by omega)

/-- The three numbers of a value stand in it. -/
def Stands (v : Bytes) (r : Range) : Prop :=
  ∃ first last total, fieldsOf (unitRest v) = some (first, last, total) ∧
    Numeral first r.startByte ∧ Numeral last r.endByte ∧ Numeral total r.entityLength

/-- The iterators stay inside the value. A range that is returned is empty or has the numbers of the
header, and if the request takes it, its length can be computed. -/
def Meets (t : HeaderTable) : Prop :=
  ∃ o, getRange t = some o ∧ ∀ r, o = .ok r →
    (r = {} ∨ (0 ≤ r.startByte ∧ 0 ≤ r.endByte ∧ 0 ≤ r.entityLength) ∧
      if t.find .contentRange = [] then
        ∃ n, parseLLIntNoThrow (t.find .contentLength) = some n ∧ 0 < n ∧ r = ⟨0, n - 1, n⟩
      else Stands (t.find .contentRange) r) ∧
    ∀ request, isRangeSatisfied request r = true → r.getContentLength.isSome = true

/-- The three parts are taken for numbers, but one of them is none, or the range is that of all
numbers. -/
def Defective (v : Bytes) : Prop :=
  ∃ first last total r, fieldsOf (unitRest v) = some (first, last, total) ∧
    Reads first last total r ∧ r ≠ {} ∧
    (NoNumber first ∨ NoNumber last ∨ NoNumber total ∨ r.startByte = 0 ∧ r.endByte = 2 ^ 63 - 1)

theorem meets_length {t : HeaderTable} (h : t.find .contentRange = []) : Meets t := by
  rw [Meets, getRange, if_pos h]
  refine ⟨_, rfl, fun r hr => ?_⟩
  rw [if_pos h]
  rw [lengthRange] at hr
  split at hr
  · obtain rfl := Except.ok.inj hr
    exact ⟨.inl rfl, fun _ _ => rfl⟩
  split at hr
  · exact nomatch hr
  next n hn =>
  split at hr
  · exact nomatch hr
  split at hr
  · obtain rfl := Except.ok.inj hr
    exact ⟨.inl rfl, fun _ _ => rfl⟩
  next hneg hzero =>
  obtain rfl := Except.ok.inj hr
  have hrange := Util.parseLong_range hn
  refine ⟨.inr ⟨⟨Int.le_refl 0, ?_, ?_⟩, n, hn, ?_, rfl⟩, fun _ _ => ?_⟩
  iterate 3 (first | omega | (dsimp only; omega))
  exact (getContentLength_isSome (Int.le_refl 0) (by dsimp only; omega)).mpr (by dsimp only; omega)

theorem Stands.iff {v : Bytes} {r : Range} (hfields : fieldsOf (unitRest v) = some (first, last, total))
    (hreads : Reads first last total r) :
    Stands v r ↔ ¬ NoNumber first ∧ ¬ NoNumber last ∧ ¬ NoNumber total := by
  rw [← numeral_iff hreads.startByte, ← numeral_iff hreads.endByte,
    ← numeral_iff hreads.entityLength]
  constructor
  · rintro ⟨first', last', total', hfields', h⟩
    obtain ⟨rfl, hlast⟩ := Prod.mk.inj (Option.some.inj (hfields.symm.trans hfields'))
    obtain ⟨rfl, rfl⟩ := Prod.mk.inj hlast
    exact h
  · exact fun h => ⟨first, last, total, hfields, h⟩

theorem meets_iff {t : HeaderTable} (h : t.find .contentRange ≠ []) :
    Meets t ↔ ¬ Defective (t.find .contentRange) := by
  rw [Meets, getRange, if_neg h, contentRange_eq]
  simp only [if_neg h]
  generalize t.find .contentRange = v
  rcases hfields : fieldsOf (unitRest v) with - | ⟨first, last, total⟩
  · refine iff_of_true ⟨_, rfl, fun r hr => ?_⟩ ?_
    · rw [outcome, hfields] at hr
      obtain rfl := Except.ok.inj hr
      exact ⟨.inl rfl, fun _ _ => rfl⟩
    · rintro ⟨first, last, total, r, hsome, -⟩
      exact nomatch hfields.symm.trans hsome
  have hout : outcome (unitRest v) = readRange first last total := by rw [outcome, hfields]
  rw [hout]
  constructor
  · rintro ⟨o, ho, hmeets⟩ ⟨first', last', total', r, hfields', hreads, hne, hbad⟩
    obtain ⟨rfl, hlast⟩ := Prod.mk.inj (Option.some.inj (hfields.symm.trans hfields'))
    obtain ⟨rfl, rfl⟩ := Prod.mk.inj hlast
    obtain rfl := Option.some.inj ho
    obtain ⟨hempty | ⟨-, hstands⟩, hlen⟩ := hmeets r (readRange_eq_ok.mpr hreads)
    · exact hne hempty
    · have hnumbers := (Stands.iff hfields hreads).mp hstands
      have hsome := (getContentLength_isSome hreads.nonneg.1
        (Util.parseLong_range hreads.endByte).2).mp (hlen none rfl)
      tauto
  · intro hno
    refine ⟨_, rfl, fun r hr => ?_⟩
    have hreads := readRange_eq_ok.mp hr
    by_cases hempty : r = {}
    · exact ⟨.inl hempty, fun _ _ => hempty ▸ rfl⟩
    have hgood : ¬(NoNumber first ∨ NoNumber last ∨ NoNumber total ∨
        r.startByte = 0 ∧ r.endByte = 2 ^ 63 - 1) := fun hbad =>
      hno ⟨first, last, total, r, hfields, hreads, hempty, hbad⟩
    refine ⟨.inr ⟨hreads.nonneg, (Stands.iff hfields hreads).mpr (by tauto)⟩, fun _ _ => ?_⟩
    exact (getContentLength_isSome hreads.nonneg.1
      (Util.parseLong_range hreads.endByte).2).mpr (by tauto)

/-! ## Units -/

/-- What may stand in front of the numbers: a unit and blanks, a unit and an equals sign, or
nothing. -/
inductive UnitPrefix : Bytes → Prop where
  | blanks (unit more : Bytes) : 0x20 ∉ unit → (∀ c ∈ more, isBlank c = true) →
      UnitPrefix (unit ++ 0x20 :: more)
  | equals (unit : Bytes) : 0x20 ∉ unit → 0x3d ∉ unit → UnitPrefix (unit ++ [0x3d])
  | omitted : UnitPrefix []

def Digits (ds : Bytes) : Prop := ds ≠ [] ∧ ∀ c ∈ ds, Util.isDigit c = true

theorem Digits.not_mem {ds : Bytes} (h : Digits ds) (hc : Util.isDigit c = false) : c ∉ ds :=
  fun hmem => Bool.false_ne_true (hc.symm.trans (h.2 c hmem))

theorem Digits.parse {ds : Bytes} (h : Digits ds) (hlt : Util.decimal ds < 2 ^ 63) :
    parseLLIntNoThrow ds = some (Util.decimal ds : Int) := by
  have hnum : Numeral ds (Util.decimal ds) :=
    ⟨[], [], ds, [], by simp, nofun, .inl rfl, h, nofun, rfl⟩
  exact Util.parseLong_numeral hnum (by omega)

/-- Whatever the unit, what is behind it is found. -/
theorem UnitPrefix.unitRest_eq (h : UnitPrefix pre) (hblank : 0x20 ∉ rest) (hequals : 0x3d ∉ rest)
    (htab : ∀ c ∈ rest.head?, isBlank c = false) : unitRest (pre ++ rest) = rest := by
  cases h with
  | blanks unit more hunit hmore =>
    have hcat : unit ++ 0x20 :: more ++ rest = unit ++ 0x20 :: (more ++ rest) := by simp
    have hblanks : ∀ c ∈ (0x20 : UInt8) :: more, isBlank c = true :=
      List.forall_mem_cons.mpr ⟨rfl, hmore⟩
    rw [unitRest, hcat, if_pos (by simp), dropWhile_ne_append hunit, ← List.cons_append]
    exact Util.dropWhile_append_of_head hblanks htab
  | equals unit hunit hequals' =>
    have hno : 0x20 ∉ unit ++ [0x3d] ++ rest := by simp [hunit, hblank]
    rw [unitRest, if_neg hno, if_pos (by simp), List.append_assoc, List.singleton_append,
      dropWhile_ne_append hequals', List.tail_cons]
  | omitted => rw [List.nil_append, unitRest, if_neg hblank, if_neg hequals]

/-- The numbers behind a unit are returned. -/
theorem contentRange_digits (h : UnitPrefix pre) (hfirst : Digits first) (hlast : Digits last)
    (htotal : Digits total) (hmax : Util.decimal first < 2 ^ 63 ∧ Util.decimal last < 2 ^ 63 ∧
      Util.decimal total < 2 ^ 63) :
    contentRange (pre ++ (first ++ 0x2d :: (last ++ 0x2f :: total))) =
      some (.ok ⟨Util.decimal first, Util.decimal last, Util.decimal total⟩) := by
  have hnot (c : UInt8) (hc : Util.isDigit c = false) (h1 : c ≠ 0x2d) (h2 : c ≠ 0x2f) :
      c ∉ first ++ 0x2d :: (last ++ 0x2f :: total) := by
    simp [hfirst.not_mem hc, hlast.not_mem hc, htotal.not_mem hc, h1, h2]
  have htab : ∀ c ∈ (first ++ 0x2d :: (last ++ 0x2f :: total)).head?, isBlank c = false := by
    intro c hc
    have hdigit := Util.isspace_of_isDigit (Util.head_digits hfirst c hc)
    refine Bool.eq_false_iff.mpr fun hblank => Bool.eq_false_iff.mp hdigit ?_
    rcases of_decide_eq_true hblank with rfl | rfl
    · rfl
    · rfl
  have hspec : 0x2f ∉ first ++ 0x2d :: last := by
    simp [hfirst.not_mem (c := 0x2f) rfl, hlast.not_mem (c := 0x2f) rfl]
  have hstar : total ≠ [0x2a] := fun heq => absurd (htotal.2 0x2a (heq ▸ .head [])) (by decide)
  have hparts : fieldsOf (first ++ 0x2d :: (last ++ 0x2f :: total)) =
      some (first, last, total) := by
    have hcat : first ++ 0x2d :: (last ++ 0x2f :: total) =
        (first ++ 0x2d :: last) ++ 0x2f :: total := by simp
    have hminus : 0x2d ∉ first := hfirst.not_mem rfl
    rw [hcat, fieldsOf_append hspec, partsOf, if_neg (by simp [htotal.1, hstar]),
      takeWhile_ne_append hminus, dropWhile_ne_append hminus, List.tail_cons]
  have hreads : Reads first last total
      ⟨Util.decimal first, Util.decimal last, Util.decimal total⟩ :=
    ⟨hfirst.parse hmax.1, hlast.parse hmax.2.1, htotal.parse hmax.2.2, by dsimp only; omega⟩
  rw [contentRange_eq, h.unitRest_eq (hnot _ rfl (by decide) (by decide))
    (hnot _ rfl (by decide) (by decide)) htab, outcome, hparts]
  exact congrArg some (readRange_eq_ok.mpr hreads)

/-- The header is read as it should be if and only if no part of a `Content-Range` is blank or has a
NUL in it, and the range is not that of all numbers. -/
theorem getRange_iff (t : HeaderTable) :
    (Meets t ↔ ¬(t.find .contentRange ≠ [] ∧ Defective (t.find .contentRange))) ∧
    (∀ pre first last total : Bytes, UnitPrefix pre → Digits first → Digits last → Digits total →
      Util.decimal first < 2 ^ 63 ∧ Util.decimal last < 2 ^ 63 ∧ Util.decimal total < 2 ^ 63 →
      t.find .contentRange = pre ++ (first ++ 0x2d :: (last ++ 0x2f :: total)) →
      getRange t =
        some (.ok ⟨Util.decimal first, Util.decimal last, Util.decimal total⟩)) ∧
    ∀ ds : Bytes, t.find .contentRange = [] → t.find .contentLength = ds →
      Digits ds → 0 < Util.decimal ds → Util.decimal ds < 2 ^ 63 →
      getRange t = some (.ok ⟨0, Util.decimal ds - 1, Util.decimal ds⟩) := by
  refine ⟨?_, fun pre first last total hpre hfirst hlast htotal hmax ht => ?_,
    fun ds hrange hlen hds hpos hlt => ?_⟩
  · by_cases h : t.find .contentRange = []
    · exact iff_of_true (meets_length h) fun hdef => hdef.1 h
    · rw [meets_iff h]
      exact not_congr (and_iff_right h).symm
  · rw [getRange, ht, if_neg (by simp), contentRange_digits hpre hfirst hlast htotal hmax]
  · rw [getRange, if_pos hrange, hlen, lengthRange, if_neg hds.1, hds.parse hlt]
    dsimp only
    rw [if_neg (by omega), if_neg (by omega)]

theorem getRange_iff_witness :
    getRange [(.contentRange, [0x62, 0x20, 0x20, 0x31, 0x2d, 0x39, 0x2f, 0x39, 0x30])] =
      some (.ok ⟨1, 9, 90⟩) ∧
    getRange [(.contentLength, [0x39, 0x30])] = some (.ok ⟨0, 89, 90⟩) :=
  have hdigits (ds : Bytes) (hne : ds ≠ []) (h : ds.all Util.isDigit = true) : Digits ds :=
    ⟨hne, List.all_eq_true.mp h⟩
  ⟨(getRange_iff [(.contentRange, [0x62, 0x20, 0x20, 0x31, 0x2d, 0x39, 0x2f, 0x39, 0x30])]).2.1
      ([0x62] ++ 0x20 :: [0x20]) [0x31] [0x39] [0x39, 0x30]
      (.blanks [0x62] [0x20] (by decide) (by simp [isBlank])) (hdigits [0x31] (by decide) rfl)
      (hdigits [0x39] (by decide) rfl) (hdigits [0x39, 0x30] (by decide) rfl) (by decide) rfl,
    (getRange_iff [(.contentLength, [0x39, 0x30])]).2.2 [0x39, 0x30] rfl rfl
      (hdigits [0x39, 0x30] (by decide) rfl) (by decide) (by decide)⟩

/-- The length of a range that any first request takes is no `int64_t`. -/
theorem getRange_counterexample :
    let t : HeaderTable := [(.contentRange, "bytes 0-9223372036854775807/1".toUTF8.toList)]
    let r : Range := ⟨0, 9223372036854775807, 1⟩
    getRange t = some (.ok r) ∧ isRangeSatisfied none r = true ∧ r.getContentLength = none ∧
      ¬ Meets t := by
  have hget : getRange [(.contentRange, "bytes 0-9223372036854775807/1".toUTF8.toList)] =
      some (.ok ⟨0, 9223372036854775807, 1⟩) := by decide +kernel
  refine ⟨hget, rfl, by decide, ?_⟩
  rintro ⟨o, ho, hmeets⟩
  obtain rfl := Option.some.inj (hget.symm.trans ho)
  exact Bool.false_ne_true ((hmeets _ rfl).2 none rfl)

end FluxCore.Http
