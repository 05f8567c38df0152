import FluxCore.Uri.Uri
import FluxCore.Util.Numbers
import Mathlib.Data.Nat.Digits.Defs

/-!
# Parameterized strings

`paramed_string::expand`: `{a,b}` stands for one of the alternatives, and `[1-10:3]` and `[a-z]` for
the numbers of a loop. A division by zero and a counter that overflows, as any undefined behaviour,
are `undefined`.
-/

namespace FluxCore.ParamedString

open Utp (Bytes)
open Util (isDigit parseLong decimal)
open Uri (decimalBytes)

/-! ## Outcomes -/

inductive Outcome (α : Type) where
  | ok (a : α)
  | thrown (message : String)
  | undefined
  deriving DecidableEq, Repr

namespace Outcome

variable {α β : Type}

def bind (o : Outcome α) (f : α → Outcome β) : Outcome β :=
  match o with
  | .ok a => f a
  | .thrown message => .thrown message
  | .undefined => .undefined

@[simp] theorem bind_ok (a : α) (f : α → Outcome β) : (ok a).bind f = f a := rfl
end Outcome

/-! ## Helpers -/

def UINT16_MAX : Nat := 65535

/-- `strchr(DEFAULT_STRIP_CHARSET, c)`, which finds the terminating NUL as well. -/
def isStripped (c : UInt8) : Bool := c = 0x0d ∨ c = 0x0a ∨ c = 0x09 ∨ c = 0x20 ∨ c = 0

def stripIter (s : Bytes) : Bytes :=
  ((s.dropWhile isStripped).reverse.dropWhile isStripped).reverse

/-- The stripped parts between delimiters that are not empty. -/
def splitIter (s : Bytes) (delim : UInt8) : List Bytes :=
  ((s.splitOn delim).map stripIter).filter (· ≠ [])

def parseUIntNoThrow (s : Bytes) : Option Nat :=
  match parseLong s with
  | some t => if 0 ≤ t ∧ t ≤ 2 ^ 31 - 1 then some t.toNat else none
  | none => none

def isNumber (s : Bytes) : Bool := s ≠ [] && s.all isDigit
def isLowercase (s : Bytes) : Bool := s ≠ [] && s.all fun c => 0x61 ≤ c && c ≤ 0x7a
def isUppercase (s : Bytes) : Bool := s ≠ [] && s.all fun c => 0x41 ≤ c && c ≤ 0x5a

/-- Some bytes up to one of these, which is not found at the end. -/
def until_ (p : UInt8 → Bool) (s : Bytes) : Bytes := s.takeWhile fun c => !p c

/-- What is behind that one. -/
def behind (p : UInt8 → Bool) (s : Bytes) : Bytes := (s.dropWhile fun c => !p c).tail

/-- `fmt("%0<width>d", n)`; the text is cut off where the buffer of `fmt` is full. -/
def fmtPadded (width n : Nat) : Bytes :=
  if 2 ^ 31 ≤ width then []
  else (List.replicate (width - (decimalBytes n).length) 0x30 ++ decimalBytes n).take 2047

/-- The number is an `int32_t`. -/
def fromBase26 (zero : UInt8) : Nat → Bytes → Outcome Nat
  | res, [] => .ok res
  | res, c :: s =>
    let res := res * 26 + (c.toNat - zero.toNat)
    if 2 ^ 31 ≤ res then .undefined
    else if UINT16_MAX < res then .thrown "Loop range overflow."
    else fromBase26 zero res s

/-- The letters of a number, the last one first. -/
def base26Loop (zero : UInt8) : Nat → Nat → Bytes
  | 0, _ => []
  | fuel + 1, n =>
    if n = 0 then [] else (zero + UInt8.ofNat (n % 26)) :: base26Loop zero fuel (n / 26)

def toBase26 (n : Nat) (zero : UInt8) (width : Nat) : Bytes :=
  let width := if n = 0 ∧ width = 0 then 1 else width
  let res := base26Loop zero n n
  (res ++ List.replicate (width - res.length) zero).reverse

/-! ## Expansion -/

/-- The strings, each followed by each of the alternatives. -/
def appendAll (res choices : List Bytes) : List Bytes :=
  res.flatMap fun i => choices.map (i ++ ·)

/-- What is behind `{`. -/
def expandChoice (res : List Bytes) (s : Bytes) : Outcome (List Bytes × Bytes) :=
  if 0x7d ∉ s then .thrown "Missing '\x7d' in the parameterized string."
  else .ok (appendAll res (splitIter (until_ (· = 0x7d) s) 0x2c), behind (· = 0x7d) s)

/-- The values of a counter that is below `max`. -/
def countLoop (max step stop : Nat) : Nat → Nat → Outcome (List Nat)
  | 0, _ => .undefined
  | fuel + 1, j =>
    if j ≤ stop then
      if max ≤ j + step then .undefined
      else (countLoop max step stop fuel (j + step)).bind fun js => .ok (j :: js)
    else .ok []

/-- The strings are reserved before the loops; the number of them is divided by the step. -/
def expandCounter (res : List Bytes) (max start stop step : Nat) (text : Nat → Bytes) :
    Outcome (List Bytes) :=
  if start ≤ stop then
    if step = 0 then .undefined
    else (countLoop max step stop (stop + 2 - start) start).bind fun js =>
      .ok (appendAll res (js.map text))
  else .ok res

def expandRange (res : List Bytes) (first last : Bytes) (step : Nat) : Outcome (List Bytes) :=
  if isNumber first ∧ isNumber last then
    match parseUIntNoThrow first, parseUIntNoThrow last with
    | some start, some stop =>
      if UINT16_MAX < start ∨ UINT16_MAX < stop then .thrown "Loop range overflow."
      else expandCounter res (2 ^ 32) start stop step fun j =>
        if first.length = last.length then fmtPadded first.length j else decimalBytes j
    | _, _ => .thrown "Loop range missing."
  else if (isLowercase first ∧ isLowercase last) ∨ (isUppercase first ∧ isUppercase last) then
    let zero : UInt8 := if 0x61 ≤ first.headD 0 ∧ first.headD 0 ≤ 0x7a then 0x61 else 0x41
    (fromBase26 zero 0 first).bind fun start =>
      (fromBase26 zero 0 last).bind fun stop =>
        expandCounter res (2 ^ 31) start stop step fun j =>
          toBase26 j zero (if first.length = last.length then first.length else 0)
  else .thrown "Invalid loop range."

def loopStep (body : Bytes) : Outcome Nat :=
  if 0x3a ∉ body then .ok 1
  else match parseUIntNoThrow (behind (· = 0x3a) body) with
    | none => .thrown "A step count must be a positive number."
    | some step => if UINT16_MAX < step then .thrown "Loop step overflow." else .ok step

/-- What is behind `[`. -/
def expandLoop (res : List Bytes) (s : Bytes) : Outcome (List Bytes × Bytes) :=
  if 0x5d ∉ s then .thrown "Missing ']' in the parameterized string."
  else
    let body := until_ (· = 0x5d) s
    (loopStep body).bind fun step =>
      let bounds := until_ (· = 0x3a) body
      if 0x2d ∉ bounds then .thrown "Loop range missing."
      else (expandRange res (until_ (· = 0x2d) bounds) (behind (· = 0x2d) bounds) step).bind fun res =>
        .ok (res, behind (· = 0x5d) s)

def isOpening (c : UInt8) : Bool := c = 0x7b ∨ c = 0x5b

/-- A pass for each bracket. -/
def expandFrom : Nat → List Bytes → Bytes → Outcome (List Bytes)
  | 0, _, _ => .undefined
  | fuel + 1, res, s =>
    let res := appendAll res [until_ isOpening s]
    match s.dropWhile fun c => !isOpening c with
    | [] => .ok res
    | c :: s =>
      (if c = 0x7b then expandChoice res s else expandLoop res s).bind fun p =>
        expandFrom fuel p.1 p.2

def expand (s : Bytes) : Outcome (List Bytes) :=
  (expandFrom (s.length + 1) [[]] s).bind fun res => .ok (if res = [[]] then [] else res)

/-! ## What a pattern stands for -/

/-- The strings that take one from each list, in lexicographic order. -/
def product : List (List Bytes) → List Bytes
  | [] => [[]]
  | cs :: rest => cs.flatMap fun c => (product rest).map (c ++ ·)

/-- The sequence `m`, `m + s`, … up to `n`. -/
def steps (m n s : Nat) : List Nat := (List.range ((n - m) / s + 1)).map fun k => m + k * s

/-- The digits of a number to base 26, with as many letters as there are wanted, and one at least. -/
def letters (zero : UInt8) (width n : Nat) : Bytes :=
  let ds := ((Nat.digits 26 n).reverse).map fun d => zero + UInt8.ofNat d
  List.replicate (max width 1 - ds.length) zero ++ ds

def digits (width n : Nat) : Bytes :=
  List.replicate (width - (decimalBytes n).length) 0x30 ++ decimalBytes n

/-- The value of letters that are read as digits to base 26. -/
def letterValue (zero : UInt8) (s : Bytes) : Nat :=
  s.foldl (fun n c => n * 26 + (c.toNat - zero.toNat)) 0

/-- The width that is written, if the bounds have the same. -/
def writtenWidth (first last : Bytes) : Nat := if first.length = last.length then first.length else 0

/-- The bounds of a loop, and the text of its numbers. -/
inductive Bounds (first last : Bytes) : Nat → Nat → (Nat → Bytes) → Prop where
  | numbers : isNumber first = true → isNumber last = true → decimal first ≤ UINT16_MAX →
      decimal last ≤ UINT16_MAX →
      Bounds first last (decimal first) (decimal last) (digits (writtenWidth first last))
  | letters (zero : UInt8) : (zero = 0x61 ∧ isLowercase first = true ∧ isLowercase last = true) ∨
        (zero = 0x41 ∧ isUppercase first = true ∧ isUppercase last = true) →
      letterValue zero first ≤ UINT16_MAX → letterValue zero last ≤ UINT16_MAX →
      Bounds first last (letterValue zero first) (letterValue zero last)
        (letters zero (writtenWidth first last))

/-- The step that is written. -/
inductive Step : Option Bytes → Nat → Prop where
  | one : Step none 1
  | written (text : Bytes) (s : Nat) : parseUIntNoThrow text = some s → s ≤ UINT16_MAX →
      Step (some text) s

inductive Segment where
  | choice (body : Bytes)
  | loop (first last : Bytes) (step : Option Bytes)
  deriving DecidableEq, Repr

namespace Segment

def stepText : Option Bytes → Bytes
  | none => []
  | some text => 0x3a :: text

def render : Segment → Bytes
  | .choice body => 0x7b :: (body ++ [0x7d])
  | .loop first last step => 0x5b :: (first ++ 0x2d :: (last ++ (stepText step ++ [0x5d])))

/-- No part of the segment ends it before its end. -/
def Formed : Segment → Prop
  | .choice body => 0x7d ∉ body
  | .loop first last step => 0x5d ∉ first ++ last ++ stepText step ∧ 0x3a ∉ first ++ last ∧
      0x2d ∉ first

/-- The alternatives of a segment. A loop whose bounds are not in order has none of its numbers, but
nothing in their place. -/
inductive Denotes : Segment → List Bytes → Prop where
  | choice (body : Bytes) : Denotes (.choice body) (splitIter body 0x2c)
  | loop (first last : Bytes) (step : Option Bytes) (m n s : Nat) (text : Nat → Bytes) :
      Bounds first last m n text → Step step s → (m ≤ n → s ≠ 0) →
      Denotes (.loop first last step) (if m ≤ n then (steps m n s).map text else [[]])

/-- A text that may take the place of a segment: an alternative, or the text of one number of the
sequence. -/
inductive Admits : Segment → Bytes → Prop where
  | choice (body text : Bytes) : text ∈ splitIter body 0x2c → Admits (.choice body) text
  | loop (first last : Bytes) (step : Option Bytes) (m n s k : Nat) (text : Nat → Bytes) :
      Bounds first last m n text → Step step s → m + k * s ≤ n →
      Admits (.loop first last step) (text (m + k * s))

/-- The code does not divide by zero, and its buffer holds the numbers. -/
def Sound : Segment → Prop
  | .choice _ => True
  | .loop first last step => ∀ m n text, Bounds first last m n text →
      (∀ s, Step step s → m ≤ n → s ≠ 0) ∧
      (isNumber first = true → first.length = last.length → first.length < 2048)

end Segment

def Literal (s : Bytes) : Prop := ∀ c ∈ s, isOpening c = false

/-- A pattern, and the alternatives that stand one behind the other in it. -/
inductive Expansion : Bytes → List (List Bytes) → Prop where
  | last (lit : Bytes) : Literal lit → Expansion lit [[lit]]
  | segment (lit : Bytes) (seg : Segment) (alts : List Bytes) (rest : Bytes)
      (lists : List (List Bytes)) : Literal lit → seg.Formed → seg.Denotes alts →
      Expansion rest lists → Expansion (lit ++ (seg.render ++ rest)) ([lit] :: alts :: lists)

/-- A segment that stands behind others in a pattern. -/
inductive Reached : Bytes → Segment → Prop where
  | here (lit : Bytes) (seg : Segment) (rest : Bytes) : Literal lit → seg.Formed →
      Reached (lit ++ (seg.render ++ rest)) seg
  | later (lit : Bytes) (seg : Segment) (alts : List Bytes) (rest : Bytes) (seg' : Segment) :
      Literal lit → seg.Formed → seg.Denotes alts → Reached rest seg' →
      Reached (lit ++ (seg.render ++ rest)) seg'

end FluxCore.ParamedString
