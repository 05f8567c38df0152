import FluxCore.Lib.Scanner
import FluxCore.Struct.StateMachine
import FluxCore.Util.Characters

/-!
# The JSON parser

`JsonParser` reads a text byte by byte and tells the state machine what it finds; its own stack says
what a value is part of.
-/

namespace FluxCore.Json

open Utp (Bytes)
open Bencode (ValueBase)
open Util (isDigit isHexDigit isLws isCRLF hexCharToUInt)
open Struct (StateMachine ElementType StructParserStateMachine)

/-- A character of the source. -/
def ch (c : Char) : UInt8 := c.toUInt8

section Util

def isSpace (c : UInt8) : Bool := isLws c || isCRLF c

/-- The value of a digit. -/
def digitValue (c : UInt8) : Int := c.toNat - (ch '0').toNat

def INT64_MAX : Int := 2 ^ 63 - 1

end Util

/-- A number as an output stream writes it. -/
def decimal (n : Nat) : Bytes :=
  if n < 10 then [ch '0' + n.toUInt8] else decimal (n / 10) ++ [ch '0' + (n % 10).toUInt8]

def encodeInteger (i : Int) : Bytes :=
  if i < 0 then ch '-' :: decimal i.natAbs else decimal i.natAbs

section Parser

inductive State where
  | finish
  | error
  | value
  | objectKey
  | objectVal
  | objectSep
  | array
  | arraySep
  | string
  | stringEscape
  | stringUnicode
  | stringLowSurrogateEscape
  | stringLowSurrogateU
  | stringLowSurrogate
  | number
  | numberFrac
  | numberExpSign
  | numberExp
  | true
  | false
  | null
  deriving DecidableEq, Repr

inductive JsonError where
  | unexpectedCharBeforeVal
  | unexpectedCharBeforeObjKey
  | unexpectedCharBeforeObjVal
  | unexpectedCharBeforeObjSep
  | invalidUnicodePoint
  | invalidNumber
  | numberOutOfRange
  | unexpectedCharBeforeArraySep
  | unexpectedLiteral
  | prematureData
  | structureTooDeep
  deriving DecidableEq, Repr

/-- `JsonParser` over a state machine of type `μ`. -/
structure JsonParser (μ : Type) where
  psm : μ
  stateStack : List State := [.finish]
  currentState : State := .value
  codepoint : UInt16 := 0
  codepoint2 : UInt16 := 0
  numberSign : Int := 1
  number : Int := 0
  frac : Int := 0
  expSign : Int := 1
  exp : Int := 0
  numConsumed : Nat := 0
  lastError : Option JsonError := none

namespace JsonParser

variable {μ : Type}

section Machine

variable [StructParserStateMachine μ]

/-- What a turn of the loop of `parseUpdate` gives. -/
abbrev Step (μ : Type) := Turn (JsonParser μ) UInt8 JsonError

abbrev go (p : JsonParser μ) (rest : Bytes) : Option (Step μ) := some (.go p rest)

/-- `currentState_ = JSON_ERROR; return lastError_ = e`. -/
def fail (p : JsonParser μ) (e : JsonError) : Option (Step μ) :=
  some (.fail { p with currentState := .error, lastError := some e } e)

def at_ (p : JsonParser μ) (s : State) : JsonParser μ := { p with currentState := s }

/-- `pushState`; `none` stands for `ERR_STRUCTURE_TOO_DEEP`. -/
def pushState (p : JsonParser μ) (s : State) : Option (JsonParser μ) :=
  if 50 ≤ p.stateStack.length then none else some { p with stateStack := s :: p.stateStack }

def popState (p : JsonParser μ) : JsonParser μ := { p with stateStack := p.stateStack.tail }

def runBeginCallback (p : JsonParser μ) (e : ElementType) : Option (JsonParser μ) :=
  (StructParserStateMachine.beginElement p.psm e).map fun psm => { p with psm }

def runEndCallback (p : JsonParser μ) (e : ElementType) : Option (JsonParser μ) :=
  (StructParserStateMachine.endElement p.psm e).map fun psm => { p with psm }

def runCharactersCallback (p : JsonParser μ) (data : Bytes) : JsonParser μ :=
  { p with psm := StructParserStateMachine.charactersCallback p.psm data }

def onValueEnd (p : JsonParser μ) : Option (JsonParser μ) :=
  match p.stateStack with
  | .objectKey :: _ => some (p.popState.at_ .objectVal)
  | .objectVal :: _ => (p.runEndCallback .dictData).map fun p => p.popState.at_ .objectSep
  | .array :: _ => (p.runEndCallback .arrayData).map fun p => p.popState.at_ .arraySep
  | .finish :: _ => some (p.at_ .finish)
  | _ => none

def onStringEnd (p : JsonParser μ) : Option (JsonParser μ) := do
  let p ← p.runEndCallback (if p.stateStack.head? = some .objectKey then .dictKey else .string)
  p.onValueEnd

def onNumberEnd (p : JsonParser μ) : Option (JsonParser μ) := do
  let p := { p with
    psm := StructParserStateMachine.numberCallback p.psm (p.numberSign * p.number) p.frac
      (p.expSign * p.exp) }
  let p ← p.runEndCallback .number
  p.onValueEnd

def onObjectEnd (p : JsonParser μ) : Option (JsonParser μ) := do
  let p ← p.runEndCallback .dict
  p.onValueEnd

def onArrayEnd (p : JsonParser μ) : Option (JsonParser μ) := do
  let p ← p.runEndCallback .array
  p.onValueEnd

def onBoolEnd (p : JsonParser μ) : Option (JsonParser μ) := do
  let p ← p.runEndCallback .bool
  p.onValueEnd

def onNullEnd (p : JsonParser μ) : Option (JsonParser μ) := do
  let p ← p.runEndCallback .null
  p.onValueEnd

/-- The bytes of a code point in the basic multilingual plane. -/
def utf8Bytes (codepoint : UInt16) : Bytes :=
  if codepoint ≤ 0x007f then [codepoint.toUInt8]
  else if codepoint ≤ 0x07ff then
    [(0xC0 : UInt8) ||| (codepoint >>> 6).toUInt8, (0x80 : UInt8) ||| (codepoint &&& 0x003f).toUInt8]
  else
    [(0xE0 : UInt8) ||| (codepoint >>> 12).toUInt8,
      (0x80 : UInt8) ||| ((codepoint >>> 6) &&& 0x003F).toUInt8,
      (0x80 : UInt8) ||| (codepoint &&& 0x003F).toUInt8]

def consumeUnicode (p : JsonParser μ) (c : UInt8) : JsonParser μ :=
  let p := { p with
    codepoint := p.codepoint * 16 + (hexCharToUInt c).toUInt16, numConsumed := p.numConsumed + 1 }
  if p.numConsumed = 4 then
    -- This is high-surrogate codepoint
    if 0xD800 ≤ p.codepoint ∧ p.codepoint ≤ 0xDBFF then p.at_ .stringLowSurrogateEscape
    else (p.runCharactersCallback (utf8Bytes p.codepoint)).at_ .string
  else p

/-- The bytes of the code point that a surrogate pair stands for. -/
def surrogateBytes (codepoint codepoint2 : UInt16) : Bytes :=
  let fullcodepoint : UInt32 :=
    (0x010000 : UInt32) + ((codepoint &&& 0x03FF).toUInt32 <<< 10) +
      (codepoint2 &&& 0x03FF).toUInt32
  [(0xf0 : UInt8) ||| (fullcodepoint >>> 18).toUInt8,
    (0x80 : UInt8) ||| ((fullcodepoint >>> 12) &&& 0x003F).toUInt8,
    (0x80 : UInt8) ||| ((fullcodepoint >>> 6) &&& 0x003F).toUInt8,
    (0x80 : UInt8) ||| (fullcodepoint &&& 0x003F).toUInt8]

/-- `consumeLowSurrogate`; `none` stands for `ERR_INVALID_UNICODE_POINT`. -/
def consumeLowSurrogate (p : JsonParser μ) (c : UInt8) : Option (JsonParser μ) :=
  let p := { p with
    codepoint2 := p.codepoint2 * 16 + (hexCharToUInt c).toUInt16, numConsumed := p.numConsumed + 1 }
  if p.numConsumed = 4 then
    if 0xDC00 ≤ p.codepoint2 ∧ p.codepoint2 ≤ 0xDFFF then
      some ((p.runCharactersCallback (surrogateBytes p.codepoint p.codepoint2)).at_ .string)
    else none
  else some p

/-- A turn in the state `JSON_VALUE`. -/
def turnValue (p : JsonParser μ) (c : UInt8) (rest : Bytes) : Option (Step μ) :=
  let begins (p : JsonParser μ) (s : State) (e : ElementType) : Option (Step μ) := do
    let p ← (p.at_ s).runBeginCallback e
    p.go rest
  if c = ch '\x7b' then begins p .objectKey .dict
  else if c = ch '[' then begins p .array .array
  else if c = ch '\"' then begins p .string .string
  else if c = ch '-' then
    begins { p with number := 0, numberSign := -1, numConsumed := 0 } .number .number
  else if c = ch 't' then begins { p with numConsumed := 1 } .true .bool
  else if c = ch 'f' then begins { p with numConsumed := 1 } .false .bool
  else if c = ch 'n' then begins { p with numConsumed := 1 } .null .null
  else if isDigit c then
    begins { p with number := digitValue c, numberSign := 1, numConsumed := 1 } .number .number
  else if isSpace c then p.go rest
  else p.fail .unexpectedCharBeforeVal

/-- A turn in the state of a literal: `JSON_TRUE`, `JSON_FALSE` or `JSON_NULL`. -/
def turnLiteral (p : JsonParser μ) (literal : Bytes) (onEnd : JsonParser μ → Option (JsonParser μ))
    (c : UInt8) (rest : Bytes) : Option (Step μ) :=
  if literal[p.numConsumed]? = some c then
    let p := { p with numConsumed := p.numConsumed + 1 }
    if p.numConsumed = literal.length then do
      let p ← onEnd p
      p.go rest
    else p.go rest
  else p.fail .unexpectedLiteral

/-- `runBoolCallback(bval); onBoolEnd()`. -/
def endBool (bval : Bool) (p : JsonParser μ) : Option (JsonParser μ) :=
  { p with psm := StructParserStateMachine.boolCallback p.psm bval }.onBoolEnd

/-- A turn in a state that waits for one of two characters. -/
def turnEither (p : JsonParser μ) (c : UInt8) (rest : Bytes) (c₁ : UInt8) (x₁ : Option (Step μ))
    (c₂ : UInt8) (x₂ : Option (Step μ)) (e : JsonError) : Option (Step μ) :=
  if c = c₁ then x₁ else if c = c₂ then x₂ else if isSpace c then p.go rest else p.fail e

/-- A byte that stands for itself inside a string. -/
def plain (c : UInt8) : Bool := c ≠ ch '\\' ∧ c ≠ ch '\"'

/-- A turn in the state `JSON_STRING`: the bytes up to the next quote or backslash are taken at
once. -/
def turnString (p : JsonParser μ) (c : UInt8) (rest : Bytes) : Option (Step μ) :=
  if c = ch '\"' then do
    let p ← p.onStringEnd
    p.go rest
  else if c = ch '\\' then (p.at_ .stringEscape).go rest
  else (p.runCharactersCallback ((c :: rest).takeWhile plain)).go ((c :: rest).dropWhile plain)

/-- A turn in the state `JSON_STRING_ESCAPE`. -/
def turnEscape (p : JsonParser μ) (c : UInt8) (rest : Bytes) : Option (Step μ) :=
  if c = ch 'u' then
    { p with codepoint := 0, numConsumed := 0, currentState := .stringUnicode }.go rest
  else
    let unescaped : UInt8 :=
      if c = ch 'b' then 0x08
      else if c = ch 'f' then 0x0C
      else if c = ch 'n' then ch '\n'
      else if c = ch 'r' then ch '\r'
      else if c = ch 't' then ch '\t'
      else c
    ((p.runCharactersCallback [unescaped]).at_ .string).go rest

/-- The loop of `JSON_STRING_UNICODE`. -/
def turnUnicode (p : JsonParser μ) : Bytes → Option (Step μ)
  | [] => p.go []
  | c :: rest =>
    if p.currentState ≠ .stringUnicode then p.go (c :: rest)
    else if isHexDigit c then turnUnicode (p.consumeUnicode c) rest
    else p.fail .invalidUnicodePoint

/-- The loop of `JSON_STRING_LOW_SURROGATE`. -/
def turnLowSurrogate (p : JsonParser μ) : Bytes → Option (Step μ)
  | [] => p.go []
  | c :: rest =>
    if p.currentState ≠ .stringLowSurrogate then p.go (c :: rest)
    else if isHexDigit c then
      match p.consumeLowSurrogate c with
      | some p => turnLowSurrogate p rest
      | none => p.fail .invalidUnicodePoint
    else p.fail .invalidUnicodePoint

/-- The loop over digits that the states of a number share: `add` takes them, `next` is what comes
behind them. -/
def turnDigits (add : JsonParser μ → Bytes → Option (JsonParser μ))
    (next : JsonParser μ → UInt8 → Bytes → Option (Step μ)) (p : JsonParser μ) (data : Bytes) :
    Option (Step μ) :=
  match add p (data.takeWhile isDigit) with
  | none => p.fail .numberOutOfRange
  | some p =>
    match data.dropWhile isDigit with
    | [] => p.go []
    | c :: rest => if p.numConsumed = 0 then p.fail .invalidNumber else next p c rest

def addNumber (p : JsonParser μ) : Bytes → Option (JsonParser μ)
  | [] => some p
  | c :: cs =>
    if (INT64_MAX - digitValue c) / 10 < p.number then none
    else { p with number := p.number * 10 + digitValue c, numConsumed := p.numConsumed + 1 }.addNumber
      cs

/-- "Take into account at most 8 digits" -/
def addFrac (p : JsonParser μ) : Bytes → Option (JsonParser μ)
  | [] => some p
  | c :: cs =>
    { p with
      frac := if p.frac < 100000000 then p.frac * 10 + digitValue c else p.frac,
      numConsumed := p.numConsumed + 1 }.addFrac cs

def addExp (p : JsonParser μ) : Bytes → Option (JsonParser μ)
  | [] => some p
  | c :: cs =>
    if 18 < p.exp * 10 + digitValue c then none
    else { p with exp := p.exp * 10 + digitValue c, numConsumed := p.numConsumed + 1 }.addExp cs

/-- The end of a number; what ends it is read again. -/
def endNumber (p : JsonParser μ) (c : UInt8) (rest : Bytes) : Option (Step μ) := do
  let p ← p.onNumberEnd
  p.go (c :: rest)

/-- A turn in the state `JSON_NUMBER`. -/
def turnNumber (p : JsonParser μ) (data : Bytes) : Option (Step μ) :=
  turnDigits addNumber (fun p c rest =>
    if c = ch '.' then
      { p with frac := 0, numConsumed := 0, currentState := .numberFrac }.go rest
    else if c = ch 'e' ∨ c = ch 'E' then
      { p with expSign := 1, exp := 0, numConsumed := 0, currentState := .numberExpSign }.go rest
    else p.endNumber c rest) p data

/-- A turn in the state `JSON_NUMBER_FRAC`. -/
def turnFrac (p : JsonParser μ) (data : Bytes) : Option (Step μ) :=
  turnDigits addFrac (fun p c rest =>
    if c = ch 'e' ∨ c = ch 'E' then
      { p with exp := 0, numConsumed := 0, currentState := .numberExpSign }.go rest
    else p.endNumber c rest) p data

/-- A turn in the state `JSON_NUMBER_EXP`. -/
def turnExp (p : JsonParser μ) (data : Bytes) : Option (Step μ) := turnDigits addExp endNumber p data

/-- A turn of the loop of `parseUpdate`. -/
def turn (p : JsonParser μ) (c : UInt8) (rest : Bytes) : Option (Step μ) :=
  let ends (x : Option (JsonParser μ)) : Option (Step μ) := x >>= fun p => p.go rest
  match p.currentState with
  | .array =>
    if c = ch ']' then ends p.onArrayEnd
    else if isSpace c then p.go rest
    else
      match p.pushState .array with
      | none => some (.fail p .structureTooDeep)
      | some p => do
        let p ← (p.at_ .value).runBeginCallback .arrayData
        p.turnValue c rest
  | .value => p.turnValue c rest
  | .true => p.turnLiteral (Bencode.name "true") (endBool true) c rest
  | .false => p.turnLiteral (Bencode.name "false") (endBool false) c rest
  | .null => p.turnLiteral (Bencode.name "null") onNullEnd c rest
  | .objectKey =>
    p.turnEither c rest
      (ch '\"') (match p.pushState .objectKey with
        | none => some (.fail p .structureTooDeep)
        | some p => ends ((p.at_ .string).runBeginCallback .dictKey))
      (ch '\x7d') (ends p.onObjectEnd) .unexpectedCharBeforeObjKey
  | .objectVal =>
    if c = ch ':' then
      -- what `pushState` returns is not looked at
      ends ((((p.pushState .objectVal).getD p).at_ .value).runBeginCallback .dictData)
    else if isSpace c then p.go rest
    else p.fail .unexpectedCharBeforeObjVal
  | .objectSep =>
    p.turnEither c rest (ch ',') ((p.at_ .objectKey).go rest)
      (ch '\x7d') (ends p.onObjectEnd) .unexpectedCharBeforeObjSep
  | .arraySep =>
    p.turnEither c rest
      (ch ',') (ends ((((p.pushState .array).getD p).at_ .value).runBeginCallback .arrayData))
      (ch ']') (ends p.onArrayEnd) .unexpectedCharBeforeArraySep
  | .string => p.turnString c rest
  | .stringEscape => p.turnEscape c rest
  | .stringUnicode => p.turnUnicode (c :: rest)
  | .stringLowSurrogateEscape =>
    if c = ch '\\' then (p.at_ .stringLowSurrogateU).go rest else p.fail .invalidUnicodePoint
  | .stringLowSurrogateU =>
    if c = ch 'u' then
      { p with codepoint2 := 0, numConsumed := 0, currentState := .stringLowSurrogate }.go rest
    else p.fail .invalidUnicodePoint
  | .stringLowSurrogate => p.turnLowSurrogate (c :: rest)
  | .number => p.turnNumber (c :: rest)
  | .numberFrac => p.turnFrac (c :: rest)
  | .numberExpSign =>
    if c = ch '+' then (p.at_ .numberExp).go rest
    else if c = ch '-' then { p with expSign := -1, currentState := .numberExp }.go rest
    else (p.at_ .numberExp).turnExp (c :: rest)
  | .numberExp => p.turnExp (c :: rest)
  | .finish | .error => p.go rest

end Machine

/-- A turn that reads nothing leaves one of these states. -/
def rank (p : JsonParser μ) : Nat :=
  match p.currentState with
  | .number | .numberFrac | .numberExpSign | .numberExp => 1
  | _ => 0

theorem rank_le (p : JsonParser μ) : p.rank ≤ 1 := by
  unfold rank
  split <;> decide

section Turns

open Scanner (Uniform Reads)

variable {p : JsonParser μ} {c : UInt8} {rest data : Bytes}

theorem uniform_fail (p : JsonParser μ) (e : JsonError) :
    Uniform fun _ : Bytes => p.fail e := .fail _ e

theorem uniform_ends (x : Option (JsonParser μ)) :
    Uniform fun rest : Bytes => x >>= fun p => p.go rest := .bind x fun p => .go p

theorem uniform_turnLiteral (p : JsonParser μ) (literal : Bytes)
    (onEnd : JsonParser μ → Option (JsonParser μ)) (c : UInt8) :
    Uniform (p.turnLiteral literal onEnd c) :=
  .ite (.ite (uniform_ends _) fun _ => .go _) fun _ => uniform_fail p _

theorem uniform_turnEither (p : JsonParser μ) (c c₁ c₂ : UInt8) {f₁ f₂ : Bytes → Option (Step μ)}
    (h₁ : Uniform f₁) (h₂ : Uniform f₂) (e : JsonError) :
    Uniform fun rest => p.turnEither c rest c₁ (f₁ rest) c₂ (f₂ rest) e :=
  .ite h₁ fun _ => .ite h₂ fun _ => .ite (.go p) fun _ => uniform_fail p e

/-- The turn reads a byte, or leaves the state of a number. -/
def Leaves (x : Option (Step μ)) (data : Bytes) : Prop :=
  ∀ p' rest', x = some (.go p' rest') →
    rest'.length < data.length ∨ rest'.length = data.length ∧ p'.rank = 0

theorem Leaves.of_reads {x : Option (Step μ)} (h : Reads x rest) : Leaves x (c :: rest) :=
  fun p' rest' hx => .inl (Nat.lt_succ_of_le (h p' rest' hx))

theorem Leaves.fail (p : JsonParser μ) (e : JsonError) (data : Bytes) : Leaves (p.fail e) data :=
  fun _ _ h => absurd h Turn.not_fail_eq_go

theorem Leaves.go (p : JsonParser μ) (c : UInt8) (rest : Bytes) :
    Leaves (p.go rest) (c :: rest) := .of_reads ((Uniform.go p).reads rest)

theorem Leaves.ite {b : Prop} [Decidable b] {x y : Option (Step μ)} (hx : Leaves x data)
    (hy : Leaves y data) : Leaves (if b then x else y) data := by
  split
  · exact hx
  · exact hy

theorem leaves_turnDigits {add : JsonParser μ → Bytes → Option (JsonParser μ)}
    {next : JsonParser μ → UInt8 → Bytes → Option (Step μ)}
    (hnext : ∀ p c rest, Leaves (next p c rest) (c :: rest)) :
    Leaves (turnDigits add next p (c :: rest)) (c :: rest) := by
  intro p' rest' h
  have hle := (List.dropWhile_sublist isDigit (l := c :: rest)).length_le
  unfold turnDigits at h
  split at h
  · exact absurd h Turn.not_fail_eq_go
  · split at h
    · cases h
      exact .inl (Nat.zero_lt_succ _)
    next c' rest₁ hdrop =>
      rw [hdrop] at hle
      rcases Leaves.ite (.fail _ _ _) (hnext _ c' rest₁) p' rest' h with hlt | ⟨heq, hrank⟩
      · exact .inl (by omega)
      · rcases Nat.lt_or_eq_of_le hle with hlt | heq'
        · exact .inl (by omega)
        · exact .inr ⟨by omega, hrank⟩

variable [StructParserStateMachine μ]

theorem rank_onValueEnd {p p' : JsonParser μ} (h : p.onValueEnd = some p') : p'.rank = 0 := by
  unfold onValueEnd at h
  split at h
  · cases h; rfl
  · obtain ⟨q, -, rfl⟩ := Option.map_eq_some_iff.mp h; rfl
  · obtain ⟨q, -, rfl⟩ := Option.map_eq_some_iff.mp h; rfl
  · cases h; rfl
  · exact nomatch h

theorem rank_onNumberEnd {p p' : JsonParser μ} (h : p.onNumberEnd = some p') : p'.rank = 0 := by
  obtain ⟨q, -, h⟩ := Option.bind_eq_some_iff.mp h
  exact rank_onValueEnd h

theorem uniform_turnValue (p : JsonParser μ) (c : UInt8) : Uniform (p.turnValue c) :=
  .ite (uniform_ends _) fun _ => .ite (uniform_ends _) fun _ => .ite (uniform_ends _) fun _ =>
    .ite (uniform_ends _) fun _ => .ite (uniform_ends _) fun _ => .ite (uniform_ends _) fun _ =>
      .ite (uniform_ends _) fun _ => .ite (uniform_ends _) fun _ => .ite (.go p) fun _ =>
        uniform_fail p _

theorem uniform_turnEscape (p : JsonParser μ) (c : UInt8) : Uniform (p.turnEscape c) :=
  .ite (.go _) fun _ => .go _

/-- The states whose turn looks at one byte. -/
def OneByte (p : JsonParser μ) : Prop :=
  match p.currentState with
  | .string | .stringUnicode | .stringLowSurrogate | .number | .numberFrac | .numberExpSign
  | .numberExp => False
  | _ => True

theorem uniform_turn (h : p.OneByte) (c : UInt8) : Uniform (p.turn c) := by
  unfold OneByte at h
  cases hs : p.currentState <;> simp only [hs] at h <;> unfold turn <;> simp only [hs]
  case value => exact uniform_turnValue p c
  case objectKey =>
    refine uniform_turnEither p c _ _ ?_ (uniform_ends _) _
    cases p.pushState .objectKey with
    | none => exact .fail p _
    | some p => exact uniform_ends _
  case objectVal =>
    exact .ite (uniform_ends _) fun _ => .ite (.go p) fun _ => uniform_fail p _
  case objectSep => exact uniform_turnEither p c _ _ (.go _) (uniform_ends _) _
  case array =>
    refine .ite (uniform_ends _) fun _ => .ite (.go p) fun _ => ?_
    cases p.pushState .array with
    | none => exact .fail p _
    | some p => exact .bind _ fun p => uniform_turnValue p c
  case arraySep => exact uniform_turnEither p c _ _ (uniform_ends _) (uniform_ends _) _
  case stringEscape => exact uniform_turnEscape p c
  case stringLowSurrogateEscape => exact .ite (.go _) fun _ => uniform_fail p _
  case stringLowSurrogateU => exact .ite (.go _) fun _ => uniform_fail p _
  case true | false | null => exact uniform_turnLiteral p _ _ c
  case finish | error => exact .go p

theorem reads_turnString : Reads (p.turnString c rest) rest := by
  unfold turnString
  split
  · exact (uniform_ends _).reads rest
  · split
    · exact (Uniform.go _).reads rest
    next hquote hslash =>
      rintro p' rest' ⟨⟩
      rw [List.dropWhile_cons_of_pos (by simp [plain, hquote, hslash])]
      exact (List.dropWhile_sublist _).length_le

theorem length_turnUnicode {p' : JsonParser μ} {rest' : Bytes}
    (h : p.turnUnicode data = some (.go p' rest')) : rest'.length ≤ data.length := by
  induction data generalizing p with
  | nil => cases h; exact le_rfl
  | cons c data ih =>
    unfold turnUnicode at h
    split at h
    · cases h; exact le_rfl
    · split at h
      · exact Nat.le_succ_of_le (ih h)
      · exact absurd h Turn.not_fail_eq_go

theorem length_turnLowSurrogate {p' : JsonParser μ} {rest' : Bytes}
    (h : p.turnLowSurrogate data = some (.go p' rest')) : rest'.length ≤ data.length := by
  induction data generalizing p with
  | nil => cases h; exact le_rfl
  | cons c data ih =>
    unfold turnLowSurrogate at h
    split at h
    · cases h; exact le_rfl
    · split at h
      · split at h
        · exact Nat.le_succ_of_le (ih h)
        · exact absurd h Turn.not_fail_eq_go
      · exact absurd h Turn.not_fail_eq_go

theorem reads_turnUnicode (h : p.currentState = .stringUnicode) :
    Reads (p.turnUnicode (c :: rest)) rest := by
  intro p' rest' hturn
  rw [turnUnicode, if_neg (not_not_intro h)] at hturn
  split at hturn
  · exact length_turnUnicode hturn
  · exact absurd hturn Turn.not_fail_eq_go

theorem reads_turnLowSurrogate (h : p.currentState = .stringLowSurrogate) :
    Reads (p.turnLowSurrogate (c :: rest)) rest := by
  intro p' rest' hturn
  rw [turnLowSurrogate, if_neg (not_not_intro h)] at hturn
  split at hturn
  · split at hturn
    · exact length_turnLowSurrogate hturn
    · exact absurd hturn Turn.not_fail_eq_go
  · exact absurd hturn Turn.not_fail_eq_go

theorem leaves_endNumber (p : JsonParser μ) (c : UInt8) (rest : Bytes) :
    Leaves (p.endNumber c rest) (c :: rest) := by
  intro p' rest' h
  obtain ⟨q, hq, ⟨⟩⟩ := Option.bind_eq_some_iff.mp h
  exact .inr ⟨rfl, rank_onNumberEnd hq⟩

theorem leaves_turnNumber : Leaves (p.turnNumber (c :: rest)) (c :: rest) :=
  leaves_turnDigits fun p c rest =>
    .ite (.go _ c rest) (.ite (.go _ c rest) (leaves_endNumber p c rest))

theorem leaves_turnFrac : Leaves (p.turnFrac (c :: rest)) (c :: rest) :=
  leaves_turnDigits fun p c rest => .ite (.go _ c rest) (leaves_endNumber p c rest)

theorem leaves_turnExp : Leaves (p.turnExp (c :: rest)) (c :: rest) :=
  leaves_turnDigits leaves_endNumber

theorem leaves_turn : Leaves (p.turn c rest) (c :: rest) := by
  by_cases h : p.OneByte
  · exact .of_reads ((uniform_turn h c).reads rest)
  · unfold OneByte at h
    unfold turn
    dsimp only
    split at h
    next hs => rw [hs]; exact .of_reads reads_turnString
    next hs => rw [hs]; exact .of_reads (reads_turnUnicode hs)
    next hs => rw [hs]; exact .of_reads (reads_turnLowSurrogate hs)
    next hs => rw [hs]; exact leaves_turnNumber
    next hs => rw [hs]; exact leaves_turnFrac
    next hs => rw [hs]; exact .ite (.go _ c rest) (.ite (.go _ c rest) leaves_turnExp)
    next hs => rw [hs]; exact leaves_turnExp
    next => exact absurd trivial h

/-- A turn that starts outside the numbers reads a byte. -/
theorem reads_turn (h : p.rank = 0) : Reads (p.turn c rest) rest := by
  by_cases hone : p.OneByte
  · exact (uniform_turn hone c).reads rest
  · unfold OneByte at hone
    unfold turn
    dsimp only
    split at hone
    next hs => rw [hs]; exact reads_turnString
    next hs => rw [hs]; exact reads_turnUnicode hs
    next hs => rw [hs]; exact reads_turnLowSurrogate hs
    next hs => simp [rank, hs] at h
    next hs => simp [rank, hs] at h
    next hs => simp [rank, hs] at h
    next hs => simp [rank, hs] at h
    next => exact absurd trivial hone

end Turns

variable [StructParserStateMachine μ]

/-- The loop of `parseUpdate`. -/
def scanner : Scanner (JsonParser μ) UInt8 JsonError where
  finished p := p.currentState = .finish
  turn
  rank
  decreases {p c rest p' rest'} h := by
    by_cases hp : p.rank = 0
    · have := reads_turn hp p' rest' h
      have := p'.rank_le
      omega
    · have := p'.rank_le
      rcases leaves_turn p' rest' h with hlt | ⟨heq, hrank⟩
      · rw [List.length_cons] at hlt
        omega
      · rw [List.length_cons] at heq
        omega

/-- `JsonParser::parseUpdate`. -/
def parseUpdate (p : JsonParser μ) (data : Bytes) : Option (Except JsonError Nat × JsonParser μ) :=
  match p.currentState, p.lastError with
  | .error, some e => some (.error e, p)
  | _, _ =>
    match scanner.run p data with
    | some (.go p rest) => some (.ok (data.length - rest.length), p)
    | some (.fail p e) => some (.error e, p)
    | none => none

/-- `JsonParser::parseFinal`. -/
def parseFinal (p : JsonParser μ) (data : Bytes) : Option (Except JsonError Nat × JsonParser μ) :=
  match p.parseUpdate data with
  | some (.ok n, p) =>
    some (if p.currentState ≠ .finish then .error .prematureData else .ok n, p)
  | x => x

end JsonParser

end Parser

end FluxCore.Json
