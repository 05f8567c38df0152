import FluxCore.Json.JsonParser

/-!
# Bencode and its parser

`bencode2::encode` writes a value. `BencodeParser` reads one byte after another and tells the state
machine what it finds, as the parser of JSON does; digits and the bytes of a string are taken as far
as they have come.
-/

namespace FluxCore.Bencode

open Utp (Bytes)
open Json (ch decimal encodeInteger)
open Util (isDigit)
open Struct (StateMachine ElementType StructParserStateMachine)

section Encode

def encodeString (s : Bytes) : Bytes := decimal s.length ++ ch ':' :: s

mutual

/-- `bencode2::encode`. -/
def encode : ValueBase → Bytes
  | .string s => encodeString s
  | .integer i => ch 'i' :: encodeInteger i ++ [ch 'e']
  | .bool _ | .null => []
  | .list l => ch 'l' :: encodeElements l ++ [ch 'e']
  | .dict d => ch 'd' :: encodeMembers d ++ [ch 'e']

def encodeElements : List ValueBase → Bytes
  | [] => []
  | v :: vs => encode v ++ encodeElements vs

def encodeMembers : List (Bytes × ValueBase) → Bytes
  | [] => []
  | (key, v) :: d => encodeString key ++ encode v ++ encodeMembers d

end

end Encode

section Parser

inductive State where
  | finish
  | error
  | initial
  | value
  | dictKey
  | dictVal
  | list
  | stringLen
  | string
  | numberSign
  | number
  | floatNumberIgnore
  deriving DecidableEq, Repr

inductive BencodeError where
  | unexpectedCharBeforeVal
  | invalidNumber
  | numberOutOfRange
  | prematureData
  | structureTooDeep
  | invalidStringLength
  | stringLengthOutOfRange
  | invalidFloatNumber
  deriving DecidableEq, Repr

/-- `BencodeParser` over a state machine of type `μ`. -/
structure BencodeParser (μ : Type) where
  psm : μ
  stateStack : List State := [.finish]
  currentState : State := .initial
  strLength : Nat := 0
  numberSign : Int := 1
  number : Nat := 0
  numConsumed : Nat := 0
  lastError : Option BencodeError := none

namespace BencodeParser

variable {μ : Type}

/-- What a turn of the loop of `parseUpdate` gives. -/
abbrev Step (μ : Type) := Turn (BencodeParser μ) UInt8 BencodeError

abbrev go (p : BencodeParser μ) (rest : Bytes) : Option (Step μ) := some (.go p rest)

/-- `currentState_ = BENCODE_ERROR; return lastError_ = e`. -/
def fail (p : BencodeParser μ) (e : BencodeError) : Option (Step μ) :=
  some (.fail { p with currentState := .error, lastError := some e } e)

def at_ (p : BencodeParser μ) (s : State) : BencodeParser μ := { p with currentState := s }

/-- `pushState`; `none` stands for `ERR_STRUCTURE_TOO_DEEP`. -/
def pushState (p : BencodeParser μ) (s : State) : Option (BencodeParser μ) :=
  if 50 ≤ p.stateStack.length then none else some { p with stateStack := s :: p.stateStack }

def popState (p : BencodeParser μ) : BencodeParser μ :=
  { p with stateStack := p.stateStack.tail }

/-- The value of a digit. -/
def digit (c : UInt8) : Nat := c.toNat - (ch '0').toNat

def INT64_MAX : Nat := 2 ^ 63 - 1

/-- The loop over the digits of a length or of a number; `none` where it gets out of range. -/
def readDigits : Nat → Bytes → Option Nat
  | n, [] => some n
  | n, c :: cs =>
    if (INT64_MAX - digit c) / 10 < n then none else readDigits (n * 10 + digit c) cs

/-- What may stand behind the digits of an integer that is a number in scientific notation. -/
def floatChar (c : UInt8) : Bool :=
  isDigit c || c = ch '.' || c = ch 'E' || c = ch '+' || c = ch '-'

section Machine

variable [StructParserStateMachine μ]

def runBeginCallback (p : BencodeParser μ) (e : ElementType) : Option (BencodeParser μ) :=
  (StructParserStateMachine.beginElement p.psm e).map fun psm => { p with psm }

def runEndCallback (p : BencodeParser μ) (e : ElementType) : Option (BencodeParser μ) :=
  (StructParserStateMachine.endElement p.psm e).map fun psm => { p with psm }

def runCharactersCallback (p : BencodeParser μ) (data : Bytes) : BencodeParser μ :=
  { p with psm := StructParserStateMachine.charactersCallback p.psm data }

def onValueEnd (p : BencodeParser μ) : Option (BencodeParser μ) :=
  match p.stateStack with
  | .dictKey :: _ =>
    -- what `pushState` returns is not looked at
    (((p.popState.pushState .dictVal).getD p.popState).at_ .value).runBeginCallback .dictData
  | .dictVal :: _ => (p.runEndCallback .dictData).map fun p => p.popState.at_ .dictKey
  | .list :: _ => (p.runEndCallback .arrayData).map fun p => p.popState.at_ .list
  | .finish :: _ => some (p.at_ .finish)
  | _ => none

def onStringEnd (p : BencodeParser μ) : Option (BencodeParser μ) := do
  let p ← p.runEndCallback (if p.stateStack.head? = some .dictKey then .dictKey else .string)
  p.onValueEnd

def onNumberEnd (p : BencodeParser μ) : Option (BencodeParser μ) := do
  let p := { p with
    psm := StructParserStateMachine.numberCallback p.psm (p.numberSign * p.number) 0 0 }
  let p ← p.runEndCallback .number
  p.onValueEnd

def onDictEnd (p : BencodeParser μ) : Option (BencodeParser μ) := do
  let p ← p.runEndCallback .dict
  p.onValueEnd

def onListEnd (p : BencodeParser μ) : Option (BencodeParser μ) := do
  let p ← p.runEndCallback .array
  p.onValueEnd

/-- A turn in the states `BENCODE_INITIAL` and `BENCODE_VALUE`. -/
def turnValue (p : BencodeParser μ) (c : UInt8) (rest : Bytes) : Option (Step μ) :=
  let begins (p : BencodeParser μ) (s : State) (e : ElementType) : Option (Step μ) := do
    let p ← (p.at_ s).runBeginCallback e
    p.go rest
  if c = ch 'd' then begins p .dictKey .dict
  else if c = ch 'l' then begins p .list .array
  else if c = ch 'i' then
    begins { p with number := 0, numberSign := 1, numConsumed := 0 } .numberSign .number
  else if isDigit c then begins { p with strLength := digit c, numConsumed := 1 } .stringLen .string
  else p.fail .unexpectedCharBeforeVal

/-- A turn in the state `BENCODE_STRING_LEN`. -/
def turnStringLen (p : BencodeParser μ) (data : Bytes) : Option (Step μ) :=
  let digits := data.takeWhile isDigit
  match readDigits p.strLength digits with
  | none => p.fail .stringLengthOutOfRange
  | some n =>
    let p := { p with strLength := n, numConsumed := p.numConsumed + digits.length }
    match data.dropWhile isDigit with
    | [] => p.go []
    | c :: rest =>
      if c ≠ ch ':' ∨ p.numConsumed = 0 then p.fail .invalidStringLength
      else if p.strLength = 0 then do
        let p ← ((p.at_ .string).runCharactersCallback []).onStringEnd
        p.go rest
      else (p.at_ .string).go rest

/-- A turn in the state `BENCODE_STRING`. -/
def turnString (p : BencodeParser μ) (data : Bytes) : Option (Step μ) :=
  let nread := min data.length p.strLength
  let p : BencodeParser μ :=
    { p.runCharactersCallback (data.take nread) with strLength := p.strLength - nread }
  if p.strLength = 0 then do
    let p ← p.onStringEnd
    p.go (data.drop nread)
  else p.go (data.drop nread)

/-- A turn in the state `BENCODE_NUMBER_SIGN`. -/
def turnSign (p : BencodeParser μ) (c : UInt8) (rest : Bytes) : Option (Step μ) :=
  if c = ch '+' then { p with numberSign := 1, currentState := .number }.go rest
  else if c = ch '-' then { p with numberSign := -1, currentState := .number }.go rest
  else if isDigit c then
    { p with number := digit c, numConsumed := 1, currentState := .number }.go rest
  -- any other byte is passed over
  else p.go rest

/-- A turn in the state `BENCODE_NUMBER`. -/
def turnNumber (p : BencodeParser μ) (data : Bytes) : Option (Step μ) :=
  let digits := data.takeWhile isDigit
  match readDigits p.number digits with
  | none => p.fail .numberOutOfRange
  | some n =>
    let p := { p with number := n, numConsumed := p.numConsumed + digits.length }
    match data.dropWhile isDigit with
    | [] => p.go []
    | c :: rest =>
      if p.numConsumed = 0 then p.fail .invalidNumber
      else if floatChar c then
        { p with number := 0, numConsumed := 0, currentState := .floatNumberIgnore }.go rest
      else if c ≠ ch 'e' then p.fail .invalidNumber
      else do
        let p ← p.onNumberEnd
        p.go rest

/-- A turn in the state `BENCODE_FLOAT_NUMBER_IGNORE`. -/
def turnFloat (p : BencodeParser μ) (c : UInt8) (rest : Bytes) : Option (Step μ) :=
  if floatChar c then p.go rest
  else if c ≠ ch 'e' then p.fail .invalidFloatNumber
  else do
    let p ← p.onNumberEnd
    p.go rest

/-- A turn of the loop of `parseUpdate`. -/
def turn (p : BencodeParser μ) (c : UInt8) (rest : Bytes) : Option (Step μ) :=
  let ends (x : Option (BencodeParser μ)) : Option (Step μ) := x >>= fun p => p.go rest
  match p.currentState with
  | .list =>
    if c = ch 'e' then ends p.onListEnd
    else
      match p.pushState .list with
      | none => some (.fail p .structureTooDeep)
      | some p => do
        let p ← (p.at_ .value).runBeginCallback .arrayData
        p.turnValue c rest
  | .initial | .value => p.turnValue c rest
  | .dictKey =>
    if c = ch 'e' then ends p.onDictEnd
    else
      match p.pushState .dictKey with
      | none => some (.fail p .structureTooDeep)
      | some p => do
        let p ← { p with strLength := 0, numConsumed := 0 }.runBeginCallback .dictKey
        (p.at_ .stringLen).turnStringLen (c :: rest)
  | .stringLen => p.turnStringLen (c :: rest)
  | .string => p.turnString (c :: rest)
  | .numberSign => p.turnSign c rest
  | .number => p.turnNumber (c :: rest)
  | .floatNumberIgnore => p.turnFloat c rest
  | .dictVal | .finish | .error => p.go rest

end Machine

/-- The state of a string reads nothing where the string has come to its end. -/
def rank (p : BencodeParser μ) : Nat := if p.currentState = .string then 1 else 0

theorem rank_le (p : BencodeParser μ) : p.rank ≤ 1 := by
  unfold rank
  split <;> decide

section Turns

open Scanner (Uniform Reads)

variable {p : BencodeParser μ} {c : UInt8} {rest data : Bytes}

theorem uniform_fail (p : BencodeParser μ) (e : BencodeError) :
    Uniform fun _ : Bytes => p.fail e := .fail _ e

theorem uniform_ends (x : Option (BencodeParser μ)) :
    Uniform fun rest : Bytes => x >>= fun p => p.go rest := .bind x fun p => .go p

variable [StructParserStateMachine μ]

theorem uniform_turnValue (p : BencodeParser μ) (c : UInt8) : Uniform (p.turnValue c) :=
  .ite (uniform_ends _) fun _ => .ite (uniform_ends _) fun _ => .ite (uniform_ends _) fun _ =>
    .ite (uniform_ends _) fun _ => uniform_fail p _

/-- The states whose turn looks at one byte. -/
def OneByte (p : BencodeParser μ) : Prop :=
  match p.currentState with
  | .dictKey | .stringLen | .string | .number => False
  | _ => True

theorem uniform_turn (h : p.OneByte) (c : UInt8) : Uniform (p.turn c) := by
  unfold OneByte at h
  cases hs : p.currentState <;> simp only [hs] at h <;> unfold turn <;> simp only [hs]
  case list =>
    refine .ite (uniform_ends _) fun _ => ?_
    cases p.pushState .list with
    | none => exact .fail p _
    | some p => exact .bind _ fun p => uniform_turnValue p c
  case initial | value => exact uniform_turnValue p c
  case numberSign => exact .ite (.go _) fun _ => .ite (.go _) fun _ => .ite (.go _) fun _ => .go p
  case floatNumberIgnore =>
    exact .ite (.go p) fun _ => .ite (uniform_fail p _) fun _ => uniform_ends _
  case dictVal | finish | error => exact .go p

/-- What comes behind the digits is behind them. -/
theorem length_of_dropWhile {c' : UInt8} (h : (c :: data).dropWhile isDigit = c' :: rest) :
    rest.length ≤ data.length := by
  have hle := (List.dropWhile_sublist isDigit (l := c :: data)).length_le
  rw [h] at hle
  exact Nat.le_of_succ_le_succ hle

theorem reads_turnStringLen : Reads (p.turnStringLen (c :: data)) data := by
  intro p' rest' h
  unfold turnStringLen at h
  dsimp only at h
  split at h
  · exact absurd h Turn.not_fail_eq_go
  · split at h
    · cases h
      exact Nat.zero_le _
    next c' rest hdrop =>
      refine Nat.le_trans ?_ (length_of_dropWhile hdrop)
      split at h
      · exact absurd h Turn.not_fail_eq_go
      · split at h
        · exact (uniform_ends _).reads _ _ _ h
        · cases h
          exact Nat.le_refl _

theorem reads_turnNumber : Reads (p.turnNumber (c :: data)) data := by
  intro p' rest' h
  unfold turnNumber at h
  dsimp only at h
  split at h
  · exact absurd h Turn.not_fail_eq_go
  · split at h
    · cases h
      exact Nat.zero_le _
    next c' rest hdrop =>
      refine Nat.le_trans ?_ (length_of_dropWhile hdrop)
      split at h
      · exact absurd h Turn.not_fail_eq_go
      · split at h
        · cases h
          exact Nat.le_refl _
        · split at h
          · exact absurd h Turn.not_fail_eq_go
          · exact (uniform_ends _).reads _ _ _ h

theorem rank_onValueEnd {p' : BencodeParser μ} (h : p.onValueEnd = some p') : p'.rank = 0 := by
  unfold onValueEnd at h
  split at h
  · obtain ⟨psm, -, rfl⟩ := Option.map_eq_some_iff.mp h
    rfl
  · obtain ⟨q, -, rfl⟩ := Option.map_eq_some_iff.mp h
    rfl
  · obtain ⟨q, -, rfl⟩ := Option.map_eq_some_iff.mp h
    rfl
  · cases h
    rfl
  · exact nomatch h

theorem reads_turnString {p' : BencodeParser μ} {rest' : Bytes}
    (h : p.turnString (c :: data) = some (.go p' rest')) : rest'.length ≤ data.length ∨
      rest'.length ≤ data.length + 1 ∧ p'.rank = 0 := by
  unfold turnString at h
  dsimp only at h
  split at h
  · obtain ⟨q, hq, ⟨⟩⟩ := Option.bind_eq_some_iff.mp h
    obtain ⟨q', -, hq⟩ := Option.bind_eq_some_iff.mp hq
    refine .inr ⟨?_, rank_onValueEnd hq⟩
    rw [List.length_drop, List.length_cons]
    omega
  next hne =>
    cases h
    left
    change p.strLength - min (data.length + 1) p.strLength ≠ 0 at hne
    rw [List.length_drop, List.length_cons]
    omega

theorem reads_turn {p' : BencodeParser μ} {rest' : Bytes} (h : p.turn c rest = some (.go p' rest')) :
    rest'.length ≤ rest.length ∨
      p.currentState = .string ∧ rest'.length ≤ rest.length + 1 ∧ p'.rank = 0 := by
  by_cases hone : p.OneByte
  · exact .inl ((uniform_turn hone c).reads rest p' rest' h)
  · unfold OneByte at hone
    unfold turn at h
    dsimp only at h
    split at hone
    next hs =>
      rw [hs] at h
      dsimp only at h
      left
      split at h
      · exact (uniform_ends _).reads _ _ _ h
      · split at h
        · exact absurd h Turn.not_fail_eq_go
        · obtain ⟨q, -, h⟩ := Option.bind_eq_some_iff.mp h
          exact reads_turnStringLen _ _ h
    next hs =>
      rw [hs] at h
      exact .inl (reads_turnStringLen _ _ h)
    next hs =>
      rw [hs] at h
      exact (reads_turnString h).imp id fun h => ⟨hs, h⟩
    next hs =>
      rw [hs] at h
      exact .inl (reads_turnNumber _ _ h)
    next => exact absurd trivial hone

end Turns

variable [StructParserStateMachine μ]

/-- The loop of `parseUpdate`. -/
def scanner : Scanner (BencodeParser μ) UInt8 BencodeError where
  finished p := p.currentState = .finish
  turn
  rank
  decreases {p c rest p' rest'} h := by
    have := p'.rank_le
    rcases reads_turn h with hle | ⟨hs, hle, hrank⟩
    · omega
    · have : p.rank = 1 := if_pos hs
      omega

/-- `BencodeParser::parseUpdate`. -/
def parseUpdate (p : BencodeParser μ) (data : Bytes) :
    Option (Except BencodeError Nat × BencodeParser μ) :=
  match p.currentState, p.lastError with
  | .finish, _ => some (.ok 0, p)
  | .error, some e => some (.error e, p)
  | _, _ =>
    match scanner.run p data with
    | some (.go p rest) => some (.ok (data.length - rest.length), p)
    | some (.fail p e) => some (.error e, p)
    | none => none

/-- `BencodeParser::parseFinal`. -/
def parseFinal (p : BencodeParser μ) (data : Bytes) :
    Option (Except BencodeError Nat × BencodeParser μ) :=
  match p.parseUpdate data with
  | some (.ok n, p) =>
    some (if p.currentState ≠ .finish ∧ p.currentState ≠ .initial then .error .prematureData
      else .ok n, p)
  | x => x

end BencodeParser

/-- `ValueBaseBencodeParser::parseFinal` of a new parser, which `bencode2::decode` calls: the number
of bytes read, and the value. -/
def decode (data : Bytes) : Option (Except BencodeError (Nat × Option ValueBase)) := do
  let (error, p) ← BencodeParser.parseFinal { psm := StateMachine.new true } data
  match error with
  | .error e => pure (.error e)
  | .ok n => pure (.ok (n, p.psm.getResult))

end Parser

end FluxCore.Bencode
