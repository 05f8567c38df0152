import FluxCore.Bencode.Value

/-!
# Values put together from the callbacks of a parser

The parsers of bencode and of JSON report what they find to a `StructParserStateMachine`. The one
that builds values keeps a stack of states, which tells it what a callback means, and a controller
with a stack of frames, each a value under construction and the name it goes by in the dictionary
around it. The other machine here is a log of the callbacks.
-/

namespace FluxCore.Struct

open Utp (Bytes)
open Bencode (ValueBase)

/-- `StructElementType`. -/
inductive ElementType where
  | dict
  | dictKey
  | dictData
  | array
  | arrayData
  | string
  | number
  | bool
  | null
  deriving DecidableEq, Repr

/-- `StructParserStateMachine`: what a parser calls; `none` is a failed assertion. -/
class StructParserStateMachine (μ : Type) where
  beginElement : μ → ElementType → Option μ
  endElement : μ → ElementType → Option μ
  charactersCallback : μ → Bytes → μ
  numberCallback : μ → Int → Int → Int → μ
  boolCallback : μ → Bool → μ

/-- It makes no difference in how many pieces the characters come. -/
class LawfulStateMachine (μ : Type) [StructParserStateMachine μ] : Prop where
  characters_append : ∀ (m : μ) (data data' : Bytes),
    StructParserStateMachine.charactersCallback
      (StructParserStateMachine.charactersCallback m data) data' =
    StructParserStateMachine.charactersCallback m (data ++ data')

section Controller

structure StateFrame where
  value : Option ValueBase := none
  name : Bytes := []

/-- `StateFrame::validMember`: the name under which the value is put, and the value. -/
def StateFrame.validMember (f : StateFrame) (allowEmptyMemberName : Bool) :
    Option (Bytes × ValueBase) := do
  let v ← f.value
  if allowEmptyMemberName || f.name ≠ [] then some (f.name, v) else none

/-- `XmlRpcRequestParserController`. -/
structure Controller where
  frameStack : List StateFrame := []
  currentFrame : StateFrame := {}
  allowEmptyMemberName : Bool

namespace Controller

def pushFrame (c : Controller) : Controller :=
  { c with frameStack := c.currentFrame :: c.frameStack, currentFrame := {} }

/-- The value of the current frame becomes a member of the dictionary in the frame below; `none` is
a failed assertion. -/
def popStructFrame (c : Controller) : Option Controller :=
  match c.frameStack with
  | ⟨some (.dict d), name⟩ :: frames =>
    let d := match c.currentFrame.validMember c.allowEmptyMemberName with
      | some (key, v) => Bencode.Dict.put d key v
      | none => d
    some { c with frameStack := frames, currentFrame := ⟨some (.dict d), name⟩ }
  | _ => none

/-- The value of the current frame is appended to the list in the frame below. -/
def popArrayFrame (c : Controller) : Option Controller :=
  match c.frameStack with
  | ⟨some (.list l), name⟩ :: frames =>
    some { c with
      frameStack := frames, currentFrame := ⟨some (.list (l ++ c.currentFrame.value.toList)), name⟩ }
  | _ => none

def setCurrentFrameValue (c : Controller) (v : ValueBase) : Controller :=
  { c with currentFrame.value := some v }

def setCurrentFrameName (c : Controller) (name : Bytes) : Controller :=
  { c with currentFrame.name := name }

theorem popArrayFrame_pushFrame {c : Controller} {l : List ValueBase}
    (h : c.currentFrame.value = some (.list l)) (v : ValueBase) :
    (c.pushFrame.setCurrentFrameValue v).popArrayFrame =
      some (c.setCurrentFrameValue (.list (l ++ [v]))) := by
  obtain ⟨frames, ⟨value, name⟩, allow⟩ := c
  cases h
  rfl

theorem popStructFrame_pushFrame {c : Controller} {d : Bencode.Dict} {key : Bytes}
    (h : c.currentFrame.value = some (.dict d)) (hkey : c.allowEmptyMemberName = true ∨ key ≠ [])
    (v : ValueBase) :
    ((c.pushFrame.setCurrentFrameName key).setCurrentFrameValue v).popStructFrame =
      some (c.setCurrentFrameValue (.dict (Bencode.Dict.put d key v))) := by
  obtain ⟨frames, ⟨value, name⟩, allow⟩ := c
  cases h
  have hvalid : StateFrame.validMember ⟨some v, key⟩ allow = some (key, v) := by
    rcases hkey with hkey | hkey <;> simp_all [StateFrame.validMember]
  simp only [popStructFrame, pushFrame, setCurrentFrameName, setCurrentFrameValue, hvalid]

end Controller

end Controller

/-- The states, by the names of their classes. -/
inductive State where
  | value
  | dict
  | dictKey
  | dictData
  | array
  | arrayData
  | string
  | number
  | bool
  | null
  deriving DecidableEq, Repr

structure NumberData where
  number : Int
  frac : Int
  exp : Int
  deriving DecidableEq, Repr

structure SessionData where
  str : Bytes := []
  number : NumberData := ⟨0, 0, 0⟩
  bval : Bool := false
  deriving DecidableEq, Repr

/-- `ValueBaseStructParserStateMachine`. -/
structure StateMachine where
  ctrl : Controller
  stateStack : List State := [.value]
  sessionData : SessionData := {}

namespace StateMachine

def new (allowEmptyMemberName : Bool) : StateMachine := { ctrl := { allowEmptyMemberName } }

def pushState (m : StateMachine) (s : State) : StateMachine :=
  { m with stateStack := s :: m.stateStack }

def setCurrentFrameValue (m : StateMachine) (v : ValueBase) : StateMachine :=
  { m with ctrl := m.ctrl.setCurrentFrameValue v }

/-- `ValueValueBaseStructParserState::beginElement`, which the states of members and of elements
inherit. -/
def beginValue (m : StateMachine) : ElementType → Option StateMachine
  | .dict => some ((m.setCurrentFrameValue (.dict [])).pushState .dict)
  | .array => some ((m.setCurrentFrameValue (.list [])).pushState .array)
  | .string => some ({ m with sessionData.str := [] }.pushState .string)
  | .number => some ({ m with sessionData.number := ⟨0, 0, 0⟩ }.pushState .number)
  | .bool => some ({ m with sessionData.bval := false }.pushState .bool)
  | .null => some (m.pushState .null)
  | _ => none

def beginElement (m : StateMachine) (e : ElementType) : Option StateMachine :=
  match m.stateStack with
  | .value :: _ | .dictData :: _ | .arrayData :: _ => m.beginValue e
  | .dict :: _ =>
    match e with
    | .dictKey =>
      some ({ m with ctrl := m.ctrl.pushFrame, sessionData.str := [] }.pushState .dictKey)
    | .dictData => some (m.pushState .dictData)
    | _ => none
  | .array :: _ =>
    match e with
    | .arrayData => some ({ m with ctrl := m.ctrl.pushFrame }.pushState .arrayData)
    | _ => none
  | _ :: _ => some m
  | [] => none

/-- `endElement` of a state. -/
def endState (m : StateMachine) : State → Option StateMachine
  | .value | .dict | .array => some m
  | .dictKey => some { m with ctrl := m.ctrl.setCurrentFrameName m.sessionData.str }
  | .dictData => m.ctrl.popStructFrame.map fun c => { m with ctrl := c }
  | .arrayData => m.ctrl.popArrayFrame.map fun c => { m with ctrl := c }
  | .string => some (m.setCurrentFrameValue (.string m.sessionData.str))
  -- TODO Ignore frac and exp
  | .number => some (m.setCurrentFrameValue (.integer m.sessionData.number.number))
  | .bool => some (m.setCurrentFrameValue (.bool m.sessionData.bval))
  | .null => some (m.setCurrentFrameValue .null)

def endElement (m : StateMachine) (_ : ElementType) : Option StateMachine :=
  match m.stateStack with
  | [] => none
  | s :: states => (m.endState s).map fun m => { m with stateStack := states }

def charactersCallback (m : StateMachine) (data : Bytes) : StateMachine :=
  { m with sessionData.str := m.sessionData.str ++ data }

def numberCallback (m : StateMachine) (number frac exp : Int) : StateMachine :=
  { m with sessionData.number := ⟨number, frac, exp⟩ }

def boolCallback (m : StateMachine) (bval : Bool) : StateMachine :=
  { m with sessionData.bval := bval }

def getResult (m : StateMachine) : Option ValueBase := m.ctrl.currentFrame.value

instance : StructParserStateMachine StateMachine where
  beginElement
  endElement
  charactersCallback
  numberCallback
  boolCallback

instance : LawfulStateMachine StateMachine where
  characters_append m data data' := by
    simp only [StructParserStateMachine.charactersCallback, charactersCallback, List.append_assoc]

end StateMachine

section Callbacks

inductive Callback where
  | beginElement (e : ElementType)
  | endElement (e : ElementType)
  | characters (data : Bytes)
  | number (number frac exp : Int)
  | bool (bval : Bool)
  deriving DecidableEq, Repr

/-- The callbacks made, the last one first; the pieces of characters are put together. -/
structure Callbacks where
  made : List Callback := []
  deriving DecidableEq, Repr

namespace Callbacks

def add (l : Callbacks) (c : Callback) : Callbacks := ⟨c :: l.made⟩

def addCharacters (l : Callbacks) (data : Bytes) : Callbacks :=
  match l.made with
  | .characters s :: made => ⟨.characters (s ++ data) :: made⟩
  | made => ⟨.characters data :: made⟩

instance : StructParserStateMachine Callbacks where
  beginElement l e := some (l.add (.beginElement e))
  endElement l e := some (l.add (.endElement e))
  charactersCallback := addCharacters
  numberCallback l number frac exp := l.add (.number number frac exp)
  boolCallback l bval := l.add (.bool bval)

instance : LawfulStateMachine Callbacks where
  characters_append l data data' := by
    rcases l with ⟨_ | ⟨⟨⟩, made⟩⟩ <;>
      simp only [StructParserStateMachine.charactersCallback, addCharacters, List.append_assoc]

/-- The elements that have begun and not ended, the last one first; `none` where one ends that is
not the last to have begun. -/
def openElements : List Callback → Option (List ElementType)
  | [] => some []
  | .beginElement e :: made => (openElements made).map (e :: ·)
  | .endElement e :: made => do
    match ← openElements made with
    | e' :: es => if e = e' then some es else none
    | [] => none
  | _ :: made => openElements made

theorem openElements_endElement {e : ElementType} {es : List ElementType} {made : List Callback}
    (h : openElements made = some (e :: es)) :
    openElements (.endElement e :: made) = some es := by
  rw [openElements, h]
  exact if_pos rfl

end Callbacks

end Callbacks

section Both

variable {μ ν : Type} [StructParserStateMachine μ] [StructParserStateMachine ν]

/-- Two machines that a parser calls both. -/
instance : StructParserStateMachine (μ × ν) where
  beginElement m e := do
    let m₁ ← StructParserStateMachine.beginElement m.1 e
    let m₂ ← StructParserStateMachine.beginElement m.2 e
    pure (m₁, m₂)
  endElement m e := do
    let m₁ ← StructParserStateMachine.endElement m.1 e
    let m₂ ← StructParserStateMachine.endElement m.2 e
    pure (m₁, m₂)
  charactersCallback m data :=
    (StructParserStateMachine.charactersCallback m.1 data,
      StructParserStateMachine.charactersCallback m.2 data)
  numberCallback m number frac exp :=
    (StructParserStateMachine.numberCallback m.1 number frac exp,
      StructParserStateMachine.numberCallback m.2 number frac exp)
  boolCallback m bval :=
    (StructParserStateMachine.boolCallback m.1 bval,
      StructParserStateMachine.boolCallback m.2 bval)

instance [LawfulStateMachine μ] [LawfulStateMachine ν] : LawfulStateMachine (μ × ν) where
  characters_append m data data' :=
    Prod.ext (LawfulStateMachine.characters_append m.1 data data')
      (LawfulStateMachine.characters_append m.2 data data')

end Both

end FluxCore.Struct
