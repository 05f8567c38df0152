import FluxCore.Bencode.Grammar

/-!
# The parser reads what denotes a value

A text that denotes a value leads the parser over the whole of it, and the state machine has the
value in its frame.
-/

namespace FluxCore.Bencode

open Utp (Bytes)
open Json (ch decimal encodeInteger)
open Util (isDigit)
open Struct
open BencodeParser (digit floatChar INT64_MAX scanner)

section Runs

variable {μ : Type} [StructParserStateMachine μ] {p p₀ q : BencodeParser μ} {digits s rest : Bytes}

theorem takeWhile_digits {c : UInt8} (rest : Bytes) (h : ∀ c ∈ digits, isDigit c = true)
    (hc : isDigit c = false) :
    (digits ++ c :: rest).takeWhile isDigit = digits ∧
      (digits ++ c :: rest).dropWhile isDigit = c :: rest := by
  rw [List.takeWhile_append_of_pos h, List.dropWhile_append_of_pos h,
    List.takeWhile_cons_of_neg (by simp [hc]), List.dropWhile_cons_of_neg (by simp [hc]),
    List.append_nil]
  exact ⟨rfl, rfl⟩

theorem cons_of_digits (rest : Bytes) (h : ∀ c ∈ digits, isDigit c = true) :
    ∃ c cs, digits ++ ch ':' :: rest = c :: cs ∧ c ≠ ch 'e' := by
  cases digits with
  | nil => exact ⟨_, _, rfl, by decide⟩
  | cons c digits =>
    refine ⟨c, _, rfl, fun he => ?_⟩
    exact absurd (h c (List.mem_cons_self ..)) (he ▸ by decide)

/-- The parser at the end of a string, which it has given to the machine. -/
def atStringEnd (p : BencodeParser μ) (digits s : Bytes) : BencodeParser μ :=
  { p.runCharactersCallback s with
    strLength := 0, numConsumed := p.numConsumed + digits.length, currentState := .string }

/-- A string behind the digits of its length that have been read. -/
theorem steps_string (hgoing : scanner.finished p₀ = false)
    (hturn : ∀ c rest, c ≠ ch 'e' → p₀.turn c rest = p.turnStringLen (c :: rest))
    (hdigits : ∀ c ∈ digits, isDigit c = true) (hcount : p.numConsumed + digits.length ≠ 0)
    (hlen : digitsValue p.strLength digits = s.length) (hmax : s.length ≤ INT64_MAX)
    (hq : (atStringEnd p digits s).onStringEnd = some q) :
    scanner.Steps p₀ (digits ++ ch ':' :: (s ++ rest)) q rest := by
  have hread : BencodeParser.readDigits p.strLength digits = some s.length := by
    rw [readDigits_eq hdigits (Nat.le_trans le_digitsValue (hlen ▸ hmax)), hlen, if_pos hmax]
  have hcolon : isDigit (ch ':') = false := by decide
  -- the turn that takes the digits
  have hfirst : p.turnStringLen (digits ++ ch ':' :: (s ++ rest)) =
      if s.length = 0 then
        (atStringEnd p digits []).onStringEnd >>= fun p => p.go (s ++ rest)
      else ({ p with
        strLength := s.length, numConsumed := p.numConsumed + digits.length,
        currentState := .string } : BencodeParser μ).go (s ++ rest) := by
    unfold BencodeParser.turnStringLen
    obtain ⟨htake, hdrop⟩ := takeWhile_digits (s ++ rest) hdigits hcolon
    simp only [htake, hdrop, hread]
    rw [if_neg (not_or.mpr ⟨not_not_intro rfl, hcount⟩)]
    split
    next hzero => rw [List.length_eq_zero_iff.mp hzero]; rfl
    · rfl
  obtain ⟨c, cs, hcons, hc⟩ := cons_of_digits (s ++ rest) hdigits
  have hturn' : scanner.turn p₀ c cs = _ := (hturn c cs hc).trans (hcons ▸ hfirst)
  rw [hcons]
  by_cases hzero : s.length = 0
  · obtain rfl := List.length_eq_zero_iff.mp hzero
    rw [if_pos hzero, hq] at hturn'
    exact .one hgoing hturn'
  · rw [if_neg hzero] at hturn'
    refine .head hgoing hturn' ?_
    -- the turn that takes the bytes
    obtain ⟨d, ds, rfl⟩ := List.exists_cons_of_ne_nil (mt List.length_eq_zero_iff.mpr hzero)
    refine .one (by simp [scanner]) ?_
    have hnread : min ((d :: ds) ++ rest).length (d :: ds).length = (d :: ds).length := by
      rw [List.length_append]
      omega
    change BencodeParser.turnString _ ((d :: ds) ++ rest) = _
    unfold BencodeParser.turnString
    simp only [hnread, List.take_left, List.drop_left, Nat.sub_self, if_true]
    exact congrArg (· >>= fun p => p.go rest) hq

/-- The parser at the end of a number. -/
def atNumberEnd (p : BencodeParser μ) (number numConsumed : Nat) (s : State) : BencodeParser μ :=
  { p with number, numConsumed, currentState := s }

/-- The digits of a number that come up to one more byte. -/
theorem turn_number (hs : p.currentState = .number) (hdigits : ∀ c ∈ digits, isDigit c = true)
    (hcount : p.numConsumed + digits.length ≠ 0) (hmax : digitsValue p.number digits ≤ INT64_MAX)
    {c : UInt8} (hc : isDigit c = false) {c' : UInt8} {cs : Bytes}
    (hcons : digits ++ c :: rest = c' :: cs) : p.turn c' cs =
      let p := atNumberEnd p (digitsValue p.number digits) (p.numConsumed + digits.length) .number
      if floatChar c then (atNumberEnd p 0 0 .floatNumberIgnore).go rest
      else if c ≠ ch 'e' then p.fail .invalidNumber
      else p.onNumberEnd >>= fun p => p.go rest := by
  have hread : BencodeParser.readDigits p.number digits = some (digitsValue p.number digits) := by
    rw [readDigits_eq hdigits (Nat.le_trans le_digitsValue hmax), if_pos hmax]
  obtain ⟨htake, hdrop⟩ := takeWhile_digits rest hdigits hc
  have hturn : p.turn c' cs = p.turnNumber (c' :: cs) := by simp only [BencodeParser.turn, hs]
  rw [hturn, ← hcons]
  unfold BencodeParser.turnNumber
  simp only [htake, hdrop, hread]
  rw [if_neg hcount]
  simp only [atNumberEnd, ← hs]

/-- The digits of an integer and its end. -/
theorem steps_integer (hs : p.currentState = .number) (hdigits : ∀ c ∈ digits, isDigit c = true)
    (hcount : p.numConsumed + digits.length ≠ 0) (hmax : digitsValue p.number digits ≤ INT64_MAX)
    (hq : (atNumberEnd p (digitsValue p.number digits) (p.numConsumed + digits.length)
      .number).onNumberEnd = some q) :
    scanner.Steps p (digits ++ ch 'e' :: rest) q rest := by
  obtain ⟨c, cs, hcons⟩ : ∃ c cs, digits ++ ch 'e' :: rest = c :: cs :=
    List.exists_cons_of_ne_nil (by simp)
  rw [hcons]
  refine .one (by simp [scanner, hs]) ?_
  refine (turn_number hs hdigits hcount hmax (by decide) hcons).trans ?_
  dsimp only
  rw [if_neg (by decide), if_neg (by decide), hq]
  rfl

/-- What stands behind the digits of a number in scientific notation, and its end. -/
theorem steps_floatNumberIgnore (hs : p.currentState = .floatNumberIgnore) {tail : Bytes}
    (htail : ∀ c ∈ tail, floatChar c = true) (hq : p.onNumberEnd = some q) :
    scanner.Steps p (tail ++ ch 'e' :: rest) q rest := by
  have hturn : ∀ c rest, scanner.turn p c rest = p.turnFloat c rest := fun c rest => by
    simp only [scanner, BencodeParser.turn, hs]
  have hgoing : scanner.finished p = false := by simp [scanner, hs]
  induction tail with
  | nil =>
    refine .one hgoing ((hturn _ _).trans ?_)
    rw [BencodeParser.turnFloat, if_neg (by decide), if_neg (by decide), hq]
    rfl
  | cons c tail ih =>
    obtain ⟨hc, htail⟩ := List.forall_mem_cons.mp htail
    refine .head hgoing ((hturn _ _).trans ?_) (ih htail)
    rw [BencodeParser.turnFloat, if_pos hc]
    rfl

theorem steps_float (hs : p.currentState = .number) (hdigits : ∀ c ∈ digits, isDigit c = true)
    (hcount : p.numConsumed + digits.length ≠ 0) (hmax : digitsValue p.number digits ≤ INT64_MAX)
    {tail : Bytes} (htail : FloatTail tail)
    (hq : (atNumberEnd p 0 0 .floatNumberIgnore).onNumberEnd = some q) :
    scanner.Steps p (digits ++ (tail ++ ch 'e' :: rest)) q rest := by
  obtain ⟨c, tail, rfl, hc, htail⟩ := htail
  obtain ⟨hfloat, htail⟩ := List.forall_mem_cons.mp htail
  obtain ⟨c', cs, hcons⟩ : ∃ c' cs, digits ++ c :: (tail ++ ch 'e' :: rest) = c' :: cs :=
    List.exists_cons_of_ne_nil (by simp)
  rw [List.cons_append, hcons]
  refine .head (by simp [scanner, hs]) ?_ (steps_floatNumberIgnore rfl htail hq)
  refine (turn_number hs hdigits hcount hmax hc hcons).trans ?_
  dsimp only
  rw [if_pos hfloat]
  rfl

/-- The sign of an integer, or its first digit. -/
theorem steps_sign (hs : p.currentState = .numberSign) (hnumber : p.number = 0)
    (hsign : p.numberSign = 1) {sign : Bytes} {i : Int} (h : Sign sign i) (hdigits : Digits digits) :
    ∃ p' digits', (∀ tail, scanner.Steps p (sign ++ (digits ++ tail)) p' (digits' ++ tail)) ∧
      p' = { p with
        numberSign := i, currentState := .number, number := p'.number,
        numConsumed := p'.numConsumed } ∧
      (∀ c ∈ digits', isDigit c = true) ∧ p'.numConsumed + digits'.length ≠ 0 ∧
      digitsValue p'.number digits' = digitsValue 0 digits := by
  obtain ⟨hne, hdigits⟩ := hdigits
  have hturn : ∀ c rest, scanner.turn p c rest = p.turnSign c rest := fun c rest => by
    simp only [scanner, BencodeParser.turn, hs]
  have hgoing : scanner.finished p = false := by simp [scanner, hs]
  have hlen : digits.length ≠ 0 := mt List.length_eq_zero_iff.mp hne
  cases h with
  | none =>
    obtain ⟨c, digits, rfl⟩ := List.exists_cons_of_ne_nil hne
    obtain ⟨hc, hdigits⟩ := List.forall_mem_cons.mp hdigits
    have hplus : c ≠ ch '+' := fun he => absurd hc (he ▸ by decide)
    have hminus : c ≠ ch '-' := fun he => absurd hc (he ▸ by decide)
    refine ⟨{ p with number := digit c, numConsumed := 1, currentState := .number }, digits,
      fun tail => .one hgoing ((hturn _ _).trans ?_), by rw [← hsign], hdigits, ?_, ?_⟩
    · rw [BencodeParser.turnSign, if_neg hplus, if_neg hminus, if_pos hc]
      rfl
    · change 1 + digits.length ≠ 0
      omega
    · change _ = digitsValue (0 * 10 + digit c) digits
      rw [Nat.zero_mul, Nat.zero_add]
  | plus =>
    refine ⟨{ p with numberSign := 1, currentState := .number }, digits,
      fun tail => .one hgoing ((hturn _ _).trans ?_), rfl, hdigits, ?_, ?_⟩
    · rw [BencodeParser.turnSign, if_pos rfl]
      rfl
    · omega
    · exact congrArg (digitsValue · digits) hnumber
  | minus =>
    refine ⟨{ p with numberSign := -1, currentState := .number }, digits,
      fun tail => .one hgoing ((hturn _ _).trans ?_), rfl, hdigits, ?_, ?_⟩
    · rw [BencodeParser.turnSign, if_neg (by decide), if_pos rfl]
      rfl
    · omega
    · exact congrArg (digitsValue · digits) hnumber

end Runs

section Values

variable {least : Int} {room : Nat} {b s : Bytes} {v : ValueBase}
  {p p₀ p' q : BencodeParser StateMachine}

/-- The machine waits for a value. -/
structure Ready (m : StateMachine) : Prop where
  stateStack : ∃ s ss, m.stateStack = s :: ss ∧ (s = .value ∨ s = .dictData ∨ s = .arrayData)
  allowEmpty : m.ctrl.allowEmptyMemberName = true

theorem Ready.beginElement {m : StateMachine} (h : Ready m) (e : ElementType) :
    m.beginElement e = m.beginValue e := by
  obtain ⟨s, ss, hstack, rfl | rfl | rfl⟩ := h.stateStack <;>
    simp only [StateMachine.beginElement, hstack]

/-- The parser at the end of a value, which is in the frame of the machine. -/
structure Found (p : BencodeParser StateMachine) (v : ValueBase)
    (p' : BencodeParser StateMachine) : Prop where
  stateStack : p'.stateStack = p.stateStack
  ctrl : p'.psm.ctrl = p.psm.ctrl.setCurrentFrameValue v
  psmStack : p'.psm.stateStack = p.psm.stateStack

theorem Found.self (h : p.psm.ctrl.currentFrame.value = some v) : Found p v p where
  stateStack := rfl
  ctrl := by
    obtain ⟨⟨⟨frames, ⟨value, name⟩, allow⟩, ss, data⟩⟩ := p
    cases h
    rfl
  psmStack := rfl

theorem Found.trans {w : ValueBase} (h : Found p w p₀) (h' : Found p₀ v p') : Found p v p' where
  stateStack := h'.stateStack.trans h.stateStack
  ctrl := by rw [h'.ctrl, h.ctrl]; rfl
  psmStack := h'.psmStack.trans h.psmStack

/-- The text leads from `p₀` to the end of the value, whose first byte `p` takes. -/
def LeadsTo (p₀ p : BencodeParser StateMachine) (b : Bytes) (v : ValueBase) : Prop :=
  ∃ p', Found p v p' ∧
    ∀ q, p'.onValueEnd = some q → ∀ rest, scanner.Steps p₀ (b ++ rest) q rest

/-- The end of a number whose beginning the machine has been told. -/
theorem found_number {q : BencodeParser StateMachine} (hstack : q.stateStack = p.stateStack)
    (hpsm : p.psm.beginValue .number = some q.psm) (n k : Nat) (s : State) :
    ∃ p', Found p (.integer (q.numberSign * n)) p' ∧
      (atNumberEnd q n k s).onNumberEnd = p'.onValueEnd := by
  obtain ⟨m, hm, hctrl, hms⟩ : ∃ m : StateMachine,
      (q.psm.numberCallback (q.numberSign * n) 0 0).endElement .number = some m ∧
      m.ctrl = p.psm.ctrl.setCurrentFrameValue (.integer (q.numberSign * n)) ∧
      m.stateStack = p.psm.stateStack := by
    obtain ⟨psm⟩ := q
    cases hpsm
    exact ⟨_, rfl, rfl, rfl⟩
  refine ⟨{ atNumberEnd q n k s with psm := m }, ⟨hstack, hctrl, hms⟩, ?_⟩
  unfold BencodeParser.onNumberEnd BencodeParser.runEndCallback
  change (Option.map _ ((q.psm.numberCallback (q.numberSign * n) 0 0).endElement .number)) >>= _ =
    _
  rw [hm]
  rfl

/-- The end of a string whose beginning the machine has been told. -/
theorem found_string {q : BencodeParser StateMachine} (hstack : q.stateStack = p.stateStack)
    (htop : p.stateStack.head? ≠ some .dictKey) (hpsm : p.psm.beginValue .string = some q.psm)
    (digits s : Bytes) : ∃ p', Found p (.string s) p' ∧
      (atStringEnd q digits s).onStringEnd = p'.onValueEnd := by
  obtain ⟨m, hm, hctrl, hms⟩ : ∃ m : StateMachine,
      (q.psm.charactersCallback s).endElement .string = some m ∧
      m.ctrl = p.psm.ctrl.setCurrentFrameValue (.string s) ∧
      m.stateStack = p.psm.stateStack := by
    obtain ⟨psm⟩ := q
    cases hpsm
    exact ⟨_, rfl, rfl, rfl⟩
  refine ⟨{ atStringEnd q digits s with psm := m }, ⟨hstack, hctrl, hms⟩, ?_⟩
  have htop' : (atStringEnd q digits s).stateStack.head? ≠ some .dictKey := hstack ▸ htop
  unfold BencodeParser.onStringEnd BencodeParser.runEndCallback
  rw [if_neg htop']
  change (Option.map _ ((q.psm.charactersCallback s).endElement .string)) >>= _ = _
  rw [hm]
  rfl

/-- The end of a key: its name is that of the frame. -/
theorem onStringEnd_key {q : BencodeParser StateMachine} {stack : List State}
    {ss : List Struct.State} (hstack : q.stateStack = .dictKey :: stack)
    (hpsm : q.psm.stateStack = .dictKey :: ss) (hstr : q.psm.sessionData.str = [])
    (digits s : Bytes) : ∃ p' : BencodeParser StateMachine,
      p'.stateStack = .dictKey :: stack ∧ p'.psm.stateStack = ss ∧
      p'.psm.ctrl = q.psm.ctrl.setCurrentFrameName s ∧
      (atStringEnd q digits s).onStringEnd = p'.onValueEnd := by
  obtain ⟨m, hm, hctrl, hms⟩ : ∃ m : StateMachine,
      (q.psm.charactersCallback s).endElement .dictKey = some m ∧
      m.ctrl = q.psm.ctrl.setCurrentFrameName s ∧ m.stateStack = ss := by
    obtain ⟨⟨ctrl, _, ⟨_, _, _⟩⟩⟩ := q
    cases hpsm
    cases hstr
    exact ⟨_, rfl, rfl, rfl⟩
  refine ⟨{ atStringEnd q digits s with psm := m }, hstack, hms, hctrl, ?_⟩
  have htop : (atStringEnd q digits s).stateStack.head? = some .dictKey :=
    congrArg List.head? hstack
  unfold BencodeParser.onStringEnd BencodeParser.runEndCallback
  rw [if_pos htop]
  change (Option.map _ ((q.psm.charactersCallback s).endElement .dictKey)) >>= _ = _
  rw [hm]
  rfl

/-- What the beginning of a container makes of the parser. -/
def beginContainer (p : BencodeParser StateMachine) (w : ValueBase) (s : Struct.State) (x : State) :
    BencodeParser StateMachine :=
  { p with psm := (p.psm.setCurrentFrameValue w).pushState s, currentState := x }

/-- The end of a container: its machine leaves the state that it began with. -/
theorem found_end {s : Struct.State} {x : State} {e : ElementType} {w : ValueBase}
    (hs : s = .array ∨ s = .dict) (h : Found (beginContainer p w s x) v p') :
    ∃ p'', Found p v p'' ∧ p'.runEndCallback e >>= BencodeParser.onValueEnd = p''.onValueEnd := by
  refine ⟨{ p' with psm := { p'.psm with stateStack := p.psm.stateStack } },
    ⟨h.stateStack, h.ctrl, rfl⟩, ?_⟩
  have hend : p'.psm.endElement e = some { p'.psm with stateStack := p.psm.stateStack } := by
    have hps : p'.psm.stateStack = s :: p.psm.stateStack := h.psmStack
    unfold StateMachine.endElement
    rw [hps]
    rcases hs with rfl | rfl <;> rfl
  change Option.map _ (p'.psm.endElement e) >>= _ = _
  rw [hend]
  rfl

/-- An element of a list: what its beginning makes of the parser. -/
def beginElement (p : BencodeParser StateMachine) : BencodeParser StateMachine :=
  { p with
    stateStack := .list :: p.stateStack, currentState := .value
    psm := { p.psm with ctrl := p.psm.ctrl.pushFrame }.pushState .arrayData }

theorem turn_list {ss : List Struct.State} (hs : p.currentState = .list)
    (hroom : p.stateStack.length < 50) (hpsm : p.psm.stateStack = .array :: ss) {c : UInt8}
    (hc : c ≠ ch 'e') (rest : Bytes) : p.turn c rest = (beginElement p).turnValue c rest := by
  have hpush : p.pushState .list = some { p with stateStack := .list :: p.stateStack } :=
    if_neg (Nat.not_le.mpr hroom)
  have hbegin : p.psm.beginElement .arrayData =
      some ({ p.psm with ctrl := p.psm.ctrl.pushFrame }.pushState .arrayData) := by
    simp only [StateMachine.beginElement, hpsm]
  simp only [BencodeParser.turn, hs, if_neg hc, hpush]
  unfold BencodeParser.runBeginCallback
  change Option.map _ (p.psm.beginElement .arrayData) >>= _ = _
  rw [hbegin]
  rfl

/-- The end of an element: it is at the end of the list. -/
theorem onValueEnd_element {l : List ValueBase}
    (hvalue : p.psm.ctrl.currentFrame.value = some (.list l)) (h : Found (beginElement p) v p') :
    ∃ q, p'.onValueEnd = some q ∧ q.currentState = .list ∧ Found p (.list (l ++ [v])) q := by
  have hpop : p'.psm.ctrl.popArrayFrame =
      some (p.psm.ctrl.setCurrentFrameValue (.list (l ++ [v]))) := by
    rw [h.ctrl]
    exact Controller.popArrayFrame_pushFrame hvalue v
  obtain ⟨m, hend, hctrl, hms⟩ : ∃ m, p'.psm.endElement .arrayData = some m ∧
      m.ctrl = p.psm.ctrl.setCurrentFrameValue (.list (l ++ [v])) ∧
      m.stateStack = p.psm.stateStack := by
    unfold StateMachine.endElement
    rw [h.psmStack]
    change ∃ m, Option.map _ (Option.map _ p'.psm.ctrl.popArrayFrame) = some m ∧ _
    rw [hpop]
    exact ⟨_, rfl, rfl, rfl⟩
  have hvalueEnd : p'.onValueEnd =
      (p'.runEndCallback .arrayData).map fun p => p.popState.at_ .list := by
    unfold BencodeParser.onValueEnd
    rw [h.stateStack]
    rfl
  refine ⟨{ p' with psm := m }.popState.at_ .list, hvalueEnd.trans ?_, rfl,
    ⟨congrArg List.tail h.stateStack, hctrl, hms⟩⟩
  change Option.map _ (Option.map _ (p'.psm.endElement .arrayData)) = _
  rw [hend]
  rfl

/-- A member of a dictionary: what the beginning of its key makes of the parser. -/
def beginKey (p : BencodeParser StateMachine) : BencodeParser StateMachine :=
  { p with
    stateStack := .dictKey :: p.stateStack, currentState := .stringLen, strLength := 0,
    numConsumed := 0
    psm := { p.psm with ctrl := p.psm.ctrl.pushFrame, sessionData.str := [] }.pushState .dictKey }

theorem turn_dictKey {ss : List Struct.State} (hs : p.currentState = .dictKey)
    (hroom : p.stateStack.length < 50) (hpsm : p.psm.stateStack = .dict :: ss) {c : UInt8}
    (hc : c ≠ ch 'e') (rest : Bytes) : p.turn c rest = (beginKey p).turnStringLen (c :: rest) := by
  have hpush : p.pushState .dictKey = some { p with stateStack := .dictKey :: p.stateStack } :=
    if_neg (Nat.not_le.mpr hroom)
  have hbegin : p.psm.beginElement .dictKey = some
      ({ p.psm with ctrl := p.psm.ctrl.pushFrame, sessionData.str := [] }.pushState .dictKey) := by
    simp only [StateMachine.beginElement, hpsm]
  simp only [BencodeParser.turn, hs, if_neg hc, hpush]
  unfold BencodeParser.runBeginCallback
  change Option.map _ (p.psm.beginElement .dictKey) >>= _ = _
  rw [hbegin]
  rfl

/-- What stands between the key of a member and its value. -/
structure AtMember (p : BencodeParser StateMachine) (key : Bytes)
    (q : BencodeParser StateMachine) : Prop where
  currentState : q.currentState = .value
  stateStack : q.stateStack = .dictVal :: p.stateStack
  psmStack : q.psm.stateStack = .dictData :: p.psm.stateStack
  ctrl : q.psm.ctrl = p.psm.ctrl.pushFrame.setCurrentFrameName key

theorem steps_key {ss : List Struct.State} (hs : p.currentState = .dictKey)
    (hroom : p.stateStack.length < 50) (hpsm : p.psm.stateStack = .dict :: ss) {key : Bytes}
    (h : DenotesString b key) :
    ∃ q, AtMember p key q ∧ ∀ rest, scanner.Steps p (b ++ rest) q rest := by
  obtain ⟨⟨hne, hdigits⟩, hlen, hmax⟩ := h
  next digits =>
    obtain ⟨p', hstack, hpsm', hctrl, hend⟩ :=
      onStringEnd_key (q := beginKey p) rfl rfl rfl digits key
    have hbegin : p'.psm.beginElement .dictData = some (p'.psm.pushState .dictData) := by
      have hdict : p'.psm.stateStack = .dict :: ss := hpsm'.trans hpsm
      simp only [StateMachine.beginElement, hdict]
    obtain ⟨q, hq, hmember⟩ : ∃ q, p'.onValueEnd = some q ∧ AtMember p key q := by
      have hpush : p'.popState.pushState .dictVal =
          some { p'.popState with stateStack := .dictVal :: p.stateStack } := by
        have htail : p'.popState.stateStack = p.stateStack := congrArg List.tail hstack
        unfold BencodeParser.pushState
        rw [htail, if_neg (Nat.not_le.mpr hroom)]
      refine ⟨{ p' with
        psm := p'.psm.pushState .dictData, stateStack := .dictVal :: p.stateStack,
        currentState := .value }, ?_, rfl, rfl, congrArg (Struct.State.dictData :: ·) hpsm', hctrl⟩
      unfold BencodeParser.onValueEnd
      rw [hstack]
      dsimp only
      rw [hpush]
      change Option.map _ (p'.psm.beginElement .dictData) = _
      rw [hbegin]
      rfl
    refine ⟨q, hmember, fun rest => ?_⟩
    rw [List.append_assoc, List.cons_append]
    refine steps_string (by simp [scanner, hs]) (fun c rest hc => turn_dictKey hs hroom hpsm hc rest)
      hdigits ?_ hlen hmax (hend.trans hq)
    change 0 + digits.length ≠ 0
    have := mt List.length_eq_zero_iff.mp hne
    omega

/-- The end of a member: it is in the dictionary. -/
theorem AtMember.onValueEnd {d : Dict} {key : Bytes} (hq : AtMember p key q)
    (hallow : p.psm.ctrl.allowEmptyMemberName = true)
    (hvalue : p.psm.ctrl.currentFrame.value = some (.dict d)) (h : Found q v p') :
    ∃ q', p'.onValueEnd = some q' ∧ q'.currentState = .dictKey ∧
      Found p (.dict (Dict.put d key v)) q' := by
  have hpop : p'.psm.ctrl.popStructFrame =
      some (p.psm.ctrl.setCurrentFrameValue (.dict (Dict.put d key v))) := by
    rw [h.ctrl, hq.ctrl]
    exact Controller.popStructFrame_pushFrame hvalue (.inl hallow) v
  obtain ⟨m, hend, hctrl, hms⟩ : ∃ m, p'.psm.endElement .dictData = some m ∧
      m.ctrl = p.psm.ctrl.setCurrentFrameValue (.dict (Dict.put d key v)) ∧
      m.stateStack = p.psm.stateStack := by
    unfold StateMachine.endElement
    rw [h.psmStack, hq.psmStack]
    change ∃ m, Option.map _ (Option.map _ p'.psm.ctrl.popStructFrame) = some m ∧ _
    rw [hpop]
    exact ⟨_, rfl, rfl, rfl⟩
  have hstack : p'.stateStack = .dictVal :: p.stateStack := h.stateStack.trans hq.stateStack
  have hvalueEnd : p'.onValueEnd =
      (p'.runEndCallback .dictData).map fun p => p.popState.at_ .dictKey := by
    unfold BencodeParser.onValueEnd
    rw [hstack]
  refine ⟨{ p' with psm := m }.popState.at_ .dictKey, hvalueEnd.trans ?_, rfl,
    ⟨congrArg List.tail hstack, hctrl, hms⟩⟩
  change Option.map _ (Option.map _ (p'.psm.endElement .dictData)) = _
  rw [hend]
  rfl

/-- What the beginning of an integer makes of the parser. -/
def beginNumber (p : BencodeParser StateMachine) : BencodeParser StateMachine :=
  { p with
    number := 0, numberSign := 1, numConsumed := 0, currentState := .numberSign
    psm := { p.psm with sessionData.number := ⟨0, 0, 0⟩ }.pushState .number }

theorem turnValue_number (hready : Ready p.psm) (rest : Bytes) :
    p.turnValue (ch 'i') rest = (beginNumber p).go rest := by
  have hbegin : p.psm.beginElement .number =
      some ({ p.psm with sessionData.number := ⟨0, 0, 0⟩ }.pushState .number) :=
    hready.beginElement .number
  rw [BencodeParser.turnValue, if_neg (by decide), if_neg (by decide), if_pos rfl]
  change Option.map _ (p.psm.beginElement .number) >>= _ = _
  rw [hbegin]
  rfl

/-- The parser among the digits of an integer, of which `digits'` are still to come. -/
structure AtNumber (p p' : BencodeParser StateMachine) (i : Int) (digits digits' : Bytes) :
    Prop where
  currentState : p'.currentState = .number
  numberSign : p'.numberSign = i
  stateStack : p'.stateStack = p.stateStack
  psm : p.psm.beginValue .number = some p'.psm
  allDigits : ∀ c ∈ digits', isDigit c = true
  count : p'.numConsumed + digits'.length ≠ 0
  value : digitsValue p'.number digits' = digitsValue 0 digits

theorem atNumber {sign digits : Bytes} {i : Int} (hsign : Sign sign i) (hdigits : Digits digits) :
    ∃ p' digits', (∀ tail, scanner.Steps (beginNumber p) (sign ++ (digits ++ tail)) p'
      (digits' ++ tail)) ∧ AtNumber p p' i digits digits' := by
  obtain ⟨p', digits', hsteps, hp', hall, hcount, hvalue⟩ :=
    steps_sign (p := beginNumber p) rfl rfl rfl hsign hdigits
  refine ⟨p', digits', hsteps, ?_, ?_, ?_, ?_, hall, hcount, hvalue⟩ <;> rw [hp'] <;> rfl

/-- What the first digit of a string makes of the parser. -/
def beginString (p : BencodeParser StateMachine) (c : UInt8) : BencodeParser StateMachine :=
  { p with
    strLength := digit c, numConsumed := 1, currentState := .stringLen
    psm := { p.psm with sessionData.str := [] }.pushState .string }

theorem turnValue_string (hready : Ready p.psm) {c : UInt8} (hc : isDigit c = true) (rest : Bytes) :
    p.turnValue c rest = (beginString p c).go rest := by
  have hbegin : p.psm.beginElement .string =
      some ({ p.psm with sessionData.str := [] }.pushState .string) :=
    hready.beginElement .string
  have hne : ∀ c', isDigit c' = false → c ≠ c' := fun c' hc' he =>
    Bool.false_ne_true (hc'.symm.trans (he ▸ hc))
  rw [BencodeParser.turnValue, if_neg (hne _ (by decide)), if_neg (hne _ (by decide)),
    if_neg (hne _ (by decide)), if_pos hc]
  change Option.map _ (p.psm.beginElement .string) >>= _ = _
  rw [hbegin]
  rfl

/-- The first byte of a container. -/
theorem turnValue_container {c : UInt8} {x : State} {s : Struct.State} {e : ElementType}
    {w : ValueBase} (hready : Ready p.psm)
    (h : c = ch 'l' ∧ x = .list ∧ s = .array ∧ e = .array ∧ w = .list [] ∨
      c = ch 'd' ∧ x = .dictKey ∧ s = .dict ∧ e = .dict ∧ w = .dict []) (rest : Bytes) :
    p.turnValue c rest = (beginContainer p w s x).go rest := by
  have hbegin : p.psm.beginElement e = some ((p.psm.setCurrentFrameValue w).pushState s) := by
    rw [hready.beginElement]
    obtain ⟨-, -, rfl, rfl, rfl⟩ | ⟨-, -, rfl, rfl, rfl⟩ := h <;> rfl
  have hturn : p.turnValue c rest = (p.at_ x).runBeginCallback e >>= fun p => p.go rest := by
    obtain ⟨rfl, rfl, rfl, rfl, rfl⟩ | ⟨rfl, rfl, rfl, rfl, rfl⟩ := h
    · rw [BencodeParser.turnValue, if_neg (by decide), if_pos rfl]
    · rw [BencodeParser.turnValue, if_pos rfl]
  rw [hturn]
  change Option.map _ (p.psm.beginElement e) >>= _ = _
  rw [hbegin]
  rfl

mutual

/-- A text that denotes a value leads over the whole of it. -/
theorem Denotes.leadsTo (hleast : -INT64_MAX ≤ least) {room : Nat} {b : Bytes} {v : ValueBase}
    (h : Denotes least room b v) {q p : BencodeParser StateMachine} (hready : Ready p.psm)
    (hroom : p.stateStack.length + room ≤ 50) (htop : p.stateStack.head? ≠ some .dictKey)
    (hgoing : scanner.finished q = false)
    (hturn : ∀ c ∈ b.head?, ∀ rest, q.turn c rest = p.turnValue c rest) : LeadsTo q p b v := by
  match h with
  | .integer (s := s) hsign hdigits hmin hmax =>
    obtain ⟨p', digits', hsteps, hnumber⟩ := atNumber (p := p) hsign hdigits
    obtain ⟨p'', hfound, hend⟩ := found_number hnumber.stateStack hnumber.psm
      (digitsValue p'.number digits') (p'.numConsumed + digits'.length) .number
    rw [hnumber.numberSign, hnumber.value] at hfound
    refine ⟨p'', hfound, fun q' hq rest => ?_⟩
    rw [List.cons_append, List.append_assoc, List.append_assoc]
    refine .head hgoing ((hturn _ rfl _).trans (turnValue_number hready _))
      ((hsteps _).trans (steps_integer hnumber.currentState hnumber.allDigits hnumber.count ?_
        (hend.trans hq)))
    rw [hnumber.value]
    cases hsign <;> omega
  | .float (s := s) hsign hdigits hmax htail =>
    obtain ⟨p', digits', hsteps, hnumber⟩ := atNumber (p := p) hsign hdigits
    obtain ⟨p'', hfound, hend⟩ := found_number hnumber.stateStack hnumber.psm 0 0
      .floatNumberIgnore
    rw [Int.natCast_zero, Int.mul_zero] at hfound
    refine ⟨p'', hfound, fun q' hq rest => ?_⟩
    rw [List.cons_append, List.append_assoc, List.append_assoc, List.append_assoc]
    exact .head hgoing ((hturn _ rfl _).trans (turnValue_number hready _))
      ((hsteps _).trans (steps_float hnumber.currentState hnumber.allDigits hnumber.count
        (hnumber.value ▸ hmax) htail (hend.trans hq)))
  | .string (@DenotesString.mk digits s hdigits hlen hmax) =>
    obtain ⟨hne, hdigits⟩ := hdigits
    obtain ⟨c, digits, rfl⟩ := List.exists_cons_of_ne_nil hne
    obtain ⟨hc, hdigits⟩ := List.forall_mem_cons.mp hdigits
    obtain ⟨p', hfound, hend⟩ := found_string (p := p) (q := beginString p c) rfl htop rfl digits s
    refine ⟨p', hfound, fun q' hq rest => ?_⟩
    rw [List.cons_append, List.cons_append, List.append_assoc]
    refine .head hgoing ((hturn _ rfl _).trans (turnValue_string hready hc _))
      (steps_string rfl (fun c rest _ => rfl) hdigits ?_ ?_ hmax (hend.trans hq))
    · change 1 + digits.length ≠ 0
      omega
    · rw [← hlen]
      change digitsValue (digit c) digits = digitsValue (0 * 10 + digit c) digits
      rw [Nat.zero_mul, Nat.zero_add]
  | .list h =>
    obtain ⟨p', hs, hfound, hsteps⟩ := h.steps hleast (p := beginContainer p (.list []) .array .list)
      rfl hroom rfl hready.allowEmpty rfl
    obtain ⟨p'', hfound', hend⟩ := found_end (e := .array) (.inl rfl) hfound
    refine ⟨p'', hfound', fun q' hq rest => ?_⟩
    rw [List.cons_append, List.append_assoc]
    refine .head hgoing ((hturn _ rfl _).trans
      (turnValue_container hready (.inl ⟨rfl, rfl, rfl, rfl, rfl⟩) _))
      ((hsteps _).trans (.one (by simp [scanner, hs]) ?_))
    change p'.turn _ _ = _
    simp only [BencodeParser.turn, hs]
    exact congrArg (· >>= fun p => p.go rest) (hend.trans hq)
  | .dict h =>
    obtain ⟨p', hs, hfound, hsteps⟩ := h.steps hleast (p := beginContainer p (.dict []) .dict .dictKey)
      rfl hroom rfl hready.allowEmpty rfl
    obtain ⟨p'', hfound', hend⟩ := found_end (e := .dict) (.inr rfl) hfound
    refine ⟨p'', hfound', fun q' hq rest => ?_⟩
    rw [List.cons_append, List.append_assoc]
    refine .head hgoing ((hturn _ rfl _).trans
      (turnValue_container hready (.inr ⟨rfl, rfl, rfl, rfl, rfl⟩) _))
      ((hsteps _).trans (.one (by simp [scanner, hs]) ?_))
    change p'.turn _ _ = _
    simp only [BencodeParser.turn, hs]
    exact congrArg (· >>= fun p => p.go rest) (hend.trans hq)

theorem DenotesElements.steps (hleast : -INT64_MAX ≤ least) {room : Nat} {b : Bytes} {l : List ValueBase}
    (h : DenotesElements least room b l)
    {p : BencodeParser StateMachine} {l₀ : List ValueBase} {ss : List Struct.State}
    (hs : p.currentState = .list) (hroom : p.stateStack.length + room ≤ 50)
    (hpsm : p.psm.stateStack = .array :: ss) (hallow : p.psm.ctrl.allowEmptyMemberName = true)
    (hvalue : p.psm.ctrl.currentFrame.value = some (.list l₀)) :
    ∃ p', p'.currentState = .list ∧ Found p (.list (l₀ ++ l)) p' ∧
      ∀ rest, scanner.Steps p (b ++ rest) p' rest := by
  match h with
  | .nil => exact ⟨p, hs, Found.self (by rw [List.append_nil]; exact hvalue), fun _ => .refl ..⟩
  | .cons h hs' =>
    have hlt : p.stateStack.length < 50 := by omega
    obtain ⟨p', hfound, hsteps⟩ := h.leadsTo hleast (q := p) (p := beginElement p)
      ⟨⟨_, _, rfl, .inr (.inr rfl)⟩, hallow⟩ (by simp only [beginElement, List.length_cons]; omega)
      (by simp [beginElement]) (by simp [scanner, hs]) fun c hc rest => by
        obtain ⟨c', cs, rfl, hne⟩ := h.head
        cases hc
        exact turn_list hs hlt hpsm hne rest
    obtain ⟨q, hq, hqs, hfound'⟩ := onValueEnd_element hvalue hfound
    obtain ⟨p'', hs'', hfound'', hsteps''⟩ := hs'.steps hleast (p := q) hqs
      (by rw [hfound'.stateStack]; exact hroom) (hfound'.psmStack.trans hpsm)
      (by rw [hfound'.ctrl]; exact hallow) (by rw [hfound'.ctrl]; rfl)
    refine ⟨p'', hs'', ?_, fun rest => ?_⟩
    · rw [List.append_assoc] at hfound''
      exact hfound'.trans hfound''
    · rw [List.append_assoc]
      exact (hsteps q hq _).trans (hsteps'' rest)

theorem DenotesMembers.steps (hleast : -INT64_MAX ≤ least) {room : Nat} {b : Bytes} {d : List (Bytes × ValueBase)}
    (h : DenotesMembers least room b d)
    {p : BencodeParser StateMachine} {d₀ : Dict} {ss : List Struct.State}
    (hs : p.currentState = .dictKey) (hroom : p.stateStack.length + room ≤ 50)
    (hpsm : p.psm.stateStack = .dict :: ss) (hallow : p.psm.ctrl.allowEmptyMemberName = true)
    (hvalue : p.psm.ctrl.currentFrame.value = some (.dict d₀)) :
    ∃ p', p'.currentState = .dictKey ∧
      Found p (.dict (d.foldl (fun d a => Dict.put d a.1 a.2) d₀)) p' ∧
      ∀ rest, scanner.Steps p (b ++ rest) p' rest := by
  match h with
  | .nil => exact ⟨p, hs, Found.self hvalue, fun _ => .refl ..⟩
  | .cons hkey h hs' =>
    have hlt : p.stateStack.length < 50 := by omega
    obtain ⟨q, hmember, hsteps⟩ := steps_key hs hlt hpsm hkey
    obtain ⟨p', hfound, hsteps'⟩ := h.leadsTo hleast (q := q) (p := q)
      ⟨⟨_, _, hmember.psmStack, .inr (.inl rfl)⟩, by rw [hmember.ctrl]; exact hallow⟩
      (by rw [hmember.stateStack, List.length_cons]; omega) (by simp [hmember.stateStack])
      (by simp [scanner, hmember.currentState])
      fun c _ rest => by simp only [BencodeParser.turn, hmember.currentState]
    obtain ⟨q', hq, hqs, hfound'⟩ := hmember.onValueEnd hallow hvalue hfound
    obtain ⟨p'', hs'', hfound'', hsteps''⟩ := hs'.steps hleast (p := q') hqs
      (by rw [hfound'.stateStack]; exact hroom) (hfound'.psmStack.trans hpsm)
      (by rw [hfound'.ctrl]; exact hallow) (by rw [hfound'.ctrl]; rfl)
    refine ⟨p'', hs'', hfound'.trans hfound'', fun rest => ?_⟩
    rw [List.append_assoc, List.append_assoc]
    exact (hsteps _).trans ((hsteps' q' hq _).trans (hsteps'' rest))

end

end Values

end FluxCore.Bencode
