import FluxCore.Bencode.Grammar
import Mathlib.Data.List.TakeWhile

/-!
# What the parser has read denotes a value

Read backwards: from where the parser finishes, each turn puts back the bytes that it has taken,
and what then lies ahead is what the state and the stack wait for. The one exception is the state
behind the `i` of an integer, which passes over bytes that it does not know.
-/

namespace FluxCore.Bencode

open Utp (Bytes)
open Json (ch)
open Util (isDigit)
open Struct
open BencodeParser (digit floatChar INT64_MAX scanner)

/-- What stands behind a value, up to `rest`, for the stack to come to its end. -/
def Completes (least : Int) : List State → Bytes → Bytes → Prop
  | .finish :: _, data, rest => data = rest
  | .list :: stack, data, rest => ∃ b l data', data = b ++ ch 'e' :: data' ∧
      DenotesElements least (50 - stack.length) b l ∧ Completes least stack data' rest
  | .dictVal :: stack, data, rest => ∃ b d data', data = b ++ ch 'e' :: data' ∧
      DenotesMembers least (50 - stack.length) b d ∧ Completes least stack data' rest
  | .dictKey :: stack, data, rest => stack.length < 50 → ∃ b v b' d data',
      data = b ++ (b' ++ ch 'e' :: data') ∧ Denotes least (49 - stack.length) b v ∧
      DenotesMembers least (50 - stack.length) b' d ∧ Completes least stack data' rest
  | _, _, _ => False

/-- A value and what stands behind it. -/
def ExpectsValue (least : Int) (stack : List State) (data rest : Bytes) : Prop :=
  ∃ b v data', data = b ++ data' ∧ Denotes least (50 - stack.length) b v ∧
    Completes least stack data' rest

variable {μ : Type}

/-- The rest of a string whose length is being read. -/
def ExpectsString (least : Int) (p : BencodeParser μ) (data rest : Bytes) : Prop :=
  ∃ digits s data', data = digits ++ ch ':' :: (s ++ data') ∧ (∀ c ∈ digits, isDigit c = true) ∧
    p.numConsumed + digits.length ≠ 0 ∧ digitsValue p.strLength digits = s.length ∧
    (p.strLength ≤ INT64_MAX → s.length ≤ INT64_MAX) ∧ Completes least p.stateStack data' rest

/-- The rest of an integer whose digits are being read. -/
def ExpectsNumber (least : Int) (p : BencodeParser μ) (data rest : Bytes) : Prop :=
  ∃ digits tail data', data = digits ++ (tail ++ ch 'e' :: data') ∧
    (∀ c ∈ digits, isDigit c = true) ∧ p.numConsumed + digits.length ≠ 0 ∧
    (p.number ≤ INT64_MAX → digitsValue p.number digits ≤ INT64_MAX) ∧
    (tail = [] ∨ FloatTail tail) ∧ Completes least p.stateStack data' rest

/-- What lies ahead of the parser, up to `rest`, where it is to finish. -/
def Expects (least : Int) (p : BencodeParser μ) (data rest : Bytes) : Prop :=
  match p.currentState with
  | .finish => data = rest
  | .initial | .value => ExpectsValue least p.stateStack data rest
  | .list => Completes least (.list :: p.stateStack) data rest
  | .dictKey => Completes least (.dictVal :: p.stateStack) data rest
  | .stringLen => ExpectsString least p data rest
  | .string => ∃ s data', data = s ++ data' ∧ s.length = p.strLength ∧
      Completes least p.stateStack data' rest
  | .numberSign => p.number = 0 → p.numConsumed = 0 →
      ∃ b v data', data = b ++ data' ∧ Denotes least (50 - p.stateStack.length) (ch 'i' :: b) v ∧
        Completes least p.stateStack data' rest
  | .number => ExpectsNumber least p data rest
  | .floatNumberIgnore => ∃ tail data', data = tail ++ ch 'e' :: data' ∧
      (∀ c ∈ tail, floatChar c = true) ∧ Completes least p.stateStack data' rest
  | .dictVal | .error => False

section Turns

variable [StructParserStateMachine μ] {least : Int} {p q : BencodeParser μ} {c : UInt8}
  {cs data data' rest : Bytes}

theorem runEndCallback_stack {e : ElementType} (h : p.runEndCallback e = some q) :
    q.stateStack = p.stateStack := by
  obtain ⟨psm, -, rfl⟩ := Option.map_eq_some_iff.mp h
  rfl

omit [StructParserStateMachine μ] in
theorem pushState_eq_some {s : State} (h : p.pushState s = some q) :
    p.stateStack.length < 50 ∧ q = { p with stateStack := s :: p.stateStack } := by
  unfold BencodeParser.pushState at h
  split at h
  · exact nomatch h
  next hlt => exact ⟨Nat.not_le.mp hlt, (Option.some.inj h).symm⟩

/-- Behind a value the parser expects what completes its stack. -/
theorem completes_of_onValueEnd (h : p.onValueEnd = some q) (hq : Expects least q data rest) :
    Completes least p.stateStack data rest := by
  unfold BencodeParser.onValueEnd at h
  split at h
  next stack hstack =>
    obtain ⟨psm, -, rfl⟩ := Option.map_eq_some_iff.mp h
    rw [hstack]
    intro hlt
    have hpush : (p.popState.pushState .dictVal) =
        some { p.popState with stateStack := .dictVal :: stack } := by
      have htail : p.popState.stateStack = stack := congrArg List.tail hstack
      unfold BencodeParser.pushState
      rw [htail, if_neg (Nat.not_le.mpr hlt)]
    rw [hpush] at hq
    obtain ⟨b, v, _, rfl, hb, b', d, data', rfl, hb', hdata⟩ := hq
    have hroom : 50 - (State.dictVal :: stack).length = 49 - stack.length := by
      rw [List.length_cons]
      omega
    exact ⟨b, v, b', d, data', rfl, hroom ▸ hb, hb', hdata⟩
  next stack hstack =>
    obtain ⟨q', hend, rfl⟩ := Option.map_eq_some_iff.mp h
    have htail : (q'.popState.at_ .dictKey).stateStack = stack := by
      change q'.stateStack.tail = stack
      rw [runEndCallback_stack hend, hstack]
      rfl
    have hcompletes : Completes least (.dictVal :: (q'.popState.at_ .dictKey).stateStack) data rest :=
      hq
    rw [htail] at hcompletes
    rwa [hstack]
  next stack hstack =>
    obtain ⟨q', hend, rfl⟩ := Option.map_eq_some_iff.mp h
    have htail : (q'.popState.at_ .list).stateStack = stack := by
      change q'.stateStack.tail = stack
      rw [runEndCallback_stack hend, hstack]
      rfl
    have hcompletes : Completes least (.list :: (q'.popState.at_ .list).stateStack) data rest := hq
    rw [htail] at hcompletes
    rwa [hstack]
  next stack hstack =>
    cases h
    rw [hstack]
    exact hq
  · exact nomatch h

/-- The same where the end of an element has been told. -/
theorem completes_of_end {e : ElementType}
    (h : (p.runEndCallback e >>= BencodeParser.onValueEnd) >>= (fun p => p.go data') =
      some (.go q data)) (hq : Expects least q data rest) :
    data = data' ∧ Completes least p.stateStack data rest := by
  obtain ⟨q', hend, ⟨⟩⟩ := Option.bind_eq_some_iff.mp h
  obtain ⟨q'', hend, hvalue⟩ := Option.bind_eq_some_iff.mp hend
  exact ⟨rfl, runEndCallback_stack hend ▸ completes_of_onValueEnd hvalue hq⟩

theorem isDigit_of_dropWhile (h : data.dropWhile isDigit = c :: cs) : isDigit c = false := by
  have hhead := List.head?_dropWhile_not isDigit data
  rwa [h] at hhead

theorem eq_append_of_dropWhile (h : data.dropWhile isDigit = c :: cs) :
    data = data.takeWhile isDigit ++ c :: cs := h ▸ (List.takeWhile_append_dropWhile ..).symm

theorem digits_takeWhile : ∀ c ∈ data.takeWhile isDigit, isDigit c = true :=
  fun _ hc => List.mem_takeWhile_imp hc

/-- What the loop over the digits gives. -/
theorem readDigits_spec {n m : Nat} {digits : Bytes} (h : BencodeParser.readDigits n digits = some m) :
    m = digitsValue n digits ∧ (n ≤ INT64_MAX → m ≤ INT64_MAX) := by
  induction digits generalizing n with
  | nil => cases h; exact ⟨rfl, id⟩
  | cons c digits ih =>
    unfold BencodeParser.readDigits at h
    split at h
    · cases h
    next hrange =>
      obtain ⟨hm, hmax⟩ := ih h
      have : INT64_MAX = 9223372036854775807 := rfl
      refine ⟨hm, fun _ => ?_⟩
      by_cases hdigit : digit c ≤ INT64_MAX
      · exact hmax (by omega)
      · have : digit c ≤ c.toNat := Nat.sub_le ..
        have := c.toNat_lt
        omega

omit [StructParserStateMachine μ] in
/-- The text does not end among digits. -/
theorem not_expects_nil (hs : q.currentState = .stringLen ∨ q.currentState = .number) :
    ¬Expects least q [] rest := by
  intro h
  unfold Expects at h
  rcases hs with hs | hs
  · simp only [hs] at h
    obtain ⟨digits, s, data', hnil, -⟩ := h
    cases digits <;> exact nomatch hnil
  · simp only [hs] at h
    obtain ⟨digits, tail, data', hnil, -⟩ := h
    cases digits <;> cases tail <;> exact nomatch hnil

theorem expects_turnStringLen (hs : p.currentState = .stringLen)
    (h : p.turnStringLen data = some (.go q data')) (hq : Expects least q data' rest) :
    ExpectsString least p data rest := by
  unfold BencodeParser.turnStringLen at h
  dsimp only at h
  split at h
  · exact absurd h Turn.not_fail_eq_go
  next n hread =>
    obtain ⟨rfl, hmax⟩ := readDigits_spec hread
    split at h
    · cases h
      exact absurd hq (not_expects_nil (.inl hs))
    next c cs hdrop =>
      have hdata := eq_append_of_dropWhile hdrop
      split at h
      · exact absurd h Turn.not_fail_eq_go
      next hcolon =>
        obtain ⟨hcolon, hcount⟩ := not_or.mp hcolon
        obtain rfl := Decidable.of_not_not hcolon
        split at h
        next hzero =>
          obtain ⟨rfl, hcompletes⟩ := completes_of_end h hq
          exact ⟨_, [], _, hdata, digits_takeWhile, hcount, hzero, fun _ => Nat.zero_le _,
            hcompletes⟩
        next hne =>
          cases h
          obtain ⟨s, data', rfl, hlen, hcompletes⟩ := hq
          exact ⟨_, s, data', hdata, digits_takeWhile, hcount, hlen.symm, fun h => hlen ▸ hmax h,
            hcompletes⟩

theorem expects_turnString (h : p.turnString data = some (.go q data'))
    (hs : p.currentState = .string) (hq : Expects least q data' rest) :
    Expects least p data rest := by
  unfold BencodeParser.turnString at h
  dsimp only at h
  have hcut : data = data.take (min data.length p.strLength) ++
      data.drop (min data.length p.strLength) := (List.take_append_drop ..).symm
  unfold Expects
  simp only [hs]
  split at h
  next hzero =>
    obtain ⟨rfl, hcompletes⟩ := completes_of_end h hq
    refine ⟨_, _, hcut, ?_, hcompletes⟩
    change p.strLength - min data.length p.strLength = 0 at hzero
    rw [List.length_take]
    omega
  next hne =>
    -- the text does not end inside the string
    cases h
    unfold Expects at hq
    simp only [BencodeParser.runCharactersCallback, hs] at hq
    obtain ⟨s, data', hnil, hlen, -⟩ := hq
    change p.strLength - min data.length p.strLength ≠ 0 at hne
    rw [List.drop_eq_nil_of_le (by omega)] at hnil
    obtain ⟨rfl, -⟩ := List.append_eq_nil_iff.mp hnil.symm
    exact absurd hlen.symm hne

/-- A byte behind the `i` of an integer that the parser passes over. -/
def Junk (c : UInt8) : Prop := c ≠ ch '+' ∧ c ≠ ch '-' ∧ isDigit c = false

theorem expects_turnNumber (hs : p.currentState = .number)
    (h : p.turnNumber data = some (.go q data')) (hq : Expects least q data' rest) :
    ExpectsNumber least p data rest := by
  unfold BencodeParser.turnNumber at h
  dsimp only at h
  split at h
  · exact absurd h Turn.not_fail_eq_go
  next n hread =>
    obtain ⟨rfl, hmax⟩ := readDigits_spec hread
    split at h
    · cases h
      exact absurd hq (not_expects_nil (.inr hs))
    next c cs hdrop =>
      have hdata := eq_append_of_dropWhile hdrop
      split at h
      · exact absurd h Turn.not_fail_eq_go
      next hcount =>
        split at h
        next hfloat =>
          cases h
          obtain ⟨tail, data', rfl, htail, hcompletes⟩ := hq
          exact ⟨_, c :: tail, data', hdata, digits_takeWhile, hcount, hmax,
            .inr ⟨c, tail, rfl, isDigit_of_dropWhile hdrop, List.forall_mem_cons.mpr ⟨hfloat, htail⟩⟩,
            hcompletes⟩
        · split at h
          · exact absurd h Turn.not_fail_eq_go
          next hend =>
            obtain rfl := Decidable.of_not_not hend
            obtain ⟨q', hnumber, ⟨⟩⟩ := Option.bind_eq_some_iff.mp h
            obtain ⟨q'', hend, hvalue⟩ := Option.bind_eq_some_iff.mp hnumber
            have hcompletes := completes_of_onValueEnd hvalue hq
            rw [runEndCallback_stack hend] at hcompletes
            exact ⟨_, [], _, hdata, digits_takeWhile, hcount, hmax, .inl rfl, hcompletes⟩

theorem expects_turnFloat (h : p.turnFloat c cs = some (.go q data'))
    (hs : p.currentState = .floatNumberIgnore) (hq : Expects least q data' rest) :
    Expects least p (c :: cs) rest := by
  unfold BencodeParser.turnFloat at h
  have hgoal : Expects least p (c :: cs) rest ↔ ∃ tail data', c :: cs = tail ++ ch 'e' :: data' ∧
      (∀ c ∈ tail, floatChar c = true) ∧ Completes least p.stateStack data' rest := by
    unfold Expects
    simp only [hs]
  rw [hgoal]
  split at h
  next hfloat =>
    cases h
    unfold Expects at hq
    simp only [hs] at hq
    obtain ⟨tail, data', rfl, htail, hcompletes⟩ := hq
    exact ⟨c :: tail, data', rfl, List.forall_mem_cons.mpr ⟨hfloat, htail⟩, hcompletes⟩
  · split at h
    · exact absurd h Turn.not_fail_eq_go
    next hend =>
      obtain rfl := Decidable.of_not_not hend
      obtain ⟨q', hnumber, ⟨⟩⟩ := Option.bind_eq_some_iff.mp h
      obtain ⟨q'', hend, hvalue⟩ := Option.bind_eq_some_iff.mp hnumber
      have hcompletes := completes_of_onValueEnd hvalue hq
      rw [runEndCallback_stack hend] at hcompletes
      exact ⟨[], _, rfl, fun _ hc => (nomatch hc), hcompletes⟩

theorem denotes_number {room : Nat} {sign digits tail : Bytes} {i : Int}
    (hleast : least ≤ -INT64_MAX) (hsign : Sign sign i) (hdigits : Digits digits)
    (hmax : digitsValue 0 digits ≤ INT64_MAX) (htail : tail = [] ∨ FloatTail tail) :
    ∃ v, Denotes least room (ch 'i' :: (sign ++ (digits ++ (tail ++ [ch 'e'])))) v := by
  obtain rfl | htail := htail
  · refine ⟨_, .integer hsign hdigits ?_ ?_⟩ <;> cases hsign <;> omega
  · exact ⟨_, .float hsign hdigits hmax htail⟩

omit [StructParserStateMachine μ] in
theorem expects_turnSign (hleast : least ≤ -INT64_MAX) (h : p.turnSign c cs = some (.go q data'))
    (hs : p.currentState = .numberSign) (hjunk : ¬Junk c) (hq : Expects least q data' rest) :
    Expects least p (c :: cs) rest := by
  unfold Expects
  simp only [hs]
  intro hnumber hcount
  -- all three ways lead to the digits
  obtain ⟨sign, digits₀, i, hsign, hdigits₀, htext, hstate, hstack, hvalue, hconsumed, hnine⟩ :
      ∃ sign digits₀ i, Sign sign i ∧ (∀ c ∈ digits₀, isDigit c = true) ∧
        c :: cs = sign ++ (digits₀ ++ data') ∧ q.currentState = .number ∧
        q.stateStack = p.stateStack ∧ q.number = digitsValue 0 digits₀ ∧
        q.numConsumed = digits₀.length ∧ q.number ≤ 9 := by
    unfold BencodeParser.turnSign at h
    by_cases hplus : c = ch '+'
    · rw [if_pos hplus] at h
      cases h
      exact ⟨_, [], _, .plus, fun _ hc => (nomatch hc), hplus ▸ rfl, rfl, rfl, hnumber, hcount,
        hnumber.le.trans (by decide)⟩
    · rw [if_neg hplus] at h
      by_cases hminus : c = ch '-'
      · rw [if_pos hminus] at h
        cases h
        exact ⟨_, [], _, .minus, fun _ hc => (nomatch hc), hminus ▸ rfl, rfl, rfl, hnumber,
          hcount, hnumber.le.trans (by decide)⟩
      · rw [if_neg hminus] at h
        have hdigit : isDigit c = true :=
          eq_true_of_ne_false fun hdigit => hjunk ⟨hplus, hminus, hdigit⟩
        rw [if_pos hdigit] at h
        cases h
        refine ⟨_, [c], _, .none, List.forall_mem_singleton.mpr hdigit, rfl, rfl, rfl, ?_, rfl,
          digit_le hdigit⟩
        change digit c = 0 * 10 + digit c
        rw [Nat.zero_mul, Nat.zero_add]
  unfold Expects at hq
  simp only [hstate] at hq
  obtain ⟨digits, tail, data', rfl, hdigits, hcount, hmax, htail, hcompletes⟩ := hq
  have hall : Digits (digits₀ ++ digits) := by
    refine ⟨fun hnil => ?_, fun c hc => (List.mem_append.mp hc).elim (hdigits₀ c) (hdigits c)⟩
    obtain ⟨rfl, rfl⟩ := List.append_eq_nil_iff.mp hnil
    exact hcount hconsumed
  have hrange : digitsValue 0 (digits₀ ++ digits) ≤ INT64_MAX := by
    rw [digitsValue_append, ← hvalue]
    exact hmax (hnine.trans (by decide))
  obtain ⟨v, hv⟩ : ∃ v, Denotes least (50 - p.stateStack.length) _ v :=
    denotes_number hleast hsign hall hrange htail
  refine ⟨_, v, data', ?_, hv, hstack ▸ hcompletes⟩
  simp [htext]

theorem expects_turnValue (h : p.turnValue c cs = some (.go q data'))
    (hq : Expects least q data' rest) : ExpectsValue least p.stateStack (c :: cs) rest := by
  unfold BencodeParser.turnValue at h
  dsimp only at h
  split at h
  next hc =>
    obtain ⟨q', hbegin, ⟨⟩⟩ := Option.bind_eq_some_iff.mp h
    obtain ⟨psm, -, rfl⟩ := Option.map_eq_some_iff.mp hbegin
    obtain ⟨b, d, data', rfl, hmembers, hcompletes⟩ := hq
    exact ⟨_, _, data', by simp [hc], .dict hmembers, hcompletes⟩
  · split at h
    next hc =>
      obtain ⟨q', hbegin, ⟨⟩⟩ := Option.bind_eq_some_iff.mp h
      obtain ⟨psm, -, rfl⟩ := Option.map_eq_some_iff.mp hbegin
      obtain ⟨b, l, data', rfl, helements, hcompletes⟩ := hq
      exact ⟨_, _, data', by simp [hc], .list helements, hcompletes⟩
    · split at h
      next hc =>
        obtain ⟨q', hbegin, ⟨⟩⟩ := Option.bind_eq_some_iff.mp h
        obtain ⟨psm, -, rfl⟩ := Option.map_eq_some_iff.mp hbegin
        obtain ⟨b, v, data', rfl, hv, hcompletes⟩ := hq rfl rfl
        exact ⟨_, v, data', by rw [hc]; rfl, hv, hcompletes⟩
      · split at h
        next hdigit =>
          obtain ⟨q', hbegin, ⟨⟩⟩ := Option.bind_eq_some_iff.mp h
          obtain ⟨psm, -, rfl⟩ := Option.map_eq_some_iff.mp hbegin
          obtain ⟨digits, s, data', rfl, hdigits, -, hlen, hmax, hcompletes⟩ := hq
          have hvalue : digitsValue 0 (c :: digits) = s.length := by
            rw [← hlen]
            change digitsValue (0 * 10 + digit c) digits = digitsValue (digit c) digits
            rw [Nat.zero_mul, Nat.zero_add]
          have hstring := DenotesString.mk ⟨List.cons_ne_nil c digits,
            List.forall_mem_cons.mpr ⟨hdigit, hdigits⟩⟩ hvalue
            (hmax ((digit_le hdigit).trans (by decide)))
          exact ⟨_, _, data', by simp, .string hstring, hcompletes⟩
        · exact absurd h Turn.not_fail_eq_go

/-- What a turn has read stands before what its outcome waits for. -/
theorem expects_turn (hleast : least ≤ -INT64_MAX) (hgoing : scanner.finished p = false)
    (h : scanner.turn p c cs = some (.go q data'))
    (hjunk : ¬(p.currentState = .numberSign ∧ Junk c)) (hq : Expects least q data' rest) :
    Expects least p (c :: cs) rest := by
  change p.turn c cs = _ at h
  unfold BencodeParser.turn at h
  dsimp only at h
  cases hs : p.currentState <;> rw [hs] at h <;> dsimp only at h
  case finish => simp [scanner, hs] at hgoing
  case error | dictVal =>
    cases h
    unfold Expects at hq
    simp only [hs] at hq
  case initial | value =>
    unfold Expects
    simp only [hs]
    exact expects_turnValue h hq
  case list =>
    have hgoal : Completes least (.list :: p.stateStack) (c :: cs) rest := by
      split at h
      next hc =>
        obtain ⟨rfl, hcompletes⟩ := completes_of_end h hq
        exact ⟨[], [], _, by rw [hc]; rfl, .nil, hcompletes⟩
      · split at h
        · exact absurd h Turn.not_fail_eq_go
        next p' hpush =>
          obtain ⟨hlt, rfl⟩ := pushState_eq_some hpush
          obtain ⟨p'', hbegin, hturn⟩ := Option.bind_eq_some_iff.mp h
          obtain ⟨psm, -, rfl⟩ := Option.map_eq_some_iff.mp hbegin
          obtain ⟨b, v, _, htext, hv, b', l, data', rfl, hl, hcompletes⟩ :=
            expects_turnValue hturn hq
          obtain ⟨room, hroom⟩ : ∃ room, 50 - p.stateStack.length = room + 1 :=
            ⟨49 - p.stateStack.length, by omega⟩
          have hroom' : 50 - (p.stateStack.length + 1) = room := by omega
          change Denotes least (50 - (p.stateStack.length + 1)) b v at hv
          rw [hroom'] at hv
          rw [hroom] at hl
          refine ⟨b ++ b', v :: l, data', by rw [htext, List.append_assoc], ?_, hcompletes⟩
          rw [hroom]
          exact .cons hv hl
    unfold Expects
    simpa only [hs] using hgoal
  case dictKey =>
    have hgoal : Completes least (.dictVal :: p.stateStack) (c :: cs) rest := by
      split at h
      next hc =>
        obtain ⟨rfl, hcompletes⟩ := completes_of_end h hq
        exact ⟨[], [], _, by rw [hc]; rfl, .nil, hcompletes⟩
      · split at h
        · exact absurd h Turn.not_fail_eq_go
        next p' hpush =>
          obtain ⟨hlt, rfl⟩ := pushState_eq_some hpush
          obtain ⟨p'', hbegin, hturn⟩ := Option.bind_eq_some_iff.mp h
          obtain ⟨psm, -, rfl⟩ := Option.map_eq_some_iff.mp hbegin
          obtain ⟨digits, key, _, htext, hdigits, hcount, hlen, hmax, hcompletes⟩ :=
            expects_turnStringLen rfl hturn hq
          obtain ⟨b, v, b', d, data', rfl, hv, hd, hcompletes⟩ := hcompletes hlt
          obtain ⟨room, hroom⟩ : ∃ room, 50 - p.stateStack.length = room + 1 :=
            ⟨49 - p.stateStack.length, by omega⟩
          have hroom' : 49 - p.stateStack.length = room := by omega
          rw [hroom'] at hv
          rw [hroom] at hd
          have hkey := DenotesString.mk ⟨fun hnil => hcount (by rw [hnil]; rfl), hdigits⟩ hlen
            (hmax (Nat.zero_le _))
          refine ⟨(digits ++ ch ':' :: key) ++ (b ++ b'), (key, v) :: d, data', ?_, ?_, hcompletes⟩
          · rw [htext]
            simp
          · rw [hroom]
            exact .cons hkey hv hd
    unfold Expects
    simpa only [hs] using hgoal
  case stringLen =>
    unfold Expects
    simp only [hs]
    exact expects_turnStringLen hs h hq
  case string => exact expects_turnString h hs hq
  case numberSign => exact expects_turnSign hleast h hs (fun hc => hjunk ⟨hs, hc⟩) hq
  case number =>
    unfold Expects
    simp only [hs]
    exact expects_turnNumber hs h hq
  case floatNumberIgnore => exact expects_turnFloat h hs hq

/-- Reading the text, the parser passes over a byte behind the `i` of an integer. -/
def PassesOver (p : BencodeParser μ) (data : Bytes) : Prop :=
  ∃ q c cs, scanner.Steps p data q (c :: cs) ∧ q.currentState = .numberSign ∧ Junk c

theorem expects_steps (hleast : least ≤ -INT64_MAX) (h : scanner.Steps p data q data')
    (hpass : ¬PassesOver p data) (hq : Expects least q data' rest) : Expects least p data rest := by
  induction h with
  | refl => exact hq
  | head hgoing hturn hsteps ih =>
    refine expects_turn hleast hgoing hturn (fun ⟨hs, hc⟩ => hpass ⟨_, _, _, .refl .., hs, hc⟩)
      (ih ?_ hq)
    rintro ⟨q, c, cs, hsteps', hs, hc⟩
    exact hpass ⟨q, c, cs, .head hgoing hturn hsteps', hs, hc⟩

end Turns

end FluxCore.Bencode
