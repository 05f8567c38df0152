import FluxCore.Json.Streaming

/-!
# The elements that are open

The callbacks of the parser nest: at every point the elements that have begun and not ended are
those that its stack and its state stand for. Errors leave the parser in a state of its own, except
where the stack is full.
-/

namespace FluxCore.Json

open Utp (Bytes)
open Struct

namespace JsonParser

/-- The elements that an entry of the stack stands for, the inner one first. -/
def entry : State → List ElementType
  | .objectKey => [.dictKey, .dict]
  | .objectVal => [.dictData, .dict]
  | .array => [.arrayData, .array]
  | _ => []

/-- The element that the parser is in, in a state and with a stack below it. -/
def current (s : State) (stack : List State) : List ElementType :=
  match s with
  | .objectKey | .objectVal | .objectSep => [.dict]
  | .array | .arraySep => [.array]
  | .string | .stringEscape | .stringUnicode | .stringLowSurrogateEscape | .stringLowSurrogateU
  | .stringLowSurrogate => if stack.head? = some .objectKey then [] else [.string]
  | .number | .numberFrac | .numberExpSign | .numberExp => [.number]
  | .true | .false => [.bool]
  | .null => [.null]
  | .finish | .error | .value => []

/-- The states inside a string, which may be the key of a member. -/
def InString : State → Prop
  | .string | .stringEscape | .stringUnicode | .stringLowSurrogateEscape | .stringLowSurrogateU
  | .stringLowSurrogate => True
  | _ => False

/-- A stack as it is around a value: `JSON_FINISH` at the bottom, then members and elements. -/
inductive Stack : List State → Prop
  | finish : Stack [.finish]
  | val {stack} (h : Stack stack) : Stack (.objectVal :: stack)
  | array {stack} (h : Stack stack) : Stack (.array :: stack)

theorem Stack.head?_ne {stack : List State} (h : Stack stack) : stack.head? ≠ some .objectKey := by
  cases h <;> simp

variable {ν : Type} {p q : JsonParser (Callbacks × ν)}

/-- The elements open in the callbacks made. -/
def opens (p : JsonParser (Callbacks × ν)) : Option (List ElementType) :=
  Callbacks.openElements p.psm.1.made

/-- The open elements are those that the stack stands for, and below them the one that the parser is
in; an error leaves them as they are. -/
def Balanced (p : JsonParser (Callbacks × ν)) : Prop :=
  ∃ s, (p.currentState ≠ .error → s = p.currentState) ∧
    p.opens = some (current s p.stateStack ++ p.stateStack.flatMap entry)

/-- What holds between the turns; only inside a key there is one on the stack. -/
structure Inv (p : JsonParser (Callbacks × ν)) : Prop where
  opens : p.opens = some (current p.currentState p.stateStack ++ p.stateStack.flatMap entry)
  stack : Stack p.stateStack ∨
    InString p.currentState ∧ ∃ stack, p.stateStack = .objectKey :: stack ∧ Stack stack
  depth : p.stateStack.length ≤ 50
  room : p.currentState = .objectVal ∨ p.currentState = .arraySep → p.stateStack.length < 50
  going : p.currentState ≠ .error

theorem Inv.balanced (h : p.Inv) : p.Balanced := ⟨p.currentState, fun _ => rfl, h.opens⟩

theorem Inv.notKey (h : p.Inv) (hs : ¬InString p.currentState) : Stack p.stateStack :=
  h.stack.resolve_right fun hkey => hs hkey.1

/-- The parser has stopped at an error. -/
structure Stopped (p : JsonParser (Callbacks × ν)) (e : JsonError) : Prop where
  currentState : p.currentState = .error
  lastError : p.lastError = some e
  balanced : p.Balanced

/-- The states in which the stack may be full. -/
def MayBeFull : State → Prop
  | .objectVal | .arraySep | .error => False
  | _ => True

/-- A step to another state with the same open elements. -/
theorem Inv.move (h : p.Inv) (hstack : q.stateStack = p.stateStack) (hopens : q.opens = p.opens)
    (hcurrent : current q.currentState p.stateStack = current p.currentState p.stateStack)
    (hstring : InString p.currentState → InString q.currentState)
    (hroom : q.currentState = p.currentState ∨ MayBeFull q.currentState) : q.Inv where
  opens := by rw [hopens, hstack, hcurrent, h.opens]
  stack := by
    rw [hstack]
    exact h.stack.imp_right fun ⟨hs, hkey⟩ => ⟨hstring hs, hkey⟩
  depth := hstack ▸ h.depth
  room hq := by
    rw [hstack]
    rcases hroom with heq | hfull
    · exact h.room (heq ▸ hq)
    · rcases hq with hq | hq <;> exact ((hq ▸ hfull : MayBeFull _) : False).elim
  going hq := by
    rcases hroom with heq | hfull
    · exact h.going (heq ▸ hq)
    · exact ((hq ▸ hfull : MayBeFull .error) : False)

/-- The parser leaves what is on top of its stack. -/
theorem inv_popState {s x : State} {stack : List State} (hst : p.stateStack = x :: stack)
    (hstack : Stack stack) (hdepth : (x :: stack).length ≤ 50) (hs : s ≠ .error)
    (hopens : p.opens = some (current s stack ++ stack.flatMap entry)) :
    (p.popState.at_ s).Inv := by
  have htail : (p.popState.at_ s).stateStack = stack := by simp [at_, popState, hst]
  refine ⟨?_, .inl (htail ▸ hstack), ?_, fun _ => ?_, hs⟩
  · rw [htail]
    exact hopens
  · rw [htail]
    exact Nat.le_of_succ_le hdepth
  · rw [htail]
    exact hdepth

section Callbacks

theorem openElements_addCharacters (l : Callbacks) (data : Bytes) :
    Callbacks.openElements (l.addCharacters data).made = Callbacks.openElements l.made := by
  unfold Callbacks.addCharacters
  split
  next h => rw [h]; rfl
  · rfl

variable [StructParserStateMachine ν]

theorem opens_runCharactersCallback (p : JsonParser (Callbacks × ν)) (data : Bytes) :
    (p.runCharactersCallback data).opens = p.opens := openElements_addCharacters p.psm.1 data

/-- What a callback leaves as it is. -/
def Same (p q : JsonParser (Callbacks × ν)) : Prop :=
  q.currentState = p.currentState ∧ q.stateStack = p.stateStack

theorem runBeginCallback_spec {e : ElementType} (h : p.runBeginCallback e = some q) :
    q.opens = p.opens.map (e :: ·) ∧ p.Same q := by
  obtain ⟨m, hm, rfl⟩ := Option.map_eq_some_iff.mp h
  obtain ⟨m₁, hm₁, hm⟩ := Option.bind_eq_some_iff.mp hm
  obtain ⟨m₂, hm₂, hm⟩ := Option.bind_eq_some_iff.mp hm
  cases hm₁
  cases hm
  exact ⟨rfl, rfl, rfl⟩

theorem runEndCallback_spec {e : ElementType} {es : List ElementType}
    (hp : p.opens = some (e :: es)) (h : p.runEndCallback e = some q) :
    q.opens = some es ∧ p.Same q := by
  obtain ⟨m, hm, rfl⟩ := Option.map_eq_some_iff.mp h
  obtain ⟨m₁, hm₁, hm⟩ := Option.bind_eq_some_iff.mp hm
  obtain ⟨m₂, hm₂, hm⟩ := Option.bind_eq_some_iff.mp hm
  cases hm₁
  cases hm
  exact ⟨Callbacks.openElements_endElement hp, rfl, rfl⟩

end Callbacks

section Ends

variable [StructParserStateMachine ν]

/-- The parser at the end of a value, before `onValueEnd`: only what is around the value is open. -/
structure Closed (p : JsonParser (Callbacks × ν)) : Prop where
  opens : p.opens = some (match p.stateStack with
    | .objectKey :: stack => .dict :: stack.flatMap entry
    | stack => stack.flatMap entry)
  stack : Stack p.stateStack ∨ ∃ stack, p.stateStack = .objectKey :: stack ∧ Stack stack
  depth : p.stateStack.length ≤ 50

theorem Closed.onValueEnd (h : p.Closed) (hq : p.onValueEnd = some q) : q.Inv := by
  have hopens := h.opens
  have hdepth := h.depth
  obtain hs | ⟨stack, hs, hstack⟩ := h.stack
  · generalize hst : p.stateStack = st at hs hopens hdepth
    rw [JsonParser.onValueEnd, hst] at hq
    cases hs with
    | finish =>
      cases hq
      refine ⟨?_, .inl (hst ▸ .finish), ?_, nofun, nofun⟩
      · change p.opens = some (current .finish p.stateStack ++ p.stateStack.flatMap entry)
        rw [hst]
        exact hopens
      · change p.stateStack.length ≤ 50
        rw [hst]
        exact hdepth
    | val hs | array hs =>
      obtain ⟨q', hq', rfl⟩ := Option.map_eq_some_iff.mp hq
      obtain ⟨hopens', -, hstack'⟩ := runEndCallback_spec hopens hq'
      exact inv_popState (hstack'.trans hst) hs hdepth nofun hopens'
  · rw [hs] at hopens hdepth
    rw [JsonParser.onValueEnd, hs] at hq
    cases hq
    exact inv_popState hs hstack hdepth nofun hopens

/-- A value of one element ends. -/
theorem Closed.of_end {e : ElementType} {x : Option (JsonParser (Callbacks × ν))}
    (hstack : Stack p.stateStack) (hdepth : p.stateStack.length ≤ 50)
    (hopens : p.opens = some (e :: p.stateStack.flatMap entry))
    (hx : x = (p.runEndCallback e).bind JsonParser.onValueEnd) : ∀ q ∈ x, q.Inv := by
  rintro q hq
  obtain ⟨q', hq', hq⟩ := Option.bind_eq_some_iff.mp (hx ▸ hq)
  obtain ⟨hopens', -, hstack'⟩ := runEndCallback_spec hopens hq'
  rw [← hstack'] at hstack hdepth hopens'
  refine Closed.onValueEnd ⟨?_, .inl hstack, hdepth⟩ hq
  rw [hopens']
  generalize q'.stateStack = stack at hstack
  cases hstack <;> rfl

theorem Inv.onStringEnd (h : p.Inv) (hs : p.currentState = .string) :
    ∀ q ∈ p.onStringEnd, q.Inv := by
  have hopens := h.opens
  obtain hstack | ⟨-, stack, hst, hstack⟩ := h.stack
  · rw [hs, current, if_neg hstack.head?_ne] at hopens
    refine Closed.of_end hstack h.depth hopens ?_
    rw [JsonParser.onStringEnd, if_neg hstack.head?_ne]
    rfl
  · intro q hq
    simp only [JsonParser.onStringEnd, hst, List.head?_cons, if_true] at hq
    rw [hs, current, hst, List.head?_cons, if_pos rfl] at hopens
    obtain ⟨q', hq', hq⟩ := Option.bind_eq_some_iff.mp hq
    obtain ⟨hopens', -, hstack'⟩ := runEndCallback_spec hopens hq'
    rw [hst] at hstack'
    refine Closed.onValueEnd ⟨?_, .inr ⟨stack, hstack', hstack⟩, hstack' ▸ hst ▸ h.depth⟩ hq
    rw [hopens', hstack']
    rfl

theorem Inv.onNumberEnd (h : p.Inv) (hs : current p.currentState p.stateStack = [.number])
    (hstring : ¬InString p.currentState) : ∀ q ∈ p.onNumberEnd, q.Inv := by
  have hopens := h.opens
  rw [hs] at hopens
  exact Closed.of_end (p := { p with
    psm := StructParserStateMachine.numberCallback p.psm (p.numberSign * p.number) p.frac
      (p.expSign * p.exp) }) (h.notKey hstring) h.depth hopens rfl

end Ends

section Turns

variable {c : UInt8} {rest data : Bytes}

/-- The stack is full, and the parser is about to go deeper. -/
def Full (p : JsonParser (Callbacks × ν)) (c : UInt8) : Prop :=
  50 ≤ p.stateStack.length ∧
    (p.currentState = .array ∧ c ≠ ch ']' ∧ isSpace c = false ∨
      p.currentState = .objectKey ∧ c = ch '\"')

/-- The outcome of a turn keeps the elements balanced, and is an error to stay in unless the stack
was full. -/
def Keeps (full : Prop) (x : Option (Step (Callbacks × ν))) : Prop :=
  match x with
  | none => True
  | some (.go q _) => q.Inv
  | some (.fail q e) => q.Stopped e ∨ full ∧ q.Inv ∧ e = .structureTooDeep

variable {full : Prop}

theorem Inv.fail (h : p.Inv) (e : JsonError) : Keeps full (p.fail e) :=
  .inl ⟨rfl, rfl, p.currentState, fun hne => absurd rfl hne, h.opens⟩

theorem Keeps.ends {x : Option (JsonParser (Callbacks × ν))} (h : ∀ q ∈ x, q.Inv) :
    Keeps full (x >>= fun q => q.go rest) := by
  cases x with
  | none => trivial
  | some q => exact h q rfl

theorem Keeps.ite {b : Prop} [Decidable b] {x y : Option (Step (Callbacks × ν))}
    (hx : b → Keeps full x) (hy : ¬b → Keeps full y) : Keeps full (if b then x else y) := by
  split
  next h => exact hx h
  next h => exact hy h

/-- The state does not leave the string. -/
theorem Inv.inString (h : p.Inv) (hp : InString p.currentState) (hq : InString q.currentState)
    (hstack : q.stateStack = p.stateStack) (hopens : q.opens = p.opens) : q.Inv := by
  refine h.move hstack hopens ?_ (fun _ => hq) (.inr ?_)
  · generalize p.currentState = s at hp
    generalize q.currentState = s' at hq
    cases s <;> cases s' <;> first | rfl | exact (hp : False).elim | exact (hq : False).elim
  · generalize q.currentState = s' at hq
    cases s' <;> trivial

theorem Inv.turnLiteral (h : p.Inv) {literal : Bytes}
    {onEnd : JsonParser (Callbacks × ν) → Option (JsonParser (Callbacks × ν))}
    (hend : ∀ q : JsonParser (Callbacks × ν), q.opens = p.opens → q.stateStack = p.stateStack →
      ∀ q' ∈ onEnd q, q'.Inv) :
    Keeps full (p.turnLiteral literal onEnd c rest) := by
  refine .ite (fun _ => .ite (fun _ => .ends (hend _ rfl rfl)) fun _ => ?_) fun _ => h.fail _
  exact h.move rfl rfl rfl id (.inl rfl)

theorem Inv.turnDigits
    {add : JsonParser (Callbacks × ν) → Bytes → Option (JsonParser (Callbacks × ν))}
    {next : JsonParser (Callbacks × ν) → UInt8 → Bytes → Option (Step (Callbacks × ν))}
    (h : p.Inv) (hcounts : ∀ {q xs}, add p xs = some q → p.Counts q)
    (hnext : ∀ q, q.Inv → q.currentState = p.currentState → ∀ c rest,
      Keeps full (next q c rest)) :
    Keeps full (JsonParser.turnDigits add next p data) := by
  unfold JsonParser.turnDigits
  split
  · exact h.fail _
  next q hadd =>
    obtain ⟨hstate, hpsm, hstack⟩ := hcounts hadd
    have hq : q.Inv := h.move hstack (congrArg (fun m : Callbacks × ν => Callbacks.openElements m.1.made) hpsm)
      (by rw [hstate]) (by rw [hstate]; exact id) (.inl hstate)
    split
    · exact hq
    · exact .ite (fun _ => hq.fail _) fun _ => hnext q hq hstate _ _

theorem pushState_eq_none {s : State} (h : p.pushState s = none) : 50 ≤ p.stateStack.length := by
  unfold pushState at h
  split at h
  next hle => exact hle
  · exact nomatch h

variable [StructParserStateMachine ν]

/-- A value of one element begins. -/
theorem Inv.begins (h : p.Inv) (hp : p.currentState = .value) {s : State} {e : ElementType}
    (hs : current s p.stateStack = [e])
    (hroom : MayBeFull s) {p₁ : JsonParser (Callbacks × ν)} (hopens : p₁.opens = p.opens)
    (hstate : p₁.currentState = s) (hstack : p₁.stateStack = p.stateStack) : ∀ q ∈ p₁.runBeginCallback e, q.Inv := by
  intro q hq
  obtain ⟨hopens', hsame, hsame'⟩ := runBeginCallback_spec hq
  rw [hstate] at hsame
  rw [hstack] at hsame'
  have hopens₀ := h.opens
  rw [hp] at hopens₀
  refine ⟨?_, .inl ?_, hsame' ▸ h.depth, ?_, ?_⟩
  · rw [hopens', hopens, hopens₀, hsame, hsame', hs]
    rfl
  · rw [hsame']
    exact h.notKey (by rw [hp]; exact id)
  · rw [hsame]
    rintro (rfl | rfl) <;> exact (hroom : False).elim
  · rw [hsame]
    rintro rfl
    exact hroom

theorem Inv.turnValue (h : p.Inv) (hp : p.currentState = .value) :
    Keeps full (p.turnValue c rest) := by
  have hkey : p.stateStack.head? ≠ some .objectKey :=
    (h.notKey (by rw [hp]; exact id)).head?_ne
  have hbegin : ∀ {s : State} {e : ElementType} {p₁ : JsonParser (Callbacks × ν)},
      current s p.stateStack = [e] → MayBeFull s →
      p₁.opens = p.opens → p₁.stateStack = p.stateStack →
      Keeps full ((p₁.at_ s).runBeginCallback e >>= fun q => q.go rest) :=
    fun hs hroom hopens hstack => .ends (h.begins hp hs hroom hopens rfl hstack)
  refine .ite (fun _ => hbegin rfl trivial rfl rfl) fun _ => ?_
  refine .ite (fun _ => hbegin rfl trivial rfl rfl) fun _ => ?_
  refine .ite (fun _ => hbegin (if_neg hkey) trivial rfl rfl) fun _ => ?_
  refine .ite (fun _ => hbegin rfl trivial rfl rfl) fun _ => ?_
  refine .ite (fun _ => hbegin rfl trivial rfl rfl) fun _ => ?_
  refine .ite (fun _ => hbegin rfl trivial rfl rfl) fun _ => ?_
  refine .ite (fun _ => hbegin rfl trivial rfl rfl) fun _ => ?_
  refine .ite (fun _ => hbegin rfl trivial rfl rfl) fun _ => ?_
  exact .ite (fun _ => h) fun _ => h.fail _

theorem Inv.turnString (h : p.Inv) (hp : p.currentState = .string) :
    Keeps full (p.turnString c rest) := by
  refine .ite (fun _ => .ends (h.onStringEnd hp)) fun _ => .ite (fun _ => ?_) fun _ => ?_
  · exact h.inString (by rw [hp]; trivial) trivial rfl rfl
  · exact h.move rfl (opens_runCharactersCallback p _) rfl id (.inl rfl)

theorem Inv.turnEscape (h : p.Inv) (hp : p.currentState = .stringEscape) :
    Keeps full (p.turnEscape c rest) := by
  have hs : InString p.currentState := by rw [hp]; trivial
  exact .ite (fun _ => h.inString hs trivial rfl rfl) fun _ =>
    h.inString hs trivial rfl (opens_runCharactersCallback p _)

theorem Inv.consumeUnicode (h : p.Inv) (hp : p.currentState = .stringUnicode) :
    (p.consumeUnicode c).Inv := by
  have hs : InString p.currentState := by rw [hp]; trivial
  unfold JsonParser.consumeUnicode
  dsimp only
  split
  · split
    · exact h.inString hs trivial rfl rfl
    · exact h.inString hs trivial rfl (opens_runCharactersCallback _ _)
  · exact h.move rfl rfl rfl id (.inl rfl)

theorem Inv.turnUnicode (h : p.Inv) : Keeps full (p.turnUnicode data) := by
  induction data generalizing p with
  | nil => exact h
  | cons c data ih =>
    unfold JsonParser.turnUnicode
    split
    · exact h
    next hne =>
      split
      · exact ih (h.consumeUnicode (not_not.mp hne))
      · exact h.fail _

theorem Inv.consumeLowSurrogate (h : p.Inv) (hp : p.currentState = .stringLowSurrogate) :
    ∀ q ∈ p.consumeLowSurrogate c, q.Inv := by
  have hs : InString p.currentState := by rw [hp]; trivial
  intro q hq
  unfold JsonParser.consumeLowSurrogate at hq
  dsimp only at hq
  split at hq
  · split at hq
    · cases hq
      exact h.inString hs trivial rfl (opens_runCharactersCallback _ _)
    · exact nomatch hq
  · cases hq
    exact h.move rfl rfl rfl id (.inl rfl)

theorem Inv.turnLowSurrogate (h : p.Inv) : Keeps full (p.turnLowSurrogate data) := by
  induction data generalizing p with
  | nil => exact h
  | cons c data ih =>
    unfold JsonParser.turnLowSurrogate
    split
    · exact h
    next hne =>
      split
      · split
        next q hq => exact ih (h.consumeLowSurrogate (not_not.mp hne) q hq)
        · exact h.fail _
      · exact h.fail _

theorem Inv.endNumber (h : p.Inv) (hs : current p.currentState p.stateStack = [.number])
    (hstring : ¬InString p.currentState) : Keeps full (p.endNumber c rest) :=
  .ends (h.onNumberEnd hs hstring)

theorem Inv.turnNumber (h : p.Inv) (hp : p.currentState = .number) :
    Keeps full (p.turnNumber data) := by
  refine h.turnDigits counts_addNumber fun q hq hstate c rest => ?_
  rw [hp] at hstate
  refine .ite (fun _ => ?_) fun _ => .ite (fun _ => ?_) fun _ => ?_
  · exact hq.move rfl rfl (by rw [hstate]; rfl) (by rw [hstate]; exact id) (.inr trivial)
  · exact hq.move rfl rfl (by rw [hstate]; rfl) (by rw [hstate]; exact id) (.inr trivial)
  · exact hq.endNumber (by rw [hstate]; rfl) (by rw [hstate]; exact id)

theorem Inv.turnFrac (h : p.Inv) (hp : p.currentState = .numberFrac) :
    Keeps full (p.turnFrac data) := by
  refine h.turnDigits counts_addFrac fun q hq hstate c rest => ?_
  rw [hp] at hstate
  refine .ite (fun _ => ?_) fun _ => ?_
  · exact hq.move rfl rfl (by rw [hstate]; rfl) (by rw [hstate]; exact id) (.inr trivial)
  · exact hq.endNumber (by rw [hstate]; rfl) (by rw [hstate]; exact id)

theorem Inv.turnExp (h : p.Inv) (hp : p.currentState = .numberExp) :
    Keeps full (p.turnExp data) := by
  refine h.turnDigits counts_addExp fun q hq hstate c rest => ?_
  rw [hp] at hstate
  exact hq.endNumber (by rw [hstate]; rfl) (by rw [hstate]; exact id)

/-- A container ends. -/
theorem Inv.containerEnd (h : p.Inv) {e : ElementType}
    (hs : current p.currentState p.stateStack = [e]) (hstring : ¬InString p.currentState) :
    ∀ q ∈ (p.runEndCallback e).bind JsonParser.onValueEnd, q.Inv := by
  have hopens := h.opens
  rw [hs] at hopens
  exact Closed.of_end (h.notKey hstring) h.depth hopens rfl

/-- The parser goes into a container: what it pushes stands for the container and for `e`. -/
theorem Inv.goIn (h : p.Inv) {x s : State} {e e' : ElementType} {p₁ : JsonParser (Callbacks × ν)}
    (hcur : current p.currentState p.stateStack = [e']) (hstring : ¬InString p.currentState)
    (hpush : p.pushState x = some p₁) (hx : entry x = [e, e'])
    (hstack : Stack (x :: p.stateStack) ∧ s = .value ∨ x = .objectKey ∧ s = .string) :
    ∀ q ∈ (p₁.at_ s).runBeginCallback e, q.Inv := by
  intro q hq
  have hnotKey := h.notKey hstring
  have hopens := h.opens
  rw [hcur] at hopens
  unfold pushState at hpush
  split at hpush
  · exact nomatch hpush
  next hdepth =>
    cases hpush
    obtain ⟨hopens', hstate', hstack'⟩ := runBeginCallback_spec hq
    change q.stateStack = x :: p.stateStack at hstack'
    change q.currentState = s at hstate'
    have hall : q.opens = some ((x :: p.stateStack).flatMap entry) := by
      rw [hopens', List.flatMap_cons, hx]
      exact congrArg (Option.map (e :: ·)) hopens
    have hlen : (x :: p.stateStack).length ≤ 50 := Nat.lt_of_not_le hdepth
    obtain ⟨hstack, rfl⟩ | ⟨rfl, rfl⟩ := hstack
    · refine ⟨?_, .inl (hstack' ▸ hstack), hstack' ▸ hlen, ?_, ?_⟩
      · rw [hall, hstate', hstack']
        rfl
      · rw [hstate']
        exact nofun
      · rw [hstate']
        exact nofun
    · refine ⟨?_, .inr ⟨?_, p.stateStack, hstack', hnotKey⟩, hstack' ▸ hlen, ?_, ?_⟩
      · rw [hall, hstate', hstack']
        rfl
      · rw [hstate']
        trivial
      · rw [hstate']
        exact nofun
      · rw [hstate']
        exact nofun

/-- Every turn keeps the elements balanced. -/
theorem Inv.turn (h : p.Inv) : Keeps (p.Full c) (p.turn c rest) := by
  have hroom : ∀ {s}, p.currentState = .objectVal ∨ p.currentState = .arraySep →
      ∃ p₁, p.pushState s = some p₁ := fun hs => by
    rw [pushState, if_neg (Nat.not_le.mpr (h.room hs))]
    exact ⟨_, rfl⟩
  -- the end of a literal
  have hend : ∀ {e} (q : JsonParser (Callbacks × ν)), current p.currentState p.stateStack = [e] →
      ¬InString p.currentState → q.opens = p.opens → q.stateStack = p.stateStack →
      ∀ q' ∈ (q.runEndCallback e).bind JsonParser.onValueEnd, q'.Inv :=
    fun q hs hstring hopens hstack => by
      have hopens₀ := h.opens
      rw [hs] at hopens₀
      exact Closed.of_end (hstack ▸ h.notKey hstring) (hstack ▸ h.depth)
        (hopens.trans (hstack ▸ hopens₀)) rfl
  unfold JsonParser.turn
  dsimp only
  split
  next hs =>
    refine .ite (fun _ => .ends (h.containerEnd (by rw [hs]; rfl) (by rw [hs]; exact id)))
      fun hend => .ite (fun _ => h) fun hspace => ?_
    split
    next hpush =>
      exact .inr ⟨⟨pushState_eq_none hpush, .inl ⟨hs, hend, Bool.eq_false_iff.mpr hspace⟩⟩, h, rfl⟩
    next p₁ hpush =>
      have hin := h.goIn (e := .arrayData) (by rw [hs]; rfl) (by rw [hs]; exact id) hpush rfl
        (.inl ⟨.array (h.notKey (by rw [hs]; exact id)), rfl⟩)
      cases hbegin : (p₁.at_ .value).runBeginCallback .arrayData with
      | none => trivial
      | some q => exact (hin q hbegin).turnValue (runBeginCallback_spec hbegin).2.1
  next hs => exact h.turnValue hs
  next hs =>
    exact h.turnLiteral fun q hopens hstack =>
      hend { q with psm := StructParserStateMachine.boolCallback q.psm true } (by rw [hs]; rfl)
        (by rw [hs]; exact id) hopens hstack
  next hs =>
    exact h.turnLiteral fun q hopens hstack =>
      hend { q with psm := StructParserStateMachine.boolCallback q.psm false } (by rw [hs]; rfl)
        (by rw [hs]; exact id) hopens hstack
  next hs =>
    exact h.turnLiteral fun q hopens hstack =>
      hend q (by rw [hs]; rfl) (by rw [hs]; exact id) hopens hstack
  next hs =>
    refine .ite (fun hquote => ?_) fun _ =>
      .ite (fun _ => .ends (h.containerEnd (by rw [hs]; rfl) (by rw [hs]; exact id))) fun _ =>
        .ite (fun _ => h) fun _ => h.fail _
    split
    next hpush => exact .inr ⟨⟨pushState_eq_none hpush, .inr ⟨hs, hquote⟩⟩, h, rfl⟩
    next p₁ hpush =>
      exact .ends (h.goIn (by rw [hs]; rfl) (by rw [hs]; exact id) hpush rfl (.inr ⟨rfl, rfl⟩))
  next hs =>
    refine .ite (fun _ => ?_) fun _ => .ite (fun _ => h) fun _ => h.fail _
    obtain ⟨p₁, hpush⟩ := hroom (s := .objectVal) (.inl hs)
    rw [hpush]
    exact .ends (h.goIn (by rw [hs]; rfl) (by rw [hs]; exact id) hpush rfl
      (.inl ⟨.val (h.notKey (by rw [hs]; exact id)), rfl⟩))
  next hs =>
    refine .ite (fun _ => ?_) fun _ =>
      .ite (fun _ => .ends (h.containerEnd (by rw [hs]; rfl) (by rw [hs]; exact id))) fun _ =>
        .ite (fun _ => h) fun _ => h.fail _
    exact h.move rfl rfl (by rw [hs]; rfl) (by rw [hs]; exact id) (.inr trivial)
  next hs =>
    refine .ite (fun _ => ?_) fun _ =>
      .ite (fun _ => .ends (h.containerEnd (by rw [hs]; rfl) (by rw [hs]; exact id))) fun _ =>
        .ite (fun _ => h) fun _ => h.fail _
    obtain ⟨p₁, hpush⟩ := hroom (s := .array) (.inr hs)
    rw [hpush]
    exact .ends (h.goIn (by rw [hs]; rfl) (by rw [hs]; exact id) hpush rfl
      (.inl ⟨.array (h.notKey (by rw [hs]; exact id)), rfl⟩))
  next hs => exact h.turnString hs
  next hs => exact h.turnEscape hs
  next => exact h.turnUnicode
  next hs =>
    exact .ite (fun _ => h.inString (by rw [hs]; trivial) trivial rfl rfl) fun _ => h.fail _
  next hs =>
    exact .ite (fun _ => h.inString (by rw [hs]; trivial) trivial rfl rfl) fun _ => h.fail _
  next => exact h.turnLowSurrogate
  next hs => exact h.turnNumber hs
  next hs => exact h.turnFrac hs
  next hs =>
    have hin : ∀ expSign, ({ p with expSign, currentState := .numberExp } :
        JsonParser (Callbacks × ν)).Inv := fun expSign =>
      h.move rfl rfl (by rw [hs]; rfl) (by rw [hs]; exact id) (.inr trivial)
    exact .ite (fun _ => hin p.expSign) fun _ => .ite (fun _ => hin (-1)) fun _ =>
      (hin p.expSign).turnExp rfl
  next hs => exact h.turnExp hs
  next => exact h
  next => exact h

end Turns

end JsonParser

end FluxCore.Json
