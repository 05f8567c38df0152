import FluxCore.Json.Balanced
import FluxCore.Lib.Run

/-!
# Reading a text in pieces

However a text is cut, the calls of `parseUpdate` make the callbacks that one call makes, and come
to the same end; an error that one of them returns is what all later calls return. This fails only
where a text goes deeper than the stack: `ERR_STRUCTURE_TOO_DEEP` is returned without a trace of it
in the parser.
-/

namespace FluxCore.Json

open Utp (Bytes)
open Struct

/-- A text that is being read: what the last call of `parseUpdate` returned, and the bytes that all
of them have consumed, or the first error. -/
structure Reading (μ : Type) where
  parser : JsonParser μ
  last : Except JsonError Nat := .ok 0
  total : Except JsonError Nat := .ok 0

namespace Reading

variable {μ : Type} [StructParserStateMachine μ]

/-- The sum of what two calls have consumed, or the first error. -/
def add : Except JsonError Nat → Except JsonError Nat → Except JsonError Nat
  | .ok n, .ok k => .ok (n + k)
  | .ok _, .error e => .error e
  | .error e, _ => .error e

/-- A call of `parseUpdate` with a piece of the text. -/
def call (s : Option (Reading μ)) (data : Bytes) : Option (Reading μ) := do
  let s ← s
  let (r, parser) ← s.parser.parseUpdate data
  pure ⟨parser, r, add s.total r⟩

/-- What there is to be seen of a reading: the callbacks and the value, the bytes consumed or the
error, and what `parseFinal` returns at the end of the text. -/
def outcome (s : Reading μ) : μ × Except JsonError Nat × Option (Except JsonError Nat) :=
  (s.parser.psm, s.total, (s.parser.parseFinal []).map Prod.fst)

end Reading

/-- Every later call returns the error, and makes no callback. -/
def JsonParser.Sticks {μ : Type} [StructParserStateMachine μ] (p : JsonParser μ) (e : JsonError) :
    Prop :=
  ∀ data, p.parseUpdate data = some (.error e, p) ∧ p.parseFinal data = some (.error e, p)

section Pieces

variable {ν : Type} [StructParserStateMachine ν]

open JsonParser (scanner Inv Full)

/-- Reading the text from a state, the parser comes to where it goes deeper than its stack. -/
def GoesTooDeep (p : JsonParser (Callbacks × ν)) (text : Bytes) : Prop :=
  ∃ q c rest, scanner.Steps p text q (c :: rest) ∧ scanner.finished q = false ∧ q.Full c

variable {p q : JsonParser (Callbacks × ν)} {e : JsonError} {text xs ys rest : Bytes}

/-- What `parseUpdate` makes of the outcome of the loop. -/
theorem JsonParser.parseUpdate_of_going {μ : Type} [StructParserStateMachine μ] {p : JsonParser μ}
    (h : p.currentState ≠ .error) (data : Bytes) : p.parseUpdate data =
      match scanner.run p data with
      | some (.go p rest) => some (.ok (data.length - rest.length), p)
      | some (.fail p e) => some (.error e, p)
      | none => none := by
  unfold parseUpdate
  split
  next hs _ => exact absurd hs h
  · rfl

theorem JsonParser.Stopped.sticks (h : p.Stopped e) : p.Sticks e := by
  have hupdate : ∀ data, p.parseUpdate data = some (.error e, p) := fun data => by
    simp only [parseUpdate, h.currentState, h.lastError]
  exact fun data => ⟨hupdate data, by rw [parseFinal, hupdate]⟩

theorem JsonParser.Inv.not_sticks (h : p.Inv) : ¬p.Sticks e := by
  intro hsticks
  have hfinal := (hsticks []).1
  rw [parseUpdate_of_going h.going, scanner.run_nil] at hfinal
  exact nomatch hfinal

/-- Where the stack is full, the parser stays as it is. -/
theorem JsonParser.Full.turn {c : UInt8} (h : q.Full c) :
    q.turn c rest = some (.fail q .structureTooDeep) := by
  obtain ⟨hfull, ⟨hs, hend, hspace⟩ | ⟨hs, rfl⟩⟩ := h
  · have hpush : q.pushState .array = none := if_pos hfull
    simp only [JsonParser.turn, hs, if_neg hend, hspace, hpush, Bool.false_eq_true, if_false]
  · have hpush : q.pushState .objectKey = none := if_pos hfull
    simp only [JsonParser.turn, turnEither, hs, hpush, if_true]

theorem JsonParser.Inv.steps (h : p.Inv) (hsteps : scanner.Steps p text q rest) : q.Inv := by
  refine hsteps.inv h fun {t t' b bs bs'} ht hturn => ?_
  have hkeeps : Keeps (t.Full b) (t.turn b bs) := ht.turn
  rw [show t.turn b bs = some (.go t' bs') from hturn] at hkeeps
  exact hkeeps

/-- The loop from a state with balanced elements. -/
theorem JsonParser.Inv.run (h : p.Inv) (text : Bytes) :
    (∃ q rest, scanner.run p text = some (.go q rest) ∧ q.Inv ∧ rest.length ≤ text.length ∧
      (rest = [] ∨ scanner.finished q = true)) ∨
    scanner.run p text = none ∨
    (∃ q e, scanner.run p text = some (.fail q e) ∧ q.Stopped e) ∨
    GoesTooDeep p text ∧ ∃ q, scanner.run p text = some (.fail q .structureTooDeep) ∧ q.Inv := by
  rcases scanner.run_cases p text with ⟨q, rest, hsteps, hend, hrun⟩ |
    ⟨q, c, cs, hsteps, hgoing, hrun, hne⟩
  · have hlen := hsteps.length_le
    have hrank : scanner.rank p ≤ 1 := rank_le p
    exact .inl ⟨q, rest, hrun, h.steps hsteps, by omega, hend⟩
  · have hkeeps : Keeps (q.Full c) (q.turn c cs) := (h.steps hsteps).turn
    rw [hrun]
    change _ ∨ q.turn c cs = none ∨ (∃ q' e, q.turn c cs = some (.fail q' e) ∧ _) ∨ _
    cases hturn : q.turn c cs with
    | none => exact .inr (.inl rfl)
    | some t =>
      rw [hturn] at hkeeps
      cases t with
      | go q' rest => exact absurd hturn (hne q' rest)
      | fail q' e =>
        rcases hkeeps with hstop | ⟨hfull, hq', rfl⟩
        · exact .inr (.inr (.inl ⟨q', e, rfl, hstop⟩))
        · exact .inr (.inr (.inr ⟨⟨q, c, cs, hsteps, hgoing, hfull⟩, q', hturn, hq'⟩))

/-- Going too deep, as the outcome of the loop. -/
theorem goesTooDeep_iff (hp : p.Inv) : GoesTooDeep p text ↔
    ∃ q, scanner.run p text = some (.fail q .structureTooDeep) ∧ q.Inv := by
  constructor
  · rintro ⟨q, c, rest, hsteps, hgoing, hfull⟩
    refine ⟨q, ?_, hp.steps hsteps⟩
    have hturn : scanner.turn q c rest = some (.fail q .structureTooDeep) := hfull.turn
    rw [Scanner.run_of_steps hsteps, scanner.run_cons hgoing, hturn]
  · rintro ⟨q, hq, hinv⟩
    obtain ⟨_, _, h, -⟩ | h | ⟨_, _, h, hstop⟩ | ⟨h, -⟩ := hp.run text
    · exact nomatch h.symm.trans hq
    · exact nomatch h.symm.trans hq
    · cases h.symm.trans hq
      exact absurd hstop.currentState hinv.going
    · exact h

omit [StructParserStateMachine ν] in
/-- A failure that leaves the parser going is the same however the text is cut. -/
theorem exists_fail_iff {x y : Option (JsonParser.Step (Callbacks × ν))}
    (h : Scanner.Alike JsonParser.Frozen x y) :
    (∃ q : JsonParser (Callbacks × ν), x = some (.fail q e) ∧ q.Inv) ↔
      ∃ q : JsonParser (Callbacks × ν), y = some (.fail q e) ∧ q.Inv := by
  obtain rfl | ⟨s, s', e', rfl, rfl, hfrozen⟩ := h
  · rfl
  · constructor
    · rintro ⟨q, ⟨⟩, hq⟩
      exact absurd hfrozen.left hq.going
    · rintro ⟨q, ⟨⟩, hq⟩
      exact absurd hfrozen.right hq.going

/-- The elements are balanced, and an error is there to stay. -/
def Reading.Sound (s : Reading (Callbacks × ν)) : Prop :=
  s.parser.Balanced ∧ ∀ e, s.last = .error e → s.parser.Sticks e

/-- Behind an error that sticks the calls change nothing. -/
theorem JsonParser.Stopped.reading (h : p.Stopped e) (last : Except JsonError Nat)
    (hlast : last = .error e) (pieces : List Bytes) :
    Visits Reading.call (fun s => ∀ r ∈ s, r.Sound) (some ⟨p, last, .error e⟩) pieces ∧
      exec Reading.call (some ⟨p, last, .error e⟩) pieces = some ⟨p, last, .error e⟩ := by
  have hsound : ∀ r ∈ some (⟨p, last, .error e⟩ : Reading (Callbacks × ν)), r.Sound := by
    rintro _ ⟨⟩
    refine ⟨h.balanced, fun e' he' => ?_⟩
    cases hlast.symm.trans he'
    exact h.sticks
  induction pieces with
  | nil => exact ⟨hsound, rfl⟩
  | cons data pieces ih =>
    have hcall : Reading.call (some ⟨p, last, .error e⟩) data = some ⟨p, last, .error e⟩ := by
      subst hlast
      simp only [Reading.call, Option.bind_eq_bind, Option.bind_some, (h.sticks data).1]
      rfl
    rw [Visits, exec, hcall]
    exact ⟨⟨hsound, ih.1⟩, ih.2⟩

/-- What a call makes of the outcome of the loop over `len` bytes, `t` bytes having been read. -/
def Reading.after (t len : Nat) : Option (JsonParser.Step (Callbacks × ν)) →
    Option (Reading (Callbacks × ν))
  | some (.go q rest) => some ⟨q, .ok (len - rest.length), .ok (t + (len - rest.length))⟩
  | some (.fail q e) => some ⟨q, .error e, .error e⟩
  | none => none

theorem JsonParser.Inv.call (hp : p.Inv) (n t : Nat) (data : Bytes) :
    Reading.call (some ⟨p, .ok n, .ok t⟩) data =
      Reading.after t data.length (scanner.run p data) := by
  simp only [Reading.call, Option.bind_eq_bind, Option.bind_some, parseUpdate_of_going hp.going]
  cases scanner.run p data with
  | none => rfl
  | some s => cases s <;> rfl

/-- Outcomes of the loop that are alike cannot be told apart. -/
theorem outcome_after {x y : Option (JsonParser.Step (Callbacks × ν))} (t len : Nat)
    (h : Scanner.Alike JsonParser.Frozen x y) :
    (Reading.after t len x).map Reading.outcome = (Reading.after t len y).map Reading.outcome := by
  obtain rfl | ⟨s, s', e, rfl, rfl, hfrozen⟩ := h
  · rfl
  · have hfinal : (s.parseFinal []).map Prod.fst = (s'.parseFinal []).map Prod.fst := by
      simp only [JsonParser.parseFinal, JsonParser.parseUpdate, hfrozen.left, hfrozen.right,
        hfrozen.lastError, scanner.run_nil]
      cases s'.lastError with
      | some e => rfl
      | none => simp [hfrozen.left, hfrozen.right]
    simp only [Reading.after, Option.map_some, Reading.outcome, hfrozen.psm, hfinal]

/-- The bytes that two calls consume are those that one call consumes. -/
theorem JsonParser.Inv.after_eq (hq : q.Inv) (t : Nat)
    (hlen : rest.length ≤ xs.length) (hend : rest = [] ∨ scanner.finished q = true) :
    (Reading.after t (xs ++ ys).length (scanner.run q (rest ++ ys))).map Reading.outcome =
      (Reading.after (t + (xs.length - rest.length)) ys.length (scanner.run q ys)).map
        Reading.outcome := by
  obtain rfl | hfinished := hend
  · rw [List.nil_append]
    obtain ⟨q', rest', h, -, hlen', -⟩ | h | ⟨q', e, h, -⟩ | ⟨-, q', h, -⟩ := hq.run ys
    · have hsum : (xs ++ ys).length - rest'.length = xs.length + (ys.length - rest'.length) := by
        rw [List.length_append]
        omega
      simp only [h, Reading.after, hsum, List.length_nil, Nat.sub_zero, Option.map_some,
        Reading.outcome, Nat.add_assoc]
    · rw [h]
      rfl
    · rw [h]
      rfl
    · rw [h]
      rfl
  · have hsum : (xs ++ ys).length - (rest ++ ys).length = xs.length - rest.length := by
      rw [List.length_append, List.length_append]
      omega
    simp only [scanner.run_of_finished hfinished, Reading.after, hsum, Nat.sub_self, Nat.add_zero,
      Option.map_some, Reading.outcome]

theorem JsonParser.Inv.sound (h : p.Inv) (n t : Nat) :
    ∀ r ∈ some (⟨p, .ok n, .ok t⟩ : Reading (Callbacks × ν)), r.Sound := by
  rintro _ ⟨⟩
  exact ⟨h.balanced, fun e he => nomatch he⟩

theorem exec_call_none (pieces : List Bytes) :
    exec (Reading.call (μ := Callbacks × ν)) none pieces = none := by
  induction pieces with
  | nil => rfl
  | cons data pieces ih => exact ih

theorem visits_call_none {pieces : List Bytes} :
    Visits (Reading.call (μ := Callbacks × ν)) (fun s => ∀ r ∈ s, r.Sound) none pieces := by
  induction pieces with
  | nil => exact fun r hr => nomatch hr
  | cons data pieces ih => exact ⟨fun r hr => (nomatch hr), ih⟩

variable [LawfulStateMachine ν]

/-- The loop over a text in two parts. -/
theorem run_append (p : JsonParser (Callbacks × ν)) (xs ys : Bytes) :
    Scanner.Alike JsonParser.Frozen (scanner.run p (xs ++ ys))
      (scanner.after ys (scanner.run p xs)) :=
  Scanner.run_append (fun _ _ _ h h' => h.trans h') JsonParser.continues_turn p xs ys

theorem goesTooDeep_append_iff (hp : p.Inv) (hq : q.Inv)
    (hrun : scanner.run p xs = some (.go q rest)) :
    GoesTooDeep p (xs ++ ys) ↔ GoesTooDeep q (rest ++ ys) := by
  have happend := run_append p xs ys
  rw [hrun] at happend
  rw [goesTooDeep_iff hp, goesTooDeep_iff hq]
  exact exists_fail_iff happend

/-- However the text is cut, where it does not go deeper than the stack. -/
theorem JsonParser.Inv.pieces (hp : p.Inv) (n t : Nat) {pieces : List Bytes}
    (h : ¬GoesTooDeep p pieces.flatten) :
    Visits Reading.call (fun s => ∀ r ∈ s, r.Sound) (some ⟨p, .ok n, .ok t⟩) pieces ∧
      (exec Reading.call (some ⟨p, .ok n, .ok t⟩) pieces).map Reading.outcome =
        (Reading.call (some ⟨p, .ok n, .ok t⟩) pieces.flatten).map Reading.outcome := by
  induction pieces generalizing p n t with
  | nil =>
    refine ⟨hp.sound n t, ?_⟩
    rw [List.flatten_nil, hp.call, scanner.run_nil]
    rfl
  | cons data pieces ih =>
    rw [List.flatten_cons] at h ⊢
    have happend := outcome_after t (data ++ pieces.flatten).length
      (run_append p data pieces.flatten)
    rw [Visits, exec, hp.call, hp.call, happend]
    obtain ⟨q, rest, hrun, hq, hlen, hend⟩ | hrun | ⟨q, e, hrun, hq⟩ | ⟨-, q, hrun, hq⟩ :=
      hp.run data
    · have hdeep : ¬GoesTooDeep q pieces.flatten := by
        rw [goesTooDeep_append_iff hp hq hrun] at h
        rcases hend with rfl | hfinished
        · exact h
        · rw [goesTooDeep_iff hq, scanner.run_of_finished hfinished]
          rintro ⟨q', hq', -⟩
          exact nomatch hq'
      obtain ⟨hvisits, hexec⟩ := ih hq (data.length - rest.length)
        (t + (data.length - rest.length)) hdeep
      rw [hrun]
      refine ⟨⟨hp.sound n t, hvisits⟩, hexec.trans ?_⟩
      rw [hq.call]
      exact (hq.after_eq t hlen hend).symm
    · rw [hrun]
      exact ⟨⟨hp.sound n t, visits_call_none⟩, by rw [Reading.after, exec_call_none]; rfl⟩
    · obtain ⟨hvisits, hexec⟩ := hq.reading (.error e) rfl pieces
      rw [hrun]
      exact ⟨⟨hp.sound n t, hvisits⟩, congrArg _ hexec⟩
    · refine absurd ?_ h
      rw [goesTooDeep_iff hp, exists_fail_iff (run_append p data pieces.flatten), hrun]
      exact ⟨q, rfl, hq⟩

/-- Where a text goes too deep, the error does not stick. -/
theorem JsonParser.Inv.not_visits (hp : p.Inv) (n t : Nat) {pieces : List Bytes}
    (h : GoesTooDeep p pieces.flatten) :
    ¬Visits Reading.call (fun s => ∀ r ∈ s, r.Sound) (some ⟨p, .ok n, .ok t⟩) pieces := by
  induction pieces generalizing p n t with
  | nil =>
    rw [List.flatten_nil, goesTooDeep_iff hp, scanner.run_nil] at h
    obtain ⟨q, hq, -⟩ := h
    exact nomatch hq
  | cons data pieces ih =>
    rintro ⟨-, hvisits⟩
    have hfail := (goesTooDeep_iff hp).mp h
    rw [hp.call] at hvisits
    obtain ⟨q, rest, hrun, hq, hlen, hend⟩ | hrun | ⟨q, e, hrun, hq⟩ | ⟨-, q, hrun, hq⟩ :=
      hp.run data
    · rw [List.flatten_cons, goesTooDeep_append_iff hp hq hrun] at h
      rw [hrun] at hvisits
      refine ih hq _ _ ?_ hvisits
      rcases hend with rfl | hfinished
      · exact h
      · rw [goesTooDeep_iff hq, scanner.run_of_finished hfinished] at h
        obtain ⟨q', hq', -⟩ := h
        exact nomatch hq'
    · rw [List.flatten_cons, exists_fail_iff (run_append p data pieces.flatten), hrun] at hfail
      obtain ⟨q', hq', -⟩ := hfail
      exact nomatch hq'
    · rw [List.flatten_cons, exists_fail_iff (run_append p data pieces.flatten), hrun] at hfail
      obtain ⟨q', ⟨⟩, hq'⟩ := hfail
      exact hq'.going hq.currentState
    · rw [hrun] at hvisits
      have hsound := hvisits.head _ rfl
      exact hq.not_sticks (hsound.2 _ rfl)

end Pieces

/-- A new parser whose callbacks are recorded while they build the value. -/
def Reading.start : Reading (Callbacks × StateMachine) where
  parser := { psm := ({}, StateMachine.new false) }

theorem Reading.inv_start : Reading.start.parser.Inv where
  opens := rfl
  stack := .inl .finish
  depth := by decide
  room := by simp [start]
  going := by simp [start]

/-- Reading a text in pieces and at once agree, with errors that stick and callbacks that are
balanced, exactly where no value is deeper than the stack. -/
theorem pieces_iff (pieces : List Bytes) :
    ((exec Reading.call (some Reading.start) pieces).map Reading.outcome =
        (Reading.call (some Reading.start) pieces.flatten).map Reading.outcome ∧
      Visits Reading.call (fun s => ∀ r ∈ s, r.Sound) (some Reading.start) pieces) ↔
    ¬GoesTooDeep Reading.start.parser pieces.flatten := by
  constructor
  · rintro ⟨-, hvisits⟩ hdeep
    exact Reading.inv_start.not_visits 0 0 hdeep hvisits
  · intro h
    exact (Reading.inv_start.pieces 0 0 h).symm

/-- `ERR_STRUCTURE_TOO_DEEP` does not stick: after it `parseFinal` returns `ERR_PREMATURE_DATA`. -/
theorem pieces_iff_deep :
    ¬∀ pieces, (exec Reading.call (some Reading.start) pieces).map Reading.outcome =
        (Reading.call (some Reading.start) pieces.flatten).map Reading.outcome ∧
      Visits Reading.call (fun s => ∀ r ∈ s, r.Sound) (some Reading.start) pieces := by
  intro h
  have hsound := ((h [List.replicate 51 (ch '[')]).2).2
  have hrun : (Reading.call (some Reading.start) (List.replicate 51 (ch '['))).map
      (fun r => (r.last, (r.parser.parseFinal []).map Prod.fst)) =
        some (.error .structureTooDeep, some (.error .prematureData)) := by decide +kernel
  obtain ⟨r, hr, heq⟩ := Option.map_eq_some_iff.mp hrun
  obtain ⟨hlast, hfinal⟩ := Prod.mk.inj heq
  have hsticks := ((hsound r hr).2 _ hlast []).2
  rw [hsticks] at hfinal
  exact nomatch hfinal

end FluxCore.Json
