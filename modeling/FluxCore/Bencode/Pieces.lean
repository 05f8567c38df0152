import FluxCore.Bencode.Expects
import FluxCore.Bencode.Reads
import FluxCore.Json.Streaming

/-!
# The parser of bencode

It takes the texts that start with what denotes a value, and these are what `encode` writes and
more; in how many pieces a text comes makes no difference.
-/

namespace FluxCore.Bencode

open Utp (Bytes)
open Json (ch)
open Util (isDigit)
open Struct
open BencodeParser (digit floatChar INT64_MAX scanner)

variable {μ : Type}

section Streaming

open Scanner (Continues Alike Uniform)

/-- Parsers whose machines cannot be told apart. -/
def SameMachine (p q : BencodeParser μ) : Prop := p.psm = q.psm

variable {p p₀ : BencodeParser μ} {c : UInt8} {cs xs ys rest : Bytes}

theorem readDigits_append (n : Nat) (xs ys : Bytes) : BencodeParser.readDigits n (xs ++ ys) =
    (BencodeParser.readDigits n xs).bind fun n => BencodeParser.readDigits n ys := by
  induction xs generalizing n with
  | nil => rfl
  | cons c xs ih =>
    rw [List.cons_append, BencodeParser.readDigits, BencodeParser.readDigits]
    split
    · rfl
    · exact ih _

/-- What the loops over digits have in common: where the number is kept, and what comes behind. -/
structure DigitLoop (f : BencodeParser μ → Bytes → Option (BencodeParser.Step μ)) (s : State) where
  number : BencodeParser μ → Nat
  set : BencodeParser μ → Nat → Nat → BencodeParser μ
  error : BencodeError
  next : BencodeParser μ → UInt8 → Bytes → Option (BencodeParser.Step μ)
  eq : ∀ p data, f p data = match BencodeParser.readDigits (number p) (data.takeWhile isDigit) with
    | none => p.fail error
    | some n =>
      match data.dropWhile isDigit with
      | [] => (set p n (data.takeWhile isDigit).length).go []
      | c :: rest => next (set p n (data.takeWhile isDigit).length) c rest
  number_set : ∀ p n k, number (set p n k) = n
  set_set : ∀ p n k m l, set (set p n k) m l = set p m (k + l)
  psm_set : ∀ p n k, (set p n k).psm = p.psm
  currentState_set : ∀ p n k, (set p n k).currentState = p.currentState
  uniform : ∀ p c, Uniform (next p c)
  notFinish : s ≠ .finish

variable [StructParserStateMachine μ]

theorem DigitLoop.continues {f : BencodeParser μ → Bytes → Option (BencodeParser.Step μ)} {s : State}
    (l : DigitLoop f s) (hs : p.currentState = s)
    (hturn : ∀ q : BencodeParser μ, q.currentState = s → ∀ c rest, q.turn c rest = f q (c :: rest))
    (hp₀ : ∀ rest, p₀.turn c rest = f p (c :: rest)) :
    Continues scanner SameMachine p₀ c cs := by
  have hp : ∀ ys, scanner.turn p₀ c (cs ++ ys) = f p (c :: cs ++ ys) := fun ys => hp₀ (cs ++ ys)
  cases hdrop : (c :: cs).dropWhile isDigit with
  | nil =>
    -- there are only digits, and the next piece goes on behind them
    have hall : ∀ x ∈ c :: cs, isDigit x = true := List.dropWhile_eq_nil_iff.mp hdrop
    have htake : (c :: cs).takeWhile isDigit = c :: cs := List.takeWhile_eq_self_iff.mpr hall
    cases hread : BencodeParser.readDigits (l.number p) (c :: cs) with
    | none =>
      refine .fail { p with currentState := .error, lastError := some l.error } l.error fun ys => ?_
      rw [hp, l.eq, List.takeWhile_append_of_pos hall, readDigits_append, hread]
      rfl
    | some n =>
      refine .more (l.set p n (c :: cs).length) ?_ ?_ fun y ys => .inl ?_
      · have := hp []
        rw [List.append_nil, List.append_nil, l.eq, htake, hread, hdrop] at this
        exact this
      · simp only [scanner, l.currentState_set, hs]
        exact decide_eq_false l.notFinish
      · change Alike SameMachine _ ((l.set p n (c :: cs).length).turn y ys)
        rw [hp, hturn _ ((l.currentState_set ..).trans hs), l.eq, l.eq,
          List.takeWhile_append_of_pos hall, List.dropWhile_append_of_pos hall, readDigits_append,
          hread, l.number_set, Option.bind_some]
        cases BencodeParser.readDigits n ((y :: ys).takeWhile isDigit) with
        | none =>
          have hpsm : p.psm = (l.set p n (c :: cs).length).psm := (l.psm_set ..).symm
          exact .inr ⟨_, _, _, rfl, rfl, hpsm⟩
        | some m =>
          simp only [l.set_set, List.length_append]
          exact .refl _
  | cons d rest =>
    have hcut := fun ys => Json.JsonParser.takeWhile_append_of_drop ys hdrop
    cases hread : BencodeParser.readDigits (l.number p) ((c :: cs).takeWhile isDigit) with
    | none =>
      refine .fail { p with currentState := .error, lastError := some l.error } l.error fun ys => ?_
      rw [hp, l.eq, (hcut ys).1, hread]
      rfl
    | some n =>
      have heq : ∀ ys, scanner.turn p₀ c (cs ++ ys) =
          l.next (l.set p n ((c :: cs).takeWhile isDigit).length) d (rest ++ ys) := fun ys => by
        rw [hp, l.eq, (hcut ys).1, (hcut ys).2, hread]
      obtain h | ⟨s', e, h⟩ | ⟨s', h⟩ :=
        l.uniform (l.set p n ((c :: cs).takeWhile isDigit).length) d
      · exact .none fun ys => (heq ys).trans (h _)
      · exact .fail s' e fun ys => (heq ys).trans (h _)
      · exact .go s' rest fun ys => (heq ys).trans (h _)

def stringLenLoop : DigitLoop (μ := μ) BencodeParser.turnStringLen .stringLen where
  number p := p.strLength
  set p n k := { p with strLength := n, numConsumed := p.numConsumed + k }
  error := .stringLengthOutOfRange
  next p c rest :=
    if c ≠ ch ':' ∨ p.numConsumed = 0 then p.fail .invalidStringLength
    else if p.strLength = 0 then
      ((p.at_ .string).runCharactersCallback []).onStringEnd >>= fun p => p.go rest
    else (p.at_ .string).go rest
  eq _ _ := rfl
  number_set _ _ _ := rfl
  set_set p n k m l := by simp only [Nat.add_assoc]
  psm_set _ _ _ := rfl
  currentState_set _ _ _ := rfl
  uniform p c := .ite (BencodeParser.uniform_fail p _) fun _ =>
    .ite (BencodeParser.uniform_ends _) fun _ => .go _
  notFinish := by decide

def numberLoop : DigitLoop (μ := μ) BencodeParser.turnNumber .number where
  number p := p.number
  set p n k := { p with number := n, numConsumed := p.numConsumed + k }
  error := .numberOutOfRange
  next p c rest :=
    if p.numConsumed = 0 then p.fail .invalidNumber
    else if floatChar c then
      BencodeParser.go { p with
        number := 0, numConsumed := 0, currentState := .floatNumberIgnore } rest
    else if c ≠ ch 'e' then p.fail .invalidNumber
    else p.onNumberEnd >>= fun p => p.go rest
  eq _ _ := rfl
  number_set _ _ _ := rfl
  set_set p n k m l := by simp only [Nat.add_assoc]
  psm_set _ _ _ := rfl
  currentState_set _ _ _ := rfl
  uniform p c := .ite (BencodeParser.uniform_fail p _) fun _ => .ite (.go _) fun _ =>
    .ite (BencodeParser.uniform_fail p _) fun _ => BencodeParser.uniform_ends _
  notFinish := by decide

/-- The parser behind a part of a string. -/
def readPart (p : BencodeParser μ) (s : Bytes) : BencodeParser μ :=
  { p.runCharactersCallback s with strLength := p.strLength - s.length }

theorem continues_turnString [LawfulStateMachine μ] (hs : p.currentState = .string) :
    Continues scanner SameMachine p c cs := by
  have hturn : ∀ q : BencodeParser μ, q.currentState = .string → ∀ c rest,
      scanner.turn q c rest = q.turnString (c :: rest) := fun q hq c rest => by
    simp only [scanner, BencodeParser.turn, hq]
  by_cases hlen : p.strLength ≤ (c :: cs).length
  · -- the string ends in this piece
    have heq : ∀ ys, scanner.turn p c (cs ++ ys) =
        ({ p.runCharactersCallback ((c :: cs).take p.strLength) with
          strLength := 0 } : BencodeParser μ).onStringEnd >>= fun q =>
            q.go ((c :: cs).drop p.strLength ++ ys) := fun ys => by
      have hnread : min (c :: (cs ++ ys)).length p.strLength = p.strLength := by
        rw [← List.cons_append, List.length_append]
        omega
      rw [hturn p hs, BencodeParser.turnString]
      simp only [hnread, Nat.sub_self, if_true]
      rw [← List.cons_append, List.take_append_of_le_length hlen,
        List.drop_append_of_le_length hlen]
    cases hend : ({ p.runCharactersCallback ((c :: cs).take p.strLength) with
        strLength := 0 } : BencodeParser μ).onStringEnd with
    | none => exact .none fun ys => by rw [heq, hend]; rfl
    | some q => exact .go q _ fun ys => by rw [heq, hend]; rfl
  · -- and here it goes on in the next one
    have hlt : (c :: cs).length < p.strLength := Nat.not_le.mp hlen
    refine .more (readPart p (c :: cs)) ?_ ?_ fun y ys => .inl ?_
    · have hnread : min (c :: cs).length p.strLength = (c :: cs).length := by omega
      rw [hturn p hs, BencodeParser.turnString]
      simp only [hnread, List.take_length, List.drop_length]
      rw [if_neg (by omega)]
      rfl
    · simp [scanner, readPart, BencodeParser.runCharactersCallback, hs]
    · have hnread : min (c :: (cs ++ y :: ys)).length p.strLength =
          (c :: cs).length + min (y :: ys).length (p.strLength - (c :: cs).length) := by
        rw [← List.cons_append, List.length_append]
        omega
      change Alike SameMachine _ (scanner.turn (readPart p (c :: cs)) y ys)
      rw [hturn p hs, hturn (readPart p (c :: cs)) hs, BencodeParser.turnString,
        BencodeParser.turnString]
      simp only [hnread]
      rw [← List.cons_append, List.take_length_add_append, List.drop_length_add_append,
        Nat.sub_add_eq]
      unfold readPart BencodeParser.runCharactersCallback
      simp only [LawfulStateMachine.characters_append]
      exact .refl _

/-- Every turn goes on where the text does. -/
theorem continues_turn [LawfulStateMachine μ] (p : BencodeParser μ) (c : UInt8) (cs : Bytes) :
    Continues scanner SameMachine p c cs := by
  by_cases hone : p.OneByte
  · exact (BencodeParser.uniform_turn hone c).continues cs
  · unfold BencodeParser.OneByte at hone
    split at hone
    next hs =>
      by_cases hc : c = ch 'e'
      · have : scanner.turn p c = fun rest => p.onDictEnd >>= fun p => p.go rest :=
          funext fun rest => by
            simp only [scanner, BencodeParser.turn, hs, if_pos hc]
        exact Scanner.Uniform.continues (this ▸ BencodeParser.uniform_ends _) cs
      · cases hpush : p.pushState .dictKey with
        | none =>
          exact .fail p .structureTooDeep fun ys => by
            simp only [scanner, BencodeParser.turn, hs, if_neg hc, hpush]
        | some p₁ =>
          cases hbegin : ({ p₁ with strLength := 0, numConsumed := 0 } :
              BencodeParser μ).runBeginCallback .dictKey with
          | none =>
            refine .none fun ys => ?_
            simp only [scanner, BencodeParser.turn, hs, if_neg hc, hpush, hbegin]
            rfl
          | some p₂ =>
            refine stringLenLoop.continues (p := p₂.at_ .stringLen) rfl
              (fun q hq c rest => by simp only [BencodeParser.turn, hq]) fun rest => ?_
            simp only [BencodeParser.turn, hs, if_neg hc, hpush, hbegin]
            rfl
    next hs =>
      exact stringLenLoop.continues hs (fun q hq c rest => by simp only [BencodeParser.turn, hq])
        fun rest => by simp only [BencodeParser.turn, hs]
    next hs => exact continues_turnString hs
    next hs =>
      exact numberLoop.continues hs (fun q hq c rest => by simp only [BencodeParser.turn, hq])
        fun rest => by simp only [BencodeParser.turn, hs]
    next => exact absurd trivial hone

/-- The loop over a text in two parts. -/
theorem run_append [LawfulStateMachine μ] (p : BencodeParser μ) (xs ys : Bytes) :
    Alike SameMachine (scanner.run p (xs ++ ys)) (scanner.after ys (scanner.run p xs)) :=
  Scanner.run_append (fun _ _ _ h h' => h.trans h') (fun p c cs _ => continues_turn p c cs) p xs ys

end Streaming

section Calls

open Scanner (Alike)

variable {p q : BencodeParser μ} {c : UInt8} {cs data data' rest : Bytes}

theorem lastError_pushState {s : State} (h : p.pushState s = some q) :
    q.lastError = p.lastError := by rw [(pushState_eq_some h).2]

variable [StructParserStateMachine μ]

theorem lastError_begin {e : ElementType} (h : p.runBeginCallback e = some q) :
    q.lastError = p.lastError := by
  obtain ⟨psm, -, rfl⟩ := Option.map_eq_some_iff.mp h
  rfl

theorem lastError_end {e : ElementType} (h : p.runEndCallback e = some q) :
    q.lastError = p.lastError := by
  obtain ⟨psm, -, rfl⟩ := Option.map_eq_some_iff.mp h
  rfl

theorem state_begin {e : ElementType} (h : p.runBeginCallback e = some q) :
    q.currentState = p.currentState := by
  obtain ⟨psm, -, rfl⟩ := Option.map_eq_some_iff.mp h
  rfl

theorem moves_onValueEnd (h : p.onValueEnd = some q) :
    q.lastError = p.lastError ∧ q.currentState ≠ .initial := by
  unfold BencodeParser.onValueEnd at h
  split at h
  · refine ⟨(lastError_begin h).trans ?_, ?_⟩
    · change ((p.popState.pushState .dictVal).getD p.popState).lastError = p.lastError
      cases hpush : p.popState.pushState .dictVal with
      | none => rfl
      | some p' => exact (lastError_pushState hpush :)
    · rw [state_begin h]
      exact State.noConfusion
  · obtain ⟨q', hend, rfl⟩ := Option.map_eq_some_iff.mp h
    exact ⟨(lastError_end hend :), State.noConfusion⟩
  · obtain ⟨q', hend, rfl⟩ := Option.map_eq_some_iff.mp h
    exact ⟨(lastError_end hend :), State.noConfusion⟩
  · cases h
    exact ⟨rfl, State.noConfusion⟩
  · exact nomatch h

/-- The turn keeps `lastError_` and leaves the parser in another state than `BENCODE_INITIAL`,
unless it fails. -/
def Moves (p : BencodeParser μ) (x : Option (BencodeParser.Step μ)) : Prop :=
  ∀ q data, x = some (.go q data) → q.lastError = p.lastError ∧ q.currentState ≠ .initial

namespace Moves

variable {p' : BencodeParser μ} {x y : Option (BencodeParser.Step μ)}

omit [StructParserStateMachine μ] in
theorem fail (e : BencodeError) : Moves p (p'.fail e) := fun _ _ h => absurd h Turn.not_fail_eq_go

omit [StructParserStateMachine μ] in
theorem go (h : p'.lastError = p.lastError) (hs : p'.currentState ≠ .initial) :
    Moves p (p'.go data) := by
  rintro _ _ ⟨⟩
  exact ⟨h, hs⟩

omit [StructParserStateMachine μ] in
theorem ite {b : Prop} [Decidable b] (hx : Moves p x) (hy : Moves p y) :
    Moves p (if b then x else y) := by
  split
  · exact hx
  · exact hy

theorem begins {e : ElementType} (h : p'.lastError = p.lastError)
    (hs : p'.currentState ≠ .initial) :
    Moves p (p'.runBeginCallback e >>= fun p => p.go data) := by
  intro q _ hq
  obtain ⟨q', hbegin, ⟨⟩⟩ := Option.bind_eq_some_iff.mp hq
  exact ⟨(lastError_begin hbegin).trans h, state_begin hbegin ▸ hs⟩

theorem ends {e : ElementType} (h : p'.lastError = p.lastError) :
    Moves p ((p'.runEndCallback e >>= BencodeParser.onValueEnd) >>= fun p => p.go data) := by
  intro q _ hq
  obtain ⟨q', hends, ⟨⟩⟩ := Option.bind_eq_some_iff.mp hq
  obtain ⟨q'', hend, hvalue⟩ := Option.bind_eq_some_iff.mp hends
  obtain ⟨herror, hs⟩ := moves_onValueEnd hvalue
  exact ⟨(herror.trans (lastError_end hend)).trans h, hs⟩

theorem turnValue (h : p'.lastError = p.lastError) : Moves p (p'.turnValue c cs) :=
  .ite (.begins h State.noConfusion) (.ite (.begins h State.noConfusion)
    (.ite (.begins h State.noConfusion) (.ite (.begins h State.noConfusion) (.fail _))))

omit [StructParserStateMachine μ] in
theorem digits {f : BencodeParser μ → Bytes → Option (BencodeParser.Step μ)} {s : State}
    (l : DigitLoop f s) (hset : ∀ n k, (l.set p' n k).lastError = p.lastError)
    (hs : p'.currentState ≠ .initial)
    (hnext : ∀ {q : BencodeParser μ} {c rest}, q.lastError = p.lastError →
      Moves p (l.next q c rest)) : Moves p (f p' data) := by
  rw [l.eq]
  split
  · exact .fail _
  · split
    · exact .go (hset ..) ((l.currentState_set ..).trans_ne hs)
    · exact hnext (hset ..)

theorem turnStringLen (h : p'.lastError = p.lastError) (hs : p'.currentState ≠ .initial) :
    Moves p (p'.turnStringLen data) :=
  digits stringLenLoop (fun _ _ => h) hs fun hq =>
    .ite (.fail _) (.ite (.ends hq) (.go hq State.noConfusion))

theorem turn : Moves p (p.turn c cs) := by
  unfold BencodeParser.turn
  dsimp only
  split
  · refine .ite (.ends rfl) ?_
    split
    · exact fun _ _ h => absurd h Turn.not_fail_eq_go
    next hpush =>
      intro q data h
      obtain ⟨q', hbegin, h⟩ := Option.bind_eq_some_iff.mp h
      exact turnValue ((lastError_begin hbegin).trans (lastError_pushState hpush :)) q data h
  · exact turnValue rfl
  · exact turnValue rfl
  · refine .ite (.ends rfl) ?_
    split
    · exact fun _ _ h => absurd h Turn.not_fail_eq_go
    next hpush =>
      intro q data h
      obtain ⟨q', hbegin, h⟩ := Option.bind_eq_some_iff.mp h
      have hq' : q'.lastError = p.lastError :=
        (lastError_begin hbegin).trans (lastError_pushState hpush :)
      have hmoves : Moves p ((q'.at_ .stringLen).turnStringLen (c :: cs)) :=
        turnStringLen hq' State.noConfusion
      exact hmoves q data h
  next hs => exact turnStringLen rfl (hs ▸ State.noConfusion)
  next hs => exact .ite (.ends rfl) (.go rfl fun h => State.noConfusion (hs.symm.trans h))
  next hs =>
    exact .ite (.go rfl State.noConfusion) (.ite (.go rfl State.noConfusion)
      (.ite (.go rfl State.noConfusion) (.go rfl (hs ▸ State.noConfusion))))
  next hs =>
    exact digits numberLoop (fun _ _ => rfl) (hs ▸ State.noConfusion) fun hq =>
      .ite (.fail _) (.ite (.go hq State.noConfusion) (.ite (.fail _) (.ends hq)))
  next hs => exact .ite (.go rfl (hs ▸ State.noConfusion)) (.ite (.fail _) (.ends rfl))
  all_goals
    next hs => exact .go rfl (hs ▸ State.noConfusion)

end Moves

/-- Where no call has failed, the next one runs the loop. -/
theorem parseUpdate_of_none (h : p.lastError = none) (data : Bytes) : p.parseUpdate data =
    match scanner.run p data with
    | some (.go p rest) => some (.ok (data.length - rest.length), p)
    | some (.fail p e) => some (.error e, p)
    | none => none := by
  unfold BencodeParser.parseUpdate
  split
  next hs =>
    rw [scanner.run_of_finished (by simp [scanner, hs])]
    simp only [Nat.sub_self]
  next he => exact nomatch h.symm.trans he
  · rfl

theorem lastError_run (h : p.lastError = none) (hrun : scanner.run p data = some (.go q rest)) :
    q.lastError = none ∧ rest.length ≤ data.length ∧ (rest = [] ∨ scanner.finished q = true) := by
  rcases scanner.run_cases p data with ⟨q', rest', hsteps, hend, hrun'⟩ |
    ⟨q', c, cs, -, -, hrun', hne⟩
  · cases hrun'.symm.trans hrun
    have hlen := hsteps.length_le
    have hrank : scanner.rank p ≤ 1 := p.rank_le
    exact ⟨hsteps.inv h fun ht hturn => (Moves.turn _ _ hturn).1.trans ht, by omega, hend⟩
  · exact absurd (hrun'.symm.trans hrun) (hne _ _)

/-- The calls of `parseUpdate` with the pieces of a text, and `parseFinal` behind them; `n` bytes
have been read before. The first error is the end. -/
def parsePieces (p : BencodeParser μ) (n : Nat) :
    List Bytes → Option (Except BencodeError Nat × BencodeParser μ)
  | [] =>
    match p.parseFinal [] with
    | some (.ok k, p) => some (.ok (n + k), p)
    | x => x
  | data :: pieces =>
    match p.parseUpdate data with
    | some (.ok k, p) => parsePieces p (n + k) pieces
    | x => x

/-- What is to be seen of a text that has been read: the bytes or the error, and the machine. -/
def outcome (x : Except BencodeError Nat × BencodeParser μ) : Except BencodeError Nat × μ :=
  (x.1, x.2.psm)

/-- What `parseFinal` makes of the outcome of the loop. -/
def final (n len : Nat) : Option (BencodeParser.Step μ) → Option (Except BencodeError Nat × μ)
  | some (.go q rest) =>
    some (if q.currentState ≠ .finish ∧ q.currentState ≠ .initial then .error .prematureData
      else .ok (n + (len - rest.length)), q.psm)
  | some (.fail q e) => some (.error e, q.psm)
  | none => none

theorem parseFinal_of_none (h : p.lastError = none) (data : Bytes) :
    (p.parseFinal data).map outcome = final 0 data.length (scanner.run p data) := by
  unfold BencodeParser.parseFinal
  rw [parseUpdate_of_none h]
  cases scanner.run p data with
  | none => rfl
  | some t =>
    cases t with
    | fail => rfl
    | go q rest => simp only [Option.map_some, outcome, final, Nat.zero_add]

omit [StructParserStateMachine μ] in
theorem final_alike {x y : Option (BencodeParser.Step μ)} (n len : Nat)
    (h : Alike SameMachine x y) : final n len x = final n len y := by
  obtain rfl | ⟨s, s', e, rfl, rfl, hpsm⟩ := h
  · rfl
  · exact congrArg (fun psm => some (Except.error e, psm)) hpsm

/-- The bytes that two calls read are those that one call reads. -/
theorem final_append (h : q.lastError = none) (n : Nat) {xs ys : Bytes}
    (hlen : rest.length ≤ xs.length) (hend : rest = [] ∨ scanner.finished q = true) :
    final n (xs ++ ys).length (scanner.run q (rest ++ ys)) =
      final (n + (xs.length - rest.length)) ys.length (scanner.run q ys) := by
  obtain rfl | hfinished := hend
  · rw [List.nil_append]
    cases hrun : scanner.run q ys with
    | none => rfl
    | some t =>
      cases t with
      | fail q' e => rfl
      | go q' rest' =>
        obtain ⟨-, hlen', -⟩ := lastError_run h hrun
        have hsum : n + ((xs ++ ys).length - rest'.length) =
            n + (xs.length - ([] : Bytes).length) + (ys.length - rest'.length) := by
          rw [List.length_append, List.length_nil]
          omega
        simp only [final, hsum]
  · have hsum : n + ((xs ++ ys).length - (rest ++ ys).length) =
        n + (xs.length - rest.length) + (ys.length - ys.length) := by
      rw [List.length_append, List.length_append]
      omega
    simp only [scanner.run_of_finished hfinished, final, hsum]

/-- However a text is cut, its pieces are read as the text is at once. -/
theorem outcome_parsePieces [LawfulStateMachine μ] (h : p.lastError = none) (n : Nat)
    (pieces : List Bytes) : (parsePieces p n pieces).map outcome =
      final n pieces.flatten.length (scanner.run p pieces.flatten) := by
  induction pieces generalizing p n with
  | nil =>
    rw [parsePieces, BencodeParser.parseFinal, parseUpdate_of_none h, List.flatten_nil,
      scanner.run_nil]
    dsimp only [final]
    by_cases hs : p.currentState ≠ .finish ∧ p.currentState ≠ .initial
    · rw [if_pos hs, if_pos hs]
      rfl
    · rw [if_neg hs, if_neg hs]
      rfl
  | cons data pieces ih =>
    rw [List.flatten_cons, final_alike _ _ (run_append p data pieces.flatten), parsePieces,
      parseUpdate_of_none h]
    cases hrun : scanner.run p data with
    | none => rfl
    | some t =>
      cases t with
      | fail q e => rfl
      | go q rest =>
        obtain ⟨hq, hlen, hend⟩ := lastError_run h hrun
        exact (ih hq _).trans (final_append hq n hlen hend).symm

end Calls

section Decode

/-- A new `ValueBaseBencodeParser`. -/
def start : BencodeParser StateMachine := { psm := StateMachine.new true }

variable {least : Int} {b data rest : Bytes} {v : ValueBase} {n : Nat}

/-- A text that starts with what denotes a value is read so far, and is the value. -/
theorem decode_of_denotes (hleast : -INT64_MAX ≤ least) (h : Denotes least 49 b v) (rest : Bytes) :
    decode (b ++ rest) = some (.ok (b.length, some v)) := by
  obtain ⟨p, hfound, hsteps⟩ := h.leadsTo hleast (q := start) (p := start)
    ⟨⟨_, _, rfl, .inl rfl⟩, rfl⟩ (by decide) (by decide) rfl fun _ _ _ => rfl
  have hend : p.onValueEnd = some (p.at_ .finish) := by
    have hstack : p.stateStack = [.finish] := hfound.stateStack
    unfold BencodeParser.onValueEnd
    rw [hstack]
  have hrun : scanner.run start (b ++ rest) = some (.go (p.at_ .finish) rest) := by
    rw [Scanner.run_of_steps (hsteps _ hend rest), scanner.run_of_finished (by simp [scanner,
      BencodeParser.at_])]
  have hlen : (b ++ rest).length - rest.length = b.length := by
    rw [List.length_append, Nat.add_sub_cancel]
  have hresult : (p.at_ .finish).psm.getResult = some v := by
    change p.psm.ctrl.currentFrame.value = some v
    rw [hfound.ctrl]
    rfl
  have hfinal : start.parseFinal (b ++ rest) = some (.ok b.length, p.at_ .finish) := by
    rw [BencodeParser.parseFinal, parseUpdate_of_none rfl, hrun]
    dsimp only
    rw [hlen, if_neg fun hs => hs.1 rfl]
  change (start.parseFinal (b ++ rest) >>= _) = _
  rw [hfinal]
  exact congrArg (fun v => some (Except.ok (b.length, v))) hresult

/-- The text starts with `n` bytes that denote a value. -/
def Starts (least : Int) (data : Bytes) (n : Nat) : Prop :=
  ∃ b rest v, data = b ++ rest ∧ Denotes least 49 b v ∧ n = b.length

/-- What the parser reads, unless it passes over something. -/
theorem denotes_of_parseFinal (hleast : least ≤ -INT64_MAX)
    (h : (start.parseFinal data).map Prod.fst = some (.ok n)) (hpass : ¬PassesOver start data) :
    data = [] ∧ n = 0 ∨ Starts least data n := by
  have hfinal := parseFinal_of_none (p := start) rfl data
  obtain ⟨⟨_, p⟩, hp, rfl⟩ := Option.map_eq_some_iff.mp h
  rw [hp] at hfinal
  rcases scanner.run_cases start data with ⟨q, rest, hsteps, hend, hrun⟩ |
    ⟨q, c, cs, -, -, hrun, hne⟩
  · rw [hrun] at hfinal
    by_cases hq : q.currentState = .finish
    · have hexpects : Expects least start data rest :=
        expects_steps hleast hsteps hpass (by unfold Expects; simp only [hq])
      obtain ⟨b, v, data', rfl, hv, hrest⟩ := hexpects
      obtain rfl : data' = rest := hrest
      have hn : n = (b ++ data').length - data'.length := by
        have hpair : some ((Except.ok n : Except BencodeError Nat), p.psm) =
            some (.ok ((b ++ data').length - data'.length), q.psm) := by
          simpa [outcome, final, hq] using hfinal
        cases congrArg (Option.map Prod.fst) hpair
        rfl
      exact .inr ⟨b, data', v, rfl, hv, by rw [hn, List.length_append, Nat.add_sub_cancel]⟩
    · cases hsteps with
      | refl =>
        obtain rfl | hfinished := hend
        · have hzero : n = 0 ∧ p.psm = StateMachine.new true := by
            simpa [outcome, final, start] using hfinal
          exact .inl ⟨rfl, hzero.1⟩
        · exact absurd hfinished (by decide)
      | head hgoing hturn hsteps =>
        have hfirst : start.turn _ _ = some (.go _ _) := hturn
        have hne : q.currentState ≠ .initial :=
          hsteps.inv (Moves.turn _ _ hfirst).2 fun _ hturn => (Moves.turn _ _ hturn).2
        simp [outcome, final, hq, hne] at hfinal
  · rw [hrun] at hfinal
    cases hturn : scanner.turn q c cs with
    | none => simp [hturn, final] at hfinal
    | some t =>
      cases t with
      | go q' rest => exact absurd hturn (hne q' rest)
      | fail q' e => simp [hturn, final, outcome] at hfinal

theorem parseFinal_of_starts (hleast : -INT64_MAX ≤ least)
    (h : data = [] ∧ n = 0 ∨ Starts least data n) :
    (start.parseFinal data).map Prod.fst = some (.ok n) := by
  obtain ⟨rfl, rfl⟩ | ⟨b, rest, v, rfl, hv, rfl⟩ := h
  · rfl
  · have hdecode := decode_of_denotes hleast hv rest
    obtain ⟨⟨r, p⟩, hp, hresult⟩ := Option.bind_eq_some_iff.mp
      (show (start.parseFinal (b ++ rest) >>= _) = _ from hdecode)
    rw [hp]
    cases r with
    | error e => exact nomatch hresult
    | ok n =>
      have hn : some (Except.ok (n, p.psm.getResult)) =
          some ((Except.ok (b.length, some v)) : Except BencodeError (Nat × Option ValueBase)) :=
        hresult
      exact congrArg (Option.map fun r => r.map Prod.fst) hn

/-- The parser takes the empty text and what starts with the text of a value, it undoes `encode`,
and it may be given a text in any pieces. -/
theorem decodes_in_pieces :
    (∀ data n, data = [] ∧ n = 0 ∨ Starts (-INT64_MAX) data n →
      (start.parseFinal data).map Prod.fst = some (.ok n)) ∧
    (∀ data n, (start.parseFinal data).map Prod.fst = some (.ok n) → ¬PassesOver start data →
      data = [] ∧ n = 0 ∨ Starts (-2 ^ 63) data n) ∧
    (∀ v : ValueBase, v.Everywhere (Representable (-INT64_MAX)) → v.nesting ≤ 49 →
      decode (encode v) = some (.ok ((encode v).length, some v))) ∧
    ∀ pieces : List Bytes,
      (parsePieces { psm := (({} : Callbacks), StateMachine.new true) } 0 pieces).map outcome =
        (BencodeParser.parseFinal { psm := (({} : Callbacks), StateMachine.new true) }
          pieces.flatten).map outcome := by
  refine ⟨fun data n h => parseFinal_of_starts (Int.le_refl _) h,
    fun data n h hpass => denotes_of_parseFinal (by decide) h hpass, fun v hv hnesting => ?_,
    fun pieces => ?_⟩
  · have hdecode := decode_of_denotes (Int.le_refl _) (denotes_encode hv hnesting) []
    rwa [List.append_nil] at hdecode
  · rw [outcome_parsePieces rfl, parseFinal_of_none rfl]

/-- `d1:ali-5e1:bee` -/
theorem decodes_in_pieces_dict :
    decode (encode (.dict [([ch 'a'], .list [.integer (-5), .string [ch 'b']])])) =
      some (.ok ((encode (.dict [([ch 'a'], .list [.integer (-5), .string [ch 'b']])])).length,
        some (.dict [([ch 'a'], .list [.integer (-5), .string [ch 'b']])]))) :=
  decodes_in_pieces.2.2.1 (.dict [([ch 'a'], .list [.integer (-5), .string [ch 'b']])])
    ⟨⟨List.pairwise_singleton .., by decide⟩,
      ⟨trivial, ⟨by decide, by decide⟩, (by decide : 1 ≤ INT64_MAX), trivial⟩, trivial⟩
    (by decide)

/-- The empty text, a plus sign and a number in scientific notation are taken. -/
theorem decodes_in_pieces_empty :
    ((start.parseFinal []).map Prod.fst = some (.ok 0) ∧ ∀ n, ¬Starts (-2 ^ 63) [] n) ∧
    (start.parseFinal (name "i+7e")).map Prod.fst = some (.ok 4) ∧
    (start.parseFinal (name "i1.5E+3e")).map Prod.fst = some (.ok 8) := by
  refine ⟨⟨rfl, ?_⟩, by decide +kernel, by decide +kernel⟩
  rintro n ⟨b, rest, v, hnil, hv, -⟩
  obtain ⟨c, cs, rfl, -⟩ := hv.head
  exact nomatch hnil

end Decode

end FluxCore.Bencode
