import FluxCore.Lib.Scanner
import FluxCore.Util.Characters
import Mathlib.Data.Int.Init
import Mathlib.Tactic.Linarith

/-!
# The decoder of the chunked transfer coding

`ChunkedDecodingStreamFilter::transform` goes through its input byte by byte, but for the data of a
chunk, of which it gives its delegate all that there is. What it does is what it would do byte by
byte (`feed`), so it does not matter how the input is cut (`transforms_eq`).
-/

namespace FluxCore.Http

open Util (isHexDigit hexCharToUInt)

def CR : UInt8 := 0x0d

def LF : UInt8 := 0x0a

def semicolon : UInt8 := 0x3b

namespace Chunked

/-- `state_`. -/
inductive State where
  | prevChunkSize
  | chunkSize
  | chunkExtension
  | prevChunkSizeLF
  | chunk
  | prevChunkCR
  | prevChunkLF
  | prevTrailer
  | trailer
  | prevTrailerLF
  | prevEndCR
  | prevEndLF
  | chunksComplete
  deriving DecidableEq, Repr

/-- Why a call does not return: an assertion fails, or it throws. -/
inductive Failure where
  | assertion
  | abort (message : String)
  deriving DecidableEq, Repr

/-- What the decoder remembers; the sizes are of type `int64_t`. -/
structure Control where
  state : State := .prevChunkSize
  chunkSize : Int := 0
  chunkRemaining : Int := 0
  deriving DecidableEq, Repr

/-- Some bit of the mask is set, so that a shift would lose it or change the sign. -/
def tooBig (chunkSize : Int) : Bool :=
  BitVec.ofInt 64 chunkSize &&& 0x7800000000000000#64 != 0#64

/-- `chunkSize_ <<= 4` and `chunkSize_ += hexCharToUInt(c)`. -/
def pushDigit (chunkSize : Int) (c : UInt8) : Int :=
  (((chunkSize <<< (4 : Nat)).bmod (2 ^ 64)) + (hexCharToUInt c).toNat).bmod (2 ^ 64)

/-- The cases of the `switch` that look at one byte. -/
def Control.read (s : Control) (c : UInt8) : Except Failure Control :=
  match s.state with
  | .prevChunkSize =>
    if isHexDigit c then
      .ok { s with chunkSize := (hexCharToUInt c).toNat, state := .chunkSize }
    else .error (.abort "Bad chunk size: not hex string")
  | .chunkSize =>
    if isHexDigit c then
      if tooBig s.chunkSize then .error (.abort "Too big chunk size")
      else .ok { s with chunkSize := pushDigit s.chunkSize c }
    else if c = semicolon then .ok { s with state := .chunkExtension }
    else if c = CR then .ok { s with state := .prevChunkSizeLF }
    else .error (.abort "Bad chunk size: not hex string")
  | .chunkExtension => if c = CR then .ok { s with state := .prevChunkSizeLF } else .ok s
  | .prevChunkSizeLF =>
    if c = LF then
      if s.chunkSize = 0 then .ok { s with chunkRemaining := s.chunkSize, state := .prevTrailer }
      else .ok { s with chunkRemaining := s.chunkSize, state := .chunk }
    else .error (.abort "Bad chunk encoding: missing LF at the end of chunk size")
  | .prevChunkCR =>
    if c = CR then .ok { s with state := .prevChunkLF }
    else .error (.abort "Bad chunk encoding: missing CR at the end of chunk")
  | .prevChunkLF =>
    if c = LF then
      if s.chunkSize = 0 then .ok { s with state := .prevTrailer }
      else .ok { s with chunkSize := 0, chunkRemaining := 0, state := .prevChunkSize }
    else .error (.abort "Bad chunk encoding: missing LF at the end of chunk")
  | .prevTrailer =>
    if c = CR then .ok { s with state := .prevEndLF } else .ok { s with state := .trailer }
  | .trailer => if c = CR then .ok { s with state := .prevTrailerLF } else .ok s
  | .prevTrailerLF =>
    if c = LF then .ok { s with state := .prevTrailer }
    else .error (.abort "Bad chunk encoding: missing LF at the end of trailer")
  | .prevEndLF =>
    if c = LF then .ok { s with state := .chunksComplete }
    else .error (.abort "Bad chunk encoding: missing LF at the end of chunks")
  | .chunk => .error .assertion
  | .prevEndCR => .error .assertion
  | .chunksComplete => .error .assertion

end Chunked

/-- The delegate: what it does with the bytes that it is given, with the number of bytes that it
writes, and whether it is finished. -/
structure StreamFilter (δ : Type) where
  transform : δ → List UInt8 → δ × Int
  finished : δ → Bool

structure ChunkedDecodingStreamFilter (δ : Type) where
  control : Chunked.Control := {}
  delegate : δ

namespace ChunkedDecodingStreamFilter

open Chunked

variable {δ : Type} (d : StreamFilter δ)

/-- A turn of the loop of `transform`, with `outlen`. It is `none` where the number of bytes to read
is negative. -/
def turn (s : ChunkedDecodingStreamFilter δ × Int) (c : UInt8) (cs : List UInt8) :
    Option (Turn (ChunkedDecodingStreamFilter δ × Int) UInt8 Failure) :=
  let (f, outlen) := s
  if f.control.state = .chunk then
    let readlen := min f.control.chunkRemaining (cs.length + 1)
    if readlen < 0 then none
    else
      let (delegate, n) := d.transform f.delegate ((c :: cs).take readlen.toNat)
      let chunkRemaining := f.control.chunkRemaining - readlen
      let state := if chunkRemaining = 0 then .prevChunkCR else .chunk
      some (.go ({ control := { f.control with state, chunkRemaining }, delegate }, outlen + n)
        ((c :: cs).drop readlen.toNat))
  else
    match f.control.read c with
    | .error e => some (.fail s e)
    | .ok control => some (.go ({ f with control }, outlen) cs)

/-- A turn that reads nothing is one behind the data of a chunk. -/
def rank (s : ChunkedDecodingStreamFilter δ × Int) : Nat :=
  if s.1.control.state = .chunk then 1 else 0

theorem turn_decreases {s s' : ChunkedDecodingStreamFilter δ × Int} {c : UInt8}
    {cs rest : List UInt8} (h : turn d s c cs = some (.go s' rest)) :
    2 * rest.length + rank s' < 2 * (cs.length + 1) + rank s := by
  have hrank : ∀ s : ChunkedDecodingStreamFilter δ × Int, rank s ≤ 1 := fun s => by
    rw [rank]
    split <;> omega
  have hs' := hrank s'
  obtain ⟨f, outlen⟩ := s
  rw [turn] at h
  dsimp only at h
  split at h
  next hchunk =>
    split at h
    next => cases h
    next hneg =>
      have hs : rank (f, outlen) = 1 := if_pos hchunk
      by_cases h0 : min f.control.chunkRemaining (cs.length + 1) = 0
      · have hrem : f.control.chunkRemaining = 0 := by omega
        rw [h0, hrem] at h
        cases h
        rw [hs, rank, if_neg (by simp)]
        exact Nat.lt_succ_self _
      · cases h
        rw [List.length_drop, List.length_cons, hs]
        omega
  next =>
    split at h
    · cases h
    · cases h
      omega

/-- The loop of `transform`. -/
def scanner : Scanner (ChunkedDecodingStreamFilter δ × Int) UInt8 Failure where
  finished s := s.1.control.state = .chunksComplete
  turn := turn d
  rank := rank
  decreases := turn_decreases d

/-- `transform`: the filter, `outlen` and `bytesProcessed_`. -/
def transform (f : ChunkedDecodingStreamFilter δ) (inbuf : List UInt8) :
    Except Failure (ChunkedDecodingStreamFilter δ × Int × Nat) :=
  match (scanner d).run (f, 0) inbuf with
  | none => .error .assertion
  | some (.fail _ e) => .error e
  | some (.go (f, outlen) rest) => .ok (f, outlen, inbuf.length - rest.length)

def finished (f : ChunkedDecodingStreamFilter δ) : Bool :=
  f.control.state = .chunksComplete && d.finished f.delegate

/-- Calls of `transform` for the pieces of an input, with what `getBytesProcessed` is after each. -/
def transforms (f : ChunkedDecodingStreamFilter δ) :
    List (List UInt8) → Except Failure (ChunkedDecodingStreamFilter δ × List Nat)
  | [] => .ok (f, [])
  | piece :: pieces =>
    (f.transform d piece).bind fun (f, _, processed) =>
      (f.transforms pieces).map fun (f, ps) => (f, processed :: ps)

end ChunkedDecodingStreamFilter

/-! ## Byte by byte -/

namespace Chunked

/-- The control behind `n` bytes of the data of a chunk. -/
def Control.skip (s : Control) (n : Int) : Control :=
  { s with
    state := if s.chunkRemaining - n = 0 then .prevChunkCR else .chunk
    chunkRemaining := s.chunkRemaining - n }

/-- A byte, and whether it is data. -/
def Control.byte (s : Control) (c : UInt8) : Except Failure (Control × List UInt8) :=
  if s.state = .chunk then .ok (s.skip 1, [c]) else (s.read c).map fun s => (s, [])

/-- What input leads to: the data in it, and what is left behind the end of the message. -/
abbrev Result := Except Failure (Control × List UInt8 × List UInt8)

/-- A result, with data and leftovers from before it. -/
def Result.prepend (bs rest : List UInt8) (r : Result) : Result :=
  r.map fun (s, bs', rest') => (s, bs ++ bs', rest ++ rest')

/-- The input byte by byte. -/
def feed (s : Control) : List UInt8 → Result
  | [] => .ok (s, [], [])
  | c :: cs =>
    if s.state = .chunksComplete then .ok (s, [], c :: cs)
    else (s.byte c).bind fun (s, b) => (feed s cs).prepend b []

/-- The sizes are as the code relies on: no overflow has made them negative. -/
structure Control.Wf (s : Control) : Prop where
  size_nonneg : 0 ≤ s.chunkSize
  size_lt : s.chunkSize < 2 ^ 63
  remaining_pos : s.state = .chunk → 0 < s.chunkRemaining

variable {s s' : Control} {c : UInt8}

theorem feed_complete (h : s.state = .chunksComplete) (cs : List UInt8) :
    feed s cs = .ok (s, [], cs) := by
  cases cs with
  | nil => rfl
  | cons c cs => exact if_pos h

theorem feed_cons (h : s.state ≠ .chunksComplete) (c : UInt8) (cs : List UInt8) :
    feed s (c :: cs) = (s.byte c).bind fun (s, b) => (feed s cs).prepend b [] := if_neg h

/-- The mask is the four bits below the sign. -/
theorem tooBig_iff {n : Int} (h0 : 0 ≤ n) (hn : n < 2 ^ 63) : tooBig n = true ↔ 2 ^ 59 ≤ n := by
  obtain ⟨n, rfl⟩ := Int.eq_ofNat_of_zero_le h0
  have hn' : n < 2 ^ 63 := by omega
  have hmask : ∀ i, (0x7800000000000000 : Nat).testBit i =
      (decide (59 ≤ i) && decide (i - 59 < 4)) := fun i => by
    rw [show (0x7800000000000000 : Nat) = (2 ^ 4 - 1) <<< 59 by decide, Nat.testBit_shiftLeft,
      Nat.testBit_two_pow_sub_one]
  have hand : tooBig (n : Int) = true ↔ n &&& 0x7800000000000000 ≠ 0 := by
    rw [tooBig, bne_iff_ne, ne_eq, ← BitVec.toNat_inj, BitVec.toNat_and, BitVec.ofInt_natCast,
      BitVec.toNat_ofNat, Nat.mod_eq_of_lt (by omega)]
    rfl
  have hclear : ∀ {k i}, n < 2 ^ k → k ≤ i → n.testBit i = false := fun hk hi =>
    Nat.testBit_lt_two_pow (lt_of_lt_of_le hk (Nat.pow_le_pow_right (by decide) hi))
  rw [hand]
  constructor
  · intro hne
    by_contra hlt
    refine hne (Nat.eq_of_testBit_eq fun i => ?_)
    rw [Nat.testBit_and, hmask, Nat.zero_testBit]
    by_cases hi : 59 ≤ i
    · rw [hclear (by omega : n < 2 ^ 59) hi, Bool.false_and]
    · rw [decide_eq_false hi, Bool.false_and, Bool.and_false]
  · intro hle h
    obtain ⟨i, hi, hbit⟩ := Nat.exists_ge_and_testBit_of_ge_two_pow (by omega : 2 ^ 59 ≤ n)
    have hlt : i < 63 := by
      by_contra hge
      rw [hclear hn' (not_lt.mp hge)] at hbit
      cases hbit
    have hi' := congrArg (·.testBit i) h
    simp only [Nat.testBit_and, hmask, hbit, Nat.zero_testBit] at hi'
    rw [decide_eq_true hi, decide_eq_true (by omega)] at hi'
    cases hi'

theorem hexCharToUInt_lt (h : isHexDigit c = true) : (hexCharToUInt c).toNat < 16 := by
  have hall : ∀ n : Fin 256, isHexDigit (.ofFin n) = true →
      (hexCharToUInt (.ofFin n)).toNat < 16 := by decide +kernel
  exact hall c.toFin h

theorem pushDigit_eq {n : Int} (h0 : 0 ≤ n) (hn : n < 2 ^ 59) (h : isHexDigit c = true) :
    pushDigit n c = 16 * n + (hexCharToUInt c).toNat := by
  have hc := hexCharToUInt_lt h
  have hshift : (n <<< (4 : Nat)).bmod (2 ^ 64) = 16 * n := by
    rw [Int.shiftLeft_eq, Int.bmod_eq_of_le (by omega) (by omega)]
    omega
  rw [pushDigit, hshift, Int.bmod_eq_of_le (by omega) (by omega)]

theorem wf_init : Control.Wf {} := ⟨le_refl _, by decide, nofun⟩

/-- No size overflows. -/
theorem Control.Wf.read (h : s.Wf) (hs : s.read c = .ok s') : s'.Wf := by
  obtain ⟨hnonneg, hlt, hpos⟩ := h
  unfold Control.read at hs
  split at hs
  case h_1 =>
    split at hs
    next hc =>
      have := hexCharToUInt_lt hc
      cases hs
      exact ⟨Int.natCast_nonneg _, by dsimp only; omega, nofun⟩
    next => cases hs
  case h_2 =>
    split at hs
    next hc =>
      split at hs
      next => cases hs
      next hbig =>
        rw [tooBig_iff hnonneg hlt, not_le] at hbig
        have := hexCharToUInt_lt hc
        cases hs
        rw [pushDigit_eq hnonneg hbig hc]
        exact ⟨by dsimp only; omega, by dsimp only; omega, hpos⟩
    next =>
      split at hs
      · cases hs
        exact ⟨hnonneg, hlt, nofun⟩
      · split at hs
        · cases hs
          exact ⟨hnonneg, hlt, nofun⟩
        · cases hs
  case h_4 =>
    split at hs
    · split at hs
      · cases hs
        exact ⟨hnonneg, hlt, nofun⟩
      next hne =>
        cases hs
        exact ⟨hnonneg, hlt, fun _ => lt_of_le_of_ne hnonneg (Ne.symm hne)⟩
    · cases hs
  -- the other states keep the size or set it to 0
  all_goals
    try split at hs
    all_goals try split at hs
    all_goals first
      | cases hs
        exact ⟨hnonneg, hlt, hpos⟩
      | cases hs
        exact ⟨hnonneg, hlt, nofun⟩
      | cases hs
        exact ⟨le_refl _, by decide, nofun⟩
      | cases hs

theorem Control.Wf.skip (h : s.Wf) {n : Int} (hn : n ≤ s.chunkRemaining) : (s.skip n).Wf := by
  refine ⟨h.size_nonneg, h.size_lt, fun hstate => ?_⟩
  dsimp only [Control.skip] at hstate ⊢
  split at hstate
  · cases hstate
  · omega

theorem Control.skip_skip (s : Control) (m n : Int) : (s.skip m).skip n = s.skip (m + n) := by
  simp only [Control.skip, Int.sub_sub]

theorem Control.byte_chunk (hs : s.state = .chunk) (c : UInt8) : s.byte c = .ok (s.skip 1, [c]) :=
  if_pos hs

theorem Result.prepend_nil (r : Result) : r.prepend [] [] = r := by cases r <;> rfl

theorem Result.prepend_prepend (bs bs' rest rest' : List UInt8) (r : Result) :
    (r.prepend bs' rest').prepend bs rest = r.prepend (bs ++ bs') (rest ++ rest') := by
  cases r with
  | error e => rfl
  | ok r =>
    simp only [Result.prepend, Except.map, List.append_assoc]

/-- A cut of the input makes no difference. -/
theorem feed_append (s : Control) (xs ys : List UInt8) :
    feed s (xs ++ ys) = (feed s xs).bind fun (s, bs, rest) => (feed s ys).prepend bs rest := by
  induction xs generalizing s with
  | nil => exact (Result.prepend_nil _).symm
  | cons c xs ih =>
    by_cases hs : s.state = .chunksComplete
    · rw [feed_complete hs, feed_complete hs]
      change _ = (feed s ys).prepend _ _
      rw [feed_complete hs]
      rfl
    · rw [List.cons_append, feed_cons hs, feed_cons hs]
      cases s.byte c with
      | error e => rfl
      | ok r =>
        change (feed r.1 (xs ++ ys)).prepend _ _ = ((feed r.1 xs).prepend _ _).bind _
        rw [ih]
        cases feed r.1 xs with
        | error e => rfl
        | ok r' => exact Result.prepend_prepend ..

theorem feed_length_le {s s' : Control} {cs bs rest : List UInt8}
    (h : feed s cs = .ok (s', bs, rest)) : rest.length ≤ cs.length := by
  induction cs generalizing s bs with
  | nil =>
    cases h
    exact le_refl _
  | cons c cs ih =>
    by_cases hs : s.state = .chunksComplete
    · rw [feed_complete hs] at h
      cases h
      exact le_refl _
    · rw [feed_cons hs] at h
      cases hb : s.byte c with
      | error e => rw [hb] at h; cases h
      | ok r =>
        rw [hb] at h
        change (feed r.1 cs).prepend r.2 [] = _ at h
        cases hr : feed r.1 cs with
        | error e => rw [hr] at h; cases h
        | ok r' =>
          rw [hr] at h
          cases h
          exact (ih hr).trans (Nat.le_succ _)

/-- The data of a chunk at once. -/
theorem feed_chunk (hs : s.state = .chunk) {bs : List UInt8} (hne : bs ≠ [])
    (hle : bs.length ≤ s.chunkRemaining) (cs : List UInt8) :
    feed s (bs ++ cs) = (feed (s.skip bs.length) cs).prepend bs [] := by
  induction bs generalizing s with
  | nil => exact absurd rfl hne
  | cons b bs ih =>
    have hstart : s.state ≠ .chunksComplete := by rw [hs]; exact nofun
    rw [List.length_cons] at hle
    rw [List.cons_append, feed_cons hstart, Control.byte_chunk hs]
    change (feed (s.skip 1) (bs ++ cs)).prepend _ _ = _
    cases bs with
    | nil => rfl
    | cons b' bs =>
      have hskip : (s.skip 1).skip (b' :: bs).length = s.skip (b :: b' :: bs).length := by
        rw [Control.skip_skip, List.length_cons, List.length_cons, List.length_cons]
        exact congrArg s.skip (by omega)
      have hstate : (s.skip 1).state = .chunk := if_neg (by rw [List.length_cons] at hle; omega)
      rw [ih hstate (List.cons_ne_nil _ _) (by dsimp only [Control.skip]; omega), hskip,
        Result.prepend_prepend]
      rfl

end Chunked

namespace ChunkedDecodingStreamFilter

open Chunked

variable {δ : Type} {d : StreamFilter δ}

/-- What becomes of a delegate that is given these bytes, cut in some way. -/
def Fed (d : StreamFilter δ) (d₀ : δ) (bytes : List UInt8) (d₁ : δ) : Prop :=
  ∃ ps : List (List UInt8), ps.flatten = bytes ∧ ps.foldl (fun d₀ p => (d.transform d₀ p).1) d₀ = d₁

theorem Fed.refl (d₀ : δ) : Fed d d₀ [] d₀ := ⟨[], rfl, rfl⟩

theorem Fed.trans {d₀ d₁ d₂ : δ} {bs bs' : List UInt8} (h : Fed d d₀ bs d₁) (h' : Fed d d₁ bs' d₂) :
    Fed d d₀ (bs ++ bs') d₂ := by
  obtain ⟨ps, rfl, rfl⟩ := h
  obtain ⟨ps', rfl, rfl⟩ := h'
  exact ⟨ps ++ ps', List.flatten_append, List.foldl_append⟩

theorem Fed.one (d₀ : δ) (bs : List UInt8) : Fed d d₀ bs (d.transform d₀ bs).1 :=
  ⟨[bs], List.flatten_singleton .., rfl⟩

/-- The loop of `transform` does what it would do byte by byte. -/
theorem run_spec {f : ChunkedDecodingStreamFilter δ} (hf : f.control.Wf) (outlen : Int)
    (inbuf : List UInt8) :
    match feed f.control inbuf with
    | .error e => ∃ s, (scanner d).run (f, outlen) inbuf = some (.fail s e)
    | .ok (control, bs, rest) => ∃ delegate outlen',
        (scanner d).run (f, outlen) inbuf = some (.go ({ control, delegate }, outlen') rest) ∧
          Fed d f.delegate bs delegate ∧ control.Wf := by
  generalize hn : inbuf.length = n
  induction n using Nat.strongRecOn generalizing f outlen inbuf with
  | ind n ih =>
    subst hn
    cases inbuf with
    | nil => exact ⟨f.delegate, outlen, Scanner.run_nil _, .refl _, hf⟩
    | cons c cs =>
      by_cases hend : f.control.state = .chunksComplete
      · rw [feed_complete hend]
        exact ⟨f.delegate, outlen, Scanner.run_of_finished _ (decide_eq_true hend), .refl _, hf⟩
      have hgoing : (scanner d).finished (f, outlen) = false := decide_eq_false hend
      rw [Scanner.run_cons _ hgoing]
      by_cases hchunk : f.control.state = .chunk
      · have hpos := hf.remaining_pos hchunk
        obtain ⟨k, hk⟩ : ∃ k : Nat, min f.control.chunkRemaining (cs.length + 1) = k + 1 :=
          ⟨(min f.control.chunkRemaining (cs.length + 1)).toNat - 1, by omega⟩
        have hturn : (scanner d).turn (f, outlen) c cs = some (.go
            ({ control := f.control.skip (k + 1)
               delegate := (d.transform f.delegate (c :: cs.take k)).1 },
              outlen + (d.transform f.delegate (c :: cs.take k)).2) (cs.drop k)) := by
          change turn d (f, outlen) c cs = _
          rw [turn]
          dsimp only
          rw [if_pos hchunk, hk, if_neg (by omega)]
          rfl
        have hlen : ((c :: cs.take k).length : Int) = k + 1 := by
          rw [List.length_cons, List.length_take, Nat.min_eq_left (by omega)]
          rfl
        have hfeed := feed_chunk hchunk (List.cons_ne_nil c (cs.take k)) (by omega) (cs.drop k)
        rw [List.cons_append, List.take_append_drop, hlen] at hfeed
        have hrest := ih (cs.drop k).length (by rw [List.length_drop, List.length_cons]; omega)
          (f := { control := f.control.skip (k + 1)
                  delegate := (d.transform f.delegate (c :: cs.take k)).1 })
          (hf.skip (by omega)) (outlen + (d.transform f.delegate (c :: cs.take k)).2) (cs.drop k)
          rfl
        rw [hturn, hfeed]
        dsimp only at hrest ⊢
        cases hr : feed (f.control.skip (k + 1)) (cs.drop k) with
        | error e => rw [hr] at hrest; exact hrest
        | ok r =>
          rw [hr] at hrest
          obtain ⟨delegate, outlen', hrun, hfed, hwf⟩ := hrest
          exact ⟨delegate, outlen', hrun, (Fed.one _ _).trans hfed, hwf⟩
      · have hturn : (scanner d).turn (f, outlen) c cs =
            match f.control.read c with
            | .error e => some (.fail (f, outlen) e)
            | .ok control => some (.go ({ f with control }, outlen) cs) := if_neg hchunk
        rw [hturn]
        cases hr : f.control.read c with
        | error e =>
          have hfeed : feed f.control (c :: cs) = .error e := by
            rw [feed_cons hend, Control.byte, if_neg hchunk, hr]
            rfl
          rw [hfeed]
          exact ⟨_, rfl⟩
        | ok control =>
          have hfeed : feed f.control (c :: cs) = feed control cs := by
            rw [feed_cons hend, Control.byte, if_neg hchunk, hr]
            exact Result.prepend_nil _
          rw [hfeed]
          exact ih cs.length (Nat.lt_succ_self _) (f := { f with control }) (hf.read hr)
            outlen cs rfl

/-- A call of `transform`. -/
theorem transform_spec {f : ChunkedDecodingStreamFilter δ} (hf : f.control.Wf)
    (inbuf : List UInt8) :
    match feed f.control inbuf with
    | .error e => f.transform d inbuf = .error e
    | .ok (control, bs, rest) => ∃ delegate outlen,
        f.transform d inbuf =
          .ok ({ control, delegate }, outlen, inbuf.length - rest.length) ∧
          Fed d f.delegate bs delegate ∧ control.Wf := by
  have hrun := run_spec (d := d) hf 0 inbuf
  rw [transform]
  cases hfeed : feed f.control inbuf with
  | error e =>
    rw [hfeed] at hrun
    obtain ⟨s, hrun⟩ := hrun
    dsimp only
    rw [hrun]
  | ok r =>
    rw [hfeed] at hrun
    obtain ⟨delegate, outlen, hrun, h⟩ := hrun
    refine ⟨delegate, outlen, ?_, h⟩
    rw [hrun]

/-- **How the input is cut makes no difference**: calls of `transform` for its pieces do what comes
of the input byte by byte. -/
theorem transforms_spec {f : ChunkedDecodingStreamFilter δ} (hf : f.control.Wf)
    (pieces : List (List UInt8)) :
    match feed f.control pieces.flatten with
    | .error e => f.transforms d pieces = .error e
    | .ok (control, bs, rest) => ∃ delegate ps,
        f.transforms d pieces = .ok ({ control, delegate }, ps) ∧ Fed d f.delegate bs delegate ∧
          ps.sum + rest.length = pieces.flatten.length := by
  induction pieces generalizing f with
  | nil => exact ⟨f.delegate, [], rfl, .refl _, rfl⟩
  | cons piece pieces ih =>
    have hpiece := transform_spec (d := d) hf piece
    rw [List.flatten_cons, feed_append, transforms]
    cases hfeed : feed f.control piece with
    | error e =>
      rw [hfeed] at hpiece
      dsimp only at hpiece
      rw [hpiece]
      rfl
    | ok r =>
      obtain ⟨control, bs, rest⟩ := r
      rw [hfeed] at hpiece
      obtain ⟨delegate, outlen, htransform, hfed, hwf⟩ := hpiece
      have hrest := @ih { control, delegate } hwf
      have hle := feed_length_le hfeed
      rw [htransform]
      simp only [Except.bind]
      cases hfeed' : feed control pieces.flatten with
      | error e =>
        rw [hfeed'] at hrest
        dsimp only at hrest
        rw [hrest]
        rfl
      | ok r =>
        rw [hfeed'] at hrest
        obtain ⟨delegate', ps, htransforms, hfed', hsum⟩ := hrest
        rw [htransforms]
        refine ⟨delegate', _, rfl, hfed.trans hfed', ?_⟩
        dsimp only at hsum ⊢
        rw [List.sum_cons, List.length_append, List.length_append]
        omega

end ChunkedDecodingStreamFilter

end FluxCore.Http
