import FluxCore.Http.ContentDisposition
import FluxCore.Uri.Grammar

/-!
# The parameters of a disposition

A disposition is a type and parameters. What the parser does with a parameter depends on the name and
on the value of the parameter and on what it has found before (`DispositionParm.effect`), not on the
other variables.
-/

namespace FluxCore.Http.Disposition

open Utp (Bytes)
open Torrent (isAlpha)
open Util (isDigit isLws UTF8_ACCEPT UTF8_REJECT utf8dfa next endState utf8dfaAccepts)

/-! ## The grammar -/

/-- A character of an extended value. -/
inductive ExtChar where
  | attr (c : UInt8)
  | pct (h l : UInt8)
  deriving DecidableEq, Repr

namespace ExtChar

def render : ExtChar → Bytes
  | attr c => [c]
  | pct h l => [percent, h, l]

def byte : ExtChar → UInt8
  | attr c => c
  | pct h l => (Util.hexCharToUInt h <<< 4) ||| Util.hexCharToUInt l

/-- The characters that may stand in a value in the character set `enc`. -/
def WF (enc : CdEnc) : ExtChar → Prop
  | attr c => inRFC5987AttrChar c = true
  | pct h l => Util.isHexDigit h = true ∧ Util.isHexDigit l = true ∧
      (enc = .iso88591 → isIso8859p1 (pct h l).byte = true)

end ExtChar

/-- What `strieq` finds out about the name of a character set. -/
def encOf (charset : Bytes) : CdEnc :=
  if strieq charset "utf-8".toUTF8.toList then .utf8
  else if strieq charset "iso-8859-1".toUTF8.toList then .iso88591
  else .unknown

/-- The value of a parameter. A character of a quoted string is one behind a backslash or not. -/
inductive ParmValue where
  | token (t : Bytes)
  | quoted (q : List (Bool × UInt8))
  | ext (charset language : Bytes) (chars : List ExtChar)
  deriving DecidableEq, Repr

namespace ParmValue

def renderQuoted (q : List (Bool × UInt8)) : Bytes :=
  q.flatMap fun x => if x.1 then [backslash, x.2] else [x.2]

def renderExt (chars : List ExtChar) : Bytes := chars.flatMap ExtChar.render

def render : ParmValue → Bytes
  | token t => t
  | quoted q => quote :: (renderQuoted q ++ [quote])
  | ext charset language chars =>
    charset ++ apostrophe :: (language ++ apostrophe :: renderExt chars)

/-- What the value stands for. -/
def bytes : ParmValue → Bytes
  | token t => t
  | quoted q => q.map Prod.snd
  | ext _ _ chars => chars.map ExtChar.byte

def charset? : ParmValue → Option Bytes
  | ext charset _ _ => some charset
  | _ => none

/-- The characters of a text, in UTF-8 or in ISO/IEC 8859-1. -/
def TextWF (defaultUTF8 : Bool) (s : Bytes) : Prop :=
  if defaultUTF8 then utf8dfaAccepts s else ∀ c ∈ s, isIso8859p1 c = true

def WF (defaultUTF8 : Bool) : ParmValue → Prop
  | token t => t ≠ [] ∧ ∀ c ∈ t, inRFC2616HttpToken c = true
  | quoted q => TextWF defaultUTF8 (q.map Prod.snd) ∧
      ∀ c, (false, c) ∈ q → c ≠ backslash ∧ c ≠ quote
  | ext charset language chars =>
    (charset ≠ [] ∧ ∀ c ∈ charset, inRFC2978MIMECharset c = true ∧ c ≠ apostrophe) ∧
      (∀ c ∈ language, isLanguage c = true) ∧ (∀ x ∈ chars, x.WF (encOf charset)) ∧
        (encOf charset = .utf8 → utf8dfaAccepts (chars.map ExtChar.byte))

end ParmValue

/-- A parameter, with the blanks around its parts. -/
structure DispositionParm where
  before : Bytes
  name : Bytes
  gap : Bytes
  lead : Bytes
  value : ParmValue
  trail : Bytes

/-- What the names of parameters distinguish. -/
inductive ParmKind where
  | filename
  | extFilename
  | other
  deriving DecidableEq, Repr

/-- Blanks. -/
def Blanks (s : Bytes) : Prop := ∀ c ∈ s, isLws c = true

instance (s : Bytes) : Decidable (Blanks s) := inferInstanceAs (Decidable (∀ c ∈ s, isLws c = true))

namespace DispositionParm

/-- The name that is compared. The last of the blanks behind a name is not part of it. -/
def marked (x : DispositionParm) : Bytes := x.name ++ x.gap.dropLast

/-- A name that is followed by an extended value. -/
def isExtName (name : Bytes) : Prop := name.length ≠ 1 ∧ name.getLast? = some star

instance (name : Bytes) : Decidable (isExtName name) := inferInstanceAs (Decidable (_ ∧ _))

def kind (x : DispositionParm) : ParmKind :=
  if strieq x.marked "filename*".toUTF8.toList then .extFilename
  else if strieq x.marked "filename".toUTF8.toList then .filename
  else .other

structure WF (defaultUTF8 : Bool) (x : DispositionParm) : Prop where
  before : Blanks x.before
  name_ne : x.name ≠ []
  name_chars : ∀ c ∈ x.name, inRFC2616HttpToken c = true
  gap : Blanks x.gap
  lead : Blanks x.lead
  value : x.value.WF defaultUTF8
  value_form : x.value.charset?.isSome = true ↔ isExtName x.marked
  trail : Blanks x.trail

def render (x : DispositionParm) : Bytes :=
  x.before ++ (x.name ++ (x.gap ++ equals :: (x.lead ++ (x.value.render ++ x.trail))))

end DispositionParm

/-- What the parameters up to some point leave. -/
structure Found where
  dest : Bytes := []
  filename : Bool := false
  extFilename : Bool := false
  charsetp : Option Bytes := none
  deriving DecidableEq, Repr

/-- What a parameter does; it is `none` where it makes the parser return `-1`. -/
def DispositionParm.effect (destlen : Nat) (a : Found) (x : DispositionParm) : Option Found :=
  match x.kind with
  | .extFilename =>
    if a.extFilename = true ∨ destlen < x.value.bytes.length then none
    else some { a with dest := x.value.bytes, extFilename := true, charsetp := x.value.charset? }
  | .filename =>
    if a.filename then none
    else if a.extFilename then some a
    else if destlen < x.value.bytes.length then none
    else some { a with dest := x.value.bytes, filename := true }
  | .other => some { a with charsetp := x.value.charset?.or a.charsetp }

/-! ## Blanks and names -/

section

variable {defaultUTF8 : Bool} {destlen : Nat} {st st' : Cd} {v v' : CdVars} {c : UInt8}
  {s rest : Bytes}

theorem cdScan_cons (h : cdStep defaultUTF8 destlen st v c = some (st', v')) :
    cdScan defaultUTF8 destlen st v (c :: s) = cdScan defaultUTF8 destlen st' v' s := by
  rw [cdScan, h]

theorem cdScan_none (h : cdStep defaultUTF8 destlen st v c = none) :
    cdScan defaultUTF8 destlen st v (c :: s) = none := by
  rw [cdScan, h]

/-- Characters that change nothing. -/
theorem cdScan_stay {a : Bytes} (h : ∀ c ∈ a, cdStep defaultUTF8 destlen st v c = some (st, v)) :
    cdScan defaultUTF8 destlen st v (a ++ rest) = cdScan defaultUTF8 destlen st v rest := by
  induction a with
  | nil => rfl
  | cons c a ih =>
    obtain ⟨hc, ha⟩ := List.forall_mem_cons.mp h
    rw [List.cons_append, cdScan_cons hc, ih ha]

theorem isLws_iff : isLws c = true ↔ c = 0x20 ∨ c = 0x09 := by simp [isLws]

/-- A blank is none of the other characters. -/
theorem of_isLws (h : isLws c = true) : inRFC2616HttpToken c = false ∧
    inRFC2978MIMECharset c = false ∧ inRFC5987AttrChar c = false ∧ c ≠ semicolon ∧ c ≠ equals ∧
      c ≠ quote ∧ c ≠ apostrophe ∧ c ≠ percent := by
  obtain rfl | rfl := isLws_iff.mp h <;> decide +kernel

theorem of_token (h : inRFC2616HttpToken c = true) : c ≠ semicolon ∧ c ≠ equals ∧ c ≠ quote ∧
    isLws c = false := by
  refine ⟨?_, ?_, ?_, ?_⟩
  · rintro rfl
    exact absurd h (by decide +kernel)
  · rintro rfl
    exact absurd h (by decide +kernel)
  · rintro rfl
    exact absurd h (by decide +kernel)
  · exact Bool.eq_false_iff.mpr fun hlws => by rw [(of_isLws hlws).1] at h; exact nomatch h

theorem cdScan_before {a : Bytes} (ha : Blanks a) :
    cdScan defaultUTF8 destlen .beforeDispositionParmName v (a ++ rest) =
      cdScan defaultUTF8 destlen .beforeDispositionParmName v rest :=
  cdScan_stay fun c hc =>
    (if_neg (by rw [(of_isLws (ha c hc)).1]; decide)).trans (if_pos (ha c hc))

theorem cdScan_name {a : Bytes} (ha : ∀ c ∈ a, inRFC2616HttpToken c = true) :
    cdScan defaultUTF8 destlen .dispositionParmName v (a ++ rest) =
      cdScan defaultUTF8 destlen .dispositionParmName { v with marked := v.marked ++ a } rest := by
  induction a generalizing v with
  | nil => rw [List.append_nil]; rfl
  | cons c a ih =>
    obtain ⟨hc, ha⟩ := List.forall_mem_cons.mp ha
    obtain ⟨-, hequals, -, hlws⟩ := of_token hc
    have hstep : cdStep defaultUTF8 destlen .dispositionParmName v c =
        some (.dispositionParmName, { v with marked := v.marked ++ [c] }) :=
      (if_neg hequals).trans ((if_neg (by rw [hlws]; decide)).trans
        (if_neg (by rw [hc]; simp)))
    rw [List.cons_append, cdScan_cons hstep, ih ha, List.append_assoc, List.singleton_append]

/-- The blanks behind a name; the name is marked up to the last of them. -/
theorem cdScan_gap {a : Bytes} (ha : Blanks a) (hne : a ≠ [])
    (hst : st = .dispositionParmName ∨ st = .afterDispositionParmName) :
    cdScan defaultUTF8 destlen st v (a ++ rest) =
      cdScan defaultUTF8 destlen .afterDispositionParmName
        { v with name := v.marked ++ a.dropLast, marked := v.marked ++ a } rest := by
  induction a generalizing v st with
  | nil => exact absurd rfl hne
  | cons c a ih =>
    obtain ⟨hc, ha⟩ := List.forall_mem_cons.mp ha
    obtain ⟨-, -, -, -, hequals, -⟩ := of_isLws hc
    have hstep : cdStep defaultUTF8 destlen st v c = some (.afterDispositionParmName,
        { v with name := v.marked, marked := v.marked ++ [c] }) := by
      obtain rfl | rfl := hst
      · exact (if_neg hequals).trans (if_pos hc)
      · exact (if_neg hequals).trans (if_pos hc)
    rw [List.cons_append, cdScan_cons hstep]
    by_cases hnil : a = []
    · obtain rfl := hnil
      simp
    · rw [ih ha hnil (.inr rfl)]
      simp [List.dropLast_cons_of_ne_nil hnil]

variable (destlen v rest) in
/-- A name up to its equals sign. -/
theorem cdScan_parm {x : DispositionParm} (h : x.WF defaultUTF8) :
    ∃ text, cdScan defaultUTF8 destlen .beforeDispositionParmName v
        (x.before ++ (x.name ++ (x.gap ++ equals :: rest))) =
      match cdParm { v with marked := text, name := x.marked } x.marked with
      | none => none
      | some (st, v) => cdScan defaultUTF8 destlen st v rest := by
  obtain ⟨c, a, hname⟩ := List.exists_cons_of_ne_nil h.name_ne
  obtain ⟨hc, ha⟩ := List.forall_mem_cons.mp (hname ▸ h.name_chars)
  have hstep : cdStep defaultUTF8 destlen .beforeDispositionParmName v c =
      some (.dispositionParmName, { v with marked := [c] }) := if_pos hc
  rw [cdScan_before h.before, hname, List.cons_append, cdScan_cons hstep, cdScan_name ha,
    List.singleton_append]
  by_cases hgap : x.gap = []
  · refine ⟨c :: a, ?_⟩
    have hmarked : x.marked = c :: a := by
      rw [DispositionParm.marked, hgap, hname, List.dropLast_nil, List.append_nil]
    rw [hgap, List.nil_append, cdScan, hmarked]
    rfl
  · refine ⟨c :: a ++ x.gap, ?_⟩
    rw [cdScan_gap h.gap hgap (.inl rfl), DispositionParm.marked, hname, cdScan]
    rfl

end

/-! ## Writing -/

/-- Characters are written, if they are some of the file name. -/
def CdVars.write (v : CdVars) (destlen : Nat) (s : Bytes) : Option CdVars :=
  if v.inFileParm then
    if destlen < v.dest.length + s.length then none else some { v with dest := v.dest ++ s }
  else some v

/-- There is no more in the buffer than fits into it. -/
def CdVars.Room (v : CdVars) (destlen : Nat) : Prop :=
  v.inFileParm = true → v.dest.length ≤ destlen

section

variable {defaultUTF8 : Bool} {destlen : Nat} {st st' : Cd} {v v' w : CdVars} {c : UInt8}
  {s rest : Bytes}

theorem write_nil (hroom : v.Room destlen) : v.write destlen [] = some v := by
  unfold CdVars.write
  split
  next hin =>
    rw [if_neg (by have := hroom hin; simp; omega), List.append_nil]
  · rfl

theorem put_room (h : v.put destlen c = some w) (hroom : v.Room destlen) : w.Room destlen := by
  unfold CdVars.put at h
  split at h
  next hin =>
    split at h
    · exact nomatch h
    next hne =>
      obtain rfl := Option.some.inj h
      intro _
      have := hroom hin
      rw [List.length_append, List.length_singleton]
      omega
  · exact Option.some.inj h ▸ hroom

theorem write_cons (hroom : v.Room destlen) (c : UInt8) (s : Bytes) :
    v.write destlen (c :: s) = (v.put destlen c).bind (·.write destlen s) := by
  unfold CdVars.put
  by_cases hin : v.inFileParm = true
  · have hle := hroom hin
    by_cases hfull : v.dest.length = destlen
    · have hlt : destlen < v.dest.length + (c :: s).length := by
        rw [List.length_cons]
        omega
      simp only [CdVars.write, hin, if_true, hfull, Option.bind_none]
      rw [if_pos (hfull ▸ hlt)]
    · have hlen : v.dest.length + 1 + s.length = v.dest.length + (s.length + 1) := by omega
      simp only [CdVars.write, hin, if_true, hfull, if_false, Option.bind_some, List.length_append,
        List.length_nil, Nat.zero_add, List.length_cons, List.append_assoc, List.singleton_append,
        hlen]
  · simp only [CdVars.write, hin, Bool.false_eq_true, if_false, Option.bind_some]

/-- Writing does not see the automaton. -/
theorem put_dfa (v : CdVars) (d code : UInt32) (c : UInt8) :
    ({ v with dfaState := d, dfaCode := code }).put destlen c =
      (v.put destlen c).map fun w => { w with dfaState := d, dfaCode := code } := by
  unfold CdVars.put
  dsimp only
  split_ifs <;> rfl

/-- The scan goes on behind what is written. -/
def goOn (defaultUTF8 : Bool) (destlen : Nat) (st : Cd) (rest : Bytes) (w : Option CdVars) :
    Option (Bytes × Option Bytes) :=
  w.bind fun w => cdScan defaultUTF8 destlen st w rest

variable (destlen rest) in
theorem cdScan_token {t : Bytes} (ht : ∀ c ∈ t, inRFC2616HttpToken c = true)
    (hroom : v.Room destlen) : cdScan defaultUTF8 destlen .token v (t ++ rest) =
      goOn defaultUTF8 destlen .token rest (v.write destlen t) := by
  induction t generalizing v with
  | nil => rw [write_nil hroom]; rfl
  | cons c t ih =>
    obtain ⟨hc, ht⟩ := List.forall_mem_cons.mp ht
    have hstep : cdStep defaultUTF8 destlen .token v c = (v.put destlen c).map (.token, ·) :=
      if_pos hc
    rw [write_cons hroom, List.cons_append]
    rcases hput : v.put destlen c with _ | w
    · rw [cdScan_none (by rw [hstep, hput]; rfl)]
      rfl
    · rw [cdScan_cons (by rw [hstep, hput]; rfl), ih ht (put_room hput hroom), Option.bind_some]

/-- The characters of a text, where the automaton goes from one state to another. -/
def Reads (defaultUTF8 : Bool) (d : UInt32) (s : Bytes) (d' : UInt32) : Prop :=
  if defaultUTF8 then endState d s = some d' else d' = d ∧ ∀ c ∈ s, isIso8859p1 c = true

variable (destlen rest) in
theorem cdScan_quotedChar {d : UInt32} (hseen : v.quotedSeen = true ∨ c ≠ backslash ∧ c ≠ quote)
    (hread : Reads defaultUTF8 v.dfaState [c] d) : ∃ code,
      cdScan defaultUTF8 destlen .quotedString v (c :: rest) =
        goOn defaultUTF8 destlen .quotedString rest
          (({ v with quotedSeen := false, dfaState := d, dfaCode := code }).put destlen c) := by
  have hsplit : ∀ v?, (if defaultUTF8 then ({ v with quotedSeen := false }).utf8 c
      else if isIso8859p1 c then some { v with quotedSeen := false } else none) = v? →
      cdStep defaultUTF8 destlen .quotedString v c =
        (v?.bind (·.put destlen c)).map (.quotedString, ·) := by
    rintro v? rfl
    have hfirst : ∀ x : UInt8, x = backslash ∨ x = quote → ¬(c = x ∧ v.quotedSeen = false) := by
      rintro x hx ⟨rfl, hfalse⟩
      obtain hseen | ⟨h1, h2⟩ := hseen
      · rw [hfalse] at hseen
        cases hseen
      · exact hx.elim h1 h2
    exact (if_neg (hfirst _ (.inl rfl))).trans (if_neg (hfirst _ (.inr rfl)))
  have hgo : ∀ w : CdVars, cdStep defaultUTF8 destlen .quotedString v c =
      ((some w).bind (·.put destlen c)).map (.quotedString, ·) →
        cdScan defaultUTF8 destlen .quotedString v (c :: rest) =
          goOn defaultUTF8 destlen .quotedString rest (w.put destlen c) := by
    intro w hw
    rw [Option.bind_some] at hw
    rcases hput : w.put destlen c with _ | w'
    · rw [cdScan_none (by rw [hw, hput]; rfl)]
      rfl
    · rw [cdScan_cons (by rw [hw, hput]; rfl)]
      rfl
  unfold Reads at hread
  cases defaultUTF8 with
  | true =>
    rw [if_pos rfl, endState] at hread
    by_cases hreject : next v.dfaState c = UTF8_REJECT
    · rw [if_pos hreject] at hread
      cases hread
    · rw [if_neg hreject] at hread
      obtain rfl := Option.some.inj hread
      exact ⟨_, hgo _ (hsplit _ (if_neg hreject))⟩
  | false =>
    rw [if_neg Bool.false_ne_true] at hread
    obtain ⟨rfl, hiso⟩ := hread
    exact ⟨v.dfaCode, hgo _ (hsplit _ (if_pos (hiso c (.head _))))⟩

theorem reads_cons {d d' : UInt32} (h : Reads defaultUTF8 d (c :: s) d') :
    ∃ m, Reads defaultUTF8 d [c] m ∧ Reads defaultUTF8 m s d' := by
  unfold Reads at h ⊢
  cases defaultUTF8 with
  | true =>
    rw [if_pos rfl, endState] at h
    split at h
    · cases h
    next hreject => exact ⟨next d c, by rw [if_pos rfl, endState, if_neg hreject]; rfl, h⟩
  | false =>
    obtain ⟨rfl, hiso⟩ := h
    obtain ⟨hc, hs⟩ := List.forall_mem_cons.mp hiso
    exact ⟨d', ⟨rfl, fun x hx => List.mem_singleton.mp hx ▸ hc⟩, rfl, hs⟩

variable (destlen rest) in
/-- A quoted string up to its closing quote. -/
theorem cdScan_quoted {q : List (Bool × UInt8)} {d : UInt32}
    (hq : ∀ c, (false, c) ∈ q → c ≠ backslash ∧ c ≠ quote) (hroom : v.Room destlen)
    (hseen : v.quotedSeen = false) (hread : Reads defaultUTF8 v.dfaState (q.map Prod.snd) d) :
    ∃ code, cdScan defaultUTF8 destlen .quotedString v (ParmValue.renderQuoted q ++ rest) =
      goOn defaultUTF8 destlen .quotedString rest
        (({ v with dfaState := d, dfaCode := code }).write destlen (q.map Prod.snd)) := by
  induction q generalizing v with
  | nil =>
    have hd : d = v.dfaState := by
      unfold Reads at hread
      split at hread
      · exact (Option.some.inj hread).symm
      · exact hread.1
    refine ⟨v.dfaCode, ?_⟩
    rw [hd, List.map_nil, write_nil hroom]
    rfl
  | cons x q ih =>
    obtain ⟨esc, c⟩ := x
    obtain ⟨m, hc, hread⟩ := reads_cons hread
    have htail : ∀ c, (false, c) ∈ q → c ≠ backslash ∧ c ≠ quote := fun c hc => hq c (.tail _ hc)
    -- an escape only sets the flag that the character behind it clears
    have hescape : ∃ code, cdScan defaultUTF8 destlen .quotedString v
        (ParmValue.renderQuoted ((esc, c) :: q) ++ rest) =
          goOn defaultUTF8 destlen .quotedString (ParmValue.renderQuoted q ++ rest)
            (({ v with quotedSeen := false, dfaState := m, dfaCode := code }).put destlen c) := by
      cases esc with
      | true =>
        have hstep : cdStep defaultUTF8 destlen .quotedString v backslash =
          some (.quotedString, { v with quotedSeen := true }) := if_pos ⟨rfl, hseen⟩
        obtain ⟨code, hscan⟩ := cdScan_quotedChar destlen (ParmValue.renderQuoted q ++ rest)
          (v := { v with quotedSeen := true }) (.inl rfl) hc
        exact ⟨code, (cdScan_cons hstep).trans hscan⟩
      | false => exact cdScan_quotedChar _ _ (.inr (hq c (.head _))) hc
    obtain ⟨code, hescape⟩ := hescape
    have hsame : ({ v with quotedSeen := false } : CdVars) = v := by rw [← hseen]
    rw [show ({ v with quotedSeen := false, dfaState := m, dfaCode := code } : CdVars) =
      { ({ v with quotedSeen := false } : CdVars) with dfaState := m, dfaCode := code } from rfl,
      hsame, put_dfa] at hescape
    rw [hescape]
    rcases hput : v.put destlen c with _ | w
    · refine ⟨0, ?_⟩
      rw [List.map_cons, write_cons (by exact hroom), put_dfa, hput]
      rfl
    · have hw : w.quotedSeen = false := by
        unfold CdVars.put at hput
        split_ifs at hput <;> obtain rfl := Option.some.inj hput <;> exact hseen
      obtain ⟨code', hscan⟩ := ih (v := { w with dfaState := m, dfaCode := code }) htail
        (show w.Room destlen from put_room hput hroom) (by exact hw) (by exact hread)
      refine ⟨code', hscan.trans ?_⟩
      rw [List.map_cons, write_cons (by exact hroom), put_dfa, hput]
      rfl

/-! ## Extended values -/

/-- The automaton goes from one state to another where the character set is UTF-8. -/
def ReadsExt (enc : CdEnc) (d : UInt32) (s : Bytes) (d' : UInt32) : Prop :=
  if enc = .utf8 then endState d s = some d' else d' = d

theorem readsExt_cons {enc : CdEnc} {d d' : UInt32} (h : ReadsExt enc d (c :: s) d') :
    ∃ m, ReadsExt enc d [c] m ∧ ReadsExt enc m s d' := by
  unfold ReadsExt at h ⊢
  by_cases henc : enc = .utf8
  · rw [if_pos henc, endState] at h
    split at h
    · cases h
    next hreject =>
      exact ⟨next d c, by rw [if_pos henc, endState, if_neg hreject]; rfl, by rwa [if_pos henc]⟩
  · rw [if_neg henc] at h
    exact ⟨d', by rwa [if_neg henc], by rw [if_neg henc]⟩

/-- The automaton reads a character of an extended value. -/
theorem utf8_eq {d : UInt32} (hread : ReadsExt v.charset v.dfaState [c] d) : ∃ code,
    (if v.charset = .utf8 then v.utf8 c else some v) =
      some { v with dfaState := d, dfaCode := code } := by
  unfold ReadsExt at hread
  by_cases henc : v.charset = .utf8
  · rw [if_pos henc, endState] at hread
    split at hread
    · cases hread
    next hreject =>
      obtain rfl := Option.some.inj hread
      exact ⟨_, (if_pos henc).trans (if_neg hreject)⟩
  · rw [if_neg henc] at hread
    obtain rfl := hread
    exact ⟨v.dfaCode, if_neg henc⟩

theorem put_pct (v : CdVars) (d code : UInt32) (pct c : UInt8) :
    ({ v with dfaState := d, dfaCode := code, pctval := pct }).put destlen c =
      (v.put destlen c).map fun w => { w with dfaState := d, dfaCode := code, pctval := pct } := by
  unfold CdVars.put
  dsimp only
  split_ifs <;> rfl

theorem cdScan_attr {d : UInt32} (hc : inRFC5987AttrChar c = true)
    (hread : ReadsExt v.charset v.dfaState [c] d) : ∃ code,
      cdScan defaultUTF8 destlen .valueChars v (c :: rest) =
        goOn defaultUTF8 destlen .valueChars rest
          (({ v with dfaState := d, dfaCode := code }).put destlen c) := by
  obtain ⟨code, hutf8⟩ := utf8_eq hread
  have hstep : cdStep defaultUTF8 destlen .valueChars v c =
      ((if v.charset = .utf8 then v.utf8 c else some v).bind (·.put destlen c)).map
        (.valueChars, ·) := if_pos hc
  rw [hutf8, Option.bind_some] at hstep
  refine ⟨code, ?_⟩
  rcases hput : ({ v with dfaState := d, dfaCode := code }).put destlen c with _ | w
  · rw [cdScan_none (by rw [hstep, hput]; rfl), hput]
    rfl
  · rw [cdScan_cons (by rw [hstep, hput]; rfl), hput]
    rfl

theorem cdScan_pct {h l : UInt8} {d : UInt32} (hx : (ExtChar.pct h l).WF v.charset)
    (hread : ReadsExt v.charset v.dfaState [(ExtChar.pct h l).byte] d) : ∃ code,
      cdScan defaultUTF8 destlen .valueChars v (percent :: h :: l :: rest) =
        goOn defaultUTF8 destlen .valueChars rest
          (({ v with dfaState := d, dfaCode := code, pctval := (ExtChar.pct h l).byte }).put destlen
            (ExtChar.pct h l).byte) := by
  obtain ⟨hh, hl, hiso⟩ := hx
  have hfirst : cdStep defaultUTF8 destlen .valueChars v percent =
      if v.inFileParm ∧ v.dest.length = destlen then none
      else some (.valueCharsPctEncoded1, { v with pctval := 0 }) := by
    refine (if_neg ?_).trans (if_pos rfl)
    decide +kernel
  by_cases hfull : v.inFileParm ∧ v.dest.length = destlen
  · refine ⟨0, ?_⟩
    rw [cdScan_none (hfirst.trans (if_pos hfull)), CdVars.put, if_pos (by exact hfull.1),
      if_pos (by exact hfull.2)]
    rfl
  · have hbyte : ((0 : UInt8) ||| (Util.hexCharToUInt h <<< 4)) ||| Util.hexCharToUInt l =
        (ExtChar.pct h l).byte := by
      rw [UInt8.zero_or]
      rfl
    have hsecond : cdStep defaultUTF8 destlen .valueCharsPctEncoded1 { v with pctval := 0 } h =
        some (.valueCharsPctEncoded2,
          { v with pctval := (0 : UInt8) ||| (Util.hexCharToUInt h <<< 4) }) := if_pos hh
    obtain ⟨code, hutf8⟩ := utf8_eq (v := { v with pctval := (ExtChar.pct h l).byte }) hread
    have hthird : cdStep defaultUTF8 destlen .valueCharsPctEncoded2
        { v with pctval := (0 : UInt8) ||| (Util.hexCharToUInt h <<< 4) } l =
          (some ({ v with dfaState := d, dfaCode := code, pctval := (ExtChar.pct h l).byte })).map
            fun w => (Cd.valueChars,
              if w.inFileParm then { w with dest := w.dest ++ [w.pctval] } else w) := by
      refine (if_pos hl).trans ?_
      dsimp only
      rw [hbyte, ← hutf8]
      congr 1
      by_cases henc : v.charset = .utf8
      · rw [if_pos henc, if_pos henc]
      · rw [if_neg henc, if_neg henc]
        by_cases hcharset : v.charset = .iso88591
        · rw [if_pos hcharset, if_pos (hiso hcharset)]
        · rw [if_neg hcharset]
    refine ⟨code, ?_⟩
    rw [cdScan_cons (hfirst.trans (if_neg hfull)), cdScan_cons hsecond, cdScan_cons hthird,
      CdVars.put]
    dsimp only
    by_cases hin : v.inFileParm = true
    · rw [if_pos hin, if_pos hin, if_neg fun hlen => hfull ⟨hin, hlen⟩]
      rfl
    · rw [if_neg hin, if_neg hin]
      rfl

variable (defaultUTF8 destlen rest) in
theorem cdScan_chars {chars : List ExtChar} {d : UInt32} (hwf : ∀ x ∈ chars, x.WF v.charset)
    (hroom : v.Room destlen) (hread : ReadsExt v.charset v.dfaState (chars.map ExtChar.byte) d) :
    ∃ code pct, cdScan defaultUTF8 destlen .valueChars v (ParmValue.renderExt chars ++ rest) =
      goOn defaultUTF8 destlen .valueChars rest
        (({ v with dfaState := d, dfaCode := code, pctval := pct }).write destlen
          (chars.map ExtChar.byte)) := by
  induction chars generalizing v with
  | nil =>
    have hd : d = v.dfaState := by
      unfold ReadsExt at hread
      split at hread
      · exact (Option.some.inj hread).symm
      · exact hread
    refine ⟨v.dfaCode, v.pctval, ?_⟩
    rw [hd, List.map_nil, write_nil hroom]
    rfl
  | cons x chars ih =>
    obtain ⟨hx, hwf⟩ := List.forall_mem_cons.mp hwf
    obtain ⟨m, hc, hread⟩ := readsExt_cons hread
    have hfirst : ∃ code pct, cdScan defaultUTF8 destlen .valueChars v
        (ParmValue.renderExt (x :: chars) ++ rest) =
          goOn defaultUTF8 destlen .valueChars (ParmValue.renderExt chars ++ rest)
            (({ v with dfaState := m, dfaCode := code, pctval := pct }).put destlen x.byte) := by
      cases x with
      | attr c =>
        obtain ⟨code, hscan⟩ := cdScan_attr (v := v) (c := c) hx hc
        exact ⟨code, v.pctval, hscan⟩
      | pct h l =>
        obtain ⟨code, hscan⟩ := cdScan_pct (v := v) hx hc
        exact ⟨code, _, hscan⟩
    obtain ⟨code, pct, hfirst⟩ := hfirst
    rw [hfirst, put_pct]
    rcases hput : v.put destlen x.byte with _ | w
    · refine ⟨0, 0, ?_⟩
      rw [List.map_cons, write_cons (by exact hroom), put_pct, hput]
      rfl
    · have hcharset : w.charset = v.charset := by
        unfold CdVars.put at hput
        split_ifs at hput <;> obtain rfl := Option.some.inj hput <;> rfl
      obtain ⟨code', pct', hscan⟩ := ih
        (v := { w with dfaState := m, dfaCode := code, pctval := pct })
        (show ∀ x ∈ chars, x.WF w.charset from hcharset ▸ hwf)
        (show w.Room destlen from put_room hput hroom)
        (show ReadsExt w.charset m _ d from hcharset ▸ hread)
      refine ⟨code', pct', hscan.trans ?_⟩
      rw [List.map_cons, write_cons (by exact hroom), put_pct, hput]
      rfl

variable (defaultUTF8 destlen rest) in
/-- The name of a character set, up to its apostrophe. -/
theorem cdScan_charset {a : Bytes}
    (ha : ∀ c ∈ a, inRFC2978MIMECharset c = true ∧ c ≠ apostrophe) : ∃ code d,
      (encOf (v.marked ++ a) = .utf8 → d = UTF8_ACCEPT) ∧
        cdScan defaultUTF8 destlen .charset v (a ++ apostrophe :: rest) =
          cdScan defaultUTF8 destlen .language { v with
            marked := v.marked ++ a
            name := v.marked ++ a
            charsetp := some (v.marked ++ a)
            charset := encOf (v.marked ++ a)
            dfaState := d
            dfaCode := code } rest := by
  induction a generalizing v with
  | nil =>
    rw [List.append_nil, List.nil_append, cdScan]
    by_cases hutf8 : strieq v.marked "utf-8".toUTF8.toList = true
    · refine ⟨0, UTF8_ACCEPT, fun _ => rfl, ?_⟩
      simp only [cdStep, if_true, hutf8, encOf]
    · refine ⟨v.dfaCode, v.dfaState, fun henc => ?_, ?_⟩
      · unfold encOf at henc
        rw [if_neg hutf8] at henc
        split at henc <;> exact nomatch henc
      · by_cases hiso : strieq v.marked "iso-8859-1".toUTF8.toList = true
        · simp only [cdStep, if_true, hutf8, hiso, encOf, if_false, Bool.false_eq_true]
        · simp only [cdStep, if_true, hutf8, hiso, encOf, if_false, Bool.false_eq_true]
  | cons c a ih =>
    obtain ⟨⟨hc, hne⟩, ha⟩ := List.forall_mem_cons.mp ha
    have hstep : cdStep defaultUTF8 destlen .charset v c =
        some (.charset, { v with marked := v.marked ++ [c] }) := (if_neg hne).trans (if_pos hc)
    obtain ⟨code, d, hd, hscan⟩ := ih (v := { v with marked := v.marked ++ [c] }) ha
    rw [List.append_assoc, List.singleton_append] at hd hscan
    exact ⟨code, d, hd, (cdScan_cons hstep).trans hscan⟩

theorem cdScan_language {a : Bytes} (ha : ∀ c ∈ a, isLanguage c = true) :
    cdScan defaultUTF8 destlen .language v (a ++ apostrophe :: rest) =
      cdScan defaultUTF8 destlen .valueChars (if v.inFileParm then { v with dest := [] } else v)
        rest := by
  have hstay : ∀ c ∈ a, cdStep defaultUTF8 destlen .language v c = some (.language, v) := by
    intro c hc
    have hne : c ≠ apostrophe := by
      rintro rfl
      exact absurd (ha _ hc) (by decide)
    exact (if_neg hne).trans (if_pos (ha c hc))
  have hstep : cdStep defaultUTF8 destlen .language v apostrophe =
    some (.valueChars, if v.inFileParm then { v with dest := [] } else v) := rfl
  rw [cdScan_stay hstay, cdScan_cons hstep]

end

end FluxCore.Http.Disposition
