import FluxCore.Http.DispositionParm

/-!
# One parameter after another

What the parser returns for a header that is put together from a type and parameters is the sum of
the effects of the parameters.
-/

namespace FluxCore.Http.Disposition

open Utp (Bytes)
open Util (isLws UTF8_ACCEPT endState utf8dfaAccepts utf8dfaAccepts_iff)

variable {defaultUTF8 : Bool} {destlen : Nat} {st : Cd} {v w : CdVars} {c : UInt8} {a : Found}
  {rest : Bytes}

/-! ## The end of a value -/

/-- The variables that outlive a parameter. -/
structure Holds (v : CdVars) (a : Found) : Prop where
  dest : v.dest = a.dest
  filename : v.filenameFound = a.filename
  extFilename : v.extFilenameFound = a.extFilename
  charsetp : v.charsetp = a.charsetp

theorem holds_iff : Holds v a ↔ v.dest = a.dest ∧ v.filenameFound = a.filename ∧
    v.extFilenameFound = a.extFilename ∧ v.charsetp = a.charsetp :=
  ⟨fun h => ⟨h.dest, h.filename, h.extFilename, h.charsetp⟩, fun h => ⟨h.1, h.2.1, h.2.2.1, h.2.2.2⟩⟩

/-- A state in which blanks change nothing. -/
def Idle (st : Cd) : Prop := st = .afterValue ∨ st = .afterDispositionType

/-- The string may end here, or go on with blanks or with a semicolon. -/
structure Settled (defaultUTF8 : Bool) (destlen : Nat) (a : Found) (st : Cd) (v : CdVars) : Prop where
  finish : cdFinish st v = some (a.dest, a.charsetp)
  semicolon : ∃ v', cdStep defaultUTF8 destlen st v semicolon = some (.beforeDispositionParmName, v') ∧
    Holds v' a
  blank : ∀ c, isLws c = true → ∃ st' v', cdStep defaultUTF8 destlen st v c = some (st', v') ∧
    Idle st' ∧ Holds v' a

theorem settled_idle (hst : Idle st) (h : Holds v a) : Settled defaultUTF8 destlen a st v := by
  have hfinish : cdFinish st v = some (v.dest, v.charsetp) := by
    obtain rfl | rfl := hst <;> rfl
  refine ⟨by rw [hfinish, h.dest, h.charsetp], ⟨v, ?_, h⟩, fun c hc => ⟨st, v, ?_, hst, h⟩⟩
  · obtain rfl | rfl := hst <;> rfl
  · obtain ⟨-, -, -, hsemicolon, -⟩ := of_isLws hc
    obtain rfl | rfl := hst <;> exact (if_neg hsemicolon).trans (if_pos hc)

theorem settled_trail (h : Settled defaultUTF8 destlen a st v) {t : Bytes} (ht : Blanks t) :
    ∃ st' v', Settled defaultUTF8 destlen a st' v' ∧ ∀ rest,
      cdScan defaultUTF8 destlen st v (t ++ rest) = cdScan defaultUTF8 destlen st' v' rest := by
  induction t generalizing st v with
  | nil => exact ⟨st, v, h, fun _ => rfl⟩
  | cons c t ih =>
    obtain ⟨hc, ht⟩ := List.forall_mem_cons.mp ht
    obtain ⟨st', v', hstep, hidle, hholds⟩ := h.blank c hc
    obtain ⟨st'', v'', hsettled, hscan⟩ := ih (settled_idle hidle hholds) ht
    exact ⟨st'', v'', hsettled, fun rest => (cdScan_cons hstep).trans (hscan rest)⟩

/-! ## Values -/

/-- What a value leaves, where it is that of a file name or not. -/
def ParmValue.leaves (x : ParmValue) (a : Found) (file : Bool) : Found where
  dest := if file then x.bytes else a.dest
  filename := a.filename || (file && x.charset?.isNone)
  extFilename := a.extFilename || (file && x.charset?.isSome)
  charsetp := x.charset?.or a.charsetp

/-- The variables in front of a value. -/
structure Starts (v : CdVars) (a : Found) (file : Bool) : Prop where
  inFileParm : v.inFileParm = file
  dest : v.dest = if file then [] else a.dest
  filename : v.filenameFound = a.filename
  extFilename : v.extFilenameFound = a.extFilename
  charsetp : v.charsetp = a.charsetp

variable {file : Bool} {x : ParmValue}

theorem Starts.room (h : Starts v a file) : v.Room destlen := by
  intro hin
  rw [h.inFileParm] at hin
  rw [h.dest, if_pos hin]
  exact Nat.zero_le _

/-- The buffer of a file name is empty. -/
theorem Starts.reset (h : Starts v a file) :
    (if v.inFileParm then { v with dest := [] } else v) = v := by
  obtain ⟨hin, hdest, -, -, -⟩ := h
  split
  next htrue =>
    rw [← hin, if_pos htrue] at hdest
    rw [← hdest]
  · rfl

/-- What is written behind the start of a value. -/
theorem Starts.write_eq (h : Starts v a file) (s : Bytes) : v.write destlen s =
    if file = true ∧ destlen < s.length then none
    else some { v with dest := if file then s else a.dest } := by
  obtain ⟨hin, hdest, -, -, -⟩ := h
  unfold CdVars.write
  cases file with
  | true =>
    rw [if_pos rfl] at hdest
    rw [if_pos hin, hdest, List.length_nil, Nat.zero_add, List.nil_append]
    simp only [true_and, if_true]
  | false =>
    rw [if_neg Bool.false_ne_true] at hdest
    rw [if_neg (by rw [hin]; decide)]
    simp only [Bool.false_eq_true, false_and, if_false]
    rw [← hdest]

/-- Blanks in front of a value. -/
theorem cdScan_lead {t : Bytes} (ht : Blanks t) (hst : st = .beforeValue ∨ st = .beforeExtValue) :
    cdScan defaultUTF8 destlen st v (t ++ rest) = cdScan defaultUTF8 destlen st v rest := by
  refine cdScan_stay fun c hc => ?_
  obtain ⟨htoken, hmime, -, -, -, hquote, hapostrophe, -⟩ := of_isLws (ht c hc)
  obtain rfl | rfl := hst
  · exact (if_neg hquote).trans ((if_neg (by rw [htoken]; decide)).trans (if_pos (ht c hc)))
  · exact (if_neg hapostrophe).trans ((if_neg (by rw [hmime]; decide)).trans (if_pos (ht c hc)))

/-- The state in front of a value. -/
def ParmValue.state (x : ParmValue) : Cd :=
  if x.charset?.isSome then .beforeExtValue else .beforeValue

/-- A value is too long, or its end leaves what the value stands for. -/
def Taken (defaultUTF8 : Bool) (destlen : Nat) (x : ParmValue) (a : Found) (file : Bool)
    (v : CdVars) (rest : Bytes) : Prop :=
  if file = true ∧ destlen < x.bytes.length then
    cdScan defaultUTF8 destlen x.state v (x.render ++ rest) = none
  else ∃ st w, Settled defaultUTF8 destlen (x.leaves a file) st w ∧
    cdScan defaultUTF8 destlen x.state v (x.render ++ rest) = cdScan defaultUTF8 destlen st w rest

/-- The end of a token tells that it was a file name. -/
theorem settled_token (h : Holds (if v.inFileParm then { v with filenameFound := true } else v) a) :
    Settled defaultUTF8 destlen a .token v := by
  have hsame : (if v.inFileParm then { v with filenameFound := true } else v).dest = v.dest ∧
      (if v.inFileParm then { v with filenameFound := true } else v).charsetp = v.charsetp := by
    split <;> exact ⟨rfl, rfl⟩
  refine ⟨?_, ⟨_, ?_, h⟩, fun c hc => ⟨.afterValue, _, ?_, .inl rfl, h⟩⟩
  · rw [← h.dest, ← h.charsetp, hsame.1, hsame.2]
    rfl
  · refine (if_neg ?_).trans (if_pos rfl)
    decide +kernel
  · obtain ⟨htoken, -, -, hsemicolon, -⟩ := of_isLws hc
    exact (if_neg (by rw [htoken]; decide)).trans ((if_neg hsemicolon).trans (if_pos hc))

theorem taken_token {t : Bytes} (hwf : (ParmValue.token t).WF defaultUTF8) (h : Starts v a file) :
    Taken defaultUTF8 destlen (.token t) a file v rest := by
  obtain ⟨hne, ht⟩ := hwf
  have hscan : cdScan defaultUTF8 destlen .beforeValue v (t ++ rest) =
      cdScan defaultUTF8 destlen .token v (t ++ rest) := by
    obtain ⟨c, t, rfl⟩ := List.exists_cons_of_ne_nil hne
    obtain ⟨hc, -⟩ := List.forall_mem_cons.mp ht
    obtain ⟨-, -, hquote, -⟩ := of_token hc
    have hstep : cdStep defaultUTF8 destlen .beforeValue v c = cdStep defaultUTF8 destlen .token v c :=
      ((if_neg hquote).trans (if_pos hc)).trans (if_pos hc).symm
    rw [List.cons_append, cdScan, cdScan, hstep]
  have hgo : cdScan defaultUTF8 destlen .token v (t ++ rest) = _ :=
    cdScan_token destlen rest ht h.room
  rw [h.write_eq] at hgo
  unfold Taken
  change if file = true ∧ destlen < t.length then
    cdScan defaultUTF8 destlen .beforeValue v (t ++ rest) = none else _
  split
  next hlong =>
    rw [hscan, hgo, if_pos hlong]
    rfl
  next hshort =>
    rw [if_neg hshort] at hgo
    refine ⟨.token, _, ?_, hscan.trans hgo⟩
    refine settled_token ?_
    obtain ⟨hin, -, hfile, hext, hcharset⟩ := h
    dsimp only
    rw [hin]
    cases file <;>
      simp [ParmValue.leaves, ParmValue.charset?, ParmValue.bytes, holds_iff, hfile, hext, hcharset]

/-- The quote that ends a quoted string. -/
theorem cdStep_close (hseen : v.quotedSeen = false)
    (haccept : defaultUTF8 = true → v.dfaState = UTF8_ACCEPT) :
    cdStep defaultUTF8 destlen .quotedString v quote =
      some (.afterValue, if v.inFileParm then { v with filenameFound := true } else v) := by
  have hback : quote ≠ backslash := by decide
  unfold cdStep
  dsimp only
  rw [if_neg fun h => hback h.1, if_pos ⟨rfl, hseen⟩, if_neg fun h => h.2 (haccept h.1)]

theorem taken_quoted {q : List (Bool × UInt8)} (hwf : (ParmValue.quoted q).WF defaultUTF8)
    (h : Starts v a file) : Taken defaultUTF8 destlen (.quoted q) a file v rest := by
  obtain ⟨htext, hq⟩ := hwf
  have hopen : ∃ v', cdStep defaultUTF8 destlen .beforeValue v quote = some (.quotedString, v') ∧
      Starts v' a file ∧ v'.quotedSeen = false ∧ ∃ d, Reads defaultUTF8 v'.dfaState (q.map Prod.snd) d ∧
        (defaultUTF8 = true → d = UTF8_ACCEPT) := by
    obtain ⟨hin, hdest, hfile, hext, hcharset⟩ := h
    cases defaultUTF8 with
    | true =>
      exact ⟨_, rfl, ⟨hin, hdest, hfile, hext, hcharset⟩, rfl, UTF8_ACCEPT,
        utf8dfaAccepts_iff.mp htext, fun _ => rfl⟩
    | false =>
      exact ⟨_, rfl, ⟨hin, hdest, hfile, hext, hcharset⟩, rfl, v.dfaState, ⟨rfl, htext⟩,
        fun hfalse => nomatch hfalse⟩
  obtain ⟨v', hopen, hstarts, hseen, d, hreads, haccept⟩ := hopen
  obtain ⟨code, hgo⟩ := cdScan_quoted destlen (quote :: rest) hq hstarts.room hseen hreads
  obtain ⟨hin, hdest, hfile, hext, hcharset⟩ := hstarts
  have hstarts : Starts { v' with dfaState := d, dfaCode := code } a file :=
    ⟨hin, hdest, hfile, hext, hcharset⟩
  rw [hstarts.write_eq] at hgo
  have hscan : cdScan defaultUTF8 destlen .beforeValue v
      ((ParmValue.quoted q).render ++ rest) =
        cdScan defaultUTF8 destlen .quotedString v'
          (ParmValue.renderQuoted q ++ quote :: rest) := by
    rw [ParmValue.render, List.cons_append, cdScan_cons hopen, List.append_assoc,
      List.singleton_append]
  unfold Taken
  change if file = true ∧ destlen < (q.map Prod.snd).length then
    cdScan defaultUTF8 destlen .beforeValue v _ = none else _
  split
  next hlong =>
    rw [hscan, hgo, if_pos hlong]
    rfl
  next hshort =>
    rw [if_neg hshort] at hgo
    have hclose : ∀ w : CdVars, w.quotedSeen = false → w.dfaState = d →
        cdStep defaultUTF8 destlen .quotedString w quote =
          some (.afterValue, if w.inFileParm then { w with filenameFound := true } else w) :=
      fun w hseen hd => cdStep_close hseen fun hutf8 => hd.trans (haccept hutf8)
    refine ⟨.afterValue, _, ?_, hscan.trans (hgo.trans (cdScan_cons (hclose _ hseen rfl)))⟩
    refine settled_idle (.inl rfl) ?_
    dsimp only
    rw [hin]
    cases file <;>
      simp [ParmValue.leaves, ParmValue.charset?, ParmValue.bytes, holds_iff, hfile, hext, hcharset]

/-- The end of an extended value tells that it was a file name. -/
theorem settled_ext (haccept : v.charset = .utf8 → v.dfaState = UTF8_ACCEPT)
    (h : Holds (if v.inFileParm then { v with extFilenameFound := true } else v) a) :
    Settled defaultUTF8 destlen a .valueChars v := by
  have hopen : ¬(v.charset = .utf8 ∧ v.dfaState ≠ UTF8_ACCEPT) := fun hne => hne.2 (haccept hne.1)
  have hsame : (if v.inFileParm then { v with extFilenameFound := true } else v).dest = v.dest ∧
      (if v.inFileParm then { v with extFilenameFound := true } else v).charsetp = v.charsetp := by
    split <;> exact ⟨rfl, rfl⟩
  have hstep : ∀ c, c = semicolon ∨ isLws c = true → cdStep defaultUTF8 destlen .valueChars v c =
      some (if c = semicolon then .beforeDispositionParmName else .afterValue,
        if v.inFileParm then { v with extFilenameFound := true } else v) := by
    intro c hc
    have hother : inRFC5987AttrChar c = false ∧ c ≠ percent := by
      obtain rfl | hlws := hc
      · decide +kernel
      · obtain ⟨-, -, hattr, -, -, -, -, hpercent⟩ := of_isLws hlws
        exact ⟨hattr, hpercent⟩
    unfold cdStep
    dsimp only
    rw [if_neg (by rw [hother.1]; decide), if_neg hother.2, if_pos hc, if_neg hopen]
  refine ⟨?_, ⟨_, hstep semicolon (.inl rfl), h⟩, fun c hc => ⟨.afterValue, _, ?_, .inl rfl, h⟩⟩
  · rw [← h.dest, ← h.charsetp, hsame.1, hsame.2]
    exact if_neg hopen
  · rw [hstep c (.inr hc), if_neg (of_isLws hc).2.2.2.1]

theorem taken_ext {charset language : Bytes} {chars : List ExtChar}
    (hwf : (ParmValue.ext charset language chars).WF defaultUTF8) (h : Starts v a file) :
    Taken defaultUTF8 destlen (.ext charset language chars) a file v rest := by
  obtain ⟨⟨hne, hcharset⟩, hlanguage, hchars, hutf8⟩ := hwf
  obtain ⟨c, t, rfl⟩ := List.exists_cons_of_ne_nil hne
  obtain ⟨⟨hc, hca⟩, ht⟩ := List.forall_mem_cons.mp hcharset
  have hfirst : cdStep defaultUTF8 destlen .beforeExtValue v c =
    some (.charset, { v with marked := [c] }) := (if_neg hca).trans (if_pos hc)
  obtain ⟨code, d, hd, hscan⟩ := cdScan_charset defaultUTF8 destlen
    (language ++ apostrophe :: (ParmValue.renderExt chars ++ rest)) (v := { v with marked := [c] }) ht
  dsimp only at hd hscan
  rw [List.singleton_append] at hd hscan
  rw [cdScan_language hlanguage] at hscan
  have hread : ∃ d', ReadsExt (encOf (c :: t)) d (chars.map ExtChar.byte) d' ∧
      (encOf (c :: t) = .utf8 → d' = UTF8_ACCEPT) := by
    by_cases henc : encOf (c :: t) = .utf8
    · refine ⟨UTF8_ACCEPT, ?_, fun _ => rfl⟩
      rw [ReadsExt, if_pos henc, hd henc]
      exact utf8dfaAccepts_iff.mp (hutf8 henc)
    · exact ⟨d, by rw [ReadsExt, if_neg henc], fun h => absurd h henc⟩
  obtain ⟨d', hread, haccept⟩ := hread
  -- the buffer is set back in front of the characters, where it is empty already
  obtain ⟨hin, hdest, hfile, hext, -⟩ := h
  have hstarts (code d pct) : Starts { v with
      marked := c :: t, name := c :: t, charsetp := some (c :: t), charset := encOf (c :: t),
      dfaState := d, dfaCode := code, pctval := pct } { a with charsetp := some (c :: t) } file :=
    ⟨hin, hdest, hfile, hext, rfl⟩
  rw [(hstarts code d v.pctval).reset] at hscan
  obtain ⟨code', pct, hgo⟩ := cdScan_chars defaultUTF8 destlen rest hchars
    (hstarts code d v.pctval).room hread
  rw [(hstarts code' d' pct).write_eq] at hgo
  have hrender : (ParmValue.ext (c :: t) language chars).render ++ rest =
      c :: (t ++ apostrophe :: (language ++ apostrophe :: (ParmValue.renderExt chars ++ rest))) := by
    simp [ParmValue.render]
  rw [hgo, ← cdScan_cons hfirst, ← hrender] at hscan
  unfold Taken
  change if file = true ∧ destlen < (chars.map ExtChar.byte).length then
    cdScan defaultUTF8 destlen .beforeExtValue v _ = none else _
  split
  next hlong =>
    rw [hscan, if_pos hlong]
    rfl
  next hshort =>
    rw [if_neg hshort] at hscan
    refine ⟨.valueChars, _, ?_, hscan⟩
    refine settled_ext haccept ?_
    dsimp only
    rw [hin]
    cases file <;>
      simp [ParmValue.leaves, ParmValue.charset?, ParmValue.bytes, holds_iff, hfile, hext]

/-- Every value is taken. -/
theorem taken (hwf : x.WF defaultUTF8) (h : Starts v a file) :
    Taken defaultUTF8 destlen x a file v rest := by
  cases x with
  | token t => exact taken_token hwf h
  | quoted q => exact taken_quoted hwf h
  | ext charset language chars => exact taken_ext hwf h

/-! ## Names -/

theorem lowcase_eq_star : lowcase c = star ↔ c = star := by
  unfold lowcase
  split
  next h =>
    have h1 : 0x41 ≤ c.toNat := UInt8.le_iff_toNat_le.mp h.1
    have h2 : c.toNat ≤ 0x5a := UInt8.le_iff_toNat_le.mp h.2
    constructor
    · intro heq
      have : (c + 0x20).toNat = 0x2a := congrArg UInt8.toNat heq
      rw [UInt8.toNat_add] at this
      simp at this
      omega
    · rintro rfl
      exact absurd h1 (by decide)
  · rfl

/-- Whether a name is one of an extended value does not depend on the case of its letters. -/
theorem DispositionParm.isExtName_congr {s t : Bytes} (h : strieq s t = true) : isExtName s ↔
    isExtName t := by
  have hmap : s.map lowcase = t.map lowcase := of_decide_eq_true h
  have hlen : s.length = t.length := by
    rw [← List.length_map (f := lowcase), hmap, List.length_map]
  have hlast : s.getLast? = some star ↔ t.getLast? = some star := by
    have heq : s.getLast?.map lowcase = t.getLast?.map lowcase := by
      rw [← List.getLast?_map, ← List.getLast?_map, hmap]
    constructor
    · intro hs
      rw [hs, Option.map_some, eq_comm, Option.map_eq_some_iff] at heq
      obtain ⟨c, hc, hstar⟩ := heq
      rw [hc, lowcase_eq_star.mp hstar]
    · intro ht
      rw [ht, Option.map_some, Option.map_eq_some_iff] at heq
      obtain ⟨c, hc, hstar⟩ := heq
      rw [hc, lowcase_eq_star.mp hstar]
  unfold isExtName
  rw [hlen, hlast]

namespace DispositionParm

variable {x : DispositionParm}

/-- The parser does not accept a second file name of the same kind. -/
def refused (x : DispositionParm) (a : Found) : Bool :=
  match x.kind with
  | .extFilename => a.extFilename
  | .filename => a.filename
  | .other => false

/-- The value is written into the buffer. -/
def writes (x : DispositionParm) (a : Found) : Bool :=
  match x.kind with
  | .extFilename => true
  | .filename => !a.extFilename
  | .other => false

theorem WF.charset? (h : x.WF defaultUTF8) : match x.kind with
    | .extFilename => x.value.charset?.isSome = true
    | .filename => x.value.charset? = none
    | .other => True := by
  unfold kind
  split
  next hkind =>
    split at hkind
    next hname => exact h.value_form.mpr ((isExtName_congr hname).mpr (by decide +kernel))
    next => split at hkind <;> exact nomatch hkind
  next hkind =>
    split at hkind
    next => exact nomatch hkind
    next =>
      split at hkind
      next hname =>
        refine Option.not_isSome_iff_eq_none.mp fun hsome => ?_
        exact absurd ((isExtName_congr hname).mp (h.value_form.mp hsome)) (by decide +kernel)
      next => exact nomatch hkind
  next => trivial

theorem effect_eq (h : x.WF defaultUTF8) : x.effect destlen a =
    if x.refused a then none
    else if x.writes a = true ∧ destlen < x.value.bytes.length then none
    else some (x.value.leaves a (x.writes a)) := by
  have hcharset := h.charset?
  unfold effect refused writes
  obtain ⟨dest, filename, extFilename, charsetp⟩ := a
  rcases hkind : x.kind with _ | _ | _ <;> rw [hkind] at hcharset <;> dsimp only at hcharset ⊢
  · cases filename <;> cases extFilename <;> simp [ParmValue.leaves, hcharset]
  · obtain ⟨charset, heq⟩ := Option.isSome_iff_exists.mp hcharset
    cases extFilename <;> simp [ParmValue.leaves, heq]
  · simp [ParmValue.leaves]

theorem cdParm_spec (hx : x.WF defaultUTF8) (h : Holds v a) :
    if x.refused a then cdParm v x.marked = none
    else ∃ w, cdParm v x.marked = some (x.value.state, w) ∧ Starts w a (x.writes a) := by
  obtain ⟨hdest, hfile, hext, hcharsetp⟩ := h
  have hcharset := hx.charset?
  have hform := hx.value_form
  unfold refused writes cdParm
  unfold kind at hcharset ⊢
  dsimp only
  rw [hfile, hext]
  by_cases hextName : strieq x.marked "filename*".toUTF8.toList = true
  · rw [if_pos hextName] at hcharset ⊢
    rw [if_pos hextName]
    dsimp only at hcharset ⊢
    split
    · rfl
    · rw [ParmValue.state, if_pos hcharset]
      exact ⟨_, rfl, rfl, rfl, rfl, rfl, hcharsetp⟩
  · rw [if_neg hextName] at hcharset ⊢
    rw [if_neg hextName]
    by_cases hname : strieq x.marked "filename".toUTF8.toList = true
    · rw [if_pos hname] at hcharset ⊢
      rw [if_pos hname]
      dsimp only at hcharset ⊢
      split
      · rfl
      · rw [ParmValue.state, hcharset]
        cases hfound : a.extFilename with
        | true => exact ⟨_, rfl, rfl, hdest, rfl, hfound.symm, hcharsetp⟩
        | false => exact ⟨_, rfl, rfl, rfl, rfl, hfound.symm, hcharsetp⟩
    · rw [if_neg hname, if_neg hname]
      dsimp only
      rw [if_neg Bool.false_ne_true]
      by_cases hstar : x.marked.length ≠ 1 ∧ x.marked.getLast? = some star
      · rw [if_pos hstar, ParmValue.state, if_pos (hform.mpr hstar)]
        exact ⟨_, rfl, rfl, hdest, rfl, rfl, hcharsetp⟩
      · rw [if_neg hstar, ParmValue.state, if_neg fun hsome => hstar (hform.mp hsome)]
        exact ⟨_, rfl, rfl, hdest, rfl, rfl, hcharsetp⟩

variable (destlen) in
/-- What the parser does with a parameter is the effect of the parameter. -/
theorem cdScan_render (hx : x.WF defaultUTF8) (h : Holds v a) (rest : Bytes) :
    match x.effect destlen a with
    | none => cdScan defaultUTF8 destlen .beforeDispositionParmName v (x.render ++ rest) = none
    | some a' => ∃ st w, Settled defaultUTF8 destlen a' st w ∧
        cdScan defaultUTF8 destlen .beforeDispositionParmName v (x.render ++ rest) =
          cdScan defaultUTF8 destlen st w rest := by
  have hrender : x.render ++ rest = x.before ++ (x.name ++ (x.gap ++ equals ::
      (x.lead ++ (x.value.render ++ (x.trail ++ rest))))) := by
    simp [render]
  obtain ⟨text, hscan⟩ := cdScan_parm destlen v (x.lead ++ (x.value.render ++ (x.trail ++ rest))) hx
  have hspec := cdParm_spec hx (v := { v with marked := text, name := x.marked })
    ⟨h.dest, h.filename, h.extFilename, h.charsetp⟩
  rw [hrender, hscan, effect_eq hx]
  by_cases hrefused : x.refused a = true
  · rw [if_pos hrefused] at hspec ⊢
    rw [hspec]
  · rw [if_neg hrefused] at hspec ⊢
    obtain ⟨w, hparm, hstarts⟩ := hspec
    have htaken : Taken defaultUTF8 destlen x.value a (x.writes a) w (x.trail ++ rest) :=
      taken hx.value hstarts
    have hstate : x.value.state = .beforeValue ∨ x.value.state = .beforeExtValue := by
      unfold ParmValue.state
      split
      · exact .inr rfl
      · exact .inl rfl
    rw [hparm]
    dsimp only
    rw [cdScan_lead hx.lead hstate]
    unfold Taken at htaken
    split at htaken
    next hlong => rw [if_pos hlong]; exact htaken
    next hshort =>
      rw [if_neg hshort]
      obtain ⟨st, w, hsettled, htaken⟩ := htaken
      obtain ⟨st', w', hsettled, htrail⟩ := settled_trail hsettled hx.trail
      exact ⟨st', w', hsettled, htaken.trans (htrail rest)⟩

end DispositionParm

/-! ## Headers -/

/-- A type and parameters, with the blanks around the type. -/
structure Header where
  before : Bytes
  type : Bytes
  after : Bytes
  parms : List DispositionParm

/-- Every parameter follows a semicolon. -/
def renderParms (parms : List DispositionParm) : Bytes :=
  parms.flatMap fun x => semicolon :: x.render

/-- The effects of parameters, one after another. -/
def effects (destlen : Nat) : Found → List DispositionParm → Option Found
  | a, [] => some a
  | a, x :: parms => (x.effect destlen a).bind (effects destlen · parms)

namespace Header

structure WF (defaultUTF8 : Bool) (d : Header) : Prop where
  before : Blanks d.before
  type_ne : d.type ≠ []
  type_chars : ∀ c ∈ d.type, inRFC2616HttpToken c = true
  after : Blanks d.after
  parms : ∀ x ∈ d.parms, x.WF defaultUTF8

def render (d : Header) : Bytes :=
  d.before ++ (d.type ++ (d.after ++ renderParms d.parms))

end Header

variable (destlen) in
/-- What the parser does with parameters is their effect. -/
theorem cdScan_renderParms {parms : List DispositionParm} (hparms : ∀ x ∈ parms, x.WF defaultUTF8)
    (h : Settled defaultUTF8 destlen a st v) (rest : Bytes) :
    match effects destlen a parms with
    | none => cdScan defaultUTF8 destlen st v (renderParms parms ++ rest) = none
    | some a' => ∃ st' w, Settled defaultUTF8 destlen a' st' w ∧
        cdScan defaultUTF8 destlen st v (renderParms parms ++ rest) =
          cdScan defaultUTF8 destlen st' w rest := by
  induction parms generalizing st v a with
  | nil => exact ⟨st, v, h, rfl⟩
  | cons x parms ih =>
    obtain ⟨hx, hparms⟩ := List.forall_mem_cons.mp hparms
    obtain ⟨v', hstep, hholds⟩ := h.semicolon
    have hrender : renderParms (x :: parms) ++ rest =
        semicolon :: (x.render ++ (renderParms parms ++ rest)) := by
      simp [renderParms]
    have heffect := DispositionParm.cdScan_render destlen hx hholds (renderParms parms ++ rest)
    rw [hrender, cdScan_cons hstep, effects]
    rcases hx' : x.effect destlen a with _ | a'
    · rw [hx'] at heffect
      exact heffect
    · rw [hx'] at heffect
      obtain ⟨st', w, hsettled, hscan⟩ := heffect
      rw [hscan, Option.bind_some]
      exact ih hparms hsettled

theorem settled_type (h : Holds v a) : Settled defaultUTF8 destlen a .dispositionType v := by
  refine ⟨by rw [← h.dest, ← h.charsetp]; rfl, ⟨v, rfl, h⟩, fun c hc => ⟨.afterDispositionType, v,
    ?_, .inr rfl, h⟩⟩
  exact (if_neg (of_isLws hc).2.2.2.1).trans (if_pos hc)

variable (defaultUTF8 destlen) in
/-- A type, with the blanks around it. -/
theorem cdScan_type {before type after : Bytes} (hbefore : Blanks before) (hne : type ≠ [])
    (htype : ∀ c ∈ type, inRFC2616HttpToken c = true) (hafter : Blanks after) :
    ∃ st v, Settled defaultUTF8 destlen {} st v ∧ ∀ rest,
      parseContentDisposition defaultUTF8 destlen (before ++ (type ++ (after ++ rest))) =
        cdScan defaultUTF8 destlen st v rest := by
  obtain ⟨c, t, rfl⟩ := List.exists_cons_of_ne_nil hne
  obtain ⟨hc, ht⟩ := List.forall_mem_cons.mp htype
  have hlead : ∀ c ∈ before, cdStep defaultUTF8 destlen .beforeDispositionType {} c =
      some (.beforeDispositionType, {}) := fun c hc =>
    (if_neg (by rw [(of_isLws (hbefore c hc)).1]; decide)).trans (if_pos (hbefore c hc))
  have hfirst : cdStep defaultUTF8 destlen .beforeDispositionType {} c =
    some (.dispositionType, {}) := if_pos hc
  have hstay : ∀ c ∈ t, cdStep defaultUTF8 destlen .dispositionType {} c =
      some (.dispositionType, {}) := by
    intro c hc
    obtain ⟨hsemicolon, -, -, hlws⟩ := of_token (ht c hc)
    exact (if_neg hsemicolon).trans ((if_neg (by rw [hlws]; decide)).trans
      (if_neg (by rw [ht c hc]; simp)))
  have hsettled : Settled defaultUTF8 destlen {} .dispositionType {} :=
    settled_type ⟨rfl, rfl, rfl, rfl⟩
  obtain ⟨st, v, hsettled, hscan⟩ := settled_trail hsettled hafter
  refine ⟨st, v, hsettled, fun rest => ?_⟩
  rw [parseContentDisposition, cdScan_stay hlead, List.cons_append, cdScan_cons hfirst,
    cdScan_stay hstay, hscan]

/-- What is returned for a header is what its parameters leave. -/
theorem parse_render {d : Header} (h : d.WF defaultUTF8) :
    parseContentDisposition defaultUTF8 destlen d.render =
      (effects destlen {} d.parms).map fun a => (a.dest, a.charsetp) := by
  obtain ⟨st, v, hsettled, hscan⟩ :=
    cdScan_type defaultUTF8 destlen h.before h.type_ne h.type_chars h.after
  have hparms := cdScan_renderParms destlen h.parms hsettled []
  rw [Header.render, hscan, ← List.append_nil (renderParms d.parms)]
  split at hparms
  next hnone => rw [hparms, hnone, Option.map_none]
  next a hsome =>
    obtain ⟨st', w, hsettled, hgo⟩ := hparms
    rw [hgo, hsome, Option.map_some]
    exact hsettled.finish

theorem effects_append (a : Found) (xs ys : List DispositionParm) :
    effects destlen a (xs ++ ys) = (effects destlen a xs).bind (effects destlen · ys) := by
  induction xs generalizing a with
  | nil => rfl
  | cons x xs ih =>
    rw [List.cons_append, effects, effects, Option.bind_assoc]
    exact congrArg _ (funext ih)

end FluxCore.Http.Disposition
