import FluxCore.Http.DispositionName

/-!
# Parameters other than the file name

An extra parameter does not matter, unless the parser converts the file name by the character set of
the extra parameter, or takes an extended value for a token because of the blanks behind the name.
-/

namespace FluxCore.Http.Disposition

open Utp (Bytes)
open Torrent (slash dot dotDot)
open Uri (exists_span)
open Util (isLws)

variable {defaultUTF8 : Bool} {destlen : Nat} {st : Cd} {v : CdVars} {c : UInt8} {s rest : Bytes}

/-! ## Names of parameters -/

namespace DispositionParm

variable {x : DispositionParm}

/-- Names are compared without the case of their letters. -/
def Named (x : DispositionParm) (name : String) : Prop := strieq x.name name.toUTF8.toList = true

instance (x : DispositionParm) (name : String) : Decidable (x.Named name) :=
  inferInstanceAs (Decidable (_ = _))

/-- A parameter is well-formed. Its value is extended where a star ends its name. -/
structure Formed (defaultUTF8 : Bool) (x : DispositionParm) : Prop where
  before : Blanks x.before
  name_ne : x.name ≠ []
  name_chars : ∀ c ∈ x.name, inRFC2616HttpToken c = true
  gap : Blanks x.gap
  lead : Blanks x.lead
  value : x.value.WF defaultUTF8
  value_form : x.value.charset?.isSome = true ↔ isExtName x.name
  trail : Blanks x.trail

/-- One blank behind a name is not part of the name that is compared. -/
theorem marked_of_le (h : x.gap.length ≤ 1) : x.marked = x.name := by
  have hnil : x.gap.dropLast = [] := by
    apply List.eq_nil_of_length_eq_zero
    rw [List.length_dropLast]
    omega
  rw [marked, hnil, List.append_nil]

/-- Of more blanks, all but the last are part of it. -/
theorem marked_of_lt (h : 1 < x.gap.length) : ∃ c, c ∈ x.gap ∧ x.marked.getLast? = some c := by
  have hne : x.gap.dropLast ≠ [] := by
    intro hnil
    have := congrArg List.length hnil
    rw [List.length_dropLast, List.length_nil] at this
    omega
  refine ⟨x.gap.dropLast.getLast hne, List.dropLast_subset _ (List.getLast_mem hne), ?_⟩
  rw [marked, List.getLast?_append_of_ne_nil _ hne, List.getLast?_eq_some_getLast hne]

theorem lowcase_blank (h : isLws c = true) : lowcase c = c := by
  obtain rfl | rfl := isLws_iff.mp h <;> rfl

/-- A name with a blank is none of the names of a file. -/
theorem not_named_of_lt (hgap : Blanks x.gap) (h : 1 < x.gap.length) :
    ¬ isExtName x.marked ∧ x.kind = .other := by
  obtain ⟨c, hc, hlast⟩ := marked_of_lt h
  have hlws := hgap c hc
  have hblank : ∀ name : Bytes, (∀ b ∈ name.map lowcase, isLws b = false) →
      ¬ strieq x.marked name = true := by
    intro name hname heq
    have hmap : x.marked.map lowcase = name.map lowcase := of_decide_eq_true heq
    have hmem : c ∈ name.map lowcase := by
      rw [← hmap, ← lowcase_blank hlws]
      exact List.mem_map_of_mem (List.mem_of_mem_getLast? hlast)
    exact Bool.false_ne_true ((hname c hmem).symm.trans hlws)
  constructor
  · rintro ⟨-, hstar⟩
    rw [hlast] at hstar
    rw [Option.some.inj hstar] at hlws
    exact absurd hlws (by decide)
  · rw [kind, if_neg (hblank _ (by decide +kernel)), if_neg (hblank _ (by decide +kernel))]

/-- What a name says of the kind. -/
theorem kind_of_le (h : x.gap.length ≤ 1) : x.kind =
    if x.Named "filename*" then .extFilename
    else if x.Named "filename" then .filename else .other := by
  rw [kind, marked_of_le h]
  rfl

/-- The parser reads the parameter as it is meant. -/
theorem Formed.wf (h : x.Formed defaultUTF8) (hread : x.gap.length ≤ 1 ∨ x.value.charset? = none) :
    x.WF defaultUTF8 := by
  obtain ⟨hbefore, hne, hname, hgap, hlead, hvalue, hform, htrail⟩ := h
  refine ⟨hbefore, hne, hname, hgap, hlead, hvalue, ?_, htrail⟩
  by_cases hle : x.gap.length ≤ 1
  · rw [marked_of_le hle]
    exact hform
  · rw [hread.resolve_left hle]
    exact iff_of_false Bool.false_ne_true (not_named_of_lt hgap (not_le.mp hle)).1

/-- An extra parameter. -/
def Extra (x : DispositionParm) : Prop := ¬ x.Named "filename" ∧ ¬ x.Named "filename*"

instance (x : DispositionParm) : Decidable x.Extra := inferInstanceAs (Decidable (_ ∧ _))

theorem Extra.kind (h : x.Extra) (hgap : Blanks x.gap) : x.kind = .other := by
  by_cases hle : x.gap.length ≤ 1
  · rw [kind_of_le hle, if_neg h.2, if_neg h.1]
  · exact (not_named_of_lt hgap (not_le.mp hle)).2

/-- The extended value that is taken for a token. -/
def asToken (x : DispositionParm) : DispositionParm := { x with value := .token x.value.render }

theorem render_asToken : x.asToken.render = x.render := rfl

end DispositionParm

/-! ## Extended values that are taken for tokens -/

theorem token_of_attr (h : inRFC5987AttrChar c = true) : inRFC2616HttpToken c = true := by
  simp only [inRFC5987AttrChar, Bool.and_eq_true] at h
  exact h.1.1.1

theorem token_of_hex (h : Util.isHexDigit c = true) : inRFC2616HttpToken c = true := by
  revert h
  exact forall_byte (P := fun c => Util.isHexDigit c = true → inRFC2616HttpToken c = true)
    (by decide +kernel) c

theorem token_of_language (h : isLanguage c = true) : inRFC2616HttpToken c = true := by
  revert h
  exact forall_byte (P := fun c => isLanguage c = true → inRFC2616HttpToken c = true)
    (by decide +kernel) c

/-- An extended value consists of token characters, if the name of its character set does. -/
theorem tokens_of_ext {charset language : Bytes} {chars : List ExtChar}
    (h : (ParmValue.ext charset language chars).WF defaultUTF8)
    (hcharset : ∀ c ∈ charset, inRFC2616HttpToken c = true) :
    ∀ c ∈ (ParmValue.ext charset language chars).render, inRFC2616HttpToken c = true := by
  obtain ⟨-, hlanguage, hchars, -⟩ := h
  have happ : inRFC2616HttpToken apostrophe = true := by decide +kernel
  have hpercent : inRFC2616HttpToken percent = true := by decide +kernel
  have hext : ∀ c ∈ ParmValue.renderExt chars, inRFC2616HttpToken c = true := by
    intro c hc
    obtain ⟨x, hx, hc⟩ := List.mem_flatMap.mp hc
    have hwf := hchars x hx
    cases x with
    | attr a => exact List.mem_singleton.mp hc ▸ token_of_attr hwf
    | pct hi lo =>
      obtain ⟨hhi, hlo, -⟩ := hwf
      simp only [ExtChar.render, List.mem_cons, List.not_mem_nil, or_false] at hc
      obtain rfl | rfl | rfl := hc
      · exact hpercent
      · exact token_of_hex hhi
      · exact token_of_hex hlo
  intro c hc
  simp only [ParmValue.render, List.mem_append, List.mem_cons] at hc
  obtain hc | rfl | hc | rfl | hc := hc
  · exact hcharset c hc
  · exact happ
  · exact token_of_language (hlanguage c hc)
  · exact happ
  · exact hext c hc

variable {x : DispositionParm} {charset language : Bytes} {chars : List ExtChar}

/-- Behind two blanks an extended value of token characters is a token. -/
theorem DispositionParm.Formed.wf_asToken (h : x.Formed defaultUTF8) (hgap : 1 < x.gap.length)
    (hvalue : x.value = .ext charset language chars)
    (htokens : ∀ c ∈ charset, inRFC2616HttpToken c = true) : x.asToken.WF defaultUTF8 := by
  have hne : x.value.render ≠ [] := by
    rw [hvalue]
    simp [ParmValue.render]
  have hchars : ∀ c ∈ x.value.render, inRFC2616HttpToken c = true := by
    have hwf := h.value
    rw [hvalue] at hwf ⊢
    exact tokens_of_ext hwf htokens
  exact ⟨h.before, h.name_ne, h.name_chars, h.gap, h.lead, ⟨hne, hchars⟩,
    iff_of_false Bool.false_ne_true (x.not_named_of_lt h.gap hgap).1, h.trail⟩

/-- The end of a token at a character that may not follow it. -/
theorem cdScan_notToken (hv : v.inFileParm = false) (ht : ∀ c ∈ s, inRFC2616HttpToken c = true)
    (hc : inRFC2978MIMECharset c = true) (hnot : inRFC2616HttpToken c = false) :
    cdScan defaultUTF8 destlen .beforeValue v (s ++ c :: rest) = none := by
  have hother : c ≠ quote ∧ c ≠ semicolon ∧ isLws c = false := by
    refine ⟨?_, ?_, Bool.eq_false_iff.mpr fun h => ?_⟩
    · rintro rfl
      exact absurd hc (by decide +kernel)
    · rintro rfl
      exact absurd hc (by decide +kernel)
    · rw [(of_isLws h).2.1] at hc
      exact nomatch hc
  have htoken : ∀ w : CdVars, cdStep defaultUTF8 destlen .token w c = none := fun w =>
    (if_neg (by rw [hnot]; decide)).trans ((if_neg hother.2.1).trans
      (if_neg (by rw [hother.2.2]; decide)))
  rcases s with _ | ⟨a, s⟩
  · exact cdScan_none ((if_neg hother.1).trans ((if_neg (by rw [hnot]; decide)).trans
      (if_neg (by rw [hother.2.2]; decide))))
  · obtain ⟨ha, hs⟩ := List.forall_mem_cons.mp ht
    have hput : v.put destlen a = some v := if_neg (by rw [hv]; decide)
    have hstep : cdStep defaultUTF8 destlen .beforeValue v a = some (.token, v) := by
      refine (if_neg (of_token ha).2.2.1).trans ((if_pos ha).trans ?_)
      rw [hput]
      rfl
    have hroom : v.Room destlen := fun hin => nomatch hv.symm.trans hin
    have hwrite : v.write destlen s = some v := if_neg (by rw [hv]; decide)
    rw [List.cons_append, cdScan_cons hstep, cdScan_token destlen _ hs hroom, hwrite]
    exact cdScan_none (htoken v)

theorem cdParm_other (hkind : x.kind = .other) (hext : ¬ DispositionParm.isExtName x.marked) :
    cdParm v x.marked = some (.beforeValue, { v with name := x.marked, inFileParm := false }) := by
  unfold DispositionParm.kind at hkind
  split at hkind
  · exact nomatch hkind
  next hne =>
    split at hkind
    · exact nomatch hkind
    next hne' => exact (if_neg hne).trans ((if_neg hne').trans (if_neg hext))

/-- Behind two blanks no other extended value is accepted. -/
theorem cdScan_refused (h : x.Formed defaultUTF8) (hgap : 1 < x.gap.length)
    (hvalue : x.value = .ext charset language chars)
    (hnot : ¬ ∀ c ∈ charset, inRFC2616HttpToken c = true) (v : CdVars) :
    cdScan defaultUTF8 destlen .beforeDispositionParmName v (x.render ++ rest) = none := by
  obtain ⟨t, u, rfl, ht, hhead⟩ := exists_span inRFC2616HttpToken charset
  rcases u with _ | ⟨c, u⟩
  · exact absurd (by rwa [List.append_nil]) hnot
  obtain ⟨hext, hkind⟩ := x.not_named_of_lt h.gap hgap
  have hmime : inRFC2978MIMECharset c = true := by
    have hwf := h.value
    rw [hvalue] at hwf
    exact (hwf.1.2 c (List.mem_append_right t (.head u))).1
  -- the name is read alike in front of a token
  have hwf : ({ x with value := .token [0x61] } : DispositionParm).WF defaultUTF8 :=
    ⟨h.before, h.name_ne, h.name_chars, h.gap, h.lead, ⟨by decide, by decide +kernel⟩,
      iff_of_false Bool.false_ne_true hext, h.trail⟩
  obtain ⟨text, hscan⟩ := cdScan_parm destlen v
    (x.lead ++ (t ++ c :: (u ++ apostrophe :: (language ++ apostrophe ::
      (ParmValue.renderExt chars ++ (x.trail ++ rest)))))) hwf
  have hrender : x.render ++ rest = x.before ++ (x.name ++ (x.gap ++ equals :: (x.lead ++ (t ++ c ::
      (u ++ apostrophe :: (language ++ apostrophe ::
        (ParmValue.renderExt chars ++ (x.trail ++ rest)))))))) := by
    simp [DispositionParm.render, hvalue, ParmValue.render]
  have hparm : cdParm { v with marked := text, name := x.marked } x.marked = _ :=
    cdParm_other hkind hext
  rw [hrender, hscan]
  dsimp only [DispositionParm.marked] at hparm ⊢
  rw [hparm]
  dsimp only
  rw [cdScan_lead h.lead (.inl rfl)]
  exact cdScan_notToken rfl ht hmime (hhead c rfl)

/-! ## Inserting a parameter -/

/-- A header that `parse_content_disposition` accepts. -/
def Accepted (defaultUTF8 : Bool) (header : Bytes) : Prop :=
  (parseContentDisposition defaultUTF8 cdvallen header).isSome = true

instance (header : Bytes) : Decidable (Accepted defaultUTF8 header) :=
  inferInstanceAs (Decidable (_ = _))

/-- The header with other parameters. -/
def Header.withParms (d : Header) (parms : List DispositionParm) : Header := { d with parms }

variable {d : Header} {ps qs parms : List DispositionParm}

theorem Header.WF.withParms (h : d.WF defaultUTF8) (hparms : ∀ y ∈ parms, y.WF defaultUTF8) :
    (d.withParms parms).WF defaultUTF8 :=
  ⟨h.before, h.type_ne, h.type_chars, h.after, hparms⟩

theorem filename_render (h : d.WF defaultUTF8) : getContentDispositionFilename d.render defaultUTF8 =
    ((effects cdvallen {} d.parms).map fun b => nameOf defaultUTF8 b.dest b.charsetp).getD [] := by
  rw [getContentDispositionFilename, parse_render h]
  rcases effects cdvallen {} d.parms with _ | b
  · rfl
  · rfl

theorem Accepted.effects (h : d.WF defaultUTF8) (hd : Accepted defaultUTF8 d.render) :
    ∃ b, effects cdvallen {} d.parms = some b := by
  unfold Accepted at hd
  rw [parse_render h, Option.isSome_map] at hd
  exact Option.isSome_iff_exists.mp hd

/-- The name in an accepted header. -/
theorem filename_eq (h : d.WF defaultUTF8) (hd : Accepted defaultUTF8 d.render) :
    getContentDispositionFilename d.render defaultUTF8 =
      nameOf defaultUTF8 (chosen d.parms) (lastCharset d.parms) := by
  obtain ⟨b, hb⟩ := hd.effects h
  obtain ⟨hdest, hcharset⟩ := found_eq h.parms hb
  rw [filename_render h, hb, Option.map_some, Option.getD_some, hdest, hcharset]

/-- The name in an accepted header with an extra parameter. -/
theorem filename_insert (h : d.WF defaultUTF8) (hd : Accepted defaultUTF8 d.render)
    (hparms : d.parms = ps ++ qs) (hx : x.WF defaultUTF8) (hkind : x.kind = .other) :
    getContentDispositionFilename (d.withParms (ps ++ x :: qs)).render defaultUTF8 =
      nameOf defaultUTF8 (chosen d.parms)
        ((lastCharset qs).or (x.value.charset?.or (lastCharset ps))) := by
  obtain ⟨b, hb⟩ := hd.effects h
  have hall : ∀ y ∈ ps ++ qs, y.WF defaultUTF8 := hparms ▸ h.parms
  have hps : ∀ y ∈ ps, y.WF defaultUTF8 := fun y hy => hall y (List.mem_append_left qs hy)
  have hqs : ∀ y ∈ qs, y.WF defaultUTF8 := fun y hy => hall y (List.mem_append_right ps hy)
  have hwf : (d.withParms (ps ++ x :: qs)).WF defaultUTF8 := by
    refine h.withParms fun y hy => ?_
    rcases List.mem_append.mp hy with hy | hy
    · exact hps y hy
    · exact (List.forall_mem_cons.mpr ⟨hx, hqs⟩) y hy
  have hfront : (effects cdvallen {} ps).bind Found.charsetp = lastCharset ps := by
    rw [hparms, effects_append] at hb
    obtain ⟨c, hc, -⟩ := Option.bind_eq_some_iff.mp hb
    rw [hc]
    exact (found_eq hps hc).2
  have heffects : effects cdvallen {} (d.withParms (ps ++ x :: qs)).parms = some
      { b with charsetp := (lastCharset qs).or (x.value.charset?.or (lastCharset ps)) } := by
    refine (effects_insert hqs hkind).trans ?_
    rw [← hparms, hb, hfront]
    rfl
  rw [filename_render hwf, heffects, Option.map_some, Option.getD_some, (found_eq h.parms hb).1]

/-- An accepted header has no name. -/
def Nameless (defaultUTF8 : Bool) (parms : List DispositionParm) : Prop :=
  chosen parms = [] ∨ ¬ Safe (chosen parms) ∨
    (isIso (lastCharset parms) defaultUTF8 = true ∧ ∃ c ∈ chosen parms, isC1 c = true)

/-- An extra parameter does no harm: its character set is not the last one, or it makes no
difference; or the parser takes its value for a token. -/
def Harmless (defaultUTF8 : Bool) (ps qs : List DispositionParm) (x : DispositionParm) : Prop :=
  match x.value.charset? with
  | none => True
  | some charset =>
    if x.gap.length ≤ 1 then
      (lastCharset qs).isSome = true ∨
        isIso (some charset) defaultUTF8 = isIso (lastCharset ps) defaultUTF8 ∨
          (∀ c ∈ chosen (ps ++ qs), c < 0x80) ∨ ¬ Safe (chosen (ps ++ qs))
    else (∀ c ∈ charset, inRFC2616HttpToken c = true) ∨ Nameless defaultUTF8 (ps ++ qs)

theorem render_withParms_asToken :
    (d.withParms (ps ++ x.asToken :: qs)).render = (d.withParms (ps ++ x :: qs)).render := by
  simp [Header.withParms, Header.render, renderParms, DispositionParm.render_asToken]

/-- An extended value that is not taken for a token makes the parser reject the header. -/
theorem filename_refused (h : d.WF defaultUTF8) (hparms : d.parms = ps ++ qs)
    (hx : x.Formed defaultUTF8) (hgap : 1 < x.gap.length)
    (hvalue : x.value = .ext charset language chars)
    (hnot : ¬ ∀ c ∈ charset, inRFC2616HttpToken c = true) :
    getContentDispositionFilename (d.withParms (ps ++ x :: qs)).render defaultUTF8 = [] := by
  have hps : ∀ y ∈ ps, y.WF defaultUTF8 := fun y hy =>
    h.parms y (hparms ▸ List.mem_append_left qs hy)
  obtain ⟨st, v, hsettled, hscan⟩ :=
    cdScan_type defaultUTF8 cdvallen h.before h.type_ne h.type_chars h.after
  have hfront := cdScan_renderParms cdvallen hps hsettled (renderParms (x :: qs))
  have hrender : (d.withParms (ps ++ x :: qs)).render =
      d.before ++ (d.type ++ (d.after ++ (renderParms ps ++ renderParms (x :: qs)))) := by
    simp [Header.withParms, Header.render, renderParms]
  have hnone : parseContentDisposition defaultUTF8 cdvallen
      (d.withParms (ps ++ x :: qs)).render = none := by
    rw [hrender, hscan]
    split at hfront
    · exact hfront
    · obtain ⟨st', w, hsettled, hgo⟩ := hfront
      obtain ⟨w', hstep, -⟩ := hsettled.semicolon
      rw [hgo]
      exact (cdScan_cons hstep).trans (cdScan_refused hx hgap hvalue hnot w')
  rw [getContentDispositionFilename, hnone]

/-- Inserting an extra parameter changes the name only where it does harm. -/
theorem filename_insert_iff (h : d.WF defaultUTF8) (hd : Accepted defaultUTF8 d.render)
    (hparms : d.parms = ps ++ qs) (hx : x.Formed defaultUTF8) (hextra : x.Extra) :
    getContentDispositionFilename (d.withParms (ps ++ x :: qs)).render defaultUTF8 =
      getContentDispositionFilename d.render defaultUTF8 ↔ Harmless defaultUTF8 ps qs x := by
  have hkind := hextra.kind hx.gap
  have hname := filename_eq h hd
  rw [hparms, lastCharset_append] at hname
  unfold Harmless
  rcases hcharset : x.value.charset? with _ | charset
  · have hinsert := filename_insert h hd hparms (hx.wf (.inr hcharset)) hkind
    rw [hcharset, Option.none_or, hparms] at hinsert
    exact iff_of_true (hinsert.trans hname.symm) trivial
  · dsimp only
    split
    next hle =>
      have hinsert := filename_insert h hd hparms (hx.wf (.inl hle)) hkind
      rw [hcharset, hparms] at hinsert
      rw [hinsert, hname, nameOf_eq_iff]
      rcases lastCharset qs with _ | last
      · rw [Option.none_or, Option.none_or, Option.some_or]
        exact (or_iff_right (a := none.isSome = true) Bool.false_ne_true).symm
      · exact iff_of_true (.inl rfl) (.inl rfl)
    next hgap =>
      obtain ⟨language, chars, hvalue⟩ : ∃ language chars, x.value = .ext charset language chars := by
        rcases hx' : x.value with _ | _ | ⟨charset', language, chars⟩ <;> rw [hx'] at hcharset
        · exact nomatch hcharset
        · exact nomatch hcharset
        · obtain rfl := Option.some.inj hcharset
          exact ⟨language, chars, rfl⟩
      by_cases htokens : ∀ c ∈ charset, inRFC2616HttpToken c = true
      · have hwf := hx.wf_asToken (not_le.mp hgap) hvalue htokens
        have hinsert := filename_insert h hd hparms hwf hkind
        rw [render_withParms_asToken] at hinsert
        rw [hinsert, hname, hparms]
        exact iff_of_true rfl (.inl htokens)
      · rw [or_iff_right htokens, filename_refused h hparms hx (not_le.mp hgap) hvalue htokens,
          hname, eq_comm, nameOf_eq_nil_iff, ← lastCharset_append]
        rfl

/-! ## `filename*` and `filename` -/

/-- The parameters without those of the name `filename`. -/
def withoutFilename (parms : List DispositionParm) : List DispositionParm :=
  parms.filter fun x => ¬ x.Named "filename"

theorem mem_withoutFilename : x ∈ withoutFilename parms ↔ x ∈ parms ∧ ¬ x.Named "filename" := by
  rw [withoutFilename, List.mem_filter, decide_eq_true_iff]

/-- What is found without the parameters of the name `filename`. -/
structure Without (a b : Found) : Prop where
  filename : b.filename = false
  extFilename : b.extFilename = a.extFilename
  dest : b.dest = if a.extFilename then a.dest else []
  charsetp : b.charsetp = a.charsetp

/-- A name with a blank is not the name of a file, but the parameter still has the name. -/
theorem DispositionParm.WF.named {y : DispositionParm} (h : y.WF defaultUTF8) : match y.kind with
    | .filename => y.Named "filename"
    | .extFilename => y.Named "filename*" ∧ ¬ y.Named "filename"
    | .other => y.Named "filename" → y.value.charset? = none := by
  by_cases hle : y.gap.length ≤ 1
  · rw [y.kind_of_le hle]
    by_cases hext : y.Named "filename*"
    · rw [if_pos hext]
      refine ⟨hext, fun hname => ?_⟩
      have hsame : "filename*".toUTF8.toList.map lowcase = "filename".toUTF8.toList.map lowcase :=
        (of_decide_eq_true hext).symm.trans (of_decide_eq_true hname)
      exact absurd hsame (by decide +kernel)
    · rw [if_neg hext]
      by_cases hname : y.Named "filename"
      · rw [if_pos hname]
        exact hname
      · rw [if_neg hname]
        exact fun h => absurd h hname
  · obtain ⟨hext, hkind⟩ := y.not_named_of_lt h.gap (not_le.mp hle)
    rw [hkind]
    exact fun _ => Option.not_isSome_iff_eq_none.mp (mt h.value_form.mp hext)

/-- What parameters leave without those of the name `filename`. -/
theorem effects_withoutFilename {a a' b : Found} (hparms : ∀ y ∈ parms, y.WF defaultUTF8)
    (ha : Without a a') (h : effects destlen a parms = some b) :
    ∃ b', effects destlen a' (withoutFilename parms) = some b' ∧ Without b b' := by
  induction parms generalizing a a' with
  | nil =>
    obtain rfl := Option.some.inj h
    exact ⟨a', rfl, ha⟩
  | cons y parms ih =>
    obtain ⟨hy, hparms⟩ := List.forall_mem_cons.mp hparms
    obtain ⟨c, hc, h⟩ := Option.bind_eq_some_iff.mp h
    have hnamed := hy.named
    have hcharset := hy.charset?
    obtain ⟨hfile, hext, hdest, hcharsetp⟩ := ha
    -- a parameter of the name leaves nothing, and any other parameter leaves the same
    by_cases hname : y.Named "filename"
    · have hskip : withoutFilename (y :: parms) = withoutFilename parms :=
        List.filter_cons_of_neg (by simpa using hname)
      rw [hskip]
      refine ih hparms ?_ h
      unfold DispositionParm.effect at hc
      rcases hkind : y.kind with _ | _ | _ <;> rw [hkind] at hc hnamed <;> dsimp only at hc hnamed
      · split_ifs at hc with h1 h2 h3
        · obtain rfl := Option.some.inj hc
          exact ⟨hfile, hext, hdest, hcharsetp⟩
        · obtain rfl := Option.some.inj hc
          refine ⟨hfile, hext, ?_, hcharsetp⟩
          rw [hdest, if_neg h2, if_neg h2]
      · exact absurd hname hnamed.2
      · obtain rfl := Option.some.inj hc
        rw [hnamed hname, Option.none_or]
        exact ⟨hfile, hext, hdest, hcharsetp⟩
    · have hkeep : withoutFilename (y :: parms) = y :: withoutFilename parms :=
        List.filter_cons_of_pos (by simpa using hname)
      suffices hone : ∃ c', y.effect destlen a' = some c' ∧ Without c c' by
        obtain ⟨c', hc', hwithout⟩ := hone
        obtain ⟨b', hb', hwithout⟩ := ih hparms hwithout h
        refine ⟨b', ?_, hwithout⟩
        rw [hkeep, effects, hc', Option.bind_some, hb']
      unfold DispositionParm.effect at hc ⊢
      rcases hkind : y.kind with _ | _ | _ <;> rw [hkind] at hc hnamed <;> dsimp only at hc hnamed
      · exact absurd hnamed hname
      · split_ifs at hc with hrefused
        obtain rfl := Option.some.inj hc
        dsimp only
        rw [hext, if_neg hrefused]
        exact ⟨_, rfl, hfile, rfl, rfl, rfl⟩
      · obtain rfl := Option.some.inj hc
        refine ⟨_, rfl, hfile, hext, hdest, ?_⟩
        dsimp only
        rw [hcharsetp]

/-- A name of `filename*` stands for itself, unless two blanks follow it. -/
theorem filename_withoutFilename_iff (h : d.WF defaultUTF8) (hd : Accepted defaultUTF8 d.render) :
    getContentDispositionFilename (d.withParms (withoutFilename d.parms)).render defaultUTF8 =
      getContentDispositionFilename d.render defaultUTF8 ↔
        (∃ y ∈ d.parms, y.Named "filename*" ∧ y.gap.length ≤ 1) ∨
          Nameless defaultUTF8 d.parms := by
  obtain ⟨b, hb⟩ := hd.effects h
  have hstart : Without {} {} := ⟨rfl, rfl, rfl, rfl⟩
  obtain ⟨b', hb', hwithout⟩ := effects_withoutFilename h.parms hstart hb
  have hwf : (d.withParms (withoutFilename d.parms)).WF defaultUTF8 :=
    h.withParms fun y hy => h.parms y (mem_withoutFilename.mp hy).1
  have hsome : (∃ y ∈ d.parms, y.Named "filename*" ∧ y.gap.length ≤ 1) ↔
      b.extFilename = true := by
    rw [extFilename_eq hb, Bool.false_or, List.any_eq_true]
    refine exists_congr fun y => and_congr_right fun hy => ?_
    rw [decide_eq_true_iff]
    constructor
    · rintro ⟨hname, hle⟩
      rw [y.kind_of_le hle, if_pos hname]
    · intro hkind
      have hnamed := (h.parms y hy).named
      rw [hkind] at hnamed
      refine ⟨hnamed.1, ?_⟩
      by_contra hgap
      rw [(y.not_named_of_lt (h.parms y hy).gap (not_le.mp hgap)).2] at hkind
      exact nomatch hkind
  have heffects : effects cdvallen {} (d.withParms (withoutFilename d.parms)).parms = some b' := hb'
  obtain ⟨hdest, hcharset⟩ := found_eq h.parms hb
  rw [filename_render hwf, heffects, filename_render h, hb, Option.map_some, Option.map_some,
    Option.getD_some, Option.getD_some, hwithout.dest, hwithout.charsetp, hsome]
  by_cases hext : b.extFilename = true
  · rw [if_pos hext]
    exact iff_of_true rfl (.inl hext)
  · rw [if_neg hext, or_iff_right hext, nameOf_eq_nil_iff.mpr (.inl rfl), eq_comm,
      nameOf_eq_nil_iff, hdest, hcharset]
    rfl

/-- Exactly where extra parameters do not matter and where a `filename*` stands for itself; and no
name leaves the directory. -/
theorem insert_iff_and_safe (defaultUTF8 : Bool) :
    (∀ header, Accepted defaultUTF8 header →
      Blanks header ∨ ∃ d : Header, d.WF defaultUTF8 ∧ d.render = header) ∧
    (∀ (d : Header) (ps qs : List DispositionParm) (x : DispositionParm), d.WF defaultUTF8 →
      Accepted defaultUTF8 d.render → d.parms = ps ++ qs → x.Formed defaultUTF8 → x.Extra →
      (getContentDispositionFilename (d.withParms (ps ++ x :: qs)).render defaultUTF8 =
        getContentDispositionFilename d.render defaultUTF8 ↔ Harmless defaultUTF8 ps qs x)) ∧
    (∀ d : Header, d.WF defaultUTF8 → Accepted defaultUTF8 d.render →
      (∃ y ∈ d.parms, y.Named "filename*") →
      (getContentDispositionFilename (d.withParms (withoutFilename d.parms)).render defaultUTF8 =
        getContentDispositionFilename d.render defaultUTF8 ↔
          (∃ y ∈ d.parms, y.Named "filename*" ∧ y.gap.length ≤ 1) ∨
            Nameless defaultUTF8 d.parms)) ∧
    ∀ header, slash ∉ getContentDispositionFilename header defaultUTF8 ∧
      backslash ∉ getContentDispositionFilename header defaultUTF8 ∧
      getContentDispositionFilename header defaultUTF8 ≠ dot ∧
      getContentDispositionFilename header defaultUTF8 ≠ dotDot := by
  refine ⟨fun header h => ?_, fun d ps qs x h hd hparms hx hextra =>
    filename_insert_iff h hd hparms hx hextra, fun d h hd _ => filename_withoutFilename_iff h hd,
    fun header => ?_⟩
  · obtain ⟨r, hr⟩ := Option.isSome_iff_exists.mp h
    exact of_parse hr
  · have hsafe : Safe (getContentDispositionFilename header defaultUTF8) := by
      rw [getContentDispositionFilename]
      split
      · exact safe_nil
      · exact safe_nameOf
    obtain ⟨-, hdot, hdotDot⟩ := safe_iff.mp hsafe
    exact ⟨hsafe.2.1, hsafe.2.2, hdot, hdotDot⟩

/-- `filename*=iso-8859-1''%E4`. -/
def latinName : DispositionParm where
  before := " ".toUTF8.toList
  name := "filename*".toUTF8.toList
  gap := []
  lead := []
  value := .ext "iso-8859-1".toUTF8.toList [] [.pct 0x45 0x34]
  trail := []

/-- `x*=utf-8''a`. -/
def utf8Extra : DispositionParm where
  before := " ".toUTF8.toList
  name := "x*".toUTF8.toList
  gap := []
  lead := []
  value := .ext "utf-8".toUTF8.toList [] [.attr 0x61]
  trail := []

def latinHeader : Header where
  before := []
  type := "attachment".toUTF8.toList
  after := []
  parms := [latinName]

theorem latinName_wf : latinName.WF true := by
  have hvalue : latinName.value.WF true :=
    ⟨by decide +kernel, by decide +kernel,
      fun x hx => List.mem_singleton.mp hx ▸ ⟨by decide +kernel, by decide +kernel,
        fun _ => by decide +kernel⟩,
      fun h => absurd h (by decide +kernel)⟩
  exact ⟨by decide +kernel, by decide +kernel, by decide +kernel, nofun, nofun, hvalue,
    by decide +kernel, nofun⟩

theorem latinHeader_wf : latinHeader.WF true :=
  ⟨nofun, by decide +kernel, by decide +kernel, nofun,
    fun x hx => List.mem_singleton.mp hx ▸ latinName_wf⟩

theorem utf8Extra_formed : utf8Extra.Formed true := by
  have hvalue : utf8Extra.value.WF true :=
    ⟨by decide +kernel, by decide +kernel,
      fun x hx => List.mem_singleton.mp hx ▸
        show inRFC5987AttrChar 0x61 = true by decide +kernel,
      fun _ => Util.utf8dfaAccepts_iff.mpr (by decide +kernel)⟩
  exact ⟨by decide +kernel, by decide +kernel, by decide +kernel, nofun, nofun, hvalue,
    by decide +kernel, nofun⟩

/-- `filename = "a\"b"`. -/
def quotedName : DispositionParm where
  before := " ".toUTF8.toList
  name := "filename".toUTF8.toList
  gap := " ".toUTF8.toList
  lead := " ".toUTF8.toList
  value := .quoted [(false, 0x61), (true, 0x22), (false, 0x62)]
  trail := []

/-- `attachment; filename = "a\"b"; filename*=iso-8859-1''%E4`. -/
def twoNames : Header where
  before := []
  type := "attachment".toUTF8.toList
  after := []
  parms := [quotedName, latinName]

theorem twoNames_wf : twoNames.WF true := by
  have hvalue : quotedName.value.WF true :=
    ⟨Util.utf8dfaAccepts_iff.mpr (by decide +kernel), fun c hc => by grind⟩
  have hname : quotedName.WF true :=
    ⟨by decide +kernel, by decide +kernel, by decide +kernel, by decide +kernel,
      by decide +kernel, hvalue, by decide +kernel, nofun⟩
  refine ⟨nofun, by decide +kernel, by decide +kernel, nofun, ?_⟩
  exact List.forall_mem_cons.mpr ⟨hname, List.forall_mem_singleton.mpr latinName_wf⟩

/-- The extra parameter between the two names and the loss of the plain one change nothing. -/
theorem insert_iff_and_safe_twoNames :
    getContentDispositionFilename twoNames.render true = [0xc3, 0xa4] ∧
      getContentDispositionFilename
        (twoNames.withParms ([quotedName] ++ utf8Extra :: [latinName])).render true =
          getContentDispositionFilename twoNames.render true ∧
      getContentDispositionFilename (twoNames.withParms (withoutFilename twoNames.parms)).render
        true = getContentDispositionFilename twoNames.render true := by
  have haccepted : Accepted true twoNames.render := by decide +kernel
  obtain ⟨-, hinsert, hwithout, -⟩ := insert_iff_and_safe true
  refine ⟨by decide +kernel, ?_, ?_⟩
  · exact (hinsert twoNames [quotedName] [latinName] utf8Extra twoNames_wf haccepted rfl
      utf8Extra_formed (by decide +kernel)).mpr (.inl rfl)
  · have hlatin : latinName ∈ twoNames.parms := .tail _ (.head _)
    exact (hwithout twoNames twoNames_wf haccepted ⟨latinName, hlatin, by decide +kernel⟩).mpr
      (.inl ⟨latinName, hlatin, by decide +kernel, by decide +kernel⟩)

/-- Behind `attachment; filename*=iso-8859-1''%E4` the parameter `x*=utf-8''a` makes the name a
byte that is no UTF-8; and in `attachment; filename=a; filename*  =utf-8''b` the name is `a`. -/
theorem extra_charset_counterexample :
    (latinHeader.WF true ∧ Accepted true latinHeader.render ∧ utf8Extra.Formed true ∧
      utf8Extra.Extra ∧
      latinHeader.render = "attachment; filename*=iso-8859-1''%E4".toUTF8.toList ∧
      (latinHeader.withParms [latinName, utf8Extra]).render =
        "attachment; filename*=iso-8859-1''%E4; x*=utf-8''a".toUTF8.toList ∧
      getContentDispositionFilename latinHeader.render true = [0xc3, 0xa4] ∧
      getContentDispositionFilename (latinHeader.withParms [latinName, utf8Extra]).render true =
        [0xe4]) ∧
    getContentDispositionFilename
      "attachment; filename=a; filename*  =utf-8''b".toUTF8.toList true = "a".toUTF8.toList :=
  ⟨⟨latinHeader_wf, by decide +kernel, utf8Extra_formed, by decide +kernel, by decide +kernel,
    by decide +kernel, by decide +kernel, by decide +kernel⟩, by decide +kernel⟩

end FluxCore.Http.Disposition
