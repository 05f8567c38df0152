import FluxCore.Http.DispositionList
import FluxCore.Uri.Authority

/-!
# The headers that are accepted

A header that the parser accepts is blank, or it is put together from a type and parameters.
-/

namespace FluxCore.Http.Disposition

open Utp (Bytes)
open Torrent (isAlpha)
open Uri (exists_span)
open Util (isDigit isLws UTF8_ACCEPT UTF8_REJECT endState next utf8dfaAccepts utf8dfaAccepts_iff)

variable {defaultUTF8 : Bool} {destlen : Nat} {st st' : Cd} {v v' w : CdVars} {c : UInt8}
  {s rest : Bytes} {r : Bytes × Option Bytes}

/-! ## Spans -/

/-- A scan that returns something takes a step at each character. -/
theorem of_cdScan_cons (h : cdScan defaultUTF8 destlen st v (c :: s) = some r) :
    ∃ st' v', cdStep defaultUTF8 destlen st v c = some (st', v') ∧
      cdScan defaultUTF8 destlen st' v' s = some r := by
  rw [cdScan] at h
  split at h
  · cases h
  next st' v' hstep => exact ⟨st', v', hstep, h⟩

/-- The characters that keep the parser in a state, up to one that does not. -/
theorem of_cdScan_span (p : UInt8 → Bool)
    (hstay : ∀ v c r, p c = true → cdStep defaultUTF8 destlen st v c = some r → r.1 = st)
    (h : cdScan defaultUTF8 destlen st v s = some r) :
    ∃ a rest v', s = a ++ rest ∧ (∀ c ∈ a, p c = true) ∧ (∀ c ∈ rest.head?, p c = false) ∧
      cdScan defaultUTF8 destlen st v' rest = some r := by
  obtain ⟨a, rest, rfl, ha, hrest⟩ := exists_span p s
  suffices hgo : ∃ v', cdScan defaultUTF8 destlen st v' rest = some r by
    obtain ⟨v', hgo⟩ := hgo
    exact ⟨a, rest, v', rfl, ha, hrest, hgo⟩
  induction a generalizing v with
  | nil => exact ⟨v, h⟩
  | cons c a ih =>
    obtain ⟨hc, ha⟩ := List.forall_mem_cons.mp ha
    obtain ⟨st', v', hstep, hgo⟩ := of_cdScan_cons h
    obtain rfl : st' = st := hstay v c (st', v') hc hstep
    exact ih hgo ha

/-- The end of the header, or a semicolon and another parameter. -/
def Ends (defaultUTF8 : Bool) (destlen : Nat) (r : Bytes × Option Bytes) (rest : Bytes) : Prop :=
  rest = [] ∨ ∃ s v, rest = semicolon :: s ∧
    cdScan defaultUTF8 destlen .beforeDispositionParmName v s = some r

/-- Blanks, and the end. -/
def Trails (defaultUTF8 : Bool) (destlen : Nat) (r : Bytes × Option Bytes) (s : Bytes) : Prop :=
  ∃ t rest, s = t ++ rest ∧ Blanks t ∧ Ends defaultUTF8 destlen r rest

theorem trails_of_idle (hst : Idle st) (h : cdScan defaultUTF8 destlen st v s = some r) :
    Trails defaultUTF8 destlen r s := by
  have hstep : ∀ v c, cdStep defaultUTF8 destlen st v c =
      if c = semicolon then some (.beforeDispositionParmName, v)
      else if isLws c then some (st, v) else none := by
    intro v c
    obtain rfl | rfl := hst
    · rfl
    · unfold cdStep
      simp
  obtain ⟨t, rest, v', rfl, ht, hrest, hgo⟩ := of_cdScan_span isLws (fun v c r hc hr => by
    rw [hstep, if_neg (of_isLws hc).2.2.2.1, if_pos hc] at hr
    exact Option.some.inj hr ▸ rfl) h
  refine ⟨t, rest, rfl, ht, ?_⟩
  rcases rest with _ | ⟨c, rest⟩
  · exact .inl rfl
  · obtain ⟨st', w, hc, hgo⟩ := of_cdScan_cons hgo
    rw [hstep] at hc
    split at hc
    next hsemicolon =>
      obtain ⟨rfl, rfl⟩ := Prod.mk.inj (Option.some.inj hc)
      exact .inr ⟨rest, v', by rw [hsemicolon], hgo⟩
    next =>
      rw [hrest c rfl, if_neg Bool.false_ne_true] at hc
      exact nomatch hc

/-- A value ends with the header, with a semicolon or with a blank. -/
theorem trails_of_value
    (hstep : ∀ c r, cdStep defaultUTF8 destlen st v c = some r → c ∈ s.head? →
      c = semicolon ∧ r.1 = .beforeDispositionParmName ∨ isLws c = true ∧ Idle r.1)
    (h : cdScan defaultUTF8 destlen st v s = some r) : Trails defaultUTF8 destlen r s := by
  rcases s with _ | ⟨c, s⟩
  · exact ⟨[], [], rfl, nofun, .inl rfl⟩
  · obtain ⟨st', w, hc, hgo⟩ := of_cdScan_cons h
    rcases hstep c _ hc rfl with ⟨rfl, hst⟩ | ⟨hlws, hst⟩
    · obtain rfl : st' = _ := hst
      exact ⟨[], semicolon :: s, rfl, nofun, .inr ⟨s, w, rfl, hgo⟩⟩
    · obtain ⟨t, rest, rfl, ht, hends⟩ := trails_of_idle hst hgo
      exact ⟨c :: t, rest, rfl, List.forall_mem_cons.mpr ⟨hlws, ht⟩, hends⟩

/-! ## Values -/

theorem of_cdScan_token (h : cdScan defaultUTF8 destlen .token v s = some r) :
    ∃ t rest, s = t ++ rest ∧ (∀ c ∈ t, inRFC2616HttpToken c = true) ∧
      Trails defaultUTF8 destlen r rest := by
  obtain ⟨t, rest, v', rfl, ht, hrest, hgo⟩ := of_cdScan_span inRFC2616HttpToken (fun v c r hc hr => by
    have hstep : cdStep defaultUTF8 destlen .token v c = (v.put destlen c).map (.token, ·) := if_pos hc
    rw [hstep, Option.map_eq_some_iff] at hr
    obtain ⟨w, -, rfl⟩ := hr
    rfl) h
  refine ⟨t, rest, rfl, ht, trails_of_value (fun c r hr hmem => ?_) hgo⟩
  have hstep : cdStep defaultUTF8 destlen .token v' c =
      if c = semicolon then some (.beforeDispositionParmName,
        if v'.inFileParm then { v' with filenameFound := true } else v')
      else if isLws c then
        some (.afterValue, if v'.inFileParm then { v' with filenameFound := true } else v')
      else none := if_neg (by rw [hrest c hmem]; decide)
  rw [hstep] at hr
  split at hr
  next hsemicolon => exact .inl ⟨hsemicolon, Option.some.inj hr ▸ rfl⟩
  next =>
    split at hr
    next hlws => exact .inr ⟨hlws, .inl (Option.some.inj hr ▸ rfl)⟩
    · exact nomatch hr

/-- The end of a quoted string, behind what the automaton has read. -/
def Quoted (defaultUTF8 : Bool) (destlen : Nat) (d : UInt32) (q : List (Bool × UInt8))
    (r : Bytes × Option Bytes) (rest : Bytes) : Prop :=
  (∀ c, (false, c) ∈ q → c ≠ backslash ∧ c ≠ quote) ∧
    (∃ d', Reads defaultUTF8 d (q.map Prod.snd) d' ∧ (defaultUTF8 = true → d' = UTF8_ACCEPT)) ∧
      Trails defaultUTF8 destlen r rest

theorem quoted_cons {d d' : UInt32} {q : List (Bool × UInt8)} {esc : Bool}
    (hread : Reads defaultUTF8 d [c] d') (hesc : esc = true ∨ c ≠ backslash ∧ c ≠ quote)
    (h : Quoted defaultUTF8 destlen d' q r rest) :
    Quoted defaultUTF8 destlen d ((esc, c) :: q) r rest := by
  obtain ⟨hq, ⟨d'', hreads, haccept⟩, htrails⟩ := h
  refine ⟨fun x hx => ?_, ⟨d'', ?_, haccept⟩, htrails⟩
  · rcases List.mem_cons.mp hx with heq | hx
    · obtain ⟨rfl, rfl⟩ := Prod.mk.inj heq
      exact hesc.resolve_left Bool.false_ne_true
    · exact hq x hx
  · unfold Reads at hread hreads ⊢
    rw [List.map_cons]
    cases defaultUTF8 with
    | true =>
      rw [if_pos rfl, endState] at hread
      rw [if_pos rfl] at hreads ⊢
      rw [endState]
      split at hread
      · cases hread
      next hne =>
        obtain rfl := Option.some.inj hread
        rw [if_neg hne, hreads]
    | false =>
      obtain ⟨rfl, hiso⟩ := hread
      obtain ⟨rfl, hall⟩ := hreads
      exact ⟨rfl, List.forall_mem_cons.mpr ⟨hiso c (.head _), hall⟩⟩

/-- A turn within a quoted string. -/
theorem of_quotedStep (h : cdStep defaultUTF8 destlen .quotedString v c = some (st', v')) :
    (c = backslash ∧ v.quotedSeen = false ∧ st' = .quotedString ∧
        v' = { v with quotedSeen := true }) ∨
      (c = quote ∧ v.quotedSeen = false ∧ st' = .afterValue ∧
        (defaultUTF8 = true → v.dfaState = UTF8_ACCEPT)) ∨
      ((v.quotedSeen = true ∨ c ≠ backslash ∧ c ≠ quote) ∧ st' = .quotedString ∧
        v'.quotedSeen = false ∧ Reads defaultUTF8 v.dfaState [c] v'.dfaState) := by
  unfold cdStep at h
  dsimp only at h
  split at h
  next hback =>
    obtain ⟨rfl, rfl⟩ := Prod.mk.inj (Option.some.inj h)
    exact .inl ⟨hback.1, hback.2, rfl, rfl⟩
  next hback =>
    split at h
    next hquote =>
      split at h
      · exact nomatch h
      next hstate =>
        obtain ⟨rfl, rfl⟩ := Prod.mk.inj (Option.some.inj h)
        refine .inr (.inl ⟨hquote.1, hquote.2, rfl, fun hutf8 => ?_⟩)
        exact not_not.mp fun hne => hstate ⟨hutf8, hne⟩
    next hquote =>
      rw [Option.map_eq_some_iff] at h
      obtain ⟨w, hput, heq⟩ := h
      obtain ⟨u, hread, hput⟩ := Option.bind_eq_some_iff.mp hput
      obtain ⟨rfl, rfl⟩ := Prod.mk.inj heq
      have hw : w.quotedSeen = u.quotedSeen ∧ w.dfaState = u.dfaState := by
        unfold CdVars.put at hput
        split_ifs at hput <;> obtain rfl := Option.some.inj hput <;> exact ⟨rfl, rfl⟩
      refine .inr (.inr ⟨?_, rfl, ?_⟩)
      · cases hseen : v.quotedSeen with
        | true => exact .inl rfl
        | false => exact .inr ⟨fun h => hback ⟨h, hseen⟩, fun h => hquote ⟨h, hseen⟩⟩
      · rw [hw.1, hw.2]
        unfold Reads
        cases defaultUTF8 with
        | true =>
          rw [if_pos rfl] at hread
          unfold CdVars.utf8 at hread
          dsimp only at hread
          split at hread
          · exact nomatch hread
          next hne =>
            obtain rfl := Option.some.inj hread
            refine ⟨rfl, ?_⟩
            rw [if_pos rfl, endState, if_neg (by exact hne)]
            rfl
        | false =>
          rw [if_neg Bool.false_ne_true] at hread
          split at hread
          next hiso =>
            obtain rfl := Option.some.inj hread
            exact ⟨rfl, rfl, fun x hx => List.mem_singleton.mp hx ▸ hiso⟩
          · exact nomatch hread

/-- What is left of a quoted string, with the backslash that may stand in front of it. -/
theorem of_cdScan_quoted (h : cdScan defaultUTF8 destlen .quotedString v s = some r) :
    ∃ q rest, (if v.quotedSeen then backslash :: s else s) =
      ParmValue.renderQuoted q ++ quote :: rest ∧
        Quoted defaultUTF8 destlen v.dfaState q r rest := by
  induction s generalizing v with
  | nil => exact nomatch h
  | cons c s ih =>
    obtain ⟨st', v', hstep, hgo⟩ := of_cdScan_cons h
    rcases of_quotedStep hstep with ⟨rfl, hseen, rfl, rfl⟩ | ⟨rfl, hseen, rfl, haccept⟩ |
      ⟨hesc, rfl, hseen', hread⟩
    · obtain ⟨q, rest, hs, hquoted⟩ := ih hgo
      refine ⟨q, rest, ?_, hquoted⟩
      rw [hseen, if_neg Bool.false_ne_true, ← hs]
      rfl
    · refine ⟨[], s, by rw [hseen]; rfl, nofun, ⟨v.dfaState, ?_, haccept⟩,
        trails_of_idle (.inl rfl) hgo⟩
      unfold Reads
      split
      · rfl
      · exact ⟨rfl, nofun⟩
    · obtain ⟨q, rest, hs, hquoted⟩ := ih hgo
      rw [hseen', if_neg Bool.false_ne_true] at hs
      refine ⟨(v.quotedSeen, c) :: q, rest, ?_, quoted_cons hread hesc hquoted⟩
      rw [hs]
      cases v.quotedSeen <;> rfl

/-- Blanks, a value that is extended or not, and what may follow a value. -/
def HasValue (defaultUTF8 : Bool) (destlen : Nat) (r : Bytes × Option Bytes) (ext : Bool)
    (s : Bytes) : Prop :=
  ∃ (lead : Bytes) (value : ParmValue) (rest : Bytes), s = lead ++ (value.render ++ rest) ∧
    Blanks lead ∧ value.WF defaultUTF8 ∧ value.charset?.isSome = ext ∧
      Trails defaultUTF8 destlen r rest

theorem of_beforeValue (h : cdScan defaultUTF8 destlen .beforeValue v s = some r) :
    HasValue defaultUTF8 destlen r false s := by
  obtain ⟨lead, s, v, rfl, hlead, hhead, h⟩ := of_cdScan_span isLws (fun v c r hc hr => by
    obtain ⟨htoken, -, -, -, -, hquote, -⟩ := of_isLws hc
    have hstep : cdStep defaultUTF8 destlen .beforeValue v c = some (.beforeValue, v) :=
      (if_neg hquote).trans ((if_neg (by rw [htoken]; decide)).trans (if_pos hc))
    rw [hstep] at hr
    exact Option.some.inj hr ▸ rfl) h
  rcases s with _ | ⟨c, s⟩
  · cases h
  · obtain ⟨st', v', hstep, hgo⟩ := of_cdScan_cons h
    by_cases hquote : c = quote
    · obtain rfl := hquote
      have hopen : st' = .quotedString ∧ v'.quotedSeen = false ∧
          (defaultUTF8 = true → v'.dfaState = UTF8_ACCEPT) := by
        obtain ⟨rfl, rfl⟩ := Prod.mk.inj (Option.some.inj hstep)
        cases defaultUTF8 with
        | true => exact ⟨rfl, rfl, fun _ => rfl⟩
        | false => exact ⟨rfl, rfl, fun h => absurd h Bool.false_ne_true⟩
      obtain ⟨rfl, hseen, haccept⟩ := hopen
      obtain ⟨q, rest, hs, hq, ⟨d, hreads, hd⟩, htrails⟩ := of_cdScan_quoted hgo
      rw [hseen, if_neg Bool.false_ne_true] at hs
      refine ⟨lead, .quoted q, rest, ?_, hlead, ⟨?_, hq⟩, rfl, htrails⟩
      · rw [hs, ParmValue.render, List.cons_append, List.append_assoc, List.singleton_append]
      · unfold Reads at hreads
        unfold ParmValue.TextWF
        cases defaultUTF8 with
        | true =>
          rw [if_pos rfl, haccept rfl, hd rfl] at hreads
          exact utf8dfaAccepts_iff.mpr hreads
        | false => exact hreads.2
    · have htoken : inRFC2616HttpToken c = true := by
        by_contra hne
        have hnone : cdStep defaultUTF8 destlen .beforeValue v c = none :=
          (if_neg hquote).trans ((if_neg hne).trans (if_neg (by rw [hhead c rfl]; decide)))
        rw [hnone] at hstep
        cases hstep
      have hst : st' = .token := by
        have hput : cdStep defaultUTF8 destlen .beforeValue v c =
          (v.put destlen c).map (.token, ·) := (if_neg hquote).trans (if_pos htoken)
        rw [hput, Option.map_eq_some_iff] at hstep
        obtain ⟨w, -, heq⟩ := hstep
        exact (Prod.mk.inj heq).1.symm
      obtain rfl := hst
      obtain ⟨t, rest, rfl, ht, htrails⟩ := of_cdScan_token hgo
      exact ⟨lead, .token (c :: t), rest, rfl, hlead,
        ⟨List.cons_ne_nil c t, List.forall_mem_cons.mpr ⟨htoken, ht⟩⟩, rfl, htrails⟩

/-! ## Extended values -/

theorem readsExt_of_utf8 {v u : CdVars} (h : (if v.charset = .utf8 then v.utf8 c else some v) = some u) :
    u.charset = v.charset ∧ ReadsExt v.charset v.dfaState [c] u.dfaState := by
  unfold ReadsExt
  split at h
  next henc =>
    unfold CdVars.utf8 at h
    dsimp only at h
    split at h
    · exact nomatch h
    next hne =>
      obtain rfl := Option.some.inj h
      refine ⟨rfl, ?_⟩
      rw [if_pos henc, endState, if_neg (by exact hne)]
      rfl
  next henc =>
    obtain rfl := Option.some.inj h
    exact ⟨rfl, by rw [if_neg henc]⟩

theorem put_charset (h : v.put destlen c = some w) :
    w.charset = v.charset ∧ w.dfaState = v.dfaState := by
  unfold CdVars.put at h
  split_ifs at h <;> obtain rfl := Option.some.inj h <;> exact ⟨rfl, rfl⟩

/-- A turn within the characters of an extended value. -/
theorem of_valueStep (h : cdStep defaultUTF8 destlen .valueChars v c = some (st', v')) :
    (inRFC5987AttrChar c = true ∧ st' = .valueChars ∧ v'.charset = v.charset ∧
        ReadsExt v.charset v.dfaState [c] v'.dfaState) ∨
      (c = percent ∧ st' = .valueCharsPctEncoded1 ∧ v' = { v with pctval := 0 }) ∨
      ((c = semicolon ∧ st' = .beforeDispositionParmName ∨ isLws c = true ∧ st' = .afterValue) ∧
        (v.charset = .utf8 → v.dfaState = UTF8_ACCEPT)) := by
  unfold cdStep at h
  dsimp only at h
  split at h
  next hattr =>
    rw [Option.map_eq_some_iff] at h
    obtain ⟨w, hput, heq⟩ := h
    obtain ⟨u, hread, hput⟩ := Option.bind_eq_some_iff.mp hput
    obtain ⟨rfl, rfl⟩ := Prod.mk.inj heq
    obtain ⟨hcharset, hread⟩ := readsExt_of_utf8 hread
    obtain ⟨hcharset', hstate⟩ := put_charset hput
    exact .inl ⟨hattr, rfl, hcharset'.trans hcharset, hstate ▸ hread⟩
  next =>
    split at h
    next hpercent =>
      split at h
      · exact nomatch h
      · obtain ⟨rfl, rfl⟩ := Prod.mk.inj (Option.some.inj h)
        exact .inr (.inl ⟨hpercent, rfl, rfl⟩)
    next =>
      split at h
      next hend =>
        split at h
        · exact nomatch h
        next hstate =>
          obtain ⟨rfl, -⟩ := Prod.mk.inj (Option.some.inj h)
          refine .inr (.inr ⟨?_, fun hutf8 => not_not.mp fun hne => hstate ⟨hutf8, hne⟩⟩)
          obtain rfl | hlws := hend
          · exact .inl ⟨rfl, if_pos rfl⟩
          · exact .inr ⟨hlws, if_neg (of_isLws hlws).2.2.2.1⟩
      · exact nomatch h

/-- The first digit behind a percent sign. -/
theorem of_pctStep (h : cdStep defaultUTF8 destlen .valueCharsPctEncoded1 v c = some (st', v')) :
    Util.isHexDigit c = true ∧ st' = .valueCharsPctEncoded2 ∧
      v' = { v with pctval := v.pctval ||| (Util.hexCharToUInt c <<< 4) } := by
  unfold cdStep at h
  dsimp only at h
  split at h
  next hhex =>
    obtain ⟨rfl, rfl⟩ := Prod.mk.inj (Option.some.inj h)
    exact ⟨hhex, rfl, rfl⟩
  · exact nomatch h

/-- The two digits behind a percent sign. -/
theorem of_pctSteps {h l : UInt8} {st'' : Cd} {v'' : CdVars}
    (hfirst : cdStep defaultUTF8 destlen .valueCharsPctEncoded1 { v with pctval := 0 } h =
      some (st', v'))
    (hsecond : cdStep defaultUTF8 destlen st' v' l = some (st'', v'')) :
    (ExtChar.pct h l).WF v.charset ∧ st'' = .valueChars ∧ v''.charset = v.charset ∧
      ReadsExt v.charset v.dfaState [(ExtChar.pct h l).byte] v''.dfaState := by
  obtain ⟨hhex, rfl, rfl⟩ := of_pctStep hfirst
  have hbyte : ((0 : UInt8) ||| (Util.hexCharToUInt h <<< 4)) ||| Util.hexCharToUInt l =
      (ExtChar.pct h l).byte := by
    rw [UInt8.zero_or]
    rfl
  unfold cdStep at hsecond
  dsimp only at hsecond
  rw [hbyte] at hsecond
  split at hsecond
  next hhex' =>
    rw [Option.map_eq_some_iff] at hsecond
    obtain ⟨u, hread, heq⟩ := hsecond
    obtain ⟨rfl, rfl⟩ := Prod.mk.inj heq
    have hiso : v.charset = .iso88591 → isIso8859p1 (ExtChar.pct h l).byte = true := by
      intro henc
      rw [if_neg (by rw [henc]; decide), if_pos henc] at hread
      by_contra hne
      rw [if_neg hne] at hread
      exact nomatch hread
    have hutf8 : (if v.charset = .utf8 then
        ({ v with pctval := (ExtChar.pct h l).byte } : CdVars).utf8 (ExtChar.pct h l).byte
          else some { v with pctval := (ExtChar.pct h l).byte }) = some u := by
      rw [← hread]
      congr 1
      by_cases henc : v.charset = .iso88591
      · rw [if_pos henc, if_pos (hiso henc)]
      · rw [if_neg henc]
    obtain ⟨hcharset, hread⟩ :=
      readsExt_of_utf8 (v := { v with pctval := (ExtChar.pct h l).byte }) hutf8
    refine ⟨⟨hhex, hhex', hiso⟩, rfl, ?_, ?_⟩
    · split <;> exact hcharset
    · split <;> exact hread
  · exact nomatch hsecond

theorem readsExt_append {enc : CdEnc} {d d' d'' : UInt32} (h : ReadsExt enc d [c] d')
    (h' : ReadsExt enc d' s d'') : ReadsExt enc d (c :: s) d'' := by
  unfold ReadsExt at *
  split at h
  next henc =>
    rw [if_pos henc] at h' ⊢
    rw [endState] at h ⊢
    split at h
    · cases h
    next hne =>
      obtain rfl := Option.some.inj h
      rw [if_neg hne, h']
  next henc =>
    rw [if_neg henc] at h' ⊢
    exact h'.trans h

/-- The characters of an extended value. -/
theorem of_cdScan_chars (h : cdScan defaultUTF8 destlen .valueChars v s = some r) :
    ∃ chars rest, s = ParmValue.renderExt chars ++ rest ∧ (∀ x ∈ chars, x.WF v.charset) ∧
      (∃ d, ReadsExt v.charset v.dfaState (chars.map ExtChar.byte) d ∧
        (v.charset = .utf8 → d = UTF8_ACCEPT)) ∧ Trails defaultUTF8 destlen r rest := by
  have hnil : ReadsExt v.charset v.dfaState [] v.dfaState := by
    unfold ReadsExt
    split <;> rfl
  induction hn : s.length using Nat.strong_induction_on generalizing s v with
  | _ n ih =>
  obtain rfl := hn
  rcases s with _ | ⟨c, s⟩
  · refine ⟨[], [], rfl, nofun, ⟨_, hnil, fun hutf8 => ?_⟩, [], [], rfl, nofun, .inl rfl⟩
    by_contra hne
    exact nomatch (if_pos ⟨hutf8, hne⟩).symm.trans h
  · obtain ⟨st', v', hstep, hgo⟩ := of_cdScan_cons h
    rcases of_valueStep hstep with ⟨hattr, rfl, hcharset, hread⟩ | ⟨rfl, rfl, rfl⟩ | ⟨hend, haccept⟩
    · obtain ⟨chars, rest, rfl, hchars, ⟨d, hreads, hd⟩, htrails⟩ :=
        ih s.length (Nat.lt_succ_self _) hgo (by unfold ReadsExt; split <;> rfl) rfl
      rw [hcharset] at hchars hreads hd
      exact ⟨.attr c :: chars, rest, rfl, List.forall_mem_cons.mpr ⟨hattr, hchars⟩,
        ⟨d, readsExt_append hread hreads, hd⟩, htrails⟩
    · rcases s with _ | ⟨hi, _ | ⟨lo, s⟩⟩
      · exact nomatch hgo
      · obtain ⟨st1, v1, hfirst, hgo⟩ := of_cdScan_cons hgo
        obtain ⟨-, rfl, -⟩ := of_pctStep hfirst
        exact nomatch hgo
      · obtain ⟨st1, v1, hfirst, hgo⟩ := of_cdScan_cons hgo
        obtain ⟨st2, v2, hsecond, hgo⟩ := of_cdScan_cons hgo
        obtain ⟨hwf, rfl, hcharset, hread⟩ := of_pctSteps hfirst hsecond
        obtain ⟨chars, rest, rfl, hchars, ⟨d, hreads, hd⟩, htrails⟩ :=
          ih s.length (by simp only [List.length_cons]; omega) hgo
            (by unfold ReadsExt; split <;> rfl) rfl
        rw [hcharset] at hchars hreads hd
        exact ⟨.pct hi lo :: chars, rest, rfl, List.forall_mem_cons.mpr ⟨hwf, hchars⟩,
          ⟨d, readsExt_append hread hreads, hd⟩, htrails⟩
    · refine ⟨[], c :: s, rfl, nofun, ⟨_, hnil, haccept⟩, trails_of_value ?_ h⟩
      intro c' r' hr hmem
      obtain rfl : c = c' := Option.some.inj hmem
      rw [hstep] at hr
      obtain rfl := Option.some.inj hr
      exact hend.imp_right fun ⟨hlws, hst⟩ => ⟨hlws, .inl hst⟩

/-- The name of a character set, up to its apostrophe. -/
theorem of_cdScan_charset (h : cdScan defaultUTF8 destlen .charset v s = some r) :
    ∃ a s' w, s = a ++ apostrophe :: s' ∧
      (∀ c ∈ a, inRFC2978MIMECharset c = true ∧ c ≠ apostrophe) ∧
        w.charset = encOf (v.marked ++ a) ∧
          (encOf (v.marked ++ a) = .utf8 → w.dfaState = UTF8_ACCEPT) ∧
            cdScan defaultUTF8 destlen .language w s' = some r := by
  have hgo := h
  obtain ⟨a, rest, v', rfl, ha, hhead, hgo⟩ :=
    of_cdScan_span (fun c => inRFC2978MIMECharset c && c != apostrophe) (fun v c r hc hr => by
      obtain ⟨hmime, hne⟩ := Bool.and_eq_true_iff.mp hc
      have hstep : cdStep defaultUTF8 destlen .charset v c =
          some (.charset, { v with marked := v.marked ++ [c] }) :=
        (if_neg (bne_iff_ne.mp hne)).trans (if_pos hmime)
      rw [hstep] at hr
      exact Option.some.inj hr ▸ rfl) hgo
  have ha : ∀ c ∈ a, inRFC2978MIMECharset c = true ∧ c ≠ apostrophe := fun c hc =>
    ⟨(Bool.and_eq_true_iff.mp (ha c hc)).1, bne_iff_ne.mp (Bool.and_eq_true_iff.mp (ha c hc)).2⟩
  rcases rest with _ | ⟨c, s'⟩
  · exact nomatch hgo
  · obtain ⟨st', v'', hstep, -⟩ := of_cdScan_cons hgo
    have hapostrophe : c = apostrophe := by
      by_contra hne
      have hmime : inRFC2978MIMECharset c = false := by
        have := hhead c rfl
        rwa [Bool.and_eq_false_iff, or_iff_left (by simpa using hne)] at this
      have hnone : cdStep defaultUTF8 destlen .charset v' c = none :=
        (if_neg hne).trans (if_neg (by rw [hmime]; decide))
      rw [hnone] at hstep
      exact nomatch hstep
    obtain rfl := hapostrophe
    obtain ⟨code, d, hd, hscan⟩ := cdScan_charset defaultUTF8 destlen s' (v := v) ha
    exact ⟨a, s', _, rfl, ha, rfl, hd, hscan.symm.trans h⟩

theorem of_cdScan_language (h : cdScan defaultUTF8 destlen .language v s = some r) :
    ∃ a s' w, s = a ++ apostrophe :: s' ∧ (∀ c ∈ a, isLanguage c = true) ∧
      w.charset = v.charset ∧ w.dfaState = v.dfaState ∧
        cdScan defaultUTF8 destlen .valueChars w s' = some r := by
  have hgo := h
  obtain ⟨a, rest, v', rfl, ha, hhead, hgo⟩ := of_cdScan_span isLanguage (fun v c r hc hr => by
    have hne : c ≠ apostrophe := by
      rintro rfl
      exact absurd hc (by decide)
    have hstep : cdStep defaultUTF8 destlen .language v c = some (.language, v) :=
      (if_neg hne).trans (if_pos hc)
    rw [hstep] at hr
    exact Option.some.inj hr ▸ rfl) hgo
  rcases rest with _ | ⟨c, s'⟩
  · exact nomatch hgo
  · obtain ⟨st', v'', hstep, -⟩ := of_cdScan_cons hgo
    have hapostrophe : c = apostrophe := by
      by_contra hne
      have hnone : cdStep defaultUTF8 destlen .language v' c = none :=
        (if_neg hne).trans (if_neg (by rw [hhead c rfl]; decide))
      rw [hnone] at hstep
      exact nomatch hstep
    obtain rfl := hapostrophe
    refine ⟨a, s', _, rfl, ha, ?_, ?_, (cdScan_language ha).symm.trans h⟩
    · split <;> rfl
    · split <;> rfl

theorem of_beforeExtValue (h : cdScan defaultUTF8 destlen .beforeExtValue v s = some r) :
    HasValue defaultUTF8 destlen r true s := by
  obtain ⟨lead, s, v, rfl, hlead, hhead, h⟩ := of_cdScan_span isLws (fun v c r hc hr => by
    obtain ⟨-, hmime, -, -, -, -, hapostrophe, -⟩ := of_isLws hc
    have hstep : cdStep defaultUTF8 destlen .beforeExtValue v c = some (.beforeExtValue, v) :=
      (if_neg hapostrophe).trans ((if_neg (by rw [hmime]; decide)).trans (if_pos hc))
    rw [hstep] at hr
    exact Option.some.inj hr ▸ rfl) h
  rcases s with _ | ⟨c, s⟩
  · exact nomatch h
  · obtain ⟨st', v', hstep, hgo⟩ := of_cdScan_cons h
    have hc : c ≠ apostrophe ∧ inRFC2978MIMECharset c = true := by
      have hne : c ≠ apostrophe := fun heq => nomatch (if_pos heq).symm.trans hstep
      refine ⟨hne, ?_⟩
      by_contra hmime
      have hnone : cdStep defaultUTF8 destlen .beforeExtValue v c = none :=
        (if_neg hne).trans ((if_neg hmime).trans (if_neg (by rw [hhead c rfl]; decide)))
      exact nomatch hnone.symm.trans hstep
    have hv : st' = .charset ∧ v' = { v with marked := [c] } := by
      have heq := ((if_neg hc.1).trans (if_pos hc.2)).symm.trans hstep
      exact ⟨(Prod.mk.inj (Option.some.inj heq)).1.symm, (Prod.mk.inj (Option.some.inj heq)).2.symm⟩
    obtain ⟨rfl, rfl⟩ := hv
    obtain ⟨a, s, v1, rfl, ha, henc, hstate, hgo⟩ := of_cdScan_charset hgo
    obtain ⟨language, s, v2, rfl, hlanguage, henc2, hstate2, hgo⟩ := of_cdScan_language hgo
    obtain ⟨chars, rest, rfl, hchars, ⟨d, hreads, hd⟩, htrails⟩ := of_cdScan_chars hgo
    dsimp only at henc hstate
    rw [List.singleton_append] at henc hstate
    rw [henc2, henc] at hchars hreads hd
    refine ⟨lead, .ext (c :: a) language chars, rest, by simp [ParmValue.render], hlead,
      ⟨⟨List.cons_ne_nil c a, List.forall_mem_cons.mpr ⟨⟨hc.2, hc.1⟩, ha⟩⟩, hlanguage, hchars,
        fun hutf8 => ?_⟩, rfl, htrails⟩
    rw [ReadsExt, if_pos hutf8, hstate2, hstate hutf8, hd hutf8] at hreads
    exact utf8dfaAccepts_iff.mpr hreads

/-! ## Parameters -/

theorem of_cdParm {name : Bytes} (h : cdParm v name = some (st', v')) :
    st' = if DispositionParm.isExtName name then .beforeExtValue else .beforeValue := by
  unfold cdParm at h
  dsimp only at h
  split at h
  next hname =>
    rw [if_pos ((DispositionParm.isExtName_congr hname).mpr (by decide +kernel))]
    split at h
    · exact nomatch h
    · exact (Prod.mk.inj (Option.some.inj h)).1.symm
  next =>
    split at h
    next hname =>
      rw [if_neg (mt (DispositionParm.isExtName_congr hname).mp (by decide +kernel))]
      split_ifs at h <;> exact (Prod.mk.inj (Option.some.inj h)).1.symm
    next =>
      split at h
      next hext =>
        rw [if_pos (by exact hext)]
        exact (Prod.mk.inj (Option.some.inj h)).1.symm
      next hext =>
        rw [if_neg (by exact hext)]
        exact (Prod.mk.inj (Option.some.inj h)).1.symm

/-- A name, or the blanks behind it, end with an equals sign. -/
theorem of_nameStep {r : Cd × CdVars} (hst : st = .dispositionParmName ∧
      inRFC2616HttpToken c = false ∨ st = .afterDispositionParmName)
    (hlws : isLws c = false) (h : cdStep defaultUTF8 destlen st v c = some r) : c = equals := by
  by_contra hne
  have hnone : cdStep defaultUTF8 destlen st v c = none := by
    obtain ⟨rfl, htoken⟩ | rfl := hst
    · exact (if_neg hne).trans ((if_neg (by rw [hlws]; decide)).trans (if_pos (.inr htoken)))
    · exact (if_neg hne).trans ((if_neg (by rw [hlws]; decide)).trans (if_pos (.inl rfl)))
  exact nomatch hnone.symm.trans h

/-- A name up to its equals sign. -/
theorem of_parmName (h : cdScan defaultUTF8 destlen .beforeDispositionParmName v s = some r) :
    ∃ (before name gap s' : Bytes) (st' : Cd) (v w : CdVars),
      s = before ++ (name ++ (gap ++ equals :: s')) ∧ Blanks before ∧ name ≠ [] ∧
        (∀ c ∈ name, inRFC2616HttpToken c = true) ∧ Blanks gap ∧
          cdParm v (name ++ gap.dropLast) = some (st', w) ∧
            cdScan defaultUTF8 destlen st' w s' = some r := by
  obtain ⟨before, s, rfl, hbefore, hhead⟩ := exists_span isLws s
  rw [cdScan_before hbefore] at h
  rcases s with _ | ⟨c, s⟩
  · exact nomatch h
  · have hc : inRFC2616HttpToken c = true := by
      by_contra hne
      have hnone : cdStep defaultUTF8 destlen .beforeDispositionParmName v c = none :=
        (if_neg hne).trans (if_neg (by rw [hhead c rfl]; decide))
      rw [cdScan_none hnone] at h
      exact nomatch h
    have hstep : cdStep defaultUTF8 destlen .beforeDispositionParmName v c =
      some (.dispositionParmName, { v with marked := [c] }) := if_pos hc
    rw [cdScan_cons hstep] at h
    obtain ⟨a, s, rfl, ha, hhead⟩ := exists_span inRFC2616HttpToken s
    rw [cdScan_name ha] at h
    obtain ⟨gap, s, rfl, hgap, hhead'⟩ := exists_span isLws s
    have hname : ∀ x ∈ c :: a, inRFC2616HttpToken x = true := List.forall_mem_cons.mpr ⟨hc, ha⟩
    by_cases hnil : gap = []
    · obtain rfl := hnil
      rcases s with _ | ⟨e, s⟩
      · exact nomatch h
      · obtain ⟨st', w, hstep, hgo⟩ := of_cdScan_cons h
        obtain rfl := of_nameStep (.inl ⟨rfl, hhead e rfl⟩) (hhead' e rfl) hstep
        have hparm : cdParm { v with marked := c :: a } (c :: a ++ List.dropLast []) =
            some (st', w) := by
          rw [List.dropLast_nil, List.append_nil]
          exact hstep
        exact ⟨before, c :: a, [], s, st', _, w, rfl, hbefore, List.cons_ne_nil c a, hname, hgap,
          hparm, hgo⟩
    · rw [cdScan_gap hgap hnil (.inl rfl)] at h
      rcases s with _ | ⟨e, s⟩
      · exact nomatch h
      · obtain ⟨st', w, hstep, hgo⟩ := of_cdScan_cons h
        obtain rfl := of_nameStep (.inr rfl) (hhead' e rfl) hstep
        exact ⟨before, c :: a, gap, s, st', _, w, rfl, hbefore, List.cons_ne_nil c a, hname, hgap,
          hstep, hgo⟩

/-- A parameter, and what may follow it. -/
theorem of_parm (h : cdScan defaultUTF8 destlen .beforeDispositionParmName v s = some r) :
    ∃ (x : DispositionParm) (rest : Bytes), s = x.render ++ rest ∧ x.WF defaultUTF8 ∧
      Ends defaultUTF8 destlen r rest := by
  obtain ⟨before, name, gap, s, st', v, w, rfl, hbefore, hne, hname, hgap, hparm, hgo⟩ :=
    of_parmName h
  have hvalue : HasValue defaultUTF8 destlen r
      (decide (DispositionParm.isExtName (name ++ gap.dropLast))) s := by
    obtain rfl := of_cdParm hparm
    by_cases hext : DispositionParm.isExtName (name ++ gap.dropLast)
    · rw [if_pos hext] at hgo
      rw [decide_eq_true hext]
      exact of_beforeExtValue hgo
    · rw [if_neg hext] at hgo
      rw [decide_eq_false hext]
      exact of_beforeValue hgo
  obtain ⟨lead, value, rest, rfl, hlead, hwf, hform, trail, rest, rfl, htrail, hends⟩ := hvalue
  refine ⟨⟨before, name, gap, lead, value, trail⟩, rest, by simp [DispositionParm.render],
    ⟨hbefore, hne, hname, hgap, hlead, hwf, ?_, htrail⟩, hends⟩
  rw [hform, decide_eq_true_iff]
  rfl

/-- Parameters up to the end of the header. -/
theorem of_ends (h : Ends defaultUTF8 destlen r rest) :
    ∃ parms, rest = renderParms parms ∧ ∀ x ∈ parms, x.WF defaultUTF8 := by
  induction hn : rest.length using Nat.strong_induction_on generalizing rest with
  | _ n ih =>
  obtain rfl := hn
  obtain rfl | ⟨s, v, rfl, hgo⟩ := h
  · exact ⟨[], rfl, nofun⟩
  · obtain ⟨x, rest, rfl, hx, hends⟩ := of_parm hgo
    obtain ⟨parms, rfl, hparms⟩ := ih rest.length
      (by rw [List.length_cons, List.length_append]; omega) hends rfl
    exact ⟨x :: parms, rfl, List.forall_mem_cons.mpr ⟨hx, hparms⟩⟩

/-- A header that is accepted is blank, or a type and parameters. -/
theorem of_parse (h : parseContentDisposition defaultUTF8 destlen s = some r) :
    Blanks s ∨ ∃ d : Header, d.WF defaultUTF8 ∧ d.render = s := by
  obtain ⟨before, s, v, rfl, hbefore, hhead, h⟩ := of_cdScan_span isLws (fun v c r hc hr => by
    have hstep : cdStep defaultUTF8 destlen .beforeDispositionType v c =
        some (.beforeDispositionType, v) :=
      (if_neg (by rw [(of_isLws hc).1]; decide)).trans (if_pos hc)
    rw [hstep] at hr
    exact Option.some.inj hr ▸ rfl) h
  rcases s with _ | ⟨c, s⟩
  · exact .inl (by rwa [List.append_nil])
  · right
    obtain ⟨st', v', hstep, hgo⟩ := of_cdScan_cons h
    have hc : inRFC2616HttpToken c = true := by
      by_contra hne
      have hnone : cdStep defaultUTF8 destlen .beforeDispositionType v c = none :=
        (if_neg hne).trans (if_neg (by rw [hhead c rfl]; decide))
      exact nomatch hnone.symm.trans hstep
    obtain rfl : Cd.dispositionType = st' :=
      (Prod.mk.inj (Option.some.inj ((if_pos hc).symm.trans hstep))).1
    obtain ⟨a, s, v, rfl, ha, hhead, hgo⟩ := of_cdScan_span inRFC2616HttpToken
      (fun v c r hc hr => by
        obtain ⟨hsemicolon, -, -, hlws⟩ := of_token hc
        have hstay : cdStep defaultUTF8 destlen .dispositionType v c = some (.dispositionType, v) :=
          (if_neg hsemicolon).trans ((if_neg (by rw [hlws]; decide)).trans
            (if_neg (by rw [hc]; simp)))
        rw [hstay] at hr
        exact Option.some.inj hr ▸ rfl) hgo
    have htrails : Trails defaultUTF8 destlen r s := by
      refine trails_of_value (fun c r hr hmem => ?_) hgo
      have hstep : cdStep defaultUTF8 destlen .dispositionType v c =
          if c = semicolon then some (.beforeDispositionParmName, v)
          else if isLws c then some (.afterDispositionType, v) else none := by
        unfold cdStep
        simp [hhead c hmem]
      rw [hstep] at hr
      split at hr
      next hsemicolon => exact .inl ⟨hsemicolon, Option.some.inj hr ▸ rfl⟩
      next =>
        split at hr
        next hlws => exact .inr ⟨hlws, .inr (Option.some.inj hr ▸ rfl)⟩
        · exact nomatch hr
    obtain ⟨after, rest, rfl, hafter, hends⟩ := htrails
    obtain ⟨parms, rfl, hparms⟩ := of_ends hends
    exact ⟨⟨before, c :: a, after, parms⟩, ⟨hbefore, List.cons_ne_nil c a,
      List.forall_mem_cons.mpr ⟨hc, ha⟩, hafter, hparms⟩, by simp [Header.render]⟩

end FluxCore.Http.Disposition
