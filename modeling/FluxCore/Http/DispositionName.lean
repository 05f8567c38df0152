import FluxCore.Http.AcceptedDisposition
import FluxCore.Torrent.Names

/-!
# The name that is returned

What the parser finds is the value of the chosen parameter and a character set. The character set is
that of the last extended parameter, whatever its name.
-/

namespace FluxCore.Http.Disposition

open Utp (Bytes)
open Torrent (detectDirTraversal detectDirTraversal_eq_false_iff isControl slash dot dotDot)

/-! ## Safe names -/

/-- A name that is not rejected. -/
def Safe (s : Bytes) : Prop := detectDirTraversal s = false ∧ slash ∉ s ∧ backslash ∉ s

instance (s : Bytes) : Decidable (Safe s) := inferInstanceAs (Decidable (_ ∧ _))

/-- What is returned for the value and the character set that are found. -/
def nameOf (defaultUTF8 : Bool) (cdval : Bytes) (charset : Option Bytes) : Bytes :=
  let res := if isIso charset defaultUTF8 then iso8859p1ToUtf8 cdval else cdval
  if Safe res then res else []

/-- A character that no safe name has. -/
def isBad (c : UInt8) : Bool := isControl c || c == slash || c == backslash

variable {s : Bytes} {c : UInt8}

theorem safe_iff : Safe s ↔ (∀ c ∈ s, isBad c = false) ∧ s ≠ dot ∧ s ≠ dotDot := by
  have hbad : (∀ c ∈ s, isBad c = false) ↔
      (∀ c ∈ s, isControl c = false) ∧ slash ∉ s ∧ backslash ∉ s := by
    simp only [isBad, Bool.or_eq_false_iff, beq_eq_false_iff_ne]
    constructor
    · exact fun h => ⟨fun c hc => (h c hc).1.1, fun hc => (h _ hc).1.2 rfl, fun hc => (h _ hc).2 rfl⟩
    · rintro ⟨h1, h2, h3⟩ c hc
      exact ⟨⟨h1 c hc, fun h => h2 (h ▸ hc)⟩, fun h => h3 (h ▸ hc)⟩
  rw [hbad]
  by_cases hs : s = []
  · obtain rfl := hs
    exact iff_of_true ⟨rfl, List.not_mem_nil, List.not_mem_nil⟩
      ⟨⟨nofun, List.not_mem_nil, List.not_mem_nil⟩, nofun, nofun⟩
  · rw [Safe, detectDirTraversal_eq_false_iff hs]
    constructor
    · rintro ⟨⟨hctl, hdot, hdotDot, -⟩, hslash, hback⟩
      rw [List.splitOn_eq_singleton hslash, List.mem_singleton] at hdot hdotDot
      exact ⟨⟨hctl, hslash, hback⟩, Ne.symm hdot, Ne.symm hdotDot⟩
    · rintro ⟨⟨hctl, hslash, hback⟩, hdot, hdotDot⟩
      rw [List.splitOn_eq_singleton hslash, List.mem_singleton, List.mem_singleton]
      exact ⟨⟨hctl, Ne.symm hdot, Ne.symm hdotDot, fun h => hslash (List.mem_of_mem_head? h),
        fun h => hslash (List.mem_of_mem_getLast? h)⟩, hslash, hback⟩

theorem safe_nil : Safe [] := by decide

theorem safe_nameOf {defaultUTF8 : Bool} {charset : Option Bytes} :
    Safe (nameOf defaultUTF8 s charset) := by
  unfold nameOf
  dsimp only
  generalize (if isIso charset defaultUTF8 then iso8859p1ToUtf8 s else s) = res
  split
  next h => exact h
  next => exact safe_nil

/-! ## ISO/IEC 8859-1 -/

/-- A character that is not in ISO/IEC 8859-1. -/
def isC1 (c : UInt8) : Bool := 0x80 ≤ c && c ≤ 0x9f

/-- The two bytes of a character that is not in ASCII, or the character. -/
def isoBytes (c : UInt8) : Bytes :=
  if 0xa0 ≤ c then [if c ≤ 0xbf then 0xc2 else 0xc3, c &&& ~~~0x40] else [c]

/-- A table over all bytes. -/
theorem forall_byte {P : UInt8 → Prop} (h : ∀ k : Fin 256, P (UInt8.ofFin k)) (c : UInt8) : P c :=
  h c.toFin

theorem isoBytes_of_lt (h : c < 0x80) : isoBytes c = [c] := by
  refine if_neg fun hle => ?_
  simp only [UInt8.lt_iff_toNat_lt, UInt8.le_iff_toNat_le, UInt8.toNat_ofNat] at h hle
  omega

theorem isoBytes_of_le (h : 0xa0 ≤ c) :
    (isoBytes c).length = 2 ∧ ∀ x ∈ isoBytes c, 0x80 ≤ x := by
  have hsecond : 0xa0 ≤ c → 0x80 ≤ c &&& ~~~(0x40 : UInt8) :=
    forall_byte (P := fun c => 0xa0 ≤ c → 0x80 ≤ c &&& ~~~(0x40 : UInt8)) (by decide +kernel) c
  rw [isoBytes, if_pos h]
  refine ⟨rfl, fun x hx => ?_⟩
  obtain rfl | hx := List.mem_cons.mp hx
  · split <;> decide
  · exact List.mem_singleton.mp hx ▸ hsecond h

theorem of_isBad (h : isBad c = true) : c < 0x80 := by
  simp only [isBad, isControl, slash, backslash, Bool.or_eq_true, beq_iff_eq] at h
  simp [UInt8.lt_iff_toNat_lt, UInt8.le_iff_toNat_le, ← UInt8.toNat_inj] at h ⊢
  omega

theorem iso8859p1ToUtf8_eq (s : Bytes) :
    iso8859p1ToUtf8 s = if s.any isC1 then [] else s.flatMap isoBytes := rfl

/-- A character that is not in ASCII, and not one that is not in ISO/IEC 8859-1. -/
theorem le_of_isC1 (h : 0x80 ≤ c) (hc : isC1 c = false) : 0xa0 ≤ c := by
  simp [isC1, UInt8.le_iff_toNat_le] at h hc ⊢
  omega

theorem flatMap_isoBytes (h : ∀ c ∈ s, c < 0x80) : s.flatMap isoBytes = s := by
  induction s with
  | nil => rfl
  | cons c s ih =>
    obtain ⟨hc, hs⟩ := List.forall_mem_cons.mp h
    rw [List.flatMap_cons, isoBytes_of_lt hc, ih hs, List.singleton_append]

theorem length_le_isoBytes (c : UInt8) : 1 ≤ (isoBytes c).length := by
  unfold isoBytes
  split <;> simp

theorem length_le_flatMap_isoBytes (s : Bytes) : s.length ≤ (s.flatMap isoBytes).length := by
  induction s with
  | nil => exact le_rfl
  | cons c s ih =>
    have := length_le_isoBytes c
    rw [List.flatMap_cons, List.length_append, List.length_cons]
    omega

theorem length_flatMap_isoBytes (hc : c ∈ s) (hle : 0xa0 ≤ c) :
    s.length < (s.flatMap isoBytes).length := by
  induction s with
  | nil => exact nomatch hc
  | cons x s ih =>
    have hs := length_le_flatMap_isoBytes s
    rw [List.flatMap_cons, List.length_append, List.length_cons]
    rcases List.mem_cons.mp hc with rfl | hc
    · have := (isoBytes_of_le hle).1
      omega
    · have := ih hc
      have := length_le_isoBytes x
      omega

/-- The conversion keeps names safe and unsafe. -/
theorem safe_flatMap_isoBytes (h : ∀ c ∈ s, isC1 c = false) :
    Safe (s.flatMap isoBytes) ↔ Safe s := by
  by_cases hascii : ∀ c ∈ s, c < 0x80
  · rw [flatMap_isoBytes hascii]
  · push Not at hascii
    obtain ⟨b, hb, hge⟩ := hascii
    have hle : 0xa0 ≤ b := le_of_isC1 (UInt8.not_lt.mp hge) (h b hb)
    have hmem : (∀ c ∈ s.flatMap isoBytes, isBad c = false) ↔ ∀ c ∈ s, isBad c = false := by
      constructor
      · intro hbad c hc
        by_contra hne
        have hlt := of_isBad (by simpa using hne)
        refine hne (hbad c (List.mem_flatMap.mpr ⟨c, hc, ?_⟩))
        rw [isoBytes_of_lt hlt]
        exact List.mem_singleton_self c
      · intro hbad x hx
        obtain ⟨c, hc, hx⟩ := List.mem_flatMap.mp hx
        by_cases hlt : c < 0x80
        · rw [isoBytes_of_lt hlt, List.mem_singleton] at hx
          exact hx ▸ hbad c hc
        · have hx := (isoBytes_of_le (le_of_isC1 (UInt8.not_lt.mp hlt) (h c hc))).2 x hx
          exact Bool.eq_false_iff.mpr fun hbad => absurd (of_isBad hbad) (UInt8.not_lt.mpr hx)
    have hne : ∀ t : Bytes, (∀ x ∈ t, x < 0x80) → s ≠ t ∧ s.flatMap isoBytes ≠ t := by
      refine fun t ht => ⟨fun heq => absurd (ht b (heq ▸ hb)) hge, fun heq => ?_⟩
      obtain ⟨x, hx⟩ : ∃ x, x ∈ isoBytes b :=
        List.exists_mem_of_length_pos (by rw [(isoBytes_of_le hle).1]; decide)
      have hmem : x ∈ t := heq ▸ List.mem_flatMap.mpr ⟨b, hb, hx⟩
      exact absurd (ht x hmem) (UInt8.not_lt.mpr ((isoBytes_of_le hle).2 x hx))
    have hdot := hne dot (by simp [dot])
    have hdotDot := hne dotDot (by simp [dotDot])
    rw [safe_iff, safe_iff, hmem]
    exact and_congr_right fun _ => iff_of_true ⟨hdot.2, hdotDot.2⟩ ⟨hdot.1, hdotDot.1⟩

section

variable {defaultUTF8 : Bool} {a b : Option Bytes}

theorem nameOf_plain (h : isIso a defaultUTF8 = false) :
    nameOf defaultUTF8 s a = if Safe s then s else [] := by
  rw [nameOf, h]
  rfl

theorem nameOf_iso (h : isIso a defaultUTF8 = true) (hsafe : Safe s)
    (hall : ∀ c ∈ s, isC1 c = false) : nameOf defaultUTF8 s a = s.flatMap isoBytes := by
  have hany : ¬s.any isC1 = true := by
    rw [List.any_eq_true]
    rintro ⟨c, hc, hc1⟩
    exact Bool.false_ne_true ((hall c hc).symm.trans hc1)
  rw [nameOf, h, if_pos rfl, iso8859p1ToUtf8_eq, if_neg hany,
    if_pos ((safe_flatMap_isoBytes hall).mpr hsafe)]

theorem nameOf_iso_nil (h : isIso a defaultUTF8 = true)
    (hnot : ¬(Safe s ∧ ∀ c ∈ s, isC1 c = false)) : nameOf defaultUTF8 s a = [] := by
  rw [nameOf, h, if_pos rfl, iso8859p1ToUtf8_eq]
  by_cases hany : s.any isC1 = true
  · rw [if_pos hany, if_pos safe_nil]
  · have hall : ∀ c ∈ s, isC1 c = false := fun c hc =>
      Bool.eq_false_iff.mpr fun h => hany (List.any_eq_true.mpr ⟨c, hc, h⟩)
    rw [if_neg hany, if_neg fun hsafe => hnot ⟨(safe_flatMap_isoBytes hall).mp hsafe, hall⟩]

/-- Where the conversion makes a difference. -/
theorem nameOf_eq_iff : nameOf defaultUTF8 s a = nameOf defaultUTF8 s b ↔
    isIso a defaultUTF8 = isIso b defaultUTF8 ∨ (∀ c ∈ s, c < 0x80) ∨ ¬ Safe s := by
  by_cases hsame : isIso a defaultUTF8 = isIso b defaultUTF8
  · refine iff_of_true ?_ (.inl hsame)
    rw [nameOf, nameOf, hsame]
  rw [or_iff_right hsame]
  suffices hboth : ∀ a b, isIso a defaultUTF8 = true → isIso b defaultUTF8 = false →
      (nameOf defaultUTF8 s a = nameOf defaultUTF8 s b ↔ (∀ c ∈ s, c < 0x80) ∨ ¬ Safe s) by
    cases ha : isIso a defaultUTF8 <;> cases hb : isIso b defaultUTF8
    · exact absurd (ha.trans hb.symm) hsame
    · rw [eq_comm]
      exact hboth b a hb ha
    · exact hboth a b ha hb
    · exact absurd (ha.trans hb.symm) hsame
  intro a b ha hb
  rw [nameOf_plain hb]
  by_cases hsafe : Safe s
  · rw [if_pos hsafe, or_iff_left (not_not.mpr hsafe)]
    constructor
    · intro heq c hc
      by_contra hlt
      by_cases hall : ∀ c ∈ s, isC1 c = false
      · have hle := le_of_isC1 (UInt8.not_lt.mp hlt) (hall c hc)
        have hlen := length_flatMap_isoBytes hc hle
        rw [← nameOf_iso ha hsafe hall, heq] at hlen
        exact absurd hlen (lt_irrefl _)
      · rw [nameOf_iso_nil ha fun h => hall h.2] at heq
        exact absurd (heq ▸ hc) List.not_mem_nil
    · intro hascii
      have hall : ∀ c ∈ s, isC1 c = false := by
        intro c hc
        have hlt := hascii c hc
        exact Bool.eq_false_iff.mpr fun h =>
          absurd hlt (UInt8.not_lt.mpr (by simpa using (Bool.and_eq_true_iff.mp h).1))
      rw [nameOf_iso ha hsafe hall, flatMap_isoBytes hascii]
  · rw [if_neg hsafe, nameOf_iso_nil ha fun h => hsafe h.1]
    exact iff_of_true rfl (.inr hsafe)

theorem nameOf_eq_nil_iff : nameOf defaultUTF8 s a = [] ↔
    s = [] ∨ ¬ Safe s ∨ (isIso a defaultUTF8 = true ∧ ∃ c ∈ s, isC1 c = true) := by
  by_cases hsafe : Safe s
  · rw [or_iff_right (not_not.mpr hsafe)]
    cases hiso : isIso a defaultUTF8 with
    | false =>
      rw [nameOf_plain hiso, if_pos hsafe]
      simp
    | true =>
      rw [and_iff_right rfl]
      by_cases hall : ∀ c ∈ s, isC1 c = false
      · have hnone : ¬ ∃ c ∈ s, isC1 c = true := by
          rintro ⟨c, hc, h⟩
          exact Bool.false_ne_true ((hall c hc).symm.trans h)
        rw [nameOf_iso hiso hsafe hall, or_iff_left hnone]
        constructor
        · intro hnil
          have := length_le_flatMap_isoBytes s
          rw [hnil, List.length_nil, Nat.le_zero] at this
          exact List.eq_nil_of_length_eq_zero this
        · rintro rfl
          rfl
      · have hsome : ∃ c ∈ s, isC1 c = true := by
          by_contra hnone
          exact hall fun c hc => Bool.eq_false_iff.mpr fun h => hnone ⟨c, hc, h⟩
        exact iff_of_true (nameOf_iso_nil hiso fun h => hall h.2) (.inr hsome)
  · refine iff_of_true ?_ (.inr (.inl hsafe))
    cases hiso : isIso a defaultUTF8 with
    | false => rw [nameOf_plain hiso, if_neg hsafe]
    | true => exact nameOf_iso_nil hiso fun h => hsafe h.1

end

/-! ## The chosen parameter -/

/-- The first value of a kind. -/
def valueOf (kind : ParmKind) (parms : List DispositionParm) : Option Bytes :=
  (parms.find? (·.kind = kind)).map fun x => x.value.bytes

/-- The value that is chosen: that of `filename*`, or else that of `filename`. -/
def chosen (parms : List DispositionParm) : Bytes :=
  ((valueOf .extFilename parms).or (valueOf .filename parms)).getD []

/-- The last character set. -/
def lastCharset (parms : List DispositionParm) : Option Bytes :=
  parms.foldl (fun charset x => x.value.charset?.or charset) none

theorem valueOf_cons_self (x : DispositionParm) (parms : List DispositionParm) :
    valueOf x.kind (x :: parms) = some x.value.bytes := by
  simp [valueOf]

theorem valueOf_cons_ne {kind : ParmKind} {x : DispositionParm} (h : x.kind ≠ kind)
    (parms : List DispositionParm) : valueOf kind (x :: parms) = valueOf kind parms := by
  simp [valueOf, h]

theorem foldl_charset (charset : Option Bytes) (parms : List DispositionParm) :
    parms.foldl (fun charset x => x.value.charset?.or charset) charset =
      (lastCharset parms).or charset := by
  induction parms generalizing charset with
  | nil => rfl
  | cons x parms ih =>
    rw [lastCharset, List.foldl_cons, List.foldl_cons, ih, ih (x.value.charset?.or none),
      Option.or_none, Option.or_assoc]

theorem lastCharset_cons (x : DispositionParm) (parms : List DispositionParm) :
    lastCharset (x :: parms) = (lastCharset parms).or x.value.charset? := by
  rw [lastCharset, List.foldl_cons, foldl_charset, Option.or_none]

theorem lastCharset_append (ps qs : List DispositionParm) :
    lastCharset (ps ++ qs) = (lastCharset qs).or (lastCharset ps) := by
  rw [lastCharset, List.foldl_append, foldl_charset]
  rfl

section

variable {defaultUTF8 : Bool} {destlen : Nat} {a b : Found} {parms : List DispositionParm}

/-- The character set in front of parameters shows up behind them only. -/
theorem effects_charsetp (hparms : ∀ x ∈ parms, x.WF defaultUTF8) (charset : Option Bytes) :
    effects destlen { a with charsetp := charset } parms = (effects destlen a parms).map fun b =>
      { b with charsetp := (lastCharset parms).or charset } := by
  induction parms generalizing a charset with
  | nil => rfl
  | cons x parms ih =>
    obtain ⟨hx, hparms⟩ := List.forall_mem_cons.mp hparms
    have hone : x.effect destlen { a with charsetp := charset } =
        (x.effect destlen a).map fun b => { b with charsetp := x.value.charset?.or charset } := by
      have hcharset := hx.charset?
      unfold DispositionParm.effect
      rcases hkind : x.kind with _ | _ | _ <;> rw [hkind] at hcharset <;> dsimp only at hcharset ⊢
      · split_ifs <;> simp [hcharset]
      · obtain ⟨c, hc⟩ := Option.isSome_iff_exists.mp hcharset
        split_ifs <;> simp [hc]
      · rfl
    rw [effects, effects, hone]
    rcases x.effect destlen a with _ | b
    · rfl
    · rw [Option.map_some, Option.bind_some, Option.bind_some, ih hparms, lastCharset_cons,
        Option.or_assoc]

theorem charsetp_eq (hparms : ∀ x ∈ parms, x.WF defaultUTF8)
    (h : effects destlen a parms = some b) : b.charsetp = (lastCharset parms).or a.charsetp := by
  have heq : effects destlen a parms = (effects destlen a parms).map fun b =>
      { b with charsetp := (lastCharset parms).or a.charsetp } := effects_charsetp hparms a.charsetp
  rw [h, Option.map_some] at heq
  exact congrArg Found.charsetp (Option.some.inj heq)

/-- What is in the buffer behind parameters. -/
theorem dest_eq (h : effects destlen a parms = some b) : b.dest =
    if a.extFilename then a.dest
    else (valueOf .extFilename parms).getD
      (if a.filename then a.dest else (valueOf .filename parms).getD a.dest) := by
  induction parms generalizing a with
  | nil =>
    obtain rfl := Option.some.inj h
    simp [valueOf]
  | cons x parms ih =>
    obtain ⟨c, hc, h⟩ := Option.bind_eq_some_iff.mp h
    rw [ih h]
    unfold DispositionParm.effect at hc
    rcases hkind : x.kind with _ | _ | _ <;> rw [hkind] at hc <;> dsimp only at hc
    · have hself := valueOf_cons_self x parms
      rw [hkind] at hself
      rw [valueOf_cons_ne (by rw [hkind]; decide), hself]
      split_ifs at hc with hfile hext hlong
      · obtain rfl := Option.some.inj hc
        rw [if_pos hext, if_pos hext]
      · obtain rfl := Option.some.inj hc
        rw [if_neg hext, if_neg hfile]
        dsimp only
        rw [if_neg hext, if_pos rfl, Option.getD_some]
    · have hself := valueOf_cons_self x parms
      rw [hkind] at hself
      rw [hself]
      split_ifs at hc with hrefused
      obtain rfl := Option.some.inj hc
      rw [if_neg fun hext => hrefused (.inl hext)]
      rfl
    · rw [valueOf_cons_ne (by rw [hkind]; decide), valueOf_cons_ne (by rw [hkind]; decide)]
      obtain rfl := Option.some.inj hc
      rfl

theorem extFilename_eq (h : effects destlen a parms = some b) :
    b.extFilename = (a.extFilename || parms.any (·.kind = .extFilename)) := by
  induction parms generalizing a with
  | nil =>
    obtain rfl := Option.some.inj h
    simp
  | cons x parms ih =>
    obtain ⟨c, hc, h⟩ := Option.bind_eq_some_iff.mp h
    rw [ih h, List.any_cons]
    unfold DispositionParm.effect at hc
    rcases hkind : x.kind with _ | _ | _ <;> rw [hkind] at hc <;> dsimp only at hc
    · split_ifs at hc <;> obtain rfl := Option.some.inj hc <;> simp
    · split_ifs at hc
      obtain rfl := Option.some.inj hc
      simp
    · obtain rfl := Option.some.inj hc
      simp

/-- The value and the character set that are found. -/
theorem found_eq (hparms : ∀ x ∈ parms, x.WF defaultUTF8) (h : effects destlen {} parms = some b) :
    b.dest = chosen parms ∧ b.charsetp = lastCharset parms := by
  constructor
  · rw [dest_eq h, if_neg Bool.false_ne_true, if_neg Bool.false_ne_true, chosen]
    cases valueOf .extFilename parms <;> rfl
  · rw [charsetp_eq hparms h, Option.or_none]

/-- A parameter that is no file name only leaves its character set. -/
theorem effects_insert {ps qs : List DispositionParm} {x : DispositionParm}
    (hqs : ∀ y ∈ qs, y.WF defaultUTF8) (hx : x.kind = .other) :
    effects destlen a (ps ++ x :: qs) = (effects destlen a (ps ++ qs)).map fun b =>
      { b with charsetp := (lastCharset qs).or (x.value.charset?.or
        ((effects destlen a ps).bind Found.charsetp)) } := by
  rw [effects_append, effects_append]
  rcases effects destlen a ps with _ | c
  · rfl
  · have hone : x.effect destlen c = some { c with charsetp := x.value.charset?.or c.charsetp } := by
      rw [DispositionParm.effect, hx]
    rw [Option.bind_some, Option.bind_some, effects, hone, Option.bind_some, effects_charsetp hqs]
    rfl

end

end FluxCore.Http.Disposition
