import FluxCore.Uri.Grammar

/-!
# The authority of a URI

Up to the first colon the scan does not know whether it reads a user or a host, and up to the next
at-mark not whether it reads a password or a port. `scan_authority` and `authority_of_scan` say that
it reads the authorities that are well formed, and no others.
-/

namespace FluxCore.Uri

open Utp (Bytes)
open Torrent (slash)
open Util (isDigit)

variable {m r : Marks} {p : Nat} {c : UInt8} {s : Bytes}

/-! ## The parts -/

/-- A character that goes on with what is a user or a host. -/
def isUser (c : UInt8) : Bool := c != colon && c != lbracket && !isEnd c

/-- A character that goes on with a password. -/
def isPasswd (c : UInt8) : Bool := c != atmark && c != lbracket && !isEnd c

/-- What may stand behind the slashes: a user, or a host where `char` is one of a host. -/
structure FirstWF (char : UInt8 → Bool) (u : Bytes) : Prop where
  ne_nil : u ≠ []
  first : ∀ c ∈ u.head?, c ≠ atmark ∧ c ≠ colon ∧ c ≠ slash ∧ c ≠ lbracket
  chars : ∀ c ∈ u.tail, char c = true

structure PasswdWF (w : Bytes) : Prop where
  first : ∀ c ∈ w.head?, c ≠ atmark ∧ c ≠ slash
  chars : ∀ c ∈ w.tail, isPasswd c = true

/-- A character of a host that is not behind a password. -/
def isName (c : UInt8) : Bool := isUser c && c != atmark

/-- The user, and the password if there is one. -/
abbrev UserInfo := Option (Bytes × Option Bytes)

def renderUser : UserInfo → Bytes
  | none => []
  | some (u, w) => u ++ (Tail.part colon w ++ [atmark])

/-- The host behind `ui`. Behind a user without a password it may be empty, if `rest` is not. -/
def HostWF (ui : UserInfo) (ipv6 : Bool) (host rest : Bytes) : Prop :=
  match ipv6, ui with
  | true, _ => Ipv6WF host
  | false, none => FirstWF isName host
  | false, some (_, none) => (∀ c ∈ host, isName c = true) ∧ (host = [] → rest ≠ [])
  | false, some (_, some _) => NameWF host

def UserWF (ui : UserInfo) : Prop :=
  ∀ u w, ui = some (u, w) → FirstWF isUser u ∧ ∀ w' ∈ w, PasswdWF w'

/-- The pointers to a user and a password that begin at `p`. -/
def markUser (m : Marks) (p : Nat) : UserInfo → Marks
  | none => m
  | some (u, none) =>
    { m with
      userFirst := some p
      userLast := some (p + u.length)
      lastAtmark := some (p + u.length) }
  | some (u, some w) =>
    { m with
      userFirst := some p
      userLast := some (p + u.length)
      passwdFirst := some (p + u.length + 1)
      passwdLast := some (p + u.length + 1 + w.length)
      lastAtmark := some (p + u.length + 1 + w.length) }

/-! ## The scan of an authority -/

theorem isUser_iff : isUser c = true ↔ c ≠ colon ∧ c ≠ lbracket ∧ isEnd c = false := by
  simp [isUser, and_assoc]

theorem isPasswd_iff : isPasswd c = true ↔ c ≠ atmark ∧ c ≠ lbracket ∧ isEnd c = false := by
  simp [isPasswd, and_assoc]

theorem isName_iff : isName c = true ↔ isUser c = true ∧ c ≠ atmark := by simp [isName]

theorem scan_maybeUser {u : Bytes} (hu : ∀ c ∈ u, isUser c = true) (rest : Bytes) :
    scan .maybeUser m p (u ++ rest) = scan .maybeUser
      { m with lastAtmark := lastOf atmark m.lastAtmark p u } (p + u.length) rest := by
  induction u generalizing p m with
  | nil => rfl
  | cons c u ih =>
    obtain ⟨hc, hu⟩ := List.forall_mem_cons.mp hu
    obtain ⟨h1, h2, h3⟩ := isUser_iff.mp hc
    have hstep : step .maybeUser m p c =
        some (.maybeUser, { m with lastAtmark := if c = atmark then some p else m.lastAtmark }) := by
      by_cases hat : c = atmark
      · rw [if_pos hat]
        exact if_pos hat
      · rw [if_neg hat]
        exact (if_neg hat).trans ((if_neg h1).trans ((if_neg h2).trans (if_neg (by simp [h3]))))
    rw [List.cons_append, scan_cons hstep, ih hu, List.length_cons, Nat.add_right_comm,
      Nat.add_assoc]
    rfl

/-- The number is kept as long as what is read may be a port. -/
theorem step_maybePasswd (h : isPasswd c = true) : step .maybePasswd m p c =
    some (.maybePasswd, { m with
      port := if m.port ≠ -1 ∧ isDigit c = true ∧ addDigit m.port c ≤ uint16Max then
        addDigit m.port c else -1 }) := by
  obtain ⟨h1, h2, h3⟩ := isPasswd_iff.mp h
  refine (if_neg h1).trans ((if_neg h2).trans ((if_neg (by rw [h3]; decide)).trans ?_))
  by_cases hne : m.port ≠ -1
  · refine (if_pos hne).trans ?_
    by_cases hd : isDigit c = true
    · refine (if_pos hd).trans ?_
      dsimp only
      by_cases hle : addDigit m.port c ≤ uint16Max
      · rw [if_neg (not_lt.mpr hle), if_pos ⟨hne, hd, hle⟩]
      · rw [if_pos (not_le.mp hle), if_neg fun h => hle h.2.2]
    · refine (if_neg hd).trans ?_
      rw [if_neg fun h => hd h.2.1]
  · refine (if_neg hne).trans ?_
    rw [if_neg fun h => hne h.1, ← not_not.mp hne]

theorem isPasswd_of_isDigit (h : isDigit c = true) : isPasswd c = true := by
  refine isPasswd_iff.mpr ⟨?_, ?_, ?_⟩
  · rintro rfl
    exact absurd h (by decide)
  · rintro rfl
    exact absurd h (by decide)
  · exact Bool.eq_false_iff.mpr fun hend => by simp [not_isDigit_of_isEnd hend] at h

/-- The number of a port that turned out not to be a password. -/
theorem scan_maybePasswd_port (t : Tail) {ds : Bytes} (hds : ∀ d ∈ ds, isDigit d = true)
    (hport : 0 ≤ m.port) (hmax : ds.foldl addDigit m.port ≤ uint16Max) :
    scan .maybePasswd m p (ds ++ t.render) =
      some (t.mark (settlePort { m with port := ds.foldl addDigit m.port }) (p + ds.length)) := by
  induction ds generalizing m p with
  | nil =>
    have hne : m.port ≠ -1 := by omega
    have hfinish : finish .maybePasswd m p = some (settlePort m) := if_neg hne
    have hstep : ∀ c, isEnd c = true →
        step .maybePasswd m p c = some (leave (settlePort m) p c) := by
      intro c hc
      have h1 : c ≠ atmark := by rintro rfl; exact absurd hc (by decide)
      have h2 : c ≠ lbracket := by rintro rfl; exact absurd hc (by decide)
      exact (if_neg h1).trans ((if_neg h2).trans ((if_pos hc).trans (if_neg hne)))
    exact scan_leave hfinish hstep t
  | cons d ds ih =>
    obtain ⟨hd, hds⟩ := List.forall_mem_cons.mp hds
    have hnonneg : 0 ≤ addDigit m.port d := by
      have := digit_nonneg hd
      rw [addDigit]
      omega
    have hle : addDigit m.port d ≤ uint16Max := (le_foldl_addDigit hds hnonneg).trans hmax
    have hne : m.port ≠ -1 := by omega
    have hstep : step .maybePasswd m p d =
        some (.maybePasswd, { m with port := addDigit m.port d }) := by
      rw [step_maybePasswd (isPasswd_of_isDigit hd), if_pos ⟨hne, hd, hle⟩]
    rw [List.cons_append, scan_cons hstep, ih hds hnonneg hmax, List.length_cons,
      Nat.add_right_comm, Nat.add_assoc]
    rfl

/-- The pointers do not depend on the number of a port that turns out to be a password. -/
theorem scan_maybePasswd {w : Bytes} (hw : ∀ c ∈ w, isPasswd c = true) (rest : Bytes) :
    scan .maybePasswd m p (w ++ atmark :: rest) = scan .beforeHost { m with
      passwdLast := some (p + w.length), lastAtmark := some (p + w.length), port := -1 }
      (p + w.length + 1) rest := by
  induction w generalizing p m with
  | nil =>
    have hstep : step .maybePasswd m p atmark = some (.beforeHost, { m with
      passwdLast := some p, lastAtmark := some p, port := -1 }) := rfl
    exact scan_cons hstep
  | cons c w ih =>
    obtain ⟨hc, hw⟩ := List.forall_mem_cons.mp hw
    rw [List.cons_append, scan_cons (step_maybePasswd hc), ih hw, List.length_cons]
    rw [show p + 1 + w.length = p + (w.length + 1) by omega]

theorem scan_beforeMaybePasswd {w : Bytes} (hw : PasswdWF w) (rest : Bytes) (hm : m.port = -1) :
    scan .beforeMaybePasswd m p (w ++ atmark :: rest) = scan .beforeHost { m with
      passwdFirst := some p, passwdLast := some (p + w.length)
      lastAtmark := some (p + w.length) } (p + w.length + 1) rest := by
  match w, hw with
  | [], _ =>
    have hstep : step .beforeMaybePasswd m p atmark = some (.beforeHost, { m with
      passwdFirst := some p, passwdLast := some p, lastAtmark := some p }) := rfl
    exact scan_cons hstep
  | c :: w, ⟨hfirst, hchars⟩ =>
    obtain ⟨h1, h2⟩ := hfirst c rfl
    rw [List.tail_cons] at hchars
    obtain ⟨n, hstep⟩ : ∃ n, step .beforeMaybePasswd m p c =
        some (.maybePasswd, { m with passwdFirst := some p, port := n }) := by
      simp only [step, h1, h2, if_false]
      split
      · exact ⟨_, rfl⟩
      · exact ⟨m.port, rfl⟩
    rw [List.cons_append, scan_cons hstep, scan_maybePasswd hchars, List.length_cons]
    rw [show p + 1 + List.length w = p + (List.length w + 1) by omega, ← hm]

/-- The end of what turned out to be a user and a host, or only a host. -/
theorem scan_maybeUser_after {port : Option Bytes} (hport : ∀ ds ∈ port, PortWF ds) (t : Tail)
    (hm : m.port = -1) (hpasswd : m.passwdFirst = none ∧ m.passwdLast = none)
    (hempty : m.lastAtmark.map (· + 1) = some p → after port t ≠ []) :
    scan .maybeUser m p (after port t) =
      some (t.mark { settle m (some p) with port := portNumber port }
        (p + (Tail.part colon port).length)) := by
  have hend : ∀ c, isEnd c = true →
      step .maybeUser m p c = some (leave (settle m (some p)) p c) := by
    intro c hc
    have h1 : c ≠ atmark := by rintro rfl; exact absurd hc (by decide)
    have h2 : c ≠ colon := by rintro rfl; exact absurd hc (by decide)
    have h3 : c ≠ lbracket := by rintro rfl; exact absurd hc (by decide)
    exact (if_neg h1).trans ((if_neg h2).trans ((if_neg h3).trans (if_pos hc)))
  cases port with
  | none =>
    have hmark : { settle m (some p) with port := portNumber none } = settle m (some p) := by
      rw [portNumber, ← hm, settle]
      split <;> rfl
    have hhead := head_render t
    rw [hmark]
    change scan .maybeUser m p t.render = some (t.mark _ p)
    change _ → t.render ≠ [] at hempty
    rw [← scanTail_render]
    generalize t.render = s at hhead hempty ⊢
    cases s with
    | nil => exact if_neg fun h => hempty h rfl
    | cons c s =>
      have hc := hhead c rfl
      rw [scan, hend c hc, scanTail, if_pos hc]
  | some ds =>
    obtain ⟨hne, hdigits, hmax⟩ := hport ds rfl
    obtain ⟨d, ds, rfl⟩ := List.exists_cons_of_ne_nil hne
    obtain ⟨hd, hds⟩ := List.forall_mem_cons.mp hdigits
    have hfirst : addDigit 0 d = d.toNat - 0x30 := by rw [addDigit]; omega
    have hnonneg : 0 ≤ addDigit 0 d := by rw [hfirst]; exact digit_nonneg hd
    have hcolon : step .maybeUser m p colon =
      some (.beforeMaybePasswd, { m with userLast := some p }) := rfl
    have hdigit : step .beforeMaybePasswd { m with userLast := some p } (p + 1) d =
        some (.maybePasswd,
          { m with userLast := some p, passwdFirst := some (p + 1), port := addDigit 0 d }) := by
      have h1 : d ≠ atmark := by rintro rfl; exact absurd hd (by decide)
      have h2 : d ≠ slash := by rintro rfl; exact absurd hd (by decide)
      refine (if_neg h1).trans ((if_neg h2).trans ?_)
      rw [if_pos hd, hfirst]
    change scan .maybeUser m p (colon :: (d :: (ds ++ t.render))) = _
    rw [scan_cons hcolon, scan_cons hdigit, scan_maybePasswd_port t hds hnonneg hmax, Tail.part,
      List.length_cons, List.length_cons]
    have hsettle : settlePort { m with
        userLast := some p, passwdFirst := some (p + 1), port := ds.foldl addDigit (addDigit 0 d) } =
        { settle m (some p) with port := portNumber (some (d :: ds)) } := by
      rw [settlePort, settle, settle]
      dsimp only
      split <;> simp only [hpasswd, Option.map_some, Nat.add_sub_cancel] <;> rfl
    rw [hsettle]
    congr 2
    omega

/-- Nothing of the authority is known. -/
structure Blank (m : Marks) : Prop where
  port : m.port = -1
  passwd : m.passwdFirst = none ∧ m.passwdLast = none
  user : m.userFirst = none ∧ m.userLast = none
  atmark : m.lastAtmark = none
  ipv6addr : m.ipv6addr = false

/-- The first character of a user or a host. -/
theorem step_first {char : UInt8 → Bool} {u : Bytes} (h : FirstWF char (c :: u)) :
    step .beforeMaybeUser m p c = some (.maybeUser, { m with userFirst := some p }) := by
  obtain ⟨h1, h2, h3, h4⟩ := h.first c rfl
  exact (if_neg (by simp [h1, h2, h3])).trans (if_neg h4)

theorem isUser_of_isName {host : Bytes} (h : ∀ c ∈ host, isName c = true) :
    (∀ c ∈ host, isUser c = true) ∧ atmark ∉ host :=
  ⟨fun c hc => (isName_iff.mp (h c hc)).1, fun hmem => (isName_iff.mp (h atmark hmem)).2 rfl⟩

theorem isUser_atmark : isUser atmark = true := by decide

theorem scan_plain {host : Bytes} (hhost : FirstWF isName host) {port : Option Bytes}
    (hport : ∀ ds ∈ port, PortWF ds) (t : Tail) (hm : Blank m) :
    scan .beforeMaybeUser m p (host ++ after port t) =
      some (t.mark (markHost m p false host port)
        (p + host.length + (Tail.part colon port).length)) := by
  obtain ⟨c, host, rfl⟩ := List.exists_cons_of_ne_nil hhost.ne_nil
  have hchars : ∀ c ∈ host, isName c = true := hhost.chars
  obtain ⟨huser, hat⟩ := isUser_of_isName hchars
  have hafter := scan_maybeUser_after (m := { m with userFirst := some p, lastAtmark := none })
    (p := p + 1 + host.length) hport t hm.port hm.passwd nofun
  rw [List.cons_append, scan_cons (step_first hhost), scan_maybeUser huser, lastOf_of_not_mem hat,
    hm.atmark, hafter, List.length_cons, show p + 1 + host.length = p + (host.length + 1) by omega]
  simp only [settle, markHost, hm.ipv6addr, hm.user, hm.atmark, Bool.false_eq_true, if_false,
    List.length_cons]

theorem scan_user {u host : Bytes} (hu : FirstWF isUser u) (hhost : ∀ c ∈ host, isName c = true)
    {port : Option Bytes} {t : Tail} (hempty : host = [] → after port t ≠ [])
    (hport : ∀ ds ∈ port, PortWF ds) (hm : Blank m) :
    scan .beforeMaybeUser m p (u ++ atmark :: (host ++ after port t)) =
      some (t.mark (markHost (markUser m p (some (u, none))) (p + u.length + 1) false host port)
        (p + u.length + 1 + host.length + (Tail.part colon port).length)) := by
  obtain ⟨c, u, rfl⟩ := List.exists_cons_of_ne_nil hu.ne_nil
  have huser : ∀ c ∈ u, isUser c = true := hu.chars
  obtain ⟨hname, hat⟩ := isUser_of_isName hhost
  have hchars : ∀ c ∈ u ++ atmark :: host, isUser c = true :=
    List.forall_mem_append.mpr ⟨huser, List.forall_mem_cons.mpr ⟨isUser_atmark, hname⟩⟩
  have hlen : p + 1 + (u ++ atmark :: host).length = p + (c :: u).length + 1 + host.length := by
    rw [List.length_append, List.length_cons, List.length_cons]
    omega
  have hafter := scan_maybeUser_after
    (m := { m with userFirst := some p, lastAtmark := some (p + (c :: u).length) })
    (p := p + (c :: u).length + 1 + host.length) hport t hm.port hm.passwd fun h => by
      refine hempty (List.length_eq_zero_iff.mp ?_)
      have := Option.some.inj h
      dsimp only at this
      omega
  rw [List.cons_append, scan_cons (step_first hu), ← List.cons_append, ← List.append_assoc,
    scan_maybeUser hchars, lastOf_last hat, hlen,
    show p + 1 + u.length = p + (c :: u).length by rw [List.length_cons]; omega, hafter]
  simp only [settle, markHost, markUser, hm.ipv6addr, Bool.false_eq_true, if_false]

theorem scan_user_ipv6 {u host : Bytes} (hu : FirstWF isUser u) (hhost : Ipv6WF host)
    {port : Option Bytes} (hport : ∀ ds ∈ port, PortWF ds) (t : Tail) (hm : Blank m) :
    scan .beforeMaybeUser m p (u ++ atmark :: (renderHost true host ++ after port t)) =
      some (t.mark (markHost (markUser m p (some (u, none))) (p + u.length + 1) true host port)
        (p + u.length + 1 + (renderHost true host).length + (Tail.part colon port).length)) := by
  obtain ⟨c, u, rfl⟩ := List.exists_cons_of_ne_nil hu.ne_nil
  have huser : ∀ c ∈ u, isUser c = true := hu.chars
  have hchars : ∀ c ∈ u ++ [atmark], isUser c = true :=
    List.forall_mem_append.mpr ⟨huser, List.forall_mem_singleton.mpr isUser_atmark⟩
  have hstep : step .maybeUser
      { m with userFirst := some p, lastAtmark := some (p + (c :: u).length) }
      (p + (c :: u).length + 1) lbracket =
      some (.beforeIpv6host, markUser m p (some (c :: u, none))) := if_pos rfl
  have hhead : renderHost true host ++ after port t =
      lbracket :: (host ++ rbracket :: after port t) := by
    rw [renderHost, if_pos rfl, List.cons_append, List.append_assoc]
    rfl
  have hip := scan_beforeIpv6host (m := markUser m p (some (c :: u, none)))
    (p := p + (c :: u).length + 1) hhost hport t hm.port
  rw [hhead, List.cons_append, scan_cons (step_first hu),
    show u ++ atmark :: lbracket :: (host ++ rbracket :: after port t) =
      u ++ [atmark] ++ lbracket :: (host ++ rbracket :: after port t) by simp,
    scan_maybeUser hchars, lastOf_last (List.not_mem_nil),
    show p + 1 + u.length = p + (c :: u).length by rw [List.length_cons]; omega,
    show p + 1 + (u ++ [atmark]).length = p + (c :: u).length + 1 by simp; omega,
    scan_cons hstep, hip]

theorem scan_passwd {u w : Bytes} (hu : FirstWF isUser u) (hw : PasswdWF w) {ipv6 : Bool}
    {host : Bytes} (hhost : if ipv6 then Ipv6WF host else NameWF host) {port : Option Bytes}
    (hport : ∀ ds ∈ port, PortWF ds) (t : Tail) (hm : Blank m) :
    scan .beforeMaybeUser m p (u ++ colon :: (w ++ atmark :: (renderHost ipv6 host ++ after port t))) =
      some (t.mark (markHost (markUser m p (some (u, some w))) (p + u.length + 1 + w.length + 1)
        ipv6 host port) (p + u.length + 1 + w.length + 1 + (renderHost ipv6 host).length +
          (Tail.part colon port).length)) := by
  obtain ⟨c, u, rfl⟩ := List.exists_cons_of_ne_nil hu.ne_nil
  have huser : ∀ c ∈ u, isUser c = true := hu.chars
  have hhostm := scan_beforeHost (m := markUser m p (some (c :: u, some w)))
    (p := p + (c :: u).length + 1 + w.length + 1) hhost hport t hm.port hm.ipv6addr
  have hcolon : ∀ last, step .maybeUser { m with userFirst := some p, lastAtmark := last }
      (p + (c :: u).length) colon = some (.beforeMaybePasswd,
        { m with userFirst := some p, lastAtmark := last, userLast := some (p + (c :: u).length) }) :=
    fun last => rfl
  have hpasswd := fun last => scan_beforeMaybePasswd
    (m := { m with userFirst := some p, lastAtmark := last, userLast := some (p + (c :: u).length) })
    (p := p + (c :: u).length + 1) hw (renderHost ipv6 host ++ after port t) hm.port
  rw [List.cons_append, scan_cons (step_first hu), scan_maybeUser huser,
    show p + 1 + u.length = p + (c :: u).length by rw [List.length_cons]; omega,
    scan_cons (hcolon _), hpasswd]
  exact hhostm

/-- A well-formed authority is read, with the pointers to its parts. -/
theorem scan_authority {ui : UserInfo} {ipv6 : Bool} {host : Bytes} {port : Option Bytes}
    {t : Tail} (hm : Blank m) (hui : UserWF ui) (hhost : HostWF ui ipv6 host (after port t))
    (hport : ∀ ds ∈ port, PortWF ds) :
    scan .beforeMaybeUser m p (renderUser ui ++ (renderHost ipv6 host ++ after port t)) =
      some (t.mark (markHost (markUser m p ui) (p + (renderUser ui).length) ipv6 host port)
        (p + (renderUser ui).length + (renderHost ipv6 host).length +
          (Tail.part colon port).length)) := by
  rcases ui with _ | ⟨u, _ | w⟩
  · cases ipv6 with
    | true =>
      have hstep : step .beforeMaybeUser m p lbracket = some (.beforeIpv6host, m) := rfl
      change scan .beforeMaybeUser m p (lbracket :: (host ++ [rbracket] ++ after port t)) = _
      rw [scan_cons hstep, List.append_assoc, List.singleton_append,
        scan_beforeIpv6host hhost hport t hm.port]
      rfl
    | false => exact scan_plain hhost hport t hm
  · have hu := (hui u none rfl).1
    have hlen : p + (renderUser (some (u, none))).length = p + u.length + 1 := by
      simp [renderUser, Tail.part, Nat.add_assoc]
    rw [hlen, renderUser, List.append_assoc]
    cases ipv6 with
    | true => exact scan_user_ipv6 hu hhost hport t hm
    | false => exact scan_user hu hhost.1 hhost.2 hport hm
  · obtain ⟨hu, hw⟩ := hui u (some w) rfl
    have hlen : p + (renderUser (some (u, some w))).length = p + u.length + 1 + w.length + 1 := by
      simp [renderUser, Tail.part]
      omega
    have hpasswd : if ipv6 then Ipv6WF host else NameWF host := by
      cases ipv6 with
      | true => exact hhost
      | false => exact hhost
    rw [hlen, renderUser, Tail.part]
    simp only [List.append_assoc, List.cons_append, List.nil_append]
    exact scan_passwd hu (hw w rfl) hpasswd hport t hm

/-! ## What is read is well formed -/

theorem exists_span (f : UInt8 → Bool) (s : Bytes) : ∃ a b, s = a ++ b ∧ (∀ c ∈ a, f c = true) ∧
    ∀ c ∈ b.head?, f c = false := by
  refine ⟨s.takeWhile f, s.dropWhile f, (List.takeWhile_append_dropWhile).symm,
    fun c hc => List.mem_takeWhile_imp hc, fun c hc => ?_⟩
  have := List.head?_dropWhile_not f s
  rw [Option.mem_def.mp hc] at this
  exact Bool.eq_false_iff.mpr fun h => by simp [h] at this

/-- A port, or the rest of a password and a host. -/
theorem passwd_of_maybePasswd (h : scan .maybePasswd m p s = some r) (hmin : -1 ≤ m.port)
    (hmax : m.port ≤ uint16Max) :
    (0 ≤ m.port ∧ ∃ ds, ∃ t : Tail, (∀ d ∈ ds, isDigit d = true) ∧
      ds.foldl addDigit m.port ≤ uint16Max ∧ s = ds ++ t.render) ∨
    ∃ w rest m' p', (∀ c ∈ w, isPasswd c = true) ∧ s = w ++ atmark :: rest ∧
      scan .beforeHost m' p' rest = some r := by
  induction s generalizing m p with
  | nil =>
    obtain ⟨t, ht⟩ := exists_tail (s := []) fun d hd => by cases hd
    have hne : m.port ≠ -1 := fun heq => by
      rw [scan, finish, if_pos heq] at h
      cases h
    exact .inl ⟨by omega, [], t, List.forall_mem_nil _, hmax, ht⟩
  | cons c s ih =>
    by_cases hat : c = atmark
    · obtain rfl := hat
      exact .inr ⟨[], s, _, _, List.forall_mem_nil _, rfl, h⟩
    by_cases hbracket : c = lbracket
    · have hstep : step .maybePasswd m p c = none := (if_neg hat).trans (if_pos hbracket)
      rw [scan_none hstep] at h
      cases h
    by_cases hend : isEnd c = true
    · have hne : m.port ≠ -1 := fun heq => by
        have hstep : step .maybePasswd m p c = none :=
          (if_neg hat).trans ((if_neg hbracket).trans ((if_pos hend).trans (if_pos heq)))
        rw [scan_none hstep] at h
        cases h
      obtain ⟨t, ht⟩ := exists_tail (s := c :: s) fun d hd => Option.mem_some.mp hd ▸ hend
      exact .inl ⟨by omega, [], t, List.forall_mem_nil _, hmax, ht⟩
    -- the character is one of a password; the number is kept as long as it may be a port
    have hpasswd : isPasswd c = true := isPasswd_iff.mpr ⟨hat, hbracket, Bool.eq_false_iff.mpr hend⟩
    rw [scan_cons (step_maybePasswd hpasswd)] at h
    by_cases hdigit : m.port ≠ -1 ∧ isDigit c = true ∧ addDigit m.port c ≤ uint16Max
    · rw [if_pos hdigit] at h
      obtain ⟨hne, hd, hle⟩ := hdigit
      have hnonneg : 0 ≤ addDigit m.port c := by
        have := digit_nonneg hd
        rw [addDigit]
        omega
      obtain ⟨-, ds, t, hds, hfold, rfl⟩ | ⟨w, rest, m', p', hw, rfl, hrest⟩ :=
        ih h (by exact Int.le_trans (by decide) hnonneg) hle
      · exact .inl ⟨by omega, c :: ds, t, List.forall_mem_cons.mpr ⟨hd, hds⟩, hfold, rfl⟩
      · exact .inr ⟨c :: w, rest, m', p', List.forall_mem_cons.mpr ⟨hpasswd, hw⟩, rfl, hrest⟩
    · rw [if_neg hdigit] at h
      obtain ⟨hnonneg, -⟩ | ⟨w, rest, m', p', hw, rfl, hrest⟩ :=
        ih h le_rfl (by exact Int.neg_ofNat_le_ofNat 1 65535)
      · exact absurd hnonneg (by exact Int.negSucc_lt_zero 0 |>.not_ge)
      · exact .inr ⟨c :: w, rest, m', p', List.forall_mem_cons.mpr ⟨hpasswd, hw⟩, rfl, hrest⟩

theorem passwd_of_beforeMaybePasswd (h : scan .beforeMaybePasswd m p s = some r)
    (hm : m.port = -1) :
    (∃ ds, ∃ t : Tail, PortWF ds ∧ s = ds ++ t.render) ∨
    ∃ w rest m' p', PasswdWF w ∧ s = w ++ atmark :: rest ∧
      scan .beforeHost m' p' rest = some r := by
  match s, h with
  | c :: s, h =>
    by_cases hat : c = atmark
    · obtain rfl := hat
      exact .inr ⟨[], s, _, _, ⟨nofun, nofun⟩, rfl, h⟩
    by_cases hslash : c = slash
    · have hstep : step .beforeMaybePasswd m p c = none := (if_neg hat).trans (if_pos hslash)
      rw [scan_none hstep] at h
      exact nomatch h
    have hwf : ∀ {w}, (∀ c ∈ w, isPasswd c = true) → PasswdWF (c :: w) := fun hw =>
      ⟨fun d hd => Option.mem_some.mp hd ▸ ⟨hat, hslash⟩, hw⟩
    by_cases hd : isDigit c = true
    · have hfirst : addDigit 0 c = c.toNat - 0x30 := by rw [addDigit]; omega
      have hnonneg : 0 ≤ addDigit 0 c := by rw [hfirst]; exact digit_nonneg hd
      have hlt : addDigit 0 c ≤ uint16Max := by
        have := c.toNat_lt
        rw [addDigit, uint16Max]
        omega
      have hstep : step .beforeMaybePasswd m p c =
          some (.maybePasswd, { m with passwdFirst := some p, port := addDigit 0 c }) := by
        refine (if_neg hat).trans ((if_neg hslash).trans ?_)
        rw [if_pos hd, hfirst]
      rw [scan_cons hstep] at h
      obtain ⟨-, ds, t, hds, hfold, rfl⟩ | ⟨w, rest, m', p', hw, rfl, hrest⟩ :=
        passwd_of_maybePasswd h (by exact Int.le_trans (by decide) hnonneg) hlt
      · exact .inl ⟨c :: ds, t, ⟨List.cons_ne_nil c ds, List.forall_mem_cons.mpr ⟨hd, hds⟩, hfold⟩,
          rfl⟩
      · exact .inr ⟨c :: w, rest, m', p', hwf hw, rfl, hrest⟩
    · have hstep : step .beforeMaybePasswd m p c =
          some (.maybePasswd, { m with passwdFirst := some p }) := by
        refine (if_neg hat).trans ((if_neg hslash).trans ?_)
        rw [if_neg hd]
      rw [scan_cons hstep] at h
      obtain ⟨hnonneg, -⟩ | ⟨w, rest, m', p', hw, rfl, hrest⟩ :=
        passwd_of_maybePasswd h (by exact hm.ge) (by exact hm.le.trans (by decide))
      · exact absurd (hm ▸ hnonneg) (by decide)
      · exact .inr ⟨c :: w, rest, m', p', hwf hw, rfl, hrest⟩

/-- What may follow the characters of what is a user or a host, the last at-mark of which is `at_`. -/
inductive Settled (at_ : Option Nat) (p : Nat) (s : Bytes) : Prop where
  | host (port : Option Bytes) (t : Tail) (hport : ∀ ds ∈ port, PortWF ds) (hs : s = after port t)
    (hempty : at_.map (· + 1) = some p → s ≠ [])
  | ipv6 (host : Bytes) (port : Option Bytes) (t : Tail) (hhost : Ipv6WF host)
    (hport : ∀ ds ∈ port, PortWF ds) (hs : s = renderHost true host ++ after port t)
    (hat : at_ = some (p - 1))
  | passwd (w : Bytes) (ipv6 : Bool) (host : Bytes) (port : Option Bytes) (t : Tail)
    (hw : PasswdWF w) (hhost : if ipv6 then Ipv6WF host else NameWF host)
    (hport : ∀ ds ∈ port, PortWF ds)
    (hs : s = colon :: (w ++ atmark :: (renderHost ipv6 host ++ after port t)))

theorem settled_of_maybeUser (h : scan .maybeUser m p s = some r) (hm : m.port = -1)
    (hs : ∀ c ∈ s.head?, isUser c = false) : Settled m.lastAtmark p s := by
  cases s with
  | nil =>
    obtain ⟨t, ht⟩ := exists_tail (s := []) fun d hd => by cases hd
    refine .host none t (fun ds hds => by cases hds) ht fun hat => ?_
    rw [scan, finish, if_pos hat] at h
    cases h
  | cons c s =>
    have hc := hs c rfl
    by_cases hcolon : c = colon
    · obtain rfl := hcolon
      have hstep : step .maybeUser m p colon =
        some (.beforeMaybePasswd, { m with userLast := some p }) := rfl
      rw [scan_cons hstep] at h
      obtain ⟨ds, t, hds, rfl⟩ | ⟨w, rest, m', p', hw, rfl, hrest⟩ := passwd_of_beforeMaybePasswd h hm
      · exact .host (some ds) t (fun x hx => Option.mem_some.mp hx ▸ hds) rfl
          fun _ => List.cons_ne_nil colon _
      · obtain ⟨ipv6, host, port, t, hhost, hport, rfl⟩ := host_of_beforeHost hrest
        exact .passwd w ipv6 host port t hw hhost hport rfl
    have hat : c ≠ atmark := by rintro rfl; exact absurd hc (by decide)
    by_cases hbracket : c = lbracket
    · by_cases hlast : m.lastAtmark = some (p - 1)
      · have hstep : step .maybeUser m p c =
            some (.beforeIpv6host, { m with userLast := m.lastAtmark }) :=
          (if_neg hat).trans ((if_neg hcolon).trans ((if_pos hbracket).trans (if_pos hlast)))
        rw [scan_cons hstep] at h
        obtain ⟨host, port, t, hhost, hport, rfl⟩ := ipv6_of_beforeIpv6host h
        refine .ipv6 host port t hhost hport ?_ hlast
        rw [hbracket, renderHost, if_pos rfl, List.cons_append, List.append_assoc]
        rfl
      · have hstep : step .maybeUser m p c = none :=
          (if_neg hat).trans ((if_neg hcolon).trans ((if_pos hbracket).trans (if_neg hlast)))
        rw [scan_none hstep] at h
        cases h
    have hend : isEnd c = true := by
      by_contra hne
      rw [Bool.not_eq_true] at hne
      exact absurd (isUser_iff.mpr ⟨hcolon, hbracket, hne⟩) (by rw [hc]; decide)
    obtain ⟨t, ht⟩ := exists_tail (s := c :: s) fun d hd => Option.mem_some.mp hd ▸ hend
    exact .host none t (fun ds hds => by cases hds) ht fun _ => List.cons_ne_nil c s

/-- What is read as an authority is a well-formed one. -/
theorem authority_of_scan (h : scan .beforeMaybeUser m p s = some r) (hm : Blank m) :
    ∃ ui ipv6 host port, ∃ t : Tail, UserWF ui ∧ HostWF ui ipv6 host (after port t) ∧
      (∀ ds ∈ port, PortWF ds) ∧
      s = renderUser ui ++ (renderHost ipv6 host ++ after port t) := by
  cases s with
  | nil => cases h
  | cons c s =>
    by_cases hbad : c = atmark ∨ c = colon ∨ c = slash
    · have hstep : step .beforeMaybeUser m p c = none := if_pos hbad
      rw [scan_none hstep] at h
      cases h
    by_cases hbracket : c = lbracket
    · have hstep : step .beforeMaybeUser m p c = some (.beforeIpv6host, m) :=
        (if_neg hbad).trans (if_pos hbracket)
      rw [scan_cons hstep] at h
      obtain ⟨host, port, t, hhost, hport, rfl⟩ := ipv6_of_beforeIpv6host h
      refine ⟨none, true, host, port, t, (fun _ _ hu => by cases hu), hhost, hport, ?_⟩
      rw [hbracket, renderHost, if_pos rfl, List.cons_append, List.append_assoc]
      rfl
    have hstep : step .beforeMaybeUser m p c = some (.maybeUser, { m with userFirst := some p }) :=
      (if_neg hbad).trans (if_neg hbracket)
    obtain ⟨hat, hcolon, hslash⟩ : c ≠ atmark ∧ c ≠ colon ∧ c ≠ slash := by
      simpa [not_or] using hbad
    have hfirst : ∀ {f : UInt8 → Bool} {u}, (∀ d ∈ u, f d = true) → FirstWF f (c :: u) := fun hu =>
      ⟨List.cons_ne_nil c _, fun d hd => Option.mem_some.mp hd ▸ ⟨hat, hcolon, hslash, hbracket⟩, hu⟩
    obtain ⟨a, rest, rfl, ha, hrest⟩ := exists_span isUser s
    rw [scan_cons hstep, scan_maybeUser ha] at h
    have hsettled := settled_of_maybeUser h hm.port hrest
    dsimp only at hsettled
    rw [hm.atmark] at hsettled
    cases hsettled with
    | host port t hport hs hempty =>
      obtain hnot | ⟨u, host, rfl, hnot⟩ := split_last atmark a
      · refine ⟨none, false, c :: a, port, t, (fun _ _ hu => by cases hu), hfirst fun d hd => ?_, hport,
          by rw [hs]; rfl⟩
        exact isName_iff.mpr ⟨ha d hd, fun heq => hnot (heq ▸ hd)⟩
      · obtain ⟨hu, hhost⟩ := List.forall_mem_append.mp ha
        obtain ⟨-, hhost⟩ := List.forall_mem_cons.mp hhost
        refine ⟨some (c :: u, none), false, host, port, t, ?_, ⟨fun d hd => ?_, ?_⟩, hport, ?_⟩
        · rintro _ _ heq
          obtain ⟨rfl, rfl⟩ := Prod.mk.inj (Option.some.inj heq)
          exact ⟨hfirst hu, fun _ hw => by cases hw⟩
        · exact isName_iff.mpr ⟨hhost d hd, fun heq => hnot (heq ▸ hd)⟩
        · rintro rfl
          rw [← hs]
          refine hempty ?_
          rw [lastOf_last hnot, Option.map_some, List.length_append, List.length_singleton]
          rfl
        · rw [hs]
          simp [renderUser, renderHost, Tail.part]
    | ipv6 host port t hhost hport hs hlast =>
      obtain hnot | ⟨u, y, rfl, hnot⟩ := split_last atmark a
      · rw [lastOf_of_not_mem hnot] at hlast
        cases hlast
      · obtain ⟨hu, -⟩ := List.forall_mem_append.mp ha
        have hy : y = [] := by
          rw [lastOf_last hnot, List.length_append, List.length_cons] at hlast
          have := Option.some.inj hlast
          exact List.length_eq_zero_iff.mp (by omega)
        subst hy
        refine ⟨some (c :: u, none), true, host, port, t, ?_, hhost, hport, ?_⟩
        · rintro _ _ heq
          obtain ⟨rfl, rfl⟩ := Prod.mk.inj (Option.some.inj heq)
          exact ⟨hfirst hu, fun _ hw => by cases hw⟩
        · rw [hs]
          simp [renderUser, Tail.part]
    | passwd w ipv6 host port t hw hhost hport hs =>
      refine ⟨some (c :: a, some w), ipv6, host, port, t, ?_, ?_, hport, ?_⟩
      · rintro _ _ heq
        obtain ⟨rfl, rfl⟩ := Prod.mk.inj (Option.some.inj heq)
        exact ⟨hfirst ha, fun x hx => Option.mem_some.mp hx ▸ hw⟩
      · cases ipv6 with
        | true => exact hhost
        | false => exact hhost
      · rw [hs]
        simp [renderUser, Tail.part]

end FluxCore.Uri
