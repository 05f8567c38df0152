import FluxCore.Uri.Authority

/-!
# The parts of a URI

`uri_split` accepts the strings that are put together from well-formed parts, and its pointers are the
places of these parts.
-/

namespace FluxCore.Uri

open Utp (Bytes)
open Torrent (slash)
open Util (isDigit)

structure Parts where
  scheme : Bytes
  user : UserInfo
  ipv6 : Bool
  host : Bytes
  port : Option Bytes
  tail : Tail

namespace Parts

variable {m r : Marks} {p : Nat} {c : UInt8} {s : Bytes} {x : Parts}

structure WF (x : Parts) : Prop where
  scheme_ne : x.scheme ≠ []
  scheme_chars : colon ∉ x.scheme.tail
  user : UserWF x.user
  host : HostWF x.user x.ipv6 x.host (after x.port x.tail)
  port : ∀ ds ∈ x.port, PortWF ds

/-- The characters behind a scheme. -/
def sep : Bytes := [colon, slash, slash]

def render (x : Parts) : Bytes :=
  x.scheme ++ (sep ++ (renderUser x.user ++ (renderHost x.ipv6 x.host ++ after x.port x.tail)))

/-! ## The places of the parts -/

def userStart (x : Parts) : Nat := x.scheme.length + 3

def hostStart (x : Parts) : Nat := x.userStart + (renderUser x.user).length

def tailStart (x : Parts) : Nat :=
  x.hostStart + (renderHost x.ipv6 x.host).length + (Tail.part colon x.port).length

def marks (x : Parts) : Marks :=
  x.tail.mark (markHost
    (markUser { schemeFirst := some 0, schemeLast := some x.scheme.length } x.userStart x.user)
    x.hostStart x.ipv6 x.host x.port) x.tailStart

theorem scan_scheme {a : Bytes} (ha : colon ∉ a) (rest : Bytes) :
    scan .scheme m p (a ++ (sep ++ rest)) =
      scan .beforeMaybeUser { m with schemeLast := some (p + a.length) } (p + a.length + 3) rest := by
  induction a generalizing p with
  | nil => rfl
  | cons c a ih =>
    obtain ⟨hc, ha⟩ := ne_of_not_mem_cons ha
    have hstep : step .scheme m p c = some (.scheme, m) := if_neg hc
    rw [List.cons_append, scan_cons hstep, ih ha, List.length_cons, Nat.add_right_comm p 1,
      Nat.add_assoc p]

/-- The parts of a well-formed string are read back. -/
theorem scan_render (h : x.WF) : scan .beforeScheme {} 0 x.render = some x.marks := by
  obtain ⟨c, a, hscheme⟩ := List.exists_cons_of_ne_nil h.scheme_ne
  have hstep : step .beforeScheme {} 0 c = some (.scheme, { schemeFirst := some 0 }) := rfl
  have ha : colon ∉ a := by
    have := h.scheme_chars
    rwa [hscheme] at this
  have hlen : 0 + 1 + a.length = x.scheme.length := by
    rw [hscheme, List.length_cons]
    omega
  have hblank : Blank { schemeFirst := some 0, schemeLast := some x.scheme.length } :=
    ⟨rfl, ⟨rfl, rfl⟩, ⟨rfl, rfl⟩, rfl, rfl⟩
  rw [render, hscheme, List.cons_append, scan_cons hstep, scan_scheme ha, hlen,
    scan_authority hblank h.user h.host h.port]
  rfl

theorem scheme_of_scan (h : scan .scheme m p s = some r) : ∃ a rest m' p', colon ∉ a ∧
    s = a ++ (sep ++ rest) ∧ scan .beforeMaybeUser m' p' rest = some r ∧
      m' = { m with schemeLast := some (p + a.length) } := by
  induction s generalizing p with
  | nil => exact nomatch h
  | cons c s ih =>
    by_cases hc : c = colon
    · obtain rfl := hc
      match s, h with
      | d :: [], h =>
        by_cases hd : d = slash
        · obtain rfl := hd
          exact nomatch h
        · have hstep : step .schemeSlash1 { m with schemeLast := some p } (p + 1) d = none := if_neg hd
          exact nomatch (scan_none hstep).symm.trans h
      | d :: e :: s, h =>
        by_cases hd : d = slash
        · by_cases he : e = slash
          · obtain rfl := hd
            obtain rfl := he
            exact ⟨[], s, _, _, List.not_mem_nil, rfl, h, rfl⟩
          · obtain rfl := hd
            have hstep : step .schemeSlash2 { m with schemeLast := some p } (p + 1 + 1) e = none :=
              if_neg he
            exact nomatch (scan_none hstep).symm.trans h
        · have hstep : step .schemeSlash1 { m with schemeLast := some p } (p + 1) d = none := if_neg hd
          exact nomatch (scan_none hstep).symm.trans h
    · have hstep : step .scheme m p c = some (.scheme, m) := if_neg hc
      rw [scan_cons hstep] at h
      obtain ⟨a, rest, m', p', ha, rfl, hrest, rfl⟩ := ih h
      refine ⟨c :: a, rest, _, p', fun hmem => ?_, rfl, hrest, ?_⟩
      · exact (List.mem_cons.mp hmem).elim (fun heq => hc heq.symm) ha
      · rw [List.length_cons, Nat.add_right_comm, Nat.add_assoc]

/-- What is accepted is put together from well-formed parts. -/
theorem of_scan (h : scan .beforeScheme {} 0 s = some r) :
    ∃ x : Parts, x.WF ∧ s = x.render ∧ r = x.marks := by
  match s, h with
  | c :: s, h =>
    have hstep : step .beforeScheme {} 0 c = some (.scheme, { schemeFirst := some 0 }) := rfl
    have h0 := h
    rw [scan_cons hstep] at h
    obtain ⟨a, rest, m, p, ha, rfl, hrest, rfl⟩ := scheme_of_scan h
    have hblank : Blank { schemeFirst := some 0, schemeLast := some (0 + 1 + a.length) } :=
      ⟨rfl, ⟨rfl, rfl⟩, ⟨rfl, rfl⟩, rfl, rfl⟩
    obtain ⟨ui, ipv6, host, port, t, hui, hhost, hport, rfl⟩ := authority_of_scan hrest hblank
    have hwf : WF ⟨c :: a, ui, ipv6, host, port, t⟩ := ⟨List.cons_ne_nil c a, ha, hui, hhost, hport⟩
    exact ⟨_, hwf, rfl, Option.some.inj (h0.symm.trans (scan_render hwf))⟩

/-! ## The parts of a string are unique -/

theorem eq_of_span {f : UInt8 → Bool} {a b a' b' : Bytes} (h : a ++ b = a' ++ b')
    (ha : ∀ c ∈ a, f c = true) (hb : ∀ c ∈ b.head?, f c = false) (ha' : ∀ c ∈ a', f c = true)
    (hb' : ∀ c ∈ b'.head?, f c = false) : a = a' ∧ b = b' := by
  have htake : ∀ {a b : Bytes}, (∀ c ∈ a, f c = true) → (∀ c ∈ b.head?, f c = false) →
      (a ++ b).takeWhile f = a := by
    intro a b ha hb
    rw [List.takeWhile_append_of_pos ha]
    match b with
    | [] => rw [List.takeWhile_nil, List.append_nil]
    | c :: b => rw [List.takeWhile_cons_of_neg (by simp [hb c rfl]), List.append_nil]
  have hfirst : a = a' := by rw [← htake ha hb, h, htake ha' hb']
  exact ⟨hfirst, List.append_cancel_left (hfirst ▸ h)⟩

theorem eq_of_part {c : UInt8} {q q' : Option Bytes} (h : Tail.part c q = Tail.part c q') :
    q = q' := by
  rcases q with _ | q <;> rcases q' with _ | q'
  · rfl
  · exact nomatch h
  · exact nomatch h
  · exact congrArg some (List.cons.inj h).2

theorem head_part {a : UInt8} {q : Option Bytes} : ∀ c ∈ (Tail.part a q).head?, c = a := by
  rcases q with _ | q
  · exact nofun
  · exact fun c hc => (Option.some.inj hc).symm

theorem tail_unique {t t' : Tail} (h : t.render = t'.render) : t = t' := by
  have hpath : ∀ t : Tail, ∀ c ∈ t.path, (c != question && c != hash) = true := by
    intro t c hc
    have := t.path_chars
    simp only [bne_iff_ne, Bool.and_eq_true]
    exact ⟨fun heq => this.1 (heq ▸ hc), fun heq => this.2 (heq ▸ hc)⟩
  have hrest : ∀ t : Tail, ∀ c ∈ (Tail.part question t.query ++ Tail.part hash t.fragment).head?,
      (c != question && c != hash) = false := by
    intro t c hc
    rcases hq : t.query with _ | q
    · rw [hq] at hc
      rw [head_part c hc]
      rfl
    · rw [hq] at hc
      rw [← Option.some.inj hc]
      rfl
  obtain ⟨h1, h2⟩ := eq_of_span h (hpath t) (hrest t) (hpath t') (hrest t')
  have hquery : ∀ t : Tail, ∀ c ∈ Tail.part question t.query, (c != hash) = true := by
    intro t c hc
    rcases hq : t.query with _ | q
    · rw [hq] at hc
      exact nomatch hc
    · rw [hq] at hc
      obtain rfl | hc := List.mem_cons.mp hc
      · rfl
      · exact bne_iff_ne.mpr fun heq => t.query_chars q hq (heq ▸ hc)
  have hfragment : ∀ t : Tail, ∀ c ∈ (Tail.part hash t.fragment).head?, (c != hash) = false :=
    fun t c hc => by rw [head_part c hc]; rfl
  obtain ⟨h2, h3⟩ := eq_of_span h2 (hquery t) (hfragment t) (hquery t') (hfragment t')
  obtain ⟨path, query, fragment, _, _, _⟩ := t
  obtain ⟨path', query', fragment', _, _, _⟩ := t'
  obtain rfl : path = path' := h1
  obtain rfl : query = query' := eq_of_part h2
  obtain rfl : fragment = fragment' := eq_of_part h3
  rfl

theorem after_unique {port port' : Option Bytes} {t t' : Tail} (h : after port t = after port' t')
    (hport : ∀ ds ∈ port, PortWF ds) (hport' : ∀ ds ∈ port', PortWF ds) : port = port' ∧ t = t' := by
  have hcolon : ∀ {t : Tail} {ds rest}, t.render ≠ colon :: (ds ++ rest) := by
    intro t ds rest heq
    have := head_render t colon (by rw [heq]; rfl)
    exact absurd this (by decide)
  have hend : ∀ t : Tail, ∀ c ∈ t.render.head?, isDigit c = false := fun t c hc =>
    not_isDigit_of_isEnd (head_render t c hc)
  rcases port with _ | ds <;> rcases port' with _ | ds'
  · exact ⟨rfl, tail_unique h⟩
  · exact absurd h hcolon
  · exact absurd h.symm hcolon
  · obtain ⟨hds, ht⟩ := eq_of_span (List.cons.inj h).2 (hport ds rfl).digits (hend t)
      (hport' ds' rfl).digits (hend t')
    exact ⟨congrArg some hds, tail_unique ht⟩

/-- The pointers that are set before the tail. -/
theorem mark_eq (t : Tail) (m : Marks) (p : Nat) : (t.mark m p).schemeLast = m.schemeLast ∧
    (t.mark m p).userLast = m.userLast ∧ (t.mark m p).passwdLast = m.passwdLast ∧
    (t.mark m p).hostLast = m.hostLast ∧ (t.mark m p).ipv6addr = m.ipv6addr := by
  unfold Tail.mark markQuery markFragment
  split_ifs <;> exact ⟨rfl, rfl, rfl, rfl, rfl⟩

theorem marks_eq (x : Parts) : x.marks.schemeLast = some x.scheme.length ∧
    x.marks.userLast = x.user.map (fun u => x.userStart + u.1.length) ∧
    x.marks.passwdLast = x.user.bind (fun u =>
      u.2.map fun w => x.userStart + u.1.length + 1 + w.length) ∧
    x.marks.hostLast = some ((if x.ipv6 then x.hostStart + 1 else x.hostStart) + x.host.length) ∧
    x.marks.ipv6addr = x.ipv6 := by
  obtain ⟨h1, h2, h3, h4, h5⟩ := mark_eq x.tail (markHost (markUser
    { schemeFirst := some 0, schemeLast := some x.scheme.length } x.userStart x.user)
    x.hostStart x.ipv6 x.host x.port) x.tailStart
  rw [marks, h1, h2, h3, h4, h5]
  rcases x.user with _ | ⟨u, _ | w⟩ <;> exact ⟨rfl, rfl, rfl, rfl, rfl⟩

theorem user_unique {ui ui' : UserInfo} {a : Nat} {rest rest' : Bytes}
    (h : renderUser ui ++ rest = renderUser ui' ++ rest')
    (huser : ui.map (fun u => a + u.1.length) = ui'.map fun u => a + u.1.length)
    (hpasswd : ui.bind (fun u => u.2.map fun w => a + u.1.length + 1 + w.length) =
      ui'.bind fun u => u.2.map fun w => a + u.1.length + 1 + w.length) :
    ui = ui' ∧ rest = rest' := by
  rcases ui with _ | ⟨u, w⟩ <;> rcases ui' with _ | ⟨u', w'⟩
  · exact ⟨rfl, h⟩
  · cases huser
  · cases huser
  · have hlen : u.length = u'.length := Nat.add_left_cancel (Option.some.inj huser)
    simp only [renderUser, List.append_assoc] at h
    obtain ⟨rfl, hinfo⟩ := List.append_inj h hlen
    rcases w with _ | w <;> rcases w' with _ | w'
    · exact ⟨rfl, List.append_cancel_left (List.append_cancel_left hinfo)⟩
    · cases hpasswd
    · cases hpasswd
    · have hlen : w.length = w'.length := Nat.add_left_cancel (Option.some.inj hpasswd)
      obtain ⟨hw, hrest⟩ := List.append_inj hinfo (congrArg Nat.succ hlen)
      obtain rfl : w = w' := (List.cons.inj hw).2
      exact ⟨rfl, List.append_cancel_left hrest⟩

theorem host_unique {ipv6 : Bool} {host host' rest rest' : Bytes}
    (h : renderHost ipv6 host ++ rest = renderHost ipv6 host' ++ rest')
    (hlen : host.length = host'.length) : host = host' ∧ rest = rest' := by
  cases ipv6 with
  | false => exact List.append_inj h hlen
  | true =>
    have h : (host ++ [rbracket]) ++ rest = (host' ++ [rbracket]) ++ rest' := (List.cons.inj h).2
    rw [List.append_assoc, List.append_assoc] at h
    obtain ⟨rfl, hrest⟩ := List.append_inj h hlen
    exact ⟨rfl, List.append_cancel_left hrest⟩

/-- The parts of a string are unique. -/
theorem render_injective {y : Parts} (hx : x.WF) (hy : y.WF) (h : x.render = y.render) : x = y := by
  have hmarks : x.marks = y.marks :=
    Option.some.inj ((scan_render hx).symm.trans (h ▸ scan_render hy))
  obtain ⟨s1, u1, w1, h1, i1⟩ := marks_eq x
  obtain ⟨s2, u2, w2, h2, i2⟩ := marks_eq y
  rw [← hmarks] at s2 u2 w2 h2 i2
  obtain ⟨hscheme, hrest⟩ := List.append_inj h (Option.some.inj (s1.symm.trans s2))
  have hstart : x.userStart = y.userStart := by rw [userStart, userStart, hscheme]
  rw [← hstart] at u2 w2
  obtain ⟨huser, hrest⟩ := user_unique (List.append_cancel_left hrest) (u1.symm.trans u2)
    (w1.symm.trans w2)
  have hipv6 : x.ipv6 = y.ipv6 := i1.symm.trans i2
  have hlen : x.host.length = y.host.length := by
    have := Option.some.inj (h1.symm.trans h2)
    rw [hostStart, hostStart, hstart, huser, hipv6] at this
    exact Nat.add_left_cancel this
  obtain ⟨hhost, hrest⟩ := host_unique (hipv6 ▸ hrest) hlen
  obtain ⟨hport, htail⟩ := after_unique hrest hx.port hy.port
  obtain ⟨scheme, user, ipv6, host, port, tail⟩ := x
  obtain ⟨scheme', user', ipv6', host', port', tail'⟩ := y
  dsimp only at hscheme huser hipv6 hhost hport htail
  rw [hscheme, huser, hipv6, hhost, hport, htail]

end Parts

end FluxCore.Uri
