import FluxCore.Uri.Uri
import Mathlib.Data.List.ReduceOption

/-!
# What is reported about a URI

The fields that `uri_split` reports are the places of the parts, cut to 16 bits.
-/

namespace FluxCore.Uri

open Utp (Bytes)
open Torrent (slash getBasename)

/-! ## Fields -/

namespace UriSplitResult

/-- The fields in the order in which they appear in a URI. -/
def inOrder (res : UriSplitResult) : List (Option Field) :=
  [res.scheme, res.user, res.passwd, res.host, res.path, res.query, res.fragment]

def fields (res : UriSplitResult) : List (Option Field) :=
  res.inOrder ++ [res.userinfo, res.basename]

/-- The conversions to 16 bits. -/
def cut (f : Field) : Field := ⟨f.off % 2 ^ 16, f.len % 2 ^ 16⟩

def truncate (res : UriSplitResult) : UriSplitResult where
  scheme := res.scheme.map cut
  host := res.host.map cut
  path := res.path.map cut
  query := res.query.map cut
  fragment := res.fragment.map cut
  user := res.user.map cut
  passwd := res.passwd.map cut
  userinfo := res.userinfo.map cut
  basename := res.basename.map cut
  port := res.port
  ipv6addr := res.ipv6addr

/-- All offsets and lengths are numbers of 16 bits. -/
def Fits (res : UriSplitResult) : Prop :=
  ∀ o ∈ res.fields, ∀ f ∈ o, f.off < 2 ^ 16 ∧ f.len < 2 ^ 16

theorem cut_of_lt {f : Field} (h : f.off < 2 ^ 16 ∧ f.len < 2 ^ 16) : cut f = f := by
  rw [cut, Nat.mod_eq_of_lt h.1, Nat.mod_eq_of_lt h.2]

theorem map_cut {o : Option Field} (h : ∀ f ∈ o, f.off < 2 ^ 16 ∧ f.len < 2 ^ 16) :
    o.map cut = o := by
  cases o with
  | none => rfl
  | some f => rw [Option.map_some, cut_of_lt (h f rfl)]

theorem lt_of_map_cut {o : Option Field} (h : o.map cut = o) :
    ∀ f ∈ o, f.off < 2 ^ 16 ∧ f.len < 2 ^ 16 := by
  rintro f hf
  obtain rfl := Option.mem_def.mp hf
  have hcut := Option.some.inj h
  rw [cut] at hcut
  constructor
  · rw [← hcut]
    exact Nat.mod_lt _ (by decide)
  · rw [← hcut]
    exact Nat.mod_lt _ (by decide)

/-- The conversions lose nothing exactly where everything fits. -/
theorem truncate_eq_iff (res : UriSplitResult) : res.truncate = res ↔ res.Fits := by
  constructor
  · intro h o ho
    have hall : ∀ o ∈ res.fields, o.map cut = o := by
      have hfields : res.truncate.fields = res.fields := by rw [h]
      simp only [fields, inOrder, truncate, List.cons_append, List.nil_append, List.cons.injEq,
        and_true] at hfields ⊢
      simp only [List.mem_cons, List.not_mem_nil, or_false, forall_eq_or_imp, forall_eq]
      exact hfields
    exact lt_of_map_cut (hall o ho)
  · intro h
    have hall : ∀ o ∈ res.fields, o.map cut = o := fun o ho => map_cut (h o ho)
    simp only [fields, inOrder, List.cons_append, List.nil_append, List.mem_cons, List.not_mem_nil,
      or_false, forall_eq_or_imp, forall_eq] at hall
    obtain ⟨h1, h2, h3, h4, h5, h6, h7, h8, h9⟩ := hall
    simp only [truncate, h1, h2, h3, h4, h5, h6, h7, h8, h9]

end UriSplitResult

/-! ## The places of the parts -/

namespace Parts

/-- Where the host stands, behind its bracket. -/
def hostPlace (x : Parts) : Field := ⟨if x.ipv6 then x.hostStart + 1 else x.hostStart, x.host.length⟩

def queryStart (x : Parts) : Nat := x.tailStart + x.tail.path.length

def fragmentStart (x : Parts) : Nat := x.queryStart + (Tail.part question x.tail.query).length

/-- The places of all parts. The user information is the user and the password, and the basename
what stands behind the last slash of the path. -/
def places (x : Parts) : UriSplitResult where
  scheme := some ⟨0, x.scheme.length⟩
  host := some x.hostPlace
  path := if x.tail.path = [] then none else some ⟨x.tailStart, x.tail.path.length⟩
  query := x.tail.query.map fun q => ⟨x.queryStart + 1, q.length⟩
  fragment := x.tail.fragment.map fun f => ⟨x.fragmentStart + 1, f.length⟩
  user := x.user.map fun u => ⟨x.userStart, u.1.length⟩
  passwd := x.user.bind fun u => u.2.map fun w => ⟨x.userStart + u.1.length + 1, w.length⟩
  userinfo := x.user.map fun u => ⟨x.userStart, (u.1 ++ Tail.part colon u.2).length⟩
  basename :=
    let name := getBasename x.tail.path
    if x.tail.path = [] ∨ name = [] then none
    else some ⟨x.queryStart - name.length, name.length⟩
  port := x.port.map fun ds => (ds.foldl addDigit 0).toNat
  ipv6addr := x.ipv6

variable {x : Parts} {s : Bytes}

theorem getBasename_append {a b : Bytes} (hb : slash ∉ b) : getBasename (a ++ slash :: b) = b := by
  have hrev : (a ++ slash :: b).reverse = b.reverse ++ slash :: a.reverse := by simp
  have hall : ∀ c ∈ b.reverse, (decide (c ≠ slash)) = true := fun c hc =>
    decide_eq_true fun heq => hb (heq ▸ List.mem_reverse.mp hc)
  rw [getBasename, hrev, List.takeWhile_append_of_pos hall, List.takeWhile_cons_of_neg (by simp),
    List.append_nil, List.reverse_reverse]

/-- The path, up to its last slash and behind it. -/
theorem exists_basename (t : Tail) (h : t.path ≠ []) :
    ∃ a b, t.path = a ++ slash :: b ∧ slash ∉ b := by
  obtain hnot | hsplit := split_last slash t.path
  · obtain hnil | ⟨path, hpath⟩ := t.path_start
    · exact absurd hnil h
    · exact absurd (hpath ▸ .head _) hnot
  · exact hsplit

theorem port_nonneg (h : x.WF) : ∀ ds ∈ x.port, 0 ≤ ds.foldl addDigit 0 ∧
    ds.foldl addDigit 0 ≤ uint16Max := fun ds hds =>
  ⟨le_foldl_addDigit (h.port ds hds).digits le_rfl, (h.port ds hds).le_max⟩

theorem setField_of_le {first last len : Nat} (h : last = first + len) :
    setField (some first) (some last) = some (UriSplitResult.cut ⟨first, len⟩) := by
  rw [setField, Option.map_some, Option.getD_some, h, Nat.add_sub_cancel_left]
  rfl

theorem setField_none (last : Option Nat) : setField none last = none := rfl

/-- The fields of the tail of a URI that begins at `p`; the other fields are those of the pointers
before. -/
theorem report_markFragment (m : Marks) (p : Nat) (f : Option Bytes) (hm : m.fragmentFirst = none) :
    report (markFragment m p f) = { report m with
      fragment := f.map fun f => UriSplitResult.cut ⟨p + 1, f.length⟩ } := by
  cases f with
  | none =>
    change report m = _
    simp only [report, hm, Option.map_none, setField]
  | some f =>
    have hfield : setField (some (p + 1)) (some (p + (Tail.part hash (some f)).length)) =
        some (UriSplitResult.cut ⟨p + 1, f.length⟩) :=
      setField_of_le (by rw [Tail.part, List.length_cons]; omega)
    simp only [markFragment, Option.isSome_some, if_true, report, hfield, Option.map_some]

theorem report_markQuery (m : Marks) (p : Nat) (q f : Option Bytes)
    (hm : m.queryFirst = none ∧ m.fragmentFirst = none) :
    report (markQuery m p q f) = { report m with
      query := q.map fun q => UriSplitResult.cut ⟨p + 1, q.length⟩
      fragment := f.map fun f =>
        UriSplitResult.cut ⟨p + (Tail.part question q).length + 1, f.length⟩ } := by
  cases q with
  | none =>
    rw [markQuery, report_markFragment _ _ _ (by exact hm.2)]
    simp only [report, hm.1, Option.map_none, setField, Option.isSome_none, Bool.false_eq_true,
      if_false]
  | some q =>
    have hfield : setField (some (p + 1)) (some (p + (Tail.part question (some q)).length)) =
        some (UriSplitResult.cut ⟨p + 1, q.length⟩) :=
      setField_of_le (by rw [Tail.part, List.length_cons]; omega)
    rw [markQuery, report_markFragment _ _ _ (by exact hm.2)]
    simp only [Option.isSome_some, if_true, report, hfield, Option.map_some]

theorem report_mark (t : Tail) (m : Marks) (p : Nat) (hm : m.pathFirst = none ∧
    m.queryFirst = none ∧ m.fragmentFirst = none ∧ m.lastSlash = none) :
    report (t.mark m p) =
      let query := p + t.path.length
      let name := getBasename t.path
      { report m with
        path := if t.path = [] then none else some (UriSplitResult.cut ⟨p, t.path.length⟩)
        query := t.query.map fun q => UriSplitResult.cut ⟨query + 1, q.length⟩
        fragment := t.fragment.map fun f =>
          UriSplitResult.cut ⟨query + (Tail.part question t.query).length + 1, f.length⟩
        basename := if t.path = [] ∨ name = [] then none
          else some (UriSplitResult.cut ⟨query - name.length, name.length⟩) } := by
  by_cases hpath : t.path = []
  · rw [Tail.mark, report_markQuery _ _ _ _ (by rw [if_pos hpath]; exact ⟨hm.2.1, hm.2.2.1⟩)]
    simp only [hpath, if_true, true_or, report, hm.1, hm.2.2.2, setField, Option.map_none]
  · obtain ⟨a, b, hsplit, hb⟩ := exists_basename t hpath
    have hlen : t.path.length = a.length + b.length + 1 := by
      rw [hsplit, List.length_append, List.length_cons]
      omega
    have hlast : lastOf slash none p t.path = some (p + a.length) := by
      rw [hsplit, lastOf_last hb]
    have hname : getBasename t.path = b := by rw [hsplit, getBasename_append hb]
    rw [Tail.mark, report_markQuery _ _ _ _ (by rw [if_neg hpath]; exact ⟨hm.2.1, hm.2.2.1⟩)]
    simp only [hpath, if_false, false_or, report, hlast, hname,
      setField_of_le (Eq.refl (p + t.path.length))]
    congr 1
    by_cases hnil : b = []
    · rw [if_pos hnil, if_neg]
      rw [hlen, hnil, List.length_nil]
      simp [Nat.add_assoc]
    · have hpos : 0 < b.length := List.length_pos_iff.mpr hnil
      rw [if_neg hnil, if_pos fun heq => ?_, setField_of_le (show _ = _ + b.length by omega)]
      · congr 3
        omega
      · have := Option.some.inj heq
        omega

theorem report_port {port : Option Bytes} (h : ∀ ds ∈ port, PortWF ds) :
    (if portNumber port ≠ -1 then some (portNumber port).toNat else none) =
      port.map fun ds => (ds.foldl addDigit 0).toNat := by
  cases port with
  | none => rfl
  | some ds =>
    have hnonneg : 0 ≤ ds.foldl addDigit 0 := le_foldl_addDigit (h ds rfl).digits le_rfl
    exact if_pos (by rw [portNumber]; omega)

/-- What is reported are the places of the parts, cut to 16 bits. -/
theorem report_marks (h : x.WF) : report x.marks = x.places.truncate := by
  have hport := report_port h.port
  have hhost : setField (some (if x.ipv6 then x.hostStart + 1 else x.hostStart))
      (some ((if x.ipv6 then x.hostStart + 1 else x.hostStart) + x.host.length)) =
        some (UriSplitResult.cut x.hostPlace) := setField_of_le rfl
  have hscheme : setField (some 0) (some x.scheme.length) =
      some (UriSplitResult.cut ⟨0, x.scheme.length⟩) := setField_of_le (Nat.zero_add _).symm
  rw [marks, report_mark]
  · rcases hui : x.user with _ | ⟨u, w⟩
    · simp only [report, markHost, markUser, places, UriSplitResult.truncate, hui, hhost,
        hscheme, queryStart, fragmentStart, Option.map_some, Option.map_none, Option.map_map,
        Function.comp_def, apply_ite (Option.map UriSplitResult.cut), Option.bind_none, setField_none,
        Option.isSome_none, Bool.false_eq_true, if_false]
      congr 1
    · have huser : setField (some x.userStart) (some (x.userStart + u.length)) =
          some (UriSplitResult.cut ⟨x.userStart, u.length⟩) := setField_of_le rfl
      cases w with
      | none =>
        simp only [report, markHost, markUser, places, UriSplitResult.truncate, hui, hhost,
          hscheme, huser, queryStart, fragmentStart, Option.map_some, Option.map_none,
          Option.map_map, Function.comp_def, apply_ite (Option.map UriSplitResult.cut),
          Option.bind_some, Option.isSome_some, if_true, Tail.part, List.append_nil]
        congr 1
      | some w =>
        have hpasswd : setField (some (x.userStart + u.length + 1))
            (some (x.userStart + u.length + 1 + w.length)) =
              some (UriSplitResult.cut ⟨x.userStart + u.length + 1, w.length⟩) :=
          setField_of_le rfl
        have hinfo : setField (some x.userStart) (some (x.userStart + u.length + 1 + w.length)) =
            some (UriSplitResult.cut
              ⟨x.userStart, (u ++ Tail.part colon (some w)).length⟩) :=
          setField_of_le (by rw [Tail.part, List.length_append, List.length_cons]; omega)
        simp only [report, markHost, markUser, places, UriSplitResult.truncate, hui, hhost,
          hscheme, huser, hpasswd, hinfo, queryStart, fragmentStart, Option.map_some,
          Option.map_none, Option.map_map, Function.comp_def,
          apply_ite (Option.map UriSplitResult.cut), Option.bind_some, Option.isSome_some, if_true]
        congr 1
  · rcases x.user with _ | ⟨u, _ | w⟩ <;> exact ⟨rfl, rfl, rfl, rfl⟩

/-! ## What the fields are -/

/-- The fields of a string `s` are in it, in their order and without overlap; the scheme and the host
are not empty, and the basename is what follows the last slash of the path. -/
structure WellReported (s : Bytes) (res : UriSplitResult) : Prop where
  scheme : ∃ f ∈ res.scheme, 0 < f.len
  host : ∃ f ∈ res.host, 0 < f.len
  within : ∀ o ∈ res.fields, ∀ f ∈ o, f.off + f.len ≤ s.length
  ordered : res.inOrder.reduceOption.Pairwise fun f g => f.off + f.len ≤ g.off
  port : ∀ n ∈ res.port, n ≤ 65535
  basename : res.basename = res.path.bind fun f =>
    let name := getBasename (slice s f)
    if name = [] then none else some ⟨f.off + f.len - name.length, name.length⟩

theorem length_render (x : Parts) : x.render.length = x.tailStart + x.tail.render.length := by
  simp only [render, tailStart, hostStart, userStart, sep, after, List.length_append,
    List.length_cons, List.length_nil]
  omega

theorem slice_path (x : Parts) : slice x.render ⟨x.tailStart, x.tail.path.length⟩ = x.tail.path := by
  have hsplit : x.render = (x.scheme ++ (sep ++ (renderUser x.user ++ (renderHost x.ipv6 x.host ++
      Tail.part colon x.port)))) ++ x.tail.render := by
    simp only [render, after, List.append_assoc]
  have hlen : (x.scheme ++ (sep ++ (renderUser x.user ++ (renderHost x.ipv6 x.host ++
      Tail.part colon x.port)))).length = x.tailStart := by
    simp only [tailStart, hostStart, userStart, sep, List.length_append, List.length_cons,
      List.length_nil]
    omega
  rw [slice, hsplit, List.drop_left' hlen, Tail.render, List.take_left' rfl]

theorem length_tail (t : Tail) : t.render.length =
    t.path.length + (Tail.part question t.query).length + (Tail.part hash t.fragment).length := by
  rw [Tail.render, List.length_append, List.length_append, Nat.add_assoc]

theorem length_renderHost (ipv6 : Bool) (host : Bytes) : (renderHost ipv6 host).length =
    if ipv6 then host.length + 2 else host.length := by
  cases ipv6 <;> simp [renderHost]

theorem length_renderUser (u : Bytes) (w : Option Bytes) :
    (renderUser (some (u, w))).length = u.length + (Tail.part colon w).length + 1 := by
  simp [renderUser]
  omega

theorem length_part (c : UInt8) (s : Bytes) : (Tail.part c (some s)).length = s.length + 1 := rfl

theorem length_getBasename_le (s : Bytes) : (getBasename s).length ≤ s.length := by
  rw [getBasename, List.length_reverse, ← @List.length_reverse _ s]
  exact (List.takeWhile_sublist _).length_le

/-- Fields, each of which is between the end of those before and a bound of its own. -/
def Between (last : Nat) : Nat → List (Option Field × Nat) → Prop
  | lo, [] => lo ≤ last
  | lo, (o, hi) :: l =>
    lo ≤ hi ∧ (∀ f ∈ o, lo ≤ f.off ∧ f.off + f.len ≤ hi) ∧ Between last hi l

theorem Between.le {last lo : Nat} {l : List (Option Field × Nat)} (h : Between last lo l) :
    lo ≤ last := by
  induction l generalizing lo with
  | nil => exact h
  | cons x l ih => exact h.1.trans (ih h.2.2)

theorem Between.spec {last lo : Nat} {l : List (Option Field × Nat)} (h : Between last lo l) :
    ((l.map Prod.fst).reduceOption.Pairwise fun f g => f.off + f.len ≤ g.off) ∧
      (∀ f ∈ (l.map Prod.fst).reduceOption, lo ≤ f.off) ∧
      ∀ o ∈ l.map Prod.fst, ∀ f ∈ o, f.off + f.len ≤ last := by
  induction l generalizing lo with
  | nil => exact ⟨.nil, nofun, nofun⟩
  | cons x l ih =>
    obtain ⟨hle, hfield, hrest⟩ := h
    obtain ⟨hpair, hlow, hhigh⟩ := ih hrest
    rw [List.map_cons]
    rcases hx : x.1 with _ | f
    · rw [List.reduceOption_cons_of_none]
      exact ⟨hpair, fun f hf => hle.trans (hlow f hf), List.forall_mem_cons.mpr ⟨nofun, hhigh⟩⟩
    · obtain ⟨h1, h2⟩ := hfield f hx
      rw [List.reduceOption_cons_of_some]
      refine ⟨.cons (fun g hg => h2.trans (hlow g hg)) hpair,
        List.forall_mem_cons.mpr ⟨h1, fun g hg => hle.trans (hlow g hg)⟩,
        List.forall_mem_cons.mpr ⟨fun g hg => ?_, hhigh⟩⟩
      exact Option.mem_some.mp hg ▸ h2.trans hrest.le

theorem between_places (x : Parts) : Between x.render.length 0 [
    (x.places.scheme, x.userStart), (x.places.user, x.userStart + (x.user.elim 0 (·.1.length))),
    (x.places.passwd, x.hostStart), (x.places.host, x.tailStart), (x.places.path, x.queryStart),
    (x.places.query, x.fragmentStart), (x.places.fragment, x.render.length)] := by
  have hlen := length_render x
  have htail := length_tail x.tail
  have hhost := length_renderHost x.ipv6 x.host
  refine ⟨Nat.zero_le _, ?_, Nat.le_add_right .., ?_, ?_, ?_, ?_, ?_, ?_, ?_, ?_, ?_, ?_, ?_, le_rfl⟩
  · rintro f hf
    obtain rfl := Option.mem_some.mp hf
    rw [userStart]
    dsimp only
    omega
  · rintro f hf
    obtain ⟨u, hu, rfl⟩ := Option.map_eq_some_iff.mp hf
    rw [hu]
    exact ⟨le_rfl, le_rfl⟩
  · rw [hostStart]
    rcases x.user with _ | ⟨u, w⟩
    · exact le_rfl
    · rw [length_renderUser]
      dsimp only [Option.elim]
      omega
  · rintro f hf
    obtain ⟨⟨u, w⟩, hu, hf⟩ := Option.bind_eq_some_iff.mp hf
    obtain ⟨w, rfl, rfl⟩ := Option.map_eq_some_iff.mp hf
    rw [hostStart, hu, length_renderUser, length_part]
    dsimp only [Option.elim]
    omega
  · rw [tailStart]
    omega
  · rintro f hf
    obtain rfl := Option.mem_some.mp hf
    rw [tailStart, hhost, hostPlace]
    split <;> dsimp only <;> omega
  · rw [queryStart]
    omega
  · rintro f hf
    rw [places] at hf
    dsimp only at hf
    split at hf
    · cases hf
    · obtain rfl := Option.mem_some.mp hf
      exact ⟨le_rfl, le_rfl⟩
  · rw [fragmentStart]
    omega
  · rintro f hf
    obtain ⟨q, hq, rfl⟩ := Option.map_eq_some_iff.mp hf
    rw [fragmentStart, hq, length_part]
    dsimp only
    omega
  · rw [fragmentStart, queryStart]
    omega
  · rintro f hf
    obtain ⟨s, hs, rfl⟩ := Option.map_eq_some_iff.mp hf
    rw [hs, length_part] at htail
    rw [fragmentStart, queryStart]
    dsimp only
    omega

/-- The places of the parts are in the string, in their order and without overlap. -/
theorem wellReported (h : x.WF) (hhost : x.host ≠ []) : WellReported x.render x.places := by
  have hscheme : 0 < x.scheme.length := List.length_pos_iff.mpr h.scheme_ne
  have hhost' : 0 < x.host.length := List.length_pos_iff.mpr hhost
  have hbetween := between_places x
  obtain ⟨hordered, -, hwithin⟩ := hbetween.spec
  obtain ⟨-, -, -, -, -, -, hstart, -, hquery, -, hfragment, -, hlast, -⟩ := hbetween
  refine ⟨⟨_, rfl, hscheme⟩, ⟨_, rfl, hhost'⟩, List.forall_mem_append.mpr ⟨hwithin, ?_⟩, hordered,
    ?_, ?_⟩
  · -- the user information ends in front of the host, and the basename with the path
    have hend : x.hostStart ≤ x.render.length := hstart.trans (hquery.trans (hfragment.trans hlast))
    simp only [List.mem_cons, List.not_mem_nil, or_false, forall_eq_or_imp, forall_eq]
    constructor
    · rintro f hf
      obtain ⟨⟨u, w⟩, hu, rfl⟩ := Option.map_eq_some_iff.mp hf
      rw [hostStart, hu, length_renderUser] at hend
      rw [List.length_append]
      dsimp only at hend ⊢
      omega
    · rintro f hf
      rw [places] at hf
      dsimp only at hf
      split at hf
      · cases hf
      · obtain rfl := Option.mem_some.mp hf
        have hle : x.queryStart ≤ x.render.length := hfragment.trans hlast
        have hbase := length_getBasename_le x.tail.path
        rw [queryStart] at hle ⊢
        dsimp only
        omega
  · intro n hn
    obtain ⟨ds, hds, rfl⟩ := Option.map_eq_some_iff.mp hn
    have := (port_nonneg h ds hds).2
    rw [uint16Max] at this
    omega
  · rw [places]
    dsimp only
    by_cases hpath : x.tail.path = []
    · rw [if_pos (.inl hpath), if_pos hpath]
      rfl
    · rw [if_neg hpath, Option.bind_some, slice_path]
      dsimp only
      simp only [hpath, false_or]
      rfl

end Parts

end FluxCore.Uri
