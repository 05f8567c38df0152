import FluxCore.Uri.UriSplit
import Mathlib.Data.List.TakeWhile

/-!
# The shape of a URI

What `uri_split` accepts are the strings that are put together from a scheme, an authority, a path, a
query and a fragment (`scan_iff`); the pointers of the scan are the places of these parts. The scan
decides late whether the start of the authority is a user or a host, and whether what follows a colon
is a password or a port: the statement about each of its states says which parts may still follow.
-/

namespace FluxCore.Uri

open Utp (Bytes)
open Torrent (slash)
open Util (isDigit)

variable {m r : Marks} {p : Nat} {c : UInt8} {s : Bytes}

/-! ## Path, query and fragment -/

/-- What follows the authority. -/
structure Tail where
  path : Bytes
  query : Option Bytes
  fragment : Option Bytes
  path_start : path = [] ∨ ∃ t, path = slash :: t
  path_chars : question ∉ path ∧ hash ∉ path
  query_chars : ∀ q ∈ query, hash ∉ q

namespace Tail

/-- A part with the character in front of it, if it is there. -/
def part (c : UInt8) : Option Bytes → Bytes
  | none => []
  | some s => c :: s

def render (t : Tail) : Bytes := t.path ++ (part question t.query ++ part hash t.fragment)

end Tail

/-- The scan from the end of the authority on. -/
def scanTail (m : Marks) (p : Nat) : Bytes → Option Marks
  | [] => some m
  | c :: s => if isEnd c then scan (leave m p c).1 (leave m p c).2 (p + 1) s else none

theorem scan_cons {st st' : State} {m' : Marks} (h : step st m p c = some (st', m')) :
    scan st m p (c :: s) = scan st' m' (p + 1) s := by rw [scan, h]

theorem scan_none {st : State} (h : step st m p c = none) : scan st m p (c :: s) = none := by
  rw [scan, h]

theorem ne_of_not_mem_cons {a b : UInt8} {l : Bytes} (h : a ∉ b :: l) : b ≠ a ∧ a ∉ l :=
  ⟨fun hba => h (hba ▸ .head _), fun hmem => h (.tail _ hmem)⟩

theorem scan_fragment (m : Marks) (p : Nat) (s : Bytes) :
    scan .fragment m p s = some { m with fragmentLast := some (p + s.length) } := by
  induction s generalizing p with
  | nil => rfl
  | cons c s ih => rw [scan_cons rfl, ih, List.length_cons, Nat.add_right_comm, Nat.add_assoc]

theorem scan_beforeFragment (m : Marks) (p : Nat) (s : Bytes) :
    scan .beforeFragment m p s =
      some { m with fragmentFirst := some p, fragmentLast := some (p + s.length) } := by
  cases s with
  | nil => rfl
  | cons c s => rw [scan_cons rfl, scan_fragment, List.length_cons, Nat.add_right_comm, Nat.add_assoc]

/-- The pointers to a fragment that is behind the position `p`, if there is one. -/
def markFragment (m : Marks) (p : Nat) (f : Option Bytes) : Marks :=
  if f.isSome then
    { m with
      fragmentFirst := some (p + 1)
      fragmentLast := some (p + (Tail.part hash f).length) }
  else m

theorem scan_hash {st : State} {m' : Marks} (h : step st m p hash = some (.beforeFragment, m'))
    (f : Bytes) : scan st m p (hash :: f) = some (markFragment m' p (some f)) := by
  rw [scan_cons h, scan_beforeFragment, Nat.add_right_comm, Nat.add_assoc]
  rfl

theorem scan_query (m : Marks) (p : Nat) {q : Bytes} (hq : hash ∉ q) (f : Option Bytes) :
    scan .query m p (q ++ Tail.part hash f) =
      some (markFragment { m with queryLast := some (p + q.length) } (p + q.length) f) := by
  induction q generalizing p with
  | nil =>
    have hstep : step .query m p hash = some (.beforeFragment, { m with queryLast := some p }) := rfl
    cases f with
    | none => rfl
    | some f => exact scan_hash hstep f
  | cons c q ih =>
    obtain ⟨hc, hq⟩ := ne_of_not_mem_cons hq
    have hstep : step .query m p c = some (.query, m) := if_neg hc
    rw [List.cons_append, scan_cons hstep, ih _ hq, List.length_cons, Nat.add_right_comm,
      Nat.add_assoc]

theorem scan_beforeQuery (m : Marks) (p : Nat) {q : Bytes} (hq : hash ∉ q) (f : Option Bytes) :
    scan .beforeQuery m p (q ++ Tail.part hash f) =
      some (markFragment { m with queryFirst := some p, queryLast := some (p + q.length) }
        (p + q.length) f) := by
  cases q with
  | nil =>
    have hstep : step .beforeQuery m p hash =
      some (.beforeFragment, { m with queryFirst := some p, queryLast := some p }) := rfl
    cases f with
    | none => rfl
    | some f => exact scan_hash hstep f
  | cons c q =>
    obtain ⟨hc, hq⟩ := ne_of_not_mem_cons hq
    have hstep : step .beforeQuery m p c = some (.query, { m with queryFirst := some p }) :=
      if_neg hc
    rw [List.cons_append, scan_cons hstep, scan_query _ _ hq, List.length_cons,
      Nat.add_right_comm, Nat.add_assoc]

/-- The pointers to a query that is behind the position `p`, if there is one, and to a fragment. -/
def markQuery (m : Marks) (p : Nat) (q f : Option Bytes) : Marks :=
  let last := p + (Tail.part question q).length
  markFragment
    (if q.isSome then { m with queryFirst := some (p + 1), queryLast := some last } else m) last f

/-- The turns at the end of a path, or where there is no path. -/
theorem scan_end {st : State} {m' : Marks} {q f : Option Bytes} (hfinish : finish st m p = some m')
    (hq : step st m p question = some (.beforeQuery, m'))
    (hf : step st m p hash = some (.beforeFragment, m')) (hquery : ∀ s ∈ q, hash ∉ s) :
    scan st m p (Tail.part question q ++ Tail.part hash f) = some (markQuery m' p q f) := by
  cases q with
  | none =>
    cases f with
    | none => exact hfinish
    | some f => exact scan_hash hf f
  | some q =>
    rw [Tail.part, List.cons_append, scan_cons hq, scan_beforeQuery _ _ (hquery q rfl),
      Nat.add_right_comm, Nat.add_assoc]
    rfl

/-- The place of the last `x` of a string that begins at `p`, where `last` is the one before. -/
def lastOf (x : UInt8) : Option Nat → Nat → Bytes → Option Nat
  | last, _, [] => last
  | last, p, c :: s => lastOf x (if c = x then some p else last) (p + 1) s

theorem lastOf_of_not_mem {x : UInt8} (h : x ∉ s) (last : Option Nat) (p : Nat) :
    lastOf x last p s = last := by
  induction s generalizing p last with
  | nil => rfl
  | cons c s ih =>
    obtain ⟨hc, hs⟩ := ne_of_not_mem_cons h
    rw [lastOf, ih hs, if_neg hc]

theorem lastOf_append (x : UInt8) (last : Option Nat) (p : Nat) (s t : Bytes) :
    lastOf x last p (s ++ t) = lastOf x (lastOf x last p s) (p + s.length) t := by
  induction s generalizing p last with
  | nil => rfl
  | cons c s ih =>
    rw [List.cons_append, lastOf, ih, lastOf, List.length_cons, Nat.add_right_comm, Nat.add_assoc]

theorem lastOf_last {x : UInt8} {t : Bytes} (h : x ∉ t) (last : Option Nat) (p : Nat) (s : Bytes) :
    lastOf x last p (s ++ x :: t) = some (p + s.length) := by
  rw [lastOf_append, lastOf, if_pos rfl, lastOf_of_not_mem h]

/-- A string has a last `x`, or none. -/
theorem split_last (x : UInt8) (s : Bytes) : x ∉ s ∨ ∃ a b, s = a ++ x :: b ∧ x ∉ b := by
  by_cases h : x ∈ s
  · obtain ⟨a, b, heq, hnot⟩ := List.eq_append_cons_of_mem (List.mem_reverse.mpr h)
    refine .inr ⟨b.reverse, a.reverse, ?_, fun hmem => hnot (List.mem_reverse.mp hmem)⟩
    rw [← List.reverse_reverse s, heq, List.reverse_append, List.reverse_cons, List.append_assoc]
    rfl
  · exact .inl h

/-- The scan of a path, from its second character on. -/
theorem scan_path (m : Marks) (p : Nat) {path : Bytes} (hpath : question ∉ path ∧ hash ∉ path)
    {q f : Option Bytes} (hquery : ∀ s ∈ q, hash ∉ s) :
    scan .path m p (path ++ (Tail.part question q ++ Tail.part hash f)) =
      some (markQuery { m with
        lastSlash := lastOf slash m.lastSlash p path
        pathLast := some (p + path.length) } (p + path.length) q f) := by
  induction path generalizing p m with
  | nil => exact scan_end rfl rfl rfl hquery
  | cons c path ih =>
    obtain ⟨hcq, hq⟩ := ne_of_not_mem_cons hpath.1
    obtain ⟨hch, hh⟩ := ne_of_not_mem_cons hpath.2
    have hstep : step .path m p c =
        some (.path, { m with lastSlash := if c = slash then some p else m.lastSlash }) := by
      by_cases hc : c = slash
      · rw [if_pos hc]
        exact if_pos hc
      · rw [if_neg hc]
        exact (if_neg hc).trans ((if_neg hcq).trans (if_neg hch))
    rw [List.cons_append, scan_cons hstep, ih _ _ ⟨hq, hh⟩, List.length_cons, Nat.add_right_comm,
      Nat.add_assoc]
    rfl

/-- The pointers to the parts of a tail that begins at `p`. -/
def Tail.mark (t : Tail) (m : Marks) (p : Nat) : Marks :=
  markQuery
    (if t.path = [] then m else
      { m with
        pathFirst := some p
        lastSlash := lastOf slash none p t.path
        pathLast := some (p + t.path.length) }) (p + t.path.length) t.query t.fragment

theorem scanTail_render (t : Tail) (m : Marks) (p : Nat) :
    scanTail m p t.render = some (t.mark m p) := by
  obtain ⟨path, q, f, hstart, hpath, hquery⟩ := t
  obtain rfl | ⟨path, rfl⟩ := hstart
  · cases q with
    | none =>
      cases f with
      | none => rfl
      | some f =>
        change scan .beforeFragment m (p + 1) f = some _
        rw [scan_beforeFragment, Nat.add_right_comm, Nat.add_assoc]
        rfl
    | some q =>
      change scan .beforeQuery m (p + 1) (q ++ Tail.part hash f) = some _
      rw [scan_beforeQuery _ _ (hquery q rfl), Nat.add_right_comm, Nat.add_assoc]
      rfl
  · have hnot : question ∉ path ∧ hash ∉ path :=
      ⟨fun h => hpath.1 (.tail _ h), fun h => hpath.2 (.tail _ h)⟩
    change scan .path { m with pathFirst := some p, lastSlash := some p } (p + 1)
      (path ++ (Tail.part question q ++ Tail.part hash f)) = some _
    rw [scan_path _ _ hnot hquery, Nat.add_right_comm, Nat.add_assoc]
    rfl

/-- What is left at the end of an authority is the tail of a URI. -/
theorem exists_tail (h : ∀ c ∈ s.head?, isEnd c = true) : ∃ t : Tail, s = t.render := by
  -- the fragment, then the query
  obtain ⟨s, f, rfl, hs⟩ : ∃ a f, s = a ++ Tail.part hash f ∧ hash ∉ a := by
    by_cases hmem : hash ∈ s
    · obtain ⟨a, b, rfl, ha⟩ := List.eq_append_cons_of_mem hmem
      exact ⟨a, some b, rfl, ha⟩
    · exact ⟨s, none, (List.append_nil s).symm, hmem⟩
  obtain ⟨path, q, rfl, hpath, hq⟩ : ∃ path q, s = path ++ Tail.part question q ∧
      question ∉ path ∧ ∀ x ∈ q, hash ∉ x := by
    by_cases hmem : question ∈ s
    · obtain ⟨a, b, rfl, ha⟩ := List.eq_append_cons_of_mem hmem
      exact ⟨a, some b, rfl, ha, fun x hx => Option.mem_some.mp hx ▸
        fun hb => hs (List.mem_append_right _ (.tail _ hb))⟩
    · exact ⟨s, none, (List.append_nil s).symm, hmem, nofun⟩
  have hhash : hash ∉ path := fun hmem => hs (List.mem_append_left _ hmem)
  refine ⟨⟨path, q, f, ?_, ⟨hpath, hhash⟩, hq⟩, List.append_assoc ..⟩
  cases path with
  | nil => exact .inl rfl
  | cons c path =>
    have hc := h c rfl
    simp only [isEnd, Bool.or_eq_true, beq_iff_eq] at hc
    obtain (rfl | rfl) | rfl := hc
    · exact .inr ⟨path, rfl⟩
    · exact absurd (.head _) hpath
    · exact absurd (.head _) hhash

/-! ## The port -/

/-- A port: at least one digit, and not above the greatest number of 16 bits. -/
structure PortWF (ds : Bytes) : Prop where
  ne_nil : ds ≠ []
  digits : ∀ d ∈ ds, isDigit d = true
  le_max : ds.foldl addDigit 0 ≤ uint16Max

/-- What follows a host. -/
def after (port : Option Bytes) (tail : Tail) : Bytes := Tail.part colon port ++ tail.render

/-- The number of a port, which is `-1` where there is none. -/
def portNumber : Option Bytes → Int
  | none => -1
  | some ds => ds.foldl addDigit 0

/-- The scan from the end of a host on. -/
def scanAfter (m : Marks) (p : Nat) : Bytes → Option Marks
  | [] => some m
  | c :: s => if c = colon then scan .beforePort m (p + 1) s else scanTail m p (c :: s)

theorem isEnd_iff : isEnd c = true ↔ c = slash ∨ c = question ∨ c = hash := by
  simp [isEnd, or_assoc]

theorem not_isDigit_of_isEnd (h : isEnd c = true) : isDigit c = false := by
  obtain rfl | rfl | rfl := isEnd_iff.mp h <;> rfl

theorem head_render (t : Tail) : ∀ c ∈ t.render.head?, isEnd c = true := by
  obtain ⟨path, q, f, hstart, -, -⟩ := t
  obtain rfl | ⟨path, rfl⟩ := hstart
  · cases q with
    | none =>
      cases f with
      | none => exact nofun
      | some f => exact fun c hc => Option.mem_some.mp hc ▸ rfl
    | some q => exact fun c hc => Option.mem_some.mp hc ▸ rfl
  · exact fun c hc => Option.mem_some.mp hc ▸ rfl

theorem digit_nonneg {d : UInt8} (h : isDigit d = true) : (0 : Int) ≤ d.toNat - 0x30 := by
  simp only [isDigit, Bool.and_eq_true, decide_eq_true_eq] at h
  have := UInt8.le_iff_toNat_le.mp h.1
  change 48 ≤ d.toNat at this
  omega

theorem le_foldl_addDigit {ds : Bytes} (hds : ∀ d ∈ ds, isDigit d = true) {n : Int} (hn : 0 ≤ n) :
    n ≤ ds.foldl addDigit n := by
  induction ds generalizing n with
  | nil => exact le_rfl
  | cons d ds ih =>
    obtain ⟨hd, hds⟩ := List.forall_mem_cons.mp hds
    have hstep : n ≤ addDigit n d := by
      have := digit_nonneg hd
      rw [addDigit]
      omega
    exact hstep.trans (ih hds (hn.trans hstep))

/-- The end of an authority, in a state that leaves the pointers `m'`. -/
theorem scan_leave {st : State} {m' : Marks} (hfinish : finish st m p = some m')
    (hstep : ∀ c, isEnd c = true → step st m p c = some (leave m' p c)) (t : Tail) :
    scan st m p t.render = some (t.mark m' p) := by
  have hhead := head_render t
  rw [← scanTail_render]
  match t.render, hhead with
  | [], _ => exact hfinish
  | c :: s, hhead =>
    have hc := hhead c rfl
    rw [scan, hstep c hc, scanTail, if_pos hc]

theorem scan_port (t : Tail) {ds : Bytes} (hds : ∀ d ∈ ds, isDigit d = true) (hport : 0 ≤ m.port)
    (hmax : ds.foldl addDigit m.port ≤ uint16Max) : scan .port m p (ds ++ t.render) =
      some (t.mark { m with port := ds.foldl addDigit m.port } (p + ds.length)) := by
  induction ds generalizing m p with
  | nil =>
    have hne : m.port ≠ -1 := by omega
    have hfinish : finish .port m p = some m := if_neg hne
    have hstep : ∀ c, isEnd c = true → step .port m p c = some (leave m p c) :=
      fun c hc => if_pos hc
    exact scan_leave hfinish hstep t
  | cons d ds ih =>
    obtain ⟨hd, hds⟩ := List.forall_mem_cons.mp hds
    have hnonneg : 0 ≤ addDigit m.port d := by
      have := digit_nonneg hd
      rw [addDigit]
      omega
    have hle : addDigit m.port d ≤ uint16Max := (le_foldl_addDigit hds hnonneg).trans hmax
    have hend : isEnd d ≠ true := fun h => by simp [not_isDigit_of_isEnd h] at hd
    have hstep : step .port m p d = some (.port, { m with port := addDigit m.port d }) :=
      (if_neg hend).trans ((if_pos hd).trans (if_neg (not_lt.mpr hle)))
    rw [List.cons_append, scan_cons hstep, ih hds hnonneg hmax, List.length_cons,
      Nat.add_right_comm, Nat.add_assoc]
    rfl

theorem scanAfter_after {port : Option Bytes} (hport : ∀ ds ∈ port, PortWF ds) (t : Tail)
    (hm : m.port = -1) : scanAfter m p (after port t) =
      some (t.mark { m with port := portNumber port } (p + (Tail.part colon port).length)) := by
  cases port with
  | none =>
    have hhead := head_render t
    have hmark : t.mark { m with port := portNumber none } p = t.mark m p := by
      rw [portNumber, ← hm]
    change scanAfter m p t.render = some (t.mark _ p)
    rw [hmark, ← scanTail_render]
    match t.render, hhead with
    | [], _ => rfl
    | c :: s, hhead =>
      have hc : c ≠ colon := by
        rintro rfl
        exact absurd (hhead colon rfl) (by decide)
      rw [scanAfter, if_neg hc]
  | some ds =>
    obtain ⟨hne, hdigits, hmax⟩ := hport ds rfl
    obtain ⟨d, ds, rfl⟩ := List.exists_cons_of_ne_nil hne
    obtain ⟨hd, hds⟩ := List.forall_mem_cons.mp hdigits
    have hfirst : addDigit 0 d = d.toNat - 0x30 := by rw [addDigit]; omega
    have hnonneg : 0 ≤ addDigit 0 d := by rw [hfirst]; exact digit_nonneg hd
    have hstep : step .beforePort m (p + 1) d = some (.port, { m with port := addDigit 0 d }) := by
      rw [hfirst]
      exact if_pos hd
    change scanAfter m p (colon :: (d :: (ds ++ t.render))) = _
    rw [scanAfter, if_pos rfl, scan_cons hstep, scan_port t hds hnonneg hmax, Tail.part,
      List.length_cons, List.length_cons]
    congr 2
    omega

/-! ### What may follow -/

theorem tail_of_scanTail (h : scanTail m p s = some r) : ∃ t : Tail, s = t.render := by
  apply exists_tail
  match s with
  | [] => exact nofun
  | c :: s =>
    intro d hd
    obtain rfl := Option.mem_some.mp hd
    by_contra hc
    rw [scanTail, if_neg hc] at h
    exact nomatch h

theorem digits_of_port (h : scan .port m p s = some r) (hport : 0 ≤ m.port)
    (hmax : m.port ≤ uint16Max) : ∃ ds, ∃ t : Tail, (∀ d ∈ ds, isDigit d = true) ∧
      ds.foldl addDigit m.port ≤ uint16Max ∧ s = ds ++ t.render := by
  induction s generalizing m p with
  | nil =>
    obtain ⟨t, ht⟩ := exists_tail (s := []) (by exact nofun)
    exact ⟨[], t, nofun, hmax, ht⟩
  | cons c s ih =>
    by_cases hend : isEnd c = true
    · obtain ⟨t, ht⟩ := exists_tail (s := c :: s) fun d hd => Option.mem_some.mp hd ▸ hend
      exact ⟨[], t, nofun, hmax, ht⟩
    · by_cases hd : isDigit c = true
      · by_cases hle : addDigit m.port c ≤ uint16Max
        · have hstep : step .port m p c = some (.port, { m with port := addDigit m.port c }) :=
            (if_neg hend).trans ((if_pos hd).trans (if_neg (not_lt.mpr hle)))
          have hnonneg : 0 ≤ addDigit m.port c := by
            have := digit_nonneg hd
            rw [addDigit]
            omega
          rw [scan_cons hstep] at h
          obtain ⟨ds, t, hds, hfold, rfl⟩ := ih h hnonneg hle
          exact ⟨c :: ds, t, List.forall_mem_cons.mpr ⟨hd, hds⟩, hfold, rfl⟩
        · have hstep : step .port m p c = none :=
            (if_neg hend).trans ((if_pos hd).trans (if_pos (not_le.mp hle)))
          rw [scan_none hstep] at h
          exact nomatch h
      · have hstep : step .port m p c = none := (if_neg hend).trans (if_neg hd)
        rw [scan_none hstep] at h
        exact nomatch h

theorem after_of_scanAfter (h : scanAfter m p s = some r) :
    ∃ port, ∃ t : Tail, (∀ ds ∈ port, PortWF ds) ∧ s = after port t := by
  match s with
  | [] =>
    obtain ⟨t, ht⟩ := exists_tail (s := []) (by exact nofun)
    exact ⟨none, t, nofun, ht⟩
  | c :: s =>
    rw [scanAfter] at h
    split at h
    · rename_i hc
      obtain rfl := hc
      match s with
      | [] => exact nomatch h
      | d :: s =>
        by_cases hd : isDigit d = true
        · have hstep : step .beforePort m (p + 1) d = some (.port, { m with port := addDigit 0 d }) := by
            rw [addDigit, Int.zero_mul, Int.zero_add]
            exact if_pos hd
          have hlt : addDigit 0 d ≤ uint16Max := by
            have := d.toNat_lt
            rw [addDigit, uint16Max]
            omega
          have hnonneg : 0 ≤ addDigit 0 d := by
            rw [addDigit, Int.zero_mul, Int.zero_add]
            exact digit_nonneg hd
          rw [scan_cons hstep] at h
          obtain ⟨ds, t, hds, hmax, rfl⟩ := digits_of_port h hnonneg hlt
          exact ⟨some (d :: ds), t, fun x hx => Option.mem_some.mp hx ▸
            ⟨List.cons_ne_nil d ds, List.forall_mem_cons.mpr ⟨hd, hds⟩, hmax⟩, rfl⟩
        · have hstep : step .beforePort m (p + 1) d = none := if_neg hd
          rw [scan_none hstep] at h
          exact nomatch h
    · obtain ⟨t, ht⟩ := tail_of_scanTail h
      exact ⟨none, t, nofun, ht⟩

/-! ## The host -/

/-- The end of a host, in a state that leaves the pointers `m'`. -/
theorem scan_after {st : State} {m' : Marks} (hfinish : finish st m p = some m')
    (hcolon : step st m p colon = some (.beforePort, m'))
    (hstep : ∀ c, isEnd c = true → step st m p c = some (leave m' p c))
    {port : Option Bytes} (hport : ∀ ds ∈ port, PortWF ds) (t : Tail) (hm : m'.port = -1) :
    scan st m p (after port t) =
      some (t.mark { m' with port := portNumber port } (p + (Tail.part colon port).length)) := by
  rw [← scanAfter_after hport t hm]
  cases port with
  | none =>
    have hhead := head_render t
    change scan st m p t.render = scanAfter m' p t.render
    match t.render, hhead with
    | [], _ => exact hfinish
    | c :: s, hhead =>
      have hc := hhead c rfl
      have hne : c ≠ colon := by
        rintro rfl
        exact absurd hc (by decide)
      rw [scan, hstep c hc, scanAfter, if_neg hne, scanTail, if_pos hc]
  | some ds =>
    change scan st m p (colon :: (ds ++ t.render)) = scanAfter m' p (colon :: (ds ++ t.render))
    rw [scan_cons hcolon, scanAfter, if_pos rfl]

/-- A character that goes on with a host. -/
def isHost (c : UInt8) : Bool := c != colon && !isEnd c

theorem scan_host {host : Bytes} (hhost : ∀ c ∈ host, isHost c = true) {port : Option Bytes}
    (hport : ∀ ds ∈ port, PortWF ds) (t : Tail) (hm : m.port = -1) :
    scan .host m p (host ++ after port t) =
      some (t.mark { m with hostLast := some (p + host.length), port := portNumber port }
        (p + (host.length + (Tail.part colon port).length))) := by
  induction host generalizing p with
  | nil =>
    have hstep : ∀ c, isEnd c = true →
        step .host m p c = some (leave { m with hostLast := some p } p c) := by
      intro c hc
      refine (if_neg ?_).trans (if_pos hc)
      rintro rfl
      exact absurd hc (by decide)
    have hall := scan_after rfl rfl hstep hport t hm
    rw [List.nil_append, List.length_nil, Nat.add_zero, Nat.zero_add]
    exact hall
  | cons c host ih =>
    obtain ⟨hc, hhost⟩ := List.forall_mem_cons.mp hhost
    have hstep : step .host m p c = some (.host, m) := by
      simp only [isHost, Bool.and_eq_true, bne_iff_ne, Bool.not_eq_true'] at hc
      exact (if_neg hc.1).trans (if_neg (by rw [hc.2]; decide))
    rw [List.cons_append, scan_cons hstep, ih hhost, List.length_cons,
      show p + 1 + host.length = p + (host.length + 1) by omega, Nat.add_assoc p 1,
      ← Nat.add_assoc 1, Nat.add_comm 1]

theorem scan_ipv6host {host : Bytes} (hhost : rbracket ∉ host) {port : Option Bytes}
    (hport : ∀ ds ∈ port, PortWF ds) (t : Tail) (hm : m.port = -1) :
    scan .ipv6host m p (host ++ rbracket :: after port t) =
      some (t.mark { m with
        hostLast := some (p + host.length), ipv6addr := true, port := portNumber port }
        (p + (host.length + 1 + (Tail.part colon port).length))) := by
  induction host generalizing p with
  | nil =>
    have hstep : step .ipv6host m p rbracket =
      some (.afterIpv6host, { m with ipv6addr := true, hostLast := some p }) := rfl
    have hleave : ∀ c, isEnd c = true → step .afterIpv6host
        { m with ipv6addr := true, hostLast := some p } (p + 1) c =
          some (leave { m with ipv6addr := true, hostLast := some p } (p + 1) c) := by
      intro c hc
      refine (if_neg ?_).trans (if_pos hc)
      rintro rfl
      exact absurd hc (by decide)
    have hall := scan_after (p := p + 1) rfl rfl hleave hport t hm
    refine (scan_cons hstep).trans (hall.trans ?_)
    simp only [List.length_nil, Nat.add_zero, Nat.zero_add, Nat.add_assoc]
  | cons c host ih =>
    obtain ⟨hc, hhost⟩ := ne_of_not_mem_cons hhost
    have hstep : step .ipv6host m p c = some (.ipv6host, m) := if_neg hc
    rw [List.cons_append, scan_cons hstep, ih hhost, List.length_cons,
      show p + 1 + host.length = p + (host.length + 1) by omega, Nat.add_assoc p 1,
      show 1 + (host.length + 1 + (Tail.part colon port).length) =
        host.length + 1 + 1 + (Tail.part colon port).length by omega]

/-- The host after an at-mark behind a password: an IPv6 address in brackets, or a name. -/
def renderHost (ipv6 : Bool) (host : Bytes) : Bytes :=
  if ipv6 then lbracket :: (host ++ [rbracket]) else host

structure Ipv6WF (host : Bytes) : Prop where
  ne_nil : host ≠ []
  chars : rbracket ∉ host

/-- A name behind a password. Its first character may be one that ends an authority. -/
structure NameWF (host : Bytes) : Prop where
  ne_nil : host ≠ []
  first : ∀ c ∈ host.head?, c ≠ colon ∧ c ≠ slash ∧ c ≠ lbracket
  chars : ∀ c ∈ host.tail, isHost c = true

/-- The pointers to a host that begins at `p`, with its brackets, and to a port. -/
def markHost (m : Marks) (p : Nat) (ipv6 : Bool) (host : Bytes) (port : Option Bytes) : Marks :=
  let first := if ipv6 then p + 1 else p
  { m with
    hostFirst := some first
    hostLast := some (first + host.length)
    ipv6addr := ipv6
    port := portNumber port }

theorem scan_beforeIpv6host {host : Bytes} (hhost : Ipv6WF host) {port : Option Bytes}
    (hport : ∀ ds ∈ port, PortWF ds) (t : Tail) (hm : m.port = -1) :
    scan .beforeIpv6host m (p + 1) (host ++ rbracket :: after port t) =
      some (t.mark (markHost m p true host port)
        (p + (renderHost true host).length + (Tail.part colon port).length)) := by
  obtain ⟨c, host, rfl⟩ := List.exists_cons_of_ne_nil hhost.ne_nil
  obtain ⟨hc, hchars⟩ := ne_of_not_mem_cons hhost.chars
  have hstep : step .beforeIpv6host m (p + 1) c =
      some (.ipv6host, { m with hostFirst := some (p + 1) }) := if_neg hc
  have hall := scan_ipv6host (m := { m with hostFirst := some (p + 1) }) (p := p + 1 + 1) hchars hport t hm
  rw [List.cons_append, scan_cons hstep, hall]
  simp only [markHost, renderHost, if_true, List.length_cons, List.length_append, List.length_nil]
  rw [show p + 1 + 1 + host.length = p + 1 + (host.length + 1) by omega,
    show p + 1 + 1 + (host.length + 1 + (Tail.part colon port).length) =
      p + (host.length + 1 + (0 + 1) + 1) + (Tail.part colon port).length by omega]

theorem scan_beforeHost {ipv6 : Bool} {host : Bytes}
    (hhost : if ipv6 then Ipv6WF host else NameWF host) {port : Option Bytes}
    (hport : ∀ ds ∈ port, PortWF ds) (t : Tail) (hm : m.port = -1) (hv6 : m.ipv6addr = false) :
    scan .beforeHost m p (renderHost ipv6 host ++ after port t) =
      some (t.mark (markHost m p ipv6 host port)
        (p + (renderHost ipv6 host).length + (Tail.part colon port).length)) := by
  cases ipv6 with
  | true =>
    have hstep : step .beforeHost m p lbracket = some (.beforeIpv6host, m) := rfl
    rw [← scan_beforeIpv6host hhost hport t hm, ← scan_cons hstep, renderHost, if_pos rfl,
      List.cons_append, List.append_assoc]
    rfl
  | false =>
    obtain ⟨hne, hfirst, hchars⟩ : NameWF host := hhost
    obtain ⟨c, host, rfl⟩ := List.exists_cons_of_ne_nil hne
    obtain ⟨h1, h2, h3⟩ := hfirst c rfl
    have hstep : step .beforeHost m p c = some (.host, { m with hostFirst := some p }) :=
      (if_neg (not_or.mpr ⟨h1, h2⟩)).trans (if_neg h3)
    rw [List.tail_cons] at hchars
    have hall := scan_host (m := { m with hostFirst := some p }) (p := p + 1) hchars hport t hm
    change scan .beforeHost m p (c :: (host ++ after port t)) = _
    rw [scan_cons hstep, hall]
    simp only [markHost, renderHost, List.length_cons, hv6, Bool.false_eq_true, if_false]
    rw [show p + 1 + host.length = p + (host.length + 1) by omega,
      show p + 1 + (host.length + (Tail.part colon port).length) =
        p + (host.length + 1) + (Tail.part colon port).length by omega]

/-! ### What may follow -/

theorem host_of_host (h : scan .host m p s = some r) :
    ∃ host port, ∃ t : Tail, (∀ c ∈ host, isHost c = true) ∧ (∀ ds ∈ port, PortWF ds) ∧
      s = host ++ after port t := by
  induction s generalizing p with
  | nil =>
    obtain ⟨t, ht⟩ := exists_tail (s := []) (by exact nofun)
    exact ⟨[], none, t, nofun, nofun, ht⟩
  | cons c s ih =>
    by_cases hc : isHost c = true
    · have hstep : step .host m p c = some (.host, m) := by
        simp only [isHost, Bool.and_eq_true, bne_iff_ne, Bool.not_eq_true'] at hc
        exact (if_neg hc.1).trans (if_neg (by rw [hc.2]; decide))
      rw [scan_cons hstep] at h
      obtain ⟨host, port, t, hhost, hport, rfl⟩ := ih h
      exact ⟨c :: host, port, t, List.forall_mem_cons.mpr ⟨hc, hhost⟩, hport, rfl⟩
    · have hafter : scanAfter { m with hostLast := some p } p (c :: s) = some r := by
        rw [← h, scanAfter]
        split
        · rename_i hcolon
          obtain rfl := hcolon
          rfl
        · rename_i hcolon
          have hend : isEnd c = true := by
            simpa [isHost, hcolon] using hc
          have hstep : step .host m p c = some (leave { m with hostLast := some p } p c) :=
            (if_neg hcolon).trans (if_pos hend)
          rw [scanTail, if_pos hend, scan, hstep]
      obtain ⟨port, t, hport, ht⟩ := after_of_scanAfter hafter
      exact ⟨[], port, t, nofun, hport, ht⟩

theorem host_of_ipv6host (h : scan .ipv6host m p s = some r) :
    ∃ host port, ∃ t : Tail, rbracket ∉ host ∧ (∀ ds ∈ port, PortWF ds) ∧
      s = host ++ rbracket :: after port t := by
  induction s generalizing p with
  | nil => exact nomatch h
  | cons c s ih =>
    by_cases hc : c = rbracket
    · obtain rfl := hc
      have hafter : scanAfter { m with ipv6addr := true, hostLast := some p } (p + 1) s = some r := by
        have hstep : step .ipv6host m p rbracket =
          some (.afterIpv6host, { m with ipv6addr := true, hostLast := some p }) := rfl
        rw [scan_cons hstep] at h
        match s, h with
        | [], h => exact h
        | c :: s, h =>
          rw [scanAfter]
          split
          · rename_i hcolon
            obtain rfl := hcolon
            exact h
          · rename_i hcolon
            by_cases hend : isEnd c = true
            · have hstep : step .afterIpv6host { m with ipv6addr := true, hostLast := some p } (p + 1) c =
                  some (leave { m with ipv6addr := true, hostLast := some p } (p + 1) c) :=
                (if_neg hcolon).trans (if_pos hend)
              rw [scan, hstep] at h
              rw [scanTail, if_pos hend]
              exact h
            · have hstep : step .afterIpv6host { m with ipv6addr := true, hostLast := some p } (p + 1) c =
                  none := (if_neg hcolon).trans (if_neg hend)
              rw [scan_none hstep] at h
              exact nomatch h
      obtain ⟨port, t, hport, rfl⟩ := after_of_scanAfter hafter
      exact ⟨[], port, t, List.not_mem_nil, hport, rfl⟩
    · have hstep : step .ipv6host m p c = some (.ipv6host, m) := if_neg hc
      rw [scan_cons hstep] at h
      obtain ⟨host, port, t, hhost, hport, rfl⟩ := ih h
      refine ⟨c :: host, port, t, fun hmem => ?_, hport, rfl⟩
      exact (List.mem_cons.mp hmem).elim (fun heq => hc heq.symm) hhost

theorem ipv6_of_beforeIpv6host (h : scan .beforeIpv6host m p s = some r) :
    ∃ host port, ∃ t : Tail, Ipv6WF host ∧ (∀ ds ∈ port, PortWF ds) ∧
      s = host ++ rbracket :: after port t := by
  match s, h with
  | c :: s, h =>
    by_cases hc : c = rbracket
    · have hstep : step .beforeIpv6host m p c = none := if_pos hc
      rw [scan_none hstep] at h
      exact nomatch h
    · have hstep : step .beforeIpv6host m p c = some (.ipv6host, { m with hostFirst := some p }) :=
        if_neg hc
      rw [scan_cons hstep] at h
      obtain ⟨host, port, t, hhost, hport, rfl⟩ := host_of_ipv6host h
      refine ⟨c :: host, port, t, ⟨List.cons_ne_nil c host, fun hmem => ?_⟩, hport, rfl⟩
      exact (List.mem_cons.mp hmem).elim (fun heq => hc heq.symm) hhost

theorem host_of_beforeHost (h : scan .beforeHost m p s = some r) :
    ∃ ipv6 host port, ∃ t : Tail, (if ipv6 then Ipv6WF host else NameWF host) ∧
      (∀ ds ∈ port, PortWF ds) ∧ s = renderHost ipv6 host ++ after port t := by
  match s, h with
  | c :: s, h =>
    by_cases hbad : c = colon ∨ c = slash
    · have hstep : step .beforeHost m p c = none := if_pos hbad
      rw [scan_none hstep] at h
      exact nomatch h
    · by_cases hc : c = lbracket
      · have hstep : step .beforeHost m p c = some (.beforeIpv6host, m) :=
          (if_neg hbad).trans (if_pos hc)
        rw [scan_cons hstep] at h
        obtain ⟨host, port, t, hhost, hport, rfl⟩ := ipv6_of_beforeIpv6host h
        refine ⟨true, host, port, t, hhost, hport, ?_⟩
        rw [hc, renderHost, if_pos rfl, List.cons_append, List.append_assoc]
        rfl
      · have hstep : step .beforeHost m p c = some (.host, { m with hostFirst := some p }) :=
          (if_neg hbad).trans (if_neg hc)
        rw [scan_cons hstep] at h
        obtain ⟨host, port, t, hhost, hport, rfl⟩ := host_of_host h
        obtain ⟨h1, h2⟩ := not_or.mp hbad
        exact ⟨false, c :: host, port, t, ⟨List.cons_ne_nil c host,
          fun d hd => Option.mem_some.mp hd ▸ ⟨h1, h2, hc⟩, hhost⟩, hport, rfl⟩

end FluxCore.Uri
