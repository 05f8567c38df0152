import FluxCore.Lib.Run
import FluxCore.Uri.Uri
import Mathlib.Data.List.Sort

/-!
# Choosing a mirror

`MultiMirrorURISelector` packs three criteria into one `int`: the number of earlier selections of a
URI, the connections to its host and the speed of its server. The order of the numbers is the order
of the criteria only as long as the lesser criteria stay below the weights of the greater ones.
-/

namespace FluxCore.Request.MultiMirror

open Utp (Bytes)
open Uri (Field UriSplitResult uriSplit slice cstr)

/-! ## The selector -/

structure ServerStat where
  singleConnectionAvgSpeed : Int
  multiConnectionAvgSpeed : Int

/-- What a call of `select` sees: the remaining URIs, the used hosts, each with its number of
connections, and what `ServerStatMan::find` knows about a host and a protocol. -/
structure Call where
  uris : List Bytes
  usedHosts : List (Nat × Bytes)
  find : Bytes → Bytes → Option ServerStat

/-- A value of the type `int`; it is `none` where the arithmetic overflows. -/
def int (n : Int) : Option Int := if -2 ^ 31 ≤ n ∧ n < 2 ^ 31 then some n else none

def getFieldString (field : Option Field) (base : Bytes) : Bytes :=
  match field with
  | some f => slice (cstr base) f
  | none => []

/-- How often the host of a URI is listed. -/
def listed (call : Call) (host : Bytes) : Nat := call.usedHosts.countP (·.2 = host)

def speedOf (call : Call) (host protocol : Bytes) : Int :=
  match call.find host protocol with
  | some ss => max ss.singleConnectionAvgSpeed ss.multiConnectionAvgSpeed
  | none => 0

/-- `uriSelectionCount_`. -/
abbrev Counts := Bytes → Int

def priority (counts : Counts) (call : Call) (uri : Bytes) (us : UriSplitResult) : Option Int := do
  let host := getFieldString us.host uri
  let currentHostConnections ← int (listed call host)
  let a ← int (-counts uri)
  let a ← int (a * 100000000)
  let b ← int (-currentHostConnections * 1000000)
  let sum ← int (a + b)
  int (sum + speedOf call host (getFieldString us.scheme uri))

/-- The URIs that can be split, with their priorities. -/
def candidates (counts : Counts) (call : Call) : List Bytes → Option (List (Int × Bytes))
  | [] => some []
  | uri :: uris =>
    match uriSplit uri with
    | none => candidates counts call uris
    | some us => do
      let p ← priority counts call uri us
      let cs ← candidates counts call uris
      pure ((p, uri) :: cs)

/-- `std::sort` with the greatest priority first. Elements of the same priority may be in any order. -/
structure Sorter where
  apply : List (Int × Bytes) → List (Int × Bytes)
  perm : ∀ l, (apply l).Perm l
  ordered : ∀ l, (apply l).Pairwise fun a b => ¬ b.1 > a.1

def selectBestAvailableUri (sort : Sorter) (counts : Counts) (call : Call) : Option Bytes :=
  (candidates counts call call.uris).map fun cs =>
    match sort.apply cs with
    | [] => []
    | (_, uri) :: _ => uri

def select (sort : Sorter) (counts : Counts) (call : Call) : Option (Counts × Bytes) := do
  let selected ← selectBestAvailableUri sort counts call
  if selected = [] then pure (counts, selected)
  else
    let n ← int (counts selected + 1)
    pure (Function.update counts selected n, selected)

/-! ## Fair choices -/

/-- The connections to a host. -/
def connections (call : Call) (host : Bytes) : Nat :=
  ((call.usedHosts.filter (·.2 = host)).map Prod.fst).sum

/-- What is known about a URI: its earlier selections, the connections to its host and the speed of its
server. -/
structure Standing where
  selections : Nat
  connections : Nat
  speed : Int

/-- The criteria, in the order of their importance. -/
def Standing.Before (a b : Standing) : Prop :=
  a.selections < b.selections ∨ a.selections = b.selections ∧
    (a.connections < b.connections ∨ a.connections = b.connections ∧ b.speed < a.speed)

instance (a b : Standing) : Decidable (a.Before b) := inferInstanceAs (Decidable (_ ∨ _))

def hostOf (uri : Bytes) : Bytes := getFieldString ((uriSplit uri).bind (·.host)) uri

def protocolOf (uri : Bytes) : Bytes := getFieldString ((uriSplit uri).bind (·.scheme)) uri

/-- The standing of a URI behind earlier calls that have returned `selected`. -/
def standing (selected : List Bytes) (call : Call) (uri : Bytes) : Standing where
  selections := selected.count uri
  connections := connections call (hostOf uri)
  speed := speedOf call (hostOf uri) (protocolOf uri)

/-- The URIs that remain and can be split. -/
def Remaining (call : Call) (uri : Bytes) : Prop := uri ∈ call.uris ∧ (uriSplit uri).isSome = true

/-- What is returned is a remaining URI that no other one is before, if there is one at all. -/
def Fair (selected : List Bytes) (call : Call) (uri : Bytes) : Prop :=
  (uri = [] ∧ ∀ v, ¬Remaining call v) ∨
    Remaining call uri ∧ ∀ v, Remaining call v →
      ¬(standing selected call v).Before (standing selected call uri)

/-- The sum of the weighted criteria, where a host counts as often as it is listed. -/
def weight (selected : List Bytes) (call : Call) (uri : Bytes) : Int :=
  speedOf call (hostOf uri) (protocolOf uri) -
    (selected.count uri * 100000000 + listed call (hostOf uri) * 1000000)

/-- The weights are great enough for these numbers: each connection has an entry of its own, the
weighted selections and connections to a host fit together into an `int`, and the remaining URIs
differ by fewer than a hundred connections and by less than a megabyte per second. -/
structure Bounded (selected : List Bytes) (call : Call) : Prop where
  entries : ∀ uri, Remaining call uri → connections call (hostOf uri) = listed call (hostOf uri)
  sum : ∀ uri, Remaining call uri →
    selected.count uri * 100000000 + listed call (hostOf uri) * 1000000 ≤ 2 ^ 31
  speed : ∀ uri, Remaining call uri → 0 ≤ speedOf call (hostOf uri) (protocolOf uri) ∧
    speedOf call (hostOf uri) (protocolOf uri) < 2 ^ 31
  hundred : ∀ u v, Remaining call u → Remaining call v →
    listed call (hostOf u) < listed call (hostOf v) + 100
  million : ∀ u v, Remaining call u → Remaining call v →
    speedOf call (hostOf u) (protocolOf u) < speedOf call (hostOf v) (protocolOf v) + 1000000

section

variable {counts : Counts} {call : Call} {selected : List Bytes} {uri u v : Bytes} {sort : Sorter}

/-- No sum leaves the type `int`. -/
theorem Bounded.fits (h : Bounded selected call) (huri : Remaining call uri) :
    (selected.count uri * 100000000 + listed call (hostOf uri) * 1000000 : Int) ≤
        2 ^ 31 ∧
      -2 ^ 31 ≤ weight selected call uri ∧ weight selected call uri < 2 ^ 31 := by
  have hsum := h.sum uri huri
  have hspeed := h.speed uri huri
  rw [weight]
  omega

/-- A URI that another one is before weighs less. -/
theorem Bounded.ordered (h : Bounded selected call) (hu : Remaining call u)
    (hv : Remaining call v)
    (hbefore : (standing selected call u).Before (standing selected call v)) :
    weight selected call v < weight selected call u := by
  have hlistedu := h.entries u hu
  have hlistedv := h.entries v hv
  have hhundred := h.hundred u v hu hv
  have hmillion := h.million v u hv hu
  rw [weight, weight]
  obtain hlt | ⟨heq, hlt | ⟨heq', hlt⟩⟩ := hbefore
  · dsimp only [standing] at hlt
    omega
  · dsimp only [standing] at heq hlt
    omega
  · dsimp only [standing] at heq heq' hlt
    omega

theorem int_eq {n : Int} (h : -2 ^ 31 ≤ n ∧ n < 2 ^ 31) : int n = some n := if_pos h

/-- The counters are the numbers of earlier selections. -/
def Counted (counts : Counts) (selected : List Bytes) : Prop :=
  ∀ uri, uri ≠ [] → counts uri = selected.count uri

theorem ne_nil_of_isSome (h : (uriSplit uri).isSome = true) : uri ≠ [] := by
  rintro rfl
  exact absurd h (by decide)

/-- Where nothing overflows, the priority is the weight. -/
theorem priority_eq (hcounts : Counted counts selected) {us : UriSplitResult}
    (hus : uriSplit uri = some us)
    (hfits : (selected.count uri * 100000000 + listed call (hostOf uri) * 1000000 : Int) ≤ 2 ^ 31 ∧
      -2 ^ 31 ≤ weight selected call uri ∧ weight selected call uri < 2 ^ 31) :
    priority counts call uri us = some (weight selected call uri) := by
  have hhost : getFieldString us.host uri = hostOf uri := by rw [hostOf, hus]; rfl
  have hprotocol : getFieldString us.scheme uri = protocolOf uri := by rw [protocolOf, hus]; rfl
  have hcount : counts uri = selected.count uri := hcounts uri (ne_nil_of_isSome (by rw [hus]; rfl))
  obtain ⟨hsum, hlow, hhigh⟩ := hfits
  rw [weight] at hlow hhigh
  have h1 := int_eq (n := listed call (hostOf uri)) (by omega)
  have h2 := int_eq (n := -(selected.count uri : Int)) (by omega)
  have h3 := int_eq (n := -(selected.count uri : Int) * 100000000) (by omega)
  have h4 := int_eq (n := -(listed call (hostOf uri) : Int) * 1000000) (by omega)
  have h5 := int_eq (n := -(selected.count uri : Int) * 100000000 +
    -(listed call (hostOf uri) : Int) * 1000000) (by omega)
  have hweight : -(selected.count uri : Int) * 100000000 +
      -(listed call (hostOf uri) : Int) * 1000000 + speedOf call (hostOf uri) (protocolOf uri) =
        weight selected call uri := by
    rw [weight]
    omega
  rw [priority, hhost, hprotocol, hcount, h1, Option.bind_eq_bind, Option.bind_some, h2,
    Option.bind_some, h3, Option.bind_some, h4, Option.bind_some, h5, Option.bind_some, hweight]
  exact int_eq ⟨hlow, hhigh⟩

/-- The candidates are the remaining URIs, each with its weight. -/
theorem candidates_eq (hcounts : Counted counts selected) {uris : List Bytes}
    (hfits : ∀ uri ∈ uris, (uriSplit uri).isSome = true →
      (selected.count uri * 100000000 + listed call (hostOf uri) * 1000000 : Int) ≤ 2 ^ 31 ∧
        -2 ^ 31 ≤ weight selected call uri ∧ weight selected call uri < 2 ^ 31) :
    candidates counts call uris = some ((uris.filter fun uri => (uriSplit uri).isSome).map
      fun uri => (weight selected call uri, uri)) := by
  induction uris with
  | nil => rfl
  | cons uri uris ih =>
    obtain ⟨hfit, hfits⟩ := List.forall_mem_cons.mp hfits
    rcases hus : uriSplit uri with _ | us
    · rw [candidates, hus, List.filter_cons_of_neg (by simp [hus])]
      exact ih hfits
    · rw [candidates, hus, List.filter_cons_of_pos (by simp [hus]), List.map_cons]
      dsimp only
      rw [priority_eq hcounts hus (hfit (by simp [hus])), ih hfits]
      rfl

theorem counted_nil (hcounts : Counted counts selected) : Counted counts (selected ++ [[]]) := by
  intro uri huri
  rw [List.count_append, List.count_singleton, if_neg (by simpa using huri.symm), Nat.add_zero]
  exact hcounts uri huri

theorem counted_update (hcounts : Counted counts selected) (huri : uri ≠ []) :
    Counted (Function.update counts uri (counts uri + 1)) (selected ++ [uri]) := by
  intro v hv
  rw [List.count_append, List.count_singleton]
  by_cases heq : v = uri
  · obtain rfl := heq
    rw [Function.update_self, hcounts v hv, beq_self_eq_true, if_pos rfl, Nat.cast_add, Nat.cast_one]
  · rw [Function.update_of_ne heq, if_neg (by simpa using Ne.symm heq), Nat.add_zero]
    exact hcounts v hv

variable (sort) in
/-- Within the bounds the choice is fair. -/
theorem select_fair (hcounts : Counted counts selected) (h : Bounded selected call) :
    ∃ counts' uri, select sort counts call = some (counts', uri) ∧ Fair selected call uri ∧
      Counted counts' (selected ++ [uri]) := by
  have hcs : candidates counts call call.uris = _ :=
    candidates_eq hcounts fun uri hmem hus => h.fits ⟨hmem, hus⟩
  have hremaining : ∀ {v}, Remaining call v ↔
      v ∈ call.uris.filter fun uri => (uriSplit uri).isSome := by
    intro v
    rw [List.mem_filter]
    exact Iff.rfl
  generalize hl : (call.uris.filter fun uri => (uriSplit uri).isSome).map
    (fun uri => (weight selected call uri, uri)) = cs at hcs
  rw [select, selectBestAvailableUri, hcs, Option.map_some]
  have hperm := sort.perm cs
  have hordered := sort.ordered cs
  rcases hsort : sort.apply cs with _ | ⟨⟨p, uri⟩, rest⟩
  · refine ⟨counts, [], rfl, .inl ⟨rfl, fun v hv => ?_⟩, counted_nil hcounts⟩
    rw [hsort] at hperm
    rw [← hl] at hperm
    have hnil := List.map_eq_nil_iff.mp hperm.symm.eq_nil
    rw [hremaining, hnil] at hv
    exact nomatch hv
  · rw [hsort] at hperm hordered
    -- the URI in front is a remaining one, and no remaining one weighs more
    have hfront : (p, uri) ∈ cs := hperm.subset (.head _)
    rw [← hl] at hfront
    obtain ⟨v, hv, heq⟩ := List.mem_map.mp hfront
    obtain ⟨rfl, rfl⟩ := Prod.mk.inj heq
    have hremains := hremaining.mpr hv
    have hmax : ∀ w, Remaining call w → weight selected call w ≤ weight selected call v := by
      intro w hw
      have hmem : (weight selected call w, w) ∈ (weight selected call v, v) :: rest :=
        hperm.symm.subset (hl ▸ List.mem_map.mpr ⟨w, hremaining.mp hw, rfl⟩)
      obtain heq | hmem := List.mem_cons.mp hmem
      · exact (Prod.mk.inj heq).1.le
      · exact not_lt.mp (List.rel_of_pairwise_cons hordered hmem)
    have hne := ne_nil_of_isSome hremains.2
    have hfits := (h.fits hremains).1
    refine ⟨Function.update counts v (counts v + 1), v, ?_, .inr ⟨hremains, fun w hw hbefore => ?_⟩,
      counted_update hcounts hne⟩
    · have hcount := hcounts v hne
      rw [Option.bind_eq_bind, Option.bind_some]
      dsimp only
      rw [if_neg hne, int_eq (by omega)]
      rfl
    · exact absurd (hmax w hw) (not_le.mpr (h.ordered hw hremains hbefore))

/-! ## Runs -/

/-- A selector, and what it has returned. -/
structure Session where
  counts : Counts
  selected : List Bytes

/-- A new selector. -/
def Session.start : Session := ⟨fun _ => 0, []⟩

/-- A call, and how the candidates are sorted in it. -/
structure Event where
  call : Call
  sort : Sorter

def step (s : Session) (e : Event) : Session :=
  match select e.sort s.counts e.call with
  | some (counts, uri) => ⟨counts, s.selected ++ [uri]⟩
  | none => s

/-- A call does not overflow, and makes a fair choice. -/
def Right (s : Session) (e : Event) : Prop :=
  ∃ counts uri, select e.sort s.counts e.call = some (counts, uri) ∧ Fair s.selected e.call uri

/-- In a run within the bounds every choice is fair. -/
theorem fair_of_bounded (es : List Event)
    (h : Along step (fun s e => Bounded s.selected e.call) Session.start es) :
    Along step Right Session.start es := by
  have hstart : Counted Session.start.counts Session.start.selected := fun uri _ => rfl
  refine along_of_along (fun s e (hs : Counted s.counts s.selected) hbounded => ?_)
    (fun s e hs hbounded => ?_) hstart h
  · obtain ⟨counts, uri, hselect, -, hcounted⟩ := select_fair e.sort hs hbounded
    rw [step, hselect]
    exact hcounted
  · obtain ⟨counts, uri, hselect, hfair, -⟩ := select_fair e.sort hs hbounded
    exact ⟨counts, uri, hselect, hfair⟩

/-- Insertion sort is one of the sorts. -/
def Sorter.insertion : Sorter where
  apply := List.insertionSort fun a b => b.1 ≤ a.1
  perm := List.perm_insertionSort _
  ordered l := by
    have htotal : Std.Total fun a b : Int × Bytes => b.1 ≤ a.1 := ⟨fun a b => le_total b.1 a.1⟩
    have htrans : IsTrans (Int × Bytes) fun a b => b.1 ≤ a.1 := ⟨fun a b c h h' => h'.trans h⟩
    exact (List.pairwise_insertionSort _ l).imp fun h => not_lt.mpr h

/-- Two mirrors, one of which has a connection and a server as fast as `speed`. -/
def twoMirrors (speed : Int) : Call where
  uris := ["http://a/x".toUTF8.toList, "http://b/x".toUTF8.toList]
  usedHosts := [(1, "a".toUTF8.toList)]
  find := fun host _ => if host = "a".toUTF8.toList then some ⟨speed, 0⟩ else none

/-- The bounds, for all URIs of a call. -/
theorem bounded_of_forall {l : List Bytes} (hl : call.uris = l)
    (h : ∀ u ∈ l, connections call (hostOf u) = listed call (hostOf u) ∧
      selected.count u * 100000000 + listed call (hostOf u) * 1000000 ≤ 2 ^ 31 ∧
      0 ≤ speedOf call (hostOf u) (protocolOf u) ∧
      speedOf call (hostOf u) (protocolOf u) < 2 ^ 31 ∧
      ∀ v ∈ l, listed call (hostOf u) < listed call (hostOf v) + 100 ∧
        speedOf call (hostOf u) (protocolOf u) < speedOf call (hostOf v) (protocolOf v) + 1000000) :
    Bounded selected call := by
  subst hl
  exact {
    entries := fun uri huri => (h uri huri.1).1
    sum := fun uri huri => (h uri huri.1).2.1
    speed := fun uri huri => ⟨(h uri huri.1).2.2.1, (h uri huri.1).2.2.2.1⟩
    hundred := fun u v hu hv => ((h u hu.1).2.2.2.2 v hv.1).1
    million := fun u v hu hv => ((h u hu.1).2.2.2.2 v hv.1).2 }

/-- The second mirror has the connection that was opened to it. -/
def bothUsed : Call :=
  { twoMirrors 1500000 with
    usedHosts := [(1, "a".toUTF8.toList), (1, "b".toUTF8.toList)]
    find := fun host _ =>
      if host = "a".toUTF8.toList then some ⟨1500000, 0⟩ else some ⟨700000, 900000⟩ }

/-- The mirror without a connection, then the one that has not been selected, then the faster
one. -/
def rotation : List Event :=
  [⟨twoMirrors 1000, Sorter.insertion⟩, ⟨bothUsed, Sorter.insertion⟩, ⟨bothUsed, Sorter.insertion⟩]

theorem fair_of_bounded_rotation : Along step Right Session.start rotation ∧
    (exec step Session.start rotation).selected =
      ["http://b/x".toUTF8.toList, "http://a/x".toUTF8.toList, "http://a/x".toUTF8.toList] :=
  ⟨fair_of_bounded _ ⟨bounded_of_forall rfl (by decide +kernel),
    bounded_of_forall rfl (by decide +kernel), bounded_of_forall rfl (by decide +kernel), trivial⟩,
    by decide +kernel⟩

/-- A speed of two megabytes outweighs the connection. -/
theorem fast_server_counterexample :
    ¬ Along step Right Session.start [⟨twoMirrors 2000000, Sorter.insertion⟩] := by
  rintro ⟨⟨counts, uri, hselect, hfair⟩, -⟩
  have hfirst : (select Sorter.insertion Session.start.counts (twoMirrors 2000000)).map Prod.snd =
      some "http://a/x".toUTF8.toList := by decide +kernel
  rw [hselect] at hfirst
  obtain rfl : uri = "http://a/x".toUTF8.toList := Option.some.inj hfirst
  obtain ⟨hnil, -⟩ | ⟨-, hbest⟩ := hfair
  · exact absurd hnil (by decide +kernel)
  · exact hbest "http://b/x".toUTF8.toList ⟨by decide +kernel, by decide +kernel⟩ (by decide +kernel)

end

end FluxCore.Request.MultiMirror
