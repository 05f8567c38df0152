import FluxCore.Uri.NormalizePath
import FluxCore.Uri.RoundTrip

/-!
# Relative references

`joinUri` resolves a relative reference: it joins the directory of the base URI and the path of the
reference, and puts the result behind what `construct` writes for the base URI without its path.
-/

namespace FluxCore.Uri

open Utp (Bytes)
open Torrent (slash)

/-! ## The functions -/

def joinPath (basePath newPath : Bytes) : Option Bytes :=
  if newPath = [] then some basePath
  else if basePath = [] ∨ newPath.head? = some slash then normalizePath newPath
  else if basePath.getLast? = some slash then normalizePath (basePath ++ newPath)
  else normalizePath (basePath ++ [slash] ++ newPath)

/-- The path of a reference: what is in front of its query and its fragment. -/
def refPath (uri : Bytes) : Bytes := (uri.takeWhile (· ≠ hash)).takeWhile (· ≠ question)

/-- The query of a reference, with its question mark. -/
def refQuery (uri : Bytes) : Bytes := (uri.takeWhile (· ≠ hash)).dropWhile (· ≠ question)

/-- It is `none` where `parse` throws, or where `normalizePath` leaves its path. -/
def joinUri (baseUri uri : Bytes) : Option Bytes :=
  match parse uri with
  | .lengthError => none
  | .accepted _ => some uri
  | .rejected =>
    match parse baseUri with
    | .lengthError => none
    | .rejected => some uri
    | .accepted bus =>
      (joinPath bus.dir (refPath uri)).map fun newpath =>
        construct { bus with dir := [], file := [], query := [] } ++ newpath.tail ++ refQuery uri

/-! ## Normalised paths -/

/-- What the normalisation of a path should be. -/
structure Normalizes (path : Bytes) : Prop where
  spec : normalizePath path = some (removeDotSegments path)
  idem : normalizePath (removeDotSegments path) = some (removeDotSegments path)
  clean : Clean (removeDotSegments path)

/-- A URI whose path begins with one slash and not with two. -/
def OneSlash (s : Bytes) : Prop :=
  ∃ x : Parts, x.WF ∧ s = x.render ∧ ∃ t, x.tail.path = slash :: t ∧ t.head? ≠ some slash

/-- `parse` reads the scheme, the authority and the directory of a URI with the parts `x`. -/
structure ReadAs (uri : Bytes) (x : Parts) : Prop where
  wf : x.WF
  render : cstr uri = x.render
  parsed : ∃ file query, parse uri = .accepted { x.struct with file, query }

section

variable {path base uri : Bytes} {x : Parts}

theorem normalizes (h : Placed path) : Normalizes path := by
  refine ⟨normalizePath_spec h, ?_, clean_removeDotSegments path⟩
  rw [normalizePath_spec h.removeDotSegments, removeDotSegments_idem]

/-- A URI is read right where its places are numbers of 16 bits. -/
theorem readAs_of_fits (h : x.WF) (hs : cstr uri = x.render) (hfits : x.places.Fits) :
    ReadAs uri x :=
  ⟨h, hs, _, _, parse_render h hs hfits⟩

/-! ## Joined paths -/

/-- The directory of a URI begins with a slash, and is part of its path. -/
theorem dir_spec (x : Parts) : (∃ d, x.dir = slash :: d) ∧ question ∉ x.dir ∧ hash ∉ x.dir := by
  by_cases hpath : x.tail.path = []
  · rw [Parts.dir, if_pos hpath]
    exact ⟨⟨[], rfl⟩, by decide, by decide⟩
  · obtain ⟨⟨a, ha⟩, hdir⟩ := x.dir_append
    rw [if_neg hpath] at hdir
    have hsub : ∀ c ∈ x.dir, c ∈ x.tail.path := fun c hc => hdir ▸ List.mem_append_left _ hc
    refine ⟨?_, fun hc => x.tail.path_chars.1 (hsub _ hc), fun hc => x.tail.path_chars.2 (hsub _ hc)⟩
    obtain hnil | ⟨t, ht⟩ := x.tail.path_start
    · exact absurd hnil hpath
    · rw [ht] at hdir
      obtain ⟨b, d, hd⟩ : ∃ b d, x.dir = b :: d :=
        List.exists_cons_of_ne_nil (ha ▸ List.append_ne_nil_of_right_ne_nil _ (List.cons_ne_nil slash []))
      rw [hd] at hdir ⊢
      obtain rfl : b = slash := (List.cons.inj hdir).1
      exact ⟨d, rfl⟩

theorem refPath_chars (uri : Bytes) : question ∉ refPath uri ∧ hash ∉ refPath uri := by
  refine ⟨fun hc => ?_, fun hc => ?_⟩
  · exact absurd (List.mem_takeWhile_imp hc) (by simp)
  · exact absurd (List.mem_takeWhile_imp ((List.takeWhile_sublist _).subset hc)) (by simp)

/-- The path that is normalised for a reference. -/
def joinedPath (x : Parts) (uri : Bytes) : Bytes :=
  if (refPath uri).head? = some slash then refPath uri else x.dir ++ refPath uri

theorem joinedPath_spec (x : Parts) (uri : Bytes) (hne : refPath uri ≠ []) :
    joinPath x.dir (refPath uri) = normalizePath (joinedPath x uri) ∧
      (joinedPath x uri).head? = some slash ∧ question ∉ joinedPath x uri ∧
        hash ∉ joinedPath x uri := by
  obtain ⟨⟨d, hd⟩, hdir⟩ := dir_spec x
  obtain ⟨⟨a, ha⟩, -⟩ := x.dir_append
  have hchars := refPath_chars uri
  rw [joinPath, if_neg hne, joinedPath]
  by_cases hslash : (refPath uri).head? = some slash
  · rw [if_pos (.inr hslash), if_pos hslash]
    exact ⟨rfl, hslash, hchars⟩
  · rw [if_neg (by simp [hd, hslash]), if_pos (by simp [ha]), if_neg hslash]
    exact ⟨rfl, by rw [hd]; rfl, fun hc => (List.mem_append.mp hc).elim hdir.1 hchars.1,
      fun hc => (List.mem_append.mp hc).elim hdir.2 hchars.2⟩

/-- Where the path of a reference is empty, the directory of the base URI stays as it is; else the
joined path is normalised, or nothing of it is left but the first slash. -/
def JoinsRight (x : Parts) (uri : Bytes) : Prop :=
  if refPath uri = [] then x.dir.tail.head? ≠ some slash
  else Placed (joinedPath x uri) ∨
    2 ^ 30 ≤ (places (joinedPath x uri)).length ∧ (places (joinedPath x uri)).length ≤ 2 ^ 31

instance (x : Parts) (uri : Bytes) : Decidable (JoinsRight x uri) :=
  inferInstanceAs (Decidable (ite _ _ _))

/-- A path that begins with a slash is normalised to one that begins with one slash. -/
theorem normalizePath_absolute (h : Placed path) (hhead : path.head? = some slash)
    (hchars : question ∉ path ∧ hash ∉ path) : ∃ t, normalizePath path = some (slash :: t) ∧
      t.head? ≠ some slash ∧ question ∉ slash :: t ∧ hash ∉ slash :: t := by
  have hlead : (removeDotSegments path).head? = some slash := by
    rw [removeDotSegments, assemble, hhead]
    rfl
  obtain ⟨t, ht, hone⟩ := head_tail_of_clean (clean_removeDotSegments path) hlead
  have hsub : ∀ c, c ≠ slash → c ∉ path → c ∉ slash :: t := by
    intro c hc hpath hmem
    rw [← ht] at hmem
    exact (mem_removeDotSegments hmem).elim hc hpath
  refine ⟨t, ht ▸ normalizePath_spec h, hone, hsub _ (by decide) hchars.1,
    hsub _ (by decide) hchars.2⟩

/-- The joined path begins with exactly one slash. -/
theorem JoinsRight.joinPath (h : JoinsRight x uri) :
    ∃ t, joinPath x.dir (refPath uri) = some (slash :: t) ∧ t.head? ≠ some slash ∧
      question ∉ slash :: t ∧ hash ∉ slash :: t := by
  rw [JoinsRight] at h
  split at h
  next hnil =>
    obtain ⟨⟨d, hd⟩, hdir⟩ := dir_spec x
    rw [Uri.joinPath, if_pos hnil]
    rw [hd] at h hdir
    exact ⟨d, congrArg some hd, h, hdir⟩
  next hne =>
    obtain ⟨hjoin, hhead, hchars⟩ := joinedPath_spec x uri hne
    rw [hjoin]
    rcases h with hplaced | ⟨hmany, hle⟩
    · exact normalizePath_absolute hplaced hhead hchars
    · obtain ⟨t, ht⟩ : ∃ t, joinedPath x uri = slash :: t := by
        rcases hpath : joinedPath x uri with _ | ⟨c, t⟩
        · rw [hpath] at hhead
          cases hhead
        · rw [hpath] at hhead
          exact ⟨t, by rw [Option.some.inj hhead]⟩
      refine ⟨[], ?_, by decide, by decide, by decide⟩
      rw [normalizePath_many hmany hle, ht]
      rfl

/-- Below 2^32 bytes every other reference is joined wrong, or leaves its path. -/
theorem not_joinsRight (h : ¬JoinsRight x uri) (hlen : (joinedPath x uri).length < 2 ^ 32) :
    joinPath x.dir (refPath uri) = none ∨
      ∃ t, joinPath x.dir (refPath uri) = some (slash :: t) ∧ t.head? = some slash ∧
        question ∉ slash :: t ∧ hash ∉ slash :: t := by
  rw [JoinsRight] at h
  split at h
  next hnil =>
    obtain ⟨⟨d, hd⟩, hdir⟩ := dir_spec x
    rw [joinPath, if_pos hnil]
    rw [hd] at h hdir
    exact .inr ⟨d, congrArg some hd, not_not.mp h, hdir⟩
  next hne =>
    obtain ⟨hjoin, -⟩ := joinedPath_spec x uri hne
    obtain ⟨hplaced, hmany⟩ := not_or.mp h
    have hcount := length_places_le (joinedPath x uri)
    have hfew : (places (joinedPath x uri)).length < 2 ^ 30 := by omega
    exact .inl (hjoin.trans (normalizePath_far hlen (fun hnear => hplaced ⟨hnear, hfew⟩) hfew))

/-! ## Joined URIs -/

theorem refQuery_eq (uri : Bytes) : ∃ q : Option Bytes, refQuery uri = Tail.part question q ∧
    ∀ s ∈ q, hash ∉ s := by
  rcases hq : refQuery uri with _ | ⟨c, q⟩
  · exact ⟨none, rfl, nofun⟩
  · have hc : c = question := by
      have := List.head?_dropWhile_not (fun c : UInt8 => decide (c ≠ question))
        (uri.takeWhile (· ≠ hash))
      rw [← refQuery, hq] at this
      simpa using this
    refine ⟨some q, by rw [hc]; rfl, ?_⟩
    rintro s hs hmem
    obtain rfl := Option.mem_some.mp hs
    have hfront : hash ∈ uri.takeWhile (· ≠ hash) :=
      (List.dropWhile_sublist _).subset (hq ▸ List.mem_cons_of_mem c hmem : hash ∈ refQuery uri)
    exact absurd (List.mem_takeWhile_imp hfront) (by simp)

/-- What is joined is a URI, with the joined path. -/
theorem joinUri_eq (hbase : ReadAs base x) (hrel : parse uri = .rejected)
    {t : Bytes} (hjoin : joinPath x.dir (refPath uri) = some (slash :: t))
    (hchars : question ∉ slash :: t ∧ hash ∉ slash :: t) :
    ∃ y : Parts, y.WF ∧ y.tail.path = slash :: t ∧ joinUri base uri = some y.render := by
  obtain ⟨file, query, hparse⟩ := hbase.parsed
  obtain ⟨q, hq, hqchars⟩ := refQuery_eq uri
  refine ⟨x.respelled ⟨slash :: t, q, none, .inr ⟨t, rfl⟩, hchars, hqchars⟩,
    Parts.respelled_wf hbase.wf (List.cons_ne_nil _ _), rfl, ?_⟩
  have hconstruct := Parts.construct_eq hbase.wf [] [] []
    ⟨slash :: t, q, none, .inr ⟨t, rfl⟩, hchars, hqchars⟩
  rw [joinUri, hrel, hparse]
  dsimp only
  rw [show ({ x.struct with file, query } : UriStruct).dir = x.dir from rfl, hjoin, Option.map_some, hq]
  refine congrArg some ((congrArg (· ++ t ++ Tail.part question q) hconstruct).trans ?_)
  rw [Parts.render, after, Tail.render]
  simp [Parts.respelled, Tail.part]

/-- A reference is joined to a URI whose path begins with exactly one slash. -/
theorem joinUri_oneSlash (hbase : ReadAs base x) (hrel : uriSplit uri = none)
    (h : JoinsRight x uri) : ∃ s, joinUri base uri = some s ∧ OneSlash s := by
  have hreject : parse uri = .rejected := by rw [parse, hrel]
  obtain ⟨t, hjoin, hone, hchars⟩ := h.joinPath
  obtain ⟨y, hy, hpath, hs⟩ := joinUri_eq hbase hreject hjoin hchars
  exact ⟨_, hs, y, hy, rfl, t, hpath, hone⟩

theorem joinsRight_of_oneSlash (hbase : ReadAs base x) (hrel : uriSplit uri = none)
    (hlen : (joinedPath x uri).length < 2 ^ 32) {s : Bytes} (hs : joinUri base uri = some s)
    (hone : OneSlash s) : JoinsRight x uri := by
  have hreject : parse uri = .rejected := by rw [parse, hrel]
  by_contra h
  obtain hnone | ⟨t, hjoin, htwo, hchars⟩ := not_joinsRight h hlen
  · obtain ⟨file, query, hparse⟩ := hbase.parsed
    have hdir : ({ x.struct with file, query } : UriStruct).dir = x.dir := rfl
    rw [joinUri, hreject, hparse] at hs
    dsimp only at hs
    rw [hdir, hnone] at hs
    cases hs
  · obtain ⟨y, hy, hpath, hs'⟩ := joinUri_eq hbase hreject hjoin hchars
    obtain ⟨z, hz, rfl, t', ht', hone'⟩ := hone
    obtain rfl := Parts.render_injective hy hz (Option.some.inj (hs'.symm.trans hs))
    rw [hpath] at ht'
    obtain rfl : t = t' := (List.cons.inj ht').2
    exact hone' htwo

/-- Paths are normalised, and references are joined to URIs whose path begins with exactly one
slash, if the components that are left have their places below 2^31. Below 2^32 bytes this is so
only then. -/
theorem normalizes_and_oneSlash_iff (path : Bytes) (hbase : ReadAs base x)
    (hrel : uriSplit uri = none) :
    (Placed path → Normalizes path) ∧
      (path.length < 2 ^ 32 → (Normalizes path ↔ Placed path)) ∧
      (JoinsRight x uri → ∃ s, joinUri base uri = some s ∧ OneSlash s) ∧
      ((joinedPath x uri).length < 2 ^ 32 →
        ((∃ s, joinUri base uri = some s ∧ OneSlash s) ↔ JoinsRight x uri)) :=
  ⟨normalizes, fun hlen => ⟨fun h => placed_of_normalizePath hlen h.spec, normalizes⟩,
    joinUri_oneSlash hbase hrel,
    fun hlen => ⟨fun ⟨_, hs, hone⟩ => joinsRight_of_oneSlash hbase hrel hlen hs hone,
      joinUri_oneSlash hbase hrel⟩⟩

/-- The parts of a URI `http://h` with a path. -/
def plainParts (path : Bytes) (query : Option Bytes) (hpath : path = [] ∨ ∃ t, path = slash :: t)
    (hchars : question ∉ path ∧ hash ∉ path) (hquery : ∀ q ∈ query, hash ∉ q) : Parts where
  scheme := "http".toUTF8.toList
  user := none
  ipv6 := false
  host := "h".toUTF8.toList
  port := none
  tail := ⟨path, query, none, hpath, hchars, hquery⟩

theorem plainParts_wf {path : Bytes} {query : Option Bytes}
    (hpath : path = [] ∨ ∃ t, path = slash :: t) (hchars : question ∉ path ∧ hash ∉ path)
    (hquery : ∀ q ∈ query, hash ∉ q) : (plainParts path query hpath hchars hquery).WF where
  scheme_ne := show "http".toUTF8.toList ≠ [] by decide +kernel
  scheme_chars := show colon ∉ "http".toUTF8.toList.tail by decide +kernel
  user := nofun
  host := show FirstWF isName "h".toUTF8.toList from
    ⟨by decide +kernel, by decide +kernel, by decide +kernel⟩
  port := nofun

theorem normalizes_and_oneSlash_witness :
    Normalizes "/a//./b/../c".toUTF8.toList ∧
      normalizePath "/a//./b/../c".toUTF8.toList = some "/a/c".toUTF8.toList ∧
      (∃ s, joinUri "http://h/a/b".toUTF8.toList "../c/./d?q".toUTF8.toList = some s ∧
        OneSlash s) ∧
      joinUri "http://h/a/b".toUTF8.toList "../c/./d?q".toUTF8.toList =
        some "http://h/c/d?q".toUTF8.toList := by
  have hbase : ReadAs "http://h/a/b".toUTF8.toList (plainParts "/a/b".toUTF8.toList none
      (.inr ⟨"a/b".toUTF8.toList, by decide +kernel⟩) (by decide +kernel) nofun) :=
    readAs_of_fits (plainParts_wf _ _ _) (by decide +kernel)
      ((UriSplitResult.truncate_eq_iff _).mp (by decide +kernel))
  have hrel : uriSplit "../c/./d?q".toUTF8.toList = none := by decide +kernel
  have h := normalizes_and_oneSlash_iff "/a//./b/../c".toUTF8.toList hbase hrel
  exact ⟨h.1 (by decide +kernel), by decide +kernel, h.2.2.1 (by decide +kernel), by decide +kernel⟩

/-- The reference `?q` and the base `http://h//a` give `http://h//?q`. -/
theorem joinUri_counterexample :
    ∃ s, parse "http://h//a".toUTF8.toList ≠ .rejected ∧ parse "?q".toUTF8.toList = .rejected ∧
      joinUri "http://h//a".toUTF8.toList "?q".toUTF8.toList = some s ∧ ¬ OneSlash s := by
  refine ⟨"http://h//?q".toUTF8.toList, by decide +kernel, by decide +kernel, by decide +kernel, ?_⟩
  rintro ⟨x, hx, hs, t, hpath, hone⟩
  have hparts : (plainParts [slash, slash] (some "q".toUTF8.toList) (.inr ⟨[slash], rfl⟩)
    (by decide) (by decide +kernel)).WF := plainParts_wf _ _ _
  have hrender : (plainParts [slash, slash] (some "q".toUTF8.toList) (.inr ⟨[slash], rfl⟩)
    (by decide) (by decide +kernel)).render = "http://h//?q".toUTF8.toList := by decide +kernel
  obtain rfl := Parts.render_injective hparts hx (hrender.trans hs)
  obtain rfl : [slash] = t := (List.cons.inj hpath).2
  exact hone rfl

end

end FluxCore.Uri
