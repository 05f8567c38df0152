import FluxCore.Torrent.FileEntries

/-!
# Where the files of a torrent go

A path of a torrent is checked for components that lead out of the download directory, not for
components that are empty.
-/

namespace FluxCore.Torrent

open Utp (Bytes)
open Bencode (ValueBase Dict name)

/-- The download directory, up to the separator in front of what is below it. -/
def directory (dir : Bytes) : Bytes :=
  if dir = [] then dot else if dir = [slash] then [] else dir

/-- The file stays below the download directory. -/
structure Below (dir : Bytes) (fe : FileEntry) : Prop where
  path : fe.path = directory dir ++ [slash] ++ fe.suffixPath
  inside : Inside fe.suffixPath

/-- A name as a torrent has it: not empty, and where it is UTF-8 and is taken as it is, without a
separator at an end and without two in a row. -/
def NoGap (s : Bytes) : Prop :=
  s ≠ [] ∧ (isUtf8 s = true → ¬[slash] <+: s ∧ ¬[slash] <:+ s ∧ ¬[slash, slash] <:+: s)

/-- No name of the torrent that goes into a path has a gap. -/
structure Gapless (infoDict : Dict) : Prop where
  torrentName : ∀ s, Dict.getString infoDict (preferUtf8 infoDict "name") = some s →
    (∀ files, Dict.getList infoDict (name "files") = some files → ∃ d, .dict d ∈ files) → NoGap s
  filePaths : ∀ files, Dict.getList infoDict (name "files") = some files → ∀ d, .dict d ∈ files →
    ∀ l, Dict.getList d (preferUtf8 d "path") = some l → ∀ s, .string s ∈ l → NoGap s

/-! ## Names and paths -/

variable {s dir : Bytes} {o : Settings}

theorem applyDir_eq (dir relPath : Bytes) :
    applyDir dir relPath = directory dir ++ [slash] ++ relPath := by
  unfold applyDir directory
  split
  · rfl
  · split
    next h => rw [h]; rfl
    · rfl

theorem nil_mem_splitOn_iff :
    [] ∈ s.splitOn slash ↔ s = [] ∨ [slash] <+: s ∨ [slash] <:+ s ∨ [slash, slash] <:+: s :=
  Components.mem_splitOn_iff_infix List.not_mem_nil

theorem noGap_iff : NoGap s ↔ [] ∉ (encodeNonUtf8 s).splitOn slash := by
  rw [nil_mem_splitOn_encodeNonUtf8, nil_mem_splitOn_iff, NoGap]
  constructor
  · rintro ⟨hs, h⟩ ⟨hutf8, hnil | h1 | h2 | h3⟩
    exacts [hs hnil, (h hutf8).1 h1, (h hutf8).2.1 h2, (h hutf8).2.2 h3]
  · intro h
    refine ⟨?_, fun hutf8 => ⟨fun h1 => ?_, fun h2 => ?_, fun h3 => ?_⟩⟩
    · rintro rfl
      exact h ⟨rfl, .inl rfl⟩
    · exact h ⟨hutf8, .inr (.inl h1)⟩
    · exact h ⟨hutf8, .inr (.inr (.inl h2))⟩
    · exact h ⟨hutf8, .inr (.inr (.inr h3))⟩

theorem escapePath_of_detectDirTraversal (h : detectDirTraversal s = false) :
    escapePath s = s := by
  by_cases hs : s = []
  · rw [hs]; rfl
  · exact escapePath_eq ((detectDirTraversal_eq_false_iff hs).mp h).1

/-- A path that passes the check is below the directory unless it has an empty component. -/
theorem below_iff_of_detectDirTraversal (h : detectDirTraversal s = false) {length offset : Int}
    {uris : List Bytes} :
    Below o.dir (o.fileEntry s length offset uris) ↔ [] ∉ s.splitOn slash := by
  rw [← inside_iff h]
  have hsuffix : (o.fileEntry s length offset uris).suffixPath = s :=
    escapePath_of_detectDirTraversal h
  constructor
  · exact fun hb => hsuffix ▸ hb.inside
  · exact fun hin => ⟨applyDir_eq .., by rwa [hsuffix]⟩

/-- The name that is made up for a torrent without one. -/
theorem notMem_slash_default (defaultName : Bytes) :
    slash ∉ getBasename defaultName ++ name ".file" := by
  rw [List.mem_append, not_or]
  constructor
  · unfold getBasename
    rw [List.mem_reverse]
    intro h
    simpa using List.all_eq_true.mp List.all_takeWhile _ h
  · decide +kernel

theorem isControl_of_mem_escapePath {c : UInt8} (hc : c ∈ escapePath s) : isControl c = false := by
  obtain ⟨b, -, hb⟩ := List.mem_flatMap.mp hc
  split at hb
  · have henc := List.all_eq_true.mp (isEncoded_percent b) c hb
    exact not_isControl_of_isEncoded henc
  next hctl => rw [List.mem_singleton.mp hb]; exact Bool.eq_false_iff.mpr hctl

theorem notMem_slash_escapePath (h : slash ∉ s) : slash ∉ escapePath s := by
  intro hc
  obtain ⟨b, hb, hc⟩ := List.mem_flatMap.mp hc
  split at hc
  · exact (isUtf8One_of_isEncoded (List.all_eq_true.mp (isEncoded_percent b) _ hc)).2 rfl
  · exact h (List.mem_singleton.mp hc ▸ hb)

theorem length_le_escapePath (s : Bytes) : s.length ≤ (escapePath s).length := by
  induction s with
  | nil => exact Nat.zero_le _
  | cons c s ih =>
    have hcons : escapePath (c :: s) =
      (if isControl c then percent c else [c]) ++ escapePath s := List.flatMap_cons
    rw [hcons, List.length_append, List.length_cons]
    split
    · simp only [percent, List.length_cons, List.length_nil]
      omega
    · simp only [List.length_cons, List.length_nil]
      omega

/-- The file of a torrent without a name is below the directory. -/
theorem below_default (defaultName : Bytes) {length offset : Int} {uris : List Bytes} :
    Below o.dir (o.fileEntry (getBasename defaultName ++ name ".file") length offset uris) := by
  have hslash := notMem_slash_escapePath (notMem_slash_default defaultName)
  have hlength := length_le_escapePath (getBasename defaultName ++ name ".file")
  have hfile : (name ".file").length = 5 := by decide +kernel
  rw [List.length_append, hfile] at hlength
  refine ⟨applyDir_eq .., fun hnil => ?_, fun c hc => ?_, fun c => isControl_of_mem_escapePath⟩
  · have : (escapePath (getBasename defaultName ++ name ".file")).length = 0 :=
      congrArg List.length hnil
    omega
  · rw [Settings.fileEntry, List.splitOn_eq_singleton hslash, List.mem_singleton] at hc
    refine ⟨?_, ?_, ?_⟩
    all_goals
      intro heq
      rw [← hc, heq] at hlength
      simp only [dot, dotDot, List.length_cons, List.length_nil] at hlength
      omega

theorem noGap_default (defaultName : Bytes) : NoGap (getBasename defaultName ++ name ".file") := by
  have hslash := notMem_slash_default defaultName
  rw [noGap_iff, nil_mem_splitOn_encodeNonUtf8, List.splitOn_eq_singleton hslash,
    List.mem_singleton]
  rintro ⟨-, hnil⟩
  have hfile : (name ".file").length = 5 := by decide +kernel
  have : (getBasename defaultName ++ name ".file").length = 0 := (congrArg List.length hnil).symm
  rw [List.length_append, hfile] at this
  omega

/-! ## Files -/

theorem mem_pathStrings {l : List ValueBase} {path : List Bytes} (h : pathStrings l = some path)
    {e : Bytes} : e ∈ path ↔ .string e ∈ l := by
  induction l generalizing path with
  | nil => cases h; simp
  | cons v l ih =>
    cases v with
    | string e' =>
      obtain ⟨path', hpath, rfl⟩ := Option.map_eq_some_iff.mp h
      rw [List.mem_cons, List.mem_cons, ih hpath, ValueBase.string.injEq]
    | _ => cases h

/-- A joined path is without empty components where its elements are without gaps. -/
theorem nil_notMem_strjoin {e : Bytes} {path : List Bytes} :
    [] ∉ (strjoin ((e :: path).map encodeNonUtf8)).splitOn slash ↔
      NoGap e ∧ ∀ e' ∈ path, NoGap e' := by
  rw [strjoin, List.map_cons, Components.splitOn_intercalate, ← List.map_cons,
    ← List.forall_mem_cons (p := NoGap), List.mem_flatMap]
  constructor
  · exact fun h e' he' => noGap_iff.mpr fun hnil => h ⟨_, List.mem_map_of_mem he', hnil⟩
  · rintro h ⟨_, hmem, hnil⟩
    obtain ⟨e', he', rfl⟩ := List.mem_map.mp hmem
    exact noGap_iff.mp (h e' he') hnil

/-- What a turn of the loop adds. -/
theorem extractFile_below {urlList : List Bytes} {utf8Name : Bytes} {files files' : Files}
    {v : ValueBase} (h : extractFile o urlList utf8Name files v = .ok files') :
    (∀ fe ∈ files'.fileEntries, Below o.dir fe) ↔
      (∀ fe ∈ files.fileEntries, Below o.dir fe) ∧ ∀ d, v = .dict d →
        NoGap utf8Name ∧ ∀ l, Dict.getList d (preferUtf8 d "path") = some l →
          ∀ s, .string s ∈ l → NoGap s := by
  unfold extractFile at h
  split at h
  next fileDict =>
    dsimp only at h
    split at h
    · cases h
    split at h
    · cases h
    split at h
    · cases h
    split at h
    · cases h
    next hempty =>
    split at h
    · cases h
    next path hpath =>
    split at h
    · cases h
    next hdetect =>
    obtain ⟨l, hl⟩ : ∃ l, Dict.getList fileDict (preferUtf8 fileDict "path") = some l := by
      cases hl : Dict.getList fileDict (preferUtf8 fileDict "path") with
      | none => rw [hl] at hempty; exact absurd rfl hempty
      | some l => exact ⟨l, rfl⟩
    rw [hl, Option.getD_some] at hpath
    cases h
    rw [List.forall_mem_append, List.forall_mem_singleton,
      below_iff_of_detectDirTraversal (Bool.eq_false_iff.mpr hdetect), nil_notMem_strjoin]
    simp only [ValueBase.dict.injEq, forall_eq', hl, Option.some.injEq, mem_pathStrings hpath]
  next hdict =>
    cases h
    exact (and_iff_left fun d hd => absurd hd (hdict d)).symm

theorem foldlM_extractFile_below {urlList : List Bytes} {utf8Name : Bytes} {vs : List ValueBase}
    {files files' : Files} (h : vs.foldlM (extractFile o urlList utf8Name) files = .ok files') :
    (∀ fe ∈ files'.fileEntries, Below o.dir fe) ↔
      (∀ fe ∈ files.fileEntries, Below o.dir fe) ∧ ∀ d, .dict d ∈ vs →
        NoGap utf8Name ∧ ∀ l, Dict.getList d (preferUtf8 d "path") = some l →
          ∀ s, .string s ∈ l → NoGap s := by
  induction vs generalizing files with
  | nil =>
    cases h
    exact (and_iff_left fun d hd => absurd hd List.not_mem_nil).symm
  | cons v vs ih =>
    rw [List.foldlM_cons] at h
    cases hv : extractFile o urlList utf8Name files v with
    | error e => rw [hv] at h; cases h
    | ok mid =>
      rw [hv] at h
      rw [ih h, extractFile_below hv, and_assoc]
      refine and_congr_right fun _ => ?_
      constructor
      · rintro ⟨hhead, htail⟩ d hd
        rcases List.mem_cons.mp hd with heq | hd
        exacts [hhead d heq.symm, htail d hd]
      · intro hall
        exact ⟨fun d hd => hall d (hd ▸ List.mem_cons_self ..),
          fun d hd => hall d (List.mem_cons_of_mem _ hd)⟩

/-! ## Torrents -/

/-- The name of a torrent passes the check, or is made up. -/
theorem extractName_cases {infoDict : Dict} {defaultName utf8Name : Bytes}
    (h : extractName infoDict defaultName [] = .ok utf8Name) :
    (∃ nameData, Dict.getString infoDict (preferUtf8 infoDict "name") = some nameData ∧
        utf8Name = encodeNonUtf8 nameData ∧ detectDirTraversal utf8Name = false) ∨
      Dict.getString infoDict (preferUtf8 infoDict "name") = none ∧
        utf8Name = getBasename defaultName ++ name ".file" := by
  unfold extractName at h
  rw [if_pos rfl] at h
  split at h
  next nameData hname =>
    dsimp only at h
    split at h
    · cases h
    next hdetect =>
      cases h
      exact .inl ⟨nameData, hname, rfl, Bool.eq_false_iff.mpr hdetect⟩
  next hname =>
    cases h
    exact .inr ⟨hname, rfl⟩

/-- The files of a torrent that is accepted stay below the download directory exactly where no name
in it has a gap. -/
theorem below_iff_gapless {infoDict : Dict} {defaultName : Bytes} {urlList : List Bytes}
    {r : Extracted} (h : extractFileEntries o infoDict defaultName [] urlList = .ok r) :
    (∀ fe ∈ r.fileEntries, Below o.dir fe) ↔ Gapless infoDict := by
  unfold extractFileEntries at h
  split at h
  · cases h
  next utf8Name hname =>
  replace hname := extractName_cases hname
  have hgap : NoGap utf8Name ↔
      ∀ s, Dict.getString infoDict (preferUtf8 infoDict "name") = some s → NoGap s := by
    rcases hname with ⟨nameData, hdata, rfl, -⟩ | ⟨hdata, rfl⟩
    · simp only [hdata, Option.some.injEq, forall_eq', noGap_iff, encodeNonUtf8_idem]
    · simp only [hdata, reduceCtorEq, false_imp_iff, implies_true, iff_true]
      exact noGap_default defaultName
  unfold extractFiles at h
  split at h
  next filesList hfiles =>
    split at h
    · cases h
    next files hfold =>
    cases h
    rw [foldlM_extractFile_below hfold, and_iff_right fun _ hfe => absurd hfe List.not_mem_nil]
    constructor
    · intro hall
      refine ⟨fun s hs hlisted => ?_, fun l hl d hd => ?_⟩
      · obtain ⟨d, hd⟩ := hlisted _ hfiles
        exact hgap.mp (hall d hd).1 s hs
      · exact (hall d (Option.some.inj (hfiles.symm.trans hl) ▸ hd)).2
    · refine fun hg d hd => ⟨hgap.mpr fun s hs => hg.torrentName s hs fun l hl => ?_,
        hg.filePaths _ hfiles d hd⟩
      exact ⟨d, Option.some.inj (hfiles.symm.trans hl) ▸ hd⟩
  next hfiles =>
    split at h
    · cases h
    split at h
    · cases h
    cases h
    rw [List.forall_mem_singleton]
    have hiff : Gapless infoDict ↔ NoGap utf8Name := by
      rw [hgap]
      constructor
      · exact fun hg s hs => hg.torrentName s hs fun l hl => nomatch hfiles.symm.trans hl
      · exact fun hg => ⟨fun s hs _ => hg s hs, fun l hl => nomatch hfiles.symm.trans hl⟩
    rw [hiff]
    rcases hname with ⟨nameData, hdata, rfl, hdetect⟩ | ⟨hdata, rfl⟩
    · rw [below_iff_of_detectDirTraversal hdetect, noGap_iff, encodeNonUtf8_idem]
    · exact iff_of_true (below_default defaultName) (noGap_default defaultName)

/-- A torrent with two files, one of them in a directory. -/
def twoFiles : Dict :=
  [(name "files", .list
      [.dict [(name "length", .integer 3), (name "path", .list [.string (name "a")])],
        .dict [(name "length", .integer 5),
          (name "path", .list [.string (name "b"), .string (name "c")])]]),
    (name "name", .string (name "t"))]

/-- The entry of a file below `/d`. -/
def entry (suffixPath : String) (length offset : Int) : FileEntry where
  path := name ("/d/" ++ suffixPath)
  length
  offset
  uris := []
  originalName := name suffixPath
  suffixPath := name suffixPath
  maxConnectionPerServer := 1

theorem below_iff_gapless_twoFiles :
    extractFileEntries ⟨name "/d", 1⟩ twoFiles (name "t.torrent") [] [] =
      .ok ⟨name "t", .multi, [entry "t/a" 3 0, entry "t/b/c" 5 3], some (name "/d/t")⟩ ∧
    (∀ fe ∈ [entry "t/a" 3 0, entry "t/b/c" 5 3], Below (name "/d") fe) ∧ Gapless twoFiles := by
  have h : extractFileEntries ⟨name "/d", 1⟩ twoFiles (name "t.torrent") [] [] =
      .ok ⟨name "t", .multi, [entry "t/a" 3 0, entry "t/b/c" 5 3], some (name "/d/t")⟩ := by
    decide +kernel
  have hbelow : ∀ fe ∈ [entry "t/a" 3 0, entry "t/b/c" 5 3], Below (name "/d") fe := by
    rw [List.forall_mem_cons, List.forall_mem_singleton]
    exact ⟨⟨by decide +kernel, by decide +kernel, by decide +kernel, by decide +kernel⟩,
      ⟨by decide +kernel, by decide +kernel, by decide +kernel, by decide +kernel⟩⟩
  exact ⟨h, hbelow, (below_iff_gapless h).mp hbelow⟩

/-- A torrent of one file whose name is empty. -/
def noName : Dict := [(name "length", .integer 1), (name "name", .string [])]

/-- A torrent with a file below an empty component. -/
def emptyComponent : Dict :=
  [(name "files", .list [.dict [(name "length", .integer 1),
      (name "path", .list [.string [], .string (name "b")])]]),
    (name "name", .string (name "a"))]

theorem accepted_with_gap :
    (¬∀ r, extractFileEntries ⟨name "/d", 1⟩ noName (name "t.torrent") [] [] = .ok r →
      ∀ fe ∈ r.fileEntries, Below (name "/d") fe) ∧
    ¬∀ r, extractFileEntries ⟨name "/d", 1⟩ emptyComponent (name "t.torrent") [] [] = .ok r →
      ∀ fe ∈ r.fileEntries, Below (name "/d") fe := by
  constructor
  · intro h
    have hbelow := h ⟨[], .single, [entry "" 1 0], none⟩ (by decide +kernel) _
      (List.mem_singleton_self _)
    exact hbelow.inside.ne_nil (by decide +kernel)
  · intro h
    have hbelow := h ⟨name "a", .multi, [entry "a//b" 1 0], some (name "/d/a")⟩
      (by decide +kernel) _ (List.mem_singleton_self _)
    exact (hbelow.inside.components [] (by decide +kernel)).1 rfl

end FluxCore.Torrent
