import FluxCore.Servers.SavedEntry

/-!
# Saving and loading server statistics

`save` goes on where a line is not written, and returns `true` all the same. What it returned `true`
for is loaded again where all lines but the last one were written, and enough of that one.
-/

namespace FluxCore.Servers

open Utp (Bytes)
open Uri (cstr)
open ParamedString (isStripped)

variable {e e' : ServerStat} {es : List ServerStat} {man : ServerStatMan} {fs : FileSystem}
  {s file : Bytes} {n : Nat}

/-! ## Lines -/

theorem loadLine_nil (man : ServerStatMan) : loadLine man [] = man := by
  rw [loadLine_eq, readLine_nil]
  rfl

theorem loadLoop_eq (h : file.length ≤ n) (man : ServerStatMan) :
    loadLoop n file man = (file.splitOn 0x0a).foldl loadLine man := by
  induction n generalizing file man with
  | zero =>
    obtain rfl := List.length_eq_zero_iff.mp (Nat.le_zero.mp h)
    exact (loadLine_nil man).symm
  | succ n ih =>
    rw [loadLoop]
    split
    next hnil =>
      rw [hnil]
      exact (loadLine_nil man).symm
    next hne =>
      by_cases hmem : 0x0a ∈ file
      · obtain ⟨x, y, rfl, hx⟩ := List.eq_append_cons_of_mem hmem
        have hall : ∀ c ∈ x, decide (c ≠ 0x0a) = true := fun c hc =>
          decide_eq_true (ne_of_mem_of_not_mem hc hx)
        have hline : getLine (x ++ 0x0a :: y) = (x, y) := by
          rw [getLine, List.takeWhile_append_of_pos hall, List.dropWhile_append_of_pos hall,
            List.takeWhile_cons_of_neg (by decide), List.dropWhile_cons_of_neg (by decide),
            List.append_nil, List.tail_cons]
        have hlen : y.length ≤ n := by
          rw [List.length_append, List.length_cons] at h
          omega
        rw [hline, List.splitOn_append_cons_self_of_not_mem hx, List.foldl_cons]
        exact ih hlen _
      · have hall : ∀ c ∈ file, decide (c ≠ 0x0a) = true := fun c hc =>
          decide_eq_true (ne_of_mem_of_not_mem hc hmem)
        have hline : getLine file = (file, []) := by
          rw [getLine, List.takeWhile_eq_self_iff.mpr hall, List.dropWhile_eq_nil_iff.mpr hall,
            List.tail_nil]
        rw [hline, List.splitOn_eq_singleton hmem, List.foldl_cons, List.foldl_nil]
        dsimp only
        have hlen : ([] : Bytes).length ≤ n := Nat.zero_le n
        rw [ih hlen]
        exact loadLine_nil _

theorem load_eq (man : ServerStatMan) (file : Bytes) :
    man.load file = (file.splitOn 0x0a).foldl loadLine man := loadLoop_eq (Nat.le_refl _) man

/-- How many lines are not empty. -/
def countLines (file : Bytes) : Nat := (file.splitOn 0x0a).countP (· ≠ [])

/-- There are not more statistics than lines. -/
theorem length_load_le (man : ServerStatMan) (file : Bytes) :
    (man.load file).serverStats.length ≤ man.serverStats.length + countLines file := by
  rw [load_eq, countLines]
  induction file.splitOn 0x0a generalizing man with
  | nil => exact Nat.le_add_right ..
  | cons line lines ih =>
    rw [List.foldl_cons]
    refine Nat.le_trans (ih _) ?_
    rw [loadLine_eq]
    by_cases hline : line = []
    · subst hline
      rw [readLine_nil, List.countP_cons_of_neg (by decide)]
      exact Nat.le_refl _
    · rw [List.countP_cons_of_pos (by simpa using hline)]
      cases readLine line with
      | none =>
        dsimp only [Option.elim_none]
        omega
      | some stat =>
        have hadd : (man.add stat).serverStats.length ≤ man.serverStats.length + 1 :=
          length_insertStat_le stat man.serverStats
        dsimp only [Option.elim_some]
        omega

theorem countLines_append_cons (h : 0x0a ∉ s) (t : Bytes) :
    countLines (s ++ 0x0a :: t) ≤ 1 + countLines t := by
  rw [countLines, List.splitOn_append_cons_self_of_not_mem h, List.countP_cons, countLines]
  split
  · omega
  · omega

theorem countLines_of_notMem (h : 0x0a ∉ s) : countLines s ≤ 1 := by
  rw [countLines, List.splitOn_eq_singleton h]
  exact List.countP_le_length

/-! ## The temporary file -/

theorem lf_notMem_text {ps : List (Field × Bytes)} (h : ∀ p ∈ ps, Plain p.2) :
    (0x0a : UInt8) ∉ text ps := by
  induction ps with
  | nil => exact List.not_mem_nil
  | cons p ps ih =>
    obtain ⟨hp, hps⟩ := List.forall_mem_cons.mp h
    intro hmem
    rw [text, item, List.append_assoc, List.mem_append] at hmem
    rcases hmem with hmem | hmem
    · exact absurd (name_chars hmem).1 (by decide)
    · rw [List.cons_append, List.mem_cons, List.mem_append] at hmem
      rcases hmem with hmem | hmem | hmem
      · exact absurd hmem (by decide)
      · exact absurd (hp _ hmem).1 (by decide)
      · split at hmem
        · exact absurd hmem List.not_mem_nil
        · rcases List.mem_cons.mp hmem with hmem | hmem
          · exact absurd hmem (by decide)
          · rcases List.mem_cons.mp hmem with hmem | hmem
            · exact absurd hmem (by decide)
            · exact ih hps hmem

theorem lf_notMem_toString (h : PlainNames e) : (0x0a : UInt8) ∉ e.toString := by
  rw [toString_eq]
  exact fun hmem => lf_notMem_text (plain_fields h) (List.mem_of_mem_take hmem)

theorem length_line (e : ServerStat) : e.line.length = e.toString.length + 1 := by
  rw [ServerStat.line, List.length_append, List.length_singleton]

/-- What of the line of some statistics is in the file. -/
def written (fs : FileSystem) (e : ServerStat) : Bytes := e.toString.take (fs.accepts e)

theorem take_line_of_le (h : e.line.length ≤ fs.accepts e) :
    e.line.take (fs.accepts e) = written fs e ++ [0x0a] := by
  have hle : e.toString.length ≤ fs.accepts e := by
    rw [length_line] at h
    omega
  rw [List.take_of_length_le h, written, List.take_of_length_le hle, ServerStat.line]

theorem take_line_of_lt (h : fs.accepts e < e.line.length) :
    e.line.take (fs.accepts e) = written fs e := by
  rw [length_line] at h
  rw [ServerStat.line, List.take_append_of_le_length (by omega), written]

theorem lf_notMem_written (h : PlainNames e) : (0x0a : UInt8) ∉ written fs e :=
  fun hmem => lf_notMem_toString h (List.mem_of_mem_take hmem)

/-- What is behind a line that is not written as a whole is part of that line. -/
theorem countLines_writeLines_le (h : ∀ e ∈ es, PlainNames e) (hs : 0x0a ∉ s) :
    countLines (s ++ writeLines fs es) ≤ max 1 es.length ∧
      countLines (writeLines fs es) ≤ es.length := by
  induction es generalizing s with
  | nil =>
    rw [writeLines, List.append_nil]
    exact ⟨countLines_of_notMem hs, Nat.le_refl 0⟩
  | cons e es ih =>
    obtain ⟨he, hes⟩ := List.forall_mem_cons.mp h
    have hw : 0x0a ∉ written fs e := lf_notMem_written he
    have hsw : (0x0a : UInt8) ∉ s ++ written fs e := by
      rw [List.mem_append]
      exact not_or.mpr ⟨hs, hw⟩
    rw [writeLines, List.length_cons]
    rcases Nat.lt_or_ge (fs.accepts e) e.line.length with hlt | hle
    · rw [take_line_of_lt hlt, ← List.append_assoc]
      have h1 := (ih hes hsw).1
      have h2 := (ih hes hw).1
      omega
    · rw [take_line_of_le hle, List.append_assoc, List.singleton_append, ← List.append_assoc]
      have h1 := countLines_append_cons hsw (writeLines fs es)
      have h2 := countLines_append_cons hw (writeLines fs es)
      have h3 := (ih hes hw).2
      omega

/-- There are less lines than statistics where a line that is not the last one is not written as a
whole. -/
theorem countLines_lt (h : ∀ e ∈ es, PlainNames e) (he : e ∈ es.dropLast)
    (hlt : fs.accepts e < e.line.length) : countLines (writeLines fs es) < es.length := by
  induction es with
  | nil => exact absurd he List.not_mem_nil
  | cons e' es ih =>
    obtain ⟨he', hes⟩ := List.forall_mem_cons.mp h
    have hw : 0x0a ∉ written fs e' := lf_notMem_written he'
    cases es with
    | nil => exact absurd he List.not_mem_nil
    | cons e'' es =>
      rw [writeLines, List.length_cons]
      rcases Nat.lt_or_ge (fs.accepts e') e'.line.length with hlt' | hle'
      · rw [take_line_of_lt hlt']
        have h1 : countLines (written fs e' ++ writeLines fs (e'' :: es)) ≤
            max 1 (e'' :: es).length :=
          (countLines_writeLines_le hes hw).1
        rw [List.length_cons] at h1 ⊢
        omega
      · rw [List.dropLast_cons_cons, List.mem_cons] at he
        rcases he with rfl | he
        · omega
        · rw [take_line_of_le hle', List.append_assoc, List.singleton_append]
          have h1 := countLines_append_cons hw (writeLines fs (e'' :: es))
          have h2 := ih hes he
          omega

/-! ## What is loaded again -/

/-- The lines of a file of which only the last one may be cut off. -/
theorem load_writeLines (h : ∀ e ∈ es, PlainNames e)
    (hcomplete : ∀ e ∈ es.dropLast, e.line.length ≤ fs.accepts e) (man : ServerStatMan) :
    man.load (writeLines fs es) = es.foldl (fun man e => loadLine man (written fs e)) man := by
  rw [load_eq]
  induction es generalizing man with
  | nil => exact loadLine_nil man
  | cons e es ih =>
    obtain ⟨he, hes⟩ := List.forall_mem_cons.mp h
    have hw : 0x0a ∉ written fs e := lf_notMem_written he
    have hrest : ∀ e ∈ es.dropLast, e.line.length ≤ fs.accepts e := by
      intro e' he'
      cases es with
      | nil => exact absurd he' List.not_mem_nil
      | cons e'' es => exact hcomplete e' (List.mem_cons_of_mem _ he')
    rw [writeLines, List.foldl_cons, ← ih hes hrest]
    rcases Nat.lt_or_ge (fs.accepts e) e.line.length with hlt | hle
    · cases es with
      | nil =>
        rw [take_line_of_lt hlt, writeLines, List.append_nil, List.splitOn_eq_singleton hw]
        exact (loadLine_nil _).symm
      | cons e'' es => exact absurd (hcomplete e (.head _)) (Nat.not_le.mpr hlt)
    · rw [take_line_of_le hle, List.append_assoc, List.singleton_append,
        List.splitOn_append_cons_self_of_not_mem hw, List.foldl_cons]

theorem mem_of_mem_foldl
    (h : e ∈ (es.foldl (fun man e => loadLine man (written fs e)) man).serverStats) :
    e ∈ man.serverStats ∨ ∃ e' ∈ es, readLine (written fs e') = some e := by
  induction es generalizing man with
  | nil => exact .inl h
  | cons e' es ih =>
    rcases ih h with h | ⟨e'', he'', h⟩
    · dsimp only at h
      rw [loadLine_eq] at h
      cases hread : readLine (written fs e') with
      | none =>
        rw [hread] at h
        exact .inl h
      | some stat =>
        rw [hread] at h
        rcases mem_of_mem_insertStat h with rfl | h
        · exact .inr ⟨e', .head _, hread⟩
        · exact .inl h
    · exact .inr ⟨e'', .tail _ he'', h⟩

theorem mem_foldl (hread : ∀ e ∈ es, readLine (written fs e) = some e)
    (hnew : (man.serverStats ++ es).Pairwise fun a b => ¬a.same b)
    (h : e ∈ man.serverStats ∨ e ∈ es) :
    e ∈ (es.foldl (fun man e => loadLine man (written fs e)) man).serverStats := by
  induction es generalizing man with
  | nil => exact h.resolve_right List.not_mem_nil
  | cons e' es ih =>
    obtain ⟨hread', hread⟩ := List.forall_mem_cons.mp hread
    obtain ⟨hman, hes, hcross⟩ := List.pairwise_append.mp hnew
    obtain ⟨he', hes⟩ := List.pairwise_cons.mp hes
    have hmem : ∀ t, t ∈ (man.add e').serverStats ↔ t = e' ∨ t ∈ man.serverStats := fun t =>
      mem_insertStat fun u hu => hcross u hu e' (.head _)
    have hadd : loadLine man (written fs e') = man.add e' := by
      rw [loadLine_eq, hread']
      rfl
    rw [List.foldl_cons, hadd]
    refine ih hread ?_ ?_
    · refine List.pairwise_append.mpr
        ⟨(man.add e').sorted.imp fun hlt hsame => ServerStat.not_lt_of_same hsame hlt, hes, ?_⟩
      intro a ha b hb
      rcases (hmem a).mp ha with rfl | ha
      · exact he' b hb
      · exact hcross a ha b (.tail _ hb)
    · rcases h with h | h
      · exact .inl ((hmem e).mpr (.inr h))
      · rcases List.mem_cons.mp h with rfl | h
        · exact .inl ((hmem e).mpr (.inl rfl))
        · exact .inr h

/-- What there must be in the temporary file: all of each line but the last one, and what is needed
of that one. -/
structure Kept (fs : FileSystem) (es : List ServerStat) : Prop where
  restorable : ∀ e ∈ es, Restorable e ∧ needed e ≤ 2047
  complete : ∀ e ∈ es.dropLast, e.line.length ≤ fs.accepts e
  last : ∀ e ∈ es.getLast?, needed e ≤ fs.accepts e

theorem readLine_written_iff (h : PlainNames e) (hrange : InRange e) :
    readLine (written fs e) = some e ↔
      Restorable e ∧ needed e ≤ 2047 ∧ needed e ≤ fs.accepts e := by
  rw [written, toString_eq, List.take_take, readLine_take h, statOf_cutValue_iff hrange,
    Nat.le_min, and_comm (a := needed e ≤ fs.accepts e)]

theorem names_of_readLine (h : PlainNames e') (hread : readLine (written fs e') = some e) :
    e.hostname = cstr e'.hostname ∧ e.protocol = cstr e'.protocol := by
  rw [written, toString_eq, List.take_take, readLine_take h] at hread
  exact names_of_statOf hread

theorem cstr_cstr (s : Bytes) : cstr (cstr s) = cstr s := by
  rw [cstr_eq_self_iff, cstr]
  intro h
  exact absurd (List.mem_takeWhile_imp h) (by decide)

theorem needed_le_length_line (h : needed e ≤ 2047) : needed e ≤ e.line.length := by
  have hle : needed e ≤ (text (fields e)).length := by
    have happend := length_text_append_le
      ((fields e).take (if e.status = .error then 8 else if e.counter ≠ 0 then 7 else 6))
      ((fields e).drop (if e.status = .error then 8 else if e.counter ≠ 0 then 7 else 6))
    rwa [List.take_append_drop] at happend
  rw [length_line, toString_eq, List.length_take]
  omega

/-- All of the statistics are loaded again if and only if what there must be is there. -/
theorem load_iff (hnames : ∀ e ∈ man.serverStats, PlainNames e)
    (hrange : ∀ e ∈ man.serverStats, InRange e) (fs : FileSystem) :
    (∀ e ∈ man.serverStats,
      e ∈ (ServerStatMan.empty.load (writeLines fs man.serverStats)).serverStats) ↔
      Kept fs man.serverStats := by
  have hdistinct : man.serverStats.Pairwise fun a b => ¬a.same b :=
    man.sorted.imp fun hlt hsame => ServerStat.not_lt_of_same hsame hlt
  constructor
  · intro hall
    have hnodup : man.serverStats.Nodup := hdistinct.imp fun hne heq =>
      hne ⟨congrArg _ heq, congrArg _ heq⟩
    have hlength : man.serverStats.length ≤ countLines (writeLines fs man.serverStats) := by
      have h := length_load_le ServerStatMan.empty (writeLines fs man.serverStats)
      have hsub := hnodup.length_le_of_subset hall
      have hzero : ServerStatMan.empty.serverStats.length = 0 := rfl
      omega
    have hcomplete : ∀ e ∈ man.serverStats.dropLast, e.line.length ≤ fs.accepts e := by
      intro e he
      by_contra hlt
      have := countLines_lt hnames he (Nat.lt_of_not_le hlt)
      omega
    rw [load_writeLines hnames hcomplete] at hall
    have hreads : ∀ e ∈ man.serverStats, ∃ e' ∈ man.serverStats,
        readLine (written fs e') = some e := fun e he =>
      (mem_of_mem_foldl (hall e he)).resolve_left List.not_mem_nil
    have hnul : ∀ e ∈ man.serverStats,
        cstr e.hostname = e.hostname ∧ cstr e.protocol = e.protocol := by
      intro e he
      obtain ⟨e', he', hread⟩ := hreads e he
      obtain ⟨hhost, hprotocol⟩ := names_of_readLine (hnames e' he') hread
      rw [hhost, hprotocol]
      exact ⟨cstr_cstr _, cstr_cstr _⟩
    have hread : ∀ e ∈ man.serverStats, readLine (written fs e) = some e := by
      intro e he
      obtain ⟨e', he', hread⟩ := hreads e he
      obtain ⟨hhost, hprotocol⟩ := names_of_readLine (hnames e' he') hread
      rw [(hnul e' he').1] at hhost
      rw [(hnul e' he').2] at hprotocol
      rwa [ServerStatMan.eq_of_same he he' ⟨hhost, hprotocol⟩] at hread ⊢
    have hkept := fun e he => (readLine_written_iff (hnames e he) (hrange e he)).mp (hread e he)
    exact ⟨fun e he => ⟨(hkept e he).1, (hkept e he).2.1⟩, hcomplete,
      fun e he => (hkept e (List.mem_of_mem_getLast? he)).2.2⟩
  · intro hkept e he
    have hread : ∀ e ∈ man.serverStats, readLine (written fs e) = some e := by
      intro e he
      obtain ⟨hrestorable, hbuffer⟩ := hkept.restorable e he
      refine (readLine_written_iff (hnames e he) (hrange e he)).mpr ⟨hrestorable, hbuffer, ?_⟩
      have hne := List.ne_nil_of_mem he
      rw [← List.dropLast_append_getLast hne, List.mem_append, List.mem_singleton] at he
      rcases he with he | he
      · exact Nat.le_trans (needed_le_length_line hbuffer) (hkept.complete e he)
      · exact hkept.last e (he ▸ List.getLast?_eq_some_getLast hne)
    rw [load_writeLines hnames hkept.complete]
    exact mem_foldl hread hdistinct (.inr he)

/-- What a file is for: after a `save` that returned `true`, the statistics are found in what is
loaded, and one that returned `false` left the file as it was. -/
def RoundTrips (man : ServerStatMan) (fs : FileSystem) (file : Bytes) : Prop :=
  ((man.save fs file).1 = true → ∀ e ∈ man.serverStats,
    (ServerStatMan.empty.load (man.save fs file).2).find e.hostname e.protocol = some e) ∧
  ((man.save fs file).1 = false → (man.save fs file).2 = file)

theorem roundTrips_iff (hnames : ∀ e ∈ man.serverStats, PlainNames e)
    (hrange : ∀ e ∈ man.serverStats, InRange e) (fs : FileSystem) (file : Bytes) :
    RoundTrips man fs file ↔
      (fs.opens = true → fs.closes = true → fs.renames = true → Kept fs man.serverStats) := by
  have hsave : man.save fs file =
      if fs.opens = true ∧ fs.closes = true ∧ fs.renames = true
      then (true, writeLines fs man.serverStats) else (false, file) := by
    rw [ServerStatMan.save]
    cases fs.opens <;> cases fs.closes <;> cases fs.renames <;> rfl
  rw [RoundTrips, hsave]
  split
  next h =>
    simp only [forall_const, ServerStatMan.find_eq_some, load_iff hnames hrange, h.1, h.2.1, h.2.2,
      reduceCtorEq, false_implies, and_true]
  next h =>
    refine iff_of_true ⟨fun hbad => absurd hbad Bool.false_ne_true, fun _ => rfl⟩ ?_
    exact fun h1 h2 h3 => absurd ⟨h1, h2, h3⟩ h

def errorStat : ServerStat := ⟨Bencode.name "a", Bencode.name "http", 3, 2, 1, 10, 5, .error⟩

def okStat : ServerStat := ⟨Bencode.name "b", Bencode.name "ftp", 7, 0, 0, 1, 9, .ok⟩

theorem forall_mem_twoStats {P : ServerStat → Prop} :
    (∀ e ∈ [errorStat, okStat], P e) ↔ P errorStat ∧ P okStat := by
  rw [List.forall_mem_cons, List.forall_mem_singleton]

/-- Two servers. The write of the second line stops behind the last byte that is needed. -/
theorem roundTrips_iff_cut :
    RoundTrips ⟨[errorStat, okStat], by decide +kernel⟩
      ⟨true, fun e => if e = okStat then needed okStat else 2048, true, true⟩ [] := by
  refine (roundTrips_iff (forall_mem_twoStats.mpr ?_) (forall_mem_twoStats.mpr ?_) _ _).mpr
    fun _ _ _ => ⟨forall_mem_twoStats.mpr ?_, List.forall_mem_singleton.mpr ?_, ?_⟩
  · unfold PlainNames
    decide +kernel
  · exact ⟨⟨by decide, by decide, by decide, by decide⟩, by decide, by decide, by decide, by decide⟩
  · exact ⟨⟨⟨by decide +kernel, by decide +kernel, by decide⟩, by decide +kernel⟩,
      ⟨by decide +kernel, by decide +kernel, by decide⟩, by decide +kernel⟩
  · decide +kernel
  · intro e he
    obtain rfl : okStat = e := Option.some.inj he
    decide +kernel

/-- The line of a server is not written, and the time of another one is too late for the reader. -/
theorem roundTrips_counterexample :
    ¬RoundTrips
      ⟨[⟨Bencode.name "a", Bencode.name "http", 0, 0, 0, 0, 0, .ok⟩], List.pairwise_singleton _ _⟩
      ⟨true, fun _ => 0, true, true⟩ [] ∧
    ¬RoundTrips
      ⟨[⟨Bencode.name "a", Bencode.name "http", 0, 0, 0, 0, 2 ^ 31, .ok⟩],
        List.pairwise_singleton _ _⟩
      ⟨true, fun _ => 2048, true, true⟩ [] := by
  refine ⟨fun h => ?_, fun h => ?_⟩
  · exact absurd (h.1 rfl _ (.head _)) (by decide +kernel)
  · exact absurd (h.1 rfl _ (.head _)) (by decide +kernel)

end FluxCore.Servers
