import FluxCore.Servers.SavedNumbers

/-!
# Statistics that are cut off

The line of some statistics is read as those statistics where it has all that is not the default,
and the numbers are not too big for the reader.
-/

namespace FluxCore.Servers

open Utp (Bytes)
open Uri (cstr)
open ParamedString (stripIter isStripped parseUIntNoThrow)
open Util (parseIntNoThrow)

variable {e e' : ServerStat} {m : Field → Bytes} {n : Nat}

/-! ## The text -/

/-- The fields of some statistics, in the order in which they are written. -/
def fields (e : ServerStat) : List (Field × Bytes) :=
  [(.host, cstr e.hostname), (.protocol, cstr e.protocol),
    (.dlSpeed, decimalInt e.downloadSpeed), (.scAvgSpeed, decimalInt e.singleConnectionAvgSpeed),
    (.mcAvgSpeed, decimalInt e.multiConnectionAvgSpeed),
    (.lastUpdated, decimalInt e.lastUpdated), (.counter, decimalInt e.counter),
    (.status, STATUS_STRING e.status)]

theorem toString_eq (e : ServerStat) : e.toString = (text (fields e)).take 2047 := by
  obtain ⟨h1, h2, h3, h4, h5, h6, h7, h8⟩ :
      Bencode.name "host=" = Field.host.name ++ [0x3d] ∧
      Bencode.name ", protocol=" = 0x2c :: 0x20 :: Field.protocol.name ++ [0x3d] ∧
      Bencode.name ", dl_speed=" = 0x2c :: 0x20 :: Field.dlSpeed.name ++ [0x3d] ∧
      Bencode.name ", sc_avg_speed=" = 0x2c :: 0x20 :: Field.scAvgSpeed.name ++ [0x3d] ∧
      Bencode.name ", mc_avg_speed=" = 0x2c :: 0x20 :: Field.mcAvgSpeed.name ++ [0x3d] ∧
      Bencode.name ", last_updated=" = 0x2c :: 0x20 :: Field.lastUpdated.name ++ [0x3d] ∧
      Bencode.name ", counter=" = 0x2c :: 0x20 :: Field.counter.name ++ [0x3d] ∧
      Bencode.name ", status=" = 0x2c :: 0x20 :: Field.status.name ++ [0x3d] := by
    decide +kernel
  rw [ServerStat.toString, h1, h2, h3, h4, h5, h6, h7, h8]
  congr 1
  simp only [fields, text, item, List.append_assoc, List.cons_append, List.nil_append,
    reduceCtorEq, if_false, if_true, List.append_nil]

/-- The names have no blanks, no commas and no `=`. -/
def PlainNames (e : ServerStat) : Prop :=
  ∀ c ∈ e.hostname ++ e.protocol, c ∉ ([0x2c, 0x3d, 0x20, 0x09, 0x0d, 0x0a] : Bytes)

/-- The speeds and the counter are 31-bit numbers. -/
structure InRange (e : ServerStat) : Prop where
  downloadSpeed : 0 ≤ e.downloadSpeed ∧ e.downloadSpeed < 2 ^ 31
  singleConnectionAvgSpeed : 0 ≤ e.singleConnectionAvgSpeed ∧ e.singleConnectionAvgSpeed < 2 ^ 31
  multiConnectionAvgSpeed : 0 ≤ e.multiConnectionAvgSpeed ∧ e.multiConnectionAvgSpeed < 2 ^ 31
  counter : 0 ≤ e.counter ∧ e.counter < 2 ^ 31

theorem plain_cstr {s : Bytes} (h : ∀ c ∈ s, c ∉ ([0x2c, 0x3d, 0x20, 0x09, 0x0d, 0x0a] : Bytes)) :
    Plain (cstr s) := by
  intro c hc
  have hzero : c ≠ 0 := by simpa using List.mem_takeWhile_imp hc
  have hchars := h c ((List.takeWhile_sublist _).subset hc)
  simp only [List.mem_cons, List.not_mem_nil, or_false, not_or] at hchars
  obtain ⟨hcomma, -, hspace, htab, hcr, hlf⟩ := hchars
  refine ⟨?_, hcomma⟩
  simp only [isStripped, decide_eq_false_iff_not, not_or]
  exact ⟨hcr, hlf, htab, hspace, hzero⟩

theorem plain_fields (h : PlainNames e) : ∀ p ∈ fields e, Plain p.2 := by
  simp only [fields, List.forall_mem_cons]
  exact ⟨plain_cstr fun c hc => h c (List.mem_append_left _ hc),
    plain_cstr fun c hc => h c (List.mem_append_right _ hc), plain_decimalInt _,
    plain_decimalInt _, plain_decimalInt _, plain_decimalInt _, plain_decimalInt _,
    plain_STATUS_STRING _, fun _ h => absurd h List.not_mem_nil⟩

theorem names_fields (e : ServerStat) : (fields e).map Prod.fst =
    [.host, .protocol, .dlSpeed, .scAvgSpeed, .mcAvgSpeed, .lastUpdated, .counter, .status] := rfl

theorem nodup_fields (e : ServerStat) : ((fields e).map Prod.fst).Nodup := by
  rw [names_fields]
  decide

/-! ## Reading a line -/

def readLine (s : Bytes) : Option ServerStat := statOf (assignAll (fun _ => []) s)

theorem readLine_nil : readLine [] = none := rfl

theorem loadLine_eq (man : ServerStatMan) (s : Bytes) :
    loadLine man s = (readLine s).elim man man.add := by
  rw [loadLine, readLine, ← assignAll_stripIter]
  split
  next h =>
    rw [h]
    rfl
  next =>
    dsimp only
    rw [assignAll]
    cases statOf ((splitIter (stripIter s) 0x2c).foldl assign fun _ => []) with
    | none => rfl
    | some stat => rfl

theorem readLine_take (h : PlainNames e) (n : Nat) :
    readLine ((text (fields e)).take n) = statOf (cutValue n (fields e)) := by
  have hall : ∀ f : Field, f ∈ (fields e).map Prod.fst := by
    intro f
    rw [names_fields]
    cases f <;> decide
  rw [readLine, assignAll_take_text (nodup_fields e) (plain_fields h) (fun _ _ => rfl)]
  congr 1
  funext f
  exact if_pos (hall f)

theorem statOf_eq_some : statOf m = some e ↔
    (m .host ≠ [] ∧ m .protocol ≠ []) ∧
    (∃ n, parseUIntNoThrow (m .dlSpeed) = some n ∧ (n : Int) = e.downloadSpeed) ∧
    (∃ n, laterField (m .scAvgSpeed) = some n ∧ (n : Int) = e.singleConnectionAvgSpeed) ∧
    (∃ n, laterField (m .mcAvgSpeed) = some n ∧ (n : Int) = e.multiConnectionAvgSpeed) ∧
    (∃ n, laterField (m .counter) = some n ∧ (n : Int) = e.counter) ∧
    parseIntNoThrow (m .lastUpdated) = some e.lastUpdated ∧
    m .host = e.hostname ∧ m .protocol = e.protocol ∧ setStatus (m .status) = e.status := by
  rw [statOf]
  split
  next h => exact iff_of_false (by simp) fun hbad => not_or.mpr hbad.1 h
  next h =>
    simp only [Option.bind_eq_some_iff, Option.some.injEq]
    constructor
    · rintro ⟨dl, hdl, sc, hsc, mc, hmc, counter, hcounter, t, ht, rfl⟩
      exact ⟨not_or.mp h, ⟨dl, hdl, rfl⟩, ⟨sc, hsc, rfl⟩, ⟨mc, hmc, rfl⟩, ⟨counter, hcounter, rfl⟩,
        ht, rfl, rfl, rfl⟩
    · rintro ⟨-, ⟨dl, hdl, hdl'⟩, ⟨sc, hsc, hsc'⟩, ⟨mc, hmc, hmc'⟩, ⟨counter, hcounter, hcounter'⟩,
        ht, hhost, hprotocol, hstatus⟩
      refine ⟨dl, hdl, sc, hsc, mc, hmc, counter, hcounter, _, ht, ?_⟩
      rw [hhost, hprotocol, hstatus, hdl', hsc', hmc', hcounter']

/-! ## How much of a line is needed -/

/-- How much of the text of some statistics there must be: what is behind the last field whose value
is not the one that the reader takes without it does not matter. -/
def needed (e : ServerStat) : Nat :=
  (text ((fields e).take (if e.status = .error then 8 else if e.counter ≠ 0 then 7 else 6))).length

/-- Statistics that are read from their text: names that are there and have no NUL, and a time that
the reader takes. -/
structure Restorable (e : ServerStat) : Prop where
  hostname : e.hostname ≠ [] ∧ 0 ∉ e.hostname
  protocol : e.protocol ≠ [] ∧ 0 ∉ e.protocol
  lastUpdated : -2 ^ 31 ≤ e.lastUpdated ∧ e.lastUpdated < 2 ^ 31

theorem length_text_append_le (ps qs : List (Field × Bytes)) :
    (text ps).length ≤ (text (ps ++ qs)).length := by
  induction ps with
  | nil => exact Nat.zero_le _
  | cons p ps ih =>
    rw [List.cons_append, text, text, List.length_append, List.length_append]
    split
    · exact Nat.add_le_add_left (Nat.zero_le _) _
    next hne =>
      rw [if_neg (by simp [hne]), List.length_cons, List.length_cons, List.length_cons,
        List.length_cons]
      omega

theorem cstr_eq_self_iff {s : Bytes} : cstr s = s ↔ 0 ∉ s := by
  rw [cstr, List.takeWhile_eq_self_iff]
  refine ⟨fun h h0 => absurd (h 0 h0) (by decide), fun h c hc => ?_⟩
  have hne : c ≠ 0 := by
    rintro rfl
    exact h hc
  simpa using hne

/-- What there is of a field. It is all where the text goes on to the end of the value. -/
theorem cutValue_fields {f : Field} {v : Bytes} (n i : Nat) (h : (fields e)[i]? = some (f, v))
    (hv : v ≠ []) : ∃ k, cutValue n (fields e) f = v.take k ∧
      (v.length ≤ k ↔ (text ((fields e).take (i + 1))).length ≤ n) := by
  obtain ⟨hi, hget⟩ := List.getElem?_eq_some_iff.mp h
  have hsplit : fields e = (fields e).take i ++ (f, v) :: (fields e).drop (i + 1) := by
    rw [← hget, List.cons_getElem_drop_succ, List.take_append_drop]
  have htake : (fields e).take (i + 1) = (fields e).take i ++ [(f, v)] := by
    rw [List.take_add_one, h, Option.toList_some]
  have hnodup := nodup_fields e
  rw [hsplit, List.map_append, List.map_cons] at hnodup
  have hcut : cutValue n ((fields e).take i ++ (f, v) :: (fields e).drop (i + 1)) f = _ :=
    cutValue_append (fun hmem => (List.nodup_append.mp hnodup).2.2 _ hmem _ (.head _) rfl) n
  rw [← hsplit, ← htake] at hcut
  have hpos := List.length_pos_of_ne_nil hv
  exact ⟨_, hcut, by dsimp only; omega⟩

/-- Where the time is there, all that stands before it is. -/
theorem cutValue_of_lastUpdated (hne : cutValue n (fields e) .lastUpdated ≠ []) :
    ∀ p ∈ (fields e).take 5, cutValue n (fields e) p.1 = p.2 := by
  intro p hp
  have hsplit : fields e = (fields e).take 5 ++
      (.lastUpdated, decimalInt e.lastUpdated) :: (fields e).drop 6 := rfl
  have hnodup := nodup_fields e
  rw [hsplit] at hnodup hne ⊢
  exact cutValue_of_later hnodup hne hp

theorem lastUpdated_ne_nil (h : statOf (cutValue n (fields e)) = some e') :
    cutValue n (fields e) .lastUpdated ≠ [] := by
  intro hnil
  have ht := (statOf_eq_some.mp h).2.2.2.2.2.1
  rw [hnil] at ht
  cases ht

/-- What is read of a line has its names, up to a NUL. -/
theorem names_of_statOf (h : statOf (cutValue n (fields e)) = some e') :
    e'.hostname = cstr e.hostname ∧ e'.protocol = cstr e.protocol := by
  have hfull := cutValue_of_lastUpdated (lastUpdated_ne_nil h)
  obtain ⟨-, -, -, -, -, -, hhost, hprotocol, -⟩ := statOf_eq_some.mp h
  exact ⟨hhost.symm.trans (hfull (.host, cstr e.hostname) (by simp [fields])),
    hprotocol.symm.trans (hfull (.protocol, cstr e.protocol) (by simp [fields]))⟩

theorem needed_le_iff : needed e ≤ n ↔
    (text ((fields e).take 6)).length ≤ n ∧
    (e.counter = 0 ∨ (text ((fields e).take 7)).length ≤ n) ∧
    (e.status = .ok ∨ (text ((fields e).take 8)).length ≤ n) := by
  have h67 : (text ((fields e).take 6)).length ≤ (text ((fields e).take 7)).length :=
    length_text_append_le ((fields e).take 6) [(.counter, decimalInt e.counter)]
  have h78 : (text ((fields e).take 7)).length ≤ (text ((fields e).take 8)).length :=
    length_text_append_le ((fields e).take 7) [(.status, STATUS_STRING e.status)]
  rw [needed]
  cases hstatus : e.status with
  | ok =>
    rw [if_neg (by decide)]
    split
    next h => simp only [h, false_or, true_or, and_true]; omega
    next h => simp only [not_not.mp h, true_or, and_true]
  | error =>
    rw [if_pos rfl]
    simp only [reduceCtorEq, false_or]
    omega

/-- What a line that is cut off is read as. -/
theorem statOf_cutValue_iff (hrange : InRange e) :
    statOf (cutValue n (fields e)) = some e ↔ Restorable e ∧ needed e ≤ n := by
  obtain ⟨dl, hdl⟩ := Int.eq_ofNat_of_zero_le hrange.downloadSpeed.1
  obtain ⟨sc, hsc⟩ := Int.eq_ofNat_of_zero_le hrange.singleConnectionAvgSpeed.1
  obtain ⟨mc, hmc⟩ := Int.eq_ofNat_of_zero_le hrange.multiConnectionAvgSpeed.1
  obtain ⟨counter, hcounter⟩ := Int.eq_ofNat_of_zero_le hrange.counter.1
  have hdl' : dl < 2 ^ 31 := by have := hrange.downloadSpeed.2; omega
  have hsc' : sc < 2 ^ 31 := by have := hrange.singleConnectionAvgSpeed.2; omega
  have hmc' : mc < 2 ^ 31 := by have := hrange.multiConnectionAvgSpeed.2; omega
  have hcounter' : counter < 2 ^ 31 := by have := hrange.counter.2; omega
  have htime : parseIntNoThrow (cutValue n (fields e) .lastUpdated) = some e.lastUpdated ↔
      (-2 ^ 31 ≤ e.lastUpdated ∧ e.lastUpdated < 2 ^ 31) ∧
        (text ((fields e).take 6)).length ≤ n := by
    obtain ⟨k, hk, hlen⟩ := cutValue_fields (e := e) n 5 rfl (decimalInt_ne_nil _)
    rw [hk, parseIntNoThrow_take, hlen]
  have hcount : (∃ c, laterField (cutValue n (fields e) .counter) = some c ∧
      (c : Int) = e.counter) ↔ e.counter = 0 ∨ (text ((fields e).take 7)).length ≤ n := by
    obtain ⟨k, hk, hlen⟩ := cutValue_fields (e := e) n 6 rfl (decimalInt_ne_nil _)
    rw [hk, ← hlen, hcounter]
    simp only [Int.natCast_inj, exists_eq_right, laterField_take hcounter', Int.natCast_eq_zero]
  have hstatus : setStatus (cutValue n (fields e) .status) = e.status ↔
      e.status = .ok ∨ (text ((fields e).take 8)).length ≤ n := by
    obtain ⟨k, hk, hlen⟩ := cutValue_fields (e := e) n 7 rfl (STATUS_STRING_ne_nil _)
    rw [hk, ← hlen, setStatus_take]
  have hfull : (text ((fields e).take 6)).length ≤ n →
      ∀ p ∈ (fields e).take 5, cutValue n (fields e) p.1 = p.2 := by
    intro hlen
    obtain ⟨k, hk, hle⟩ := cutValue_fields (e := e) n 5 rfl (decimalInt_ne_nil _)
    refine cutValue_of_lastUpdated ?_
    rw [hk, List.take_of_length_le (hle.mpr hlen)]
    exact decimalInt_ne_nil _
  rw [statOf_eq_some, hcount, htime, hstatus, needed_le_iff]
  constructor
  · rintro ⟨⟨hhostne, hprotocolne⟩, -, -, -, hcount, ⟨htime, hlen⟩, hhost, hprotocol, hstatus⟩
    have hhostname : cutValue n (fields e) .host = cstr e.hostname := hfull hlen _ (.head _)
    have hproto : cutValue n (fields e) .protocol = cstr e.protocol :=
      hfull hlen _ (.tail _ (.head _))
    exact ⟨⟨⟨hhost ▸ hhostne, cstr_eq_self_iff.mp (hhostname.symm.trans hhost)⟩,
      ⟨hprotocol ▸ hprotocolne, cstr_eq_self_iff.mp (hproto.symm.trans hprotocol)⟩, htime⟩,
      hlen, hcount, hstatus⟩
  · rintro ⟨hr, hlen, hcount, hstatus⟩
    have hhost : cutValue n (fields e) .host = e.hostname :=
      (hfull hlen _ (.head _)).trans (cstr_eq_self_iff.mpr hr.hostname.2)
    have hprotocol : cutValue n (fields e) .protocol = e.protocol :=
      (hfull hlen _ (.tail _ (.head _))).trans (cstr_eq_self_iff.mpr hr.protocol.2)
    have hdlSpeed : cutValue n (fields e) .dlSpeed = decimalInt e.downloadSpeed :=
      hfull hlen _ (.tail _ (.tail _ (.head _)))
    have hscAvgSpeed : cutValue n (fields e) .scAvgSpeed = decimalInt e.singleConnectionAvgSpeed :=
      hfull hlen _ (.tail _ (.tail _ (.tail _ (.head _))))
    have hmcAvgSpeed : cutValue n (fields e) .mcAvgSpeed = decimalInt e.multiConnectionAvgSpeed :=
      hfull hlen _ (.tail _ (.tail _ (.tail _ (.tail _ (.head _)))))
    refine ⟨⟨hhost ▸ hr.hostname.1, hprotocol ▸ hr.protocol.1⟩, ⟨dl, ?_, hdl.symm⟩,
      ⟨sc, ?_, hsc.symm⟩, ⟨mc, ?_, hmc.symm⟩, hcount, ⟨hr.lastUpdated, hlen⟩, hhost, hprotocol,
      hstatus⟩
    · rw [hdlSpeed, hdl, parseUIntNoThrow_decimalInt hdl']
    · rw [hscAvgSpeed, hsc, laterField_decimalInt hsc']
    · rw [hmcAvgSpeed, hmc, laterField_decimalInt hmc']

end FluxCore.Servers
