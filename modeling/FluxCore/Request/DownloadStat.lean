import FluxCore.Request.RequestGroup
import Mathlib.Algebra.Group.Nat.Defs
import Mathlib.Data.List.Basic

/-!
# Statistics of the downloads that have ended

`addDownloadResult` keeps the last results and counts those it lets go, `getDownloadStat` counts the
ones that are kept. What was let go was counted as an error unless it had finished.
-/

namespace FluxCore.Request

/-- `error_code::Value`. -/
inductive error_code where
  | UNDEFINED | FINISHED | UNKNOWN_ERROR | TIME_OUT | RESOURCE_NOT_FOUND | MAX_FILE_NOT_FOUND
  | TOO_SLOW_DOWNLOAD_SPEED | NETWORK_PROBLEM | IN_PROGRESS | CANNOT_RESUME | NOT_ENOUGH_DISK_SPACE
  | PIECE_LENGTH_CHANGED | DUPLICATE_DOWNLOAD | DUPLICATE_INFO_HASH | FILE_ALREADY_EXISTS
  | FILE_RENAMING_FAILED | FILE_OPEN_ERROR | FILE_CREATE_ERROR | FILE_IO_ERROR | DIR_CREATE_ERROR
  | NAME_RESOLVE_ERROR | METALINK_PARSE_ERROR | FTP_PROTOCOL_ERROR | HTTP_PROTOCOL_ERROR
  | HTTP_TOO_MANY_REDIRECTS | HTTP_AUTH_FAILED | BENCODE_PARSE_ERROR | BITTORRENT_PARSE_ERROR
  | MAGNET_PARSE_ERROR | OPTION_ERROR | HTTP_SERVICE_UNAVAILABLE | JSON_PARSE_ERROR | REMOVED
  | CHECKSUM_ERROR
deriving DecidableEq, Repr

/-- What is kept of a download that has ended. -/
structure DownloadResult where
  gid : Gid
  /-- The download this one is part of, `0` for none. -/
  belongsTo : Gid
  result : error_code
  /-- `PREF_FORCE_SAVE`. -/
  forceSave : Bool := false
deriving DecidableEq, Repr

/-- `INT_MAX`. -/
def INT_MAX : Nat := 2 ^ 31 - 1

/-- What stops a call: the assertion, or a counter of type `int` that has no next value. -/
inductive Fault where
  | assertion
  | overflow
deriving DecidableEq, Repr

/-- `++n` for an `int` that counts. -/
def increment (n : Nat) : Except Fault Nat := if n < INT_MAX then .ok (n + 1) else .error .overflow

/-- The members of `RequestGroupMan` that are about results. -/
structure Results where
  downloadResults : IndexedList DownloadResult.gid := {}
  unfinishedDownloadResults : List DownloadResult := []
  numStoppedTotal : UInt64 := 0
  removedErrorResult : Nat := 0
  removedLastErrorResult : error_code := .FINISHED
  maxDownloadResult : Nat
  /-- `PREF_KEEP_UNFINISHED_DOWNLOAD_RESULT`. -/
  keepUnfinishedDownloadResult : Bool
deriving DecidableEq

namespace Results

variable (m : Results)

/-- A pass of the loop, which lets the first result go. -/
def evict (dr : DownloadResult) : Except Fault Results :=
  if dr.belongsTo = 0 ∧ dr.result ≠ .FINISHED then
    (increment m.removedErrorResult).map fun removedErrorResult =>
      { m with
        removedLastErrorResult := dr.result
        removedErrorResult
        unfinishedDownloadResults :=
          if m.keepUnfinishedDownloadResult ∧ (dr.result ≠ .REMOVED ∨ dr.forceSave)
          then m.unfinishedDownloadResults ++ [dr] else m.unfinishedDownloadResults
        downloadResults := m.downloadResults.pop_front }
  else .ok { m with downloadResults := m.downloadResults.pop_front }

def evictLoop : Nat → Results → Except Fault Results
  | 0, m => .ok m
  | fuel + 1, m =>
    if m.downloadResults.size ≤ m.maxDownloadResult then .ok m
    else
      match m.downloadResults.seq with
      | [] => .ok m
      | dr :: _ => (m.evict dr).bind (evictLoop fuel)

/-- The assertion fails where there is a result of that download already. -/
def addDownloadResult (dr : DownloadResult) : Except Fault Results :=
  if dr.gid ∈ m.downloadResults.keys then .error .assertion
  else
    let m := { m with
      numStoppedTotal := m.numStoppedTotal + 1
      downloadResults := m.downloadResults.push_back dr }
    evictLoop m.downloadResults.size m

end Results

/-- The counters of the loop in `getDownloadStat`. -/
structure Tally where
  finished : Nat := 0
  error : Nat
  inprogress : Nat := 0
  removed : Nat := 0
  lastError : error_code
deriving DecidableEq, Repr

def Tally.count (t : Tally) (dr : DownloadResult) : Except Fault Tally :=
  if dr.belongsTo ≠ 0 then .ok t
  else if dr.result = .FINISHED then
    (increment t.finished).map fun finished => { t with finished }
  else if dr.result = .IN_PROGRESS then
    (increment t.inprogress).map fun inprogress => { t with inprogress }
  else if dr.result = .REMOVED then
    (increment t.removed).map fun removed => { t with removed }
  else (increment t.error).map fun error => { t with error, lastError := dr.result }

structure DownloadStat where
  error : Nat
  inProgress : Nat
  waiting : Int
  lastError : error_code
deriving DecidableEq, Repr

/-- The number of waiting downloads is a `size_t` that becomes an `int`. -/
def Results.getDownloadStat (m : Results) (reservedGroups : UInt64) : Except Fault DownloadStat :=
  (m.downloadResults.seq.foldlM Tally.count
    { error := m.removedErrorResult, lastError := m.removedLastErrorResult }).map fun t =>
      ⟨t.error, t.inprogress, (reservedGroups.toNat : Int).bmod (2 ^ 32), t.lastError⟩

/-! ## What is counted -/

theorem map_increment_eq_ok {α : Type} {f : Nat → α} {n : Nat} {a : α} :
    (increment n).map f = .ok a ↔ n + 1 ≤ INT_MAX ∧ a = f (n + 1) := by
  rw [increment]
  split
  next h => exact ⟨fun hok => ⟨h, (Except.ok.inj hok).symm⟩, fun hok => by rw [hok.2]; rfl⟩
  next h => exact ⟨nofun, fun hok => absurd hok.1 h⟩

/-- A download of its own that ended with this code. -/
def ended (code : error_code) (dr : DownloadResult) : Bool := dr.belongsTo = 0 ∧ dr.result = code

/-- A download of its own that did not finish. -/
def unfinished (dr : DownloadResult) : Bool := dr.belongsTo = 0 ∧ dr.result ≠ .FINISHED

/-- A download of its own that ended with an error. -/
def failed (dr : DownloadResult) : Bool :=
  dr.belongsTo = 0 ∧ dr.result ≠ .FINISHED ∧ dr.result ≠ .IN_PROGRESS ∧ dr.result ≠ .REMOVED

/-- The code of the last one, or another code if there is none. -/
def lastResult (code : error_code) (drs : List DownloadResult) : error_code :=
  (drs.getLast?.map DownloadResult.result).getD code

theorem lastResult_append (code : error_code) (drs drs' : List DownloadResult) :
    lastResult code (drs ++ drs') = lastResult (lastResult code drs) drs' := by
  rw [lastResult, lastResult, lastResult, List.getLast?_append]
  cases drs'.getLast? with
  | none => rfl
  | some dr => rfl

namespace Tally

variable {t t' : Tally} {dr : DownloadResult} {drs : List DownloadResult}

/-- Every counter is an `int`. -/
structure Fits (t : Tally) : Prop where
  finished : t.finished ≤ INT_MAX
  error : t.error ≤ INT_MAX
  inprogress : t.inprogress ≤ INT_MAX
  removed : t.removed ≤ INT_MAX

/-- The counters behind some results, where all of them have room. -/
def after (t : Tally) (drs : List DownloadResult) : Tally where
  finished := t.finished + drs.countP (ended .FINISHED)
  error := t.error + drs.countP failed
  inprogress := t.inprogress + drs.countP (ended .IN_PROGRESS)
  removed := t.removed + drs.countP (ended .REMOVED)
  lastError := lastResult t.lastError (drs.filter failed)

theorem after_append (t : Tally) (drs drs' : List DownloadResult) :
    t.after (drs ++ drs') = (t.after drs).after drs' := by
  simp only [after, List.countP_append, List.filter_append, lastResult_append, Nat.add_assoc]

theorem Fits.of_after (h : (t.after drs).Fits) : t.Fits where
  finished := Nat.le_of_add_right_le h.finished
  error := Nat.le_of_add_right_le h.error
  inprogress := Nat.le_of_add_right_le h.inprogress
  removed := Nat.le_of_add_right_le h.removed

theorem count_eq_ok (ht : t.Fits) :
    t.count dr = .ok t' ↔ (t.after [dr]).Fits ∧ t' = t.after [dr] := by
  have hfits {u : Tally} (hu : t.after [dr] = u) {n : Nat} (h : u.Fits ↔ n + 1 ≤ INT_MAX) :
      n + 1 ≤ INT_MAX ∧ t' = u ↔ (t.after [dr]).Fits ∧ t' = t.after [dr] := by
    rw [hu, h]
  obtain ⟨h1, h2, h3, h4⟩ := ht
  rw [count]
  split
  next hpart =>
    have hsame : t.after [dr] = t := by simp [after, ended, failed, lastResult, hpart]
    rw [hsame]
    exact ⟨fun hok => ⟨⟨h1, h2, h3, h4⟩, (Except.ok.inj hok).symm⟩, fun hok => by rw [hok.2]⟩
  next htop =>
    rw [not_not] at htop
    split
    next hcode =>
      rw [map_increment_eq_ok]
      exact hfits (by simp [after, ended, failed, lastResult, htop, hcode])
        ⟨fun h => h.finished, fun h => ⟨h, h2, h3, h4⟩⟩
    split
    next hcode =>
      rw [map_increment_eq_ok]
      exact hfits (by simp [after, ended, failed, lastResult, htop, hcode])
        ⟨fun h => h.inprogress, fun h => ⟨h1, h2, h, h4⟩⟩
    split
    next hcode =>
      rw [map_increment_eq_ok]
      exact hfits (by simp [after, ended, failed, lastResult, htop, hcode])
        ⟨fun h => h.removed, fun h => ⟨h1, h2, h3, h⟩⟩
    next hfinished hinprogress hremoved =>
      rw [map_increment_eq_ok]
      exact hfits
        (by simp [after, ended, failed, lastResult, htop, hfinished, hinprogress, hremoved])
        ⟨fun h => h.error, fun h => ⟨h1, h, h3, h4⟩⟩

/-- What the loop counts of the results that are kept. -/
theorem foldlM_count_eq_ok (ht : t.Fits) :
    drs.foldlM count t = .ok t' ↔ (t.after drs).Fits ∧ t' = t.after drs := by
  induction drs generalizing t with
  | nil => exact ⟨fun hok => ⟨ht, (Except.ok.inj hok).symm⟩, fun hok => by rw [hok.2]; rfl⟩
  | cons dr drs ih =>
    have hsplit : t.after (dr :: drs) = (t.after [dr]).after drs := after_append t [dr] drs
    rw [List.foldlM_cons, hsplit]
    constructor
    · intro hok
      cases hcount : t.count dr with
      | error e =>
        rw [hcount] at hok
        cases hok
      | ok u =>
        obtain ⟨hfits, rfl⟩ := (count_eq_ok ht).mp hcount
        rw [hcount] at hok
        exact (ih hfits).mp hok
    · intro hok
      have hfits := hok.1.of_after
      rw [(count_eq_ok ht).mpr ⟨hfits, rfl⟩]
      exact (ih hfits).mpr hok

end Tally

variable {m m' : Results} {dr : DownloadResult} {drs drs' : List DownloadResult} {n n' : Nat}

/-! ## What is let go -/

/-- The first `n` results have been let go, and the others are kept. -/
structure Evicted (drs : List DownloadResult) (n : Nat) (m : Results) : Prop where
  le_length : n ≤ drs.length
  seq : m.downloadResults.seq = drs.drop n
  error : m.removedErrorResult = (drs.take n).countP unfinished
  le_max : m.removedErrorResult ≤ INT_MAX
  lastError : m.removedLastErrorResult = lastResult .FINISHED ((drs.take n).filter unfinished)

/-- What comes out where the first `n` results are to be let go: the counter is too small for them
where it overflows. -/
def Ends (drs : List DownloadResult) (n : Nat) : Except Fault Results → Prop
  | .ok m => Evicted drs n m
  | .error .assertion => True
  | .error .overflow => INT_MAX < (drs.take n).countP unfinished

theorem Ends.bind {o : Except Fault Results} {f : Results → Except Fault Results}
    (h : Ends drs n o) (hf : ∀ m, o = .ok m → Evicted drs n m → Ends drs' n' (f m))
    (hmore : drs.take n <+: drs'.take n') : Ends drs' n' (o.bind f) := by
  cases o with
  | ok m => exact hf m rfl h
  | error e =>
    cases e with
    | assertion => trivial
    | overflow => exact Nat.lt_of_lt_of_le h (hmore.sublist.countP_le)

theorem take_take_append (drs' : List DownloadResult) (hn : n ≤ drs.length) (hle : n ≤ n') :
    drs.take n <+: (drs ++ drs').take n' := by
  rw [← List.take_append_of_le_length hn]
  exact List.take_prefix_take_left hle

namespace Evicted

variable {fuel : Nat}

theorem size (h : Evicted drs n m) : m.downloadResults.size = drs.length - n := by
  rw [IndexedList.size, h.seq, List.length_drop]

theorem evict (h : Evicted drs n m) (hseq : m.downloadResults.seq = dr :: rest) :
    Ends drs (n + 1) (m.evict dr) := by
  have hlt : n < drs.length := by
    by_contra hge
    rw [h.seq, List.drop_eq_nil_of_le (Nat.not_lt.mp hge)] at hseq
    cases hseq
  have hdrop : drs.drop n = drs[n] :: drs.drop (n + 1) := List.drop_eq_getElem_cons hlt
  obtain ⟨rfl, rfl⟩ : dr = drs[n] ∧ rest = drs.drop (n + 1) := by
    rw [h.seq, hdrop] at hseq
    exact ⟨(List.cons.inj hseq).1.symm, (List.cons.inj hseq).2.symm⟩
  have htake : drs.take (n + 1) = drs.take n ++ [drs[n]] := List.take_succ_eq_append_getElem hlt
  have hpop : m.downloadResults.pop_front.seq = drs.drop (n + 1) := congrArg List.tail hseq
  rw [Results.evict]
  by_cases hdr : unfinished drs[n] = true
  · have hcount : (drs.take (n + 1)).countP unfinished = m.removedErrorResult + 1 := by
      rw [htake, List.countP_append, List.countP_cons_of_pos hdr, h.error]
      rfl
    rw [if_pos (of_decide_eq_true hdr), increment]
    by_cases hroom : m.removedErrorResult < INT_MAX
    · rw [if_pos hroom]
      refine ⟨hlt, hpop, hcount.symm, hroom, ?_⟩
      rw [htake, List.filter_append, List.filter_cons_of_pos hdr, lastResult_append]
      rfl
    · rw [if_neg hroom]
      change INT_MAX < _
      rw [hcount]
      omega
  · rw [if_neg fun h => hdr (decide_eq_true h)]
    refine ⟨hlt, hpop, ?_, h.le_max, ?_⟩
    · rw [htake, List.countP_append, List.countP_cons_of_neg hdr, List.countP_nil, Nat.add_zero]
      exact h.error
    · rw [htake, List.filter_append, List.filter_cons_of_neg hdr, List.filter_nil, List.append_nil]
      exact h.lastError

theorem maxDownloadResult_evict (h : m.evict dr = .ok m') :
    m'.maxDownloadResult = m.maxDownloadResult := by
  rw [Results.evict] at h
  split at h
  · obtain ⟨-, rfl⟩ := map_increment_eq_ok.mp h
    rfl
  · obtain rfl := Except.ok.inj h
    rfl

/-- The loop lets go what is too much. -/
theorem evictLoop (h : Evicted drs n m) (hfuel : drs.length - n ≤ fuel) :
    Ends drs (n + (drs.length - n - m.maxDownloadResult)) (Results.evictLoop fuel m) := by
  induction fuel generalizing m n with
  | zero =>
    have hzero : n + (drs.length - n - m.maxDownloadResult) = n := by omega
    rw [hzero]
    exact h
  | succ fuel ih =>
    rw [Results.evictLoop, h.size]
    split
    next hle =>
      have hzero : n + (drs.length - n - m.maxDownloadResult) = n := by omega
      rw [hzero]
      exact h
    next hgt =>
      split
      next hnil =>
        rw [h.seq, List.drop_eq_nil_iff] at hnil
        omega
      next dr rest hseq =>
        refine (h.evict hseq).bind (fun m' hm' h' => ?_)
          (List.take_prefix_take_left (by omega))
        have hnext := ih h' (by omega)
        rw [maxDownloadResult_evict hm'] at hnext
        have hsum : n + 1 + (drs.length - (n + 1) - m.maxDownloadResult) =
            n + (drs.length - n - m.maxDownloadResult) := by omega
        rwa [hsum] at hnext

theorem add (h : Evicted drs n m) (dr : DownloadResult) (hnew : dr.gid ∉ m.downloadResults.keys) :
    Evicted (drs ++ [dr]) n { m with
      numStoppedTotal := m.numStoppedTotal + 1
      downloadResults := m.downloadResults.push_back dr } := by
  have hle := h.le_length
  refine ⟨by rw [List.length_append]; omega, ?_, ?_, h.le_max, ?_⟩
  · rw [List.drop_append_of_le_length hle, ← h.seq]
    exact IndexedList.seq_push_back hnew
  · rw [List.take_append_of_le_length hle]
    exact h.error
  · rw [List.take_append_of_le_length hle]
    exact h.lastError

end Evicted

/-! ## Runs -/

/-- Results that are added, each with the limit at that time. -/
def Results.run (m : Results) : List (Nat × DownloadResult) → Except Fault Results
  | [] => .ok m
  | (maxDownloadResult, dr) :: calls =>
    ({ m with maxDownloadResult := maxDownloadResult }.addDownloadResult dr).bind fun m =>
      m.run calls

/-- How many are kept behind some more results. -/
def keptAfter (n : Nat) (calls : List (Nat × DownloadResult)) : Nat :=
  calls.foldl (fun n c => min (n + 1) c.1) n

/-- The results that are kept: the last ones. -/
def kept (calls : List (Nat × DownloadResult)) : List DownloadResult :=
  (calls.map Prod.snd).drop (calls.length - keptAfter 0 calls)

/-- The results that are let go: all others. -/
def evicted (calls : List (Nat × DownloadResult)) : List DownloadResult :=
  (calls.map Prod.snd).take (calls.length - keptAfter 0 calls)

theorem keptAfter_le (calls : List (Nat × DownloadResult)) (n : Nat) :
    keptAfter n calls ≤ n + calls.length := by
  induction calls generalizing n with
  | nil => exact Nat.le_refl n
  | cons c calls ih =>
    have hmin : min (n + 1) c.1 ≤ n + 1 := Nat.min_le_left _ _
    calc keptAfter (min (n + 1) c.1) calls
        ≤ min (n + 1) c.1 + calls.length := ih _
      _ ≤ n + (calls.length + 1) := by omega

/-- The run lemma, from a state in which some results were let go. -/
theorem Evicted.run (h : Evicted drs n m) (calls : List (Nat × DownloadResult)) :
    Ends (drs ++ calls.map Prod.snd)
      (drs.length + calls.length - keptAfter (drs.length - n) calls) (m.run calls) := by
  induction calls generalizing m drs n with
  | nil =>
    have hle := h.le_length
    have hn : drs.length + 0 - (drs.length - n) = n := by omega
    rw [List.map_nil, List.append_nil]
    change Ends drs (drs.length + 0 - (drs.length - n)) (.ok m)
    rw [hn]
    exact h
  | cons c calls ih =>
    obtain ⟨max, dr⟩ := c
    rw [Results.run, Results.addDownloadResult]
    split
    next => trivial
    next hnew =>
      have hstart : Evicted drs n { m with maxDownloadResult := max } :=
        ⟨h.le_length, h.seq, h.error, h.le_max, h.lastError⟩
      have hpush := hstart.add dr hnew
      have hloop : Ends (drs ++ [dr]) (n + ((drs ++ [dr]).length - n - max)) _ :=
        hpush.evictLoop (Nat.le_of_eq hpush.size.symm)
      have hlength : (drs ++ [dr]).length = drs.length + 1 := List.length_append
      have hle := hpush.le_length
      have hkept : (drs ++ [dr]).length - (n + ((drs ++ [dr]).length - n - max)) =
          min (drs.length - n + 1) max := by
        have := h.le_length
        omega
      have hmore := keptAfter_le calls (min (drs.length - n + 1) max)
      have hsum : drs.length + (calls.length + 1) = (drs ++ [dr]).length + calls.length := by omega
      rw [List.map_cons, List.length_cons, List.append_cons, hsum]
      refine hloop.bind (fun m' _ h' => ?_) (take_take_append _ (by omega) ?_)
      · have hnext := ih h'
        rwa [hkept] at hnext
      · change _ ≤ _ - keptAfter (min (drs.length - n + 1) max) calls
        omega

/-- The counts are those of the results that have been added, kept or not. -/
def Reports (stat : DownloadStat) (drs : List DownloadResult) : Prop :=
  stat.error = drs.countP failed ∧ stat.lastError = lastResult .FINISHED (drs.filter failed)

/-- No download of its own had not ended, or was removed. -/
def Settled (drs : List DownloadResult) : Prop :=
  ∀ dr ∈ drs, dr.belongsTo = 0 → dr.result ≠ .IN_PROGRESS ∧ dr.result ≠ .REMOVED

theorem Settled.filter_unfinished (h : Settled drs) :
    drs.filter unfinished = drs.filter failed := by
  refine List.filter_congr fun dr hdr => decide_eq_decide.mpr ?_
  exact ⟨fun ⟨htop, hcode⟩ => ⟨htop, hcode, h dr hdr htop⟩, fun ⟨htop, hcode, _⟩ => ⟨htop, hcode⟩⟩

theorem settled_iff (drs : List DownloadResult) :
    Settled drs ↔ drs.countP unfinished = drs.countP failed := by
  rw [List.countP_eq_length_filter, List.countP_eq_length_filter]
  refine ⟨fun h => congrArg List.length h.filter_unfinished, fun h dr hdr htop => ?_⟩
  have hfailed : (drs.filter unfinished).filter failed = drs.filter failed := by
    rw [List.filter_filter]
    refine List.filter_congr fun dr _ => Bool.and_eq_left_iff_imp.mpr fun hdr => ?_
    obtain ⟨h1, h2, -⟩ := of_decide_eq_true hdr
    exact decide_eq_true ⟨h1, h2⟩
  rw [← hfailed, eq_comm, List.length_filter_eq_length_iff] at h
  by_cases hfinished : dr.result = .FINISHED
  · rw [hfinished]
    decide
  · have hmem : dr ∈ drs.filter unfinished :=
      List.mem_filter.mpr ⟨hdr, decide_eq_true ⟨htop, hfinished⟩⟩
    exact (of_decide_eq_true (h dr hmem)).2.2

theorem getDownloadStat_eq_ok (hle : m.removedErrorResult ≤ INT_MAX) {reservedGroups : UInt64}
    {stat : DownloadStat} : m.getDownloadStat reservedGroups = .ok stat ↔
      let t := Tally.after { error := m.removedErrorResult, lastError := m.removedLastErrorResult }
        m.downloadResults.seq
      t.Fits ∧ stat =
        ⟨t.error, t.inprogress, (reservedGroups.toNat : Int).bmod (2 ^ 32), t.lastError⟩ := by
  have hstart : (Tally.mk 0 m.removedErrorResult 0 0 m.removedLastErrorResult).Fits :=
    ⟨Nat.zero_le _, hle, Nat.zero_le _, Nat.zero_le _⟩
  rw [Results.getDownloadStat]
  constructor
  · intro h
    cases hcount : m.downloadResults.seq.foldlM Tally.count
        { error := m.removedErrorResult, lastError := m.removedLastErrorResult } with
    | error e =>
      rw [hcount] at h
      cases h
    | ok t =>
      rw [hcount] at h
      obtain ⟨hfits, rfl⟩ := (Tally.foldlM_count_eq_ok hstart).mp hcount
      exact ⟨hfits, (Except.ok.inj h).symm⟩
  · rintro ⟨hfits, rfl⟩
    rw [(Tally.foldlM_count_eq_ok hstart).mpr ⟨hfits, rfl⟩]
    rfl

/-- Results that are counted as errors exactly if they are some, by counters that have room. -/
structure Countable (calls : List (Nat × DownloadResult)) : Prop where
  evicted : Settled (evicted calls)
  failed : (calls.map Prod.snd).countP failed ≤ INT_MAX
  finished : (kept calls).countP (ended .FINISHED) ≤ INT_MAX
  inProgress : (kept calls).countP (ended .IN_PROGRESS) ≤ INT_MAX
  removed : (kept calls).countP (ended .REMOVED) ≤ INT_MAX

theorem countP_failed_split (calls : List (Nat × DownloadResult)) :
    (calls.map Prod.snd).countP failed =
      (evicted calls).countP failed + (kept calls).countP failed := by
  rw [evicted, kept, ← List.countP_append, List.take_append_drop]

theorem filter_failed_split (calls : List (Nat × DownloadResult)) :
    (calls.map Prod.snd).filter failed =
      (evicted calls).filter failed ++ (kept calls).filter failed := by
  rw [evicted, kept, ← List.filter_append, List.take_append_drop]

variable {calls : List (Nat × DownloadResult)}

/-- The statistics of what a run ends with. -/
theorem reports_iff (h : Evicted (calls.map Prod.snd) (calls.length - keptAfter 0 calls) m)
    (reservedGroups : UInt64) :
    (∃ stat, m.getDownloadStat reservedGroups = .ok stat ∧ Reports stat (calls.map Prod.snd)) ↔
      Countable calls := by
  obtain ⟨-, hseq, herror, hle, hlast⟩ := h
  change _ = kept calls at hseq
  change _ = (evicted calls).countP unfinished at herror
  change _ = lastResult _ ((evicted calls).filter unfinished) at hlast
  have hcount := countP_failed_split calls
  constructor
  · rintro ⟨stat, hstat, hreports⟩
    obtain ⟨hfits, rfl⟩ := (getDownloadStat_eq_ok hle).mp hstat
    rw [hseq] at hfits hreports
    have hsum := hreports.1
    have hroom := hfits.error
    simp only [Tally.after] at hsum hroom
    refine ⟨(settled_iff _).mpr ?_, ?_, ?_, ?_, ?_⟩
    · omega
    · omega
    · exact Nat.le_of_add_left_le hfits.finished
    · exact Nat.le_of_add_left_le hfits.inprogress
    · exact Nat.le_of_add_left_le hfits.removed
  · rintro ⟨hsettled, hfailed, hfinished, hinprogress, hremoved⟩
    have hsame := (settled_iff _).mp hsettled
    refine ⟨_, (getDownloadStat_eq_ok hle).mpr ⟨⟨?_, ?_, ?_, ?_⟩, rfl⟩, ?_, ?_⟩
    · simpa only [Tally.after, hseq, Nat.zero_add] using hfinished
    · simp only [Tally.after, hseq]
      omega
    · simpa only [Tally.after, hseq, Nat.zero_add] using hinprogress
    · simpa only [Tally.after, hseq, Nat.zero_add] using hremoved
    · simp only [Tally.after, hseq]
      omega
    · simp only [Tally.after]
      rw [hseq, hlast, hsettled.filter_unfinished, filter_failed_split, lastResult_append]

/-- The counts do not depend on which results were let go if and only if none of these was of a
download that had not ended or was removed, and no `int` counts too far. -/
theorem downloadStat_iff {calls : List (Nat × DownloadResult)} {max : Nat} {keep : Bool}
    (h : Results.run { maxDownloadResult := max, keepUnfinishedDownloadResult := keep } calls ≠
      .error .assertion) (reservedGroups : UInt64) :
    (∃ m stat,
      Results.run { maxDownloadResult := max, keepUnfinishedDownloadResult := keep } calls = .ok m ∧
      m.getDownloadStat reservedGroups = .ok stat ∧ Reports stat (calls.map Prod.snd)) ↔
    Countable calls := by
  have hstart : Evicted [] 0 { maxDownloadResult := max, keepUnfinishedDownloadResult := keep } :=
    ⟨Nat.le_refl 0, rfl, rfl, Nat.zero_le _, rfl⟩
  have hrun := hstart.run calls
  rw [List.nil_append, List.length_nil, Nat.zero_add, Nat.sub_zero] at hrun
  cases hok : Results.run { maxDownloadResult := max, keepUnfinishedDownloadResult := keep }
      calls with
  | ok m =>
    rw [hok] at hrun
    rw [← reports_iff hrun reservedGroups]
    constructor
    · rintro ⟨m', stat, hm', hreports⟩
      obtain rfl := Except.ok.inj hm'
      exact ⟨stat, hreports⟩
    · rintro ⟨stat, hreports⟩
      exact ⟨m, stat, rfl, hreports⟩
  | error e =>
    rw [hok] at hrun h
    cases e with
    | assertion => exact absurd rfl h
    | overflow =>
      change INT_MAX < (evicted calls).countP unfinished at hrun
      refine iff_of_false (fun ⟨_, _, hm, _⟩ => by cases hm) fun hcountable => ?_
      have hsame := (settled_iff _).mp hcountable.evicted
      have hcount := countP_failed_split calls
      have hfailed := hcountable.failed
      omega

/-- Three results are let go, one of them of a part of another download, and two are kept. -/
def mixedCalls : List (Nat × DownloadResult) :=
  [(2, ⟨1, 0, .TIME_OUT, false⟩), (2, ⟨2, 0, .FINISHED, false⟩), (3, ⟨3, 9, .REMOVED, false⟩),
    (3, ⟨4, 0, .REMOVED, false⟩), (2, ⟨5, 0, .FILE_IO_ERROR, true⟩)]

theorem downloadStat_iff_mixed :
    (∃ m stat,
      Results.run { maxDownloadResult := 2, keepUnfinishedDownloadResult := true } mixedCalls =
        .ok m ∧
      m.getDownloadStat 1 = .ok stat ∧ Reports stat (mixedCalls.map Prod.snd)) ∧
    (mixedCalls.map Prod.snd).countP failed = 2 ∧ (kept mixedCalls).countP failed = 1 :=
  ⟨(downloadStat_iff (by decide +kernel) 1).mpr
      ⟨by unfold Settled; decide, by decide, by decide, by decide, by decide⟩,
    by decide⟩

/-- A download that was removed counts as an error when its result is let go. -/
theorem downloadStat_counterexample :
    ∃ m stat, Results.run { maxDownloadResult := 0, keepUnfinishedDownloadResult := false }
        [(0, ⟨1, 0, .REMOVED, false⟩)] = .ok m ∧
      m.getDownloadStat 0 = .ok stat ∧ ¬Reports stat [⟨1, 0, .REMOVED, false⟩] :=
  ⟨_, _, rfl, rfl, fun h => absurd h.1 (by decide)⟩

end FluxCore.Request
