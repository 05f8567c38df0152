import FluxCore.Lib.TextStream
import FluxCore.Peers.PeerStorage

/-!
# The ban list in a file

`saveBannedPeers` and `loadBannedPeers`. A line has the address, the seconds that are left, the
source and the reason of a ban, with blanks between them; the reader takes the reason for a single
word.
-/

namespace FluxCore.Peers

open TextStream

namespace DefaultPeerStorage

def BANNED_PEERS_V1 : List Char := "BANNED_PEERS_V1".toList

/-- The whole seconds that are left of a ban. -/
def remainingSeconds (wallclock : Nat) (entry : BadPeerEntry) : Nat :=
  (entry.expireTime - wallclock) / seconds 1

/-- The line of a ban. -/
def banLine (wallclock : Nat) (ip : String) (entry : BadPeerEntry) : List Char :=
  ip.toList ++ ' ' :: (Nat.toDigits 10 (remainingSeconds wallclock entry) ++
    ' ' :: (entry.source.toList ++ ' ' :: entry.reason.toList))

/-- The bans in the order of their addresses. -/
def sortedBans (s : DefaultPeerStorage) : List (Sigma fun _ : String => BadPeerEntry) :=
  s.badPeers.entries.mergeSort fun a b => a.1 ≤ b.1

/-- The text that is written: bans that are over, or end within a second, are left out. -/
def saveBannedPeers (s : DefaultPeerStorage) : List Char :=
  BANNED_PEERS_V1 ++ '\n' :: s.sortedBans.flatMap fun entry =>
    if s.wallclock < entry.2.expireTime ∧ 0 < remainingSeconds s.wallclock entry.2 then
      banLine s.wallclock entry.1 entry.2 ++ ['\n']
    else []

/-- What a line says of a ban. -/
structure BanRecord where
  ip : List Char
  remainingSeconds : Int
  source : List Char
  reason : List Char
  deriving DecidableEq, Repr

def knownSource (source : List Char) : List Char :=
  if source ≠ "auto".toList ∧ source ≠ "manual".toList then "auto".toList else source

/-- The format with a source and a reason. -/
def parseV3 (line : List Char) : Option BanRecord := do
  let (ip, rest) ← word line
  let (remainingSeconds, rest) ← int64 rest
  let (source, rest) ← word rest
  let (reason, _) ← word rest
  let source := knownSource source
  some { ip, remainingSeconds, source, reason := if reason = [] then source else reason }

/-- The format with a source. -/
def parseV2 (line : List Char) : Option BanRecord := do
  let (ip, rest) ← word line
  let (remainingSeconds, rest) ← int64 rest
  let (source, _) ← word rest
  let source := knownSource source
  some { ip, remainingSeconds, source, reason := source }

/-- The oldest format. -/
def parseV1 (line : List Char) : Option BanRecord := do
  let (ip, rest) ← word line
  let (remainingSeconds, _) ← int64 rest
  some { ip, remainingSeconds, source := "auto".toList, reason := "auto".toList }

/-- A line is of the newest format that it can be read in. -/
def parseBanLine (line : List Char) : Option BanRecord :=
  parseV3 line <|> parseV2 line <|> parseV1 line

/-- A turn of the loop of `loadBannedPeers`. -/
def loadBanLine (s : DefaultPeerStorage) (line : List Char) : DefaultPeerStorage :=
  let line := stripCr line
  if line = [] then s
  else
    match parseBanLine line with
    | none => s
    | some r =>
      if 0 < r.remainingSeconds then
        let expireTime := s.wallclock + seconds r.remainingSeconds.toNat
        let entry : BadPeerEntry :=
          { expireTime, source := .ofList r.source, reason := .ofList r.reason }
        { s with badPeers := s.badPeers.insert (.ofList r.ip) entry }
      else s

def loadBannedPeers (text : List Char) (s : DefaultPeerStorage) : DefaultPeerStorage :=
  match lines text with
  | [] => s
  | version :: ls => if stripCr version = BANNED_PEERS_V1 then ls.foldl loadBanLine s else s

variable {s : DefaultPeerStorage} {ip : String} {entry : BadPeerEntry} {wallclock : Nat}

/-! ## A line -/

/-- A ban that is written: its address is without blanks, it does not end within a second, and the
source and the reason are such as bans are given. -/
structure Written (wallclock : Nat) (ip : String) (entry : BadPeerEntry) : Prop where
  ip : ∀ c ∈ ip.toList, isSpace c = false
  later : wallclock + seconds 1 < entry.expireTime
  expireTime : entry.expireTime < 2 ^ 63
  source : entry.source = "auto" ∨ entry.source = "manual"
  reason : entry.reason ≠ ""
  oneLine : '\n' ∉ entry.reason.toList

/-- The reason that is read: its first word, or the source in place of blanks. -/
def reasonRead (entry : BadPeerEntry) : List Char :=
  match word (stripCr entry.reason.toList) with
  | some (reason, _) => reason
  | none => entry.source.toList

theorem Written.word_source (h : Written wallclock ip entry) : Word entry.source.toList := by
  rcases h.source with hs | hs
  all_goals
    rw [hs]
    exact ⟨by decide, by simp [isSpace]⟩

theorem Written.knownSource_eq (h : Written wallclock ip entry) :
    knownSource entry.source.toList = entry.source.toList := by
  rcases h.source with hs | hs
  all_goals
    rw [hs]
    decide

theorem Written.reason_ne_nil (h : Written wallclock ip entry) : entry.reason.toList ≠ [] :=
  fun hnil => h.reason (String.toList_eq_nil_iff.mp hnil)

theorem Written.remainingSeconds_pos (h : Written wallclock ip entry) :
    0 < remainingSeconds wallclock entry := by
  have hlater := h.later
  rw [seconds] at hlater
  rw [remainingSeconds, seconds]
  omega

theorem Written.remainingSeconds_lt (h : Written wallclock ip entry) :
    remainingSeconds wallclock entry < 2 ^ 63 := by
  have hlt := h.expireTime
  rw [remainingSeconds, seconds]
  omega

/-- The reason that is read has no blanks. -/
theorem Written.reasonRead_noSpace (h : Written wallclock ip entry) :
    ∀ c ∈ reasonRead entry, isSpace c = false := by
  rw [reasonRead]
  split
  next hw => exact word_noSpace hw
  next => exact h.word_source.noSpace

/-- The reason is read as it is if and only if it is a word. -/
theorem Written.reasonRead_eq_iff (h : Written wallclock ip entry) :
    reasonRead entry = entry.reason.toList ↔ ∀ c ∈ entry.reason.toList, isSpace c = false := by
  refine ⟨fun heq => heq ▸ h.reasonRead_noSpace, fun hno => ?_⟩
  have hw : word (stripCr entry.reason.toList ++ []) = some (entry.reason.toList, []) := by
    rw [stripCr_of_noSpace hno]
    exact word_append ⟨h.reason_ne_nil, hno⟩ ends_nil
  rw [List.append_nil] at hw
  rw [reasonRead, hw]

theorem stripCr_banLine (h : Written wallclock ip entry) : stripCr (banLine wallclock ip entry) =
    ip.toList ++ ' ' :: (Nat.toDigits 10 (remainingSeconds wallclock entry) ++
      ' ' :: (entry.source.toList ++ ' ' :: stripCr entry.reason.toList)) := by
  have hassoc : ∀ r : List Char, ip.toList ++ ' ' ::
      (Nat.toDigits 10 (remainingSeconds wallclock entry) ++
        ' ' :: (entry.source.toList ++ ' ' :: r)) =
      ip.toList ++ ' ' :: (Nat.toDigits 10 (remainingSeconds wallclock entry) ++
        ' ' :: (entry.source.toList ++ [' '])) ++ r := fun r => by simp
  rw [banLine, hassoc, stripCr_append _ h.reason_ne_nil, ← hassoc]

/-- What the reader makes of the line of a ban. -/
theorem parseBanLine_banLine (h : Written wallclock ip entry) (hip : ip ≠ "") :
    parseBanLine (stripCr (banLine wallclock ip entry)) = some {
      ip := ip.toList
      remainingSeconds := remainingSeconds wallclock entry
      source := entry.source.toList
      reason := reasonRead entry } := by
  have hword : Word ip.toList := ⟨fun hnil => hip (String.toList_eq_nil_iff.mp hnil), h.ip⟩
  have hblank : ∀ c ∈ (' ' :: (entry.source.toList ++ ' ' :: stripCr entry.reason.toList)).head?,
      c.isDigit = false := fun c hc => by
    cases hc
    decide
  have hnum := int64_toDigits h.remainingSeconds_lt hblank
  rw [stripCr_banLine h, parseBanLine, parseV3, parseV2, word_append hword (ends_space _)]
  simp only [Option.bind_eq_bind, Option.bind_some, int64_space, hnum, word_space,
    word_append h.word_source (ends_space _), h.knownSource_eq]
  rw [reasonRead]
  cases hw : word (stripCr entry.reason.toList) with
  | none => rfl
  | some r =>
    have hne : r.1 ≠ [] := word_ne_nil hw
    simp only [Option.bind_some, if_neg hne]
    rfl

/-- Without an address the seconds are taken for it, and the source for the seconds. -/
theorem parseBanLine_noAddress (h : Written wallclock "" entry) :
    parseBanLine (stripCr (banLine wallclock "" entry)) = none := by
  have hword : Word (Nat.toDigits 10 (remainingSeconds wallclock entry)) :=
    ⟨Nat.toDigits_ne_nil, fun c hc =>
      isSpace_of_isDigit (Nat.isDigit_of_mem_toDigits (by decide) (by decide) hc)⟩
  have hnone : int64 (entry.source.toList ++ ' ' :: stripCr entry.reason.toList) = none := by
    rcases h.source with hs | hs
    all_goals
      rw [hs]
      rfl
  rw [stripCr_banLine h, parseBanLine, parseV3, parseV2, parseV1]
  simp only [String.toList_empty, List.nil_append, word_space, word_append hword (ends_space _),
    Option.bind_eq_bind, Option.bind_some, int64_space, hnone, Option.bind_none]
  rfl

/-! ## The table -/

/-- What a ban is when it has been read. -/
def readBack (wallclock : Nat) (entry : BadPeerEntry) : BadPeerEntry where
  expireTime := wallclock + seconds (remainingSeconds wallclock entry)
  source := entry.source
  reason := .ofList (reasonRead entry)

theorem banLine_oneLine (h : Written wallclock ip entry) : '\n' ∉ banLine wallclock ip entry := by
  have hspace : ∀ l : List Char, (∀ c ∈ l, isSpace c = false) → '\n' ∉ l := fun l hl hm =>
    absurd (hl _ hm) (by decide)
  have hdigits : '\n' ∉ Nat.toDigits 10 (remainingSeconds wallclock entry) := fun hm =>
    absurd (Nat.isDigit_of_mem_toDigits (by decide) (by decide) hm) (by decide)
  simp only [banLine, List.mem_append, List.mem_cons, not_or]
  exact ⟨hspace _ h.ip, by decide, hdigits, by decide, hspace _ h.word_source.noSpace, by decide,
    h.oneLine⟩

/-- The line of a ban brings it back, unless it has no address. -/
theorem loadBanLine_banLine (h : Written s.wallclock ip entry) :
    s.loadBanLine (banLine s.wallclock ip entry) =
      if ip = "" then s
      else { s with badPeers := s.badPeers.insert ip (readBack s.wallclock entry) } := by
  have hne : stripCr (banLine s.wallclock ip entry) ≠ [] := by
    rw [stripCr_banLine h]
    exact List.append_ne_nil_of_right_ne_nil _ (List.cons_ne_nil _ _)
  have hpos : (0 : Int) < remainingSeconds s.wallclock entry := by
    exact_mod_cast h.remainingSeconds_pos
  rw [loadBanLine]
  dsimp only
  rw [if_neg hne]
  split_ifs with hip
  · subst hip
    rw [parseBanLine_noAddress h]
  · rw [parseBanLine_banLine h hip]
    dsimp only
    rw [if_pos hpos, String.ofList_toList, String.ofList_toList, Int.toNat_natCast]
    rfl

/-- The lines of several bans. -/
theorem lookup_foldl_loadBanLine {bans : List (Sigma fun _ : String => BadPeerEntry)}
    (hkeys : bans.NodupKeys) (h : ∀ b ∈ bans, Written s.wallclock b.1 b.2) (ip : String) :
    ((bans.map fun b => banLine s.wallclock b.1 b.2).foldl loadBanLine s).badPeers.lookup ip =
      match bans.dlookup ip with
      | none => s.badPeers.lookup ip
      | some entry =>
        if ip = "" then s.badPeers.lookup ip else some (readBack s.wallclock entry) := by
  induction bans generalizing s with
  | nil => rfl
  | cons b bans ih =>
    obtain ⟨hnew, hkeys⟩ := List.nodupKeys_cons.mp hkeys
    have hb := loadBanLine_banLine (h b (List.mem_cons_self ..))
    have hclock : (s.loadBanLine (banLine s.wallclock b.1 b.2)).wallclock = s.wallclock := by
      rw [hb]
      split <;> rfl
    have hrest := ih (s := s.loadBanLine (banLine s.wallclock b.1 b.2)) hkeys fun c hc => by
      rw [hclock]
      exact h c (.tail _ hc)
    rw [hclock] at hrest
    rw [List.map_cons, List.foldl_cons, hrest, hb]
    by_cases hip : b.1 = ip
    · subst hip
      rw [List.dlookup_cons_eq, List.dlookup_eq_none.mpr hnew]
      dsimp only
      split
      next => rfl
      next => exact AList.lookup_insert _
    · rw [List.dlookup_cons_ne _ _ (Ne.symm hip)]
      have hlookup : (if b.1 = "" then s
          else { s with badPeers := s.badPeers.insert b.1 (readBack s.wallclock b.2) }
          ).badPeers.lookup ip = s.badPeers.lookup ip := by
        split
        · rfl
        · exact AList.lookup_insert_ne (Ne.symm hip)
      rw [hlookup]

/-- What a table says of an address: the seconds that are left, the source and the reason. -/
def banOf (s : DefaultPeerStorage) (ip : String) : Option (Nat × String × String) :=
  (s.badPeers.lookup ip).map fun entry =>
    (remainingSeconds s.wallclock entry, entry.source, entry.reason)

/-- The text that is written restores the bans, at the same time and into an empty table. -/
def Restored (s : DefaultPeerStorage) : Prop :=
  ∀ ip, (loadBannedPeers s.saveBannedPeers { s with badPeers := ∅ }).banOf ip = s.banOf ip

theorem lines_bans {bans : List (Sigma fun _ : String => BadPeerEntry)}
    (h : ∀ b ∈ bans, Written wallclock b.1 b.2) :
    lines (bans.flatMap fun b =>
      if wallclock < b.2.expireTime ∧ 0 < remainingSeconds wallclock b.2 then
        banLine wallclock b.1 b.2 ++ ['\n']
      else []) = bans.map fun b => banLine wallclock b.1 b.2 := by
  induction bans with
  | nil => rfl
  | cons b bans ih =>
    have hb := h b (List.mem_cons_self ..)
    have hlater : wallclock < b.2.expireTime := by
      have := hb.later
      omega
    rw [List.flatMap_cons, if_pos ⟨hlater, hb.remainingSeconds_pos⟩, List.append_assoc,
      List.singleton_append, lines_append (banLine_oneLine hb), List.map_cons,
      ih fun c hc => h c (.tail _ hc)]

/-- The table that is read. -/
theorem lookup_loadBannedPeers
    (h : ∀ ip entry, s.badPeers.lookup ip = some entry → Written s.wallclock ip entry)
    (ip : String) :
    (loadBannedPeers s.saveBannedPeers { s with badPeers := ∅ }).badPeers.lookup ip =
      if ip = "" then none else (s.badPeers.lookup ip).map (readBack s.wallclock) := by
  have hperm : s.sortedBans.Perm s.badPeers.entries := List.mergeSort_perm ..
  have hkeys : s.sortedBans.NodupKeys := (List.perm_nodupKeys hperm).mpr s.badPeers.nodupKeys
  have hlookup : s.sortedBans.dlookup ip = s.badPeers.lookup ip :=
    List.perm_dlookup ip hkeys hperm
  have hwritten : ∀ b ∈ s.sortedBans, Written s.wallclock b.1 b.2 := fun b hb => by
    refine h b.1 b.2 ?_
    exact (AList.mem_lookup_iff).mpr (hperm.subset hb)
  have hload := lookup_foldl_loadBanLine (s := { s with badPeers := ∅ }) hkeys hwritten ip
  have hversion : stripCr BANNED_PEERS_V1 = BANNED_PEERS_V1 := by decide
  rw [loadBannedPeers, saveBannedPeers, lines_append (by decide), lines_bans hwritten]
  dsimp only
  have hempty : (∅ : AList fun _ : String => BadPeerEntry).lookup ip = none := AList.lookup_empty ip
  rw [if_pos hversion, hload, hlookup, hempty]
  cases s.badPeers.lookup ip with
  | none => exact (ite_self none).symm
  | some entry => rfl

/-- The bans are such that they are written. -/
def Bans (s : DefaultPeerStorage) : Prop :=
  ∀ ip entry, s.badPeers.lookup ip = some entry → Written s.wallclock ip entry

theorem remainingSeconds_readBack (wallclock : Nat) (entry : BadPeerEntry) :
    remainingSeconds wallclock (readBack wallclock entry) = remainingSeconds wallclock entry := by
  rw [remainingSeconds, readBack]
  dsimp only
  rw [Nat.add_sub_cancel_left, seconds, seconds, Nat.one_mul]
  exact Nat.mul_div_cancel _ (by decide)

theorem loadBanLine_wallclock (s : DefaultPeerStorage) (line : List Char) :
    (s.loadBanLine line).wallclock = s.wallclock := by
  rw [loadBanLine]
  dsimp only
  split
  · rfl
  · split
    · rfl
    · split <;> rfl

theorem loadBannedPeers_wallclock (text : List Char) (s : DefaultPeerStorage) :
    (loadBannedPeers text s).wallclock = s.wallclock := by
  have hfold : ∀ ls : List (List Char), (ls.foldl loadBanLine s).wallclock = s.wallclock := by
    intro ls
    induction ls generalizing s with
    | nil => rfl
    | cons l ls ih => exact (ih (s.loadBanLine l)).trans (loadBanLine_wallclock s l)
  rw [loadBannedPeers]
  split
  · rfl
  · split
    · exact hfold _
    · rfl

theorem banOf_loadBannedPeers (h : s.Bans) (ip : String) :
    (loadBannedPeers s.saveBannedPeers { s with badPeers := ∅ }).banOf ip =
      if ip = "" then none
      else (s.badPeers.lookup ip).map fun entry =>
        (remainingSeconds s.wallclock entry, entry.source, .ofList (reasonRead entry)) := by
  rw [banOf, lookup_loadBannedPeers h, loadBannedPeers_wallclock]
  split
  · rfl
  · rw [Option.map_map]
    refine congrArg (Option.map · _) (funext fun entry => ?_)
    rw [Function.comp_apply, remainingSeconds_readBack, readBack]

/-- **The bans are restored if and only if all of them have an address and one word for a
reason.** -/
theorem bans_restored_iff (h : s.Bans) :
    s.Restored ↔ ∀ ip entry, s.badPeers.lookup ip = some entry →
      ip ≠ "" ∧ ∀ c ∈ entry.reason.toList, isSpace c = false := by
  refine ⟨fun hr ip entry hl => ?_, fun hall ip => ?_⟩
  · have hread := hr ip
    have hw := h ip entry hl
    rw [banOf_loadBannedPeers h, banOf, hl] at hread
    by_cases hip : ip = ""
    · rw [if_pos hip] at hread
      cases hread
    · rw [if_neg hip] at hread
      simp only [Option.map_some, Option.some.injEq, Prod.mk.injEq, true_and] at hread
      refine ⟨hip, hw.reasonRead_eq_iff.mp ?_⟩
      rw [← hread, String.toList_ofList]
  · rw [banOf_loadBannedPeers h, banOf]
    cases hl : s.badPeers.lookup ip with
    | none => exact ite_self none
    | some entry =>
      obtain ⟨hip, hno⟩ := hall ip entry hl
      rw [if_neg hip, Option.map_some, Option.map_some, (h ip entry hl).reasonRead_eq_iff.mpr hno,
        String.ofList_toList]

theorem bans_of_entries (h : ∀ b ∈ s.badPeers.entries, Written s.wallclock b.1 b.2) : s.Bans :=
  fun _ _ hl => h _ (AList.mem_lookup_iff.mp hl)

/-- A ban of two minutes and, from the console, one of an hour. -/
def twoBans (reason : String) : DefaultPeerStorage where
  wallclock := seconds 1000
  badPeers := (AList.singleton "10.0.0.2"
    { expireTime := seconds 1120, source := "auto", reason }).insert "10.0.0.1"
      { expireTime := seconds 4600, source := "manual", reason := "spam" }

theorem entries_twoBans (reason : String) : (twoBans reason).badPeers.entries =
    [⟨"10.0.0.1", { expireTime := seconds 4600, source := "manual", reason := "spam" }⟩,
      ⟨"10.0.0.2", { expireTime := seconds 1120, source := "auto", reason }⟩] :=
  AList.entries_insert_of_notMem (by rw [AList.mem_keys, AList.keys_singleton]; decide)

theorem bans_twoBans {reason : String} (hne : reason ≠ "") (hline : '\n' ∉ reason.toList) :
    (twoBans reason).Bans := by
  refine bans_of_entries ?_
  rw [entries_twoBans, List.forall_mem_cons, List.forall_mem_singleton]
  have hlater : seconds 1000 + seconds 1 < seconds 4600 ∧ seconds 4600 < 2 ^ 63 ∧
      seconds 1000 + seconds 1 < seconds 1120 ∧ seconds 1120 < 2 ^ 63 := by decide
  obtain ⟨hlater, htime, hlater', htime'⟩ := hlater
  exact ⟨⟨by simp [isSpace], hlater, htime, .inr rfl, by decide, by decide⟩,
    ⟨by simp [isSpace], hlater', htime', .inl rfl, hne, hline⟩⟩

theorem bans_restored_twoBans : (twoBans "idle").Restored := by
  refine (bans_restored_iff (bans_twoBans (by decide) (by decide))).mpr fun ip entry hl => ?_
  have hmem := AList.mem_lookup_iff.mp hl
  rw [entries_twoBans, List.mem_cons, List.mem_singleton] at hmem
  rcases hmem with heq | heq
  all_goals
    obtain ⟨rfl, hentry⟩ := Sigma.mk.inj heq
    obtain rfl := eq_of_heq hentry
    exact ⟨by decide, by simp [isSpace]⟩

/-- Of a reason of two words the first is restored. -/
theorem bans_restored_counterexample :
    (twoBans "bad data").Bans ∧ ¬(twoBans "bad data").Restored := by
  have hbans : (twoBans "bad data").Bans := bans_twoBans (by decide) (by decide)
  refine ⟨hbans, fun h => ?_⟩
  have hread := h "10.0.0.2"
  rw [banOf_loadBannedPeers hbans] at hread
  exact absurd hread (by decide)

end DefaultPeerStorage

end FluxCore.Peers
