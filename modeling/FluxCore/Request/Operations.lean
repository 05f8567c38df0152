import FluxCore.Request.RequestGroupMan
import Mathlib.Tactic.ByContra

/-!
# Ids and counts under the operations

What each operation of the manager does to the ids it holds and to the count of the active
downloads. `Registered` says that no id is in use twice, `Accounts` that `numActive_` counts the
running groups that are not only seeding; every operation keeps both.
-/

namespace FluxCore.Request

open List (Perm Sublist)

namespace RequestGroupMan

variable {m : RequestGroupMan} {gid : Gid} {g : RequestGroup}

/-- `GroupId` gives each id out once. -/
def Registered (m : RequestGroupMan) : Prop := m.gids.Nodup

/-- The counters agree with the lists. -/
structure Accounts (m : RequestGroupMan) : Prop where
  numActive : m.numActive = m.requestGroups.seq.countP fun g => !g.seedOnly
  assertion : m.assertFailed = false
  waiting : ∀ g ∈ m.reservedGroups.seq, g.seedOnly = false

/-! ## Changes of one group -/

theorem onGid_self (f : Change) : (onGid g.gid f).val g = f.val g := if_pos rfl

theorem onGid_of_ne (f : Change) (h : g.gid ≠ gid) : (onGid gid f).val g = g := if_neg h

section Modify

variable {f : Change}

theorem keys_modify :
    (m.modify gid f).requestGroups.keys = m.requestGroups.keys ∧
      (m.modify gid f).reservedGroups.keys = m.reservedGroups.keys :=
  ⟨IndexedList.keys_map _ (onGid gid f).property, IndexedList.keys_map _ (onGid gid f).property⟩

theorem gids_modify : (m.modify gid f).gids = m.gids := by
  rw [gids, keys_modify.1, keys_modify.2]
  rfl

/-- A group that does not wait changes in place. -/
theorem reservedGroups_modify (h : gid ∉ m.reservedGroups.keys) :
    (m.modify gid f).reservedGroups = m.reservedGroups := by
  refine IndexedList.map_of_fixed (onGid gid f).property fun g hg => if_neg ?_
  rintro rfl
  exact h (List.mem_map_of_mem hg)

theorem Accounts.modify (h : m.Accounts) (gid : Gid) (f : Change)
    (hseed : ∀ g, (f.val g).seedOnly = g.seedOnly) :
    (m.modify gid f).Accounts := by
  have hat : ∀ g, ((onGid gid f).val g).seedOnly = g.seedOnly := by
    intro g
    dsimp only [onGid]
    split
    · exact hseed g
    · rfl
  refine ⟨h.numActive.trans ?_, h.assertion, fun g hg => ?_⟩
  · refine (List.countP_map ..).trans (List.countP_congr fun g _ => ?_) |>.symm
    exact by simp only [Function.comp_apply, hat]
  · obtain ⟨g', hg', rfl⟩ := List.mem_map.mp hg
    exact (hat g').trans (h.waiting g' hg')

end Modify

/-! ## Counting -/

@[simp] theorem gids_decreaseNumActive : m.decreaseNumActive.gids = m.gids := rfl

/-- In a list of distinct ids, a group that stops to count lowers the count by one. -/
theorem countP_seedOnly {l : List RequestGroup} (hn : (l.map RequestGroup.getGID).Nodup)
    (hg : g ∈ l) (hs : g.seedOnly = false) :
    l.countP (fun g => !g.seedOnly) =
      (l.map (onGid g.gid .seedOnly).val).countP (fun g => !g.seedOnly) + 1
      := by
  induction l with
  | nil => cases hg
  | cons a l ih =>
    obtain ⟨ha, hl⟩ := List.nodup_cons.mp hn
    rw [List.map_cons, List.countP_cons, List.countP_cons]
    rcases List.mem_cons.mp hg with rfl | hg
    · have hrest : l.map (onGid g.gid .seedOnly).val = l := by
        refine (List.map_congr_left fun b hb => if_neg ?_).trans (List.map_id' _)
        exact fun heq => ha (List.mem_map.mpr ⟨b, hb, heq⟩)
      rw [hrest, if_pos (by rw [hs]; rfl), onGid_self, if_neg (by simp [Change.seedOnly])]
    · have hne : a.gid ≠ g.gid := fun heq => ha (List.mem_map.mpr ⟨g, hg, heq.symm⟩)
      rw [onGid_of_ne _ hne, ih hl hg]
      omega

theorem enableSeedOnly_cases (m : RequestGroupMan) (gid : Gid) :
    m.enableSeedOnly gid = m ∨ ∃ g ∈ m.requestGroups.seq, g.gid = gid ∧ g.seedOnly = false ∧
      m.enableSeedOnly gid =
        (m.modify gid .seedOnly).decreaseNumActive := by
  unfold enableSeedOnly
  cases hfind : m.requestGroups.seq.find? (·.gid = gid) with
  | none => exact .inl rfl
  | some g =>
    dsimp only
    split
    · exact .inl rfl
    next hseed =>
      rw [Bool.or_eq_true, not_or, Bool.not_eq_true] at hseed
      split
      · exact .inr ⟨g, List.mem_of_find?_eq_some hfind,
          by simpa using List.find?_some hfind, hseed.1, rfl⟩
      · exact .inl rfl

@[simp] theorem gids_enableSeedOnly : (m.enableSeedOnly gid).gids = m.gids := by
  rcases m.enableSeedOnly_cases gid with h | ⟨g, -, -, -, h⟩
  · rw [h]
  · rw [h, gids_decreaseNumActive]
    exact gids_modify

theorem Accounts.enableSeedOnly (h : m.Accounts) (hn : m.requestGroups.keys.Nodup)
    (hw : gid ∉ m.reservedGroups.keys) : (m.enableSeedOnly gid).Accounts := by
  rcases m.enableSeedOnly_cases gid with heq | ⟨g, hg, rfl, hs, heq⟩
  · rwa [heq]
  · have hcount := countP_seedOnly hn hg hs
    have hactive := h.numActive
    rw [heq]
    refine ⟨?_, ?_, fun g' hg' => ?_⟩
    · change m.numActive - 1 = (m.requestGroups.seq.map _).countP _
      omega
    · change (m.assertFailed || m.numActive == 0) = false
      rw [h.assertion, Bool.false_or, beq_eq_false_iff_ne]
      omega
    · exact h.waiting g' (reservedGroups_modify hw ▸ hg')

theorem Accounts.addRequestGroup (h : m.Accounts) (hg : g.gid ∉ m.requestGroups.keys)
    (hs : g.seedOnly = false) : (m.addRequestGroup g).Accounts := by
  refine ⟨?_, h.assertion, h.waiting⟩
  change m.numActive + 1 = (m.requestGroups.push_back g).seq.countP _
  rw [IndexedList.seq_push_back hg, List.countP_append, List.countP_singleton,
    if_pos (by rw [hs]; rfl), h.numActive]

/-! ## Groups that have stopped -/

theorem register_spec (m : RequestGroupMan) (gs : List NewGroup) :
    ((m.register gs).map RequestGroup.getGID).Nodup ∧
      (∀ g ∈ m.register gs, g.gid ∉ m.gids) ∧ ∀ g ∈ m.register gs, g.seedOnly = false := by
  obtain ⟨hnodup, hnew⟩ := IndexedList.taken_nodup NewGroup.gid m.gids gs
  refine ⟨?_, fun g hg => ?_, fun g hg => ?_⟩
  · rw [register, List.map_map]
    exact hnodup
  · obtain ⟨n, hn, rfl⟩ := List.mem_map.mp hg
    exact hnew n hn
  · obtain ⟨n, -, rfl⟩ := List.mem_map.mp hg
    rfl

/-- In `removeStoppedGroup`, with `l` still to be looked at and `kept` of those before it: the
counters are right for what will be left. -/
structure Stopping (m : RequestGroupMan) (kept l : List RequestGroup) : Prop where
  numActive : m.numActive = (kept ++ l).countP fun g => !g.seedOnly
  assertion : m.assertFailed = false
  waiting : ∀ g ∈ m.reservedGroups.seq, g.seedOnly = false
  running : ∀ g ∈ kept ++ l, g.gid ∈ m.requestGroups.keys
  registered : ((kept ++ l).map RequestGroup.getGID ++
    (m.reservedGroups.keys ++ m.parserGids)).Nodup

theorem Stopping.processStopped {kept l : List RequestGroup} (h : m.Stopping kept (g :: l))
    (next : Gid → List NewGroup) :
    (m.processStopped next g).Stopping kept l ∧
      ∃ new, (m.processStopped next g).reservedGroups.seq = new ++ m.reservedGroups.seq := by
  have hsub : (kept ++ l).Sublist (kept ++ g :: l) :=
    (List.sublist_cons_self g l).append_left kept
  have hperm : ((kept ++ g :: l).map RequestGroup.getGID).Perm
      (g.gid :: (kept ++ l).map RequestGroup.getGID) := List.perm_middle.map _
  have hnodup := (hperm.append_right _).nodup_iff.mp h.registered
  have hg : g.gid ∉ m.reservedGroups.keys := fun hk =>
    (List.nodup_cons.mp hnodup).1 (List.mem_append_right _ (List.mem_append_left _ hk))
  -- the group leaves the count
  generalize hm' : (if g.seedOnly then m else m.decreaseNumActive) = m'
  have hcount : m'.numActive = (kept ++ l).countP fun g => !g.seedOnly := by
    have hall := h.numActive
    rw [List.perm_middle.countP_eq, List.countP_cons] at hall
    subst hm'
    cases hs : g.seedOnly
    · rw [if_neg (by decide)]
      change m.numActive - 1 = _
      rw [hall, if_pos (by rw [hs]; rfl), Nat.add_sub_cancel]
    · rw [if_pos rfl, hall, if_neg (by rw [hs]; decide), Nat.add_zero]
  have hassert : m'.assertFailed = false := by
    have hall := h.numActive
    rw [List.perm_middle.countP_eq, List.countP_cons] at hall
    subst hm'
    cases hs : g.seedOnly
    · rw [if_neg (by decide)]
      change (m.assertFailed || m.numActive == 0) = false
      rw [h.assertion, Bool.false_or, beq_eq_false_iff_ne, hall, if_pos (by rw [hs]; rfl)]
      exact Nat.succ_ne_zero _
    · rw [if_pos rfl, h.assertion]
  have hsame : m'.requestGroups = m.requestGroups ∧ m'.reservedGroups = m.reservedGroups ∧
      m'.uriListParser = m.uriListParser := by
    subst hm'
    split <;> exact ⟨rfl, rfl, rfl⟩
  have hgids : m'.gids = m.gids := by rw [gids, gids, parserGids, hsame.1, hsame.2.1, hsame.2.2]; rfl
  have hpg : m'.parserGids = m.parserGids := by rw [parserGids, hsame.2.2]; rfl
  rw [RequestGroupMan.processStopped, hm']
  split
  · have hseq : (m'.reservedGroups.push_front (paused g)).seq = paused g :: m.reservedGroups.seq := by
      rw [IndexedList.seq_push_front (hsame.2.1 ▸ hg), hsame.2.1]
    refine ⟨⟨hcount, hassert, ?_, fun a ha => ?_, ?_⟩, [paused g], hseq⟩
    · dsimp only
      rw [hseq]
      intro a ha
      rcases List.mem_cons.mp ha with rfl | ha
      · rfl
      · exact h.waiting a ha
    · exact hsame.1 ▸ h.running a (hsub.subset ha)
    · change (_ ++ ((m'.reservedGroups.push_front (paused g)).seq.map _ ++ m'.parserGids)).Nodup
      rw [hseq, hpg]
      exact List.perm_middle.nodup_iff.mpr hnodup
  · obtain ⟨hn, hnew, hseed⟩ := m'.register_spec (next g.gid)
    generalize m'.register (next g.gid) = new at hn hnew hseed
    rw [hgids] at hnew
    have hseq : (m'.insertReservedGroup 0 new).reservedGroups.seq = new ++ m.reservedGroups.seq := by
      change (m'.reservedGroups.insert (min m'.reservedGroups.size 0) new).seq = _
      rw [Nat.min_zero, IndexedList.seq_insert_zero hn, hsame.2.1]
      intro a ha hk
      rw [hsame.2.1] at hk
      exact hnew a ha (List.mem_append_right _ (List.mem_append_left _ hk))
    refine ⟨⟨hcount, hassert, ?_, fun a ha => ?_, ?_⟩, new, hseq⟩
    · rw [hseq]
      intro a ha
      rcases List.mem_append.mp ha with ha | ha
      · exact hseed a ha
      · exact h.waiting a ha
    · exact hsame.1 ▸ h.running a (hsub.subset ha)
    · change (_ ++ ((m'.insertReservedGroup 0 new).reservedGroups.seq.map _ ++ m'.parserGids)).Nodup
      have hmap : (new ++ m.reservedGroups.seq).map RequestGroup.getGID ++ m.parserGids =
          new.map RequestGroup.getGID ++ (m.reservedGroups.keys ++ m.parserGids) := by
        rw [List.map_append, List.append_assoc]
        rfl
      rw [hseq, hpg, hmap]
      refine (List.perm_append_comm_assoc _ _ _).nodup_iff.mpr ?_
      rw [List.nodup_append]
      refine ⟨hn, (List.nodup_cons.mp hnodup).2, fun k hk k' hk' => ?_⟩
      obtain ⟨a, ha, rfl⟩ := List.mem_map.mp hk
      rintro rfl
      refine hnew a ha ?_
      rcases List.mem_append.mp hk' with hk' | hk'
      · obtain ⟨b, hb, hba⟩ := List.mem_map.mp hk'
        have hrun := h.running b (hsub.subset hb)
        rw [show b.gid = a.gid from hba] at hrun
        exact List.mem_append_left _ hrun
      · exact List.mem_append_right _ hk'

/-- What `removeStoppedGroup` leaves of the running groups, and of the queue behind what it puts in
front. -/
theorem foldl_processStopped (next : Gid → List NewGroup) {kept l : List RequestGroup}
    (h : m.Stopping kept l) :
    let m' := l.foldl (fun m g => if g.numCommand = 0 then m.processStopped next g else m) m
    m'.Stopping (kept ++ l.filter fun g => !decide (g.numCommand = 0)) [] ∧
      ∃ new, m'.reservedGroups.seq = new ++ m.reservedGroups.seq := by
  induction l generalizing m kept with
  | nil => exact ⟨by simpa using h, [], rfl⟩
  | cons g l ih =>
    rw [List.foldl_cons]
    by_cases hg : g.numCommand = 0
    · obtain ⟨hs, new, hnew⟩ := h.processStopped next
      obtain ⟨hs', new', hnew'⟩ := ih hs
      rw [if_pos hg, List.filter_cons_of_neg (by simp [hg])]
      exact ⟨hs', new' ++ new, by rw [hnew', hnew, List.append_assoc]⟩
    · have hs : m.Stopping (kept ++ [g]) l := by
        obtain ⟨h1, h2, h3, h4, h5⟩ := h
        rw [List.append_cons] at h1 h4 h5
        exact ⟨h1, h2, h3, h4, h5⟩
      obtain ⟨hs', hnew⟩ := ih hs
      rw [if_neg hg, List.filter_cons_of_pos (by simp [hg])]
      rw [List.append_assoc, List.singleton_append] at hs'
      exact ⟨hs', hnew⟩

/-- The fields that `removeStoppedGroup` has no business with. -/
structure SameSettings (m m' : RequestGroupMan) : Prop where
  uriListParser : m'.uriListParser = m.uriListParser
  keepRunning : m'.keepRunning = m.keepRunning
  maxConcurrentDownloads : m'.maxConcurrentDownloads = m.maxConcurrentDownloads
  optimizeConcurrentDownloads : m'.optimizeConcurrentDownloads = m.optimizeConcurrentDownloads

theorem processStopped_same (m : RequestGroupMan) (next : Gid → List NewGroup) (g : RequestGroup) :
    (m.processStopped next g).requestGroups = m.requestGroups ∧
      m.SameSettings (m.processStopped next g) := by
  unfold processStopped
  cases g.seedOnly <;> cases g.pauseRequested <;> exact ⟨rfl, rfl, rfl, rfl, rfl⟩

theorem foldl_processStopped_same (next : Gid → List NewGroup) (l : List RequestGroup) :
    let m' := l.foldl (fun m g => if g.numCommand = 0 then m.processStopped next g else m) m
    m'.requestGroups = m.requestGroups ∧ m.SameSettings m' := by
  induction l generalizing m with
  | nil => exact ⟨rfl, rfl, rfl, rfl, rfl⟩
  | cons g l ih =>
    rw [List.foldl_cons]
    split
    · obtain ⟨h, h1, h2, h3, h4⟩ := m.processStopped_same next g
      obtain ⟨h', h1', h2', h3', h4'⟩ := @ih (m.processStopped next g)
      exact ⟨h'.trans h, h1'.trans h1, h2'.trans h2, h3'.trans h3, h4'.trans h4⟩
    · exact ih

theorem removeStoppedGroup_same (m : RequestGroupMan) (next : Gid → List NewGroup) :
    m.SameSettings (m.removeStoppedGroup next) := by
  obtain ⟨-, h1, h2, h3, h4⟩ := @foldl_processStopped_same m next m.requestGroups.seq
  exact ⟨h1, h2, h3, h4⟩

theorem requestGroups_removeStoppedGroup (m : RequestGroupMan) (next : Gid → List NewGroup) :
    (m.removeStoppedGroup next).requestGroups =
      m.requestGroups.remove_if fun g => g.numCommand = 0 := by
  rw [removeStoppedGroup, (foldl_processStopped_same next _).1]

/-- The invariant of the manager. -/
structure Inv (m : RequestGroupMan) : Prop extends Accounts m where
  registered : m.Registered

theorem Inv.removeStoppedGroup (h : m.Inv) (next : Gid → List NewGroup) :
    (m.removeStoppedGroup next).Inv ∧
      ∃ new, (m.removeStoppedGroup next).reservedGroups.seq = new ++ m.reservedGroups.seq := by
  have hstart : m.Stopping [] m.requestGroups.seq :=
    ⟨h.numActive, h.assertion, h.waiting, fun g hg => List.mem_map_of_mem hg, h.registered⟩
  obtain ⟨hs, hnew⟩ := foldl_processStopped next hstart
  rw [List.nil_append] at hs
  have hkept : (m.removeStoppedGroup next).requestGroups.seq =
      m.requestGroups.seq.filter fun g => !decide (g.numCommand = 0) :=
    congrArg IndexedList.seq (m.requestGroups_removeStoppedGroup next)
  refine ⟨⟨⟨?_, hs.assertion, hs.waiting⟩, ?_⟩, hnew⟩
  · rw [hkept]
    exact hs.numActive.trans (by rw [List.append_nil])
  · change (((m.removeStoppedGroup next).requestGroups.seq.map RequestGroup.getGID) ++ _).Nodup
    rw [hkept]
    have := hs.registered
    rwa [List.append_nil] at this

end RequestGroupMan

end FluxCore.Request
