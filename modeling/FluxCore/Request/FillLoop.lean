import FluxCore.Request.Operations
import Mathlib.Algebra.Order.Group.Nat

/-!
# The loop that starts waiting groups

One turn of the loop of `fillRequestGroupFromReserver` sets a group aside or starts it. `drain_rule`
and `loop_rule` carry an invariant from the turns to the loop.
-/

namespace FluxCore.Request

variable {out : Outside} {g : RequestGroup}

namespace RequestGroup

theorem isDependencyResolved_same (g : RequestGroup) (dependee : Gid → Dependee) :
    (g.isDependencyResolved dependee).2.gid = g.gid ∧
      (g.isDependencyResolved dependee).2.seedOnly = g.seedOnly := by
  unfold isDependencyResolved
  split
  · exact ⟨rfl, rfl⟩
  · exact ⟨rfl, rfl⟩
  · dsimp only
    split_ifs <;> exact ⟨rfl, rfl⟩

end RequestGroup

theorem active_map_le {l : RequestGroupList} {f : RequestGroup → RequestGroup}
    (hf : ∀ g, (f g).getGID = g.getGID) (b : Bool)
    (h : ∀ g, (f g).seedOnly = false → g.seedOnly = false ∧ (f g).bt = g.bt) :
    active b (l.map f hf) ≤ active b l := by
  refine (List.countP_map ..).le.trans (List.countP_mono_left fun g _ hg => ?_)
  simp only [Function.comp_apply, Bool.and_eq_true, Bool.not_eq_true'] at hg
  obtain ⟨hs, hb⟩ := h g hg.1
  rw [hb] at hg
  rw [hs, hg.2]
  rfl

theorem active_modify_le {m : RequestGroupMan} {gid : Gid} {f : Change} (b : Bool)
    (h : ∀ g, (f.val g).seedOnly = false → g.seedOnly = false ∧ (f.val g).bt = g.bt) :
    active b (m.modify gid f).requestGroups ≤ active b m.requestGroups := by
  refine active_map_le (RequestGroupMan.onGid gid f).property b fun g hg => ?_
  dsimp only [RequestGroupMan.onGid] at hg ⊢
  split at hg
  next hgid =>
    rw [if_pos hgid]
    exact h g hg
  next hgid => exact ⟨hg, congrArg (fun g : RequestGroup => g.bt) (if_neg hgid)⟩

namespace RequestGroupMan

variable {m : RequestGroupMan} {gid : Gid}

theorem active_enableSeedOnly_le (b : Bool) :
    active b (m.enableSeedOnly gid).requestGroups ≤ active b m.requestGroups := by
  rcases m.enableSeedOnly_cases gid with h | ⟨g, -, -, -, h⟩
  · exact (congrArg (fun m => active b (requestGroups m)) h).le
  · rw [h]
    exact active_modify_le b fun g hg => absurd hg (by simp [Change.seedOnly])

/-- The other fields do not change when a group goes over to seeding. -/
theorem enableSeedOnly_fields (hw : gid ∉ m.reservedGroups.keys) :
    (m.enableSeedOnly gid).requestGroups.keys = m.requestGroups.keys ∧
      (m.enableSeedOnly gid).reservedGroups = m.reservedGroups ∧
      (m.enableSeedOnly gid).uriListParser = m.uriListParser ∧
      (m.enableSeedOnly gid).keepRunning = m.keepRunning := by
  rcases m.enableSeedOnly_cases gid with h | ⟨g, -, -, -, h⟩
  · rw [h]
    exact ⟨rfl, rfl, rfl, rfl⟩
  · rw [h]
    exact ⟨keys_modify.1, reservedGroups_modify hw, rfl, rfl⟩

/-- What the start of a group changes. -/
structure Started (m m' : RequestGroupMan) (g : RequestGroup) : Prop where
  requestGroups : m'.requestGroups.keys = m.requestGroups.keys ++ [g.gid]
  reservedGroups : m'.reservedGroups = m.reservedGroups
  uriListParser : m'.uriListParser = m.uriListParser
  keepRunning : m'.keepRunning = m.keepRunning
  active : ∀ b, active b m'.requestGroups ≤
    Request.active b m.requestGroups + if g.bt = b then 1 else 0

theorem startGroup_started (r : Startup) (hr : g.gid ∉ m.requestGroups.keys)
    (hw : g.gid ∉ m.reservedGroups.keys) : m.Started (m.startGroup r g) g := by
  have hpush : (m.requestGroups.push_back
      { g with requestGroupMan := true, state := .active }).seq =
      m.requestGroups.seq ++ [{ g with requestGroupMan := true, state := .active }] :=
    IndexedList.seq_push_back hr
  have hadd : m.Started
      (m.addRequestGroup { g with requestGroupMan := true, state := .active }) g := by
    refine ⟨?_, rfl, rfl, rfl, fun b => ?_⟩
    · exact (congrArg (List.map RequestGroup.getGID) hpush).trans List.map_append
    · rw [Request.active, addRequestGroup, hpush, List.countP_append, List.countP_singleton]
      refine Nat.add_le_add_left ?_ _
      split
      next h =>
        rw [Bool.and_eq_true] at h
        rw [if_pos (beq_iff_eq.mp h.2)]
      · exact Nat.zero_le _
  have hmod : m.Started ((m.addRequestGroup
      { g with requestGroupMan := true, state := .active }).modify g.gid
        (.numCommand r.numCommand)) g := by
    refine ⟨keys_modify.1.trans hadd.requestGroups,
      reservedGroups_modify hw, rfl, rfl,
      fun b => (active_modify_le b fun g hg => ⟨hg, rfl⟩).trans (hadd.active b)⟩
  unfold startGroup
  dsimp only
  split
  · have hw' : g.gid ∉ ((m.addRequestGroup
        { g with requestGroupMan := true, state := .active }).modify g.gid
          (.numCommand r.numCommand)).reservedGroups.keys := by
      rw [hmod.reservedGroups]
      exact hw
    obtain ⟨h1, h2, h3, h4⟩ := enableSeedOnly_fields hw'
    exact ⟨h1.trans hmod.requestGroups, h2.trans hmod.reservedGroups, h3, h4,
      fun b => (active_enableSeedOnly_le b).trans (hmod.active b)⟩
  · exact hmod

theorem Accounts.startGroup (h : m.Accounts) (r : Startup) (hr : g.gid ∉ m.requestGroups.keys)
    (hw : g.gid ∉ m.reservedGroups.keys) (hs : g.seedOnly = false) :
    (m.startGroup r g).Accounts := by
  have hadd : (m.addRequestGroup
      { g with requestGroupMan := true, state := .active }).Accounts := h.addRequestGroup hr hs
  have hmod := hadd.modify g.gid (.numCommand r.numCommand) fun _ => rfl
  unfold RequestGroupMan.startGroup
  dsimp only
  split
  · refine hmod.enableSeedOnly (IndexedList.nodup _) ?_
    rwa [keys_modify.2]
  · exact hmod

end RequestGroupMan

/-! ## One turn -/

namespace Fill

variable {f : Fill}

/-- The front of the queue has been taken. -/
def popped (f : Fill) : Fill :=
  { f with man := { f.man with reservedGroups := f.man.reservedGroups.pop_front } }

theorem consider_cases (f : Fill) (out : Outside) (g : RequestGroup) :
    (f.slots.passesOver f.man.keepRunning out.dependee g = true ∧
        f.consider out g = (f.popped.setAside g, false)) ∨
      (f.slots.passesOver f.man.keepRunning out.dependee g = false ∧
        f.consider out g = f.popped.start out g.bt (g.isDependencyResolved out.dependee).2) := by
  rw [Slots.passesOver, consider]
  cases hslot : f.slots.hasSlot g.bt with
  | false => exact .inl ⟨rfl, rfl⟩
  | true =>
    cases hpause : f.man.keepRunning && g.pauseRequested with
    | true => exact .inl ⟨rfl, rfl⟩
    | false =>
      rcases g.isDependencyResolved out.dependee with ⟨resolved, g'⟩
      cases resolved with
      | false => exact .inl ⟨rfl, rfl⟩
      | true => exact .inr ⟨rfl, rfl⟩

/-- How the start of a group ends. -/
theorem start_eq (f : Fill) (out : Outside) (bt : Bool) (g : RequestGroup) :
    f.start out bt g =
      ({ f with
          man := f.man.startGroup (out.startup g.gid) g
          slots := if (out.startup g.gid).ends = StartupEnd.returns then f.slots.started bt
            else f.slots },
        decide ((out.startup g.gid).ends = StartupEnd.other)) := by
  rw [start]
  cases (out.startup g.gid).ends <;> rfl

/-! ## The loop -/

variable {I : Fill → Prop}

/-- An invariant of the turns is one of the loop while the queue lasts. -/
theorem drain_rule (hturn : ∀ f g rest, I f → f.slots.Open → f.man.reservedGroups.seq = g :: rest →
    I (f.consider out g).1) (n : Nat) (h : I f) : I (f.drain out n).1 := by
  induction n generalizing f with
  | zero => exact h
  | succ n ih =>
    unfold drain
    split
    next hopen =>
      split
      · exact h
      next g rest hseq =>
        have hI := hturn f g rest h hopen hseq
        split
        next f' heq => rwa [heq] at hI
        next f' heq => exact ih (by rwa [heq] at hI)
    · exact h

theorem uriListParser_startGroup (m : RequestGroupMan) (r : Startup) (g : RequestGroup) :
    (m.startGroup r g).uriListParser = m.uriListParser ∧
      (m.startGroup r g).keepRunning = m.keepRunning := by
  unfold RequestGroupMan.startGroup
  dsimp only
  split
  · rcases RequestGroupMan.enableSeedOnly_cases ((m.addRequestGroup
      { g with requestGroupMan := true, state := .active }).modify g.gid
        (.numCommand r.numCommand)) g.gid with h | ⟨g, -, -, -, h⟩ <;> rw [h] <;> exact ⟨rfl, rfl⟩
  · exact ⟨rfl, rfl⟩

theorem uriListParser_consider (f : Fill) (out : Outside) (g : RequestGroup) :
    (f.consider out g).1.man.uriListParser = f.man.uriListParser ∧
      (f.consider out g).1.man.keepRunning = f.man.keepRunning := by
  rcases f.consider_cases out g with ⟨-, h⟩ | ⟨-, h⟩
  · rw [h]
    exact ⟨rfl, rfl⟩
  · rw [h, start_eq]
    exact uriListParser_startGroup ..

theorem uriListParser_drain (f : Fill) (out : Outside) (n : Nat) :
    (f.drain out n).1.man.uriListParser = f.man.uriListParser ∧
      (f.drain out n).1.man.keepRunning = f.man.keepRunning :=
  drain_rule (I := fun f' => f'.man.uriListParser = f.man.uriListParser ∧
    f'.man.keepRunning = f.man.keepRunning)
    (fun f' g _ h _ _ => ⟨(f'.uriListParser_consider out g).1.trans h.1,
      (f'.uriListParser_consider out g).2.trans h.2⟩) n ⟨rfl, rfl⟩

/-- The entries of the input file that are left have been read up to `entries`. -/
def read (f : Fill) (entries : Option (List UriEntry)) : Fill :=
  { f with man := { f.man with uriListParser := entries } }

/-- The groups of an entry have been appended to the queue. -/
def appended (f : Fill) (gs : List NewGroup) : Fill :=
  { f with
    man := { f.man with
      reservedGroups := RequestGroupMan.appendReservedGroup f.man.reservedGroups
        (gs.map RequestGroup.create) } }

/-- An invariant of the turns and of what is read from the input file is one of the loop. -/
theorem loop_rule (hturn : ∀ f g rest, I f → f.slots.Open → f.man.reservedGroups.seq = g :: rest →
      I (f.consider out g).1)
    (hend : ∀ f, I f → f.man.uriListParser = some [] → I (f.read none))
    (herror : ∀ f entries, I f → f.man.uriListParser = some (.error :: entries) →
      I (f.read (some entries)))
    (hgroups : ∀ f gs entries, I f → f.man.uriListParser = some (.groups gs :: entries) →
      I ((f.appended gs).read (some entries)))
    (entries : List UriEntry) (hp : f.man.uriListParser = some entries) (h : I f) :
    I (f.loop out entries).1 := by
  induction entries generalizing f with
  | nil =>
    have hI := drain_rule hturn f.man.reservedGroups.size h
    have hkept := (f.uriListParser_drain out f.man.reservedGroups.size).1.trans hp
    unfold loop
    split
    next f' heq => rwa [heq] at hI
    next f' heq =>
      rw [heq] at hI hkept
      split
      · exact hend f' hI hkept
      · exact hI
  | cons entry entries ih =>
    have hI := drain_rule hturn f.man.reservedGroups.size h
    have hkept := (f.uriListParser_drain out f.man.reservedGroups.size).1.trans hp
    unfold loop
    split
    next f' heq => rwa [heq] at hI
    next f' heq =>
      rw [heq] at hI hkept
      split
      · cases entry with
        | error => exact herror f' entries hI hkept
        | groups gs => exact ih rfl (hgroups f' gs entries hI hkept)
      · exact hI

/-! ## Ids in the loop -/

/-- The ids in use, with those of the groups set aside. -/
def gids (f : Fill) : List Gid :=
  f.man.requestGroups.keys ++ (f.pending.map RequestGroup.getGID ++
    (f.man.reservedGroups.keys ++ f.man.parserGids))

/-- Where the groups of a registered state are not. -/
theorem fresh_of_nodup (hn : f.gids.Nodup) {rest : List RequestGroup}
    (hseq : f.man.reservedGroups.seq = g :: rest) :
    g.gid ∉ f.man.requestGroups.keys ∧ g.gid ∉ f.popped.man.reservedGroups.keys := by
  rw [gids, List.nodup_append] at hn
  obtain ⟨-, hrest, hdisj⟩ := hn
  have hmem : g.gid ∈ f.man.reservedGroups.keys := by
    rw [IndexedList.keys, hseq]
    exact List.mem_cons_self ..
  refine ⟨fun hk => hdisj _ hk _ (List.mem_append_right _ (List.mem_append_left _ hmem)) rfl, ?_⟩
  have hnodup := f.man.reservedGroups.nodup
  rw [hseq] at hnodup
  change g.gid ∉ (f.man.reservedGroups.seq.tail).map _
  rw [hseq]
  exact (List.nodup_cons.mp hnodup).1

theorem gids_consider_perm (out : Outside) (hn : f.gids.Nodup) {rest : List RequestGroup}
    (hseq : f.man.reservedGroups.seq = g :: rest) : (f.consider out g).1.gids.Perm f.gids := by
  have hkeys : f.man.reservedGroups.keys = g.gid :: f.popped.man.reservedGroups.keys := by
    change f.man.reservedGroups.seq.map _ = _ :: f.man.reservedGroups.seq.tail.map _
    rw [hseq]
    rfl
  rcases f.consider_cases out g with ⟨-, h⟩ | ⟨-, h⟩
  · have hgids : (f.consider out g).1.gids = f.man.requestGroups.keys ++
        ((f.pending ++ [g]).map RequestGroup.getGID ++
          (f.popped.man.reservedGroups.keys ++ f.man.parserGids)) := by
      rw [h]
      rfl
    rw [hgids, gids, hkeys, List.map_append, List.append_assoc]
    rfl
  · obtain ⟨hgid, -⟩ := g.isDependencyResolved_same out.dependee
    obtain ⟨hr, hw⟩ := fresh_of_nodup hn hseq
    rw [← hgid] at hr hw
    have hstart := RequestGroupMan.startGroup_started (m := f.popped.man)
      (out.startup (g.isDependencyResolved out.dependee).2.gid) hr hw
    rw [h, start_eq]
    generalize f.popped.man.startGroup _ _ = m' at hstart
    have hparser : m'.parserGids = f.man.parserGids := by
      rw [RequestGroupMan.parserGids, hstart.uriListParser]
      rfl
    change (m'.requestGroups.keys ++ (f.pending.map RequestGroup.getGID ++
      (m'.reservedGroups.keys ++ m'.parserGids))).Perm _
    rw [hstart.requestGroups, hstart.reservedGroups, hparser, gids, hkeys, hgid, List.append_assoc,
      List.singleton_append]
    refine .append_left _ ?_
    rw [List.cons_append]
    exact List.perm_middle.symm

theorem seq_appended (hn : f.gids.Nodup) {gs : List NewGroup} {entries : List UriEntry}
    (hp : f.man.uriListParser = some (.groups gs :: entries)) :
    (f.appended gs).man.reservedGroups.seq =
      f.man.reservedGroups.seq ++ gs.map RequestGroup.create := by
  have hgids : f.man.parserGids = gs.map NewGroup.gid ++ entries.flatMap UriEntry.gids := by
    rw [RequestGroupMan.parserGids, hp]
    rfl
  have hnew : ((f.man.reservedGroups.keys ++
      (gs.map NewGroup.gid ++ entries.flatMap UriEntry.gids))).Nodup :=
    hgids ▸ (hn.sublist (List.sublist_append_right ..)).sublist (List.sublist_append_right ..)
  rw [List.nodup_append] at hnew
  obtain ⟨-, hgs, hdisj⟩ := hnew
  refine IndexedList.seq_foldl_push_back ?_ fun a ha hk => ?_
  · rw [List.map_map]
    exact hgs.sublist (List.sublist_append_left ..)
  · obtain ⟨n, hn', rfl⟩ := List.mem_map.mp ha
    exact hdisj _ hk _ (List.mem_append_left _ (List.mem_map_of_mem hn')) rfl

theorem gids_appended (hn : f.gids.Nodup) {gs : List NewGroup} {entries : List UriEntry}
    (hp : f.man.uriListParser = some (.groups gs :: entries)) :
    ((f.appended gs).read (some entries)).gids = f.gids := by
  have hkeys : ((f.appended gs).read (some entries)).man.reservedGroups.keys =
      f.man.reservedGroups.keys ++ gs.map NewGroup.gid := by
    refine (congrArg (List.map RequestGroup.getGID) (seq_appended hn hp)).trans ?_
    rw [List.map_append, List.map_map]
    rfl
  have hgids : f.man.parserGids = gs.map NewGroup.gid ++ entries.flatMap UriEntry.gids := by
    rw [RequestGroupMan.parserGids, hp]
    rfl
  rw [gids, gids, hkeys, hgids, List.append_assoc]
  rfl

end Fill

end FluxCore.Request
