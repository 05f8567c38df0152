import FluxCore.Lib.Run
import FluxCore.Request.FillLoop

/-!
# Accounting of the active downloads

Over every run of the manager `numActive_` is the number of running groups that are not only
seeding, and the assertion of `decreaseNumActive` never fails. The slots are kept to unless a group
turns into a BitTorrent download while it is being started: its kind is looked at before its
dependency is resolved, so that it takes an HTTP slot.
-/

namespace FluxCore.Request

/-! ## Runs -/

/-- `pauseRequestGroup`, of a group that waits or of one that runs. -/
def Change.pause (force : Bool) : Change :=
  ⟨fun g => g.pause (g.state = .waiting) force, fun g => (g.pause_same _ force).1⟩

/-- `UnpauseRpcMethod`. -/
def Change.unpause : Change :=
  ⟨fun g => { g with pauseRequested := g.pauseRequested && g.state ≠ .waiting }, fun _ => rfl⟩

/-- `ChangeOptionRpcMethod`, for options that take a restart. -/
def Change.restart : Change :=
  ⟨fun g =>
    if g.state = .active ∧ g.canPause false false then
      { g.pause false false with restartRequested := true }
    else g, fun g => by
    dsimp only
    split
    · exact (g.pause_same false false).1
    · rfl⟩

/-- `removeDownload`, of a group that runs. -/
def Change.halt (force : Bool) : Change :=
  ⟨fun g =>
    if g.state = .active then if force then g.setForceHaltRequested true else g.setHaltRequested true
    else g, fun g => by
    dsimp only
    split_ifs <;> rfl⟩

namespace RequestGroupMan

/-- What happens to the manager. -/
inductive Event where
  | addRequestGroup (g : NewGroup)
  | addReservedGroup (gs : List NewGroup)
  | insertReservedGroup (pos : Nat) (gs : List NewGroup)
  | removeReservedGroup (gid : Gid)
  /-- A command of the group calls `enableSeedOnly`. -/
  | enableSeedOnly (gid : Gid)
  /-- Commands of a running group are created or end. -/
  | commands (gid : Gid) (n : Nat)
  | pause (gid : Gid) (force : Bool)
  | unpause (gid : Gid)
  | restart (gid : Gid)
  | halt (gid : Gid) (force : Bool)
  | setMaxConcurrentDownloads (n : Int)
  | removeStoppedGroup (next : Gid → List NewGroup)
  | fillRequestGroupFromReserver (out : Outside)

def step (m : RequestGroupMan) : Event → RequestGroupMan
  | .addRequestGroup g => (m.register [g]).foldl addRequestGroup m
  | .addReservedGroup gs =>
    { m with reservedGroups := appendReservedGroup m.reservedGroups (m.register gs) }
  | .insertReservedGroup pos gs => m.insertReservedGroup pos (m.register gs)
  | .removeReservedGroup gid => { m with reservedGroups := m.reservedGroups.remove gid }
  | .enableSeedOnly gid => m.enableSeedOnly gid
  | .commands gid n => if gid ∈ m.requestGroups.keys then m.modify gid (.numCommand n) else m
  | .pause gid force => m.modify gid (.pause force)
  | .unpause gid => m.modify gid .unpause
  | .restart gid => m.modify gid .restart
  | .halt gid force => m.modify gid (.halt force)
  | .setMaxConcurrentDownloads n => { m with maxConcurrentDownloads := n }
  | .removeStoppedGroup next => m.removeStoppedGroup next
  | .fillRequestGroupFromReserver out => (m.fillRequestGroupFromReserver out).1

/-! ## The counters -/

variable {m : RequestGroupMan} {g : RequestGroup} {gid : Gid} {out : Outside}

theorem Inv.disjoint (h : m.Inv) {k : Gid} (hr : k ∈ m.requestGroups.keys) :
    k ∉ m.reservedGroups.keys := fun hw =>
  (List.nodup_append.mp h.registered).2.2 k hr k (List.mem_append_left _ hw) rfl

theorem Inv.modify (h : m.Inv) (gid : Gid) (f : Change)
    (hseed : ∀ g, (f.val g).seedOnly = g.seedOnly) : (m.modify gid f).Inv :=
  ⟨h.toAccounts.modify gid f hseed, by rw [Registered, gids_modify]; exact h.registered⟩

theorem Inv.enableSeedOnly (h : m.Inv) (gid : Gid) : (m.enableSeedOnly gid).Inv := by
  refine ⟨?_, by rw [Registered, gids_enableSeedOnly]; exact h.registered⟩
  by_cases hk : gid ∈ m.reservedGroups.keys
  · rcases m.enableSeedOnly_cases gid with heq | ⟨g, hg, rfl, -, -⟩
    · rw [heq]
      exact h.toAccounts
    · exact absurd hk (h.disjoint (List.mem_map_of_mem hg))
  · exact h.toAccounts.enableSeedOnly m.requestGroups.nodup hk

/-- New groups in the queue, wherever they are put. -/
theorem Inv.withReserved (h : m.Inv) {l : RequestGroupList} {new : List RequestGroup}
    (hl : l.seq.Perm (new ++ m.reservedGroups.seq))
    (hn : (new.map RequestGroup.getGID).Nodup) (hnew : ∀ g ∈ new, g.gid ∉ m.gids)
    (hseed : ∀ g ∈ new, g.seedOnly = false) :
    ({ m with reservedGroups := l } : RequestGroupMan).Inv := by
  refine ⟨⟨h.numActive, h.assertion, fun g hg => ?_⟩, ?_⟩
  · rcases List.mem_append.mp (hl.mem_iff.mp hg) with hg | hg
    · exact hseed g hg
    · exact h.waiting g hg
  · have hperm : ({ m with reservedGroups := l } : RequestGroupMan).gids.Perm
        (new.map RequestGroup.getGID ++ m.gids) := by
      refine (List.Perm.append_left _ (.append_right _ (hl.map RequestGroup.getGID))).trans ?_
      rw [List.map_append, List.append_assoc]
      exact List.perm_append_comm_assoc ..
    rw [Registered, hperm.nodup_iff, List.nodup_append]
    refine ⟨hn, h.registered, fun k hk k' hk' => ?_⟩
    obtain ⟨g, hg, rfl⟩ := List.mem_map.mp hk
    rintro rfl
    exact hnew g hg hk'

theorem mem_gids_of_reserved {k : Gid} (hk : k ∈ m.reservedGroups.keys) : k ∈ m.gids :=
  List.mem_append_right _ (List.mem_append_left _ hk)

theorem Inv.addRequestGroup (h : m.Inv) (hg : g.gid ∉ m.gids) (hs : g.seedOnly = false) :
    (m.addRequestGroup g).Inv := by
  have hr : g.gid ∉ m.requestGroups.keys := fun hk => hg (List.mem_append_left _ hk)
  have hgids : (m.addRequestGroup g).gids = m.requestGroups.keys ++
      g.gid :: (m.reservedGroups.keys ++ m.parserGids) := by
    change (m.requestGroups.push_back g).seq.map _ ++ _ = _
    rw [IndexedList.seq_push_back hr, List.map_append, List.append_assoc]
    rfl
  refine ⟨h.toAccounts.addRequestGroup hr hs, ?_⟩
  rw [Registered, hgids, List.perm_middle.nodup_iff, List.nodup_cons]
  exact ⟨hg, h.registered⟩

theorem Inv.step_of_fill (h : m.Inv) (e : Event)
    (hfill : ∀ out, e = .fillRequestGroupFromReserver out → (m.step e).Inv) : (m.step e).Inv := by
  cases e with
  | addRequestGroup n =>
    obtain ⟨hn, hnew, hseed⟩ := m.register_spec [n]
    change ((m.register [n]).foldl RequestGroupMan.addRequestGroup m).Inv
    have hlen : (m.register [n]).length ≤ 1 := by
      unfold register
      rw [List.length_map, IndexedList.taken]
      split
      · exact Nat.zero_le _
      · exact le_rfl
    generalize m.register [n] = gs at hn hnew hseed hlen
    rcases gs with _ | ⟨g, _ | ⟨g', gs⟩⟩
    · exact h
    · exact h.addRequestGroup (hnew g (List.mem_singleton_self g))
        (hseed g (List.mem_singleton_self g))
    · exact absurd hlen (by simp)
  | addReservedGroup gs =>
    obtain ⟨hn, hnew, hseed⟩ := m.register_spec gs
    refine h.withReserved ?_ hn hnew hseed
    rw [appendReservedGroup, IndexedList.seq_foldl_push_back hn fun a ha hk =>
      hnew a ha (mem_gids_of_reserved hk)]
    exact List.perm_append_comm
  | insertReservedGroup pos gs =>
    obtain ⟨hn, hnew, hseed⟩ := m.register_spec gs
    change (m.insertReservedGroup pos (m.register gs)).Inv
    generalize m.register gs = new at hn hnew hseed
    refine h.withReserved ?_ hn hnew hseed
    exact IndexedList.seq_insert_perm (Nat.min_le_left ..) hn fun a ha hk =>
      hnew a ha (mem_gids_of_reserved hk)
  | removeReservedGroup gid =>
    have hsub : (m.reservedGroups.remove gid).seq.Sublist m.reservedGroups.seq :=
      List.eraseP_sublist
    refine ⟨⟨h.numActive, h.assertion, fun g hg => h.waiting g (hsub.subset hg)⟩, ?_⟩
    exact h.registered.sublist (((hsub.map _).append_right _).append_left _)
  | enableSeedOnly gid => exact h.enableSeedOnly gid
  | commands gid n =>
    change Inv (if gid ∈ m.requestGroups.keys then m.modify gid (.numCommand n) else m)
    split
    · exact h.modify gid _ fun _ => rfl
    · exact h
  | pause gid force =>
    exact h.modify gid _ fun g => (g.pause_same _ force).2
  | unpause gid => exact h.modify gid _ fun _ => rfl
  | restart gid =>
    refine h.modify gid _ fun g => ?_
    dsimp only [Change.restart]
    split
    · exact (g.pause_same false false).2
    · rfl
  | halt gid force =>
    refine h.modify gid _ fun g => ?_
    dsimp only [Change.halt]
    split_ifs <;> rfl
  | setMaxConcurrentDownloads n => exact ⟨⟨h.numActive, h.assertion, h.waiting⟩, h.registered⟩
  | removeStoppedGroup next => exact (h.removeStoppedGroup next).1
  | fillRequestGroupFromReserver out => exact hfill out rfl

end RequestGroupMan

namespace Fill

variable {f : Fill} {out : Outside} {g : RequestGroup}

/-- The invariant of the loop. -/
structure Sound (f : Fill) : Prop where
  accounts : f.man.Accounts
  pending : ∀ g ∈ f.pending, g.seedOnly = false
  nodup : f.gids.Nodup

theorem Sound.consider (h : f.Sound) {rest : List RequestGroup}
    (hseq : f.man.reservedGroups.seq = g :: rest) : (f.consider out g).1.Sound := by
  have hg : g.seedOnly = false := h.accounts.waiting g (hseq ▸ List.mem_cons_self ..)
  have hpop : f.popped.man.Accounts := ⟨h.accounts.numActive, h.accounts.assertion,
    fun a ha => h.accounts.waiting a (List.mem_of_mem_tail ha)⟩
  have hnodup := (gids_consider_perm out h.nodup hseq).nodup_iff.mpr h.nodup
  rcases f.consider_cases out g with ⟨-, heq⟩ | ⟨-, heq⟩
  · rw [heq] at hnodup ⊢
    refine ⟨hpop, fun a ha => ?_, hnodup⟩
    rcases List.mem_append.mp ha with ha | ha
    · exact h.pending a ha
    · rw [List.mem_singleton.mp ha]
      exact hg
  · obtain ⟨hgid, hseed⟩ := g.isDependencyResolved_same out.dependee
    obtain ⟨hr, hw⟩ := fresh_of_nodup h.nodup hseq
    rw [← hgid] at hr hw
    rw [heq, start_eq] at hnodup ⊢
    exact ⟨hpop.startGroup _ hr hw (hseed.trans hg), h.pending, hnodup⟩

theorem Sound.read (h : f.Sound) {entries : List UriEntry} (hp : f.man.uriListParser = some entries)
    (entries' : Option (List UriEntry))
    (hsub : ((entries'.getD []).flatMap UriEntry.gids).Sublist (entries.flatMap UriEntry.gids)) :
    (f.read entries').Sound := by
  refine ⟨⟨h.accounts.numActive, h.accounts.assertion, h.accounts.waiting⟩, h.pending, ?_⟩
  have hnew : (f.read entries').man.parserGids = (entries'.getD []).flatMap UriEntry.gids := by
    cases entries' <;> rfl
  have hold : f.man.parserGids = entries.flatMap UriEntry.gids := by
    rw [RequestGroupMan.parserGids, hp]
  refine h.nodup.sublist ?_
  change (_ ++ (_ ++ (_ ++ (f.read entries').man.parserGids))).Sublist _
  rw [hnew, gids, hold]
  exact ((hsub.append_left _).append_left _).append_left _

theorem Sound.appended (h : f.Sound) {gs : List NewGroup} {entries : List UriEntry}
    (hp : f.man.uriListParser = some (.groups gs :: entries)) :
    ((f.appended gs).read (some entries)).Sound := by
  refine ⟨⟨h.accounts.numActive, h.accounts.assertion, fun g hg => ?_⟩, h.pending, ?_⟩
  · change g ∈ (f.appended gs).man.reservedGroups.seq at hg
    rw [seq_appended h.nodup hp] at hg
    rcases List.mem_append.mp hg with hg | hg
    · exact h.accounts.waiting g hg
    · obtain ⟨n, -, rfl⟩ := List.mem_map.mp hg
      rfl
  · rw [gids_appended h.nodup hp]
    exact h.nodup

/-- The loop keeps an invariant of its turns together with its own. -/
theorem run_rule {I : Fill → Prop}
    (hturn : ∀ f g rest, f.Sound → I f → f.man.reservedGroups.seq = g :: rest →
      I (f.consider out g).1)
    (hread : ∀ f entries entries', f.Sound → I f → f.man.uriListParser = some entries →
      (entries'.getD []) <:+ entries →
      (entries'.getD []).flatMap UriEntry.gids = entries.flatMap UriEntry.gids →
      I (f.read entries'))
    (hgroups : ∀ f gs entries, f.Sound → I f →
      f.man.uriListParser = some (.groups gs :: entries) → I ((f.appended gs).read (some entries)))
    (hs : f.Sound) (hI : I f) :
    (f.run out).1.Sound ∧ I (f.run out).1 := by
  have hturn' : ∀ f g rest, f.Sound ∧ I f → f.slots.Open → f.man.reservedGroups.seq = g :: rest →
      (f.consider out g).1.Sound ∧ I (f.consider out g).1 :=
    fun f g rest h _ hseq => ⟨h.1.consider hseq, hturn f g rest h.1 h.2 hseq⟩
  unfold run
  split
  · exact drain_rule (I := fun f => f.Sound ∧ I f) hturn' _ ⟨hs, hI⟩
  next entries hp =>
    refine loop_rule (I := fun f => f.Sound ∧ I f) hturn' ?_ ?_ ?_ entries hp ⟨hs, hI⟩
    · exact fun f h hp => ⟨h.1.read hp none (List.nil_sublist _),
        hread f [] none h.1 h.2 hp (List.suffix_refl _) rfl⟩
    · exact fun f entries h hp => ⟨h.1.read hp (some entries) (List.Sublist.refl _),
        hread f _ (some entries) h.1 h.2 hp (List.suffix_cons ..) rfl⟩
    · exact fun f gs entries h hp => ⟨h.1.appended hp, hgroups f gs entries h.1 h.2 hp⟩

end Fill

namespace RequestGroupMan

variable {m : RequestGroupMan} {out : Outside}

theorem Inv.toFill (h : m.Inv) (out : Outside) : (m.toFill out).Sound :=
  ⟨h.toAccounts, nofun, h.registered⟩

/-- The ways a fill call ends. -/
theorem fill_cases (m : RequestGroupMan) (out : Outside) :
    let f := (m.removeStoppedGroup out.next).toFill out
    ((!f.slots.hasHttpSlot && !f.slots.hasBtSlot) = true ∧
        (m.fillRequestGroupFromReserver out).1 = m.removeStoppedGroup out.next) ∨
      ((f.run out).2 = true ∧ (m.fillRequestGroupFromReserver out).1 = (f.run out).1.man) ∨
      ((f.run out).2 = false ∧ (m.fillRequestGroupFromReserver out).1 =
        { (f.run out).1.man with
          reservedGroups := (f.run out).1.man.reservedGroups.insert 0 (f.run out).1.pending }) := by
  unfold fillRequestGroupFromReserver
  dsimp only
  split
  next hno => exact .inl ⟨hno, rfl⟩
  · refine .inr ?_
    rcases Fill.run _ _ with ⟨f, _ | _⟩
    · exact .inr ⟨rfl, rfl⟩
    · exact .inl ⟨rfl, rfl⟩

end RequestGroupMan

/-- The queue once the groups set aside are back. -/
theorem Fill.Sound.seq_insert {f : Fill} (h : f.Sound) :
    (f.man.reservedGroups.insert 0 f.pending).seq = f.pending ++ f.man.reservedGroups.seq := by
  have hnodup := h.nodup.sublist (List.sublist_append_right ..)
  rw [List.nodup_append] at hnodup
  refine IndexedList.seq_insert_zero hnodup.1 fun a ha hk => ?_
  exact hnodup.2.2 _ (List.mem_map_of_mem ha) _ (List.mem_append_left _ hk) rfl

namespace RequestGroupMan

variable {m : RequestGroupMan} {out : Outside}

theorem Inv.fill (h : m.Inv) (out : Outside) : (m.fillRequestGroupFromReserver out).1.Inv := by
  have ht := (h.removeStoppedGroup out.next).1
  obtain ⟨hs, -⟩ := Fill.run_rule (I := fun _ => True)
    (fun _ _ _ _ _ _ => trivial) (fun _ _ _ _ _ _ _ _ => trivial) (fun _ _ _ _ _ _ => trivial)
    (ht.toFill out) trivial
  rcases fill_cases m out with ⟨-, heq⟩ | ⟨-, heq⟩ | ⟨-, heq⟩ <;> rw [heq]
  · exact ht
  · refine ⟨hs.accounts, hs.nodup.sublist ?_⟩
    exact (List.sublist_append_right ..).append_left _
  · have hseq := hs.seq_insert
    generalize (Fill.run _ out).1 = f at hs hseq
    refine ⟨⟨hs.accounts.numActive, hs.accounts.assertion, fun g hg => ?_⟩, ?_⟩
    · change g ∈ (f.man.reservedGroups.insert 0 f.pending).seq at hg
      rw [hseq] at hg
      rcases List.mem_append.mp hg with hg | hg
      · exact hs.pending g hg
      · exact hs.accounts.waiting g hg
    · change (_ ++ ((f.man.reservedGroups.insert 0 f.pending).seq.map _ ++ _)).Nodup
      rw [hseq, List.map_append, List.append_assoc]
      exact hs.nodup

theorem Inv.step (h : m.Inv) (e : Event) : (m.step e).Inv :=
  h.step_of_fill e fun out he => he ▸ h.fill out

/-- The counter and the assertion. -/
def Counted (m : RequestGroupMan) : Prop :=
  (m.numActive = m.requestGroups.seq.countP fun g => !g.seedOnly) ∧ m.assertFailed = false

theorem visits_counted (h : m.Inv) (es : List Event) : Visits step Counted m es :=
  visits_of_along (P := fun _ _ => True) (fun _ e h _ => h.step e)
    (fun _ h => ⟨h.numActive, h.assertion⟩) h (Along.of_forall fun _ _ => trivial)

end RequestGroupMan

/-! ## The slots -/

/-- No start-up throws. -/
def Outside.NoThrow (out : Outside) : Prop := ∀ gid, (out.startup gid).ends = .returns

/-- The dependency of the group turns it into a BitTorrent download. -/
def RequestGroup.TurnsBt (g : RequestGroup) (dependee : Gid → Dependee) : Prop :=
  g.bt = false ∧ (g.isDependencyResolved dependee).2.bt = true

instance (g : RequestGroup) (dependee : Gid → Dependee) : Decidable (g.TurnsBt dependee) :=
  inferInstanceAs (Decidable (_ ∧ _))

namespace RequestGroupMan

/-- The groups that a fill call may come to: those that wait and those in the input file. -/
def coming (m : RequestGroupMan) : List RequestGroup :=
  m.reservedGroups.seq ++
    (m.uriListParser.getD []).flatMap fun
      | .groups gs => gs.map RequestGroup.create
      | .error => []

/-- No group that the call may start turns into a BitTorrent download by its dependency, or there is
no slot for it to take. -/
def KeepsKinds (m : RequestGroupMan) (out : Outside) : Prop :=
  ((m.removeStoppedGroup out.next).toFill out).slots.hasHttpSlot = false ∨
    ∀ g ∈ (m.removeStoppedGroup out.next).coming,
      (m.keepRunning && g.pauseRequested) = false → ¬g.TurnsBt out.dependee

instance (m : RequestGroupMan) (out : Outside) : Decidable (m.KeepsKinds out) :=
  inferInstanceAs (Decidable (_ ∨ _))

/-- After a fill call without a failing start-up, no more downloads of a kind are active than before
or than there are slots for it. -/
def WithinSlots (m : RequestGroupMan) (out : Outside) : Prop :=
  let m' := (m.fillRequestGroupFromReserver out).1
  (active false m'.requestGroups : Int) ≤
      max (active false m.requestGroups : Int) (m.concurrency out) ∧
    (active true m'.requestGroups : Int) ≤
      max (active true m.requestGroups : Int) (maxBtSlots (m.concurrency out))

end RequestGroupMan

namespace Fill

variable {f : Fill} {out : Outside} {g : RequestGroup}

/-- What the loop keeps when no start-up throws and no group turns into a BitTorrent download. The
loop starts at `t` with `n` slots. -/
structure Kept (t : RequestGroupMan) (n : Int) (out : Outside) (f : Fill) : Prop where
  http : active false f.man.requestGroups ≤ f.slots.numHttpActive
  bt : active true f.man.requestGroups ≤ f.slots.numBtActive
  httpMax : (f.slots.numHttpActive : Int) ≤ max (active false t.requestGroups : Int) n
  btMax : (f.slots.numBtActive : Int) ≤ max (active true t.requestGroups : Int) (maxBtSlots n)
  hasHttpSlot : f.slots.hasHttpSlot = true → (f.slots.numHttpActive : Int) < n
  hasBtSlot : f.slots.hasBtSlot = true → (f.slots.numBtActive : Int) < maxBtSlots n
  maxConcurrentDownloads : f.slots.maxConcurrentDownloads = n
  maxBtSlots : f.slots.maxBtSlots = Request.maxBtSlots n
  kinds : f.slots.hasHttpSlot = false ∨ ∀ g ∈ f.man.coming,
    (f.man.keepRunning && g.pauseRequested) = false → ¬g.TurnsBt out.dependee

variable {t : RequestGroupMan} {n : Int}

theorem bt_isDependencyResolved (g : RequestGroup) (dependee : Gid → Dependee)
    (h : ¬g.TurnsBt dependee) : (g.isDependencyResolved dependee).2.bt = g.bt := by
  cases hb : g.bt with
  | false => exact Bool.eq_false_iff.mpr fun ht => h ⟨hb, ht⟩
  | true =>
    unfold RequestGroup.isDependencyResolved
    split
    · exact hb
    · exact hb
    · dsimp only
      split_ifs <;> first | rfl | exact hb

theorem Kept.consider (h : f.Kept t n out) (hs : f.Sound) (hthrow : out.NoThrow)
    {rest : List RequestGroup} (hseq : f.man.reservedGroups.seq = g :: rest) :
    (f.consider out g).1.Kept t n out := by
  have hsub : f.popped.man.coming ⊆ f.man.coming :=
    List.append_subset.mpr ⟨fun a ha => List.mem_append_left _ (List.mem_of_mem_tail ha),
      List.subset_append_right ..⟩
  rcases f.consider_cases out g with ⟨-, heq⟩ | ⟨hpass, heq⟩
  · rw [heq]
    exact ⟨h.http, h.bt, h.httpMax, h.btMax, h.hasHttpSlot, h.hasBtSlot,
      h.maxConcurrentDownloads, h.maxBtSlots, h.kinds.imp_right fun hk a ha => hk a (hsub ha)⟩
  · rw [Slots.passesOver, Bool.or_eq_false_iff, Bool.or_eq_false_iff, Bool.not_eq_false'] at hpass
    obtain ⟨⟨hslot, hpause⟩, -⟩ := hpass
    have hmem : g ∈ f.man.coming := List.mem_append_left _ (hseq ▸ List.mem_cons_self ..)
    have hturns : ¬g.TurnsBt out.dependee := by
      rcases h.kinds with hno | hk
      · rintro ⟨hb, -⟩
        rw [hb, Slots.hasSlot, if_neg (by decide), hno] at hslot
        cases hslot
      · exact hk g hmem hpause
    have hbt := bt_isDependencyResolved g out.dependee hturns
    obtain ⟨hgid, -⟩ := g.isDependencyResolved_same out.dependee
    obtain ⟨hr, hw⟩ := fresh_of_nodup hs.nodup hseq
    rw [← hgid] at hr hw
    have hstart := RequestGroupMan.startGroup_started (m := f.popped.man)
      (out.startup (g.isDependencyResolved out.dependee).2.gid) hr hw
    rw [heq, start_eq, if_pos (hthrow _)]
    generalize f.popped.man.startGroup _ _ = m' at hstart
    have hcoming : m'.coming = f.popped.man.coming := by
      rw [RequestGroupMan.coming, hstart.reservedGroups, hstart.uriListParser]
      rfl
    have hhttp := hstart.active false
    have hbts := hstart.active true
    rw [hbt] at hhttp hbts
    have hold : active false f.popped.man.requestGroups = active false f.man.requestGroups ∧
        active true f.popped.man.requestGroups = active true f.man.requestGroups := ⟨rfl, rfl⟩
    rw [hold.1] at hhttp
    rw [hold.2] at hbts
    have hkinds : (f.slots.started g.bt).hasHttpSlot = false ∨ ∀ a ∈ m'.coming,
        (m'.keepRunning && a.pauseRequested) = false → ¬a.TurnsBt out.dependee := by
      rw [hcoming, hstart.keepRunning]
      rcases h.kinds with hno | hk
      · cases hb : g.bt with
        | true => exact .inl hno
        | false =>
          rw [hb, Slots.hasSlot, if_neg (by decide), hno] at hslot
          cases hslot
      · exact .inr fun a ha => hk a (hsub ha)
    have hmax := h.maxConcurrentDownloads
    have hbtSlots := h.maxBtSlots
    have h1 := h.http
    have h2 := h.bt
    cases hb : g.bt with
    | false =>
      rw [hb] at hslot hhttp hbts hkinds
      rw [if_pos rfl] at hhttp
      rw [if_neg (by decide)] at hbts
      have hlt := h.hasHttpSlot hslot
      refine ⟨hhttp.trans (Nat.add_le_add_right h1 1), hbts.trans h2, ?_, h.btMax, fun hnew => ?_,
        h.hasBtSlot, hmax, hbtSlots, hkinds⟩
      · exact le_max_of_le_right (by change ((f.slots.numHttpActive + 1 : Nat) : Int) ≤ n; omega)
      · exact hmax ▸ of_decide_eq_true hnew
    | true =>
      rw [hb] at hslot hhttp hbts hkinds
      rw [if_neg (by decide)] at hhttp
      rw [if_pos rfl] at hbts
      have hlt := h.hasBtSlot hslot
      refine ⟨hhttp.trans h1, hbts.trans (Nat.add_le_add_right h2 1), h.httpMax, ?_, h.hasHttpSlot,
        fun hnew => ?_, hmax, hbtSlots, hkinds⟩
      · exact le_max_of_le_right (by
          change ((f.slots.numBtActive + 1 : Nat) : Int) ≤ Request.maxBtSlots n
          omega)
      · exact hbtSlots ▸ of_decide_eq_true hnew

end Fill

namespace RequestGroupMan

variable {m : RequestGroupMan} {out : Outside}

theorem Inv.withinSlots (h : m.Inv) (hk : m.KeepsKinds out) (hthrow : out.NoThrow) :
    m.WithinSlots out := by
  have hsame := m.removeStoppedGroup_same out.next
  have hn : (m.removeStoppedGroup out.next).concurrency out = m.concurrency out := by
    rw [concurrency, hsame.maxConcurrentDownloads, hsame.optimizeConcurrentDownloads, concurrency]
  have hless : ∀ b, active b (m.removeStoppedGroup out.next).requestGroups ≤
      active b m.requestGroups := fun b => by
    rw [requestGroups_removeStoppedGroup]
    exact List.Sublist.countP_le List.filter_sublist
  have ht := (h.removeStoppedGroup out.next).1
  generalize hts : m.removeStoppedGroup out.next = t at *
  have hfill : (t.toFill out).Kept t (t.concurrency out) out := by
    refine ⟨le_rfl, le_rfl, le_max_left .., le_max_left .., of_decide_eq_true, of_decide_eq_true,
      rfl, rfl, ?_⟩
    rw [KeepsKinds, hts] at hk
    rw [← hsame.keepRunning] at hk
    exact hk
  have hread : ∀ (f : Fill) (entries : List UriEntry) (entries' : Option (List UriEntry)),
      f.Sound → f.Kept t (t.concurrency out) out → f.man.uriListParser = some entries →
      entries'.getD [] <:+ entries →
      (entries'.getD []).flatMap UriEntry.gids = entries.flatMap UriEntry.gids →
      (f.read entries').Kept t (t.concurrency out) out := by
    intro f entries entries' hs hI hp hsub _
    refine { hI with kinds := hI.kinds.imp_right fun hk a ha => hk a ?_ }
    refine (List.append_subset.mpr ⟨List.subset_append_left .., ?_⟩) ha
    intro b hb
    obtain ⟨entry, hentry, hmem⟩ := List.mem_flatMap.mp hb
    rw [hp]
    exact List.mem_append_right _ (List.mem_flatMap.mpr ⟨entry, hsub.subset hentry, hmem⟩)
  have hgroups : ∀ (f : Fill) (gs : List NewGroup) (entries : List UriEntry), f.Sound →
      f.Kept t (t.concurrency out) out → f.man.uriListParser = some (.groups gs :: entries) →
      ((f.appended gs).read (some entries)).Kept t (t.concurrency out) out := by
    intro f gs entries hs hI hp
    refine { hI with kinds := hI.kinds.imp_right fun hk a ha => hk a ?_ }
    have hseq := Fill.seq_appended hs.nodup hp
    change a ∈ (f.appended gs).man.reservedGroups.seq ++ _ at ha
    rw [hseq, List.append_assoc] at ha
    rw [coming, hp]
    exact ha
  obtain ⟨-, hkept⟩ := Fill.run_rule (fun f g rest hs hI hseq => hI.consider hs hthrow hseq)
    hread hgroups (ht.toFill out) hfill
  rw [hn] at hkept
  have hhttp : (active false ((t.toFill out).run out).1.man.requestGroups : Int) ≤
      max (active false t.requestGroups : Int) (m.concurrency out) :=
    (Int.ofNat_le.mpr hkept.http).trans hkept.httpMax
  have hbt : (active true ((t.toFill out).run out).1.man.requestGroups : Int) ≤
      max (active true t.requestGroups : Int) (maxBtSlots (m.concurrency out)) :=
    (Int.ofNat_le.mpr hkept.bt).trans hkept.btMax
  have hfalse := Int.ofNat_le.mpr (hless false)
  have htrue := Int.ofNat_le.mpr (hless true)
  have hcases := fill_cases m out
  rw [hts] at hcases
  rw [WithinSlots]
  rcases hcases with ⟨-, heq⟩ | ⟨-, heq⟩ | ⟨-, heq⟩ <;> rw [heq]
  · exact ⟨le_max_of_le_left hfalse, le_max_of_le_left htrue⟩
  · exact ⟨hhttp.trans (max_le_max_right _ hfalse), hbt.trans (max_le_max_right _ htrue)⟩
  · exact ⟨hhttp.trans (max_le_max_right _ hfalse), hbt.trans (max_le_max_right _ htrue)⟩

/-! ## Whole runs -/

/-- A fill call without a failing start-up keeps to the slots. -/
def KeepsToSlots (m : RequestGroupMan) : Event → Prop
  | .fillRequestGroupFromReserver out => out.NoThrow → m.WithinSlots out
  | _ => True

/-- A fill call without a failing start-up starts no group that turns into a BitTorrent download. -/
def NoneTurns (m : RequestGroupMan) : Event → Prop
  | .fillRequestGroupFromReserver out => out.NoThrow → m.KeepsKinds out
  | _ => True

/-- The constructor, with the entries of the input file if it is read as downloads end. -/
def new (groups : List NewGroup) (maxConcurrentDownloads : Int)
    (optimizeConcurrentDownloads keepRunning : Bool) (uriListParser : Option (List UriEntry)) :
    RequestGroupMan :=
  { reservedGroups := appendReservedGroup {} (groups.map RequestGroup.create)
    maxConcurrentDownloads, optimizeConcurrentDownloads, keepRunning, uriListParser }

variable {groups : List NewGroup} {maxConcurrentDownloads : Int}
  {optimizeConcurrentDownloads keepRunning : Bool} {uriListParser : Option (List UriEntry)}

theorem inv_new (hids : (groups.map NewGroup.gid ++
    (uriListParser.getD []).flatMap UriEntry.gids).Nodup) :
    (new groups maxConcurrentDownloads optimizeConcurrentDownloads keepRunning uriListParser).Inv
    := by
  have hnodup : ((groups.map RequestGroup.create).map RequestGroup.getGID).Nodup := by
    rw [List.map_map]
    exact hids.sublist (List.sublist_append_left ..)
  have hseq : (new groups maxConcurrentDownloads optimizeConcurrentDownloads keepRunning
      uriListParser).reservedGroups.seq = groups.map RequestGroup.create :=
    IndexedList.seq_foldl_push_back hnodup fun _ _ hk => nomatch hk
  refine ⟨⟨rfl, rfl, fun g hg => ?_⟩, ?_⟩
  · rw [hseq] at hg
    obtain ⟨n, -, rfl⟩ := List.mem_map.mp hg
    rfl
  · change ([] ++ (IndexedList.keys _ ++ parserGids _)).Nodup
    rw [IndexedList.keys, hseq, List.map_map, List.nil_append]
    have hparser : (new groups maxConcurrentDownloads optimizeConcurrentDownloads keepRunning
        uriListParser).parserGids = (uriListParser.getD []).flatMap UriEntry.gids := by
      cases uriListParser <;> rfl
    rw [hparser]
    exact hids

/-- In every run the counters are right, and the slots are kept to if no fill call without a failing
start-up starts a group that turns into a BitTorrent download. The ids of the first groups and of
those in the input file are distinct. -/
theorem accounting (hids : (groups.map NewGroup.gid ++
      (uriListParser.getD []).flatMap UriEntry.gids).Nodup) (es : List Event)
    (h : Along step NoneTurns (new groups maxConcurrentDownloads optimizeConcurrentDownloads
      keepRunning uriListParser) es) :
    Visits step Counted (new groups maxConcurrentDownloads optimizeConcurrentDownloads keepRunning
        uriListParser) es ∧
      Along step KeepsToSlots (new groups maxConcurrentDownloads optimizeConcurrentDownloads
        keepRunning uriListParser) es := by
  refine ⟨visits_counted (inv_new hids) es, ?_⟩
  refine along_of_along (fun _ e h _ => h.step e) (fun m e hm he => ?_) (inv_new hids) h
  cases e with
  | fillRequestGroupFromReserver out =>
    exact fun hthrow => hm.withinSlots (he hthrow) hthrow
  | _ => trivial

theorem accounting_two :
    Visits step Counted (new [{ gid := 1 }, { gid := 2, bt := true }] 5 false false none)
        [.fillRequestGroupFromReserver {}, .commands 1 0, .fillRequestGroupFromReserver {}] ∧
      Along step KeepsToSlots (new [{ gid := 1 }, { gid := 2, bt := true }] 5 false false none)
        [.fillRequestGroupFromReserver {}, .commands 1 0, .fillRequestGroupFromReserver {}] :=
  accounting (by decide) _ ⟨fun _ => by decide +kernel, trivial, fun _ => by decide +kernel, trivial⟩

/-- Three torrents run on the three slots for them. A file that is a torrent itself has been
downloaded, and the group that depends on it is started next to them. -/
theorem fourth_torrent_counterexample :
    let dependee (numCommand : Nat) (_ : Gid) : Dependee := ⟨numCommand, numCommand = 0, true⟩
    ¬Along step KeepsToSlots
      (new [{ gid := 1, bt := true }, { gid := 2, bt := true }, { gid := 3, bt := true },
        { gid := 4 }, { gid := 5, dependency := some ⟨some 4⟩ }] 5 false false none)
      [.fillRequestGroupFromReserver { dependee := dependee 1 }, .commands 4 0,
        .fillRequestGroupFromReserver { dependee := dependee 0 }] := by
  rintro dependee ⟨-, -, h, -⟩
  exact absurd (h fun _ => rfl).2 (by decide +kernel)

end RequestGroupMan

end FluxCore.Request
