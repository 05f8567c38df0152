import FluxCore.Request.Accounting

/-!
# What becomes of the waiting downloads

A fill call moves groups from the queue to the running ones and leaves the rest in their order. The
groups it sets aside are in a local until the scan is over: an exception that leaves the call takes
them along. `keepsWaiting_iff` says when that happens, in terms of the queue as the call finds it.
-/

namespace FluxCore.Request

open List (Sublist)

/-- A sublist of distinct elements is what a filter leaves. -/
theorem filter_mem_of_sublist {α : Type*} [DecidableEq α] {l l' : List α} (hs : l'.Sublist l)
    (hn : l.Nodup) : l.filter (· ∈ l') = l' := by
  induction hs with
  | slnil => rfl
  | @cons l' l a hs ih =>
    obtain ⟨ha, hl⟩ := List.nodup_cons.mp hn
    rw [List.filter_cons_of_neg (by simpa using fun h => ha (hs.subset h)), ih hl]
  | @cons_cons l' l a hs ih =>
    obtain ⟨ha, hl⟩ := List.nodup_cons.mp hn
    rw [List.filter_cons_of_pos (by simp)]
    congr 1
    refine (List.filter_congr fun b hb => ?_).trans (ih hl)
    have hne : b ≠ a := fun heq => ha (heq ▸ hb)
    simp [hne]

/-! ## The queue as a call finds it -/

/-- What the scan comes to: a group, or a malformed entry of the input file. -/
inductive Coming where
  | group (g : RequestGroup)
  | error

def UriEntry.coming : UriEntry → List Coming
  | .groups gs => gs.map fun g => .group (.create g)
  | .error => [.error]

namespace RequestGroupMan

/-- The waiting groups and, behind them, what is in the input file. -/
def upcoming (m : RequestGroupMan) : List Coming :=
  m.reservedGroups.seq.map .group ++ (m.uriListParser.getD []).flatMap UriEntry.coming

end RequestGroupMan

/-- From the front of what is coming: once a group of `waiting` has been passed over, neither a
malformed entry nor a start-up that throws something else than a `RecoverableException` is met while
the scan goes on. `held` says that one has been passed over already. -/
def Restores (out : Outside) (keepRunning : Bool) (waiting : List Gid) :
    Bool → Slots → List Coming → Prop
  | _, _, [] => True
  | held, s, .error :: _ => s.Open → held = false
  | held, s, .group g :: cs =>
    s.Open →
      if s.passesOver keepRunning out.dependee g then
        Restores out keepRunning waiting (held || decide (g.gid ∈ waiting)) s cs
      else
        match (out.startup g.gid).ends with
        | .returns => Restores out keepRunning waiting held (s.started g.bt) cs
        | .recoverable => Restores out keepRunning waiting held s cs
        | .other => held = false

instance Restores.decidable (out : Outside) (keepRunning : Bool) (waiting : List Gid) :
    (held : Bool) → (s : Slots) → (cs : List Coming) →
      Decidable (Restores out keepRunning waiting held s cs)
  | _, _, [] => .isTrue trivial
  | held, s, .error :: _ => inferInstanceAs (Decidable (s.Open → held = false))
  | held, s, .group g :: cs =>
    have := Restores.decidable out keepRunning waiting
      (held || decide (g.gid ∈ waiting)) s cs
    have := Restores.decidable out keepRunning waiting held (s.started g.bt) cs
    have := Restores.decidable out keepRunning waiting held s cs
    match hends : (out.startup g.gid).ends with
    | .returns => decidable_of_iff (s.Open → if s.passesOver keepRunning out.dependee g then
          Restores out keepRunning waiting (held || decide (g.gid ∈ waiting)) s cs
        else Restores out keepRunning waiting held (s.started g.bt) cs) (by rw [Restores, hends])
    | .recoverable => decidable_of_iff (s.Open → if s.passesOver keepRunning out.dependee g then
          Restores out keepRunning waiting (held || decide (g.gid ∈ waiting)) s cs
        else Restores out keepRunning waiting held s cs) (by rw [Restores, hends])
    | .other => decidable_of_iff (s.Open → if s.passesOver keepRunning out.dependee g then
          Restores out keepRunning waiting (held || decide (g.gid ∈ waiting)) s cs
        else held = false) (by rw [Restores, hends])

theorem restores_of_not_open {out : Outside} {keepRunning held : Bool} {waiting : List Gid}
    {s : Slots} (h : ¬s.Open) (cs : List Coming) :
    Restores out keepRunning waiting held s cs := by
  match cs with
  | [] => trivial
  | .error :: _ => exact fun ho => absurd ho h
  | .group _ :: _ => exact fun ho => absurd ho h

namespace Fill

variable {f : Fill} {out : Outside} {g : RequestGroup} {waiting : List Gid}

/-- A group of `waiting` has been set aside. -/
def held (f : Fill) (waiting : List Gid) : Bool := f.pending.any fun g => g.gid ∈ waiting

/-- The walk from where a part of the scan has ended. -/
def RestoresAfter (out : Outside) (keepRunning : Bool) (waiting : List Gid) (cs : List Coming) :
    Fill × Bool → Prop
  | (f, true) => f.held waiting = false
  | (f, false) => Restores out keepRunning waiting (f.held waiting) f.slots cs

/-- What a turn does to the walk. -/
theorem restores_consider (out : Outside) (waiting : List Gid) (hs : f.Sound)
    {rest : List RequestGroup}
    (hseq : f.man.reservedGroups.seq = g :: rest) (hopen : f.slots.Open) (cs : List Coming) :
    (f.consider out g).1.man.reservedGroups.seq = rest ∧
      (Restores out f.man.keepRunning waiting (f.held waiting) f.slots (.group g :: cs) ↔
        RestoresAfter out f.man.keepRunning waiting cs (f.consider out g)) := by
  have hpop : f.popped.man.reservedGroups.seq = rest := by
    change f.man.reservedGroups.seq.tail = rest
    rw [hseq]
    rfl
  rw [Restores, imp_iff_right hopen]
  rcases f.consider_cases out g with ⟨hpass, heq⟩ | ⟨hpass, heq⟩
  · rw [heq, hpass, if_pos rfl]
    have hheld : (f.popped.setAside g).held waiting =
        (f.held waiting || decide (g.gid ∈ waiting)) := by
      rw [held, setAside, List.any_append, List.any_cons, List.any_nil, Bool.or_false]
      rfl
    refine ⟨hpop, ?_⟩
    rw [RestoresAfter, hheld]
    rfl
  · obtain ⟨hgid, -⟩ := g.isDependencyResolved_same out.dependee
    obtain ⟨hr, hw⟩ := fresh_of_nodup hs.nodup hseq
    rw [← hgid] at hr hw
    have hstart := RequestGroupMan.startGroup_started (m := f.popped.man)
      (out.startup (g.isDependencyResolved out.dependee).2.gid) hr hw
    rw [hpass, if_neg Bool.false_ne_true, heq, start_eq]
    refine ⟨(congrArg IndexedList.seq hstart.reservedGroups).trans hpop, ?_⟩
    rw [hgid]
    cases (out.startup g.gid).ends <;> rfl

theorem restores_drain (out : Outside) (waiting : List Gid) (hs : f.Sound)
    {n : Nat} (hn : f.man.reservedGroups.seq.length = n)
    (cs : List Coming) :
    (Restores out f.man.keepRunning waiting (f.held waiting) f.slots
        (f.man.reservedGroups.seq.map .group ++ cs) ↔
      RestoresAfter out f.man.keepRunning waiting cs (f.drain out n)) ∧
      ((f.drain out n).2 = false → (f.drain out n).1.slots.Open →
        (f.drain out n).1.man.reservedGroups.seq = []) ∧ (f.drain out n).1.Sound := by
  induction n generalizing f with
  | zero =>
    have hnil := List.eq_nil_of_length_eq_zero hn
    rw [hnil]
    exact ⟨Iff.rfl, fun _ _ => hnil, hs⟩
  | succ n ih =>
    obtain ⟨g, rest, hseq⟩ := List.exists_cons_of_length_eq_add_one hn
    by_cases hopen : f.slots.Open
    · obtain ⟨hrest, hturn⟩ := restores_consider out waiting hs hseq hopen
        (rest.map .group ++ cs)
      have hsound : (f.consider out g).1.Sound := hs.consider hseq
      have hkeep := (f.uriListParser_consider out g).2
      rw [drain, if_pos hopen, hseq]
      dsimp only
      generalize f.consider out g = r at hrest hturn hsound hkeep ⊢
      rcases r with ⟨f', _ | _⟩
      · have hlen : f'.man.reservedGroups.seq.length = n := by
          rw [hseq, List.length_cons] at hn
          rw [hrest]
          omega
        obtain ⟨hiff, hempty, hsound'⟩ := ih hsound hlen
        rw [hrest, hkeep] at hiff
        exact ⟨hturn.trans hiff, hempty, hsound'⟩
      · exact ⟨hturn, nofun, hsound⟩
    · rw [drain, if_neg hopen]
      exact ⟨iff_of_true (restores_of_not_open hopen _) (restores_of_not_open hopen _),
        fun _ ho => absurd ho hopen, hs⟩

theorem restores_loop (out : Outside) (waiting : List Gid) (hs : f.Sound)
    (entries : List UriEntry)
    (hp : f.man.uriListParser = some entries) :
    Restores out f.man.keepRunning waiting (f.held waiting) f.slots
        (f.man.reservedGroups.seq.map .group ++ entries.flatMap UriEntry.coming) ↔
      ((f.loop out entries).2 = true → (f.loop out entries).1.held waiting = false) := by
  induction entries generalizing f with
  | nil =>
    obtain ⟨hiff, -, -⟩ := restores_drain out waiting hs rfl []
    rw [List.flatMap_nil, hiff, loop, IndexedList.size]
    generalize f.drain out f.man.reservedGroups.seq.length = r
    rcases r with ⟨f', _ | _⟩
    · dsimp only
      split <;> exact iff_of_true trivial fun h => absurd h Bool.false_ne_true
    · exact ⟨fun h _ => h, fun h => h rfl⟩
  | cons entry entries ih =>
    obtain ⟨hiff, hempty, hsound⟩ := restores_drain out waiting hs rfl
      ((entry :: entries).flatMap UriEntry.coming)
    have hparser := f.uriListParser_drain out f.man.reservedGroups.seq.length
    rw [hiff, loop, IndexedList.size]
    generalize f.drain out f.man.reservedGroups.seq.length = r at hempty hsound hparser ⊢
    rcases r with ⟨f', _ | _⟩
    · obtain ⟨hp', hkeep⟩ := hparser
      replace hp' : f'.man.uriListParser = some (entry :: entries) := hp'.trans hp
      replace hkeep : f'.man.keepRunning = f.man.keepRunning := hkeep
      dsimp only
      rw [RestoresAfter]
      split
      next hopen =>
        cases entry with
        | error => exact ⟨fun h _ => h hopen, fun h _ => h rfl⟩
        | groups gs =>
          have hseq : ((f'.appended gs).read (some entries)).man.reservedGroups.seq =
              gs.map RequestGroup.create := by
            refine (seq_appended hsound.nodup hp').trans ?_
            rw [hempty rfl hopen, List.nil_append]
          have hnext := ih (hsound.appended hp') rfl
          rw [hseq, List.map_map] at hnext
          rw [← hkeep]
          exact hnext
      next hclosed =>
        exact iff_of_true (restores_of_not_open hclosed _) fun h => absurd h Bool.false_ne_true
    · exact ⟨fun h _ => h, fun h => h rfl⟩

theorem restores_run (out : Outside) (waiting : List Gid) (hs : f.Sound) :
    Restores out f.man.keepRunning waiting (f.held waiting) f.slots f.man.upcoming ↔
      ((f.run out).2 = true → (f.run out).1.held waiting = false) := by
  unfold run RequestGroupMan.upcoming
  split
  next hp =>
    obtain ⟨hiff, -, -⟩ := restores_drain out waiting hs rfl []
    rw [hp]
    refine hiff.trans ?_
    rw [IndexedList.size]
    generalize f.drain out f.man.reservedGroups.seq.length = r
    rcases r with ⟨f', _ | _⟩
    · exact iff_of_true trivial nofun
    · exact ⟨fun h _ => h, fun h => h rfl⟩
  next entries hp =>
    rw [hp]
    exact restores_loop out waiting hs entries hp

/-! ## Order -/

/-- The ids set aside, then those of the queue, then those of the input file. -/
def queue (f : Fill) : List Gid :=
  f.pending.map RequestGroup.getGID ++ (f.man.reservedGroups.keys ++ f.man.parserGids)

/-- What the loop does to the ids of its start `f₀`. -/
structure Moves (f₀ f : Fill) : Prop where
  perm : f.gids.Perm f₀.gids
  running : f₀.man.requestGroups.keys <+: f.man.requestGroups.keys
  order : f.queue.Sublist f₀.queue
  parser : f.man.parserGids.Sublist f₀.man.parserGids

variable {f₀ : Fill}

theorem Moves.consider (h : Moves f₀ f) (hs : f.Sound) {rest : List RequestGroup}
    (hseq : f.man.reservedGroups.seq = g :: rest) : Moves f₀ (f.consider out g).1 := by
  have hperm := (gids_consider_perm out hs.nodup hseq).trans h.perm
  have hkeys : f.man.reservedGroups.keys = g.gid :: f.popped.man.reservedGroups.keys := by
    change f.man.reservedGroups.seq.map _ = _ :: f.man.reservedGroups.seq.tail.map _
    rw [hseq]
    rfl
  rcases f.consider_cases out g with ⟨-, heq⟩ | ⟨-, heq⟩
  · rw [heq] at hperm ⊢
    refine ⟨hperm, h.running, ?_, h.parser⟩
    have hqueue : (f.popped.setAside g).queue = f.queue := by
      change (f.pending ++ [g]).map RequestGroup.getGID ++
        (f.popped.man.reservedGroups.keys ++ f.man.parserGids) = _
      rw [queue, hkeys, List.map_append, List.append_assoc]
      rfl
    exact hqueue ▸ h.order
  · obtain ⟨hgid, -⟩ := g.isDependencyResolved_same out.dependee
    obtain ⟨hr, hw⟩ := fresh_of_nodup hs.nodup hseq
    rw [← hgid] at hr hw
    have hstart := RequestGroupMan.startGroup_started (m := f.popped.man)
      (out.startup (g.isDependencyResolved out.dependee).2.gid) hr hw
    rw [heq, start_eq] at hperm ⊢
    generalize f.popped.man.startGroup _ _ = m' at hstart hperm
    have hparser : m'.parserGids = f.man.parserGids := by
      rw [RequestGroupMan.parserGids, hstart.uriListParser]
      rfl
    refine ⟨hperm, h.running.trans ?_, Sublist.trans ?_ h.order, hparser ▸ h.parser⟩
    · change _ <+: m'.requestGroups.keys
      rw [hstart.requestGroups]
      exact List.prefix_append ..
    · change (f.pending.map RequestGroup.getGID ++ (m'.reservedGroups.keys ++ m'.parserGids)).Sublist _
      rw [queue, hstart.reservedGroups, hparser, hkeys]
      exact (List.sublist_cons_self ..).append_left _

theorem Moves.read (h : Moves f₀ f) {entries : List UriEntry}
    (hp : f.man.uriListParser = some entries) (entries' : Option (List UriEntry))
    (hids : (entries'.getD []).flatMap UriEntry.gids = entries.flatMap UriEntry.gids) :
    Moves f₀ (f.read entries') := by
  have hnew : (f.read entries').man.parserGids = (entries'.getD []).flatMap UriEntry.gids := by
    cases entries' <;> rfl
  have hold : f.man.parserGids = entries.flatMap UriEntry.gids := by
    rw [RequestGroupMan.parserGids, hp]
  have hparser := hnew.trans (hids.trans hold.symm)
  have hqueue : (f.read entries').queue = f.queue := by
    rw [queue, hparser]
    rfl
  refine ⟨?_, h.running, hqueue ▸ h.order, hparser ▸ h.parser⟩
  have hgids : (f.read entries').gids = f.gids := by
    rw [gids, hparser]
    rfl
  exact hgids ▸ h.perm

theorem Moves.appended (h : Moves f₀ f) (hs : f.Sound) {gs : List NewGroup}
    {entries : List UriEntry} (hp : f.man.uriListParser = some (.groups gs :: entries)) :
    Moves f₀ ((f.appended gs).read (some entries)) := by
  have hgids := gids_appended hs.nodup hp
  have hparser : f.man.parserGids = gs.map NewGroup.gid ++ entries.flatMap UriEntry.gids := by
    rw [RequestGroupMan.parserGids, hp]
    rfl
  refine ⟨hgids ▸ h.perm, h.running, ?_, ?_⟩
  · have hqueue : ((f.appended gs).read (some entries)).queue = f.queue :=
      List.append_cancel_left hgids
    exact hqueue ▸ h.order
  · refine Sublist.trans ?_ h.parser
    rw [hparser]
    exact List.sublist_append_right ..

/-- Where the ids of the groups that waited are at the end of the scan. -/
theorem Moves.place (h : Moves f₀ f) (hs : f₀.Sound) {k : Gid}
    (hk : k ∈ f₀.man.reservedGroups.keys) :
    (k ∈ f.man.requestGroups.keys ∧ k ∉ f.pending.map RequestGroup.getGID ∧
        k ∉ f.man.reservedGroups.keys) ∨
      (k ∉ f.man.requestGroups.keys ∧ k ∈ f.pending.map RequestGroup.getGID ∧
        k ∉ f.man.reservedGroups.keys) ∨
      (k ∉ f.man.requestGroups.keys ∧ k ∉ f.pending.map RequestGroup.getGID ∧
        k ∈ f.man.reservedGroups.keys) := by
  have hparser : k ∉ f.man.parserGids := fun hp => by
    have hnodup := hs.nodup.sublist ((List.sublist_append_right _ _).trans
      (List.sublist_append_right _ _))
    exact (List.nodup_append.mp hnodup).2.2 k hk k (h.parser.subset hp) rfl
  have hmem : k ∈ f.gids := h.perm.mem_iff.mpr
    (List.mem_append_right _ (List.mem_append_right _ (List.mem_append_left _ hk)))
  have hnodup := h.perm.nodup_iff.mpr hs.nodup
  rw [gids, List.nodup_append, List.nodup_append, List.nodup_append] at hnodup
  obtain ⟨-, ⟨-, -, hpending⟩, hrunning⟩ := hnodup
  rw [gids] at hmem
  rcases List.mem_append.mp hmem with hr | hmem
  · exact .inl ⟨hr, fun hp => hrunning k hr k (List.mem_append_left _ hp) rfl,
      fun hw => hrunning k hr k (List.mem_append_right _ (List.mem_append_left _ hw)) rfl⟩
  · have hr : k ∉ f.man.requestGroups.keys := fun hr => hrunning k hr k hmem rfl
    rcases List.mem_append.mp hmem with hp | hmem
    · exact .inr (.inl ⟨hr, hp, fun hw => hpending k hp k (List.mem_append_left _ hw) rfl⟩)
    · refine .inr (.inr ⟨hr, fun hp => hpending k hp k hmem rfl, ?_⟩)
      exact (List.mem_append.mp hmem).resolve_right hparser

/-- What waits at the end, behind the groups set aside or not, keeps its order. -/
theorem Moves.filter_sublist (h : Moves f₀ f) (hs : f₀.Sound)
    {before after : List Gid} (hbefore : before.Sublist f₀.queue) (hafter : after.Sublist f.queue) :
    (before.filter (· ∈ after)).Sublist after := by
  have hnodup : f₀.queue.Nodup := hs.nodup.sublist (List.sublist_append_right ..)
  have heq := filter_mem_of_sublist (hafter.trans h.order) hnodup
  have hsub := hbefore.filter fun k => decide (k ∈ after)
  rwa [heq] at hsub

end Fill

namespace RequestGroupMan

variable {m : RequestGroupMan} {out : Outside}

/-- The states of the manager over all runs. -/
def Reachable (m : RequestGroupMan) : Prop :=
  ∃ groups maxConcurrentDownloads optimizeConcurrentDownloads keepRunning uriListParser es,
    (groups.map NewGroup.gid ++ (uriListParser.getD []).flatMap UriEntry.gids).Nodup ∧
      m = exec step (new groups maxConcurrentDownloads optimizeConcurrentDownloads keepRunning
        uriListParser) es

theorem Reachable.inv (h : Reachable m) : m.Inv := by
  obtain ⟨groups, n, opt, keep, parser, es, hids, rfl⟩ := h
  exact exec_of_along (P := fun _ _ => True) (fun _ e h _ => h.step e) (inv_new hids)
    (Along.of_forall fun _ _ => trivial)

/-- `m'` is the outcome of a fill call that neither loses nor duplicates nor reorders what waited.
-/
structure KeepsWaiting (m : RequestGroupMan) (out : Outside) (m' : RequestGroupMan) : Prop where
  waiting : ∀ k ∈ m.reservedGroups.keys,
    Xor (k ∈ m'.reservedGroups.keys) (k ∈ m'.requestGroups.keys)
  order : (m.reservedGroups.keys.filter (· ∈ m'.reservedGroups.keys)).Sublist m'.reservedGroups.keys
  running : (m.removeStoppedGroup out.next).requestGroups.keys ⊆ m'.requestGroups.keys

/-- Once a group that waited before the call has been passed over, no exception leaves the call. -/
def NoneLost (m : RequestGroupMan) (out : Outside) : Prop :=
  Restores out m.keepRunning m.reservedGroups.keys false
    ((m.removeStoppedGroup out.next).toFill out).slots (m.removeStoppedGroup out.next).upcoming

theorem moves_run (ht : m.Inv) (out : Outside) :
    ((m.toFill out).run out).1.Sound ∧ Fill.Moves (m.toFill out) ((m.toFill out).run out).1 :=
  Fill.run_rule (fun _ _ _ hs h hseq => h.consider hs hseq)
    (fun _ _ entries' _ h hp _ hids => h.read hp entries' hids)
    (fun _ _ _ hs h hp => h.appended hs hp) (ht.toFill out)
    ⟨.refl _, List.prefix_refl _, .refl _, .refl _⟩

/-- Without slots the scan does not begin. -/
theorem not_open_of_no_slot (t : RequestGroupMan) (out : Outside)
    (h : (!(t.toFill out).slots.hasHttpSlot && !(t.toFill out).slots.hasBtSlot) = true) :
    ¬(t.toFill out).slots.Open := by
  rw [Bool.and_eq_true, Bool.not_eq_true', Bool.not_eq_true'] at h
  have h1 := of_decide_eq_false h.1
  have h2 := of_decide_eq_false h.2
  change ¬((0 : Nat) : Int) < max _ _
  rw [not_lt, max_le_iff]
  omega

/-- The waiting groups are kept unless an exception leaves the call after one of them has been
passed over. -/
theorem keepsWaiting_iff (h : Reachable m) (out : Outside) :
    m.KeepsWaiting out (m.fillRequestGroupFromReserver out).1 ↔ m.NoneLost out := by
  obtain ⟨ht, new, hnew⟩ := h.inv.removeStoppedGroup out.next
  have hkeep := (m.removeStoppedGroup_same out.next).keepRunning
  have hcases := fill_cases m out
  have hno := not_open_of_no_slot (m.removeStoppedGroup out.next) out
  have hrestores := Fill.restores_run out m.reservedGroups.keys
    (ht.toFill out)
  obtain ⟨-, hmoves⟩ := moves_run ht out
  have hkeys : (m.removeStoppedGroup out.next).reservedGroups.keys =
      new.map RequestGroup.getGID ++ m.reservedGroups.keys := by
    rw [IndexedList.keys, hnew, List.map_append]
    rfl
  have hnone : m.NoneLost out ↔ ((((m.removeStoppedGroup out.next).toFill out).run out).2 = true →
      (((m.removeStoppedGroup out.next).toFill out).run out).1.held m.reservedGroups.keys = false) := by
    rw [NoneLost, ← hkeep]
    exact hrestores
  generalize hstopped : m.removeStoppedGroup out.next = t at *
  have hwaits : m.reservedGroups.keys.Sublist t.reservedGroups.keys :=
    hkeys ▸ List.sublist_append_right ..
  have hbefore : m.reservedGroups.keys.Sublist (t.toFill out).queue :=
    hwaits.trans (List.sublist_append_left ..)
  have hplace := fun k (hk : k ∈ m.reservedGroups.keys) => hmoves.place (ht.toFill out)
    (k := k) (hwaits.subset hk)
  have horder := fun (after : List Gid) (hafter : after.Sublist ((t.toFill out).run out).1.queue) =>
    hmoves.filter_sublist (ht.toFill out) hbefore hafter
  have hrunning := hmoves.running.subset
  rcases hcases with ⟨hslot, heq⟩ | ⟨hescape, heq⟩ | ⟨hescape, heq⟩
  · have hyes : m.NoneLost out := by
      rw [NoneLost, hstopped]
      exact restores_of_not_open (hno hslot) _
    rw [heq]
    refine iff_of_true ⟨fun k hk => .inl ⟨hwaits.subset hk, fun hr => ?_⟩, ?_, ?_⟩ hyes
    · exact ht.disjoint hr (hwaits.subset hk)
    · exact List.filter_sublist.trans hwaits
    · rw [hstopped]
      exact List.Subset.refl _
  · rw [heq, hnone, imp_iff_right hescape]
    generalize ((t.toFill out).run out).1 = f at *
    have hheld : f.held m.reservedGroups.keys = false ↔
        ∀ k ∈ m.reservedGroups.keys, k ∉ f.pending.map RequestGroup.getGID := by
      rw [Fill.held, List.any_eq_false]
      constructor
      · intro h k hk hp
        obtain ⟨g, hg, rfl⟩ := List.mem_map.mp hp
        exact h g hg (decide_eq_true hk)
      · intro h g hg hk
        exact h g.gid (of_decide_eq_true hk) (List.mem_map_of_mem hg)
    rw [hheld]
    refine ⟨fun hkeeps k hk hp => ?_, fun hnot => ⟨fun k hk => ?_, ?_, ?_⟩⟩
    · rcases hplace k hk with ⟨-, hp', -⟩ | ⟨hr, -, hw⟩ | ⟨-, hp', -⟩
      · exact hp' hp
      · rcases hkeeps.waiting k hk with ⟨hw', -⟩ | ⟨hr', -⟩
        · exact hw hw'
        · exact hr hr'
      · exact hp' hp
    · rcases hplace k hk with ⟨hr, -, hw⟩ | ⟨-, hp, -⟩ | ⟨hr, -, hw⟩
      · exact .inr ⟨hr, hw⟩
      · exact absurd hp (hnot k hk)
      · exact .inl ⟨hw, hr⟩
    · exact horder _ ((List.sublist_append_left ..).trans (List.sublist_append_right ..))
    · rw [hstopped]
      exact hrunning
  · rw [heq]
    obtain ⟨hs, -⟩ := moves_run ht out
    have hseq := hs.seq_insert
    refine iff_of_true ?_ (hnone.mpr fun hyes => absurd (hescape.symm.trans hyes) (by decide))
    generalize ((t.toFill out).run out).1 = f at *
    have hkeys' : (f.man.reservedGroups.insert 0 f.pending).keys =
        f.pending.map RequestGroup.getGID ++ f.man.reservedGroups.keys := by
      rw [IndexedList.keys, hseq, List.map_append]
      rfl
    refine ⟨fun k hk => ?_, ?_, ?_⟩
    · change Xor (k ∈ (f.man.reservedGroups.insert 0 f.pending).keys) (k ∈ f.man.requestGroups.keys)
      rw [hkeys', List.mem_append]
      rcases hplace k hk with ⟨hr, hp, hw⟩ | ⟨hr, hp, -⟩ | ⟨hr, -, hw⟩
      · exact .inr ⟨hr, not_or.mpr ⟨hp, hw⟩⟩
      · exact .inl ⟨.inl hp, hr⟩
      · exact .inl ⟨.inr hw, hr⟩
    · refine horder _ ?_
      change ((f.man.reservedGroups.insert 0 f.pending).keys).Sublist _
      rw [hkeys', Fill.queue, ← List.append_assoc]
      exact List.sublist_append_left ..
    · rw [hstopped]
      exact hrunning

instance NoneLost.decidable (m : RequestGroupMan) (out : Outside) : Decidable (m.NoneLost out) :=
  Restores.decidable ..

/-- The first group is paused, the start-up of the second fails, and the third and the fourth take
the slots; behind them the input file has one more download and a malformed entry. -/
theorem keepsWaiting_four :
    let m := new [{ gid := 1, pauseRequested := true }, { gid := 2 }, { gid := 3 }, { gid := 4 }] 2
      false true (some [.groups [{ gid := 5 }], .error])
    let out : Outside := { startup := fun k => if k = 2 then { ends := .recoverable } else {} }
    m.KeepsWaiting out (m.fillRequestGroupFromReserver out).1 :=
  (keepsWaiting_iff ⟨_, _, _, _, _, [], by decide, rfl⟩ _).mpr (by decide +kernel)

/-- A paused group waits, and the input file goes on with a malformed entry. -/
theorem malformed_entry_counterexample :
    let m := new [{ gid := 1, pauseRequested := true }] 5 false true (some [.error])
    Reachable m ∧ ¬m.KeepsWaiting {} (m.fillRequestGroupFromReserver {}).1 := by
  refine ⟨⟨_, _, _, _, _, [], by decide, rfl⟩, fun h => ?_⟩
  rcases h.waiting 1 (by decide +kernel) with ⟨h, -⟩ | ⟨h, -⟩ <;>
    exact absurd h (by decide +kernel)

end RequestGroupMan

end FluxCore.Request
