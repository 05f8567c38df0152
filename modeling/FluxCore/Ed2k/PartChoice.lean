import FluxCore.Ed2k.Scheduling

/-!
# The part that a source is asked for

`findBestPartToDownload` promises the rarest part that the source can deliver. The parts are
gathered in buckets, one for each number of sources, and the first part that has not been asked for
lately is taken from whichever bucket has one: `rarest_iff` says when it is the rarest one.
-/

namespace FluxCore.Ed2k.DownloadCommand

variable {c : DownloadCommand} {src : PeerSource} {wallclock k : Nat}
  {buckets : OrderedMap Nat (Nat × Option Nat)}

/-- The source may have part `i`: its bitmap is empty or too short, or has the bit. -/
def MayHave (src : PeerSource) (i : Nat) : Prop :=
  src.availableParts = [] ∨ src.availableParts.length ≤ i ∨ src.availableParts[i]? = some true

instance : Decidable (MayHave src k) := inferInstanceAs (Decidable (_ ∨ _ ∨ _))

theorem mayHave_iff {i : Nat} : MayHave src i ↔ src.availableParts.getD i true = true := by
  unfold MayHave
  rw [List.getD_eq_getElem?_getD]
  cases hi : src.availableParts[i]? with
  | none => simp [List.getElem?_eq_none_iff.mp hi]
  | some b =>
    have hlt := (List.getElem?_eq_some_iff.mp hi).1
    have hne : src.availableParts ≠ [] := List.ne_nil_of_length_pos (by omega)
    simp [hne, hlt]

/-- Part `i` is incomplete, and the source may have it and is not asked for all that is missing. -/
def Deliverable (c : DownloadCommand) (src : PeerSource) (i : Nat) : Prop :=
  ∃ p, c.parts[i]? = some p ∧ p.completed = false ∧ MayHave src i ∧
    ∃ x, p.offset ≤ x ∧ x < p.limit ∧ c.Free x

/-- The number of sources that are known to have part `i`. -/
def sourceCount (c : DownloadCommand) (i : Nat) : Nat :=
  (c.parts[i]?.map fun p => p.sources.length).getD 0

/-- Part `i` has not been asked for lately. -/
def Stale (c : DownloadCommand) (wallclock i : Nat) : Prop :=
  ∃ p, c.parts[i]? = some p ∧ seconds 60 < wallclock - p.lastRequested

theorem exists_free_iff {lo limit : Int} :
    (∃ x, lo ≤ x ∧ x < limit ∧ c.Free x) ↔ c.nextFreeOffset lo limit < limit := by
  have hfirst := c.nextFreeOffset_spec lo limit
  refine ⟨fun ⟨x, hx, hx', hfree⟩ => ?_, fun h => ⟨_, hfirst.le, h, hfirst.free h⟩⟩
  by_contra hge
  exact hfirst.taken x hx (by omega) hfree

theorem wants_iff {i : Nat} {p : PartInfo} (hp : c.parts[i]? = some p) :
    c.wants src i p = true ↔ c.Deliverable src i := by
  have hiff : c.wants src i p = true ↔ p.completed = false ∧ MayHave src i ∧
      ∃ x, p.offset ≤ x ∧ x < p.limit ∧ c.Free x := by
    rw [mayHave_iff, exists_free_iff]
    simp [wants, and_assoc]
  rw [hiff]
  refine ⟨fun h => ⟨p, hp, h⟩, ?_⟩
  rintro ⟨q, hq, h⟩
  cases hp.symm.trans hq
  exact h

/-! ## The buckets -/

/-- The buckets after the parts before number `k`. -/
structure Bucketed (c : DownloadCommand) (src : PeerSource) (wallclock k : Nat)
    (buckets : OrderedMap Nat (Nat × Option Nat)) : Prop where
  first : ∀ kv ∈ buckets.entries, c.Deliverable src kv.2.1 ∧ c.sourceCount kv.2.1 = kv.1
  stale : ∀ kv ∈ buckets.entries, ∀ j ∈ kv.2.2,
    c.Deliverable src j ∧ c.sourceCount j = kv.1 ∧ c.Stale wallclock j
  /-- Every part has its bucket, which knows of a stale part if this one is stale. -/
  has : ∀ i < k, c.Deliverable src i →
    ∃ kv ∈ buckets.entries, kv.1 = c.sourceCount i ∧ (c.Stale wallclock i → kv.2.2 ≠ none)

/-- A bucket keeps what it has. -/
theorem addToBucket_eq (wallclock : Nat) (buckets : OrderedMap Nat (Nat × Option Nat)) (i : Nat)
    (p : PartInfo) : addToBucket wallclock buckets i p =
      buckets.insert p.sources.length
        (((buckets.find? p.sources.length).map Prod.fst).getD i,
          ((buckets.find? p.sources.length).bind Prod.snd).or
            (if seconds 60 < wallclock - p.lastRequested then some i else none)) := by
  unfold addToBucket
  dsimp only
  split
  next h => rw [h]; rfl
  next h => rw [h]; rfl
  next h => rw [h]; rfl

theorem Bucketed.add {p : PartInfo} (h : Bucketed c src wallclock k buckets)
    (hp : c.parts[k]? = some p) (hw : c.Deliverable src k) :
    Bucketed c src wallclock (k + 1) (addToBucket wallclock buckets k p) := by
  have hcount : c.sourceCount k = p.sources.length := by simp [sourceCount, hp]
  have hstale : c.Stale wallclock k ↔ seconds 60 < wallclock - p.lastRequested := by
    simp [Stale, hp]
  rw [addToBucket_eq, ← hcount]
  refine ⟨fun kv hkv => ?_, fun kv hkv j hj => ?_, fun i hi hdel => ?_⟩
  · rcases OrderedMap.mem_insert.mp hkv with rfl | ⟨hkv, -⟩
    · cases hfind : buckets.find? (c.sourceCount k) with
      | none => exact ⟨hw, rfl⟩
      | some v => exact h.first (_, v) (OrderedMap.mem_of_find? hfind)
    · exact h.first kv hkv
  · rcases OrderedMap.mem_insert.mp hkv with rfl | ⟨hkv, -⟩
    · rcases Option.or_eq_some_iff.mp hj with hj | ⟨-, hj⟩
      · obtain ⟨v, hfind, hv⟩ := Option.bind_eq_some_iff.mp hj
        exact h.stale _ (OrderedMap.mem_of_find? hfind) j hv
      · split at hj
        next hs =>
          cases hj
          exact ⟨hw, rfl, hstale.mpr hs⟩
        · cases hj
    · exact h.stale kv hkv j hj
  · rcases Nat.lt_succ_iff_lt_or_eq.mp hi with hi | rfl
    · obtain ⟨kv, hkv, hkey, hst⟩ := h.has i hi hdel
      by_cases heq : kv.1 = c.sourceCount k
      · refine ⟨_, OrderedMap.mem_insert.mpr (.inl rfl), heq.symm.trans hkey, fun hs => ?_⟩
        rw [show buckets.find? (c.sourceCount k) = some kv.2 from
          OrderedMap.find?_eq_some.mpr (heq ▸ hkv)]
        exact fun hnone => hst hs (Option.or_eq_none_iff.mp hnone).1
      · exact ⟨kv, OrderedMap.mem_insert.mpr (.inr ⟨hkv, heq⟩), hkey, hst⟩
    · refine ⟨_, OrderedMap.mem_insert.mpr (.inl rfl), rfl, fun hs hnone => ?_⟩
      have := (Option.or_eq_none_iff.mp hnone).2
      rw [if_pos (hstale.mp hs)] at this
      cases this

/-- All parts go into the buckets, by induction along those that are left. -/
theorem bucketed_fill (ps : List PartInfo) (k : Nat) (buckets : OrderedMap Nat (Nat × Option Nat))
    (hps : ∀ j, ps[j]? = c.parts[k + j]?)
    (h : Bucketed c src wallclock k buckets) :
    Bucketed c src wallclock (k + ps.length) (c.fillBuckets wallclock src k ps buckets) := by
  induction ps generalizing k buckets with
  | nil => exact h
  | cons p ps ih =>
    have hp : c.parts[k]? = some p := (hps 0).symm
    have hnext := ih (k + 1)
      (if c.wants src k p then addToBucket wallclock buckets k p else buckets)
      (fun j => by rw [Nat.add_right_comm, Nat.add_assoc, ← hps (j + 1), List.getElem?_cons_succ])
    rw [Nat.add_right_comm, Nat.add_assoc] at hnext
    refine hnext ?_
    split
    next hw => exact h.add hp ((wants_iff hp).mp hw)
    next hw =>
      refine ⟨h.first, h.stale, fun i hi hdel => ?_⟩
      rcases Nat.lt_succ_iff_lt_or_eq.mp hi with hi | rfl
      · exact h.has i hi hdel
      · exact absurd ((wants_iff hp).mpr hdel) hw

/-! ## The choice -/

/-- What is chosen: the rarest of the stale parts, and the rarest of all where none is stale. -/
inductive Chosen (c : DownloadCommand) (src : PeerSource) (wallclock : Nat) : Option Nat → Prop
  | nothing (h : ∀ i, ¬c.Deliverable src i) : Chosen c src wallclock none
  | stale {i : Nat} (h : c.Deliverable src i) (hs : c.Stale wallclock i)
      (hle : ∀ j, c.Deliverable src j → c.Stale wallclock j → c.sourceCount i ≤ c.sourceCount j) :
      Chosen c src wallclock (some i)
  | rarest {i : Nat} (h : c.Deliverable src i)
      (hs : ∀ j, c.Deliverable src j → ¬c.Stale wallclock j)
      (hle : ∀ j, c.Deliverable src j → c.sourceCount i ≤ c.sourceCount j) :
      Chosen c src wallclock (some i)

theorem Deliverable.lt {i : Nat} (h : c.Deliverable src i) : i < c.parts.length := by
  obtain ⟨p, hp, -⟩ := h
  exact (List.getElem?_eq_some_iff.mp hp).1

theorem findBestPartToDownload_spec {sourceIndex : Nat} (hsrc : c.sources[sourceIndex]? = some src)
    (wallclock : Nat) : Chosen c src wallclock (c.findBestPartToDownload sourceIndex wallclock) := by
  have hempty : Bucketed c src wallclock 0 .empty := ⟨nofun, nofun, nofun⟩
  have hb := bucketed_fill c.parts 0 .empty (by simp) hempty
  unfold findBestPartToDownload
  rw [hsrc]
  dsimp only
  rw [Nat.zero_add] at hb
  generalize c.fillBuckets wallclock src 0 c.parts .empty = buckets at hb
  have hfind : ∀ j, c.Deliverable src j → ∃ kv ∈ buckets.entries, kv.1 = c.sourceCount j ∧
      (c.Stale wallclock j → kv.2.2 ≠ none) := fun j hj => hb.has j hj.lt hj
  cases hstale : buckets.entries.findSome? fun kv => kv.2.2 with
  | some i =>
    obtain ⟨kv, hkv, hi, hmin⟩ := OrderedMap.findSome?_key_le hstale
    obtain ⟨h1, h2, h3⟩ := hb.stale kv hkv i hi
    refine .stale h1 h3 fun j hj hs => ?_
    obtain ⟨kv', hkv', hkey, hne⟩ := hfind j hj
    rw [h2, ← hkey]
    exact hmin kv' hkv' (hne hs)
  | none =>
    have hnone : ∀ j, c.Deliverable src j → ¬c.Stale wallclock j := by
      intro j hj hs
      obtain ⟨kv, hkv, -, hne⟩ := hfind j hj
      exact hne hs (List.findSome?_eq_none_iff.mp hstale kv hkv)
    dsimp only
    cases hentries : buckets.entries with
    | nil =>
      refine .nothing fun j hj => ?_
      obtain ⟨kv, hkv, -⟩ := hfind j hj
      rw [hentries] at hkv
      cases hkv
    | cons kv kvs =>
      obtain ⟨h1, h2⟩ := hb.first kv (by simp [hentries])
      refine .rarest h1 hnone fun j hj => ?_
      obtain ⟨kv', hkv', hkey, -⟩ := hfind j hj
      rw [h2, ← hkey]
      exact OrderedMap.head_key_le hentries hkv'

/-- What the choice promises: a part that the source can deliver whenever there is one, and none
that is rarer is left out. -/
def Rarest (c : DownloadCommand) (sourceIndex : Nat) (choice : Option Nat) : Prop :=
  let Of i := ∃ src, c.sources[sourceIndex]? = some src ∧ c.Deliverable src i
  (choice = none ↔ ∀ i, ¬Of i) ∧
    ∀ i, choice = some i → Of i ∧ ∀ j, Of j → c.sourceCount i ≤ c.sourceCount j

/-- The choice keeps its promise when no part is stale or a rarest one is. -/
theorem rarest_iff (c : DownloadCommand) (sourceIndex wallclock : Nat) :
    c.Rarest sourceIndex (c.findBestPartToDownload sourceIndex wallclock) ↔
      ∀ src, c.sources[sourceIndex]? = some src →
        (∀ i, c.Deliverable src i → ¬c.Stale wallclock i) ∨
        ∃ i, c.Deliverable src i ∧ c.Stale wallclock i ∧
          ∀ j, c.Deliverable src j → c.sourceCount i ≤ c.sourceCount j := by
  cases hsrc : c.sources[sourceIndex]? with
  | none =>
    have hnone : c.findBestPartToDownload sourceIndex wallclock = none := by
      unfold findBestPartToDownload
      rw [hsrc]
    rw [hnone]
    exact iff_of_true ⟨iff_of_true rfl (by simp [hsrc]), nofun⟩ nofun
  | some src =>
    have hof : ∀ i, (∃ src, c.sources[sourceIndex]? = some src ∧ c.Deliverable src i) ↔
        c.Deliverable src i := fun i => by simp [hsrc]
    simp only [Rarest, hof, Option.some.injEq, forall_eq']
    have hchosen := findBestPartToDownload_spec hsrc wallclock
    generalize c.findBestPartToDownload sourceIndex wallclock = choice at hchosen
    cases hchosen with
    | nothing h => exact iff_of_true ⟨iff_of_true rfl h, nofun⟩ (.inl fun i hi => absurd hi (h i))
    | rarest h hs hle =>
      refine iff_of_true ⟨iff_of_false nofun fun hn => hn _ h, ?_⟩ (.inl hs)
      rintro i ⟨⟩
      exact ⟨h, hle⟩
    | @stale i h hs hle =>
      constructor
      · rintro ⟨-, hbest⟩
        exact .inr ⟨i, h, hs, (hbest i rfl).2⟩
      · rintro (hnone | ⟨m, hm, hms, hmin⟩)
        · exact absurd hs (hnone i h)
        · refine ⟨iff_of_false nofun fun hn => hn _ h, ?_⟩
          rintro _ ⟨⟩
          exact ⟨h, fun j hj => (hle m hm hms).trans (hmin j hj)⟩

/-- A part with one source that was asked for eleven seconds ago is passed over for one with two
sources, because that one has never been asked for. -/
theorem rarest_passed_over :
    ¬Rarest
      (exec DownloadCommand.step
        (start 19456000 (List.replicate 16 0) [] { bitfieldMan := .new 1048576 19456000 } 0)
        [.addSource "10.0.0.1" 4662 0 0, .addSource "10.0.0.2" 4662 0 0,
          .partAvailability 0 [true, true], .partAvailability 1 [true, false],
          .fill ⟨seconds 50, fun _ => seconds 50, fun _ => false⟩])
      0
      (findBestPartToDownload
        (exec DownloadCommand.step
          (start 19456000 (List.replicate 16 0) [] { bitfieldMan := .new 1048576 19456000 } 0)
          [.addSource "10.0.0.1" 4662 0 0, .addSource "10.0.0.2" 4662 0 0,
            .partAvailability 0 [true, true], .partAvailability 1 [true, false],
            .fill ⟨seconds 50, fun _ => seconds 50, fun _ => false⟩])
        0 (seconds 61)) := by
  intro h
  have hle := (h.2 0 (by decide +kernel)).2 1 ⟨⟨"10.0.0.1", 4662, .new, 0, [true, true]⟩,
    by decide +kernel, ⟨9728000, 9728000, false, true, seconds 50, [0]⟩, by decide +kernel, rfl,
    by decide +kernel, exists_free_iff.mpr (by decide +kernel)⟩
  exact absurd hle (by decide +kernel)

end FluxCore.Ed2k.DownloadCommand
