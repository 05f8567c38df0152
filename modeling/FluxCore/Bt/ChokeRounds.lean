import FluxCore.Bt.Choking

/-!
# What choke rounds grant

After a round the peers in use that are not choked are those that have a slot and the one that is
unchoked optimistically, of which no run ever has two.
-/

namespace FluxCore.Bt.Choking

variable {arr : Arrangement} {now round count : Nat} {l ps peers winners : List Peer}
  {p q : Peer} {f f' : Flags} {i : Nat} {s : State}

/-! ## Peers and their ids -/

theorem id_inj (h : (ids peers).Nodup) (hp : p ∈ peers) (hq : q ∈ peers) (heq : p.id = q.id) :
    p = q := List.inj_on_of_nodup_map h hp hq heq

theorem mem_ids_iff (h : (ids peers).Nodup) (hl : l ⊆ peers) (hp : p ∈ peers) :
    p.id ∈ ids l ↔ p ∈ l := by
  constructor
  · intro hmem
    obtain ⟨q, hq, heq⟩ := List.mem_map.mp hmem
    exact id_inj h (hl hq) hp heq ▸ hq
  · exact fun hmem => List.mem_map_of_mem hmem

/-- No two of the active peers are unchoked optimistically. -/
def Optimistic (peers : List Peer) (f : Flags) : Prop :=
  ∀ p ∈ peers, ∀ q ∈ peers, p.active = true → q.active = true →
    f.optUnchoking p.id = true → f.optUnchoking q.id = true → p.id = q.id

theorem Optimistic.mono (h : Optimistic peers f)
    (hf : ∀ p ∈ peers, p.active = true → f'.optUnchoking p.id = true → f.optUnchoking p.id = true) :
    Optimistic peers f' := fun p hp q hq hpa hqa hpo hqo =>
  h p hp q hq hpa hqa (hf p hp hpa hpo) (hf q hq hqa hqo)

/-- All that are unchoked optimistically have one id. -/
theorem Optimistic.of_forall
    (h : ∃ i, ∀ p ∈ peers, p.active = true → f.optUnchoking p.id = true → p.id = i) :
    Optimistic peers f := fun p hp q hq hpa hqa hpo hqo => by
  obtain ⟨i, hi⟩ := h
  rw [hi p hp hpa hpo, hi q hq hqa hqo]

theorem Optimistic.of_chosen {chosen : Option Peer}
    (h : ∀ p ∈ peers, p.active = true → f.optUnchoking p.id = true → p ∈ chosen) :
    Optimistic peers f := fun p hp q hq hpa hqa hpo hqo => by
  rw [Option.mem_unique (h p hp hpa hpo) (h q hq hqa hqo)]

/-! ## Slots -/

/-- The peers `winners` have the slots of a round that are not given optimistically. -/
structure Grants (peers winners : List Peer) (slots : Nat) (f : Flags) : Prop where
  slots : winners.length ≤ slots
  unchoked : ∀ p ∈ peers, p.active = true →
    (f.shouldBeChoking p.id = false ↔ p ∈ winners ∨ f.optUnchoking p.id = true)
  optimistic : Optimistic peers f

/-- The active peers that are not to be choked. -/
def unchokedPeers (peers : List Peer) (f : Flags) : List Peer :=
  peers.filter fun p => p.active && !f.shouldBeChoking p.id

theorem Optimistic.length_le (h : Optimistic peers f) (hids : (ids peers).Nodup) :
    (peers.filter fun p => p.active && f.optUnchoking p.id).length ≤ 1 := by
  have hnodup : (peers.filter fun p => p.active && f.optUnchoking p.id).Nodup :=
    (List.Nodup.of_map _ hids).filter _
  have hmem : ∀ p ∈ peers.filter (fun p => p.active && f.optUnchoking p.id),
      p ∈ peers ∧ p.active = true ∧ f.optUnchoking p.id = true := fun p hp => by
    simpa using List.mem_filter.mp hp
  generalize peers.filter (fun p => p.active && f.optUnchoking p.id) = held at *
  match held with
  | [] => exact Nat.zero_le 1
  | [_] => exact Nat.le_refl 1
  | p :: q :: held =>
    obtain ⟨hp, hpa, hpo⟩ := hmem p (.head _)
    obtain ⟨hq, hqa, hqo⟩ := hmem q (.tail _ (.head _))
    have heq := id_inj hids hp hq (h p hp q hq hpa hqa hpo hqo)
    exact absurd (heq ▸ List.mem_cons_self) (List.nodup_cons.mp hnodup).1

/-- Where all active peers were choked and the winners have been unchoked, the others that are not
choked are unchoked optimistically. -/
theorem unchoked_of (hids : (ids peers).Nodup) (hsub : winners ⊆ peers)
    (hchoked : ∀ p ∈ peers, p.active = true → f.chokingRequired p.id = true)
    (hc : ∀ i, f'.chokingRequired i = true ↔ i ∉ ids winners ∧ f.chokingRequired i = true)
    (p : Peer) (hp : p ∈ peers) (hactive : p.active = true) :
    f'.shouldBeChoking p.id = false ↔ p ∈ winners ∨ f'.optUnchoking p.id = true := by
  have hreq := hc p.id
  rw [hchoked p hp hactive, and_iff_left rfl, mem_ids_iff hids hsub hp] at hreq
  unfold Flags.shouldBeChoking
  grind

/-- Beside the slots there is the optimistic one. -/
theorem Grants.length_le (h : Grants peers winners count f) (hids : (ids peers).Nodup) :
    (unchokedPeers peers f).length ≤ count + 1 := by
  have hsub : unchokedPeers peers f ⊆
      winners ++ peers.filter fun p => p.active && f.optUnchoking p.id := by
    intro p hp
    obtain ⟨hp, hactive, hchoke⟩ :
        p ∈ peers ∧ p.active = true ∧ f.shouldBeChoking p.id = false := by
      simpa [unchokedPeers] using hp
    refine List.mem_append.mpr (((h.unchoked p hp hactive).mp hchoke).imp_right fun ho => ?_)
    exact List.mem_filter.mpr ⟨hp, by rw [hactive, ho, Bool.and_self]⟩
  have hnodup : (unchokedPeers peers f).Nodup := (List.Nodup.of_map _ hids).filter _
  calc (unchokedPeers peers f).length
      ≤ (winners ++ peers.filter fun p => p.active && f.optUnchoking p.id).length :=
        (List.subperm_of_subset hnodup hsub).length_le
    _ ≤ count + 1 := by
        rw [List.length_append]
        exact Nat.add_le_add h.slots (h.optimistic.length_le hids)

/-! ## The peers that take part -/

def entries (takesPart : Peer → Bool) (peers : List Peer) : List Peer :=
  peers.filter fun p => p.active && takesPart p

variable {takesPart : Peer → Bool}

theorem mem_entries : p ∈ entries takesPart peers ↔
    p ∈ peers ∧ p.active = true ∧ takesPart p = true := by
  rw [entries, List.mem_filter, Bool.and_eq_true_iff]

/-- The flags when all entries have been collected. -/
structure Collected (takesPart : Peer → Bool) (peers : List Peer) (f f' : Flags) : Prop where
  choked : ∀ p ∈ peers, p.active = true → f'.chokingRequired p.id = true
  passedOver : ∀ p ∈ peers, p.active = true → takesPart p = false → ¬f'.optUnchoking p.id = true
  kept : ∀ i, f'.optUnchoking i = true → f.optUnchoking i = true

theorem collected (takesPart : Peer → Bool) (peers : List Peer) (f : Flags) :
    (collect takesPart peers f).1 = entries takesPart peers ∧
      Collected takesPart peers f (collect takesPart peers f).2 := by
  obtain ⟨hl, hc, ho⟩ := collect_spec takesPart peers f
  refine ⟨hl, fun p hp hactive => (hc p.id).mpr (.inl ?_), fun p hp hactive hpart hopt => ?_,
    fun i hi => ((ho i).mp hi).2⟩
  · exact List.mem_map_of_mem (List.mem_filter.mpr ⟨hp, hactive⟩)
  · exact ((ho p.id).mp hopt).1 (List.mem_map_of_mem (by simp [hp, hactive, hpart]))

/-- An active peer without an entry does not take part. -/
theorem not_takesPart (hp : p ∈ peers) (hactive : p.active = true)
    (hnot : p.id ∉ ids (entries takesPart peers)) : takesPart p = false :=
  Bool.eq_false_iff.mpr fun hpart =>
    hnot (List.mem_map_of_mem (mem_entries.mpr ⟨hp, hactive, hpart⟩))

theorem notMem_entries (h : takesPart p = false) : p ∉ entries takesPart peers := fun hmem => by
  rw [mem_entries, h] at hmem
  exact Bool.false_ne_true hmem.2.2

/-- Where the entries have lost the optimistic flag and a chosen one has got it, no other active
peer has it. -/
theorem Collected.chosen (h : Collected takesPart peers f f') (hids : (ids peers).Nodup)
    {chosen : Option Peer} (hchosen : ∀ p ∈ chosen, p ∈ entries takesPart peers) {f'' : Flags}
    (ho : ∀ i, f''.optUnchoking i = true ↔
      (∃ p ∈ chosen, i = p.id) ∨ i ∉ ids (entries takesPart peers) ∧ f'.optUnchoking i = true)
    (p : Peer) (hp : p ∈ peers) (hactive : p.active = true) (hopt : f''.optUnchoking p.id = true) :
    p ∈ chosen := by
  rcases (ho p.id).mp hopt with ⟨c, hc, heq⟩ | ⟨hnot, hopt⟩
  · exact id_inj hids hp (mem_entries.mp (hchosen c hc)).1 heq ▸ hc
  · exact absurd hopt (h.passedOver p hp hactive (not_takesPart hp hactive hnot))

/-! ## The leecher's round -/

namespace Leecher

/-- The peers that take part. -/
def entries (peers : List Peer) : List Peer := Choking.entries (fun p => !p.snubbing) peers

/-- The interested ones of the first three. -/
def regular (arr : Arrangement) (now : Nat) (peers : List Peer) : List Peer :=
  ((order arr now (entries peers)).take 3).filter (·.peerInterested)

theorem order_perm (arr : Arrangement) (now : Nat) (l : List Peer) : (order arr now l).Perm l :=
  ((arr.sort_perm ..).append (arr.shuffle_perm ..)).trans (List.filter_append_perm ..)

theorem regular_subset (arr : Arrangement) (now : Nat) (peers : List Peer) :
    regular arr now peers ⊆ entries peers := fun _ hp =>
  (order_perm arr now _).subset (List.mem_of_mem_take (List.mem_of_mem_filter hp))

theorem length_regular_le (arr : Arrangement) (now : Nat) (peers : List Peer) :
    (regular arr now peers).length ≤ 3 :=
  (List.length_filter_le ..).trans (List.length_take_le ..)

/-- All flags of the entries go, and one of those that may get one has it. -/
theorem plannedOptimisticUnchoke_spec (arr : Arrangement) (l : List Peer) (f : Flags) :
    (plannedOptimisticUnchoke arr l f).chokingRequired = f.chokingRequired ∧
      ∃ chosen : Option Peer, (∀ p ∈ chosen, p ∈ l) ∧
        ∀ i, (plannedOptimisticUnchoke arr l f).optUnchoking i = true ↔
          (∃ p ∈ chosen, i = p.id) ∨ i ∉ ids l ∧ f.optUnchoking i = true := by
  obtain ⟨hc, ho⟩ := foldl_setOptUnchoking l f
  unfold plannedOptimisticUnchoke
  dsimp only
  split
  next => exact ⟨hc, none, nofun, fun i => by simp [ho]⟩
  next p _ hshuffle =>
    have hp : p ∈ l :=
      List.mem_of_mem_filter ((arr.shuffle_perm 0 _).subset (hshuffle ▸ List.mem_cons_self))
    refine ⟨hc, some p, fun q hq => Option.some.inj hq ▸ hp, fun i => ?_⟩
    rw [optUnchoking_setOptUnchoking]
    have hflag := ho i
    grind

/-- The peers that get a slot lose the optimistic flag. -/
theorem regularLoop_spec (count : Nat) (ps : List Peer) (f : Flags) (fast : Bool) :
    (∀ i, (regularLoop count ps (f, fast)).1.chokingRequired i = true ↔
        i ∉ ids ((ps.take count).filter (·.peerInterested)) ∧ f.chokingRequired i = true) ∧
      (∀ i, (regularLoop count ps (f, fast)).1.optUnchoking i = true ↔
        i ∉ ids ((ps.take count).filter (·.peerInterested)) ∧ f.optUnchoking i = true) ∧
      ((regularLoop count ps (f, fast)).2 = true ↔ fast = true ∨
        ∃ p ∈ (ps.take count).filter (·.peerInterested), f.optUnchoking p.id = true) := by
  induction count generalizing ps f fast with
  | zero => simp [regularLoop, ids]
  | succ count ih =>
    cases ps with
    | nil => simp [regularLoop, ids]
    | cons p ps =>
      rw [regularLoop, List.take_succ_cons, List.filter_cons]
      cases hint : p.peerInterested with
      | false => exact ih ps f fast
      | true =>
        cases hopt : f.optUnchoking p.id with
        | false =>
          obtain ⟨hc, ho, hfast⟩ := ih ps (f.setChokingRequired p.id false) fast
          simp only [optUnchoking_setChokingRequired, chokingRequired_setChokingRequired]
            at hc ho hfast
          simp only [Bool.not_true, Bool.false_eq_true, if_false, if_true,
            optUnchoking_setChokingRequired, hopt, mem_ids_cons, List.mem_cons]
          refine ⟨fun i => (hc i).trans ?_, fun i => (ho i).trans ?_, hfast.trans ?_⟩
          all_goals grind
        | true =>
          obtain ⟨hc, ho, hfast⟩ :=
            ih ps ((f.setChokingRequired p.id false).setOptUnchoking p.id false) true
          simp only [optUnchoking_setChokingRequired, chokingRequired_setChokingRequired,
            optUnchoking_setOptUnchoking, chokingRequired_setOptUnchoking] at hc ho hfast
          simp only [Bool.not_true, Bool.false_eq_true, if_false, if_true,
            optUnchoking_setChokingRequired, hopt, mem_ids_cons, List.mem_cons]
          refine ⟨fun i => (hc i).trans ?_, fun i => (ho i).trans ?_, hfast.trans ?_⟩
          all_goals grind

/-- The optimistic flag of a peer that gets a slot goes to one of those that have one. -/
theorem regularUnchoke_spec (arr : Arrangement) (now : Nat) (l : List Peer) (f : Flags) :
    let winners := ((order arr now l).take 3).filter (·.peerInterested)
    (∀ i, (regularUnchoke arr now l f).chokingRequired i = true ↔
        i ∉ ids winners ∧ f.chokingRequired i = true) ∧
      ((∀ i, (regularUnchoke arr now l f).optUnchoking i = true → f.optUnchoking i = true) ∨
        ∃ given ∈ winners, (∃ p ∈ winners, f.optUnchoking p.id = true) ∧
          ∀ i, (regularUnchoke arr now l f).optUnchoking i = true ↔
            i = given.id ∨ i ∉ ids winners ∧ f.optUnchoking i = true) := by
  intro winners
  obtain ⟨hc, ho, hfast⟩ := regularLoop_spec 3 (order arr now l) f false
  unfold regularUnchoke
  dsimp only
  split
  next h =>
    obtain ⟨p, hp, hopt⟩ := (hfast.mp h).resolve_left Bool.false_ne_true
    -- the first interested peer is one of the first three, as there is one among them
    obtain ⟨given, hgiven⟩ : ∃ given, winners.head? = some given :=
      Option.isSome_iff_exists.mp (List.isSome_head?.mpr (List.ne_nil_of_mem hp))
    have hfind : (order arr now l).find? (·.peerInterested) = some given := by
      have htake : ((order arr now l).take 3).find? (·.peerInterested) = some given := by
        rw [← List.head?_filter]
        exact hgiven
      rw [← List.take_append_drop 3 (order arr now l), List.find?_append, htake, Option.some_or]
    rw [hfind]
    dsimp only
    refine ⟨hc, .inr ⟨given, List.mem_of_mem_head? hgiven, ⟨p, hp, hopt⟩, fun i => ?_⟩⟩
    rw [optUnchoking_setOptUnchoking]
    have hflag := ho i
    grind
  next => exact ⟨hc, .inl fun i hi => ((ho i).mp hi).2⟩

theorem optimistic_regularUnchoke (arr : Arrangement) (now : Nat) (hl : l ⊆ entries peers)
    (h : Optimistic peers f) : Optimistic peers (regularUnchoke arr now l f) := by
  obtain ⟨-, hkeeps | ⟨given, -, ⟨p, hp, hopt⟩, ho⟩⟩ := regularUnchoke_spec arr now l f
  · exact h.mono fun p _ _ => hkeeps p.id
  · refine .of_forall ⟨given.id, fun q hq hqa hqo => ((ho q.id).mp hqo).resolve_right ?_⟩
    rintro ⟨hnot, hqo⟩
    obtain ⟨hp', hpa, -⟩ := mem_entries.mp
      (hl ((order_perm arr now l).subset (List.mem_of_mem_take (List.mem_of_mem_filter hp))))
    have heq := h q hq p hp' hqa hpa hqo hopt
    exact hnot (heq ▸ List.mem_map_of_mem hp)

/-- The flags before the slots are given. -/
def beforeRegular (arr : Arrangement) (round : Nat) (peers : List Peer) (f : Flags) : Flags :=
  let r := collect (fun p => !p.snubbing) peers f
  if round = 0 then plannedOptimisticUnchoke arr r.1 r.2 else r.2

/-- Every active peer is choked, no snubbing one has the optimistic flag, and only one peer has
it. -/
theorem beforeRegular_spec (arr : Arrangement) (round : Nat) (hids : (ids peers).Nodup)
    (h : Optimistic peers f) :
    (∀ p ∈ peers, p.active = true →
        (beforeRegular arr round peers f).chokingRequired p.id = true) ∧
      (∀ p ∈ peers, p.active = true → p.snubbing = true →
        ¬(beforeRegular arr round peers f).optUnchoking p.id = true) ∧
      Optimistic peers (beforeRegular arr round peers f) := by
  obtain ⟨hl, hcol⟩ := collected (fun p => !p.snubbing) peers f
  have hsnubbing : ∀ p ∈ peers, p.active = true → p.snubbing = true →
      ¬(collect (fun p => !p.snubbing) peers f).2.optUnchoking p.id = true :=
    fun p hp hactive hsnub => hcol.passedOver p hp hactive (by rw [hsnub]; rfl)
  unfold beforeRegular
  dsimp only
  rw [hl]
  split
  next =>
    obtain ⟨hc, chosen, hchosen, ho⟩ := plannedOptimisticUnchoke_spec arr
      (Choking.entries (fun p => !p.snubbing) peers) (collect (fun p => !p.snubbing) peers f).2
    have hone := hcol.chosen hids hchosen ho
    refine ⟨fun p hp hactive => ?_, fun p hp hactive hsnub hopt => ?_, .of_chosen hone⟩
    · rw [hc]
      exact hcol.choked p hp hactive
    · exact notMem_entries (by rw [hsnub]; rfl) (hchosen p (hone p hp hactive hopt))
  next => exact ⟨hcol.choked, hsnubbing, h.mono fun p _ _ hopt => hcol.kept p.id hopt⟩

/-- A round of the leecher. -/
theorem executeChoke_grants (arr : Arrangement) (now round : Nat) (hids : (ids peers).Nodup)
    (h : Optimistic peers f) :
    Grants peers (regular arr now peers) 3 (executeChoke arr now round peers f) ∧
      ∀ p ∈ peers, p.active = true → p.snubbing = true →
        (executeChoke arr now round peers f).shouldBeChoking p.id = true := by
  obtain ⟨hchoked, hsnubbing, hopt⟩ := beforeRegular_spec arr round hids h
  have hround : executeChoke arr now round peers f =
      regularUnchoke arr now (entries peers) (beforeRegular arr round peers f) := by
    rw [entries, ← (collected (fun p => !p.snubbing) peers f).1]
    rfl
  obtain ⟨hc, ho⟩ := regularUnchoke_spec arr now (entries peers) (beforeRegular arr round peers f)
  have hone := optimistic_regularUnchoke arr now (fun _ h => h) hopt
  rw [← hround] at hc ho hone
  have hsub : regular arr now peers ⊆ peers := fun p hp =>
    (mem_entries.mp (regular_subset arr now peers hp)).1
  have hunchoked := unchoked_of hids hsub hchoked hc
  refine ⟨⟨length_regular_le arr now peers, hunchoked, hone⟩, fun p hp hactive hsnub => ?_⟩
  have hnot : p ∉ regular arr now peers := fun hmem =>
    notMem_entries (by rw [hsnub]; rfl) (regular_subset arr now peers hmem)
  rw [← Bool.not_eq_false, hunchoked p hp hactive, not_or]
  refine ⟨hnot, fun hopt' => ?_⟩
  rcases ho with hkeeps | ⟨given, hgiven, -, ho⟩
  · exact hsnubbing p hp hactive hsnub (hkeeps p.id hopt')
  · rcases (ho p.id).mp hopt' with heq | ⟨-, hopt'⟩
    · exact hnot (id_inj hids hp (hsub hgiven) heq ▸ hgiven)
    · exact hsnubbing p hp hactive hsnub hopt'

theorem strictWeak_lt : StrictWeak lt where
  asymm a b := by simp [lt]; omega
  trans a b c := by simp [lt]; omega

end Leecher

/-! ## The seeder's round -/

namespace Seeder

/-- The peers that take part. -/
def entries (peers : List Peer) : List Peer := Choking.entries (·.peerInterested) peers

def slots (round : Nat) : Nat := if round = 2 then 4 else 3

/-- The first ones. -/
def regular (arr : Arrangement) (now round : Nat) (peers : List Peer) : List Peer :=
  (arr.sort (lt now) (entries peers)).take (slots round)

theorem regular_subset (arr : Arrangement) (now round : Nat) (peers : List Peer) :
    regular arr now round peers ⊆ entries peers := fun _ hp =>
  (arr.sort_perm ..).subset (List.mem_of_mem_take hp)

/-- The first ones get a slot. In the rounds 0 and 1 one of the others has the optimistic flag. -/
theorem unchoke_spec (arr : Arrangement) (now round : Nat) (l : List Peer) (f : Flags) :
    let sorted := arr.sort (lt now) l
    (∀ i, (unchoke arr now round l f).chokingRequired i = true ↔
        i ∉ ids (sorted.take (slots round)) ∧ f.chokingRequired i = true) ∧
      (round < 2 → ∃ chosen : Option Peer, (∀ p ∈ chosen, p ∈ sorted.drop (slots round)) ∧
        ∀ i, (unchoke arr now round l f).optUnchoking i = true ↔
          (∃ p ∈ chosen, i = p.id) ∨ i ∉ ids l ∧ f.optUnchoking i = true) ∧
      (2 ≤ round → (unchoke arr now round l f).optUnchoking = f.optUnchoking) := by
  intro sorted
  obtain ⟨ho, hc⟩ := foldl_setChokingRequired (sorted.take (slots round)) f
  have hids (i : Nat) : i ∈ ids sorted ↔ i ∈ ids l := ((arr.sort_perm (lt now) l).map _).mem_iff
  -- the flags after the first loop
  generalize hf : (sorted.take (slots round)).foldl
    (fun f p => f.setChokingRequired p.id false) f = f' at ho hc
  unfold unchoke
  dsimp only
  rw [← slots, hf]
  by_cases hround : round < 2
  · obtain ⟨hc', ho'⟩ := foldl_setOptUnchoking sorted f'
    rw [ho] at ho'
    rw [if_pos hround]
    split
    next =>
      refine ⟨fun i => ?_, fun _ => ⟨none, nofun, fun i => ?_⟩, fun h => absurd hround (by omega)⟩
      · rw [hc']
        exact hc i
      · rw [ho', hids]
        simp
    next p _ hshuffle =>
      have hp : p ∈ sorted.drop (slots round) :=
        (arr.shuffle_perm 0 _).subset (hshuffle ▸ List.mem_cons_self)
      refine ⟨fun i => ?_, fun _ => ⟨some p, fun q hq => Option.some.inj hq ▸ hp, fun i => ?_⟩,
        fun h => absurd hround (by omega)⟩
      · rw [chokingRequired_setOptUnchoking, hc']
        exact hc i
      · rw [optUnchoking_setOptUnchoking]
        have hflag := ho' i
        have hmem := hids i
        grind
  · rw [if_neg hround]
    exact ⟨hc, fun h => absurd h hround, fun _ => ho⟩

theorem length_regular_le (arr : Arrangement) (now round : Nat) (peers : List Peer) :
    (regular arr now round peers).length ≤ slots round := List.length_take_le ..

/-- A round of the seeder. -/
theorem executeChoke_grants (arr : Arrangement) (now round : Nat) (hids : (ids peers).Nodup)
    (h : Optimistic peers f) :
    Grants peers (regular arr now round peers) (slots round)
        (executeChoke arr now round peers f) ∧
      (∀ p ∈ peers, p.active = true → p.peerInterested = false →
        (executeChoke arr now round peers f).shouldBeChoking p.id = true) ∧
      (round < 2 → ∀ p ∈ regular arr now round peers,
        (executeChoke arr now round peers f).optUnchoking p.id = false) := by
  obtain ⟨hl, hcol⟩ := collected (·.peerInterested) peers f
  obtain ⟨hc, hearly, hlate⟩ :=
    unchoke_spec arr now round (entries peers) (collect (·.peerInterested) peers f).2
  have hround : executeChoke arr now round peers f =
      unchoke arr now round (entries peers) (collect (·.peerInterested) peers f).2 := by
    rw [entries, ← hl]
    rfl
  rw [← hround] at hc hearly hlate
  have hsorted : arr.sort (lt now) (entries peers) ⊆ entries peers := (arr.sort_perm ..).subset
  have hsub : regular arr now round peers ⊆ peers := fun p hp =>
    (mem_entries.mp (regular_subset arr now round peers hp)).1
  -- who has the optimistic flag in the rounds that give it
  have hchosen : round < 2 → ∃ chosen : Option Peer,
      (∀ p ∈ chosen, p ∈ (arr.sort (lt now) (entries peers)).drop (slots round)) ∧
        ∀ p ∈ peers, p.active = true →
          (executeChoke arr now round peers f).optUnchoking p.id = true → p ∈ chosen := by
    intro hr
    obtain ⟨chosen, hdrop, ho⟩ := hearly hr
    exact ⟨chosen, hdrop,
      hcol.chosen hids (fun p hp => hsorted (List.mem_of_mem_drop (hdrop p hp))) ho⟩
  have hunchoked := unchoked_of hids hsub hcol.choked hc
  refine ⟨⟨length_regular_le .., hunchoked, ?_⟩, fun p hp hactive hint => ?_, fun hr p hp => ?_⟩
  · rcases Nat.lt_or_ge round 2 with hr | hr
    · obtain ⟨chosen, -, hone⟩ := hchosen hr
      exact .of_chosen hone
    · exact h.mono fun p _ _ hopt => hcol.kept p.id (hlate hr ▸ hopt)
  · have hnot : p ∉ entries peers := notMem_entries hint
    rw [← Bool.not_eq_false, hunchoked p hp hactive, not_or]
    refine ⟨fun hmem => hnot (regular_subset arr now round peers hmem), fun hopt => ?_⟩
    rcases Nat.lt_or_ge round 2 with hr | hr
    · obtain ⟨chosen, hdrop, hone⟩ := hchosen hr
      exact hnot (hsorted (List.mem_of_mem_drop (hdrop p (hone p hp hactive hopt))))
    · rw [hlate hr] at hopt
      exact hcol.passedOver p hp hactive hint hopt
  · obtain ⟨chosen, hdrop, hone⟩ := hchosen hr
    obtain ⟨hmem, hactive, -⟩ := mem_entries.mp (regular_subset arr now round peers hp)
    have hnodup : (arr.sort (lt now) (entries peers)).Nodup :=
      (arr.sort_perm ..).nodup_iff.mpr ((List.Nodup.of_map _ hids).filter _)
    exact Bool.eq_false_iff.mpr fun hopt => List.disjoint_take_drop hnodup (Nat.le_refl _) hp
      (hdrop p (hone p hmem hactive hopt))

theorem lt_eq_false_iff (now : Nat) (a b : Peer) : lt now a b = false ↔
    ¬(0 < a.outstandingUpload ∧ b.outstandingUpload = 0) ∧
      (a.outstandingUpload = 0 ∧ 0 < b.outstandingUpload ∨
        ¬(recentUnchoking now a = true ∧ b.lastAmUnchoking < a.lastAmUnchoking) ∧
          (recentUnchoking now b = true ∨ a.uploadSpeed ≤ b.uploadSpeed)) := by
  unfold lt
  split
  next h => simp [h]
  next h =>
    split
    next h' => simp [h']
    next h' => grind

theorem recentUnchoking_mono {a b : Peer} (h : recentUnchoking now a = true)
    (hle : a.lastAmUnchoking ≤ b.lastAmUnchoking) : recentUnchoking now b = true := by
  rw [recentUnchoking, decide_eq_true_iff] at h ⊢
  exact Nat.lt_of_le_of_lt (Nat.sub_le_sub_left hle now) h

theorem strictWeak_lt (now : Nat) : StrictWeak (lt now) where
  asymm a b h := by
    rw [lt_eq_false_iff]
    have hnot := mt (lt_eq_false_iff now a b).mpr (by simp [h])
    grind
  trans a b c hab hbc := by
    rw [lt_eq_false_iff] at hab hbc ⊢
    -- who is recent is decided by the time alone
    have hac := @recentUnchoking_mono now a c
    have hba := @recentUnchoking_mono now b a
    have hcb := @recentUnchoking_mono now c b
    have hab' := @recentUnchoking_mono now a b
    have hbc' := @recentUnchoking_mono now b c
    grind

/-- No peer without a slot comes before one with a slot. -/
theorem served_first (hp : p ∈ entries peers) (hnot : p ∉ regular arr now round peers)
    (hq : q ∈ regular arr now round peers) : lt now p q = false := by
  have hpair := arr.sort_sorted _ (strictWeak_lt now) (entries peers)
  have hmem := (arr.sort_perm (lt now) (entries peers)).symm.subset hp
  rw [← List.take_append_drop (slots round) (arr.sort (lt now) (entries peers))] at hpair hmem
  exact (List.pairwise_append.mp hpair).2.2 q hq p ((List.mem_append.mp hmem).resolve_left hnot)

end Seeder

/-! ## Runs -/

namespace State

structure Inv (s : State) : Prop where
  ids : (ids s.usedPeers).Nodup
  optimistic : Optimistic s.usedPeers s.flags
  seederRound : s.seederRound ≤ 2

theorem inv_empty : Inv {} := ⟨List.nodup_nil, nofun, by decide⟩

theorem nextRound_le (h : round ≤ 2) : nextRound round ≤ 2 := by
  unfold nextRound
  split <;> omega

theorem mem_modify {g : Peer → Peer} (hg : ∀ p : Peer, p.id = i → (g p).id = i)
    (hp : p ∈ (s.modify i g).usedPeers) : ∃ q ∈ s.usedPeers, q.id = p.id ∧
      p = if q.id = i then g q else q := by
  obtain ⟨q, hq, rfl⟩ := List.mem_map.mp hp
  refine ⟨q, hq, ?_, rfl⟩
  split
  next h => rw [hg q h, h]
  next => rfl

theorem ids_modify {g : Peer → Peer} (hg : ∀ p : Peer, p.id = i → (g p).id = i) :
    Choking.ids (s.modify i g).usedPeers = Choking.ids s.usedPeers := by
  refine List.map_map.trans (List.map_congr_left fun p _ => ?_)
  change (if p.id = i then g p else p).id = p.id
  split
  next h => rw [hg p h, h]
  next => rfl

/-- A peer is modified that keeps its id; where it becomes active, it loses the optimistic flag. -/
theorem Inv.modify (h : s.Inv) {g : Peer → Peer} (hg : ∀ p : Peer, p.id = i → (g p).id = i)
    (hf : ∀ j, f.optUnchoking j = true → s.flags.optUnchoking j = true)
    (hactive : ∀ p : Peer, p.id = i → (g p).active = true →
      p.active = true ∨ f.optUnchoking i = false) :
    Inv { s.modify i g with flags := f } := by
  refine ⟨(ids_modify hg).symm ▸ h.ids, ?_, h.seederRound⟩
  have hback : ∀ p ∈ (s.modify i g).usedPeers, p.active = true → f.optUnchoking p.id = true →
      ∃ q ∈ s.usedPeers, q.id = p.id ∧ q.active = true := by
    intro p hp hpa hpo
    obtain ⟨q, hq, heq, rfl⟩ := mem_modify hg hp
    refine ⟨q, hq, heq, ?_⟩
    rw [← heq] at hpo
    split at hpa
    next hid =>
      refine (hactive q hid hpa).resolve_right fun hno => ?_
      rw [hid, hno] at hpo
      exact Bool.false_ne_true hpo
    next => exact hpa
  intro p hp q hq hpa hqa hpo hqo
  obtain ⟨p', hp', heq, hpa'⟩ := hback p hp hpa hpo
  obtain ⟨q', hq', heq', hqa'⟩ := hback q hq hqa hqo
  rw [← heq, ← heq']
  exact h.optimistic p' hp' q' hq' hpa' hqa' (heq ▸ hf p.id hpo) (heq' ▸ hf q.id hqo)

theorem Inv.step (h : s.Inv) (e : Event) : (s.step e).Inv := by
  have hreset (i j : Nat) (hj : (s.resetFlags i).flags.optUnchoking j = true) :
      j ≠ i ∧ s.flags.optUnchoking j = true := by
    simpa [resetFlags] using hj
  cases e with
  | checkout p =>
    rw [State.step]
    split
    next => exact h
    next hnew =>
      refine ⟨List.nodup_cons.mpr ⟨hnew, h.ids⟩, ?_, h.seederRound⟩
      intro a ha b hb haa hba
      rcases List.mem_cons.mp ha with rfl | ha
      · exact absurd haa Bool.false_ne_true
      rcases List.mem_cons.mp hb with rfl | hb
      · exact absurd hba Bool.false_ne_true
      exact h.optimistic a ha b hb haa hba
  | erase i =>
    refine ⟨h.ids.sublist (List.filter_sublist.map _), fun p hp q hq => ?_, h.seederRound⟩
    exact h.optimistic p (List.mem_of_mem_filter hp) q (List.mem_of_mem_filter hq)
  | allocateSessionResource i =>
    refine h.modify (fun p hp => hp) (fun j hj => (hreset i j hj).2) fun _ _ _ => .inr ?_
    exact Bool.eq_false_iff.mpr fun hi => (hreset i i hi).1 rfl
  | releaseSessionResource i =>
    exact h.modify (fun p hp => hp) (fun _ hj => hj) fun _ _ hactive =>
      absurd hactive Bool.false_ne_true
  | snubbing i b =>
    cases b with
    | false => exact h.modify (fun p hp => hp) (fun _ hj => hj) fun _ _ hactive => .inl hactive
    | true =>
      exact h.modify (fun p hp => hp) (fun j hj => (hreset i j hj).2)
        fun _ _ hactive => .inl hactive
  | progress p =>
    exact h.modify (fun _ _ => rfl) (fun _ hj => hj) fun _ _ hactive => .inl hactive
  | leecherChoke arr now =>
    exact ⟨h.ids, (Leecher.executeChoke_grants arr now _ h.ids h.optimistic).1.optimistic,
      h.seederRound⟩
  | seederChoke arr now =>
    exact ⟨h.ids, (Seeder.executeChoke_grants arr now _ h.ids h.optimistic).1.optimistic,
      nextRound_le h.seederRound⟩

theorem inv_exec (es : List Event) : (exec State.step {} es).Inv :=
  exec_of_along (P := fun _ _ => True) (fun _ e h _ => h.step e) inv_empty
    (.of_forall fun _ _ => trivial)

/-- Sorts by insertion and shuffles nothing. -/
def insertionArrangement : Arrangement where
  sort lt l := l.insertionSort fun a b => lt b a = false
  shuffle _ l := l
  sort_perm _ l := List.perm_insertionSort _ l
  sort_sorted lt h l := by
    have : IsTrans Peer fun a b => lt b a = false := ⟨fun a b c hab hbc => h.trans c b a hbc hab⟩
    have : Std.Total fun a b => lt b a = false := ⟨fun a b => by
      cases hab : lt b a with
      | false => exact .inl rfl
      | true => exact .inr (h.asymm b a hab)⟩
    exact List.pairwise_insertionSort _ l
  shuffle_perm _ l := .refl l

/-- Six peers come into use, one of which snubs. -/
def six : List Event :=
  let peers : List Peer := [
    { id := 1, peerInterested := true, downloadSpeed := 10 },
    { id := 2, peerInterested := true, downloadSpeed := 50 },
    { id := 3, downloadSpeed := 90 },
    { id := 4, peerInterested := true, downloadSpeed := 30 },
    { id := 5, peerInterested := true, downloadSpeed := 70 },
    { id := 6, peerInterested := true, downloadSpeed := 5 }]
  (peers.flatMap fun p => [.checkout p, .allocateSessionResource p.id, .progress p]) ++
    [.snubbing 2 true]

/-- In every run, a round of the seeder leaves at most four peers unchoked, and five in its third
round: the first ones of its order, and one that is unchoked optimistically, which in the first two
rounds is another one. A peer that is not interested is choked. -/
theorem seeder_round (es : List Event) (arr : Arrangement) (now : Nat) :
    let s := exec State.step {} es
    let winners := Seeder.regular arr now s.seederRound s.usedPeers
    let f := (s.step (.seederChoke arr now)).flags
    Grants s.usedPeers winners (Seeder.slots s.seederRound) f ∧
      (unchokedPeers s.usedPeers f).length ≤ (if s.seederRound = 2 then 5 else 4) ∧
      s.seederRound ≤ 2 ∧
      (∀ p ∈ s.usedPeers, p.active = true → p.peerInterested = false →
        f.shouldBeChoking p.id = true) ∧
      (s.seederRound < 2 → ∀ p ∈ winners, f.optUnchoking p.id = false) ∧
      ∀ p ∈ Seeder.entries s.usedPeers, p ∉ winners → ∀ q ∈ winners,
        Seeder.lt now p q = false := by
  intro s winners f
  have hinv := inv_exec es
  obtain ⟨hgrants, hidle, hother⟩ :=
    Seeder.executeChoke_grants arr now s.seederRound hinv.ids hinv.optimistic
  refine ⟨hgrants, ?_, hinv.seederRound, hidle, hother,
    fun p hp hnot q hq => Seeder.served_first hp hnot hq⟩
  have hle := hgrants.length_le hinv.ids
  unfold Seeder.slots at hle
  split at hle
  next h => rwa [if_pos h]
  next h => rwa [if_neg h]

/-- Two rounds of the seeder, after which a peer waits for data. -/
def twoRounds : List Event :=
  six ++ [.seederChoke insertionArrangement (seconds 10),
    .seederChoke insertionArrangement (seconds 20),
    .progress { id := 1, peerInterested := true, outstandingUpload := 1 }]

theorem seeder_round_third :
    let s := exec State.step {} twoRounds
    let f := (s.step (.seederChoke insertionArrangement (seconds 30))).flags
    (unchokedPeers s.usedPeers f).map (·.id) = [6, 5, 4, 2, 1] ∧
      (unchokedPeers s.usedPeers f).length ≤ 5 :=
  ⟨by decide, (seeder_round twoRounds insertionArrangement (seconds 30)).2.1⟩

end State

end FluxCore.Bt.Choking
