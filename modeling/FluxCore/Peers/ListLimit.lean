import FluxCore.Peers.Bookkeeping

/-!
# The limit of the peer list

`addPeer` adds nothing to a full list and cuts off what several peers are too many, but an incoming
peer goes in front of a list that is full as well, and `checkoutPeer` only makes up for it if it
finds a peer to check out or to drop. Where every address has as many connections as it may have,
the list stays too long, and `addPeer` of one peer does not shorten it.
-/

namespace FluxCore.Peers.DefaultPeerStorage

open List (Perm)

variable {s s' : DefaultPeerStorage} {peer : Peer}

def WithinLimit (s : DefaultPeerStorage) : Prop := s.unusedPeers.length ≤ s.maxPeerListSize

instance : DecidablePred WithinLimit :=
  fun s => inferInstanceAs (Decidable (s.unusedPeers.length ≤ s.maxPeerListSize))

theorem WithinLimit.of_books (h : WithinLimit s) (heq : s'.books = s.books) : WithinLimit s' := by
  simp only [books, Prod.mk.injEq] at heq
  obtain ⟨-, h2, -, -, h5⟩ := heq
  rw [WithinLimit, h2, h5]
  exact h

/-! ## Adding -/

theorem addOne_eq (peer : Peer) (s : DefaultPeerStorage) :
    (s.addOne peer).maxPeerListSize = s.maxPeerListSize ∧
      (s.addOne peer).unusedPeers.length ≤ s.unusedPeers.length + 1 := by
  rw [addOne]
  split
  next =>
    have hbooks := mergeExisting_books peer s
    simp only [books, Prod.mk.injEq] at hbooks
    exact ⟨hbooks.2.2.2.2, by rw [hbooks.2.1]; exact Nat.le_succ _⟩
  next =>
    have hbooks := isBadPeer_books peer.ipaddr s
    generalize s.isBadPeer peer.ipaddr = r at hbooks ⊢
    simp only [books, Prod.mk.injEq] at hbooks
    obtain ⟨-, hunused, -, -, hmax⟩ := hbooks
    dsimp only
    split
    next => exact ⟨hmax, by rw [hunused]; exact Nat.le_succ _⟩
    next =>
      refine ⟨hmax, ?_⟩
      change (r.2.unusedPeers ++ [peer]).length ≤ _
      rw [hunused, List.length_append]
      exact Nat.le_refl _

/-- Adding one peer leaves the list within its limit if and only if it was. -/
theorem withinLimit_addPeer_iff (peer : Peer) (s : DefaultPeerStorage) :
    WithinLimit (s.addPeer peer).1 ↔ WithinLimit s := by
  rw [addPeer_fst]
  split
  next => rfl
  next hlt =>
    obtain ⟨hmax, hlen⟩ := addOne_eq peer s
    rw [WithinLimit, WithinLimit, hmax]
    omega

theorem foldl_addOne_maxPeerListSize (peers : List Peer) (s : DefaultPeerStorage) :
    (peers.foldl addOne s).maxPeerListSize = s.maxPeerListSize := by
  induction peers generalizing s with
  | nil => rfl
  | cons peer peers ih => exact (ih _).trans (addOne_eq peer s).1

/-- Adding several peers leaves the list within its limit. -/
theorem withinLimit_addPeers (peers : List Peer) (s : DefaultPeerStorage) :
    WithinLimit (s.addPeers peers) := by
  rw [addPeers]
  generalize (if s.unusedPeers.length < s.maxPeerListSize then peers.foldl addOne s else s) = s'
  split
  next hlt =>
    rw [WithinLimit, length_deleteUnusedPeer, deleteUnusedPeer_maxPeerListSize]
    omega
  next hle => exact not_lt.mp hle

/-! ## Checking out -/

/-- `checkoutPeer` puts the peer back: it is not banned, and its address has all its connections. -/
def Stuck (s : DefaultPeerStorage) (p : Peer) : Prop :=
  s.isBad p.ipaddr = false ∧ s.isIpConnectionFull p.ipaddr = true

theorem checkoutLoop_maxPeerListSize (cuid n : Nat) (s : DefaultPeerStorage) :
    (s.checkoutLoop cuid n).1.maxPeerListSize = s.maxPeerListSize := by
  induction n generalizing s with
  | zero => rfl
  | succ n ih =>
    cases hu : s.unusedPeers with
    | nil => rw [checkoutLoop, hu]
    | cons peer rest =>
      obtain ⟨s', hbooks, -, -, heq⟩ := checkoutLoop_succ hu cuid n
      have hmax : s'.maxPeerListSize = s.maxPeerListSize := congrArg (·.2.2.2.2) hbooks
      rw [heq]
      split
      · exact (ih _).trans hmax
      · split
        · exact (ih _).trans hmax
        · exact hmax

/-- The loop makes the list no longer, and shorter if it comes to a peer that is not stuck. -/
theorem length_checkoutLoop (cuid n : Nat) (s : DefaultPeerStorage) :
    (s.checkoutLoop cuid n).1.unusedPeers.length ≤ s.unusedPeers.length ∧
      ((∃ p ∈ s.unusedPeers.take n, ¬s.Stuck p) →
        (s.checkoutLoop cuid n).1.unusedPeers.length < s.unusedPeers.length) := by
  induction n generalizing s with
  | zero =>
    refine ⟨Nat.le_refl _, ?_⟩
    rintro ⟨p, hp, -⟩
    rw [List.take_zero] at hp
    exact absurd hp List.not_mem_nil
  | succ n ih =>
    cases hu : s.unusedPeers with
    | nil =>
      rw [checkoutLoop, hu]
      refine ⟨by rw [hu], ?_⟩
      rintro ⟨p, hp, -⟩
      exact absurd hp List.not_mem_nil
    | cons peer rest =>
      obtain ⟨s', hbooks, hbad, -, heq⟩ := checkoutLoop_succ hu cuid n
      simp only [books, Prod.mk.injEq] at hbooks
      obtain ⟨-, h2, -, h4, -⟩ := hbooks
      rw [heq, List.length_cons]
      split
      next =>
        have hlen := (ih (s'.onErasingPeer peer)).1
        change _ ≤ s'.unusedPeers.length at hlen
        rw [h2] at hlen
        exact ⟨hlen.trans (Nat.le_succ _), fun _ => Nat.lt_succ_of_le hlen⟩
      next hb =>
        split
        next hfull =>
          obtain ⟨hle, hlt⟩ := ih { s' with unusedPeers := rest ++ [peer] }
          rw [List.length_append] at hle hlt
          refine ⟨hle, ?_⟩
          rintro ⟨p, hp, hstuck⟩
          refine hlt ⟨p, ?_, ?_⟩
          · rw [List.take_succ_cons] at hp
            rcases List.mem_cons.mp hp with rfl | hp
            · exact absurd ⟨Bool.eq_false_iff.mpr hb, hfull⟩ hstuck
            · change p ∈ (rest ++ [peer]).take n
              rw [List.take_append]
              exact List.mem_append_left _ hp
          · intro hst
            refine hstuck ⟨(hbad _).symm.trans hst.1, ?_⟩
            have hf := hst.2
            rw [isIpConnectionFull] at hf ⊢
            rwa [← h4]
        next =>
          have hlen : (s'.checkOut peer cuid).unusedPeers.length = rest.length :=
            congrArg List.length h2
          dsimp only
          rw [hlen]
          exact ⟨Nat.le_succ _, fun _ => Nat.lt_succ_self _⟩

/-- While all are stuck, nothing changes but their order. -/
theorem length_checkoutLoop_of_stuck (cuid n : Nat) (h : ∀ p ∈ s.unusedPeers, s.Stuck p) :
    (s.checkoutLoop cuid n).1.unusedPeers.length = s.unusedPeers.length := by
  induction n generalizing s with
  | zero => rfl
  | succ n ih =>
    cases hu : s.unusedPeers with
    | nil =>
      rw [checkoutLoop, hu]
      exact congrArg List.length hu
    | cons peer rest =>
      obtain ⟨s', hbooks, hbad, -, heq⟩ := checkoutLoop_succ hu cuid n
      simp only [books, Prod.mk.injEq] at hbooks
      obtain ⟨-, -, -, h4, -⟩ := hbooks
      obtain ⟨hb, hfull⟩ := h peer (hu ▸ List.mem_cons_self ..)
      rw [heq, if_neg (Bool.eq_false_iff.mp hb), if_pos hfull, ih]
      · simp
      · intro p hp
        have hp : p ∈ s.unusedPeers := by
          rw [hu, List.mem_cons]
          simpa [or_comm] using hp
        refine ⟨(hbad _).trans (h p hp).1, ?_⟩
        have hf := (h p hp).2
        rw [isIpConnectionFull] at hf ⊢
        rwa [← h4] at hf

/-! ## Runs -/

/-- After `addPeer` the list is within its limit. -/
def LimitedAfter (s : DefaultPeerStorage) (e : Event) : Prop :=
  match e with
  | .addPeer _ | .addPeers _ => WithinLimit (step s e)
  | _ => True

/-- `addPeer` of one peer is called on a list that is within its limit. -/
def CalledWithin (s : DefaultPeerStorage) : Event → Prop
  | .addPeer _ => WithinLimit s
  | _ => True

theorem limitedAfter_iff (s : DefaultPeerStorage) (e : Event) :
    LimitedAfter s e ↔ CalledWithin s e := by
  cases e with
  | addPeer peer => exact withinLimit_addPeer_iff peer s
  | addPeers peers => exact iff_of_true (withinLimit_addPeers peers s) trivial
  | _ => exact Iff.rfl

/-- An incoming peer finds room: it is banned or not new, the list is not full, or there is a peer
in it, or the new one, that is not stuck. -/
def Room (s : DefaultPeerStorage) : Event → Prop
  | .addAndCheckoutPeer peer _ =>
    s.isBad peer.ipaddr = true ∨ peer.key ∈ s.uniqPeers ∨
      s.unusedPeers.length < s.maxPeerListSize ∨ ∃ p ∈ peer :: s.unusedPeers, ¬s.Stuck p
  | _ => True

theorem withinLimit_checkoutPeer (cuid : Nat) (s : DefaultPeerStorage)
    (h : s.unusedPeers.length ≤ s.maxPeerListSize ∨
      s.unusedPeers.length ≤ s.maxPeerListSize + 1 ∧ ∃ p ∈ s.unusedPeers, ¬s.Stuck p) :
    WithinLimit (s.checkoutPeer cuid).1 := by
  obtain ⟨hle, hlt⟩ := length_checkoutLoop cuid s.unusedPeers.length s
  rw [List.take_length] at hlt
  rw [WithinLimit, checkoutPeer, checkoutLoop_maxPeerListSize]
  rcases h with h | ⟨h, hex⟩
  · exact hle.trans h
  · exact Nat.le_of_lt_succ ((hlt hex).trans_le h)

theorem withinLimit_addAndCheckoutPeer (h : WithinLimit s) (cuid : Nat)
    (hr : Room s (.addAndCheckoutPeer peer cuid)) :
    WithinLimit (s.addAndCheckoutPeer peer cuid).1 := by
  have hbooks := isBadPeer_books peer.ipaddr s
  have hbad := isBad_isBadPeer peer.ipaddr (s := s)
  have hfst := isBadPeer_fst peer.ipaddr s
  rw [addAndCheckoutPeer]
  generalize s.isBadPeer peer.ipaddr = r at *
  have hs := h.of_books hbooks
  simp only [books, Prod.mk.injEq] at hbooks
  obtain ⟨h1, h2, -, h4, h5⟩ := hbooks
  dsimp only
  split
  next => exact hs
  next hb =>
    split
    next hadded =>
      split
      next => exact hs
      next p hfind =>
        refine withinLimit_checkoutPeer cuid _ (.inl ?_)
        have hlen : (r.2.unusedPeers.eraseP (·.key = peer.key)).length + 1 =
            r.2.unusedPeers.length := by
          have hp := List.mem_of_find?_eq_some hfind
          have hpos := List.length_pos_of_mem hp
          rw [List.length_eraseP_of_mem hp (by simpa using List.find?_some hfind)]
          omega
        exact hlen.le.trans hs
    next hnew =>
      refine withinLimit_checkoutPeer cuid _ ?_
      change r.2.unusedPeers.length + 1 ≤ r.2.maxPeerListSize ∨
        r.2.unusedPeers.length + 1 ≤ r.2.maxPeerListSize + 1 ∧ _
      have hnew : peer.key ∉ s.uniqPeers := by
        rw [← h1]
        simpa [isPeerAlreadyAdded] using hnew
      rcases hr with hr | hr | hr | ⟨p, hp, hstuck⟩
      · exact absurd (hfst.trans hr) hb
      · exact absurd hr hnew
      · exact .inl (by rw [h2, h5]; exact hr)
      · refine .inr ⟨Nat.succ_le_succ hs, p, by rw [← h2] at hp; exact hp, fun hst => ?_⟩
        refine hstuck ⟨(hbad _).symm.trans hst.1, ?_⟩
        have hf := hst.2
        rw [isIpConnectionFull] at hf ⊢
        rwa [← h4]

/-- An incoming peer that finds no room makes the list too long. -/
theorem not_withinLimit_addAndCheckoutPeer (cuid : Nat)
    (hr : ¬Room s (.addAndCheckoutPeer peer cuid)) :
    ¬WithinLimit (s.addAndCheckoutPeer peer cuid).1 := by
  rw [Room, not_or, not_or, not_or] at hr
  obtain ⟨hb, hnew, hfull, hstuck⟩ := hr
  have hbooks := isBadPeer_books peer.ipaddr s
  have hbad := isBad_isBadPeer peer.ipaddr (s := s)
  have hfst := isBadPeer_fst peer.ipaddr s
  rw [addAndCheckoutPeer]
  generalize s.isBadPeer peer.ipaddr = r at *
  simp only [books, Prod.mk.injEq] at hbooks
  obtain ⟨h1, h2, -, h4, h5⟩ := hbooks
  dsimp only
  rw [if_neg (by rw [hfst]; exact hb), if_neg (by simpa [isPeerAlreadyAdded, h1] using hnew)]
  rw [WithinLimit, checkoutPeer, checkoutLoop_maxPeerListSize, length_checkoutLoop_of_stuck]
  · change ¬r.2.unusedPeers.length + 1 ≤ r.2.maxPeerListSize
    rw [h2, h5]
    omega
  · intro p hp
    change p ∈ peer :: r.2.unusedPeers at hp
    rw [h2] at hp
    have hst := not_not.mp (not_and.mp (not_exists.mp hstuck p) hp)
    refine ⟨(hbad _).trans hst.1, ?_⟩
    have hf := hst.2
    rw [isIpConnectionFull] at hf ⊢
    rwa [← h4] at hf

theorem WithinLimit.step (h : WithinLimit s) (e : Event) (hr : Room s e) :
    WithinLimit (step s e) := by
  cases e with
  | addPeer peer => exact (withinLimit_addPeer_iff peer s).mpr h
  | addPeers peers => exact withinLimit_addPeers peers s
  | addAndCheckoutPeer peer cuid => exact withinLimit_addAndCheckoutPeer h cuid hr
  | checkoutPeer cuid => exact withinLimit_checkoutPeer cuid s (.inl h)
  | returnPeer peer c =>
    change WithinLimit (s.returnPeer peer c)
    rw [returnPeer]
    split
    next =>
      have hbooks := onReturningPeer_books peer c { s with usedPeers := s.usedPeers.erase peer }
      generalize onReturningPeer peer c { s with usedPeers := s.usedPeers.erase peer } = s' at *
      obtain ⟨-, e2, -, e5⟩ :=
        releaseConnection_eq peer.ipaddr { s with usedPeers := s.usedPeers.erase peer }
      simp only [books, e2, e5, Prod.mk.injEq] at hbooks
      obtain ⟨-, h2, -, -, h5⟩ := hbooks
      change s'.unusedPeers.length ≤ s'.maxPeerListSize
      rw [h2, h5]
      exact h
    next => exact h
  | recordPeerFailure peer utp => exact h.of_books (recordPeerFailure_books ..)
  | addBadPeer ip reason random => exact h.of_books (addBadPeer_books ..)
  | addBadPeerManual ip expireTime reason => exact h.of_books rfl
  | removeBadPeer ip => exact h.of_books rfl
  | isBadPeer ip => exact h.of_books (isBadPeer_books ..)
  | outside wallclock option info => exact h.of_books rfl

/-- The storage when it is made. -/
def init (maxPeerListSize : Nat) : DefaultPeerStorage := { maxPeerListSize }

theorem sound_exec (h : Sound s) (es : List Event) : Sound (exec step s es) :=
  exec_of_along (P := fun _ _ => True) (fun _ e h _ => h.step e) h (Along.of_forall fun _ _ => trivial)

theorem sound_init (maxPeerListSize : Nat) : Sound (init maxPeerListSize) :=
  ⟨⟨List.nodup_nil, rfl⟩, ⟨fun _ => rfl, fun _ => Nat.zero_le _⟩⟩

/-- **The books are right in every state, and `addPeer` leaves the list within its limit if and
only if `addPeer` of one peer finds it so**; it does if every incoming peer finds room. -/
theorem books_right_iff (maxPeerListSize : Nat) (es : List Event) :
    ((Visits step Sound (init maxPeerListSize) es ∧
        Along step LimitedAfter (init maxPeerListSize) es) ↔
      Along step CalledWithin (init maxPeerListSize) es) ∧
    (Along step Room (init maxPeerListSize) es →
      Along step CalledWithin (init maxPeerListSize) es) := by
  have hsound : Visits step Sound (init maxPeerListSize) es :=
    visits_of_along (P := fun _ _ => True) (fun _ e h _ => h.step e) (fun _ h => h)
      (sound_init _) (Along.of_forall fun _ _ => trivial)
  refine ⟨⟨fun h => h.2.mono fun s e => (limitedAfter_iff s e).mp, fun h => ⟨hsound, ?_⟩⟩, fun h => ?_⟩
  · exact h.mono fun s e => (limitedAfter_iff s e).mpr
  · have hstep : ∀ s e, WithinLimit s → Room s e → WithinLimit (step s e) :=
      fun s e hs hr => hs.step e hr
    refine along_of_along hstep (fun s e hs _ => ?_) (Nat.zero_le _) h
    cases e with
    | addPeer peer => exact hs
    | _ => trivial

/-- Peers that are new and not banned are all added, in order. -/
theorem foldl_addOne_of_new (peers : List Peer) (h : Sound s)
    (hban : ∀ p ∈ peers, s.badPeers.lookup p.ipaddr = none)
    (hnew : (peers.map Peer.key ++ s.keys).Nodup) :
    (peers.foldl addOne s).unusedPeers = s.unusedPeers ++ peers ∧
      (peers.foldl addOne s).usedPeers = s.usedPeers ∧
      (peers.foldl addOne s).ipConnections = s.ipConnections ∧
      (peers.foldl addOne s).badPeers = s.badPeers := by
  induction peers generalizing s with
  | nil => exact ⟨(List.append_nil _).symm, rfl, rfl, rfl⟩
  | cons peer peers ih =>
    have hkey : peer.key ∉ peers.map Peer.key ++ s.keys := (List.nodup_cons.mp hnew).1
    have hadded : ¬s.isPeerAlreadyAdded peer = true := fun hm => by
      rw [isPeerAlreadyAdded, decide_eq_true_iff, h.keyed.mem_iff] at hm
      exact hkey (List.mem_append_right _ hm)
    have hone : s.addOne peer =
        ({ s with unusedPeers := s.unusedPeers ++ [peer] }.addUniqPeer peer) := by
      rw [addOne, if_neg hadded, isBadPeer, hban peer (List.mem_cons_self ..)]
      rfl
    have hnew' : (peers.map Peer.key ++ (s.addOne peer).keys).Nodup := by
      refine (Perm.nodup_iff ?_).mp hnew
      rw [hone]
      change Perm (peer.key :: (peers.map Peer.key ++ (s.unusedPeers ++ s.usedPeers).map Peer.key))
        (peers.map Peer.key ++ (s.unusedPeers ++ [peer] ++ s.usedPeers).map Peer.key)
      refine List.perm_middle.symm.trans (Perm.append_left _ ?_)
      rw [← List.map_cons, List.append_assoc, List.singleton_append]
      exact Perm.map _ List.perm_middle.symm
    obtain ⟨h1, h2, h3, h4⟩ := ih (s := s.addOne peer) (h.addOne peer)
      (fun p hp => by rw [hone]; exact hban p (.tail _ hp)) hnew'
    rw [List.foldl_cons, h1, h2, h3, h4, hone]
    exact ⟨by simp [addUniqPeer], rfl, rfl, rfl⟩

/-- All connections of an address are in use, the list is filled with other peers of it, and one
more comes in: then the list is longer than its limit. -/
theorem overfull {i : String} (h : Sound s) (hunused : s.unusedPeers = [])
    (hban : s.badPeers.lookup i = none) (hfull : s.isIpConnectionFull i = true) {ps : List Peer}
    (hpos : 0 < s.maxPeerListSize) (hlen : ps.length = s.maxPeerListSize)
    (hip : ∀ p ∈ peer :: ps, p.ipaddr = i)
    (hnew : ((peer :: ps).map Peer.key ++ s.keys).Nodup) (cuid : Nat) :
    ¬WithinLimit (step (step s (.addPeers ps)) (.addAndCheckoutPeer peer cuid)) := by
  rw [List.map_cons, List.cons_append, List.nodup_cons] at hnew
  obtain ⟨h1, h2, h3, h4⟩ := foldl_addOne_of_new ps h (fun p hp => hip p (.tail _ hp) ▸ hban) hnew.2
  have hadd : step s (.addPeers ps) = ps.foldl addOne s := by
    change s.addPeers ps = _
    have hif : (if s.unusedPeers.length < s.maxPeerListSize then ps.foldl addOne s else s) =
        ps.foldl addOne s := if_pos (by rw [hunused]; exact hpos)
    rw [addPeers, hif]
    refine if_neg ?_
    rw [h1, foldl_addOne_maxPeerListSize, hunused, List.nil_append, hlen]
    exact lt_irrefl _
  have hstuck : ∀ p ∈ peer :: ps, (ps.foldl addOne s).Stuck p := by
    intro p hp
    rw [isIpConnectionFull] at hfull
    rw [Stuck, isBad, isIpConnectionFull, h4, h3, hip p hp, hban]
    exact ⟨rfl, hfull⟩
  rw [hadd]
  refine not_withinLimit_addAndCheckoutPeer cuid ?_
  rintro (hb | hk | hl | ⟨p, hp, hs⟩)
  · rw [(hstuck peer (List.mem_cons_self ..)).1] at hb
    cases hb
  · rw [(h.foldl_addOne ps).keyed.mem_iff, keys, h1, h2, hunused, List.nil_append,
      List.map_append] at hk
    refine hnew.1 ?_
    rw [keys, hunused, List.nil_append]
    exact hk
  · rw [h1, foldl_addOne_maxPeerListSize, hunused, List.nil_append, hlen] at hl
    exact lt_irrefl _ hl
  · rw [h1, hunused, List.nil_append] at hp
    exact hs (hstuck p hp)

/-- Three peers of one address are connected, the list is filled with 512 others, and one more
comes in; then a peer is to be added. -/
theorem overfull_counterexample :
    let host (n : Nat) : Peer := { serial := n, ipaddr := "10.0.0.1", origPort := .ofNat n }
    ¬Along step LimitedAfter (init 512)
      ([.addPeers [host 1, host 2, host 3], .checkoutPeer 1, .checkoutPeer 2, .checkoutPeer 3] ++
        [.addPeers ((List.range 512).map fun n => host (n + 4)), .addAndCheckoutPeer (host 600) 4,
          .addPeer (host 601)]) := by
  intro host h
  have hlast := (limitedAfter_iff _ _).mp h.of_append.2.2.1
  have hkeys : (exec step (init 512) [.addPeers [host 1, host 2, host 3], .checkoutPeer 1,
      .checkoutPeer 2, .checkoutPeer 3]).keys = [3, 2, 1].map fun n => (host n).key := by
    decide +kernel
  have hmap : (List.range 512).map (· + 4) = List.range' 4 512 := by
    simp only [Nat.add_comm _ 4, List.range_eq_range', List.map_add_range', Nat.add_zero]
  have hmem : ∀ n ∈ 600 :: ((List.range 512).map (· + 4) ++ [3, 2, 1]), n < 1024 := by
    intro n hn
    rw [hmap, List.mem_cons, List.mem_append, List.mem_range'_1] at hn
    rcases hn with hn | hn | hn
    · omega
    · omega
    · exact (by decide : ∀ n ∈ [3, 2, 1], n < 1024) n hn
  have hrange : (600 :: ((List.range 512).map (· + 4) ++ [3, 2, 1])).Nodup := by
    rw [hmap, List.nodup_cons, List.nodup_append]
    refine ⟨fun hm => ?_, List.nodup_range', by decide, fun n hn m hm => ?_⟩
    · rw [List.mem_append, List.mem_range'_1] at hm
      rcases hm with hm | hm
      · omega
      · exact absurd hm (by decide)
    · have := (by decide : ∀ n ∈ [3, 2, 1], n < 4) m hm
      rw [List.mem_range'_1] at hn
      omega
  have hnodup : ((600 :: ((List.range 512).map (· + 4) ++ [3, 2, 1])).map
      fun n => (host n).key).Nodup := by
    refine List.Nodup.map_on (fun n hn m hm heq => ?_) hrange
    have hport := congrArg (fun k : String × UInt16 => k.2.toNat) heq
    simp only [host, Peer.key, UInt16.toNat_ofNat'] at hport
    have := hmem n hn
    have := hmem m hm
    omega
  refine overfull (i := "10.0.0.1") (sound_exec (sound_init 512) _) (by decide +kernel)
    (by decide +kernel) (by decide +kernel) (by decide +kernel) ?_ ?_ ?_ 4 hlast
  · rw [List.length_map, List.length_range]
    decide +kernel
  · intro p hp
    rcases List.mem_cons.mp hp with rfl | hp
    · rfl
    · obtain ⟨n, -, rfl⟩ := List.mem_map.mp hp
      rfl
  · rw [hkeys]
    simpa [Function.comp_def] using hnodup

end FluxCore.Peers.DefaultPeerStorage
