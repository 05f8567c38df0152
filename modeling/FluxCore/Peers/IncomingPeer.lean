import FluxCore.Peers.ListLimit

/-!
# Incoming peers

`addAndCheckoutPeer` puts the incoming peer in front and leaves the choice to `checkoutPeer`. That
takes the first peer that may be connected (`checkoutLoop_snd`), and this is another one if the
address of the incoming peer has all its connections.
-/

namespace FluxCore.Peers

namespace DefaultPeerStorage

variable {s : DefaultPeerStorage} {peer : Peer}

/-- `checkoutPeer` may return the peer. -/
def eligible (s : DefaultPeerStorage) (p : Peer) : Bool :=
  !s.isBad p.ipaddr && !s.isIpConnectionFull p.ipaddr

theorem eligible_congr {s' : DefaultPeerStorage} (hbad : ∀ ip, s'.isBad ip = s.isBad ip)
    (hconn : s'.ipConnections = s.ipConnections) : s'.eligible = s.eligible := by
  funext p
  rw [eligible, eligible, hbad, isIpConnectionFull, isIpConnectionFull, hconn]

/-- The loop returns the first of its peers that may be connected. -/
theorem checkoutLoop_snd (cuid n : Nat) (hn : n ≤ s.unusedPeers.length) :
    (s.checkoutLoop cuid n).2 = (s.unusedPeers.take n).find? s.eligible := by
  induction n generalizing s with
  | zero => rfl
  | succ n ih =>
    cases hu : s.unusedPeers with
    | nil =>
      rw [hu] at hn
      cases hn
    | cons peer rest =>
      obtain ⟨s', hbooks, hbad, -, heq⟩ := checkoutLoop_succ hu cuid n
      simp only [books, Prod.mk.injEq] at hbooks
      obtain ⟨-, h2, -, h4, -⟩ := hbooks
      rw [hu, List.length_cons] at hn
      have hn := Nat.le_of_succ_le_succ hn
      have helig : s'.eligible = s.eligible := eligible_congr hbad h4
      rw [heq, List.take_succ_cons]
      by_cases hb : s.isBad peer.ipaddr = true
      · have hno : ¬s.eligible peer = true := by simp [eligible, hb]
        have hloop := ih (s := s'.onErasingPeer peer) (by
          change n ≤ s'.unusedPeers.length
          rw [h2]
          exact hn)
        rw [if_pos hb, hloop, List.find?_cons_of_neg hno, ← helig]
        change (s'.unusedPeers.take n).find? s'.eligible = _
        rw [h2]
      · rw [if_neg hb]
        by_cases hf : s.isIpConnectionFull peer.ipaddr = true
        · have hno : ¬s.eligible peer = true := by simp [eligible, hf]
          have hloop := ih (s := { s' with unusedPeers := rest ++ [peer] }) (by
            simp only [List.length_append]
            omega)
          rw [if_pos hf, hloop, List.find?_cons_of_neg hno, ← helig]
          change ((rest ++ [peer]).take n).find? s'.eligible = _
          rw [List.take_append_of_le_length hn]
        · have hyes : s.eligible peer = true := by simp [eligible, hb, hf]
          rw [if_neg hf, List.find?_cons_of_pos hyes]

/-- A loop that returns none has marked none. -/
theorem checkoutLoop_none (cuid n : Nat) (hnone : (s.checkoutLoop cuid n).2 = none) :
    (s.checkoutLoop cuid n).1.usedPeers = s.usedPeers ∧
      (s.checkoutLoop cuid n).1.info = s.info := by
  induction n generalizing s with
  | zero => exact ⟨rfl, rfl⟩
  | succ n ih =>
    cases hu : s.unusedPeers with
    | nil =>
      rw [checkoutLoop, hu]
      exact ⟨rfl, rfl⟩
    | cons peer rest =>
      obtain ⟨s', hbooks, -, hinfo, heq⟩ := checkoutLoop_succ hu cuid n
      simp only [books, Prod.mk.injEq] at hbooks
      obtain ⟨-, -, h3, -⟩ := hbooks
      rw [heq] at hnone ⊢
      split at hnone
      next hb =>
        rw [if_pos hb]
        obtain ⟨hused, hi⟩ := ih hnone
        exact ⟨hused.trans h3, hi.trans hinfo⟩
      next hb =>
        rw [if_neg hb]
        split at hnone
        next hf =>
          rw [if_pos hf]
          obtain ⟨hused, hi⟩ := ih hnone
          exact ⟨hused.trans h3, hi.trans hinfo⟩
        next => cases hnone

/-- The peers that wait besides the incoming one: the one that has its key gives way. -/
def others (s : DefaultPeerStorage) (peer : Peer) : List Peer :=
  if s.isPeerAlreadyAdded peer then s.unusedPeers.eraseP (·.key = peer.key) else s.unusedPeers

/-- The incoming peer comes back, or none does and none has been marked as used. -/
def AsItself (s : DefaultPeerStorage) (peer : Peer) (cuid : Nat) : Prop :=
  (s.addAndCheckoutPeer peer cuid).2 = some peer ∨
    (s.addAndCheckoutPeer peer cuid).2 = none ∧
      (s.addAndCheckoutPeer peer cuid).1.usedPeers = s.usedPeers ∧
      ∀ p, ((s.addAndCheckoutPeer peer cuid).1.info p).cuid = (s.info p).cuid

/-- The incoming peer is turned away at once, its address has a connection left, or none of the
peers that wait may be connected in its place. -/
def NoSubstitute (s : DefaultPeerStorage) (peer : Peer) : Prop :=
  s.isBad peer.ipaddr = true ∨
    (s.isPeerAlreadyAdded peer = true ∧ ∀ p ∈ s.unusedPeers, p.key ≠ peer.key) ∨
    s.isIpConnectionFull peer.ipaddr = false ∨ ∀ p ∈ s.others peer, s.eligible p = false

/-- The answer of `checkoutPeer` when the incoming peer is in front. -/
theorem checkoutPeer_front_iff {s' : DefaultPeerStorage} (cuid : Nat) {rest : List Peer}
    (hu : s'.unusedPeers = peer :: rest) (hused : s'.usedPeers = s.usedPeers)
    (hinfo : ∀ p, (s'.info p).cuid = (s.info p).cuid) (helig : s'.eligible = s.eligible)
    (hb : s.isBad peer.ipaddr = false) :
    ((s'.checkoutPeer cuid).2 = some peer ∨ (s'.checkoutPeer cuid).2 = none ∧
        (s'.checkoutPeer cuid).1.usedPeers = s.usedPeers ∧
        ∀ p, ((s'.checkoutPeer cuid).1.info p).cuid = (s.info p).cuid) ↔
      s.isIpConnectionFull peer.ipaddr = false ∨ ∀ p ∈ rest, s.eligible p = false := by
  have hsnd : (s'.checkoutPeer cuid).2 = (peer :: rest).find? s.eligible := by
    rw [checkoutPeer, checkoutLoop_snd cuid _ (Nat.le_refl _), List.take_length, hu, helig]
  by_cases hf : s.isIpConnectionFull peer.ipaddr = true
  · have hno : ¬s.eligible peer = true := by simp [eligible, hf]
    rw [List.find?_cons_of_neg hno] at hsnd
    constructor
    · rintro (hsome | ⟨hnone, -⟩)
      · rw [hsnd] at hsome
        exact absurd (List.find?_some hsome) hno
      · rw [hsnd] at hnone
        exact .inr fun p hp => Bool.eq_false_iff.mpr (List.find?_eq_none.mp hnone p hp)
    · rintro (hfull | hrest)
      · rw [hf] at hfull
        cases hfull
      · have hnone : (s'.checkoutPeer cuid).2 = none := by
          rw [hsnd]
          exact List.find?_eq_none.mpr fun p hp => Bool.eq_false_iff.mp (hrest p hp)
        obtain ⟨h1, h2⟩ := checkoutLoop_none cuid _ hnone
        refine .inr ⟨hnone, h1.trans hused, fun p => ?_⟩
        rw [← hinfo]
        exact congrArg (fun i : Peer → PeerInfo => (i p).cuid) h2
  · have hyes : s.eligible peer = true := by simp [eligible, hb, hf]
    rw [List.find?_cons_of_pos hyes] at hsnd
    exact iff_of_true (.inl hsnd) (.inl (Bool.eq_false_iff.mpr hf))

/-- **An incoming peer is checked out as itself if and only if no other can be taken for it.** -/
theorem asItself_iff (s : DefaultPeerStorage) (peer : Peer) (cuid : Nat) :
    AsItself s peer cuid ↔ NoSubstitute s peer := by
  have hbooks := isBadPeer_books peer.ipaddr s
  have hbad := isBad_isBadPeer peer.ipaddr (s := s)
  have hfst := isBadPeer_fst peer.ipaddr s
  have hinfo := isBadPeer_info peer.ipaddr s
  rw [AsItself, NoSubstitute, addAndCheckoutPeer]
  generalize s.isBadPeer peer.ipaddr = r at *
  simp only [books, Prod.mk.injEq] at hbooks
  obtain ⟨h1, h2, h3, h4, -⟩ := hbooks
  have hadded : r.2.isPeerAlreadyAdded peer = s.isPeerAlreadyAdded peer := by
    rw [isPeerAlreadyAdded, isPeerAlreadyAdded, h1]
  have helig : r.2.eligible = s.eligible := eligible_congr hbad h4
  have hcuid : ∀ p, (r.2.info p).cuid = (s.info p).cuid := fun p => by rw [hinfo]
  dsimp only
  rw [hfst, hadded, others]
  by_cases hb : s.isBad peer.ipaddr = true
  · rw [if_pos hb]
    exact iff_of_true (.inr ⟨rfl, h3, hcuid⟩) (.inl hb)
  · rw [if_neg hb, or_iff_right hb]
    have hb := Bool.eq_false_iff.mpr hb
    by_cases ha : s.isPeerAlreadyAdded peer = true
    · rw [if_pos ha, if_pos ha, h2]
      cases hfind : s.unusedPeers.find? (·.key = peer.key) with
      | none =>
        refine iff_of_true (.inr ⟨rfl, h3, hcuid⟩) (.inl ⟨ha, fun p hp => ?_⟩)
        simpa using List.find?_eq_none.mp hfind p hp
      | some p =>
        have hkey : p.key = peer.key := by simpa using List.find?_some hfind
        have hmem := List.mem_of_find?_eq_some hfind
        refine Iff.trans ?_ (or_iff_right fun h => h.2 p hmem hkey).symm
        have hu : peer :: r.2.unusedPeers.eraseP (·.key = peer.key) =
            peer :: s.unusedPeers.eraseP (·.key = peer.key) := by rw [h2]
        refine checkoutPeer_front_iff cuid hu h3 (fun q => ?_) helig hb
        rw [← hcuid]
        change (if q = peer then _ else r.2.info q).cuid = _
        split
        next hq => rw [hq]
        next => rfl
    · rw [if_neg ha, if_neg ha, ← h2]
      refine Iff.trans ?_ (or_iff_right fun h => ha h.1).symm
      exact checkoutPeer_front_iff cuid rfl h3 hcuid helig hb

/-- Three connections to one address are in use and a peer of another address waits; a fourth
connection from the first address is then given the peer that waits. -/
theorem substitute_counterexample :
    let host (n : Nat) : Peer := { serial := n, ipaddr := "10.0.0.1", origPort := .ofNat n }
    let other : Peer := { serial := 9, ipaddr := "10.0.0.2", origPort := 9 }
    let s := exec step (init 512) [.addPeers [host 1, host 2, host 3], .checkoutPeer 1,
      .checkoutPeer 2, .checkoutPeer 3, .addPeer other]
    ¬AsItself s (host 4) 4 := by
  intro host other s
  rintro (h | ⟨h, -⟩)
  · exact absurd h (by decide +kernel)
  · exact absurd h (by decide +kernel)

end DefaultPeerStorage

end FluxCore.Peers
