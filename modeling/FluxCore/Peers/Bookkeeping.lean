import FluxCore.Peers.PeerStorage

/-!
# The books of the peer storage

`uniqPeers` are the keys of the peers (`Keyed`) and `ipConnections` counts the used peers of an
address (`Connected`). Every operation keeps both.
-/

namespace FluxCore.Peers

open List (Perm)

/-- `uniq` are the keys, which are distinct. -/
structure Keyed (uniq : Finset (String × UInt16)) (keys : List (String × UInt16)) : Prop where
  distinct : keys.Nodup
  uniq : uniq = keys.toFinset

namespace Keyed

variable {uniq : Finset (String × UInt16)} {keys keys' : List (String × UInt16)}
  {k : String × UInt16}

theorem mem_iff (h : Keyed uniq keys) : k ∈ uniq ↔ k ∈ keys := by
  rw [h.uniq, List.mem_toFinset]

theorem perm (h : Keyed uniq keys) (hp : Perm keys keys') : Keyed uniq keys' :=
  ⟨hp.nodup_iff.mp h.distinct, h.uniq.trans (List.toFinset_eq_of_perm _ _ hp)⟩

theorem insert (h : Keyed uniq keys) (hk : k ∉ uniq) : Keyed (insert k uniq) (k :: keys) := by
  refine ⟨List.nodup_cons.mpr ⟨fun hm => hk (h.mem_iff.mpr hm), h.distinct⟩, ?_⟩
  rw [List.toFinset_cons, ← h.uniq]

theorem erase (h : Keyed uniq (k :: keys)) : Keyed (uniq.erase k) keys := by
  obtain ⟨hk, hd⟩ := List.nodup_cons.mp h.distinct
  refine ⟨hd, ?_⟩
  rw [h.uniq, List.toFinset_cons, Finset.erase_insert (by rwa [List.mem_toFinset])]

end Keyed

/-- The number of peers with an address. -/
def count (used : List Peer) (ip : String) : Nat := used.countP (·.ipaddr = ip)

/-- `m` counts the peers of an address, of which there are not too many. -/
structure Connected (used : List Peer) (m : AList fun _ : String => Nat) : Prop where
  lookup : ∀ ip, m.lookup ip = if count used ip = 0 then none else some (count used ip)
  cap : ∀ ip, count used ip ≤ DefaultPeerStorage.MAX_CONNECTIONS_PER_IP

namespace Connected

variable {used used' : List Peer} {m : AList fun _ : String => Nat} {peer : Peer}

theorem count_cons (peer : Peer) (used : List Peer) (ip : String) :
    count (peer :: used) ip = count used ip + if peer.ipaddr = ip then 1 else 0 := by
  simp [count, List.countP_cons]

theorem lookup_getD (h : Connected used m) (ip : String) : (m.lookup ip).getD 0 = count used ip := by
  rw [h.lookup]
  split
  next h0 => exact h0.symm
  next => rfl

theorem increment (h : Connected used m)
    (hlt : count used peer.ipaddr < DefaultPeerStorage.MAX_CONNECTIONS_PER_IP) :
    Connected (peer :: used) (DefaultPeerStorage.increment m peer.ipaddr) := by
  have hget := h.lookup_getD peer.ipaddr
  refine ⟨fun ip => ?_, fun ip => ?_⟩
  · rw [DefaultPeerStorage.increment, hget, count_cons]
    by_cases hip : ip = peer.ipaddr
    · subst hip
      rw [AList.lookup_insert, if_pos rfl, if_neg (Nat.succ_ne_zero _)]
    · rw [AList.lookup_insert_ne hip, h.lookup, if_neg (Ne.symm hip), Nat.add_zero]
  · rw [count_cons]
    split
    next hip => exact hip ▸ hlt
    next => exact h.cap ip

theorem count_erase (hm : peer ∈ used) (ip : String) :
    count used ip = count (used.erase peer) ip + if peer.ipaddr = ip then 1 else 0 := by
  rw [← count_cons]
  exact (List.perm_cons_erase hm).countP_eq _

theorem release {s : DefaultPeerStorage} (h : Connected used s.ipConnections) (hm : peer ∈ used) :
    Connected (used.erase peer) (s.releaseConnection peer.ipaddr).ipConnections := by
  have hcount := count_erase hm
  have hself := hcount peer.ipaddr
  rw [if_pos rfl] at hself
  have hother : ∀ ip, ip ≠ peer.ipaddr → count (used.erase peer) ip = count used ip := fun ip hip => by
    rw [hcount ip, if_neg (Ne.symm hip), Nat.add_zero]
  have hfind : s.ipConnections.lookup peer.ipaddr = some (count used peer.ipaddr) := by
    rw [h.lookup, if_neg (by omega)]
  refine ⟨fun ip => ?_, fun ip => (Nat.le.intro (hcount ip).symm).trans (h.cap ip)⟩
  simp only [DefaultPeerStorage.releaseConnection, hfind]
  by_cases hip : ip = peer.ipaddr
  · subst hip
    split
    next hlt => rw [AList.lookup_insert, if_neg (by omega)]; congr 1; omega
    next hlt => rw [AList.lookup_erase, if_pos (by omega)]
  · rw [hother ip hip]
    split
    · exact (AList.lookup_insert_ne hip).trans (h.lookup ip)
    · exact (AList.lookup_erase_ne hip).trans (h.lookup ip)

end Connected

namespace DefaultPeerStorage

variable {s s' : DefaultPeerStorage} {peer : Peer}

def keys (s : DefaultPeerStorage) : List (String × UInt16) :=
  (s.unusedPeers ++ s.usedPeers).map Peer.key

/-- The books are right: no two peers have one key, `uniqPeers` are the keys, and `ipConnections`
counts the connections to each address, of which there are at most `MAX_CONNECTIONS_PER_IP`. -/
structure Sound (s : DefaultPeerStorage) : Prop where
  keyed : Keyed s.uniqPeers s.keys
  connected : Connected s.usedPeers s.ipConnections

/-- What `Sound` and the limit of the list are about. -/
def books (s : DefaultPeerStorage) :=
  (s.uniqPeers, s.unusedPeers, s.usedPeers, s.ipConnections, s.maxPeerListSize)

theorem Sound.of_books (h : Sound s) (heq : s'.books = s.books) : Sound s' := by
  simp only [books, Prod.mk.injEq] at heq
  obtain ⟨h1, h2, h3, h4, -⟩ := heq
  refine ⟨?_, ?_⟩
  · rw [keys, h1, h2, h3]
    exact h.keyed
  · rw [h3, h4]
    exact h.connected

/-! ## Bans -/

theorem isBadPeer_books (ip : String) (s : DefaultPeerStorage) :
    (s.isBadPeer ip).2.books = s.books := by
  rw [isBadPeer]
  split
  · rfl
  · split
    · rfl
    · rfl

theorem isBadPeer_info (ip : String) (s : DefaultPeerStorage) :
    (s.isBadPeer ip).2.info = s.info := by
  rw [isBadPeer]
  split
  · rfl
  · split
    · rfl
    · rfl

theorem isBadPeer_fst (ip : String) (s : DefaultPeerStorage) : (s.isBadPeer ip).1 = s.isBad ip := by
  rw [isBadPeer, isBad]
  split
  next => rfl
  next entry h =>
    split
    next hle => exact (decide_eq_false (not_lt.mpr hle)).symm
    next hle => exact (decide_eq_true (not_le.mp hle)).symm

/-- Erasing a ban that is over changes no answer. -/
theorem isBad_isBadPeer (ip ip' : String) (s : DefaultPeerStorage) :
    (s.isBadPeer ip).2.isBad ip' = s.isBad ip' := by
  rw [isBadPeer]
  split
  next => rfl
  next entry h =>
    split
    next hle =>
      by_cases hip : ip' = ip
      · subst hip
        simp only [isBad, h, AList.lookup_erase]
        exact (decide_eq_false (not_lt.mpr hle)).symm
      · simp only [isBad, AList.lookup_erase_ne hip]
    next => rfl

theorem mergeExisting_books (peer : Peer) (s : DefaultPeerStorage) :
    (s.mergeExisting peer).books = s.books := by
  rw [mergeExisting]
  split
  · rfl
  · rfl

theorem addDroppedPeer_books (peer : Peer) (s : DefaultPeerStorage) :
    (s.addDroppedPeer peer).books = s.books := by
  rw [addDroppedPeer]
  dsimp only
  split
  · split
    · rfl
    · rfl
  · rfl

theorem cleanBadPeers_books (s : DefaultPeerStorage) : s.cleanBadPeers.books = s.books := by
  rw [cleanBadPeers]
  split
  · rfl
  · rfl

theorem addBadPeer_books (ip reason : String) (random : Nat) (s : DefaultPeerStorage) :
    (s.addBadPeer ip reason random).books = s.books := by
  rw [addBadPeer]
  split
  · rfl
  · exact s.cleanBadPeers_books

theorem recordPeerFailure_books (peer : Peer) (utp : Bool) (s : DefaultPeerStorage) :
    (s.recordPeerFailure peer utp).books = s.books := by
  rw [recordPeerFailure]
  dsimp only
  split
  · rfl
  · rfl

/-! ## Adding -/

/-- A peer with a new key goes behind the others. -/
theorem Sound.push (h : Sound s) (hnew : s.isPeerAlreadyAdded peer = false) :
    Sound ({ s with unusedPeers := s.unusedPeers ++ [peer] }.addUniqPeer peer) := by
  refine ⟨(h.keyed.insert (by simpa [isPeerAlreadyAdded] using hnew)).perm ?_, h.connected⟩
  change Perm (peer.key :: (s.unusedPeers ++ s.usedPeers).map Peer.key)
    ((s.unusedPeers ++ [peer] ++ s.usedPeers).map Peer.key)
  rw [← List.map_cons, List.append_assoc, List.singleton_append]
  exact List.perm_middle.symm.map _

/-- An unused peer is erased. -/
theorem Sound.drop (h : Sound s) {unused : List Peer}
    (hp : Perm s.unusedPeers (peer :: unused)) :
    Sound ({ s with unusedPeers := unused }.onErasingPeer peer) :=
  ⟨(h.keyed.perm (((hp.append_right _).map _))).erase, h.connected⟩

theorem Sound.deleteUnusedPeer (h : Sound s) (n : Nat) : Sound (s.deleteUnusedPeer n) := by
  induction n generalizing s with
  | zero => exact h
  | succ n ih =>
    rw [DefaultPeerStorage.deleteUnusedPeer]
    split
    next => exact h
    next peer hlast =>
      have hp : Perm s.unusedPeers (peer :: s.unusedPeers.dropLast) := by
        have happ := List.dropLast_append_getLast? peer hlast
        exact (List.Perm.of_eq happ.symm).trans (List.perm_append_singleton ..)
      exact ih ((h.drop hp).of_books rfl)

theorem length_deleteUnusedPeer (n : Nat) (s : DefaultPeerStorage) :
    (s.deleteUnusedPeer n).unusedPeers.length = s.unusedPeers.length - n := by
  induction n generalizing s with
  | zero => rfl
  | succ n ih =>
    rw [DefaultPeerStorage.deleteUnusedPeer]
    split
    next hnil =>
      rw [List.getLast?_eq_none_iff.mp hnil]
      exact (Nat.zero_sub _).symm
    next peer hlast =>
      rw [ih]
      change s.unusedPeers.dropLast.length - n = _
      rw [List.length_dropLast]
      omega

theorem deleteUnusedPeer_maxPeerListSize (n : Nat) (s : DefaultPeerStorage) :
    (s.deleteUnusedPeer n).maxPeerListSize = s.maxPeerListSize := by
  induction n generalizing s with
  | zero => rfl
  | succ n ih =>
    rw [DefaultPeerStorage.deleteUnusedPeer]
    split
    next => rfl
    next => rw [ih]; rfl

theorem Sound.addOne (h : Sound s) (peer : Peer) : Sound (s.addOne peer) := by
  rw [DefaultPeerStorage.addOne]
  split
  next => exact h.of_books (mergeExisting_books ..)
  next hnew =>
    have hbooks := isBadPeer_books peer.ipaddr s
    generalize s.isBadPeer peer.ipaddr = r at hbooks ⊢
    have hs : Sound r.2 := h.of_books hbooks
    have huniq : r.2.uniqPeers = s.uniqPeers := congrArg (·.1) hbooks
    dsimp only
    split
    next => exact hs
    next =>
      refine hs.push ?_
      rw [isPeerAlreadyAdded, huniq]
      exact Bool.eq_false_iff.mpr hnew

theorem Sound.foldl_addOne (h : Sound s) (peers : List Peer) :
    Sound (peers.foldl DefaultPeerStorage.addOne s) := by
  induction peers generalizing s with
  | nil => exact h
  | cons peer peers ih => exact ih (h.addOne peer)

theorem Sound.addPeers (h : Sound s) (peers : List Peer) : Sound (s.addPeers peers) := by
  have hs : Sound (if s.unusedPeers.length < s.maxPeerListSize then
      peers.foldl DefaultPeerStorage.addOne s else s) := by
    split
    · exact h.foldl_addOne peers
    · exact h
  rw [DefaultPeerStorage.addPeers]
  generalize (if s.unusedPeers.length < s.maxPeerListSize then
      peers.foldl DefaultPeerStorage.addOne s else s) = s' at hs ⊢
  split
  · exact hs.deleteUnusedPeer _
  · exact hs

/-- One peer is added as several would be, if the list is not full. -/
theorem addPeer_fst (peer : Peer) (s : DefaultPeerStorage) :
    (s.addPeer peer).1 =
      if s.maxPeerListSize ≤ s.unusedPeers.length then s else s.addOne peer := by
  rw [addPeer, addOne]
  split
  next => rfl
  next hlt =>
    split
    next => rfl
    next =>
      have hbooks := isBadPeer_books peer.ipaddr s
      generalize s.isBadPeer peer.ipaddr = r at hbooks ⊢
      simp only [books, Prod.mk.injEq] at hbooks
      obtain ⟨-, hunused, -, -, hmax⟩ := hbooks
      dsimp only
      split
      next => rfl
      next => rw [if_neg (by rw [hunused, hmax]; exact hlt)]

theorem Sound.addPeer (h : Sound s) (peer : Peer) : Sound (s.addPeer peer).1 := by
  rw [addPeer_fst]
  split
  · exact h
  · exact h.addOne peer

/-! ## Checking out -/

theorem isIpConnectionFull_iff (h : Sound s) (ip : String) :
    s.isIpConnectionFull ip = true ↔ MAX_CONNECTIONS_PER_IP ≤ count s.usedPeers ip := by
  rw [isIpConnectionFull, h.connected.lookup]
  by_cases h0 : count s.usedPeers ip = 0
  · rw [if_pos h0, h0]
    decide
  · rw [if_neg h0]
    exact decide_eq_true_iff

/-- A turn of the loop. -/
theorem checkoutLoop_succ {rest : List Peer} (hu : s.unusedPeers = peer :: rest) (cuid n : Nat) :
    ∃ s' : DefaultPeerStorage, s'.books = books { s with unusedPeers := rest } ∧
      (∀ ip, s'.isBad ip = s.isBad ip) ∧ s'.info = s.info ∧
      s.checkoutLoop cuid (n + 1) =
        if s.isBad peer.ipaddr then checkoutLoop cuid n (s'.onErasingPeer peer)
        else if s.isIpConnectionFull peer.ipaddr then
          checkoutLoop cuid n { s' with unusedPeers := rest ++ [peer] }
        else (s'.checkOut peer cuid, some peer) := by
  have hbooks := isBadPeer_books peer.ipaddr { s with unusedPeers := rest }
  have hbad := isBad_isBadPeer peer.ipaddr (s := { s with unusedPeers := rest })
  have hfst := isBadPeer_fst peer.ipaddr { s with unusedPeers := rest }
  have hinfo := isBadPeer_info peer.ipaddr { s with unusedPeers := rest }
  rw [checkoutLoop, hu]
  dsimp only
  generalize isBadPeer peer.ipaddr { s with unusedPeers := rest } = r at *
  refine ⟨r.2, hbooks, hbad, hinfo, ?_⟩
  simp only [books, Prod.mk.injEq] at hbooks
  obtain ⟨-, h2, -, h4, -⟩ := hbooks
  have hfull : r.2.isIpConnectionFull peer.ipaddr = s.isIpConnectionFull peer.ipaddr := by
    rw [isIpConnectionFull, isIpConnectionFull, h4]
  rw [hfst, hfull, h2]
  rfl

theorem Sound.checkoutLoop (h : Sound s) (cuid n : Nat) : Sound (s.checkoutLoop cuid n).1 := by
  induction n generalizing s with
  | zero => exact h
  | succ n ih =>
    cases hu : s.unusedPeers with
    | nil =>
      rw [DefaultPeerStorage.checkoutLoop, hu]
      exact h
    | cons peer rest =>
      obtain ⟨s', hbooks, -, -, heq⟩ := checkoutLoop_succ hu cuid n
      simp only [books, Prod.mk.injEq] at hbooks
      obtain ⟨h1, h2, h3, h4, -⟩ := hbooks
      have hconn : Connected s'.usedPeers s'.ipConnections := by
        rw [h3, h4]
        exact h.connected
      have hkeyed : Keyed s'.uniqPeers ((peer :: rest ++ s'.usedPeers).map Peer.key) := by
        rw [h1, h3, ← hu]
        exact h.keyed
      rw [heq]
      split
      next =>
        refine ih ⟨?_, hconn⟩
        rw [keys]
        change Keyed (s'.uniqPeers.erase peer.key) ((s'.unusedPeers ++ s'.usedPeers).map Peer.key)
        rw [h2]
        exact hkeyed.erase
      next =>
        split
        next =>
          refine ih ⟨hkeyed.perm (Perm.map _ (Perm.append_right _ ?_)), hconn⟩
          exact (List.perm_append_singleton ..).symm
        next hfull =>
          have hnotin : peer ∉ s'.usedPeers := fun hm => by
            have hd := hkeyed.distinct
            rw [List.cons_append, List.map_cons, List.nodup_cons] at hd
            exact hd.1 (List.mem_map_of_mem (List.mem_append_right _ hm))
          have hlt : count s'.usedPeers peer.ipaddr < MAX_CONNECTIONS_PER_IP := by
            rw [isIpConnectionFull_iff h, not_le, ← h3] at hfull
            exact hfull
          have hused : (s'.checkOut peer cuid).usedPeers = peer :: s'.usedPeers := if_neg hnotin
          refine ⟨?_, ?_⟩
          · rw [keys, hused]
            change Keyed s'.uniqPeers ((s'.unusedPeers ++ peer :: s'.usedPeers).map Peer.key)
            rw [h2]
            exact hkeyed.perm (Perm.map _ List.perm_middle.symm)
          · rw [hused]
            exact hconn.increment hlt

/-- A peer comes in the place of the one that has its key. -/
theorem Sound.replace (h : Sound s) (hm : ∃ p ∈ s.unusedPeers, p.key = peer.key) :
    Sound { s with unusedPeers := peer :: s.unusedPeers.eraseP (·.key = peer.key) } := by
  obtain ⟨p, hp, hkey⟩ := hm
  obtain ⟨a, l₁, l₂, -, ha, heq, herase⟩ :=
    List.exists_of_eraseP (p := fun q => q.key = peer.key) hp (by simpa using hkey)
  have hperm : Perm (s.unusedPeers.map Peer.key)
      ((peer :: s.unusedPeers.eraseP (·.key = peer.key)).map Peer.key) := by
    rw [herase, heq, List.map_cons, ← of_decide_eq_true ha, ← List.map_cons]
    exact List.perm_middle.map _
  refine ⟨h.keyed.perm ?_, h.connected⟩
  rw [keys, keys, List.map_append, List.map_append]
  exact hperm.append_right _

theorem Sound.addAndCheckoutPeer (h : Sound s) (peer : Peer) (cuid : Nat) :
    Sound (s.addAndCheckoutPeer peer cuid).1 := by
  have hbooks := isBadPeer_books peer.ipaddr s
  rw [DefaultPeerStorage.addAndCheckoutPeer]
  generalize s.isBadPeer peer.ipaddr = r at hbooks ⊢
  have hs : Sound r.2 := h.of_books hbooks
  dsimp only
  split
  next => exact hs
  next =>
    split
    next hadded =>
      split
      next => exact hs
      next p hfind =>
        have hm : ∃ q ∈ r.2.unusedPeers, q.key = peer.key :=
          ⟨p, List.mem_of_find?_eq_some hfind, by simpa using List.find?_some hfind⟩
        have hmerged : Sound (r.2.mergePeerDiscoveryFlags peer p) := hs.of_books rfl
        exact (hmerged.replace hm).checkoutLoop cuid _
    next hnew =>
      have hnew : peer.key ∉ r.2.uniqPeers := by simpa [isPeerAlreadyAdded] using hnew
      have hpush : Sound { r.2.addUniqPeer peer with unusedPeers := peer :: r.2.unusedPeers } :=
        ⟨hs.keyed.insert hnew, hs.connected⟩
      exact hpush.checkoutLoop cuid _

theorem onReturningPeer_books (peer : Peer) (c : Connection) (s : DefaultPeerStorage) :
    (s.onReturningPeer peer c).books = (s.releaseConnection peer.ipaddr).books := by
  rw [onReturningPeer]
  dsimp only
  split
  · exact addDroppedPeer_books ..
  · rfl

theorem releaseConnection_eq (ip : String) (s : DefaultPeerStorage) :
    (s.releaseConnection ip).uniqPeers = s.uniqPeers ∧
      (s.releaseConnection ip).unusedPeers = s.unusedPeers ∧
      (s.releaseConnection ip).usedPeers = s.usedPeers ∧
      (s.releaseConnection ip).maxPeerListSize = s.maxPeerListSize := by
  rw [releaseConnection]
  split
  · exact ⟨rfl, rfl, rfl, rfl⟩
  · split
    · exact ⟨rfl, rfl, rfl, rfl⟩
    · exact ⟨rfl, rfl, rfl, rfl⟩

theorem Sound.returnPeer (h : Sound s) (peer : Peer) (c : Connection) :
    Sound (s.returnPeer peer c) := by
  rw [DefaultPeerStorage.returnPeer]
  split
  next hm =>
    have hbooks := onReturningPeer_books peer c { s with usedPeers := s.usedPeers.erase peer }
    generalize onReturningPeer peer c { s with usedPeers := s.usedPeers.erase peer } = s' at hbooks ⊢
    obtain ⟨e1, e2, e3, -⟩ :=
      releaseConnection_eq peer.ipaddr { s with usedPeers := s.usedPeers.erase peer }
    simp only [books, e1, e2, e3, Prod.mk.injEq] at hbooks
    obtain ⟨h1, h2, h3, h4, -⟩ := hbooks
    have hkeyed : Keyed s.uniqPeers (peer.key :: (s.unusedPeers ++ s.usedPeers.erase peer).map
        Peer.key) := by
      refine h.keyed.perm ?_
      rw [← List.map_cons]
      exact Perm.map _ (((List.perm_cons_erase hm).append_left _).trans List.perm_middle)
    refine ⟨?_, ?_⟩
    · change Keyed (s'.uniqPeers.erase peer.key) ((s'.unusedPeers ++ s'.usedPeers).map Peer.key)
      rw [h1, h2, h3]
      exact hkeyed.erase
    · change Connected s'.usedPeers s'.ipConnections
      rw [h3, h4]
      exact Connected.release (s := { s with usedPeers := s.usedPeers.erase peer }) h.connected hm
  next => exact h

theorem Sound.step (h : Sound s) (e : Event) : Sound (step s e) := by
  cases e with
  | addPeer peer => exact h.addPeer peer
  | addPeers peers => exact h.addPeers peers
  | addAndCheckoutPeer peer cuid => exact h.addAndCheckoutPeer peer cuid
  | checkoutPeer cuid => exact h.checkoutLoop cuid _
  | returnPeer peer c => exact h.returnPeer peer c
  | recordPeerFailure peer utp => exact h.of_books (recordPeerFailure_books ..)
  | addBadPeer ip reason random => exact h.of_books (addBadPeer_books ..)
  | addBadPeerManual ip expireTime reason => exact h.of_books rfl
  | removeBadPeer ip => exact h.of_books rfl
  | isBadPeer ip => exact h.of_books (isBadPeer_books ..)
  | outside wallclock option info => exact h.of_books rfl

end DefaultPeerStorage

end FluxCore.Peers
