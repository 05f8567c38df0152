import FluxCore.Ed2k.Answers
import FluxCore.Ed2k.ServerRounds
import Mathlib.Data.List.Nodup

/-!
# The sources of a download

A source is connected to, used and left again; one that turns out not to have the file is expired
and stays so. At a time there is one source that is in use, the current one. The periodic refresh
leaves its peer for a server without leaving the source, and the sources that the server finds then
make another source the current one: `lifecycle_iff`.
-/

namespace FluxCore.Ed2k

/-- A source in use. -/
def SourceState.IsActive (st : SourceState) : Prop :=
  st = .connecting ∨ st = .connected ∨ st = .downloading ∨ st = .queued

instance : DecidablePred SourceState.IsActive := fun _ => inferInstanceAs (Decidable (_ ∨ _))

namespace DownloadCommand

variable {c c' : DownloadCommand} {cur : PeerSource}

/-- Where a source is. -/
def endpoint (p : PeerSource) : String × Nat := (p.addr, p.port)

/-- A peer is being connected to or is connected. -/
def InUse (state : Ed2kState) : Prop := state = .peerWaitConnect ∨ Execution.Engaged state

structure Registered (c : DownloadCommand) : Prop where
  unique : (c.sources.map endpoint).Nodup
  /-- What has failed for good is expired. -/
  permanent : ∀ fp ∈ c.failedPeers, fp.permanent = true →
    ∃ src ∈ c.sources, endpoint src = (fp.addr, fp.port) ∧ src.state = .expired

structure Lifecycle (c : DownloadCommand) : Prop extends Registered c where
  /-- A peer in use is an active source. -/
  engaged : InUse c.state →
    ∃ src, c.sources[c.currentSourceIndex]? = some src ∧ src.state.IsActive

/-- Only the current source is active. -/
def OneActive (c : DownloadCommand) : Prop :=
  ∀ i src, c.sources[i]? = some src → src.state.IsActive → i = c.currentSourceIndex

/-- Expired sources stay expired. -/
def KeepsExpired (c c' : DownloadCommand) : Prop :=
  ∀ src ∈ c.sources, src.state = .expired →
    ∃ src' ∈ c'.sources, endpoint src' = endpoint src ∧ src'.state = .expired

theorem KeepsExpired.trans {c'' : DownloadCommand} (h : KeepsExpired c c')
    (h' : KeepsExpired c' c'') : KeepsExpired c c'' := by
  intro src hsrc hexp
  obtain ⟨src', hsrc', hend, hexp'⟩ := h src hsrc hexp
  obtain ⟨src'', hsrc'', hend', hexp''⟩ := h' src' hsrc' hexp'
  exact ⟨src'', hsrc'', hend'.trans hend, hexp''⟩

/-! ## Changes that leave the sources where they are -/

theorem KeepsExpired.of_keys (h : c'.sources.map sourceKey = c.sources.map sourceKey) :
    KeepsExpired c c' := by
  intro src hsrc hexp
  obtain ⟨src', hsrc', hkey⟩ := List.mem_map.mp (h ▸ List.mem_map_of_mem hsrc)
  simp only [sourceKey, Prod.mk.injEq] at hkey
  exact ⟨src', hsrc', by simp [endpoint, hkey.1, hkey.2.1], hkey.2.2.trans hexp⟩

theorem getElem?_of_keys (h : c'.sources.map sourceKey = c.sources.map sourceKey) {i : Nat}
    {src : PeerSource} (hsrc : c.sources[i]? = some src) :
    ∃ src', c'.sources[i]? = some src' ∧ sourceKey src' = sourceKey src := by
  have hget := congrArg (·[i]?) h
  simp only [List.getElem?_map, hsrc, Option.map_some] at hget
  exact Option.map_eq_some_iff.mp hget

theorem Registered.of_keys (h : c.Registered)
    (hs : c'.sources.map sourceKey = c.sources.map sourceKey)
    (hf : c'.failedPeers = c.failedPeers) : c'.Registered := by
  refine ⟨?_, fun fp hfp hperm => ?_⟩
  · have hends : ∀ c : DownloadCommand, c.sources.map endpoint =
        (c.sources.map sourceKey).map fun k => (k.1, k.2.1) := by
      intro c
      rw [List.map_map]
      rfl
    rw [hends, hs, ← hends]
    exact h.unique
  · obtain ⟨src, hsrc, hend, hexp⟩ := h.permanent fp (hf ▸ hfp) hperm
    obtain ⟨src', hsrc', hend', hexp'⟩ := KeepsExpired.of_keys hs src hsrc hexp
    exact ⟨src', hsrc', hend'.trans hend, hexp'⟩

theorem Lifecycle.of_keys (h : c.Lifecycle) (hs : c'.sources.map sourceKey = c.sources.map sourceKey)
    (hf : c'.failedPeers = c.failedPeers)
    (he : InUse c'.state → c'.currentSourceIndex = c.currentSourceIndex ∧ InUse c.state) :
    c'.Lifecycle := by
  refine ⟨h.toRegistered.of_keys hs hf, fun hin => ?_⟩
  obtain ⟨hi, hin⟩ := he hin
  obtain ⟨src, hsrc, hact⟩ := h.engaged hin
  obtain ⟨src', hsrc', hkey⟩ := getElem?_of_keys hs hsrc
  simp only [sourceKey, Prod.mk.injEq] at hkey
  exact ⟨src', hi ▸ hsrc', hkey.2.2 ▸ hact⟩

theorem OneActive.of_keys (h : c.OneActive) (hs : c'.sources.map sourceKey = c.sources.map sourceKey)
    (hi : c'.currentSourceIndex = c.currentSourceIndex) : c'.OneActive := by
  intro i src hsrc hact
  obtain ⟨src', hsrc', hkey⟩ := getElem?_of_keys hs.symm hsrc
  simp only [sourceKey, Prod.mk.injEq] at hkey
  rw [hi]
  exact h i src' hsrc' (hkey.2.2 ▸ hact)

/-! ## Changes of the current source -/

theorem mem_of_modify {f : PeerSource → PeerSource} {i : Nat} {src : PeerSource}
    {sources : List PeerSource} (hsrc : src ∈ sources) :
    ∃ src' ∈ sources.modify i f, src' = src ∨ sources[i]? = some src ∧ src' = f src := by
  obtain ⟨j, hj⟩ := List.getElem?_of_mem hsrc
  have hget : (sources.modify i f)[j]? = some (if i = j then f src else src) := by
    rw [List.getElem?_modify, hj]
    split <;> simp_all
  refine ⟨_, List.mem_of_getElem? hget, ?_⟩
  split
  next heq => exact .inr ⟨heq ▸ hj, rfl⟩
  · exact .inl rfl

theorem KeepsExpired.modify {f : PeerSource → PeerSource} (hf : ∀ p, endpoint (f p) = endpoint p)
    (hs : c'.sources = c.sources.modify c.currentSourceIndex f)
    (hcur : ∀ cur, c.sources[c.currentSourceIndex]? = some cur → cur.state = .expired →
      (f cur).state = .expired) : KeepsExpired c c' := by
  intro src hsrc hexp
  obtain ⟨src', hsrc', rfl | ⟨hget, rfl⟩⟩ := mem_of_modify hsrc
  · exact ⟨src', hs ▸ hsrc', rfl, hexp⟩
  · exact ⟨f src, hs ▸ hsrc', hf src, hcur src hget hexp⟩

theorem map_endpoint_modify {f : PeerSource → PeerSource} (hf : ∀ p, endpoint (f p) = endpoint p)
    (sources : List PeerSource) (i : Nat) :
    (sources.modify i f).map endpoint = sources.map endpoint := by
  refine List.ext_getElem (by simp) fun j h1 h2 => ?_
  simp only [List.getElem_map, List.getElem_modify]
  split
  exacts [hf _, rfl]

/-- A source is one of the current source's, or it is the current source. -/
theorem OneActive.modify (h : c.OneActive) {f : PeerSource → PeerSource}
    (hs : c'.sources = c.sources.modify c.currentSourceIndex f)
    (hi : c'.currentSourceIndex = c.currentSourceIndex) : c'.OneActive := by
  intro i src hsrc hact
  rw [hs, List.getElem?_modify] at hsrc
  rw [hi]
  obtain ⟨p, hp, heq⟩ := Option.map_eq_some_iff.mp hsrc
  by_contra hne
  rw [if_neg (Ne.symm hne)] at heq
  exact hne (h i src (heq ▸ hp) hact)

theorem Registered.modify (h : c.Registered) {f : PeerSource → PeerSource}
    (hf : ∀ p, endpoint (f p) = endpoint p)
    (hs : c'.sources = c.sources.modify c.currentSourceIndex f)
    (hkeep : KeepsExpired c c')
    (hperm : ∀ fp ∈ c'.failedPeers, fp.permanent = true → fp ∈ c.failedPeers ∨
      ∃ src ∈ c'.sources, endpoint src = (fp.addr, fp.port) ∧ src.state = .expired) :
    c'.Registered := by
  refine ⟨by rw [hs, map_endpoint_modify hf]; exact h.unique, fun fp hfp hp => ?_⟩
  rcases hperm fp hfp hp with hold | hnew
  · obtain ⟨src, hsrc, hend, hexp⟩ := h.permanent fp hold hp
    obtain ⟨src', hsrc', hend', hexp'⟩ := hkeep src hsrc hexp
    exact ⟨src', hsrc', hend'.trans hend, hexp'⟩
  · exact hnew

/-! ## Leaving a source -/

/-- The mark of a peer that has failed. -/
def failedMark (permanent : Bool) (now : Nat) (p : PeerSource) : PeerSource :=
  { p with state := if permanent then .expired else .failed, lastActive := now }

/-- The current source is the only one at its address. -/
theorem markPeerFailed_current (hunique : (c.sources.map endpoint).Nodup)
    (hcur : c.sources[c.currentSourceIndex]? = some cur) (permanent : Bool) (wallclock now : Nat) :
    (c.markPeerFailed cur.addr cur.port permanent wallclock now).sources =
      c.sources.modify c.currentSourceIndex (failedMark permanent now) := by
  obtain ⟨hlt, hget⟩ := List.getElem?_eq_some_iff.mp hcur
  have hfind : c.sources.findIdx? (fun s => s.addr = cur.addr && s.port = cur.port) =
      some c.currentSourceIndex := by
    refine List.findIdx?_eq_some_iff_getElem.mpr ⟨hlt, by simp [hget], fun j hj => ?_⟩
    intro heq
    simp only [Bool.and_eq_true, decide_eq_true_eq] at heq
    have hends : (c.sources.map endpoint)[j]? =
        (c.sources.map endpoint)[c.currentSourceIndex]? := by
      rw [List.getElem?_map, List.getElem?_map, hcur, List.getElem?_eq_getElem (by omega)]
      simp [endpoint, heq.1, heq.2]
    have := (List.getElem?_inj (by simpa using hj.trans hlt) hunique).mp hends
    omega
  unfold markPeerFailed
  dsimp only
  rw [hfind]
  rfl

theorem permanent_of_markPeerFailed {addr : String} {port : Nat} {permanent : Bool}
    {wallclock now : Nat} {fp : FailedPeer}
    (h : fp ∈ (c.markPeerFailed addr port permanent wallclock now).failedPeers) :
    fp ∈ c.failedPeers ∨ fp.addr = addr ∧ fp.port = port ∧ fp.permanent = permanent := by
  unfold markPeerFailed at h
  dsimp only at h
  split at h
  · rcases List.mem_or_eq_of_mem_set h with h | rfl
    exacts [.inl h, .inr ⟨rfl, rfl, rfl⟩]
  · rcases List.mem_append.mp (List.mem_of_mem_filter h) with h | h
    · exact .inl h
    · cases List.mem_singleton.mp h
      exact .inr ⟨rfl, rfl, rfl⟩

/-- What leaving a peer keeps, and that no source is in use then. -/
structure Leaves (c c' : DownloadCommand) : Prop where
  registered : c'.Registered
  keeps : KeepsExpired c c'
  idle : c.OneActive → ∀ src ∈ c'.sources, ¬src.state.IsActive

theorem leaves_mark (h : c.Registered) (hcur : c.sources[c.currentSourceIndex]? = some cur)
    {permanent : Bool} (hp : permanent = true ∨ cur.state ≠ .expired) (wallclock now : Nat) :
    Leaves c (c.markPeerFailed cur.addr cur.port permanent wallclock now) := by
  have hs := markPeerFailed_current h.unique hcur permanent wallclock now
  have hend : ∀ p, endpoint (failedMark permanent now p) = endpoint p := fun _ => rfl
  have hkeep : KeepsExpired c (c.markPeerFailed cur.addr cur.port permanent wallclock now) := by
    refine .modify hend hs fun cur' hcur' hexp => ?_
    cases hcur.symm.trans hcur'
    simp [failedMark, hp.resolve_right (not_not.mpr hexp)]
  refine ⟨h.modify hend hs hkeep fun fp hfp hperm => ?_, hkeep, fun hone src hsrc hact => ?_⟩
  · refine (permanent_of_markPeerFailed hfp).imp_right fun ⟨haddr, hport, heq⟩ => ?_
    refine ⟨failedMark permanent now cur, ?_, by rw [haddr, hport]; rfl, ?_⟩
    · rw [hs]
      refine List.mem_of_getElem? (i := c.currentSourceIndex) ?_
      simp [hcur]
    · simp [failedMark, heq ▸ hperm]
  · obtain ⟨i, hi⟩ := List.getElem?_of_mem hsrc
    have hidx := hone.modify hs rfl i src hi hact
    have hi' : (c.markPeerFailed cur.addr cur.port permanent wallclock now).sources[
        c.currentSourceIndex]? = some src := hidx ▸ hi
    rw [hs, List.getElem?_modify, hcur] at hi'
    cases hi'
    unfold failedMark at hact
    rcases hact with hact | hact | hact | hact <;> revert hact <;> cases permanent <;> simp

theorem Leaves.refl (h : c.Registered)
    (hidle : ∀ cur, c.sources[c.currentSourceIndex]? = some cur → ¬cur.state.IsActive) :
    Leaves c c := by
  refine ⟨h, fun src hsrc hexp => ⟨src, hsrc, rfl, hexp⟩, fun hone src hsrc hact => ?_⟩
  obtain ⟨i, hi⟩ := List.getElem?_of_mem hsrc
  exact hidle src (hone i src hi hact ▸ hi) hact

theorem leaves_leavePeer (h : c.Registered) (wallclock now : Nat) :
    Leaves c (c.leavePeer wallclock now) := by
  unfold leavePeer
  split
  next cur hcur =>
    split
    next hact =>
      refine leaves_mark h hcur (.inr fun hexp => ?_) wallclock now
      simp [hexp] at hact
    next hact =>
      refine .refl h fun cur' hcur' hact' => hact ?_
      cases hcur.symm.trans hcur'
      simpa [SourceState.IsActive, or_assoc] using hact'
  next hnone => exact .refl h fun cur hcur => by rw [hnone] at hcur; cases hcur

theorem leaves_tryNextPeer (h : c.Registered) (wallclock now : Nat) :
    Leaves c (c.tryNextPeer wallclock now) ∧ ¬InUse (c.tryNextPeer wallclock now).state := by
  obtain ⟨_, _, _, _, hgoes, hnext⟩ := Execution.tryNextPeer_spec c wallclock now
  obtain ⟨h1, h2, h3⟩ := leaves_leavePeer h wallclock now
  rw [hnext]
  refine ⟨⟨h1.of_keys rfl rfl, h2, h3⟩, ?_⟩
  have haway : ∀ st, st = .peerConnect ∨ st = .serverConnect ∨ st = .failure → ¬InUse st := by
    rintro _ (rfl | rfl | rfl) <;> simp [InUse, Execution.Engaged]
  cases hgoes with
  | peer _ => exact haway _ (.inl rfl)
  | server _ => exact haway _ (.inr (.inl rfl))
  | round _ _ => exact haway _ (.inr (.inl rfl))
  | exhausted _ _ => exact haway _ (.inr (.inr rfl))

theorem Leaves.trans {c'' : DownloadCommand} (h : Leaves c c') (h' : Leaves c' c'') :
    Leaves c c'' := by
  refine ⟨h'.registered, h.keeps.trans h'.keeps, fun hone => h'.idle fun i src hsrc hact => ?_⟩
  exact absurd hact (h.idle hone src (List.mem_of_getElem? hsrc))

theorem Leaves.oneActive (h : Leaves c c') (hone : c.OneActive) : c'.OneActive :=
  fun _ src hsrc hact => absurd hact (h.idle hone src (List.mem_of_getElem? hsrc))

theorem leaves_drop (h : c.Registered) (hcur : c.sources[c.currentSourceIndex]? = some cur)
    (wallclock now : Nat) :
    Leaves c ((c.markPeerFailed cur.addr cur.port true wallclock now).tryNextPeer wallclock now) ∧
      ¬InUse
        ((c.markPeerFailed cur.addr cur.port true wallclock now).tryNextPeer wallclock now).state := by
  have hmark := leaves_mark h hcur (.inl rfl) wallclock now
  obtain ⟨hleave, haway⟩ := leaves_tryNextPeer hmark.registered wallclock now
  exact ⟨hmark.trans hleave, haway⟩

end DownloadCommand

namespace Execution

open DownloadCommand

variable {cfg : Config} {t : Tick} {st : Ed2kState} {s s' : Execution}

/-! ## The moves -/

/-- Expired sources stay expired and are not connected to. -/
structure LeavesExpired (s s' : Execution) : Prop where
  keeps : KeepsExpired s.toDownloadCommand s'.toDownloadCommand
  attempts : ∃ new, s'.attempts = s.attempts ++ new ∧
    ∀ src ∈ s.sources, src.state = .expired → Attempt.peer src.addr src.port ∉ new

theorem LeavesExpired.of_keeps (h : KeepsExpired s.toDownloadCommand s'.toDownloadCommand)
    (ha : s'.attempts = s.attempts) : LeavesExpired s s' :=
  ⟨h, [], by simp [ha], fun _ _ _ => List.not_mem_nil⟩

theorem LeavesExpired.trans {s'' : Execution} (h : LeavesExpired s s')
    (h' : LeavesExpired s' s'') : LeavesExpired s s'' := by
  obtain ⟨new, ha, hnew⟩ := h.attempts
  obtain ⟨new', ha', hnew'⟩ := h'.attempts
  refine ⟨h.keeps.trans h'.keeps, new ++ new', by rw [ha', ha, List.append_assoc], ?_⟩
  intro src hsrc hexp hmem
  obtain ⟨src', hsrc', hend, hexp'⟩ := h.keeps src hsrc hexp
  simp only [endpoint, Prod.mk.injEq] at hend
  rcases List.mem_append.mp hmem with hmem | hmem
  · exact hnew src hsrc hexp hmem
  · exact hnew' src' hsrc' hexp' (by rwa [hend.1, hend.2])

/-- A move that leaves the sources alone. -/
theorem lifecycle_aside (h : s.Lifecycle)
    (hs : s'.sources.map sourceKey = s.sources.map sourceKey)
    (hf : s'.failedPeers = s.failedPeers) (ha : s'.attempts = s.attempts)
    (he : InUse s'.state → s'.currentSourceIndex = s.currentSourceIndex ∧ InUse s.state) :
    s'.Lifecycle ∧ LeavesExpired s s' :=
  ⟨h.of_keys hs hf he, .of_keeps (.of_keys hs) ha⟩

/-- A move that leaves the peer. -/
theorem lifecycle_leaves (h : Leaves s.toDownloadCommand s'.toDownloadCommand)
    (haway : ¬InUse s'.state) (ha : s'.attempts = s.attempts) :
    s'.Lifecycle ∧ LeavesExpired s s' :=
  ⟨⟨h.registered, fun hin => absurd hin haway⟩, .of_keeps h.keeps ha⟩

theorem not_inUse {st : Ed2kState} (h : st = .serverConnect ∨ st = .serverLogin ∨
    st = .serverGetSources ∨ st = .serverWaitSources ∨ st = .peerConnect ∨ st = .verifyHash ∨
    st = .finished ∨ st = .failure) : ¬InUse st := by
  rcases h with rfl | rfl | rfl | rfl | rfl | rfl | rfl | rfl <;> simp [InUse, Engaged]

theorem Follows.inUse {st st' : Ed2kState} (h : Follows st st') (hin : InUse st') : InUse st := by
  cases h <;> simp_all [InUse, Engaged]

theorem addSource_lifecycle {c : DownloadCommand} (h : c.Lifecycle) (addr : String)
    (port wallclock now : Nat) : (c.addSource addr port wallclock now).Lifecycle ∧
      KeepsExpired c (c.addSource addr port wallclock now) ∧
      (c.OneActive → (c.addSource addr port wallclock now).OneActive) := by
  unfold DownloadCommand.addSource
  split
  · exact ⟨h, .of_keys rfl, id⟩
  next hnew =>
    simp only [Bool.or_eq_true, decide_eq_true_eq, not_or, List.any_eq_true, Bool.and_eq_true,
      not_exists, not_and] at hnew
    obtain ⟨⟨-, hfresh⟩, -⟩ := hnew
    have hkeep : ∀ src : PeerSource, KeepsExpired c { c with sources := c.sources ++ [src] } :=
      fun src p hp hexp => ⟨p, List.mem_append_left _ hp, rfl, hexp⟩
    refine ⟨⟨⟨?_, fun fp hfp hperm => ?_⟩, fun hin => ?_⟩, hkeep _, fun hone i src hsrc hact => ?_⟩
    · rw [List.map_append, List.nodup_append]
      refine ⟨h.unique, List.nodup_singleton _, fun a ha b hb heq => ?_⟩
      cases List.mem_singleton.mp hb
      obtain ⟨src, hsrc, rfl⟩ := List.mem_map.mp ha
      simp only [endpoint, Prod.mk.injEq] at heq
      exact hfresh src hsrc heq.1 heq.2
    · obtain ⟨src, hsrc, hend, hexp⟩ := h.permanent fp hfp hperm
      exact ⟨src, List.mem_append_left _ hsrc, hend, hexp⟩
    · obtain ⟨src, hsrc, hact⟩ := h.engaged hin
      exact ⟨src, List.getElem?_append_left (List.getElem?_eq_some_iff.mp hsrc).1 ▸ hsrc, hact⟩
    · rcases Nat.lt_or_ge i c.sources.length with hi | hi
      · exact hone i src ((List.getElem?_append_left hi).symm.trans hsrc) hact
      · rw [List.getElem?_append_right hi] at hsrc
        cases List.mem_singleton.mp (List.mem_of_getElem? hsrc)
        rcases hact with hact | hact | hact | hact <;> cases hact

theorem handleSendingPart_lifecycle {c : DownloadCommand} (h : c.Lifecycle) (payload : Bytes)
    (is64 writeOk : Bool) (wallclock now : Nat) :
    (c.handleSendingPart payload is64 writeOk wallclock now).2.Lifecycle ∧
      KeepsExpired c (c.handleSendingPart payload is64 writeOk wallclock now).2 ∧
      (c.OneActive → (c.handleSendingPart payload is64 writeOk wallclock now).2.OneActive) := by
  have hanswer := c.handleSendingPart_answered payload is64 writeOk wallclock now
  generalize c.handleSendingPart payload is64 writeOk wallclock now = m at hanswer
  have hleft : ∀ {c' : DownloadCommand}, Leaves c c' ∧ ¬InUse c'.state →
      c'.Lifecycle ∧ KeepsExpired c c' ∧ (c.OneActive → c'.OneActive) :=
    fun ⟨hl, haway⟩ => ⟨⟨hl.registered, fun hin => absurd hin haway⟩, hl.keeps, hl.oneActive⟩
  cases hanswer with
  | refused hc =>
    rcases hc with rfl | ⟨cur, hcur, rfl⟩
    · exact hleft (leaves_tryNextPeer h.toRegistered wallclock now)
    · exact hleft (leaves_drop h.toRegistered hcur wallclock now)
  | ignored _ => exact ⟨h, .of_keys rfl, id⟩
  | accepted _ _ _ hr _ _ =>
    obtain ⟨_, _, _, _, _, _, _, hform, hkeys⟩ :=
      (delivers_acceptData _ hr (sentData payload is64) writeOk).trans (delivers_settled now _)
    rw [hform]
    exact ⟨h.of_keys hkeys rfl fun hin => ⟨rfl, hin⟩, .of_keys hkeys, fun hone =>
      hone.of_keys hkeys rfl⟩

theorem updatePartAvailability_keys (c : DownloadCommand) (i : Nat) (bitmap : List Bool) :
    ∃ sources parts, c.updatePartAvailability i bitmap = { c with sources, parts } ∧
      sources.map sourceKey = c.sources.map sourceKey := by
  unfold DownloadCommand.updatePartAvailability
  split
  exacts [⟨_, _, rfl, rfl⟩, ⟨_, _, rfl, map_modify_sourceKey _ _ fun _ => rfl⟩]

theorem dropPeer_leaves (h : s.Lifecycle) (t : Tick) :
    Leaves s.toDownloadCommand (s.dropPeer t).toDownloadCommand ∧ ¬InUse (s.dropPeer t).state ∧
      (s.dropPeer t).attempts = s.attempts := by
  unfold dropPeer
  split
  next cur hcur =>
    obtain ⟨hl, haway⟩ := leaves_drop h.toRegistered hcur t.turn.wallclock t.now
    exact ⟨hl, haway, rfl⟩
  · obtain ⟨hl, haway⟩ := leaves_tryNextPeer h.toRegistered t.turn.wallclock t.now
    exact ⟨hl, haway, rfl⟩

/-- A move that marks the current source as one in use. -/
theorem lifecycle_use (h : s.Lifecycle) (f : PeerSource → PeerSource)
    (hend : ∀ p, endpoint (f p) = endpoint p)
    (hcur : ∀ cur, s.sources[s.currentSourceIndex]? = some cur → cur.state ≠ .expired)
    (hact : ∀ p, (f p).state.IsActive)
    (hs : s'.sources = s.sources.modify s.currentSourceIndex f)
    (hi : s'.currentSourceIndex = s.currentSourceIndex) (hf : s'.failedPeers = s.failedPeers)
    (hin : InUse s'.state → InUse s.state) :
    s'.Lifecycle ∧ KeepsExpired s.toDownloadCommand s'.toDownloadCommand := by
  have hkeep : KeepsExpired s.toDownloadCommand s'.toDownloadCommand :=
    .modify hend hs fun cur hget hexp => absurd hexp (hcur cur hget)
  refine ⟨⟨h.toRegistered.modify hend hs hkeep fun fp hfp _ => .inl (hf ▸ hfp), fun hin' => ?_⟩,
    hkeep⟩
  obtain ⟨src, hsrc, -⟩ := h.engaged (hin hin')
  exact ⟨f src, by rw [hs, hi]; simp [hsrc], hact src⟩

theorem Marks.isActive {f : PeerSource → PeerSource} (hf : Marks f) (p : PeerSource) :
    (f p).state.IsActive := .inr (hf.active p)

/-- Every move keeps the sources registered and the expired ones expired. -/
theorem lifecycle_move (hm : Move cfg t st s s') (h : s.Lifecycle) :
    s'.Lifecycle ∧ LeavesExpired s s' := by
  have haside : ∀ {s' : Execution}, s'.sources = s.sources → s'.failedPeers = s.failedPeers →
      s'.attempts = s.attempts →
      (InUse s'.state → s'.currentSourceIndex = s.currentSourceIndex ∧ InUse s.state) →
      s'.Lifecycle ∧ LeavesExpired s s' := fun hs => lifecycle_aside h (by rw [hs])
  cases hm with
  | learn addr port =>
    obtain ⟨h1, h2, -⟩ := addSource_lifecycle h addr port t.turn.wallclock t.now
    exact ⟨h1, .of_keeps h2 rfl⟩
  | status _ bitmap =>
    obtain ⟨_, _, hform, hkeys⟩ := updatePartAvailability_keys s.toDownloadCommand
      s.currentSourceIndex bitmap
    rw [hform]
    exact lifecycle_aside h hkeys rfl rfl fun hin => ⟨rfl, hin⟩
  | mark he f hf =>
    have hend : ∀ p, endpoint (f p) = endpoint p := fun p => by
      simp [endpoint, hf.addr, hf.port]
    have hused : ∀ cur, s.sources[s.currentSourceIndex]? = some cur → cur.state ≠ .expired := by
      intro cur hcur hexp
      obtain ⟨src, hsrc, hact⟩ := h.engaged (.inr he)
      cases hcur.symm.trans hsrc
      rcases hact with hact | hact | hact | hact <;> rw [hexp] at hact <;> cases hact
    have hmark : (s.setCurrent f).Lifecycle ∧
        KeepsExpired s.toDownloadCommand (s.setCurrent f).toDownloadCommand :=
      lifecycle_use h f hend hused hf.isActive rfl rfl rfl id
    exact ⟨hmark.1, .of_keeps hmark.2 rfl⟩
  | phase hf => exact haside rfl rfl rfl fun hin => ⟨rfl, hf.inUse hin⟩
  | named _ => exact haside rfl rfl rfl fun hin => ⟨rfl, hin⟩
  | leave _ =>
    obtain ⟨hl, haway⟩ := leaves_tryNextPeer h.toRegistered t.turn.wallclock t.now
    exact lifecycle_leaves hl haway rfl
  | drop _ =>
    obtain ⟨hl, haway, ha⟩ := dropPeer_leaves h t
    exact lifecycle_leaves hl haway ha
  | nextServer _ => exact haside rfl rfl rfl fun hin => absurd hin (not_inUse (.inl rfl))
  | skipServer hs => exact haside rfl rfl rfl fun hin => absurd hin (not_inUse (.inl hs))
  | serverList _ =>
    unfold buildServerList
    split
    · exact haside rfl rfl rfl fun hin => ⟨rfl, hin⟩
    · exact haside rfl rfl rfl fun hin => ⟨rfl, hin⟩
  | round hs _ _ => exact haside rfl rfl rfl fun hin => absurd hin (not_inUse (.inl hs))
  | exhausted _ _ _ => exact haside rfl rfl rfl fun hin => absurd hin (not_inUse (by simp))
  | tryServer hs _ =>
    have hserver : ∀ {s' : Execution}, s'.sources = s.sources → s'.failedPeers = s.failedPeers →
        s'.state = s.state → s'.attempts = s.attempts ++ [Attempt.server s.currentServerIndex] →
        s'.Lifecycle ∧ LeavesExpired s s' := by
      intro s' hsources hfailed hstate ha
      refine ⟨h.of_keys (by rw [hsources]) hfailed fun hin => ?_, .of_keys (by rw [hsources]), _, ha,
        by simp⟩
      exact absurd hin (not_inUse (.inl (hstate.trans hs)))
    unfold initiateServer
    dsimp only
    split <;> exact hserver rfl rfl rfl rfl
  | waited _ hs =>
    obtain ⟨_, _, _, hform, hstate⟩ := reconnectServer_form s.toDownloadCommand
    rw [hform]
    refine haside rfl rfl rfl fun hin => absurd hin (not_inUse ?_)
    rcases hstate with hstate | hstate
    exacts [.inl hstate, by simp [hstate, hs]]
  | passOver hs _ _ _ => exact haside rfl rfl rfl fun hin => absurd hin (not_inUse (by simp [hs]))
  | connect hs src hsrc hst =>
    have hused : ∀ cur, s.sources[s.currentSourceIndex]? = some cur → cur.state ≠ .expired := by
      intro cur hcur
      cases hsrc.symm.trans hcur
      exact hst
    let f (p : PeerSource) : PeerSource := { p with state := .connecting, lastActive := t.now }
    have hmark : (s.setCurrent f).Lifecycle ∧
        KeepsExpired s.toDownloadCommand (s.setCurrent f).toDownloadCommand :=
      lifecycle_use h f (fun _ => rfl) hused (fun _ => .inl rfl) rfl rfl rfl id
    refine ⟨hmark.1.of_keys rfl rfl fun hin => ⟨rfl, hin⟩, hmark.2, _, rfl,
      fun old hold hexp hmem => ?_⟩
    -- Two sources at one address are one source.
    obtain ⟨haddr, hport⟩ : old.addr = src.addr ∧ old.port = src.port := by simpa using hmem
    have hsame := List.inj_on_of_nodup_map h.unique hold (List.mem_of_getElem? hsrc)
      (by simp [endpoint, haddr, hport])
    exact hst (hsame ▸ hexp)
  | connecting hs src hsrc hst =>
    refine ⟨⟨h.toRegistered.of_keys rfl rfl, fun _ => ⟨src, hsrc, .inl hst⟩⟩,
      .of_keeps (.of_keys rfl) rfl⟩
  | found _ _ _ => exact haside rfl rfl rfl fun hin => absurd hin (not_inUse (by simp))
  | refresh _ => exact haside rfl rfl rfl fun hin => absurd hin (not_inUse (.inl rfl))
  | fill hs =>
    obtain ⟨_, _, _, _, _, hasks, -⟩ := asks_fill t.turn MAX_INFLIGHT_BLOCKS s.toDownloadCommand
    rw [hasks]
    exact haside rfl rfl rfl fun hin => ⟨rfl, hin⟩
  | part _ payload is64 =>
    obtain ⟨h1, h2, -⟩ := handleSendingPart_lifecycle h payload is64 t.writeOk t.turn.wallclock t.now
    rw [← sendingPart_command] at h1 h2
    exact ⟨h1, .of_keeps h2 (sendingPart_attempts ..)⟩
  | complete _ _ => exact haside rfl rfl rfl fun hin => absurd hin (not_inUse (by simp))
  | verified _ => exact haside rfl rfl rfl fun hin => absurd hin (not_inUse (by simp))
  | abort _ => exact haside rfl rfl rfl fun hin => ⟨rfl, hin⟩
  | done => exact haside rfl rfl rfl fun hin => ⟨rfl, hin⟩

/-- Every move but one leaves the current source the only one that is active. -/
theorem oneActive_move (hst : st ≠ .serverGetSources) (hm : Move cfg t st s s')
    (h : s.Lifecycle) (hone : s.OneActive) : s'.OneActive := by
  cases hm with
  | learn addr port => exact (addSource_lifecycle h addr port t.turn.wallclock t.now).2.2 hone
  | status _ bitmap =>
    obtain ⟨_, _, hform, hkeys⟩ := updatePartAvailability_keys s.toDownloadCommand
      s.currentSourceIndex bitmap
    rw [hform]
    exact hone.of_keys hkeys rfl
  | mark _ f _ => exact hone.modify rfl rfl
  | phase _ => exact hone
  | named _ => exact hone
  | leave _ => exact (leaves_tryNextPeer h.toRegistered t.turn.wallclock t.now).1.oneActive hone
  | drop _ => exact (dropPeer_leaves h t).1.oneActive hone
  | nextServer _ => exact hone
  | skipServer _ => exact hone
  | serverList _ =>
    unfold buildServerList
    split <;> exact hone
  | round _ _ _ => exact hone
  | exhausted _ _ _ => exact hone
  | tryServer _ _ =>
    unfold initiateServer
    dsimp only
    split <;> exact hone
  | waited _ _ =>
    obtain ⟨_, _, _, hform, -⟩ := reconnectServer_form s.toDownloadCommand
    rw [hform]
    exact hone
  | passOver _ src hsrc hst =>
    intro i p hp hact
    have hcur : s.sources[s.currentSourceIndex]? = some p := hone i p hp hact ▸ hp
    cases hsrc.symm.trans hcur
    rcases hst with hst | hst <;> rcases hact with hact | hact | hact | hact <;>
      rw [hst] at hact <;> cases hact
  | connect _ _ _ _ => exact hone.modify rfl rfl
  | connecting _ _ _ _ => exact hone
  | found h0 _ _ => exact absurd h0 hst
  | refresh _ => exact hone
  | fill _ =>
    obtain ⟨_, _, _, _, _, hasks, -⟩ := asks_fill t.turn MAX_INFLIGHT_BLOCKS s.toDownloadCommand
    rw [hasks]
    exact hone
  | part _ payload is64 =>
    have hpart := (handleSendingPart_lifecycle h payload is64 t.writeOk t.turn.wallclock t.now).2.2
      hone
    rwa [← sendingPart_command] at hpart
  | complete _ _ => exact hone
  | verified _ => exact hone
  | abort _ => exact hone
  | done => exact hone

/-! ## The answer of a server -/

/-- A server answers with the sources of the file. -/
def FindsSources (s : Execution) (t : Tick) : Prop :=
  Switches s t ∧ s.state = .serverGetSources ∧ s.rawFileHash.length = 16 ∧
    ∃ f, t.incoming = .frame f ∧ f.protocol = ED2K_PROT_EDONKEY ∧ f.opcode = FOUND_SOURCES ∧
      17 ≤ f.payload.length ∧ f.payload.take 16 = s.rawFileHash

/-- The answer comes while a source other than the first one is in use. -/
def AbandonsSource (s : Execution) (t : Tick) : Prop :=
  FindsSources s t ∧ s.currentSourceIndex ≠ 0 ∧
    ∃ src, s.sources[s.currentSourceIndex]? = some src ∧ src.state.IsActive

theorem addSources_append (srcs : List (String × Nat)) (c : DownloadCommand)
    (wallclock now : Nat) : ∃ new : List PeerSource, (∀ p ∈ new, p.state = .new) ∧
      srcs.foldl (fun c src => c.addSource src.1 src.2 wallclock now) c =
        { c with sources := c.sources ++ new } := by
  induction srcs generalizing c with
  | nil => exact ⟨[], nofun, by simp⟩
  | cons src srcs ih =>
    obtain ⟨new, hnew, hall⟩ := ih (c.addSource src.1 src.2 wallclock now)
    rw [List.foldl_cons, hall]
    unfold DownloadCommand.addSource
    split
    · exact ⟨new, hnew, rfl⟩
    · refine ⟨_ :: new, fun p hp => ?_, by rw [List.append_assoc]; rfl⟩
      rcases List.mem_cons.mp hp with rfl | hp
      exacts [rfl, hnew p hp]

/-- The new sources come behind the old ones, and the first source becomes the current one. -/
theorem execute_found (cfg : Config) (h : FindsSources s t) :
    ∃ new : List PeerSource, (∀ p ∈ new, p.state = .new) ∧
      (s.execute cfg t).sources = s.sources ++ new ∧
      (s.sources ++ new ≠ [] → (s.execute cfg t).currentSourceIndex = 0) := by
  obtain ⟨hsw, hs, hhash, f, hf, hprot, hop, hlen, htake⟩ := h
  obtain ⟨new, hnew, hall⟩ := addSources_append (foundSources f.payload) s.toDownloadCommand
    t.turn.wallclock t.now
  refine ⟨new, hnew, ?_⟩
  rw [execute_switch cfg hsw]
  unfold switch
  rw [hs]
  dsimp only [serverGetSources]
  rw [if_neg (not_not.mpr hhash), hf]
  dsimp only
  have hchatter : chatter f = false := by
    unfold chatter
    rw [hop, hprot]
    decide
  rw [hchatter, if_neg (by decide), hall, if_neg (by simp [hprot, hop]; omega),
    if_neg (not_not.mpr htake)]
  dsimp only
  split
  next hempty => exact ⟨rfl, fun hne => absurd (by simpa using hempty) hne⟩
  · exact ⟨rfl, fun _ => rfl⟩

/-- Without such an answer the sources stay what they are. -/
theorem execute_getSources (cfg : Config) (hs : s.state = .serverGetSources)
    (h : ¬FindsSources s t) : (s.execute cfg t).sources = s.sources ∧
      (s.execute cfg t).currentSourceIndex = s.currentSourceIndex := by
  by_cases hsw : Switches s t
  · rw [execute_switch cfg hsw]
    unfold switch
    rw [hs]
    dsimp only [serverGetSources]
    split
    · exact ⟨rfl, rfl⟩
    next hhash =>
    split
    · exact ⟨rfl, rfl⟩
    · exact ⟨rfl, rfl⟩
    next f hf =>
    split
    · exact ⟨rfl, rfl⟩
    split
    · exact ⟨rfl, rfl⟩
    next hform =>
    split
    · exact ⟨rfl, rfl⟩
    next htake =>
      simp only [Bool.or_eq_true, Bool.not_eq_true', Bool.and_eq_false_iff, decide_eq_false_iff_not,
        decide_eq_true_eq, not_or, not_not, not_lt] at hform
      exact absurd ⟨hsw, hs, not_not.mp hhash, f, hf, hform.1.1, hform.1.2, hform.2,
        not_not.mp htake⟩ h
  · rcases execute_not_switch cfg hsw with ⟨-, heq⟩ | heq | ⟨-, heq⟩ <;> rw [heq]
    · exact ⟨rfl, rfl⟩
    · exact ⟨rfl, rfl⟩
    · unfold socketDead
      rw [if_pos (by simp [hs])]
      exact ⟨rfl, rfl⟩

/-! ## Runs -/

theorem lifecycle_execute (cfg : Config) (h : s.Lifecycle) (t : Tick) :
    (s.execute cfg t).Lifecycle ∧ LeavesExpired s (s.execute cfg t) := by
  let inv (s' : Execution) : Prop := s'.Lifecycle ∧ LeavesExpired s s'
  have hmove : ∀ {s₁ s₂}, Move cfg t s.state s₁ s₂ → inv s₁ → inv s₂ := fun hm ⟨h1, h2⟩ =>
    ⟨(lifecycle_move hm h1).1, h2.trans (lifecycle_move hm h1).2⟩
  exact of_moves hmove (execute_moves cfg t s) ⟨h, .of_keeps (.of_keys rfl) rfl⟩

theorem oneActive_execute (cfg : Config) (h : s.Lifecycle) (hone : s.OneActive)
    (ha : ¬AbandonsSource s t) : (s.execute cfg t).OneActive := by
  by_cases hs : s.state = .serverGetSources
  · by_cases hfind : FindsSources s t
    · obtain ⟨new, hnew, hsources, hindex⟩ := execute_found cfg hfind
      intro i src hsrc hact
      rw [hsources] at hsrc
      rw [hindex (List.ne_nil_of_mem (List.mem_of_getElem? hsrc))]
      rcases Nat.lt_or_ge i s.sources.length with hi | hi
      · rw [List.getElem?_append_left hi] at hsrc
        have hcur := hone i src hsrc hact
        by_contra hne
        exact ha ⟨hfind, hcur ▸ hne, src, hcur ▸ hsrc, hact⟩
      · rw [List.getElem?_append_right hi] at hsrc
        rw [hnew src (List.mem_of_getElem? hsrc)] at hact
        rcases hact with hact | hact | hact | hact <;> cases hact
    · obtain ⟨hsources, hindex⟩ := execute_getSources cfg hs hfind
      exact hone.of_keys (by rw [hsources]) hindex
  · let inv (s' : Execution) : Prop := s'.Lifecycle ∧ s'.OneActive
    have hmove : ∀ {s₁ s₂}, Move cfg t s.state s₁ s₂ → inv s₁ → inv s₂ := fun hm ⟨h1, h2⟩ =>
      ⟨(lifecycle_move hm h1).1, oneActive_move hs hm h1 h2⟩
    exact (of_moves hmove (execute_moves cfg t s) ⟨h, hone⟩).2

/-- The source that was in use stays active while the first one becomes the current one. -/
theorem not_oneActive_of_abandons (cfg : Config) (h : AbandonsSource s t) :
    ¬(s.execute cfg t).OneActive := by
  obtain ⟨hfind, hne, src, hsrc, hact⟩ := h
  obtain ⟨new, -, hsources, hindex⟩ := execute_found cfg hfind
  intro hone
  have hlt := (List.getElem?_eq_some_iff.mp hsrc).1
  have hget : (s.execute cfg t).sources[s.currentSourceIndex]? = some src := by
    rw [hsources, List.getElem?_append_left hlt, hsrc]
  have hcur := hone _ src hget hact
  rw [hindex (List.ne_nil_of_mem (List.mem_append_left _ (List.mem_of_getElem? hsrc)))] at hcur
  exact hne hcur

/-- What expired once stays so over a run. -/
theorem leavesExpired_exec (cfg : Config) (h : s.Lifecycle) (ts : List Tick) :
    LeavesExpired s (exec (fun s t => s.execute cfg t) s ts) := by
  induction ts generalizing s with
  | nil => exact .of_keeps (.of_keys rfl) rfl
  | cons t ts ih =>
    obtain ⟨h1, h2⟩ := lifecycle_execute cfg h t
    exact h2.trans (ih h1)

/-- The sources are distinct, those that have failed for good are expired, expired sources stay so
and are never connected to, and only the current source is active. -/
structure SourcesKept (cfg : Config) (s : Execution) : Prop where
  unique : (s.sources.map endpoint).Nodup
  permanent : ∀ fp ∈ s.failedPeers, fp.permanent = true →
    ∃ src ∈ s.sources, endpoint src = (fp.addr, fp.port) ∧ src.state = .expired
  expired : ∀ src ∈ s.sources, src.state = .expired → ∀ ts,
    (∃ src' ∈ (exec (fun s t => s.execute cfg t) s ts).sources,
      endpoint src' = endpoint src ∧ src'.state = .expired) ∧
    ∃ new, (exec (fun s t => s.execute cfg t) s ts).attempts = s.attempts ++ new ∧
      Attempt.peer src.addr src.port ∉ new
  active : ∀ i src, s.sources[i]? = some src → src.state.IsActive → i = s.currentSourceIndex

theorem sourcesKept (cfg : Config) (h : s.Lifecycle) (hone : s.OneActive) : SourcesKept cfg s where
  unique := h.unique
  permanent := h.permanent
  expired src hsrc hexp ts := by
    obtain ⟨hkeeps, new, hnew, hout⟩ := leavesExpired_exec cfg h ts
    exact ⟨hkeeps src hsrc hexp, new, hnew, hout src hsrc hexp⟩
  active := hone

end Execution

open Execution

/-- The sources of a download are kept in every state when no server answers while a source other
than the first one is in use, and only then. -/
theorem lifecycle_iff (cfg : Config) (fileSize : Int) (rawFileHash : Bytes)
    (serverList : List (String × Nat)) (maxSources : Nat) (ps : Storage.DefaultPieceStorage)
    (created : Nat) (ts : List Tick) :
    Visits (fun s t => execute cfg s t) (SourcesKept cfg)
        (Execution.start fileSize rawFileHash serverList maxSources ps created) ts ↔
      Along (fun s t => execute cfg s t) (fun s t => ¬AbandonsSource s t)
        (Execution.start fileSize rawFileHash serverList maxSources ps created) ts := by
  let inv (s : Execution) : Prop := s.Lifecycle ∧ s.OneActive
  have hstart : inv (Execution.start fileSize rawFileHash serverList maxSources ps created) :=
    ⟨⟨⟨.nil, nofun⟩, fun hin => absurd hin (not_inUse (.inl rfl))⟩, nofun⟩
  have hall : Along (fun s t => execute cfg s t) (fun _ _ => True)
      (Execution.start fileSize rawFileHash serverList maxSources ps created) ts :=
    .of_forall fun _ _ => trivial
  have hstep : ∀ s t, inv s → True → ¬AbandonsSource s t → inv (execute cfg s t) :=
    fun s t h _ ha => ⟨(lifecycle_execute cfg h.1 t).1, oneActive_execute cfg h.1 h.2 ha⟩
  exact visits_iff_along hstep (fun s h => sourcesKept cfg h.1 h.2)
    (fun s t _ _ ha hkept => not_oneActive_of_abandons cfg (not_not.mp ha) hkept.active) hstart hall

/-- The first source refuses the connection, the second one is downloaded from, and the refresh
asks the server again: the second one stays in use while the first one is the current one. -/
theorem source_abandoned :
    ¬Visits (fun s t => execute ⟨true, false, "", 0, [("", 0)], nofun⟩ s t)
      (SourcesKept ⟨true, false, "", 0, [("", 0)], nofun⟩)
      (Execution.start 1000000 (List.replicate 16 0) [("10.0.0.9", 4661)] 100
        { bitfieldMan := .new 1048576 1000000 } 0)
      [pass .nothing, received ID_CHANGE [],
        received FOUND_SOURCES (List.replicate 16 0 ++ [2, 10, 0, 0, 1, 54, 18, 10, 0, 0, 2, 54, 18]),
        pass .nothing, { pass .nothing with socket := .refused }, pass .nothing, pass .nothing,
        received HELLO_ANSWER [], received REQ_FILENAME_ANSWER [],
        received FILE_STATUS (List.replicate 18 0), received ACCEPT_UPLOAD_REQ [],
        { pass .nothing with refreshDue := true }, pass .nothing, pass .nothing,
        received ID_CHANGE [], received FOUND_SOURCES (List.replicate 17 0)] := by
  intro h
  have hcur := h.last.active 1 ⟨"10.0.0.2", 4662, .downloading, 0, []⟩ (by decide +kernel)
    (by decide +kernel)
  exact absurd hcur (by decide +kernel)

end FluxCore.Ed2k
