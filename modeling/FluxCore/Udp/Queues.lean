import FluxCore.Udp.TrackerClient
import Mathlib.Data.List.Perm.Basic

/-!
# Where the requests of the UDP tracker client are

`Held` is what every step keeps as long as a reply fits the request it answers: an announce that is
not complete is in exactly one queue, those in `connectRequests` wait for a tracker that is being
connected to, and for each such tracker a CONNECT request is on its way.
-/

namespace FluxCore.Udp.UDPTrackerClient

variable {c c' : UDPTrackerClient} {A B C : List Nat} {i j : Nat} {host : Host}

/-! ## Objects -/

theorem request_modify (c : UDPTrackerClient) (i : Nat) (f : UDPTrackerRequest → UDPTrackerRequest)
    (j : Nat) :
    (c.modify i f).request j =
      if j = i ∧ i < c.requests.length then f (c.request i) else c.request j := by
  simp only [request, modify, List.getD_eq_getElem?_getD, List.getElem?_modify]
  by_cases hj : i = j
  · subst hj
    by_cases hi : i < c.requests.length
    · simp [hi]
    · simp [hi]
  · rw [if_neg fun h => hj h.1.symm]
    simp [hj]

theorem request_alloc_of_lt (r : UDPTrackerRequest) (h : i < c.requests.length) :
    (c.alloc r).request i = c.request i := by
  simp only [request, alloc, List.getD_eq_getElem?_getD, List.getElem?_append_left h]

theorem request_alloc_length (r : UDPTrackerRequest) :
    (c.alloc r).request c.requests.length = r := by
  simp [request, alloc, List.getD_eq_getElem?_getD]

@[simp] theorem length_modify (i : Nat) (f : UDPTrackerRequest → UDPTrackerRequest) :
    (c.modify i f).requests.length = c.requests.length := List.length_modify ..

/-- The objects, but for their states, and how many there are. -/
structure Alike (c c' : UDPTrackerClient) : Prop where
  length : c'.requests.length = c.requests.length
  action : ∀ i, (c'.request i).action = (c.request i).action
  host : ∀ i, (c'.request i).host = (c.request i).host

theorem Alike.refl (c : UDPTrackerClient) : Alike c c := ⟨rfl, fun _ => rfl, fun _ => rfl⟩

theorem Alike.trans {c'' : UDPTrackerClient} (h : Alike c c') (h' : Alike c' c'') : Alike c c'' :=
  ⟨h'.length.trans h.length, fun i => (h'.action i).trans (h.action i),
    fun i => (h'.host i).trans (h.host i)⟩

theorem alike_modify (c : UDPTrackerClient) (i : Nat) {f : UDPTrackerRequest → UDPTrackerRequest}
    (ha : ∀ r, (f r).action = r.action) (hh : ∀ r, (f r).host = r.host) :
    Alike c (c.modify i f) := by
  refine ⟨length_modify .., fun j => ?_, fun j => ?_⟩ <;> rw [request_modify] <;> split
  next h => rw [ha, h.1]
  · rfl
  next h => rw [hh, h.1]
  · rfl

/-- A connection ID of the tracker is awaited. -/
def Connecting (c : UDPTrackerClient) (host : Host) : Prop :=
  ∃ con, c.connectionIdCache host = some con ∧ con.state = .connecting

/-! ## The invariant -/

/-- `A` are the requests that are pending or in flight, `C` those that wait. -/
structure Kept (c : UDPTrackerClient) (A C : List Nat) : Prop where
  valid : ∀ i ∈ A ++ C, i < c.requests.length
  places : ∀ i < c.requests.length, (c.request i).action = .announce →
    A.count i + C.count i = if (c.request i).state = .complete then 0 else 1
  waiting : ∀ i ∈ C, (c.request i).action = .announce ∧ c.Connecting (c.request i).host
  connecting : ∀ host, c.Connecting host →
    ∃ j ∈ A, (c.request j).action = .connect ∧ (c.request j).host = host

theorem Kept.perm (h : Kept c A C) (hp : A.Perm B) : Kept c B C where
  valid i hi := h.valid i ((hp.symm.append_right C).subset hi)
  places i hi ha := by rw [← hp.count_eq]; exact h.places i hi ha
  waiting := h.waiting
  connecting host hc := by
    obtain ⟨j, hj, hconn⟩ := h.connecting host hc
    exact ⟨j, hp.subset hj, hconn⟩

/-- States and caches agree as far as it matters. -/
theorem Kept.congr (h : Kept c A C) (ha : Alike c c')
    (hs : ∀ i, (c'.request i).state = (c.request i).state)
    (hc : c'.connectionIdCache = c.connectionIdCache) : Kept c' A C where
  valid i hi := ha.length ▸ h.valid i hi
  places i hi hi' := by
    rw [hs]
    exact h.places i (ha.length ▸ hi) (ha.action i ▸ hi')
  waiting i hi := by
    rw [ha.action, ha.host, Connecting, hc]
    exact h.waiting i hi
  connecting host hh := by
    rw [Connecting, hc] at hh
    obtain ⟨j, hj, h1, h2⟩ := h.connecting host hh
    exact ⟨j, hj, (ha.action j).trans h1, (ha.host j).trans h2⟩

/-- The queues do not matter. -/
theorem Kept.queues (h : Kept c A C) (hr : c'.requests = c.requests)
    (hc : c'.connectionIdCache = c.connectionIdCache) : Kept c' A C := by
  have hreq : ∀ i, c'.request i = c.request i := fun i => by rw [request, hr]; rfl
  refine h.congr ⟨by rw [hr], fun i => ?_, fun i => ?_⟩ (fun i => ?_) hc <;> rw [hreq]

/-- Another cache, whose trackers that are being connected to are those before or have a CONNECT
request on its way. -/
theorem Kept.cache (h : Kept c A C) (hr : c'.requests = c.requests)
    (hw : ∀ i ∈ C, c'.Connecting (c.request i).host)
    (hc : ∀ host, c'.Connecting host → c.Connecting host ∨
      ∃ j ∈ A, (c.request j).action = .connect ∧ (c.request j).host = host) : Kept c' A C := by
  have hreq : ∀ i, c'.request i = c.request i := fun i => by rw [request, hr]; rfl
  refine ⟨fun i hi => hr ▸ h.valid i hi, fun i hi => ?_, fun i hi => ?_, fun host hh => ?_⟩
  · rw [hreq]
    exact h.places i (hr ▸ hi)
  · rw [hreq]
    exact ⟨(h.waiting i hi).1, hw i hi⟩
  · simp only [hreq]
    exact (hc host hh).elim (h.connecting host) id

/-- A request leaves the queues: an announce that is complete, or a CONNECT request of a tracker
that is not being connected to. -/
theorem Kept.leave (h : Kept c (i :: A) C) (ha : Alike c c')
    (hs : ∀ j, j ≠ i → (c'.request j).state = (c.request j).state)
    (hc : c'.connectionIdCache = c.connectionIdCache)
    (hi : (c.request i).action = .announce → (c'.request i).state = .complete)
    (hi' : (c.request i).action = .connect → ¬c.Connecting (c.request i).host) :
    Kept c' A C := by
  have hw : ∀ j ∈ C, (c'.request j).action = .announce ∧ c'.Connecting (c'.request j).host := by
    intro j hj
    rw [ha.action, ha.host, Connecting, hc]
    exact h.waiting j hj
  refine ⟨fun j hj => ha.length ▸ h.valid j (.tail _ hj), fun j hj hann => ?_, hw, fun host hh => ?_⟩
  · rw [ha.action] at hann
    have hp := h.places j (ha.length ▸ hj) hann
    rw [List.count_cons] at hp
    by_cases hji : j = i
    · subst hji
      rw [hi hann, if_pos rfl]
      simp only [beq_self_eq_true, if_true] at hp
      split at hp <;> omega
    · rw [hs j hji]
      simpa [Ne.symm hji] using hp
  · rw [Connecting, hc] at hh
    obtain ⟨j, hj, h1, h2⟩ := h.connecting host hh
    refine ⟨j, ?_, (ha.action j).trans h1, (ha.host j).trans h2⟩
    refine (List.mem_cons.mp hj).resolve_left ?_
    rintro rfl
    exact hi' h1 (h2.symm ▸ hh)

theorem Kept.modify (h : Kept c A C) (i : Nat) {f : UDPTrackerRequest → UDPTrackerRequest}
    (ha : ∀ r, (f r).action = r.action) (hh : ∀ r, (f r).host = r.host)
    (hs : ∀ r, (f r).state = r.state) : Kept (c.modify i f) A C := by
  refine h.congr (alike_modify c i ha hh) (fun j => ?_) rfl
  rw [request_modify]
  split
  next hj => rw [hs, hj.1]
  next => rfl

/-- The state of a CONNECT request does not matter. -/
theorem Kept.modifyConnect (h : Kept c A C) {f : UDPTrackerRequest → UDPTrackerRequest}
    (ha : ∀ r, (f r).action = r.action) (hh : ∀ r, (f r).host = r.host)
    (hi : (c.request i).action = .connect) : Kept (c.modify i f) A C := by
  have halike := alike_modify c i ha hh
  refine ⟨fun j hj => halike.length ▸ h.valid j hj, fun j hj hann => ?_, fun j hj => ?_,
    fun host hc => ?_⟩
  · rw [halike.action] at hann
    have hne : ¬(j = i ∧ i < c.requests.length) := by
      rintro ⟨rfl, -⟩
      rw [hi] at hann
      cases hann
    rw [request_modify, if_neg hne]
    exact h.places j (halike.length ▸ hj) hann
  · rw [halike.action, halike.host]
    exact h.waiting j hj
  · obtain ⟨j, hj, h1, h2⟩ := h.connecting host hc
    exact ⟨j, hj, (halike.action j).trans h1, (halike.host j).trans h2⟩

/-- A request is done with. -/
theorem Kept.finish (h : Kept c (i :: A) C) {f : UDPTrackerRequest → UDPTrackerRequest}
    (ha : ∀ r, (f r).action = r.action) (hh : ∀ r, (f r).host = r.host)
    (hs : ∀ r, (f r).state = .complete)
    (hi : (c.request i).action = .connect → ¬c.Connecting (c.request i).host) :
    Kept (c.modify i f) A C := by
  refine h.leave (alike_modify c i ha hh) (fun j hj => ?_) rfl (fun _ => ?_) hi
  · rw [request_modify, if_neg fun hx => hj hx.1]
  · rw [request_modify, if_pos ⟨rfl, h.valid i (by simp)⟩, hs]

/-- An announce starts to wait. -/
theorem Kept.wait (h : Kept c (i :: A) C) (ha : (c.request i).action = .announce)
    (hc : c.Connecting (c.request i).host) : Kept c A (C ++ [i]) where
  valid j hj := h.valid j (by
    rw [List.mem_append, List.mem_append, List.mem_singleton] at hj
    rw [List.mem_append, List.mem_cons]
    tauto)
  places j hj hann := by
    have hp := h.places j hj hann
    rw [List.count_cons] at hp
    rw [List.count_append, List.count_singleton, ← hp]
    omega
  waiting j hj := by
    rcases List.mem_append.mp hj with hj | hj
    · exact h.waiting j hj
    · rw [List.mem_singleton.mp hj]
      exact ⟨ha, hc⟩
  connecting host hh := by
    obtain ⟨j, hj, h1, h2⟩ := h.connecting host hh
    refine ⟨j, (List.mem_cons.mp hj).resolve_left ?_, h1, h2⟩
    rintro rfl
    rw [ha] at h1
    cases h1

/-- A new request, which is not complete. -/
theorem Kept.alloc (h : Kept c A C) {r : UDPTrackerRequest} (hr : r.state = .pending) :
    Kept (c.alloc r) (c.requests.length :: A) C := by
  have hlen : (c.alloc r).requests.length = c.requests.length + 1 := List.length_append
  have hold : ∀ j ∈ A ++ C, (c.alloc r).request j = c.request j := fun j hj =>
    request_alloc_of_lt r (h.valid j hj)
  refine ⟨fun j hj => ?_, fun j hj hann => ?_, fun j hj => ?_, fun host hh => ?_⟩
  · rw [hlen]
    rcases List.mem_cons.mp hj with rfl | hj
    · omega
    · exact (h.valid j hj).trans (Nat.lt_succ_self _)
  · rcases Nat.lt_succ_iff_lt_or_eq.mp (hlen ▸ hj) with hlt | rfl
    · rw [request_alloc_of_lt r hlt] at hann ⊢
      have hp := h.places j hlt hann
      rwa [List.count_cons_of_ne (by omega)]
    · have hA : c.requests.length ∉ A := fun hm =>
        (h.valid _ (List.mem_append_left _ hm)).false
      have hC : c.requests.length ∉ C := fun hm =>
        (h.valid _ (List.mem_append_right _ hm)).false
      rw [request_alloc_length, hr, List.count_cons_self, List.count_eq_zero_of_not_mem hA,
        List.count_eq_zero_of_not_mem hC]
      rfl
  · rw [hold j (List.mem_append_right _ hj)]
    exact h.waiting j hj
  · obtain ⟨j, hj, hconn⟩ := h.connecting host hh
    refine ⟨j, .tail _ hj, ?_⟩
    rwa [hold j (List.mem_append_left _ hj)]

/-! ## Failing -/

theorem foldl_complete (is : List Nat) (error : Error) (c : UDPTrackerClient) :
    let c' := is.foldl (fun c i => c.complete i error) c
    Alike c c' ∧ c' = { c with requests := c'.requests } ∧
      (∀ j, (c'.request j).failCount = (c.request j).failCount ∧
        (c'.request j).dispatched = (c.request j).dispatched) ∧
      ∀ j < c.requests.length, (c'.request j).state =
        if j ∈ is then .complete else (c.request j).state := by
  induction is generalizing c with
  | nil => exact ⟨.refl c, rfl, fun _ => ⟨rfl, rfl⟩, fun _ _ => rfl⟩
  | cons i is ih =>
    obtain ⟨h1, h2, h4, h5⟩ := ih (c.complete i error)
    have ha : Alike c (c.complete i error) := alike_modify c i (fun _ => rfl) (fun _ => rfl)
    refine ⟨ha.trans h1, h2, fun j => ?_, fun j hj => ?_⟩
    · rw [List.foldl_cons, (h4 j).1, (h4 j).2, complete, request_modify]
      split
      next h => rw [h.1]; exact ⟨rfl, rfl⟩
      next h => exact ⟨rfl, rfl⟩
    · rw [List.foldl_cons, h5 j (ha.length.symm ▸ hj), complete, request_modify]
      by_cases hji : j = i
      · subst hji
        simp [hj]
      · simp [hji]

/-- What `failConnect` does. -/
structure Failed (c c' : UDPTrackerClient) (host : Host) : Prop where
  alike : Alike c c'
  inflight : c'.inflightRequests = c.inflightRequests
  cache : c'.connectionIdCache = Function.update c.connectionIdCache host none
  connect : c'.connectRequests = c.connectRequests.filter fun i =>
    ¬((c.request i).action = .announce ∧ (c.request i).host = host)
  pending : c'.pendingRequests = c.pendingRequests.filter fun i =>
    ¬((c.request i).action = .announce ∧ (c.request i).host = host)
  counters : ∀ j, (c'.request j).failCount = (c.request j).failCount ∧
    (c'.request j).dispatched = (c.request j).dispatched
  state : ∀ j < c.requests.length, (c'.request j).state =
    if (j ∈ c.connectRequests ∨ j ∈ c.pendingRequests) ∧ (c.request j).action = .announce ∧
      (c.request j).host = host then .complete else (c.request j).state

theorem failed_failConnect (c : UDPTrackerClient) (host : Host) (error : Error) :
    Failed c (c.failConnect host error) host := by
  let waits i := (c.request i).action = .announce ∧ (c.request i).host = host
  obtain ⟨h1, h2, h3, h4⟩ := foldl_complete
    (c.connectRequests.filter waits ++ c.pendingRequests.filter waits) error c
  have hc : c.failConnect host error =
      { (c.connectRequests.filter waits ++ c.pendingRequests.filter waits).foldl
          (fun c i => c.complete i error) c with
        connectionIdCache := Function.update c.connectionIdCache host none
        connectRequests := c.connectRequests.filter fun i => ¬waits i
        pendingRequests := c.pendingRequests.filter fun i => ¬waits i } := by
    unfold failConnect
    dsimp only
    rw [h2]
  rw [hc]
  refine ⟨⟨h1.length, h1.action, h1.host⟩, by rw [h2], rfl, rfl, rfl, h3, fun j hj => ?_⟩
  refine (h4 j hj).trans (if_congr ?_ rfl rfl)
  simp only [List.mem_append, List.mem_filter, decide_eq_true_eq, waits]
  tauto

/-- Requests that match leave the queues and are complete; `B` are requests elsewhere. -/
theorem Kept.fail (h : Kept c (c.pendingRequests ++ B) c.connectRequests) (hf : Failed c c' host) :
    Kept c' (c'.pendingRequests ++ B) c'.connectRequests ∧ ¬c'.Connecting host := by
  have hnone : ¬c'.Connecting host := by
    rintro ⟨con, hcon, -⟩
    rw [hf.cache, Function.update_self] at hcon
    cases hcon
  have hother : ∀ host', host' ≠ host → (c'.Connecting host' ↔ c.Connecting host') := by
    intro host' hne
    rw [Connecting, hf.cache, Function.update_of_ne hne]
    rfl
  refine ⟨⟨fun i hi => ?_, fun i hi ha => ?_, fun i hi => ?_, fun host' hh => ?_⟩, hnone⟩
  · rw [hf.alike.length]
    refine h.valid i ?_
    rw [hf.pending, hf.connect] at hi
    simp only [List.mem_append, List.mem_filter] at hi ⊢
    tauto
  · have hlt := hf.alike.length ▸ hi
    rw [hf.alike.action] at ha
    have hp := h.places i hlt ha
    have hs := hf.state i hlt
    rw [hf.pending, hf.connect]
    rw [List.count_append] at hp ⊢
    by_cases hm : (c.request i).host = host
    · have hzero : ∀ l : List Nat, (l.filter fun j =>
          ¬((c.request j).action = .announce ∧ (c.request j).host = host)).count i = 0 := by
        intro l
        rw [List.count_eq_zero, List.mem_filter]
        simp [ha, hm]
      rw [hzero, hzero]
      by_cases hq : i ∈ c.connectRequests ∨ i ∈ c.pendingRequests
      · have hB : B.count i = 0 := by
          rcases hq with hq | hq <;> have := List.count_pos_iff.mpr hq <;> split at hp <;> omega
        rw [if_pos ⟨hq, ha, hm⟩] at hs
        rw [hs, hB, if_pos rfl]
      · rw [if_neg fun hx => hq hx.1] at hs
        rw [hs, ← hp, List.count_eq_zero_of_not_mem fun hx => hq (.inr hx),
          List.count_eq_zero_of_not_mem fun hx => hq (.inl hx)]
    · have hkeep : ∀ l : List Nat, (l.filter fun j =>
          ¬((c.request j).action = .announce ∧ (c.request j).host = host)).count i = l.count i :=
        fun l => List.count_filter (by simp [hm])
      rw [if_neg fun hx => hm hx.2.2] at hs
      rw [hkeep, hkeep, hs, hp]
  · rw [hf.connect, List.mem_filter] at hi
    obtain ⟨ha, hc⟩ := h.waiting i hi.1
    have hne : (c.request i).host ≠ host := by simpa [ha] using hi.2
    rw [hf.alike.action, hf.alike.host]
    exact ⟨ha, (hother _ hne).mpr hc⟩
  · have hne : host' ≠ host := fun hx => hnone (hx ▸ hh)
    obtain ⟨j, hj, h1, h2⟩ := h.connecting host' ((hother _ hne).mp hh)
    refine ⟨j, ?_, (hf.alike.action j).trans h1, (hf.alike.host j).trans h2⟩
    rw [hf.pending, List.mem_append, List.mem_filter]
    exact (List.mem_append.mp hj).imp_left fun hj => ⟨hj, by simp [h1]⟩

/-- The requests that waited for a connection ID that is there now are pending again. -/
theorem Kept.connected (h : Kept c A C) (hr : c'.requests = c.requests)
    (hc : ∀ host', host' ≠ host → (c'.Connecting host' ↔ c.Connecting host'))
    (hnot : ¬c'.Connecting host) :
    Kept c' (C.filter (fun j => (c.request j).host = host) ++ A)
      (C.filter fun j => ¬(c.request j).host = host) := by
  have hreq : ∀ i, c'.request i = c.request i := fun i => by rw [request, hr]; rfl
  have hsplit : (C.filter (fun j => (c.request j).host = host) ++
      C.filter fun j => ¬(c.request j).host = host).Perm C := by
    simpa using List.filter_append_perm (fun j => decide ((c.request j).host = host)) C
  refine ⟨fun i hi => ?_, fun i hi ha => ?_, fun i hi => ?_, fun host' hh => ?_⟩
  · rw [hr]
    refine h.valid i ?_
    simp only [List.mem_append, List.mem_filter] at hi ⊢
    tauto
  · rw [hreq] at ha ⊢
    rw [← h.places i (hr ▸ hi) ha, ← hsplit.count_eq i, List.count_append, List.count_append]
    omega
  · obtain ⟨hi, hne⟩ := List.mem_filter.mp hi
    rw [hreq]
    exact ⟨(h.waiting i hi).1, (hc _ (by simpa using hne)).mpr (h.waiting i hi).2⟩
  · have hne : host' ≠ host := fun hx => hnot (hx ▸ hh)
    obtain ⟨j, hj, h1, h2⟩ := h.connecting host' ((hc _ hne).mp hh)
    refine ⟨j, List.mem_append_right _ hj, ?_, ?_⟩ <;> rwa [hreq]

/-! ## The operations -/

/-- Where the requests are between two operations. -/
def Held (c : UDPTrackerClient) : Prop :=
  Kept c (c.pendingRequests ++ c.inflightRequests) c.connectRequests

theorem Held.addRequest (h : c.Held) (req : UDPTrackerRequest) : (c.addRequest req).Held := by
  have hk := (Kept.alloc h (r := { req with state := .pending, error := .success }) rfl).perm
    (@List.perm_middle _ _ c.pendingRequests _).symm
  have hassoc : c.pendingRequests ++ c.requests.length :: c.inflightRequests =
      (c.pendingRequests ++ [c.requests.length]) ++ c.inflightRequests := by simp
  rw [hassoc] at hk
  exact hk.queues rfl rfl

/-- A CONNECT request is sent, and its tracker is being connected to. -/
theorem Kept.connect (h : Kept c A C) (hi : i ∈ A) (ha : (c.request i).action = .connect)
    (hr : c'.requests = c.requests)
    (hc : c'.connectionIdCache =
      Function.update c.connectionIdCache (c.request i).host (some {})) : Kept c' A C := by
  have hat : ∀ host, c'.Connecting host ↔ host = (c.request i).host ∨ c.Connecting host := by
    intro host
    rw [Connecting, hc]
    by_cases hh : host = (c.request i).host
    · rw [hh, Function.update_self]
      exact iff_of_true ⟨_, rfl, rfl⟩ (.inl rfl)
    · rw [Function.update_of_ne hh]
      exact ⟨.inr, fun hx => hx.resolve_left hh⟩
  refine h.cache hr (fun j hj => (hat _).mpr (.inr (h.waiting j hj).2)) fun host hh => ?_
  exact ((hat host).mp hh).symm.imp_right fun hx => ⟨i, hi, ha, hx.symm⟩

theorem Held.requestSent (h : c.Held) (now : Nat) : (c.requestSent now).Held := by
  unfold UDPTrackerClient.requestSent
  split
  next => exact h
  next i pending hp =>
    have hk : Kept c (pending ++ (c.inflightRequests ++ [i])) c.connectRequests := by
      refine h.perm ?_
      rw [hp, ← List.append_assoc]
      exact (List.perm_append_singleton i _).symm
    have hk' : Kept (c.modify i fun r => { r with dispatched := now })
        (pending ++ (c.inflightRequests ++ [i])) c.connectRequests :=
      hk.modify i (fun _ => rfl) (fun _ => rfl) (fun _ => rfl)
    by_cases hconn : ((c.modify i fun r => { r with dispatched := now }).request i).action = .connect
    · exact hk'.connect (i := i) (by simp) hconn rfl (if_pos hconn)
    · exact hk'.queues rfl (if_neg hconn)

/-- The first pending request fails, and with a CONNECT request those that wait for it. -/
theorem Held.requestFail (h : c.Held) (error : Error) : (c.requestFail error).Held := by
  unfold UDPTrackerClient.requestFail
  split
  next => exact h
  next i pending hp =>
    dsimp only
    by_cases hconn : (c.request i).action = .connect
    · rw [if_pos hconn]
      have hf := failed_failConnect c (c.request i).host error
      obtain ⟨hk, hnot⟩ := Kept.fail h hf
      have hpend : (c.failConnect (c.request i).host error).pendingRequests = i ::
          (c.failConnect (c.request i).host error).pendingRequests.tail := by
        rw [hf.pending, hp, List.filter_cons_of_pos (by simp [hconn]), List.tail_cons]
      rw [hpend, List.cons_append, ← hf.inflight] at hk
      refine (hk.finish (f := fun r => { r with state := .complete, error }) (fun _ => rfl)
        (fun _ => rfl) (fun _ => rfl) fun _ => ?_).queues rfl rfl
      rwa [hf.alike.host]
    · rw [if_neg hconn]
      have hk := h
      unfold Held at hk
      rw [hp, List.cons_append] at hk
      have htail : (c.complete i error).pendingRequests.tail = pending := by
        rw [complete, UDPTrackerClient.modify, hp, List.tail_cons]
      rw [htail]
      exact (hk.finish (f := fun r => { r with state := .complete, error }) (fun _ => rfl)
        (fun _ => rfl) (fun _ => rfl) fun hx => absurd hx hconn).queues rfl rfl

/-- A connection ID that is too old is forgotten; the rest stays. -/
theorem getConnectionId_cases (c : UDPTrackerClient) (host : Host) (now : Nat) :
    (∃ con, c.getConnectionId host now = (some con, c) ∧ c.connectionIdCache host = some con) ∨
      ∃ cache, c.getConnectionId host now = (none, { c with connectionIdCache := cache }) ∧
        ¬c.Connecting host ∧
        ∀ host', (∃ con, cache host' = some con ∧ con.state = .connecting) ↔ c.Connecting host' := by
  unfold getConnectionId
  split
  next hnone =>
    refine .inr ⟨c.connectionIdCache, rfl, ?_, fun _ => .rfl⟩
    rintro ⟨con, hcon, -⟩
    rw [hnone] at hcon
    cases hcon
  next con hcon =>
    split
    next hold =>
      have hnot : ¬c.Connecting host := by
        rintro ⟨con', hcon', hst⟩
        rw [← Option.some.inj (hcon.symm.trans hcon'), hold.1] at hst
        cases hst
      refine .inr ⟨_, rfl, hnot, fun host' => ?_⟩
      by_cases hh : host' = host
      · rw [hh, Function.update_self]
        exact iff_of_false (fun ⟨_, hx, _⟩ => by cases hx) hnot
      · rw [Function.update_of_ne hh]
        rfl
    next => exact .inl ⟨con, rfl, hcon⟩

theorem Kept.createNext {l : List Nat} (h : Kept c (l ++ c.inflightRequests) c.connectRequests)
    (now : Nat) (transactionId : UInt32) : (createNext now transactionId l c).2.Held := by
  induction l generalizing c with
  | nil => exact h.queues rfl rfl
  | cons i l ih =>
    rw [UDPTrackerClient.createNext]
    dsimp only
    split
    next => exact h.queues rfl rfl
    next hann =>
      have hann : (c.request i).action = .announce := by
        cases ha : (c.request i).action with
        | connect => exact absurd ha hann
        | announce => rfl
      obtain ⟨con, hget, hcon⟩ | ⟨cache, hget, -, hsame⟩ :=
        getConnectionId_cases c (c.request i).host now
      · rw [hget]
        dsimp only
        split
        next hst => exact ih ((Kept.wait h hann ⟨con, hcon, hst⟩).queues rfl rfl)
        next =>
          exact (h.modify i (f := fun r => { r with connectionId := con.connectionId, transactionId })
            (fun _ => rfl) (fun _ => rfl) (fun _ => rfl)).queues rfl rfl
      · rw [hget]
        have hk : Kept { c with connectionIdCache := cache } (i :: l ++ c.inflightRequests)
            c.connectRequests :=
          h.cache rfl (fun j hj => (hsame _).mpr (h.waiting j hj).2) fun host hh =>
            .inl ((hsame host).mp hh)
        refine (hk.alloc (r := { remoteAddr := (c.request i).remoteAddr
                                 remotePort := (c.request i).remotePort
                                 action := .connect, transactionId }) rfl).queues rfl rfl

theorem Held.createRequest (h : c.Held) (now : Nat) (transactionId : UInt32) :
    (c.createRequest now transactionId).2.Held :=
  Kept.createNext h now transactionId

/-- One request in flight is checked; the others are `B`. -/
theorem Kept.timeoutCheck {kept dest : List Nat} (now : Nat)
    (h : Kept c (c.pendingRequests ++ (dest ++ kept ++ i :: B)) c.connectRequests) :
    let r := timeoutCheck now (c, kept, dest) i
    Kept r.1 (r.1.pendingRequests ++ (r.2.2 ++ r.2.1 ++ B)) r.1.connectRequests := by
  have hmid : (c.pendingRequests ++ (dest ++ kept ++ i :: B)).Perm
      (i :: (c.pendingRequests ++ (dest ++ kept ++ B))) :=
    ((List.perm_middle.append_left _).trans List.perm_middle)
  have hkeep : Kept c (c.pendingRequests ++ (dest ++ (kept ++ [i]) ++ B)) c.connectRequests := by
    simpa using h
  have hdone : ∀ d : UDPTrackerClient, Kept d (i :: (d.pendingRequests ++ (dest ++ kept ++ B)))
      d.connectRequests → ((d.request i).action = .connect → ¬d.Connecting (d.request i).host) →
      Kept (d.modify i fun r =>
        { r with failCount := r.failCount + 1, state := .complete, error := .timeout })
        (d.pendingRequests ++ (dest ++ kept ++ B)) d.connectRequests := fun d hd hd' =>
    hd.finish (fun _ => rfl) (fun _ => rfl) (fun _ => rfl) hd'
  unfold UDPTrackerClient.timeoutCheck
  dsimp only
  split
  next =>
    split
    next =>
      have hk := h.modify i (f := fun r => { r with failCount := r.failCount + 1 })
        (fun _ => rfl) (fun _ => rfl) (fun _ => rfl)
      refine (hk.perm (hmid.trans ?_)).queues rfl rfl
      refine List.perm_middle.symm.trans (List.Perm.append_left _ ?_)
      rw [List.append_assoc, List.append_assoc, List.append_assoc]
      exact List.perm_middle.symm
    next => exact hkeep
  next =>
    split
    next =>
      have hcons := h.perm hmid
      split
      next hconn =>
        have hf := failed_failConnect c (c.request i).host .timeout
        have hk : Kept c (c.pendingRequests ++ i :: (dest ++ kept ++ B)) c.connectRequests :=
          hcons.perm List.perm_middle.symm
        obtain ⟨hk, hnot⟩ := hk.fail hf
        refine hdone _ (hk.perm List.perm_middle) fun _ => ?_
        rwa [hf.alike.host]
      next hconn => exact hdone c hcons fun hx => absurd hx hconn
    next => exact hkeep

theorem Held.handleTimeout (h : c.Held) (now : Nat) : (c.handleTimeout now).Held := by
  have hfold : ∀ (is : List Nat) (c : UDPTrackerClient) (kept dest : List Nat),
      Kept c (c.pendingRequests ++ (dest ++ kept ++ is)) c.connectRequests →
      let r := is.foldl (timeoutCheck now) (c, kept, dest)
      Kept r.1 (r.1.pendingRequests ++ (r.2.2 ++ r.2.1)) r.1.connectRequests := by
    intro is
    induction is with
    | nil =>
      intro c kept dest hk
      rwa [List.append_nil] at hk
    | cons i is ih => exact fun c kept dest hk => ih _ _ _ (hk.timeoutCheck now)
  have hk := hfold c.inflightRequests c [] [] h
  refine (hk.perm ?_).queues rfl rfl
  rw [← List.append_assoc]
  exact List.perm_append_comm.append_right _

/-! ## Replies -/

/-- A reply fits the request in flight that it is taken for an answer to: a CONNECT reply a CONNECT
request, and an ANNOUNCE reply an announce. -/
def Fits (c : UDPTrackerClient) (data : Utp.Bytes) (length : Nat) (host : Host) : Prop :=
  ∀ i, c.findInflightRequest host (Bt.getIntParam data 4) = some i →
    (Bt.getIntParam data 0 = 0 → length = 16 → (c.request i).action = .connect) ∧
      (Bt.getIntParam data 0 = 1 → 20 ≤ length → (c.request i).action = .announce)

theorem findInflightRequest_eq_some {transactionId : UInt32}
    (h : c.findInflightRequest host transactionId = some i) :
    (c.request i).host = host ∧ c.inflightRequests.Perm (i :: c.inflightRequests.erase i) := by
  have hhost := List.find?_some h
  rw [decide_eq_true_eq] at hhost
  exact ⟨hhost.1, List.perm_cons_erase (List.mem_of_find?_eq_some h)⟩

theorem Held.receiveReply (h : c.Held) {data : Utp.Bytes} {length : Nat}
    (hfit : c.Fits data length host) (now : Nat) :
    (c.receiveReply data length host now).2.Held := by
  have hperm : ∀ {i}, c.findInflightRequest host (Bt.getIntParam data 4) = some i →
      Kept c (i :: (c.pendingRequests ++ c.inflightRequests.erase i)) c.connectRequests := by
    intro i hi
    exact Kept.perm h (((findInflightRequest_eq_some hi).2.append_left _).trans List.perm_middle)
  unfold UDPTrackerClient.receiveReply
  dsimp only
  split
  next h0 =>
    split
    next => exact h
    next hlen =>
      split
      next => exact h
      next i hi =>
        have hconn := (hfit i hi).1 h0 (not_not.mp hlen)
        have hhost := (findInflightRequest_eq_some hi).1
        let cache := Function.update c.connectionIdCache host
          (some ⟨.connected, getLLIntParam data 8, now⟩)
        have hat : ∀ host', host' ≠ host →
            (Connecting { c with connectionIdCache := cache } host' ↔ c.Connecting host') := by
          intro host' hne
          rw [Connecting]
          dsimp only [cache]
          rw [Function.update_of_ne hne]
          rfl
        have hnot : ¬Connecting { c with connectionIdCache := cache } host := by
          rintro ⟨con, hcon, hst⟩
          dsimp only [cache] at hcon
          rw [Function.update_self] at hcon
          rw [← Option.some.inj hcon] at hst
          cases hst
        have hreq : ({ c with connectionIdCache := cache } : UDPTrackerClient).requests =
            c.requests := rfl
        have hk := Kept.connected (hperm hi) hreq hat hnot
        have hleft := (hk.perm List.perm_middle).leave (.refl _) (fun _ _ => rfl) rfl
          (fun hx : (c.request i).action = .announce => by rw [hconn] at hx; cases hx)
          fun _ => hhost.symm ▸ hnot
        rw [← List.append_assoc] at hleft
        exact hleft.queues rfl rfl
  next =>
    split
    next h1 =>
      split
      next => exact h
      next hlen =>
        split
        next => exact h
        next i hi =>
          have hann := (hfit i hi).2 h1 (not_lt.mp hlen)
          have hk := (hperm hi).finish (f := fun r =>
              { r with state := .complete, reply := some (announceReply data length) })
            (fun _ => rfl) (fun _ => rfl) (fun _ => rfl) fun hx => by
              rw [hann] at hx
              cases hx
          exact hk.queues rfl rfl
    next =>
      split
      next =>
        split
        next => exact h
        next =>
          split
          next => exact h
          next i hi =>
            let d := { c.complete i .tracker with inflightRequests := c.inflightRequests.erase i }
            have ha : Alike c d := by
              have := alike_modify c i (f := fun r => { r with state := .complete, error := .tracker })
                (fun _ => rfl) (fun _ => rfl)
              exact ⟨this.length, this.action, this.host⟩
            change Held (if (d.request i).action = .connect then
              d.failConnect (d.request i).host .tracker else d)
            split
            next hconn =>
              have hd : Kept d (d.pendingRequests ++ (i :: d.inflightRequests)) d.connectRequests :=
                (((hperm hi).modifyConnect (f := fun r => { r with state := .complete, error := .tracker })
                  (fun _ => rfl) (fun _ => rfl) ((ha.action i).symm.trans hconn)).perm
                    List.perm_middle.symm).queues rfl rfl
              have hf := failed_failConnect d (d.request i).host .tracker
              obtain ⟨hk, hnot⟩ := hd.fail hf
              have hconn' := (hf.alike.action i).trans hconn
              rw [← hf.inflight] at hk
              refine (hk.perm List.perm_middle).leave (.refl _) (fun _ _ => rfl) rfl (fun hx => ?_)
                fun _ => ?_
              · rw [hconn'] at hx
                cases hx
              · rwa [hf.alike.host]
            next hconn =>
              exact ((hperm hi).finish (f := fun r => { r with state := .complete, error := .tracker })
                (fun _ => rfl) (fun _ => rfl) (fun _ => rfl) fun hx =>
                  absurd ((ha.action i).trans hx) hconn).queues rfl rfl
      next => exact h

/-- The replies of a run fit. -/
def FitsEvent (c : UDPTrackerClient) : Event → Prop
  | .receiveReply data length host _ => c.Fits data length host
  | _ => True

theorem Held.step (h : c.Held) {e : Event} (hfit : c.FitsEvent e) : (c.step e).Held := by
  cases e with
  | addRequest req => exact h.addRequest req
  | createRequest now transactionId => exact h.createRequest now transactionId
  | requestSent now => exact h.requestSent now
  | requestFail error => exact h.requestFail error
  | handleTimeout now => exact h.handleTimeout now
  | receiveReply data length host now => exact h.receiveReply hfit now

theorem held_new : Held {} :=
  ⟨nofun, nofun, nofun, fun _ ⟨_, hcon, _⟩ => by cases hcon⟩

end FluxCore.Udp.UDPTrackerClient
