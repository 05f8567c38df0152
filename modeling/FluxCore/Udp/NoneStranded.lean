import FluxCore.Udp.Queues
import Mathlib.Algebra.Order.BigOperators.Group.List

/-!
# No request is stranded

From every state that keeps `Held`, sending what is pending and letting time pass completes every
announce, whether a tracker answers or not: `completes`. `none_stranded` puts this and the invariant
together for whole runs. A reply of the wrong kind is what strands a request.
-/

namespace FluxCore.Udp.UDPTrackerClient

variable {c c' c'' : UDPTrackerClient} {i j now : Nat} {host : Host}

/-! ## Sending what is pending -/

/-- What sending leaves as it is. -/
structure Sent (c c' : UDPTrackerClient) : Prop where
  length : c.requests.length ≤ c'.requests.length
  same : ∀ i < c.requests.length, (c'.request i).action = (c.request i).action ∧
    (c'.request i).host = (c.request i).host ∧ (c'.request i).state = (c.request i).state ∧
    (c'.request i).failCount = (c.request i).failCount
  waiting : ∀ i ∈ c.connectRequests, i ∈ c'.connectRequests
  inflight : ∀ i ∈ c.inflightRequests, i ∈ c'.inflightRequests
  connect : ∀ i ∈ c.pendingRequests, i < c.requests.length → (c.request i).action = .connect →
    i ∈ c'.pendingRequests ∨ i ∈ c'.inflightRequests

theorem same_modify (c : UDPTrackerClient) (i : Nat) {f : UDPTrackerRequest → UDPTrackerRequest}
    (hf : ∀ r, (f r).action = r.action ∧ (f r).host = r.host ∧ (f r).state = r.state ∧
      (f r).failCount = r.failCount) (j : Nat) :
    let r := (c.modify i f).request j
    r.action = (c.request j).action ∧ r.host = (c.request j).host ∧
      r.state = (c.request j).state ∧ r.failCount = (c.request j).failCount := by
  dsimp only
  rw [request_modify]
  split
  next hj => rw [hj.1]; exact hf _
  next => exact ⟨rfl, rfl, rfl, rfl⟩

theorem Sent.refl (c : UDPTrackerClient) : Sent c c :=
  ⟨le_rfl, fun _ _ => ⟨rfl, rfl, rfl, rfl⟩, fun _ => id, fun _ => id, fun _ hi _ _ => .inl hi⟩

theorem Sent.trans (h : Sent c c') (h' : Sent c' c'') : Sent c c'' where
  length := h.length.trans h'.length
  same i hi := by
    obtain ⟨h1, h2, h3, h4⟩ := h'.same i (hi.trans_le h.length)
    obtain ⟨g1, g2, g3, g4⟩ := h.same i hi
    exact ⟨h1.trans g1, h2.trans g2, h3.trans g3, h4.trans g4⟩
  waiting i hi := h'.waiting i (h.waiting i hi)
  inflight i hi := h'.inflight i (h.inflight i hi)
  connect i hi hlt hc := by
    rcases h.connect i hi hlt hc with hp | hp
    · exact h'.connect i hp (hlt.trans_le h.length) ((h.same i hlt).1.trans hc)
    · exact .inr (h'.inflight i hp)

/-- What one call of `createRequest` leaves of the pending requests `l`: none, some of them, the
first of which can be sent, or some of them behind a new CONNECT request for the first. -/
def Framed (l : List Nat) (c c' : UDPTrackerClient) : Prop :=
  c'.pendingRequests = [] ∨ (c'.pendingRequests ≠ [] ∧ c'.pendingRequests <:+ l) ∨
    ∃ j f s, c'.pendingRequests = j :: f :: s ∧ f :: s <:+ l ∧
      (c'.request j).action = .connect ∧ (c'.request j).host = (c'.request f).host ∧
      (c'.request f).action = .announce ∧ (f :: s = l → ¬c.Connecting (c.request f).host)

theorem createNext_spec (now : Nat) (transactionId : UInt32) {l : List Nat}
    (hv : ∀ i ∈ l, i < c.requests.length) :
    Sent { c with pendingRequests := l } (createNext now transactionId l c).2 ∧
      Framed l c (createNext now transactionId l c).2 := by
  induction l generalizing c with
  | nil => exact ⟨.refl _, .inl rfl⟩
  | cons i l ih =>
    have hfront : Framed (i :: l) c { c with pendingRequests := i :: l } :=
      .inr (.inl ⟨by simp, List.suffix_refl _⟩)
    rw [UDPTrackerClient.createNext]
    dsimp only
    split
    next => exact ⟨.refl _, hfront⟩
    next hann =>
      have hann : (c.request i).action = .announce := by
        cases ha : (c.request i).action with
        | connect => exact absurd ha hann
        | announce => rfl
      obtain ⟨con, hget, hcon⟩ | ⟨cache, hget, hnot, -⟩ :=
        getConnectionId_cases c (c.request i).host now
      · rw [hget]
        dsimp only
        split
        next =>
          obtain ⟨hs, hf⟩ := ih (c := { c with connectRequests := c.connectRequests ++ [i] })
            fun j hj => hv j (.tail _ hj)
          have hmove : Sent { c with pendingRequests := i :: l }
              { c with connectRequests := c.connectRequests ++ [i], pendingRequests := l } := by
            refine ⟨le_rfl, fun _ _ => ⟨rfl, rfl, rfl, rfl⟩, fun j hj => List.mem_append_left _ hj,
              fun _ => id, fun j hj _ hc => .inl ?_⟩
            refine (List.mem_cons.mp hj).resolve_left ?_
            rintro rfl
            have hc : (c.request j).action = .connect := hc
            rw [hann] at hc
            cases hc
          refine ⟨hmove.trans hs, ?_⟩
          rcases hf with hf | ⟨hf, hf'⟩ | ⟨k, f, s, hf, hsuf, hk⟩
          · exact .inl hf
          · exact .inr (.inl ⟨hf, hf'.trans (List.suffix_cons ..)⟩)
          · refine .inr (.inr ⟨k, f, s, hf, hsuf.trans (List.suffix_cons ..), hk.1, hk.2.1, hk.2.2.1,
              fun heq => ?_⟩)
            have := hsuf.length_le
            rw [heq, List.length_cons] at this
            omega
        next =>
          have hattr := same_modify c i
            (f := fun r => { r with connectionId := con.connectionId, transactionId })
            fun _ => ⟨rfl, rfl, rfl, rfl⟩
          exact ⟨⟨(length_modify ..).ge, fun j _ => hattr j, fun _ => id, fun _ => id,
            fun j hj _ _ => .inl hj⟩, .inr (.inl ⟨by simp, List.suffix_refl _⟩)⟩
      · rw [hget]
        let creq : UDPTrackerRequest := {
          remoteAddr := (c.request i).remoteAddr, remotePort := (c.request i).remotePort
          action := .connect, transactionId }
        have hold : ∀ j < c.requests.length, (c.alloc creq).request j = c.request j := fun j hj =>
          request_alloc_of_lt creq hj
        have hattr : ∀ j < c.requests.length, let r := (c.alloc creq).request j
            r.action = (c.request j).action ∧ r.host = (c.request j).host ∧
              r.state = (c.request j).state ∧ r.failCount = (c.request j).failCount := by
          intro j hj
          rw [hold j hj]
          exact ⟨rfl, rfl, rfl, rfl⟩
        have hlen : (c.alloc creq).requests.length = c.requests.length + 1 := List.length_append
        have hi := hv i (.head _)
        have hnew : ((c.alloc creq).request c.requests.length) = creq := request_alloc_length creq
        refine ⟨⟨(Nat.le_succ _).trans hlen.ge, hattr, fun _ => id, fun _ => id,
          fun j hj _ _ => .inl (.tail _ hj)⟩, .inr (.inr ⟨c.requests.length, i, l, rfl,
            List.suffix_refl _, congrArg UDPTrackerRequest.action hnew, ?_,
            (hattr i hi).1.trans hann, fun _ => hnot⟩)⟩
        exact (congrArg UDPTrackerRequest.host hnew).trans (hattr i hi).2.1.symm

theorem sent_requestSent (c : UDPTrackerClient) (now : Nat) : Sent c (c.requestSent now) := by
  unfold UDPTrackerClient.requestSent
  split
  next => exact .refl c
  next i l hp =>
    have hattr := same_modify c i (f := fun r => { r with dispatched := now })
      fun _ => ⟨rfl, rfl, rfl, rfl⟩
    refine ⟨(length_modify ..).ge, fun j _ => hattr j, fun _ => id,
      fun j hj => List.mem_append_left _ hj, fun j hj _ _ => ?_⟩
    rw [hp, List.mem_cons] at hj
    rcases hj with rfl | hj
    · exact .inr (List.mem_append_right _ (.head _))
    · exact .inl hj

/-- The first pending request is an announce that only has to be set aside. -/
def Ready (c : UDPTrackerClient) : Prop :=
  ∃ f s, c.pendingRequests = f :: s ∧ (c.request f).action = .announce ∧
    c.Connecting (c.request f).host

/-- A frame is created and sent. -/
def send (c : UDPTrackerClient) (now : Nat) : UDPTrackerClient :=
  (c.createRequest now 0).2.requestSent now

theorem send_spec (now : Nat) (h : c.Held) (hne : c.pendingRequests ≠ []) :
    Sent c (c.send now) ∧ (c.send now).Held ∧
      ((c.send now).pendingRequests.length < c.pendingRequests.length ∨
        ¬c.Ready ∧ (c.send now).Ready ∧
          (c.send now).pendingRequests.length = c.pendingRequests.length) := by
  obtain ⟨hs, hf⟩ := createNext_spec now 0 (c := c) (l := c.pendingRequests)
    fun i hi => h.valid i (by simp [hi])
  refine ⟨hs.trans (sent_requestSent _ now), (h.createRequest now 0).requestSent now, ?_⟩
  have hpos := List.length_pos_of_ne_nil hne
  unfold send UDPTrackerClient.createRequest
  generalize (createNext now 0 c.pendingRequests c).2 = d at hs hf
  rcases hf with hf | ⟨hf, hsuf⟩ | ⟨k, f, s, hf, hsuf, hk, hhost, hann, hnot⟩
  · left
    rw [UDPTrackerClient.requestSent, hf]
    dsimp only
    rwa [hf]
  · left
    obtain ⟨i, l, hil⟩ := List.exists_cons_of_ne_nil hf
    have := hsuf.length_le
    rw [hil, List.length_cons] at this
    rw [UDPTrackerClient.requestSent, hil]
    dsimp only
    omega
  · have hle := hsuf.length_le
    have hpend : (d.requestSent now).pendingRequests = f :: s := by
      rw [UDPTrackerClient.requestSent, hf]
    rw [hpend]
    by_cases heq : f :: s = c.pendingRequests
    · right
      have hattr := same_modify d k (f := fun r => { r with dispatched := now })
        fun _ => ⟨rfl, rfl, rfl, rfl⟩
      refine ⟨?_, ⟨f, s, hpend, ?_, ?_⟩, by rw [heq]⟩
      · rintro ⟨f', s', hf', -, hc⟩
        rw [hf', List.cons.injEq] at heq
        exact hnot (heq.1 ▸ heq.2 ▸ hf'.symm) (heq.1.symm ▸ hc)
      · rw [UDPTrackerClient.requestSent, hf]
        exact (hattr f).1.trans hann
      · refine ⟨{}, ?_, rfl⟩
        rw [UDPTrackerClient.requestSent, hf]
        dsimp only
        rw [if_pos ((hattr k).1.trans hk)]
        refine (congrArg _ ?_).trans (Function.update_self ..)
        exact (hattr f).2.1.trans (hhost.symm.trans (hattr k).2.1.symm)
    · left
      rcases hle.lt_or_eq with hlt | hlen
      · exact hlt
      · exact absurd (hsuf.eq_of_length hlen) heq

/-- An event of the loop that sends requests and checks for timeouts. -/
def Event.IsTimer : Event → Prop
  | .createRequest .. | .requestSent _ | .handleTimeout _ => True
  | _ => False

/-- What can be reached without new requests and without replies. -/
def Later (c c' : UDPTrackerClient) : Prop :=
  ∃ es : List Event, (∀ e ∈ es, e.IsTimer) ∧ c.run es = c'

theorem Later.refl (c : UDPTrackerClient) : Later c c := ⟨[], nofun, rfl⟩

theorem Later.trans (h : Later c c') (h' : Later c' c'') : Later c c'' := by
  obtain ⟨es, he, rfl⟩ := h
  obtain ⟨es', he', rfl⟩ := h'
  exact ⟨es ++ es', fun e hm => (List.mem_append.mp hm).elim (he e) (he' e), exec_append ..⟩

theorem later_send (c : UDPTrackerClient) (now : Nat) : Later c (c.send now) :=
  ⟨[.createRequest now 0, .requestSent now], by simp [Event.IsTimer], rfl⟩

theorem later_handleTimeout (c : UDPTrackerClient) (now : Nat) : Later c (c.handleTimeout now) :=
  ⟨[.handleTimeout now], by simp [Event.IsTimer], rfl⟩

/-- All pending requests are sent or set aside. -/
theorem exists_drained (h : c.Held) :
    ∃ c', Later c c' ∧ Sent c c' ∧ c'.Held ∧ c'.pendingRequests = [] := by
  -- a frame is sent off the queue, or its first request becomes ready and is set aside next
  have hmain : ∀ n, ∀ c : UDPTrackerClient, c.Held → c.pendingRequests.length = n →
      ∃ c', Later c c' ∧ Sent c c' ∧ c'.Held ∧ c'.pendingRequests = [] := by
    intro n
    induction n using Nat.strong_induction_on with
    | h n ih =>
      intro c h hn
      by_cases hne : c.pendingRequests = []
      · exact ⟨c, .refl c, .refl c, h, hne⟩
      obtain ⟨hs, hh, hlt | ⟨-, hready, hlen⟩⟩ := send_spec 0 h hne
      · obtain ⟨c', h1, h2, h3⟩ := ih _ (hn ▸ hlt) _ hh rfl
        exact ⟨c', (later_send c 0).trans h1, hs.trans h2, h3⟩
      · have hne' : (c.send 0).pendingRequests ≠ [] := by
          obtain ⟨f, s, hf, -⟩ := hready
          simp [hf]
        obtain ⟨hs', hh', hlt' | ⟨hnot, -⟩⟩ := send_spec 0 hh hne'
        · obtain ⟨c', h1, h2, h3⟩ := ih _ (by omega) _ hh' rfl
          exact ⟨c', ((later_send c 0).trans (later_send _ 0)).trans h1, (hs.trans hs').trans h2, h3⟩
        · exact absurd hready hnot
  exact hmain _ c h rfl

/-! ## Letting time pass -/

/-- What a check for timeouts does to the requests `is`, all of them long overdue. -/
structure TimedOut (is : List Nat) (c c' : UDPTrackerClient) (dest : List Nat) : Prop where
  alike : Alike c c'
  dispatched : ∀ i, (c'.request i).dispatched = (c.request i).dispatched
  failCount : ∀ i, (c.request i).failCount ≤ (c'.request i).failCount
  complete : ∀ i, (c.request i).state = .complete → (c'.request i).state = .complete
  within : ∀ i ∈ c'.connectRequests, i ∈ c.connectRequests
  waiting : ∀ i ∈ c.connectRequests,
    i ∈ c'.connectRequests ∨ (c'.request i).state = .complete
  /-- A request is sent again the first time; the second time it fails, and with a CONNECT request
  those that wait for it. -/
  checked : ∀ i ∈ is,
    ((c.request i).failCount = 0 ∧ i ∈ dest ∧ 0 < (c'.request i).failCount) ∨
      ((c.request i).action = .announce → (c'.request i).state = .complete) ∧
        ((c.request i).action = .connect → ∀ j ∈ c.connectRequests,
          (c.request j).host = (c.request i).host → (c'.request j).state = .complete)

variable {is kept dest dest' : List Nat}

theorem TimedOut.cons (h : TimedOut [i] c c' dest) (h' : TimedOut is c' c'' dest')
    (hd : ∀ i ∈ dest, i ∈ dest') : TimedOut (i :: is) c c'' dest' where
  alike := h.alike.trans h'.alike
  dispatched j := (h'.dispatched j).trans (h.dispatched j)
  failCount j := (h.failCount j).trans (h'.failCount j)
  complete j hj := h'.complete j (h.complete j hj)
  within j hj := h.within j (h'.within j hj)
  waiting j hj := (h.waiting j hj).elim (h'.waiting j) fun hx => .inr (h'.complete j hx)
  checked k hk := by
    rcases List.mem_cons.mp hk with rfl | hk
    · rcases h.checked k (.head _) with ⟨h1, h2, h3⟩ | ⟨h1, h2⟩
      · exact .inl ⟨h1, hd k h2, h3.trans_le (h'.failCount k)⟩
      · exact .inr ⟨fun ha => h'.complete k (h1 ha),
          fun ha j hj hh => h'.complete j (h2 ha j hj hh)⟩
    · rcases h'.checked k hk with ⟨h1, h2, h3⟩ | ⟨h1, h2⟩
      · exact .inl ⟨Nat.le_zero.mp (h1 ▸ h.failCount k), h2, h3⟩
      · refine .inr ⟨fun ha => h1 ((h.alike.action k).trans ha), fun ha j hj hh => ?_⟩
        rcases h.waiting j hj with hw | hw
        · exact h2 ((h.alike.action k).trans ha) j hw
            ((h.alike.host j).trans (hh.trans (h.alike.host k).symm))
        · exact h'.complete j hw

theorem lt_of_complete (h : (c.request i).state = .complete) : i < c.requests.length := by
  by_contra hlt
  rw [request, List.getD_eq_getElem?_getD, List.getElem?_eq_none (not_lt.mp hlt)] at h
  cases h

/-- A request that fails for good; `d` is the client after the CONNECT request's part of it. -/
theorem timedOut_fail {d : UDPTrackerClient} (hi : i < c.requests.length) (ha : Alike c d)
    (hsame : ∀ j, (d.request j).failCount = (c.request j).failCount ∧
      (d.request j).dispatched = (c.request j).dispatched)
    (hcomplete : ∀ j, (c.request j).state = .complete → (d.request j).state = .complete)
    (hwithin : ∀ j ∈ d.connectRequests, j ∈ c.connectRequests)
    (hwaiting : ∀ j ∈ c.connectRequests, j ∈ d.connectRequests ∨ (d.request j).state = .complete)
    (hfail : (c.request i).action = .connect → ∀ j ∈ c.connectRequests,
      (c.request j).host = (c.request i).host → (d.request j).state = .complete) :
    TimedOut [i] c (d.modify i fun r =>
      { r with failCount := r.failCount + 1, state := .complete, error := .timeout }) dest := by
  have hm := alike_modify d i (f := fun r =>
    { r with failCount := r.failCount + 1, state := .complete, error := .timeout })
    (fun _ => rfl) (fun _ => rfl)
  have hstate : ∀ j, (d.request j).state = .complete → ((d.modify i fun r =>
      { r with failCount := r.failCount + 1, state := .complete, error := .timeout }).request
        j).state = .complete := by
    intro j hj
    rw [request_modify]
    split
    · rfl
    · exact hj
  refine ⟨ha.trans hm, fun j => ?_, fun j => ?_, fun j hj => hstate j (hcomplete j hj), hwithin,
    fun j hj => (hwaiting j hj).imp_right (hstate j), fun k hk => .inr ⟨fun _ => ?_, ?_⟩⟩
  · rw [← (hsame j).2, request_modify]
    split
    next hj => rw [hj.1]
    next => rfl
  · rw [← (hsame j).1, request_modify]
    split
    next hj => rw [hj.1]; exact Nat.le_succ _
    next => exact le_rfl
  · rw [List.mem_singleton.mp hk, request_modify, if_pos ⟨rfl, ha.length.symm ▸ hi⟩]
  · rw [List.mem_singleton.mp hk]
    exact fun hc j hj hh => hstate j (hfail hc j hj hh)

theorem timedOut_check (kept dest : List Nat) (hi : i < c.requests.length)
    (hv : ∀ j ∈ c.connectRequests, j < c.requests.length)
    (hw : ∀ j ∈ c.connectRequests, (c.request j).action = .announce)
    (hlate : seconds 10 ≤ difference (c.request i).dispatched now) :
    let r := UDPTrackerClient.timeoutCheck now (c, kept, dest) i
    TimedOut [i] c r.1 r.2.2 ∧ r.2.1 = kept ∧ ∀ i ∈ dest, i ∈ r.2.2 := by
  have hfive : seconds 5 ≤ difference (c.request i).dispatched now := le_trans (by decide) hlate
  rw [UDPTrackerClient.timeoutCheck]
  dsimp only
  by_cases hzero : (c.request i).failCount = 0
  · rw [if_pos hzero, if_pos hfive]
    refine ⟨?_, rfl, fun j hj => List.mem_append_left _ hj⟩
    refine ⟨alike_modify c i (fun _ => rfl) (fun _ => rfl), fun j => ?_, fun j => ?_, fun j hj => ?_,
      fun _ => id, fun _ => .inl, fun k hk => .inl ?_⟩
    · rw [request_modify]
      split
      next hj => rw [hj.1]
      next => rfl
    · rw [request_modify]
      split
      next hj => rw [hj.1]; exact Nat.le_succ _
      next => exact le_rfl
    · rw [request_modify]
      split
      next hj' => rwa [hj'.1] at hj
      next => exact hj
    · rw [List.mem_singleton.mp hk, request_modify, if_pos ⟨rfl, hi⟩]
      exact ⟨hzero, by simp, Nat.succ_pos _⟩
  · rw [if_neg hzero, if_pos hlate]
    refine ⟨?_, rfl, fun _ => id⟩
    split
    next hconn =>
      have hf := failed_failConnect c (c.request i).host .timeout
      have hfail : ∀ j ∈ c.connectRequests, (c.request j).host = (c.request i).host →
          ((c.failConnect (c.request i).host .timeout).request j).state = .complete := by
        intro j hj hh
        rw [hf.state j (hv j hj), if_pos ⟨.inl hj, hw j hj, hh⟩]
      refine timedOut_fail hi hf.alike hf.counters (fun j hj => ?_) (fun j hj => ?_) (fun j hj => ?_)
        fun _ => hfail
      · rw [hf.state j (lt_of_complete hj)]
        split
        · rfl
        · exact hj
      · rw [hf.connect] at hj
        exact (List.mem_filter.mp hj).1
      · by_cases hh : (c.request j).host = (c.request i).host
        · exact .inr (hfail j hj hh)
        · rw [hf.connect, List.mem_filter]
          exact .inl ⟨hj, by simp [hh]⟩
    next hann =>
      exact timedOut_fail hi (.refl c) (fun _ => ⟨rfl, rfl⟩) (fun _ => id) (fun _ => id)
        (fun _ => .inl) fun hx => absurd hx hann

theorem timedOut_foldl (is kept dest : List Nat) (hi : ∀ i ∈ is, i < c.requests.length)
    (hv : ∀ i ∈ c.connectRequests, i < c.requests.length)
    (hw : ∀ i ∈ c.connectRequests, (c.request i).action = .announce)
    (hlate : ∀ i ∈ is, seconds 10 ≤ difference (c.request i).dispatched now) :
    let r := is.foldl (UDPTrackerClient.timeoutCheck now) (c, kept, dest)
    TimedOut is c r.1 r.2.2 ∧ r.2.1 = kept ∧ ∀ i ∈ dest, i ∈ r.2.2 := by
  induction is generalizing c kept dest with
  | nil =>
    exact ⟨⟨.refl c, fun _ => rfl, fun _ => le_rfl, fun _ => id, fun _ => id, fun _ => .inl, nofun⟩,
      rfl, fun _ => id⟩
  | cons i is ih =>
    obtain ⟨h1, h2, h3⟩ := timedOut_check kept dest (hi i (.head _)) hv hw
      (hlate i (.head _))
    rw [List.foldl_cons]
    generalize UDPTrackerClient.timeoutCheck now (c, kept, dest) i = r at h1 h2 h3
    obtain ⟨d, kept', dest'⟩ := r
    obtain ⟨g1, g2, g3⟩ := ih (c := d) kept' dest'
      (fun j hj => h1.alike.length ▸ hi j (.tail _ hj))
      (fun j hj => h1.alike.length ▸ hv j (h1.within j hj))
      (fun j hj => (h1.alike.action j).trans (hw j (h1.within j hj)))
      (fun j hj => h1.dispatched j ▸ hlate j (.tail _ hj))
    exact ⟨h1.cons g1 g3, g2.trans h2, fun j hj => g3 j (h3 j hj)⟩

/-! ## Completion -/

/-- When everything in flight is overdue. -/
def late (c : UDPTrackerClient) : Nat :=
  (c.inflightRequests.map fun i => (c.request i).dispatched).sum + seconds 10

theorem le_late (hi : i ∈ c.inflightRequests) :
    seconds 10 ≤ difference (c.request i).dispatched c.late := by
  have := List.single_le_sum (fun _ _ => Nat.zero_le _) _
    (List.mem_map_of_mem (f := fun i => (c.request i).dispatched) hi)
  unfold difference late
  omega

/-- The check for timeouts when everything in flight is overdue. -/
theorem timedOut_late (h : c.Held) :
    ∃ dest, TimedOut c.inflightRequests c (c.handleTimeout c.late) dest ∧
      ∀ i ∈ dest, i ∈ (c.handleTimeout c.late).pendingRequests := by
  obtain ⟨h1, -, -⟩ := timedOut_foldl c.inflightRequests [] []
    (fun i hi => h.valid i (by simp [hi])) (fun i hi => h.valid i (by simp [hi]))
    (fun i hi => (h.waiting i hi).1) fun i hi => le_late hi
  refine ⟨_, ⟨⟨h1.alike.length, h1.alike.action, h1.alike.host⟩, h1.dispatched, h1.failCount,
    h1.complete, h1.within, h1.waiting, h1.checked⟩, fun i hi => List.mem_append_left _ hi⟩

/-- An announce that waits completes: the CONNECT request it waits for is answered or fails. -/
theorem completes_waiting (h : c.Held) (hp : c.pendingRequests = []) (hi : i ∈ c.connectRequests) :
    ∃ c', Later c c' ∧ (c'.request i).state = .complete := by
  obtain ⟨hann, hconn⟩ := h.waiting i hi
  obtain ⟨j, hj, hjc, hjh⟩ := h.connecting _ hconn
  rw [hp, List.nil_append] at hj
  obtain ⟨dest, ht, hdest⟩ := timedOut_late h
  have hlater := later_handleTimeout c c.late
  have hheld := h.handleTimeout c.late
  generalize c.handleTimeout c.late = c₁ at ht hdest hlater hheld
  rcases ht.waiting i hi with hi₁ | hdone
  swap
  · exact ⟨c₁, hlater, hdone⟩
  rcases ht.checked j hj with ⟨-, hjd, hfc⟩ | ⟨-, hdone⟩
  swap
  · exact ⟨c₁, hlater, hdone hjc i hi hjh.symm⟩
  obtain ⟨c₂, hlater₂, hs, hheld₂, hp₂⟩ := exists_drained hheld
  have hjlt : j < c₁.requests.length := hheld.valid j (by simp [hdest j hjd])
  have hilt : i < c₁.requests.length := hheld.valid i (by simp [hi₁])
  have hj₂ := hs.connect j (hdest j hjd) hjlt ((ht.alike.action j).trans hjc)
  rw [hp₂] at hj₂
  have hj₂ := hj₂.resolve_left (List.not_mem_nil)
  obtain ⟨dest₂, ht₂, -⟩ := timedOut_late hheld₂
  refine ⟨_, (hlater.trans hlater₂).trans (later_handleTimeout c₂ c₂.late), ?_⟩
  obtain ⟨ha, hh, -, hf⟩ := hs.same j hjlt
  rcases ht₂.checked j hj₂ with ⟨hzero, -⟩ | ⟨-, hdone⟩
  · rw [hf] at hzero
    omega
  · refine hdone (ha.trans ((ht.alike.action j).trans hjc)) i (hs.waiting i hi₁) ?_
    rw [(hs.same i hilt).2.1, hh, ht.alike.host, ht.alike.host, hjh]

/-- An announce is pending, in flight or waiting until it is complete. -/
theorem Held.places (h : c.Held) (hi : i < c.requests.length)
    (hann : (c.request i).action = .announce) (hst : (c.request i).state ≠ .complete) :
    i ∈ c.pendingRequests ∨ i ∈ c.inflightRequests ∨ i ∈ c.connectRequests := by
  have hp := Kept.places h i hi hann
  rw [if_neg hst, List.count_append] at hp
  by_contra hno
  push Not at hno
  rw [List.count_eq_zero_of_not_mem hno.1, List.count_eq_zero_of_not_mem hno.2.1,
    List.count_eq_zero_of_not_mem hno.2.2] at hp
  cases hp

theorem completes_inflight (h : c.Held) (hi : i ∈ c.inflightRequests)
    (hann : (c.request i).action = .announce) :
    ∃ c', Later c c' ∧ (c'.request i).state = .complete := by
  obtain ⟨dest, ht, hdest⟩ := timedOut_late h
  have hlater := later_handleTimeout c c.late
  have hheld := h.handleTimeout c.late
  generalize c.handleTimeout c.late = c₁ at ht hdest hlater hheld
  rcases ht.checked i hi with ⟨-, hid, hfc⟩ | ⟨hdone, -⟩
  swap
  · exact ⟨c₁, hlater, hdone hann⟩
  -- it has been put back and is sent or waits once more
  obtain ⟨c₂, hlater₂, hs, hheld₂, hp₂⟩ := exists_drained hheld
  have hlater₂ := hlater.trans hlater₂
  have hilt : i < c₁.requests.length := hheld.valid i (by simp [hdest i hid])
  obtain ⟨ha, -, -, hf⟩ := hs.same i hilt
  have hann₂ := ha.trans ((ht.alike.action i).trans hann)
  by_cases hst : (c₂.request i).state = .complete
  · exact ⟨c₂, hlater₂, hst⟩
  have hplaces := hheld₂.places (hilt.trans_le hs.length) hann₂ hst
  rw [hp₂] at hplaces
  rcases hplaces.resolve_left List.not_mem_nil with hin | hin
  · obtain ⟨dest₂, ht₂, -⟩ := timedOut_late hheld₂
    refine ⟨_, hlater₂.trans (later_handleTimeout c₂ c₂.late), ?_⟩
    rcases ht₂.checked i hin with ⟨hzero, -⟩ | ⟨hdone, -⟩
    · rw [hf] at hzero
      omega
    · exact hdone hann₂
  · obtain ⟨c', h1, h2⟩ := completes_waiting hheld₂ hp₂ hin
    exact ⟨c', hlater₂.trans h1, h2⟩

theorem completes (h : c.Held) (hi : i < c.requests.length)
    (hann : (c.request i).action = .announce) :
    ∃ c', Later c c' ∧ (c'.request i).state = .complete := by
  obtain ⟨c₁, hlater, hs, hheld, hp⟩ := exists_drained h
  by_cases hst : (c₁.request i).state = .complete
  · exact ⟨c₁, hlater, hst⟩
  have hann₁ := (hs.same i hi).1.trans hann
  have hplaces := hheld.places (hi.trans_le hs.length) hann₁ hst
  rw [hp] at hplaces
  rcases hplaces.resolve_left List.not_mem_nil with hin | hin
  · obtain ⟨c', h1, h2⟩ := completes_inflight hheld hin hann₁
    exact ⟨c', hlater.trans h1, h2⟩
  · obtain ⟨c', h1, h2⟩ := completes_waiting hheld hp hin
    exact ⟨c', hlater.trans h1, h2⟩

/-- Every announce is complete or in exactly one queue, a CONNECT request is on its way for those
that wait, and time alone completes them all. -/
structure NoneStranded (c : UDPTrackerClient) : Prop where
  places : ∀ i < c.requests.length, (c.request i).action = .announce →
    let places := c.pendingRequests.count i + c.inflightRequests.count i + c.connectRequests.count i
    (c.request i).state = .complete ∧ places = 0 ∨ (c.request i).state ≠ .complete ∧ places = 1
  connecting : ∀ i ∈ c.connectRequests, ∃ j, (j ∈ c.pendingRequests ∨ j ∈ c.inflightRequests) ∧
    (c.request j).action = .connect ∧ (c.request j).host = (c.request i).host
  completes : ∀ i < c.requests.length, (c.request i).action = .announce →
    ∃ c', Later c c' ∧ (c'.request i).state = .complete

theorem Held.noneStranded (h : c.Held) : c.NoneStranded where
  places i hi hann := by
    have hp := Kept.places h i hi hann
    rw [List.count_append] at hp
    by_cases hst : (c.request i).state = .complete
    · rw [if_pos hst] at hp
      exact .inl ⟨hst, hp⟩
    · rw [if_neg hst] at hp
      exact .inr ⟨hst, hp⟩
  connecting i hi := by
    obtain ⟨j, hj, hconn⟩ := h.connecting _ (h.waiting i hi).2
    exact ⟨j, List.mem_append.mp hj, hconn⟩
  completes _ hi hann := completes h hi hann

/-- In a run whose replies fit the requests they are taken for answers to, no request is ever
stranded. -/
theorem none_stranded {es : List Event} (hfit : Along step FitsEvent {} es) :
    Visits step NoneStranded {} es :=
  visits_of_along (fun _ _ h hf => h.step hf) (fun _ h => h.noneStranded) held_new hfit

theorem fits_of_findInflightRequest {data : Utp.Bytes} {length : Nat} {host : Host}
    (hi : c.findInflightRequest host (Bt.getIntParam data 4) = some i)
    (hconn : Bt.getIntParam data 0 = 0 → (c.request i).action = .connect)
    (hann : Bt.getIntParam data 0 = 1 → (c.request i).action = .announce) :
    c.Fits data length host := by
  intro j hj
  obtain rfl := Option.some.inj (hi.symm.trans hj)
  exact ⟨fun h _ => hconn h, fun h _ => hann h⟩

/-- An announce to a tracker, the CONNECT request that it needs, the tracker's CONNECT reply and the
announce's being sent. -/
def connectRun : List Event :=
  [.addRequest { remoteAddr := "192.168.0.1", remotePort := 6991, action := .announce },
    .createRequest 0 7, .requestSent 0,
    .receiveReply [0, 0, 0, 0, 0, 0, 0, 7, 0, 0, 0, 0, 0, 0, 0, 1] 16 ("192.168.0.1", 6991) 0,
    .createRequest 0 8, .requestSent 0]

/-- The ANNOUNCE reply of that tracker: an interval of 1800 s, one leecher, two seeders and a
peer. -/
def announceBytes : Utp.Bytes :=
  [0, 0, 0, 1, 0, 0, 0, 8, 0, 0, 7, 8, 0, 0, 0, 1, 0, 0, 0, 2, 10, 0, 0, 7, 0x1a, 0xe1]

/-- The tracker answers both requests. -/
theorem none_stranded_answered :
    Visits step NoneStranded {}
        (connectRun ++ [.receiveReply announceBytes 26 ("192.168.0.1", 6991) 0]) ∧
      ((run {} (connectRun ++ [.receiveReply announceBytes 26 ("192.168.0.1", 6991) 0])).request
        0).state = .complete :=
  ⟨none_stranded ⟨trivial, trivial, trivial,
      fits_of_findInflightRequest (i := 1) (by decide +kernel) (fun _ => by decide +kernel)
        (fun h => absurd h (by decide +kernel)),
      trivial, trivial,
      fits_of_findInflightRequest (i := 0) (by decide +kernel)
        (fun h => absurd h (by decide +kernel)) (fun _ => by decide +kernel),
      trivial⟩,
    by decide +kernel⟩

/-- The announce has been sent, and the tracker answers it with a CONNECT reply. -/
def wrongKindRun : List Event :=
  connectRun ++
    [.receiveReply [0, 0, 0, 0, 0, 0, 0, 8, 0, 0, 0, 0, 0, 0, 0, 1] 16 ("192.168.0.1", 6991) 0]

/-- The announce is not complete and in none of the queues. -/
theorem wrong_kind_counterexample : ¬Visits step NoneStranded {} wrongKindRun := fun h =>
  absurd (h.last.places 0 (by decide +kernel) (by decide +kernel)) (by decide +kernel)

end FluxCore.Udp.UDPTrackerClient
