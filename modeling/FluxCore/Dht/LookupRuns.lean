import FluxCore.Dht.Lookup

/-!
# Runs of a node lookup

Sending moves ids from those that wait to those that were asked, in order: `asked ++ unused
entries` stays as it is (`sendMessage_waiting`). So nothing is asked twice as long as nothing comes
to wait a second time, and that depends on the answers alone (`Remembers`): an entry is the only
memory a lookup has of whom it asked.
-/

namespace FluxCore.Dht.DHTAbstractNodeLookupTask

variable {s : DHTAbstractNodeLookupTask}

/-- What a lookup keeps in any run: its counter, and when it is through. -/
structure Counted (s : DHTAbstractNodeLookupTask) : Prop where
  inFlight : s.inFlightMessage = s.outstanding.length
  le : s.inFlightMessage ≤ ALPHA
  finished : s.finished = true ↔ s.outstanding = []

/-- All that was asked and is to be asked. -/
def waiting (s : DHTAbstractNodeLookupTask) : List ID := s.asked ++ unused s.entries

theorem sendMessage_waiting (s : DHTAbstractNodeLookupTask) :
    waiting (sendMessage s) = waiting s := by
  simp only [waiting, sendMessage, unused_sendLoop s.inFlightMessage s.entries, List.append_assoc]

theorem sendMessageAndCheckFinish_waiting (s : DHTAbstractNodeLookupTask) :
    waiting (sendMessageAndCheckFinish s) = waiting s := by
  rw [sendMessageAndCheckFinish, ← sendMessage_waiting s]
  split
  · rfl
  · rfl

/-- What sending does to the counter. -/
theorem sendMessageAndCheckFinish_counted (hin : s.inFlightMessage = s.outstanding.length)
    (hle : s.inFlightMessage ≤ ALPHA) (hfin : s.finished = false) :
    Counted (sendMessageAndCheckFinish s) := by
  have hlen := sendLoop_le s.inFlightMessage s.entries hle
  have hin' : (sendMessage s).inFlightMessage = (sendMessage s).outstanding.length := by
    simp [sendMessage, hin]
  have hle' : (sendMessage s).inFlightMessage ≤ ALPHA := hlen
  rw [sendMessageAndCheckFinish]
  split
  next h0 =>
    exact ⟨hin', hle', iff_of_true rfl (List.length_eq_zero_iff.mp (hin'.symm.trans h0))⟩
  next h0 =>
    refine ⟨hin', hle', iff_of_false ?_ fun hnil => h0 (hin'.trans (by rw [hnil]; rfl))⟩
    change ¬s.finished = true
    rw [hfin]
    decide

/-- The queries sent so far are those in flight and those that came to an end. -/
theorem sendMessageAndCheckFinish_asked (s : DHTAbstractNodeLookupTask) :
    (sendMessageAndCheckFinish s).asked.length + s.outstanding.length =
      s.asked.length + (sendMessageAndCheckFinish s).outstanding.length := by
  have h : (sendMessage s).asked.length + s.outstanding.length =
      s.asked.length + (sendMessage s).outstanding.length := by
    simp only [sendMessage, List.length_append, List.length_map]
    omega
  rw [sendMessageAndCheckFinish]
  split
  · exact h
  · exact h

/-! ## The start -/

def init (targetID localID : ID) (nodes : List DHTNode) : DHTAbstractNodeLookupTask :=
  startup nodes { targetID, localID }

theorem unused_toEntries (nodes : List DHTNode) : unused (toEntries nodes) = nodes.map (·.id) := by
  simp [unused, toEntries, List.filter_map, Function.comp_def]

theorem init_eq (targetID localID : ID) (nodes : List DHTNode) :
    init targetID localID nodes =
      sendMessageAndCheckFinish { targetID, localID, entries := toEntries nodes } := by
  cases nodes with
  | nil => rfl
  | cons n nodes => rfl

theorem counted_init (targetID localID : ID) (nodes : List DHTNode) :
    Counted (init targetID localID nodes) := by
  rw [init_eq]
  exact sendMessageAndCheckFinish_counted rfl (Nat.zero_le _) rfl

theorem init_asked (targetID localID : ID) (nodes : List DHTNode) :
    (init targetID localID nodes).asked.length =
      (init targetID localID nodes).outstanding.length := by
  have h := sendMessageAndCheckFinish_asked { targetID, localID, entries := toEntries nodes }
  rw [← init_eq] at h
  simpa using h

theorem waiting_init (targetID localID : ID) (nodes : List DHTNode) :
    waiting (init targetID localID nodes) = nodes.map (·.id) := by
  rw [init_eq, sendMessageAndCheckFinish_waiting]
  exact unused_toEntries nodes

/-! ## Steps -/

theorem decrement_eq {n : Nat} (h0 : n ≠ 0) (hle : n ≤ ALPHA) : decrement n = n - 1 := by
  have hle : n ≤ 5 := hle
  rw [decrement]
  omega

/-- The entries a step leaves before it sends. -/
def entriesAfter (s : DHTAbstractNodeLookupTask) : Event → List DHTNodeLookupEntry
  | .reply query id nodes => merge s.targetID (candidates { query with id } nodes s)
  | .timeout query => s.entries.eraseP (·.node.id = query.id)

theorem step_eq (s : DHTAbstractNodeLookupTask) (e : Event) :
    step s e = sendMessageAndCheckFinish { s with
      entries := entriesAfter s e
      inFlightMessage := decrement s.inFlightMessage
      outstanding := s.outstanding.erase e.query } := by
  cases e with
  | reply query id nodes => simp only [step, onReceived, candidates, entriesAfter, Event.query]
  | timeout query => simp only [step, onTimeout, entriesAfter, Event.query]

theorem Counted.inFlight_ne_zero (h : Counted s) {e : Event} (he : Answers s e) :
    s.inFlightMessage ≠ 0 := by
  rw [h.inFlight]
  exact (List.length_pos_of_mem he).ne'

theorem Counted.step (h : Counted s) (e : Event) (he : Answers s e) :
    Counted (DHTAbstractNodeLookupTask.step s e) := by
  have h0 := h.inFlight_ne_zero he
  have hdec := decrement_eq h0 h.le
  have hle := h.le
  rw [step_eq]
  refine sendMessageAndCheckFinish_counted ?_ ?_ ?_
  · change decrement s.inFlightMessage = (s.outstanding.erase e.query).length
    rw [hdec, List.length_erase_of_mem he, h.inFlight]
  · change decrement s.inFlightMessage ≤ ALPHA
    omega
  · exact Bool.eq_false_iff.mpr fun hf => List.ne_nil_of_mem he (h.finished.mp hf)

theorem step_asked (s : DHTAbstractNodeLookupTask) (e : Event) (he : Answers s e) :
    (step s e).asked.length + s.outstanding.length =
      s.asked.length + 1 + (step s e).outstanding.length := by
  have h := sendMessageAndCheckFinish_asked { s with
    entries := entriesAfter s e
    inFlightMessage := decrement s.inFlightMessage
    outstanding := s.outstanding.erase e.query }
  have hpos : 0 < s.outstanding.length := List.length_pos_of_mem he
  rw [← step_eq] at h
  dsimp only at h
  rw [List.length_erase_of_mem he] at h
  omega

theorem step_waiting (s : DHTAbstractNodeLookupTask) (e : Event) :
    waiting (step s e) = s.asked ++ unused (entriesAfter s e) := by
  rw [step_eq, sendMessageAndCheckFinish_waiting]
  rfl

theorem exec_asked {es : List Event} (hes : Along step Answers s es) :
    (exec step s es).asked.length + s.outstanding.length =
      s.asked.length + es.length + (exec step s es).outstanding.length := by
  induction es generalizing s with
  | nil => rfl
  | cons e es ih =>
    have h1 := step_asked s e hes.1
    have h2 := ih hes.2
    simp only [exec, List.length_cons]
    omega

/-! ## What an answer brings back -/

/-- The nodes of an answer that are not the local one. -/
def returned (s : DHTAbstractNodeLookupTask) (nodes : List DHTNode) : List ID :=
  (nodes.map (·.id)).filter (· ≠ s.localID)

/-- The entries under the id of the node that answered. -/
def renamed (s : DHTAbstractNodeLookupTask) (query : DHTNode) (id : ID) :
    List DHTNodeLookupEntry :=
  s.entries.map (rename { query with id })

/-- An answer brings back no node that was asked before, unless `K` ids are closer: a node in it
whose id was asked still has its entry, and if the id of the node that answers was asked, the
oldest entry that now has it is one that was used. -/
def Remembers (s : DHTAbstractNodeLookupTask) : Event → Prop
  | .reply query id nodes =>
    ∀ x ∈ s.asked, closer s.targetID
        (returned s nodes ++ (renamed s query id).map (·.node.id)) x < DHTBucket.K →
      (x ∈ returned s nodes → x ∈ (renamed s query id).map (·.node.id)) ∧
      (x = id → ∀ e, ((renamed s query id).filter (·.node.id = id)).getLast? = some e →
        e.used = true)
  | .timeout _ => True

theorem candidates_eq (s : DHTAbstractNodeLookupTask) (query : DHTNode) (id : ID)
    (nodes : List DHTNode) :
    candidates { query with id } nodes s =
      (toEntries (nodes.filter (·.id ≠ s.localID))).reverse ++ renamed s query id := by
  rw [candidates, pushNew_eq, renamed]
  congr 2
  simp [toEntries, List.filter_map, Function.comp_def]

theorem mem_returned {nodes : List DHTNode} {x : ID} :
    x ∈ returned s nodes ↔ ∃ n ∈ nodes, n.id ≠ s.localID ∧ n.id = x := by
  simp only [returned, List.mem_filter, List.mem_map, decide_eq_true_eq]
  constructor
  · rintro ⟨⟨n, hn, rfl⟩, hx⟩
    exact ⟨n, hn, hx, rfl⟩
  · rintro ⟨n, hn, hx, rfl⟩
    exact ⟨⟨n, hn, rfl⟩, hx⟩

theorem closer_candidates (s : DHTAbstractNodeLookupTask) (query : DHTNode) (id : ID)
    (nodes : List DHTNode) (x : ID) :
    closer s.targetID ((candidates { query with id } nodes s).map (·.node.id)) x =
      closer s.targetID (returned s nodes ++ (renamed s query id).map (·.node.id)) x := by
  have hset : ((candidates { query with id } nodes s).map (·.node.id)).toFinset =
      (returned s nodes ++ (renamed s query id).map (·.node.id)).toFinset := by
    ext y
    rw [candidates_eq]
    simp only [toEntries, List.map_append, List.mem_toFinset, List.mem_append, mem_returned]
    simp [and_assoc]
  rw [closer, hset, closer]

/-- An entry whose id is not the new one is as it was. -/
theorem mem_renamed_of_ne {query : DHTNode} {id : ID} {e : DHTNodeLookupEntry}
    (he : e ∈ renamed s query id) (hid : e.node.id ≠ id) : e ∈ s.entries := by
  obtain ⟨e₀, he₀, rfl⟩ := List.mem_map.mp he
  rw [rename] at hid ⊢
  split
  next h =>
    rw [if_pos h] at hid
    exact absurd rfl hid
  next h => exact he₀

/-- All that an answer brings is unused. -/
theorem exists_last_toEntries (nodes : List DHTNode) (localID x : ID) :
    (∃ e, ((toEntries (nodes.filter (·.id ≠ localID))).reverse.filter
        (·.node.id = x)).getLast? = some e ∧ e.used = false) ↔
      ∃ n ∈ nodes, n.id ≠ localID ∧ n.id = x := by
  constructor
  · rintro ⟨e, he, -⟩
    obtain ⟨he, hex⟩ := List.mem_filter.mp (List.mem_of_getLast? he)
    obtain ⟨n, hn, rfl⟩ := List.mem_map.mp (List.mem_reverse.mp he)
    obtain ⟨hn, hne⟩ := List.mem_filter.mp hn
    exact ⟨n, hn, by simpa using hne, by simpa using hex⟩
  · rintro ⟨n, hn, hne, rfl⟩
    have hm : ({ node := n } : DHTNodeLookupEntry) ∈
        (toEntries (nodes.filter (·.id ≠ localID))).reverse.filter (·.node.id = n.id) := by
      refine List.mem_filter.mpr ⟨List.mem_reverse.mpr (List.mem_map.mpr ⟨n, ?_, rfl⟩), by simp⟩
      exact List.mem_filter.mpr ⟨hn, by simpa using hne⟩
    obtain ⟨e, he⟩ := Option.ne_none_iff_exists'.mp
      (mt List.getLast?_eq_none_iff.mp (List.ne_nil_of_mem hm))
    have hmem := (List.mem_filter.mp (List.mem_of_getLast? he)).1
    obtain ⟨m, -, rfl⟩ := List.mem_map.mp (List.mem_reverse.mp hmem)
    exact ⟨_, he, rfl⟩

/-- **What an answer may not bring back is all that it may not**: after it the ids that wait are new
if and only if it keeps to `Remembers`. -/
theorem remembers_iff (hfresh : ∀ x ∈ s.asked, x ∉ unused s.entries) (query : DHTNode) (id : ID)
    (nodes : List DHTNode) :
    (∀ x ∈ s.asked, x ∉ unused (entriesAfter s (.reply query id nodes))) ↔
      Remembers s (.reply query id nodes) := by
  refine forall₂_congr fun x hx => ?_
  have hmem : x ∈ unused (entriesAfter s (.reply query id nodes)) ↔
      closer s.targetID (returned s nodes ++ (renamed s query id).map (·.node.id)) x <
          DHTBucket.K ∧
        ∃ e, ((candidates { query with id } nodes s).filter (·.node.id = x)).getLast? = some e ∧
          e.used = false := by
    rw [mem_unused, entriesAfter]
    constructor
    · rintro ⟨e, he, hu, rfl⟩
      obtain ⟨hlast, hk⟩ := (mem_merge _).mp he
      exact ⟨closer_candidates s .. ▸ hk, e, hlast, hu⟩
    · rintro ⟨hk, e, hlast, hu⟩
      have hid : e.node.id = x := by
        simpa using (List.mem_filter.mp (List.mem_of_getLast? hlast)).2
      subst hid
      exact ⟨e, (mem_merge _).mpr ⟨hlast, (closer_candidates s ..).symm ▸ hk⟩, hu, rfl⟩
  rw [hmem, not_and]
  refine imp_congr_right fun _ => ?_
  rw [candidates_eq, List.filter_append, List.getLast?_append]
  cases hold : ((renamed s query id).filter (·.node.id = x)).getLast? with
  | none =>
    have hnone : x ∉ (renamed s query id).map (·.node.id) := fun hm => by
      obtain ⟨e, he, hex⟩ := List.mem_map.mp hm
      exact List.filter_eq_nil_iff.mp (List.getLast?_eq_none_iff.mp hold) e he (by simpa using hex)
    have hlast : ∀ e, x = id →
        ((renamed s query id).filter (·.node.id = id)).getLast? = some e → e.used = true := by
      rintro e rfl he
      rw [hold] at he
      cases he
    rw [Option.none_or, exists_last_toEntries, ← mem_returned]
    exact ⟨fun hn => ⟨fun hr => absurd hr hn, fun hx e => hlast e hx⟩,
      fun h hr => hnone (h.1 hr)⟩
  | some e =>
    obtain ⟨he, hex⟩ := List.mem_filter.mp (List.mem_of_getLast? hold)
    have hex : e.node.id = x := by simpa using hex
    rw [Option.some_or]
    constructor
    · refine fun hn => ⟨fun _ => List.mem_map.mpr ⟨e, he, hex⟩, ?_⟩
      rintro rfl e' he'
      obtain rfl : e = e' := Option.some.inj (hold.symm.trans he')
      exact Bool.not_eq_false _ ▸ fun hu => hn ⟨e, rfl, hu⟩
    · rintro ⟨-, hlast⟩ ⟨e', he', hu⟩
      obtain rfl : e = e' := Option.some.inj he'
      by_cases hxid : x = id
      · subst hxid
        exact absurd (hlast rfl e hold) (by rw [hu]; decide)
      · have hold := mem_renamed_of_ne he (by rwa [hex])
        exact hfresh x hx (mem_unused.mpr ⟨e, hold, hu, hex⟩)

/-! ## Runs -/

theorem unused_sublist (entries : List DHTNodeLookupEntry) :
    (unused entries).Sublist (entries.map (·.node.id)) :=
  (List.filter_sublist ..).map _

theorem unused_timeout_sublist (s : DHTAbstractNodeLookupTask) (query : DHTNode) :
    (unused (entriesAfter s (.timeout query))).Sublist (unused s.entries) :=
  ((List.eraseP_sublist ..).filter _).map _

theorem nodup_unused_entriesAfter (h : (waiting s).Nodup) (e : Event) :
    (unused (entriesAfter s e)).Nodup := by
  cases e with
  | reply query id nodes => exact (merged_merge _ _).distinct.sublist (unused_sublist _)
  | timeout query => exact (List.nodup_append.mp h).2.1.sublist (unused_timeout_sublist s query)

/-- The ids that were asked or wait stay distinct in a step if and only if it keeps to
`Remembers`. -/
theorem step_waiting_nodup_iff (h : (waiting s).Nodup) (e : Event) :
    (waiting (step s e)).Nodup ↔ Remembers s e := by
  obtain ⟨hasked, -, hdisj⟩ := List.nodup_append.mp h
  have hfresh : ∀ x ∈ s.asked, x ∉ unused s.entries := fun x hx hu => hdisj x hx x hu rfl
  have hnodup : (waiting (step s e)).Nodup ↔
      ∀ x ∈ s.asked, x ∉ unused (entriesAfter s e) := by
    rw [step_waiting, List.nodup_append]
    constructor
    · exact fun ⟨_, _, hd⟩ x hx hu => hd x hx x hu rfl
    · refine fun hn => ⟨hasked, nodup_unused_entriesAfter h e, ?_⟩
      rintro x hx _ hu rfl
      exact hn x hx hu
  rw [hnodup]
  cases e with
  | reply query id nodes => exact remembers_iff hfresh query id nodes
  | timeout query =>
    exact iff_of_true (fun x hx hu => hfresh x hx ((unused_timeout_sublist s query).subset hu))
      trivial

/-- In a run no id comes to wait that was asked or waits if and only if every answer keeps to
`Remembers`. -/
theorem waiting_nodup_iff (h : (waiting s).Nodup) (es : List Event) :
    Visits step (fun s => (waiting s).Nodup) s es ↔ Along step Remembers s es :=
  visits_iff_along (fun _ e hs _ he => (step_waiting_nodup_iff hs e).mpr he) (fun _ hs => hs)
    (fun _ e hs _ hn hs' => hn ((step_waiting_nodup_iff hs e).mp hs')) h
    (Along.of_forall fun _ _ => trivial)

/-- The nodes of an answer are from `S`, and so is the id of the node that answers. -/
def Drawn (S : Finset ID) : Event → Prop
  | .reply _ id nodes => id ∈ S ∧ ∀ n ∈ nodes, n.id ∈ S
  | .timeout _ => True

instance (S : Finset ID) : DecidablePred (Drawn S)
  | .reply _ id nodes => inferInstanceAs (Decidable (id ∈ S ∧ ∀ n ∈ nodes, n.id ∈ S))
  | .timeout _ => inferInstanceAs (Decidable True)

theorem step_waiting_mem {S : Finset ID} (h : ∀ x ∈ waiting s, x ∈ S) {e : Event}
    (he : Drawn S e) : ∀ x ∈ waiting (step s e), x ∈ S := by
  rw [step_waiting]
  intro x hx
  rcases List.mem_append.mp hx with hx | hx
  · exact h x (List.mem_append_left _ hx)
  cases e with
  | timeout query =>
    exact h x (List.mem_append_right _ ((unused_timeout_sublist s query).subset hx))
  | reply query id nodes =>
    obtain ⟨e, hm, hu, rfl⟩ := mem_unused.mp hx
    obtain ⟨hlast, -⟩ := (mem_merge _).mp hm
    have hc := (List.mem_filter.mp (List.mem_of_getLast? hlast)).1
    rw [candidates_eq] at hc
    rcases List.mem_append.mp hc with hc | hc
    · obtain ⟨n, hn, rfl⟩ := List.mem_map.mp (List.mem_reverse.mp hc)
      exact he.2 n (List.mem_filter.mp hn).1
    · by_cases hid : e.node.id = id
      · exact hid ▸ he.1
      · have hold := mem_renamed_of_ne hc hid
        exact h _ (List.mem_append_right _ (mem_unused.mpr ⟨e, hold, hu, rfl⟩))

theorem exec_waiting_mem {S : Finset ID} (h : ∀ x ∈ waiting s, x ∈ S) {es : List Event}
    (hes : ∀ e ∈ es, Drawn S e) : ∀ x ∈ waiting (exec step s es), x ∈ S := by
  induction es generalizing s with
  | nil => exact h
  | cons e es ih =>
    exact ih (step_waiting_mem h (hes e (.head _))) fun e' he' => hes e' (.tail _ he')

theorem Merged.of_nodes {targetID : ID} {entries entries' : List DHTNodeLookupEntry}
    (hnodes : entries'.map (·.node) = entries.map (·.node)) (h : Merged targetID entries) :
    Merged targetID entries' := by
  have hids : entries'.map (·.node.id) = entries.map (·.node.id) := by
    simpa [Function.comp_def] using congrArg (List.map (·.id)) hnodes
  refine ⟨?_, hids ▸ h.distinct, ?_⟩
  · have hs : (entries.map (·.node.id)).Pairwise (targetID.distance · < targetID.distance ·) :=
      List.pairwise_map.mpr h.sorted
    rw [← hids, List.pairwise_map] at hs
    exact hs
  · have hlen := congrArg List.length hnodes
    rw [List.length_map, List.length_map] at hlen
    exact hlen ▸ h.length_le

theorem step_entries (s : DHTAbstractNodeLookupTask) (e : Event) :
    (step s e).entries.map (·.node) = (entriesAfter s e).map (·.node) := by
  rw [step_eq, sendMessageAndCheckFinish]
  split
  · exact sendLoop_nodes ..
  · exact sendLoop_nodes ..

/-- After an answer the entries are sorted and distinct, however the run went. -/
theorem merged_step (s : DHTAbstractNodeLookupTask) (query : DHTNode) (id : ID)
    (nodes : List DHTNode) :
    Merged s.targetID (step s (.reply query id nodes)).entries :=
  (merged_merge _ _).of_nodes (step_entries s _)

/-- **A lookup asks every id once and comes to an end.** From starting nodes with distinct ids,
where every answer keeps to `Remembers`: the counter is the number of queries in flight in every
state and is never decremented at zero, the task is finished when there are none, the entries are
merged after every answer, no id is asked twice, and there are no more answers and timeouts than
there are ids. -/
theorem asked_once (targetID localID : ID) (nodes : List DHTNode) (es : List Event) (S : Finset ID)
    (hes : Along step Answers (init targetID localID nodes) es)
    (hS : ∀ n ∈ nodes, n.id ∈ S) (hdrawn : ∀ e ∈ es, Drawn S e)
    (hstart : (nodes.map (·.id)).Nodup)
    (hrem : Along step Remembers (init targetID localID nodes) es) :
    Visits step (fun s => Counted s ∧ s.asked.Nodup) (init targetID localID nodes) es ∧
    Along step (fun s e => s.inFlightMessage ≠ 0 ∧
      ∀ query id nodes, e = .reply query id nodes → Merged s.targetID (step s e).entries)
      (init targetID localID nodes) es ∧
    es.length ≤ S.card := by
  have hw0 : (waiting (init targetID localID nodes)).Nodup := by
    rwa [waiting_init]
  have hstep : ∀ s e, (Counted s ∧ (waiting s).Nodup) → (Answers s e ∧ Remembers s e) →
      (Counted (step s e) ∧ (waiting (step s e)).Nodup) := fun s e hs he =>
    ⟨hs.1.step e he.1, (step_waiting_nodup_iff hs.2 e).mpr he.2⟩
  have h0 := And.intro (counted_init targetID localID nodes) hw0
  have hasked : ∀ s, (waiting s).Nodup → s.asked.Nodup := fun s hs => (List.nodup_append.mp hs).1
  refine ⟨visits_of_along hstep (fun s hs => ⟨hs.1, hasked s hs.2⟩) h0 (hes.and hrem),
    along_of_along hstep (fun s e hs he => ⟨hs.1.inFlight_ne_zero he.1, fun query id nodes heq =>
      heq ▸ merged_step s query id nodes⟩) h0 (hes.and hrem), ?_⟩
  have hend := hasked _ (exec_of_along hstep h0 (hes.and hrem)).2
  have hcount := exec_asked hes
  rw [init_asked] at hcount
  have hmem0 : ∀ x ∈ waiting (init targetID localID nodes), x ∈ S := by
    rw [waiting_init]
    intro x hx
    obtain ⟨n, hn, rfl⟩ := List.mem_map.mp hx
    exact hS n hn
  have hmem := exec_waiting_mem hmem0 hdrawn
  have hle : (exec step (init targetID localID nodes) es).asked.toFinset.card ≤ S.card :=
    Finset.card_le_card fun x hx =>
      hmem x (List.mem_append_left _ (List.mem_toFinset.mp hx))
  rw [List.toFinset_card_of_nodup hend] at hle
  omega

/-- A lookup for id 0 from nodes 1 and 2; node 1 answers with node 4, node 2 does not answer, and
node 4 answers with node 1, which still has its entry. -/
theorem asked_once_three :
    let node (n : Nat) : DHTNode := { ipaddr := "10.0.0.1", port := .ofNat n, id := .ofNat 160 n }
    let es : List Event :=
      [.reply (node 1) 1#160 [node 4], .timeout (node 2), .reply (node 4) 4#160 [node 1]]
    Visits step (fun s => Counted s ∧ s.asked.Nodup) (init 0#160 8#160 [node 1, node 2]) es ∧
    Along step (fun s e => s.inFlightMessage ≠ 0 ∧
      ∀ query id nodes, e = .reply query id nodes → Merged s.targetID (step s e).entries)
      (init 0#160 8#160 [node 1, node 2]) es ∧
    es.length ≤ ({1#160, 2#160, 4#160} : Finset ID).card := by
  intro node es
  refine asked_once 0#160 8#160 [node 1, node 2] es {1#160, 2#160, 4#160} ?_ ?_ ?_ ?_ ?_
  · decide
  · decide
  · decide
  · decide
  · exact (waiting_nodup_iff (by decide) es).mp (by decide)

/-- Node 1 does not answer and loses its entry; node 2 answers with node 1, which is asked again. -/
theorem asked_again_counterexample :
    let node (n : Nat) : DHTNode := { ipaddr := "10.0.0.1", port := .ofNat n, id := .ofNat 160 n }
    let es : List Event := [.timeout (node 1), .reply (node 2) 2#160 [node 1]]
    Along step Answers (init 0#160 8#160 [node 1, node 2]) es ∧
      (exec step (init 0#160 8#160 [node 1, node 2]) es).asked = [1#160, 2#160, 1#160] := by
  decide

end FluxCore.Dht.DHTAbstractNodeLookupTask
